import Mathlib.Data.FinEnum
import Mathlib.Logic.Equiv.Basic
import PrioPlus.Lib.Views
import PrioPlus.Lib.XorFold

/-!
# Xors of random words

The xor of independent words over a set that is not empty shows nothing about the set: the words can be moved, one to
one, to words whose xor over any other such set is the same (`exists_remask`), and so for many sets at once
(`exists_remask_family`). A word that can be moved by any amount takes every value equally often (`two_pow_mul_hits`).
-/

namespace PrioPlus.Lib.XorMask

open Function Lib.Views Lib.XorFold

variable {ι : Type*} [DecidableEq ι] {S S' : Finset ι} {p : ι}

theorem xorOver_update (hp : p ∈ S) (r : ι → UInt64) (w : UInt64) :
    xorOver S (update r p w) = w ^^^ xorOver (S.erase p) r := by
  have hrest : xorOver (S.erase p) (update r p w) = xorOver (S.erase p) r :=
    xorOver_congr fun i hi => update_of_ne (Finset.ne_of_mem_erase hi) _ _
  rw [← Finset.insert_erase hp, xorOver_insert (Finset.notMem_erase p S), hrest, update_self, Finset.erase_insert]
  exact Finset.notMem_erase p S

/-- The xor over `S` takes the place of the word of `p`. -/
def fold (S : Finset ι) (p : ι) (r : ι → UInt64) : ι → UInt64 := update r p (xorOver S r)

theorem fold_pivot (S : Finset ι) (p : ι) (r : ι → UInt64) : fold S p r p = xorOver S r := update_self _ _ _

theorem fold_fold (hp : p ∈ S) (r : ι → UInt64) : fold S p (fold S p r) = r := by
  have hxor : xorOver S r = r p ^^^ xorOver (S.erase p) r := by
    rw [← xorOver_update hp r (r p), update_eq_self]
  unfold fold
  rw [xorOver_update hp, update_idem, hxor, UInt64.xor_assoc, UInt64.xor_self, UInt64.xor_zero, update_eq_self]

theorem fold_injective (hp : p ∈ S) : Injective (fold S p) :=
  LeftInverse.injective fun r => fold_fold hp r

theorem xorOver_fold (hp : p ∈ S) (r : ι → UInt64) : xorOver S (fold S p r) = r p := by
  rw [← fold_pivot, fold_fold hp]

theorem fold_of_ne (r : ι → UInt64) {i : ι} (hi : i ≠ p) : fold S p r i = r i := update_of_ne hi _ _

theorem exists_remask (h : S.Nonempty ↔ S'.Nonempty) :
    ∃ e : (ι → UInt64) → ι → UInt64, Injective e ∧ (∀ r, xorOver S' (e r) = xorOver S r) ∧
      ∀ r i, i ∉ S → i ∉ S' → e r i = r i := by
  rcases S.eq_empty_or_nonempty with rfl | ⟨p, hp⟩
  · have hempty : S' = ∅ := Finset.not_nonempty_iff_eq_empty.mp (mt h.mpr Finset.not_nonempty_empty)
    exact ⟨id, injective_id, fun r => by rw [hempty]; rfl, fun _ _ _ _ => rfl⟩
  · obtain ⟨p', hp'⟩ := h.mp ⟨p, hp⟩
    refine ⟨fun r => fold S' p' (fold S p r ∘ Equiv.swap p p'), ?_, fun r => ?_, fun r i hi hi' => ?_⟩
    · have hswap := (Equiv.swap p p').surjective.injective_comp_right (γ := UInt64)
      exact fun r r' heq => fold_injective hp (hswap (fold_injective hp' heq))
    · rw [xorOver_fold hp', comp_apply, Equiv.swap_apply_right, fold_pivot]
    · have hne : i ≠ p := fun heq => hi (heq ▸ hp)
      have hne' : i ≠ p' := fun heq => hi' (heq ▸ hp')
      show fold S' p' (fold S p r ∘ Equiv.swap p p') i = r i
      rw [fold_of_ne _ hne', comp_apply, Equiv.swap_apply_of_ne_of_ne hne hne', fold_of_ne _ hne]

theorem exists_remask_family {J : Type*} {S S' : J → Finset ι} (h : ∀ j, (S j).Nonempty ↔ (S' j).Nonempty) :
    ∃ e : (ι → J → UInt64) → ι → J → UInt64, Injective e ∧
      (∀ r j, xorOver (S' j) (fun i => e r i j) = xorOver (S j) fun i => r i j) ∧
      ∀ r i j, i ∉ S j → i ∉ S' j → e r i j = r i j := by
  choose e hinj hxor hrest using fun j => exists_remask (h j)
  refine ⟨fun r i j => e j (fun i => r i j) i, fun r r' heq => ?_, fun r j => hxor j _, fun r i j => hrest j _ i⟩
  funext i j
  have hcol : e j (fun i => r i j) = e j fun i => r' i j := funext fun i => congrFun (congrFun heq i) j
  exact congrFun (hinj j hcol) i

/-- The word of `p` moved by `d`, and the xor with it. -/
def shiftAt (p : ι) (d : UInt64) (r : ι → UInt64) : ι → UInt64 := update r p (r p ^^^ d)

theorem shiftAt_shiftAt (p : ι) (d : UInt64) (r : ι → UInt64) : shiftAt p d (shiftAt p d r) = r := by
  unfold shiftAt
  rw [update_self, update_idem, UInt64.xor_assoc, UInt64.xor_self, UInt64.xor_zero, update_eq_self]

theorem xorOver_shiftAt (hp : p ∈ S) (d : UInt64) (r : ι → UInt64) : xorOver S (shiftAt p d r) = xorOver S r ^^^ d := by
  have hxor : xorOver S r = r p ^^^ xorOver (S.erase p) r := by
    rw [← xorOver_update hp r (r p), update_eq_self]
  rw [shiftAt, xorOver_update hp, hxor, UInt64.xor_assoc, UInt64.xor_comm d, ← UInt64.xor_assoc]

/-- A word that can be moved by any amount, one to one, takes every value equally often. -/
theorem two_pow_mul_hits {W : Type*} [Fintype W] (g : W → UInt64) (move : UInt64 → W → W)
    (hmove : ∀ d, Injective (move d)) (hg : ∀ d w, g (move d w) = g w ^^^ d) (v : UInt64) :
    2 ^ 64 * hits g v = Fintype.card W := by
  have hle : ∀ v v' : UInt64, hits g v ≤ hits g v' := by
    intro v v'
    refine Finset.card_le_card_of_injOn (move (v ^^^ v')) (fun w hw => ?_) (hmove _).injOn
    rw [Finset.mem_coe, Finset.mem_filter] at hw ⊢
    refine ⟨Finset.mem_univ _, ?_⟩
    rw [hg, hw.2, ← UInt64.xor_assoc, UInt64.xor_self, UInt64.zero_xor]
  have hsum := sum_hits (f := g) (s := Finset.univ) fun _ => Finset.mem_univ _
  rwa [Finset.sum_const_nat fun v' _ => Nat.le_antisymm (hle v' v) (hle v v'), Finset.card_univ,
    ← FinEnum.card_eq_fintypeCard, FinEnum.card_UInt64] at hsum

end PrioPlus.Lib.XorMask

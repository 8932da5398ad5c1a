import Mathlib.Algebra.Order.BigOperators.Ring.Finset
import Mathlib.Data.Fintype.BigOperators

/-!
# Views of independent draws

At each position `p` a word is drawn and `f p` of it can be seen. `viewHits f v` is the number of assignments of words
to positions under which `v` is seen. Two families of functions cannot be told apart by what is seen exactly when they
cannot at any single position (`viewHits_eq_iff`). A view of a secret `RevealsOnly` some function of it when secrets on
which the function agrees are seen equally often as anything.
-/

namespace PrioPlus.Lib.Views

open Finset

variable {P W O : Type*} [Fintype P] [DecidableEq P] [Fintype W] [DecidableEq O]

/-- The number of words that show as `o`. -/
def hits (f : W → O) (o : O) : ℕ := (univ.filter fun w => f w = o).card

section Hits

variable {f : W → O} {o : O}

theorem hits_pos_iff : 0 < hits f o ↔ ∃ w, f w = o := by
  rw [hits, card_pos, filter_nonempty_iff]
  simp

theorem hits_eq_zero (h : ∀ w, f w ≠ o) : hits f o = 0 := by
  rw [hits, card_eq_zero, filter_eq_empty_iff]
  exact fun w _ => h w

theorem hits_le_one (h : ∀ w w', f w = o → f w' = o → w = w') : hits f o ≤ 1 := by
  rw [hits, card_le_one]
  intro w hw w' hw'
  exact h w w' (mem_filter.mp hw).2 (mem_filter.mp hw').2

theorem one_lt_hits {w w' : W} (hne : w ≠ w') (hw : f w = o) (hw' : f w' = o) : 1 < hits f o :=
  one_lt_card.mpr ⟨w, mem_filter.mpr ⟨mem_univ _, hw⟩, w', mem_filter.mpr ⟨mem_univ _, hw'⟩, hne⟩

theorem hits_lt_hits {g : W → O} (hf : ∀ w, f w ≠ o) (hg : ∃ w, g w = o) : hits f o < hits g o := by
  rw [hits_eq_zero hf]
  exact hits_pos_iff.mpr hg

theorem hits_eq_one (hf : Function.Bijective f) (o : O) : hits f o = 1 := by
  obtain ⟨w, hw⟩ := hf.2 o
  exact Nat.le_antisymm (hits_le_one fun _ _ h h' => hf.1 (h.trans h'.symm)) (hits_pos_iff.mpr ⟨w, hw⟩)

/-- Words that can be moved, one to one, to words that show as the same. -/
theorem hits_le_of_injective {g : W → O} {e : W → W} (he : Function.Injective e) (h : ∀ w, g (e w) = f w) (o : O) :
    hits f o ≤ hits g o := by
  refine card_le_card_of_injOn e (fun w hw => ?_) he.injOn
  rw [mem_coe, mem_filter] at hw ⊢
  exact ⟨mem_univ _, (h w).trans hw.2⟩

/-- Both ways, so that every observation is equally frequent. -/
theorem hits_eq_of_injective {g : W → O} {e e' : W → W} (he : Function.Injective e) (h : ∀ w, g (e w) = f w)
    (he' : Function.Injective e') (h' : ∀ w, f (e' w) = g w) (o : O) : hits f o = hits g o :=
  Nat.le_antisymm (hits_le_of_injective he h o) (hits_le_of_injective he' h' o)

theorem sum_hits {s : Finset O} (hs : ∀ w, f w ∈ s) : ∑ o ∈ s, hits f o = Fintype.card W :=
  (card_eq_sum_card_fiberwise fun w _ => hs w).symm

end Hits

/-! ### Secrets -/

section Secrets

variable {X L : Type*}

open Classical in
/-- What is seen of a secret, over all draws, depends on nothing but `leak` of it. -/
def RevealsOnly {O : Type*} (view : X → W → O) (leak : X → L) : Prop :=
  ∀ x x', leak x = leak x' → ∀ o, hits (view x) o = hits (view x') o

/-- The draws of one secret can be moved, one to one, to draws with which the other secret looks the same. -/
theorem RevealsOnly.of_injective {O : Type*} {view : X → W → O} {leak : X → L}
    (h : ∀ x x', leak x = leak x' → ∃ e : W → W, Function.Injective e ∧ ∀ w, view x' (e w) = view x w) :
    RevealsOnly view leak := by
  intro x x' hleak o
  obtain ⟨e, he, hview⟩ := h x x' hleak
  obtain ⟨e', he', hview'⟩ := h x' x hleak.symm
  classical
  exact hits_eq_of_injective he hview he' hview' o

/-- A part of the draws may be fixed first, when nothing else depends on it. -/
theorem RevealsOnly.of_fst {K O : Type*} [Fintype K] {view : X → K × W → O} {leak : X → L}
    (h : ∀ k, RevealsOnly (fun x w => view x (k, w)) leak) : RevealsOnly view leak := by
  intro x x' hleak o
  classical
  have hsplit : ∀ x, hits (view x) o = ∑ k, hits (fun w => view x (k, w)) o := by
    intro x
    simp only [hits, card_filter]
    rw [Fintype.sum_prod_type]
  rw [hsplit, hsplit]
  exact sum_congr rfl fun k _ => h k x x' hleak o

end Secrets

/-- The number of assignments that show as `v`. -/
def viewHits (f : P → W → O) (v : P → O) : ℕ := (univ.filter fun words : P → W => ∀ p, f p (words p) = v p).card

variable {f g : P → W → O}

theorem viewHits_eq_prod (f : P → W → O) (v : P → O) : viewHits f v = ∏ p, hits (f p) (v p) := by
  have hpi : (univ.filter fun words : P → W => ∀ p, f p (words p) = v p) =
      Fintype.piFinset fun p => univ.filter fun w => f p w = v p := by
    ext words
    simp [Fintype.mem_piFinset]
  rw [viewHits, hpi, Fintype.card_piFinset]
  rfl

theorem viewHits_update (f : P → W → O) (v : P → O) (p : P) (o : O) :
    viewHits f (Function.update v p o) = hits (f p) o * ∏ q ∈ univ.erase p, hits (f q) (v q) := by
  rw [viewHits_eq_prod, ← mul_prod_erase univ _ (mem_univ p), Function.update_self]
  congr 1
  exact prod_congr rfl fun q hq => by rw [Function.update_of_ne (ne_of_mem_erase hq)]

/-- What is seen at the other positions is kept fixed, and possible. Its share of the count cancels, because the counts
at one position add up to all words. -/
theorem hits_eq_of_viewHits_eq [Nonempty W] (h : ∀ v, viewHits f v = viewHits g v) (p : P) (o : O) :
    hits (f p) o = hits (g p) o := by
  obtain ⟨w⟩ := ‹Nonempty W›
  let v : P → O := fun q => f q w
  let a := ∏ q ∈ univ.erase p, hits (f q) (v q)
  let b := ∏ q ∈ univ.erase p, hits (g q) (v q)
  have hsplit : ∀ o, hits (f p) o * a = hits (g p) o * b := by
    intro o
    have hview := h (Function.update v p o)
    rwa [viewHits_update, viewHits_update] at hview
  have hpos : 0 < a := prod_pos fun q _ => hits_pos_iff.mpr ⟨w, rfl⟩
  have hcard : 0 < Fintype.card W := Fintype.card_pos_iff.mpr ⟨w⟩
  have hab : a = b := by
    let s := univ.image (f p) ∪ univ.image (g p)
    have hf : ∑ o ∈ s, hits (f p) o = Fintype.card W :=
      sum_hits fun w => mem_union_left _ (mem_image_of_mem _ (mem_univ w))
    have hg : ∑ o ∈ s, hits (g p) o = Fintype.card W :=
      sum_hits fun w => mem_union_right _ (mem_image_of_mem _ (mem_univ w))
    apply Nat.eq_of_mul_eq_mul_left hcard
    calc Fintype.card W * a = ∑ o ∈ s, hits (f p) o * a := by rw [← sum_mul, hf]
      _ = ∑ o ∈ s, hits (g p) o * b := sum_congr rfl fun o _ => hsplit o
      _ = Fintype.card W * b := by rw [← sum_mul, hg]
  have ho := hsplit o
  rw [← hab] at ho
  exact Nat.eq_of_mul_eq_mul_right hpos ho

theorem viewHits_eq_iff [Nonempty W] : (∀ v, viewHits f v = viewHits g v) ↔ ∀ p o, hits (f p) o = hits (g p) o := by
  constructor
  · exact hits_eq_of_viewHits_eq
  · intro h v
    rw [viewHits_eq_prod, viewHits_eq_prod]
    exact prod_congr rfl fun p _ => h p (v p)

end PrioPlus.Lib.Views

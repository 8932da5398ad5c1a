import Mathlib.Data.Fintype.Card
import Mathlib.Data.Fintype.Prod
import PrioPlus.Server.MaxOp

/-!
# The array accesses of `max_op`

The index of the scan is unsigned, so its loop condition `j >= 0` never fails and only a difference ends it
(`scanMeets_iff`). The slots of the submissions are products of two 32-bit values, and they are apart from each other
and inside the allocation exactly when the allocation's own size does not wrap (`slotsFit_iff`).
-/

namespace PrioPlus

/-! ### The scan -/

/-- How the scan ends: with `ans` set, behind the loop, or in `error_exit`. -/
inductive ScanEnd where
  | ans (v : UInt64)
  | invalid
  | errorExit
deriving DecidableEq

/-- The end of the scan at a difference in index `j`. -/
def ScanEnd.at (B : UInt32) (type : MessageType) (j : ℕ) : ScanEnd := (maxAnswer B type j).elim .errorExit .ans

/-- `fuel` turns of `for (unsigned int j = B; j >= 0; j--)` from `j` on, where `a` and `b` are all the words that an
unsigned index reaches: the indices that are read, and the end of the scan once there is one. -/
def scanLoop (B : UInt32) (type : MessageType) (a b : UInt32 → UInt64) : ℕ → UInt32 → List UInt32 × Option ScanEnd
  | 0, _ => ([], none)
  | fuel + 1, j =>
    if j ≥ 0 then
      if a j ≠ b j then ([j], some (.at B type j.toNat))
      else (j :: (scanLoop B type a b fuel (j - 1)).1, (scanLoop B type a b fuel (j - 1)).2)
    else ([], some .invalid)

section Scan

variable (B : UInt32) (type : MessageType) (a b : UInt32 → UInt64)

/-- What the scan should do: it ends, it stays in the `B + 1` words of the arrays, and it says so when they agree. -/
structure ScanMeets : Prop where
  ends : ∃ fuel, (scanLoop B type a b fuel B).2.isSome
  inBounds : ∀ fuel, ∀ j ∈ (scanLoop B type a b fuel B).1, j ≤ B
  invalid : (∀ j, j ≤ B → a j = b j) → ∃ fuel, (scanLoop B type a b fuel B).2 = some .invalid

variable {a b}

theorem scanLoop_differ {j : UInt32} (h : a j ≠ b j) (fuel : ℕ) :
    scanLoop B type a b (fuel + 1) j = ([j], some (.at B type j.toNat)) := by
  rw [scanLoop, if_pos (UInt32.zero_le), if_pos h]

theorem scanLoop_same {j : UInt32} (h : a j = b j) (fuel : ℕ) :
    scanLoop B type a b (fuel + 1) j =
      (j :: (scanLoop B type a b fuel (j - 1)).1, (scanLoop B type a b fuel (j - 1)).2) := by
  rw [scanLoop, if_pos (UInt32.zero_le), if_neg (not_not.mpr h)]

variable (a b)

/-- The return behind the loop is never reached. -/
theorem scanLoop_ne_invalid (fuel : ℕ) (j : UInt32) : (scanLoop B type a b fuel j).2 ≠ some .invalid := by
  induction fuel generalizing j with
  | zero => exact Option.some_ne_none _ ∘ Eq.symm
  | succ fuel ih =>
    by_cases h : a j = b j
    · rw [scanLoop_same B type h]
      exact ih (j - 1)
    · rw [scanLoop_differ B type h]
      unfold ScanEnd.at
      cases maxAnswer B type j.toNat <;> exact nofun

theorem toNat_pred {j : UInt32} {n : ℕ} (h : j.toNat = n + 1) : (j - 1).toNat = n := by
  have hle : (1 : UInt32) ≤ j := by
    rw [UInt32.le_iff_toNat_le, h]
    exact Nat.le_add_left _ _
  rw [UInt32.toNat_sub_of_le _ _ hle, h]
  rfl

theorem scanLoop_eq_scanDown (j : UInt32) :
    (scanLoop B type a b (j.toNat + 1) j).2 =
      (scanDown (fun i => a (UInt32.ofNat i) ≠ b (UInt32.ofNat i)) (j.toNat + 1)).map (ScanEnd.at B type) := by
  generalize hn : j.toNat = n
  induction n generalizing j with
  | zero =>
    obtain rfl : j = UInt32.ofNat 0 := UInt32.toNat_inj.mp hn
    by_cases h : a (UInt32.ofNat 0) = b (UInt32.ofNat 0)
    · rw [scanLoop_same B type h, scanDown, if_neg (by simpa using h)]
      rfl
    · rw [scanLoop_differ B type h, scanDown, if_pos (by simpa using h)]
      rfl
  | succ n ih =>
    have hj : UInt32.ofNat (n + 1) = j := by rw [← hn, UInt32.ofNat_toNat]
    rw [scanDown, hj]
    by_cases h : a j = b j
    · rw [scanLoop_same B type h, if_neg (by simpa using h)]
      exact ih (j - 1) (toNat_pred hn)
    · rw [scanLoop_differ B type h, if_pos (by simpa using h), hn]
      rfl

theorem le_of_mem_scanLoop {i j : UInt32} (hij : i ≤ j) (h : a i ≠ b i) (fuel : ℕ) :
    ∀ k ∈ (scanLoop B type a b fuel j).1, k ≤ j := by
  induction fuel generalizing j with
  | zero => exact fun k hk => absurd hk List.not_mem_nil
  | succ fuel ih =>
    intro k hk
    by_cases hj : a j = b j
    · rw [scanLoop_same B type hj, List.mem_cons] at hk
      have hne : i.toNat ≠ j.toNat := by
        intro heq
        rw [UInt32.toNat_inj.mp heq] at h
        exact h hj
      rw [UInt32.le_iff_toNat_le] at hij ⊢
      have hpred : (j - 1).toNat = j.toNat - 1 := toNat_pred (by omega)
      rcases hk with rfl | hk
      · exact le_rfl
      · have hle := ih (by rw [UInt32.le_iff_toNat_le]; omega) k hk
        rw [UInt32.le_iff_toNat_le] at hle
        omega
    · rw [scanLoop_differ B type hj, List.mem_singleton] at hk
      rw [hk]
      exact UInt32.le_rfl

theorem scanMeets_iff : ScanMeets B type a b ↔ ∃ j, j ≤ B ∧ a j ≠ b j := by
  constructor
  · intro hmeets
    by_contra hagree
    push Not at hagree
    obtain ⟨fuel, hinvalid⟩ := hmeets.invalid hagree
    exact scanLoop_ne_invalid B type a b fuel B hinvalid
  · rintro ⟨j, hj, hdiff⟩
    refine ⟨⟨B.toNat + 1, ?_⟩, fun fuel => le_of_mem_scanLoop B type a b hj hdiff fuel, fun hagree => ?_⟩
    · obtain ⟨i, hi⟩ := @exists_scanDown (fun i => a (UInt32.ofNat i) ≠ b (UInt32.ofNat i)) _ _
        (Nat.lt_succ_of_le (UInt32.le_iff_toNat_le.mp hj)) (by simpa using hdiff)
      rw [scanLoop_eq_scanDown, hi]
      rfl
    · exact absurd (hagree j hj) hdiff

end Scan

/-- Two arrays of zeros, as every batch leaves them in which the encodings cancel. -/
theorem not_scanMeets_zeros : ¬ ScanMeets 3 .maxOp (fun _ => 0) (fun _ => 0) := by
  intro hmeets
  have hread : -1 ∈ (scanLoop 3 .maxOp (fun _ => 0) (fun _ => 0) 5 3).1 := by decide
  exact absurd (hmeets.inBounds 5 (-1) hread) (by decide)

theorem maxScan_eq_ret_iff {B : UInt32} {type : MessageType} {total numValid : ℕ} {a b : List UInt64}
    (hvalid : total ≤ 2 * numValid) (v : UInt64) :
    maxScan B type total numValid a b = .ret { ret := .ans, numValid := numValid, ans := some v } ↔
      (scanLoop B type (fun j => a.getD j.toNat 0) (fun j => b.getD j.toNat 0) (B.toNat + 1) B).2 = some (.ans v) := by
  have hscan : scanDown (fun j => a.getD j 0 ≠ b.getD j 0) (B.toNat + 1) =
      scanDown (fun i => a.getD (UInt32.ofNat i).toNat 0 ≠ b.getD (UInt32.ofNat i).toNat 0) (B.toNat + 1) := by
    apply scanDown_congr
    intro j hj
    rw [UInt32.toNat_ofNat_of_lt' ((Nat.le_of_lt_succ hj).trans_lt B.toNat_lt)]
  have hlow : ¬ belowThreshold numValid total = true := by
    rw [belowThreshold_iff]
    omega
  rw [scanLoop_eq_scanDown, ← hscan, maxScan, if_neg hlow]
  cases scanDown (fun j => a.getD j 0 ≠ b.getD j 0) (B.toNat + 1) with
  | none =>
    constructor
    · rintro ⟨⟩
    · rintro ⟨⟩
  | some j =>
    rw [Option.bind_some, Option.map_some, ScanEnd.at]
    cases maxAnswer B type j with
    | none =>
      constructor
      · rintro ⟨⟩
      · rintro ⟨⟩
    | some w =>
      constructor
      · rintro ⟨⟩
        rfl
      · rintro ⟨⟩
        rfl

/-! ### The slots -/

/-- The slots of the submissions lie inside the `total * (B + 1)` allocated words, a product in 32 bits, and no two
submissions share one. -/
structure SlotsFit (total B : UInt32) : Prop where
  inside : ∀ i, i < total.toNat → ∀ j, j ≤ B.toNat → sliceAt B i + j < (total * (B + 1)).toNat
  disjoint : ∀ i i', i < total.toNat → i' < total.toNat → i ≠ i' → ∀ j j', j ≤ B.toNat → j' ≤ B.toNat →
    sliceAt B i + j ≠ sliceAt B i' + j'

theorem SlotsFit.le_allocated {total B : UInt32} (h : SlotsFit total B) :
    total.toNat * (B.toNat + 1) ≤ (total * (B + 1)).toNat := by
  let slot : Fin total.toNat × Fin (B.toNat + 1) → Fin (total * (B + 1)).toNat := fun s =>
    ⟨sliceAt B s.1 + s.2, h.inside s.1 s.1.isLt s.2 (Nat.le_of_lt_succ s.2.isLt)⟩
  have hslot : Function.Injective slot := by
    rintro ⟨i, j⟩ ⟨i', j'⟩ heq
    have hval : sliceAt B i + j = sliceAt B i' + j' := congrArg Fin.val heq
    by_cases hi : i = i'
    · subst hi
      rw [Fin.ext (Nat.add_left_cancel hval)]
    · exact absurd hval (h.disjoint i i' i.isLt i'.isLt (mt Fin.ext hi) j j' (Nat.le_of_lt_succ j.isLt)
        (Nat.le_of_lt_succ j'.isLt))
  simpa using Fintype.card_le_of_injective slot hslot

theorem sliceAt_add_lt_of_lt {total B : UInt32} (hsize : total.toNat * (B.toNat + 1) < 2 ^ 32) {i i' : ℕ} (hi : i < i')
    (hi' : i' < total.toNat) {j : ℕ} (hj : j ≤ B.toNat) : sliceAt B i + j < sliceAt B i' := by
  rw [sliceAt_eq total.toNat_lt (hi.trans hi') hsize, sliceAt_eq total.toNat_lt hi' hsize]
  calc i * (B.toNat + 1) + j
    _ < (i + 1) * (B.toNat + 1) := by rw [Nat.succ_mul]; omega
    _ ≤ i' * (B.toNat + 1) := Nat.mul_le_mul_right _ hi

theorem slotsFit_iff (total B : UInt32) : SlotsFit total B ↔ total.toNat * (B.toNat + 1) < 2 ^ 32 := by
  constructor
  · intro h
    exact h.le_allocated.trans_lt (UInt32.toNat_lt _)
  · intro hsize
    constructor
    · intro i hi j hj
      have hB : B.toNat + 1 < 2 ^ 32 := (Nat.le_mul_of_pos_left _ (Nat.zero_lt_of_lt hi)).trans_lt hsize
      have hle := sliceAt_add_le total.toNat_lt hi hsize
      rw [MaxRequest.toNat_succ hB, UInt32.ofNat_toNat] at hle
      omega
    · intro i i' hi hi' hne j j' hj hj'
      rcases Nat.lt_or_gt_of_ne hne with hlt | hlt
      · have := sliceAt_add_lt_of_lt hsize hlt hi' hj
        omega
      · have := sliceAt_add_lt_of_lt hsize hlt hi hj'
        omega

/-- With `65536` submissions of `65536` words the size wraps to 0. -/
theorem not_slotsFit_wrapped : ¬ SlotsFit 65536 65535 := by
  intro h
  exact absurd (h.inside 0 (by decide) 0 (Nat.zero_le _)) (by decide)

end PrioPlus

import Mathlib.Algebra.BigOperators.Group.List.Basic
import Mathlib.Data.List.GetD
import Mathlib.Data.UInt

/-!
# Rows of words, added up column by column

A total is right when the exact sum of its column is a word (`toNat_sum_of_lt`).
-/

namespace PrioPlus.Lib.WordRows

theorem toNat_sum_of_lt {l : List UInt64} (h : (l.map UInt64.toNat).sum < 2 ^ 64) :
    l.sum.toNat = (l.map UInt64.toNat).sum := by
  induction l with
  | nil => rfl
  | cons w l ih =>
    rw [List.map_cons, List.sum_cons] at h ⊢
    rw [List.sum_cons, UInt64.toNat_add, ih (by omega), Nat.mod_eq_of_lt h]

theorem eq_of_toNat_getD {l l' : List UInt64} (hlen : l.length = l'.length)
    (h : ∀ i < l.length, (l.getD i 0).toNat = (l'.getD i 0).toNat) : l = l' := by
  apply List.ext_getElem hlen
  intro i hi hi'
  have hword := h i hi
  rw [List.getD_eq_getElem _ _ hi, List.getD_eq_getElem _ _ hi'] at hword
  exact UInt64.toNat_inj.mp hword

/-- The totals after a row. -/
def addRow (totals row : List UInt64) : List UInt64 := List.zipWith (· + ·) totals row

theorem getD_addRow {totals row : List UInt64} (h : row.length = totals.length) (i : ℕ) :
    (addRow totals row).getD i 0 = totals.getD i 0 + row.getD i 0 := by
  unfold addRow
  simp only [List.getD_eq_getElem?_getD, List.getElem?_zipWith]
  by_cases hi : i < totals.length
  · rw [List.getElem?_eq_getElem hi, List.getElem?_eq_getElem (by omega)]
    rfl
  · rw [List.getElem?_eq_none (by omega), List.getElem?_eq_none (by omega)]
    rfl

theorem length_addRow {totals row : List UInt64} (h : row.length = totals.length) :
    (addRow totals row).length = totals.length := by
  rw [addRow, List.length_zipWith, h, Nat.min_self]

variable {β : Type*} {row : β → List UInt64}

theorem length_foldl_addRow {n : ℕ} (hrow : ∀ b, (row b).length = n) (l : List β) {totals : List UInt64}
    (h : totals.length = n) : (l.foldl (fun totals b => addRow totals (row b)) totals).length = n := by
  induction l generalizing totals with
  | nil => exact h
  | cons b l ih => exact ih ((length_addRow ((hrow b).trans h.symm)).trans h)

theorem getD_foldl_addRow {n : ℕ} (hrow : ∀ b, (row b).length = n) (l : List β) {totals : List UInt64}
    (h : totals.length = n) (i : ℕ) :
    (l.foldl (fun totals b => addRow totals (row b)) totals).getD i 0 =
      totals.getD i 0 + (l.map fun b => (row b).getD i 0).sum := by
  induction l generalizing totals with
  | nil => simp
  | cons b l ih =>
    have hlen := (hrow b).trans h.symm
    rw [List.foldl_cons, ih ((length_addRow hlen).trans h), getD_addRow hlen, List.map_cons, List.sum_cons,
      UInt64.add_assoc]

theorem getD_foldl_addRow_zero {n : ℕ} (hrow : ∀ b, (row b).length = n) (l : List β) (i : ℕ) :
    (l.foldl (fun totals b => addRow totals (row b)) (List.replicate n 0)).getD i 0 =
      (l.map fun b => (row b).getD i 0).sum := by
  have hzero : (List.replicate n (0 : UInt64)).getD i 0 = 0 := by
    rw [List.getD_eq_getElem?_getD, List.getElem?_replicate]
    split_ifs <;> rfl
  rw [getD_foldl_addRow hrow l List.length_replicate, hzero, UInt64.zero_add]

end PrioPlus.Lib.WordRows

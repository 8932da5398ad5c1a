import Mathlib.Data.List.Nodup
import Mathlib.Tactic.Linarith
import PrioPlus.Lib.FlatLoop

/-!
# The entries of a triangle, row by row

The pairs `i ≤ j < n` in the order of two nested loops (`mem_triPairs`, `length_triPairs`), and a symmetric matrix that
such loops fill: it holds what was written to an entry, on both sides of the diagonal (`foldl_setSym`).
-/

namespace PrioPlus.Lib.Triangle

open FlatLoop

/-- The pairs `(i, j)` with `i ≤ j < n`, by `i` and then by `j`. -/
def triPairs (n : ℕ) : List (ℕ × ℕ) := (List.range n).flatMap fun i => (List.range' i (n - i)).map fun j => (i, j)

theorem mem_triPairs {n : ℕ} {q : ℕ × ℕ} : q ∈ triPairs n ↔ q.1 ≤ q.2 ∧ q.2 < n := by
  obtain ⟨i, j⟩ := q
  simp only [triPairs, List.mem_flatMap, List.mem_map, List.mem_range, List.mem_range'_1, Prod.mk.injEq]
  constructor
  · rintro ⟨i', hi', j', hj', rfl, rfl⟩
    omega
  · rintro ⟨hij, hj⟩
    exact ⟨i, by omega, j, by omega, rfl, rfl⟩

theorem nodup_triPairs (n : ℕ) : (triPairs n).Nodup := by
  rw [triPairs, List.nodup_flatMap]
  constructor
  · intro i _
    exact (List.nodup_range' _).map fun j j' h => congrArg Prod.snd h
  · refine List.nodup_range.imp fun {i i'} hne => ?_
    show List.Disjoint _ _
    rw [List.disjoint_left]
    intro q hq hq'
    obtain ⟨j, -, rfl⟩ := List.mem_map.mp hq
    obtain ⟨j', -, heq⟩ := List.mem_map.mp hq'
    exact hne (congrArg Prod.fst heq).symm

theorem two_mul_offset_sub {n k : ℕ} (hk : k ≤ n) : 2 * offset (fun i => n - i) k + k * k = k * (2 * n + 1) := by
  induction k with
  | zero => simp
  | succ k ih =>
    obtain ⟨m, rfl⟩ := Nat.exists_eq_add_of_le hk
    have hrow : k + 1 + m - k = m + 1 := by omega
    have hprev := ih (by omega)
    rw [offset_succ, hrow]
    linarith

theorem length_triPairs (n : ℕ) : (triPairs n).length = n * (n + 1) / 2 := by
  have hrows : (triPairs n).length = offset (fun i => n - i) n := by
    rw [triPairs, length_flatMap_range]
    simp
  have hoffset := two_mul_offset_sub (le_refl n)
  have hdouble : 2 * (triPairs n).length = n * (n + 1) := by
    rw [hrows]
    linarith
  rw [← hdouble, Nat.mul_div_cancel_left _ Nat.two_pos]

/-- The position of a pair. -/
def triRank (n i j : ℕ) : ℕ := i * (2 * n + 1 - i) / 2 + (j - i)

theorem offset_sub {n i : ℕ} (hi : i ≤ n) : offset (fun i => n - i) i = i * (2 * n + 1 - i) / 2 := by
  have hoffset := two_mul_offset_sub hi
  have hdouble : i * (2 * n + 1 - i) = 2 * offset (fun i => n - i) i := by
    rw [Nat.mul_sub]
    omega
  rw [hdouble, Nat.mul_div_cancel_left _ Nat.two_pos]

theorem getElem?_triRank {n i j : ℕ} (hij : i ≤ j) (hj : j < n) : (triPairs n)[triRank n i j]? = some (i, j) := by
  have hget := getElem?_flatMap_range (fun i => (List.range' i (n - i)).map fun j => (i, j)) (hij.trans_lt hj)
    (k := j - i) (by rw [List.length_map, List.length_range']; omega)
  simp only [List.length_map, List.length_range'] at hget
  rw [triRank, ← offset_sub (by omega), triPairs, hget, List.getElem?_map, List.getElem?_range' (by omega),
    Option.map_some, Nat.one_mul, Nat.add_sub_cancel' hij]

theorem triRank_eq_iff {n i j r : ℕ} (hij : i ≤ j) (hj : j < n) :
    triRank n i j = r ↔ (triPairs n)[r]? = some (i, j) := by
  have hget := getElem?_triRank hij hj
  refine ⟨fun h => h ▸ hget, fun h => ?_⟩
  exact (List.getElem?_inj (List.getElem?_eq_some_iff.mp hget).1 (nodup_triPairs n)).mp (hget.trans h.symm)

theorem triRank_lt {n i j : ℕ} (hij : i ≤ j) (hj : j < n) : triRank n i j < n * (n + 1) / 2 := by
  rw [← length_triPairs]
  exact (List.getElem?_eq_some_iff.mp (getElem?_triRank hij hj)).1

theorem triRank_lt_triRank {n i j i' j' : ℕ} (hij : i ≤ j) (hj : j < n) (hij' : i' ≤ j')
    (hlt : i < i' ∨ i = i' ∧ j < j') (hj' : j' < n) : triRank n i j < triRank n i' j' := by
  rcases hlt with hlt | ⟨rfl, hlt⟩
  · have hmono := offset_mono (fun i => n - i) (Nat.succ_le_of_lt hlt)
    rw [offset_succ] at hmono
    rw [triRank, triRank, ← offset_sub (by omega), ← offset_sub (by omega)]
    omega
  · rw [triRank, triRank]
    omega

/-! ### Symmetric matrices -/

variable {α : Type*}

/-- Write one entry. -/
def setEntry (X : ℕ → ℕ → α) (i j : ℕ) (v : α) : ℕ → ℕ → α := fun a b => if a = i ∧ b = j then v else X a b

/-- Write an entry and its mirror image. -/
def setSym (X : ℕ → ℕ → α) (i j : ℕ) (v : α) : ℕ → ℕ → α := setEntry (setEntry X i j v) j i v

theorem setSym_apply (X : ℕ → ℕ → α) (i j : ℕ) (v : α) (a b : ℕ) :
    setSym X i j v a b = if (a = i ∧ b = j) ∨ (a = j ∧ b = i) then v else X a b := by
  unfold setSym setEntry
  by_cases hmirror : a = j ∧ b = i
  · rw [if_pos hmirror, if_pos (Or.inr hmirror)]
  · rw [if_neg hmirror]
    exact if_congr (or_iff_left hmirror).symm rfl rfl

theorem foldl_setSym_of_forall_ne {β : Type*} (l : List β) (key : β → ℕ × ℕ) (val : β → α) (X : ℕ → ℕ → α) {a b : ℕ}
    (h : ∀ q ∈ l, key q ≠ (a, b) ∧ key q ≠ (b, a)) :
    l.foldl (fun X q => setSym X (key q).1 (key q).2 (val q)) X a b = X a b := by
  induction l generalizing X with
  | nil => rfl
  | cons q l ih =>
    obtain ⟨hne, hne'⟩ := h q List.mem_cons_self
    rw [List.foldl_cons, ih _ fun q' hq' => h q' (List.mem_cons_of_mem q hq'), setSym_apply, if_neg]
    rintro (⟨rfl, rfl⟩ | ⟨rfl, rfl⟩)
    · exact hne rfl
    · exact hne' rfl

/-- What a loop writes to an entry is there in the end, when it writes to no entry twice. -/
theorem foldl_setSym {β : Type*} (l : List β) (key : β → ℕ × ℕ) (val : β → α) (X : ℕ → ℕ → α)
    (hnodup : (l.map key).Nodup) (hle : ∀ q ∈ l, (key q).1 ≤ (key q).2) {q : β} (hq : q ∈ l) :
    let Y := l.foldl (fun X q => setSym X (key q).1 (key q).2 (val q)) X
    Y (key q).1 (key q).2 = val q ∧ Y (key q).2 (key q).1 = val q := by
  induction l generalizing X with
  | nil => exact absurd hq List.not_mem_nil
  | cons q' l ih =>
    rw [List.map_cons, List.nodup_cons] at hnodup
    obtain ⟨hnew, hnodup⟩ := hnodup
    rcases List.mem_cons.mp hq with rfl | hmem
    · have hne : ∀ q' ∈ l, key q' ≠ ((key q).1, (key q).2) ∧ key q' ≠ ((key q).2, (key q).1) := by
        intro q' hq'
        have hne : key q' ≠ key q := fun h => hnew (h ▸ List.mem_map_of_mem hq')
        refine ⟨hne, fun h => hne ?_⟩
        -- a mirror image above the diagonal is on the diagonal
        have hle' := hle q' (List.mem_cons_of_mem q hq')
        have hle := hle q List.mem_cons_self
        rw [h] at hle'
        rw [h]
        exact Prod.ext (le_antisymm hle' hle) (le_antisymm hle hle')
      intro Y
      have hY : ∀ a b, (∀ q' ∈ l, key q' ≠ (a, b) ∧ key q' ≠ (b, a)) →
          Y a b = setSym X (key q).1 (key q).2 (val q) a b :=
        fun a b h => foldl_setSym_of_forall_ne l key val _ h
      rw [hY _ _ hne, hY _ _ fun q' hq' => (hne q' hq').symm, setSym_apply, setSym_apply]
      simp
    · exact ih _ hnodup (fun q hq => hle q (List.mem_cons_of_mem q' hq)) hmem

end PrioPlus.Lib.Triangle

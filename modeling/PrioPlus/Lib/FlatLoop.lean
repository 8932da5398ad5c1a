import Mathlib.Algebra.BigOperators.Group.List.Basic
import Mathlib.Tactic.Ring

/-!
# Nested loops over one running index

A nested loop that writes one entry of a flat array each time round fills it block by block. Entry `k` of block `j`
is found at the length of the earlier blocks plus `k` (`getElem?_flatMap_range`, and `getElem?_flatMap_const` for
blocks of one length).
-/

namespace PrioPlus.Lib.FlatLoop

/-- The running index at the start of block `j`, when block `i` has `len i` entries. -/
def offset (len : ℕ → ℕ) (j : ℕ) : ℕ := ((List.range j).map len).sum

@[simp] theorem offset_zero (len : ℕ → ℕ) : offset len 0 = 0 := rfl

@[simp] theorem offset_succ (len : ℕ → ℕ) (j : ℕ) : offset len (j + 1) = offset len j + len j := by
  simp [offset, List.range_succ]

theorem offset_const (c j : ℕ) : offset (fun _ => c) j = j * c := by
  induction j with
  | zero => simp
  | succ j ih =>
    rw [offset_succ, ih]
    ring

theorem offset_mono (len : ℕ → ℕ) {i j : ℕ} (h : i ≤ j) : offset len i ≤ offset len j := by
  induction h with
  | refl => exact le_rfl
  | step _ ih =>
    rw [offset_succ]
    omega

theorem offset_add (len : ℕ → ℕ) (i j : ℕ) : offset len (i + j) = offset len i + offset (fun k => len (i + k)) j := by
  induction j with
  | zero => rfl
  | succ j ih => rw [← Nat.add_assoc, offset_succ, offset_succ, ih, Nat.add_assoc]

theorem offset_congr {len len' : ℕ → ℕ} {n : ℕ} (h : ∀ k < n, len k = len' k) : offset len n = offset len' n := by
  rw [offset, offset, List.map_congr_left fun k hk => h k (List.mem_range.mp hk)]

theorem offset_mod (len : ℕ → ℕ) (m n : ℕ) : offset (fun idx => len (idx % n)) (m * n) = m * offset len n := by
  induction m with
  | zero => rw [Nat.zero_mul, Nat.zero_mul, offset_zero]
  | succ m ih =>
    rw [Nat.succ_mul, Nat.succ_mul, offset_add, ih]
    congr 1
    refine offset_congr fun k hk => ?_
    rw [Nat.add_comm, Nat.add_mul_mod_self_right, Nat.mod_eq_of_lt hk]

theorem exists_offset {len : ℕ → ℕ} {n m : ℕ} (h : m < offset len n) : ∃ j < n, ∃ k < len j, m = offset len j + k := by
  induction n with
  | zero => exact absurd h (Nat.not_lt_zero m)
  | succ n ih =>
    rw [offset_succ] at h
    rcases Nat.lt_or_ge m (offset len n) with hlt | hge
    · obtain ⟨j, hj, k, hk, rfl⟩ := ih hlt
      exact ⟨j, Nat.lt_succ_of_lt hj, k, hk, rfl⟩
    · exact ⟨n, Nat.lt_succ_self n, m - offset len n, by omega, by omega⟩

variable {α : Type*}

theorem length_flatMap_range (f : ℕ → List α) (n : ℕ) :
    ((List.range n).flatMap f).length = offset (fun i => (f i).length) n := by
  rw [offset, List.length_flatMap]

theorem sum_flatMap_range (f : ℕ → List ℕ) (n : ℕ) :
    ((List.range n).flatMap f).sum = offset (fun i => (f i).sum) n := by
  induction n with
  | zero => rfl
  | succ n ih => rw [List.range_succ, List.flatMap_append, List.sum_append, ih, List.flatMap_singleton, offset_succ]

theorem getElem?_flatMap_range (f : ℕ → List α) {n j k : ℕ} (hj : j < n) (hk : k < (f j).length) :
    ((List.range n).flatMap f)[offset (fun i => (f i).length) j + k]? = (f j)[k]? := by
  induction n with
  | zero => exact absurd hj (Nat.not_lt_zero j)
  | succ n ih =>
    rw [List.range_succ, List.flatMap_append, List.flatMap_singleton]
    rcases Nat.lt_or_ge j n with hlt | hge
    · have hblock := offset_mono (fun i => (f i).length) (Nat.succ_le_of_lt hlt)
      rw [offset_succ] at hblock
      rw [List.getElem?_append_left, ih hlt]
      rw [length_flatMap_range]
      omega
    · obtain rfl : j = n := by omega
      rw [List.getElem?_append_right, length_flatMap_range, Nat.add_sub_cancel_left]
      rw [length_flatMap_range]
      omega

/-- A loop of `n` rounds with `len i` entries in round `i`. -/
theorem getElem?_flatMap_map_range (f : ℕ → ℕ → α) (len : ℕ → ℕ) {n i j : ℕ} (hi : i < n) (hj : j < len i) :
    ((List.range n).flatMap fun i => (List.range (len i)).map (f i))[offset len i + j]? = some (f i j) := by
  have hget := getElem?_flatMap_range (fun i => (List.range (len i)).map (f i)) hi (k := j) (by simpa using hj)
  simp only [List.length_map, List.length_range] at hget
  rw [hget, List.getElem?_map, List.getElem?_range hj, Option.map_some]

/-! ### Blocks of one length -/

section Const

variable {β : Type*} {l : List α} {f : α → List β} {c : ℕ}

theorem length_flatMap_const (hlen : ∀ a ∈ l, (f a).length = c) : (l.flatMap f).length = l.length * c := by
  induction l with
  | nil => simp
  | cons a l ih =>
    rw [List.flatMap_cons, List.length_append, hlen a List.mem_cons_self,
      ih fun b hb => hlen b (List.mem_cons_of_mem a hb), List.length_cons]
    ring

theorem getElem?_flatMap_const (hlen : ∀ a ∈ l, (f a).length = c) {i k : ℕ} (hi : i < l.length) (hk : k < c) :
    (l.flatMap f)[i * c + k]? = (f l[i])[k]? := by
  induction l generalizing i with
  | nil => exact absurd hi (Nat.not_lt_zero i)
  | cons a l ih =>
    have ha : (f a).length = c := hlen a List.mem_cons_self
    rw [List.flatMap_cons]
    cases i with
    | zero =>
      rw [Nat.zero_mul, Nat.zero_add, List.getElem?_append_left (by omega)]
      rfl
    | succ i =>
      have hshift : (i + 1) * c + k = (f a).length + (i * c + k) := by
        rw [ha]
        ring
      rw [hshift, List.getElem?_append_right (Nat.le_add_right _ _), Nat.add_sub_cancel_left]
      exact ih (fun b hb => hlen b (List.mem_cons_of_mem a hb)) (Nat.lt_of_succ_lt_succ hi)

end Const

/-! ### A table of layers, rows and entries -/

section Grid

/-- The position of entry `b` of row `j` of layer `k`, for layers of `d` rows of `w` entries. -/
def gridPos (d w k j b : ℕ) : ℕ := k * d * w + j * w + b

variable {d w : ℕ}

theorem digits_inj {c a b a' b' : ℕ} (hb : b < c) (hb' : b' < c) (h : a * c + b = a' * c + b') : a = a' ∧ b = b' := by
  have hpos : 0 < c := Nat.zero_lt_of_lt hb
  have hmod := congrArg (· % c) h
  have hdiv := congrArg (· / c) h
  simp only [Nat.mul_add_mod_self_right, Nat.mod_eq_of_lt hb, Nat.mod_eq_of_lt hb'] at hmod
  simp only [Nat.add_comm _ b, Nat.add_comm _ b', Nat.add_mul_div_right _ _ hpos, Nat.div_eq_of_lt hb,
    Nat.div_eq_of_lt hb', Nat.zero_add] at hdiv
  exact ⟨hdiv, hmod⟩

theorem gridPos_eq (k j b : ℕ) : gridPos d w k j b = (k * d + j) * w + b := by
  rw [gridPos]
  ring

theorem gridPos_inj {k j b k' j' b' : ℕ} (hj : j < d) (hj' : j' < d) (hb : b < w) (hb' : b' < w)
    (h : gridPos d w k j b = gridPos d w k' j' b') : k = k' ∧ j = j' ∧ b = b' := by
  rw [gridPos_eq, gridPos_eq] at h
  obtain ⟨hrow, rfl⟩ := digits_inj hb hb' h
  obtain ⟨rfl, rfl⟩ := digits_inj hj hj' hrow
  exact ⟨rfl, rfl, rfl⟩

theorem gridPos_lt {L k j b : ℕ} (hk : k < L) (hj : j < d) (hb : b < w) : gridPos d w k j b < L * d * w := by
  have hrow : k * d + j < L * d := by
    have := Nat.mul_le_mul_right d (Nat.succ_le_of_lt hk)
    rw [Nat.succ_mul] at this
    omega
  have hentry := Nat.mul_le_mul_right w (Nat.succ_le_of_lt hrow)
  rw [Nat.succ_mul] at hentry
  rw [gridPos_eq]
  omega

end Grid

end PrioPlus.Lib.FlatLoop

import Mathlib.Data.List.Basic

/-!
# Arrays in memory

Memory from the start of an array on, as a function of the index. `writeAt` writes a list from an index on.
`writeSlots` writes lists of one length side by side, the loop of a program that receives records into one array.
-/

namespace PrioPlus.Lib.Memory

variable {α β : Type*}

def writeAt (mem : ℕ → α) (start : ℕ) (xs : List α) : ℕ → α := fun k =>
  if start ≤ k then (xs[k - start]?).getD (mem k) else mem k

theorem writeAt_before (mem : ℕ → α) {start k : ℕ} (xs : List α) (h : k < start) : writeAt mem start xs k = mem k :=
  if_neg (by omega)

theorem writeAt_hit (mem : ℕ → α) (start : ℕ) {xs : List α} {i : ℕ} (hi : i < xs.length) :
    writeAt mem start xs (start + i) = xs[i] := by
  rw [writeAt, if_pos (Nat.le_add_right _ _), Nat.add_sub_cancel_left, List.getElem?_eq_getElem hi, Option.getD_some]

theorem writeAt_append (mem : ℕ → α) (start : ℕ) (xs ys : List α) :
    writeAt (writeAt mem start xs) (start + xs.length) ys = writeAt mem start (xs ++ ys) := by
  funext k
  by_cases hk : start + xs.length ≤ k
  · have hshift : k - start - xs.length = k - (start + xs.length) := by omega
    have hbehind : xs[k - start]? = none := List.getElem?_eq_none (by omega)
    simp only [writeAt, if_pos hk, if_pos (Nat.le_of_add_right_le hk), hbehind, Option.getD_none]
    rw [List.getElem?_append_right (by omega), hshift]
  · rw [writeAt, if_neg hk, writeAt, writeAt]
    by_cases hk' : start ≤ k
    · rw [if_pos hk', if_pos hk', List.getElem?_append_left (by omega)]
    · rw [if_neg hk', if_neg hk']

/-- The loop over the records `xs`, numbered from `i` on. Record `i` goes to `slot i`. -/
def writeSlots (slot : ℕ → ℕ) (contents : β → List α) : ℕ → List β → (ℕ → α) → ℕ → α
  | _, [], mem => mem
  | i, x :: xs, mem => writeSlots slot contents (i + 1) xs (writeAt mem (slot i) (contents x))

/-- A loop with any body. -/
def writeLoop (body : ℕ → β → (ℕ → α) → ℕ → α) : ℕ → List β → (ℕ → α) → ℕ → α
  | _, [], mem => mem
  | i, x :: xs, mem => writeLoop body (i + 1) xs (body i x mem)

theorem writeLoop_eq_writeSlots {body : ℕ → β → (ℕ → α) → ℕ → α} {slot : ℕ → ℕ} {contents : β → List α} (i : ℕ)
    (xs : List β) (mem : ℕ → α) (hbody : ∀ i x mem, body i x mem = writeAt mem (slot i) (contents x)) :
    writeLoop body i xs mem = writeSlots slot contents i xs mem := by
  induction xs generalizing i mem with
  | nil => rfl
  | cons x xs ih => rw [writeLoop, writeSlots, ih, hbody]

section Slots

variable {slot : ℕ → ℕ} {contents : β → List α} {len : ℕ}

theorem writeSlots_before {i k : ℕ} (xs : List β) (mem : ℕ → α)
    (h : ∀ j, j < xs.length → k < slot (i + j)) : writeSlots slot contents i xs mem k = mem k := by
  induction xs generalizing i mem with
  | nil => rfl
  | cons x xs ih =>
    have hfirst : k < slot i := h 0 (Nat.succ_pos _)
    rw [writeSlots, ih, writeAt_before _ _ hfirst]
    intro j hj
    have hnext := h (j + 1) (by simpa using hj)
    rwa [← Nat.add_assoc, Nat.add_right_comm] at hnext

theorem writeSlots_hit {i j k : ℕ} {xs : List β} (mem : ℕ → α) (hj : j < xs.length)
    (hlen : ∀ x ∈ xs, (contents x).length = len)
    (hslot : ∀ a b, a < b → b < xs.length → slot (i + a) + len ≤ slot (i + b)) (hk : k < len) :
    writeSlots slot contents i xs mem (slot (i + j) + k) =
      (contents xs[j]).get ⟨k, lt_of_lt_of_eq hk (hlen _ (List.getElem_mem hj)).symm⟩ := by
  induction xs generalizing i j mem with
  | nil => exact absurd hj (Nat.not_lt_zero j)
  | cons x xs ih =>
    have hshift : ∀ a b, a < b → b < xs.length → slot (i + 1 + a) + len ≤ slot (i + 1 + b) := by
      intro a b hab hb
      have hnext := hslot (a + 1) (b + 1) (by omega) (by simpa using hb)
      rwa [← Nat.add_assoc, ← Nat.add_assoc, Nat.add_right_comm i a, Nat.add_right_comm i b] at hnext
    rw [writeSlots]
    cases j with
    | zero =>
      have hx : k < (contents x).length := by
        rw [hlen x List.mem_cons_self]
        exact hk
      rw [writeSlots_before]
      · exact writeAt_hit mem (slot i) hx
      · intro a ha
        have hnext := hslot 0 (a + 1) (by omega) (by simpa using ha)
        have hindex : i + 1 + a = i + (a + 1) := by omega
        rw [hindex]
        omega
    | succ j =>
      have hrest := @ih (i + 1) j (writeAt mem (slot i) (contents x)) (by simpa using hj)
        (fun y hy => hlen y (List.mem_cons_of_mem x hy)) hshift
      have hindex : i + 1 + j = i + (j + 1) := by omega
      rw [hindex] at hrest
      exact hrest

end Slots

end PrioPlus.Lib.Memory

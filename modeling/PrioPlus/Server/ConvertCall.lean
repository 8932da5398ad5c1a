import PrioPlus.Correlated
import PrioPlus.Lib.Memory

/-!
# The array that `share_convert` reads

The callers of `share_convert` allocate an array of words, write their values into it, and read the converted array
with a stride of their own. A `ConvertCall` keeps these choices apart, and `ConvertCall.Agrees` says that they fit
together.
-/

namespace PrioPlus

open Lib.FlatLoop Lib.Memory

/-- A call of `share_convert`: the size of the array `shares`, what the caller wrote to it, the sizes that it passes,
and the stride with which the converted array is read. -/
structure ConvertCall where
  alloc : ℕ
  written : ℕ → Option UInt64
  numShares : ℕ
  numValues : ℕ
  nbits : ℕ → ℕ
  stride : ℕ

namespace ConvertCall

/-- The words that `share_convert` reads. Where the caller wrote nothing it finds what is in memory. -/
def words (call : ConvertCall) (heap : ℕ → UInt64) : List UInt64 :=
  (List.range (call.numShares * call.numValues)).map fun k => (call.written k).getD (heap k)

/-- Every word read was allocated, for valid inputs it was written, and the entries of the converted array that are
read for a valid input are those of its own values, converted with the width of their field. -/
structure Agrees (call : ConvertCall) (valid : ℕ → Prop) (own : ℕ → ℕ → UInt64) : Prop where
  allocated : ∀ i < call.numShares, ∀ j < call.numValues, i * call.numValues + j < call.alloc
  written : ∀ i < call.numShares, valid i → ∀ j < call.numValues, (call.written (i * call.numValues + j)).isSome
  converted : ∀ i < call.numShares, valid i → ∀ j < call.stride,
    i * call.stride + j < call.numShares * call.numValues ∧
      call.nbits ((i * call.stride + j) % call.numValues) = call.nbits j ∧
      call.written (i * call.stride + j) = some (own i j)

theorem length_words (call : ConvertCall) (heap : ℕ → UInt64) :
    (call.words heap).length = call.numShares * call.numValues := by
  rw [words, List.length_map, List.length_range]

theorem Agrees.getD_words {call : ConvertCall} {valid : ℕ → Prop} {own : ℕ → ℕ → UInt64} (h : call.Agrees valid own)
    (heap : ℕ → UInt64) {i j : ℕ} (hi : i < call.numShares) (hvalid : valid i) (hj : j < call.stride) :
    (call.words heap).getD (i * call.stride + j) 0 = own i j := by
  obtain ⟨hlt, -, hown⟩ := h.converted i hi hvalid j hj
  rw [words, getD_map_range, if_pos hlt, hown, Option.getD_some]

/-! ### Rows side by side -/

section Rows

variable {C : Type} {call : ConvertCall} {slots : List C} {row : C → List UInt64} {c : ℕ}
  (hrow : ∀ s ∈ slots, (row s).length = c)
  (hwritten : call.written = writeSlots (fun i => c * i) (fun s => (row s).map some) 0 slots fun _ => none)
include hrow hwritten

theorem written_of_rows {i j : ℕ} (hi : i < slots.length) (hj : j < c) :
    call.written (i * c + j) = some ((row slots[i]).getD j 0) := by
  have hlen : ∀ s ∈ slots, ((row s).map some).length = c := fun s hs => (List.length_map _).trans (hrow s hs)
  have hit := @writeSlots_hit _ _ (fun i => c * i) _ _ 0 _ _ _ (fun _ => none) hi hlen (fun a b hab _ => ?_) hj
  · have hj' : j < (row slots[i]).length := (hrow _ (List.getElem_mem hi)).symm ▸ hj
    rw [hwritten, Nat.mul_comm, List.getD_eq_getElem _ _ hj']
    simpa using hit
  · have hstep := Nat.mul_le_mul_left c (Nat.succ_le_of_lt hab)
    rw [Nat.mul_succ] at hstep
    simpa using hstep

variable (hshares : call.numShares = slots.length) (hvalues : call.numValues = c)
include hshares hvalues

theorem words_of_rows (heap : ℕ → UInt64) : call.words heap = slots.flatMap row := by
  have hlen : (slots.flatMap row).length = slots.length * c := length_flatMap_const hrow
  apply List.ext_getElem?
  intro k
  by_cases hk : k < slots.length * c
  · have hpos : 0 < c := Nat.pos_of_mul_pos_left (Nat.zero_lt_of_lt hk)
    have hi : k / c < slots.length := Nat.div_lt_of_lt_mul (by rwa [Nat.mul_comm])
    have hj : k % c < c := Nat.mod_lt _ hpos
    have hindex : k / c * c + k % c = k := by rw [Nat.mul_comm, Nat.div_add_mod]
    have hblock := getElem?_flatMap_const hrow hi hj
    have hword := written_of_rows hrow hwritten hi hj
    have hjrow : k % c < (row slots[k / c]).length := (hrow _ (List.getElem_mem hi)).symm ▸ hj
    rw [hindex] at hblock hword
    rw [hblock, words, List.getElem?_map, List.getElem?_range (by rwa [hshares, hvalues]), Option.map_some, hword,
      Option.getD_some, List.getD_eq_getElem _ _ hjrow, List.getElem?_eq_getElem hjrow]
  · rw [List.getElem?_eq_none, List.getElem?_eq_none]
    · omega
    · rw [length_words, hshares, hvalues]
      omega

/-- A caller that packs rows of one length side by side and reads them with that stride. -/
theorem agrees_of_rows (halloc : call.alloc = slots.length * c) (hstride : call.stride = c) (valid : ℕ → Prop)
    {own : ℕ → ℕ → UInt64}
    (hown : ∀ (i : ℕ) (hi : i < slots.length), valid i → ∀ j < c, own i j = (row slots[i]).getD j 0) :
    call.Agrees valid own := by
  have hindex : ∀ i < slots.length, ∀ j < c, i * c + j < slots.length * c := by
    intro i hi j hj
    have hblock := Nat.mul_le_mul_right c (Nat.succ_le_of_lt hi)
    rw [Nat.succ_mul] at hblock
    omega
  constructor
  · intro i hi j hj
    rw [hshares] at hi
    rw [hvalues] at hj ⊢
    rw [halloc]
    exact hindex i hi j hj
  · intro i hi _ j hj
    rw [hshares] at hi
    rw [hvalues] at hj ⊢
    rw [written_of_rows hrow hwritten hi hj]
    rfl
  · intro i hi hvalid j hj
    rw [hshares] at hi
    rw [hstride] at hj ⊢
    rw [hshares, hvalues]
    refine ⟨hindex i hi j hj, ?_, ?_⟩
    · rw [Nat.add_comm, Nat.add_mul_mod_self_right, Nat.mod_eq_of_lt hj]
    · rw [written_of_rows hrow hwritten hi hj, hown i hi hvalid j hj]

end Rows

end ConvertCall

end PrioPlus

import Mathlib.Data.Nat.Bitwise
import Mathlib.Data.Nat.Digits.Defs

/-!
# Numbers and bits as bytes

A number as a fixed count of digits, least significant first (`ofDigits_digitsOf`), records of one width in a flat
array (`blocks_flatMap`), and bits packed eight to a byte, the last byte partly filled (`unpackBits_packBits`).
-/

namespace PrioPlus.Lib.Bytes

/-! ### Digits -/

/-- The `k` low digits of `x` in base `b`, the lowest first. -/
def digitsOf (b : ℕ) : ℕ → ℕ → List ℕ
  | 0, _ => []
  | k + 1, x => x % b :: digitsOf b k (x / b)

@[simp] theorem length_digitsOf (b k x : ℕ) : (digitsOf b k x).length = k := by
  induction k generalizing x with
  | zero => rfl
  | succ k ih => rw [digitsOf, List.length_cons, ih]

theorem digitsOf_lt {b : ℕ} (hb : 0 < b) (k x : ℕ) : ∀ d ∈ digitsOf b k x, d < b := by
  induction k generalizing x with
  | zero => simp [digitsOf]
  | succ k ih =>
    intro d hd
    rcases List.mem_cons.mp hd with rfl | hd
    · exact Nat.mod_lt x hb
    · exact ih (x / b) d hd

theorem ofDigits_digitsOf (b k x : ℕ) : Nat.ofDigits b (digitsOf b k x) = x % b ^ k := by
  induction k generalizing x with
  | zero => rw [pow_zero, Nat.mod_one, digitsOf, Nat.ofDigits_nil]
  | succ k ih =>
    rw [digitsOf, Nat.ofDigits_cons, ih, pow_succ', Nat.mod_mul]

theorem digitsOf_ofDigits {b : ℕ} {ds : List ℕ} (hds : ∀ d ∈ ds, d < b) :
    digitsOf b ds.length (Nat.ofDigits b ds) = ds := by
  induction ds with
  | nil => rfl
  | cons d ds ih =>
    have hd := hds d List.mem_cons_self
    have hpos : 0 < b := Nat.zero_lt_of_lt hd
    rw [List.length_cons, digitsOf, Nat.ofDigits_cons, Nat.add_mul_mod_self_left, Nat.mod_eq_of_lt hd,
      Nat.add_mul_div_left _ _ hpos, Nat.div_eq_of_lt hd, Nat.zero_add,
      ih fun d hd => hds d (List.mem_cons_of_mem _ hd)]

/-- The number of `k` digits read in the other direction. -/
def swapDigits (b k x : ℕ) : ℕ := Nat.ofDigits b (digitsOf b k x).reverse

theorem swapDigits_lt {b : ℕ} (hb : 1 < b) (k x : ℕ) : swapDigits b k x < b ^ k := by
  have hlt := Nat.ofDigits_lt_base_pow_length hb (l := (digitsOf b k x).reverse) fun d hd =>
    digitsOf_lt (Nat.zero_lt_of_lt hb) k x d (List.mem_reverse.mp hd)
  rwa [List.length_reverse, length_digitsOf] at hlt

theorem swapDigits_swapDigits {b : ℕ} (hb : 0 < b) (k x : ℕ) : swapDigits b k (swapDigits b k x) = x % b ^ k := by
  have hlt : ∀ d ∈ (digitsOf b k x).reverse, d < b := by
    intro d hd
    exact digitsOf_lt hb k x d (List.mem_reverse.mp hd)
  have hdigits := digitsOf_ofDigits hlt
  rw [List.length_reverse, length_digitsOf] at hdigits
  rw [swapDigits, swapDigits, hdigits, List.reverse_reverse, ofDigits_digitsOf]

/-! ### Records of one width -/

/-- `n` consecutive blocks of `k` entries. -/
def blocks {α : Type} (k : ℕ) : ℕ → List α → List (List α)
  | 0, _ => []
  | n + 1, xs => xs.take k :: blocks k n (xs.drop k)

theorem blocks_flatMap {α β : Type} (k : ℕ) (f : β → List α) (hf : ∀ y, (f y).length = k) (ys : List β) :
    blocks k ys.length (ys.flatMap f) = ys.map f := by
  induction ys with
  | nil => rfl
  | cons y ys ih =>
    rw [List.length_cons, blocks, List.flatMap_cons, List.take_left' (hf y), List.drop_left' (hf y), ih, List.map_cons]

theorem length_flatMap_const {α β : Type} {k : ℕ} {f : β → List α} (hf : ∀ y, (f y).length = k) (ys : List β) :
    (ys.flatMap f).length = k * ys.length := by
  induction ys with
  | nil => rfl
  | cons y ys ih =>
    rw [List.flatMap_cons, List.length_append, hf, ih, List.length_cons, Nat.mul_succ, Nat.add_comm]

/-! ### Bits -/

/-- Bit `j` of a byte. -/
def bit (b : UInt8) (j : ℕ) : Bool := b &&& (1 <<< UInt8.ofNat j) ≠ 0

/-- The round of `i`, which flips bit `i % 8` of byte `i / 8` when its bit is set. -/
def packRound (bs : List Bool) (buf : List UInt8) (i : ℕ) : List UInt8 :=
  if bs.getD i false then buf.modify (i / 8) (· ^^^ (1 <<< UInt8.ofNat (i % 8))) else buf

def packBits (bs : List Bool) : List UInt8 :=
  (List.range bs.length).foldl (packRound bs) (List.replicate ((bs.length + 7) / 8) 0)

def unpackBits (n : ℕ) (buf : List UInt8) : List Bool :=
  (List.range n).map fun i => bit (buf.getD (i / 8) 0) (i % 8)

theorem toNat_one_shiftLeft {j : ℕ} (hj : j < 8) : ((1 : UInt8) <<< UInt8.ofNat j).toNat = 2 ^ j := by
  have hall : ∀ j : Fin 8, ((1 : UInt8) <<< UInt8.ofNat j).toNat = 2 ^ (j : ℕ) := by decide
  exact hall ⟨j, hj⟩

theorem bit_eq_testBit (b : UInt8) {j : ℕ} (hj : j < 8) : bit b j = b.toNat.testBit j := by
  rw [bit, Bool.eq_iff_iff, decide_eq_true_iff, ne_eq, ← UInt8.toNat_inj, UInt8.toNat_and, toNat_one_shiftLeft hj,
    Nat.and_two_pow]
  cases b.toNat.testBit j <;> simp

theorem bit_zero (j : ℕ) : bit 0 j = false := by
  simp [bit]

theorem bit_flip (b : UInt8) {j k : ℕ} (hj : j < 8) (hk : k < 8) :
    bit (b ^^^ (1 <<< UInt8.ofNat k)) j = (bit b j ^^ decide (k = j)) := by
  rw [bit_eq_testBit _ hj, bit_eq_testBit _ hj, UInt8.toNat_xor, Nat.testBit_xor, toNat_one_shiftLeft hk,
    Nat.testBit_two_pow]

theorem length_packRound (bs : List Bool) (buf : List UInt8) (i : ℕ) : (packRound bs buf i).length = buf.length := by
  unfold packRound
  split_ifs
  · exact List.length_modify _ _ _
  · rfl

theorem bit_packRound (bs : List Bool) {buf : List UInt8} {i k j : ℕ} (hi : i / 8 < buf.length) (hj : j < 8) :
    bit ((packRound bs buf i).getD k 0) j =
      (bit (buf.getD k 0) j ^^ (decide (8 * k + j = i) && bs.getD i false)) := by
  unfold packRound
  by_cases hset : bs.getD i false = true
  · rw [if_pos hset, hset, Bool.and_true, List.getD_eq_getElem?_getD, List.getElem?_modify]
    by_cases hk : i / 8 = k
    · subst hk
      rw [List.getElem?_eq_getElem hi, List.getD_eq_getElem _ _ hi]
      simp only [if_true, Option.map_eq_map, Option.map_some, Option.getD_some]
      rw [bit_flip _ hj (Nat.mod_lt _ (by norm_num))]
      congr 2
      rw [eq_iff_iff]
      omega
    · have hne : ¬ 8 * k + j = i := by omega
      simp [hk, hne]
  · rw [if_neg hset, Bool.eq_false_of_not_eq_true hset, Bool.and_false, Bool.xor_false]

theorem bit_packRounds (bs : List Bool) {m : ℕ} (hm : m ≤ bs.length) :
    let buf := (List.range m).foldl (packRound bs) (List.replicate ((bs.length + 7) / 8) 0)
    buf.length = (bs.length + 7) / 8 ∧
      ∀ k j, j < 8 → bit (buf.getD k 0) j = (decide (8 * k + j < m) && bs.getD (8 * k + j) false) := by
  induction m with
  | zero =>
    refine ⟨List.length_replicate, fun k j _ => ?_⟩
    have hzero : (List.replicate ((bs.length + 7) / 8) (0 : UInt8)).getD k 0 = 0 := by
      rw [List.getD_eq_getElem?_getD, List.getElem?_replicate]
      split_ifs <;> rfl
    rw [List.range_zero, List.foldl_nil, hzero, bit_zero]
    rfl
  | succ m ih =>
    obtain ⟨hlen, hbits⟩ := ih (by omega)
    simp only [List.range_succ, List.foldl_append, List.foldl_cons, List.foldl_nil]
    refine ⟨by rw [length_packRound, hlen], fun k j hj => ?_⟩
    rw [bit_packRound bs (by omega) hj, hbits k j hj]
    by_cases hidx : 8 * k + j = m
    · rw [hidx]
      simp
    · have hlt : (8 * k + j < m + 1) ↔ (8 * k + j < m) := by omega
      simp only [hidx, hlt, decide_false, Bool.false_and, Bool.xor_false]

@[simp] theorem length_packBits (bs : List Bool) : (packBits bs).length = (bs.length + 7) / 8 :=
  (bit_packRounds bs le_rfl).1

theorem unpackBits_packBits (bs : List Bool) : unpackBits bs.length (packBits bs) = bs := by
  apply List.ext_getElem
  · simp [unpackBits]
  · intro i hi hi'
    have hbits := (bit_packRounds bs le_rfl).2 (i / 8) (i % 8) (Nat.mod_lt _ (by norm_num))
    rw [Nat.div_add_mod, decide_eq_true hi', Bool.true_and, List.getD_eq_getElem _ _ hi'] at hbits
    simp only [unpackBits, List.getElem_map, List.getElem_range]
    exact hbits

end PrioPlus.Lib.Bytes

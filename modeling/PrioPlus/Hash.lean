import Mathlib.Algebra.Order.Ring.Int
import PrioPlus.Fmpz
import PrioPlus.Utils

/-!
# The hash functions, `hash.h` and `hash.cpp`

A store holds `d` polynomials with random coefficients. A hash is a value below the range `w` whatever the
coefficients are (`HashStore.eval_range`).
-/

namespace PrioPlus

/-- `fmpz_get_ui` of a value that a word holds. -/
def fmpzGetUi (x : ℤ) : UInt64 := UInt64.ofNat x.toNat

/-- `fmpz_get_si` of a value that a word holds. -/
def fmpzGetSi (x : ℤ) : Int64 := Int64.ofInt x

theorem toNat_toUInt64_fmpzGetSi {n : ℕ} (h : n < 2 ^ 63) : (fmpzGetSi n).toUInt64.toNat = n := by
  have hword : (fmpzGetSi n).toUInt64 = UInt64.ofNat n := by
    rw [fmpzGetSi, Int64.ofInt_eq_ofNat]
    rfl
  rw [hword, UInt64.toNat_ofNat_of_lt' (h.trans (by decide))]

/-- A synced seed: the coefficient `coeff[i][j]` that the constructor draws from it for its arguments `d`, `l_bits`
and `w`. -/
structure HashSeed where
  draw : (d lBits w : ℕ) → ℕ → ℕ → ℤ

structure HashStore where
  d : ℕ
  lBits : ℕ
  w : ℕ
  wBits : ℕ
  degree : ℕ
  coeff : ℕ → ℕ → ℤ

namespace HashStore

/-- `w_bits`: one, and one more for each time that `w - 1` can be halved. -/
def bitsOf (w : ℕ) : ℕ := 1 + Nat.log2 (UInt64.ofNat w - 1).toNat

/-- The constructor, for the default independence of two. -/
def new (seed : HashSeed) (d lBits w : ℕ) : HashStore :=
  { d, lBits, w, wBits := bitsOf w, degree := 2 - 1, coeff := seed.draw d lBits w }

/-- `HashStore::eval`. The difference of the bit counts is one of `size_t`. -/
def eval (h : HashStore) (i x : UInt32) : ℤ :=
  let l := ((1 : UInt64) <<< UInt64.ofNat h.lBits).toNat
  let out := (List.range h.degree).foldl
    (fun out n => (out + h.coeff i.toNat (h.degree - n)) * x.toNat % (l : ℤ)) 0
  let out := out >>> (UInt64.ofNat h.lBits - UInt64.ofNat h.wBits).toNat
  (out + h.coeff i.toNat 0) % h.w

theorem eval_range (h : HashStore) (hw : 0 < h.w) (i x : UInt32) : 0 ≤ h.eval i x ∧ h.eval i x < h.w := by
  have hpos : (0 : ℤ) < h.w := by exact_mod_cast hw
  exact ⟨Int.emod_nonneg _ hpos.ne', Int.emod_lt_of_pos _ hpos⟩

/-! ### Widths -/

section Widths

variable {w : ℕ}

theorem bitsOf_eq (hw : 0 < w) (hw' : w < 2 ^ 64) : bitsOf w = 1 + Nat.log2 (w - 1) := by
  have hofNat : (UInt64.ofNat w).toNat = w := UInt64.toNat_ofNat_of_lt' hw'
  have hle : 1 ≤ UInt64.ofNat w := by rwa [UInt64.le_iff_toNat_le, hofNat]
  rw [bitsOf, UInt64.toNat_sub_of_le _ _ hle, hofNat, UInt64.toNat_one]

theorem bitsOf_le {l : ℕ} (hw : 0 < w) (hle : w ≤ 2 ^ l) (hl : 1 ≤ l) (hl' : l ≤ 63) : bitsOf w ≤ l := by
  have hpow : 2 ^ l < 2 ^ 64 := Nat.pow_lt_pow_right (by decide) (by omega)
  rw [bitsOf_eq hw (by omega)]
  rcases Nat.eq_zero_or_pos (w - 1) with hzero | hpos
  · rw [hzero, Nat.log2_zero]
    exact hl
  · have hlog := (Nat.log2_lt (k := l) hpos.ne').mpr (by omega)
    omega

theorem two_pow_bitsOf_pred_lt (hw : 2 ≤ w) (hw' : w < 2 ^ 64) : 2 ^ (bitsOf w - 1) < w := by
  have hlog := Nat.log2_self_le (n := w - 1) (by omega)
  rw [bitsOf_eq (by omega) hw', Nat.add_sub_cancel_left]
  omega

theorem bitsOf_two_pow {k : ℕ} (hk : 1 ≤ k) (hk' : k ≤ 63) : bitsOf (2 ^ k) = k := by
  have hle := bitsOf_le (Nat.two_pow_pos k) le_rfl hk hk'
  have htwo : 2 ≤ 2 ^ k := Nat.pow_le_pow_right Nat.two_pos hk
  have hpow : 2 ^ k < 2 ^ 64 := Nat.pow_lt_pow_right (by decide) (by omega)
  have hlog := Nat.lt_log2_self (n := 2 ^ k - 1)
  rw [bitsOf_eq (by omega) hpow] at hle ⊢
  have hlt : 2 ^ (k - 1) < 2 ^ (Nat.log2 (2 ^ k - 1) + 1) := by
    have hhalf : 2 ^ k = 2 * 2 ^ (k - 1) := by rw [← pow_succ', Nat.sub_add_cancel hk]
    have := Nat.two_pow_pos (k - 1)
    omega
  have := (Nat.pow_lt_pow_iff_right (by decide)).mp hlt
  omega

theorem lt_bitsOf {l : ℕ} (hlt : 2 ^ l < w) (hw' : w < 2 ^ 64) : l < bitsOf w ∧ bitsOf w ≤ 64 := by
  have hpos := Nat.two_pow_pos l
  have hlog := (Nat.le_log2 (k := l) (n := w - 1) (by omega)).mpr (by omega)
  have hlog' := (Nat.log2_lt (k := 64) (n := w - 1) (by omega)).mpr (by omega)
  rw [bitsOf_eq (by omega) hw']
  omega

end Widths

/-! ### Hashes -/

theorem eval_new (seed : HashSeed) (d : ℕ) {lBits w : ℕ} (hl : lBits ≤ 63) (hbits : bitsOf w ≤ lBits) (i x : UInt32)
    {c0 c1 : ℕ} (h0 : seed.draw d lBits w i.toNat 0 = c0) (h1 : seed.draw d lBits w i.toNat 1 = c1) :
    (new seed d lBits w).eval i x = ((c1 * x.toNat % 2 ^ lBits / 2 ^ (lBits - bitsOf w) + c0) % w : ℕ) := by
  have hlNat : (UInt64.ofNat lBits).toNat = lBits := UInt64.toNat_ofNat_of_lt' (hl.trans_lt (by decide))
  have hbNat : (UInt64.ofNat (bitsOf w)).toNat = bitsOf w :=
    UInt64.toNat_ofNat_of_lt' ((hbits.trans hl).trans_lt (by decide))
  have hle : UInt64.ofNat (bitsOf w) ≤ UInt64.ofNat lBits := by rwa [UInt64.le_iff_toNat_le, hlNat, hbNat]
  have hrange : ((1 : UInt64) <<< UInt64.ofNat lBits).toNat = 2 ^ lBits := by
    rw [toNat_one_shiftLeft (by omega), hlNat]
  simp only [eval, new, hrange, UInt64.toNat_sub_of_le _ _ hle, hlNat, hbNat, Nat.reduceSub, List.range_one,
    List.foldl_cons, List.foldl_nil, Nat.sub_zero, h0, h1, zero_add, Int.shiftRight_eq_div_pow]
  push_cast
  rfl

/-- With more buckets than inputs the input is shifted out. -/
theorem eval_of_range_lt (seed : HashSeed) (d : ℕ) {lBits w : ℕ} (hl : lBits ≤ 63) (hlt : 2 ^ lBits < w)
    (hw' : w < 2 ^ 64) (i x : UInt32) : (new seed d lBits w).eval i x = seed.draw d lBits w i.toNat 0 % w := by
  obtain ⟨hbits, hbits'⟩ := lt_bitsOf hlt hw'
  have hlNat : (UInt64.ofNat lBits).toNat = lBits := UInt64.toNat_ofNat_of_lt' (hl.trans_lt (by decide))
  have hbNat : (UInt64.ofNat (bitsOf w)).toNat = bitsOf w := UInt64.toNat_ofNat_of_lt' (hbits'.trans_lt (by decide))
  have hshift : 64 ≤ (UInt64.ofNat lBits - UInt64.ofNat (bitsOf w)).toNat := by
    rw [UInt64.toNat_sub, hlNat, hbNat]
    omega
  have hrange : ((1 : UInt64) <<< UInt64.ofNat lBits).toNat = 2 ^ lBits := by
    rw [toNat_one_shiftLeft (by omega), hlNat]
  have hpow : 2 ^ lBits < 2 ^ 64 := Nat.pow_lt_pow_right (by decide) (by omega)
  have hgone : ∀ n : ℤ,
      (n % (2 ^ lBits : ℕ)) >>> (UInt64.ofNat lBits - UInt64.ofNat (bitsOf w)).toNat = 0 := by
    intro n
    have hpos : (0 : ℤ) < (2 ^ lBits : ℕ) := by exact_mod_cast Nat.two_pow_pos lBits
    have hout := Int.emod_lt_of_pos n hpos
    have hlarge := hpow.trans_le (Nat.pow_le_pow_right Nat.two_pos hshift)
    rw [Int.shiftRight_eq_div_pow]
    exact Int.ediv_eq_zero_of_lt (Int.emod_nonneg _ hpos.ne') (hout.trans (Int.ofNat_lt.mpr hlarge))
  simp only [eval, new, hrange, Nat.reduceSub, List.range_one, List.foldl_cons, List.foldl_nil, hgone, zero_add]

end HashStore

/-! ### Conversions of small values -/

theorem toNat_fmpzGetUi {x : ℤ} {n : ℕ} (hx : x = n) (hn : n < 2 ^ 64) : (fmpzGetUi x).toNat = n := by
  rw [fmpzGetUi, hx, Int.toNat_natCast, UInt64.toNat_ofNat_of_lt' hn]

theorem toNat_toUInt32_fmpzGetUi {x : ℤ} {n : ℕ} (hx : x = n) (hn : n < 2 ^ 32) :
    (fmpzGetUi x).toUInt32.toNat = n := by
  rw [UInt64.toNat_toUInt32, toNat_fmpzGetUi hx (by omega), Nat.mod_eq_of_lt hn]

theorem toInt_toInt32_fmpzGetSi {x : ℤ} {n : ℕ} (hx : x = n) (hn : n < 2 ^ 31) :
    (fmpzGetSi x).toInt32.toInt = n := by
  rw [fmpzGetSi, Int64.toInt32_ofInt, hx, Int32.toInt_ofInt_of_le (by omega) (by exact_mod_cast hn)]

end PrioPlus

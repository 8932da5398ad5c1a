import PrioPlus.Constants

/-!
# Shares and client packets, `share.h` and `share.cpp`

A value modulo `Int_Modulus` is split into a random draw and its difference to the value. `fmpz_randm` draws from a
global generator: a function that draws takes the drawn integers as arguments, here in the order of the source.
-/

namespace PrioPlus

/-! ### `NextPowerOfTwo` -/

/-- The loop `while (n + 1 > ans) ans *= 2`. -/
def doubleWhile (n ans : ℕ) (hpos : 0 < ans) : ℕ :=
  if n + 1 > ans then doubleWhile n (ans * 2) (by omega) else ans
termination_by n + 1 - ans

/-- `NextPowerOfTwo`. Not inclusive: the result is above `n`. -/
def nextPowerOfTwo (n : ℕ) : ℕ := doubleWhile n 1 Nat.one_pos

theorem doubleWhile_spec (n ans : ℕ) (hpos : 0 < ans) :
    n < doubleWhile n ans hpos ∧ ∃ k, doubleWhile n ans hpos = ans * 2 ^ k := by
  induction ans, hpos using doubleWhile.induct n with
  | case1 ans hpos hlt ih =>
    rw [doubleWhile, if_pos hlt]
    obtain ⟨hn, k, hk⟩ := ih
    exact ⟨hn, k + 1, by rw [hk, pow_succ]; ring⟩
  | case2 ans hpos hge =>
    rw [doubleWhile, if_neg hge]
    exact ⟨by omega, 0, by simp⟩

theorem lt_nextPowerOfTwo (n : ℕ) : n < nextPowerOfTwo n := (doubleWhile_spec n 1 Nat.one_pos).1

theorem nextPowerOfTwo_eq_two_pow (n : ℕ) : ∃ k, nextPowerOfTwo n = 2 ^ k := by
  obtain ⟨k, hk⟩ := (doubleWhile_spec n 1 Nat.one_pos).2
  exact ⟨k, by rw [nextPowerOfTwo, hk, one_mul]⟩

theorem nextPowerOfTwo_pos (n : ℕ) : 0 < nextPowerOfTwo n := by
  have := lt_nextPowerOfTwo n
  omega

theorem doubleWhile_le {n ans : ℕ} (hpos : 0 < ans) (hle : ans ≤ 2 * n) : doubleWhile n ans hpos ≤ 2 * n := by
  induction ans, hpos using doubleWhile.induct n with
  | case1 ans hpos hlt ih =>
    rw [doubleWhile, if_pos hlt]
    exact ih (by omega)
  | case2 ans hpos hge =>
    rw [doubleWhile, if_neg hge]
    exact hle

theorem nextPowerOfTwo_le {n : ℕ} (hn : 0 < n) : nextPowerOfTwo n ≤ 2 * n := doubleWhile_le Nat.one_pos (by omega)

/-! ### Additive shares -/

/-- `SplitShare`: the draw `r` and the rest. -/
def splitShare (K : Constants) (val r : ℤ) : ℤ × ℤ := (r, (val - r) % K.intModulus)

theorem cast_splitShare (K : Constants) (val r : ℤ) :
    ((splitShare K val r).1 : ZMod K.intModulus) + (splitShare K val r).2 = val := by
  simp [splitShare]

structure BeaverTriple where
  a : ℤ
  b : ℤ
  c : ℤ

/-- One server's share of a `BeaverTriple`. -/
structure BeaverTripleShare where
  shareA : ℤ
  shareB : ℤ
  shareC : ℤ
deriving DecidableEq

/-- `NewBeaverTriple`, from its two draws. -/
def newBeaverTriple (K : Constants) (a b : ℤ) : BeaverTriple := ⟨a, b, a * b % K.intModulus⟩

/-- `BeaverTripleShares`, from the draws of its three `SplitShare`s. -/
def beaverTripleShares (K : Constants) (inp : BeaverTriple) (rA rB rC : ℤ) :
    BeaverTripleShare × BeaverTripleShare :=
  let a := splitShare K inp.a rA
  let b := splitShare K inp.b rB
  let c := splitShare K inp.c rC
  (⟨a.1, b.1, c.1⟩, ⟨a.2, b.2, c.2⟩)

/-- One server's message `[d], [e]` of a Beaver multiplication. -/
structure CorShare where
  shareD : ℤ
  shareE : ℤ
deriving DecidableEq

structure Cor where
  d : ℤ
  e : ℤ

/-- The constructor `Cor(x, y)`, the opened values. -/
def Cor.ofShares (K : Constants) (x y : CorShare) : Cor :=
  ⟨(x.shareD + y.shareD) % K.intModulus, (x.shareE + y.shareE) % K.intModulus⟩

/-! ### Correlated bits -/

/-- One server's share of a triple of bits. -/
structure BooleanBeaverTriple where
  a : Bool
  b : Bool
  c : Bool
deriving DecidableEq

/-- A server's half of a daBit: `[b]_p` and `[b]_2`. -/
structure DaBit where
  bp : ℤ
  b2 : Bool
deriving DecidableEq

/-- A share of a number `r` and of its `n` bits. The constructor allocates the array of bits. -/
structure EdaBit (n : ℕ) where
  r : ℤ
  b : List Bool
  length_b : b.length = n

/-- The draws of `makeLocalDaBit`, within the bounds that it gives to `fmpz_randm`. -/
structure LocalDraw where
  bit : Bool
  r : ℤ
  r_nonneg : 0 ≤ r
  r_lt : r < intModulus - (bit.toNat + 1)

/-- `makeLocalDaBit`, from its draws. -/
def makeLocalDaBit (draw : LocalDraw) : DaBit × DaBit :=
  let bp0 := draw.r + (draw.bit.toNat + 1)
  let bp1 := (draw.bit.toNat - bp0) % intModulus
  (⟨bp0, bp0 % 2 = 1⟩, ⟨bp1, bp1 % 2 = 0⟩)

/-- The halves agree on the drawn bit. The draw is never below the bit, so the difference rolls over once and the
parities do not clash. -/
theorem makeLocalDaBit_correlated (draw : LocalDraw) :
    (makeLocalDaBit draw).1.bp + (makeLocalDaBit draw).2.bp ≡ draw.bit.toNat [ZMOD intModulus] ∧
      ((makeLocalDaBit draw).1.b2 ^^ (makeLocalDaBit draw).2.b2) = draw.bit := by
  obtain ⟨bit, r, hnonneg, hlt⟩ := draw
  simp only [makeLocalDaBit]
  have hbit : bit.toNat ≤ 1 := Bool.toNat_le bit
  have hwrap : ((bit.toNat : ℤ) - (r + (bit.toNat + 1))) % (intModulus : ℤ) = intModulus - (r + 1) := by
    rw [← Int.add_emod_right, Int.emod_eq_of_lt] <;> omega
  rw [hwrap]
  constructor
  · refine Int.modEq_iff_dvd.mpr ⟨-1, by ring⟩
  · have hodd : (intModulus : ℤ) % 2 = 1 := by decide
    cases bit
    · simp
      omega
    · simp
      omega

/-! ### Client packets -/

/-- The shares one server has for checking the multiplication gates. The arrays are allocated by the constructor,
`MulShares` with one entry a gate and `h_points` with `NextPowerOfTwo(NMul)`. -/
structure ClientPacket where
  nMul : ℕ
  mulShares : List ℤ
  f0S : ℤ
  g0S : ℤ
  h0S : ℤ
  hPoints : List ℤ
  tripleShare : BeaverTripleShare
  mulShares_length : mulShares.length = nMul
  hPoints_length : hPoints.length = nextPowerOfTwo nMul

/-- The constructor `ClientPacket(NMul)`, all of whose entries are zero. -/
def ClientPacket.new (nMul : ℕ) : ClientPacket where
  nMul := nMul
  mulShares := List.replicate nMul 0
  f0S := 0
  g0S := 0
  h0S := 0
  hPoints := List.replicate (nextPowerOfTwo nMul) 0
  tripleShare := ⟨0, 0, 0⟩
  mulShares_length := List.length_replicate
  hPoints_length := List.length_replicate

end PrioPlus

import Mathlib.Data.List.GetD
import PrioPlus.Lib.RippleCarry
import PrioPlus.Share

/-!
# Locally dealt daBits and edaBits

`makeLocalDaBit` and `makeLocalEdaBit` at an arbitrary modulus, of which the daBits of the store are the case of the
shipped one (`makeLocalDaBit_eq`). The binary halves are the parities of the arithmetic ones. That is right at an odd
modulus because the difference of the bit and the mask passes zero exactly once (`bit_sub_emod`).
-/

namespace PrioPlus

open Lib.RippleCarry

/-! ### One daBit -/

/-- The draws of `makeLocalDaBit` when `Int_Modulus` is `p`. -/
structure ModDraw (p : ℕ) where
  bit : Bool
  r : ℤ
  r_nonneg : 0 ≤ r
  r_lt : r < p - (bit.toNat + 1)

/-- `makeLocalDaBit` when `Int_Modulus` is `p`. -/
def makeLocalDaBitMod (p : ℕ) (draw : ModDraw p) : DaBit × DaBit :=
  let adjust : ℤ := draw.bit.toNat + 1
  let bp0 := draw.r + adjust
  let bp1 := (draw.bit.toNat - bp0) % p
  (⟨bp0, bp0 % 2 = 1⟩, ⟨bp1, bp1 % 2 = 0⟩)

def LocalDraw.toMod (draw : LocalDraw) : ModDraw intModulus := ⟨draw.bit, draw.r, draw.r_nonneg, draw.r_lt⟩

theorem makeLocalDaBit_eq (draw : LocalDraw) : makeLocalDaBit draw = makeLocalDaBitMod intModulus draw.toMod := rfl

/-- Halves of the bit `b`. -/
structure HalvesOf (p : ℕ) (b : Bool) (d0 d1 : DaBit) : Prop where
  range0 : 0 ≤ d0.bp ∧ d0.bp < p
  range1 : 0 ≤ d1.bp ∧ d1.bp < p
  sum : d0.bp + d1.bp ≡ b.toNat [ZMOD p]
  xor : (d0.b2 ^^ d1.b2) = b

section DaBit

variable {p : ℕ} (draw : ModDraw p)

theorem bit_sub_emod : ((draw.bit.toNat : ℤ) - (draw.r + (draw.bit.toNat + 1))) % p = p - (draw.r + 1) := by
  have hnonneg := draw.r_nonneg
  have hlt := draw.r_lt
  rw [← Int.add_emod_right, Int.emod_eq_of_lt] <;> omega

theorem halvesOf_makeLocalDaBitMod (hodd : Odd p) :
    HalvesOf p draw.bit (makeLocalDaBitMod p draw).1 (makeLocalDaBitMod p draw).2 := by
  obtain ⟨bit, r, hnonneg, hlt⟩ := draw
  have hwrap := bit_sub_emod ⟨bit, r, hnonneg, hlt⟩
  have hparity : (p : ℤ) % 2 = 1 := by
    obtain ⟨k, rfl⟩ := hodd
    omega
  simp only [makeLocalDaBitMod] at hwrap ⊢
  rw [hwrap]
  refine ⟨⟨?_, ?_⟩, ⟨?_, ?_⟩, Int.modEq_iff_dvd.mpr ⟨-1, ?_⟩, ?_⟩
  · show 0 ≤ r + (bit.toNat + 1)
    omega
  · show r + (bit.toNat + 1) < p
    omega
  · show 0 ≤ (p : ℤ) - (r + 1)
    omega
  · show (p : ℤ) - (r + 1) < p
    omega
  · show (bit.toNat : ℤ) - (r + (bit.toNat + 1) + (p - (r + 1))) = p * -1
    ring
  · show (decide ((r + (bit.toNat + 1)) % 2 = 1) ^^ decide (((p : ℤ) - (r + 1)) % 2 = 0)) = bit
    cases bit
    · simp
      omega
    · simp
      omega

end DaBit

/-! ### The edaBit -/

/-- The variables of the loop in `makeLocalEdaBit` after `n` rounds. -/
structure EdaLoop (n : ℕ) where
  ebit0 : EdaBit n
  ebit1 : EdaBit n
  pow : ℤ

section EdaBit

variable (p : ℕ) (draws : ℕ → ModDraw p)

/-- One round for one of the two edaBits. -/
def EdaBit.addBit {n : ℕ} (e : EdaBit n) (pow : ℤ) (bit : DaBit) : EdaBit (n + 1) where
  r := (e.r + pow * bit.bp) % p
  b := e.b ++ [bit.b2]
  length_b := by rw [List.length_append, e.length_b, List.length_singleton]

/-- The loop of `makeLocalEdaBit`. -/
def edaLoop : (n : ℕ) → EdaLoop n
  | 0 => ⟨⟨0, [], rfl⟩, ⟨0, [], rfl⟩, 1⟩
  | n + 1 =>
    let s := edaLoop n
    let bits := makeLocalDaBitMod p (draws n)
    ⟨s.ebit0.addBit p s.pow bits.1, s.ebit1.addBit p s.pow bits.2, s.pow * 2 % p⟩

/-- `makeLocalEdaBit`, from the draws of its daBits. A loop that a 32-bit counter does not get through returns
nothing. -/
def makeLocalEdaBit (n : ℕ) : Option (EdaBit n × EdaBit n) :=
  if n < 2 ^ 32 then some ((edaLoop p draws n).ebit0, (edaLoop p draws n).ebit1) else none

end EdaBit

/-- The bits that two edaBits share. -/
def EdaBit.opened {n : ℕ} (e0 e1 : EdaBit n) (i : ℕ) : Bool := e0.b.getD i false ^^ e1.b.getD i false

section Sum

variable {p : ℕ} {n : ℕ} (e0 e1 : EdaBit n) (pow : ℤ) (d0 d1 : DaBit)

theorem opened_addBit_of_lt {i : ℕ} (hi : i < n) :
    EdaBit.opened (e0.addBit p pow d0) (e1.addBit p pow d1) i = e0.opened e1 i := by
  simp only [EdaBit.opened, EdaBit.addBit]
  rw [List.getD_append _ _ _ _ (by rwa [e0.length_b]), List.getD_append _ _ _ _ (by rwa [e1.length_b])]

theorem opened_addBit_last : EdaBit.opened (e0.addBit p pow d0) (e1.addBit p pow d1) n = (d0.b2 ^^ d1.b2) := by
  simp only [EdaBit.opened, EdaBit.addBit]
  rw [List.getD_append_right _ _ _ _ (by rw [e0.length_b]), List.getD_append_right _ _ _ _ (by rw [e1.length_b]),
    e0.length_b, e1.length_b, Nat.sub_self]
  rfl

theorem cast_pow_edaLoop (draws : ℕ → ModDraw p) (n : ℕ) : ((edaLoop p draws n).pow : ZMod p) = 2 ^ n := by
  induction n with
  | zero => simp [edaLoop]
  | succ n ih => simp [edaLoop, ih, pow_succ]

theorem sum_edaLoop (hodd : Odd p) (draws : ℕ → ModDraw p) (n : ℕ) :
    ((edaLoop p draws n).ebit0.r : ZMod p) + (edaLoop p draws n).ebit1.r =
      (value n ((edaLoop p draws n).ebit0.opened (edaLoop p draws n).ebit1) : ℕ) := by
  induction n with
  | zero => simp [edaLoop]
  | succ n ih =>
    let s := edaLoop p draws n
    let bits := makeLocalDaBitMod p (draws n)
    have hbits := halvesOf_makeLocalDaBitMod (draws n) hodd
    have hsum : ((bits.1.bp : ℤ) : ZMod p) + bits.2.bp = ((bits.1.b2 ^^ bits.2.b2).toNat : ℕ) := by
      rw [hbits.xor]
      have hmod := (ZMod.intCast_eq_intCast_iff _ _ _).mpr hbits.sum
      push_cast at hmod
      exact hmod
    have hlow : value n (EdaBit.opened (s.ebit0.addBit p s.pow bits.1) (s.ebit1.addBit p s.pow bits.2)) =
        value n (s.ebit0.opened s.ebit1) := value_congr fun i hi => opened_addBit_of_lt _ _ _ _ _ hi
    have hpow := cast_pow_edaLoop draws n
    show (((s.ebit0.r + s.pow * bits.1.bp) % p : ℤ) : ZMod p) + (((s.ebit1.r + s.pow * bits.2.bp) % p : ℤ)) =
      (value (n + 1) (EdaBit.opened (s.ebit0.addBit p s.pow bits.1) (s.ebit1.addBit p s.pow bits.2)) : ℕ)
    rw [value_succ, hlow, opened_addBit_last, cast_emod, cast_emod]
    push_cast
    rw [← ih, ← hsum, show (s.pow : ZMod p) = 2 ^ n from hpow]
    ring

end Sum

/-! ### What is dealt -/

/-- What `makeLocalDaBit` and `makeLocalEdaBit` deal is correlated. -/
structure DealsCorrelated (p : ℕ) : Prop where
  daBit : ∀ draw : ModDraw p, HalvesOf p draw.bit (makeLocalDaBitMod p draw).1 (makeLocalDaBitMod p draw).2
  edaBit_returns : ∀ n (draws : ℕ → ModDraw p), n < 2 ^ 32 → (makeLocalEdaBit p draws n).isSome
  edaBit_sum : ∀ n (draws : ℕ → ModDraw p) e0 e1, makeLocalEdaBit p draws n = some (e0, e1) →
    e0.r + e1.r ≡ (value n (e0.opened e1) : ℕ) [ZMOD p]

theorem localBits_correlated {p : ℕ} (hodd : Odd p) : DealsCorrelated p where
  daBit draw := halvesOf_makeLocalDaBitMod draw hodd
  edaBit_returns n draws hn := by rw [makeLocalEdaBit, if_pos hn, Option.isSome_some]
  edaBit_sum n draws e0 e1 h := by
    rw [makeLocalEdaBit] at h
    split_ifs at h with hn
    obtain ⟨rfl, rfl⟩ := Prod.mk.inj (Option.some.inj h)
    rw [← ZMod.intCast_eq_intCast_iff]
    push_cast
    exact sum_edaLoop hodd draws n

theorem localBits_correlated_three : DealsCorrelated 3 := localBits_correlated (by decide)

end PrioPlus

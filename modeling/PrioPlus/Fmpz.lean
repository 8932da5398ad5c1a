import Mathlib.Data.Int.GCD
import Mathlib.Data.Nat.Prime.Basic
import Mathlib.Data.ZMod.Basic
import Mathlib.Algebra.Field.ZMod
import Mathlib.Algebra.BigOperators.Intervals

/-!
# FLINT integers

An `fmpz_t` is an integer, `fmpz_mod f g h` is `g % h` in `[0, h)`. An `fmpz_t` array of known length is a list,
read with `getD _ 0`; inside a routine an array argument is the function of its index. The two library calls
with a precondition are modelled here; the lemmas move their results to `ZMod p`.
-/

namespace PrioPlus

/-- `fmpz_invmod f g h`: the inverse of `g` modulo `h`. When there is none `f` is not written; every call of
the program passes the same variable as `f` and `g`. -/
def fmpzInvmod (g : ℤ) (h : ℕ) : ℤ := if Int.gcd g h = 1 then Int.gcdA g h % h else g

/-- `fmpz_powm_ui f g e m`. -/
def fmpzPowmUi (g : ℤ) (e m : ℕ) : ℤ := g ^ e % m

/-- The loop `for i < n: acc = (acc + f i) mod m`, from zero. -/
def sumMod (m n : ℕ) (f : ℕ → ℤ) : ℤ := (List.range n).foldl (fun acc i => (acc + f i) % m) 0

/-- The loop `for i < n: acc = (acc * f i) mod m`, from one. -/
def prodMod (m n : ℕ) (f : ℕ → ℤ) : ℤ := (List.range n).foldl (fun acc i => acc * f i % m) 1

theorem getD_map_range {α : Type*} (f : ℕ → α) (n i : ℕ) (d : α) :
    ((List.range n).map f).getD i d = if i < n then f i else d := by
  by_cases h : i < n <;> simp [List.getD_eq_getElem?_getD, h]

section ZMod

variable {p : ℕ}

@[simp] theorem cast_emod (x : ℤ) : ((x % (p : ℤ) : ℤ) : ZMod p) = x := ZMod.intCast_mod x p

theorem cast_eq_iff_emod (x y : ℤ) : (x : ZMod p) = y ↔ x % p = y % p := ZMod.intCast_eq_intCast_iff x y p

theorem cast_eq_zero_iff (x : ℤ) : (x : ZMod p) = 0 ↔ x % p = 0 := by
  rw [ZMod.intCast_zmod_eq_zero_iff_dvd, Int.dvd_iff_emod_eq_zero]

theorem eq_of_cast_eq {x y : ℤ} (hx : 0 ≤ x ∧ x < p) (hy : 0 ≤ y ∧ y < p) (h : (x : ZMod p) = y) : x = y := by
  rw [cast_eq_iff_emod, Int.emod_eq_of_lt hx.1 hx.2, Int.emod_eq_of_lt hy.1 hy.2] at h
  exact h

@[simp] theorem cast_fmpzPowmUi (g : ℤ) (e : ℕ) : ((fmpzPowmUi g e p : ℤ) : ZMod p) = (g : ZMod p) ^ e := by
  simp [fmpzPowmUi]

/-- The inverse in the field `ZMod p`; a multiple of `p` is left alone, and its class `0` is its own inverse. -/
@[simp] theorem cast_fmpzInvmod [Fact p.Prime] (g : ℤ) : ((fmpzInvmod g p : ℤ) : ZMod p) = (g : ZMod p)⁻¹ := by
  have hp : p.Prime := Fact.out
  by_cases hdvd : (p : ℤ) ∣ g
  · have hgcd : Int.gcd g p = p := by
      rw [Int.gcd_eq_natAbs, Int.natAbs_natCast]
      exact Nat.gcd_eq_right (Int.natCast_dvd.mp hdvd)
    have hzero : (g : ZMod p) = 0 := (ZMod.intCast_zmod_eq_zero_iff_dvd g p).mpr hdvd
    rw [fmpzInvmod, hgcd, if_neg hp.one_lt.ne', hzero, inv_zero]
  · have hgcd : Int.gcd g p = 1 := by
      rw [Int.gcd_comm, Int.gcd_eq_natAbs, Int.natAbs_natCast]
      exact (Nat.Prime.coprime_iff_not_dvd hp).mpr fun h => hdvd (Int.natCast_dvd.mpr h)
    have hbez := Int.gcd_eq_gcd_ab g p
    rw [hgcd] at hbez
    have hcast : (1 : ZMod p) = (g : ZMod p) * (Int.gcdA g p : ZMod p) := by
      have := congrArg (Int.cast : ℤ → ZMod p) hbez
      simpa using this
    rw [fmpzInvmod, if_pos hgcd, cast_emod]
    exact eq_inv_of_mul_eq_one_right hcast.symm

@[simp] theorem sumMod_zero (m : ℕ) (f : ℕ → ℤ) : sumMod m 0 f = 0 := rfl

theorem sumMod_succ (m n : ℕ) (f : ℕ → ℤ) : sumMod m (n + 1) f = (sumMod m n f + f n) % m := by
  simp [sumMod, List.range_succ]

theorem sumMod_range (hp : 0 < p) (n : ℕ) (f : ℕ → ℤ) : 0 ≤ sumMod p n f ∧ sumMod p n f < p := by
  have hpos : (0 : ℤ) < p := Int.natCast_pos.mpr hp
  cases n with
  | zero => exact ⟨le_rfl, hpos⟩
  | succ n =>
    rw [sumMod_succ]
    exact ⟨Int.emod_nonneg _ hpos.ne', Int.emod_lt_of_pos _ hpos⟩

theorem cast_sumMod (n : ℕ) (f : ℕ → ℤ) : ((sumMod p n f : ℤ) : ZMod p) = ∑ i ∈ Finset.range n, (f i : ZMod p) := by
  induction n with
  | zero => simp
  | succ n ih => rw [sumMod_succ, cast_emod, Int.cast_add, ih, Finset.sum_range_succ]

theorem cast_prodMod (n : ℕ) (f : ℕ → ℤ) :
    ((prodMod p n f : ℤ) : ZMod p) = ∏ i ∈ Finset.range n, (f i : ZMod p) := by
  induction n with
  | zero => simp [prodMod]
  | succ n ih =>
    have hstep : prodMod p (n + 1) f = prodMod p n f * f n % p := by simp [prodMod, List.range_succ]
    rw [hstep, cast_emod, Int.cast_mul, ih, Finset.prod_range_succ]

end ZMod

end PrioPlus

import Mathlib.Algebra.Polynomial.Derivative
import Mathlib.Algebra.Polynomial.Eval.Defs
import Mathlib.Tactic.Ring

/-!
# Polynomials as coefficient lists

Executable polynomial arithmetic on coefficient lists, low order first: sum, product, derivative and the
remainder by a monic divisor. `toPoly` reads a list as a Mathlib polynomial; sum, product and derivative
commute with it, and the remainder agrees with the dividend at every root of the divisor (`eval_rem`), which
is all a multipoint evaluation needs of it.
-/

namespace PrioPlus.Lib.CoeffList

open Polynomial

variable {R : Type*} [CommRing R]

/-! ### The operations -/

def add : List R → List R → List R
  | [], m => m
  | l, [] => l
  | a :: l, b :: m => (a + b) :: add l m

def scale (c : R) (l : List R) : List R := l.map (c * ·)

def mul : List R → List R → List R
  | [], _ => []
  | a :: l, m => add (scale a m) (0 :: mul l m)

/-- The derivative of the part of a list that starts at exponent `k`. -/
def derivFrom (k : ℕ) : List R → List R
  | [] => []
  | a :: l => (k * a) :: derivFrom (k + 1) l

def polyDerivative : List R → List R
  | [] => []
  | _ :: l => derivFrom 1 l

/-- One step of long division from the top: bring down `c`, subtract the multiple of the divisor `q` that
cancels the leading entry, drop that entry. -/
def remStep (q : List R) (c : R) (r : List R) : List R :=
  (List.zipWith (fun a b => a - (c :: r).getLast (List.cons_ne_nil c r) * b) (c :: r) q).dropLast

/-- The remainder of `f` by the monic list `q`. -/
def rem (f q : List R) : List R := f.foldr (remStep q) (List.replicate (q.length - 1) 0)

/-- A list of `d + 1` coefficients whose leading one is `1`. -/
def MonicOf (d : ℕ) (l : List R) : Prop := ∃ low : List R, low.length = d ∧ l = low ++ [1]

/-! ### Reading a list as a polynomial -/

noncomputable def toPoly : List R → R[X]
  | [] => 0
  | a :: l => C a + X * toPoly l

@[simp] theorem toPoly_nil : toPoly ([] : List R) = 0 := rfl

@[simp] theorem toPoly_cons (a : R) (l : List R) : toPoly (a :: l) = C a + X * toPoly l := rfl

theorem toPoly_add (l m : List R) : toPoly (add l m) = toPoly l + toPoly m := by
  induction l generalizing m with
  | nil => simp [add]
  | cons a l ih =>
    cases m with
    | nil => simp [add]
    | cons b m =>
      simp only [add, toPoly_cons, ih, C_add]
      ring

theorem toPoly_scale (c : R) (l : List R) : toPoly (scale c l) = C c * toPoly l := by
  induction l with
  | nil => simp [scale]
  | cons a l ih =>
    have htail : toPoly (List.map (c * ·) l) = C c * toPoly l := ih
    simp only [scale, List.map_cons, toPoly_cons, htail, C_mul]
    ring

theorem toPoly_mul (l m : List R) : toPoly (mul l m) = toPoly l * toPoly m := by
  induction l with
  | nil => simp [mul]
  | cons a l ih =>
    simp only [mul, toPoly_add, toPoly_scale, toPoly_cons, ih, C_0]
    ring

theorem toPoly_derivFrom (k : ℕ) (l : List R) :
    toPoly (derivFrom k l) = (k : R[X]) * toPoly l + X * derivative (toPoly l) := by
  induction l generalizing k with
  | nil => simp [derivFrom]
  | cons a l ih =>
    simp only [derivFrom, toPoly_cons, ih, derivative_add, derivative_mul, derivative_C, derivative_X, C_mul,
      map_natCast, Nat.cast_succ]
    ring

theorem toPoly_polyDerivative (l : List R) : toPoly (polyDerivative l) = derivative (toPoly l) := by
  cases l with
  | nil => simp [polyDerivative]
  | cons a l =>
    simp only [polyDerivative, toPoly_derivFrom, toPoly_cons, derivative_add, derivative_mul, derivative_C,
      derivative_X, Nat.cast_one]
    ring

/-! ### The remainder -/

theorem eval_append (x : R) (l m : List R) :
    (toPoly (l ++ m)).eval x = (toPoly l).eval x + x ^ l.length * (toPoly m).eval x := by
  induction l with
  | nil => simp
  | cons a l ih =>
    simp only [List.cons_append, toPoly_cons, eval_add, eval_C, eval_mul, eval_X, ih, List.length_cons,
      pow_succ]
    ring

theorem eval_zipWith_sub (x t : R) (l m : List R) (h : l.length = m.length) :
    (toPoly (List.zipWith (fun a b => a - t * b) l m)).eval x =
      (toPoly l).eval x - t * (toPoly m).eval x := by
  induction l generalizing m with
  | nil =>
    have hm : m = [] := List.length_eq_zero_iff.mp h.symm
    simp [hm]
  | cons a l ih =>
    cases m with
    | nil => simp at h
    | cons b m =>
      have hlen : l.length = m.length := by simpa using h
      simp only [List.zipWith_cons_cons, toPoly_cons, eval_add, eval_C, eval_mul, eval_X, ih m hlen]
      ring

theorem length_remStep {d : ℕ} {q : List R} (hq : q.length = d + 1) (c : R) {r : List R} (hr : r.length = d) :
    (remStep q c r).length = d := by
  simp [remStep, hq, hr]

theorem eval_remStep {d : ℕ} {q : List R} (hq : MonicOf d q) {x : R} (hx : (toPoly q).eval x = 0) (c : R)
    {r : List R} (hr : r.length = d) :
    (toPoly (remStep q c r)).eval x = c + x * (toPoly r).eval x := by
  obtain ⟨low, hlow, rfl⟩ := hq
  -- the dividend with its leading entry split off
  obtain ⟨s, t, hst⟩ : ∃ s t, c :: r = s ++ [t] := by
    refine ⟨(c :: r).dropLast, (c :: r).getLast (List.cons_ne_nil c r), ?_⟩
    exact (List.dropLast_append_getLast (List.cons_ne_nil c r)).symm
  have hslen : s.length = low.length := by
    have := congrArg List.length hst
    simp only [List.length_cons, List.length_append, List.length_nil] at this
    omega
  have hlast : (c :: r).getLast (List.cons_ne_nil c r) = t := by simp [hst]
  have hstep : remStep (low ++ [1]) c r = List.zipWith (fun a b => a - t * b) s low := by
    rw [remStep, hlast, hst, List.zipWith_append hslen]
    simp
  have hdivisor : (toPoly low).eval x + x ^ low.length = 0 := by
    simpa [eval_append] using hx
  have hdividend : c + x * (toPoly r).eval x = (toPoly s).eval x + x ^ low.length * t := by
    have heval := congrArg (fun l => (toPoly l).eval x) hst
    simpa [eval_append, hslen] using heval
  rw [hstep, eval_zipWith_sub x t s low hslen, hdividend, eq_neg_of_add_eq_zero_left hdivisor]
  ring

theorem length_rem {d : ℕ} {q : List R} (hq : q.length = d + 1) (f : List R) : (rem f q).length = d := by
  induction f with
  | nil => simp [rem, hq]
  | cons c f ih => exact length_remStep hq c ih

@[simp] theorem MonicOf.length_eq {d : ℕ} {q : List R} (hq : MonicOf d q) : q.length = d + 1 := by
  obtain ⟨low, hlow, rfl⟩ := hq
  simp [hlow]

theorem toPoly_replicate_zero (n : ℕ) : toPoly (List.replicate n (0 : R)) = 0 := by
  induction n with
  | zero => rfl
  | succ n ih => simp [List.replicate_succ, ih]

theorem eval_rem {d : ℕ} {q : List R} (hq : MonicOf d q) {x : R} (hx : (toPoly q).eval x = 0) (f : List R) :
    (toPoly (rem f q)).eval x = (toPoly f).eval x := by
  induction f with
  | nil => simp [rem, toPoly_replicate_zero]
  | cons c f ih =>
    have hstep := eval_remStep hq hx c (length_rem hq.length_eq f)
    rw [show rem (c :: f) q = remStep q c (rem f q) from rfl, hstep, ih]
    simp

/-! ### Products of monic lists -/

theorem MonicOf.add_left {d : ℕ} {m : List R} (hm : MonicOf d m) (l : List R) (hl : l.length ≤ d) :
    MonicOf d (add l m) := by
  obtain ⟨low, rfl, rfl⟩ := hm
  induction l generalizing low with
  | nil => exact ⟨low, rfl, by simp [add]⟩
  | cons a l ih =>
    cases low with
    | nil => simp at hl
    | cons b low =>
      obtain ⟨rest, hlen, heq⟩ := ih low (by simpa using hl)
      exact ⟨(a + b) :: rest, by simp [hlen], by simp [add, heq]⟩

theorem MonicOf.mul {d e : ℕ} {l m : List R} (hl : MonicOf d l) (hm : MonicOf e m) :
    MonicOf (d + e) (mul l m) := by
  obtain ⟨low, rfl, rfl⟩ := hl
  induction low with
  | nil =>
    obtain ⟨a, rest, rfl⟩ : ∃ a rest, m = a :: rest := by
      cases m with
      | nil => simpa using hm.length_eq
      | cons a rest => exact ⟨a, rest, rfl⟩
    have hsame : CoeffList.mul ([] ++ [(1 : R)]) (a :: rest) = a :: rest := by
      cases rest <;> simp [CoeffList.mul, scale, CoeffList.add]
    rw [hsame]
    simpa using hm
  | cons a low ih =>
    have hshift : MonicOf (low.length + 1 + e) (0 :: CoeffList.mul (low ++ [1]) m) := by
      obtain ⟨rest, hlen, heq⟩ := ih
      exact ⟨0 :: rest, by simp [hlen]; omega, by simp [heq]⟩
    exact hshift.add_left (scale a m) (by simp [scale, hm.length_eq])

end PrioPlus.Lib.CoeffList

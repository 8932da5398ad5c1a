import Mathlib.Data.List.GetD
import Mathlib.LinearAlgebra.Lagrange
import PrioPlus.Fmpz
import PrioPlus.Lib.CoeffList

/-!
# The product tree of `poly/poly_batch.c`

`poly_batch_precomp_init` multiplies the linear factors `X - x_i` up a binary tree, takes the derivative of the
product, evaluates it at all nodes by remainders down the same tree, and inverts. A `fmpz_mod_poly_t` is a
coefficient list over `ZMod p`. The product at the root of a tree is the nodal polynomial of its points
(`toPoly_treeInit`), the remainders evaluate (`fastEvaluate_eq`), and so the `s_points` are the barycentric weights
of the nodes (`sPoints_eq`).
-/

namespace PrioPlus

open Finset Polynomial Lib.CoeffList

/-- `struct tree_s`. -/
inductive Tree (p : ℕ) where
  | leaf (poly : List (ZMod p))
  | node (poly : List (ZMod p)) (left right : Tree p)

def Tree.poly {p : ℕ} : Tree p → List (ZMod p)
  | .leaf poly => poly
  | .node poly _ _ => poly

/-- `tree_init` on the `n` points from `pointsX` on. -/
def treeInit (p n : ℕ) (pointsX : ℕ → ℤ) : Tree p :=
  if n ≤ 1 then .leaf [-(pointsX 0 : ZMod p), 1]
  else
    let k := n / 2
    let left := treeInit p k pointsX
    let right := treeInit p (n - k) fun i => pointsX (k + i)
    .node (mul left.poly right.poly) left right
termination_by n

/-- `fast_evaluate`: the values of `poly` at the points of the tree, by remainders. At a leaf the polynomial is a
constant and its coefficient is read off. -/
def fastEvaluate {p : ℕ} (poly : List (ZMod p)) : Tree p → List ℤ
  | .leaf _ => [((poly.getD 0 0).val : ℤ)]
  | .node _ left right => fastEvaluate (rem poly left.poly) left ++ fastEvaluate (rem poly right.poly) right

/-- The fields of `struct precomp_s` that `poly_once.c` reads. -/
structure Precomp where
  modulus : ℕ
  nPoints : ℕ
  xPoints : ℕ → ℤ
  sPoints : List ℤ

def polyBatchPrecompInit (modulus nPoints : ℕ) (pointsX : ℕ → ℤ) : Precomp :=
  let tree := treeInit modulus nPoints pointsX
  let derivative := polyDerivative tree.poly
  { modulus := modulus
    nPoints := nPoints
    xPoints := pointsX
    sPoints := (fastEvaluate derivative tree).map (fmpzInvmod · modulus) }

section Fields

variable (modulus nPoints : ℕ) (pointsX : ℕ → ℤ)

@[simp] theorem polyBatchPrecompInit_modulus :
    (polyBatchPrecompInit modulus nPoints pointsX).modulus = modulus := rfl

@[simp] theorem polyBatchPrecompInit_nPoints :
    (polyBatchPrecompInit modulus nPoints pointsX).nPoints = nPoints := rfl

@[simp] theorem polyBatchPrecompInit_xPoints :
    (polyBatchPrecompInit modulus nPoints pointsX).xPoints = pointsX := rfl

end Fields

/-! ### The product tree -/

section Tree

variable {p : ℕ}

theorem treeInit_of_le_one {n : ℕ} (hn : n ≤ 1) (pointsX : ℕ → ℤ) :
    treeInit p n pointsX = .leaf [-(pointsX 0 : ZMod p), 1] := by rw [treeInit, if_pos hn]

theorem treeInit_of_one_lt {n : ℕ} (hn : 1 < n) (pointsX : ℕ → ℤ) :
    treeInit p n pointsX =
      .node (mul (treeInit p (n / 2) pointsX).poly (treeInit p (n - n / 2) fun i => pointsX (n / 2 + i)).poly)
        (treeInit p (n / 2) pointsX) (treeInit p (n - n / 2) fun i => pointsX (n / 2 + i)) := by
  rw [treeInit, if_neg (by omega)]

theorem tree_induct {motive : (n : ℕ) → 0 < n → (ℕ → ℤ) → Prop}
    (one : ∀ pointsX, motive 1 Nat.one_pos pointsX)
    (halves : ∀ n pointsX, (hlt : 1 < n) → motive (n / 2) (by omega) pointsX →
      motive (n - n / 2) (by omega) (fun i => pointsX (n / 2 + i)) → motive n (by omega) pointsX)
    (n : ℕ) (hn : 0 < n) (pointsX : ℕ → ℤ) : motive n hn pointsX := by
  induction n using Nat.strong_induction_on generalizing pointsX with
  | _ n ih =>
    rcases Nat.lt_or_ge 1 n with hlt | hle
    · exact halves n pointsX hlt (ih (n / 2) (by omega) _ pointsX) (ih (n - n / 2) (by omega) _ _)
    · obtain rfl : n = 1 := by omega
      exact one pointsX

theorem monic_treeInit (n : ℕ) (hn : 0 < n) (pointsX : ℕ → ℤ) : MonicOf n (treeInit p n pointsX).poly := by
  induction n, hn, pointsX using tree_induct with
  | one pointsX =>
    rw [treeInit_of_le_one le_rfl]
    exact ⟨[-(pointsX 0 : ZMod p)], rfl, rfl⟩
  | halves n pointsX hlt ihl ihr =>
    rw [treeInit_of_one_lt hlt, Tree.poly]
    have hmul := ihl.mul ihr
    rwa [show n / 2 + (n - n / 2) = n by omega] at hmul

theorem toPoly_treeInit (n : ℕ) (hn : 0 < n) (pointsX : ℕ → ℤ) :
    toPoly (treeInit p n pointsX).poly = Lagrange.nodal (range n) fun i => (pointsX i : ZMod p) := by
  induction n, hn, pointsX using tree_induct with
  | one pointsX =>
    rw [treeInit_of_le_one le_rfl]
    simp [Tree.poly, Lagrange.nodal_eq]
    ring
  | halves n pointsX hlt ihl ihr =>
    rw [treeInit_of_one_lt hlt, Tree.poly, toPoly_mul, ihl, ihr]
    simp only [Lagrange.nodal_eq]
    conv_rhs => rw [show n = n / 2 + (n - n / 2) by omega, prod_range_add]

theorem eval_treeInit_node (n : ℕ) (hn : 0 < n) (pointsX : ℕ → ℤ) {i : ℕ} (hi : i < n) :
    (toPoly (treeInit p n pointsX).poly).eval (pointsX i : ZMod p) = 0 := by
  rw [toPoly_treeInit n hn]
  exact Lagrange.eval_nodal_at_node (v := fun i => (pointsX i : ZMod p)) (mem_range.mpr hi)

/-! ### Evaluation by remainders -/

theorem length_fastEvaluate (n : ℕ) (hn : 0 < n) (pointsX : ℕ → ℤ) (f : List (ZMod p)) :
    (fastEvaluate f (treeInit p n pointsX)).length = n := by
  induction n, hn, pointsX using tree_induct generalizing f with
  | one pointsX => rw [treeInit_of_le_one le_rfl]; rfl
  | halves n pointsX hlt ihl ihr =>
    rw [treeInit_of_one_lt hlt, fastEvaluate, List.length_append, ihl, ihr]
    omega

/-- Remainders down the tree evaluate: of a constant at one point, of anything at several. -/
theorem fastEvaluate_eq [NeZero p] (n : ℕ) (hn : 0 < n) (pointsX : ℕ → ℤ) (f : List (ZMod p))
    (hf : n = 1 → f.length ≤ 1) {i : ℕ} (hi : i < n) :
    (((fastEvaluate f (treeInit p n pointsX)).getD i 0 : ℤ) : ZMod p) =
      (toPoly f).eval (pointsX i : ZMod p) := by
  induction n, hn, pointsX using tree_induct generalizing f i with
  | one pointsX =>
    obtain rfl : i = 0 := by omega
    rw [treeInit_of_le_one le_rfl, fastEvaluate]
    match f, hf rfl with
    | [], _ => simp
    | [a], _ => simp
  | halves n pointsX hlt ihl ihr =>
    have hleft : 0 < n / 2 := by omega
    have hright : 0 < n - n / 2 := by omega
    rw [treeInit_of_one_lt hlt, fastEvaluate]
    rcases Nat.lt_or_ge i (n / 2) with hlow | hhigh
    · rw [List.getD_append _ _ _ _ (by rwa [length_fastEvaluate _ hleft])]
      rw [ihl _ (fun h1 => by rw [length_rem (monic_treeInit _ hleft _).length_eq, h1]) hlow]
      exact eval_rem (monic_treeInit _ hleft _) (eval_treeInit_node _ hleft _ hlow) f
    · obtain ⟨j, rfl⟩ := Nat.exists_eq_add_of_le hhigh
      rw [List.getD_append_right _ _ _ _ (by rw [length_fastEvaluate _ hleft]; omega),
        length_fastEvaluate _ hleft, Nat.add_sub_cancel_left]
      rw [ihr _ (fun h1 => by rw [length_rem (monic_treeInit _ hright _).length_eq, h1]) (by omega)]
      have hj : j < n - n / 2 := by omega
      have hnode := eval_treeInit_node (p := p) (n - n / 2) hright (fun i => pointsX (n / 2 + i)) hj
      exact eval_rem (monic_treeInit _ hright _) hnode f

theorem length_polyDerivative_treeInit_one (pointsX : ℕ → ℤ) :
    (polyDerivative (treeInit p 1 pointsX).poly).length ≤ 1 := by
  rw [treeInit_of_le_one le_rfl]
  simp [Tree.poly, polyDerivative, derivFrom]

theorem sPoints_eq [Fact p.Prime] (n : ℕ) (hn : 0 < n) (pointsX : ℕ → ℤ) {i : ℕ} (hi : i < n) :
    (((polyBatchPrecompInit p n pointsX).sPoints.getD i 0 : ℤ) : ZMod p) =
      Lagrange.nodalWeight (range n) (fun i => (pointsX i : ZMod p)) i := by
  have hlen : i < (fastEvaluate (polyDerivative (treeInit p n pointsX).poly) (treeInit p n pointsX)).length := by
    rwa [length_fastEvaluate n hn]
  have hderiv : ∀ f : List (ZMod p), n = 1 → f = polyDerivative (treeInit p n pointsX).poly → f.length ≤ 1 := by
    rintro f rfl rfl
    exact length_polyDerivative_treeInit_one pointsX
  have hval := fastEvaluate_eq n hn pointsX (polyDerivative (treeInit p n pointsX).poly) (fun h => hderiv _ h rfl) hi
  rw [List.getD_eq_getElem _ _ hlen] at hval
  rw [Lagrange.nodalWeight_eq_eval_derivative_nodal (mem_range.mpr hi)]
  simp only [polyBatchPrecompInit]
  rw [List.getD_eq_getElem _ _ (by rwa [List.length_map]), List.getElem_map, cast_fmpzInvmod, hval,
    toPoly_polyDerivative, toPoly_treeInit n hn]

end Tree

end PrioPlus

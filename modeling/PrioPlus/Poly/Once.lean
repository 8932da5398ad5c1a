import PrioPlus.Poly.Batch

/-!
# Evaluation at one point, `poly/poly_once.c`

`precomp_x_init` prepares the Lagrange coefficients of a point `x` over the nodes of a `precomp_t`, and
`precomp_x_eval` applies them to a vector of values. When `x` is itself a node the values are read off directly.
Either way the result is the value at `x` of the interpolation polynomial (`precompXEval_eq`).
-/

namespace PrioPlus

open Finset Polynomial

/-- `precomp_x_t`. The source's `short_x = -1` is `none`. -/
structure PrecompX where
  nPoints : ℕ
  shortX : Option ℕ
  coeffs : List ℤ
  modulus : ℕ

def precompXInit (pre : Precomp) (x : ℤ) : PrecompX :=
  let prod := prodMod pre.modulus pre.nPoints fun i => x - pre.xPoints i
  { nPoints := pre.nPoints
    shortX := (List.range pre.nPoints).find? fun i => x = pre.xPoints i
    coeffs := (List.range pre.nPoints).map fun i =>
      fmpzInvmod ((x - pre.xPoints i) % pre.modulus) pre.modulus * prod % pre.modulus
        * pre.sPoints.getD i 0 % pre.modulus
    modulus := pre.modulus }

def precompXEval (preX : PrecompX) (yValues : ℕ → ℤ) : ℤ :=
  match preX.shortX with
  | some i => yValues i
  | none => sumMod preX.modulus preX.nPoints fun i => yValues i * preX.coeffs.getD i 0 % preX.modulus

section Spec

@[simp] theorem precompXInit_modulus (pre : Precomp) (x : ℤ) : (precompXInit pre x).modulus = pre.modulus := rfl

@[simp] theorem precompXInit_nPoints (pre : Precomp) (x : ℤ) : (precompXInit pre x).nPoints = pre.nPoints := rfl

variable {p n : ℕ} {pointsX : ℕ → ℤ} {x : ℤ}

theorem shortX_some {pre : Precomp} {i : ℕ} (h : (precompXInit pre x).shortX = some i) :
    i < pre.nPoints ∧ x = pre.xPoints i := by
  have hmem := List.mem_of_find?_eq_some h
  have hval := List.find?_some h
  exact ⟨List.mem_range.mp hmem, by simpa using hval⟩

theorem shortX_none {pre : Precomp} (h : (precompXInit pre x).shortX = none) :
    ∀ i < pre.nPoints, x ≠ pre.xPoints i := by
  intro i hi hx
  have hfind := List.find?_eq_none.mp h i (List.mem_range.mpr hi)
  exact hfind (by simpa using hx)

theorem getD_coeffs (pre : Precomp) {i : ℕ} (hi : i < pre.nPoints) :
    (precompXInit pre x).coeffs.getD i 0 =
      fmpzInvmod ((x - pre.xPoints i) % pre.modulus) pre.modulus
        * prodMod pre.modulus pre.nPoints (fun i => x - pre.xPoints i) % pre.modulus
        * pre.sPoints.getD i 0 % pre.modulus := by
  rw [precompXInit, getD_map_range, if_pos hi]

theorem cast_coeffs [Fact p.Prime] (hn : 0 < n) {i : ℕ} (hi : i < n) :
    (((precompXInit (polyBatchPrecompInit p n pointsX) x).coeffs.getD i 0 : ℤ) : ZMod p) =
      (x - pointsX i : ZMod p)⁻¹ * (∏ j ∈ range n, (x - pointsX j : ZMod p)) *
        Lagrange.nodalWeight (range n) (fun i => (pointsX i : ZMod p)) i := by
  have hs := sPoints_eq (p := p) n hn pointsX hi
  rw [getD_coeffs _ (by exact hi)]
  simp only [polyBatchPrecompInit_modulus, polyBatchPrecompInit_nPoints, polyBatchPrecompInit_xPoints,
    cast_emod, Int.cast_mul, hs, cast_fmpzInvmod, cast_prodMod, Int.cast_sub]

theorem precompXEval_eq [Fact p.Prime] (hn : 0 < n)
    (hinj : Set.InjOn (fun i => (pointsX i : ZMod p)) (range n : Finset ℕ))
    (hrange : ∀ i < n, 0 ≤ pointsX i ∧ pointsX i < p) (hx : 0 ≤ x ∧ x < p) (ys : ℕ → ℤ) :
    ((precompXEval (precompXInit (polyBatchPrecompInit p n pointsX) x) ys : ℤ) : ZMod p) =
      (Lagrange.interpolate (range n) (fun i => (pointsX i : ZMod p)) fun i => (ys i : ZMod p)).eval
        (x : ZMod p) := by
  rw [precompXEval]
  split
  case h_1 i hshort =>
    obtain ⟨hi, hxi⟩ := shortX_some hshort
    rw [show x = pointsX i from hxi]
    exact (Lagrange.eval_interpolate_at_node (fun i => (ys i : ZMod p)) hinj (mem_range.mpr hi)).symm
  case h_2 hshort =>
    have hne : ∀ i ∈ range n, (x : ZMod p) ≠ pointsX i := by
      intro i hi hcast
      have hi := mem_range.mp hi
      exact shortX_none hshort i hi (eq_of_cast_eq hx (hrange i hi) hcast)
    simp only [precompXInit_modulus, precompXInit_nPoints, polyBatchPrecompInit_modulus,
      polyBatchPrecompInit_nPoints]
    rw [cast_sumMod, Lagrange.eval_interpolate_not_at_node _ hne, Lagrange.eval_nodal, mul_sum]
    apply sum_congr rfl
    intro i hi
    rw [cast_emod, Int.cast_mul, cast_coeffs hn (mem_range.mp hi)]
    ring

end Spec

end PrioPlus

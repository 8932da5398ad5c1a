import PrioPlus.Poly.Once

/-!
# The interpolant that `precomp_x_eval` evaluates

For distinct nodes there is one polynomial of degree below the number of nodes through given values
(`existsUnique_interpolant`). `precomp_x_eval` is its value, on the short path and on the Lagrange path, and the
`s_points` are the inverses of the derivative of the node product at the nodes (`sPoints_mul_derivative`).
-/

namespace PrioPlus

open Finset Polynomial

/-- `P` has a degree below `n` and the values `ys` at the nodes. -/
structure Interpolates (p n : ℕ) (pointsX ys : ℕ → ℤ) (P : (ZMod p)[X]) : Prop where
  degree_lt : P.degree < n
  values : ∀ i < n, P.eval (pointsX i : ZMod p) = ys i

section Interpolant

variable {p n : ℕ} [Fact p.Prime] {pointsX : ℕ → ℤ}

theorem injOn_nodes (hrange : ∀ i < n, 0 ≤ pointsX i ∧ pointsX i < p)
    (hdistinct : ∀ i < n, ∀ j < n, pointsX i = pointsX j → i = j) :
    Set.InjOn (fun i => (pointsX i : ZMod p)) (range n : Finset ℕ) := by
  intro i hi j hj hcast
  have hi : i < n := mem_range.mp hi
  have hj : j < n := mem_range.mp hj
  exact hdistinct i hi j hj (eq_of_cast_eq (hrange i hi) (hrange j hj) hcast)

variable (hinj : Set.InjOn (fun i => (pointsX i : ZMod p)) (range n : Finset ℕ)) (ys : ℕ → ℤ)
include hinj

theorem eq_interpolate {P : (ZMod p)[X]} (hP : Interpolates p n pointsX ys P) :
    P = Lagrange.interpolate (range n) (fun i => (pointsX i : ZMod p)) fun i => (ys i : ZMod p) := by
  apply Lagrange.eq_interpolate_of_eval_eq _ hinj
  · rw [card_range]
    exact hP.degree_lt
  · exact fun i hi => hP.values i (mem_range.mp hi)

theorem interpolates_interpolate : Interpolates p n pointsX ys
    (Lagrange.interpolate (range n) (fun i => (pointsX i : ZMod p)) fun i => (ys i : ZMod p)) := by
  refine ⟨?_, fun i hi => ?_⟩
  · have hdegree := Lagrange.degree_interpolate_lt (fun i => (ys i : ZMod p)) hinj
    rwa [card_range] at hdegree
  · exact Lagrange.eval_interpolate_at_node (fun i => (ys i : ZMod p)) hinj (mem_range.mpr hi)

theorem existsUnique_interpolant : ∃! P, Interpolates p n pointsX ys P :=
  ⟨_, interpolates_interpolate hinj ys, fun _ hP => eq_interpolate hinj ys hP⟩

omit ys in
/-- The product of the nodes has a derivative other than zero at the nodes, and the `s_points` are its inverses. -/
theorem sPoints_mul_derivative (hn : 0 < n) {i : ℕ} (hi : i < n) :
    (((polyBatchPrecompInit p n pointsX).sPoints.getD i 0 : ℤ) : ZMod p) *
      (derivative (∏ j ∈ range n, (X - C (pointsX j : ZMod p)))).eval (pointsX i : ZMod p) = 1 := by
  have hweight := Lagrange.nodalWeight_ne_zero hinj (mem_range.mpr hi)
  have hderivative := Lagrange.nodalWeight_eq_eval_derivative_nodal (v := fun i => (pointsX i : ZMod p))
    (mem_range.mpr hi)
  rw [hderivative] at hweight
  rw [sPoints_eq n hn pointsX hi, hderivative, ← Lagrange.nodal_eq]
  exact inv_mul_cancel₀ ((not_congr inv_eq_zero).mp hweight)

end Interpolant

/-- `precomp_x_eval` gives the value at `x` of the one interpolant. At a node it takes the short path, to the value
given for the node. The `s_points` are the inverses of the values of the derivative of the node product, which the
remainders down the tree leave at the nodes. -/
theorem precompXEval_interpolant {p n : ℕ} (hp : p.Prime) (hn : 1 ≤ n) {pointsX : ℕ → ℤ}
    (hrange : ∀ i < n, 0 ≤ pointsX i ∧ pointsX i < p)
    (hdistinct : ∀ i < n, ∀ j < n, pointsX i = pointsX j → i = j) (ys : ℕ → ℤ) {x : ℤ} (hx : 0 ≤ x ∧ x < p) :
    (∃! P, Interpolates p n pointsX ys P) ∧
      (∀ P, Interpolates p n pointsX ys P →
        ((precompXEval (precompXInit (polyBatchPrecompInit p n pointsX) x) ys : ℤ) : ZMod p) = P.eval (x : ZMod p)) ∧
      (∀ i < n, x = pointsX i →
        precompXEval (precompXInit (polyBatchPrecompInit p n pointsX) x) ys = ys i ∧
          ∀ P, Interpolates p n pointsX ys P → (ys i : ZMod p) = P.eval (x : ZMod p)) ∧
      ∀ i < n,
        (((fastEvaluate (Lib.CoeffList.polyDerivative (treeInit p n pointsX).poly)
            (treeInit p n pointsX)).getD i 0 : ℤ) : ZMod p) =
          (derivative (∏ j ∈ range n, (X - C (pointsX j : ZMod p)))).eval (pointsX i : ZMod p) ∧
        (((polyBatchPrecompInit p n pointsX).sPoints.getD i 0 : ℤ) : ZMod p) *
          (derivative (∏ j ∈ range n, (X - C (pointsX j : ZMod p)))).eval (pointsX i : ZMod p) = 1 := by
  have hfact : Fact p.Prime := ⟨hp⟩
  have hinj := injOn_nodes hrange hdistinct
  refine ⟨existsUnique_interpolant hinj ys, fun P hP => ?_, fun i hi hxi => ⟨?_, fun P hP => ?_⟩,
    fun i hi => ⟨?_, ?_⟩⟩
  · rw [precompXEval_eq hn hinj hrange hx ys, ← eq_interpolate hinj ys hP]
  · rw [precompXEval]
    split
    case h_1 j hshort =>
      obtain ⟨hj, hxj⟩ := shortX_some hshort
      rw [hdistinct j hj i hi (hxj.symm.trans hxi)]
    case h_2 hshort => exact absurd hxi (shortX_none hshort i hi)
  · rw [hxi]
    exact (hP.values i hi).symm
  · rw [fastEvaluate_eq n hn pointsX _ (fun h => ?_) hi, Lib.CoeffList.toPoly_polyDerivative, toPoly_treeInit n hn,
      Lagrange.nodal_eq]
    subst h
    exact length_polyDerivative_treeInit_one pointsX
  · exact sPoints_mul_derivative hinj hn hi

theorem precompXEval_interpolant_seven :
    ∃ P : (ZMod 7)[X], Interpolates 7 3 (fun i => [1, 2, 4].getD i 0) (fun i => [3, 20, -1].getD i 0) P ∧
      ((precompXEval (precompXInit (polyBatchPrecompInit 7 3 fun i => [1, 2, 4].getD i 0) 3)
        (fun i => [3, 20, -1].getD i 0) : ℤ) : ZMod 7) = P.eval ((3 : ℤ) : ZMod 7) := by
  have hprime : Nat.Prime 7 := by decide
  have hrange : ∀ i < 3, 0 ≤ [(1 : ℤ), 2, 4].getD i 0 ∧ [(1 : ℤ), 2, 4].getD i 0 < (7 : ℕ) := by decide
  have hdistinct : ∀ i < 3, ∀ j < 3, [(1 : ℤ), 2, 4].getD i 0 = [1, 2, 4].getD j 0 → i = j := by decide
  have hx : (0 : ℤ) ≤ 3 ∧ (3 : ℤ) < (7 : ℕ) := by decide
  obtain ⟨⟨P, hP, -⟩, hvalue, -⟩ :=
    precompXEval_interpolant hprime (by decide) hrange hdistinct (fun i => [3, 20, -1].getD i 0) hx
  exact ⟨P, hP, hvalue P hP⟩

end PrioPlus

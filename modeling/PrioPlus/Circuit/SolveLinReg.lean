import Mathlib.LinearAlgebra.Matrix.Adjugate
import PrioPlus.Lib.Triangle

/-!
# `SolveLinReg` of `circuit.h`

The accumulated sums are the entries of a symmetric matrix, its first column first and then the rest of its upper
triangle row by row (`linRegEntries_zero`, `linRegEntries_succ`). The coefficients solve the system when the matrix
has an inverse (`solveLinReg_spec`).
-/

namespace PrioPlus

open Lib.Triangle Matrix

/-- `fmpq_mat_inv` on matrices of one size: whether there is an inverse, and the inverse when there is one. -/
structure FmpqMatInv (n : ℕ) where
  inv : Matrix (Fin n) (Fin n) ℚ → Bool × Matrix (Fin n) (Fin n) ℚ
  ret_iff : ∀ X, (inv X).1 = true ↔ X.det ≠ 0
  mul_inv : ∀ X, X.det ≠ 0 → X * (inv X).2 = 1

/-- The inverse by cofactors is one. -/
def adjugateInv (n : ℕ) : FmpqMatInv n where
  inv X := (decide (X.det ≠ 0), X.det⁻¹ • X.adjugate)
  ret_iff X := decide_eq_true_iff
  mul_inv X hdet := by rw [Matrix.mul_smul, mul_adjugate, smul_smul, inv_mul_cancel₀ hdet, one_smul]

/-- The entries that the loops of `SolveLinReg` write. -/
def linRegEntries (degree : ℕ) (x : List UInt64) : ℕ → ℕ → ℚ :=
  let border := (List.range degree).foldl (fun X i => setSym X 0 i ((x.getD i 0).toNat : ℚ)) fun _ _ => 0
  ((triPairs (degree - 1)).zipIdx degree).foldl
    (fun X q => setSym X (q.1.1 + 1) (q.1.2 + 1) ((x.getD q.2 0).toNat : ℚ)) border

/-- The matrix `X`. -/
def linRegX (degree : ℕ) (x : List UInt64) : Matrix (Fin degree) (Fin degree) ℚ :=
  Matrix.of fun i j => linRegEntries degree x i j

/-- The vector `Y`. -/
def linRegY (degree : ℕ) (y : List UInt64) : Fin degree → ℚ := fun i => (y.getD i 0).toNat

/-- `SolveLinReg`, to the rational vector that it rounds. A singular matrix gets a warning only. -/
def solveLinReg {degree : ℕ} (fmpqMatInv : FmpqMatInv degree) (x y : List UInt64) : Fin degree → ℚ :=
  (fmpqMatInv.inv (linRegX degree x)).2 *ᵥ linRegY degree y

theorem solveLinReg_spec {degree : ℕ} (fmpqMatInv : FmpqMatInv degree) {x y : List UInt64}
    {X : Matrix (Fin degree) (Fin degree) ℚ} {Y : Fin degree → ℚ} (hX : linRegX degree x = X)
    (hY : linRegY degree y = Y) (hdet : X.det ≠ 0) : X *ᵥ solveLinReg fmpqMatInv x y = Y := by
  subst hX hY
  rw [solveLinReg, mulVec_mulVec, fmpqMatInv.mul_inv _ hdet, one_mulVec]

section Entries

variable (degree : ℕ) (x : List UInt64)

theorem linRegEntries_zero {i : ℕ} (hi : i < degree) :
    linRegEntries degree x 0 i = (x.getD i 0).toNat ∧ linRegEntries degree x i 0 = (x.getD i 0).toNat := by
  have hborder := foldl_setSym (List.range degree) (fun i => (0, i)) (fun i => ((x.getD i 0).toNat : ℚ)) (fun _ _ => 0)
    (List.nodup_range.map fun i i' h => congrArg Prod.snd h) (fun _ _ => Nat.zero_le _) (List.mem_range.mpr hi)
  have hkeep : ∀ (X : ℕ → ℕ → ℚ) (a b : ℕ), a = 0 ∨ b = 0 →
      ((triPairs (degree - 1)).zipIdx degree).foldl
        (fun X q => setSym X (q.1.1 + 1) (q.1.2 + 1) ((x.getD q.2 0).toNat : ℚ)) X a b = X a b := by
    intro X a b hab
    apply foldl_setSym_of_forall_ne _ (fun q : (ℕ × ℕ) × ℕ => (q.1.1 + 1, q.1.2 + 1)) _ X
    intro q _
    simp only [ne_eq, Prod.mk.injEq]
    omega
  unfold linRegEntries
  rw [hkeep _ 0 i (Or.inl rfl), hkeep _ i 0 (Or.inr rfl)]
  exact hborder

theorem linRegEntries_succ {q : (ℕ × ℕ) × ℕ} (hq : q ∈ (triPairs (degree - 1)).zipIdx degree) :
    linRegEntries degree x (q.1.1 + 1) (q.1.2 + 1) = (x.getD q.2 0).toNat ∧
      linRegEntries degree x (q.1.2 + 1) (q.1.1 + 1) = (x.getD q.2 0).toNat := by
  have hnodup : (((triPairs (degree - 1)).zipIdx degree).map fun q => (q.1.1 + 1, q.1.2 + 1)).Nodup := by
    have hpairs : ((triPairs (degree - 1)).map fun p => (p.1 + 1, p.2 + 1)).Nodup :=
      (nodup_triPairs (degree - 1)).map fun p p' h => by
        simp only [Prod.mk.injEq, Nat.add_right_cancel_iff] at h
        exact Prod.ext h.1 h.2
    have hfst : ((triPairs (degree - 1)).zipIdx degree).map (fun q => (q.1.1 + 1, q.1.2 + 1)) =
        (triPairs (degree - 1)).map fun p => (p.1 + 1, p.2 + 1) := by
      conv_rhs => rw [← List.zipIdx_map_fst degree (triPairs (degree - 1)), List.map_map]
      rfl
    rwa [hfst]
  refine foldl_setSym _ (fun q : (ℕ × ℕ) × ℕ => (q.1.1 + 1, q.1.2 + 1)) (fun q => ((x.getD q.2 0).toNat : ℚ)) _ hnodup
    (fun q hq => ?_) hq
  have hmem := mem_triPairs.mp (List.fst_mem_of_mem_zipIdx hq)
  exact Nat.succ_le_succ hmem.1

end Entries

end PrioPlus

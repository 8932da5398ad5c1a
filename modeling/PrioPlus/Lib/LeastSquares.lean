import Mathlib.Algebra.Order.BigOperators.Group.List
import Mathlib.LinearAlgebra.Matrix.ToLinearEquiv

/-!
# Least squares

Data points are pairs of a row and a target. A solution of the normal equations minimizes the sum of the squared
distances to the targets (`squaredError_le`), and where the normal matrix is regular it is the only minimum
(`eq_of_squaredError_le`).
-/

namespace PrioPlus.Lib.LeastSquares

open Matrix

variable {K m : Type*} [Field K] [LinearOrder K] [IsStrictOrderedRing K] [Fintype m]

/-- The sum of the squared distances of the targets to the values of the linear map. -/
def squaredError (data : List ((m → K) × K)) (c : m → K) : K := (data.map fun p => (p.1 ⬝ᵥ c - p.2) ^ 2).sum

/-- The sum of the squared values of the linear map. -/
def squaredValues (data : List ((m → K) × K)) (d : m → K) : K := (data.map fun p => (p.1 ⬝ᵥ d) ^ 2).sum

def normalMatrix (data : List ((m → K) × K)) : Matrix m m K := (data.map fun p => vecMulVec p.1 p.1).sum

def normalVector (data : List ((m → K) × K)) : m → K := (data.map fun p => p.2 • p.1).sum

section Algebra

omit [LinearOrder K] [IsStrictOrderedRing K]

theorem squaredError_cons (p : (m → K) × K) (data : List ((m → K) × K)) (c : m → K) :
    squaredError (p :: data) c = (p.1 ⬝ᵥ c - p.2) ^ 2 + squaredError data c := List.sum_cons

theorem squaredValues_cons (p : (m → K) × K) (data : List ((m → K) × K)) (d : m → K) :
    squaredValues (p :: data) d = (p.1 ⬝ᵥ d) ^ 2 + squaredValues data d := List.sum_cons

omit [Fintype m] in
theorem normalMatrix_cons (p : (m → K) × K) (data : List ((m → K) × K)) :
    normalMatrix (p :: data) = vecMulVec p.1 p.1 + normalMatrix data := List.sum_cons

omit [Fintype m] in
theorem normalVector_cons (p : (m → K) × K) (data : List ((m → K) × K)) :
    normalVector (p :: data) = p.2 • p.1 + normalVector data := List.sum_cons

theorem squaredError_add (data : List ((m → K) × K)) (c d : m → K) :
    squaredError data (c + d) =
      squaredError data c + 2 * (d ⬝ᵥ (normalMatrix data *ᵥ c - normalVector data)) + squaredValues data d := by
  induction data with
  | nil => simp [squaredError, squaredValues, normalMatrix, normalVector]
  | cons p data ih =>
    have hrow : d ⬝ᵥ (vecMulVec p.1 p.1 *ᵥ c) = (p.1 ⬝ᵥ d) * (p.1 ⬝ᵥ c) := by
      rw [vecMulVec_mulVec, op_smul_eq_smul, dotProduct_smul, dotProduct_comm d, smul_eq_mul, mul_comm]
    rw [squaredError_cons, squaredError_cons, squaredValues_cons, normalMatrix_cons, normalVector_cons, ih]
    simp only [add_mulVec, dotProduct_add, dotProduct_sub, dotProduct_smul, hrow, smul_eq_mul, dotProduct_comm d p.1]
    ring

theorem squaredError_of_normal {data : List ((m → K) × K)} {c : m → K}
    (h : normalMatrix data *ᵥ c = normalVector data) (c' : m → K) :
    squaredError data c' = squaredError data c + squaredValues data (c' - c) := by
  have hadd := squaredError_add data c (c' - c)
  rwa [add_sub_cancel, h, sub_self, dotProduct_zero, mul_zero, add_zero] at hadd

end Algebra

variable {data : List ((m → K) × K)} {c : m → K}

theorem squaredValues_nonneg (data : List ((m → K) × K)) (d : m → K) : 0 ≤ squaredValues data d := by
  apply List.sum_nonneg
  intro v hv
  obtain ⟨p, -, rfl⟩ := List.mem_map.mp hv
  exact sq_nonneg _

theorem squaredError_le (h : normalMatrix data *ᵥ c = normalVector data) (c' : m → K) :
    squaredError data c ≤ squaredError data c' := by
  rw [squaredError_of_normal h c']
  exact le_add_of_nonneg_right (squaredValues_nonneg data _)

theorem normalMatrix_mulVec_of_squaredValues {d : m → K} (h : squaredValues data d = 0) :
    normalMatrix data *ᵥ d = 0 := by
  induction data with
  | nil => simp [normalMatrix]
  | cons p data ih =>
    rw [squaredValues_cons] at h
    obtain ⟨hhead, htail⟩ := (add_eq_zero_iff_of_nonneg (sq_nonneg _) (squaredValues_nonneg data d)).mp h
    rw [normalMatrix_cons, add_mulVec, ih htail, vecMulVec_mulVec, (pow_eq_zero_iff two_ne_zero).mp hhead]
    simp

theorem eq_of_squaredError_le [DecidableEq m] (hdet : (normalMatrix data).det ≠ 0)
    (h : normalMatrix data *ᵥ c = normalVector data) {c' : m → K} (hle : squaredError data c' ≤ squaredError data c) :
    c' = c := by
  rw [squaredError_of_normal h c'] at hle
  have hzero : squaredValues data (c' - c) = 0 :=
    le_antisymm (nonpos_of_add_le_right hle) (squaredValues_nonneg data _)
  have hkernel := normalMatrix_mulVec_of_squaredValues hzero
  exact sub_eq_zero.mp (eq_zero_of_mulVec_eq_zero hdet hkernel)

end PrioPlus.Lib.LeastSquares

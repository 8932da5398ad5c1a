import PrioPlus.Circuit.Checks

/-!
# The languages of `CheckVar` and `CheckLinReg`

A field of `CheckLinReg` beyond the `x_i` and `y` is a quadratic term or a product with `y` (`LinRegField`). Their
positions fill the rest of the vector, each exactly once (`existsUnique_field`), and the circuit accepts a vector when
each of them is the product it stands for (`linReg_language`).
-/

namespace PrioPlus

open Lib.Triangle Circuit

/-- A field that is checked, for `k` variables: `x_i x_j` with `i ≤ j`, or `x_i y`. -/
inductive LinRegField (k : ℕ)
  | quad (i j : ℕ) (hij : i ≤ j) (hj : j < k)
  | xy (i : ℕ) (hi : i < k)
deriving DecidableEq

namespace LinRegField

variable {k : ℕ}

/-- The position of a field: the `x_i` and `y` come first, then the quadratic terms row by row, then the products with
`y`. -/
def index : LinRegField k → ℕ
  | quad i j _ _ => k + 1 + triRank k i j
  | xy i _ => k + 1 + k * (k + 1) / 2 + i

/-- The product that a field stands for, in a vector whose entry `k` is `y`. -/
def product (inps : ℕ → ℤ) : LinRegField k → ℤ
  | quad i j _ _ => inps i * inps j
  | xy i _ => inps i * inps k

theorem product_update (inps : ℕ → ℤ) (f : LinRegField k) {idx : ℕ} (hidx : k + 1 ≤ idx) (v : ℤ) :
    f.product (Function.update inps idx v) = f.product inps := by
  cases f with
  | quad i j hij hj => simp only [product, Function.update_of_ne (show i ≠ idx by omega),
      Function.update_of_ne (show j ≠ idx by omega)]
  | xy i hi => simp only [product, Function.update_of_ne (show i ≠ idx by omega),
      Function.update_of_ne (show k ≠ idx by omega)]

theorem index_quad_lt {i j i' j' : ℕ} (hij : i ≤ j) (hj : j < k) (hij' : i' ≤ j') (hj' : j' < k)
    (hlt : i < i' ∨ i = i' ∧ j < j') : (quad i j hij hj).index < (quad i' j' hij' hj').index :=
  Nat.add_lt_add_left (triRank_lt_triRank hij hj hij' hlt hj') _

theorem existsUnique_field {idx : ℕ} (hlo : k + 1 ≤ idx) (hhi : idx < 2 * k + 1 + k * (k + 1) / 2) :
    ∃! f : LinRegField k, f.index = idx := by
  have hlen := length_triPairs k
  rcases Nat.lt_or_ge idx (k + 1 + k * (k + 1) / 2) with hquad | hxy
  · have hlt : idx - (k + 1) < (triPairs k).length := by omega
    obtain ⟨⟨i, j⟩, hget⟩ : ∃ q, (triPairs k)[idx - (k + 1)]? = some q := ⟨_, List.getElem?_eq_getElem hlt⟩
    obtain ⟨hij, hj⟩ : i ≤ j ∧ j < k := mem_triPairs.mp (List.mem_of_getElem? hget)
    have hrank := (triRank_eq_iff hij hj).mpr hget
    refine ⟨quad i j hij hj, by simp only [index]; omega, fun f hf => ?_⟩
    cases f with
    | quad i' j' hij' hj' =>
      have hrank' : triRank k i' j' = idx - (k + 1) := by
        simp only [index] at hf
        omega
      have hget' := (triRank_eq_iff hij' hj').mp hrank'
      obtain ⟨rfl, rfl⟩ := Prod.mk.inj (Option.some.inj (hget'.symm.trans hget))
      rfl
    | xy i' hi' =>
      simp only [index] at hf
      omega
  · refine ⟨xy (idx - (k + 1 + k * (k + 1) / 2)) (by omega), by simp only [index]; omega, fun f hf => ?_⟩
    cases f with
    | quad i' j' hij' hj' =>
      have hrank := triRank_lt hij' hj'
      simp only [index] at hf
      omega
    | xy i' hi' =>
      obtain rfl : i' = idx - (k + 1 + k * (k + 1) / 2) := by
        simp only [index] at hf
        omega
      rfl

end LinRegField

/-! ### What the circuits accept -/

section Language

variable (K : Constants)

theorem eq_zmod_iff (a b c : ℤ) : (a * b : ZMod K.intModulus) = c ↔ c ≡ a * b [ZMOD K.intModulus] := by
  rw [← Int.cast_mul, ZMod.intCast_eq_intCast_iff]
  exact ⟨Int.ModEq.symm, Int.ModEq.symm⟩

theorem eval_checkLinReg_iff (stale inps : ℕ → ℤ) (k : ℕ) :
    (checkLinReg K (k + 1)).eval K stale inps = true ↔
      ∀ f : LinRegField k, inps f.index ≡ f.product inps [ZMOD K.intModulus] := by
  rw [(checkLinReg_spec K stale inps (show 0 < k + 1 from Nat.succ_pos k)).2, Nat.add_sub_cancel]
  constructor
  · rintro ⟨hquad, hxy⟩ f
    cases f with
    | quad i j hij hj =>
      have hmem : ((i, j), k + 1 + triRank k i j) ∈ (triPairs k).zipIdx (k + 1) := by
        rw [List.mem_zipIdx_iff_le_and_getElem?_sub, Nat.add_sub_cancel_left]
        exact ⟨Nat.le_add_right _ _, getElem?_triRank hij hj⟩
      exact (eq_zmod_iff K _ _ _).mp (hquad _ hmem)
    | xy i hi =>
      have h := hxy i hi
      rw [length_triPairs, mul_comm] at h
      exact (eq_zmod_iff K _ _ _).mp h
  · intro h
    refine ⟨?_, fun i hi => ?_⟩
    · rintro ⟨⟨i, j⟩, idx⟩ hmem
      obtain ⟨hle, hget⟩ := List.mem_zipIdx_iff_le_and_getElem?_sub.mp hmem
      obtain ⟨hij, hj⟩ : i ≤ j ∧ j < k := mem_triPairs.mp (List.mem_of_getElem? hget)
      have hrank := (triRank_eq_iff hij hj).mpr hget
      have hidx : k + 1 + triRank k i j = idx := by omega
      have hfield := h (.quad i j hij hj)
      rw [LinRegField.index, hidx] at hfield
      exact (eq_zmod_iff K _ _ _).mpr hfield
    · rw [length_triPairs, mul_comm]
      exact (eq_zmod_iff K _ _ _).mpr (h (.xy i hi))

theorem numMulGates_foldl {α : Type} (l : List α) (i j k : α → ℕ) (c : Circuit) :
    (l.foldl (fun c q => c.addCheckMulEqual K (i q) (j q) (k q)) c).numMulGates = c.numMulGates + l.length := by
  induction l generalizing c with
  | nil => rfl
  | cons q l ih =>
    rw [List.foldl_cons, ih, numMulGates_addCheckMulEqual, List.length_cons]
    omega

theorem numMulGates_checkLinReg (k : ℕ) : (checkLinReg K (k + 1)).numMulGates = k * (k + 1) / 2 + k := by
  rw [checkLinReg, numMulGates_foldl, numMulGates_foldl, List.length_zipIdx, List.length_range, Nat.add_sub_cancel,
    length_triPairs]
  have hnew : (new (2 * k + 1 + k * (k + 1) / 2)).numMulGates = 0 := rfl
  rw [hnew, Nat.zero_add]

theorem eval_checkLinReg_update (stale inps : ℕ → ℤ) {k idx : ℕ} (hlo : k + 1 ≤ idx)
    (hhi : idx < 2 * k + 1 + k * (k + 1) / 2) (heval : (checkLinReg K (k + 1)).eval K stale inps = true) {v : ℤ}
    (hv : ¬ v ≡ inps idx [ZMOD K.intModulus]) :
    (checkLinReg K (k + 1)).eval K stale (Function.update inps idx v) = false := by
  obtain ⟨f, rfl, -⟩ := LinRegField.existsUnique_field hlo hhi
  rw [eval_checkLinReg_iff] at heval
  rw [← Bool.not_eq_true, eval_checkLinReg_iff]
  intro h
  have hf := h f
  rw [Function.update_self, LinRegField.product_update inps f hlo] at hf
  exact hv (hf.trans (heval f).symm)

/-- `CheckLinReg` accepts the vectors whose quadratic terms and products with `y` are the products they stand for, each
field beyond `y` is one of them, and there is a multiplication for each. `CheckVar` accepts the squares. -/
theorem linReg_language {degree : ℕ} (hdegree : 2 ≤ degree) (stale inps : ℕ → ℤ) :
    ((checkLinReg K degree).eval K stale inps = true ↔
        ∀ f : LinRegField (degree - 1), inps f.index ≡ f.product inps [ZMOD K.intModulus]) ∧
      (∀ idx, degree ≤ idx → idx < (checkLinReg K degree).numInputs →
        (∃! f : LinRegField (degree - 1), f.index = idx) ∧
          ∀ v, (checkLinReg K degree).eval K stale inps = true → ¬ v ≡ inps idx [ZMOD K.intModulus] →
            (checkLinReg K degree).eval K stale (Function.update inps idx v) = false) ∧
      (∀ i j i' j' (hij : i ≤ j) (hj : j < degree - 1) (hij' : i' ≤ j') (hj' : j' < degree - 1),
        i < i' ∨ i = i' ∧ j < j' → (LinRegField.quad i j hij hj).index < (LinRegField.quad i' j' hij' hj').index) ∧
      (checkLinReg K degree).numMulGates = (degree - 1) * degree / 2 + (degree - 1) ∧
      ((checkVar K).eval K stale inps = true ↔ inps 1 ≡ inps 0 ^ 2 [ZMOD K.intModulus]) := by
  obtain ⟨k, rfl⟩ : ∃ k, degree = k + 1 := ⟨degree - 1, by omega⟩
  rw [numInputs_checkLinReg, Nat.add_sub_cancel]
  refine ⟨eval_checkLinReg_iff K stale inps k, fun idx hlo hhi => ⟨LinRegField.existsUnique_field hlo hhi, ?_⟩,
    fun _ _ _ _ hij hj hij' hj' hlt => LinRegField.index_quad_lt hij hj hij' hj' hlt, numMulGates_checkLinReg K k, ?_⟩
  · exact fun v heval hv => eval_checkLinReg_update K stale inps hlo hhi heval hv
  · rw [eval_checkVar_iff, eq_zmod_iff, pow_two]

end Language

/-- The values 2, 3 and 4 of `x` and 5 of `y`, with their products. -/
def fourFields (idx : ℕ) : ℤ := [2, 3, 4, 5, 4, 6, 8, 9, 12, 16, 10, 15, 20].getD idx 0

theorem product_fourFields (f : LinRegField 3) : fourFields f.index = f.product fourFields := by
  cases f with
  | quad i j hij hj => interval_cases j <;> interval_cases i <;> rfl
  | xy i hi => interval_cases i <;> rfl

/-- The products are accepted, and no longer so with another square of 4. -/
theorem linReg_language_four :
    (checkLinReg shipped 4).eval shipped 0 fourFields = true ∧
    (checkLinReg shipped 4).eval shipped 0 (Function.update fourFields 9 17) = false ∧
    (∃! f : LinRegField 3, f.index = 9) ∧
    (checkLinReg shipped 4).numMulGates = 9 ∧
    (checkVar shipped).eval shipped 0 (fun idx => [3, 9].getD idx 0) = true := by
  have hdegree : 2 ≤ 4 := by decide
  obtain ⟨hlanguage, hfield, -, hmuls, -⟩ := linReg_language shipped hdegree 0 fourFields
  obtain ⟨hnine, hupdate⟩ := hfield 9 (by decide) (by decide)
  have haccepts := hlanguage.mpr fun f => by rw [product_fourFields f]
  obtain ⟨-, -, -, -, hsquare⟩ := linReg_language shipped hdegree 0 fun idx => [3, 9].getD idx 0
  exact ⟨haccepts, hupdate 17 haccepts (by decide), hnine, hmuls, hsquare.mpr (by decide)⟩

end PrioPlus

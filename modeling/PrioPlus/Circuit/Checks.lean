import PrioPlus.Circuit
import PrioPlus.Lib.Triangle

/-!
# The circuits `CheckVar` and `CheckLinReg`

Both are built from `AddCheckMulEqual(i, j, k)`, three gates that check one product of two earlier gates against a
third. A circuit built from inputs by such checks is topological, and evaluates to true exactly when all the products
agree modulo `p` (`eval_addCheckMulEqual_iff`).
-/

namespace PrioPlus

open Lib.WirePass Lib.Triangle

namespace Circuit

/-- `AddCheckMulEqual`: a multiplication, a negation and their sum, which has to be zero. -/
def addCheckMulEqual (K : Constants) (c : Circuit) (i j k : ℕ) : Circuit :=
  let mul := c.gates.length
  let inv := mul + 1
  let add := mul + 2
  (((c.addGate (.mul i j)).addGate (mulByNegOne K k)).addGate (.add mul inv)).addZeroGate add

end Circuit

/-- `CheckVar`: `x ^ 2 = y`. -/
def checkVar (K : Constants) : Circuit := (Circuit.new 2).addCheckMulEqual K 0 0 1

/-- `CheckLinReg`. The fields are `x`, `y`, the products `x_i x_j` and the products `x_i y`. -/
def checkLinReg (K : Constants) (degree : ℕ) : Circuit :=
  let numX := degree - 1
  let numFields := 2 * numX + 1 + numX * (numX + 1) / 2
  let quads := ((triPairs numX).zipIdx degree).foldl
    (fun c (q : (ℕ × ℕ) × ℕ) => c.addCheckMulEqual K q.1.1 q.1.2 q.2) (Circuit.new numFields)
  let idx := degree + (triPairs numX).length
  (List.range numX).foldl (fun c i => c.addCheckMulEqual K numX i (idx + i)) quads

namespace Circuit

variable {c : Circuit}

/-! ### Building circuits -/

@[simp] theorem gates_new (n : ℕ) : (new n).gates = List.replicate n .input := rfl

@[simp] theorem gates_addGate (c : Circuit) (g : Gate) : (c.addGate g).gates = c.gates ++ [g] := rfl

@[simp] theorem resultZero_addGate (c : Circuit) (g : Gate) : (c.addGate g).resultZero = c.resultZero := rfl

@[simp] theorem gates_addZeroGate (c : Circuit) (g : ℕ) : (c.addZeroGate g).gates = c.gates := rfl

@[simp] theorem resultZero_addZeroGate (c : Circuit) (g : ℕ) :
    (c.addZeroGate g).resultZero = c.resultZero ++ [g] := rfl

@[simp] theorem length_addCheckMulEqual (K : Constants) (c : Circuit) (i j k : ℕ) :
    (c.addCheckMulEqual K i j k).gates.length = c.gates.length + 3 := by
  simp [addCheckMulEqual]

@[simp] theorem numInputs_addCheckMulEqual (K : Constants) (c : Circuit) (i j k : ℕ) :
    (c.addCheckMulEqual K i j k).numInputs = c.numInputs := by
  simp [addCheckMulEqual, numInputs, mulByNegOne, Gate.isInput]

theorem numInputs_foldl {α : Type} (K : Constants) (l : List α) (i j k : α → ℕ) (c : Circuit) :
    (l.foldl (fun c q => c.addCheckMulEqual K (i q) (j q) (k q)) c).numInputs = c.numInputs := by
  induction l generalizing c with
  | nil => rfl
  | cons q l ih => rw [List.foldl_cons, ih, numInputs_addCheckMulEqual]

theorem numInputs_checkLinReg (K : Constants) (degree : ℕ) : (checkLinReg K degree).numInputs =
    2 * (degree - 1) + 1 + (degree - 1) * (degree - 1 + 1) / 2 := by
  rw [checkLinReg, numInputs_foldl, numInputs_foldl, numInputs, gates_new]
  exact List.countP_replicate.trans (if_pos rfl)

@[simp] theorem numMulGates_addCheckMulEqual (K : Constants) (c : Circuit) (i j k : ℕ) :
    (c.addCheckMulEqual K i j k).numMulGates = c.numMulGates + 1 := by
  simp [addCheckMulEqual, numMulGates, addGate, addZeroGate, mulByNegOne, Gate.isMul]

theorem topological_new (n : ℕ) : (new n).Topological := by
  refine ⟨fun k g hg j hj => ?_, fun j hj => absurd hj List.not_mem_nil⟩
  have hg : g = .input := List.eq_of_mem_replicate (List.mem_of_getElem? hg)
  subst hg
  exact absurd hj List.not_mem_nil

theorem Topological.addGate (htop : c.Topological) {g : Gate} (hg : ∀ j ∈ g.parents, j < c.gates.length) :
    (c.addGate g).Topological := by
  refine ⟨fun k g' hk j hj => ?_, fun j hj => ?_⟩
  · rw [gates_addGate, List.getElem?_append] at hk
    split_ifs at hk with hlt
    · exact htop.parents_lt k g' hk j hj
    · have hlen : k - c.gates.length < [g].length := (List.getElem?_eq_some_iff.mp hk).1
      have hmem := List.mem_of_getElem? hk
      rw [List.mem_singleton] at hmem
      subst hmem
      have := hg j hj
      omega
  · have := htop.resultZero_lt j hj
    rw [gates_addGate, List.length_append]
    omega

theorem Topological.addZeroGate (htop : c.Topological) {g : ℕ} (hg : g < c.gates.length) :
    (c.addZeroGate g).Topological := by
  refine ⟨htop.parents_lt, fun j hj => ?_⟩
  rw [resultZero_addZeroGate, List.mem_append, List.mem_singleton] at hj
  rcases hj with hj | rfl
  · exact htop.resultZero_lt j hj
  · exact hg

theorem Topological.addCheckMulEqual (htop : c.Topological) (K : Constants) {i j k : ℕ} (hi : i < c.gates.length)
    (hj : j < c.gates.length) (hk : k < c.gates.length) : (c.addCheckMulEqual K i j k).Topological := by
  refine Topological.addZeroGate (((htop.addGate ?_).addGate ?_).addGate ?_) ?_
  · simp [Gate.parents, hi, hj]
  · simp only [mulByNegOne, Gate.parents, List.mem_singleton, gates_addGate, List.length_append,
      List.length_singleton]
    omega
  · simp [Gate.parents]
  · simp

/-! ### Evaluating the checks -/

section Eval

variable (K : Constants) (stale inps : ℕ → ℤ)

theorem evalWires_addGate (c : Circuit) (g : Gate) :
    (c.addGate g).evalWires K stale inps =
      Function.update (c.evalWires K stale inps) c.gates.length
        (evalRule K inps (c.gates.foldl Counters.next ⟨0, 0⟩) g (c.evalWires K stale inps)) := by
  rw [evalWires, gates_addGate, pass_append, Nat.zero_add]
  rfl

@[simp] theorem evalWires_addZeroGate (c : Circuit) (g : ℕ) :
    (c.addZeroGate g).evalWires K stale inps = c.evalWires K stale inps := rfl

theorem evalWires_addCheckMulEqual_of_lt (c : Circuit) (i j k : ℕ) {g : ℕ} (hg : g < c.gates.length) :
    (c.addCheckMulEqual K i j k).evalWires K stale inps g = c.evalWires K stale inps g := by
  simp only [addCheckMulEqual, evalWires_addZeroGate, evalWires_addGate, gates_addGate, List.length_append,
    List.length_singleton]
  rw [Function.update_of_ne (by omega), Function.update_of_ne (by omega), Function.update_of_ne (by omega)]

theorem eval_iff (c : Circuit) :
    c.eval K stale inps = true ↔ ∀ g ∈ c.resultZero, c.evalWires K stale inps g = 0 := by
  simp [eval]

theorem eval_addCheckMulEqual_iff (htop : c.Topological) (i j : ℕ) {k : ℕ} (hk : k < c.gates.length) :
    (c.addCheckMulEqual K i j k).eval K stale inps = true ↔
      c.eval K stale inps = true ∧
        (c.evalWires K stale inps i * c.evalWires K stale inps j : ZMod K.intModulus) =
          c.evalWires K stale inps k := by
  have hzero : (c.addCheckMulEqual K i j k).resultZero = c.resultZero ++ [c.gates.length + 2] := rfl
  have hlast : (c.addCheckMulEqual K i j k).evalWires K stale inps (c.gates.length + 2) =
      (c.evalWires K stale inps i * c.evalWires K stale inps j % K.intModulus +
        c.evalWires K stale inps k * (-1 % K.intModulus) % K.intModulus) % K.intModulus := by
    have hkne : k ≠ c.gates.length := by omega
    simp [addCheckMulEqual, evalWires_addGate, evalRule, mulByNegOne, hkne]
  have hcast : ((c.addCheckMulEqual K i j k).evalWires K stale inps (c.gates.length + 2) = 0 ↔
      (c.evalWires K stale inps i * c.evalWires K stale inps j : ZMod K.intModulus) =
        c.evalWires K stale inps k) := by
    rw [hlast, ← cast_eq_zero_iff]
    push_cast [cast_emod]
    rw [mul_neg_one, ← sub_eq_add_neg, sub_eq_zero]
  rw [eval_iff, hzero, List.forall_mem_append, List.forall_mem_singleton, hcast, eval_iff]
  refine and_congr_left fun _ => forall₂_congr fun g hg => ?_
  rw [evalWires_addCheckMulEqual_of_lt K stale inps c i j k (htop.resultZero_lt g hg)]

theorem evalWires_new {n i : ℕ} (hi : i < n) : (new n).evalWires K stale inps i = inps i := by
  have hg : (new n).gates[i]? = some .input := by simp [hi]
  have hcount : (countersAt (new n).gates i).inpIdx = i := by
    rw [countersAt, inpIdx_foldl, gates_new, List.take_replicate, Nat.min_eq_left hi.le, Nat.zero_add]
    exact List.countP_replicate.trans (if_pos rfl)
  rw [evalWires_fix K stale (topological_new n) inps hg, evalRule, hcount]

theorem eval_new (n : ℕ) : (new n).eval K stale inps = true := rfl

theorem topological_checkVar : (checkVar K).Topological :=
  (topological_new 2).addCheckMulEqual K Nat.two_pos Nat.two_pos Nat.one_lt_two

@[simp] theorem numMulGates_checkVar : (checkVar K).numMulGates = 1 := numMulGates_addCheckMulEqual K _ _ _ _

theorem eval_checkVar_iff :
    (checkVar K).eval K stale inps = true ↔ (inps 0 * inps 0 : ZMod K.intModulus) = inps 1 := by
  rw [checkVar, eval_addCheckMulEqual_iff K stale inps (topological_new 2) 0 0 (by exact Nat.one_lt_two),
    evalWires_new K stale inps Nat.two_pos, evalWires_new K stale inps Nat.one_lt_two]
  exact and_iff_right rfl

theorem foldl_addCheckMulEqual {α : Type} (l : List α) (i j k : α → ℕ) (htop : c.Topological)
    (hlt : ∀ q ∈ l, i q < c.gates.length ∧ j q < c.gates.length ∧ k q < c.gates.length) :
    let c' := l.foldl (fun c q => c.addCheckMulEqual K (i q) (j q) (k q)) c
    c'.Topological ∧ c.gates.length ≤ c'.gates.length ∧
      (∀ g < c.gates.length, c'.evalWires K stale inps g = c.evalWires K stale inps g) ∧
      (c'.eval K stale inps = true ↔ c.eval K stale inps = true ∧ ∀ q ∈ l,
        (c.evalWires K stale inps (i q) * c.evalWires K stale inps (j q) : ZMod K.intModulus) =
          c.evalWires K stale inps (k q)) := by
  induction l generalizing c with
  | nil => exact ⟨htop, le_rfl, fun _ _ => rfl, by simp⟩
  | cons q l ih =>
    obtain ⟨hi, hj, hk⟩ := hlt q List.mem_cons_self
    have hgrow := length_addCheckMulEqual K c (i q) (j q) (k q)
    have hwire := fun g hg => evalWires_addCheckMulEqual_of_lt K stale inps c (i q) (j q) (k q) (g := g) hg
    obtain ⟨htop', hlen, hwires, heval⟩ := ih (htop.addCheckMulEqual K hi hj hk) fun q' hq' => by
      obtain ⟨hi', hj', hk'⟩ := hlt q' (List.mem_cons_of_mem q hq')
      omega
    refine ⟨htop', le_trans (by omega) hlen, fun g hg => (hwires g (by omega)).trans (hwire g hg), heval.trans ?_⟩
    rw [eval_addCheckMulEqual_iff K stale inps htop (i q) (j q) hk, List.forall_mem_cons, and_assoc]
    refine and_congr_right fun _ => and_congr_right fun _ => forall₂_congr fun q' hq' => ?_
    obtain ⟨hi', hj', hk'⟩ := hlt q' (List.mem_cons_of_mem q hq')
    rw [hwire _ hi', hwire _ hj', hwire _ hk']

/-- What `CheckLinReg` checks: the field at the running index against the product for it. -/
theorem checkLinReg_spec {degree : ℕ} (hdegree : 0 < degree) :
    (checkLinReg K degree).Topological ∧
      ((checkLinReg K degree).eval K stale inps = true ↔
        (∀ q ∈ (triPairs (degree - 1)).zipIdx degree,
          (inps q.1.1 * inps q.1.2 : ZMod K.intModulus) = inps q.2) ∧
        ∀ i < degree - 1, (inps (degree - 1) * inps i : ZMod K.intModulus) =
          inps (degree + (triPairs (degree - 1)).length + i)) := by
  let n := 2 * (degree - 1) + 1 + (triPairs (degree - 1)).length
  have hlen : (new n).gates.length = n := List.length_replicate
  have hquads : ∀ q ∈ (triPairs (degree - 1)).zipIdx degree, q.1.1 < n ∧ q.1.2 < n ∧ q.2 < n := by
    rintro ⟨⟨i, j⟩, k⟩ hq
    obtain ⟨hge, hlt, heq⟩ := List.mem_zipIdx hq
    have hmem := mem_triPairs.mp (heq ▸ List.getElem_mem _)
    simp only [n]
    omega
  obtain ⟨htop, hgrow, hwires, heval⟩ := foldl_addCheckMulEqual K stale inps
    ((triPairs (degree - 1)).zipIdx degree) (fun q => q.1.1) (fun q => q.1.2) (fun q => q.2) (topological_new n)
    (by rwa [hlen])
  rw [hlen] at hgrow hwires
  have htail : ∀ i ∈ List.range (degree - 1),
      degree - 1 < n ∧ i < n ∧ degree + (triPairs (degree - 1)).length + i < n := by
    intro i hi
    have hi := List.mem_range.mp hi
    simp only [n]
    omega
  obtain ⟨htop', -, -, heval'⟩ := foldl_addCheckMulEqual K stale inps (List.range (degree - 1)) (fun _ => degree - 1)
    (fun i => i) (fun i => degree + (triPairs (degree - 1)).length + i) htop fun i hi =>
      ⟨(htail i hi).1.trans_le hgrow, (htail i hi).2.1.trans_le hgrow, (htail i hi).2.2.trans_le hgrow⟩
  have hinps : ∀ g < n, (new n).evalWires K stale inps g = inps g := fun g hg => evalWires_new K stale inps hg
  rw [checkLinReg, ← length_triPairs]
  refine ⟨htop', heval'.trans (and_congr (heval.trans ?_) ?_)⟩
  · rw [eval_new, and_iff_right rfl]
    apply forall₂_congr
    intro q hq
    obtain ⟨hi, hj, hk⟩ := hquads q hq
    rw [hinps _ hi, hinps _ hj, hinps _ hk]
  · simp only [← List.mem_range]
    apply forall₂_congr
    intro i hi
    obtain ⟨hy, hx, hxy⟩ := htail i hi
    rw [hwires _ hy, hwires _ hx, hwires _ hxy, hinps _ hy, hinps _ hx, hinps _ hxy]

end Eval

end Circuit

end PrioPlus

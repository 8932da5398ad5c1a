import PrioPlus.Lib.WirePass
import PrioPlus.Share

/-!
# Validation circuits, `circuit.h`

A gate names its parents by their position in the gate list. `Circuit.eval` runs the circuit on the client's
inputs, `Circuit.importWires` runs a server's copy on shares, with the outputs of the multiplication gates taken
from the packet. Both are passes over the gate list (`PrioPlus.Lib.WirePass`); `stale` is what the wires held
before.

For a circuit whose parents come earlier, the wires of the two servers are additive shares of the wires of the
client, as soon as the inputs and the multiplication outputs are (`cast_importWires_add`).
-/

namespace PrioPlus

open Lib.WirePass

/-- `Gate`: its type, with the parents and the constant that the type uses. -/
inductive Gate where
  | input
  | add (parentL parentR : ℕ)
  | addConst (parentL : ℕ) (constant : ℤ)
  | mul (parentL parentR : ℕ)
  | mulConst (parentL : ℕ) (constant : ℤ)
deriving DecidableEq

namespace Gate

def isInput : Gate → Bool
  | input => true
  | _ => false

def isMul : Gate → Bool
  | mul _ _ => true
  | _ => false

def parents : Gate → List ℕ
  | input => []
  | add l r => [l, r]
  | addConst l _ => [l]
  | mul l r => [l, r]
  | mulConst l _ => [l]

/-- `ParentL`; an input has none. -/
def parentL (g : Gate) : ℕ := g.parents.getD 0 0

/-- `ParentR`; only `Gate_Add` and `Gate_Mul` have one. -/
def parentR (g : Gate) : ℕ := g.parents.getD 1 0

end Gate

/-- The positions of the multiplication gates of a list that starts at position `i`. -/
def mulGatesFrom (i : ℕ) : List Gate → List ℕ
  | [] => []
  | g :: gates => if g.isMul then i :: mulGatesFrom (i + 1) gates else mulGatesFrom (i + 1) gates

theorem mulGatesFrom_append (i : ℕ) (gates gates' : List Gate) :
    mulGatesFrom i (gates ++ gates') = mulGatesFrom i gates ++ mulGatesFrom (i + gates.length) gates' := by
  induction gates generalizing i with
  | nil => rfl
  | cons g gates ih =>
    have hlen : i + (g :: gates).length = i + 1 + gates.length := by
      rw [List.length_cons]
      omega
    rw [List.cons_append, mulGatesFrom, mulGatesFrom, ih, hlen]
    split <;> rfl

/-- `Circuit`. `addGate` keeps `mul_gates` in step with `gates`. -/
structure Circuit where
  gates : List Gate
  resultZero : List ℕ
  mulGates : List ℕ
  mulGates_eq : mulGates = mulGatesFrom 0 gates

namespace Circuit

/-- The constructor `Circuit(num_inputs)`. -/
def new (numInputs : ℕ) : Circuit where
  gates := List.replicate numInputs .input
  resultZero := []
  mulGates := []
  mulGates_eq := by
    generalize 0 = i
    induction numInputs generalizing i with
    | zero => rfl
    | succ k ih => exact ih (i + 1)

def addGate (c : Circuit) (g : Gate) : Circuit where
  gates := c.gates ++ [g]
  resultZero := c.resultZero
  mulGates := if g.isMul then c.mulGates ++ [c.gates.length] else c.mulGates
  mulGates_eq := by
    rw [mulGatesFrom_append, ← c.mulGates_eq, Nat.zero_add]
    cases h : g.isMul <;> simp [mulGatesFrom, h]

def addZeroGate (c : Circuit) (zerogate : ℕ) : Circuit := { c with resultZero := c.resultZero ++ [zerogate] }

def numMulGates (c : Circuit) : ℕ := c.mulGates.length

/-- The gate at a position. -/
def gate (c : Circuit) (i : ℕ) : Gate := c.gates.getD i .input

def numInputs (c : Circuit) : ℕ := c.gates.countP Gate.isInput

/-- Parents come earlier in the gate list, and the result gates are in it. -/
structure Topological (c : Circuit) : Prop where
  parents_lt : ∀ (k : ℕ) (g : Gate), c.gates[k]? = some g → ∀ j ∈ g.parents, j < k
  resultZero_lt : ∀ j ∈ c.resultZero, j < c.gates.length

end Circuit

def mulByNegOne (K : Constants) (gate : ℕ) : Gate := .mulConst gate (-1 % K.intModulus)

/-! ### Running a circuit -/

/-- The loop counters `inp_idx` and `mul_idx`. -/
structure Counters where
  inpIdx : ℕ
  mulIdx : ℕ

def Counters.next (s : Counters) (g : Gate) : Counters where
  inpIdx := if g.isInput then s.inpIdx + 1 else s.inpIdx
  mulIdx := if g.isMul then s.mulIdx + 1 else s.mulIdx

/-- The counters when the loop reaches gate `k`. -/
def countersAt (gates : List Gate) (k : ℕ) : Counters := (gates.take k).foldl Counters.next ⟨0, 0⟩

/-- The body of the loop of `Eval`. -/
def evalRule (K : Constants) (inps : ℕ → ℤ) (s : Counters) (g : Gate) (wire : ℕ → ℤ) : ℤ :=
  match g with
  | .input => inps s.inpIdx
  | .add l r => (wire l + wire r) % K.intModulus
  | .mul l r => wire l * wire r % K.intModulus
  | .addConst l constant => (wire l + constant) % K.intModulus
  | .mulConst l constant => wire l * constant % K.intModulus

/-- The body of the loop of `ImportWires`. Only server 0 adds a constant. -/
def importRule (K : Constants) (p : ClientPacket) (serverNum : ℕ) (inputShares : ℕ → ℤ)
    (s : Counters) (g : Gate) (wire : ℕ → ℤ) : ℤ :=
  match g with
  | .input => inputShares s.inpIdx
  | .add l r => (wire l + wire r) % K.intModulus
  | .mul _ _ => p.mulShares.getD s.mulIdx 0
  | .addConst l constant => (if serverNum = 0 then wire l + constant else wire l) % K.intModulus
  | .mulConst l constant => wire l * constant % K.intModulus

namespace Circuit

/-- The wires after `Eval`. -/
def evalWires (K : Constants) (c : Circuit) (stale inps : ℕ → ℤ) : ℕ → ℤ :=
  pass Counters.next (evalRule K inps) c.gates 0 ⟨0, 0⟩ stale

/-- `Eval`: whether all `result_zero` gates are zero. -/
def eval (K : Constants) (c : Circuit) (stale inps : ℕ → ℤ) : Bool :=
  c.resultZero.all fun g => c.evalWires K stale inps g = 0

/-- The wires after `ImportWires`. -/
def importWires (K : Constants) (c : Circuit) (stale : ℕ → ℤ) (p : ClientPacket) (serverNum : ℕ)
    (inputShares : ℕ → ℤ) : ℕ → ℤ :=
  pass Counters.next (importRule K p serverNum inputShares) c.gates 0 ⟨0, 0⟩ stale

end Circuit

/-! ### The positions of inputs and multiplications -/

theorem mulIdx_foldl (gates : List Gate) (s : Counters) :
    (gates.foldl Counters.next s).mulIdx = s.mulIdx + (mulGatesFrom 0 gates).length := by
  generalize 0 = i
  induction gates generalizing s i with
  | nil => rfl
  | cons g gates ih =>
    rw [List.foldl_cons, ih _ (i + 1), mulGatesFrom]
    cases hg : g.isMul <;> simp [Counters.next, hg]
    omega

theorem inpIdx_foldl (gates : List Gate) (s : Counters) :
    (gates.foldl Counters.next s).inpIdx = s.inpIdx + gates.countP Gate.isInput := by
  induction gates generalizing s with
  | nil => rfl
  | cons g gates ih =>
    rw [List.foldl_cons, ih, List.countP_cons]
    cases hg : g.isInput <;> simp [Counters.next, hg]
    omega

theorem take_append_getElem? {gates : List Gate} {k : ℕ} {g : Gate} (hg : gates[k]? = some g) :
    gates = gates.take k ++ g :: gates.drop (k + 1) := by
  obtain ⟨hlt, rfl⟩ := List.getElem?_eq_some_iff.mp hg
  rw [← List.drop_eq_getElem_cons hlt, List.take_append_drop]

namespace Circuit

variable {c : Circuit}

theorem getElem?_mulGates {k l r : ℕ} (hg : c.gates[k]? = some (.mul l r)) :
    c.mulGates[(countersAt c.gates k).mulIdx]? = some k := by
  have hlen : (c.gates.take k).length = k := by
    rw [List.length_take]
    have := (List.getElem?_eq_some_iff.mp hg).1
    omega
  have hsplit : c.mulGates = mulGatesFrom 0 (c.gates.take k) ++ k :: mulGatesFrom (k + 1) (c.gates.drop (k + 1)) := by
    conv_lhs => rw [c.mulGates_eq, take_append_getElem? hg, mulGatesFrom_append, hlen]
    simp [mulGatesFrom, Gate.isMul]
  rw [countersAt, mulIdx_foldl, hsplit, Nat.zero_add]
  simp

theorem inpIdx_lt {k : ℕ} (hg : c.gates[k]? = some .input) : (countersAt c.gates k).inpIdx < c.numInputs := by
  rw [countersAt, inpIdx_foldl, numInputs]
  conv_rhs => rw [take_append_getElem? hg, List.countP_append, List.countP_cons]
  simp [Gate.isInput]

theorem mem_mulGatesFrom {i j : ℕ} {gates : List Gate} (hj : j ∈ mulGatesFrom i gates) :
    i ≤ j ∧ ∃ l r, gates[j - i]? = some (.mul l r) := by
  induction gates generalizing i with
  | nil => simp [mulGatesFrom] at hj
  | cons g gates ih =>
    have htail : j ∈ mulGatesFrom (i + 1) gates → i ≤ j ∧ ∃ l r, (g :: gates)[j - i]? = some (.mul l r) := by
      intro hmem
      obtain ⟨hle, hget⟩ := ih hmem
      rw [show j - i = j - (i + 1) + 1 by omega, List.getElem?_cons_succ]
      exact ⟨by omega, hget⟩
    cases g with
    | mul l r =>
      rcases List.mem_cons.mp hj with rfl | hmem
      · exact ⟨le_rfl, l, r, by simp⟩
      · exact htail hmem
    | _ => exact htail hj

theorem gate_mulGates {i j : ℕ} (h : c.mulGates[i]? = some j) : ∃ l r, c.gates[j]? = some (.mul l r) := by
  have hmem := List.mem_of_getElem? h
  rw [c.mulGates_eq] at hmem
  simpa using (mem_mulGatesFrom hmem).2

theorem gate_eq {k : ℕ} {g : Gate} (hg : c.gates[k]? = some g) : c.gate k = g := by
  rw [gate, List.getD_eq_getElem?_getD, hg, Option.getD_some]

/-! ### The equations of the gates -/

theorem Topological.pass_eq (htop : c.Topological) {rule : Counters → Gate → (ℕ → ℤ) → ℤ}
    (hlocal : ∀ s g w w', (∀ j ∈ Gate.parents g, w j = w' j) → rule s g w = rule s g w') (stale : ℕ → ℤ) {k : ℕ}
    {g : Gate} (hg : c.gates[k]? = some g) :
    pass Counters.next rule c.gates 0 ⟨0, 0⟩ stale k =
      rule (countersAt c.gates k) g (pass Counters.next rule c.gates 0 ⟨0, 0⟩ stale) := by
  have hback : ∀ k g, c.gates[k]? = some g → ∀ j ∈ Gate.parents g, j < 0 + k := by
    intro k g hg
    rw [Nat.zero_add]
    exact htop.parents_lt k g hg
  have hfix := pass_fix Counters.next hlocal c.gates 0 ⟨0, 0⟩ stale hback hg
  rwa [Nat.zero_add] at hfix

section Fix

variable (K : Constants) (stale : ℕ → ℤ)

theorem evalWires_fix (htop : c.Topological) (inps : ℕ → ℤ) {k : ℕ} {g : Gate} (hg : c.gates[k]? = some g) :
    c.evalWires K stale inps k = evalRule K inps (countersAt c.gates k) g (c.evalWires K stale inps) := by
  refine htop.pass_eq (fun s g w w' hw => ?_) stale hg
  cases g <;> simp_all [evalRule, Gate.parents]

theorem importWires_fix (htop : c.Topological) (p : ClientPacket) (serverNum : ℕ) (inputShares : ℕ → ℤ)
    {k : ℕ} {g : Gate} (hg : c.gates[k]? = some g) :
    c.importWires K stale p serverNum inputShares k =
      importRule K p serverNum inputShares (countersAt c.gates k) g
        (c.importWires K stale p serverNum inputShares) := by
  refine htop.pass_eq (fun s g w w' hw => ?_) stale hg
  cases g <;> simp_all [importRule, Gate.parents]

end Fix

/-- The imported wires of the two servers are shares of the wires of the evaluation. -/
theorem cast_importWires_add (K : Constants) (htop : c.Topological) (stale stale0 stale1 inps in0 in1 : ℕ → ℤ)
    (p0 p1 : ClientPacket)
    (hinput : ∀ i < c.numInputs, (in0 i + in1 i : ZMod K.intModulus) = inps i)
    (hmul : ∀ i j, c.mulGates[i]? = some j →
      (p0.mulShares.getD i 0 + p1.mulShares.getD i 0 : ZMod K.intModulus) = c.evalWires K stale inps j)
    {k : ℕ} (hk : k < c.gates.length) :
    (c.importWires K stale0 p0 0 in0 k + c.importWires K stale1 p1 1 in1 k : ZMod K.intModulus) =
      c.evalWires K stale inps k := by
  induction k using Nat.strong_induction_on with
  | _ k ih =>
    obtain ⟨g, hg⟩ : ∃ g, c.gates[k]? = some g := ⟨_, List.getElem?_eq_getElem hk⟩
    have hparent : ∀ j ∈ g.parents,
        (c.importWires K stale0 p0 0 in0 j + c.importWires K stale1 p1 1 in1 j : ZMod K.intModulus) =
          c.evalWires K stale inps j := by
      intro j hj
      have hlt := htop.parents_lt k g hg j hj
      exact ih j hlt (by omega)
    rw [importWires_fix K stale0 htop p0 0 in0 hg, importWires_fix K stale1 htop p1 1 in1 hg]
    cases g with
    | input =>
      rw [evalWires_fix K stale htop inps hg]
      exact hinput _ (inpIdx_lt hg)
    | mul l r => exact hmul _ _ (getElem?_mulGates hg)
    | add l r =>
      rw [evalWires_fix K stale htop inps hg]
      simp only [importRule, evalRule, cast_emod, Int.cast_add]
      rw [← hparent l (by simp [Gate.parents]), ← hparent r (by simp [Gate.parents])]
      ring
    | addConst l constant =>
      rw [evalWires_fix K stale htop inps hg]
      simp only [importRule, evalRule, cast_emod, Int.cast_add, if_true, if_neg one_ne_zero]
      rw [← hparent l (by simp [Gate.parents])]
      ring
    | mulConst l constant =>
      rw [evalWires_fix K stale htop inps hg]
      simp only [importRule, evalRule, cast_emod, Int.cast_mul]
      rw [← hparent l (by simp [Gate.parents])]
      ring

end Circuit

end PrioPlus

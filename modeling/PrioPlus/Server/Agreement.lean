import PrioPlus.Server.LinReg

/-!
# `var_op` and `linreg_op` agree

Whatever the clients send, in whatever order the servers iterate over their maps, both servers accumulate with one
array `valid`. Its slots are keys that passed the checks of both servers and the check of the packets, and the combined
sums range over these keys (`snipOps_agree`).
-/

namespace PrioPlus

open Lib.TwoParty

theorem toSnipResult_varFinish (totalInputs : ℕ) (a : SnipResult) (b : List ℤ) :
    (varFinish totalInputs a b).toSnipResult = a := by
  unfold varFinish
  split_ifs <;> rfl

theorem totals_varFinish (totalInputs : ℕ) (a : SnipResult) (b : List ℤ) :
    (varFinish totalInputs a b).totals =
      if 2 * a.numValid < totalInputs then none else some (sumAccumulates 2 a.accum b) := by
  simp only [varFinish, belowThreshold_iff]
  split_ifs <;> rfl

theorem toSnipResult_linregFinish {degree : ℕ} (fmpqMatInv : FmpqMatInv degree) (totalInputs : ℕ) (a : SnipResult)
    (b : List ℤ) : (linregFinish fmpqMatInv totalInputs a b).toSnipResult = a := by
  unfold linregFinish
  split_ifs <;> rfl

theorem totals_linregFinish {degree : ℕ} (fmpqMatInv : FmpqMatInv degree) (totalInputs : ℕ) (a : SnipResult)
    (b : List ℤ) : (linregFinish fmpqMatInv totalInputs a b).totals = sumAccumulates (numFields degree) a.accum b := by
  unfold linregFinish
  split_ifs <;> rfl

theorem varOp_agrees (sync : SnipSync) (prg0 prg1 : ℕ → UInt64) (msg : InitMsg) (it0 it1 : Iteration VarSubmission)
    (s0 s1 : Vector VarSubmission msg.numOfInputs.toNat) (h : ∃ s ∈ s1.toList, varOk msg s = true) :
    ((∃ r0 r1, Terminates (varOp sync it0 prg0 msg 0 s0) (varOp sync it1 prg1 msg 1 s1) r0 r1) ↔
      (varSnip msg).Fits s1.toList) ∧
    ∀ r0 r1, Terminates (varOp sync it0 prg0 msg 0 s0) (varOp sync it1 prg1 msg 1 s1) r0 r1 →
      ∃ totals, (varSnip msg).Agreement sync prg0 s0.toList s1.toList r0.toSnipResult r1.toSnipResult totals ∧
        r0.totals = if 2 * r0.numValid < msg.numOfInputs.toNat then none else some totals := by
  let a := (varSnip msg).result0 sync it1 prg0 s0.toList s1.toList
  let b := (varSnip msg).result1 sync it1 prg0 s0.toList s1.toList
  refine ends_and_forall (fun hfits => ?_) (varOp_hangs sync it0 it1 prg0 prg1 msg s0 s1)
  refine ⟨_, _, varOp_terminates sync it0 it1 prg0 prg1 msg s0 s1 h hfits, sumAccumulates 2 a.accum b.accum, ?_⟩
  rw [toSnipResult_varFinish]
  exact ⟨(varSnip msg).agreement sync it1 prg0 s0.toList s1.toList, totals_varFinish _ _ _⟩

theorem linregOp_agrees (sync : SnipSync) (prg0 prg1 : ℕ → UInt64) (msg : InitMsg) {degree : ℕ} (hdegree : 0 < degree)
    (inv0 inv1 : FmpqMatInv degree) (it0 it1 : Iteration (LinRegSubmission degree)) (fresh : ℕ → ℕ → UInt64)
    (s0 s1 : Vector (LinRegSubmission degree) msg.numOfInputs.toNat) (h : ∃ s ∈ s1.toList, linregOk msg s = true) :
    ((∃ r0 r1,
      Terminates (linregOp inv0 sync it0 prg0 fresh msg 0 s0) (linregOp inv1 sync it1 prg1 fresh msg 1 s1) r0 r1) ↔
      (linregSnip degree msg fresh).Fits s1.toList) ∧
    ∀ r0 r1,
      Terminates (linregOp inv0 sync it0 prg0 fresh msg 0 s0) (linregOp inv1 sync it1 prg1 fresh msg 1 s1) r0 r1 →
      (linregSnip degree msg fresh).Agreement sync prg0 s0.toList s1.toList r0.toSnipResult r1.toSnipResult
        r0.totals := by
  refine ends_and_forall (fun hfits => ?_) (linregOp_hangs hdegree inv0 inv1 sync it0 it1 prg0 prg1 fresh msg s0 s1)
  refine ⟨_, _, linregOp_terminates hdegree inv0 inv1 sync it0 it1 prg0 prg1 fresh msg s0 s1 h hfits, ?_⟩
  rw [toSnipResult_linregFinish, totals_linregFinish]
  exact (linregSnip degree msg fresh).agreement sync it1 prg0 s0.toList s1.toList

/-- Both operations end exactly when the counters of the conversion get through, and agree on the valid slots and on
the sums over them. -/
theorem snipOps_agree (sync : SnipSync) (prg0 prg1 : ℕ → UInt64) (msg : InitMsg) :
    (∀ (it0 it1 : Iteration VarSubmission) (s0 s1 : Vector VarSubmission msg.numOfInputs.toNat),
      (∃ s ∈ s1.toList, varOk msg s = true) →
      ((∃ r0 r1, Terminates (varOp sync it0 prg0 msg 0 s0) (varOp sync it1 prg1 msg 1 s1) r0 r1) ↔
        (varSnip msg).Fits s1.toList) ∧
      ∀ r0 r1, Terminates (varOp sync it0 prg0 msg 0 s0) (varOp sync it1 prg1 msg 1 s1) r0 r1 →
        ∃ totals, (varSnip msg).Agreement sync prg0 s0.toList s1.toList r0.toSnipResult r1.toSnipResult totals ∧
          r0.totals = if 2 * r0.numValid < msg.numOfInputs.toNat then none else some totals) ∧
    (∀ (degree : ℕ) (inv0 inv1 : FmpqMatInv degree) (it0 it1 : Iteration (LinRegSubmission degree))
      (fresh : ℕ → ℕ → UInt64) (s0 s1 : Vector (LinRegSubmission degree) msg.numOfInputs.toNat),
      0 < degree → (∃ s ∈ s1.toList, linregOk msg s = true) →
      ((∃ r0 r1,
        Terminates (linregOp inv0 sync it0 prg0 fresh msg 0 s0) (linregOp inv1 sync it1 prg1 fresh msg 1 s1) r0 r1) ↔
        (linregSnip degree msg fresh).Fits s1.toList) ∧
      ∀ r0 r1,
        Terminates (linregOp inv0 sync it0 prg0 fresh msg 0 s0) (linregOp inv1 sync it1 prg1 fresh msg 1 s1) r0 r1 →
        (linregSnip degree msg fresh).Agreement sync prg0 s0.toList s1.toList r0.toSnipResult r1.toSnipResult
          r0.totals) := by
  constructor
  · intro it0 it1 s0 s1 h
    exact varOp_agrees sync prg0 prg1 msg it0 it1 s0 s1 h
  · intro degree inv0 inv1 it0 it1 fresh s0 s1 hdegree h
    exact linregOp_agrees sync prg0 prg1 msg hdegree inv0 inv1 it0 it1 fresh s0 s1 h

/-- One submission that passes the checks of `var_op`. -/
def oneVarSubmission : VarSubmission where
  share := { pk := Vector.replicate 32 0, val := 1, valSquared := 1 }
  packet := ClientPacket.new (checkVar shipped).numMulGates
  packetBytes := 1
  nMul_eq := rfl

/-- One submission that passes the checks of `linreg_op` with one field `x`. -/
def oneLinRegSubmission : LinRegSubmission 2 where
  share := { pk := Vector.replicate 32 0, xVals := Vector.replicate _ 1, y := 1, x2Vals := Vector.replicate _ 1,
             xyVals := Vector.replicate _ 1 }
  packet := ClientPacket.new (checkLinReg shipped 2).numMulGates
  packetBytes := 1
  nMul_eq := rfl

/-- Values of one bit, from one client. -/
def oneInputMsg : InitMsg := { numBits := 1, numOfInputs := 1, maxInp := 0 }

/-- A point and draws that are all one. -/
def onesSync : SnipSync := { x := 1, coeff := fun _ => 1 }

/-- A submission of `var_op` with an empty packet. -/
def varSubmission (key : UInt8) (val valSquared : UInt64) : VarSubmission :=
  { oneVarSubmission with share := { pk := Vector.replicate 32 key, val, valSquared } }

/-- A submission of `linreg_op` with one field `x` and an empty packet. -/
def linregSubmission (key : UInt8) (x y x2 xy : UInt64) : LinRegSubmission 2 :=
  { oneLinRegSubmission with
    share := { pk := Vector.replicate 32 key, xVals := Vector.replicate _ x, y, x2Vals := Vector.replicate _ x2,
               xyVals := Vector.replicate _ xy } }

/-- Values of two bits, from two clients. -/
def twoVarMsg : InitMsg := { numBits := 2, numOfInputs := 2, maxInp := 0 }

/-- One key reaches both servers, with shares of three and nine, and each server has a key of its own. -/
def crossedVar0 : Vector VarSubmission twoVarMsg.numOfInputs.toNat :=
  ⟨#[varSubmission 0 1 4, varSubmission 1 2 2], rfl⟩

def crossedVar1 : Vector VarSubmission twoVarMsg.numOfInputs.toNat :=
  ⟨#[varSubmission 0 2 13, varSubmission 2 3 9], rfl⟩

def crossedLinReg0 : Vector (LinRegSubmission 2) twoVarMsg.numOfInputs.toNat :=
  ⟨#[linregSubmission 0 1 2 4 8, linregSubmission 1 1 1 1 1], rfl⟩

def crossedLinReg1 : Vector (LinRegSubmission 2) twoVarMsg.numOfInputs.toNat :=
  ⟨#[linregSubmission 0 2 3 13 11, linregSubmission 2 1 1 1 1], rfl⟩

theorem fits_crossedVar1 : (varSnip twoVarMsg).Fits crossedVar1.toList :=
  ⟨by decide, by decide, by decide, by decide⟩

theorem fits_crossedLinReg1 : (linregSnip 2 twoVarMsg fun _ _ => 0).Fits crossedLinReg1.toList :=
  ⟨by decide, by decide, by decide, by decide⟩

theorem snipOps_agree_crossed :
    (∃ r0 r1 totals, Terminates (varOp onesSync default (fun _ => 5) twoVarMsg 0 crossedVar0)
        (varOp onesSync default (fun _ => 7) twoVarMsg 1 crossedVar1) r0 r1 ∧
      (varSnip twoVarMsg).Agreement onesSync (fun _ => 5) crossedVar0.toList crossedVar1.toList r0.toSnipResult
        r1.toSnipResult totals ∧
      r0.totals = if 2 * r0.numValid < twoVarMsg.numOfInputs.toNat then none else some totals) ∧
    ∃ r0 r1,
      Terminates (linregOp (adjugateInv 2) onesSync default (fun _ => 5) (fun _ _ => 0) twoVarMsg 0 crossedLinReg0)
        (linregOp (adjugateInv 2) onesSync default (fun _ => 7) (fun _ _ => 0) twoVarMsg 1 crossedLinReg1) r0 r1 ∧
      (linregSnip 2 twoVarMsg fun _ _ => 0).Agreement onesSync (fun _ => 5) crossedLinReg0.toList
        crossedLinReg1.toList r0.toSnipResult r1.toSnipResult r0.totals := by
  obtain ⟨hvar, hlinreg⟩ := snipOps_agree onesSync (fun _ => 5) (fun _ => 7) twoVarMsg
  constructor
  · obtain ⟨hends, hagree⟩ := hvar default default crossedVar0 crossedVar1
      ⟨varSubmission 0 2 13, List.mem_cons_self, by decide⟩
    obtain ⟨r0, r1, hterm⟩ := hends.mpr fits_crossedVar1
    obtain ⟨totals, hresult⟩ := hagree r0 r1 hterm
    exact ⟨r0, r1, totals, hterm, hresult⟩
  · obtain ⟨hends, hagree⟩ := hlinreg 2 (adjugateInv 2) (adjugateInv 2) default default (fun _ _ => 0) crossedLinReg0
      crossedLinReg1 Nat.two_pos ⟨linregSubmission 0 2 3 13 11, List.mem_cons_self, by decide⟩
    obtain ⟨r0, r1, hterm⟩ := hends.mpr fits_crossedLinReg1
    exact ⟨r0, r1, hterm, hagree r0 r1 hterm⟩

end PrioPlus

import PrioPlus.Server.Agreement

/-!
# Batches without a survivor

When every submission to server 1 fails its checks on receipt, `validate_snips` still reads the first circuit of an
empty array. So `var_op` and `linreg_op` handle a batch exactly when a submission survives on server 1
(`noSurvivor_iff`); the threshold then rejects a batch without a valid input.
-/

namespace PrioPlus

open Lib.TwoParty

/-- Both servers complete, server 1 without an answer, and server 0 rejects a batch in which no input is valid. -/
def Handled {R : Type} (p0 p1 : Server R) (ret : R → ReturnType) (valid : R → List Bool) (total : ℕ) : Prop :=
  ∃ r0 r1, Terminates p0 p1 r0 r1 ∧ ret r1 = .noAns ∧
    (0 < total → (∀ b ∈ valid r0, b = false) → ret r0 = .invalid)

theorem SnipOp.numValid_eq_zero {S : Type} (op : SnipOp S) (sync : SnipSync) (it : Iteration S) (prg0 : ℕ → UInt64)
    (submissions0 submissions1 : List S)
    (hnone : ∀ b ∈ (op.result0 sync it prg0 submissions0 submissions1).valid, b = false) :
    (op.result0 sync it prg0 submissions0 submissions1).numValid = 0 := by
  rw [op.numValid_result0, Finset.card_eq_zero, Finset.filter_eq_empty_iff]
  intro i _ hvalid
  rw [List.getD_eq_getElem?_getD] at hvalid
  cases hget : (op.sentValid sync it prg0 submissions0 submissions1)[i]? with
  | none => rw [hget] at hvalid; exact Bool.false_ne_true hvalid
  | some b =>
    rw [hget, Option.getD_some] at hvalid
    rw [hnone b (List.mem_of_getElem? hget)] at hvalid
    exact Bool.false_ne_true hvalid

theorem varOp_reaches_stuck (sync : SnipSync) (it0 it1 : Iteration VarSubmission) (prg0 prg1 : ℕ → UInt64)
    (msg : InitMsg) (s0 s1 : Vector VarSubmission msg.numOfInputs.toNat) (h : ∀ s ∈ s1.toList, varOk msg s = false)
    (hfits : (varSnip msg).Fits s1.toList) :
    Reaches (.start (varOp sync it0 prg0 msg 0 s0) (varOp sync it1 prg1 msg 1 s1)) (.start .stuck .stuck) :=
  ((varSnip msg).server_reaches_stuck sync it1 prg0 s0.toList s1.toList prg1 h hfits).bind_of _ _

theorem varOp_not_terminates (sync : SnipSync) (it0 it1 : Iteration VarSubmission) (prg0 prg1 : ℕ → UInt64)
    (msg : InitMsg) (s0 s1 : Vector VarSubmission msg.numOfInputs.toNat) (h : ∀ s ∈ s1.toList, varOk msg s = false)
    (r0 r1 : VarResult) : ¬ Terminates (varOp sync it0 prg0 msg 0 s0) (varOp sync it1 prg1 msg 1 s1) r0 r1 := by
  by_cases hfits : (varSnip msg).Fits s1.toList
  · exact (varOp_reaches_stuck sync it0 it1 prg0 prg1 msg s0 s1 h hfits).not_terminates r0 r1
  · exact (varOp_hangs sync it0 it1 prg0 prg1 msg s0 s1 hfits).not_terminates r0 r1

theorem varOp_handled (sync : SnipSync) (it0 it1 : Iteration VarSubmission) (prg0 prg1 : ℕ → UInt64) (msg : InitMsg)
    (s0 s1 : Vector VarSubmission msg.numOfInputs.toNat) (h : ∃ s ∈ s1.toList, varOk msg s = true)
    (hfits : (varSnip msg).Fits s1.toList) :
    Handled (varOp sync it0 prg0 msg 0 s0) (varOp sync it1 prg1 msg 1 s1) VarResult.ret (fun r => r.valid)
      msg.numOfInputs.toNat := by
  refine ⟨_, _, varOp_terminates sync it0 it1 prg0 prg1 msg s0 s1 h hfits, rfl, fun hpos hnone => ?_⟩
  simp only [toSnipResult_varFinish] at hnone
  have hzero := (varSnip msg).numValid_eq_zero sync it1 prg0 s0.toList s1.toList hnone
  rw [varFinish, if_pos ((belowThreshold_iff _ _).mpr (by omega))]

theorem linregOp_handled {degree : ℕ} (hdegree : 0 < degree) (inv0 inv1 : FmpqMatInv degree) (sync : SnipSync)
    (it0 it1 : Iteration (LinRegSubmission degree)) (prg0 prg1 : ℕ → UInt64) (fresh : ℕ → ℕ → UInt64) (msg : InitMsg)
    (s0 s1 : Vector (LinRegSubmission degree) msg.numOfInputs.toNat) (h : ∃ s ∈ s1.toList, linregOk msg s = true)
    (hfits : (linregSnip degree msg fresh).Fits s1.toList) :
    Handled (linregOp inv0 sync it0 prg0 fresh msg 0 s0) (linregOp inv1 sync it1 prg1 fresh msg 1 s1)
      LinRegResult.ret (fun r => r.valid) msg.numOfInputs.toNat := by
  refine ⟨_, _, linregOp_terminates hdegree inv0 inv1 sync it0 it1 prg0 prg1 fresh msg s0 s1 h hfits, rfl,
    fun hpos hnone => ?_⟩
  simp only [toSnipResult_linregFinish] at hnone
  have hzero := (linregSnip degree msg fresh).numValid_eq_zero sync it1 prg0 s0.toList s1.toList hnone
  simp only [linregFinish]
  rw [if_pos ((belowThreshold_iff _ _).mpr (by omega))]

/-- Both operations handle exactly the batches with a survivor on server 1 that the counters of the conversion get
through. -/
theorem noSurvivor_iff (sync : SnipSync) (prg0 prg1 : ℕ → UInt64) (msg : InitMsg) :
    (∀ (it0 it1 : Iteration VarSubmission) (s0 s1 : Vector VarSubmission msg.numOfInputs.toNat),
      Handled (varOp sync it0 prg0 msg 0 s0) (varOp sync it1 prg1 msg 1 s1) VarResult.ret (fun r => r.valid)
          msg.numOfInputs.toNat ↔
        (∃ s ∈ s1.toList, varOk msg s = true) ∧ (varSnip msg).Fits s1.toList) ∧
    (∀ (degree : ℕ) (inv0 inv1 : FmpqMatInv degree) (it0 it1 : Iteration (LinRegSubmission degree))
      (fresh : ℕ → ℕ → UInt64) (s0 s1 : Vector (LinRegSubmission degree) msg.numOfInputs.toNat),
      Handled (linregOp inv0 sync it0 prg0 fresh msg 0 s0) (linregOp inv1 sync it1 prg1 fresh msg 1 s1)
          LinRegResult.ret (fun r => r.valid) msg.numOfInputs.toNat ↔
        0 < degree ∧ (∃ s ∈ s1.toList, linregOk msg s = true) ∧ (linregSnip degree msg fresh).Fits s1.toList) := by
  constructor
  · intro it0 it1 s0 s1
    refine ⟨?_, fun h => varOp_handled sync it0 it1 prg0 prg1 msg s0 s1 h.1 h.2⟩
    rintro ⟨r0, r1, hterm, -⟩
    constructor
    · by_contra hnone
      simp only [not_exists, not_and, Bool.not_eq_true] at hnone
      exact varOp_not_terminates sync it0 it1 prg0 prg1 msg s0 s1 hnone r0 r1 hterm
    · by_contra hfits
      exact (varOp_hangs sync it0 it1 prg0 prg1 msg s0 s1 hfits).not_terminates r0 r1 hterm
  · intro degree inv0 inv1 it0 it1 fresh s0 s1
    constructor
    · rintro ⟨r0, r1, hterm, -⟩
      have hdegree : 0 < degree := by
        by_contra hzero
        obtain rfl : degree = 0 := by omega
        exact not_terminates_stuck r0 r1 hterm
      refine ⟨hdegree, ?_, ?_⟩
      · by_contra hnone
        simp only [not_exists, not_and, Bool.not_eq_true] at hnone
        exact linregOp_not_terminates hdegree inv0 inv1 sync it0 it1 prg0 prg1 fresh msg s0 s1 hnone r0 r1 hterm
      · by_contra hfits
        exact (linregOp_hangs hdegree inv0 inv1 sync it0 it1 prg0 prg1 fresh msg s0 s1 hfits).not_terminates r0 r1 hterm
    · rintro ⟨hdegree, h, hfits⟩
      exact linregOp_handled hdegree inv0 inv1 sync it0 it1 prg0 prg1 fresh msg s0 s1 h hfits

/-- One submission whose value does not fit into one bit. -/
def largeVarSubmission : VarSubmission :=
  { oneVarSubmission with share := { pk := Vector.replicate 32 0, val := 2, valSquared := 1 } }

/-- No answer comes of a batch whose only submission is rejected. -/
theorem not_handled_largeVarSubmission :
    ¬ Handled (varOp onesSync default (fun _ => 0) oneInputMsg 0 (Vector.replicate _ largeVarSubmission))
      (varOp onesSync default (fun _ => 0) oneInputMsg 1 (Vector.replicate _ largeVarSubmission)) VarResult.ret
      (fun r => r.valid) oneInputMsg.numOfInputs.toNat := by
  rintro ⟨r0, r1, hterm, -⟩
  refine varOp_not_terminates _ _ _ _ _ _ _ _ ?_ r0 r1 hterm
  intro s hs
  rw [Vector.toList_replicate] at hs
  rw [List.eq_of_mem_replicate hs]
  decide

end PrioPlus

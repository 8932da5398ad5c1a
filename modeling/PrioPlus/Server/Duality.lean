import Mathlib.Data.UInt
import PrioPlus.Server.Agreement
import PrioPlus.Server.Kinds
import PrioPlus.Server.Script

/-!
# What the servers write and read

Server 1 reads what server 0 writes, and the other way around, in every operation and on every branch, so that the
link is empty when the next request starts. The exception are requests for which a loop with a 32-bit counter never
ends (`Operation.Endless`): the loop `j <= B` of `MAX` and `MIN` with the largest `max_inp`, and the loops over the bits
of a batch and over the transfers of a conversion from `2 ^ 32` on. A server that is in such a loop never writes again
(`script_dual_iff`).

The sequences are those of the loops and of the branches. Accesses beyond an array, as in `int_sum` or in a `MAX` request
whose `total_inputs * (B + 1)` wraps, and the byte counts of single transfers are left out here.

The batch of integers that server 1 sends at the end of `linreg_op` is read one by one. On the wire the two are the
same (`NetShare.recvFmpzs_flatMap`), and both are single integers here. The oblivious transfers have a connection of
their own, and take part in the sequences with a kind of their own.
-/

namespace PrioPlus

open Finset Lib.TwoParty Lib.FirstWins

/-! ### `max_op` -/

section MaxOp

variable {type : MessageType} (msg : InitMsg) (it0 it1 : Iteration ℕ) (uninit0 uninit1 : ℕ → UInt64)
  (s0 s1 : Vector (MaxShare msg.maxInp) msg.numOfInputs.toNat)

theorem over_maxScan (B : UInt32) (type : MessageType) (totalInputs numValid : ℕ) (a b : List UInt64) :
    Over (maxScan B type totalInputs numValid a b) := by
  unfold maxScan
  split_ifs
  · exact Or.inr ⟨_, rfl⟩
  · split
    · exact Or.inr ⟨_, rfl⟩
    · exact Or.inl rfl

theorem exists_maxScan_ne_stuck {B : UInt32} (htype : type = .maxOp ∨ type = .minOp) (hB : B + 1 ≠ 0)
    (totalInputs numValid : ℕ) (a : List UInt64) :
    ∃ b : List UInt64, b.length = (B + 1).toNat ∧ maxScan B type totalInputs numValid a b ≠ .stuck := by
  let b := List.replicate (B + 1).toNat (a.getD 0 0 + 1)
  refine ⟨b, List.length_replicate, ?_⟩
  have hpos : 0 < b.length := by
    rw [List.length_replicate]
    exact Nat.pos_of_ne_zero fun hzero => hB (UInt32.toNat_inj.mp hzero)
  have hdiff : decide (a.getD 0 0 ≠ b.getD 0 0) = true := by
    rw [decide_eq_true_iff, List.getD_eq_getElem _ _ hpos, List.getElem_replicate]
    simp
  obtain ⟨j, hj⟩ := @exists_scanDown (fun j => a.getD j 0 ≠ b.getD j 0) _ 0 (Nat.succ_pos B.toNat) hdiff
  unfold maxScan
  rw [hj]
  split_ifs
  · exact ret_ne_stuck _
  · rcases htype with rfl | rfl
    · exact ret_ne_stuck _
    · exact ret_ne_stuck _

/-- The map of a server, and the keys of server 1 in its order. -/
def maxMap (s : Vector (MaxShare msg.maxInp) msg.numOfInputs.toNat) : ShareMap ℕ :=
  receivedMap (maxEntries msg.maxInp s.toList)

def maxPkList : List Pk := (it1.order (maxMap msg s1)).map Sigma.fst

/-- The loop of a server over server 1's keys. -/
def maxLoop (uninit : ℕ → UInt64) (s : Vector (MaxShare msg.maxInp) msg.numOfInputs.toNat) : Server (List UInt64) :=
  addMatched (addSliceLoop msg.maxInp (maxShares msg.maxInp s.toList uninit)) (maxMap msg s)
    (List.replicate (msg.maxInp + 1).toNat 0) (maxPkList msg it1 s1) (matchedFlags it1 (maxMap msg s0) (maxMap msg s1))

theorem mem_maxPkList (pk : Pk) : pk ∈ maxPkList msg it1 s1 ↔ ∃ s ∈ s1.toList, s.pk = pk := by
  rw [maxPkList, mem_keys_iteration (it1.perm _), maxMap, mem_receivedMap, receivedPks_maxEntries]
  simp [receivedPks]

theorem mem_maxMap (s : Vector (MaxShare msg.maxInp) msg.numOfInputs.toNat) (pk : Pk) :
    pk ∈ maxMap msg s ↔ ∃ x ∈ s.toList, x.pk = pk := by
  rw [maxMap, mem_receivedMap, receivedPks_maxEntries]
  simp [receivedPks]

variable {msg it1 uninit0 uninit1 s0 s1}

theorem maxOp_reaches_last {a b : List UInt64} (hsum0 : maxLoop msg it1 s0 s1 uninit0 s0 = .ret a)
    (hsum1 : maxLoop msg it1 s0 s1 uninit1 s1 = .ret b) :
    ∃ (next : Msg → Server MaxOpResult) (r : MaxOpResult),
      Reaches (.start (maxOp it0 uninit0 type msg 0 s0) (maxOp it1 uninit1 type msg 1 s1))
        ⟨.recv next, .ret r, [.uint64Batch b], []⟩ ∧
      ∀ b' : List UInt64, b'.length = (msg.maxInp + 1).toNat → next (.uint64Batch b') =
        maxScan msg.maxInp type msg.numOfInputs.toNat (matchedPks it1 (maxMap msg s0) (maxMap msg s1)).length a b' := by
  let finish (x : ℕ × List UInt64 × List UInt64) : Server MaxOpResult :=
    maxScan msg.maxInp type msg.numOfInputs.toNat x.1 x.2.1 x.2.2
  have hword := @matched_reaches_word _ _ _ _ it1 _ _ _ Msg.uint64Batch (recvUint64Batch (msg.maxInp + 1).toNat) _ _
    hsum0 hsum1
  have hrun := hword.bind_of finish fun _ => .ret ({ ret := .noAns, numValid := 0, ans := none } : MaxOpResult)
  refine ⟨_, _, hrun, fun b' hlen => ?_⟩
  simp only [hlen, if_true]
  rfl

/-- When both loops end, everything that is written is read. The scan may still run out of the arrays. -/
theorem maxOp_dual_of_sums {a b : List UInt64} (hsum0 : maxLoop msg it1 s0 s1 uninit0 s0 = .ret a)
    (hsum1 : maxLoop msg it1 s0 s1 uninit1 s1 = .ret b) (hlen : b.length = (msg.maxInp + 1).toNat)
    (hgo : ∃ b' : List UInt64, b'.length = (msg.maxInp + 1).toNat ∧
      maxScan msg.maxInp type msg.numOfInputs.toNat (matchedPks it1 (maxMap msg s0) (maxMap msg s1)).length a b' ≠
        .stuck) :
    Dual Msg.kind (maxOp it0 uninit0 type msg 0 s0) (maxOp it1 uninit1 type msg 1 s1) := by
  obtain ⟨b', hlen', hgo⟩ := hgo
  obtain ⟨next, r, hrun, hnext⟩ := @maxOp_reaches_last type msg it0 _ _ _ _ _ _ _ hsum0 hsum1
  have hkind : (Msg.uint64Batch b').kind = (Msg.uint64Batch b).kind := congrArg Kind.uint64Batch (hlen'.trans hlen.symm)
  refine Reaches.dual_last hrun (typed_maxOp it0 uninit0 type msg 0 s0) (typed_maxOp it1 uninit1 type msg 1 s1) hkind
    ?_ ?_
  · rw [hnext b' hlen']
    exact hgo
  · rw [hnext b hlen]
    exact over_maxScan _ _ _ _ _ _

theorem maxLoop_of_ne (hB : msg.maxInp + 1 ≠ 0) (uninit : ℕ → UInt64)
    (s : Vector (MaxShare msg.maxInp) msg.numOfInputs.toNat) :
    ∃ a, maxLoop msg it1 s0 s1 uninit s = .ret a ∧ a.length = (msg.maxInp + 1).toNat := by
  have hstep (acc : List UInt64) (start : ℕ) :
      addSliceLoop msg.maxInp (maxShares msg.maxInp s.toList uninit) acc start =
        .ret (addSlice (maxShares msg.maxInp s.toList uninit) acc start) := if_neg hB
  refine ⟨_, addMatched_decide _ hstep _ (· ∈ maxMap msg s0) _ _, ?_⟩
  rw [(foldl_addSlice _ _ _ _).1, List.length_replicate]

theorem maxLoop_of_disjoint (h : ¬ ∃ x ∈ s0.toList, ∃ y ∈ s1.toList, x.pk = y.pk) (uninit : ℕ → UInt64)
    (s : Vector (MaxShare msg.maxInp) msg.numOfInputs.toNat) :
    maxLoop msg it1 s0 s1 uninit s = .ret (List.replicate (msg.maxInp + 1).toNat 0) ∧
      matchedPks it1 (maxMap msg s0) (maxMap msg s1) = [] := by
  have hnone : ∀ pk ∈ maxPkList msg it1 s1, ¬ pk ∈ maxMap msg s0 := by
    intro pk hpk1 hpk0
    obtain ⟨y, hy, rfl⟩ := (mem_maxPkList msg it1 s1 pk).mp hpk1
    obtain ⟨x, hx, hxy⟩ := (mem_maxMap msg s0 _).mp hpk0
    exact h ⟨x, hx, y, hy, hxy⟩
  refine ⟨addMatched_of_forall_not _ _ _ hnone, ?_⟩
  rw [matchedPks, List.filter_eq_nil_iff]
  intro pk hpk
  simpa using hnone pk hpk

/-- For the largest `max_inp`, server 0 does not get past the first common key, and server 1 waits for its flags. -/
theorem maxOp_hangs (hB : msg.maxInp + 1 = 0) (h : ∃ x ∈ s0.toList, ∃ y ∈ s1.toList, x.pk = y.pk) :
    Hangs (maxOp it0 uninit0 type msg 0 s0) (maxOp it1 uninit1 type msg 1 s1) := by
  obtain ⟨x, hx, y, hy, hxy⟩ := h
  have hstep (acc : List UInt64) (start : ℕ) :
      addSliceLoop msg.maxInp (maxShares msg.maxInp s0.toList uninit0) acc start = .loop := if_pos hB
  have hloop : maxLoop msg it1 s0 s1 uninit0 s0 = .loop :=
    addMatched_loop hstep _ _ ⟨y.pk, (mem_maxPkList msg it1 s1 _).mpr ⟨y, hy, rfl⟩,
      (mem_maxMap msg s0 _).mpr ⟨x, hx, hxy⟩⟩
  have hkeys := (matched_reaches_keys (addSliceLoop msg.maxInp (maxShares msg.maxInp s0.toList uninit0))
    (addSliceLoop msg.maxInp (maxShares msg.maxInp s1.toList uninit1)) it1 (maxMap msg s0) (maxMap msg s1)
    (List.replicate (msg.maxInp + 1).toNat 0) Msg.uint64Batch (recvUint64Batch (msg.maxInp + 1).toNat)).bind_of
      (fun x => maxScan msg.maxInp type msg.numOfInputs.toNat x.1 x.2.1 x.2.2)
      (fun _ => .ret ({ ret := .noAns, numValid := 0, ans := none } : MaxOpResult))
  unfold maxLoop at hloop
  unfold maxPkList at hloop
  rw [hloop] at hkeys
  exact Or.inr ⟨_, hkeys⟩

theorem maxOp_dual (htype : type = .maxOp ∨ type = .minOp) (hpos : 0 < msg.numOfInputs.toNat)
    (hends : ¬ (msg.maxInp + 1 = 0 ∧ ∃ x ∈ s0.toList, ∃ y ∈ s1.toList, x.pk = y.pk)) :
    Dual Msg.kind (maxOp it0 uninit0 type msg 0 s0) (maxOp it1 uninit1 type msg 1 s1) := by
  by_cases hB : msg.maxInp + 1 = 0
  · have hdisjoint := fun hcommon => hends ⟨hB, hcommon⟩
    obtain ⟨hsum0, hnil⟩ := @maxLoop_of_disjoint msg it1 s0 s1 hdisjoint uninit0 s0
    obtain ⟨hsum1, -⟩ := @maxLoop_of_disjoint msg it1 s0 s1 hdisjoint uninit1 s1
    refine maxOp_dual_of_sums it0 hsum0 hsum1 List.length_replicate ⟨_, List.length_replicate (a := 0), ?_⟩
    rw [hnil, maxScan, if_pos ((belowThreshold_iff _ _).mpr (by simpa using hpos))]
    exact ret_ne_stuck _
  · obtain ⟨a, hsum0, -⟩ := maxLoop_of_ne hB uninit0 s0
    obtain ⟨b, hsum1, hlen⟩ := maxLoop_of_ne hB uninit1 s1
    exact maxOp_dual_of_sums it0 hsum0 hsum1 hlen (exists_maxScan_ne_stuck htype hB _ _ a)

end MaxOp

/-! ### The other operations -/

section Operations

variable (msg : InitMsg)

theorem bitSum_dual (it0 it1 : Iteration Bool) (prg0 prg1 : ℕ → UInt64)
    (s0 s1 : Vector BitShare msg.numOfInputs.toNat) :
    Dual Msg.kind (bitSum it0 prg0 msg 0 s0) (bitSum it1 prg1 msg 1 s1) :=
  (bitSum_terminates it0 it1 prg0 prg1 msg s0 s1).dual (typed_bitSum _ _ _ _ _) (typed_bitSum _ _ _ _ _)

/-- With another number of bits both servers fail the assertion before the first message. -/
theorem intSum_dual (it0 it1 : Iteration UInt64) (prg0 prg1 heap0 heap1 : ℕ → UInt64)
    (s0 s1 : Vector IntShare msg.numOfInputs.toNat) (hfits : msg.numBits.toNat = 63 → IntSumFits msg s1.toList) :
    Dual Msg.kind (intSum it0 prg0 heap0 msg 0 s0) (intSum it1 prg1 heap1 msg 1 s1) := by
  by_cases hbits : msg.numBits.toNat = 63
  · exact (intSum_terminates it0 it1 prg0 prg1 heap0 heap1 msg hbits s0 s1 (hfits hbits)).dual
      (typed_intSum _ _ _ _ _ _) (typed_intSum _ _ _ _ _ _)
  · unfold intSum
    rw [if_pos hbits, if_pos hbits]
    exact dual_stuck

theorem xorOp_dual (it0 it1 : Iteration UInt64) {type : MessageType} (htype : type = .andOp ∨ type = .orOp)
    (s0 s1 : Vector IntShare msg.numOfInputs.toNat) :
    Dual Msg.kind (xorOp it0 type msg 0 s0) (xorOp it1 type msg 1 s1) := by
  have hout : ∃ r, xorOutcome s0.toList s1.toList type msg.numOfInputs.toNat = some r := by
    unfold xorOutcome
    simp only
    split_ifs
    · exact ⟨_, rfl⟩
    · rcases htype with rfl | rfl
      · exact ⟨_, rfl⟩
      · exact ⟨_, rfl⟩
  obtain ⟨r, hr⟩ := hout
  exact (xorOp_terminates it0 it1 type msg s0 s1 hr).dual (typed_xorOp _ _ _ _ _) (typed_xorOp _ _ _ _ _)

theorem varOp_dual (sync : SnipSync) (it0 it1 : Iteration VarSubmission) (prg0 prg1 : ℕ → UInt64)
    (s0 s1 : Vector VarSubmission msg.numOfInputs.toNat) (h : ∃ s ∈ s1.toList, varOk msg s = true)
    (hfits : (varSnip msg).Fits s1.toList) :
    Dual Msg.kind (varOp sync it0 prg0 msg 0 s0) (varOp sync it1 prg1 msg 1 s1) :=
  (varOp_terminates sync it0 it1 prg0 prg1 msg s0 s1 h hfits).dual (typed_varOp _ _ _ _ _ _) (typed_varOp _ _ _ _ _ _)

/-- Server 1 knows all of its keys, and copies no fresh array. -/
theorem linregOp_fresh {degree : ℕ} (inv : FmpqMatInv degree) (sync : SnipSync)
    (it : Iteration (LinRegSubmission degree)) (prg : ℕ → UInt64) (fresh fresh' : ℕ → ℕ → UInt64)
    (s : Vector (LinRegSubmission degree) msg.numOfInputs.toNat) :
    linregOp inv sync it prg fresh msg 1 s = linregOp inv sync it prg fresh' msg 1 s := by
  let m := (linregSnip degree msg fresh).shareMap s.toList
  let pks := (it.order m).map Sigma.fst
  have hslots : (linregSnip degree msg fresh).slots m pks = (linregSnip degree msg fresh').slots m pks := by
    apply List.ext_getElem
    · simp [SnipOp.slots]
    · intro i h h'
      have hi : i < pks.length := by simpa [SnipOp.slots] using h
      have hmem : pks[i] ∈ m := (mem_keys_iteration (it.perm m) _).mp (List.getElem_mem hi)
      obtain ⟨x, hx⟩ := Option.isSome_iff_exists.mp (AList.lookup_isSome.mpr hmem)
      simp only [SnipOp.slots, List.getElem_mapIdx, hx]
      rfl
  have hserver :
      (linregSnip degree msg fresh).server1 sync it prg m = (linregSnip degree msg fresh').server1 sync it prg m := by
    simp only [SnipOp.server1, SnipOp.shares, SnipOp.packets]
    rw [hslots]
    rfl
  unfold linregOp
  by_cases hdegree : degree = 0
  · rw [if_pos hdegree, if_pos hdegree]
  · rw [if_neg hdegree, if_neg hdegree]
    exact congrArg (· >>= fun result => pure (linregSent result)) hserver

section LinReg

variable {degree : ℕ} (inv0 inv1 : FmpqMatInv degree) (sync : SnipSync) (it0 it1 : Iteration (LinRegSubmission degree))
  (prg0 prg1 : ℕ → UInt64) (fresh0 fresh1 : ℕ → ℕ → UInt64)
  (s0 s1 : Vector (LinRegSubmission degree) msg.numOfInputs.toNat)

theorem linregOp_dual (h : ∃ s ∈ s1.toList, linregOk msg s = true)
    (hfits : 0 < degree → (linregSnip degree msg fresh0).Fits s1.toList) :
    Dual Msg.kind (linregOp inv0 sync it0 prg0 fresh0 msg 0 s0) (linregOp inv1 sync it1 prg1 fresh1 msg 1 s1) := by
  rcases Nat.eq_zero_or_pos degree with rfl | hdegree
  · exact dual_stuck
  · rw [linregOp_fresh msg inv1 sync it1 prg1 fresh1 fresh0]
    exact (linregOp_terminates hdegree inv0 inv1 sync it0 it1 prg0 prg1 fresh0 msg s0 s1 h (hfits hdegree)).dual
      (typed_linregOp _ _ _ _ _ _ _ _) (typed_linregOp _ _ _ _ _ _ _ _)

theorem linregOp_hangs_fresh (hdegree : 0 < degree) (hfits : ¬ (linregSnip degree msg fresh0).Fits s1.toList) :
    Hangs (linregOp inv0 sync it0 prg0 fresh0 msg 0 s0) (linregOp inv1 sync it1 prg1 fresh1 msg 1 s1) := by
  rw [linregOp_fresh msg inv1 sync it1 prg1 fresh1 fresh0]
  exact linregOp_hangs hdegree inv0 inv1 sync it0 it1 prg0 prg1 fresh0 msg s0 s1 hfits

end LinReg

theorem freqOp_dual (it0 it1 : Iteration (Vector Bool (maxInp msg))) (d0 d1 : ℕ → DaBit) (uninit0 uninit1 : ℕ → Bool)
    (s0 s1 : Vector (FreqShare (maxInp msg)) msg.numOfInputs.toNat) (hfits : CountersFit (freqRows msg) s1.toList) :
    Dual Msg.kind (freqOp msg it0 d0 uninit0 0 s0) (freqOp msg it1 d1 uninit1 1 s1) :=
  (freqOp_terminates msg it0 it1 d0 d1 uninit0 uninit1 s0 hfits).dual (typed_freqOp _ _ _ _ _ _)
    (typed_freqOp _ _ _ _ _ _)

theorem sketchOp_dual {size : ℕ} (rows : List (ℕ × ℕ)) (verdict : List Bool → List Bool → List ℤ → List ℤ → Bool)
    (query : ℕ → List ℤ → List UInt64) (it0 it1 : Iteration (Vector Bool size)) (d0 d1 : ℕ → DaBit) (total : ℕ)
    (s0 s1 : List (FreqShare size)) (hfits : CountersFit rows s1) :
    Dual Msg.kind (sketchOp rows verdict query it0 d0 total 0 s0) (sketchOp rows verdict query it1 d1 total 1 s1) :=
  (sketchOp_terminates verdict query it0 it1 d0 d1 total s0 hfits).dual (typed_sketchOp _ _ _ _ _ _ _ _)
    (typed_sketchOp _ _ _ _ _ _ _ _)

end Operations

/-! ### All operations -/

/-- A loop of the operation never ends, over a slice with the largest `max_inp`, over the transfers of a conversion, or
over bits. -/
def Operation.Endless (msg : InitMsg) {n : ℕ} : (op : Operation) → Side (op.Kept msg) (op.Submission msg) n →
    Side (op.Kept msg) (op.Submission msg) n → Prop
  | .bitSum, _, _ | .andOp, _, _ | .orOp, _, _ => False
  | .intSum, _, side1 => msg.numBits.toNat = 63 ∧ ¬ IntSumFits msg side1.submissions.toList
  | .maxOp, side0, side1 | .minOp, side0, side1 =>
    msg.maxInp + 1 = 0 ∧ ∃ x ∈ side0.submissions.toList, ∃ y ∈ side1.submissions.toList, MaxShare.pk x = MaxShare.pk y
  | .varOp, _, side1 | .stddevOp, _, side1 => ¬ (varSnip msg).Fits side1.submissions.toList
  | .linregOp degree, side0, side1 =>
    0 < degree ∧ ¬ (linregSnip degree msg side0.fresh).Fits side1.submissions.toList
  | .freqOp, _, side1 => ¬ @CountersFit (maxInp msg) (freqRows msg) side1.submissions.toList
  | .countMinOp cfg, _, side1 => ¬ @CountersFit (cfg.d * cfg.w) (countMinRows cfg) side1.submissions.toList
  | .heavyOp cfg, _, side1 =>
    ¬ @CountersFit (shareSize msg.numBits cfg) (heavyRows msg.numBits cfg) side1.submissions.toList

section Script

variable (msg : InitMsg) (shared : Shared) (op : Operation)
  (side0 side1 : Side (op.Kept msg) (op.Submission msg) msg.numOfInputs.toNat)

theorem script_hangs (h : op.Endless msg side0 side1) :
    Hangs (op.script msg shared 0 side0) (op.script msg shared 1 side1) := by
  cases op with
  | bitSum | andOp | orOp => exact h.elim
  | intSum =>
    exact intSum_hangs side0.it side1.it side0.prg side1.prg side0.heap side1.heap msg h.1 side0.submissions
      side1.submissions h.2
  | maxOp | minOp => exact maxOp_hangs side0.it h.1 h.2
  | varOp | stddevOp =>
    exact varOp_hangs shared.sync side0.it side1.it side0.prg side1.prg msg side0.submissions side1.submissions h
  | linregOp degree =>
    exact linregOp_hangs_fresh msg (shared.fmpqMatInv degree) (shared.fmpqMatInv degree) shared.sync side0.it side1.it
      side0.prg side1.prg side0.fresh side1.fresh side0.submissions side1.submissions h.1 h.2
  | freqOp =>
    exact freqOp_hangs msg side0.it side1.it side0.dabits side1.dabits side0.uninit side1.uninit side0.submissions h
  | countMinOp cfg =>
    exact @sketchOp_hangs (cfg.d * cfg.w) _ _ _ side0.it side1.it side0.dabits side1.dabits _ side0.submissions.toList
      _ h
  | heavyOp cfg =>
    exact @sketchOp_hangs (shareSize msg.numBits cfg) _ _ _ side0.it side1.it side0.dabits side1.dabits _
      side0.submissions.toList _ h

theorem script_dual (hsurvivor : ∃ s ∈ side1.submissions.toList, op.survives msg s = true)
    (hends : ¬ op.Endless msg side0 side1) :
    Dual Msg.kind (op.script msg shared 0 side0) (op.script msg shared 1 side1) := by
  have hpos : 0 < msg.numOfInputs.toNat := by
    obtain ⟨s, hs, -⟩ := hsurvivor
    have hlen := List.length_pos_of_mem hs
    rwa [Vector.length_toList] at hlen
  cases op with
  | bitSum => exact bitSum_dual msg side0.it side1.it side0.prg side1.prg side0.submissions side1.submissions
  | intSum =>
    exact intSum_dual msg side0.it side1.it side0.prg side1.prg side0.heap side1.heap side0.submissions side1.submissions
      fun hbits => not_not.mp fun hfits => hends ⟨hbits, hfits⟩
  | andOp => exact xorOp_dual msg side0.it side1.it (Or.inl rfl) side0.submissions side1.submissions
  | orOp => exact xorOp_dual msg side0.it side1.it (Or.inr rfl) side0.submissions side1.submissions
  | maxOp => exact maxOp_dual side0.it (Or.inl rfl) hpos hends
  | minOp => exact maxOp_dual side0.it (Or.inr rfl) hpos hends
  | varOp | stddevOp =>
    exact varOp_dual msg shared.sync side0.it side1.it side0.prg side1.prg side0.submissions side1.submissions hsurvivor
      (not_not.mp hends)
  | linregOp degree =>
    exact linregOp_dual msg (shared.fmpqMatInv degree) (shared.fmpqMatInv degree) shared.sync side0.it side1.it side0.prg
      side1.prg side0.fresh side1.fresh side0.submissions side1.submissions hsurvivor
      fun hdegree => not_not.mp fun hfits => hends ⟨hdegree, hfits⟩
  | freqOp =>
    exact freqOp_dual msg side0.it side1.it side0.dabits side1.dabits side0.uninit side1.uninit side0.submissions
      side1.submissions (not_not.mp hends)
  | countMinOp cfg =>
    exact @sketchOp_dual (cfg.d * cfg.w) _ _ _ side0.it side1.it side0.dabits side1.dabits _ _ _ (not_not.mp hends)
  | heavyOp cfg =>
    exact @sketchOp_dual (shareSize msg.numBits cfg) _ _ _ side0.it side1.it side0.dabits side1.dabits _ _ _
      (not_not.mp hends)

/-- The servers read what they write, whatever the two batches, unless a loop never ends. -/
theorem script_dual_iff (hsurvivor : ∃ s ∈ side1.submissions.toList, op.survives msg s = true) :
    Dual Msg.kind (op.script msg shared 0 side0) (op.script msg shared 1 side1) ↔ ¬ op.Endless msg side0 side1 :=
  dual_iff (script_hangs msg shared op side0 side1) (script_dual msg shared op side0 side1 hsurvivor)

end Script

/-- A server with these submissions and zeros for the rest. -/
def zeroSide {V S : Type} {n : ℕ} (submissions : Vector S n) : Side V S n where
  it := default
  prg := 0
  dabits := zeroDaBits
  heap := 0
  fresh := 0
  uninit := fun _ => false
  submissions := submissions

def onesShared : Shared := { sync := onesSync, seed := { draw := 0 }, fmpqMatInv := adjugateInv }

theorem script_dual_iff_crossed :
    Dual Msg.kind (Operation.script twoVarMsg onesShared 0 .varOp (zeroSide crossedVar0))
      (Operation.script twoVarMsg onesShared 1 .varOp (zeroSide crossedVar1)) :=
  (script_dual_iff twoVarMsg onesShared .varOp (zeroSide crossedVar0) (zeroSide crossedVar1)
    ⟨varSubmission 0 2 13, List.mem_cons_self, by decide⟩).mpr (not_not_intro fits_crossedVar1)

/-- Arrays whose number of words wraps to zero. -/
def wrappedMsg : InitMsg := { numBits := 0, numOfInputs := 1, maxInp := 4294967295 }

def wrappedBatch : Vector (MaxShare wrappedMsg.maxInp) wrappedMsg.numOfInputs.toNat :=
  Vector.replicate _ { pk := Vector.replicate 32 0, arr := Vector.replicate _ 0 }

theorem not_script_dual :
    (∃ s ∈ wrappedBatch.toList, Operation.survives wrappedMsg .maxOp s = true) ∧
      ¬ Dual Msg.kind (Operation.script wrappedMsg onesShared 0 .maxOp (zeroSide wrappedBatch))
        (Operation.script wrappedMsg onesShared 1 .maxOp (zeroSide wrappedBatch)) := by
  constructor
  · exact ⟨_, List.mem_singleton_self _, rfl⟩
  · apply Hangs.not_dual
    exact maxOp_hangs default (by decide) ⟨_, List.mem_singleton_self _, _, List.mem_singleton_self _, rfl⟩

end PrioPlus

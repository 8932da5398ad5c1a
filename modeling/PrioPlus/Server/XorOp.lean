import PrioPlus.Client.Xor
import PrioPlus.Lib.XorFold

/-!
# `xor_op`

Both servers xor the words of the keys that both hold: server 0 while it looks server 1's keys up, server 1 once the
flags are back. `matchedServer0` and `matchedServer1` are this exchange for any kind of word, and `max_op` runs it for
arrays. Whatever the submissions and the order of server 1's map, the two words differ by the xor over the common keys
of the first shares (`xorOp_terminates`).
-/

namespace PrioPlus

open Finset Lib.TwoParty Lib.FirstWins Lib.XorFold

/-! ### What a server keeps -/

section Received

variable {V : Type} (entries entries0 entries1 : List (Pk × V))

/-- The map after a receive loop that checks nothing but the key: a known key is skipped. -/
def receivedMap : ShareMap V := collect (fun _ => true) entries

def receivedPks : Finset Pk := (entries.map Prod.fst).toFinset

/-- The first value that came with a key. -/
def firstReceived (pk : Pk) : Option V := (entries.find? fun e => e.1 = pk).map Prod.snd

/-- The keys that both servers received. -/
def sharedPks : Finset Pk := receivedPks entries0 ∩ receivedPks entries1

theorem lookup_receivedMap (pk : Pk) : (receivedMap entries).lookup pk = firstReceived entries pk := by
  rw [receivedMap, lookup_collect, firstReceived]
  simp

theorem mem_receivedMap (pk : Pk) : pk ∈ receivedMap entries ↔ pk ∈ receivedPks entries := by
  simp [receivedMap, mem_collect, receivedPks]

theorem keys_receivedMap : (receivedMap entries).keys.toFinset = receivedPks entries := by
  ext pk
  rw [List.mem_toFinset, ← AList.mem_keys, mem_receivedMap]

end Received

/-! ### Accumulating over the keys that both servers hold -/

section Matched

variable {V W : Type}

/-- The loop over the keys: the value of each flagged one is added. -/
def addMatched (add : W → V → Server W) (m : ShareMap V) (acc : W) (pks : List Pk) (valid : List Bool) : Server W :=
  (pks.zip valid).foldlM (fun acc x => if x.2 then (m.lookup x.1).elim (pure acc) (add acc) else pure acc) acc

/-- Server 1: its keys, the flags that come back, its word. -/
def matchedServer1 (add : W → V → Server W) (it : Iteration V) (m : ShareMap V) (zero : W) (msgOf : W → Msg) :
    Server Unit := do
  let pkList := (it.order m).map Sigma.fst
  sendMsg (.size pkList.length)
  sendPks pkList
  let otherValid ← recvBoolBatch pkList.length
  let b ← addMatched add m zero pkList otherValid
  sendMsg (msgOf b)

/-- Server 0: the number of valid keys, its own word and the other server's. -/
def matchedServer0 (add : W → V → Server W) (m : ShareMap V) (zero : W) (recvWord : Server W) :
    Server (ℕ × W × W) := do
  let numInputs ← recvSize
  let pks ← recvPks numInputs
  let valid := pks.map fun pk => decide (pk ∈ m)
  let a ← addMatched add m zero pks valid
  sendMsg (.boolBatch valid)
  let b ← recvWord
  return (valid.count true, a, b)

variable (add : W → V → W)

theorem addMatched_decide {step : W → V → Server W} (hstep : ∀ acc v, step acc v = .ret (add acc v)) (m : ShareMap V)
    (P : Pk → Prop) [DecidablePred P] (acc : W) (pks : List Pk) :
    addMatched step m acc pks (pks.map fun pk => decide (P pk)) =
      .ret ((pks.filter (P ·)).foldl (fun acc pk => (m.lookup pk).elim acc (add acc)) acc) := by
  induction pks generalizing acc with
  | nil => rfl
  | cons pk pks ih =>
    unfold addMatched at ih ⊢
    rw [List.map_cons, List.zip_cons_cons, List.foldlM_cons, List.filter_cons]
    by_cases hP : P pk
    · have hbody : (m.lookup pk).elim (pure acc) (step acc) = .ret ((m.lookup pk).elim acc (add acc)) := by
        cases m.lookup pk with
        | none => rfl
        | some v => exact hstep acc v
      simp only [hP, decide_true, if_true, List.foldl_cons, hbody, Proc.ret_bind]
      exact ih _
    · simp only [hP, decide_false, Bool.false_eq_true, if_false, Proc.pure_eq_ret, Proc.ret_bind]
      exact ih _

theorem addMatched_of_forall_not (step : W → V → Server W) (m : ShareMap V) (acc : W) {P : Pk → Prop}
    [DecidablePred P] {pks : List Pk} (h : ∀ pk ∈ pks, ¬ P pk) :
    addMatched step m acc pks (pks.map fun pk => decide (P pk)) = .ret acc := by
  unfold addMatched
  induction pks with
  | nil => rfl
  | cons pk pks ih =>
    have hpk : ¬ P pk := h pk List.mem_cons_self
    rw [List.map_cons, List.zip_cons_cons, List.foldlM_cons, decide_eq_false hpk]
    exact ih fun pk' hpk' => h pk' (List.mem_cons_of_mem pk hpk')

/-- With an `add` that does not end, the first flagged key is the last one. -/
theorem addMatched_loop {step : W → V → Server W} (hstep : ∀ acc v, step acc v = .loop) (m : ShareMap V)
    (acc : W) {pks : List Pk} (h : ∃ pk ∈ pks, pk ∈ m) :
    addMatched step m acc pks (pks.map fun pk => decide (pk ∈ m)) = .loop := by
  unfold addMatched
  induction pks with
  | nil =>
    obtain ⟨pk, hpk, -⟩ := h
    cases hpk
  | cons pk pks ih =>
    rw [List.map_cons, List.zip_cons_cons, List.foldlM_cons]
    by_cases hpk : pk ∈ m
    · obtain ⟨v, hv⟩ := Option.isSome_iff_exists.mp (AList.lookup_isSome.mpr hpk)
      rw [decide_eq_true hpk, if_pos rfl, hv, Option.elim_some, hstep]
      rfl
    · rw [decide_eq_false hpk]
      apply ih
      obtain ⟨pk', hmem, hpk'⟩ := h
      rcases List.mem_cons.mp hmem with rfl | hmem
      · exact absurd hpk' hpk
      · exact ⟨pk', hmem, hpk'⟩

/-- The keys that both servers hold, in server 1's order. -/
def matchedPks (it : Iteration V) (m0 m1 : ShareMap V) : List Pk := ((it.order m1).map Sigma.fst).filter (· ∈ m0)

/-- The words of the values of these keys. -/
def matchedSum (it : Iteration V) (m0 m1 : ShareMap V) (m : ShareMap V) (zero : W) : W :=
  (matchedPks it m0 m1).foldl (fun acc pk => (m.lookup pk).elim acc (add acc)) zero

theorem nodup_matchedPks (it : Iteration V) (m0 m1 : ShareMap V) : (matchedPks it m0 m1).Nodup :=
  (nodup_keys_iteration (it.perm m1)).filter _

theorem mem_matchedPks (it : Iteration V) (m0 m1 : ShareMap V) (pk : Pk) :
    pk ∈ matchedPks it m0 m1 ↔ pk ∈ m1 ∧ pk ∈ m0 := by
  rw [matchedPks, List.mem_filter, mem_keys_iteration (it.perm m1), decide_eq_true_iff]

theorem toFinset_matchedPks (it : Iteration V) (m0 m1 : ShareMap V) :
    (matchedPks it m0 m1).toFinset = m0.keys.toFinset ∩ m1.keys.toFinset := by
  ext pk
  rw [List.mem_toFinset, mem_matchedPks, mem_inter, List.mem_toFinset, List.mem_toFinset, AList.mem_keys,
    AList.mem_keys, and_comm]

/-- The flags of server 1's keys. -/
def matchedFlags (it : Iteration V) (m0 m1 : ShareMap V) : List Bool :=
  ((it.order m1).map Sigma.fst).map fun pk => decide (pk ∈ m0)

theorem matched_reaches_keys (step0 step1 : W → V → Server W) (it : Iteration V) (m0 m1 : ShareMap V) (zero : W)
    (msgOf : W → Msg) (recvWord : Server W) :
    let pkList := (it.order m1).map Sigma.fst
    let valid := matchedFlags it m0 m1
    Reaches (.start (matchedServer0 step0 m0 zero recvWord) (matchedServer1 step1 it m1 zero msgOf))
      (.start
        (addMatched step0 m0 zero pkList valid >>= fun a => sendMsg (.boolBatch valid) >>= fun _ =>
          recvWord >>= fun b => .ret (valid.count true, a, b))
        (recvBoolBatch pkList.length >>= fun otherValid => addMatched step1 m1 zero pkList otherValid >>= fun b =>
          sendMsg (msgOf b))) := by
  intro pkList valid
  refine Reaches.bind (reaches_recvAs10 rfl) ?_
  exact Reaches.bind (a := pkList) (b := ()) (reaches_pks10 pkList) (Reaches.refl _)

theorem matched_reaches_word {step0 step1 : W → V → Server W} (it : Iteration V) (m0 m1 : ShareMap V) (zero : W)
    {msgOf : W → Msg} {recvWord : Server W} {a b : W}
    (hsum0 : addMatched step0 m0 zero ((it.order m1).map Sigma.fst) (matchedFlags it m0 m1) = .ret a)
    (hsum1 : addMatched step1 m1 zero ((it.order m1).map Sigma.fst) (matchedFlags it m0 m1) = .ret b) :
    Reaches (.start (matchedServer0 step0 m0 zero recvWord) (matchedServer1 step1 it m1 zero msgOf))
      ⟨recvWord >>= fun b => .ret ((matchedPks it m0 m1).length, a, b), .ret (), [msgOf b], []⟩ := by
  have hcount : (matchedFlags it m0 m1).count true = (matchedPks it m0 m1).length := by
    rw [matchedFlags, List.count, List.countP_map, List.countP_eq_length_filter, matchedPks]
    simp [Function.comp_def]
  refine (matched_reaches_keys step0 step1 it m0 m1 zero msgOf recvWord).trans ?_
  rw [hsum0, hcount, Proc.ret_bind]
  refine Reaches.bind (a := ()) (reaches_recvAs01 (if_pos (List.length_map _))) ?_
  rw [hsum1, Proc.ret_bind]
  exact (Step.send1 (msgOf b) _ (.ret ()) [] []).reaches

theorem matched_reaches {step0 step1 : W → V → Server W} {add0 add1 : W → V → W}
    (hstep0 : ∀ acc v, step0 acc v = .ret (add0 acc v)) (hstep1 : ∀ acc v, step1 acc v = .ret (add1 acc v))
    (it : Iteration V) (m0 m1 : ShareMap V) (zero : W) {msgOf : W → Msg} {read : Msg → Option W}
    (hread : read (msgOf (matchedSum add1 it m0 m1 m1 zero)) = some (matchedSum add1 it m0 m1 m1 zero)) :
    Reaches (.start (matchedServer0 step0 m0 zero (recvAs read)) (matchedServer1 step1 it m1 zero msgOf))
      (.done ((matchedPks it m0 m1).length, matchedSum add0 it m0 m1 m0 zero, matchedSum add1 it m0 m1 m1 zero) ()) := by
  refine (matched_reaches_word it m0 m1 zero (addMatched_decide add0 hstep0 m0 (· ∈ m0) zero _)
    (addMatched_decide add1 hstep1 m1 (· ∈ m0) zero _)).trans ?_
  exact (reaches_recvAs_sent hread (.ret ())).bind_of
    (fun b => .ret ((matchedPks it m0 m1).length, matchedSum add0 it m0 m1 m0 zero, b)) .ret

theorem toFinset_matchedPks_receivedMap (it : Iteration V) (entries0 entries1 : List (Pk × V)) :
    (matchedPks it (receivedMap entries0) (receivedMap entries1)).toFinset = sharedPks entries0 entries1 := by
  rw [toFinset_matchedPks, keys_receivedMap, keys_receivedMap, sharedPks]

theorem length_matchedPks_receivedMap (it : Iteration V) (entries0 entries1 : List (Pk × V)) :
    (matchedPks it (receivedMap entries0) (receivedMap entries1)).length = (sharedPks entries0 entries1).card := by
  rw [← toFinset_matchedPks_receivedMap it, List.toFinset_card_of_nodup (nodup_matchedPks it _ _)]

end Matched

theorem matchedSum_xor (it : Iteration UInt64) (entries0 entries1 : List (Pk × UInt64)) (m : ShareMap UInt64) :
    matchedSum (· ^^^ ·) it (receivedMap entries0) (receivedMap entries1) m 0 =
      xorOver (sharedPks entries0 entries1) fun pk => (m.lookup pk).getD 0 := by
  have hstep : ∀ (acc : UInt64) (pk : Pk), (m.lookup pk).elim acc (acc ^^^ ·) = acc ^^^ (m.lookup pk).getD 0 := by
    intro acc pk
    cases m.lookup pk with
    | none => exact UInt64.xor_zero.symm
    | some v => rfl
  simp only [matchedSum, hstep]
  rw [foldl_xor_eq_xorOver (nodup_matchedPks it _ _), UInt64.zero_xor, toFinset_matchedPks_receivedMap]

/-! ### The operation -/

/-- What `xor_op` leaves behind: its return value, the count that server 0 reports, and `ans` where it is set. -/
structure XorOpResult where
  ret : ReturnType
  numValid : ℕ
  ans : Option Bool
deriving DecidableEq

/-- The answer read off the aggregate. Any other type ends in `error_exit`. -/
def xorAnswer : MessageType → UInt64 → Option Bool
  | .andOp, aggr => some (decide (aggr = 0))
  | .orOp, aggr => some (decide (aggr ≠ 0))
  | _, _ => none

/-- `xor_op`. -/
def xorOp (it : Iteration UInt64) (type : MessageType) (msg : InitMsg) (serverNum : ℕ)
    (submissions : Vector IntShare msg.numOfInputs.toNat) : Server XorOpResult :=
  let totalInputs := msg.numOfInputs.toNat
  let shareMap := receivedMap (submissions.toList.map IntShare.entry)
  if serverNum = 1 then do
    matchedServer1 (fun b x => return b ^^^ x) it shareMap 0 .uint64
    return { ret := .noAns, numValid := 0, ans := none }
  else do
    let (numValid, a, b) ← matchedServer0 (fun a x => return a ^^^ x) shareMap 0 recvUint64
    let aggr := a ^^^ b
    if belowThreshold numValid totalInputs then
      return { ret := .invalid, numValid := numValid, ans := none }
    else match xorAnswer type aggr with
      | some ans => return { ret := .ans, numValid := numValid, ans := some ans }
      | none => .stuck

/-! ### The run -/

section Run

variable (submissions0 submissions1 : List IntShare)

/-- The keys that both servers received. -/
def xorPks : Finset Pk := sharedPks (submissions0.map IntShare.entry) (submissions1.map IntShare.entry)

/-- The first share that a server received for a key. -/
def firstShare (submissions : List IntShare) (pk : Pk) : UInt64 :=
  (firstReceived (submissions.map IntShare.entry) pk).getD 0

/-- The xor over the common keys of what the first shares hide. -/
def xorAggregate : UInt64 :=
  xorOver (xorPks submissions0 submissions1) fun pk => firstShare submissions0 pk ^^^ firstShare submissions1 pk

/-- Server 0's result. -/
def xorOutcome (type : MessageType) (total : ℕ) : Option XorOpResult :=
  let numValid := (xorPks submissions0 submissions1).card
  if 2 * numValid < total then some { ret := .invalid, numValid := numValid, ans := none }
  else (xorAnswer type (xorAggregate submissions0 submissions1)).map fun ans =>
    { ret := .ans, numValid := numValid, ans := some ans }

end Run

theorem xorOp_terminates (it0 it1 : Iteration UInt64) (type : MessageType) (msg : InitMsg)
    (s0 s1 : Vector IntShare msg.numOfInputs.toNat) {r : XorOpResult}
    (hr : xorOutcome s0.toList s1.toList type msg.numOfInputs.toNat = some r) :
    Terminates (xorOp it0 type msg 0 s0) (xorOp it1 type msg 1 s1) r { ret := .noAns, numValid := 0, ans := none } := by
  let e0 := s0.toList.map IntShare.entry
  let e1 := s1.toList.map IntShare.entry
  apply Reaches.terminates
  have hstep : ∀ acc v : UInt64, (pure (acc ^^^ v) : Server UInt64) = .ret (acc ^^^ v) := fun _ _ => rfl
  refine Reaches.bind (matched_reaches hstep hstep it1 (receivedMap e0) (receivedMap e1) 0 rfl) ?_
  have haggr : xorOver (sharedPks e0 e1) (fun pk => ((receivedMap e0).lookup pk).getD 0) ^^^
      xorOver (sharedPks e0 e1) (fun pk => ((receivedMap e1).lookup pk).getD 0) =
      xorAggregate s0.toList s1.toList := by
    rw [← xorOver_xor]
    simp only [lookup_receivedMap]
    rfl
  have hcard : (sharedPks e0 e1).card = (xorPks s0.toList s1.toList).card := rfl
  simp only [matchedSum_xor, length_matchedPks_receivedMap, haggr, hcard]
  unfold xorOutcome at hr
  by_cases hlow : 2 * (xorPks s0.toList s1.toList).card < msg.numOfInputs.toNat
  · rw [if_pos hlow, Option.some_inj] at hr
    rw [if_pos ((belowThreshold_iff _ _).mpr hlow), hr]
    exact Reaches.refl _
  · rw [if_neg hlow] at hr
    rw [if_neg (mt (belowThreshold_iff _ _).mp hlow)]
    cases hans : xorAnswer type (xorAggregate s0.toList s1.toList) with
    | none => simp [hans] at hr
    | some ans =>
      rw [hans, Option.map_some, Option.some_inj] at hr
      simp only [hr]
      exact Reaches.refl _

/-! ### Answers -/

section Answers

variable (it0 it1 : Iteration UInt64) (type : MessageType) {msg : InitMsg}
  (s0 s1 : Vector IntShare msg.numOfInputs.toNat)

/-- Every schedule ends, and server 0 answers `ans`. -/
def XorOpAnswers (ans : Bool) : Prop :=
  ∃ r0 r1, Terminates (xorOp it0 type msg 0 s0) (xorOp it1 type msg 1 s1) r0 r1 ∧ r0.ret = .ans ∧ r0.ans = some ans

/-- Under every common key both servers keep the two shares that `xor_op_helper` made of one request. -/
def FromRequests (request : Pk → XorRequest) : Prop :=
  ∀ pk ∈ xorPks s0.toList s1.toList,
    firstShare s0.toList pk = ((request pk).shares type).1.val ∧
      firstShare s1.toList pk = ((request pk).shares type).2.val

variable {it0 it1 type s0 s1}

theorem xorOp_answers (hvalid : msg.numOfInputs.toNat ≤ 2 * (xorPks s0.toList s1.toList).card) {ans : Bool}
    (hans : xorAnswer type (xorAggregate s0.toList s1.toList) = some ans) : XorOpAnswers it0 it1 type s0 s1 ans := by
  refine ⟨_, _, xorOp_terminates it0 it1 type msg s0 s1
    (r := ⟨.ans, (xorPks s0.toList s1.toList).card, some ans⟩) ?_, rfl, rfl⟩
  rw [xorOutcome, if_neg (by omega), hans]
  rfl

theorem xorAggregate_eq_encoded {request : Pk → XorRequest} (hreq : FromRequests type s0 s1 request) :
    xorAggregate s0.toList s1.toList =
      xorOver (xorPks s0.toList s1.toList) fun pk => (request pk).encoded type := by
  apply xorOver_congr
  intro pk hpk
  obtain ⟨h0, h1⟩ := hreq pk hpk
  rw [h0, h1, XorRequest.xor_shares]

end Answers

theorem xorOp_spec (it0 it1 : Iteration UInt64) (msg : InitMsg) (s0 s1 : Vector IntShare msg.numOfInputs.toNat)
    (hvalid : msg.numOfInputs.toNat ≤ 2 * (xorPks s0.toList s1.toList).card) :
    XorOpAnswers it0 it1 .andOp s0 s1 (decide (xorAggregate s0.toList s1.toList = 0)) ∧
    XorOpAnswers it0 it1 .orOp s0 s1 (decide (xorAggregate s0.toList s1.toList ≠ 0)) ∧
    (∀ request, FromRequests .andOp s0 s1 request →
      (∀ pk ∈ xorPks s0.toList s1.toList, (request pk).value = true) → XorOpAnswers it0 it1 .andOp s0 s1 true) ∧
    (∀ request, FromRequests .orOp s0 s1 request →
      (∀ pk ∈ xorPks s0.toList s1.toList, (request pk).value = false) → XorOpAnswers it0 it1 .orOp s0 s1 false) ∧
    (∀ request, FromRequests .andOp s0 s1 request →
      ∀ pk ∈ xorPks s0.toList s1.toList, (request pk).value = false → (request pk).encoded .andOp ≠ 0 →
      (∀ pk' ∈ xorPks s0.toList s1.toList, pk' ≠ pk → (request pk').value = true) →
      XorOpAnswers it0 it1 .andOp s0 s1 false) ∧
    (∀ request, FromRequests .orOp s0 s1 request →
      ∀ pk ∈ xorPks s0.toList s1.toList, (request pk).value = true → (request pk).encoded .orOp ≠ 0 →
      (∀ pk' ∈ xorPks s0.toList s1.toList, pk' ≠ pk → (request pk').value = false) →
      XorOpAnswers it0 it1 .orOp s0 s1 true) := by
  refine ⟨xorOp_answers hvalid rfl, xorOp_answers hvalid rfl, ?_, ?_, ?_, ?_⟩
  · intro request hreq hall
    have hzero : xorAggregate s0.toList s1.toList = 0 := by
      rw [xorAggregate_eq_encoded hreq]
      exact xorOver_eq_zero fun pk hpk => XorRequest.encoded_andOp (hall pk hpk)
    exact xorOp_answers hvalid (by simp [xorAnswer, hzero])
  · intro request hreq hall
    have hzero : xorAggregate s0.toList s1.toList = 0 := by
      rw [xorAggregate_eq_encoded hreq]
      exact xorOver_eq_zero fun pk hpk => XorRequest.encoded_orOp (hall pk hpk)
    exact xorOp_answers hvalid (by simp [xorAnswer, hzero])
  · intro request hreq pk hpk _ hne hothers
    have hone : xorAggregate s0.toList s1.toList = (request pk).encoded .andOp := by
      rw [xorAggregate_eq_encoded hreq]
      exact xorOver_eq_single hpk fun pk' hpk' hother => XorRequest.encoded_andOp (hothers pk' hpk' hother)
    exact xorOp_answers hvalid (by simp [xorAnswer, hone, hne])
  · intro request hreq pk hpk _ hne hothers
    have hone : xorAggregate s0.toList s1.toList = (request pk).encoded .orOp := by
      rw [xorAggregate_eq_encoded hreq]
      exact xorOver_eq_single hpk fun pk' hpk' hother => XorRequest.encoded_orOp (hothers pk' hpk' hother)
    exact xorOp_answers hvalid (by simp [xorAnswer, hone, hne])

/-- A request whose value decides the answer of `AND`. -/
def opposingRequest : XorRequest := { value := false, random := 5, share0 := 3, pk := Vector.replicate 32 0 }

/-- Server 0 receives the request after a word under a key of its own. -/
def crossedInts0 : Vector IntShare 2 := #v[{ pk := Vector.replicate 32 1, val := 9 }, (opposingRequest.shares .andOp).1]

/-- Server 1 receives the request before a word under a key of its own. -/
def crossedInts1 : Vector IntShare 2 := #v[(opposingRequest.shares .andOp).2, { pk := Vector.replicate 32 2, val := 4 }]

theorem xorPks_crossedInts : xorPks crossedInts0.toList crossedInts1.toList = {opposingRequest.pk} := by decide

theorem xorOp_spec_crossed :
    @XorOpAnswers default default .andOp { numBits := 0, numOfInputs := 2, maxInp := 0 } crossedInts0 crossedInts1
      false := by
  obtain ⟨-, -, -, -, hand, -⟩ := xorOp_spec default default { numBits := 0, numOfInputs := 2, maxInp := 0 }
    crossedInts0 crossedInts1 (by decide)
  refine hand (fun _ => opposingRequest) ?_ opposingRequest.pk (by decide) rfl (by decide) ?_
  · intro pk hpk
    rw [xorPks_crossedInts, mem_singleton] at hpk
    rw [hpk]
    exact ⟨by decide, by decide⟩
  · intro pk hpk hne
    rw [xorPks_crossedInts, mem_singleton] at hpk
    exact absurd hpk hne

end PrioPlus

import PrioPlus.Client.PublicKeys
import PrioPlus.Lib.XorMask
import PrioPlus.Server.Messages

/-!
# What `AND` and `OR` reveal

The clients draw their words at random and the servers follow the protocol. Server 0, together with any set of clients,
then sees the same of two assignments of values to the other clients whenever both or neither have one that decides the
answer, and server 1 sees the same of any two (`xorOp_private`). This takes the keys as drawn apart from the words, as
they are when every client is made by a call of its own and not when a call makes several (`draws_disjoint_iff`). The
answer is wrong for one in `2 ^ 64` of the draws when some value decides it, and never otherwise (`xorOp_failures`).
-/

namespace PrioPlus

open Finset Function Lib.TwoParty Lib.FirstWins Lib.XorFold Lib.XorMask Lib.Views

/-- The order of a `std::unordered_map` comes from the hashes of the keys and the order of their insertion. -/
def Iteration.ByKeys {V : Type} (it : Iteration V) : Prop :=
  ∀ m m' : ShareMap V, m.keys = m'.keys → (it.order m).map Sigma.fst = (it.order m').map Sigma.fst

theorem Iteration.byKeys_default {V : Type} : (default : Iteration V).ByKeys := fun _ _ h => h

/-! ### One submission of each client -/

section Honest

variable {V : Type} {n : ℕ} {pks : Fin n → Pk}

/-- The submissions in the order of the clients. -/
def honestEntries (pks : Fin n → Pk) (f : Fin n → V) : List (Pk × V) := List.ofFn fun i => (pks i, f i)

theorem receivedPks_honestEntries (f : Fin n → V) : receivedPks (honestEntries pks f) = univ.image pks := by
  ext pk
  simp [receivedPks, honestEntries, List.mem_ofFn]

theorem sharedPks_honestEntries (f g : Fin n → V) :
    sharedPks (honestEntries pks f) (honestEntries pks g) = univ.image pks := by
  rw [sharedPks, receivedPks_honestEntries, receivedPks_honestEntries, inter_self]

theorem keys_receivedMap_honestEntries (f g : Fin n → V) :
    (receivedMap (honestEntries pks f)).keys = (receivedMap (honestEntries pks g)).keys := by
  apply keys_collect_congr
  simp [honestEntries, List.map_ofFn, comp_def]

theorem firstReceived_honestEntries (hpks : Injective pks) (f : Fin n → V) (i : Fin n) :
    firstReceived (honestEntries pks f) (pks i) = some (f i) := by
  have hnodup : ((honestEntries pks f).map Prod.fst).Nodup := by
    rw [honestEntries, List.map_ofFn]
    exact List.nodup_ofFn.mpr hpks
  have hmem : (pks i, f i) ∈ honestEntries pks f := List.mem_ofFn.mpr ⟨i, rfl⟩
  have hfirst := find?_eq_some_of_nodup hnodup (fun _ => true) hmem rfl
  simp only [and_true] at hfirst
  rw [firstReceived, hfirst]
  rfl

theorem matchedFlags_honest (it : Iteration V) {m0 m1 : ShareMap V} (h : m0.keys = m1.keys) :
    matchedFlags it m0 m1 = List.replicate (it.order m1).length true := by
  rw [List.eq_replicate_iff, matchedFlags, List.length_map, List.length_map]
  refine ⟨rfl, fun b hb => ?_⟩
  obtain ⟨pk, hpk, rfl⟩ := List.mem_map.mp hb
  rw [mem_keys_iteration (it.perm m1), AList.mem_keys, ← h, ← AList.mem_keys] at hpk
  exact decide_eq_true hpk

end Honest

/-! ### The clients of `xor_op` -/

/-- The words that the clients draw: one for an encoding that decides the answer, and a share. -/
abbrev XorDraws (n : ℕ) := (Fin n → UInt64) × (Fin n → UInt64)

section Clients

variable {n : ℕ} (type : MessageType) (pks : Fin n → Pk) (values : Fin n → Bool) (draws : XorDraws n)

/-- What `xor_op_helper` makes of each client. -/
def xorRequests (i : Fin n) : XorRequest := ⟨values i, draws.1 i, draws.2 i, pks i⟩

/-- What the clients send to server 0. -/
def xorShares0 : Vector IntShare n := Vector.ofFn fun i => ((xorRequests pks values draws i).shares type).1

/-- What the clients send to server 1. -/
def xorShares1 : Vector IntShare n := Vector.ofFn fun i => ((xorRequests pks values draws i).shares type).2

/-- The value of a client decides the answer. -/
def decides (value : Bool) : Bool :=
  match type with
  | .andOp => !value
  | .orOp => value
  | _ => true

def deciding : Finset (Fin n) := univ.filter fun i => decides type (values i)

theorem deciding_nonempty : (deciding type values).Nonempty ↔ ∃ i, decides type (values i) = true := by
  simp [deciding, Finset.Nonempty]

/-- The `AND` or the `OR` of the values. -/
def xorOpTruth : Bool :=
  match type with
  | .andOp => decide (∀ i, values i = true)
  | _ => decide (∃ i, values i = true)

/-- What a coalition of clients knows: its requests. -/
def coalitionRequests (coalition : Finset (Fin n)) (i : coalition) : XorRequest := xorRequests pks values draws i

theorem encoded_eq (r : XorRequest) : r.encoded type = if decides type r.value then r.random else 0 := by
  cases type <;> cases h : r.value <;> simp [XorRequest.encoded, decides, h]

theorem entry_xorShares0 : (xorShares0 type pks values draws).toList.map IntShare.entry =
    honestEntries pks draws.2 := by
  rw [xorShares0, Vector.toList_ofFn, List.map_ofFn, honestEntries]
  rfl

theorem entry_xorShares1 : (xorShares1 type pks values draws).toList.map IntShare.entry =
    honestEntries pks fun i => draws.2 i ^^^ (xorRequests pks values draws i).encoded type := by
  rw [xorShares1, Vector.toList_ofFn, List.map_ofFn, honestEntries]
  rfl

theorem xorOver_encoded :
    xorOver univ (fun i => (xorRequests pks values draws i).encoded type) = xorOver (deciding type values) draws.1 := by
  rw [deciding, xorOver_filter]
  exact xorOver_congr fun i _ => encoded_eq type _

variable {pks}

theorem xorAggregate_honest (hpks : Injective pks) :
    xorAggregate (xorShares0 type pks values draws).toList (xorShares1 type pks values draws).toList =
      xorOver (deciding type values) draws.1 := by
  rw [xorAggregate, xorPks, entry_xorShares0, entry_xorShares1, sharedPks_honestEntries, xorOver_image hpks,
    ← xorOver_encoded type pks]
  apply xorOver_congr
  intro i _
  simp only [comp_apply, firstShare, entry_xorShares0, entry_xorShares1, firstReceived_honestEntries hpks,
    Option.getD_some]
  rw [← UInt64.xor_assoc, UInt64.xor_self, UInt64.zero_xor]

theorem card_xorPks_honest (hpks : Injective pks) :
    (xorPks (xorShares0 type pks values draws).toList (xorShares1 type pks values draws).toList).card = n := by
  rw [xorPks, entry_xorShares0, entry_xorShares1, sharedPks_honestEntries, card_image_of_injective _ hpks, card_univ,
    Fintype.card_fin]

end Clients

/-! ### Wrong answers -/

section Failures

variable {it0 it1 : Iteration UInt64} {type : MessageType} {msg : InitMsg}

theorem XorOpAnswers.unique {s0 s1 : Vector IntShare msg.numOfInputs.toNat} {ans ans' : Bool}
    (h : XorOpAnswers it0 it1 type s0 s1 ans) (h' : XorOpAnswers it0 it1 type s0 s1 ans') : ans = ans' := by
  obtain ⟨r0, r1, hterm, -, hans⟩ := h
  obtain ⟨r0', r1', hterm', -, hans'⟩ := h'
  obtain ⟨rfl, rfl⟩ := hterm.unique hterm'
  exact Option.some_inj.mp (hans.symm.trans hans')

theorem not_xorOpAnswers_iff (htype : type = .andOp ∨ type = .orOp) {pks : Fin msg.numOfInputs.toNat → Pk}
    (hpks : Injective pks) (values : Fin msg.numOfInputs.toNat → Bool) (draws : XorDraws msg.numOfInputs.toNat) :
    ¬ XorOpAnswers it0 it1 type (xorShares0 type pks values draws) (xorShares1 type pks values draws)
        (xorOpTruth type values) ↔
      (deciding type values).Nonempty ∧ xorOver (deciding type values) draws.1 = 0 := by
  let aggr := xorOver (deciding type values) draws.1
  have hvalid : msg.numOfInputs.toNat ≤
      2 * (xorPks (xorShares0 type pks values draws).toList (xorShares1 type pks values draws).toList).card := by
    rw [card_xorPks_honest type values draws hpks]
    omega
  have hzero : ¬ (deciding type values).Nonempty → aggr = 0 := by
    intro hempty
    show xorOver _ _ = 0
    rw [not_nonempty_iff_eq_empty.mp hempty]
    rfl
  obtain ⟨ans, hans, hiff⟩ : ∃ ans, xorAnswer type aggr = some ans ∧
      (ans = xorOpTruth type values ↔ ¬ ((deciding type values).Nonempty ∧ aggr = 0)) := by
    rcases htype with rfl | rfl
    · refine ⟨_, rfl, ?_⟩
      have htruth : (∀ i, values i = true) ↔ ¬ (deciding .andOp values).Nonempty := by
        simp [deciding_nonempty, decides]
      show decide (aggr = 0) = decide (∀ i, values i = true) ↔ _
      rw [decide_eq_decide, htruth]
      tauto
    · refine ⟨_, rfl, ?_⟩
      have htruth : (∃ i, values i = true) ↔ (deciding .orOp values).Nonempty := (deciding_nonempty .orOp values).symm
      show decide (aggr ≠ 0) = decide (∃ i, values i = true) ↔ _
      rw [decide_eq_decide, htruth]
      tauto
  have hrun : XorOpAnswers it0 it1 type (xorShares0 type pks values draws) (xorShares1 type pks values draws) ans :=
    xorOp_answers hvalid (by rw [xorAggregate_honest type values draws hpks]; exact hans)
  rw [← not_iff_not, not_not, ← hiff]
  constructor
  · exact fun h => hrun.unique h
  · rintro rfl
    exact hrun

open Classical in
/-- The number of draws with which the answer is wrong. -/
noncomputable def xorWrong (it0 it1 : Iteration UInt64) (type : MessageType) (msg : InitMsg)
    (pks : Fin msg.numOfInputs.toNat → Pk) (values : Fin msg.numOfInputs.toNat → Bool) : ℕ :=
  (univ.filter fun draws : XorDraws msg.numOfInputs.toNat => ¬ XorOpAnswers it0 it1 type
    (xorShares0 type pks values draws) (xorShares1 type pks values draws) (xorOpTruth type values)).card

/-- One draw in `2 ^ 64` gives a wrong answer, when some client decides it. -/
theorem xorOp_failures (it0 it1 : Iteration UInt64) (htype : type = .andOp ∨ type = .orOp)
    {pks : Fin msg.numOfInputs.toNat → Pk} (hpks : Injective pks) (values : Fin msg.numOfInputs.toNat → Bool) :
    2 ^ 64 * xorWrong it0 it1 type msg pks values =
      if ∃ i, decides type (values i) = true then Fintype.card (XorDraws msg.numOfInputs.toNat) else 0 := by
  simp only [xorWrong, not_xorOpAnswers_iff htype hpks, ← deciding_nonempty]
  split_ifs with hsome
  · obtain ⟨p, hp⟩ := hsome
    have hnonempty : (deciding type values).Nonempty := ⟨p, hp⟩
    simp only [hnonempty, true_and]
    refine two_pow_mul_hits (fun draws : XorDraws _ => xorOver (deciding type values) draws.1)
      (fun d draws => (shiftAt p d draws.1, draws.2)) (fun d draws draws' h => ?_)
      (fun d draws => xorOver_shiftAt hp d draws.1) 0
    obtain ⟨hrandom, hshare⟩ := Prod.mk.inj h
    exact Prod.ext (LeftInverse.injective (shiftAt_shiftAt p d) hrandom) hshare
  · simp [hsome]

/-- Two clients and their keys. -/
def twoBitsMsg : InitMsg := { numBits := 0, numOfInputs := 2, maxInp := 0 }

def twoKeys (i : Fin twoBitsMsg.numOfInputs.toNat) : Pk := Vector.replicate 32 (UInt8.ofNat i)

theorem xorOp_failures_allFalse :
    2 ^ 64 * xorWrong default default .andOp twoBitsMsg twoKeys (fun _ => false) =
      Fintype.card (XorDraws twoBitsMsg.numOfInputs.toNat) := by
  have hsome : ∃ i : Fin twoBitsMsg.numOfInputs.toNat, decides .andOp false = true := ⟨⟨0, by decide⟩, rfl⟩
  have hkeys : Injective twoKeys := by decide
  exact (xorOp_failures default default (Or.inl rfl) hkeys fun _ => false).trans (if_pos hsome)

end Failures

/-! ### The messages of a run -/

section Run

variable (it0 it1 : Iteration UInt64) {type : MessageType} {msg : InitMsg}
  (s0 s1 : Vector IntShare msg.numOfInputs.toNat)

/-- The map of a server. -/
def xorMap (submissions : List IntShare) : ShareMap UInt64 := receivedMap (submissions.map IntShare.entry)

/-- The keys in the order of server 1, and the xor of its shares. -/
def xorToServer0 (submissions0 submissions1 : List IntShare) : List Msg :=
  matchedToServer0 it1 (xorMap submissions1)
    (.uint64 (xorOver (xorPks submissions0 submissions1) (firstShare submissions1)))

def xorToServer1 (submissions0 submissions1 : List IntShare) : List Msg :=
  matchedToServer1 it1 (xorMap submissions0) (xorMap submissions1)

theorem addMatched_xor (submissions : List IntShare) :
    addMatched (fun acc v => return acc ^^^ v) (xorMap submissions) 0 ((it1.order (xorMap s1.toList)).map Sigma.fst)
        (matchedFlags it1 (xorMap s0.toList) (xorMap s1.toList)) =
      .ret (xorOver (xorPks s0.toList s1.toList) (firstShare submissions)) := by
  have hsum := matchedSum_xor it1 (s0.toList.map IntShare.entry) (s1.toList.map IntShare.entry) (xorMap submissions)
  have hword : (fun pk => ((xorMap submissions).lookup pk).getD 0) = firstShare submissions := by
    funext pk
    rw [xorMap, lookup_receivedMap, firstShare]
  rw [hword] at hsum
  rw [xorPks, ← hsum]
  exact addMatched_decide (· ^^^ ·) (fun _ _ => rfl) (xorMap submissions) (· ∈ xorMap s0.toList) 0 _

theorem xorOp_transcript (htype : type = .andOp ∨ type = .orOp) :
    ∃ r0 r1, Transcript (xorOp it0 type msg 0 s0) (xorOp it1 type msg 1 s1) (xorToServer0 it1 s0.toList s1.toList)
      (xorToServer1 it1 s0.toList s1.toList) r0 r1 := by
  have hsome : ∀ aggr, ∃ ans, xorAnswer type aggr = some ans := by
    rcases htype with rfl | rfl
    · exact fun aggr => ⟨_, rfl⟩
    · exact fun aggr => ⟨_, rfl⟩
  obtain ⟨r, hr⟩ : ∃ r, xorOutcome s0.toList s1.toList type msg.numOfInputs.toNat = some r := by
    obtain ⟨ans, hans⟩ := hsome (xorAggregate s0.toList s1.toList)
    simp only [xorOutcome, hans, Option.map_some]
    split_ifs
    · exact ⟨_, rfl⟩
    · exact ⟨_, rfl⟩
  let count := (matchedFlags it1 (xorMap s0.toList) (xorMap s1.toList)).count true
  let a := xorOver (xorPks s0.toList s1.toList) (firstShare s0.toList)
  let b := xorOver (xorPks s0.toList s1.toList) (firstShare s1.toList)
  obtain ⟨ans, hans⟩ := hsome (a ^^^ b)
  have h0 : Plays (matchedServer0 (fun acc v => return acc ^^^ v) (xorMap s0.toList) 0 recvUint64)
      (xorToServer0 it1 s0.toList s1.toList) (xorToServer1 it1 s0.toList s1.toList) (count, a, b) :=
    plays_matchedServer0 it1 _ _ (addMatched_xor it1 s0 s1 s0.toList) rfl
  have h1 : Plays (matchedServer1 (fun acc v => return acc ^^^ v) it1 (xorMap s1.toList) 0 .uint64)
      (xorToServer1 it1 s0.toList s1.toList) (xorToServer0 it1 s0.toList s1.toList) () :=
    plays_matchedServer1 it1 _ _ (addMatched_xor it1 s0 s1 s1.toList)
  let r0 : XorOpResult :=
    if belowThreshold count msg.numOfInputs.toNat then ⟨.invalid, count, none⟩ else ⟨.ans, count, some ans⟩
  have hret : Plays (xorOp it0 type msg 0 s0) (xorToServer0 it1 s0.toList s1.toList)
      (xorToServer1 it1 s0.toList s1.toList) r0 := by
    refine h0.bind_ret ?_
    show (if _ then _ else _ : Server XorOpResult) = .ret (if _ then _ else _)
    simp only [hans]
    split_ifs
    · rfl
    · rfl
  exact ⟨r, _, (xorOp_terminates it0 it1 type msg s0 s1 hr).transcript hret (h1.bind_ret rfl)⟩

end Run

/-! ### Two assignments of values -/

section Views

variable {it : Iteration UInt64} {n : ℕ} {type : MessageType} {pks : Fin n → Pk}

theorem matchedToServer0_congr {V : Type} {it : Iteration V} (hit : it.ByKeys) {m m' : ShareMap V}
    (h : m.keys = m'.keys)
    (word : Msg) : matchedToServer0 it m word = matchedToServer0 it m' word := by
  have horder := hit m m' h
  have hlen : (it.order m).length = (it.order m').length := by
    rw [← List.length_map Sigma.fst, horder, List.length_map]
  have hpks : ((it.order m).map fun e => Msg.pk e.1) = (it.order m').map fun e => Msg.pk e.1 := by
    have hmap := congrArg (List.map Msg.pk) horder
    rwa [List.map_map, List.map_map] at hmap
  rw [matchedToServer0, matchedToServer0, hlen, hpks]

theorem xorWord_honest (hpks : Injective pks) (values : Fin n → Bool) (draws : XorDraws n) :
    xorOver (xorPks (xorShares0 type pks values draws).toList (xorShares1 type pks values draws).toList)
        (firstShare (xorShares1 type pks values draws).toList) =
      xorOver univ draws.2 ^^^ xorOver (deciding type values) draws.1 := by
  rw [xorPks, entry_xorShares0, entry_xorShares1, sharedPks_honestEntries, xorOver_image hpks,
    ← xorOver_encoded type pks,
    ← xorOver_xor]
  apply xorOver_congr
  intro i _
  rw [comp_apply, firstShare, entry_xorShares1, firstReceived_honestEntries hpks, Option.getD_some]

theorem xorToServer0_honest (hit : it.ByKeys) (hpks : Injective pks) {values values' : Fin n → Bool}
    {draws draws' : XorDraws n}
    (hshare : draws'.2 = draws.2)
    (hword : xorOver (deciding type values') draws'.1 = xorOver (deciding type values) draws.1) :
    xorToServer0 it (xorShares0 type pks values' draws').toList (xorShares1 type pks values' draws').toList =
      xorToServer0 it (xorShares0 type pks values draws).toList (xorShares1 type pks values draws).toList := by
  have hkeys : (xorMap (xorShares1 type pks values' draws').toList).keys =
      (xorMap (xorShares1 type pks values draws).toList).keys := by
    rw [xorMap, xorMap, entry_xorShares1, entry_xorShares1, keys_receivedMap_honestEntries]
  rw [xorToServer0, xorToServer0, matchedToServer0_congr hit hkeys, xorWord_honest hpks, xorWord_honest hpks, hshare,
    hword]

theorem xorToServer1_honest (it : Iteration UInt64) (values : Fin n → Bool) (draws : XorDraws n) :
    xorToServer1 it (xorShares0 type pks values draws).toList (xorShares1 type pks values draws).toList =
      [.boolBatch (List.replicate (univ.image pks).card true)] := by
  have hkeys : (xorMap (xorShares0 type pks values draws).toList).keys =
      (xorMap (xorShares1 type pks values draws).toList).keys := by
    rw [xorMap, xorMap, entry_xorShares0, entry_xorShares1, keys_receivedMap_honestEntries]
  have hcard : (xorMap (xorShares1 type pks values draws).toList).entries.length = (univ.image pks).card := by
    have hkeys1 := keys_receivedMap
      (honestEntries pks fun i => draws.2 i ^^^ (xorRequests pks values draws i).encoded type)
    rw [receivedPks_honestEntries] at hkeys1
    rw [xorMap, entry_xorShares1, ← hkeys1, List.toFinset_card_of_nodup (AList.keys_nodup _), AList.keys, List.keys,
      List.length_map]
  rw [xorToServer1, matchedToServer1, matchedFlags_honest it hkeys, it.length_order, hcard]

/-- The words of the deciding clients outside the coalition are moved to those of the other assignment. -/
theorem exists_redraw0 (coalition : Finset (Fin n)) {values values' : Fin n → Bool}
    (hsame : ∀ i ∈ coalition, values i = values' i)
    (hleak : (∃ i ∉ coalition, decides type (values i) = true) ↔ ∃ i ∉ coalition, decides type (values' i) = true) :
    ∃ e : XorDraws n → XorDraws n, Injective e ∧ ∀ draws, (e draws).2 = draws.2 ∧
      xorOver (deciding type values') (e draws).1 = xorOver (deciding type values) draws.1 ∧
      ∀ i ∈ coalition, (e draws).1 i = draws.1 i := by
  have hmem (v : Fin n → Bool) : (deciding type v \ coalition).Nonempty ↔
      ∃ i ∉ coalition, decides type (v i) = true := by
    simp [deciding, Finset.Nonempty, and_comm]
  have hinter : deciding type values' ∩ coalition = deciding type values ∩ coalition := by
    ext i
    simp only [deciding, mem_inter, mem_filter, mem_univ, true_and, and_congr_left_iff]
    intro hi
    rw [hsame i hi]
  obtain ⟨e, hinj, hxor, hrest⟩ := exists_remask ((hmem values).trans (hleak.trans (hmem values').symm))
  have hfix : ∀ r, ∀ i ∈ coalition, e r i = r i := fun r i hi =>
    hrest r i (fun h => (mem_sdiff.mp h).2 hi) fun h => (mem_sdiff.mp h).2 hi
  refine ⟨fun draws => (e draws.1, draws.2), ?_, fun draws => ⟨rfl, ?_, hfix draws.1⟩⟩
  · exact fun d d' h => Prod.ext (hinj (Prod.mk.inj h).1) (Prod.mk.inj h).2
  · rw [xorOver_sdiff _ coalition, xorOver_sdiff (deciding type values) coalition, hxor, hinter]
    congr 1
    exact xorOver_congr fun i hi => hfix draws.1 i (mem_inter.mp hi).2

/-- The shares absorb the change of the encodings. -/
theorem exists_redraw1 (type : MessageType) (pks : Fin n → Pk) (coalition : Finset (Fin n))
    {values values' : Fin n → Bool}
    (hsame : ∀ i ∈ coalition, values i = values' i) :
    ∃ e : XorDraws n → XorDraws n, Injective e ∧ ∀ draws,
      xorShares1 type pks values' (e draws) = xorShares1 type pks values draws ∧
      ∀ i ∈ coalition, xorRequests pks values' (e draws) i = xorRequests pks values draws i := by
  let change (r : Fin n → UInt64) (i : Fin n) : UInt64 :=
    (xorRequests pks values (r, 0) i).encoded type ^^^ (xorRequests pks values' (r, 0) i).encoded type
  have henc (v : Fin n → Bool) (draws : XorDraws n) (i : Fin n) :
      (xorRequests pks v draws i).encoded type = (xorRequests pks v (draws.1, 0) i).encoded type := by
    rw [encoded_eq, encoded_eq]
    rfl
  refine ⟨fun draws => (draws.1, fun i => draws.2 i ^^^ change draws.1 i), ?_, fun draws => ⟨?_, fun i hi => ?_⟩⟩
  · rintro ⟨r, s⟩ ⟨r', s'⟩ h
    obtain ⟨rfl, hs⟩ := Prod.mk.inj h
    refine Prod.ext rfl (funext fun i => ?_)
    exact (UInt64.xor_left_inj (change r i)).mp (congrFun hs i)
  · unfold xorShares1
    congr 1
    funext i
    show IntShare.mk (pks i) _ = IntShare.mk (pks i) _
    congr 1
    show (draws.2 i ^^^ change draws.1 i) ^^^ (xorRequests pks values' (draws.1, _) i).encoded type =
      draws.2 i ^^^ (xorRequests pks values draws i).encoded type
    rw [henc values', henc values, UInt64.xor_assoc]
    show draws.2 i ^^^ ((_ ^^^ _) ^^^ _) = _
    rw [UInt64.xor_assoc, UInt64.xor_self, UInt64.xor_zero]
  · have hchange : change draws.1 i = 0 := by
      show _ ^^^ _ = _
      rw [encoded_eq, encoded_eq]
      simp only [xorRequests, hsame i hi]
      exact UInt64.xor_self
    show XorRequest.mk _ _ (draws.2 i ^^^ change draws.1 i) _ = XorRequest.mk _ _ _ _
    rw [hchange, UInt64.xor_zero, hsame i hi]

theorem xorOp_reveals0 (hit : it.ByKeys) (type : MessageType) (hpks : Injective pks) (coalition : Finset (Fin n)) :
    RevealsOnly
      (fun values draws => (xorShares0 type pks values draws,
        xorToServer0 it (xorShares0 type pks values draws).toList (xorShares1 type pks values draws).toList,
        coalitionRequests pks values draws coalition))
      fun values => (fun i : coalition => values i, decide (∃ i ∉ coalition, decides type (values i) = true)) := by
  apply RevealsOnly.of_injective
  intro values values' hleak
  obtain ⟨hvalues, hdecided⟩ := Prod.mk.inj hleak
  have hsame : ∀ i ∈ coalition, values i = values' i := fun i hi => congrFun hvalues ⟨i, hi⟩
  obtain ⟨e, hinj, he⟩ := exists_redraw0 coalition hsame (decide_eq_decide.mp hdecided)
  refine ⟨e, hinj, fun draws => ?_⟩
  obtain ⟨hshare, hword, hrandom⟩ := he draws
  refine Prod.ext ?_ (Prod.ext (xorToServer0_honest hit hpks hshare hword) (funext fun i => ?_))
  · show Vector.ofFn (fun i => IntShare.mk (pks i) ((e draws).2 i)) =
      Vector.ofFn fun i => IntShare.mk (pks i) (draws.2 i)
    rw [hshare]
  · show XorRequest.mk _ _ _ _ = XorRequest.mk _ _ _ _
    rw [← hsame i i.2, hrandom i i.2, hshare]

theorem xorOp_reveals1 (it : Iteration UInt64) (type : MessageType) (pks : Fin n → Pk) (coalition : Finset (Fin n)) :
    RevealsOnly
      (fun values draws => (xorShares1 type pks values draws,
        xorToServer1 it (xorShares0 type pks values draws).toList (xorShares1 type pks values draws).toList,
        coalitionRequests pks values draws coalition))
      fun values => fun i : coalition => values i := by
  apply RevealsOnly.of_injective
  intro values values' hleak
  obtain ⟨e, hinj, he⟩ := exists_redraw1 type pks coalition fun i hi => congrFun hleak ⟨i, hi⟩
  refine ⟨e, hinj, fun draws => ?_⟩
  obtain ⟨hshares, hrequests⟩ := he draws
  refine Prod.ext hshares (Prod.ext ?_ (funext fun i => hrequests i i.2))
  exact (xorToServer1_honest it values' (e draws)).trans (xorToServer1_honest it values draws).symm

end Views

/-- What the clients draw: the blocks of their keys, and their words. A client that has a generator of its own draws
them apart. -/
abbrev KeyedXorDraws (n : ℕ) := KeyBlocks n × XorDraws n

/-- `to0` and `to1` are what the servers read. With it and the requests of the coalition, server 0 learns whether some
other client decides the answer, and server 1 learns nothing. -/
structure XorOpPrivate (it0 it1 : Iteration UInt64) (type : MessageType) (msg : InitMsg)
    (coalition : Finset (Fin msg.numOfInputs.toNat))
    (to0 to1 : (Fin msg.numOfInputs.toNat → Bool) → KeyedXorDraws msg.numOfInputs.toNat → List Msg) : Prop where
  run : ∀ values draws, ∃ r0 r1, Transcript (xorOp it0 type msg 0 (xorShares0 type (clientKeys draws.1) values draws.2))
    (xorOp it1 type msg 1 (xorShares1 type (clientKeys draws.1) values draws.2)) (to0 values draws) (to1 values draws)
    r0 r1
  server0 : RevealsOnly
    (fun values draws => (xorShares0 type (clientKeys draws.1) values draws.2, to0 values draws,
      coalitionRequests (clientKeys draws.1) values draws.2 coalition))
    fun values => (fun i : coalition => values i, decide (∃ i ∉ coalition, decides type (values i) = true))
  server1 : RevealsOnly
    (fun values draws => (xorShares1 type (clientKeys draws.1) values draws.2, to1 values draws,
      coalitionRequests (clientKeys draws.1) values draws.2 coalition))
    fun values => fun i : coalition => values i

theorem xorOp_private (it0 : Iteration UInt64) {it1 : Iteration UInt64} (hit : it1.ByKeys) {type : MessageType}
    (htype : type = .andOp ∨ type = .orOp) (msg : InitMsg) (coalition : Finset (Fin msg.numOfInputs.toNat)) :
    ∃ to0 to1, XorOpPrivate it0 it1 type msg coalition to0 to1 := by
  refine ⟨_, _, fun values draws => xorOp_transcript it0 it1 _ _ htype, ?_, ?_⟩
  · exact RevealsOnly.of_fst fun blocks => xorOp_reveals0 hit type (clientKeys_injective blocks) coalition
  · exact RevealsOnly.of_fst fun blocks => xorOp_reveals1 it1 type (clientKeys blocks) coalition

theorem xorOp_private_firstClient :
    ∃ to0 to1, XorOpPrivate default default .andOp twoBitsMsg {⟨0, by decide⟩} to0 to1 :=
  xorOp_private default Iteration.byKeys_default (Or.inl rfl) twoBitsMsg _

end PrioPlus

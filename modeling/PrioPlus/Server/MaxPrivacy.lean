import PrioPlus.Server.MaxOp
import PrioPlus.Server.XorPrivacy

/-!
# What `MAX` and `MIN` reveal

A slot of the arrays adds up to the xor of the random words of the clients whose encoding reaches it. So server 0,
together with any set of clients, learns the highest index that the encodings of the others reach, which is their
maximum or what `MIN` makes of their minimum, and nothing else; server 1 learns nothing (`maxOp_private`). The answer is
wrong, or the scan runs out of the arrays, for exactly one in `2 ^ 64` of the draws (`maxOp_failures`).
-/

namespace PrioPlus

open Finset Function Lib.TwoParty Lib.FirstWins Lib.XorFold Lib.XorMask Lib.Views

/-- The words that the clients draw for each slot: one for the encoding, and a share. -/
abbrev MaxDraws (n : ℕ) (B : UInt32) :=
  (Fin n → Fin (B + 1).toNat → UInt64) × (Fin n → Fin (B + 1).toNat → UInt64)

section Clients

variable {n : ℕ} {B : UInt32} (type : MessageType) (pks : Fin n → Pk) (inputs : Fin n → UInt64) (draws : MaxDraws n B)

/-- What `max_op_helper` makes of each client, from the word that gives its value. -/
def maxRequests (i : Fin n) : MaxRequest B :=
  ⟨inputs i, Vector.ofFn (draws.1 i), Vector.ofFn (draws.2 i), pks i, pks i⟩

/-- What the clients send to server 0. -/
def maxSubmissions0 : Vector (MaxShare B) n := Vector.ofFn fun i => ((maxRequests pks inputs draws i).shares type).1

/-- What the clients send to server 1. -/
def maxSubmissions1 : Vector (MaxShare B) n := Vector.ofFn fun i => ((maxRequests pks inputs draws i).shares type).2

/-- The index up to which the encoding of a client is random. -/
def inputTop (B : UInt32) (input : UInt64) : ℕ :=
  ((⟨input, Vector.replicate _ 0, Vector.replicate _ 0, default, default⟩ : MaxRequest B).top type).toNat

/-- The clients whose encodings reach a slot. -/
def reaching (B : UInt32) (j : ℕ) : Finset (Fin n) := univ.filter fun i => j ≤ inputTop type B (inputs i)

/-- What a coalition of clients knows: its requests. -/
def coalitionMaxRequests (coalition : Finset (Fin n)) (i : coalition) : MaxRequest B := maxRequests pks inputs draws i

theorem top_maxRequests (i : Fin n) : ((maxRequests pks inputs draws i).top type).toNat =
    inputTop type B (inputs i) := by
  cases type <;> rfl

theorem getElem_encoded (hB : B.toNat + 1 < 2 ^ 32) (i : Fin n) (j : Fin (B + 1).toNat) :
    ((maxRequests pks inputs draws i).encoded type)[j] = if j ≤ inputTop type B (inputs i) then draws.1 i j else 0 := by
  let r := maxRequests pks inputs draws i
  have htop : (r.top type).toNat = inputTop type B (inputs i) := top_maxRequests type pks inputs draws i
  have hle := r.top_le type hB
  have hstart : ((r.top type) + 1).toUInt32.toNat = (r.top type).toNat + 1 := by
    rw [UInt64.toNat_toUInt32, UInt64.toNat_add, UInt64.toNat_one]
    omega
  show ((maxRequests pks inputs draws i).orEncoded.mapIdx _)[j.val] = _
  rw [Vector.getElem_mapIdx, hstart, htop]
  split_ifs
  · omega
  · rfl
  · show (Vector.ofFn (draws.1 i))[j.val] = draws.1 i j
    rw [Vector.getElem_ofFn]
  · omega

theorem entries_maxSubmissions0 : (maxSubmissions0 type pks inputs draws).toList.map (fun s => (s.pk, s.arr)) =
    honestEntries pks fun i => Vector.ofFn (draws.2 i) := by
  rw [maxSubmissions0, Vector.toList_ofFn, List.map_ofFn, honestEntries]
  rfl

theorem entries_maxSubmissions1 : (maxSubmissions1 type pks inputs draws).toList.map (fun s => (s.pk, s.arr)) =
    honestEntries pks fun i => Vector.zipWith (· ^^^ ·) (Vector.ofFn (draws.2 i))
      ((maxRequests pks inputs draws i).encoded type) := by
  rw [maxSubmissions1, Vector.toList_ofFn, List.map_ofFn, honestEntries]
  rfl

theorem maxPks_honest :
    maxPks (maxSubmissions0 type pks inputs draws).toList (maxSubmissions1 type pks inputs draws).toList =
      univ.image pks := by
  rw [maxPks, entries_maxSubmissions0, entries_maxSubmissions1, sharedPks_honestEntries]

variable {pks}

theorem firstWord_maxSubmissions0 (hpks : Injective pks) (i : Fin n) (j : Fin (B + 1).toNat) :
    firstWord (maxSubmissions0 type pks inputs draws).toList j (pks i) = draws.2 i j := by
  rw [firstWord, entries_maxSubmissions0, firstReceived_honestEntries hpks, Option.map_some, Option.getD_some,
    List.getD_eq_getElem _ _ (by rw [Vector.length_toList]; exact j.2), Vector.getElem_toList, Vector.getElem_ofFn]

theorem firstWord_maxSubmissions1 (hB : B.toNat + 1 < 2 ^ 32) (hpks : Injective pks) (i : Fin n)
    (j : Fin (B + 1).toNat) :
    firstWord (maxSubmissions1 type pks inputs draws).toList j (pks i) =
      draws.2 i j ^^^ if j ≤ inputTop type B (inputs i) then draws.1 i j else 0 := by
  rw [firstWord, entries_maxSubmissions1, firstReceived_honestEntries hpks, Option.map_some, Option.getD_some,
    List.getD_eq_getElem _ _ (by rw [Vector.length_toList]; exact j.2), Vector.getElem_toList, Vector.getElem_zipWith,
    Vector.getElem_ofFn,
    ← getElem_encoded type pks inputs draws hB i j]
  rfl

theorem maxWord1_honest (hB : B.toNat + 1 < 2 ^ 32) (hpks : Injective pks) (j : Fin (B + 1).toNat) :
    xorOver (maxPks (maxSubmissions0 type pks inputs draws).toList (maxSubmissions1 type pks inputs draws).toList)
        (firstWord (maxSubmissions1 type pks inputs draws).toList j) =
      xorOver univ (fun i => draws.2 i j) ^^^ xorOver (reaching type inputs B j) fun i => draws.1 i j := by
  rw [maxPks_honest, xorOver_image hpks, reaching, xorOver_filter, ← xorOver_xor]
  exact xorOver_congr fun i _ => firstWord_maxSubmissions1 type inputs draws hB hpks i j

theorem maxWord_honest (hB : B.toNat + 1 < 2 ^ 32) (hpks : Injective pks) (j : Fin (B + 1).toNat) :
    maxWord (maxSubmissions0 type pks inputs draws).toList (maxSubmissions1 type pks inputs draws).toList j =
      xorOver (reaching type inputs B j) fun i => draws.1 i j := by
  have hshare : xorOver (univ.image pks) (firstWord (maxSubmissions0 type pks inputs draws).toList j) =
      xorOver univ fun i => draws.2 i j := by
    rw [xorOver_image hpks]
    exact xorOver_congr fun i _ => firstWord_maxSubmissions0 type inputs draws hpks i j
  have hword := maxWord1_honest type inputs draws hB hpks j
  rw [maxPks_honest] at hword
  rw [maxWord, maxPks_honest, xorOver_xor, hword, hshare, ← UInt64.xor_assoc, UInt64.xor_self, UInt64.zero_xor]

theorem card_maxPks_honest (hpks : Injective pks) :
    (maxPks (maxSubmissions0 type pks inputs draws).toList (maxSubmissions1 type pks inputs draws).toList).card =
      n := by
  rw [maxPks_honest, card_image_of_injective _ hpks, card_univ, Fintype.card_fin]

end Clients

/-! ### The exchange -/

section Exchange

variable {B : UInt32} (it : Iteration ℕ) (uninit uninit0 uninit1 : ℕ → UInt64) {s0 s1 s : List (MaxShare B)}

/-- `max_op` of server 0 up to the scan. -/
def maxExchange0 (uninit : ℕ → UInt64) (submissions : List (MaxShare B)) :
    Server (ℕ × List UInt64 × List UInt64) :=
  matchedServer0 (addSliceLoop B (maxShares B submissions uninit)) (receivedMap (maxEntries B submissions))
    (List.replicate (B + 1).toNat 0) (recvUint64Batch (B + 1).toNat)

/-- `max_op` of server 1 up to its result. -/
def maxExchange1 (it : Iteration ℕ) (uninit : ℕ → UInt64) (submissions : List (MaxShare B)) : Server Unit :=
  matchedServer1 (addSliceLoop B (maxShares B submissions uninit)) it (receivedMap (maxEntries B submissions))
    (List.replicate (B + 1).toNat 0) .uint64Batch

/-- The xors of a server's words over the common keys. -/
def maxWords (s0 s1 s : List (MaxShare B)) : List UInt64 :=
  List.ofFn fun j : Fin (B + 1).toNat => xorOver (maxPks s0 s1) (firstWord s j)

/-- The keys in the order of server 1, and its words. -/
def maxToServer0 (it : Iteration ℕ) (s0 s1 : List (MaxShare B)) : List Msg :=
  matchedToServer0 it (receivedMap (maxEntries B s1)) (.uint64Batch (maxWords s0 s1 s1))

def maxToServer1 (it : Iteration ℕ) (s0 s1 : List (MaxShare B)) : List Msg :=
  matchedToServer1 it (receivedMap (maxEntries B s0)) (receivedMap (maxEntries B s1))

theorem length_maxWords (s0 s1 s : List (MaxShare B)) : (maxWords s0 s1 s).length = (B + 1).toNat := List.length_ofFn

theorem addMatched_addSlice (hB : B.toNat + 1 < 2 ^ 32) (hn : s.length < 2 ^ 32)
    (hsize : s.length * (B.toNat + 1) < 2 ^ 32) :
    addMatched (addSliceLoop B (maxShares B s uninit)) (receivedMap (maxEntries B s)) (List.replicate (B + 1).toNat 0)
        ((it.order (receivedMap (maxEntries B s1))).map Sigma.fst)
        (matchedFlags it (receivedMap (maxEntries B s0)) (receivedMap (maxEntries B s1))) =
      .ret (maxWords s0 s1 s) := by
  have hstep (a : List UInt64) (start : ℕ) :
      addSliceLoop B (maxShares B s uninit) a start = .ret (addSlice (maxShares B s uninit) a start) := by
    have hne : B + 1 ≠ 0 := by
      intro hzero
      have hnat := MaxRequest.toNat_succ hB
      rw [hzero, UInt32.toNat_zero] at hnat
      exact absurd hnat (Nat.succ_ne_zero _).symm
    exact if_neg hne
  obtain ⟨hlen, hslot⟩ := getD_matchedSum_addSlice it s0 s1 s hn hsize uninit
  have hwords : matchedSum (addSlice (maxShares B s uninit)) it (receivedMap (maxEntries B s0))
      (receivedMap (maxEntries B s1)) (receivedMap (maxEntries B s)) (List.replicate (B + 1).toNat 0) =
      maxWords s0 s1 s := by
    apply List.ext_getElem (hlen.trans (length_maxWords s0 s1 s).symm)
    intro j hj hj'
    have hlt : j < (B + 1).toNat := by rwa [length_maxWords] at hj'
    rw [← List.getD_eq_getElem _ 0 hj, hslot j hlt]
    exact (List.getElem_ofFn hj').symm
  rw [← hwords]
  exact addMatched_decide _ hstep _ (· ∈ receivedMap (maxEntries B s0)) _ _

section Run

variable (hB : B.toNat + 1 < 2 ^ 32) (hn0 : s0.length < 2 ^ 32) (hsize0 : s0.length * (B.toNat + 1) < 2 ^ 32)
  (hn1 : s1.length < 2 ^ 32) (hsize1 : s1.length * (B.toNat + 1) < 2 ^ 32)
include hB hn0 hsize0 hn1 hsize1

theorem maxExchange_reaches :
    Reaches (.start (maxExchange0 uninit0 s0) (maxExchange1 it uninit1 s1))
      (.done ((maxPks s0 s1).card, maxWords s0 s1 s0, maxWords s0 s1 s1) ()) := by
  have hcard : (matchedPks it (receivedMap (maxEntries B s0)) (receivedMap (maxEntries B s1))).length =
      (maxPks s0 s1).card := by
    rw [length_matchedPks_receivedMap, sharedPks_maxEntries]
  rw [← hcard]
  refine (matched_reaches_word it (receivedMap (maxEntries B s0)) (receivedMap (maxEntries B s1)) _
    (addMatched_addSlice it uninit0 hB hn0 hsize0) (addMatched_addSlice it uninit1 hB hn1 hsize1)).trans ?_
  exact (reaches_recvAs_sent (if_pos (length_maxWords s0 s1 s1)) (.ret ())).bind_of (fun b => .ret (_, _, b)) .ret

theorem maxExchange_transcript :
    Transcript (maxExchange0 uninit0 s0) (maxExchange1 it uninit1 s1) (maxToServer0 it s0 s1) (maxToServer1 it s0 s1)
      ((maxPks s0 s1).card, maxWords s0 s1 s0, maxWords s0 s1 s1) () := by
  have h0 : Plays (maxExchange0 uninit0 s0) (maxToServer0 it s0 s1) (maxToServer1 it s0 s1) _ :=
    plays_matchedServer0 it (receivedMap (maxEntries B s0)) (receivedMap (maxEntries B s1))
      (addMatched_addSlice it uninit0 hB hn0 hsize0) (if_pos (length_maxWords s0 s1 s1))
  have h1 : Plays (maxExchange1 it uninit1 s1) (maxToServer1 it s0 s1) (maxToServer0 it s0 s1) () :=
    plays_matchedServer1 it _ _ (addMatched_addSlice it uninit1 hB hn1 hsize1)
  exact (maxExchange_reaches it uninit0 uninit1 hB hn0 hsize0 hn1 hsize1).terminates.transcript h0 h1

end Run

end Exchange

/-! ### Wrong answers -/

theorem differs_of_scanDown {differs : ℕ → Bool} {n j : ℕ} (h : scanDown differs n = some j) :
    j < n ∧ differs j = true := by
  induction n with
  | zero => cases h
  | succ n ih =>
    rw [scanDown] at h
    split_ifs at h with hlast
    · obtain rfl := Option.some_inj.mp h
      exact ⟨Nat.lt_succ_self n, hlast⟩
    · exact ⟨Nat.lt_succ_of_lt (ih h).1, (ih h).2⟩

section Failures

variable (it0 it1 : Iteration ℕ) (uninit0 uninit1 : ℕ → UInt64) {type : MessageType} {msg : InitMsg}

/-- Every schedule ends, and server 0 answers with the maximum or the minimum of the values. -/
def MaxOpRight (type : MessageType) (s0 s1 : Vector (MaxShare msg.maxInp) msg.numOfInputs.toNat)
    (values : Set ℕ) : Prop :=
  ∃ r0 r1 ans, Terminates (maxOp it0 uninit0 type msg 0 s0) (maxOp it1 uninit1 type msg 1 s1) r0 r1 ∧
    r0.ret = .ans ∧ r0.ans = some ans ∧ (type = .maxOp → IsGreatest values ans.toNat) ∧
    (type = .minOp → IsLeast values ans.toNat)

/-- The value that a client takes from its word. -/
def inputValue (B : UInt32) (input : UInt64) : ℕ := (input % (B + 1).toUInt64).toNat

/-- When no slot differs, the scan leaves the arrays. -/
theorem maxOp_not_terminates (hsize : msg.numOfInputs.toNat * (msg.maxInp.toNat + 1) < 2 ^ 32)
    (hB : msg.maxInp.toNat + 1 < 2 ^ 32) (s0 s1 : Vector (MaxShare msg.maxInp) msg.numOfInputs.toNat)
    (hvalid : msg.numOfInputs.toNat ≤ 2 * (maxPks s0.toList s1.toList).card)
    (hscan : scanDown (fun j => maxWord s0.toList s1.toList j ≠ 0) (msg.maxInp.toNat + 1) = none)
    (r0 r1 : MaxOpResult) :
    ¬ Terminates (maxOp it0 uninit0 type msg 0 s0) (maxOp it1 uninit1 type msg 1 s1) r0 r1 := by
  let B := msg.maxInp
  let words := maxWords s0.toList s1.toList
  have hlen (s : Vector (MaxShare B) msg.numOfInputs.toNat) : s.toList.length < 2 ^ 32 := by
    rw [Vector.length_toList]
    exact msg.numOfInputs.toNat_lt
  have hsizes (s : Vector (MaxShare B) msg.numOfInputs.toNat) : s.toList.length * (B.toNat + 1) < 2 ^ 32 := by
    rwa [Vector.length_toList]
  have hdiffers : scanDown (fun j => (words s0.toList).getD j 0 ≠ (words s1.toList).getD j 0) (B.toNat + 1) =
      scanDown (fun j => maxWord s0.toList s1.toList j ≠ 0) (B.toNat + 1) := by
    apply scanDown_congr
    intro j hj
    have hslot : j < (B + 1).toNat := by rwa [MaxRequest.toNat_succ hB]
    have hget (s : List (MaxShare B)) : (words s).getD j 0 = xorOver (maxPks s0.toList s1.toList) (firstWord s j) := by
      rw [List.getD_eq_getElem _ _ (by rwa [length_maxWords])]
      exact List.getElem_ofFn _
    rw [hget, hget, maxWord, xorOver_xor]
    simp only [ne_eq, UInt64.xor_eq_zero_iff]
  have hstuck : maxScan B type msg.numOfInputs.toNat (maxPks s0.toList s1.toList).card (words s0.toList)
      (words s1.toList) = .stuck := by
    rw [maxScan, if_neg (by rw [belowThreshold_iff]; omega), hdiffers, hscan]
    rfl
  have hrun : Reaches (.start (maxOp it0 uninit0 type msg 0 s0) (maxOp it1 uninit1 type msg 1 s1))
      (.start (maxScan B type msg.numOfInputs.toNat (maxPks s0.toList s1.toList).card (words s0.toList)
        (words s1.toList))
        (.ret { ret := .noAns, numValid := 0, ans := none })) :=
    Reaches.bind (maxExchange_reaches it1 uninit0 uninit1 hB (hlen s0) (hsizes s0) (hlen s1) (hsizes s1))
      (Reaches.refl _)
  rw [hstuck] at hrun
  exact hrun.not_terminates_of_ret r0 r1

section Honest

variable {n : ℕ} (B : UInt32) (inputs : Fin n → UInt64)

/-- The values of the clients. -/
def inputValues : Set ℕ := Set.range fun i => inputValue B (inputs i)

/-- The indices that their encodings reach. -/
def inputTops (type : MessageType) : Set ℕ := Set.range fun i => inputTop type B (inputs i)

variable {B}

theorem inputTop_minOp (hB : B.toNat + 1 < 2 ^ 32) (input : UInt64) :
    inputValue B input ≤ B.toNat ∧ inputTop .minOp B input = B.toNat - inputValue B input := by
  let r : MaxRequest B := ⟨input, Vector.replicate _ 0, Vector.replicate _ 0, default, default⟩
  exact ⟨r.value_le hB, r.top_minOp hB⟩

theorem inputTop_le (hB : B.toNat + 1 < 2 ^ 32) (type : MessageType) (input : UInt64) :
    inputTop type B input ≤ B.toNat :=
  (⟨input, Vector.replicate _ 0, Vector.replicate _ 0, default, default⟩ : MaxRequest B).top_le type hB

theorem answer_right_iff (htype : type = .maxOp ∨ type = .minOp) (hB : B.toNat + 1 < 2 ^ 32) {j ans : ℕ}
    (hj : j ≤ B.toNat) (hans : ans = if type = .maxOp then j else B.toNat - j) :
    ((type = .maxOp → IsGreatest (inputValues B inputs) ans) ∧ (type = .minOp → IsLeast (inputValues B inputs) ans)) ↔
      IsGreatest (inputTops B inputs type) j := by
  rcases htype with rfl | rfl
  · rw [if_pos rfl] at hans
    subst hans
    exact ⟨fun h => h.1 rfl, fun h => ⟨fun _ => h, fun h => by cases h⟩⟩
  · rw [if_neg (by decide)] at hans
    subst hans
    have hleast : IsLeast (inputValues B inputs) (B.toNat - j) ↔ IsGreatest (inputTops B inputs .minOp) j := by
      constructor
      · rintro ⟨⟨i, hi⟩, hlow⟩
        refine ⟨⟨i, ?_⟩, ?_⟩
        · obtain ⟨hle, htop⟩ := inputTop_minOp hB (inputs i)
          simp only at hi ⊢
          omega
        · rintro _ ⟨k, rfl⟩
          have hk := hlow ⟨k, rfl⟩
          obtain ⟨hle, htop⟩ := inputTop_minOp hB (inputs k)
          simp only at hk ⊢
          omega
      · rintro ⟨⟨i, hi⟩, hhigh⟩
        refine ⟨⟨i, ?_⟩, ?_⟩
        · obtain ⟨hle, htop⟩ := inputTop_minOp hB (inputs i)
          simp only at hi ⊢
          omega
        · rintro _ ⟨k, rfl⟩
          have hk := hhigh ⟨k, rfl⟩
          obtain ⟨hle, htop⟩ := inputTop_minOp hB (inputs k)
          simp only at hk ⊢
          omega
    exact ⟨fun h => hleast.mp (h.2 rfl), fun h => ⟨fun htype => absurd htype (by decide), fun _ => hleast.mpr h⟩⟩

end Honest

/-- The words of the clients that reach the highest index cancel. -/
theorem not_maxOpRight_iff (htype : type = .maxOp ∨ type = .minOp)
    (hsize : msg.numOfInputs.toNat * (msg.maxInp.toNat + 1) < 2 ^ 32) {pks : Fin msg.numOfInputs.toNat → Pk}
    (hpks : Injective pks) {inputs : Fin msg.numOfInputs.toNat → UInt64} {m : Fin (msg.maxInp + 1).toNat}
    (hm : IsGreatest (inputTops msg.maxInp inputs type) m) (draws : MaxDraws msg.numOfInputs.toNat msg.maxInp) :
    ¬ MaxOpRight it0 it1 uninit0 uninit1 type (maxSubmissions0 type pks inputs draws)
        (maxSubmissions1 type pks inputs draws) (inputValues msg.maxInp inputs) ↔
      xorOver (reaching type inputs msg.maxInp m) (fun i => draws.1 i m) = 0 := by
  let B := msg.maxInp
  let s0 := maxSubmissions0 type pks inputs draws
  let s1 := maxSubmissions1 type pks inputs draws
  obtain ⟨⟨top, htop⟩, hbound⟩ := hm
  have hinputs : 0 < msg.numOfInputs.toNat := Nat.zero_lt_of_lt top.2
  have hB : B.toNat + 1 < 2 ^ 32 := (Nat.le_mul_of_pos_left _ hinputs).trans_lt hsize
  have hcard : (maxPks s0.toList s1.toList).card = msg.numOfInputs.toNat := card_maxPks_honest type inputs draws hpks
  have hword : ∀ j : Fin (B + 1).toNat, maxWord s0.toList s1.toList j =
      xorOver (reaching type inputs B j) fun i => draws.1 i j := maxWord_honest type inputs draws hB hpks
  have habove : ∀ j : ℕ, m < j → j < B.toNat + 1 → maxWord s0.toList s1.toList j = 0 := by
    intro j hj hjB
    have hslot : j < (B + 1).toNat := by rwa [MaxRequest.toNat_succ hB]
    rw [hword ⟨j, hslot⟩]
    have hempty : reaching type inputs B j = ∅ := by
      refine filter_eq_empty_iff.mpr fun i _ hi => ?_
      exact absurd (hi.trans (hbound ⟨i, rfl⟩)) (Nat.not_le.mpr hj)
    show xorOver (reaching type inputs B j) _ = 0
    rw [hempty]
    rfl
  have hmB : (m : ℕ) < B.toNat + 1 := by
    rw [← MaxRequest.toNat_succ hB]
    exact m.2
  rw [← hword m]
  cases hscan : scanDown (fun j => maxWord s0.toList s1.toList j ≠ 0) (B.toNat + 1) with
  | none =>
    refine iff_of_true ?_ ?_
    · rintro ⟨r0, r1, -, hterm, -⟩
      exact maxOp_not_terminates it0 it1 uninit0 uninit1 hsize hB s0 s1 (by omega) hscan r0 r1 hterm
    · by_contra hne
      have hfound : ∃ i, scanDown (fun j => maxWord s0.toList s1.toList j ≠ 0) (B.toNat + 1) = some i :=
        exists_scanDown hmB (decide_eq_true hne)
      rw [hscan] at hfound
      obtain ⟨i, hi⟩ := hfound
      cases hi
  | some j =>
    obtain ⟨hjB, hdiff⟩ := differs_of_scanDown hscan
    obtain ⟨ans, hans, hansNat⟩ := toNat_maxAnswer htype (Nat.lt_succ_iff.mp hjB)
    have hr : maxOutcome type msg.numOfInputs.toNat s0.toList s1.toList =
        some { ret := .ans, numValid := (maxPks s0.toList s1.toList).card, ans := some ans } := by
      rw [maxOutcome, if_neg (by omega), hscan, Option.bind_some, hans]
      rfl
    have hterm := maxOp_terminates it0 it1 uninit0 uninit1 type msg hB hsize s0 s1 hr
    have hright : MaxOpRight it0 it1 uninit0 uninit1 type s0 s1 (inputValues B inputs) ↔
        IsGreatest (inputTops B inputs type) j := by
      rw [← answer_right_iff inputs htype hB (Nat.lt_succ_iff.mp hjB) hansNat]
      constructor
      · rintro ⟨r0, r1, ans', hterm', -, hans', hgood⟩
        obtain ⟨rfl, rfl⟩ := hterm.unique hterm'
        obtain rfl := Option.some_inj.mp hans'
        exact hgood
      · exact fun hgood => ⟨_, _, ans, hterm, rfl, rfl, hgood⟩
    rw [hright]
    constructor
    · intro hnot
      by_contra hne
      -- the scan stops at `m`, the highest slot in which the words differ
      have hstop : scanDown (fun j => maxWord s0.toList s1.toList j ≠ 0) (B.toNat + 1) = some m.val :=
        scanDown_eq_some hmB (decide_eq_true hne) fun j hj hjB => by simp [habove j hj hjB]
      rw [hscan, Option.some_inj] at hstop
      exact hnot (hstop ▸ ⟨⟨top, htop⟩, hbound⟩)
    · rintro hzero hgreatest
      obtain rfl : j = m := hgreatest.unique ⟨⟨top, htop⟩, hbound⟩
      exact of_decide_eq_true hdiff hzero

/-- The random word of a client in one slot, moved by `d`. -/
def shiftSlot {n : ℕ} {B : UInt32} (p : Fin n) (m : Fin (B + 1).toNat) (d : UInt64) (draws : MaxDraws n B) :
    MaxDraws n B :=
  (update draws.1 p (shiftAt m d (draws.1 p)), draws.2)

theorem shiftSlot_shiftSlot {n : ℕ} {B : UInt32} (p : Fin n) (m : Fin (B + 1).toNat) (d : UInt64)
    (draws : MaxDraws n B) :
    shiftSlot p m d (shiftSlot p m d draws) = draws := by
  show (update (update draws.1 p _) p (shiftAt m d (update draws.1 p _ p)), draws.2) = draws
  rw [update_self, update_idem, shiftAt_shiftAt, update_eq_self]

theorem column_shiftSlot {n : ℕ} {B : UInt32} (p : Fin n) (m : Fin (B + 1).toNat) (d : UInt64) (draws : MaxDraws n B) :
    (fun i => (shiftSlot p m d draws).1 i m) = shiftAt p d fun i => draws.1 i m := by
  funext i
  by_cases hi : i = p
  · subst hi
    simp [shiftSlot, shiftAt]
  · simp [shiftSlot, shiftAt, hi]

open Classical in
/-- The number of draws with which no right answer comes of the run. -/
noncomputable def maxWrong (type : MessageType) (msg : InitMsg) (pks : Fin msg.numOfInputs.toNat → Pk)
    (inputs : Fin msg.numOfInputs.toNat → UInt64) : ℕ :=
  (univ.filter fun draws : MaxDraws msg.numOfInputs.toNat msg.maxInp => ¬ MaxOpRight it0 it1 uninit0 uninit1 type
    (maxSubmissions0 type pks inputs draws) (maxSubmissions1 type pks inputs draws)
    (inputValues msg.maxInp inputs)).card

/-- Three clients with values up to 4. -/
def threeClients : InitMsg := { numBits := 0, numOfInputs := 3, maxInp := 4 }

def threeKeys (i : Fin threeClients.numOfInputs.toNat) : Pk := Vector.replicate 32 (UInt8.ofNat i)

end Failures

/-! ### Two assignments of values -/

section Views

variable {n : ℕ} {B : UInt32} {type : MessageType} {pks : Fin n → Pk}

/-- The number of slots that the encodings outside the coalition reach: one more than the highest index, if there is
one. -/
def slotsOutside (type : MessageType) (B : UInt32) (coalition : Finset (Fin n)) (inputs : Fin n → UInt64) : ℕ :=
  (univ \ coalition).sup fun i => inputTop type B (inputs i) + 1

theorem reaching_nonempty_iff (coalition : Finset (Fin n)) (inputs : Fin n → UInt64) (j : ℕ) :
    (reaching type inputs B j \ coalition).Nonempty ↔ j < slotsOutside type B coalition inputs := by
  rw [slotsOutside, Finset.lt_sup_iff]
  simp [reaching, Finset.Nonempty, and_comm]

theorem maxEntries_honest (s s' : Vector (MaxShare B) n) (h : ∀ i : Fin n, s[i].pk = s'[i].pk) :
    maxEntries B s.toList = maxEntries B s'.toList := by
  apply List.ext_getElem
  · simp [maxEntries]
  · intro i hi hi'
    have hlt : i < n := by simpa [maxEntries] using hi
    have hpk := h ⟨i, hlt⟩
    simp only [maxEntries, List.getElem_mapIdx, Vector.getElem_toList]
    exact Prod.ext hpk rfl

theorem pk_maxSubmissions1 (inputs : Fin n → UInt64) (draws : MaxDraws n B) (i : Fin n) :
    (maxSubmissions1 type pks inputs draws)[i].pk = pks i := by
  show ((maxSubmissions1 type pks inputs draws)[i.val]).pk = pks i
  simp [maxSubmissions1, MaxRequest.shares, maxRequests]

theorem pk_maxSubmissions0 (inputs : Fin n → UInt64) (draws : MaxDraws n B) (i : Fin n) :
    (maxSubmissions0 type pks inputs draws)[i].pk = pks i := by
  show ((maxSubmissions0 type pks inputs draws)[i.val]).pk = pks i
  simp [maxSubmissions0, MaxRequest.shares, maxRequests]

theorem maxToServer0_honest (it : Iteration ℕ) (hB : B.toNat + 1 < 2 ^ 32) (hpks : Injective pks)
    {inputs inputs' : Fin n → UInt64} {draws draws' : MaxDraws n B} (hshare : draws'.2 = draws.2)
    (hwords : ∀ j : Fin (B + 1).toNat, xorOver (reaching type inputs' B j) (fun i => draws'.1 i j) =
      xorOver (reaching type inputs B j) fun i => draws.1 i j) :
    maxToServer0 it (maxSubmissions0 type pks inputs' draws').toList (maxSubmissions1 type pks inputs' draws').toList =
      maxToServer0 it (maxSubmissions0 type pks inputs draws).toList
        (maxSubmissions1 type pks inputs draws).toList := by
  have hentries := maxEntries_honest (maxSubmissions1 type pks inputs' draws') (maxSubmissions1 type pks inputs draws)
    fun i => (pk_maxSubmissions1 inputs' draws' i).trans (pk_maxSubmissions1 inputs draws i).symm
  have hlist : maxWords (maxSubmissions0 type pks inputs' draws').toList
        (maxSubmissions1 type pks inputs' draws').toList (maxSubmissions1 type pks inputs' draws').toList =
      maxWords (maxSubmissions0 type pks inputs draws).toList (maxSubmissions1 type pks inputs draws).toList
        (maxSubmissions1 type pks inputs draws).toList := by
    apply List.ofFn_inj.mpr
    funext j
    rw [maxWord1_honest type inputs' draws' hB hpks, maxWord1_honest type inputs draws hB hpks, hshare, hwords j]
  rw [maxToServer0, maxToServer0, hentries, hlist]

theorem maxToServer1_honest (it : Iteration ℕ) (inputs inputs' : Fin n → UInt64) (draws draws' : MaxDraws n B) :
    maxToServer1 it (maxSubmissions0 type pks inputs' draws').toList (maxSubmissions1 type pks inputs' draws').toList =
      maxToServer1 it (maxSubmissions0 type pks inputs draws).toList
        (maxSubmissions1 type pks inputs draws).toList := by
  have hentries0 := maxEntries_honest (maxSubmissions0 type pks inputs' draws') (maxSubmissions0 type pks inputs draws)
    fun i => (pk_maxSubmissions0 inputs' draws' i).trans (pk_maxSubmissions0 inputs draws i).symm
  have hentries1 := maxEntries_honest (maxSubmissions1 type pks inputs' draws') (maxSubmissions1 type pks inputs draws)
    fun i => (pk_maxSubmissions1 inputs' draws' i).trans (pk_maxSubmissions1 inputs draws i).symm
  rw [maxToServer1, maxToServer1, hentries0, hentries1]

/-- In every slot the words of the clients outside the coalition are moved to those of the other assignment. -/
theorem exists_max_redraw0 (type : MessageType) (coalition : Finset (Fin n)) {inputs inputs' : Fin n → UInt64}
    (hsame : ∀ i ∈ coalition, inputs i = inputs' i)
    (hleak : slotsOutside type B coalition inputs = slotsOutside type B coalition inputs') :
    ∃ e : MaxDraws n B → MaxDraws n B, Injective e ∧ ∀ draws, (e draws).2 = draws.2 ∧
      (∀ j : Fin (B + 1).toNat, xorOver (reaching type inputs' B j) (fun i => (e draws).1 i j) =
        xorOver (reaching type inputs B j) fun i => draws.1 i j) ∧
      ∀ i ∈ coalition, (e draws).1 i = draws.1 i := by
  have hiff (j : Fin (B + 1).toNat) : (reaching type inputs B j \ coalition).Nonempty ↔
      (reaching type inputs' B j \ coalition).Nonempty := by
    rw [reaching_nonempty_iff, reaching_nonempty_iff, hleak]
  have hinter (j : ℕ) : reaching type inputs' B j ∩ coalition = reaching type inputs B j ∩ coalition := by
    ext i
    simp only [reaching, mem_inter, mem_filter, mem_univ, true_and, and_congr_left_iff]
    intro hi
    rw [hsame i hi]
  obtain ⟨e, hinj, hxor, hrest⟩ := exists_remask_family hiff
  have hfix : ∀ r, ∀ i ∈ coalition, e r i = r i := fun r i hi => funext fun j =>
    hrest r i j (fun h => (mem_sdiff.mp h).2 hi) fun h => (mem_sdiff.mp h).2 hi
  refine ⟨fun draws => (e draws.1, draws.2), ?_, fun draws => ⟨rfl, fun j => ?_, hfix draws.1⟩⟩
  · exact fun d d' h => Prod.ext (hinj (Prod.mk.inj h).1) (Prod.mk.inj h).2
  · rw [xorOver_sdiff _ coalition, xorOver_sdiff (reaching type inputs B j) coalition, hxor, hinter]
    congr 1
    exact xorOver_congr fun i hi => congrFun (hfix draws.1 i (mem_inter.mp hi).2) j

theorem exists_max_redraw1 (type : MessageType) (pks : Fin n → Pk) (coalition : Finset (Fin n))
    (hB : B.toNat + 1 < 2 ^ 32)
    {inputs inputs' : Fin n → UInt64} (hsame : ∀ i ∈ coalition, inputs i = inputs' i) :
    ∃ e : MaxDraws n B → MaxDraws n B, Injective e ∧ ∀ draws,
      maxSubmissions1 type pks inputs' (e draws) = maxSubmissions1 type pks inputs draws ∧
      ∀ i ∈ coalition, maxRequests pks inputs' (e draws) i = maxRequests pks inputs draws i := by
  let word (v : Fin n → UInt64) (r : Fin n → Fin (B + 1).toNat → UInt64) (i : Fin n) (j : Fin (B + 1).toNat) : UInt64 :=
    if j ≤ inputTop type B (v i) then r i j else 0
  let change (r : Fin n → Fin (B + 1).toNat → UInt64) (i : Fin n) (j : Fin (B + 1).toNat) : UInt64 :=
    word inputs r i j ^^^ word inputs' r i j
  refine ⟨fun draws => (draws.1, fun i j => draws.2 i j ^^^ change draws.1 i j), ?_, fun draws => ⟨?_, fun i hi => ?_⟩⟩
  · rintro ⟨r, s⟩ ⟨r', s'⟩ h
    obtain ⟨rfl, hs⟩ := Prod.mk.inj h
    refine Prod.ext rfl (funext fun i => funext fun j => ?_)
    exact (UInt64.xor_left_inj (change r i j)).mp (congrFun (congrFun hs i) j)
  · have harr (v : Fin n → UInt64) (d : MaxDraws n B) (i : Fin n) :
        ((maxRequests pks v d i).shares type).2 = ⟨pks i, Vector.ofFn fun j => d.2 i j ^^^ word v d.1 i j⟩ := by
      show MaxShare.mk (pks i) _ = MaxShare.mk (pks i) _
      congr 1
      apply Vector.ext
      intro j hj
      have henc := getElem_encoded type pks v d hB i ⟨j, hj⟩
      rw [Vector.getElem_ofFn]
      show (Vector.zipWith _ (Vector.ofFn (d.2 i)) _)[j] = _
      rw [Vector.getElem_zipWith, Vector.getElem_ofFn]
      exact congrArg (d.2 i ⟨j, hj⟩ ^^^ ·) henc
    unfold maxSubmissions1
    congr 1
    funext i
    rw [harr, harr]
    congr 1
    congr 1
    funext j
    show (draws.2 i j ^^^ (word inputs draws.1 i j ^^^ word inputs' draws.1 i j)) ^^^ word inputs' draws.1 i j =
      draws.2 i j ^^^ word inputs draws.1 i j
    rw [UInt64.xor_assoc, UInt64.xor_assoc, UInt64.xor_self, UInt64.xor_zero]
  · have hchange : (fun j => draws.2 i j ^^^ change draws.1 i j) = draws.2 i := by
      funext j
      show draws.2 i j ^^^ (word inputs draws.1 i j ^^^ word inputs' draws.1 i j) = draws.2 i j
      simp only [word, hsame i hi]
      rw [UInt64.xor_self, UInt64.xor_zero]
    show MaxRequest.mk _ _ (Vector.ofFn fun j => draws.2 i j ^^^ change draws.1 i j) _ _ = MaxRequest.mk _ _ _ _ _
    rw [hchange, hsame i hi]

theorem maxOp_reveals0 (it : Iteration ℕ) (type : MessageType) (hB : B.toNat + 1 < 2 ^ 32) (hpks : Injective pks)
    (coalition : Finset (Fin n)) :
    RevealsOnly
      (fun inputs (draws : MaxDraws n B) => (maxSubmissions0 type pks inputs draws,
        maxToServer0 it (maxSubmissions0 type pks inputs draws).toList (maxSubmissions1 type pks inputs draws).toList,
        coalitionMaxRequests pks inputs draws coalition))
      fun inputs => (fun i : coalition => inputs i, slotsOutside type B coalition inputs) := by
  apply RevealsOnly.of_injective
  intro inputs inputs' hleak
  obtain ⟨hinputs, hslots⟩ := Prod.mk.inj hleak
  have hsame : ∀ i ∈ coalition, inputs i = inputs' i := fun i hi => congrFun hinputs ⟨i, hi⟩
  obtain ⟨e, hinj, he⟩ := exists_max_redraw0 type coalition hsame hslots
  refine ⟨e, hinj, fun draws => ?_⟩
  obtain ⟨hshare, hwords, hrandom⟩ := he draws
  refine Prod.ext ?_ (Prod.ext (maxToServer0_honest it hB hpks hshare hwords) (funext fun i => ?_))
  · show Vector.ofFn (fun i => MaxShare.mk (pks i) (Vector.ofFn ((e draws).2 i))) =
      Vector.ofFn fun i => MaxShare.mk (pks i) (Vector.ofFn (draws.2 i))
    rw [hshare]
  · show MaxRequest.mk _ _ _ _ _ = MaxRequest.mk _ _ _ _ _
    rw [← hsame i i.2, hrandom i i.2, hshare]

theorem maxOp_reveals1 (it : Iteration ℕ) (type : MessageType) (hB : B.toNat + 1 < 2 ^ 32) (pks : Fin n → Pk)
    (coalition : Finset (Fin n)) :
    RevealsOnly
      (fun inputs (draws : MaxDraws n B) => (maxSubmissions1 type pks inputs draws,
        maxToServer1 it (maxSubmissions0 type pks inputs draws).toList (maxSubmissions1 type pks inputs draws).toList,
        coalitionMaxRequests pks inputs draws coalition))
      fun inputs => fun i : coalition => inputs i := by
  apply RevealsOnly.of_injective
  intro inputs inputs' hleak
  obtain ⟨e, hinj, he⟩ := exists_max_redraw1 type pks coalition hB fun i hi => congrFun hleak ⟨i, hi⟩
  refine ⟨e, hinj, fun draws => ?_⟩
  obtain ⟨hshares, hrequests⟩ := he draws
  exact Prod.ext hshares (Prod.ext (maxToServer1_honest it inputs inputs' draws (e draws))
    (funext fun i => hrequests i i.2))

end Views

/-- What the clients draw: the blocks of their keys, and their words. A client that has a generator of its own draws
them apart. -/
abbrev KeyedMaxDraws (n : ℕ) (B : UInt32) := KeyBlocks n × MaxDraws n B

/-- `to0` and `to1` are what the servers read before the scan, in which no message goes over. With it and the requests
of the coalition, server 0 learns how far the encodings of the others reach, and server 1 learns nothing. -/
structure MaxOpPrivate (it0 it1 : Iteration ℕ) (uninit0 uninit1 : ℕ → UInt64) (type : MessageType) (msg : InitMsg)
    (coalition : Finset (Fin msg.numOfInputs.toNat))
    (to0 to1 : (Fin msg.numOfInputs.toNat → UInt64) → KeyedMaxDraws msg.numOfInputs.toNat msg.maxInp → List Msg) :
    Prop where
  server0_eq : ∀ s : Vector (MaxShare msg.maxInp) msg.numOfInputs.toNat, maxOp it0 uninit0 type msg 0 s = do
    let (numValid, a, b) ← maxExchange0 uninit0 s.toList
    maxScan msg.maxInp type msg.numOfInputs.toNat numValid a b
  server1_eq : ∀ s : Vector (MaxShare msg.maxInp) msg.numOfInputs.toNat, maxOp it1 uninit1 type msg 1 s = do
    maxExchange1 it1 uninit1 s.toList
    return { ret := .noAns, numValid := 0, ans := none }
  scan_silent : ∀ numValid a b, (∃ r, maxScan msg.maxInp type msg.numOfInputs.toNat numValid a b = .ret r) ∨
    maxScan msg.maxInp type msg.numOfInputs.toNat numValid a b = .stuck
  run : ∀ inputs draws, ∃ words,
    Transcript (maxExchange0 uninit0 (maxSubmissions0 type (clientKeys draws.1) inputs draws.2).toList)
      (maxExchange1 it1 uninit1 (maxSubmissions1 type (clientKeys draws.1) inputs draws.2).toList) (to0 inputs draws)
      (to1 inputs draws) words ()
  server0 : RevealsOnly
    (fun inputs draws => (maxSubmissions0 type (clientKeys draws.1) inputs draws.2, to0 inputs draws,
      coalitionMaxRequests (clientKeys draws.1) inputs draws.2 coalition))
    fun inputs => (fun i : coalition => inputs i, slotsOutside type msg.maxInp coalition inputs)
  server1 : RevealsOnly
    (fun inputs draws => (maxSubmissions1 type (clientKeys draws.1) inputs draws.2, to1 inputs draws,
      coalitionMaxRequests (clientKeys draws.1) inputs draws.2 coalition))
    fun inputs => fun i : coalition => inputs i

end PrioPlus

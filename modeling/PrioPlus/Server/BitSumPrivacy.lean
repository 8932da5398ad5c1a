import PrioPlus.Correlated.Failures
import PrioPlus.Server.BitSum
import PrioPlus.Server.XorPrivacy

/-!
# What `BIT_SUM` reveals

The conversion by oblivious transfer is done modulo `2 ^ 64`, where the word of the generator masks an offered entry
perfectly. So server 0, together with any set of clients, learns the number of ones among the others and nothing else,
and server 1 learns nothing from the entries that it chooses (`bitSum_private`).
-/

namespace PrioPlus

open Finset Function Lib.TwoParty Lib.FirstWins Lib.Views

/-! ### The clients of `bit_sum` -/

section Clients

variable {n : ℕ} (pks : Fin n → Pk) (values masks : Fin n → Bool)

/-- What `bit_sum_helper` sends to server 0. -/
def bitShares0 : Vector BitShare n := Vector.ofFn fun i => ⟨pks i, masks i⟩

/-- What `bit_sum_helper` sends to server 1. -/
def bitShares1 : Vector BitShare n := Vector.ofFn fun i => ⟨pks i, masks i ^^ values i⟩

theorem entries_bitShares0 : (bitShares0 pks masks).toList.map (fun s => (s.pk, s.val)) = honestEntries pks masks := by
  rw [bitShares0, Vector.toList_ofFn, List.map_ofFn, honestEntries]
  rfl

theorem entries_bitShares1 : (bitShares1 pks values masks).toList.map (fun s => (s.pk, s.val)) =
    honestEntries pks fun i => masks i ^^ values i := by
  rw [bitShares1, Vector.toList_ofFn, List.map_ofFn, honestEntries]
  rfl

theorem firstVal_eq_firstReceived (submissions : List BitShare) (pk : Pk) :
    firstVal submissions pk = (firstReceived (submissions.map fun s => (s.pk, s.val)) pk).getD false := by
  rw [← lookup_bitShareMap, bitShareMap, lookup_collect, firstReceived]
  simp

variable {pks}

theorem firstVal_bitShares0 (hpks : Injective pks) (i : Fin n) : firstVal (bitShares0 pks masks).toList (pks i) =
    masks i := by
  rw [firstVal_eq_firstReceived, entries_bitShares0, firstReceived_honestEntries hpks, Option.getD_some]

theorem firstVal_bitShares1 (hpks : Injective pks) (i : Fin n) :
    firstVal (bitShares1 pks values masks).toList (pks i) = (masks i ^^ values i) := by
  rw [firstVal_eq_firstReceived, entries_bitShares1, firstReceived_honestEntries hpks, Option.getD_some]

theorem submittedPks_eq (submissions : List BitShare) :
    submittedPks submissions = receivedPks (submissions.map fun s => (s.pk, s.val)) := by
  rw [submittedPks, receivedPks, List.map_map]
  rfl

theorem submittedPks_bitShares0 : submittedPks (bitShares0 pks masks).toList = univ.image pks := by
  rw [submittedPks_eq, entries_bitShares0, receivedPks_honestEntries]

theorem submittedPks_bitShares1 : submittedPks (bitShares1 pks values masks).toList = univ.image pks := by
  rw [submittedPks_eq, entries_bitShares1, receivedPks_honestEntries]

theorem bitSumAnswer_honest (hpks : Injective pks) :
    bitSumAnswer (bitShares0 pks masks).toList (bitShares1 pks values masks).toList = ∑ i, (values i).toNat := by
  rw [bitSumAnswer, commonPks, submittedPks_bitShares0, submittedPks_bitShares1, inter_self,
    sum_image fun i _ j _ h => hpks h]
  refine sum_congr rfl fun i _ => ?_
  rw [firstVal_bitShares0 masks hpks, firstVal_bitShares1 values masks hpks, ← Bool.xor_assoc, Bool.xor_self,
    Bool.false_xor]

end Clients

/-! ### The messages of a run -/

section Run

variable (it : Iteration Bool) (prg : ℕ → UInt64) (s0 s1 : List BitShare)

/-- The keys in the order of server 1. -/
def bitOrder (it : Iteration Bool) (s1 : List BitShare) : List Pk := (it.order (bitShareMap s1)).map Sigma.fst

/-- The pairs and the sum of server 0. -/
def bitSent : List (UInt64 × UInt64) × UInt64 :=
  bitsumOtSender 0 prg (bitOrder it s1).length ((bitOrder it s1).map (firstVal s0))
    ((bitOrder it s1).map fun pk => decide (pk ∈ submittedPks s0))

/-- The bits that server 1 chooses with. -/
def bitChoices (it : Iteration Bool) (s1 : List BitShare) : List Bool := (it.order (bitShareMap s1)).map Sigma.snd

/-- The entries that server 1 chooses. -/
def bitChosen : List UInt64 := List.zipWith otChoose (bitSent it prg s0 s1).1 (bitChoices it s1)

/-- The keys, and the sum of server 1. -/
def bitToServer0 : List Msg :=
  .size (bitOrder it s1).length :: (bitOrder it s1).map Msg.pk ++
    [.uint64 (bitsumOtReceiver 0 (bitChosen it prg s0 s1))]

theorem bitChoices_eq : bitChoices it s1 = (bitOrder it s1).map (firstVal s1) := by
  rw [bitChoices, bitOrder, List.map_map]
  apply List.map_congr_left
  intro e he
  rw [comp_apply, ← lookup_bitShareMap, lookup_of_mem_iteration (it.perm _) he, Option.getD_some]

theorem bitSent_add :
    (bitSent it prg s0 s1).2 + bitsumOtReceiver 0 (bitChosen it prg s0 s1) = UInt64.ofNat (bitSumAnswer s0 s1) := by
  have hsum := bitsum_over_order it prg (bitShareMap s0) s1
  rw [filter_mem_bitShareMap] at hsum
  simp only [lookup_bitShareMap, mem_bitShareMap] at hsum
  rw [bitSent, bitChosen, bitSent, bitSumAnswer, ← hsum, bitOrder, List.length_map]
  rfl

end Run

theorem bitSum_transcript (it0 it1 : Iteration Bool) (prg0 prg1 : ℕ → UInt64) (msg : InitMsg)
    (s0 s1 : Vector BitShare msg.numOfInputs.toNat) :
    ∃ r0 r1, Transcript (bitSum it0 prg0 msg 0 s0) (bitSum it1 prg1 msg 1 s1)
      (bitToServer0 it1 prg0 s0.toList s1.toList)
      [.ot (bitSent it1 prg0 s0.toList s1.toList).1] r0 r1 := by
  let pks := bitOrder it1 s1.toList
  let sent := bitSent it1 prg0 s0.toList s1.toList
  let b := bitsumOtReceiver 0 (bitChosen it1 prg0 s0.toList s1.toList)
  let numValid := (pks.map fun pk => decide (pk ∈ submittedPks s0.toList)).count true
  let r0 : BitSumResult :=
    if belowThreshold numValid msg.numOfInputs.toNat then ⟨.invalid, numValid, none⟩
    else ⟨.ans, numValid, some (sent.2 + b)⟩
  have hkeys := plays_recvPks pks
  have h0 : Plays (bitSum it0 prg0 msg 0 s0) (bitToServer0 it1 prg0 s0.toList s1.toList) [.ot sent.1] r0 := by
    refine (plays_recvAs (a := pks.length) rfl).bind (hkeys.bind ?_)
    simp only [lookup_bitShareMap, mem_bitShareMap]
    refine (plays_sendMsg _).bind ((plays_recvAs (a := b) rfl).bind_ret ?_)
    show (if _ then _ else _ : Server BitSumResult) = .ret (if _ then _ else _)
    split_ifs
    · rfl
    · rfl
  have h1 : Plays (bitSum it1 prg1 msg 1 s1) [.ot sent.1] (bitToServer0 it1 prg0 s0.toList s1.toList)
      { ret := .noAns, numValid := 0, ans := none } := by
    have hlen : sent.1.length = (bitChoices it1 s1.toList).length := by
      show (bitSent it1 prg0 s0.toList s1.toList).1.length = _
      rw [bitSent, length_bitsumOtSender, bitOrder, bitChoices, List.length_map, List.length_map]
    have hsize : pks.length = (it1.order (bitShareMap s1.toList)).length := List.length_map _
    unfold bitToServer0
    rw [show (bitOrder it1 s1.toList).length = (it1.order (bitShareMap s1.toList)).length from hsize]
    refine (plays_sendMsg _).bind ((plays_sendPks pks).bind ((plays_recvAs (if_pos hlen)).bind ?_))
    exact (plays_sendMsg _).bind_ret rfl
  exact ⟨_, _, (bitSum_terminates it0 it1 prg0 prg1 msg s0 s1).transcript h0 h1⟩

/-! ### Two assignments of values -/

/-- The masks of the clients, and the words of server 0 for the transfers. -/
abbrev BitDraws (n : ℕ) := (Fin n → Bool) × (Fin n → UInt64)

section Views

variable {n : ℕ} {it : Iteration Bool} {pks : Fin n → Pk}

/-- What a coalition of clients knows: values and masks. -/
def coalitionBits (coalition : Finset (Fin n)) (values : Fin n → Bool) (draws : BitDraws n) (i : coalition) :
    Bool × Bool :=
  (values i, draws.1 i)

theorem bitOrder_congr (hit : it.ByKeys) (values values' masks masks' : Fin n → Bool) :
    bitOrder it (bitShares1 pks values' masks').toList = bitOrder it (bitShares1 pks values masks).toList := by
  apply hit
  unfold bitShareMap
  rw [entries_bitShares1, entries_bitShares1]
  exact keys_receivedMap_honestEntries _ _

theorem length_bitOrder (hpks : Injective pks) (values masks : Fin n → Bool) :
    (bitOrder it (bitShares1 pks values masks).toList).length = n := by
  have hnodup : (bitOrder it (bitShares1 pks values masks).toList).Nodup := nodup_keys_iteration (it.perm _)
  have hkeys : (bitOrder it (bitShares1 pks values masks).toList).toFinset = univ.image pks := by
    ext pk
    rw [List.mem_toFinset, bitOrder, mem_keys_iteration (it.perm _), mem_bitShareMap, submittedPks_bitShares1]
  rw [← List.toFinset_card_of_nodup hnodup, hkeys, card_image_of_injective _ hpks, card_univ, Fintype.card_fin]

theorem mem_bitOrder {values masks : Fin n → Bool} {pk : Pk}
    (h : pk ∈ bitOrder it (bitShares1 pks values masks).toList) :
    pk ∈ univ.image pks := by
  rwa [bitOrder, mem_keys_iteration (it.perm _), mem_bitShareMap, submittedPks_bitShares1] at h

/-- What a choice adds to the word of the generator. -/
def otOffset (share choice : Bool) : UInt64 := if choice then 1 - 2 * share.toUInt64 else 0

theorem otChoose_bitsumPair (word : UInt64) (share choice : Bool) :
    otChoose (bitsumPair 0 word share true) choice = word + otOffset share choice := by
  cases choice with
  | false => exact (UInt64.add_zero word).symm
  | true =>
    show word + 1 - 2 * share.toUInt64 = word + (1 - 2 * share.toUInt64)
    rw [UInt64.sub_eq_add_neg, UInt64.sub_eq_add_neg, UInt64.add_assoc]

theorem bitChosen_honest (values : Fin n → Bool) (draws : BitDraws n) :
    bitChosen it (prgOf draws.2) (bitShares0 pks draws.1).toList (bitShares1 pks values draws.1).toList =
      (bitOrder it (bitShares1 pks values draws.1).toList).mapIdx fun i pk => prgOf draws.2 i +
        otOffset (firstVal (bitShares0 pks draws.1).toList pk)
          (firstVal (bitShares1 pks values draws.1).toList pk) := by
  let s0 := (bitShares0 pks draws.1).toList
  let s1 := (bitShares1 pks values draws.1).toList
  have hvalid : ∀ pk ∈ bitOrder it s1, decide (pk ∈ submittedPks s0) = true := by
    intro pk hpk
    show decide (pk ∈ submittedPks (bitShares0 pks draws.1).toList) = true
    rw [submittedPks_bitShares0]
    exact decide_eq_true (mem_bitOrder hpk)
  unfold bitChosen
  rw [bitChoices_eq]
  apply List.ext_getElem
  · simp [bitSent]
  · intro i hi hi'
    have hlt : i < (bitOrder it s1).length := by simpa using hi'
    have hflag : decide ((bitOrder it s1)[i] ∈ submittedPks s0) = true := hvalid _ (List.getElem_mem hlt)
    simp only [List.getElem_zipWith, bitSent, bitsumOtSender, List.getElem_map, List.getElem_range, List.getElem_mapIdx]
    rw [List.getD_eq_getElem _ _ (by simpa using hlt), List.getD_eq_getElem _ _ (by simpa using hlt), List.getElem_map,
      List.getElem_map]
    show otChoose (bitsumPair 0 _ _ (decide ((bitOrder it s1)[i] ∈ submittedPks s0))) _ = _
    rw [hflag, otChoose_bitsumPair]

/-- The masks absorb the change of the values, and the words of server 0 that of the offered entries. -/
theorem exists_bit_redraw1 (hit : it.ByKeys) (hpks : Injective pks) (coalition : Finset (Fin n))
    {values values' : Fin n → Bool}
    (hsame : ∀ i ∈ coalition, values i = values' i) :
    ∃ e : BitDraws n → BitDraws n, Injective e ∧ ∀ draws,
      bitShares1 pks values' (e draws).1 = bitShares1 pks values draws.1 ∧
      bitChosen it (prgOf (e draws).2) (bitShares0 pks (e draws).1).toList (bitShares1 pks values' (e draws).1).toList =
        bitChosen it (prgOf draws.2) (bitShares0 pks draws.1).toList (bitShares1 pks values draws.1).toList ∧
      ∀ i ∈ coalition, (e draws).1 i = draws.1 i := by
  let order := bitOrder it (bitShares1 pks values fun _ => false).toList
  have horder (v masks : Fin n → Bool) : bitOrder it (bitShares1 pks v masks).toList = order :=
    bitOrder_congr hit _ _ _ _
  have hlen : order.length = n := length_bitOrder hpks values _
  let offset (v masks : Fin n → Bool) (i : Fin n) : UInt64 :=
    let pk := order[i]
    otOffset (firstVal (bitShares0 pks masks).toList pk) (firstVal (bitShares1 pks v masks).toList pk)
  let mask (masks : Fin n → Bool) (i : Fin n) : Bool := masks i ^^ (values i ^^ values' i)
  refine ⟨fun draws => (mask draws.1, fun i => draws.2 i + offset values draws.1 i - offset values' (mask draws.1) i),
    ?_, fun draws => ⟨?_, ?_, fun i hi => ?_⟩⟩
  · rintro ⟨masks, words⟩ ⟨masks', words'⟩ h
    obtain ⟨hmask, hwords⟩ := Prod.mk.inj h
    obtain rfl : masks = masks' := by
      funext i
      have hi := congrFun hmask i
      simpa [mask] using hi
    refine Prod.ext rfl (funext fun i => ?_)
    have hi := congrFun hwords i
    simpa using hi
  · unfold bitShares1
    congr 1
    funext i
    show BitShare.mk (pks i) ((draws.1 i ^^ (values i ^^ values' i)) ^^ values' i) =
      BitShare.mk (pks i) (draws.1 i ^^ values i)
    congr 1
    cases draws.1 i <;> cases values i <;> cases values' i <;> rfl
  · rw [bitChosen_honest, bitChosen_honest, horder, horder]
    apply List.ext_getElem
    · simp
    · intro i hi hi'
      have hlt : i < order.length := by simpa using hi
      have hin : i < n := hlen ▸ hlt
      simp only [List.getElem_mapIdx, prgOf, hin, dif_pos]
      show _ + offset values draws.1 ⟨i, hin⟩ - offset values' (mask draws.1) ⟨i, hin⟩ +
        offset values' (mask draws.1) ⟨i, hin⟩ = _ + offset values draws.1 ⟨i, hin⟩
      rw [UInt64.sub_add_cancel]
  · show (draws.1 i ^^ (values i ^^ values' i)) = draws.1 i
    rw [hsame i hi, Bool.xor_self, Bool.xor_false]

theorem bitToServer0_congr (hit : it.ByKeys) (hpks : Injective pks) {values values' : Fin n → Bool}
    (htotal : ∑ i, (values' i).toNat = ∑ i, (values i).toNat) (draws : BitDraws n) :
    bitToServer0 it (prgOf draws.2) (bitShares0 pks draws.1).toList (bitShares1 pks values' draws.1).toList =
      bitToServer0 it (prgOf draws.2) (bitShares0 pks draws.1).toList (bitShares1 pks values draws.1).toList := by
  have horder :
      bitOrder it (bitShares1 pks values' draws.1).toList = bitOrder it (bitShares1 pks values draws.1).toList :=
    bitOrder_congr hit _ _ _ _
  -- the sum of server 1 is the answer without the sum of server 0
  have hadd := bitSent_add it (prgOf draws.2) (bitShares0 pks draws.1).toList (bitShares1 pks values draws.1).toList
  have hadd' := bitSent_add it (prgOf draws.2) (bitShares0 pks draws.1).toList (bitShares1 pks values' draws.1).toList
  rw [bitSumAnswer_honest values _ hpks] at hadd
  rw [bitSumAnswer_honest values' _ hpks, htotal, ← hadd, bitSent, bitSent, horder] at hadd'
  rw [bitToServer0, bitToServer0, horder, UInt64.add_right_inj _ |>.mp hadd']

theorem bitSum_reveals0 (hit : it.ByKeys) (hpks : Injective pks) (coalition : Finset (Fin n)) :
    RevealsOnly
      (fun values draws => (bitShares0 pks draws.1, draws.2,
        bitToServer0 it (prgOf draws.2) (bitShares0 pks draws.1).toList (bitShares1 pks values draws.1).toList,
        coalitionBits coalition values draws))
      fun values => (fun i : coalition => values i, ∑ i ∈ univ \ coalition, (values i).toNat) := by
  apply RevealsOnly.of_injective
  intro values values' hleak
  obtain ⟨hvalues, hsum⟩ := Prod.mk.inj hleak
  have hsame : ∀ i ∈ coalition, values i = values' i := fun i hi => congrFun hvalues ⟨i, hi⟩
  have htotal : ∑ i, (values' i).toNat = ∑ i, (values i).toNat := by
    rw [← sum_sdiff (subset_univ coalition), ← sum_sdiff (subset_univ coalition) (f := fun i => (values i).toNat),
      hsum]
    congr 1
    exact sum_congr rfl fun i hi => by rw [hsame i hi]
  refine ⟨id, injective_id, fun draws => ?_⟩
  refine Prod.ext rfl (Prod.ext rfl (Prod.ext (bitToServer0_congr hit hpks htotal draws) (funext fun i => ?_)))
  exact Prod.ext (hsame i i.2).symm rfl

theorem bitSum_reveals1 (hit : it.ByKeys) (hpks : Injective pks) (coalition : Finset (Fin n)) :
    RevealsOnly
      (fun values draws => (bitShares1 pks values draws.1,
        bitChosen it (prgOf draws.2) (bitShares0 pks draws.1).toList (bitShares1 pks values draws.1).toList,
        coalitionBits coalition values draws))
      fun values => fun i : coalition => values i := by
  apply RevealsOnly.of_injective
  intro values values' hleak
  have hsame : ∀ i ∈ coalition, values i = values' i := fun i hi => congrFun hleak ⟨i, hi⟩
  obtain ⟨e, hinj, he⟩ := exists_bit_redraw1 hit hpks coalition hsame
  refine ⟨e, hinj, fun draws => ?_⟩
  obtain ⟨hshares, hchosen, hmasks⟩ := he draws
  refine Prod.ext hshares (Prod.ext hchosen (funext fun i => ?_))
  exact Prod.ext (hsame i i.2).symm (hmasks i i.2)

end Views

/-- What is drawn: the blocks of the clients' keys, and the masks and words. A client that has a generator of its own
draws its key apart from its mask. -/
abbrev KeyedBitDraws (n : ℕ) := KeyBlocks n × BitDraws n

/-- `to0` and the pairs of the transfers are what goes over. With it, its own words and the requests of the coalition,
server 0 learns how many of the others hold a one, and server 1 learns nothing from the entries that it chooses. -/
structure BitSumPrivate (it0 it1 : Iteration Bool) (prg1 : ℕ → UInt64) (msg : InitMsg)
    (coalition : Finset (Fin msg.numOfInputs.toNat))
    (to0 : (Fin msg.numOfInputs.toNat → Bool) → KeyedBitDraws msg.numOfInputs.toNat → List Msg)
    (pairs : (Fin msg.numOfInputs.toNat → Bool) → KeyedBitDraws msg.numOfInputs.toNat → List (UInt64 × UInt64)) :
    Prop where
  run : ∀ values draws, ∃ r0 r1,
    Transcript (bitSum it0 (prgOf draws.2.2) msg 0 (bitShares0 (clientKeys draws.1) draws.2.1))
      (bitSum it1 prg1 msg 1 (bitShares1 (clientKeys draws.1) values draws.2.1)) (to0 values draws)
      [.ot (pairs values draws)] r0 r1
  server0 : RevealsOnly
    (fun values draws => (bitShares0 (clientKeys draws.1) draws.2.1, draws.2.2, to0 values draws,
      coalitionBits coalition values draws.2))
    fun values => (fun i : coalition => values i, ∑ i ∈ univ \ coalition, (values i).toNat)
  server1 : RevealsOnly
    (fun values draws => (bitShares1 (clientKeys draws.1) values draws.2.1,
      List.zipWith otChoose (pairs values draws)
        (bitChoices it1 (bitShares1 (clientKeys draws.1) values draws.2.1).toList),
      coalitionBits coalition values draws.2))
    fun values => fun i : coalition => values i

theorem bitSum_private (it0 : Iteration Bool) {it1 : Iteration Bool} (hit : it1.ByKeys) (prg1 : ℕ → UInt64)
    (msg : InitMsg) (coalition : Finset (Fin msg.numOfInputs.toNat)) :
    ∃ to0 pairs, BitSumPrivate it0 it1 prg1 msg coalition to0 pairs := by
  refine ⟨_, _, fun values draws => bitSum_transcript it0 it1 (prgOf draws.2.2) prg1 msg _ _, ?_, ?_⟩
  · exact RevealsOnly.of_fst fun blocks => bitSum_reveals0 hit (clientKeys_injective blocks) coalition
  · exact RevealsOnly.of_fst fun blocks => bitSum_reveals1 hit (clientKeys_injective blocks) coalition

theorem bitSum_private_firstClient :
    ∃ to0 pairs, BitSumPrivate default default (fun _ => 0) twoBitsMsg {⟨0, by decide⟩} to0 pairs :=
  bitSum_private default Iteration.byKeys_default _ twoBitsMsg _

end PrioPlus

import PrioPlus.Server.Snips

/-!
# Operations that check packets

What `var_op` and `linreg_op` have in common. Each server keeps the first submission of a key that passes its checks.
Server 1 sends its keys, both servers put their words in that order and convert them, and both check the packets.
Server 0 fills the slot of a key that it does not know with mock words and an empty packet, and tells server 1 which
slots are valid. Both then accumulate over the same slots (`snipServers_reaches`), which hold keys whose first
submissions passed the checks of both servers and the check of the packets (`getD_validSlots`).
-/

namespace PrioPlus

open Finset Lib.TwoParty Lib.FirstWins Lib.FlatLoop

/-- What an operation does with a submission: the checks on receipt, the words and their widths, the packet with its
circuit, and the words in slot `i` of server 0 for a key that it does not know. -/
structure SnipOp (S : Type) where
  pk : S → Pk
  ok : S → Bool
  packet : S → ClientPacket
  circuit : Circuit
  numFields : ℕ
  nbits : ℕ → ℕ
  row : S → List UInt64
  mockRow : ℕ → List UInt64
  length_row : ∀ s, (row s).length = numFields
  length_mockRow : ∀ i, (mockRow i).length = numFields

/-- What a server has after `accumulate`. -/
structure SnipResult where
  pks : List Pk
  sharesP : List ℤ
  valid : List Bool
  accum : List ℤ
  numValid : ℕ

/-- `accumulate`, with what it was called on. -/
def SnipResult.accumulated (pks : List Pk) (numFields : ℕ) (sharesP : List ℤ) (valid : List Bool) : SnipResult where
  pks := pks
  sharesP := sharesP
  valid := valid
  accum := (accumulate pks.length numFields sharesP valid).1
  numValid := (accumulate pks.length numFields sharesP valid).2

namespace SnipOp

variable {S : Type} (op : SnipOp S)

/-- The map after the receive loop: a known key is skipped, and so is what fails a check. -/
def shareMap (submissions : List S) : ShareMap S :=
  collect (fun x => op.ok x.2) (submissions.map fun s => (op.pk s, s))

/-- The words and the packet of each slot. Server 1 knows all keys. -/
def slots (shareMap : ShareMap S) (pks : List Pk) : List (List UInt64 × ClientPacket) :=
  pks.mapIdx fun i pk =>
    match shareMap.lookup pk with
    | some s => (op.row s, op.packet s)
    | none => (op.mockRow i, ClientPacket.new op.circuit.numMulGates)

def shares (shareMap : ShareMap S) (pks : List Pk) : List UInt64 := (op.slots shareMap pks).flatMap Prod.fst

def packets (shareMap : ShareMap S) (pks : List Pk) : List ClientPacket := (op.slots shareMap pks).map Prod.snd

/-- The branch of server 1. -/
def server1 (sync : SnipSync) (it : Iteration S) (prg : ℕ → UInt64) (shareMap : ShareMap S) : Server SnipResult := do
  let pks := (it.order shareMap).map Sigma.fst
  sendMsg (.size pks.length)
  sendPks pks
  let sharesP ← shareConvert prg 1 pks.length op.numFields op.nbits (op.shares shareMap pks)
  let snipValid ← validateSnips sync op.circuit 1 op.numFields (op.packets shareMap pks) sharesP
  let received ← recvBoolBatch pks.length
  let result := SnipResult.accumulated pks op.numFields sharesP (List.zipWith and received snipValid)
  sendFmpzs result.accum
  return result

/-- The branch of server 0, to the sums that it receives. -/
def server0 (sync : SnipSync) (prg : ℕ → UInt64) (shareMap : ShareMap S) : Server (SnipResult × List ℤ) := do
  let numInputs ← recvSize
  let pks ← recvPks numInputs
  let known := pks.map fun pk => decide (pk ∈ shareMap)
  let sharesP ← shareConvert prg 0 pks.length op.numFields op.nbits (op.shares shareMap pks)
  let snipValid ← validateSnips sync op.circuit 0 op.numFields (op.packets shareMap pks) sharesP
  let valid := List.zipWith and known snipValid
  sendMsg (.boolBatch valid)
  let b ← recvFmpzs op.numFields
  return (SnipResult.accumulated pks op.numFields sharesP valid, b)

/-! ### Slots -/

/-- The first submission of a key that passes the checks. -/
def first (submissions : List S) (pk : Pk) : Option S := submissions.find? fun s => op.pk s = pk ∧ op.ok s = true

theorem lookup_shareMap (submissions : List S) (pk : Pk) :
    (op.shareMap submissions).lookup pk = op.first submissions pk := by
  rw [shareMap, lookup_collect, first, List.find?_map, Option.map_map]
  simp [Function.comp_def]

theorem mem_shareMap (submissions : List S) (pk : Pk) :
    pk ∈ op.shareMap submissions ↔ ∃ s, op.first submissions pk = some s := by
  rw [← AList.lookup_isSome, lookup_shareMap, Option.isSome_iff_exists]

section Slots

variable (m : ShareMap S) (pks : List Pk)

@[simp] theorem length_slots : (op.slots m pks).length = pks.length := List.length_mapIdx

@[simp] theorem length_packets : (op.packets m pks).length = pks.length := by simp [packets]

theorem length_slot : ∀ slot ∈ op.slots m pks, slot.1.length = op.numFields := by
  intro slot hslot
  obtain ⟨i, hi, rfl⟩ := List.mem_mapIdx.mp hslot
  split
  · exact op.length_row _
  · exact op.length_mockRow _

variable {m pks} {i : ℕ} (hi : i < pks.length) {s : S} (hs : m.lookup pks[i] = some s)
include hs

theorem slots_of_lookup : (op.slots m pks)[i]? = some (op.row s, op.packet s) := by
  rw [slots, List.getElem?_mapIdx, List.getElem?_eq_getElem hi, Option.map_some, hs]

theorem valueAt_shares {j : ℕ} (hj : j < op.numFields) :
    valueAt (op.shares m pks) op.numFields i j = (op.row s).getD j 0 := by
  have hlen : i < (op.slots m pks).length := by rwa [length_slots]
  have hslot : (op.slots m pks)[i] = (op.row s, op.packet s) :=
    Option.some.inj ((List.getElem?_eq_getElem hlen).symm.trans (op.slots_of_lookup hi hs))
  rw [valueAt, shares, List.getD_eq_getElem?_getD, getElem?_flatMap_const (op.length_slot m pks) hlen hj, hslot,
    List.getD_eq_getElem?_getD]

theorem getD_packets (d : ClientPacket) : (op.packets m pks).getD i d = op.packet s := by
  rw [packets, List.getD_eq_getElem?_getD, List.getElem?_map, op.slots_of_lookup hi hs]
  rfl

end Slots

/-! ### The run -/

section Run

variable (sync : SnipSync) (it : Iteration S) (prg0 prg1 : ℕ → UInt64) (m0 m1 : ShareMap S) (pks : List Pk)

/-- The shares that server 0 converts to. -/
def converted0 : List ℤ := b2aOtOut0 prg0 pks.length op.numFields op.nbits (op.shares m0 pks) modWord

/-- The shares that server 1 converts to. -/
def converted1 : List ℤ :=
  b2aOtOut1 prg0 pks.length op.numFields op.nbits (op.shares m0 pks) (op.shares m1 pks) modWord

/-- The verdicts on the packets. -/
def verdicts : List Bool :=
  snipVerdicts sync op.circuit op.numFields (op.packets m0 pks) (op.packets m1 pks) (op.converted0 prg0 m0 pks)
    (op.converted1 prg0 m0 m1 pks)

/-- The array `valid` that both servers accumulate with. -/
def validSlots : List Bool :=
  List.zipWith and (pks.map fun pk => decide (pk ∈ m0)) (op.verdicts sync prg0 m0 m1 pks)

@[simp] theorem length_verdicts : (op.verdicts sync prg0 m0 m1 pks).length = pks.length := by simp [verdicts]

@[simp] theorem length_validSlots : (op.validSlots sync prg0 m0 m1 pks).length = pks.length := by simp [validSlots]

/-- Server 1's own verdicts change nothing in what it receives. -/
theorem zipWith_and_self (xs ys : List Bool) :
    List.zipWith and (List.zipWith and xs ys) ys = List.zipWith and xs ys := by
  induction xs generalizing ys with
  | nil => rfl
  | cons x xs ih =>
    cases ys with
    | nil => rfl
    | cons y ys =>
      rw [List.zipWith_cons_cons, List.zipWith_cons_cons, ih]
      simp

theorem snipServers_reaches (hpos : 0 < pks.length) (hpks : (it.order m1).map Sigma.fst = pks)
    (hfits : OtFits pks.length op.numFields op.nbits) :
    Reaches (.start (op.server0 sync prg0 m0) (op.server1 sync it prg1 m1))
      (.done
        (SnipResult.accumulated pks op.numFields (op.converted0 prg0 m0 pks) (op.validSlots sync prg0 m0 m1 pks),
          (accumulate pks.length op.numFields (op.converted1 prg0 m0 m1 pks)
            (op.validSlots sync prg0 m0 m1 pks)).1)
        (SnipResult.accumulated pks op.numFields (op.converted1 prg0 m0 m1 pks)
          (op.validSlots sync prg0 m0 m1 pks))) := by
  unfold server0 server1
  rw [hpks]
  refine Reaches.bind (reaches_recvAs10 rfl) ?_
  refine Reaches.bind (reaches_pks10 pks) ?_
  refine Reaches.bind (shareConvert_reaches prg0 prg1 _ _ hfits) ?_
  refine Reaches.bind (validateSnips_reaches _ _ _ _ _ _ _ (by simp) (by simpa using hpos)) ?_
  refine Reaches.bind (reaches_recvAs01 (if_pos (op.length_validSlots sync prg0 m0 m1 pks))) ?_
  rw [zipWith_and_self]
  have hsums := reaches_fmpzs10 (accumulate pks.length op.numFields (op.converted1 prg0 m0 m1 pks)
    (op.validSlots sync prg0 m0 m1 pks)).1
  rw [length_accumulate] at hsums
  exact Reaches.bind hsums (Reaches.refl _)

theorem snipServers_hangs (hpks : (it.order m1).map Sigma.fst = pks)
    (hfits : ¬ OtFits pks.length op.numFields op.nbits) :
    Hangs (op.server0 sync prg0 m0) (op.server1 sync it prg1 m1) := by
  unfold server0 server1
  rw [hpks]
  refine Reaches.bind_hangs (reaches_recvAs10 rfl) ?_
  refine Reaches.bind_hangs (reaches_pks10 pks) ?_
  exact (shareConvert_hangs prg0 prg1 _ _ hfits).bind _ _

/-- The check of slot `i`, for the submissions that the two servers hold in it. -/
def slotCheck (s0 s1 : S) (sharesP0 sharesP1 : List ℤ) (i : ℕ) : SnipInstance where
  ckt := op.circuit
  packet0 := op.packet s0
  packet1 := op.packet s1
  input0 j := sharesP0.getD (i * op.numFields + j) 0
  input1 j := sharesP1.getD (i * op.numFields + j) 0
  stale0 _ := 0
  stale1 _ := 0

variable {m1 pks} in
theorem getD_validSlots {i : ℕ} (hi : i < pks.length) {s1 : S} (hs1 : m1.lookup pks[i] = some s1) :
    (op.validSlots sync prg0 m0 m1 pks).getD i false = true ↔ ∃ s0, m0.lookup pks[i] = some s0 ∧
      (op.slotCheck s0 s1 (op.converted0 prg0 m0 pks) (op.converted1 prg0 m0 m1 pks) i).accepts shipped sync.x
        (sync.coeffAt op.circuit i) = true := by
  have hget : (op.validSlots sync prg0 m0 m1 pks).getD i false =
      (decide (pks[i] ∈ m0) && (op.verdicts sync prg0 m0 m1 pks).getD i false) := by
    rw [validSlots, List.getD_eq_getElem _ _ (by simpa using hi), List.getElem_zipWith, List.getElem_map,
      List.getD_eq_getElem _ _ (by simpa using hi)]
  have hverdict : (op.verdicts sync prg0 m0 m1 pks).getD i false =
      (snipInstance op.circuit op.numFields (op.packets m0 pks) (op.packets m1 pks) (op.converted0 prg0 m0 pks)
        (op.converted1 prg0 m0 m1 pks) i).accepts shipped sync.x (sync.coeffAt op.circuit i) := by
    rw [verdicts, snipVerdicts, getD_map_range, if_pos (by simpa using hi)]
  rw [hget, hverdict, Bool.and_eq_true, decide_eq_true_iff, ← AList.lookup_isSome, Option.isSome_iff_exists,
    ← exists_and_right]
  refine exists_congr fun s0 => and_congr_right fun hs0 => ?_
  rw [snipInstance, op.getD_packets hi hs0, op.getD_packets hi hs1, slotCheck]

end Run

/-! ### Agreement -/

/-- What the two servers agree on, and what the combined sums `totals` are. -/
structure Agreement (sync : SnipSync) (prg0 : ℕ → UInt64) (submissions0 submissions1 : List S)
    (r0 r1 : SnipResult) (totals : List ℤ) : Prop where
  pks_eq : r1.pks = r0.pks
  pks_nodup : r0.pks.Nodup
  mem_pks : ∀ pk, pk ∈ r0.pks ↔ ∃ s1, op.first submissions1 pk = some s1
  valid_eq : r1.valid = r0.valid
  length_valid : r0.valid.length = r0.pks.length
  valid_iff : ∀ (i : ℕ) (hi : i < r0.pks.length), r0.valid.getD i false = true ↔
    ∃ s0 s1, op.first submissions0 r0.pks[i] = some s0 ∧ op.first submissions1 r0.pks[i] = some s1 ∧
      (op.slotCheck s0 s1 r0.sharesP r1.sharesP i).accepts shipped sync.x (sync.coeffAt op.circuit i) = true
  sharesP_eq : ∀ (i : ℕ) (hi : i < r0.pks.length) (s0 s1 : S), op.first submissions0 r0.pks[i] = some s0 →
    op.first submissions1 r0.pks[i] = some s1 → ∀ j < op.numFields,
      r0.sharesP.getD (i * op.numFields + j) 0 = (intsumSender (fun k => prg0 (bitIdx op.numFields op.nbits i j k))
        ((op.row s0).getD j 0) (op.nbits j)).toNat ∧
      r1.sharesP.getD (i * op.numFields + j) 0 = (intsumReceiver (fun k => prg0 (bitIdx op.numFields op.nbits i j k))
        ((op.row s0).getD j 0) ((op.row s1).getD j 0) (op.nbits j)).toNat
  numValid_eq0 : r0.numValid = #{i ∈ range r0.pks.length | r0.valid.getD i false}
  numValid_eq1 : r1.numValid = r0.numValid
  totals_eq : ∀ j < op.numFields, totals.getD j 0 =
    (∑ i ∈ range r0.pks.length with r0.valid.getD i false,
      (r0.sharesP.getD (i * op.numFields + j) 0 + r1.sharesP.getD (i * op.numFields + j) 0)) % intModulus

variable (sync : SnipSync) (it : Iteration S) (prg0 : ℕ → UInt64) (submissions0 submissions1 : List S)

/-- The keys that server 1 sends. -/
def sentPks : List Pk := (it.order (op.shareMap submissions1)).map Sigma.fst

/-- The counters of the conversion get through the batch of server 1. -/
def Fits (submissions1 : List S) : Prop := OtFits (op.shareMap submissions1).entries.length op.numFields op.nbits

theorem length_shareMap_of_nodup (hnodup : (submissions1.map op.pk).Nodup) (hok : ∀ s ∈ submissions1, op.ok s = true) :
    (op.shareMap submissions1).entries.length = submissions1.length := by
  refine (length_collect_of_nodup ?_ ?_).trans (List.length_map _)
  · rw [List.map_map]
    exact hnodup
  · rintro _ hx
    obtain ⟨s, hs, rfl⟩ := List.mem_map.mp hx
    exact hok s hs

theorem length_sentPks : (op.sentPks it submissions1).length = (op.shareMap submissions1).entries.length := by
  rw [sentPks, List.length_map, Iteration.length_order]

theorem fits_iff : op.Fits submissions1 ↔ OtFits (op.sentPks it submissions1).length op.numFields op.nbits := by
  rw [Fits, length_sentPks]

theorem mem_sentPks (pk : Pk) : pk ∈ op.sentPks it submissions1 ↔ ∃ s1, op.first submissions1 pk = some s1 := by
  rw [sentPks, mem_keys_iteration (it.perm _), mem_shareMap]

theorem sentPks_pos (h : ∃ s ∈ submissions1, op.ok s = true) : 0 < (op.sentPks it submissions1).length := by
  obtain ⟨s, hs, hok⟩ := h
  apply List.length_pos_of_mem (a := op.pk s)
  rw [mem_sentPks, ← Option.isSome_iff_exists, first, List.find?_isSome]
  exact ⟨s, hs, by simp [hok]⟩

/-- The array `valid` of the run. -/
def sentValid : List Bool :=
  op.validSlots sync prg0 (op.shareMap submissions0) (op.shareMap submissions1) (op.sentPks it submissions1)

def sentShares0 : List ℤ := op.converted0 prg0 (op.shareMap submissions0) (op.sentPks it submissions1)

def sentShares1 : List ℤ :=
  op.converted1 prg0 (op.shareMap submissions0) (op.shareMap submissions1) (op.sentPks it submissions1)

/-- What server 0 has in the end. -/
def result0 : SnipResult :=
  SnipResult.accumulated (op.sentPks it submissions1) op.numFields (op.sentShares0 it prg0 submissions0 submissions1)
    (op.sentValid sync it prg0 submissions0 submissions1)

/-- What server 1 has in the end. -/
def result1 : SnipResult :=
  SnipResult.accumulated (op.sentPks it submissions1) op.numFields (op.sentShares1 it prg0 submissions0 submissions1)
    (op.sentValid sync it prg0 submissions0 submissions1)

theorem server_reaches (prg1 : ℕ → UInt64) (h : ∃ s ∈ submissions1, op.ok s = true) (hfits : op.Fits submissions1) :
    Reaches
      (.start (op.server0 sync prg0 (op.shareMap submissions0)) (op.server1 sync it prg1 (op.shareMap submissions1)))
      (.done
        (op.result0 sync it prg0 submissions0 submissions1, (op.result1 sync it prg0 submissions0 submissions1).accum)
        (op.result1 sync it prg0 submissions0 submissions1)) :=
  op.snipServers_reaches sync it prg0 prg1 _ _ _ (op.sentPks_pos it submissions1 h) rfl
    ((op.fits_iff it submissions1).mp hfits)

theorem server_hangs (prg1 : ℕ → UInt64) (hfits : ¬ op.Fits submissions1) :
    Hangs (op.server0 sync prg0 (op.shareMap submissions0)) (op.server1 sync it prg1 (op.shareMap submissions1)) :=
  op.snipServers_hangs sync it prg0 prg1 _ _ _ rfl (mt (op.fits_iff it submissions1).mpr hfits)

/-- With no submission on server 1 there is no circuit to read, and both servers are stuck. -/
theorem server_reaches_stuck (prg1 : ℕ → UInt64) (h : ∀ s ∈ submissions1, op.ok s = false)
    (hfits : op.Fits submissions1) :
    Reaches
      (.start (op.server0 sync prg0 (op.shareMap submissions0)) (op.server1 sync it prg1 (op.shareMap submissions1)))
      (.start .stuck .stuck) := by
  have hnone : op.sentPks it submissions1 = [] := by
    apply List.eq_nil_iff_forall_not_mem.mpr
    intro pk hpk
    obtain ⟨s, hs⟩ := (op.mem_sentPks it submissions1 pk).mp hpk
    have hok : op.pk s = pk ∧ op.ok s = true := by simpa using List.find?_some hs
    rw [h s (List.mem_of_find?_eq_some hs)] at hok
    exact Bool.false_ne_true hok.2
  rw [op.fits_iff it submissions1, hnone] at hfits
  rw [sentPks] at hnone
  unfold server0 server1
  rw [hnone]
  refine Reaches.bind (reaches_recvAs10 rfl) ?_
  refine Reaches.bind (reaches_pks10 []) ?_
  exact Reaches.bind (shareConvert_reaches prg0 prg1 _ _ hfits) (Reaches.refl _)

section Fields

variable (prg0 : ℕ → UInt64) (submissions0 submissions1 : List S)

@[simp] theorem pks_result0 :
    (op.result0 sync it prg0 submissions0 submissions1).pks = op.sentPks it submissions1 := rfl

@[simp] theorem pks_result1 :
    (op.result1 sync it prg0 submissions0 submissions1).pks = op.sentPks it submissions1 := rfl

@[simp] theorem valid_result0 : (op.result0 sync it prg0 submissions0 submissions1).valid =
    op.sentValid sync it prg0 submissions0 submissions1 := rfl

@[simp] theorem valid_result1 : (op.result1 sync it prg0 submissions0 submissions1).valid =
    op.sentValid sync it prg0 submissions0 submissions1 := rfl

@[simp] theorem sharesP_result0 : (op.result0 sync it prg0 submissions0 submissions1).sharesP =
    op.sentShares0 it prg0 submissions0 submissions1 := rfl

@[simp] theorem sharesP_result1 : (op.result1 sync it prg0 submissions0 submissions1).sharesP =
    op.sentShares1 it prg0 submissions0 submissions1 := rfl

theorem numValid_result0 : (op.result0 sync it prg0 submissions0 submissions1).numValid =
    #{i ∈ range (op.sentPks it submissions1).length |
      (op.sentValid sync it prg0 submissions0 submissions1).getD i false} := accumulate_count _ _ _ _

theorem numValid_result1 : (op.result1 sync it prg0 submissions0 submissions1).numValid =
    #{i ∈ range (op.sentPks it submissions1).length |
      (op.sentValid sync it prg0 submissions0 submissions1).getD i false} := accumulate_count _ _ _ _

end Fields

theorem getD_sentShares {i : ℕ} (hi : i < (op.sentPks it submissions1).length) {s0 s1 : S}
    (hs0 : op.first submissions0 (op.sentPks it submissions1)[i] = some s0)
    (hs1 : op.first submissions1 (op.sentPks it submissions1)[i] = some s1) {j : ℕ} (hj : j < op.numFields) :
    (op.sentShares0 it prg0 submissions0 submissions1).getD (i * op.numFields + j) 0 =
        (intsumSender (fun k => prg0 (bitIdx op.numFields op.nbits i j k)) ((op.row s0).getD j 0) (op.nbits j)).toNat ∧
      (op.sentShares1 it prg0 submissions0 submissions1).getD (i * op.numFields + j) 0 =
        (intsumReceiver (fun k => prg0 (bitIdx op.numFields op.nbits i j k)) ((op.row s0).getD j 0)
          ((op.row s1).getD j 0) (op.nbits j)).toNat := by
  have hvalue0 := op.valueAt_shares hi ((op.lookup_shareMap submissions0 _).trans hs0) hj
  have hvalue1 := op.valueAt_shares hi ((op.lookup_shareMap submissions1 _).trans hs1) hj
  rw [sentShares0, sentShares1, converted0, converted1, getD_b2aOtOut0 prg0 hi hj, getD_b2aOtOut1 prg0 hi hj, hvalue0,
    hvalue1]
  exact ⟨rfl, rfl⟩

theorem getD_sentValid {i : ℕ} (hi : i < (op.sentPks it submissions1).length) :
    (op.sentValid sync it prg0 submissions0 submissions1).getD i false = true ↔
      ∃ s0 s1, op.first submissions0 (op.sentPks it submissions1)[i] = some s0 ∧
        op.first submissions1 (op.sentPks it submissions1)[i] = some s1 ∧
        (op.slotCheck s0 s1 (op.sentShares0 it prg0 submissions0 submissions1)
          (op.sentShares1 it prg0 submissions0 submissions1) i).accepts shipped sync.x
            (sync.coeffAt op.circuit i) = true := by
  obtain ⟨s1, hs1⟩ := (op.mem_sentPks it submissions1 _).mp (List.getElem_mem hi)
  have hlookup1 := (op.lookup_shareMap submissions1 (op.sentPks it submissions1)[i]).trans hs1
  have hvalid := op.getD_validSlots sync prg0 (op.shareMap submissions0) hi hlookup1
  rw [lookup_shareMap] at hvalid
  refine hvalid.trans (exists_congr fun s0 => ?_)
  constructor
  · rintro ⟨hs0, haccepts⟩
    exact ⟨s1, hs0, hs1, haccepts⟩
  · rintro ⟨s, hs0, hs, haccepts⟩
    obtain rfl : s1 = s := Option.some.inj (hs1.symm.trans hs)
    exact ⟨hs0, haccepts⟩

theorem agreement : op.Agreement sync prg0 submissions0 submissions1 (op.result0 sync it prg0 submissions0 submissions1)
    (op.result1 sync it prg0 submissions0 submissions1)
    (sumAccumulates op.numFields (op.result0 sync it prg0 submissions0 submissions1).accum
      (op.result1 sync it prg0 submissions0 submissions1).accum) where
  pks_eq := pks_result1 _ _ _ _ _ _
  pks_nodup := nodup_keys_iteration (it.perm _)
  mem_pks := op.mem_sentPks it submissions1
  valid_eq := valid_result1 _ _ _ _ _ _
  length_valid := op.length_validSlots _ _ _ _ _
  valid_iff _ hi := op.getD_sentValid sync it prg0 submissions0 submissions1 hi
  sharesP_eq _ hi _ _ hs0 hs1 _ hj := op.getD_sentShares it prg0 submissions0 submissions1 hi hs0 hs1 hj
  numValid_eq0 := numValid_result0 _ _ _ _ _ _
  numValid_eq1 := (numValid_result1 _ _ _ _ _ _).trans (numValid_result0 _ _ _ _ _ _).symm
  totals_eq _ hj := getD_sumAccumulates_eq _ hj _ _ _

end SnipOp

end PrioPlus

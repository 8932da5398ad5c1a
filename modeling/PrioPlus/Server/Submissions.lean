import PrioPlus.Client.LinReg
import PrioPlus.NetShare.Structs
import PrioPlus.Server.Script
import PrioPlus.Server.WireFormat

/-!
# Submissions as bytes

A client sends a `BitShare`, an `IntShare` or a `VarShare` as it is in memory, the arrays of the other structures on
their own, and the packets of `VAR` and `LINREG` after the shares. Each is read by the receive loop of its operation as
it was. The `packet_bytes` that a server gets for a packet is the number of its bytes (`restores_packet`), and those of
`share_polynomials` fit (`packetFits_sharePolynomials0`, `packetFits_sharePolynomials1`).
-/

namespace PrioPlus

open NetShare

/-! ### Submissions -/

section Structs

variable (arrival : Arrival)

/-- `BitShare` has 33 bytes. -/
def sendBitShare (s : BitShare) : Sent := NetShare.send (s.pk.toList ++ [if s.val then 1 else 0])

def recvBitShare : List UInt8 → Received BitShare :=
  recvStruct arrival 33 fun buf => ⟨arrayOf 32 0 buf, buf.getD 32 0 ≠ 0⟩

theorem restores_bitShare (s : BitShare) : Restores (sendBitShare s) (recvBitShare arrival) s := by
  apply restores_struct
  · simp
  · norm_num
  · have hval : (s.pk.toList ++ [if s.val then (1 : UInt8) else 0]).getD 32 0 = if s.val then 1 else 0 := by
      rw [List.getD_append_right _ _ _ _ (by simp)]
      simp
    rw [arrayOf_append, hval]
    cases s with
    | mk pk val => cases val <;> rfl

/-- `IntShare` has 40 bytes. -/
def sendIntShare (s : IntShare) : Sent := NetShare.send (s.pk.toList ++ wordBytes 8 s.val.toNat)

def recvIntShare : List UInt8 → Received IntShare :=
  recvStruct arrival 40 fun buf => ⟨arrayOf 32 0 buf, UInt64.ofNat (wordAt 32 8 buf)⟩

theorem restores_intShare (s : IntShare) : Restores (sendIntShare s) (recvIntShare arrival) s := by
  apply restores_struct
  · simp [length_wordBytes]
  · norm_num
  · rw [arrayOf_append, wordAt_last Vector.length_toList s.val.toNat_lt, UInt64.ofNat_toNat]

/-- `VarShare` has 48 bytes. -/
def sendVarShare (s : VarShare) : Sent :=
  NetShare.send (s.pk.toList ++ (wordBytes 8 s.val.toNat ++ wordBytes 8 s.valSquared.toNat))

def recvVarShare : List UInt8 → Received VarShare :=
  recvStruct arrival 48 fun buf =>
    ⟨arrayOf 32 0 buf, UInt64.ofNat (wordAt 32 8 buf), UInt64.ofNat (wordAt 40 8 buf)⟩

theorem restores_varShare (s : VarShare) : Restores (sendVarShare s) (recvVarShare arrival) s := by
  have hbefore : (s.pk.toList ++ wordBytes 8 s.val.toNat).length = 40 := by simp [length_wordBytes]
  have hsquared := @wordAt_last _ 40 hbefore 8 _ s.valSquared.toNat_lt
  rw [List.append_assoc] at hsquared
  apply restores_struct
  · simp [length_wordBytes]
  · norm_num
  · rw [arrayOf_append, wordAt_append Vector.length_toList s.val.toNat_lt, hsquared, UInt64.ofNat_toNat,
      UInt64.ofNat_toNat]

/-! ### Arrays -/

def recvUint64Array (n : ℕ) (stream : List UInt8) : Received (Vector UInt64 n) :=
  (NetShare.recvUint64Batch arrival n stream).map fun (ret, buf, rest) => (ret, arrayOf n 0 buf, rest)

theorem restores_uint64Array {n : ℕ} (hn : n * 8 < 2 ^ 32) (xs : Vector UInt64 n) :
    Restores (sendUint64Batch xs.toList) (recvUint64Array arrival n) xs := by
  have hbatch := restores_uint64Batch arrival (x := xs.toList) (by rwa [Vector.length_toList])
  rw [Vector.length_toList] at hbatch
  have harray := hbatch.map (f := arrayOf n 0)
  rwa [arrayOf_toList] at harray

def recvBoolArray (n : ℕ) (stream : List UInt8) : Received (Vector Bool n) :=
  (NetShare.recvBoolBatch arrival n stream).map fun (ret, buf, rest) => (ret, arrayOf n false buf, rest)

theorem restores_boolArray {n : ℕ} (hn : n < 2 ^ 32) (xs : Vector Bool n) :
    Restores (sendBoolBatch xs.toList) (recvBoolArray arrival n) xs := by
  have hbatch := (restoresAs_boolBatch arrival (x := xs.toList) (by rwa [Vector.length_toList])).restores
  rw [Vector.length_toList] at hbatch
  have harray := hbatch.map (f := arrayOf n false)
  rwa [arrayOf_toList] at harray

/-- `send_maxshare`. -/
def sendMaxshare {B : UInt32} (s : MaxShare B) : Sent :=
  (NetShare.send s.pk.toList).plus (sendUint64Batch s.arr.toList)

def recvMaxshare (B : UInt32) (stream : List UInt8) : Received (MaxShare B) :=
  (recvPk arrival stream).andThen fun pk rest =>
    (recvUint64Array arrival (B + 1).toNat rest).map fun (ret, arr, rest) => (ret, ⟨pk, arr⟩, rest)

theorem restores_maxshare {B : UInt32} (hB : (B + 1).toNat * 8 < 2 ^ 32) (s : MaxShare B) :
    Restores (sendMaxshare s) (recvMaxshare arrival B) s :=
  (restores_pk arrival s.pk).andThen ((restores_uint64Array arrival hB s.arr).map (f := MaxShare.mk s.pk))

/-- `send_freqshare`. -/
def sendFreqshare {n : ℕ} (s : FreqShare n) : Sent := (NetShare.send s.pk.toList).plus (sendBoolBatch s.arr.toList)

def recvFreqshare (n : ℕ) (stream : List UInt8) : Received (FreqShare n) :=
  (recvPk arrival stream).andThen fun pk rest =>
    (recvBoolArray arrival n rest).map fun (ret, arr, rest) => (ret, ⟨pk, arr⟩, rest)

theorem restores_freqshare {n : ℕ} (hn : n < 2 ^ 32) (s : FreqShare n) :
    Restores (sendFreqshare s) (recvFreqshare arrival n) s :=
  (restores_pk arrival s.pk).andThen ((restores_boolArray arrival hn s.arr).map (f := FreqShare.mk s.pk))

/-- `send_linregshare`. With degree 0 `num_x` wraps around. -/
def sendLinregshare {degree : ℕ} (s : LinRegShare degree) : Sent :=
  if degree = 0 then none
  else (NetShare.send s.pk.toList).plus ((sendUint64Batch s.xVals.toList).plus ((sendUint64 s.y).plus
    ((sendUint64Batch s.x2Vals.toList).plus (sendUint64Batch s.xyVals.toList))))

def recvLinregshare (degree : ℕ) (stream : List UInt8) : Received (LinRegShare degree) :=
  if degree = 0 then none
  else (recvPk arrival stream).andThen fun pk rest =>
    (recvUint64Array arrival (numX degree) rest).andThen fun xVals rest =>
      (NetShare.recvUint64 arrival rest).andThen fun y rest =>
        (recvUint64Array arrival (numQuad degree) rest).andThen fun x2Vals rest =>
          (recvUint64Array arrival (numX degree) rest).map fun (ret, xyVals, rest) =>
            (ret, ⟨pk, xVals, y, x2Vals, xyVals⟩, rest)

theorem restores_linregshare {degree : ℕ} (hdegree : degree ≠ 0) (hx : numX degree * 8 < 2 ^ 32)
    (hquad : numQuad degree * 8 < 2 ^ 32) (s : LinRegShare degree) :
    Restores (sendLinregshare s) (recvLinregshare arrival degree) s := by
  unfold sendLinregshare recvLinregshare
  simp only [if_neg hdegree]
  refine (restores_pk arrival s.pk).andThen ?_
  refine (restores_uint64Array arrival hx s.xVals).andThen ?_
  refine (restores_uint64 arrival s.y).andThen ?_
  refine (restores_uint64Array arrival hquad s.x2Vals).andThen ?_
  exact (restores_uint64Array arrival hx s.xyVals).map (f := LinRegShare.mk s.pk s.xVals s.y s.x2Vals)

/-! ### Packets -/

/-- A packet with its number of products, and what `recv_ClientPacket` returned. -/
abbrev ReceivedPacket (nMul : ℕ) : Type := { packet : ClientPacket // packet.nMul = nMul } × ℤ

theorem recvEach_all {β : Type} {P : β → Prop} {len : ℕ} {old : List ℤ} {early : List ℤ → β} {total : ℤ}
    {stream : List UInt8} {next : List ℤ → ℤ → List UInt8 → Received β} (hearly : ∀ xs, P (early xs))
    (hnext : ∀ xs total rest y, next xs total rest = some y → P y.2.1) {y : ℤ × β × List UInt8}
    (h : recvEach arrival len old early total stream next = some y) : P y.2.1 := by
  induction old generalizing early next total stream with
  | nil => exact hnext _ _ _ _ h
  | cons x old ih =>
    obtain ⟨⟨ret, a, rest⟩, -, hstep⟩ := Option.bind_eq_some_iff.mp h
    dsimp only at hstep
    split at hstep
    · obtain rfl := Option.some.inj hstep
      exact hearly _
    · exact ih (fun xs => hearly _) (fun xs => hnext _) hstep

theorem recvClientPacket_nMul {len : ℕ} {old : ClientPacket} {stream : List UInt8} {y : ℤ × ClientPacket × List UInt8}
    (h : recvClientPacket arrival len old stream = some y) : y.2.1.nMul = old.nMul := by
  unfold recvClientPacket at h
  split at h
  · refine @recvEach_all arrival _ (fun packet => packet.nMul = old.nMul) _ _ _ _ _ _ (fun xs => rfl) ?_ _ h
    intro xs total rest y hy
    obtain ⟨⟨ret, triple, rest'⟩, -, hstep⟩ := Option.bind_eq_some_iff.mp hy
    dsimp only at hstep
    split at hstep
    · obtain rfl := Option.some.inj hstep
      rfl
    · obtain rfl := Option.some.inj hstep
      rfl
  · exact absurd h (by simp)

/-- `recv_ClientPacket` into a new packet. -/
def recvPacket (nMul : ℕ) (stream : List UInt8) : Received (ReceivedPacket nMul) :=
  match h : recvClientPacket arrival intSize (ClientPacket.new nMul) stream with
  | none => none
  | some (ret, packet, rest) => some (ret, (⟨packet, recvClientPacket_nMul arrival h⟩, ret), rest)

theorem recvPacket_eq {nMul : ℕ} {stream rest : List UInt8} {ret : ℤ} {packet : ClientPacket}
    (h : recvClientPacket arrival intSize (ClientPacket.new nMul) stream = some (ret, packet, rest)) :
    recvPacket arrival nMul stream = some (ret, (⟨packet, recvClientPacket_nMul arrival h⟩, ret), rest) := by
  unfold recvPacket
  split
  case h_1 hnone => exact absurd (hnone.symm.trans h) (by simp)
  case h_2 ret' packet' rest' hsome =>
    obtain ⟨rfl, rfl, rfl⟩ := by simpa using hsome.symm.trans h
    rfl

/-- The values of a packet are in the field, and an `int` counts its bytes. -/
structure PacketFits (packet : ClientPacket) (packetBytes : ℤ) : Prop where
  size : 8 * packetSize packet.nMul < 2 ^ 31
  fields : ∀ x ∈ packetFields packet, InField x
  triple : ∀ x ∈ [packet.tripleShare.shareA, packet.tripleShare.shareB, packet.tripleShare.shareC], InField x
  bytes : packetBytes = LinRegClient.packetBytes packet

theorem restores_packet {nMul : ℕ} {packet : ClientPacket} {bytes : ℤ} (hnMul : packet.nMul = nMul)
    (h : PacketFits packet bytes) :
    Restores (sendClientPacket intSize packet) (recvPacket arrival nMul) (⟨packet, hnMul⟩, bytes) := by
  subst hnMul
  have hread := @restoresAs_clientPacket arrival intSize intSize_pos packet (ClientPacket.new packet.nMul) rfl
    (by rw [intSize_eq]; exact h.size) (fun x hx => (h.fields x hx).inLimbs) fun x hx => (h.triple x hx).inLimbs
  obtain ⟨sent, hs, hr⟩ := hread
  have hbytes : bytes = (intSize * 8 * packetSize packet.nMul : ℕ) := by
    rw [h.bytes, LinRegClient.packetBytes, intSize_eq, packetSize]
    push_cast
    ring
  refine ⟨_, sent, hs, fun rest => ?_⟩
  rw [recvPacket_eq arrival (hr rest), hbytes]

/-- What `var_op_helper` sends for a submission, and what `var_op` reads. -/
def sendVarSubmission (s : VarSubmission) : Sent := (sendVarShare s.share).plus (sendClientPacket intSize s.packet)

def recvVarSubmission (stream : List UInt8) : Received VarSubmission :=
  (recvVarShare arrival stream).andThen fun share rest =>
    (recvPacket arrival (checkVar shipped).numMulGates rest).map fun (ret, packet, rest) =>
      (ret, ⟨share, packet.1.1, packet.2, packet.1.2⟩, rest)

theorem restores_varSubmission {s : VarSubmission} (h : PacketFits s.packet s.packetBytes) :
    Restores (sendVarSubmission s) (recvVarSubmission arrival) s := by
  have hpacket := restores_packet arrival s.nMul_eq h
  have hlast := hpacket.map (f := fun packet => VarSubmission.mk s.share packet.1.1 packet.2 packet.1.2)
  exact (restores_varShare arrival s.share).andThen hlast

/-- What `lin_reg_helper` sends for a submission, and what `linreg_op` reads. -/
def sendLinRegSubmission {degree : ℕ} (s : LinRegSubmission degree) : Sent :=
  (sendLinregshare s.share).plus (sendClientPacket intSize s.packet)

def recvLinRegSubmission (degree : ℕ) (stream : List UInt8) : Received (LinRegSubmission degree) :=
  (recvLinregshare arrival degree stream).andThen fun share rest =>
    (recvPacket arrival (checkLinReg shipped degree).numMulGates rest).map fun (ret, packet, rest) =>
      (ret, ⟨share, packet.1.1, packet.2, packet.1.2⟩, rest)

theorem restores_linRegSubmission {degree : ℕ} (hdegree : degree ≠ 0) (hx : numX degree * 8 < 2 ^ 32)
    (hquad : numQuad degree * 8 < 2 ^ 32) {s : LinRegSubmission degree} (h : PacketFits s.packet s.packetBytes) :
    Restores (sendLinRegSubmission s) (recvLinRegSubmission arrival degree) s := by
  have hpacket := restores_packet arrival s.nMul_eq h
  have hlast := hpacket.map (f := fun packet => LinRegSubmission.mk s.share packet.1.1 packet.2 packet.1.2)
  exact (restores_linregshare arrival hdegree hx hquad s.share).andThen hlast

end Structs

/-! ### The packets of `share_polynomials` -/

/-- `fmpz_randm` draws from the field. -/
structure ShareDraws.InField (d : ShareDraws) : Prop where
  hMask : ∀ i, PrioPlus.InField (d.hMask i)
  f0Mask : PrioPlus.InField d.f0Mask
  g0Mask : PrioPlus.InField d.g0Mask
  h0Mask : PrioPlus.InField d.h0Mask
  mulMask : ∀ i, PrioPlus.InField (d.mulMask i)
  maskA : PrioPlus.InField d.maskA
  maskB : PrioPlus.InField d.maskB
  maskC : PrioPlus.InField d.maskC

theorem inField_splitShare_snd (val r : ℤ) : InField (splitShare shipped val r).2 :=
  ⟨Int.emod_nonneg _ (by decide), Int.emod_lt_of_pos _ (by decide)⟩

section Honest

variable {t : RootTables} {c : Circuit} {wire : ℕ → ℤ} {d : ShareDraws}

theorem packetFits_sharePolynomials0 (hd : d.InField) (hsize : 8 * packetSize c.numMulGates < 2 ^ 31) :
    PacketFits (sharePolynomials shipped t c wire d).2.1
      (LinRegClient.packetBytes (sharePolynomials shipped t c wire d).2.1) := by
  refine ⟨hsize, fun x hx => ?_, fun x hx => ?_, rfl⟩
  · simp only [packetFields, sharePolynomials, Circuit.getMulShares, splitShare, List.map_map, List.mem_append,
      List.mem_map, List.mem_cons, List.not_mem_nil, or_false, Function.comp_apply] at hx
    rcases hx with (⟨i, -, rfl⟩ | rfl | rfl | rfl) | ⟨i, -, rfl⟩
    · exact hd.mulMask i
    · exact hd.f0Mask
    · exact hd.g0Mask
    · exact hd.h0Mask
    · exact hd.hMask i
  · simp only [sharePolynomials, beaverTripleShares, splitShare, List.mem_cons, List.not_mem_nil, or_false] at hx
    rcases hx with rfl | rfl | rfl
    · exact hd.maskA
    · exact hd.maskB
    · exact hd.maskC

theorem packetFits_sharePolynomials1 (hsize : 8 * packetSize c.numMulGates < 2 ^ 31) :
    PacketFits (sharePolynomials shipped t c wire d).2.2
      (LinRegClient.packetBytes (sharePolynomials shipped t c wire d).2.2) := by
  refine ⟨hsize, fun x hx => ?_, fun x hx => ?_, rfl⟩
  · simp only [packetFields, sharePolynomials, Circuit.getMulShares, List.map_map, List.mem_append,
      List.mem_map, List.mem_cons, List.not_mem_nil, or_false, Function.comp_apply] at hx
    rcases hx with (⟨i, -, rfl⟩ | rfl | rfl | rfl) | ⟨i, -, rfl⟩
    all_goals exact inField_splitShare_snd _ _
  · simp only [sharePolynomials, beaverTripleShares, List.mem_cons, List.not_mem_nil, or_false] at hx
    rcases hx with rfl | rfl | rfl
    all_goals exact inField_splitShare_snd _ _

end Honest

end PrioPlus

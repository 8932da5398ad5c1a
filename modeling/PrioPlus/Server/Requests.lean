import PrioPlus.Server.Submissions
import PrioPlus.Server.VarComplete

/-!
# Requests over bytes

A client connects to a server and sends its `initMsg`, what the operation needs to know, and its submissions. The
server reads the `initMsg` and branches on its type, and each operation has a receive loop of its own. No length is ever
sent, so both sides compute the sizes on their own. Every request whose sizes and values fit comes out at the server as
the client made it, however its bytes arrive (`recvRequest_sendRequest`).
-/

namespace PrioPlus

open NetShare

/-! ### The `initMsg` -/

/-- The enumerators of `messageType`, in their order. -/
def messageTypes : List MessageType :=
  [.noneOp, .bitSum, .intSum, .andOp, .orOp, .maxOp, .minOp, .varOp, .stddevOp, .linregOp, .freqOp, .countMinOp,
    .heavyOp]

def MessageType.code (type : MessageType) : ℕ := messageTypes.idxOf type

theorem MessageType.code_lt (type : MessageType) : type.code < 256 ^ 4 := by
  cases type <;> decide

theorem MessageType.getElem?_code (type : MessageType) : messageTypes[type.code]? = some type := by
  cases type <;> rfl

/-- `initMsg` has 16 bytes. -/
def sendInitMsg (type : MessageType) (msg : InitMsg) : Sent :=
  NetShare.send (wordBytes 4 type.code ++ (wordBytes 4 msg.numBits.toNat ++ (wordBytes 4 msg.numOfInputs.toNat ++
    wordBytes 4 msg.maxInp.toNat)))

/-- The type is one of the enumerators, or anything else. -/
def recvInitMsg (arrival : Arrival) : List UInt8 → Received (Option MessageType × InitMsg) :=
  recvStruct arrival 16 fun buf =>
    (messageTypes[wordAt 0 4 buf]?, ⟨UInt32.ofNat (wordAt 4 4 buf), UInt32.ofNat (wordAt 8 4 buf),
      UInt32.ofNat (wordAt 12 4 buf)⟩)

theorem wordAt_four {a b c d : ℕ} (ha : a < 256 ^ 4) (hb : b < 256 ^ 4) (hc : c < 256 ^ 4) (hd : d < 256 ^ 4)
    {buf : List UInt8} (hbuf : buf = wordBytes 4 a ++ (wordBytes 4 b ++ (wordBytes 4 c ++ wordBytes 4 d))) :
    wordAt 0 4 buf = a ∧ wordAt 4 4 buf = b ∧ wordAt 8 4 buf = c ∧ wordAt 12 4 buf = d := by
  have hone := length_wordBytes 4 a
  have htwo : (wordBytes 4 a ++ wordBytes 4 b).length = 8 := by simp [length_wordBytes]
  have hthree : (wordBytes 4 a ++ wordBytes 4 b ++ wordBytes 4 c).length = 12 := by simp [length_wordBytes]
  have hthird := wordAt_append htwo hc (wordBytes 4 d)
  have hfourth := wordAt_last hthree hd
  simp only [List.append_assoc] at hthird hfourth
  subst hbuf
  exact ⟨@wordAt_append [] 0 rfl 4 a ha _, wordAt_append hone hb _, hthird, hfourth⟩

theorem restores_initMsg (arrival : Arrival) (type : MessageType) (msg : InitMsg) :
    Restores (sendInitMsg type msg) (recvInitMsg arrival) (some type, msg) := by
  obtain ⟨htype, hbits, hinputs, hmax⟩ :=
    wordAt_four type.code_lt msg.numBits.toNat_lt msg.numOfInputs.toNat_lt msg.maxInp.toNat_lt rfl
  apply restores_struct
  · simp [length_wordBytes]
  · norm_num
  · simp only [htype, hbits, hinputs, hmax, UInt32.ofNat_toNat, MessageType.getElem?_code]

/-! ### What the operation needs to know -/

/-- The configuration of a request, when a `double` has this value. -/
def NetShare.HeavyConfigData.config (value : UInt64 → ℚ) (x : HeavyConfigData) : HeavyConfig :=
  { t := value x.t, w := x.w.toNat, d := x.d.toNat, L := x.L.toNat }

/-- The operation of a request with what is sent for it after the `initMsg`. A `flint_rand_t` has `seedSize` bytes. -/
inductive Opening (seedSize : ℕ) where
  | bitSum
  | intSum
  | andOp
  | orOp
  | maxOp
  | minOp
  | varOp
  | stddevOp
  | linregOp (degree : UInt64)
  | freqOp
  | countMinOp (cfg : HeavyConfigData) (seed : Vector UInt8 seedSize)
  | heavyOp (cfg : HeavyConfigData) (seed : Vector UInt8 seedSize)

namespace Opening

variable {seedSize : ℕ}

def type : Opening seedSize → MessageType
  | bitSum => .bitSum
  | intSum => .intSum
  | andOp => .andOp
  | orOp => .orOp
  | maxOp => .maxOp
  | minOp => .minOp
  | varOp => .varOp
  | stddevOp => .stddevOp
  | linregOp _ => .linregOp
  | freqOp => .freqOp
  | countMinOp _ _ => .countMinOp
  | heavyOp _ _ => .heavyOp

def operation (value : UInt64 → ℚ) : Opening seedSize → Operation
  | bitSum => .bitSum
  | intSum => .intSum
  | andOp => .andOp
  | orOp => .orOp
  | maxOp => .maxOp
  | minOp => .minOp
  | varOp => .varOp
  | stddevOp => .stddevOp
  | linregOp degree => .linregOp degree.toNat
  | freqOp => .freqOp
  | countMinOp cfg _ => .countMinOp (cfg.config value)
  | heavyOp cfg _ => .heavyOp (cfg.config value)

/-- `send_size` for the degree, `send_heavycfg` and `send_seed` for the sketches. -/
def send : Opening seedSize → Sent
  | linregOp degree => sendSize degree
  | countMinOp cfg seed | heavyOp cfg seed => (sendHeavycfg cfg).plus (NetShare.send seed.toList)
  | _ => some ([], 0)

/-- `recv_heavycfg` and `recv_seed`. -/
def recvSketch (arrival : Arrival) (f : HeavyConfigData → Vector UInt8 seedSize → Opening seedSize)
    (stream : List UInt8) : Received (Opening seedSize) :=
  (recvHeavycfg arrival ⟨0, 0, 0, 0⟩ stream).andThen fun cfg rest =>
    (recvStruct arrival seedSize (arrayOf seedSize 0) rest).map fun (ret, seed, rest) => (ret, f cfg seed, rest)

/-- What an operation reads before its loop. There is none for `NONE_OP`. -/
def recv (arrival : Arrival) (type : MessageType) (stream : List UInt8) : Received (Option (Opening seedSize)) :=
  match type with
  | .noneOp => some (0, none, stream)
  | .bitSum => some (0, some bitSum, stream)
  | .intSum => some (0, some intSum, stream)
  | .andOp => some (0, some andOp, stream)
  | .orOp => some (0, some orOp, stream)
  | .maxOp => some (0, some maxOp, stream)
  | .minOp => some (0, some minOp, stream)
  | .varOp => some (0, some varOp, stream)
  | .stddevOp => some (0, some stddevOp, stream)
  | .linregOp => (NetShare.recvSize arrival stream).map fun (ret, degree, rest) => (ret, some (linregOp degree), rest)
  | .freqOp => some (0, some freqOp, stream)
  | .countMinOp => (recvSketch arrival countMinOp stream).map fun (ret, opening, rest) => (ret, some opening, rest)
  | .heavyOp => (recvSketch arrival heavyOp stream).map fun (ret, opening, rest) => (ret, some opening, rest)

/-- The sizes that `send_size` does not cut. -/
def Fits : Opening seedSize → Prop
  | linregOp degree => degree.toNat < 2 ^ 32
  | countMinOp cfg _ | heavyOp cfg _ =>
    seedSize < 2 ^ 32 ∧ cfg.L.toNat < 2 ^ 32 ∧ cfg.w.toNat < 2 ^ 32 ∧ cfg.d.toNat < 2 ^ 32
  | _ => True

theorem restores_sketch (arrival : Arrival) (f : HeavyConfigData → Vector UInt8 seedSize → Opening seedSize)
    {cfg : HeavyConfigData} (hseed : seedSize < 2 ^ 32) (hL : cfg.L.toNat < 2 ^ 32) (hw : cfg.w.toNat < 2 ^ 32)
    (hd : cfg.d.toNat < 2 ^ 32) (seed : Vector UInt8 seedSize) :
    Restores ((sendHeavycfg cfg).plus (NetShare.send seed.toList)) (recvSketch arrival f) (f cfg seed) := by
  have hcfg := restoresAs_heavycfg arrival cfg ⟨0, 0, 0, 0⟩
  rw [(lowerHalf_eq_iff _).mpr hL, (lowerHalf_eq_iff _).mpr hw, (lowerHalf_eq_iff _).mpr hd] at hcfg
  have hbytes := restores_struct arrival (a := seed) Vector.length_toList hseed (arrayOf_toList 0 seed)
  exact hcfg.restores.andThen (hbytes.map (f := f cfg))

theorem restores (arrival : Arrival) {opening : Opening seedSize} (h : opening.Fits) :
    Restores opening.send (recv arrival opening.type) (some opening) := by
  cases opening with
  | linregOp degree =>
    have hsize := (restoresAs_size arrival degree).restores
    rw [(lowerHalf_eq_iff _).mpr h] at hsize
    exact hsize.map (f := fun degree => some (linregOp degree))
  | countMinOp cfg seed =>
    obtain ⟨hseed, hL, hw, hd⟩ := h
    exact (restores_sketch arrival countMinOp hseed hL hw hd seed).map (f := some)
  | heavyOp cfg seed =>
    obtain ⟨hseed, hL, hw, hd⟩ := h
    exact (restores_sketch arrival heavyOp hseed hL hw hd seed).map (f := some)
  | _ => exact ⟨0, [], rfl, fun _ => rfl⟩

end Opening

/-! ### Requests -/

namespace Operation

variable (msg : InitMsg)

/-- What a client sends for one submission. -/
def sendSubmission : (op : Operation) → op.Submission msg → Sent
  | .bitSum, s => sendBitShare s
  | .intSum, s | .andOp, s | .orOp, s => sendIntShare s
  | .maxOp, s | .minOp, s => sendMaxshare s
  | .varOp, s | .stddevOp, s => sendVarSubmission s
  | .linregOp _, s => sendLinRegSubmission s
  | .freqOp, s | .countMinOp _, s | .heavyOp _, s => sendFreqshare s

/-- What one round of the receive loop reads. -/
def recvSubmission (arrival : Arrival) : (op : Operation) → List UInt8 → Received (op.Submission msg)
  | .bitSum => recvBitShare arrival
  | .intSum | .andOp | .orOp => recvIntShare arrival
  | .maxOp | .minOp => recvMaxshare arrival msg.maxInp
  | .varOp | .stddevOp => recvVarSubmission arrival
  | .linregOp degree => recvLinRegSubmission arrival degree
  | .freqOp => recvFreqshare arrival (PrioPlus.maxInp msg)
  | .countMinOp cfg => recvFreqshare arrival (cfg.d * cfg.w)
  | .heavyOp cfg => recvFreqshare arrival (shareSize msg.numBits cfg)

/-- The arrays have sizes of 32 bits, in bytes where they are of words, and the packet fits. -/
def FitsSubmission : (op : Operation) → op.Submission msg → Prop
  | .bitSum, _ | .intSum, _ | .andOp, _ | .orOp, _ => True
  | .maxOp, _ | .minOp, _ => (msg.maxInp + 1).toNat * 8 < 2 ^ 32
  | .varOp, s | .stddevOp, s => PacketFits (VarSubmission.packet s) (VarSubmission.packetBytes s)
  | .linregOp degree, s => degree ≠ 0 ∧ numX degree * 8 < 2 ^ 32 ∧ numQuad degree * 8 < 2 ^ 32 ∧
      PacketFits (LinRegSubmission.packet s) (LinRegSubmission.packetBytes s)
  | .freqOp, _ => PrioPlus.maxInp msg < 2 ^ 32
  | .countMinOp cfg, _ => cfg.d * cfg.w < 2 ^ 32
  | .heavyOp cfg, _ => shareSize msg.numBits cfg < 2 ^ 32

theorem restores_submission (arrival : Arrival) (op : Operation) {s : op.Submission msg} (h : op.FitsSubmission msg s) :
    Restores (op.sendSubmission msg s) (op.recvSubmission msg arrival) s := by
  cases op with
  | bitSum => exact restores_bitShare arrival s
  | intSum => exact restores_intShare arrival s
  | andOp => exact restores_intShare arrival s
  | orOp => exact restores_intShare arrival s
  | maxOp => exact restores_maxshare arrival h s
  | minOp => exact restores_maxshare arrival h s
  | varOp => exact restores_varSubmission arrival h
  | stddevOp => exact restores_varSubmission arrival h
  | linregOp degree => exact restores_linRegSubmission arrival h.1 h.2.1 h.2.2.1 h.2.2.2
  | freqOp => exact restores_freqshare arrival h s
  | countMinOp cfg => exact restores_freqshare arrival h s
  | heavyOp cfg => exact restores_freqshare arrival h s

end Operation

section Requests

variable {seedSize : ℕ} {value : UInt64 → ℚ}

/-- What one server learns from a client. -/
structure Request (seedSize : ℕ) (value : UInt64 → ℚ) where
  msg : InitMsg
  opening : Opening seedSize
  submissions : Vector ((opening.operation value).Submission msg) msg.numOfInputs.toNat

/-- What the client sends to this server. -/
def sendRequest (r : Request seedSize value) : Sent :=
  (sendInitMsg r.opening.type r.msg).plus
    (r.opening.send.plus (sendList ((r.opening.operation value).sendSubmission r.msg) r.submissions.toList))

/-- What the server reads, which is no request when the type of the `initMsg` has no operation. -/
def recvRequest (arrival : Arrival) (stream : List UInt8) : Received (Option (Request seedSize value)) :=
  (recvInitMsg arrival stream).andThen fun init rest =>
    match init.1 with
    | none => some (0, none, rest)
    | some type => (Opening.recv arrival type rest).andThen fun opening rest =>
      match opening with
      | none => some (0, none, rest)
      | some opening =>
        (recvVector ((opening.operation value).recvSubmission init.2 arrival) init.2.numOfInputs.toNat rest).map
          fun (ret, submissions, rest) => (ret, some ⟨init.2, opening, submissions⟩, rest)

structure Request.Fits (r : Request seedSize value) : Prop where
  opening : r.opening.Fits
  submissions : ∀ s ∈ r.submissions.toList, (r.opening.operation value).FitsSubmission r.msg s

/-- The server has read the request, byte for byte, whatever comes after it. -/
theorem recvRequest_sendRequest {r : Request seedSize value} (h : r.Fits) :
    ∃ bytes ret, sendRequest r = some (bytes, ret) ∧
      ∀ arrival rest, recvRequest arrival (bytes ++ rest) = some (ret, some r, rest) := by
  have hrestores (arrival : Arrival) : Restores (sendRequest r) (recvRequest arrival) (some r) := by
    have hsubmissions := restores_vector fun s hs =>
      (r.opening.operation value).restores_submission r.msg arrival (h.submissions s hs)
    have hlast := hsubmissions.map (f := fun submissions => some (Request.mk r.msg r.opening submissions))
    exact (restores_initMsg arrival r.opening.type r.msg).andThen ((Opening.restores arrival h.opening).andThen hlast)
  obtain ⟨ret, bytes, hs, -⟩ := hrestores fun _ => 0
  refine ⟨bytes, ret, hs, fun arrival rest => ?_⟩
  obtain ⟨ret', bytes', hs', hr⟩ := hrestores arrival
  obtain ⟨rfl, rfl⟩ := Prod.mk.inj (Option.some.inj (hs.symm.trans hs'))
  exact hr rest

end Requests

theorem VarClient.packetFits_submissions (numBits : UInt32) (t : RootTables) {c : VarClient} (hd : c.draws.InField) :
    PacketFits (c.submissions numBits t).2.1.packet (c.submissions numBits t).2.1.packetBytes ∧
      PacketFits (c.submissions numBits t).2.2.packet (c.submissions numBits t).2.2.packetBytes := by
  have hsize : 8 * packetSize (checkVar shipped).numMulGates < 2 ^ 31 := by
    have hle := nextPowerOfTwo_le Nat.one_pos
    rw [Circuit.numMulGates_checkVar, packetSize]
    omega
  exact ⟨packetFits_sharePolynomials0 hd hsize, packetFits_sharePolynomials1 hsize⟩

/-- The request of one client to server 0, in pieces of up to three bytes. -/
theorem recvRequest_sendRequest_varClient :
    let r : Request 0 fun _ => 0 :=
      ⟨oneInputMsg, .varOp, Vector.replicate _ ((varClient 0 1).submissions oneInputMsg.numBits .unset).2.1⟩
    ∃ bytes ret, sendRequest r = some (bytes, ret) ∧ recvRequest (fun _ => 2) bytes = some (ret, some r, []) := by
  intro r
  have hseven : InField 7 := by
    constructor <;> decide
  have hdraws : (varClient 0 1).draws.InField :=
    ⟨fun _ => hseven, hseven, hseven, hseven, fun _ => hseven, hseven, hseven, hseven⟩
  have hfits : r.Fits := by
    refine ⟨trivial, fun s hs => ?_⟩
    have hmem : s = ((varClient 0 1).submissions oneInputMsg.numBits RootTables.unset).2.1 :=
      List.mem_singleton.mp hs
    rw [hmem]
    exact (VarClient.packetFits_submissions oneInputMsg.numBits RootTables.unset hdraws).1
  obtain ⟨bytes, ret, hs, hr⟩ := recvRequest_sendRequest hfits
  have hread := hr (fun _ => 2) []
  rw [List.append_nil] at hread
  exact ⟨bytes, ret, hs, hread⟩

end PrioPlus

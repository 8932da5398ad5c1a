import PrioPlus.Lib.OnWire
import PrioPlus.NetShare.Framing
import PrioPlus.NetShare.Lengths
import PrioPlus.Server.Kinds

/-!
# The messages of the servers as bytes

Each message of the link is written and read by its functions of `net_share.cpp`. A receiver takes the bytes of the kind
that it asks for, however they arrive. Messages whose sizes and values fit are carried over (`carries_of_fits`).
-/

namespace PrioPlus

open Lib.TwoParty NetShare

/-- What is on the link: a byte, or the pairs of an oblivious transfer, whose connection is not modelled in bytes. -/
inductive Symbol where
  | byte (b : UInt8)
  | ot (pairs : List (UInt64 × UInt64))

def Symbol.toByte : Symbol → Option UInt8
  | .byte b => some b
  | .ot _ => none

/-- `fmpz_size(Int_Modulus)`. -/
@[irreducible] def intSize : ℕ := fmpzSize intModulus

/-! ### Writing -/

/-- What a sender writes. -/
def symbolsOf (s : Sent) : List Symbol := ((s.map Prod.fst).getD []).map Symbol.byte

def Msg.encode : Msg → List Symbol
  | .size n => symbolsOf (sendSize (UInt64.ofNat n))
  | .uint64 x => symbolsOf (sendUint64 x)
  | .uint64Batch xs => symbolsOf (sendUint64Batch xs)
  | .pk key => symbolsOf (NetShare.send key.toList)
  | .bool b => symbolsOf (sendBool b)
  | .boolBatch bs => symbolsOf (sendBoolBatch bs)
  | .fmpz x => symbolsOf (sendFmpz intSize x)
  | .fmpzBatch xs => symbolsOf (sendFmpzBatch intSize xs)
  | .corShareBatch xs => symbolsOf (sendCorShareBatch intSize xs)
  | .daBitBatch xs => symbolsOf (sendDaBitBatch intSize xs)
  | .ot pairs => [.ot pairs]

/-! ### Reading -/

/-- The bytes that `recv_in` is asked for, over all its calls. -/
def Kind.numSymbols : Kind → ℕ
  | .size => 8
  | .uint64 => 8
  | .uint64Batch n => n * 8
  | .pk => 32
  | .bool => 1
  | .boolBatch n => (n + 7) / 8
  | .fmpz => intSize * 8
  | .fmpzBatch n => intSize * n * 8
  | .corShareBatch n => intSize * n * 8 + intSize * n * 8
  | .daBitBatch n => intSize * n * 8 + (n + 7) / 8
  | .ot _ => 1

/-- What a receiver makes of the bytes, all of which it reads. -/
def readBytes {α : Type} (r : List UInt8 → Received α) (f : α → Msg) (ws : List Symbol) : Option Msg :=
  (ws.mapM Symbol.toByte).bind fun bytes =>
    match r bytes with
    | some (_, a, []) => some (f a)
    | _ => none

/-- The arrays that are read into are zero before. -/
def Kind.decode (arrival : Arrival) : Kind → List Symbol → Option Msg
  | .size => readBytes (NetShare.recvSize arrival) fun x => .size x.toNat
  | .uint64 => readBytes (NetShare.recvUint64 arrival) .uint64
  | .uint64Batch n => readBytes (NetShare.recvUint64Batch arrival n) .uint64Batch
  | .pk => readBytes (recvPk arrival) .pk
  | .bool => readBytes (NetShare.recvBool arrival) .bool
  | .boolBatch n => readBytes (NetShare.recvBoolBatch arrival n) .boolBatch
  | .fmpz => readBytes (NetShare.recvFmpz arrival intSize 0) .fmpz
  | .fmpzBatch n => readBytes (NetShare.recvFmpzBatch arrival intSize (List.replicate n 0)) .fmpzBatch
  | .corShareBatch n =>
    readBytes (NetShare.recvCorShareBatch arrival intSize (List.replicate n ⟨0, 0⟩)) .corShareBatch
  | .daBitBatch n => readBytes (NetShare.recvDaBitBatch arrival intSize (List.replicate n ⟨0, false⟩)) .daBitBatch
  | .ot n => fun
    | [.ot pairs] => if pairs.length = n then some (.ot pairs) else none
    | _ => none

/-- The functions of `net_share.cpp`, at a server where the bytes arrive like this. -/
def netShare (arrival : Arrival) : Codec Msg Kind Symbol where
  encode := Msg.encode
  size := Kind.numSymbols
  decode := Kind.decode arrival

/-! ### What is carried over -/

def InField (x : ℤ) : Prop := 0 ≤ x ∧ x < intModulus

/-- The sizes and values that the code can send, for at most `numInputs` inputs. -/
def Msg.Fits (numInputs : ℕ) : Msg → Prop
  | .size n => n ≤ numInputs
  | .uint64Batch xs => xs.length * 8 < 2 ^ 32
  | .boolBatch bs => bs.length < 2 ^ 32
  | .fmpz x => InField x
  | .fmpzBatch xs => ∀ x ∈ xs, InField x
  | .corShareBatch xs => xs.length < 2 ^ 28 ∧ ∀ x ∈ xs, InField x.shareD ∧ InField x.shareE
  | .daBitBatch xs => ∀ x ∈ xs, InField x.bp
  | .uint64 _ | .pk _ | .bool _ | .ot _ => True

theorem intSize_eq : intSize = 1 := by
  unfold intSize
  decide

theorem intSize_pos : 0 < intSize := intSize_eq ▸ Nat.one_pos

theorem InField.inLimbs {x : ℤ} (h : InField x) : InLimbs intSize x := by
  unfold intSize
  exact inLimbs_of_lt h.1 h.2

theorem mapM_toByte (bytes : List UInt8) : (bytes.map Symbol.byte).mapM Symbol.toByte = some bytes := by
  induction bytes with
  | nil => rfl
  | cons b bytes ih =>
    rw [List.map_cons, List.mapM_cons, ih]
    rfl

theorem carries_symbolsOf {α : Type} {s : Sent} {r : List UInt8 → Received α} {a : α} {n : ℕ} (f : α → Msg)
    (h : Restores s r a) (hlen : s.HasLength n) :
    (symbolsOf s).length = n ∧ readBytes r f (symbolsOf s) = some (f a) := by
  obtain ⟨ret, bytes, rfl, hr⟩ := h
  obtain ⟨bytes', ret', hs, rfl⟩ := hlen
  obtain ⟨rfl, rfl⟩ := Prod.mk.inj (Option.some.inj hs)
  have hback := hr []
  rw [List.append_nil] at hback
  constructor
  · simp [symbolsOf]
  · simp only [symbolsOf, Option.map_some, Option.getD_some, readBytes, mapM_toByte, Option.bind_some, hback]

section Carries

variable {numInputs : ℕ} (arrival : Arrival)

theorem carries_fmpz {x : ℤ} (h : InField x) :
    Restores (sendFmpz intSize x) (NetShare.recvFmpz arrival intSize 0) x := by
  have hsmall : intSize * 8 < 2 ^ 31 := by
    rw [intSize_eq]
    norm_num
  exact (restoresAs_fmpz arrival intSize_pos hsmall h.inLimbs 0).restores

theorem carries_fmpzBatch {xs : List ℤ} (h : ∀ x ∈ xs, InField x) :
    Restores (sendFmpzBatch intSize xs) (NetShare.recvFmpzBatch arrival intSize (List.replicate xs.length 0)) xs := by
  have hbatch : BatchFits intSize xs.length := by
    have hmax : maxFmpzBatch * 8 < 2 ^ 31 := by decide
    have hmin := min_le_right xs.length maxFmpzBatch
    rw [BatchFits, intSize_eq]
    omega
  exact (restoresAs_fmpzBatch arrival intSize_pos List.length_replicate hbatch fun x hx => (h x hx).inLimbs).restores

theorem carries_corShareBatch {xs : List CorShare} (hlen : xs.length < 2 ^ 28)
    (h : ∀ x ∈ xs, InField x.shareD ∧ InField x.shareE) :
    Restores (sendCorShareBatch intSize xs)
      (NetShare.recvCorShareBatch arrival intSize (List.replicate xs.length ⟨0, 0⟩)) xs := by
  refine restores_corShareBatch arrival intSize_pos List.length_replicate ?_ (fun x hx => (h x hx).1.inLimbs)
    fun x hx => (h x hx).2.inLimbs
  rcases Nat.eq_zero_or_pos xs.length with hzero | hpos
  · exact Or.inl hzero
  · refine Or.inr ⟨by omega, ?_, ?_⟩
    · have hmin := min_le_left xs.length maxFmpzBatch
      rw [BatchFits, intSize_eq]
      omega
    · rw [intSize_eq, wrap32_of_lt] <;> omega

theorem carries_daBitBatch {xs : List DaBit} (h : ∀ x ∈ xs, InField x.bp) :
    Restores (sendDaBitBatch intSize xs) (NetShare.recvDaBitBatch arrival intSize (List.replicate xs.length ⟨0, false⟩))
        xs ∧
      (sendDaBitBatch intSize xs).HasLength (intSize * xs.length * 8 + (xs.length + 7) / 8) := by
  have hfits : intSize * min xs.length maxDaBitBatch * 8 < 2 ^ 31 := by
    have hmax : maxDaBitBatch * 8 < 2 ^ 31 := by decide
    have hmin := min_le_right xs.length maxDaBitBatch
    rw [intSize_eq]
    omega
  exact ⟨restores_daBitBatch arrival intSize_pos List.length_replicate hfits fun x hx => (h x hx).inLimbs,
    hasLength_sendDaBitBatch intSize_pos hfits fun x hx => (h x hx).inLimbs⟩

theorem decode_encode (hinputs : numInputs < 2 ^ 32) {m : Msg} (h : m.Fits numInputs) :
    m.encode.length = m.kind.numSymbols ∧ m.kind.decode arrival m.encode = some m := by
  cases m with
  | size n =>
    have hlt : n < 2 ^ 32 := lt_of_le_of_lt h hinputs
    have hword : (UInt64.ofNat n).toNat = n := UInt64.toNat_ofNat_of_lt' (hlt.trans (by norm_num))
    have hlower : lowerHalf (UInt64.ofNat n) = UInt64.ofNat n := (lowerHalf_eq_iff _).mpr (by rwa [hword])
    have hsize := (restoresAs_size arrival (UInt64.ofNat n)).restores
    rw [hlower] at hsize
    have hcarries := carries_symbolsOf (fun x => Msg.size x.toNat) hsize (hasLength_word 8 _)
    rw [hword] at hcarries
    exact hcarries
  | uint64 x => exact carries_symbolsOf Msg.uint64 (restores_uint64 arrival x) (hasLength_word 8 _)
  | uint64Batch xs =>
    exact carries_symbolsOf Msg.uint64Batch (restores_uint64Batch arrival h) (hasLength_sendUint64Batch xs)
  | pk pk =>
    have hlen := hasLength_send pk.toList
    rw [Vector.length_toList] at hlen
    exact carries_symbolsOf Msg.pk (restores_pk arrival pk) hlen
  | bool b => exact carries_symbolsOf Msg.bool (restoresAs_bool arrival b).restores (hasLength_sendBool b)
  | boolBatch bs =>
    exact carries_symbolsOf Msg.boolBatch (restoresAs_boolBatch arrival h).restores (hasLength_sendBoolBatch h)
  | fmpz x => exact carries_symbolsOf Msg.fmpz (carries_fmpz arrival h) (hasLength_sendFmpz intSize x)
  | fmpzBatch xs =>
    exact carries_symbolsOf Msg.fmpzBatch (carries_fmpzBatch arrival h) (hasLength_sendFmpzBatch intSize xs)
  | corShareBatch xs =>
    obtain ⟨hlen, hfield⟩ := h
    have hbytes : intSize * xs.length * 8 < 2 ^ 31 := by
      rw [intSize_eq]
      omega
    exact carries_symbolsOf Msg.corShareBatch (carries_corShareBatch arrival hlen hfield)
      (hasLength_sendCorShareBatch intSize_pos hbytes fun x hx => (hfield x hx).1.inLimbs)
  | daBitBatch xs =>
    exact carries_symbolsOf Msg.daBitBatch (carries_daBitBatch arrival h).1 (carries_daBitBatch arrival h).2
  | ot pairs => exact ⟨rfl, if_pos rfl⟩

theorem carries_of_fits (arrival' : Arrival) (hinputs : numInputs < 2 ^ 32) {m : Msg} (h : m.Fits numInputs) :
    Carries Msg.kind (netShare arrival') (netShare arrival) m := decode_encode arrival hinputs h

end Carries

end PrioPlus

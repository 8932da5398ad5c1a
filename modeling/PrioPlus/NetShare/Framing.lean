import PrioPlus.NetShare.RoundTrip

/-!
# Messages on one stream

A sequence of messages is written to one stream and read back into targets of the same sizes. It comes back as it was,
with exactly its bytes read, if and only if each of its messages fits (`framesAll_iff`): its loops stay within their
32-bit counters, the values returned on the way are positive integers of 32 bits, and a batch of EdaBits, unless it
is empty, has bits. A batch of EdaBits without bits is read without its numbers.
-/

namespace PrioPlus.NetShare

open Lib.Bytes

/-- The kinds of messages, with their sizes. -/
inductive Shape where
  | boolBatch (n : ℕ)
  | fmpz
  | fmpzBatch (n : ℕ)
  | fmpzOneByOne (n : ℕ)
  | clientPacket (nMul : ℕ)
  | corShareBatch (n : ℕ)
  | beaverTriple
  | beaverTripleShare
  | booleanBeaverTriple
  | daBit
  | daBitBatch (n : ℕ)
  | edaBit (nbits : ℕ)
  | edaBitBatch (nbits n : ℕ)

/-- The messages. `fmpzOneByOne` is sent as one batch and received as single integers. -/
inductive WireMsg where
  | boolBatch (x : List Bool)
  | fmpz (x : ℤ)
  | fmpzBatch (x : List ℤ)
  | fmpzOneByOne (x : List ℤ)
  | clientPacket (x : ClientPacket)
  | corShareBatch (x : List CorShare)
  | beaverTriple (x : BeaverTriple)
  | beaverTripleShare (x : BeaverTripleShare)
  | booleanBeaverTriple (x : BooleanBeaverTriple)
  | daBit (x : DaBit)
  | daBitBatch (x : List DaBit)
  | edaBit (nbits : ℕ) (x : EdaBit nbits)
  | edaBitBatch (nbits : ℕ) (x : List (EdaBit nbits))

namespace WireMsg

def shape : WireMsg → Shape
  | boolBatch x => .boolBatch x.length
  | fmpz _ => .fmpz
  | fmpzBatch x => .fmpzBatch x.length
  | fmpzOneByOne x => .fmpzOneByOne x.length
  | clientPacket x => .clientPacket x.nMul
  | corShareBatch x => .corShareBatch x.length
  | beaverTriple _ => .beaverTriple
  | beaverTripleShare _ => .beaverTripleShare
  | booleanBeaverTriple _ => .booleanBeaverTriple
  | daBit _ => .daBit
  | daBitBatch x => .daBitBatch x.length
  | edaBit nbits _ => .edaBit nbits
  | edaBitBatch nbits x => .edaBitBatch nbits x.length

/-- The integers in a message. -/
def fmpzs : WireMsg → List ℤ
  | boolBatch _ => []
  | fmpz x => [x]
  | fmpzBatch x => x
  | fmpzOneByOne x => x
  | clientPacket x => packetFields x ++ [x.tripleShare.shareA, x.tripleShare.shareB, x.tripleShare.shareC]
  | corShareBatch x => x.map CorShare.shareD ++ x.map CorShare.shareE
  | beaverTriple x => [x.a, x.b, x.c]
  | beaverTripleShare x => [x.shareA, x.shareB, x.shareC]
  | booleanBeaverTriple _ => []
  | daBit x => [x.bp]
  | daBitBatch x => x.map DaBit.bp
  | edaBit _ x => [x.r]
  | edaBitBatch _ x => x.map EdaBit.r

/-- A target of the sizes of the message. -/
inductive SameShape : WireMsg → WireMsg → Prop where
  | boolBatch {x old : List Bool} (h : old.length = x.length) : SameShape (.boolBatch x) (.boolBatch old)
  | fmpz (x old : ℤ) : SameShape (.fmpz x) (.fmpz old)
  | fmpzBatch {x old : List ℤ} (h : old.length = x.length) : SameShape (.fmpzBatch x) (.fmpzBatch old)
  | fmpzOneByOne {x old : List ℤ} (h : old.length = x.length) : SameShape (.fmpzOneByOne x) (.fmpzOneByOne old)
  | clientPacket {x old : ClientPacket} (h : old.nMul = x.nMul) : SameShape (.clientPacket x) (.clientPacket old)
  | corShareBatch {x old : List CorShare} (h : old.length = x.length) :
      SameShape (.corShareBatch x) (.corShareBatch old)
  | beaverTriple (x old : BeaverTriple) : SameShape (.beaverTriple x) (.beaverTriple old)
  | beaverTripleShare (x old : BeaverTripleShare) : SameShape (.beaverTripleShare x) (.beaverTripleShare old)
  | booleanBeaverTriple (x old : BooleanBeaverTriple) :
      SameShape (.booleanBeaverTriple x) (.booleanBeaverTriple old)
  | daBit (x old : DaBit) : SameShape (.daBit x) (.daBit old)
  | daBitBatch {x old : List DaBit} (h : old.length = x.length) : SameShape (.daBitBatch x) (.daBitBatch old)
  | edaBit {nbits : ℕ} (x old : EdaBit nbits) : SameShape (.edaBit nbits x) (.edaBit nbits old)
  | edaBitBatch {nbits : ℕ} {x old : List (EdaBit nbits)} (h : old.length = x.length) :
      SameShape (.edaBitBatch nbits x) (.edaBitBatch nbits old)

def sent (len : ℕ) : WireMsg → Sent
  | boolBatch x => sendBoolBatch x
  | fmpz x => sendFmpz len x
  | fmpzBatch x => sendFmpzBatch len x
  | fmpzOneByOne x => sendFmpzBatch len x
  | clientPacket x => sendClientPacket len x
  | corShareBatch x => sendCorShareBatch len x
  | beaverTriple x => sendBeaverTriple len x
  | beaverTripleShare x => sendBeaverTripleShare len x
  | booleanBeaverTriple x => sendBooleanBeaverTriple x
  | daBit x => sendDaBit len x
  | daBitBatch x => sendDaBitBatch len x
  | edaBit _ x => sendEdaBit len x
  | edaBitBatch _ x => sendEdaBitBatch len x

/-- What a sender writes. -/
def send (len : ℕ) (m : WireMsg) : Option (List UInt8) := (m.sent len).map Prod.fst

/-- The message that a receiver has in its target, and the rest of the stream. -/
def ofReceived {α : Type} (f : α → WireMsg) (r : Received α) : Option (WireMsg × List UInt8) :=
  r.map fun (_, a, rest) => (f a, rest)

/-- Read a message into a target. -/
def recv (arrival : Arrival) (len : ℕ) (old : WireMsg) (stream : List UInt8) : Option (WireMsg × List UInt8) :=
  match old with
  | boolBatch old => ofReceived boolBatch (recvBoolBatch arrival old.length stream)
  | fmpz old => ofReceived fmpz (recvFmpz arrival len old stream)
  | fmpzBatch old => ofReceived fmpzBatch (recvFmpzBatch arrival len old stream)
  | fmpzOneByOne old => (recvFmpzs arrival len old stream).map fun (x, rest) => (fmpzOneByOne x, rest)
  | clientPacket old => ofReceived clientPacket (recvClientPacket arrival len old stream)
  | corShareBatch old => ofReceived corShareBatch (recvCorShareBatch arrival len old stream)
  | beaverTriple old => ofReceived beaverTriple (recvBeaverTriple arrival len old stream)
  | beaverTripleShare old => ofReceived beaverTripleShare (recvBeaverTripleShare arrival len old stream)
  | booleanBeaverTriple _ => ofReceived booleanBeaverTriple (recvBooleanBeaverTriple arrival stream)
  | daBit old => ofReceived daBit (recvDaBit arrival len old stream)
  | daBitBatch old => ofReceived daBitBatch (recvDaBitBatch arrival len old stream)
  | edaBit nbits old => ofReceived (edaBit nbits) (recvEdaBit arrival len old stream)
  | edaBitBatch nbits old => ofReceived (edaBitBatch nbits) (recvEdaBitBatch arrival len old stream)

end WireMsg

open WireMsg

def sendAll (len : ℕ) : List WireMsg → Option (List UInt8)
  | [] => some []
  | m :: msgs => do
    let bytes ← m.send len
    let bytes' ← sendAll len msgs
    return bytes ++ bytes'

/-- Read one message after the other into the targets. -/
def recvAll (arrival : Arrival) (len : ℕ) : List WireMsg → List UInt8 → Option (List WireMsg × List UInt8)
  | [], stream => some ([], stream)
  | old :: olds, stream => do
    let (m, rest) ← old.recv arrival len stream
    let (msgs, rest) ← recvAll arrival len olds rest
    return (m :: msgs, rest)

/-- All messages of these shapes, with integers below the modulus, are written to one stream and read back as they
were, whatever was in the targets, however the bytes arrive and whatever follows them. -/
def FramesAll (modulus : ℕ) (shapes : List Shape) : Prop :=
  ∀ msgs olds : List WireMsg, msgs.map shape = shapes → List.Forall₂ SameShape msgs olds →
    (∀ m ∈ msgs, ∀ x ∈ m.fmpzs, 0 ≤ x ∧ x < modulus) → ∀ (arrival : Arrival) (rest : List UInt8),
    ∃ bytes, sendAll (fmpzSize modulus) msgs = some bytes ∧
      recvAll arrival (fmpzSize modulus) olds (bytes ++ rest) = some (msgs, rest)

/-- The sizes for which the code restores a message, when an integer has `len` limbs. -/
def Shape.Fits (len : ℕ) : Shape → Prop
  | boolBatch n => n < 2 ^ 32
  | fmpz => len * 8 < 2 ^ 31
  | fmpzBatch n => BatchFits len n
  | fmpzOneByOne n => n = 0 ∨ len * 8 < 2 ^ 31
  | clientPacket nMul => nMul < 2 ^ 31 ∧ len * 8 < 2 ^ 31
  | corShareBatch n => n = 0 ∨ n < 2 ^ 32 ∧ BatchFits len n ∧ 0 < wrap32 (len * n * 8 : ℕ)
  | beaverTriple => len * 8 < 2 ^ 31
  | beaverTripleShare => len * 8 < 2 ^ 31
  | booleanBeaverTriple => True
  | daBit => len * 8 < 2 ^ 31
  | daBitBatch n => len * min n maxDaBitBatch * 8 < 2 ^ 31
  | edaBit nbits => len * 8 < 2 ^ 31 ∧ nbits < 2 ^ 32
  | edaBitBatch nbits n =>
    n = 0 ∨ n < 2 ^ 32 ∧ 0 < nbits ∧ n * nbits < 2 ^ 32 ∧ BatchFits len n ∧ 0 < wrap32 (len * n * 8 : ℕ)

/-! ### Messages that fit -/

section Fits

variable {len : ℕ}

theorem restored_of_restores {α : Type} {s : Sent} {r : List UInt8 → Received α} {a : α} (h : Restores s r a)
    (f : α → WireMsg) :
    ∃ bytes, s.map Prod.fst = some bytes ∧ ∀ rest, ofReceived f (r (bytes ++ rest)) = some (f a, rest) := by
  obtain ⟨ret, bytes, hs, hr⟩ := h
  refine ⟨bytes, by rw [hs, Option.map_some], fun rest => ?_⟩
  rw [hr, ofReceived, Option.map_some]

theorem restored_of_fits (arrival : Arrival) (hpos : 0 < len) {m old : WireMsg} (hshape : SameShape m old)
    (hfits : m.shape.Fits len) (hrange : ∀ x ∈ m.fmpzs, InLimbs len x) :
    ∃ bytes, m.send len = some bytes ∧ ∀ rest, old.recv arrival len (bytes ++ rest) = some (m, rest) := by
  cases hshape with
  | @boolBatch x old hlen =>
    simp only [recv, hlen]
    exact restored_of_restores (restoresAs_boolBatch arrival hfits).restores WireMsg.boolBatch
  | fmpz x old =>
    exact restored_of_restores (restoresAs_fmpz arrival hpos hfits (hrange x (by simp [fmpzs])) old).restores
      WireMsg.fmpz
  | fmpzBatch hlen =>
    exact restored_of_restores (restoresAs_fmpzBatch arrival hpos hlen hfits hrange).restores WireMsg.fmpzBatch
  | @fmpzOneByOne x old hlen =>
    refine ⟨x.flatMap (fmpzBytes len), sendFmpzBatch_bytes len x, fun rest => ?_⟩
    rcases hfits with hzero | hsmall
    · obtain rfl := List.length_eq_zero_iff.mp hzero
      obtain rfl := List.length_eq_zero_iff.mp (hlen.trans hzero)
      rfl
    · simp only [recv, recvFmpzs_flatMap arrival hpos hsmall hlen hrange, Option.map_some]
  | clientPacket hnMul =>
    exact restored_of_restores (restores_clientPacket arrival hpos hfits.2 hnMul hfits.1
      (fun y hy => hrange y (List.mem_append_left _ hy)) fun y hy => hrange y (List.mem_append_right _ hy))
      WireMsg.clientPacket
  | corShareBatch hlen =>
    exact restored_of_restores (restores_corShareBatch arrival hpos hlen hfits
      (fun y hy => hrange _ (List.mem_append_left _ (List.mem_map_of_mem hy)))
      fun y hy => hrange _ (List.mem_append_right _ (List.mem_map_of_mem hy))) WireMsg.corShareBatch
  | beaverTriple x old => exact restored_of_restores (restores_beaverTriple arrival hpos hfits hrange old) _
  | beaverTripleShare x old => exact restored_of_restores (restores_beaverTripleShare arrival hpos hfits hrange old) _
  | booleanBeaverTriple x old => exact restored_of_restores (restores_booleanBeaverTriple arrival x) _
  | daBit x old =>
    exact restored_of_restores (restores_daBit arrival hpos hfits (hrange x.bp (by simp [fmpzs])) old) WireMsg.daBit
  | daBitBatch hlen =>
    exact restored_of_restores (restores_daBitBatch arrival hpos hlen hfits
      fun y hy => hrange _ (List.mem_map_of_mem hy)) WireMsg.daBitBatch
  | edaBit x old =>
    exact restored_of_restores (restores_edaBit arrival hpos hfits.1 hfits.2 (hrange x.r (by simp [fmpzs])) old) _
  | edaBitBatch hlen =>
    exact restored_of_restores (restores_edaBitBatch arrival hpos hlen hfits
      fun y hy => hrange _ (List.mem_map_of_mem hy)) _

end Fits

/-! ### Messages that do not fit

The message of ones is not read back into a target of zeros. -/

section Fails

variable {arrival : Arrival} {len : ℕ}

theorem check_eq_some {α β : Type} {r : Received α} {early : α → β} {total : ℤ}
    {next : α → ℤ → List UInt8 → Received β} {out : ℤ × β × List UInt8} (h : r.check early total next = some out) :
    ∃ ret a rest, r = some (ret, a, rest) ∧
      (ret ≤ 0 ∧ out = (ret, early a, rest) ∨ 0 < ret ∧ next a (wrap32 (total + ret)) rest = some out) := by
  obtain ⟨⟨ret, a, rest⟩, hr, hout⟩ := Option.bind_eq_some_iff.mp h
  refine ⟨ret, a, rest, hr, ?_⟩
  by_cases hret : ret ≤ 0
  · simp only [hret, if_true, Option.some.injEq] at hout
    exact Or.inl ⟨hret, hout.symm⟩
  · simp only [hret, if_false] at hout
    exact Or.inr ⟨by omega, hout⟩

theorem check_fails {α β : Type} {r : Received α} {early : α → β} {total : ℤ}
    {next : α → ℤ → List UInt8 → Received β} {ret : ℤ} {b : β} {rest : List UInt8}
    (hr : ∀ ret a rest, r = some (ret, a, rest) → ret ≤ 0) (h : r.check early total next = some (ret, b, rest)) :
    ∃ a, r = some (ret, a, rest) ∧ b = early a := by
  obtain ⟨ret', a, rest', hrecv, ⟨-, hout⟩ | ⟨hret, -⟩⟩ := check_eq_some h
  · simp only [Prod.mk.injEq] at hout
    obtain ⟨rfl, rfl, rfl⟩ := hout
    exact ⟨a, hrecv, rfl⟩
  · exact absurd (hr _ _ _ hrecv) (not_le.mpr hret)

theorem recvUlongBatch_fails {n : ℕ} {stream rest : List UInt8} {ret : ℤ} {x : List ℕ} (hlarge : 2 ^ 31 ≤ n * 8)
    (h : recvUlongBatch arrival n stream = some (ret, x, rest)) : ret ≤ 0 := by
  obtain ⟨⟨ret', buf, rest'⟩, hrecv, hout⟩ := Option.map_eq_some_iff.mp h
  simp only [Prod.mk.injEq] at hout
  rw [← hout.1]
  exact recvIn_fails arrival hlarge hrecv

theorem recvFmpz_fails {old x : ℤ} {stream rest : List UInt8} {ret : ℤ} (hlarge : 2 ^ 31 ≤ len * 8)
    (h : recvFmpz arrival len old stream = some (ret, x, rest)) : ret ≤ 0 ∧ x = old := by
  rw [recvFmpz, if_neg (by omega)] at h
  obtain ⟨buf, hrecv, hold⟩ := check_fails (fun _ _ _ => recvUlongBatch_fails hlarge) h
  exact ⟨recvUlongBatch_fails hlarge hrecv, hold⟩

theorem recvEach_fails {β : Type} {old : ℤ} {olds : List ℤ} {early : List ℤ → β} {total ret : ℤ}
    {stream rest : List UInt8} {next : List ℤ → ℤ → List UInt8 → Received β} {b : β} (hlarge : 2 ^ 31 ≤ len * 8)
    (h : recvEach arrival len (old :: olds) early total stream next = some (ret, b, rest)) :
    b = early (old :: olds) := by
  obtain ⟨x, hrecv, hout⟩ := check_fails (fun _ _ _ hr => (recvFmpz_fails hlarge hr).1) h
  rw [hout, (recvFmpz_fails hlarge hrecv).2]

theorem recvClientPacket_fails {old x : ClientPacket} {stream rest : List UInt8} {ret : ℤ} (hlarge : 2 ^ 31 ≤ len * 8)
    (hnMul : old.nMul < 2 ^ 31) (h : recvClientPacket arrival len old stream = some (ret, x, rest)) : x = old := by
  rw [recvClientPacket, if_pos hnMul] at h
  have hfields : (packetFields old).length ≠ 0 := by
    rw [length_packetFields]
    omega
  obtain ⟨y, ys, hcons⟩ := List.exists_cons_of_ne_nil (List.length_pos_iff.mp (Nat.pos_of_ne_zero hfields))
  rw [hcons] at h
  rw [recvEach_fails hlarge h, ← hcons, packetOfFields_packetFields]

theorem recvFmpzBatch_fails_small {old x : List ℤ} {stream rest : List UInt8} {ret : ℤ}
    (hsmall : ¬ old.length > maxFmpzBatch) (hfits : ¬ BatchFits len old.length)
    (h : recvFmpzBatch arrival len old stream = some (ret, x, rest)) : ret ≤ 0 ∧ x = old := by
  rw [BatchFits, min_eq_left (by omega)] at hfits
  rw [recvFmpzBatch, dif_neg hsmall] at h
  have hlarge : 2 ^ 31 ≤ len * old.length * 8 := by omega
  obtain ⟨buf, hrecv, hold⟩ := check_fails (fun _ _ _ => recvUlongBatch_fails hlarge) h
  exact ⟨recvUlongBatch_fails hlarge hrecv, hold⟩

theorem head_plus {α : Type} {first : Received (List α)} {second : List UInt8 → Received (List α)} {ret : ℤ}
    {x : List α} {rest : List UInt8} {b : α} (h : first.plus second = some (ret, x, rest))
    (hfirst : ∀ ret x rest, first = some (ret, x, rest) → x.head? = some b) : x.head? = some b := by
  obtain ⟨⟨ret1, x1, rest1⟩, h1, h⟩ := Option.bind_eq_some_iff.mp h
  obtain ⟨⟨ret2, x2, rest2⟩, h2, h⟩ := Option.map_eq_some_iff.mp h
  simp only [Prod.mk.injEq] at h
  rw [← h.2.1, List.head?_append, hfirst _ _ _ h1, Option.some_or]

/-- Nothing of the first chunk is stored. -/
theorem recvFmpzBatch_fails {n : ℕ} {x : List ℤ} {stream rest : List UInt8} {ret : ℤ} (hfits : ¬ BatchFits len n)
    (h : recvFmpzBatch arrival len (List.replicate n 0) stream = some (ret, x, rest)) : x.head? = some 0 := by
  have hn : 0 < n := by
    refine Nat.pos_of_ne_zero fun hzero => hfits ?_
    simp [BatchFits, hzero]
  have hhead : (List.replicate n (0 : ℤ)).head? = some 0 := by
    rw [List.head?_replicate, if_neg (by omega)]
  by_cases hlarge : n > maxFmpzBatch
  · have hmax : ¬ maxFmpzBatch > maxFmpzBatch := lt_irrefl _
    rw [BatchFits, min_eq_right hlarge.le] at hfits
    rw [recvFmpzBatch, dif_pos (by rwa [List.length_replicate]), List.take_replicate, min_eq_left hlarge.le] at h
    refine head_plus h fun ret x rest hfirst => ?_
    have hold := recvFmpzBatch_fails_small (by rwa [List.length_replicate])
      (by rw [List.length_replicate, BatchFits, min_self]; exact hfits) hfirst
    rw [hold.2, List.head?_replicate, if_neg (by decide)]
  · have hold := recvFmpzBatch_fails_small (by rwa [List.length_replicate]) (by rwa [List.length_replicate]) h
    rw [hold.2, hhead]

theorem recvDaBitBatch_fails {n : ℕ} {x : List DaBit} {stream rest : List UInt8} {ret : ℤ}
    (hfits : ¬ len * min n maxDaBitBatch * 8 < 2 ^ 31)
    (h : recvDaBitBatch arrival len (List.replicate n ⟨0, false⟩) stream = some (ret, x, rest)) :
    x.head? = some ⟨0, false⟩ := by
  have hchunk : ∀ (k : ℕ) (stream : List UInt8) ret x rest, k ≤ maxDaBitBatch → ¬ len * k * 8 < 2 ^ 31 →
      recvDaBitBatch arrival len (List.replicate k ⟨0, false⟩) stream = some (ret, x, rest) →
      x.head? = some ⟨0, false⟩ := by
    intro k stream ret x rest hk hfits h
    have hpos : 0 < k := by
      refine Nat.pos_of_ne_zero fun hzero => hfits ?_
      simp [hzero]
    have hle : k ≤ maxFmpzBatch := hk.trans (by decide)
    rw [recvDaBitBatch, dif_neg (by rw [List.length_replicate]; omega), List.length_replicate] at h
    have hbatch : ¬ BatchFits len (List.replicate k (0 : ℤ)).length := by
      rwa [List.length_replicate, BatchFits, min_eq_left hle]
    have hsmall : ¬ (List.replicate k (0 : ℤ)).length > maxFmpzBatch := by
      rwa [List.length_replicate, not_lt]
    obtain ⟨bp, -, hout⟩ := check_fails (fun _ _ _ hr => (recvFmpzBatch_fails_small hsmall hbatch hr).1) h
    rw [hout, List.head?_replicate, if_neg (by omega)]
  by_cases hlarge : n > maxDaBitBatch
  · rw [min_eq_right hlarge.le] at hfits
    rw [recvDaBitBatch, dif_pos (by rwa [List.length_replicate]), List.take_replicate, min_eq_left hlarge.le] at h
    exact head_plus h fun ret x rest hfirst => hchunk _ _ _ _ _ le_rfl hfits hfirst
  · rw [min_eq_left (by omega)] at hfits
    exact hchunk n stream ret x rest (by omega) hfits h

end Fails

/-- A message whose integers are all `v` and whose bits are all `b`. -/
def Shape.filled (v : ℤ) (b : Bool) : Shape → WireMsg
  | boolBatch n => .boolBatch (List.replicate n b)
  | fmpz => .fmpz v
  | fmpzBatch n => .fmpzBatch (List.replicate n v)
  | fmpzOneByOne n => .fmpzOneByOne (List.replicate n v)
  | clientPacket nMul =>
    .clientPacket (packetOfFields nMul (List.replicate (nMul + 3 + nextPowerOfTwo nMul) v) ⟨v, v, v⟩)
  | corShareBatch n => .corShareBatch (List.replicate n ⟨v, v⟩)
  | beaverTriple => .beaverTriple ⟨v, v, v⟩
  | beaverTripleShare => .beaverTripleShare ⟨v, v, v⟩
  | booleanBeaverTriple => .booleanBeaverTriple ⟨b, b, b⟩
  | daBit => .daBit ⟨v, b⟩
  | daBitBatch n => .daBitBatch (List.replicate n ⟨v, b⟩)
  | edaBit nbits => .edaBit nbits (edaBitOf nbits v (List.replicate nbits b))
  | edaBitBatch nbits n => .edaBitBatch nbits (List.replicate n (edaBitOf nbits v (List.replicate nbits b)))

@[simp] theorem shape_filled (v : ℤ) (b : Bool) (s : Shape) : (s.filled v b).shape = s := by
  cases s <;> simp [Shape.filled, shape, packetOfFields]

theorem sameShape_filled (v v' : ℤ) (b b' : Bool) (s : Shape) : SameShape (s.filled v b) (s.filled v' b') := by
  cases s <;> constructor <;> simp [packetOfFields]

theorem getD_replicate {n i : ℕ} {v : ℤ} (hi : i < n) : (List.replicate n v).getD i 0 = v := by
  rw [List.getD_eq_getElem?_getD, List.getElem?_replicate, if_pos hi, Option.getD_some]

theorem fmpzs_filled (v : ℤ) (b : Bool) (s : Shape) : ∀ x ∈ (s.filled v b).fmpzs, x = v := by
  cases s with
  | clientPacket nMul =>
    intro x hx
    simp only [Shape.filled, fmpzs, packetFields, packetOfFields, List.mem_append, List.mem_map, List.mem_range,
      List.mem_cons, List.not_mem_nil, or_false] at hx
    rcases hx with ((⟨i, hi, rfl⟩ | rfl | rfl | rfl) | ⟨i, hi, rfl⟩) | rfl | rfl | rfl
    all_goals first | rfl | exact getD_replicate (by omega)
  | _ => simp [Shape.filled, fmpzs, edaBitOf]

section Fails

variable {arrival : Arrival} {len : ℕ}

theorem ofReceived_eq_some {α : Type} {f : α → WireMsg} {r : Received α} {m : WireMsg} {rest : List UInt8}
    (h : ofReceived f r = some (m, rest)) : ∃ ret a, r = some (ret, a, rest) ∧ f a = m := by
  obtain ⟨⟨ret, a, rest'⟩, hr, hout⟩ := Option.map_eq_some_iff.mp h
  simp only [Prod.mk.injEq] at hout
  exact ⟨ret, a, hout.2 ▸ hr, hout.1⟩

theorem sendBoolBatch_large {n : ℕ} (hlarge : ¬ n < 2 ^ 32) {x : List Bool} (hlen : x.length = n) :
    sendBoolBatch x = none := by
  rw [sendBoolBatch, hlen, if_neg hlarge]

theorem restoresAs_ones (hpos : 0 < len) {n : ℕ} (hfits : BatchFits len n) :
    RestoresAs (sendFmpzBatch len (List.replicate n 1)) (recvFmpzBatch arrival len (List.replicate n 0))
      (List.replicate n 1) (wrap32 (len * n * 8 : ℕ)) := by
  have hone : InLimbs len 1 := ⟨by norm_num, by exact_mod_cast Nat.one_lt_pow hpos.ne' (by norm_num)⟩
  have hlen : (List.replicate n (0 : ℤ)).length = (List.replicate n (1 : ℤ)).length := by
    rw [List.length_replicate, List.length_replicate]
  have hbatch := restoresAs_fmpzBatch arrival hpos hlen (by rwa [List.length_replicate]) fun y hy => by
    rwa [List.eq_of_mem_replicate hy]
  rwa [List.length_replicate] at hbatch

/-- Both sides know what comes back, so it is what came back. -/
theorem RestoresAs.eq_of_recv {α : Type} {s : Sent} {r : List UInt8 → Received α} {a x : α} {ret ret' ret'' : ℤ}
    {bytes rest rest' : List UInt8} (h : RestoresAs s r a ret) (hsent : s = some (bytes, ret'))
    (hrecv : r (bytes ++ rest) = some (ret'', x, rest')) : x = a := by
  obtain ⟨bytes', rfl, hr⟩ := h
  simp only [Option.some.injEq, Prod.mk.injEq] at hsent
  rw [← hsent.1, hr] at hrecv
  simp only [Option.some.injEq, Prod.mk.injEq] at hrecv
  exact hrecv.2.1.symm

theorem recvCorShareBatch_fails {n : ℕ} (hn : 0 < n) (hfits : ¬ BatchFits len n) {stream rest : List UInt8} {ret : ℤ}
    {x : List CorShare}
    (h : recvCorShareBatch arrival len (List.replicate n ⟨0, 0⟩) stream = some (ret, x, rest)) :
    x ≠ List.replicate n ⟨1, 1⟩ := by
  obtain ⟨n, rfl⟩ := Nat.exists_eq_succ_of_ne_zero hn.ne'
  have hne : ∀ e : ℤ, (⟨0, e⟩ : CorShare) ≠ ⟨1, 1⟩ := by
    intro e he
    exact absurd (congrArg CorShare.shareD he) (by norm_num)
  have hcons : ∀ (e : ℤ) (xs : List CorShare), ⟨0, e⟩ :: xs ≠ List.replicate (n + 1) ⟨1, 1⟩ := by
    intro e xs he
    exact hne e (List.cons.inj he).1
  rw [recvCorShareBatch, List.length_replicate] at h
  split_ifs at h
  obtain ⟨ret', buf, rest', hbuf, ⟨-, hout⟩ | ⟨-, h⟩⟩ := check_eq_some h
  · simp only [Prod.mk.injEq] at hout
    rw [hout.2.1]
    exact hcons 0 _
  · have hhead := recvFmpzBatch_fails hfits hbuf
    obtain ⟨buf, rfl⟩ : ∃ buf', buf = 0 :: buf' := by
      cases buf with
      | nil => exact absurd hhead (by simp)
      | cons d buf => exact ⟨buf, by rw [Option.some.inj hhead]⟩
    obtain ⟨ret'', buf', rest'', -, ⟨-, hout⟩ | ⟨-, hout⟩⟩ := check_eq_some h
    · simp only [Prod.mk.injEq] at hout
      rw [hout.2.1]
      exact hcons 0 _
    · simp only [Option.some.injEq, Prod.mk.injEq] at hout
      rw [← hout.2.1]
      cases buf' with
      | nil => simp
      | cons e buf' => exact hcons e _

theorem recvEdaBitBatch_fails {nbits n : ℕ} (hn : 0 < n) (hfits : ¬ BatchFits len n) {stream rest : List UInt8}
    {ret : ℤ} {bits : List Bool} {x : List (EdaBit nbits)}
    (h : recvEdaBitBatch arrival len (List.replicate n (edaBitOf nbits 0 bits)) stream = some (ret, x, rest))
    (bits' : List Bool) : x ≠ List.replicate n (edaBitOf nbits 1 bits') := by
  obtain ⟨n, rfl⟩ := Nat.exists_eq_succ_of_ne_zero hn.ne'
  have hcons : ∀ (y : EdaBit nbits) (xs : List (EdaBit nbits)), y.r = 0 →
      y :: xs ≠ List.replicate (n + 1) (edaBitOf nbits 1 bits') := by
    intro y xs hy he
    have hr := congrArg EdaBit.r (List.cons.inj he).1
    rw [hy] at hr
    exact absurd hr (by simp [edaBitOf])
  rw [recvEdaBitBatch, List.length_replicate] at h
  split_ifs at h
  obtain ⟨ret', buf, rest', hbuf, ⟨-, hout⟩ | ⟨-, h⟩⟩ := check_eq_some h
  · simp only [Prod.mk.injEq] at hout
    rw [hout.2.1]
    exact hcons _ _ rfl
  · have hhead := recvFmpzBatch_fails hfits hbuf
    obtain ⟨ret'', b, rest'', -, ⟨-, hout⟩ | ⟨-, hout⟩⟩ := check_eq_some h
    · simp only [Prod.mk.injEq] at hout
      rw [hout.2.1]
      exact hcons _ _ rfl
    · simp only [Option.some.injEq, Prod.mk.injEq] at hout
      rw [← hout.2.1]
      cases buf with
      | nil => exact absurd hhead (by simp)
      | cons d buf =>
        obtain rfl := Option.some.inj hhead
        exact hcons _ _ rfl

theorem not_restored_corShareBatch (hpos : 0 < len) {n : ℕ} (hfits : ¬ (Shape.corShareBatch n).Fits len)
    {bytes rest rest' : List UInt8} {ret ret' : ℤ} {x : List CorShare}
    (hsent : sendCorShareBatch len (List.replicate n ⟨1, 1⟩) = some (bytes, ret))
    (hrecv : recvCorShareBatch arrival len (List.replicate n ⟨0, 0⟩) (bytes ++ rest) = some (ret', x, rest')) :
    x ≠ List.replicate n ⟨1, 1⟩ := by
  simp only [Shape.Fits, not_or, not_and, Int.not_lt] at hfits
  obtain ⟨hn, hfits⟩ := hfits
  have hlt : n < 2 ^ 32 := by
    rw [sendCorShareBatch, List.length_replicate] at hsent
    by_contra hge
    rw [if_neg hge] at hsent
    exact absurd hsent (by simp)
  by_cases hbatch : BatchFits len n
  · have hold : RestoresAs (sendCorShareBatch len (List.replicate n ⟨1, 1⟩))
        (recvCorShareBatch arrival len (List.replicate n ⟨0, 0⟩)) (List.replicate n ⟨0, 0⟩)
        (wrap32 (len * n * 8 : ℕ)) := by
      unfold sendCorShareBatch
      unfold recvCorShareBatch
      simp only [List.length_replicate, if_pos hlt, List.map_replicate]
      exact (restoresAs_ones hpos hbatch).check_early (hfits hlt hbatch)
    rw [hold.eq_of_recv hsent hrecv]
    intro heq
    have hhead := List.replicate_inj.mp heq
    simp [hn] at hhead
  · exact recvCorShareBatch_fails (by omega) hbatch hrecv

theorem not_restored_edaBitBatch (hpos : 0 < len) {nbits n : ℕ} (hfits : ¬ (Shape.edaBitBatch nbits n).Fits len)
    {bits bits' : List Bool} {bytes rest rest' : List UInt8} {ret ret' : ℤ} {x : List (EdaBit nbits)}
    (hsent : sendEdaBitBatch len (List.replicate n (edaBitOf nbits 1 bits)) = some (bytes, ret))
    (hrecv : recvEdaBitBatch arrival len (List.replicate n (edaBitOf nbits 0 bits')) (bytes ++ rest) =
      some (ret', x, rest')) :
    x ≠ List.replicate n (edaBitOf nbits 1 bits) := by
  simp only [Shape.Fits, not_or, not_and, Int.not_lt] at hfits
  obtain ⟨hn, hfits⟩ := hfits
  have hold : List.replicate n (edaBitOf nbits 0 bits') ≠ List.replicate n (edaBitOf nbits 1 bits) := by
    intro heq
    rcases List.replicate_inj.mp heq with ⟨-, hzero | hone⟩
    · exact hn hzero
    · exact absurd (congrArg EdaBit.r hone) (by simp [edaBitOf])
  have hlt : n < 2 ^ 32 := by
    rw [sendEdaBitBatch, List.length_replicate] at hsent
    by_contra hge
    rw [if_neg hge] at hsent
    exact absurd hsent (by simp)
  have hflat : ((List.replicate n (edaBitOf nbits 1 bits)).flatMap EdaBit.b).length = n * nbits := by
    rw [length_flatMap_const EdaBit.length_b, List.length_replicate, Nat.mul_comm]
  by_cases hbatch : BatchFits len n
  · have hones : RestoresAs (sendFmpzBatch len ((List.replicate n (edaBitOf nbits 1 bits)).map EdaBit.r))
        (recvFmpzBatch arrival len (List.replicate n 0)) (List.replicate n 1) (wrap32 (len * n * 8 : ℕ)) := by
      rw [List.map_replicate]
      exact restoresAs_ones hpos hbatch
    have hrestores : ∃ ret, RestoresAs (sendEdaBitBatch len (List.replicate n (edaBitOf nbits 1 bits)))
        (recvEdaBitBatch arrival len (List.replicate n (edaBitOf nbits 0 bits')))
        (List.replicate n (edaBitOf nbits 0 bits')) ret := by
      unfold sendEdaBitBatch
      unfold recvEdaBitBatch
      simp only [List.length_replicate, if_pos hlt]
      by_cases hret : wrap32 (len * n * 8 : ℕ) ≤ 0
      · exact ⟨_, hones.check_early hret⟩
      · -- what is left is a batch without bits
        have hbools : n * nbits < 2 ^ 32 := by
          by_contra hge
          obtain ⟨bytes', hs, -⟩ := hones
          rw [sendEdaBitBatch, List.length_replicate, if_pos hlt, hs, Sent.check, Option.bind_some] at hsent
          simp only [hret, if_false, sendBoolBatch_large hge hflat] at hsent
          exact absurd hsent (by simp [Sent.check])
        have hzero : nbits = 0 := by
          by_contra hne
          exact hret (hfits hlt (Nat.pos_of_ne_zero hne) hbools hbatch)
        have hbits := restoresAs_boolBatch arrival (x := (List.replicate n (edaBitOf nbits 1 bits)).flatMap EdaBit.b)
          (by rwa [hflat])
        rw [hflat] at hbits
        refine ⟨_, hones.check (by omega) (hbits.check_early ?_)⟩
        simp [hzero]
    obtain ⟨ret'', hrestores⟩ := hrestores
    rwa [hrestores.eq_of_recv hsent hrecv]
  · exact recvEdaBitBatch_fails (by omega) hbatch hrecv bits

theorem not_restored_filled (arrival : Arrival) (hpos : 0 < len) {s : Shape} (hfits : ¬ s.Fits len)
    {bytes rest rest' : List UInt8} (hsent : (s.filled 1 true).send len = some bytes) :
    (s.filled 0 false).recv arrival len (bytes ++ rest) ≠ some (s.filled 1 true, rest') := by
  intro hrecv
  obtain ⟨⟨bytes', ret⟩, hbytes, rfl⟩ := Option.map_eq_some_iff.mp hsent
  cases s with
  | boolBatch n =>
    rw [Shape.filled, sent, sendBoolBatch_large hfits List.length_replicate] at hbytes
    exact absurd hbytes (by simp)
  | fmpz =>
    obtain ⟨ret', x, hx, heq⟩ := ofReceived_eq_some hrecv
    rw [(recvFmpz_fails (Nat.le_of_not_lt hfits) hx).2] at heq
    exact absurd (WireMsg.fmpz.inj heq) (by norm_num)
  | fmpzBatch n =>
    obtain ⟨ret', x, hx, heq⟩ := ofReceived_eq_some hrecv
    have hhead := recvFmpzBatch_fails hfits hx
    rw [WireMsg.fmpzBatch.inj heq, List.head?_replicate] at hhead
    split_ifs at hhead
    exact absurd hhead (by simp)
  | fmpzOneByOne n =>
    simp only [Shape.Fits, not_or, Nat.not_lt] at hfits
    obtain ⟨n, rfl⟩ := Nat.exists_eq_succ_of_ne_zero hfits.1
    obtain ⟨⟨x, rest''⟩, hx, heq⟩ := Option.map_eq_some_iff.mp hrecv
    obtain ⟨⟨ret', y, rest₁⟩, hy, hx⟩ := Option.bind_eq_some_iff.mp hx
    obtain ⟨⟨ys, rest₂⟩, -, hx⟩ := Option.map_eq_some_iff.mp hx
    simp only [Shape.filled, Prod.mk.injEq, WireMsg.fmpzOneByOne.injEq] at hx heq
    rw [← hx.1, (recvFmpz_fails hfits.2 hy).2] at heq
    exact absurd (List.cons.inj heq.1).1 (by norm_num)
  | clientPacket nMul =>
    obtain ⟨ret', x, hx, heq⟩ := ofReceived_eq_some hrecv
    have hlt : nMul < 2 ^ 31 := by
      by_contra hge
      rw [Shape.filled, sent, sendClientPacket, packetOfFields, if_neg hge] at hbytes
      exact absurd hbytes (by simp)
    have hlarge : 2 ^ 31 ≤ len * 8 := by
      by_contra hsmall
      exact hfits ⟨hlt, by omega⟩
    have hold := recvClientPacket_fails hlarge hlt hx
    have hf0 : (packetOfFields nMul (List.replicate (nMul + 3 + nextPowerOfTwo nMul) 0) ⟨0, 0, 0⟩).f0S =
        (packetOfFields nMul (List.replicate (nMul + 3 + nextPowerOfTwo nMul) 1) ⟨1, 1, 1⟩).f0S := by
      rw [← hold, WireMsg.clientPacket.inj heq]
    simp only [packetOfFields] at hf0
    rw [getD_replicate (by omega), getD_replicate (by omega)] at hf0
    exact absurd hf0 (by norm_num)
  | corShareBatch n =>
    obtain ⟨ret', x, hx, heq⟩ := ofReceived_eq_some hrecv
    exact not_restored_corShareBatch hpos hfits hbytes hx (WireMsg.corShareBatch.inj heq)
  | beaverTriple =>
    obtain ⟨ret', x, hx, heq⟩ := ofReceived_eq_some hrecv
    rw [recvEach_fails (Nat.le_of_not_lt hfits) hx] at heq
    exact absurd (congrArg BeaverTriple.a (WireMsg.beaverTriple.inj heq)) (by simp [BeaverTriple.ofList])
  | beaverTripleShare =>
    obtain ⟨ret', x, hx, heq⟩ := ofReceived_eq_some hrecv
    rw [recvEach_fails (Nat.le_of_not_lt hfits) hx] at heq
    exact absurd (congrArg BeaverTripleShare.shareA (WireMsg.beaverTripleShare.inj heq))
      (by simp [BeaverTripleShare.ofList])
  | booleanBeaverTriple => exact hfits trivial
  | daBit =>
    obtain ⟨ret', x, hx, heq⟩ := ofReceived_eq_some hrecv
    have hlarge := Nat.le_of_not_lt hfits
    obtain ⟨bp, hbp, hout⟩ := check_fails (fun _ _ _ hr => (recvFmpz_fails hlarge hr).1) hx
    rw [hout, (recvFmpz_fails hlarge hbp).2] at heq
    exact absurd (congrArg DaBit.bp (WireMsg.daBit.inj heq)) (by norm_num)
  | daBitBatch n =>
    obtain ⟨ret', x, hx, heq⟩ := ofReceived_eq_some hrecv
    have hhead := recvDaBitBatch_fails hfits hx
    rw [WireMsg.daBitBatch.inj heq, List.head?_replicate] at hhead
    split_ifs at hhead
    exact absurd (congrArg DaBit.bp (Option.some.inj hhead)) (by norm_num)
  | edaBit nbits =>
    obtain ⟨ret', x, hx, heq⟩ := ofReceived_eq_some hrecv
    by_cases hsmall : len * 8 < 2 ^ 31
    · have hge : ¬ nbits < 2 ^ 32 := fun hlt => hfits ⟨hsmall, hlt⟩
      have hone : InLimbs len 1 := ⟨by norm_num, by exact_mod_cast Nat.one_lt_pow hpos.ne' (by norm_num)⟩
      obtain ⟨bytes₁, hs, -⟩ := restoresAs_fmpz arrival hpos hsmall hone 0
      have hlarge := sendBoolBatch_large hge (edaBitOf nbits 1 (List.replicate nbits true)).length_b
      change sendEdaBit len (edaBitOf nbits 1 (List.replicate nbits true)) = _ at hbytes
      rw [sendEdaBit, hlarge, edaBitOf, hs, Sent.check, Option.bind_some] at hbytes
      simp only [Int.not_le.mpr (show (0 : ℤ) < (len * 8 : ℕ) by omega), if_false] at hbytes
      exact absurd hbytes (by simp [Sent.check])
    · have hlarge := Nat.le_of_not_lt hsmall
      obtain ⟨r, hr, hout⟩ := check_fails (fun _ _ _ hr => (recvFmpz_fails hlarge hr).1) hx
      rw [hout, (recvFmpz_fails hlarge hr).2] at heq
      have hr' := congrArg EdaBit.r (eq_of_heq (WireMsg.edaBit.inj heq).2)
      exact absurd hr' (by simp [edaBitOf])
  | edaBitBatch nbits n =>
    obtain ⟨ret', x, hx, heq⟩ := ofReceived_eq_some hrecv
    have hx' := eq_of_heq (WireMsg.edaBitBatch.inj heq).2
    exact not_restored_edaBitBatch hpos hfits hbytes hx hx'

end Fails

/-! ### Sequences of messages -/

theorem fmpzSize_pos {modulus : ℕ} (hmod : 1 < modulus) : 0 < fmpzSize modulus := by
  rw [fmpzSize, if_neg (by omega)]
  omega

theorem inLimbs_of_lt {modulus : ℕ} {x : ℤ} (hpos : 0 ≤ x) (hlt : x < modulus) : InLimbs (fmpzSize modulus) x := by
  refine ⟨hpos, hlt.trans ?_⟩
  exact_mod_cast lt_fmpzSize modulus

theorem exists_messages (shapes : List Shape) :
    ∃ msgs olds, msgs.map shape = shapes ∧ List.Forall₂ SameShape msgs olds ∧ ∀ m ∈ msgs, ∀ x ∈ m.fmpzs, x = 1 := by
  refine ⟨shapes.map (Shape.filled 1 true), shapes.map (Shape.filled 0 false), ?_, ?_, ?_⟩
  · rw [List.map_map]
    exact (List.map_congr_left fun s _ => shape_filled 1 true s).trans (List.map_id _)
  · rw [List.forall₂_map_left_iff, List.forall₂_map_right_iff, List.forall₂_same]
    exact fun s _ => sameShape_filled 1 0 true false s
  · intro m hm
    obtain ⟨s, -, rfl⟩ := List.mem_map.mp hm
    exact fmpzs_filled 1 true s

variable {modulus : ℕ} {s : Shape} {shapes : List Shape}

theorem framesAll_cons (hmod : 1 < modulus) (hfits : s.Fits (fmpzSize modulus)) (h : FramesAll modulus shapes) :
    FramesAll modulus (s :: shapes) := by
  intro msgs olds hshapes hsame hrange arrival rest
  cases hsame with
  | nil => exact absurd hshapes (by simp)
  | @cons m old msgs olds hm hsame =>
    obtain ⟨rfl, htail⟩ := List.cons.inj hshapes
    obtain ⟨bytes', hs', hr'⟩ := h msgs olds htail hsame (fun m hm => hrange m (List.mem_cons_of_mem _ hm)) arrival rest
    obtain ⟨bytes, hs, hr⟩ := restored_of_fits arrival (fmpzSize_pos hmod) hm hfits fun x hx =>
      inLimbs_of_lt (hrange m List.mem_cons_self x hx).1 (hrange m List.mem_cons_self x hx).2
    refine ⟨bytes ++ bytes', by simp [sendAll, hs, hs'], ?_⟩
    rw [List.append_assoc, recvAll, hr]
    simp [hr']

theorem FramesAll.tail (hmod : 1 < modulus) (hfits : s.Fits (fmpzSize modulus)) (h : FramesAll modulus (s :: shapes)) :
    FramesAll modulus shapes := by
  intro msgs olds hshapes hsame hrange arrival rest
  have hone : ∀ x ∈ (s.filled 1 true).fmpzs, (0 : ℤ) ≤ x ∧ x < modulus := by
    intro x hx
    rw [fmpzs_filled 1 true s x hx]
    exact ⟨by norm_num, by exact_mod_cast hmod⟩
  have hsameHead := sameShape_filled 1 0 true false s
  obtain ⟨all, hall, hrecv⟩ := h (s.filled 1 true :: msgs) (s.filled 0 false :: olds) (by simp [hshapes])
    (.cons hsameHead hsame) (fun m hm => by
      rcases List.mem_cons.mp hm with rfl | hm
      · exact hone
      · exact hrange m hm) arrival rest
  obtain ⟨bytes, hs, hr⟩ := restored_of_fits arrival (fmpzSize_pos hmod) hsameHead (by rwa [shape_filled]) fun x hx =>
    inLimbs_of_lt (hone x hx).1 (hone x hx).2
  simp only [sendAll, hs, Option.pure_def, Option.bind_eq_bind, Option.bind_some] at hall
  obtain ⟨bytes', hs', hall⟩ := Option.bind_eq_some_iff.mp hall
  obtain rfl := Option.some.inj hall
  refine ⟨bytes', hs', ?_⟩
  rw [List.append_assoc, recvAll, hr] at hrecv
  simp only [Option.pure_def, Option.bind_eq_bind, Option.bind_some] at hrecv
  obtain ⟨⟨msgs', rest'⟩, hr', hout⟩ := Option.bind_eq_some_iff.mp hrecv
  simp only [Option.some.injEq, Prod.mk.injEq, List.cons.injEq, true_and] at hout
  rw [hr', hout.1, hout.2]

theorem FramesAll.head (hmod : 1 < modulus) (h : FramesAll modulus (s :: shapes)) : s.Fits (fmpzSize modulus) := by
  by_contra hfits
  obtain ⟨msgs, olds, hshapes, hsame, hone⟩ := exists_messages shapes
  obtain ⟨all, hall, hrecv⟩ := h (s.filled 1 true :: msgs) (s.filled 0 false :: olds) (by simp [hshapes])
    (.cons (sameShape_filled 1 0 true false s) hsame) (fun m hm x hx => by
      have hx1 : x = 1 := by
        rcases List.mem_cons.mp hm with rfl | hm
        · exact fmpzs_filled 1 true s x hx
        · exact hone m hm x hx
      rw [hx1]
      exact ⟨by norm_num, by exact_mod_cast hmod⟩) (fun _ => 0) []
  obtain ⟨bytes, hs, hall⟩ := Option.bind_eq_some_iff.mp hall
  obtain ⟨bytes', -, hall⟩ := Option.bind_eq_some_iff.mp hall
  obtain rfl := Option.some.inj hall
  rw [List.append_assoc] at hrecv
  obtain ⟨⟨m, rest'⟩, hr, hrecv⟩ := Option.bind_eq_some_iff.mp hrecv
  obtain ⟨⟨msgs', rest''⟩, -, hout⟩ := Option.bind_eq_some_iff.mp hrecv
  simp only [Option.pure_def, Option.some.injEq, Prod.mk.injEq, List.cons.injEq] at hout
  rw [hout.1.1] at hr
  exact not_restored_filled (fun _ => 0) (fmpzSize_pos hmod) hfits hs hr

/-- All messages of a sequence of shapes come back as they were exactly when every shape fits. -/
theorem framesAll_iff (hmod : 1 < modulus) (shapes : List Shape) :
    FramesAll modulus shapes ↔ ∀ s ∈ shapes, s.Fits (fmpzSize modulus) := by
  induction shapes with
  | nil =>
    refine ⟨fun _ s hs => absurd hs List.not_mem_nil, fun _ msgs olds hshapes hsame _ arrival rest => ?_⟩
    obtain rfl := List.map_eq_nil_iff.mp hshapes
    cases hsame
    exact ⟨[], rfl, rfl⟩
  | cons s shapes ih =>
    rw [List.forall_mem_cons, ← ih]
    exact ⟨fun h => ⟨h.head hmod, h.tail hmod (h.head hmod)⟩, fun h => framesAll_cons hmod h.1 h.2⟩

theorem framesAll_iff_intModulus :
    FramesAll intModulus [.fmpzBatch 2000000, .clientPacket 3, .edaBitBatch 4 2] ↔
      ∀ s ∈ [Shape.fmpzBatch 2000000, .clientPacket 3, .edaBitBatch 4 2], s.Fits (fmpzSize intModulus) :=
  framesAll_iff (by decide) _

/-- One EdaBit without bits: its number is sent and is not stored. -/
theorem not_framesAll_edaBitBatch : ¬ FramesAll intModulus [.edaBitBatch 0 1] := by
  intro h
  have hfits := h.head (by decide)
  simp [Shape.Fits] at hfits

end PrioPlus.NetShare

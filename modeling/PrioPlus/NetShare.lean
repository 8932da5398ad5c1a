import PrioPlus.Lib.Bytes
import PrioPlus.Share

/-!
# The wire format, `net_share.cpp`

The functions that put bits, integers and the records of `share.h` on a stream of bytes and read them back. Each
returns an `int`, the number of bytes or the first return value of an inner step that is not positive; with such a
value the caller returns at once, and a receiver leaves the rest of its target as it was. So a receiver is modelled
with the old contents of its target, and the returned integers are those of 32 bits.

`send` takes all its bytes. `recv` may take fewer than it is asked for, and `recv_in` goes on until it has them all.
-/

namespace PrioPlus.NetShare

open Lib.Bytes

/-- The value of a 32-bit `int`. -/
def wrap32 (x : ℤ) : ℤ := x.bmod (2 ^ 32)

/-- What a sender wrote and what it returns, or nothing when it does not return. -/
abbrev Sent := Option (List UInt8 × ℤ)

/-- What a receiver returns, the contents of its target and the rest of the stream, or nothing when it does not
return. -/
abbrev Received (α : Type) := Option (ℤ × α × List UInt8)

/-- `if (ret <= 0) return ret; else total += ret;` -/
def Sent.check (s : Sent) (total : ℤ) (next : ℤ → Sent) : Sent :=
  s.bind fun (bytes, ret) =>
    if ret ≤ 0 then some (bytes, ret)
    else (next (wrap32 (total + ret))).map fun (bytes', ret') => (bytes ++ bytes', ret')

/-- The same for a receiver, whose target is then `early`. -/
def Received.check {α β : Type} (r : Received α) (early : α → β) (total : ℤ)
    (next : α → ℤ → List UInt8 → Received β) : Received β :=
  r.bind fun (ret, a, rest) => if ret ≤ 0 then some (ret, early a, rest) else next a (wrap32 (total + ret)) rest

/-- The receivers read from a stream. How many bytes more than one a call of `recv` takes is up to the network: a
choice for each number of bytes that are still to come. -/
abbrev Arrival := ℕ → ℕ

/-! ### Core functions -/

def send (buf : List UInt8) : Sent := some (buf, wrap32 buf.length)

/-- The loop of `recv_in`, whose `bytes_read` is an `unsigned int`. It waits when the stream is empty. -/
def recvLoop (arrival : Arrival) (len bytesRead : ℕ) (buf stream : List UInt8) : Received (List UInt8) :=
  if bytesRead < len then
    if hempty : stream = [] then none
    else
      let tmp := min (arrival stream.length + 1) (min (len - bytesRead) stream.length)
      recvLoop arrival len ((bytesRead + tmp) % 2 ^ 32) (buf ++ stream.take tmp) (stream.drop tmp)
  else some (wrap32 bytesRead, buf, stream)
termination_by stream.length
decreasing_by
  have hpos := List.length_pos_iff.mpr hempty
  rw [List.length_drop]
  omega

def recvIn (arrival : Arrival) (len : ℕ) (stream : List UInt8) : Received (List UInt8) :=
  recvLoop arrival len 0 [] stream

def sendBool (x : Bool) : Sent := send [if x then 1 else 0]

def recvBool (arrival : Arrival) (stream : List UInt8) : Received Bool :=
  (recvIn arrival 1 stream).map fun (ret, buf, rest) => (ret, buf.getD 0 0 ≠ 0, rest)

/-- `send_bool_batch`. The loop over `n` has an `unsigned int`. -/
def sendBoolBatch (x : List Bool) : Sent := if x.length < 2 ^ 32 then send (packBits x) else none

def recvBoolBatch (arrival : Arrival) (n : ℕ) (stream : List UInt8) : Received (List Bool) :=
  (recvIn arrival ((n + 7) / 8) stream).bind fun (ret, buf, rest) =>
    if n < 2 ^ 32 then some (ret, unpackBits n buf, rest) else none

/-- A `ulong` in memory, with the lowest byte first. -/
def ulongBytes (w : ℕ) : List UInt8 := (digitsOf 256 8 w).map UInt8.ofNat

def ulongOfBytes (bytes : List UInt8) : ℕ := Nat.ofDigits 256 (bytes.map UInt8.toNat)

def sendUlongBatch (x : List ℕ) : Sent := send (x.flatMap ulongBytes)

def recvUlongBatch (arrival : Arrival) (n : ℕ) (stream : List UInt8) : Received (List ℕ) :=
  (recvIn arrival (n * 8) stream).map fun (ret, buf, rest) => (ret, (blocks 8 n buf).map ulongOfBytes, rest)

/-! ### Integers -/

/-- `fmpz_size`, the number of limbs. -/
def fmpzSize (x : ℕ) : ℕ := if x = 0 then 0 else Nat.log2 x / 64 + 1

/-- `fmpz_get_ui_array`, for an integer that is not negative. -/
def fmpzGetUiArray (len : ℕ) (x : ℤ) : List ℕ := digitsOf (2 ^ 64) len x.toNat

/-- `fmpz_set_ui_array`. -/
def fmpzSetUiArray (buf : List ℕ) : ℤ := (Nat.ofDigits (2 ^ 64) buf : ℕ)

/-- `send_fmpz` with `FIXED_FMPZ_SIZE`, where `len` is `fmpz_size(Int_Modulus)`. -/
def sendFmpz (len : ℕ) (x : ℤ) : Sent :=
  (sendUlongBatch (fmpzGetUiArray len x)).check 0 fun total => some ([], total)

def recvFmpz (arrival : Arrival) (len : ℕ) (old : ℤ) (stream : List UInt8) : Received ℤ :=
  if len = 0 then some (0, 0, stream)
  else (recvUlongBatch arrival len stream).check (fun _ => old) 0 fun buf total rest =>
    some (total, fmpzSetUiArray buf, rest)

def maxFmpzBatch : ℕ := 1000000

def maxDaBitBatch : ℕ := 320000

/-- `total += first; total += second; return total;` -/
def Sent.plus (first second : Sent) : Sent :=
  first.bind fun (bytes, ret) => second.map fun (bytes', ret') => (bytes ++ bytes', wrap32 (wrap32 (0 + ret) + ret'))

/-- The same for the two parts of an array. -/
def Received.plus {α : Type} (first : Received (List α)) (second : List UInt8 → Received (List α)) :
    Received (List α) :=
  first.bind fun (ret, x, rest) => (second rest).map fun (ret', x', rest') =>
    (wrap32 (wrap32 (0 + ret) + ret'), x ++ x', rest')

def sendFmpzBatch (len : ℕ) (x : List ℤ) : Sent :=
  if _hlarge : x.length > maxFmpzBatch then
    (sendFmpzBatch len (x.take maxFmpzBatch)).plus (sendFmpzBatch len (x.drop maxFmpzBatch))
  else (sendUlongBatch (x.flatMap (fmpzGetUiArray len))).check 0 fun total => some ([], total)
termination_by x.length
decreasing_by
  · rw [List.length_take]
    omega
  · rw [List.length_drop]
    have hpos : 0 < maxFmpzBatch := by decide
    omega

def recvFmpzBatch (arrival : Arrival) (len : ℕ) (old : List ℤ) (stream : List UInt8) : Received (List ℤ) :=
  if _hlarge : old.length > maxFmpzBatch then
    (recvFmpzBatch arrival len (old.take maxFmpzBatch) stream).plus
      (recvFmpzBatch arrival len (old.drop maxFmpzBatch))
  else (recvUlongBatch arrival (len * old.length) stream).check (fun _ => old) 0 fun buf total rest =>
    some (total, (blocks len old.length buf).map fmpzSetUiArray, rest)
termination_by old.length
decreasing_by
  · rw [List.length_take]
    omega
  · rw [List.length_drop]
    have hpos : 0 < maxFmpzBatch := by decide
    omega

/-- Integers one by one, with a check after each. -/
def sendEach (len : ℕ) : List ℤ → ℤ → (ℤ → Sent) → Sent
  | [], total, next => next total
  | x :: xs, total, next => (sendFmpz len x).check total fun total => sendEach len xs total next

def recvEach {β : Type} (arrival : Arrival) (len : ℕ) :
    List ℤ → (List ℤ → β) → ℤ → List UInt8 → (List ℤ → ℤ → List UInt8 → Received β) → Received β
  | [], _, total, stream, next => next [] total stream
  | x :: xs, early, total, stream, next =>
    (recvFmpz arrival len x stream).check (fun y => early (y :: xs)) total fun y total rest =>
      recvEach arrival len xs (fun ys => early (y :: ys)) total rest fun ys => next (y :: ys)

/-- Read `n` integers with `n` calls of `recv_fmpz`, as `linreg_op` does. -/
def recvFmpzs (arrival : Arrival) (len : ℕ) : List ℤ → List UInt8 → Option (List ℤ × List UInt8)
  | [], stream => some ([], stream)
  | x :: xs, stream =>
    (recvFmpz arrival len x stream).bind fun (_, y, rest) =>
      (recvFmpzs arrival len xs rest).map fun (ys, rest) => (y :: ys, rest)

/-! ### Records -/

/-- `send_CorShare_batch`. Its loops over `n` have an `unsigned int`. -/
def sendCorShareBatch (len : ℕ) (x : List CorShare) : Sent :=
  if x.length < 2 ^ 32 then
    (sendFmpzBatch len (x.map CorShare.shareD)).check 0 fun total =>
      (sendFmpzBatch len (x.map CorShare.shareE)).check total fun total => some ([], total)
  else none

/-- `recv_CorShare_batch`. The loop over `n` is in `new_fmpz_array` already. -/
def recvCorShareBatch (arrival : Arrival) (len : ℕ) (old : List CorShare) (stream : List UInt8) :
    Received (List CorShare) :=
  if old.length < 2 ^ 32 then
    (recvFmpzBatch arrival len (List.replicate old.length 0) stream).check (fun _ => old) 0 fun buf total rest =>
      (recvFmpzBatch arrival len buf rest).check
        (fun _ => List.zipWith (fun x d => { x with shareD := d }) old buf) total fun buf' total rest =>
          some (total, List.zipWith CorShare.mk buf buf', rest)
  else none

def sendBeaverTriple (len : ℕ) (x : BeaverTriple) : Sent :=
  sendEach len [x.a, x.b, x.c] 0 fun total => some ([], total)

def BeaverTriple.ofList (xs : List ℤ) : BeaverTriple := ⟨xs.getD 0 0, xs.getD 1 0, xs.getD 2 0⟩

def recvBeaverTriple (arrival : Arrival) (len : ℕ) (old : BeaverTriple) (stream : List UInt8) :
    Received BeaverTriple :=
  recvEach arrival len [old.a, old.b, old.c] BeaverTriple.ofList 0 stream fun xs total rest =>
    some (total, BeaverTriple.ofList xs, rest)

def sendBeaverTripleShare (len : ℕ) (x : BeaverTripleShare) : Sent :=
  sendEach len [x.shareA, x.shareB, x.shareC] 0 fun total => some ([], total)

def BeaverTripleShare.ofList (xs : List ℤ) : BeaverTripleShare := ⟨xs.getD 0 0, xs.getD 1 0, xs.getD 2 0⟩

def recvBeaverTripleShare (arrival : Arrival) (len : ℕ) (old : BeaverTripleShare) (stream : List UInt8) :
    Received BeaverTripleShare :=
  recvEach arrival len [old.shareA, old.shareB, old.shareC] BeaverTripleShare.ofList 0 stream fun xs total rest =>
    some (total, BeaverTripleShare.ofList xs, rest)

/-- The integers of a packet before its triple, in the order of the wire. -/
def packetFields (x : ClientPacket) : List ℤ := x.mulShares ++ [x.f0S, x.g0S, x.h0S] ++ x.hPoints

def packetOfFields (nMul : ℕ) (xs : List ℤ) (tripleShare : BeaverTripleShare) : ClientPacket where
  nMul := nMul
  mulShares := (List.range nMul).map fun i => xs.getD i 0
  f0S := xs.getD nMul 0
  g0S := xs.getD (nMul + 1) 0
  h0S := xs.getD (nMul + 2) 0
  hPoints := (List.range (nextPowerOfTwo nMul)).map fun i => xs.getD (nMul + 3 + i) 0
  tripleShare := tripleShare
  mulShares_length := by simp
  hPoints_length := by simp

/-- `send_ClientPacket`. `NextPowerOfTwo` has an `unsigned int`, whose doubling ends at zero from `2 ^ 31` on. -/
def sendClientPacket (len : ℕ) (x : ClientPacket) : Sent :=
  if x.nMul < 2 ^ 31 then
    sendEach len (packetFields x) 0 fun total =>
      (sendBeaverTripleShare len x.tripleShare).check total fun total => some ([], total)
  else none

def recvClientPacket (arrival : Arrival) (len : ℕ) (old : ClientPacket) (stream : List UInt8) :
    Received ClientPacket :=
  if old.nMul < 2 ^ 31 then
    recvEach arrival len (packetFields old) (fun xs => packetOfFields old.nMul xs old.tripleShare) 0 stream
      fun xs total rest =>
        (recvBeaverTripleShare arrival len old.tripleShare rest).check (packetOfFields old.nMul xs) total
          fun triple total rest => some (total, packetOfFields old.nMul xs triple, rest)
  else none

def sendBooleanBeaverTriple (x : BooleanBeaverTriple) : Sent := sendBoolBatch [x.a, x.b, x.c]

def recvBooleanBeaverTriple (arrival : Arrival) (stream : List UInt8) : Received BooleanBeaverTriple :=
  (recvBoolBatch arrival 3 stream).map fun (ret, buf, rest) =>
    (ret, ⟨buf.getD 0 false, buf.getD 1 false, buf.getD 2 false⟩, rest)

def sendDaBit (len : ℕ) (x : DaBit) : Sent :=
  (sendFmpz len x.bp).check 0 fun total => (sendBool x.b2).check total fun total => some ([], total)

def recvDaBit (arrival : Arrival) (len : ℕ) (old : DaBit) (stream : List UInt8) : Received DaBit :=
  (recvFmpz arrival len old.bp stream).check (fun bp => ⟨bp, old.b2⟩) 0 fun bp total rest =>
    (recvBool arrival rest).check (DaBit.mk bp) total fun b2 total rest => some (total, ⟨bp, b2⟩, rest)

def sendDaBitBatch (len : ℕ) (x : List DaBit) : Sent :=
  if _hlarge : x.length > maxDaBitBatch then
    (sendDaBitBatch len (x.take maxDaBitBatch)).plus (sendDaBitBatch len (x.drop maxDaBitBatch))
  else
    (sendFmpzBatch len (x.map DaBit.bp)).check 0 fun total =>
      (sendBoolBatch (x.map DaBit.b2)).check total fun total => some ([], total)
termination_by x.length
decreasing_by
  · rw [List.length_take]
    omega
  · rw [List.length_drop]
    have hpos : 0 < maxDaBitBatch := by decide
    omega

def recvDaBitBatch (arrival : Arrival) (len : ℕ) (old : List DaBit) (stream : List UInt8) : Received (List DaBit) :=
  if _hlarge : old.length > maxDaBitBatch then
    (recvDaBitBatch arrival len (old.take maxDaBitBatch) stream).plus
      (recvDaBitBatch arrival len (old.drop maxDaBitBatch))
  else
    (recvFmpzBatch arrival len (List.replicate old.length 0) stream).check (fun _ => old) 0 fun bp total rest =>
      (recvBoolBatch arrival old.length rest).check (fun _ => old) total fun b2 total rest =>
        some (total, List.zipWith DaBit.mk bp b2, rest)
termination_by old.length
decreasing_by
  · rw [List.length_take]
    omega
  · rw [List.length_drop]
    have hpos : 0 < maxDaBitBatch := by decide
    omega

def sendEdaBit {n : ℕ} (len : ℕ) (x : EdaBit n) : Sent :=
  (sendFmpz len x.r).check 0 fun total => (sendBoolBatch x.b).check total fun total => some ([], total)

/-- An entry with the bits of an array of `n`. -/
def edaBitOf (n : ℕ) (r : ℤ) (bits : List Bool) : EdaBit n where
  r := r
  b := (List.range n).map fun j => bits.getD j false
  length_b := by simp

/-- `recv_EdaBit`. The bits go straight into the target, so an empty array of them does no harm. -/
def recvEdaBit {n : ℕ} (arrival : Arrival) (len : ℕ) (old : EdaBit n) (stream : List UInt8) : Received (EdaBit n) :=
  (recvFmpz arrival len old.r stream).check (fun r => { old with r := r }) 0 fun r total rest =>
    (recvBoolBatch arrival n rest).check (edaBitOf n r) total fun b total rest => some (total, edaBitOf n r b, rest)

/-- `send_EdaBit_batch`. The loop over `n` has an `unsigned int`. -/
def sendEdaBitBatch {nbits : ℕ} (len : ℕ) (x : List (EdaBit nbits)) : Sent :=
  if x.length < 2 ^ 32 then
    (sendFmpzBatch len (x.map EdaBit.r)).check 0 fun total =>
      (sendBoolBatch (x.flatMap EdaBit.b)).check total fun total => some ([], total)
  else none

/-- `recv_EdaBit_batch`. The loop over `n` is in `new_fmpz_array` already. Nothing is copied before both arrays are
there, and no bytes of bits count as a failure. -/
def recvEdaBitBatch {nbits : ℕ} (arrival : Arrival) (len : ℕ) (old : List (EdaBit nbits)) (stream : List UInt8) :
    Received (List (EdaBit nbits)) :=
  if old.length < 2 ^ 32 then
    (recvFmpzBatch arrival len (List.replicate old.length 0) stream).check (fun _ => old) 0 fun r total rest =>
      (recvBoolBatch arrival (old.length * nbits) rest).check (fun _ => old) total fun b total rest =>
        some (total, List.zipWith (edaBitOf nbits) r (blocks nbits old.length b), rest)
  else none

end PrioPlus.NetShare

import PrioPlus.NetShare.RoundTrip

/-!
# Scalars and strings on the wire

The codecs of single integers, of `HeavyConfig` and of strings. `send_size` and `recv_size` apply the 32-bit `htonl` to
a `size_t` and drop its upper half, and a step that moves no byte counts as a failure, so the empty string is one on
both sides. Everything else comes back as it was sent (`roundTrips_iff`).
-/

namespace PrioPlus.NetShare

open Lib.Bytes

/-! ### Byte order -/

/-- `htonl` on a machine that keeps the lowest byte first. -/
def htonl (x : UInt32) : UInt32 := UInt32.ofNat (swapDigits 256 4 x.toNat)

def ntohl (x : UInt32) : UInt32 := UInt32.ofNat (swapDigits 256 4 x.toNat)

/-- The macro `htonll`. -/
def htonll (x : UInt64) : UInt64 :=
  ((htonl (x &&& 0xFFFFFFFF).toUInt32).toUInt64 <<< 32) ||| (htonl (x >>> 32).toUInt32).toUInt64

/-- The macro `ntohll`. -/
def ntohll (x : UInt64) : UInt64 :=
  ((ntohl (x &&& 0xFFFFFFFF).toUInt32).toUInt64 <<< 32) ||| (ntohl (x >>> 32).toUInt32).toUInt64

theorem ntohl_htonl (x : UInt32) : ntohl (htonl x) = x := by
  have hlt := swapDigits_lt (b := 256) (by norm_num) 4 x.toNat
  rw [← UInt32.toNat_inj, ntohl, htonl, UInt32.toNat_ofNat_of_lt' hlt, swapDigits_swapDigits (by norm_num)]
  rw [Nat.mod_eq_of_lt (show x.toNat < 256 ^ 4 from x.toNat_lt)]
  exact UInt32.toNat_ofNat_of_lt' x.toNat_lt

theorem toNat_pack (a b : UInt32) : ((a.toUInt64 <<< 32) ||| b.toUInt64).toNat = a.toNat * 2 ^ 32 + b.toNat := by
  have ha := a.toNat_lt
  have h32 : (32 : UInt64).toNat % 64 = 32 := rfl
  have hshift : (a.toUInt64 <<< 32).toNat = a.toNat <<< 32 := by
    rw [UInt64.toNat_shiftLeft, UInt32.toNat_toUInt64, h32, Nat.shiftLeft_eq]
    exact Nat.mod_eq_of_lt (by omega)
  rw [UInt64.toNat_or, hshift, UInt32.toNat_toUInt64, ← Nat.shiftLeft_add_eq_or_of_lt b.toNat_lt, Nat.shiftLeft_eq]

theorem toNat_low (x : UInt64) : (x &&& 0xFFFFFFFF).toUInt32.toNat = x.toNat % 2 ^ 32 := by
  have hmask : (0xFFFFFFFF : UInt64).toNat = 2 ^ 32 - 1 := rfl
  rw [UInt64.toNat_toUInt32, UInt64.toNat_and, hmask, Nat.and_two_pow_sub_one_eq_mod, Nat.mod_mod]

theorem toNat_high (x : UInt64) : (x >>> 32).toUInt32.toNat = x.toNat / 2 ^ 32 := by
  have hlt := x.toNat_lt
  have h32 : (32 : UInt64).toNat % 64 = 32 := rfl
  rw [UInt64.toNat_toUInt32, UInt64.toNat_shiftRight, h32, Nat.shiftRight_eq_div_pow]
  exact Nat.mod_eq_of_lt (by omega)

theorem ntohll_htonll (x : UInt64) : ntohll (htonll x) = x := by
  have hlow : (htonll x &&& 0xFFFFFFFF).toUInt32 = htonl (x >>> 32).toUInt32 := by
    rw [← UInt32.toNat_inj, toNat_low, htonll, toNat_pack, Nat.mul_add_mod_self_right]
    exact Nat.mod_eq_of_lt (UInt32.toNat_lt _)
  have hhigh : (htonll x >>> 32).toUInt32 = htonl (x &&& 0xFFFFFFFF).toUInt32 := by
    have hlt := (htonl (x >>> 32).toUInt32).toNat_lt
    rw [← UInt32.toNat_inj, toNat_high, htonll, toNat_pack]
    omega
  rw [ntohll, hlow, hhigh, ntohl_htonl, ntohl_htonl, ← UInt64.toNat_inj, toNat_pack, toNat_high, toNat_low]
  exact Nat.div_add_mod' x.toNat (2 ^ 32)

/-! ### The functions -/

/-- The `k` bytes of an integer in memory. -/
def wordBytes (k x : ℕ) : List UInt8 := (digitsOf 256 k x).map UInt8.ofNat

/-- Read `k` bytes into an integer, and convert it in place. -/
def recvWord {α : Type} (arrival : Arrival) (k : ℕ) (conv : ℕ → α) (stream : List UInt8) : Received α :=
  (recvIn arrival k stream).map fun (ret, buf, rest) => (ret, conv (ulongOfBytes buf), rest)

def sendInt (x : Int32) : Sent := send (wordBytes 4 (htonl x.toUInt32).toNat)

def recvInt (arrival : Arrival) (stream : List UInt8) : Received Int32 :=
  recvWord arrival 4 (fun w => (ntohl (UInt32.ofNat w)).toInt32) stream

/-- `send_size`. The argument of `htonl` has 32 bits. -/
def sendSize (x : UInt64) : Sent := send (wordBytes 8 (htonl x.toUInt32).toUInt64.toNat)

def recvSize (arrival : Arrival) (stream : List UInt8) : Received UInt64 :=
  recvWord arrival 8 (fun w => (ntohl (UInt64.ofNat w).toUInt32).toUInt64) stream

/-- `send_double`, on the bits of the `double`. -/
def sendDouble (x : UInt64) : Sent := send (wordBytes 8 x.toNat)

def recvDouble (arrival : Arrival) (stream : List UInt8) : Received UInt64 := recvWord arrival 8 UInt64.ofNat stream

def sendUint32 (x : UInt32) : Sent := send (wordBytes 4 (htonl x).toNat)

def recvUint32 (arrival : Arrival) (stream : List UInt8) : Received UInt32 :=
  recvWord arrival 4 (fun w => ntohl (UInt32.ofNat w)) stream

def sendUint64 (x : UInt64) : Sent := send (wordBytes 8 (htonll x).toNat)

def recvUint64 (arrival : Arrival) (stream : List UInt8) : Received UInt64 :=
  recvWord arrival 8 (fun w => ntohll (UInt64.ofNat w)) stream

def sendString (x : List UInt8) : Sent :=
  (sendSize (UInt64.ofNat x.length)).check 0 fun total => (send x).check total fun total => some ([], total)

def recvString (arrival : Arrival) (old : List UInt8) (stream : List UInt8) : Received (List UInt8) :=
  (recvSize arrival stream).check (fun _ => old) 0 fun len total rest =>
    (recvIn arrival len.toNat rest).check (fun _ => old) total fun buf total rest => some (total, buf, rest)

/-- A `HeavyConfig` as it is in memory, with the bits of its `double`. -/
structure HeavyConfigData where
  t : UInt64
  L : UInt64
  w : UInt64
  d : UInt64

def sendHeavycfg (x : HeavyConfigData) : Sent :=
  (sendDouble x.t).check 0 fun total => (sendSize x.L).check total fun total =>
    (sendSize x.w).check total fun total => (sendSize x.d).check total fun total => some ([], total)

def recvHeavycfg (arrival : Arrival) (old : HeavyConfigData) (stream : List UInt8) : Received HeavyConfigData :=
  (recvDouble arrival stream).check (fun t => { old with t := t }) 0 fun t total rest =>
    (recvSize arrival rest).check (fun L => { old with t := t, L := L }) total fun L total rest =>
      (recvSize arrival rest).check (fun w => { old with t := t, L := L, w := w }) total fun w total rest =>
        (recvSize arrival rest).check (HeavyConfigData.mk t L w) total fun d total rest =>
          some (total, ⟨t, L, w, d⟩, rest)

/-! ### Round trips -/

/-- What was sent is in the target of the receiver, whatever was there before and however the bytes arrive, and both
sides return a positive value. -/
def RoundTrips {α : Type} (s : Sent) (r : Arrival → α → List UInt8 → Received α) (a : α) : Prop :=
  ∃ bytes ret, s = some (bytes, ret) ∧ 0 < ret ∧
    ∀ arrival old rest, ∃ ret', 0 < ret' ∧ r arrival old (bytes ++ rest) = some (ret', a, rest)

/-- A value of one of the types that have a codec of their own. -/
inductive Scalar where
  | size (x : UInt64)
  | uint64 (x : UInt64)
  | uint32 (x : UInt32)
  | int (x : Int32)
  | heavycfg (x : HeavyConfigData)
  | string (x : List UInt8)

namespace Scalar

def RoundTrips : Scalar → Prop
  | size x => NetShare.RoundTrips (sendSize x) (fun arrival _ => recvSize arrival) x
  | uint64 x => NetShare.RoundTrips (sendUint64 x) (fun arrival _ => recvUint64 arrival) x
  | uint32 x => NetShare.RoundTrips (sendUint32 x) (fun arrival _ => recvUint32 arrival) x
  | int x => NetShare.RoundTrips (sendInt x) (fun arrival _ => recvInt arrival) x
  | heavycfg x => NetShare.RoundTrips (sendHeavycfg x) recvHeavycfg x
  | string x => NetShare.RoundTrips (sendString x) recvString x

/-- Sizes have 32 bits, and a string has bytes, though no more than an `int` can count with those of its size. -/
def Fits : Scalar → Prop
  | size x => x.toNat < 2 ^ 32
  | uint64 _ => True
  | uint32 _ => True
  | int _ => True
  | heavycfg x => x.L.toNat < 2 ^ 32 ∧ x.w.toNat < 2 ^ 32 ∧ x.d.toNat < 2 ^ 32
  | string x => 0 < x.length ∧ x.length + 8 < 2 ^ 31

end Scalar

theorem length_wordBytes (k x : ℕ) : (wordBytes k x).length = k := by
  simp [wordBytes]

theorem ulongOfBytes_wordBytes (k x : ℕ) : ulongOfBytes (wordBytes k x) = x % 256 ^ k := by
  have hbyte : (digitsOf 256 k x).map (UInt8.toNat ∘ UInt8.ofNat) = (digitsOf 256 k x).map id :=
    List.map_congr_left fun d hd => UInt8.toNat_ofNat_of_lt' (digitsOf_lt (by norm_num) k x d hd)
  rw [ulongOfBytes, wordBytes, List.map_map, hbyte, List.map_id, ofDigits_digitsOf]

theorem restoresAs_word {α : Type} (arrival : Arrival) {k : ℕ} (hk : k < 2 ^ 31) {x : ℕ} (hx : x < 256 ^ k)
    (conv : ℕ → α) : RestoresAs (send (wordBytes k x)) (recvWord arrival k conv) (conv x) k := by
  refine ⟨wordBytes k x, ?_, fun rest => ?_⟩
  · rw [send, length_wordBytes, wrap32_of_lt (by omega) (by omega)]
  · have hrecv := recvIn_append arrival (show (wordBytes k x).length < 2 ^ 32 by rw [length_wordBytes]; omega) rest
    rw [length_wordBytes, wrap32_of_lt (by omega) (by omega)] at hrecv
    simp only [recvWord, hrecv, Option.map_some, ulongOfBytes_wordBytes, Nat.mod_eq_of_lt hx]

/-- What `recv_size` makes of a size: the lower half. -/
def lowerHalf (x : UInt64) : UInt64 := x.toUInt32.toUInt64

theorem lowerHalf_eq_iff (x : UInt64) : lowerHalf x = x ↔ x.toNat < 2 ^ 32 := by
  rw [lowerHalf, ← UInt64.toNat_inj, UInt32.toNat_toUInt64, UInt64.toNat_toUInt32]
  constructor
  · intro h
    rw [← h]
    exact Nat.mod_lt _ (by norm_num)
  · exact Nat.mod_eq_of_lt

theorem restoresAs_size (arrival : Arrival) (x : UInt64) :
    RestoresAs (sendSize x) (recvSize arrival) (lowerHalf x) (8 : ℕ) := by
  have hword := restoresAs_word arrival (k := 8) (by norm_num) (x := (htonl x.toUInt32).toUInt64.toNat)
    (UInt64.toNat_lt _) fun w => (ntohl (UInt64.ofNat w).toUInt32).toUInt64
  have hback : (ntohl (UInt64.ofNat (htonl x.toUInt32).toUInt64.toNat).toUInt32).toUInt64 = lowerHalf x := by
    rw [UInt64.ofNat_toNat, UInt32.toUInt32_toUInt64, ntohl_htonl, lowerHalf]
  rwa [hback] at hword

theorem restoresAs_double (arrival : Arrival) (x : UInt64) :
    RestoresAs (sendDouble x) (recvDouble arrival) x (8 : ℕ) := by
  have hword := restoresAs_word arrival (k := 8) (by norm_num) x.toNat_lt UInt64.ofNat
  rwa [UInt64.ofNat_toNat] at hword

theorem roundTrips_iff_eq {α : Type} {s : Sent} {r : Arrival → α → List UInt8 → Received α} {a b : α} {ret : ℤ}
    (hret : 0 < ret) (h : ∀ arrival old, RestoresAs s (r arrival old) b ret) : RoundTrips s r a ↔ b = a := by
  constructor
  · rintro ⟨bytes, ret', hs, -, hr⟩
    obtain ⟨ret'', -, heq⟩ := hr (fun _ => 0) b []
    obtain ⟨bytes', hs', hr'⟩ := h (fun _ => 0) b
    obtain ⟨rfl, -⟩ := Prod.mk.inj (Option.some.inj (hs.symm.trans hs'))
    have hback := Option.some.inj ((hr' []).symm.trans heq)
    exact congrArg (fun x => x.2.1) hback
  · rintro rfl
    obtain ⟨bytes, hs, -⟩ := h (fun _ => 0) b
    refine ⟨bytes, ret, hs, hret, fun arrival old rest => ⟨ret, hret, ?_⟩⟩
    obtain ⟨bytes', hs', hr⟩ := h arrival old
    obtain ⟨rfl, -⟩ := Prod.mk.inj (Option.some.inj (hs.symm.trans hs'))
    exact hr rest

/-! ### The values -/

theorem roundTrips_size (x : UInt64) : (Scalar.size x).RoundTrips ↔ (Scalar.size x).Fits :=
  (roundTrips_iff_eq (by norm_num) fun arrival _ => restoresAs_size arrival x).trans (lowerHalf_eq_iff x)

theorem roundTrips_uint64 (x : UInt64) : (Scalar.uint64 x).RoundTrips := by
  refine (@roundTrips_iff_eq _ _ _ _ _ (8 : ℕ) (by norm_num) fun arrival _ => ?_).mpr rfl
  have hword := restoresAs_word arrival (k := 8) (by norm_num) (htonll x).toNat_lt fun w => ntohll (UInt64.ofNat w)
  rwa [UInt64.ofNat_toNat, ntohll_htonll] at hword

theorem roundTrips_uint32 (x : UInt32) : (Scalar.uint32 x).RoundTrips := by
  refine (@roundTrips_iff_eq _ _ _ _ _ (4 : ℕ) (by norm_num) fun arrival _ => ?_).mpr rfl
  have hword := restoresAs_word arrival (k := 4) (by norm_num) (htonl x).toNat_lt fun w => ntohl (UInt32.ofNat w)
  rwa [UInt32.ofNat_toNat, ntohl_htonl] at hword

theorem roundTrips_int (x : Int32) : (Scalar.int x).RoundTrips := by
  refine (@roundTrips_iff_eq _ _ _ _ _ (4 : ℕ) (by norm_num) fun arrival _ => ?_).mpr rfl
  have hword := restoresAs_word arrival (k := 4) (by norm_num) (htonl x.toUInt32).toNat_lt
    fun w => (ntohl (UInt32.ofNat w)).toInt32
  rwa [UInt32.ofNat_toNat, ntohl_htonl, Int32.toInt32_toUInt32] at hword

/-- The sizes of a configuration lose their upper halves. -/
theorem restoresAs_heavycfg (arrival : Arrival) (x old : HeavyConfigData) :
    RestoresAs (sendHeavycfg x) (recvHeavycfg arrival old) ⟨x.t, lowerHalf x.L, lowerHalf x.w, lowerHalf x.d⟩ 32 := by
  refine (restoresAs_double arrival x.t).check (by norm_num) ?_
  refine (restoresAs_size arrival x.L).check (by norm_num) ?_
  refine (restoresAs_size arrival x.w).check (by norm_num) ?_
  exact (restoresAs_size arrival x.d).check_done (by norm_num) _ _ _

theorem roundTrips_heavycfg (x : HeavyConfigData) : (Scalar.heavycfg x).RoundTrips ↔ (Scalar.heavycfg x).Fits := by
  refine (roundTrips_iff_eq (by norm_num) fun arrival old => restoresAs_heavycfg arrival x old).trans ?_
  obtain ⟨t, L, w, d⟩ := x
  simp only [HeavyConfigData.mk.injEq, true_and, lowerHalf_eq_iff]
  rfl

/-! ### Strings -/

theorem restoresAs_bytes (arrival : Arrival) {x : List UInt8} (hlen : x.length < 2 ^ 31) :
    RestoresAs (send x) (recvIn arrival x.length) x x.length := by
  have hwrap : wrap32 (x.length : ℤ) = x.length := wrap32_of_lt (by omega) (by omega)
  refine ⟨x, by rw [send, hwrap], fun rest => ?_⟩
  rw [recvIn_append arrival (by omega), hwrap]

theorem toNat_lowerHalf_ofNat (n : ℕ) : (lowerHalf (UInt64.ofNat n)).toNat = n % 2 ^ 32 := by
  rw [lowerHalf, UInt32.toNat_toUInt64, UInt64.toNat_toUInt32, UInt64.toNat_ofNat']
  exact Nat.mod_mod_of_dvd n (by norm_num)

theorem restoresAs_string (arrival : Arrival) {x : List UInt8} (hpos : 0 < x.length) (hlen : x.length + 8 < 2 ^ 31)
    (old : List UInt8) : RestoresAs (sendString x) (recvString arrival old) x (x.length + 8 : ℕ) := by
  have hsize := toNat_lowerHalf_ofNat x.length
  rw [Nat.mod_eq_of_lt (by omega)] at hsize
  have hbytes := restoresAs_bytes arrival (x := x) (by omega)
  have htotal : wrap32 (wrap32 (0 + ((8 : ℕ) : ℤ)) + x.length) = (x.length + 8 : ℕ) := by
    rw [wrap32_of_lt (x := 0 + ((8 : ℕ) : ℤ)) (by norm_num) (by norm_num), wrap32_of_lt] <;> push_cast <;> omega
  rw [← htotal]
  refine (restoresAs_size arrival (UInt64.ofNat x.length)).check (by norm_num) ?_
  rw [hsize]
  exact hbytes.check_done (by omega) (fun _ => old) id _

theorem wrap32_of_pos {n : ℕ} (h : 0 < wrap32 n) : wrap32 n = (n % 2 ^ 32 : ℕ) ∧ n % 2 ^ 32 < 2 ^ 31 := by
  rw [wrap32, Int.bmod_def] at h ⊢
  omega

theorem check_of_pos {bytes : List UInt8} {ret : ℤ} (hret : 0 < ret) (total : ℤ) (next : ℤ → Sent) :
    Sent.check (some (bytes, ret)) total next =
      (next (wrap32 (total + ret))).map fun (bytes', ret') => (bytes ++ bytes', ret') :=
  if_neg (not_le.mpr hret)

theorem check_of_nonpos {bytes : List UInt8} {ret : ℤ} (hret : ret ≤ 0) (total : ℤ) (next : ℤ → Sent) :
    Sent.check (some (bytes, ret)) total next = some (bytes, ret) := if_pos hret

theorem sendString_pos {x bytes : List UInt8} {ret : ℤ} (hs : sendString x = some (bytes, ret)) (hret : 0 < ret) :
    0 < x.length % 2 ^ 32 ∧ x.length % 2 ^ 32 + 8 < 2 ^ 31 ∧
      bytes = wordBytes 8 (htonl (UInt64.ofNat x.length).toUInt32).toUInt64.toNat ++ x := by
  have height : wrap32 ((8 : ℕ) : ℤ) = 8 := wrap32_of_lt (by norm_num) (by norm_num)
  have height' : wrap32 (0 + 8) = 8 := wrap32_of_lt (by norm_num) (by norm_num)
  rw [sendString, sendSize, send, length_wordBytes, height, check_of_pos (by norm_num), height', send] at hs
  rcases lt_or_ge 0 (wrap32 x.length) with hpos | hneg
  · rw [check_of_pos hpos, Option.map_some, Option.map_some, Option.some_inj, Prod.mk.injEq, List.append_nil] at hs
    obtain ⟨rfl, hsum⟩ := hs
    obtain ⟨hint, hsmall⟩ := wrap32_of_pos hpos
    have hnat : (8 : ℤ) + (x.length % 2 ^ 32 : ℕ) = ((x.length % 2 ^ 32 + 8 : ℕ) : ℤ) := by
      push_cast
      ring
    rw [hint, hnat] at hsum
    rw [← hsum] at hret
    obtain ⟨-, htotal⟩ := wrap32_of_pos hret
    rw [hint] at hpos
    exact ⟨by omega, by omega, rfl⟩
  · rw [check_of_nonpos hneg, Option.map_some, Option.some_inj, Prod.mk.injEq] at hs
    omega

theorem recvString_eq (arrival : Arrival) (old : List UInt8) {x : List UInt8} (hpos : 0 < x.length % 2 ^ 32)
    (hlen : x.length % 2 ^ 32 < 2 ^ 31) :
    (recvString arrival old (wordBytes 8 (htonl (UInt64.ofNat x.length).toUInt32).toUInt64.toNat ++ x)).map
        (fun y => y.2.1) = some (x.take (x.length % 2 ^ 32)) := by
  obtain ⟨bytes, hs, hr⟩ := restoresAs_size arrival (UInt64.ofNat x.length)
  have hbytes : wordBytes 8 (htonl (UInt64.ofNat x.length).toUInt32).toUInt64.toNat = bytes := by
    simp only [sendSize, send, Option.some.injEq, Prod.mk.injEq] at hs
    exact hs.1
  have hread := @recvLoop_eq arrival (x.length % 2 ^ 32) 0 [] x (by omega) (Nat.zero_le _)
    (by rw [Nat.sub_zero]; exact Nat.mod_le _ _)
  have hret : wrap32 ((x.length % 2 ^ 32 : ℕ) : ℤ) = (x.length % 2 ^ 32 : ℕ) := wrap32_of_lt (by omega) (by omega)
  simp only [hbytes, recvString, hr, Received.check, Option.bind_some, toNat_lowerHalf_ofNat, recvIn, hread, hret]
  rw [if_neg (by norm_num), if_neg (by omega)]
  rfl

theorem fits_of_roundTrips_string {x : List UInt8} (h : (Scalar.string x).RoundTrips) : (Scalar.string x).Fits := by
  obtain ⟨bytes, ret, hs, hret, hr⟩ := h
  obtain ⟨hpos, hlen, rfl⟩ := sendString_pos hs hret
  obtain ⟨ret', -, hrecv⟩ := hr (fun _ => 0) [] []
  have hread := recvString_eq (fun _ => 0) [] hpos (by omega)
  rw [List.append_nil] at hrecv
  rw [hrecv, Option.map_some, Option.some_inj] at hread
  have hlength := congrArg List.length hread
  rw [List.length_take, Nat.min_eq_left (Nat.mod_le _ _)] at hlength
  rw [← hlength] at hpos hlen
  exact ⟨hpos, hlen⟩

theorem roundTrips_iff (v : Scalar) : v.RoundTrips ↔ v.Fits := by
  cases v with
  | size x => exact roundTrips_size x
  | uint64 x => exact iff_of_true (roundTrips_uint64 x) trivial
  | uint32 x => exact iff_of_true (roundTrips_uint32 x) trivial
  | int x => exact iff_of_true (roundTrips_int x) trivial
  | heavycfg x => exact roundTrips_heavycfg x
  | string x =>
    constructor
    · exact fits_of_roundTrips_string
    · rintro ⟨hpos, hlen⟩
      exact (roundTrips_iff_eq (by omega) fun arrival old => restoresAs_string arrival hpos hlen old).mpr rfl

/-- The size `2 ^ 32` comes back as 0, and the empty string is reported as a failure. -/
theorem not_roundTrips_largeSize_emptyString :
    ¬ (Scalar.size 0x100000000).RoundTrips ∧ ¬ (Scalar.string []).RoundTrips := by
  constructor
  · intro h
    exact absurd ((roundTrips_size _).mp h) (by rw [Scalar.Fits]; decide)
  · rintro ⟨bytes, ret, hs, hret, -⟩
    have hsent : sendString [] = some (wordBytes 8 0, 0) := by decide +kernel
    obtain ⟨-, rfl⟩ := Prod.mk.inj (Option.some.inj (hs.symm.trans hsent))
    exact absurd hret (lt_irrefl _)

end PrioPlus.NetShare

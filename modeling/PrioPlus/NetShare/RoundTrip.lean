import PrioPlus.NetShare

/-!
# What is read back from the wire

A receiver `Restores` what a sender wrote when it ends with the value that was sent and with exactly the bytes that
were sent read, whatever follows them and however they arrive (`recvLoop_eq`). There is one rule for a step that
succeeds, `RestoresAs.check`, and one for a step after which both sides return early, and one theorem for each kind of
message, under the bounds that its 32-bit integers need.
-/

namespace PrioPlus.NetShare

open Lib.Bytes

/-! ### 32-bit integers -/

theorem wrap32_of_lt {x : ℤ} (hpos : 0 ≤ x) (hlt : x < 2 ^ 31) : wrap32 x = x := by
  rw [wrap32, Int.bmod_eq_of_le] <;> omega

theorem wrap32_nonpos {n : ℕ} (hge : 2 ^ 31 ≤ n) (hlt : n < 2 ^ 32) : wrap32 n ≤ 0 := by
  rw [wrap32, Int.bmod_def]
  omega

theorem wrap32_add (x y : ℤ) : wrap32 (wrap32 x + wrap32 y) = wrap32 (x + y) := by
  simp [wrap32]

theorem wrap32_wrap32 (x : ℤ) : wrap32 (wrap32 x) = wrap32 x := by
  simp [wrap32]

/-! ### `recv_in` -/

section Loop

variable (arrival : Arrival) {len bytesRead : ℕ} {buf stream : List UInt8}

/-- However the bytes arrive, all that were asked for are read. -/
theorem recvLoop_eq (hlen : len < 2 ^ 32) (hread : bytesRead ≤ len) (hstream : len - bytesRead ≤ stream.length) :
    recvLoop arrival len bytesRead buf stream =
      some (wrap32 len, buf ++ stream.take (len - bytesRead), stream.drop (len - bytesRead)) := by
  fun_induction recvLoop arrival len bytesRead buf stream with
  | case1 bytesRead buf hlt =>
    simp only [List.length_nil] at hstream
    omega
  | case2 bytesRead buf stream hlt hempty tmp ih =>
    have htmp : tmp ≤ len - bytesRead ∧ tmp ≤ stream.length := by omega
    have hmod : (bytesRead + tmp) % 2 ^ 32 = bytesRead + tmp := Nat.mod_eq_of_lt (by omega)
    have hsum : tmp + (len - (bytesRead + tmp)) = len - bytesRead := by omega
    have hleft : len - (bytesRead + tmp) ≤ (stream.drop tmp).length := by
      rw [List.length_drop]
      omega
    rw [hmod] at ih ⊢
    rw [ih (by omega) hleft, List.append_assoc, List.drop_drop, ← List.take_add, hsum]
  | case3 bytesRead buf stream hge =>
    obtain rfl : bytesRead = len := by omega
    simp

theorem recvLoop_none (hlen : 2 ^ 32 ≤ len) (hread : bytesRead < 2 ^ 32) :
    recvLoop arrival len bytesRead buf stream = none := by
  fun_induction recvLoop arrival len bytesRead buf stream with
  | case1 => rfl
  | case2 bytesRead buf stream hlt hempty tmp ih => exact ih (Nat.mod_lt _ (by norm_num))
  | case3 bytesRead buf stream hge => omega

theorem recvLoop_ret (hread : bytesRead ≤ len) {ret : ℤ} {buf' rest : List UInt8}
    (h : recvLoop arrival len bytesRead buf stream = some (ret, buf', rest)) : ret = wrap32 len := by
  fun_induction recvLoop arrival len bytesRead buf stream with
  | case1 => exact absurd h (by simp)
  | case2 bytesRead buf stream hlt hempty tmp ih =>
    refine ih ?_ h
    have hle : bytesRead + tmp ≤ len := by omega
    exact (Nat.mod_le _ _).trans hle
  | case3 bytesRead buf stream hge =>
    obtain rfl : bytesRead = len := by omega
    simp only [Option.some.injEq, Prod.mk.injEq] at h
    exact h.1.symm

theorem recvIn_append {bytes : List UInt8} (hlen : bytes.length < 2 ^ 32) (rest : List UInt8) :
    recvIn arrival bytes.length (bytes ++ rest) = some (wrap32 bytes.length, bytes, rest) := by
  rw [recvIn, recvLoop_eq arrival hlen (Nat.zero_le _) (by simp)]
  simp

/-- A length that is no positive `int` makes a read fail, if it ends. -/
theorem recvIn_fails {ret : ℤ} {buf' rest : List UInt8} (hlen : 2 ^ 31 ≤ len)
    (h : recvIn arrival len stream = some (ret, buf', rest)) : ret ≤ 0 := by
  rcases Nat.lt_or_ge len (2 ^ 32) with hlt | hge
  · rw [recvLoop_ret arrival (Nat.zero_le _) h]
    exact wrap32_nonpos hlen hlt
  · rw [recvIn, recvLoop_none arrival hge (by norm_num)] at h
    exact absurd h (by simp)

end Loop

/-! ### Restoring -/

/-- The receiver gets `a` back, reads what was sent and nothing more, and returns what the sender returned. -/
def RestoresAs {α : Type} (s : Sent) (r : List UInt8 → Received α) (a : α) (ret : ℤ) : Prop :=
  ∃ bytes, s = some (bytes, ret) ∧ ∀ rest, r (bytes ++ rest) = some (ret, a, rest)

def Restores {α : Type} (s : Sent) (r : List UInt8 → Received α) (a : α) : Prop := ∃ ret, RestoresAs s r a ret

section Restores

variable {α β : Type} {s s' : Sent} {r : List UInt8 → Received α} {a : α} {b : β} {ret ret' total : ℤ}
  {next : ℤ → Sent} {next' : α → ℤ → List UInt8 → Received β} {early : α → β}

theorem RestoresAs.restores (h : RestoresAs s r a ret) : Restores s r a := ⟨ret, h⟩

theorem RestoresAs.check (h : RestoresAs s r a ret) (hret : 0 < ret)
    (hnext : RestoresAs (next (wrap32 (total + ret))) (next' a (wrap32 (total + ret))) b ret') :
    RestoresAs (s.check total next) (fun stream => (r stream).check early total next') b ret' := by
  obtain ⟨bytes, rfl, hr⟩ := h
  obtain ⟨bytes', hs', hr'⟩ := hnext
  refine ⟨bytes ++ bytes', ?_, fun rest => ?_⟩
  · simp [Sent.check, hs', Int.not_le.mpr hret]
  · simp only [List.append_assoc, hr, Received.check, Option.bind_some, Int.not_le.mpr hret, if_false]
    exact hr' rest

theorem RestoresAs.check_early (h : RestoresAs s r a ret) (hret : ret ≤ 0) :
    RestoresAs (s.check total next) (fun stream => (r stream).check early total next') (early a) ret := by
  obtain ⟨bytes, rfl, hr⟩ := h
  refine ⟨bytes, ?_, fun rest => ?_⟩
  · simp [Sent.check, hret]
  · simp only [hr, Received.check, Option.bind_some, hret, if_true]

theorem RestoresAs.check_done (h : RestoresAs s r a ret) (hret : 0 < ret) (early f : α → β) (total : ℤ) :
    RestoresAs (s.check total fun total => some ([], total))
      (fun stream => (r stream).check early total fun a total rest => some (total, f a, rest)) (f a)
      (wrap32 (total + ret)) :=
  h.check hret ⟨[], rfl, fun _ => rfl⟩

theorem Restores.check (h : RestoresAs s r a ret) (hret : 0 < ret)
    (hnext : ∀ total, Restores (next total) (next' a total) b) :
    Restores (s.check total next) (fun stream => (r stream).check early total next') b := by
  obtain ⟨ret', hnext⟩ := hnext (wrap32 (total + ret))
  exact (h.check hret hnext).restores

/-- The last step, whose failure changes only what is returned. -/
theorem Restores.check_last {f : α → β} (h : Restores s r a) (hearly : early a = f a) :
    Restores (s.check total fun total => some ([], total))
      (fun stream => (r stream).check early total fun a total rest => some (total, f a, rest)) (f a) := by
  obtain ⟨ret, h⟩ := h
  by_cases hret : ret ≤ 0
  · rw [← hearly]
    exact (h.check_early hret).restores
  · exact (h.check_done (by omega) early f total).restores

theorem Restores.map {f : α → β} (h : Restores s r a) :
    Restores s (fun stream => (r stream).map fun (ret, a, rest) => (ret, f a, rest)) (f a) := by
  obtain ⟨ret, bytes, hs, hr⟩ := h
  exact ⟨ret, bytes, hs, fun rest => by simp only [hr, Option.map_some]⟩

theorem RestoresAs.plus {r r' : List UInt8 → Received (List α)} {x x' : List α} (h : RestoresAs s r x ret)
    (h' : RestoresAs s' r' x' ret') :
    RestoresAs (s.plus s') (fun stream => (r stream).plus r') (x ++ x') (wrap32 (wrap32 (0 + ret) + ret')) := by
  obtain ⟨bytes, rfl, hr⟩ := h
  obtain ⟨bytes', rfl, hr'⟩ := h'
  refine ⟨bytes ++ bytes', rfl, fun rest => ?_⟩
  simp only [List.append_assoc, hr, Received.plus, Option.bind_some, hr', Option.map_some]

end Restores

/-! ### Bits and integers -/

section Codecs

variable (arrival : Arrival) {len : ℕ}

theorem restoresAs_bool (x : Bool) : RestoresAs (sendBool x) (recvBool arrival) x 1 := by
  have hone : wrap32 ((1 : ℕ) : ℤ) = 1 := wrap32_of_lt (by norm_num) (by norm_num)
  refine ⟨[if x then 1 else 0], by rw [sendBool, send, List.length_singleton, hone], fun rest => ?_⟩
  have hrecv := recvIn_append arrival (show [if x then (1 : UInt8) else 0].length < 2 ^ 32 by simp) rest
  rw [List.length_singleton, hone] at hrecv
  simp only [recvBool, hrecv, Option.map_some]
  cases x <;> rfl

theorem restoresAs_boolBatch {x : List Bool} (hlen : x.length < 2 ^ 32) :
    RestoresAs (sendBoolBatch x) (recvBoolBatch arrival x.length) x ((x.length + 7) / 8 : ℕ) := by
  refine ⟨packBits x, ?_, fun rest => ?_⟩
  · rw [sendBoolBatch, if_pos hlen, send, length_packBits, wrap32_of_lt] <;> omega
  · have hrecv := recvIn_append arrival (show (packBits x).length < 2 ^ 32 by rw [length_packBits]; omega) rest
    rw [length_packBits, wrap32_of_lt (by omega) (by omega)] at hrecv
    simp only [recvBoolBatch, hrecv, Option.bind_some, if_pos hlen, unpackBits_packBits]

@[simp] theorem length_ulongBytes (w : ℕ) : (ulongBytes w).length = 8 := by
  simp [ulongBytes]

theorem ulongOfBytes_ulongBytes {w : ℕ} (hw : w < 2 ^ 64) : ulongOfBytes (ulongBytes w) = w := by
  have hbyte : (digitsOf 256 8 w).map (UInt8.toNat ∘ UInt8.ofNat) = (digitsOf 256 8 w).map id :=
    List.map_congr_left fun d hd => UInt8.toNat_ofNat_of_lt' (digitsOf_lt (by norm_num) 8 w d hd)
  rw [ulongOfBytes, ulongBytes, List.map_map, hbyte, List.map_id, ofDigits_digitsOf]
  exact Nat.mod_eq_of_lt hw

theorem restoresAs_ulongBatch {x : List ℕ} (hx : ∀ w ∈ x, w < 2 ^ 64) (hlen : x.length * 8 < 2 ^ 32) :
    RestoresAs (sendUlongBatch x) (recvUlongBatch arrival x.length) x (wrap32 (x.length * 8 : ℕ)) := by
  have hbytes : (x.flatMap ulongBytes).length = x.length * 8 := by
    rw [length_flatMap_const length_ulongBytes, Nat.mul_comm]
  refine ⟨x.flatMap ulongBytes, by rw [sendUlongBatch, send, hbytes], fun rest => ?_⟩
  have hrecv := recvIn_append arrival (show (x.flatMap ulongBytes).length < 2 ^ 32 by rwa [hbytes]) rest
  rw [hbytes] at hrecv
  have hword : x.map (ulongOfBytes ∘ ulongBytes) = x.map id :=
    List.map_congr_left fun w hw => ulongOfBytes_ulongBytes (hx w hw)
  simp only [recvUlongBatch, hrecv, Option.map_some, blocks_flatMap 8 ulongBytes length_ulongBytes, List.map_map, hword,
    List.map_id]

theorem lt_fmpzSize (x : ℕ) : x < (2 ^ 64) ^ fmpzSize x := by
  rw [fmpzSize]
  split_ifs with hzero
  · simp [hzero]
  · refine Nat.lt_log2_self.trans_le ?_
    rw [← pow_mul]
    exact Nat.pow_le_pow_right two_pos (by omega)

/-- An integer that `len` limbs can hold. -/
def InLimbs (len : ℕ) (x : ℤ) : Prop := 0 ≤ x ∧ x < (2 ^ 64) ^ len

theorem fmpzSetUiArray_fmpzGetUiArray {x : ℤ} (hx : InLimbs len x) : fmpzSetUiArray (fmpzGetUiArray len x) = x := by
  obtain ⟨hpos, hlt⟩ := hx
  lift x to ℕ using hpos
  rw [fmpzSetUiArray, fmpzGetUiArray, Int.toNat_natCast, ofDigits_digitsOf, Nat.mod_eq_of_lt (by exact_mod_cast hlt)]

theorem fmpzGetUiArray_lt (len : ℕ) (x : ℤ) : ∀ w ∈ fmpzGetUiArray len x, w < 2 ^ 64 :=
  digitsOf_lt (by norm_num) _ _

@[simp] theorem length_fmpzGetUiArray (len : ℕ) (x : ℤ) : (fmpzGetUiArray len x).length = len := by
  simp [fmpzGetUiArray]

theorem restoresAs_fmpz (hpos : 0 < len) (hlen : len * 8 < 2 ^ 31) {x : ℤ} (hx : InLimbs len x) (old : ℤ) :
    RestoresAs (sendFmpz len x) (recvFmpz arrival len old) x (len * 8 : ℕ) := by
  have hulong := restoresAs_ulongBatch arrival (fmpzGetUiArray_lt len x) (by rw [length_fmpzGetUiArray]; omega)
  rw [length_fmpzGetUiArray, wrap32_of_lt (by omega) (by omega)] at hulong
  have hcheck := hulong.check_done (by omega) (fun _ => old) fmpzSetUiArray 0
  rw [fmpzSetUiArray_fmpzGetUiArray hx, zero_add, wrap32_of_lt (by omega) (by omega)] at hcheck
  obtain ⟨bytes, hs, hr⟩ := hcheck
  refine ⟨bytes, hs, fun rest => ?_⟩
  rw [recvFmpz, if_neg (by omega)]
  exact hr rest

theorem map_fmpzSetUiArray {x : List ℤ} (hx : ∀ y ∈ x, InLimbs len y) :
    (x.map (fmpzGetUiArray len)).map fmpzSetUiArray = x := by
  have hget : x.map (fmpzSetUiArray ∘ fmpzGetUiArray len) = x.map id :=
    List.map_congr_left fun y hy => fmpzSetUiArray_fmpzGetUiArray (hx y hy)
  rw [List.map_map, hget, List.map_id]

/-- The chunks of a batch of `n` integers are no longer than an `int` can say. -/
def BatchFits (len n : ℕ) : Prop := len * min n maxFmpzBatch * 8 < 2 ^ 31

theorem chunk_fits {m n c : ℕ} (hmn : m ≤ n) (hfits : len * min n c * 8 < 2 ^ 31) : len * min m c * 8 < 2 ^ 31 := by
  have hmin : min m c ≤ min n c := min_le_min_right c hmn
  exact (Nat.mul_le_mul_right 8 (Nat.mul_le_mul_left len hmin)).trans_lt hfits

/-- A batch, in chunks. What is returned has wrapped around, the values have not. -/
theorem restoresAs_fmpzBatch (hpos : 0 < len) {x old : List ℤ} (hlen : old.length = x.length)
    (hfits : BatchFits len x.length) (hx : ∀ y ∈ x, InLimbs len y) :
    RestoresAs (sendFmpzBatch len x) (recvFmpzBatch arrival len old) x (wrap32 (len * x.length * 8 : ℕ)) := by
  induction x using sendFmpzBatch.induct generalizing old with
  | case1 x hlarge ih1 ih2 =>
    have htake : (x.take maxFmpzBatch).length = maxFmpzBatch := List.length_take_of_le hlarge.le
    have hdrop : (x.drop maxFmpzBatch).length = x.length - maxFmpzBatch := List.length_drop
    have hfirst := @ih1 (old.take maxFmpzBatch) (by rw [List.length_take, List.length_take, hlen])
      (chunk_fits (List.length_take_le' _ _) hfits) fun y hy => hx y (List.mem_of_mem_take hy)
    have hsecond := @ih2 (old.drop maxFmpzBatch) (by rw [hdrop, List.length_drop, hlen])
      (chunk_fits (hdrop.trans_le (Nat.sub_le _ _)) hfits) fun y hy => hx y (List.mem_of_mem_drop hy)
    have hplus := hfirst.plus hsecond
    rw [List.take_append_drop, zero_add, wrap32_wrap32, wrap32_add, htake, hdrop, ← Nat.cast_add] at hplus
    have hsum : len * maxFmpzBatch * 8 + len * (x.length - maxFmpzBatch) * 8 = len * x.length * 8 := by
      rw [← Nat.add_mul, ← Nat.mul_add, Nat.add_sub_cancel' hlarge.le]
    rw [hsum] at hplus
    rw [sendFmpzBatch, dif_pos hlarge]
    convert hplus using 1
    funext stream
    rw [recvFmpzBatch, dif_pos (by omega)]
  | case2 x hsmall =>
    have hmin : min x.length maxFmpzBatch = x.length := by omega
    rw [BatchFits, hmin] at hfits
    have hwords : (x.flatMap (fmpzGetUiArray len)).length = len * x.length :=
      length_flatMap_const (length_fmpzGetUiArray len) x
    have hulong := restoresAs_ulongBatch arrival (x := x.flatMap (fmpzGetUiArray len))
      (fun w hw => by
        obtain ⟨y, -, hy⟩ := List.mem_flatMap.mp hw
        exact fmpzGetUiArray_lt len y w hy)
      (by rw [hwords]; omega)
    rw [hwords, wrap32_of_lt (by omega) (by omega)] at hulong
    rw [sendFmpzBatch, dif_neg hsmall, wrap32_of_lt (by omega) (by omega)]
    have hrecv : recvFmpzBatch arrival len old = fun stream =>
        (recvUlongBatch arrival (len * x.length) stream).check (fun _ => old) 0 fun buf total rest =>
          some (total, (blocks len x.length buf).map fmpzSetUiArray, rest) := by
      funext stream
      rw [recvFmpzBatch, dif_neg (by omega), hlen]
    rw [hrecv]
    rcases Nat.eq_zero_or_pos x.length with hzero | hn
    · -- an empty batch returns zero, early on both sides
      obtain rfl := List.length_eq_zero_iff.mp hzero
      obtain rfl := List.length_eq_zero_iff.mp (hlen.trans hzero)
      exact hulong.check_early (by simp)
    · have hbytes : 0 < len * x.length := Nat.mul_pos hpos hn
      have hcheck := hulong.check_done (by omega) (fun _ => old)
        (fun buf => (blocks len x.length buf).map fmpzSetUiArray) 0
      rw [blocks_flatMap len _ (length_fmpzGetUiArray len), map_fmpzSetUiArray hx, zero_add,
        wrap32_of_lt (by omega) (by omega)] at hcheck
      exact hcheck

theorem restores_each {β : Type} {b : β} (hpos : 0 < len) (hsmall : len * 8 < 2 ^ 31) {x old : List ℤ}
    (hlen : old.length = x.length) (hx : ∀ y ∈ x, InLimbs len y) {early : List ℤ → β} {next : ℤ → Sent}
    {next' : List ℤ → ℤ → List UInt8 → Received β} (hnext : ∀ total, Restores (next total) (next' x total) b)
    (total : ℤ) :
    Restores (sendEach len x total next) (fun stream => recvEach arrival len old early total stream next') b := by
  induction x generalizing old early next' total with
  | nil =>
    obtain rfl := List.length_eq_zero_iff.mp hlen
    exact hnext total
  | cons y x ih =>
    obtain ⟨z, old, rfl⟩ := List.exists_cons_of_length_eq_add_one hlen
    refine Restores.check (restoresAs_fmpz arrival hpos hsmall (hx y List.mem_cons_self) z) (by omega) fun total => ?_
    exact ih (Nat.succ.inj hlen) (fun y hy => hx y (List.mem_cons_of_mem _ hy)) hnext total

/-- The bytes of an integer, on its own or in a batch. -/
def fmpzBytes (len : ℕ) (x : ℤ) : List UInt8 := (fmpzGetUiArray len x).flatMap ulongBytes

theorem check_bytes (bytes : List UInt8) (ret total : ℤ) :
    (Sent.check (some (bytes, ret)) total fun total => some ([], total)).map Prod.fst = some bytes := by
  by_cases hret : ret ≤ 0
  · simp [Sent.check, hret]
  · simp [Sent.check, hret]

theorem recvFmpz_fmpzBytes (hpos : 0 < len) (hsmall : len * 8 < 2 ^ 31) {x : ℤ} (hx : InLimbs len x) (old : ℤ)
    (rest : List UInt8) :
    recvFmpz arrival len old (fmpzBytes len x ++ rest) = some (((len * 8 : ℕ) : ℤ), x, rest) := by
  obtain ⟨bytes, hs, hr⟩ := restoresAs_fmpz arrival hpos hsmall hx old
  have hsent : (sendFmpz len x).map Prod.fst = some (fmpzBytes len x) := by
    rw [sendFmpz, sendUlongBatch, send, check_bytes, fmpzBytes]
  rw [hs] at hsent
  rw [← Option.some.inj hsent]
  exact hr rest

/-- However it is cut into chunks, a batch is its integers one after the other. -/
theorem sendFmpzBatch_bytes (len : ℕ) (x : List ℤ) :
    (sendFmpzBatch len x).map Prod.fst = some (x.flatMap (fmpzBytes len)) := by
  induction x using sendFmpzBatch.induct with
  | case1 x hlarge ih1 ih2 =>
    obtain ⟨⟨bytes1, ret1⟩, h1, hb1⟩ := Option.map_eq_some_iff.mp ih1
    obtain ⟨⟨bytes2, ret2⟩, h2, hb2⟩ := Option.map_eq_some_iff.mp ih2
    simp only at hb1 hb2
    rw [sendFmpzBatch, dif_pos hlarge, h1, h2]
    simp only [Sent.plus, Option.bind_some, Option.map_some, hb1, hb2]
    rw [← List.flatMap_append, List.take_append_drop]
  | case2 x hsmall =>
    rw [sendFmpzBatch, dif_neg hsmall, sendUlongBatch, send, check_bytes, List.flatMap_assoc]
    rfl

theorem recvFmpzs_flatMap (hpos : 0 < len) (hsmall : len * 8 < 2 ^ 31) {x old : List ℤ} (hlen : old.length = x.length)
    (hx : ∀ y ∈ x, InLimbs len y) (rest : List UInt8) :
    recvFmpzs arrival len old (x.flatMap (fmpzBytes len) ++ rest) = some (x, rest) := by
  induction x generalizing old with
  | nil =>
    obtain rfl := List.length_eq_zero_iff.mp hlen
    rfl
  | cons y x ih =>
    obtain ⟨z, old, rfl⟩ := List.exists_cons_of_length_eq_add_one hlen
    rw [List.flatMap_cons, List.append_assoc, recvFmpzs,
      recvFmpz_fmpzBytes arrival hpos hsmall (hx y List.mem_cons_self), Option.bind_some]
    simp only [ih (Nat.succ.inj hlen) fun y hy => hx y (List.mem_cons_of_mem _ hy), Option.map_some]

/-! ### Records -/

theorem restoresAs_column {α : Type} (f : α → ℤ) (hpos : 0 < len) {x : List α} {old : List ℤ}
    (hlen : old.length = x.length) (hfits : BatchFits len x.length) (hx : ∀ y ∈ x, InLimbs len (f y)) :
    RestoresAs (sendFmpzBatch len (x.map f)) (recvFmpzBatch arrival len old) (x.map f)
      (wrap32 (len * x.length * 8 : ℕ)) := by
  have hlen' : old.length = (x.map f).length := by rw [hlen, List.length_map]
  have h := restoresAs_fmpzBatch arrival hpos hlen' (by rwa [List.length_map]) (by simpa using hx)
  rwa [List.length_map] at h

theorem zipWith_columns {α β γ : Type} {f : β → γ → α} {p : α → β} {q : α → γ} (hf : ∀ y, f (p y) (q y) = y)
    (x : List α) : List.zipWith f (x.map p) (x.map q) = x := by
  rw [List.zipWith_map, List.zipWith_self, List.map_congr_left fun y _ => hf y, List.map_id']

theorem restores_corShareBatch (hpos : 0 < len) {x old : List CorShare} (hlen : old.length = x.length)
    (hfits : x.length = 0 ∨
      x.length < 2 ^ 32 ∧ BatchFits len x.length ∧ 0 < wrap32 (len * x.length * 8 : ℕ))
    (hd : ∀ y ∈ x, InLimbs len y.shareD) (he : ∀ y ∈ x, InLimbs len y.shareE) :
    Restores (sendCorShareBatch len x) (recvCorShareBatch arrival len old) x := by
  have hx : x.length < 2 ^ 32 := by omega
  unfold sendCorShareBatch
  unfold recvCorShareBatch
  simp only [hlen, if_pos hx]
  rcases hfits with hzero | ⟨-, hfits, hret⟩
  · obtain rfl := List.length_eq_zero_iff.mp hzero
    obtain rfl := List.length_eq_zero_iff.mp (hlen.trans hzero)
    refine ((restoresAs_column arrival CorShare.shareD hpos rfl (by simp [BatchFits]) hd).check_early ?_).restores
    simp [wrap32]
  · refine Restores.check (restoresAs_column arrival CorShare.shareD hpos List.length_replicate hfits hd) hret
      fun total => ?_
    have hcolumn := restoresAs_column arrival CorShare.shareE hpos (List.length_map CorShare.shareD) hfits he
    have hdone := hcolumn.check_done hret
      (fun _ => List.zipWith (fun y d => { y with shareD := d }) old (x.map CorShare.shareD))
      (fun buf' => List.zipWith CorShare.mk (x.map CorShare.shareD) buf') total
    rw [zipWith_columns fun _ => rfl] at hdone
    exact hdone.restores

theorem restores_fields {β : Type} (hpos : 0 < len) (hsmall : len * 8 < 2 ^ 31) {x old : List ℤ}
    (hlen : old.length = x.length) (hx : ∀ y ∈ x, InLimbs len y) (f : List ℤ → β) :
    Restores (sendEach len x 0 fun total => some ([], total))
      (fun stream => recvEach arrival len old f 0 stream fun xs total rest => some (total, f xs, rest)) (f x) :=
  restores_each arrival hpos hsmall hlen hx (fun total => ⟨total, [], rfl, fun _ => rfl⟩) 0

theorem restores_beaverTriple (hpos : 0 < len) (hsmall : len * 8 < 2 ^ 31) {x : BeaverTriple}
    (hx : ∀ y ∈ [x.a, x.b, x.c], InLimbs len y) (old : BeaverTriple) :
    Restores (sendBeaverTriple len x) (recvBeaverTriple arrival len old) x :=
  restores_fields arrival hpos hsmall (by rfl) hx BeaverTriple.ofList

theorem restores_beaverTripleShare (hpos : 0 < len) (hsmall : len * 8 < 2 ^ 31) {x : BeaverTripleShare}
    (hx : ∀ y ∈ [x.shareA, x.shareB, x.shareC], InLimbs len y) (old : BeaverTripleShare) :
    Restores (sendBeaverTripleShare len x) (recvBeaverTripleShare arrival len old) x :=
  restores_fields arrival hpos hsmall (by rfl) hx BeaverTripleShare.ofList

@[simp] theorem length_packetFields (x : ClientPacket) :
    (packetFields x).length = x.nMul + 3 + nextPowerOfTwo x.nMul := by
  simp [packetFields, x.mulShares_length, x.hPoints_length]
  omega

theorem packetOfFields_packetFields (x : ClientPacket) :
    packetOfFields x.nMul (packetFields x) x.tripleShare = x := by
  obtain ⟨nMul, mulShares, f0S, g0S, h0S, hPoints, tripleShare, rfl, hlen⟩ := x
  have hmul : (List.range mulShares.length).map (fun i => (mulShares ++ [f0S, g0S, h0S] ++ hPoints).getD i 0) =
      mulShares := by
    apply List.ext_getElem
    · simp
    · intro i hi hi'
      simp [List.getElem?_append_left hi', hi']
  have hpoints : (List.range (nextPowerOfTwo mulShares.length)).map
      (fun i => (mulShares ++ [f0S, g0S, h0S] ++ hPoints).getD (mulShares.length + 3 + i) 0) = hPoints := by
    apply List.ext_getElem
    · simp [hlen]
    · intro i hi hi'
      have hskip : (mulShares ++ [f0S, g0S, h0S]).length = mulShares.length + 3 := by simp
      rw [List.getElem_map, List.getElem_range, List.getD_eq_getElem?_getD, ← hskip,
        List.getElem?_append_right (by omega), Nat.add_sub_cancel_left, List.getElem?_eq_getElem hi', Option.getD_some]
  simp only [packetOfFields, packetFields, hmul, hpoints, ClientPacket.mk.injEq, true_and, and_true]
  simp

theorem restores_clientPacket (hpos : 0 < len) (hsmall : len * 8 < 2 ^ 31) {x old : ClientPacket}
    (hnMul : old.nMul = x.nMul) (hrange : x.nMul < 2 ^ 31) (hx : ∀ y ∈ packetFields x, InLimbs len y)
    (ht : ∀ y ∈ [x.tripleShare.shareA, x.tripleShare.shareB, x.tripleShare.shareC], InLimbs len y) :
    Restores (sendClientPacket len x) (recvClientPacket arrival len old) x := by
  unfold sendClientPacket
  unfold recvClientPacket
  simp only [hnMul, if_pos hrange]
  refine restores_each arrival hpos hsmall (by simp [hnMul]) hx (fun total => ?_) 0
  have hread := restores_beaverTripleShare arrival hpos hsmall ht old.tripleShare
  have hlast := @Restores.check_last _ _ _ _ _ total (packetOfFields x.nMul (packetFields x)) _ hread rfl
  rw [packetOfFields_packetFields] at hlast
  exact hlast

theorem restores_booleanBeaverTriple (x : BooleanBeaverTriple) :
    Restores (sendBooleanBeaverTriple x) (recvBooleanBeaverTriple arrival) x := by
  have hbits : Restores (sendBoolBatch [x.a, x.b, x.c]) (recvBoolBatch arrival 3) [x.a, x.b, x.c] :=
    (restoresAs_boolBatch arrival (by simp)).restores
  exact hbits.map (f := fun buf => BooleanBeaverTriple.mk (buf.getD 0 false) (buf.getD 1 false) (buf.getD 2 false))

theorem restores_daBit (hpos : 0 < len) (hsmall : len * 8 < 2 ^ 31) {x : DaBit} (hx : InLimbs len x.bp) (old : DaBit) :
    Restores (sendDaBit len x) (recvDaBit arrival len old) x :=
  Restores.check (restoresAs_fmpz arrival hpos hsmall hx old.bp) (by omega) fun total =>
    ((restoresAs_bool arrival x.b2).check_done one_pos (DaBit.mk x.bp) (DaBit.mk x.bp) total).restores

theorem restores_daBitBatch (hpos : 0 < len) {x old : List DaBit} (hlen : old.length = x.length)
    (hfits : len * min x.length maxDaBitBatch * 8 < 2 ^ 31) (hx : ∀ y ∈ x, InLimbs len y.bp) :
    Restores (sendDaBitBatch len x) (recvDaBitBatch arrival len old) x := by
  induction x using sendDaBitBatch.induct generalizing old with
  | case1 x hlarge ih1 ih2 =>
    obtain ⟨ret, hfirst⟩ := @ih1 (old.take maxDaBitBatch) (by rw [List.length_take, List.length_take, hlen])
      (chunk_fits (List.length_take_le' _ _) hfits) fun y hy => hx y (List.mem_of_mem_take hy)
    obtain ⟨ret', hsecond⟩ := @ih2 (old.drop maxDaBitBatch) (by rw [List.length_drop, List.length_drop, hlen])
      (chunk_fits (List.length_drop.trans_le (Nat.sub_le _ _)) hfits) fun y hy => hx y (List.mem_of_mem_drop hy)
    have hplus := hfirst.plus hsecond
    rw [List.take_append_drop] at hplus
    rw [sendDaBitBatch, dif_pos hlarge]
    refine ⟨wrap32 (wrap32 (0 + ret) + ret'), ?_⟩
    convert hplus using 1
    funext stream
    rw [recvDaBitBatch, dif_pos (by omega)]
  | case2 x hsmall =>
    have hmin : min x.length maxDaBitBatch = x.length := by omega
    rw [hmin] at hfits
    have hbatchFits : BatchFits len x.length := by
      have hsizes : x.length ≤ maxFmpzBatch := (Nat.le_of_not_lt hsmall).trans (by decide)
      rwa [BatchFits, min_eq_left hsizes]
    have hzeros : (List.replicate x.length (0 : ℤ)).length = x.length := List.length_replicate
    have hbatch := restoresAs_column arrival DaBit.bp hpos hzeros hbatchFits hx
    rw [wrap32_of_lt (by omega) (by omega)] at hbatch
    rw [sendDaBitBatch, dif_neg hsmall]
    have hrecv : recvDaBitBatch arrival len old = fun stream =>
        (recvFmpzBatch arrival len (List.replicate x.length 0) stream).check (fun _ => old) 0 fun bp total rest =>
          (recvBoolBatch arrival x.length rest).check (fun _ => old) total fun b2 total rest =>
            some (total, List.zipWith DaBit.mk bp b2, rest) := by
      funext stream
      rw [recvDaBitBatch, dif_neg (by omega), hlen]
    rw [hrecv]
    rcases Nat.eq_zero_or_pos x.length with hzero | hn
    · obtain rfl := List.length_eq_zero_iff.mp hzero
      obtain rfl := List.length_eq_zero_iff.mp (hlen.trans hzero)
      exact (hbatch.check_early (by simp)).restores
    · have hbytes : 0 < len * x.length := Nat.mul_pos hpos hn
      refine Restores.check hbatch (by omega) fun total => ?_
      have hle : maxDaBitBatch < 2 ^ 32 := by decide
      have hbits := restoresAs_boolBatch arrival (x := x.map DaBit.b2) (by rw [List.length_map]; omega)
      rw [List.length_map] at hbits
      have hdone := hbits.check_done (by omega) (fun _ => old)
        (fun b2 => List.zipWith DaBit.mk (x.map DaBit.bp) b2) total
      rw [zipWith_columns fun _ => rfl] at hdone
      exact hdone.restores

theorem edaBitOf_b {n : ℕ} (x : EdaBit n) : edaBitOf n x.r x.b = x := by
  obtain ⟨r, b, rfl⟩ := x
  simp only [edaBitOf, EdaBit.mk.injEq, true_and]
  apply List.ext_getElem
  · simp
  · intro i hi hi'
    simp [hi']

theorem restores_edaBit (hpos : 0 < len) (hsmall : len * 8 < 2 ^ 31) {nbits : ℕ} (hbits : nbits < 2 ^ 32)
    {x : EdaBit nbits} (hx : InLimbs len x.r) (old : EdaBit nbits) :
    Restores (sendEdaBit len x) (recvEdaBit arrival len old) x := by
  refine Restores.check (restoresAs_fmpz arrival hpos hsmall hx old.r) (by omega) fun total => ?_
  have hbatch := (restoresAs_boolBatch arrival (x := x.b) (by rwa [x.length_b])).restores
  rw [x.length_b] at hbatch
  have hlast := @Restores.check_last _ _ _ _ _ total (edaBitOf nbits x.r) _ hbatch rfl
  rw [edaBitOf_b] at hlast
  exact hlast

theorem restores_edaBitBatch (hpos : 0 < len) {nbits : ℕ} {x old : List (EdaBit nbits)} (hlen : old.length = x.length)
    (hfits : x.length = 0 ∨ x.length < 2 ^ 32 ∧ 0 < nbits ∧ x.length * nbits < 2 ^ 32 ∧ BatchFits len x.length ∧
      0 < wrap32 (len * x.length * 8 : ℕ)) (hx : ∀ y ∈ x, InLimbs len y.r) :
    Restores (sendEdaBitBatch len x) (recvEdaBitBatch arrival len old) x := by
  have hn : x.length < 2 ^ 32 := by omega
  unfold sendEdaBitBatch
  unfold recvEdaBitBatch
  simp only [hlen, if_pos hn]
  rcases hfits with hzero | ⟨-, hbits, hsize, hfits, hret⟩
  · obtain rfl := List.length_eq_zero_iff.mp hzero
    obtain rfl := List.length_eq_zero_iff.mp (hlen.trans hzero)
    refine ((restoresAs_column arrival EdaBit.r hpos rfl (by simp [BatchFits]) hx).check_early ?_).restores
    simp [wrap32]
  · refine Restores.check (restoresAs_column arrival EdaBit.r hpos List.length_replicate hfits hx) hret
      fun total => ?_
    have hflat : (x.flatMap EdaBit.b).length = x.length * nbits := by
      rw [length_flatMap_const EdaBit.length_b, Nat.mul_comm]
    have hbools := restoresAs_boolBatch arrival (x := x.flatMap EdaBit.b) (by rwa [hflat])
    rw [hflat] at hbools
    have hpositive : 0 < x.length * nbits := by
      refine Nat.mul_pos (Nat.pos_of_ne_zero fun hzero => ?_) hbits
      rw [hzero, Nat.mul_zero, Nat.zero_mul, Nat.cast_zero] at hret
      simp [wrap32] at hret
    have hdone := hbools.check_done (by omega) (fun _ => old)
      (fun b => List.zipWith (edaBitOf nbits) (x.map EdaBit.r) (blocks nbits x.length b)) total
    rw [blocks_flatMap nbits EdaBit.b EdaBit.length_b, zipWith_columns edaBitOf_b] at hdone
    exact hdone.restores

end Codecs

end PrioPlus.NetShare

import PrioPlus.NetShare.Scalars

/-!
# How many bytes a message has

Whatever its values, a message of one kind has a fixed number of bytes: no length goes ahead of an array. Arrays of
words and the keys of submissions are here too.
-/

namespace PrioPlus.NetShare

/-- The sender returns, after this many bytes. -/
def Sent.HasLength (s : Sent) (n : ℕ) : Prop := ∃ bytes ret, s = some (bytes, ret) ∧ bytes.length = n

theorem hasLength_send (buf : List UInt8) : (send buf).HasLength buf.length := ⟨buf, _, rfl, rfl⟩

theorem Sent.HasLength.check_done {s : Sent} {n : ℕ} (h : s.HasLength n) (total : ℤ) :
    (s.check total fun total => some ([], total)).HasLength n := by
  obtain ⟨bytes, ret, rfl, hlen⟩ := h
  obtain ⟨⟨bytes', ret'⟩, hs, rfl⟩ := Option.map_eq_some_iff.mp (check_bytes bytes ret total)
  exact ⟨_, ret', hs, hlen⟩

theorem Sent.HasLength.check {s : Sent} {bytes : List UInt8} {ret total : ℤ} {next : ℤ → Sent} {n n' : ℕ}
    (hs : s = some (bytes, ret)) (hret : 0 < ret) (hlen : bytes.length = n)
    (hnext : ∀ total, (next total).HasLength n') :
    (s.check total next).HasLength (n + n') := by
  obtain ⟨bytes', ret', hs', hlen'⟩ := hnext (wrap32 (total + ret))
  refine ⟨bytes ++ bytes', ret', ?_, by rw [List.length_append, hlen, hlen']⟩
  simp [hs, Sent.check, hs', Int.not_le.mpr hret]

theorem Sent.HasLength.check_early {s : Sent} {bytes : List UInt8} {ret total : ℤ} {next : ℤ → Sent} {n : ℕ}
    (hs : s = some (bytes, ret)) (hret : ret ≤ 0) (hlen : bytes.length = n) : (s.check total next).HasLength n :=
  ⟨bytes, ret, by simp [hs, Sent.check, hret], hlen⟩

theorem Sent.HasLength.plus {s s' : Sent} {n n' : ℕ} (h : s.HasLength n) (h' : s'.HasLength n') :
    (s.plus s').HasLength (n + n') := by
  obtain ⟨bytes, ret, rfl, hlen⟩ := h
  obtain ⟨bytes', ret', rfl, hlen'⟩ := h'
  exact ⟨bytes ++ bytes', _, rfl, by rw [List.length_append, hlen, hlen']⟩

/-! ### Words and keys -/

theorem restores_uint64 (arrival : Arrival) (x : UInt64) : Restores (sendUint64 x) (recvUint64 arrival) x := by
  have hword := restoresAs_word arrival (k := 8) (by norm_num) (htonll x).toNat_lt fun w => ntohll (UInt64.ofNat w)
  rw [UInt64.ofNat_toNat, ntohll_htonll] at hword
  exact hword.restores

/-- `send_uint64_batch`. -/
def sendUint64Batch (x : List UInt64) : Sent := sendUlongBatch (x.map UInt64.toNat)

def recvUint64Batch (arrival : Arrival) (n : ℕ) (stream : List UInt8) : Received (List UInt64) :=
  (recvUlongBatch arrival n stream).map fun (ret, buf, rest) => (ret, buf.map UInt64.ofNat, rest)

theorem restores_uint64Batch (arrival : Arrival) {x : List UInt64} (hlen : x.length * 8 < 2 ^ 32) :
    Restores (sendUint64Batch x) (recvUint64Batch arrival x.length) x := by
  have hwords : ∀ w ∈ x.map UInt64.toNat, w < 2 ^ 64 := by
    intro w hw
    obtain ⟨y, -, rfl⟩ := List.mem_map.mp hw
    exact y.toNat_lt
  have hbatch := (restoresAs_ulongBatch arrival hwords (by rwa [List.length_map])).restores
  rw [List.length_map] at hbatch
  have hback : (x.map UInt64.toNat).map UInt64.ofNat = x := by
    have hword : x.map (UInt64.ofNat ∘ UInt64.toNat) = x.map id := List.map_congr_left fun y _ => UInt64.ofNat_toNat
    rw [List.map_map, hword, List.map_id]
  have hmap := @Restores.map _ _ _ _ _ (List.map UInt64.ofNat) hbatch
  rwa [hback] at hmap

/-- The key that `get_pk` makes of its buffer. -/
def recvPk (arrival : Arrival) (stream : List UInt8) : Received (Vector UInt8 32) :=
  (recvIn arrival 32 stream).map fun (ret, buf, rest) => (ret, Vector.ofFn fun i => buf.getD i 0, rest)

theorem restores_pk (arrival : Arrival) (pk : Vector UInt8 32) :
    Restores (send pk.toList) (recvPk arrival) pk := by
  have hlen : pk.toList.length = 32 := Vector.length_toList
  refine ⟨_, pk.toList, rfl, fun rest => ?_⟩
  have hrecv := recvIn_append arrival (show pk.toList.length < 2 ^ 32 by omega) rest
  rw [hlen] at hrecv
  have hback : (Vector.ofFn fun i : Fin 32 => pk.toList.getD i 0) = pk := by
    ext i hi
    rw [Vector.getElem_ofFn, List.getD_eq_getElem _ _ (by omega), Vector.getElem_toList]
  simp only [recvPk, hrecv, Option.map_some, hback, hlen]

/-! ### The lengths -/

theorem hasLength_sendBool (x : Bool) : (sendBool x).HasLength 1 := hasLength_send _

theorem hasLength_sendBoolBatch {x : List Bool} (hlen : x.length < 2 ^ 32) :
    (sendBoolBatch x).HasLength ((x.length + 7) / 8) := by
  rw [sendBoolBatch, if_pos hlen, ← Lib.Bytes.length_packBits]
  exact hasLength_send _

theorem hasLength_sendUlongBatch (x : List ℕ) : (sendUlongBatch x).HasLength (x.length * 8) := by
  have hlen : (x.flatMap ulongBytes).length = x.length * 8 := by
    rw [Lib.Bytes.length_flatMap_const length_ulongBytes, Nat.mul_comm]
  rw [← hlen]
  exact hasLength_send _

theorem hasLength_sendUint64Batch (x : List UInt64) : (sendUint64Batch x).HasLength (x.length * 8) := by
  have hwords := hasLength_sendUlongBatch (x.map UInt64.toNat)
  rwa [List.length_map] at hwords

theorem hasLength_word (k x : ℕ) : (send (wordBytes k x)).HasLength k := by
  have hsend := hasLength_send (wordBytes k x)
  rwa [length_wordBytes] at hsend

section Integers

variable (len : ℕ)

theorem hasLength_sendFmpz (x : ℤ) : (sendFmpz len x).HasLength (len * 8) := by
  have hwords := hasLength_sendUlongBatch (fmpzGetUiArray len x)
  rw [length_fmpzGetUiArray] at hwords
  exact hwords.check_done 0

theorem hasLength_sendFmpzBatch (x : List ℤ) : (sendFmpzBatch len x).HasLength (len * x.length * 8) := by
  obtain ⟨⟨bytes, ret⟩, hs, rfl⟩ := Option.map_eq_some_iff.mp (sendFmpzBatch_bytes len x)
  refine ⟨_, ret, hs, ?_⟩
  have hone (y : ℤ) : (fmpzBytes len y).length = 8 * len := by
    rw [fmpzBytes, Lib.Bytes.length_flatMap_const length_ulongBytes, length_fmpzGetUiArray]
  rw [Lib.Bytes.length_flatMap_const hone]
  ring

variable {len}

theorem sendFmpzBatch_eq (hpos : 0 < len) {x : List ℤ} (hfits : len * x.length * 8 < 2 ^ 31)
    (hx : ∀ y ∈ x, InLimbs len y) :
    ∃ bytes : List UInt8, sendFmpzBatch len x = some (bytes, ((len * x.length * 8 : ℕ) : ℤ)) ∧
      bytes.length = len * x.length * 8 := by
  have hbatch : BatchFits len x.length := by
    have hmin := Nat.mul_le_mul_left len (min_le_left x.length maxFmpzBatch)
    rw [BatchFits]
    omega
  obtain ⟨bytes, hs, -⟩ := @restoresAs_fmpzBatch (fun _ => 0) len hpos x x rfl hbatch hx
  rw [wrap32_of_lt (by omega) (by omega)] at hs
  obtain ⟨bytes', ret, hs', hlen⟩ := hasLength_sendFmpzBatch len x
  obtain ⟨rfl, -⟩ := Prod.mk.inj (Option.some.inj (hs.symm.trans hs'))
  exact ⟨bytes, hs, hlen⟩

theorem hasLength_sendCorShareBatch (hpos : 0 < len) {x : List CorShare} (hfits : len * x.length * 8 < 2 ^ 31)
    (hd : ∀ y ∈ x, InLimbs len y.shareD) :
    (sendCorShareBatch len x).HasLength (len * x.length * 8 + len * x.length * 8) := by
  have hle : x.length ≤ len * x.length := Nat.le_mul_of_pos_left _ hpos
  obtain ⟨bytes, hs, hlen⟩ := @sendFmpzBatch_eq len hpos (x.map CorShare.shareD) (by rwa [List.length_map]) (by simpa)
  rw [List.length_map] at hs hlen
  rw [sendCorShareBatch, if_pos (by omega)]
  rcases Nat.eq_zero_or_pos (len * x.length * 8) with hzero | hn
  · rw [hzero] at hs hlen ⊢
    exact Sent.HasLength.check_early hs le_rfl hlen
  · refine Sent.HasLength.check hs (by exact_mod_cast hn) hlen fun total => ?_
    have hsecond := hasLength_sendFmpzBatch len (x.map CorShare.shareE)
    rw [List.length_map] at hsecond
    exact hsecond.check_done total

theorem hasLength_sendDaBitBatch (hpos : 0 < len) {x : List DaBit}
    (hfits : len * min x.length maxDaBitBatch * 8 < 2 ^ 31) (hx : ∀ y ∈ x, InLimbs len y.bp) :
    (sendDaBitBatch len x).HasLength (len * x.length * 8 + (x.length + 7) / 8) := by
  induction x using sendDaBitBatch.induct with
  | case1 x hlarge ih1 ih2 =>
    have htake : (x.take maxDaBitBatch).length = maxDaBitBatch := List.length_take_of_le hlarge.le
    have hdrop : (x.drop maxDaBitBatch).length = x.length - maxDaBitBatch := List.length_drop
    have hfirst := ih1 (chunk_fits (List.length_take_le' _ _) hfits) fun y hy => hx y (List.mem_of_mem_take hy)
    have hsecond := ih2 (chunk_fits (hdrop.trans_le (Nat.sub_le _ _)) hfits) fun y hy => hx y (List.mem_of_mem_drop hy)
    rw [htake] at hfirst
    rw [hdrop] at hsecond
    -- the bits of a full chunk fill their bytes
    have hbits : (maxDaBitBatch + 7) / 8 + (x.length - maxDaBitBatch + 7) / 8 = (x.length + 7) / 8 := by
      rw [maxDaBitBatch] at hlarge ⊢
      omega
    have hwords : len * maxDaBitBatch * 8 + len * (x.length - maxDaBitBatch) * 8 = len * x.length * 8 := by
      rw [← Nat.add_mul, ← Nat.mul_add, Nat.add_sub_cancel' hlarge.le]
    have hplus := hfirst.plus hsecond
    rw [Nat.add_add_add_comm, hwords, hbits] at hplus
    rw [sendDaBitBatch, dif_pos hlarge]
    exact hplus
  | case2 x hsmall =>
    have hle : x.length ≤ maxDaBitBatch := Nat.le_of_not_lt hsmall
    have hmax : maxDaBitBatch < 2 ^ 31 := by decide
    rw [min_eq_left hle] at hfits
    obtain ⟨bytes, hs, hlen⟩ := @sendFmpzBatch_eq len hpos (x.map DaBit.bp) (by rwa [List.length_map]) (by simpa)
    rw [List.length_map] at hs hlen
    rw [sendDaBitBatch, dif_neg hsmall]
    rcases Nat.eq_zero_or_pos x.length with hzero | hn
    · rw [hzero] at hs hlen ⊢
      exact Sent.HasLength.check_early hs (by simp) hlen
    · have hbytes : 0 < len * x.length := Nat.mul_pos hpos hn
      refine Sent.HasLength.check hs (by omega) hlen fun total => ?_
      have hbits := hasLength_sendBoolBatch (x := x.map DaBit.b2) (by rw [List.length_map]; omega)
      rw [List.length_map] at hbits
      exact hbits.check_done total

end Integers

end PrioPlus.NetShare

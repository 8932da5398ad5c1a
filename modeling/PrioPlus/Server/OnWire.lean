import PrioPlus.Server.Duality
import PrioPlus.Server.WireFormat

/-!
# The operations over bytes

As long as a server receives messages that fit, it sends messages that fit (`SendsFitting`): integers are reduced before
they are sent, and no array is longer than the sizes of the request allow. So whatever two servers do over messages,
they do over bytes as well (`script_onWire`): the functions of `net_share.cpp` find the messages again in the two
streams, however these are cut up and in whatever order the bytes of the two directions move.
-/

namespace PrioPlus

open Lib.TwoParty Lib.FirstWins NetShare

/-! ### Integers -/

theorem inField_emod (x : ℤ) : InField (x % intModulus) := by
  have hpos : (0 : ℤ) < intModulus := by decide
  exact ⟨Int.emod_nonneg _ hpos.ne', Int.emod_lt_of_pos _ hpos⟩

theorem inField_zero : InField 0 := ⟨le_rfl, by decide⟩

theorem inField_sumMod (n : ℕ) (f : ℕ → ℤ) : InField (sumMod intModulus n f) := sumMod_range (by decide) n f

theorem inField_getD {xs : List ℤ} (h : ∀ x ∈ xs, InField x) (i : ℕ) : InField (xs.getD i 0) := by
  rcases Nat.lt_or_ge i xs.length with hi | hi
  · rw [List.getD_eq_getElem _ _ hi]
    exact h _ (List.getElem_mem hi)
  · rw [List.getD_eq_default _ _ hi]
    exact inField_zero

theorem inField_accumulate (numInputs numValues : ℕ) (sharesP : List ℤ) (valid : List Bool) :
    ∀ x ∈ (accumulate numInputs numValues sharesP valid).1, InField x := by
  induction numInputs with
  | zero =>
    intro x hx
    rw [List.eq_of_mem_replicate hx]
    exact inField_zero
  | succ n ih =>
    rw [accumulate_succ]
    split_ifs
    · intro x hx
      obtain ⟨j, -, rfl⟩ := List.mem_map.mp hx
      exact inField_emod _
    · exact ih

theorem inField_foldl {α : Type} {step : ℤ → α → ℤ} (hstep : ∀ acc a, InField acc → InField (step acc a)) (l : List α)
    {acc : ℤ} (hacc : InField acc) : InField (l.foldl step acc) := by
  induction l generalizing acc with
  | nil => exact hacc
  | cons a l ih => exact ih (hstep acc a hacc)

theorem inField_rowSum (numInputs size start len : ℕ) (sharesP : List ℤ) :
    InField (rowSum numInputs size start len sharesP) :=
  inField_foldl (fun _ _ hacc => inField_foldl (fun _ _ _ => inField_emod _) _ hacc) _ inField_zero

/-! ### Single messages -/

/-- As long as what comes in fits, what goes out fits, and the result satisfies `Post`. -/
abbrev SendsFitting {α : Type} (numInputs : ℕ) (Post : α → Prop) (p : Server α) : Prop :=
  Ensures (Msg.Fits numInputs) (Msg.Fits numInputs) Post p

section Phases

variable {N : ℕ} {α V W : Type}

theorem fits_ret (a : α) : SendsFitting N (fun _ => True) (.ret a) := Ensures.ret trivial

theorem fits_sendMsg {m : Msg} (h : m.Fits N) : SendsFitting N (fun _ => True) (sendMsg m) :=
  Ensures.send h (fits_ret ())

theorem fits_recvAs {read : Msg → Option α} {Post : α → Prop} (h : ∀ m a, m.Fits N → read m = some a → Post a) :
    SendsFitting N Post (recvAs read) := by
  refine Ensures.recv fun m hm => ?_
  cases hmsg : read m with
  | none => exact Ensures.stuck
  | some a => exact Ensures.ret (h m a hm hmsg)

theorem fits_recv (read : Msg → Option α) : SendsFitting N (fun _ => True) (recvAs read) :=
  fits_recvAs fun _ _ _ _ => trivial

theorem fits_recvSize : SendsFitting N (· ≤ N) recvSize := by
  refine fits_recvAs fun m a hm h => ?_
  cases m with
  | size n => exact Option.some.inj h ▸ hm
  | _ => cases h

/-! ### Loops -/

theorem fits_loopTo (n : ℕ) : SendsFitting N (fun _ => True) (loopTo n) := by
  unfold loopTo
  split_ifs
  · exact fits_ret ()
  · exact Ensures.loop

theorem fits_recvInputs (totalInputs size : ℕ) : SendsFitting N (fun _ => True) (recvInputs totalInputs size) := by
  unfold recvInputs
  split_ifs
  · exact fits_ret ()
  · exact fits_loopTo size

theorem fits_checkLoops (numInputs : ℕ) (rows : List (ℕ × ℕ)) :
    SendsFitting N (fun _ => True) (checkLoops numInputs rows) := by
  unfold checkLoops
  split_ifs
  · exact fits_ret ()
  · exact Ensures.loop

theorem fits_sendPks (pks : List Pk) : SendsFitting N (fun _ => True) (sendPks pks) := by
  induction pks with
  | nil => exact fits_ret ()
  | cons pk pks ih => exact (fits_sendMsg (m := .pk pk) trivial).bind fun _ _ => ih

theorem fits_recvPks (n : ℕ) : SendsFitting N (·.length = n) (recvPks n) := by
  induction n with
  | zero => exact Ensures.ret rfl
  | succ n ih => exact (fits_recv _).bind fun pk _ => ih.bind fun pks hpks => Ensures.ret (congrArg Nat.succ hpks)

theorem fits_sendFmpzs {xs : List ℤ} (h : ∀ x ∈ xs, InField x) : SendsFitting N (fun _ => True) (sendFmpzs xs) := by
  induction xs with
  | nil => exact fits_ret ()
  | cons x xs ih =>
    exact (fits_sendMsg (m := .fmpz x) (h x List.mem_cons_self)).bind fun _ _ =>
      ih fun y hy => h y (List.mem_cons_of_mem x hy)

theorem fits_recvFmpzs (n : ℕ) : SendsFitting N (fun _ => True) (recvFmpzs n) := by
  induction n with
  | zero => exact fits_ret []
  | succ n ih => exact (fits_recv _).bind fun x _ => ih.bind fun xs _ => fits_ret _

theorem fits_addMatched {step : W → V → Server W} {P : W → Prop}
    (hstep : ∀ acc v, P acc → SendsFitting N P (step acc v))
    (m : ShareMap V) {acc : W} (hacc : P acc) (pks : List Pk) (valid : List Bool) :
    SendsFitting N P (addMatched step m acc pks valid) := by
  unfold addMatched
  generalize pks.zip valid = flagged
  induction flagged generalizing acc with
  | nil => exact Ensures.ret hacc
  | cons x flagged ih =>
    rw [List.foldlM_cons]
    refine Ensures.bind (?_ : SendsFitting N P _) fun acc hacc => ih hacc
    split_ifs
    · cases m.lookup x.1 with
      | none => exact Ensures.ret hacc
      | some v => exact hstep acc v hacc
    · exact Ensures.ret hacc

/-! ### Share conversion and checks -/

theorem fits_b2aDaBitSingle (serverNum : ℕ) (dabits : ℕ → DaBit) {x : List Bool} (hlen : x.length < 2 ^ 32) :
    SendsFitting N (fun _ => True) (b2aDaBitSingle serverNum dabits x) := by
  have hmasked : (maskedBits dabits x).length < 2 ^ 32 := by rwa [length_maskedBits]
  refine (fits_loopTo _).bind fun _ _ => ?_
  exact (fits_sendMsg (m := .boolBatch _) hmasked).bind fun _ _ => (fits_recv _).bind fun _ _ => fits_ret _

theorem fits_shareConvert (prg : ℕ → UInt64) (serverNum numShares numValues : ℕ) (numBits : ℕ → ℕ)
    (shares2 : List UInt64) :
    SendsFitting N (fun _ => True) (shareConvert prg serverNum numShares numValues numBits shares2) := by
  refine (fits_loopTo _).bind fun _ _ => ?_
  unfold b2aOt
  refine (fits_loopTo _).bind fun _ _ => ?_
  refine (fits_loopTo _).bind fun _ _ => ?_
  split_ifs
  · refine (fits_loopTo _).bind fun _ _ => ?_
    refine (fits_sendMsg (m := .ot _) trivial).bind fun _ _ => ?_
    exact (fits_loopTo _).bind fun _ _ => fits_ret _
  · refine (fits_recv _).bind fun _ _ => ?_
    exact (fits_loopTo _).bind fun _ _ => (fits_loopTo _).bind fun _ _ => fits_ret _

theorem fits_validateSnips (sync : SnipSync) (c : Circuit) (serverNum numInputs : ℕ) {packets : List ClientPacket}
    (sharesP : List ℤ) (hlen : packets.length < 2 ^ 28) :
    SendsFitting N (fun _ => True) (validateSnips sync c serverNum numInputs packets sharesP) := by
  have hcor (checker : ℕ → Checker) : (Msg.corShareBatch (corShares packets.length checker)).Fits N := by
    refine ⟨by simpa [corShares] using hlen, fun x hx => ?_⟩
    obtain ⟨i, -, rfl⟩ := List.mem_map.mp hx
    exact ⟨inField_emod _, inField_emod _⟩
  have hout (checker : ℕ → Checker) (xs ys : List CorShare) :
      (Msg.fmpzBatch (outShares sync c packets.length checker xs ys)).Fits N := by
    intro x hx
    obtain ⟨i, -, rfl⟩ := List.mem_map.mp hx
    exact inField_emod _
  unfold validateSnips
  simp only
  split_ifs
  · exact Ensures.stuck
  · refine (fits_sendMsg (hcor _)).bind fun _ _ => ?_
    refine (fits_recv _).bind fun _ _ => ?_
    refine (fits_sendMsg (hout _ _ _)).bind fun _ _ => ?_
    exact (fits_recv _).bind fun _ _ => fits_ret _

theorem fits_sendAccumulated (numInputs numValues : ℕ) (sharesP : List ℤ) (valid : List Bool) :
    SendsFitting N (fun _ => True) (sendAccumulated numInputs numValues sharesP valid) :=
  (fits_loopTo _).bind fun _ _ => fits_sendMsg (m := .fmpzBatch _) (inField_accumulate _ _ _ _)

theorem fits_recvAccumulated (totalInputs numInputs numValues : ℕ) (sharesP : List ℤ) (valid : List Bool) :
    SendsFitting N (fun _ => True) (recvAccumulated totalInputs numInputs numValues sharesP valid) := by
  refine (fits_loopTo _).bind fun _ _ => ?_
  refine (fits_recv _).bind fun _ _ => ?_
  split_ifs
  · exact fits_ret _
  · exact fits_ret _

end Phases

/-! ### Submissions -/

theorem length_order_collect_le {V : Type} (it : Iteration V) (ok : Pk × V → Bool) (xs : List (Pk × V)) :
    (it.order (collect ok xs)).length ≤ xs.length := (it.length_order _).trans_le (length_collect_le ok xs)

section Operations

variable (msg : InitMsg)

theorem fits_bitSum (it : Iteration Bool) (prg : ℕ → UInt64) (serverNum : ℕ)
    (submissions : Vector BitShare msg.numOfInputs.toNat) :
    SendsFitting msg.numOfInputs.toNat (fun _ => True) (bitSum it prg msg serverNum submissions) := by
  have hlen : (it.order (bitShareMap submissions.toList)).length ≤ msg.numOfInputs.toNat := by
    refine (length_order_collect_le it _ _).trans_eq ?_
    rw [List.length_map, Vector.length_toList]
  unfold bitSum
  simp only
  split_ifs
  · refine (fits_sendMsg (m := .size _) hlen).bind fun _ _ => ?_
    refine (fits_sendPks _).bind fun _ _ => ?_
    refine (fits_recv _).bind fun _ _ => ?_
    exact (fits_sendMsg (m := .uint64 _) trivial).bind fun _ _ => fits_ret _
  · refine fits_recvSize.bind fun _ _ => ?_
    refine (fits_recvPks _).bind fun _ _ => ?_
    refine (fits_sendMsg (m := .ot _) trivial).bind fun _ _ => ?_
    refine (fits_recv _).bind fun _ _ => ?_
    split_ifs
    · exact fits_ret _
    · exact fits_ret _

theorem fits_intSum (it : Iteration UInt64) (prg heap : ℕ → UInt64) (serverNum : ℕ)
    (submissions : Vector IntShare msg.numOfInputs.toNat) :
    SendsFitting msg.numOfInputs.toNat (fun _ => True) (intSum it prg heap msg serverNum submissions) := by
  have hlen : (it.order (intShareMap msg submissions.toList)).length ≤ msg.numOfInputs.toNat := by
    refine (length_order_collect_le it _ _).trans_eq ?_
    rw [List.length_map, Vector.length_toList]
  unfold intSum
  simp only
  split_ifs
  · exact Ensures.stuck
  · refine (fits_sendMsg (m := .size _) hlen).bind fun _ _ => ?_
    refine (fits_sendPks _).bind fun _ _ => ?_
    refine (fits_shareConvert _ _ _ _ _ _).bind fun _ _ => ?_
    refine (fits_recv _).bind fun _ _ => ?_
    exact (fits_sendMsg (m := .fmpz _) (inField_getD (inField_accumulate _ _ _ _) 0)).bind fun _ _ => fits_ret _
  · refine fits_recvSize.bind fun numInputs hsize => ?_
    refine (fits_recvPks _).bind fun pks hpks => ?_
    refine (fits_shareConvert _ _ _ _ _ _).bind fun _ _ => ?_
    have hvalid (f : Pk → Bool) : (pks.map f).length < 2 ^ 32 := by
      rw [List.length_map, hpks]
      exact hsize.trans_lt msg.numOfInputs.toNat_lt
    refine (fits_sendMsg (m := .boolBatch _) (hvalid _)).bind fun _ _ => ?_
    exact (fits_recv _).bind fun _ _ => fits_ret _

/-! ### `xor_op` and `max_op` -/

section Matched

variable {V W : Type} {step : W → V → Server W} {P : W → Prop} {N : ℕ}
  (hstep : ∀ acc v, P acc → SendsFitting N P (step acc v)) {zero : W} (hzero : P zero)
include hstep hzero

theorem fits_matchedServer1 (it : Iteration V) {m : ShareMap V} (hlen : (it.order m).length ≤ N) {msgOf : W → Msg}
    (hmsg : ∀ w, P w → (msgOf w).Fits N) : SendsFitting N (fun _ => True) (matchedServer1 step it m zero msgOf) := by
  have hsize : (Msg.size ((it.order m).map Sigma.fst).length).Fits N := (List.length_map _).trans_le hlen
  refine (fits_sendMsg hsize).bind fun _ _ => ?_
  refine (fits_sendPks _).bind fun _ _ => ?_
  refine (fits_recv _).bind fun _ _ => ?_
  exact (fits_addMatched hstep m hzero _ _).bind fun b hb => fits_sendMsg (hmsg b hb)

theorem fits_matchedServer0 (hN : N < 2 ^ 32) (m : ShareMap V) (read : Msg → Option W) :
    SendsFitting N (fun _ => True) (matchedServer0 step m zero (recvAs read)) := by
  refine fits_recvSize.bind fun numInputs hsize => ?_
  refine (fits_recvPks _).bind fun pks hpks => ?_
  have hvalid (f : Pk → Bool) : (pks.map f).length < 2 ^ 32 := by
    rw [List.length_map, hpks]
    exact hsize.trans_lt hN
  refine (fits_addMatched hstep m hzero _ _).bind fun _ _ => ?_
  refine (fits_sendMsg (m := .boolBatch _) (hvalid _)).bind fun _ _ => ?_
  exact (fits_recv _).bind fun _ _ => fits_ret _

end Matched

theorem fits_xorOp (it : Iteration UInt64) (type : MessageType) (serverNum : ℕ)
    (submissions : Vector IntShare msg.numOfInputs.toNat) :
    SendsFitting msg.numOfInputs.toNat (fun _ => True) (xorOp it type msg serverNum submissions) := by
  have hstep (acc v : UInt64) (_ : True) :
      SendsFitting msg.numOfInputs.toNat (fun _ => True) (pure (acc ^^^ v) : Server UInt64) := fits_ret _
  have hlen : (it.order (receivedMap (submissions.toList.map IntShare.entry))).length ≤ msg.numOfInputs.toNat := by
    refine (length_order_collect_le it _ _).trans_eq ?_
    rw [List.length_map, Vector.length_toList]
  have hword (w : UInt64) (_ : True) : (Msg.uint64 w).Fits msg.numOfInputs.toNat := trivial
  unfold xorOp
  simp only
  split_ifs
  · exact (fits_matchedServer1 hstep trivial it hlen hword).bind fun _ _ => fits_ret _
  · refine (fits_matchedServer0 hstep trivial msg.numOfInputs.toNat_lt _ _).bind fun x _ => ?_
    split_ifs
    · exact fits_ret _
    · cases xorAnswer type (x.2.1 ^^^ x.2.2) with
      | none => exact Ensures.stuck
      | some ans => exact fits_ret _

theorem fits_maxScan (B : UInt32) (type : MessageType) (totalInputs numValid : ℕ) (a b : List UInt64) {N : ℕ} :
    SendsFitting N (fun _ => True) (maxScan B type totalInputs numValid a b) := by
  unfold maxScan
  split_ifs
  · exact fits_ret _
  · split
    · exact fits_ret _
    · exact Ensures.stuck

theorem fits_maxOp (it : Iteration ℕ) (uninit : ℕ → UInt64) (type : MessageType) (serverNum : ℕ)
    (submissions : Vector (MaxShare msg.maxInp) msg.numOfInputs.toNat) (hwords : (msg.maxInp + 1).toNat * 8 < 2 ^ 32) :
    SendsFitting msg.numOfInputs.toNat (fun _ => True) (maxOp it uninit type msg serverNum submissions) := by
  have hstep (shares : ℕ → UInt64) (acc : List UInt64) (start : ℕ) (hacc : acc.length = (msg.maxInp + 1).toNat) :
      SendsFitting msg.numOfInputs.toNat (·.length = (msg.maxInp + 1).toNat)
        (addSliceLoop msg.maxInp shares acc start) := by
    unfold addSliceLoop
    split_ifs
    · exact Ensures.loop
    · exact Ensures.ret (List.length_mapIdx.trans hacc)
  have hlen : (it.order (receivedMap (maxEntries msg.maxInp submissions.toList))).length ≤ msg.numOfInputs.toNat := by
    refine (length_order_collect_le it _ _).trans_eq ?_
    rw [maxEntries, List.length_mapIdx, Vector.length_toList]
  unfold maxOp
  simp only
  split_ifs
  · have hbatch (w : List UInt64) (hw : w.length = (msg.maxInp + 1).toNat) :
        (Msg.uint64Batch w).Fits msg.numOfInputs.toNat := (congrArg (· * 8) hw).trans_lt hwords
    exact (fits_matchedServer1 (hstep _) List.length_replicate it hlen hbatch).bind fun _ _ => fits_ret _
  · refine (fits_matchedServer0 (hstep _) List.length_replicate msg.numOfInputs.toNat_lt _ _).bind fun x _ => ?_
    exact fits_maxScan _ _ _ _ _ _

/-! ### `var_op` and `linreg_op` -/

section Snip

variable {S : Type} (op : SnipOp S) (sync : SnipSync) (prg : ℕ → UInt64) {N : ℕ} (hN : N < 2 ^ 28)
include hN

theorem SnipOp.fits_server1 (it : Iteration S) {m : ShareMap S} (hlen : (it.order m).length ≤ N) :
    SendsFitting N (fun _ => True) (op.server1 sync it prg m) := by
  have hpks : ((it.order m).map Sigma.fst).length ≤ N := (List.length_map _).trans_le hlen
  have hpackets : (op.packets m ((it.order m).map Sigma.fst)).length < 2 ^ 28 :=
    (op.length_packets m _).trans_lt (hpks.trans_lt hN)
  refine (fits_sendMsg (m := .size _) hpks).bind fun _ _ => ?_
  refine (fits_sendPks _).bind fun _ _ => ?_
  refine (fits_shareConvert _ _ _ _ _ _).bind fun _ _ => ?_
  refine (fits_validateSnips _ _ _ _ _ hpackets).bind fun _ _ => ?_
  refine (fits_recv _).bind fun _ _ => ?_
  exact (fits_sendFmpzs (inField_accumulate _ _ _ _)).bind fun _ _ => fits_ret _

theorem SnipOp.fits_server0 (m : ShareMap S) : SendsFitting N (fun _ => True) (op.server0 sync prg m) := by
  refine fits_recvSize.bind fun numInputs hsize => ?_
  refine (fits_recvPks _).bind fun pks hpks => ?_
  have hpks' : pks.length < 2 ^ 28 := hpks.trans_lt (hsize.trans_lt hN)
  refine (fits_shareConvert _ _ _ _ _ _).bind fun _ _ => ?_
  refine (fits_validateSnips _ _ _ _ _ ((op.length_packets m pks).trans_lt hpks')).bind fun snipValid _ => ?_
  have hvalid (f : Pk → Bool) : (List.zipWith and (pks.map f) snipValid).length < 2 ^ 32 := by
    rw [List.length_zipWith, List.length_map]
    exact (min_le_left _ _).trans_lt (hpks'.trans (by norm_num))
  refine (fits_sendMsg (m := .boolBatch _) (hvalid _)).bind fun _ _ => ?_
  exact (fits_recvFmpzs _).bind fun _ _ => fits_ret _

end Snip

theorem fits_varOp (sync : SnipSync) (it : Iteration VarSubmission) (prg : ℕ → UInt64) (serverNum : ℕ)
    (submissions : Vector VarSubmission msg.numOfInputs.toNat) (hinputs : msg.numOfInputs.toNat < 2 ^ 28) :
    SendsFitting msg.numOfInputs.toNat (fun _ => True) (varOp sync it prg msg serverNum submissions) := by
  have hlen : (it.order ((varSnip msg).shareMap submissions.toList)).length ≤ msg.numOfInputs.toNat := by
    refine (length_order_collect_le it _ _).trans_eq ?_
    rw [List.length_map, Vector.length_toList]
  unfold varOp
  simp only
  split_ifs
  · exact (SnipOp.fits_server1 _ _ _ hinputs it hlen).bind fun _ _ => fits_ret _
  · exact (SnipOp.fits_server0 _ _ _ hinputs _).bind fun _ _ => fits_ret _

theorem fits_linregOp {degree : ℕ} (inv : FmpqMatInv degree) (sync : SnipSync)
    (it : Iteration (LinRegSubmission degree)) (prg : ℕ → UInt64) (fresh : ℕ → ℕ → UInt64) (serverNum : ℕ)
    (submissions : Vector (LinRegSubmission degree) msg.numOfInputs.toNat) (hinputs : msg.numOfInputs.toNat < 2 ^ 28) :
    SendsFitting msg.numOfInputs.toNat (fun _ => True) (linregOp inv sync it prg fresh msg serverNum submissions) := by
  have hlen : (it.order ((linregSnip degree msg fresh).shareMap submissions.toList)).length ≤
      msg.numOfInputs.toNat := by
    refine (length_order_collect_le it _ _).trans_eq ?_
    rw [List.length_map, Vector.length_toList]
  unfold linregOp
  simp only
  split_ifs
  · exact Ensures.stuck
  · exact (SnipOp.fits_server1 _ _ _ hinputs it hlen).bind fun _ _ => fits_ret _
  · exact (SnipOp.fits_server0 _ _ _ hinputs _).bind fun _ _ => fits_ret _

/-! ### `freq_op`, `countMin_op` and `heavy_op` -/

section Freq

variable {size N : ℕ}

theorem fits_sendFreqShares (it : Iteration (Vector Bool size)) {submissions : List (FreqShare size)}
    (hlen : submissions.length ≤ N) :
    SendsFitting N (·.length ≤ N * size) (sendFreqShares it (freqShareMap submissions)) := by
  have hentries : (it.order (freqShareMap submissions)).length ≤ N := by
    refine (length_order_collect_le it _ _).trans ?_
    rwa [List.length_map]
  refine (fits_sendMsg (m := .size _) hentries).bind fun _ _ => ?_
  refine (fits_sendPks _).bind fun _ _ => Ensures.ret ?_
  rw [flatMap_order, length_alignedShares, length_alignedPks]
  exact Nat.mul_le_mul_right size hentries

theorem fits_recvFreqShares (submissions : List (FreqShare size)) :
    SendsFitting N (fun aligned => aligned.1.length ≤ N ∧ aligned.2.length ≤ N * size)
      (recvFreqShares (freqShareMap submissions)) := by
  refine fits_recvSize.bind fun numInputs hsize => ?_
  refine (fits_recvPks _).bind fun pks hpks => Ensures.ret ⟨?_, ?_⟩
  · rw [List.length_map, hpks]
    exact hsize
  · simp only [lookup_freqShareMap]
    rw [← alignedShares, length_alignedShares, hpks]
    exact Nat.mul_le_mul_right size hsize

theorem length_entries_le {submissions : List (FreqShare size)} (hlen : submissions.length ≤ N) :
    (freqShareMap submissions).entries.length ≤ N := by
  refine (length_collect_le _ _).trans ?_
  rwa [List.length_map]

theorem fits_sketchOp (rows : List (ℕ × ℕ)) (verdict : List Bool → List Bool → List ℤ → List ℤ → Bool)
    (query : ℕ → List ℤ → List UInt64) (it : Iteration (Vector Bool size)) (dabits : ℕ → DaBit)
    (totalInputs serverNum : ℕ) {submissions : List (FreqShare size)} (hlen : submissions.length ≤ N)
    (hrows : rows.length < 2 ^ 32) (hbits : N * size < 2 ^ 32) :
    SendsFitting N (fun _ => True) (sketchOp rows verdict query it dabits totalInputs serverNum submissions) := by
  have hparity (f : ℕ × ℕ → Bool) : (rows.map f).length < 2 ^ 32 := (List.length_map f).trans_lt hrows
  have hsums (numInputs : ℕ) (sharesP : List ℤ) :
      ∀ x ∈ rows.map fun row => rowSum numInputs size row.1 row.2 sharesP, InField x := by
    intro x hx
    obtain ⟨row, -, rfl⟩ := List.mem_map.mp hx
    exact inField_rowSum _ _ _ _ _
  unfold sketchOp
  simp only
  split_ifs
  · refine (fits_recvInputs _ _).bind fun _ _ => ?_
    refine (fits_sendFreqShares it hlen).bind fun shares hshares => ?_
    refine (fits_b2aDaBitSingle _ _ (hshares.trans_lt hbits)).bind fun sharesP _ => ?_
    refine (fits_checkLoops _ _).bind fun _ _ => ?_
    refine (fits_sendMsg (m := .boolBatch _) (hparity _)).bind fun _ _ => ?_
    refine (fits_sendMsg (m := .fmpzBatch _) (hsums _ _)).bind fun _ _ => ?_
    refine (fits_recv _).bind fun _ _ => ?_
    exact (fits_sendAccumulated _ _ _ _).bind fun _ _ => fits_ret _
  · refine (fits_recvInputs _ _).bind fun _ _ => ?_
    refine (fits_recvFreqShares submissions).bind fun aligned haligned => ?_
    refine (fits_b2aDaBitSingle _ _ (haligned.2.trans_lt hbits)).bind fun sharesP _ => ?_
    refine (fits_checkLoops _ _).bind fun _ _ => ?_
    refine (fits_recv _).bind fun _ _ => ?_
    refine (fits_recv _).bind fun _ _ => ?_
    refine (fits_sendMsg (m := .bool _) trivial).bind fun _ _ => ?_
    exact (fits_recvAccumulated _ _ _ _ _).bind fun _ _ => fits_ret _

theorem fits_sendSingleCheck {buffer : List Bool} {sums : List ℤ} (hbuffer : buffer.length < 2 ^ 32)
    (hsums : ∀ x ∈ sums, InField x) : SendsFitting N (fun _ => True) (sendSingleCheck buffer sums) := by
  refine (fits_sendMsg (m := .boolBatch _) hbuffer).bind fun _ _ => ?_
  refine (fits_sendMsg (m := .fmpzBatch _) hsums).bind fun _ _ => ?_
  exact (fits_recv _).bind fun _ _ => fits_ret _

theorem fits_recvSingleCheck {valid : List Bool} (parity : List Bool) (sums : List ℤ) (hvalid : valid.length < 2 ^ 32) :
    SendsFitting N (fun _ => True) (recvSingleCheck valid parity sums) := by
  have hsent (f : ℕ → Bool) : ((List.range valid.length).map f).length < 2 ^ 32 := by
    rwa [List.length_map, List.length_range]
  refine (fits_recv _).bind fun _ _ => ?_
  refine (fits_recv _).bind fun _ _ => ?_
  exact (fits_sendMsg (m := .boolBatch _) (hsent _)).bind fun _ _ => fits_ret _

end Freq

theorem fits_freqOp (it : Iteration (Vector Bool (maxInp msg))) (dabits : ℕ → DaBit) (uninit : ℕ → Bool)
    (serverNum : ℕ) (submissions : Vector (FreqShare (maxInp msg)) msg.numOfInputs.toNat)
    (hbits : msg.numOfInputs.toNat * maxInp msg < 2 ^ 32) :
    SendsFitting msg.numOfInputs.toNat (fun _ => True) (freqOp msg it dabits uninit serverNum submissions) := by
  have hlen : submissions.toList.length ≤ msg.numOfInputs.toNat := Vector.length_toList.le
  have hinputs := msg.numOfInputs.toNat_lt
  have hsums (n : ℕ) (sharesP : List ℤ) : ∀ x ∈ (List.range n).map (inputSum (maxInp msg) sharesP), InField x := by
    intro x hx
    obtain ⟨i, -, rfl⟩ := List.mem_map.mp hx
    exact inField_sumMod _ _
  unfold freqOp
  simp only
  split_ifs
  · refine (fits_recvInputs _ _).bind fun _ _ => ?_
    refine (fits_sendFreqShares it hlen).bind fun shares hshares => ?_
    refine (fits_b2aDaBitSingle _ _ (hshares.trans_lt hbits)).bind fun sharesP _ => ?_
    refine (fits_sendMsg (m := .bool _) trivial).bind fun _ _ => ?_
    refine (fits_sendMsg (m := .fmpz _) (inField_sumMod _ _)).bind fun _ _ => ?_
    refine (fits_recv _).bind fun allValid _ => ?_
    refine Ensures.bind (?_ : SendsFitting _ (fun _ => True) _) fun _ _ =>
      (fits_sendAccumulated _ _ _ _).bind fun _ _ => fits_ret _
    split_ifs
    · exact fits_ret _
    · refine fits_sendSingleCheck ?_ (hsums _ _)
      rw [List.length_map, List.length_range]
      exact (length_entries_le hlen).trans_lt hinputs
  · refine (fits_recvInputs _ _).bind fun _ _ => ?_
    refine (fits_recvFreqShares submissions.toList).bind fun aligned haligned => ?_
    refine (fits_b2aDaBitSingle _ _ (haligned.2.trans_lt hbits)).bind fun sharesP _ => ?_
    refine (fits_recv _).bind fun _ _ => ?_
    refine (fits_recv _).bind fun _ _ => ?_
    refine (fits_sendMsg (m := .bool _) trivial).bind fun _ _ => ?_
    refine Ensures.bind (?_ : SendsFitting _ (fun _ => True) _) fun _ _ =>
      (fits_recvAccumulated _ _ _ _ _).bind fun _ _ => fits_ret _
    split_ifs
    · exact fits_ret _
    · exact fits_recvSingleCheck _ _ (haligned.1.trans_lt hinputs)

/-! ### All operations -/

/-- The sizes of a request for which no array is too long for the 32-bit integers of `net_share.cpp`. -/
def Operation.FitsWire : Operation → Prop
  | .bitSum | .intSum | .andOp | .orOp => True
  | .maxOp | .minOp => (msg.maxInp + 1).toNat * 8 < 2 ^ 32
  | .varOp | .stddevOp | .linregOp _ => msg.numOfInputs.toNat < 2 ^ 28
  | .freqOp => msg.numOfInputs.toNat * maxInp msg < 2 ^ 32
  | .countMinOp cfg => cfg.d < 2 ^ 32 ∧ msg.numOfInputs.toNat * (cfg.d * cfg.w) < 2 ^ 32
  | .heavyOp cfg => cfg.L * cfg.d + 1 < 2 ^ 32 ∧ msg.numOfInputs.toNat * shareSize msg.numBits cfg < 2 ^ 32

theorem typed_script (shared : Shared) (serverNum : ℕ) (op : Operation)
    (side : Side (op.Kept msg) (op.Submission msg) msg.numOfInputs.toNat) :
    Typed Msg.kind (op.script msg shared serverNum side) := by
  cases op with
  | bitSum => exact typed_bitSum _ _ _ _ _
  | intSum => exact typed_intSum _ _ _ _ _ _
  | andOp => exact typed_xorOp side.it .andOp msg serverNum side.submissions
  | orOp => exact typed_xorOp side.it .orOp msg serverNum side.submissions
  | maxOp => exact typed_maxOp _ _ _ _ _ _
  | minOp => exact typed_maxOp _ _ _ _ _ _
  | varOp => exact typed_varOp _ _ _ _ _ _
  | stddevOp => exact typed_varOp _ _ _ _ _ _
  | linregOp degree => exact typed_linregOp _ _ _ _ _ _ _ _
  | freqOp => exact typed_freqOp _ _ _ _ _ _
  | countMinOp cfg => exact typed_sketchOp _ _ _ _ _ _ _ _
  | heavyOp cfg => exact typed_sketchOp _ _ _ _ _ _ _ _

theorem fits_script (shared : Shared) (serverNum : ℕ) {op : Operation} (hfits : op.FitsWire msg)
    (side : Side (op.Kept msg) (op.Submission msg) msg.numOfInputs.toNat) :
    SendsFitting msg.numOfInputs.toNat (fun _ => True) (op.script msg shared serverNum side) := by
  cases op with
  | bitSum => exact fits_bitSum msg _ _ _ _
  | intSum => exact fits_intSum msg _ _ _ _ _
  | andOp => exact fits_xorOp msg side.it .andOp serverNum side.submissions
  | orOp => exact fits_xorOp msg side.it .orOp serverNum side.submissions
  | maxOp => exact fits_maxOp msg _ _ _ _ _ hfits
  | minOp => exact fits_maxOp msg _ _ _ _ _ hfits
  | varOp => exact fits_varOp msg _ _ _ _ _ hfits
  | stddevOp => exact fits_varOp msg _ _ _ _ _ hfits
  | linregOp degree => exact fits_linregOp msg _ _ _ _ _ _ _ hfits
  | freqOp => exact fits_freqOp msg _ _ _ _ _ hfits
  | countMinOp cfg =>
    have hrows : (countMinRows cfg).length < 2 ^ 32 := by
      rw [countMinRows, List.length_map, List.length_range]
      exact hfits.1
    exact fits_sketchOp _ _ _ _ _ _ _ Vector.length_toList.le hrows hfits.2
  | heavyOp cfg =>
    have hrows : (heavyRows msg.numBits cfg).length < 2 ^ 32 := by
      rw [length_heavyRows]
      exact hfits.1
    exact fits_sketchOp _ _ _ _ _ _ _ Vector.length_toList.le hrows hfits.2

/-- What the servers return over messages, they return over bytes, in every order of the single bytes and with none left
over. -/
theorem script_onWire (shared : Shared) {op : Operation} (hfits : op.FitsWire msg)
    (side0 side1 : Side (op.Kept msg) (op.Submission msg) msg.numOfInputs.toNat) {r0 r1 : op.Result}
    (h : Terminates (op.script msg shared 0 side0) (op.script msg shared 1 side1) r0 r1) (arrival0 arrival1 : Arrival) :
    Terminates ((netShare arrival0).onWire Msg.kind (op.script msg shared 0 side0))
      ((netShare arrival1).onWire Msg.kind (op.script msg shared 1 side1)) r0 r1 := by
  have hinputs := msg.numOfInputs.toNat_lt
  exact h.onWire (typed_script msg shared 0 op side0) (typed_script msg shared 1 op side1)
    (fits_script msg shared 0 hfits side0) (fits_script msg shared 1 hfits side1)
    (fun _ hm => carries_of_fits arrival1 arrival0 hinputs hm) fun _ hm => carries_of_fits arrival0 arrival1 hinputs hm

end Operations

/-- Two submissions to `VAR`. At server 0 the bytes arrive one by one, at server 1 all at once. -/
theorem script_onWire_crossed :
    ∃ r0 r1, Terminates
      ((netShare fun _ => 0).onWire Msg.kind (Operation.script twoVarMsg onesShared 0 .varOp (zeroSide crossedVar0)))
      ((netShare id).onWire Msg.kind (Operation.script twoVarMsg onesShared 1 .varOp (zeroSide crossedVar1))) r0 r1 :=
  ⟨_, _, @script_onWire twoVarMsg onesShared .varOp (show twoVarMsg.numOfInputs.toNat < 2 ^ 28 by decide)
    (zeroSide crossedVar0) (zeroSide crossedVar1) _ _
    (varOp_terminates onesSync default default 0 0 twoVarMsg crossedVar0 crossedVar1
      ⟨varSubmission 0 2 13, List.mem_cons_self, by decide⟩ fits_crossedVar1) (fun _ => 0) id⟩

end PrioPlus

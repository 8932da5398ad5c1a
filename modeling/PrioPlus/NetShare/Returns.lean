import PrioPlus.Lib.ReturnCode
import PrioPlus.NetShare.Framing
import PrioPlus.NetShare.RecvIn

/-!
# What the message functions return

The functions of `net_share.cpp` call `send` and `recv_in` and each other, and return a number of bytes or the result of
the first step that fails. This module keeps what is sent out of sight and follows the returned values, over any
results of `send` and `recv` (`reportsFirst_iff`). There are two ways to hide a failure: `send` may take fewer bytes
than it is given, which nobody notices, and the batches that are too large for one message add the results of their two
parts without looking at them.
-/

namespace PrioPlus.NetShare

open Lib.Bytes Lib.ReturnCode

/-! ### The calls that a function makes -/

/-- The senders and the receivers of `net_share.h`, with the sizes that they are called with. For a string this is its
length, which its receiver has from `recv_size`. -/
inductive MessageFn where
  | bool
  | boolBatch (n : ℕ)
  | int
  | size
  | double
  | uint32
  | uint64
  | uint64Batch (n : ℕ)
  | ulong
  | ulongBatch (n : ℕ)
  | string (len : ℕ)
  | fmpz
  | fmpzBatch (n : ℕ)
  | seed (sizeofSeed : ℕ)
  | heavycfg
  | cor
  | corShare
  | corShareBatch (n : ℕ)
  | clientPacket (nMul : ℕ)
  | beaverTriple
  | beaverTripleShare
  | booleanBeaverTriple
  | daBit
  | daBitBatch (n : ℕ)
  | edaBit (nbits : ℕ)
  | edaBitBatch (nbits n : ℕ)

/-- `send_…` or `recv_…`. -/
inductive Direction where
  | send
  | recv

/-- A function with a loop over `n`, whose counter is an `unsigned int`. -/
def countTo (n : ℕ) (f : Fn) : Fn := if n < 2 ^ 32 then f else .stuck

/-- `send_bool_batch` has its loop before the transfer and `recv_bool_batch` after it. -/
def boolBatchFn (n : ℕ) : Fn := countTo n (.transfer ((n + 7) / 8))

def sizeFn : Fn := .transfer 8

def doubleFn : Fn := .transfer 8

def ulongBatchFn (n : ℕ) : Fn := .transfer (n * 8)

/-- `len` is `fmpz_size(Int_Modulus)`. Only `recv_fmpz` looks whether it is 0. -/
def fmpzFn (len : ℕ) : Direction → Fn
  | .send => .checked [ulongBatchFn len]
  | .recv => if len = 0 then .checked [] else .checked [ulongBatchFn len]

def fmpzBatchFn (len n : ℕ) : Fn :=
  if _hlarge : n > maxFmpzBatch then
    .summed (fmpzBatchFn len maxFmpzBatch) (fmpzBatchFn len (n - maxFmpzBatch))
  else .checked [ulongBatchFn (len * n)]
termination_by n
decreasing_by
  · exact _hlarge
  · have hpos : 0 < maxFmpzBatch := by decide
    omega

def tripleFn (len : ℕ) (dir : Direction) : Fn := .checked [fmpzFn len dir, fmpzFn len dir, fmpzFn len dir]

def daBitBatchFn (len n : ℕ) : Fn :=
  if _hlarge : n > maxDaBitBatch then
    .summed (daBitBatchFn len maxDaBitBatch) (daBitBatchFn len (n - maxDaBitBatch))
  else .checked [fmpzBatchFn len n, boolBatchFn n]
termination_by n
decreasing_by
  · exact _hlarge
  · have hpos : 0 < maxDaBitBatch := by decide
    omega

/-- The steps of each function. The batches of records go through their entries with an `unsigned int`, at the latest in
`new_fmpz_array`, and `NextPowerOfTwo` does not return from `2 ^ 31` on. -/
def MessageFn.body (len : ℕ) (dir : Direction) : MessageFn → Fn
  | .bool => .transfer 1
  | .boolBatch n => boolBatchFn n
  | .int => .transfer 4
  | .size => sizeFn
  | .double => doubleFn
  | .uint32 => .transfer 4
  | .uint64 => .transfer 8
  | .uint64Batch n => .transfer (n * 8)
  | .ulong => .transfer 8
  | .ulongBatch n => ulongBatchFn n
  | .string length => .checked [sizeFn, .transfer length]
  | .fmpz => fmpzFn len dir
  | .fmpzBatch n => fmpzBatchFn len n
  | .seed sizeofSeed => .transfer sizeofSeed
  | .heavycfg => .checked [doubleFn, sizeFn, sizeFn, sizeFn]
  | .cor => .checked [fmpzFn len dir, fmpzFn len dir]
  | .corShare => .checked [fmpzFn len dir, fmpzFn len dir]
  | .corShareBatch n => countTo n (.checked [fmpzBatchFn len n, fmpzBatchFn len n])
  | .clientPacket nMul =>
    if nMul < 2 ^ 31 then
      .checked (List.replicate nMul (fmpzFn len dir) ++ [fmpzFn len dir, fmpzFn len dir, fmpzFn len dir] ++
        List.replicate (nextPowerOfTwo nMul) (fmpzFn len dir) ++ [tripleFn len dir])
    else .stuck
  | .beaverTriple => tripleFn len dir
  | .beaverTripleShare => tripleFn len dir
  | .booleanBeaverTriple => boolBatchFn 3
  | .daBit => .checked [fmpzFn len dir, .transfer 1]
  | .daBitBatch n => daBitBatchFn len n
  | .edaBit nbits => .checked [fmpzFn len dir, boolBatchFn nbits]
  | .edaBitBatch nbits n => countTo n (.checked [fmpzBatchFn len n, boolBatchFn (n * nbits)])

/-! ### `send` and `recv_in` -/

/-- What a call of `send` does: it takes the bytes up to some that are missing, or it fails. -/
inductive SendResult where
  | sent (missing : ℕ)
  | error

/-- The result of `send` for `n` bytes, as an `int`. -/
def SendResult.report (n : ℕ) : SendResult → Report
  | .sent missing => ⟨wrap32 (n - missing : ℕ), decide (n - missing = n), if n - missing = 0 then some 0 else none⟩
  | .error => ⟨-1, false, some (-1)⟩

theorem SendResult.code_nonpos {n : ℕ} {code : ℤ} {res : SendResult} (h : (res.report n).failure = some code) :
    code ≤ 0 ∧ code.bmod (2 ^ 32) = code := by
  cases res with
  | sent missing =>
    rw [report] at h
    split_ifs at h
    obtain rfl : 0 = code := Option.some.inj h
    exact ⟨le_rfl, Int.zero_bmod⟩
  | error =>
    obtain rfl : -1 = code := Option.some.inj h
    exact ⟨by norm_num, Int.bmod_eq_of_le (by norm_num) (by norm_num)⟩

/-- The calls of `send` one after the other. -/
def sendLink (results : ℕ → SendResult) : Link (2 ^ 32) ℕ where
  transfer n calls := some ((results calls).report n, calls + 1)
  code_nonpos h hfailure := by
    obtain ⟨rfl, -⟩ := Prod.mk.inj (Option.some.inj h)
    exact SendResult.code_nonpos hfailure
  ret_whole {n calls r calls'} h hfailure hwhole := by
    obtain ⟨rfl, -⟩ := Prod.mk.inj (Option.some.inj h)
    cases hres : results calls with
    | sent missing =>
      rw [hres] at hwhole
      have hall : n - missing = n := of_decide_eq_true hwhole
      rw [SendResult.report, hall, wrap32]
    | error =>
      rw [hres] at hwhole
      exact Bool.noConfusion hwhole

/-- What is left of the network after some calls of `recv` and some bytes. -/
def Incoming.after (net : Incoming) (calls consumed : ℕ) : Incoming where
  results k := net.results (calls + k)
  stream i := net.stream (consumed + i)

/-- The result of `recv_in` for `n` bytes. It is whole when the next bytes of the stream are in the buffer. -/
def recvReport (net : Incoming) (n : ℕ) (ret : ℤ) (s : RecvState) : Report where
  ret := ret
  whole := decide (ret = n ∧ s.consumed = n ∧ ∀ i, i < n → s.buf i = net.stream i)
  failure := if ret ≤ 0 then some ret else none

theorem Delivered.right {net : Incoming} {n : ℕ} {ret : ℤ} {s : RecvState} (h : Delivered net n ret s) :
    (recvReport net n ret s).Right := by
  unfold recvReport Report.Right
  by_cases hret : ret ≤ 0
  · simp only [if_pos hret]
  · simp only [if_neg hret]
    rcases h.result with hwhole | hnonpos
    · exact ⟨not_le.mp hret, decide_eq_true hwhole⟩
    · exact absurd hnonpos hret

theorem wrap32_recvInLoop {net : Incoming} {n fuel : ℕ} {s s' : RecvState} {ret : ℤ}
    (h : recvInLoop net n fuel s = some (ret, s')) : wrap32 ret = ret := by
  induction fuel generalizing s with
  | zero => exact absurd h (by simp [recvInLoop])
  | succ fuel ih =>
    by_cases hlt : s.bytesRead < n
    · cases hcall : net.results s.calls with
      | closed =>
        rw [recvInLoop_closed hlt hcall] at h
        obtain ⟨rfl, -⟩ := Prod.mk.inj (Option.some.inj h)
        exact Int.zero_bmod
      | error =>
        rw [recvInLoop_error hlt hcall] at h
        exact ih h
      | bytes more =>
        rw [recvInLoop_bytes hlt hcall] at h
        split_ifs at h
        · obtain ⟨rfl, -⟩ := Prod.mk.inj (Option.some.inj h)
          exact Int.zero_bmod
        · exact ih h
    · rw [recvInLoop_done hlt] at h
      obtain ⟨rfl, -⟩ := Prod.mk.inj (Option.some.inj h)
      exact wrap32_wrap32 _

/-- The calls of `recv_in` one after the other, with `old` in their buffers. -/
def recvLink (old : ℕ → UInt8) (fuel : ℕ) : Link (2 ^ 32) Incoming where
  transfer n net := (recvInLoop net n fuel (.init old)).map fun (ret, s) =>
    (recvReport net n ret s, net.after s.calls s.consumed)
  code_nonpos {n net r net' code} h hfailure := by
    obtain ⟨⟨ret, s⟩, hrun, heq⟩ := Option.map_eq_some_iff.mp h
    obtain ⟨rfl, -⟩ := Prod.mk.inj heq
    rw [recvReport] at hfailure
    split_ifs at hfailure with hret
    obtain rfl : ret = code := Option.some.inj hfailure
    exact ⟨hret, wrap32_recvInLoop hrun⟩
  ret_whole {n net r net'} h hfailure hwhole := by
    obtain ⟨⟨ret, s⟩, hrun, heq⟩ := Option.map_eq_some_iff.mp h
    obtain ⟨rfl, -⟩ := Prod.mk.inj heq
    obtain ⟨hret, -⟩ := of_decide_eq_true hwhole
    show ret = (n : ℤ).bmod (2 ^ 32)
    rw [← hret]
    exact (wrap32_recvInLoop hrun).symm

/-! ### Senders whose bytes are all taken

On a network that takes everything, the calls return what the senders of `NetShare` do.
-/

def allSent (_calls : ℕ) : SendResult := .sent 0

/-- The result of a sender is that of a function. -/
def Sent.ReturnsAs (s : Sent) (f : Fn) : Prop :=
  ∀ calls, (run (sendLink allSent) f calls).map (fun r => r.1.ret) = s.map Prod.snd

/-- The result of the rest of a sender is that of the steps that are left. -/
def ReturnsFrom (next : ℤ → Sent) (steps : List Fn) : Prop :=
  ∀ total calls, (runChecked (sendLink allSent) steps total calls).map (fun r => r.1.ret) = (next total).map Prod.snd

section ReturnsAs

variable {s first second : Sent} {f g : Fn} {next : ℤ → Sent} {steps : List Fn}

theorem returnsAs_send {buf : List UInt8} {n : ℕ} (h : buf.length = n) : (send buf).ReturnsAs (.transfer n) := by
  subst h
  exact fun _ => rfl

theorem ReturnsFrom.returnsAs (h : ReturnsFrom next steps) : (next 0).ReturnsAs (.checked steps) := h 0

theorem returnsFrom_done : ReturnsFrom (fun total => some ([], total)) [] := fun _ _ => rfl

theorem Sent.ReturnsAs.check (h : s.ReturnsAs f) (hnext : ReturnsFrom next steps) :
    ReturnsFrom (fun total => s.check total next) (f :: steps) := by
  intro total calls
  have hs := h calls
  show _ = (s.check total next).map Prod.snd
  rw [runChecked, Sent.check]
  cases hrun : run (sendLink allSent) f calls with
  | none =>
    rw [hrun] at hs
    rw [Option.map_eq_none_iff.mp hs.symm]
    rfl
  | some r =>
    rw [hrun] at hs
    obtain ⟨⟨bytes, ret⟩, rfl, hret⟩ := Option.map_eq_some_iff.mp hs.symm
    obtain rfl : ret = r.1.ret := hret
    simp only [Option.bind_some]
    split_ifs
    · rfl
    · rw [Option.map_map, Option.map_map]
      exact hnext _ _

theorem Sent.ReturnsAs.plus (hfirst : first.ReturnsAs f) (hsecond : second.ReturnsAs g) :
    (first.plus second).ReturnsAs (.summed f g) := by
  intro calls
  have hs := hfirst calls
  rw [run, Sent.plus]
  cases hrun : run (sendLink allSent) f calls with
  | none =>
    rw [hrun] at hs
    rw [Option.map_eq_none_iff.mp hs.symm]
    rfl
  | some r =>
    rw [hrun] at hs
    obtain ⟨⟨bytes, ret⟩, rfl, hret⟩ := Option.map_eq_some_iff.mp hs.symm
    obtain rfl : ret = r.1.ret := hret
    have hs' := congrArg (Option.map fun ret' => wrap32 (wrap32 (0 + r.1.ret) + ret')) (hsecond r.2.2)
    simp only [Option.map_map] at hs'
    simp only [Option.bind_some, Option.map_map]
    exact hs'

theorem ReturnsAs.countTo {n : ℕ} (h : s.ReturnsAs f) :
    Sent.ReturnsAs (if n < 2 ^ 32 then s else none) (countTo n f) := by
  unfold NetShare.countTo
  split_ifs
  · exact h
  · exact fun _ => rfl

variable (len : ℕ)

theorem returnsAs_bool (x : Bool) : (sendBool x).ReturnsAs (.transfer 1) := returnsAs_send rfl

theorem returnsAs_boolBatch (x : List Bool) : (sendBoolBatch x).ReturnsAs (boolBatchFn x.length) :=
  ReturnsAs.countTo (returnsAs_send (length_packBits x))

theorem returnsAs_ulongBatch (x : List ℕ) : (sendUlongBatch x).ReturnsAs (ulongBatchFn x.length) :=
  returnsAs_send (by rw [length_flatMap_const length_ulongBytes, Nat.mul_comm])

theorem returnsAs_fmpz (x : ℤ) : (sendFmpz len x).ReturnsAs (fmpzFn len .send) := by
  have hwords := returnsAs_ulongBatch (fmpzGetUiArray len x)
  rw [length_fmpzGetUiArray] at hwords
  exact (hwords.check returnsFrom_done).returnsAs

theorem returnsAs_fmpzBatch (x : List ℤ) : (sendFmpzBatch len x).ReturnsAs (fmpzBatchFn len x.length) := by
  induction x using sendFmpzBatch.induct with
  | case1 x hlarge ihfirst ihrest =>
    rw [List.length_take, Nat.min_eq_left hlarge.le] at ihfirst
    rw [List.length_drop] at ihrest
    rw [sendFmpzBatch, dif_pos hlarge, fmpzBatchFn, dif_pos hlarge]
    exact ihfirst.plus ihrest
  | case2 x hsmall =>
    have hwords := returnsAs_ulongBatch (x.flatMap (fmpzGetUiArray len))
    rw [length_flatMap_const (length_fmpzGetUiArray len)] at hwords
    rw [sendFmpzBatch, dif_neg hsmall, fmpzBatchFn, dif_neg hsmall]
    exact (hwords.check returnsFrom_done).returnsAs

theorem returnsFrom_each (x : List ℤ) (h : ReturnsFrom next steps) :
    ReturnsFrom (fun total => sendEach len x total next) (List.replicate x.length (fmpzFn len .send) ++ steps) := by
  induction x with
  | nil => exact h
  | cons y x ih => exact (returnsAs_fmpz len y).check ih

theorem returnsAs_triple (a b c : ℤ) :
    (sendEach len [a, b, c] 0 fun total => some ([], total)).ReturnsAs (tripleFn len .send) :=
  (returnsFrom_each len [a, b, c] returnsFrom_done).returnsAs

theorem returnsAs_clientPacket (x : ClientPacket) :
    (sendClientPacket len x).ReturnsAs ((MessageFn.clientPacket x.nMul).body len .send) := by
  rw [sendClientPacket, MessageFn.body]
  split_ifs
  · have hlength : (packetFields x).length = x.nMul + 3 + nextPowerOfTwo x.nMul := by
      simp only [packetFields, List.length_append, x.mulShares_length, x.hPoints_length]
      rfl
    have htriple := returnsAs_triple len x.tripleShare.shareA x.tripleShare.shareB x.tripleShare.shareC
    have hfields := returnsFrom_each len (packetFields x) (htriple.check returnsFrom_done)
    rw [hlength, List.replicate_add, List.replicate_add] at hfields
    exact hfields.returnsAs
  · exact fun _ => rfl

theorem returnsAs_daBitBatch (x : List DaBit) : (sendDaBitBatch len x).ReturnsAs (daBitBatchFn len x.length) := by
  induction x using sendDaBitBatch.induct with
  | case1 x hlarge ihfirst ihrest =>
    rw [List.length_take, Nat.min_eq_left hlarge.le] at ihfirst
    rw [List.length_drop] at ihrest
    rw [sendDaBitBatch, dif_pos hlarge, daBitBatchFn, dif_pos hlarge]
    exact ihfirst.plus ihrest
  | case2 x hsmall =>
    have hbp := returnsAs_fmpzBatch len (x.map DaBit.bp)
    have hb2 := returnsAs_boolBatch (x.map DaBit.b2)
    rw [List.length_map] at hbp hb2
    rw [sendDaBitBatch, dif_neg hsmall, daBitBatchFn, dif_neg hsmall]
    exact (hbp.check (hb2.check returnsFrom_done)).returnsAs

/-- The function that sends a message. -/
def WireMsg.messageFn : WireMsg → MessageFn
  | boolBatch x => .boolBatch x.length
  | fmpz _ => .fmpz
  | fmpzBatch x => .fmpzBatch x.length
  | fmpzOneByOne x => .fmpzBatch x.length
  | clientPacket x => .clientPacket x.nMul
  | corShareBatch x => .corShareBatch x.length
  | beaverTriple _ => .beaverTriple
  | beaverTripleShare _ => .beaverTripleShare
  | booleanBeaverTriple _ => .booleanBeaverTriple
  | daBit _ => .daBit
  | daBitBatch x => .daBitBatch x.length
  | edaBit nbits _ => .edaBit nbits
  | edaBitBatch nbits x => .edaBitBatch nbits x.length

theorem sent_returnsAs (m : WireMsg) : (m.sent len).ReturnsAs (m.messageFn.body len .send) := by
  cases m with
  | boolBatch x => exact returnsAs_boolBatch x
  | fmpz x => exact returnsAs_fmpz len x
  | fmpzBatch x => exact returnsAs_fmpzBatch len x
  | fmpzOneByOne x => exact returnsAs_fmpzBatch len x
  | clientPacket x => exact returnsAs_clientPacket len x
  | corShareBatch x =>
    have hshareD := returnsAs_fmpzBatch len (x.map CorShare.shareD)
    have hshareE := returnsAs_fmpzBatch len (x.map CorShare.shareE)
    rw [List.length_map] at hshareD hshareE
    exact ReturnsAs.countTo (hshareD.check (hshareE.check returnsFrom_done)).returnsAs
  | beaverTriple x => exact returnsAs_triple len x.a x.b x.c
  | beaverTripleShare x => exact returnsAs_triple len x.shareA x.shareB x.shareC
  | booleanBeaverTriple x => exact returnsAs_boolBatch [x.a, x.b, x.c]
  | daBit x => exact ((returnsAs_fmpz len x.bp).check ((returnsAs_bool x.b2).check returnsFrom_done)).returnsAs
  | daBitBatch x => exact returnsAs_daBitBatch len x
  | edaBit nbits x =>
    have hbits := returnsAs_boolBatch x.b
    rw [x.length_b] at hbits
    exact ((returnsAs_fmpz len x.r).check (hbits.check returnsFrom_done)).returnsAs
  | edaBitBatch nbits x =>
    have hr := returnsAs_fmpzBatch len (x.map EdaBit.r)
    have hbits := returnsAs_boolBatch (x.flatMap EdaBit.b)
    rw [List.length_map] at hr
    rw [length_flatMap_const EdaBit.length_b, Nat.mul_comm] at hbits
    exact ReturnsAs.countTo (hr.check (hbits.check returnsFrom_done)).returnsAs

end ReturnsAs

/-! ### The first failure -/

section FirstFailure

variable (len : ℕ) (f : MessageFn)

/-- A sender returns, and it and the senders that it calls return a positive number only with everything sent, and else
the result of the first `send` that failed. -/
def SendReports (results : ℕ → SendResult) : Prop := Reports (sendLink results) (f.body len .send) 0

/-- The same for a receiver and its calls of `recv_in`. -/
def RecvReports (old : ℕ → UInt8) (net : Incoming) : Prop :=
  ∃ fuel, Reports (recvLink old fuel) (f.body len .recv) net

/-- All is sent, and no number of bytes is too large for an `int`; or a `send` fails after others that took all they
were given, and when it is one for the first part of a large batch, the first for the second part returns 0. -/
def SendHolds (results : ℕ → SendResult) : Prop :=
  (∃ calls, Goes (sendLink results) (f.body len .send) 0 calls) ∨
    ∃ code calls, Fails (sendLink results) (f.body len .send) code 0 calls

/-- The same for a receiver, whose calls of `recv_in` deliver their bytes or return no positive number. -/
def RecvHolds (old : ℕ → UInt8) (net : Incoming) : Prop :=
  ∃ fuel, (∃ rest, Goes (recvLink old fuel) (f.body len .recv) net rest) ∨
    ∃ code rest, Fails (recvLink old fuel) (f.body len .recv) code net rest

theorem reportsFirst_iff :
    (∀ results, SendReports len f results ↔ SendHolds len f results) ∧
      ∀ old net, RecvReports len f old net ↔ RecvHolds len f old net :=
  ⟨fun _ => reports_iff, fun _ _ => exists_congr fun _ => reports_iff⟩

end FirstFailure

/-- The second `send` fails. -/
def secondFails (k : ℕ) : SendResult := if k = 1 then .error else .sent 0

theorem fmpzBatchFn_large :
    fmpzBatchFn 2 1000001 = .summed (.checked [.transfer 16000000]) (.checked [.transfer 16]) := by
  rw [fmpzBatchFn, dif_pos (by decide), fmpzBatchFn, dif_neg (by decide), fmpzBatchFn, dif_neg (by decide)]
  rfl

/-- The batch is reported as 15999999 bytes, and its last integer is not sent. -/
theorem not_reportsFirst_secondFails : ¬ SendReports 2 (.fmpzBatch 1000001) secondFails := by
  rintro ⟨r, calls, s', hrun, hright⟩
  rw [MessageFn.body, fmpzBatchFn_large] at hrun
  have hret : r.ret = 15999999 ∧ r.failure = some (-1) := by
    simp [run, runChecked, sendLink, secondFails, SendResult.report, wrap32, Int.bmod_def] at hrun
    obtain ⟨rfl, -⟩ := hrun
    exact ⟨rfl, rfl⟩
  have hr := hright r List.mem_cons_self
  rw [Report.Right, hret.2, hret.1] at hr
  exact absurd (show (15999999 : ℤ) = -1 from hr) (by decide)

end PrioPlus.NetShare

import PrioPlus.Lib.Dual
import PrioPlus.Server.IntSum
import PrioPlus.Server.LinReg
import PrioPlus.Server.MaxOp
import PrioPlus.Server.Sketch
import PrioPlus.Server.Freq
import PrioPlus.Server.BitSum

/-!
# The kinds of messages

A message on the link has a kind: its type, and for an array the number of its elements. Every receive of the servers
asks for one kind, so that each of their programs is `Typed`, phase by phase.
-/

namespace PrioPlus

open Lib.TwoParty

/-- The type of a message, with the number of elements of an array. -/
inductive Kind where
  | size
  | uint64
  | uint64Batch (n : ℕ)
  | pk
  | bool
  | boolBatch (n : ℕ)
  | fmpz
  | fmpzBatch (n : ℕ)
  | corShareBatch (n : ℕ)
  | daBitBatch (n : ℕ)
  | ot (n : ℕ)
deriving DecidableEq

def Msg.kind : Msg → Kind
  | .size _ => .size
  | .uint64 _ => .uint64
  | .uint64Batch xs => .uint64Batch xs.length
  | .pk _ => .pk
  | .bool _ => .bool
  | .boolBatch bs => .boolBatch bs.length
  | .fmpz _ => .fmpz
  | .fmpzBatch xs => .fmpzBatch xs.length
  | .corShareBatch xs => .corShareBatch xs.length
  | .daBitBatch xs => .daBitBatch xs.length
  | .ot pairs => .ot pairs.length

/-! ### Single messages -/

theorem typed_sendMsg (m : Msg) : Typed Msg.kind (sendMsg m) := Typed.send m (Typed.ret ())

theorem typed_recvAs {α : Type} {read : Msg → Option α} (k : Kind) (hread : ∀ m a, read m = some a → m.kind = k) :
    Typed Msg.kind (recvAs read) := by
  refine Typed.recv k (fun m hm => ?_) fun m => ?_
  · cases hmsg : read m with
    | none => exact absurd (by rw [hmsg]) hm
    | some a => exact hread m a hmsg
  · cases read m with
    | none => exact Typed.stuck
    | some a => exact Typed.ret a

theorem length_eq_of_read {α β : Type} {xs : List α} {n : ℕ} {b a : β}
    (h : (if xs.length = n then some b else none) = some a) : xs.length = n := by
  by_contra hne
  rw [if_neg hne] at h
  cases h

theorem typed_recvSize : Typed Msg.kind recvSize := by
  refine typed_recvAs .size fun m a h => ?_
  cases m with
  | size n => rfl
  | _ => cases h

theorem typed_recvUint64 : Typed Msg.kind recvUint64 := by
  refine typed_recvAs .uint64 fun m a h => ?_
  cases m with
  | uint64 x => rfl
  | _ => cases h

theorem typed_recvUint64Batch (n : ℕ) : Typed Msg.kind (recvUint64Batch n) := by
  refine typed_recvAs (.uint64Batch n) fun m a h => ?_
  cases m with
  | uint64Batch xs => exact congrArg Kind.uint64Batch (length_eq_of_read h)
  | _ => cases h

theorem typed_getPk : Typed Msg.kind getPk := by
  refine typed_recvAs .pk fun m a h => ?_
  cases m with
  | pk pk => rfl
  | _ => cases h

theorem typed_recvBool : Typed Msg.kind recvBool := by
  refine typed_recvAs .bool fun m a h => ?_
  cases m with
  | bool b => rfl
  | _ => cases h

theorem typed_recvFmpz : Typed Msg.kind recvFmpz := by
  refine typed_recvAs .fmpz fun m a h => ?_
  cases m with
  | fmpz x => rfl
  | _ => cases h

theorem typed_recvBoolBatch (n : ℕ) : Typed Msg.kind (recvBoolBatch n) := by
  refine typed_recvAs (.boolBatch n) fun m a h => ?_
  cases m with
  | boolBatch bs => exact congrArg Kind.boolBatch (length_eq_of_read h)
  | _ => cases h

theorem typed_recvFmpzBatch (n : ℕ) : Typed Msg.kind (recvFmpzBatch n) := by
  refine typed_recvAs (.fmpzBatch n) fun m a h => ?_
  cases m with
  | fmpzBatch xs => exact congrArg Kind.fmpzBatch (length_eq_of_read h)
  | _ => cases h

theorem typed_recvCorShareBatch (n : ℕ) : Typed Msg.kind (recvCorShareBatch n) := by
  refine typed_recvAs (.corShareBatch n) fun m a h => ?_
  cases m with
  | corShareBatch xs => exact congrArg Kind.corShareBatch (length_eq_of_read h)
  | _ => cases h

theorem typed_otRecv (bs : List Bool) : Typed Msg.kind (otRecv bs) := by
  refine typed_recvAs (.ot bs.length) fun m a h => ?_
  cases m with
  | ot pairs => exact congrArg Kind.ot (length_eq_of_read h)
  | _ => cases h

/-! ### Loops -/

theorem typed_loopTo (n : ℕ) : Typed Msg.kind (loopTo n) := by
  unfold loopTo
  split_ifs
  · exact Typed.ret ()
  · exact Typed.loop

theorem typed_recvInputs (totalInputs size : ℕ) : Typed Msg.kind (recvInputs totalInputs size) := by
  unfold recvInputs
  split_ifs
  · exact Typed.ret ()
  · exact typed_loopTo size

theorem typed_checkLoops (numInputs : ℕ) (rows : List (ℕ × ℕ)) : Typed Msg.kind (checkLoops numInputs rows) := by
  unfold checkLoops
  split_ifs
  · exact Typed.ret ()
  · exact Typed.loop

theorem typed_sendPks (pks : List Pk) : Typed Msg.kind (sendPks pks) := by
  induction pks with
  | nil => exact Typed.ret ()
  | cons pk pks ih => exact (typed_sendMsg _).bind fun _ => ih

theorem typed_recvPks (n : ℕ) : Typed Msg.kind (recvPks n) := by
  induction n with
  | zero => exact Typed.ret []
  | succ n ih => exact typed_getPk.bind fun pk => ih.bind fun pks => Typed.ret _

theorem typed_sendFmpzs (xs : List ℤ) : Typed Msg.kind (sendFmpzs xs) := by
  induction xs with
  | nil => exact Typed.ret ()
  | cons x xs ih => exact (typed_sendMsg _).bind fun _ => ih

theorem typed_recvFmpzs (n : ℕ) : Typed Msg.kind (recvFmpzs n) := by
  induction n with
  | zero => exact Typed.ret []
  | succ n ih => exact typed_recvFmpz.bind fun x => ih.bind fun xs => Typed.ret _

theorem typed_addMatched {V W : Type} {step : W → V → Server W} (hstep : ∀ acc v, Typed Msg.kind (step acc v))
    (m : ShareMap V) (acc : W) (pks : List Pk) (valid : List Bool) :
    Typed Msg.kind (addMatched step m acc pks valid) := by
  unfold addMatched
  generalize pks.zip valid = flagged
  induction flagged generalizing acc with
  | nil => exact Typed.ret acc
  | cons x flagged ih =>
    rw [List.foldlM_cons]
    refine Typed.bind ?_ ih
    split_ifs
    · cases m.lookup x.1 with
      | none => exact Typed.ret acc
      | some v => exact hstep acc v
    · exact Typed.ret acc

/-! ### Share conversion and checks -/

theorem typed_b2aDaBitSingle (serverNum : ℕ) (dabits : ℕ → DaBit) (x : List Bool) :
    Typed Msg.kind (b2aDaBitSingle serverNum dabits x) := by
  refine (typed_loopTo _).bind fun _ => ?_
  exact (typed_sendMsg _).bind fun _ => (typed_recvBoolBatch _).bind fun _ => Typed.ret _

theorem typed_shareConvert (prg : ℕ → UInt64) (serverNum numShares numValues : ℕ) (numBits : ℕ → ℕ)
    (shares2 : List UInt64) : Typed Msg.kind (shareConvert prg serverNum numShares numValues numBits shares2) := by
  refine (typed_loopTo _).bind fun _ => ?_
  unfold b2aOt
  refine (typed_loopTo _).bind fun _ => ?_
  refine (typed_loopTo _).bind fun _ => ?_
  split_ifs
  · refine (typed_loopTo _).bind fun _ => ?_
    exact (typed_sendMsg _).bind fun _ => (typed_loopTo _).bind fun _ => Typed.ret _
  · refine (typed_otRecv _).bind fun _ => ?_
    exact (typed_loopTo _).bind fun _ => (typed_loopTo _).bind fun _ => Typed.ret _

theorem typed_validateSnips (sync : SnipSync) (c : Circuit) (serverNum numInputs : ℕ) (packets : List ClientPacket)
    (sharesP : List ℤ) : Typed Msg.kind (validateSnips sync c serverNum numInputs packets sharesP) := by
  unfold validateSnips
  simp only
  split_ifs
  · exact Typed.stuck
  · refine (typed_sendMsg _).bind fun _ => ?_
    refine (typed_recvCorShareBatch _).bind fun _ => ?_
    refine (typed_sendMsg _).bind fun _ => ?_
    exact (typed_recvFmpzBatch _).bind fun _ => Typed.ret _

theorem typed_sendFreqShares {size : ℕ} (it : Iteration (Vector Bool size)) (m : ShareMap (Vector Bool size)) :
    Typed Msg.kind (sendFreqShares it m) :=
  (typed_sendMsg _).bind fun _ => (typed_sendPks _).bind fun _ => Typed.ret _

theorem typed_recvFreqShares {size : ℕ} (m : ShareMap (Vector Bool size)) : Typed Msg.kind (recvFreqShares m) :=
  typed_recvSize.bind fun _ => (typed_recvPks _).bind fun _ => Typed.ret _

theorem typed_sendSingleCheck (buffer : List Bool) (sums : List ℤ) : Typed Msg.kind (sendSingleCheck buffer sums) := by
  refine (typed_sendMsg _).bind fun _ => ?_
  refine (typed_sendMsg _).bind fun _ => ?_
  exact (typed_recvBoolBatch _).bind fun _ => Typed.ret _

theorem typed_recvSingleCheck (valid parity : List Bool) (sums : List ℤ) :
    Typed Msg.kind (recvSingleCheck valid parity sums) := by
  refine (typed_recvBoolBatch _).bind fun _ => ?_
  refine (typed_recvFmpzBatch _).bind fun _ => ?_
  exact (typed_sendMsg _).bind fun _ => Typed.ret _

theorem typed_recvAccumulated (totalInputs numInputs numValues : ℕ) (sharesP : List ℤ) (valid : List Bool) :
    Typed Msg.kind (recvAccumulated totalInputs numInputs numValues sharesP valid) := by
  refine (typed_loopTo _).bind fun _ => ?_
  refine (typed_recvFmpzBatch _).bind fun _ => ?_
  split_ifs
  · exact Typed.ret _
  · exact Typed.ret _

theorem typed_sendAccumulated (numInputs numValues : ℕ) (sharesP : List ℤ) (valid : List Bool) :
    Typed Msg.kind (sendAccumulated numInputs numValues sharesP valid) :=
  (typed_loopTo _).bind fun _ => typed_sendMsg _

/-! ### Operations -/

theorem typed_bitSum (it : Iteration Bool) (prg : ℕ → UInt64) (msg : InitMsg) (serverNum : ℕ)
    (submissions : Vector BitShare msg.numOfInputs.toNat) :
    Typed Msg.kind (bitSum it prg msg serverNum submissions) := by
  unfold bitSum
  simp only
  split_ifs
  · refine (typed_sendMsg _).bind fun _ => ?_
    refine (typed_sendPks _).bind fun _ => ?_
    refine (typed_otRecv _).bind fun _ => ?_
    exact (typed_sendMsg _).bind fun _ => Typed.ret _
  · refine typed_recvSize.bind fun _ => ?_
    refine (typed_recvPks _).bind fun _ => ?_
    refine (typed_sendMsg _).bind fun _ => ?_
    refine typed_recvUint64.bind fun _ => ?_
    split_ifs
    · exact Typed.ret _
    · exact Typed.ret _

theorem typed_intSum (it : Iteration UInt64) (prg heap : ℕ → UInt64) (msg : InitMsg) (serverNum : ℕ)
    (submissions : Vector IntShare msg.numOfInputs.toNat) :
    Typed Msg.kind (intSum it prg heap msg serverNum submissions) := by
  unfold intSum
  simp only
  split_ifs
  · exact Typed.stuck
  · refine (typed_sendMsg _).bind fun _ => ?_
    refine (typed_sendPks _).bind fun _ => ?_
    refine (typed_shareConvert _ _ _ _ _ _).bind fun _ => ?_
    refine (typed_recvBoolBatch _).bind fun _ => ?_
    exact (typed_sendMsg _).bind fun _ => Typed.ret _
  · refine typed_recvSize.bind fun _ => ?_
    refine (typed_recvPks _).bind fun _ => ?_
    refine (typed_shareConvert _ _ _ _ _ _).bind fun _ => ?_
    refine (typed_sendMsg _).bind fun _ => ?_
    exact typed_recvFmpz.bind fun _ => Typed.ret _

section Matched

variable {V W : Type} {step : W → V → Server W} (hstep : ∀ acc v, Typed Msg.kind (step acc v)) (m : ShareMap V)
  (zero : W)
include hstep

theorem typed_matchedServer1 (it : Iteration V) (msgOf : W → Msg) :
    Typed Msg.kind (matchedServer1 step it m zero msgOf) := by
  refine (typed_sendMsg _).bind fun _ => ?_
  refine (typed_sendPks _).bind fun _ => ?_
  refine (typed_recvBoolBatch _).bind fun _ => ?_
  exact (typed_addMatched hstep _ _ _ _).bind fun _ => typed_sendMsg _

theorem typed_matchedServer0 {recvWord : Server W} (hword : Typed Msg.kind recvWord) :
    Typed Msg.kind (matchedServer0 step m zero recvWord) := by
  refine typed_recvSize.bind fun _ => ?_
  refine (typed_recvPks _).bind fun _ => ?_
  refine (typed_addMatched hstep _ _ _ _).bind fun _ => ?_
  refine (typed_sendMsg _).bind fun _ => ?_
  exact hword.bind fun _ => Typed.ret _

end Matched

theorem typed_xorOp (it : Iteration UInt64) (type : MessageType) (msg : InitMsg) (serverNum : ℕ)
    (submissions : Vector IntShare msg.numOfInputs.toNat) :
    Typed Msg.kind (xorOp it type msg serverNum submissions) := by
  have hstep : ∀ acc v : UInt64, Typed Msg.kind (pure (acc ^^^ v) : Server UInt64) := fun _ _ => Typed.ret _
  unfold xorOp
  simp only
  split_ifs
  · exact (typed_matchedServer1 hstep _ _ _ _).bind fun _ => Typed.ret _
  · refine (typed_matchedServer0 hstep _ _ typed_recvUint64).bind fun x => ?_
    split_ifs
    · exact Typed.ret _
    · cases xorAnswer type (x.2.1 ^^^ x.2.2) with
      | none => exact Typed.stuck
      | some ans => exact Typed.ret _

theorem typed_maxScan (B : UInt32) (type : MessageType) (totalInputs numValid : ℕ) (a b : List UInt64) :
    Typed Msg.kind (maxScan B type totalInputs numValid a b) := by
  unfold maxScan
  split_ifs
  · exact Typed.ret _
  · split
    · exact Typed.ret _
    · exact Typed.stuck

theorem typed_addSliceLoop (B : UInt32) (shares : ℕ → UInt64) (a : List UInt64) (start : ℕ) :
    Typed Msg.kind (addSliceLoop B shares a start) := by
  unfold addSliceLoop
  split_ifs
  · exact Typed.loop
  · exact Typed.ret _

theorem typed_maxOp (it : Iteration ℕ) (uninit : ℕ → UInt64) (type : MessageType) (msg : InitMsg) (serverNum : ℕ)
    (submissions : Vector (MaxShare msg.maxInp) msg.numOfInputs.toNat) :
    Typed Msg.kind (maxOp it uninit type msg serverNum submissions) := by
  unfold maxOp
  simp only
  split_ifs
  · exact (typed_matchedServer1 (typed_addSliceLoop _ _) _ _ _ _).bind fun _ => Typed.ret _
  · refine (typed_matchedServer0 (typed_addSliceLoop _ _) _ _ (typed_recvUint64Batch _)).bind fun x => ?_
    exact typed_maxScan _ _ _ _ _ _

section Snip

variable {S : Type} (op : SnipOp S) (sync : SnipSync) (prg : ℕ → UInt64) (shareMap : ShareMap S)

theorem SnipOp.typed_server1 (it : Iteration S) : Typed Msg.kind (op.server1 sync it prg shareMap) := by
  refine (typed_sendMsg _).bind fun _ => ?_
  refine (typed_sendPks _).bind fun _ => ?_
  refine (typed_shareConvert _ _ _ _ _ _).bind fun _ => ?_
  refine (typed_validateSnips _ _ _ _ _ _).bind fun _ => ?_
  refine (typed_recvBoolBatch _).bind fun _ => ?_
  exact (typed_sendFmpzs _).bind fun _ => Typed.ret _

theorem SnipOp.typed_server0 : Typed Msg.kind (op.server0 sync prg shareMap) := by
  refine typed_recvSize.bind fun _ => ?_
  refine (typed_recvPks _).bind fun _ => ?_
  refine (typed_shareConvert _ _ _ _ _ _).bind fun _ => ?_
  refine (typed_validateSnips _ _ _ _ _ _).bind fun _ => ?_
  refine (typed_sendMsg _).bind fun _ => ?_
  exact (typed_recvFmpzs _).bind fun _ => Typed.ret _

end Snip

theorem typed_varOp (sync : SnipSync) (it : Iteration VarSubmission) (prg : ℕ → UInt64) (msg : InitMsg)
    (serverNum : ℕ) (submissions : Vector VarSubmission msg.numOfInputs.toNat) :
    Typed Msg.kind (varOp sync it prg msg serverNum submissions) := by
  unfold varOp
  simp only
  split_ifs
  · exact (SnipOp.typed_server1 _ _ _ _ _).bind fun _ => Typed.ret _
  · exact (SnipOp.typed_server0 _ _ _ _).bind fun _ => Typed.ret _

theorem typed_linregOp {degree : ℕ} (inv : FmpqMatInv degree) (sync : SnipSync)
    (it : Iteration (LinRegSubmission degree)) (prg : ℕ → UInt64) (fresh : ℕ → ℕ → UInt64) (msg : InitMsg)
    (serverNum : ℕ) (submissions : Vector (LinRegSubmission degree) msg.numOfInputs.toNat) :
    Typed Msg.kind (linregOp inv sync it prg fresh msg serverNum submissions) := by
  unfold linregOp
  simp only
  split_ifs
  · exact Typed.stuck
  · exact (SnipOp.typed_server1 _ _ _ _ _).bind fun _ => Typed.ret _
  · exact (SnipOp.typed_server0 _ _ _ _).bind fun _ => Typed.ret _

theorem typed_freqOp (msg : InitMsg) (it : Iteration (Vector Bool (maxInp msg))) (dabits : ℕ → DaBit)
    (uninit : ℕ → Bool) (serverNum : ℕ) (submissions : Vector (FreqShare (maxInp msg)) msg.numOfInputs.toNat) :
    Typed Msg.kind (freqOp msg it dabits uninit serverNum submissions) := by
  unfold freqOp
  simp only
  split_ifs
  · refine (typed_recvInputs _ _).bind fun _ => ?_
    refine (typed_sendFreqShares _ _).bind fun _ => ?_
    refine (typed_b2aDaBitSingle _ _ _).bind fun _ => ?_
    refine (typed_sendMsg _).bind fun _ => ?_
    refine (typed_sendMsg _).bind fun _ => ?_
    refine typed_recvBool.bind fun allValid => ?_
    refine Typed.bind ?_ fun _ => (typed_sendAccumulated _ _ _ _).bind fun _ => Typed.ret _
    split_ifs
    · exact Typed.ret _
    · exact typed_sendSingleCheck _ _
  · refine (typed_recvInputs _ _).bind fun _ => ?_
    refine (typed_recvFreqShares _).bind fun _ => ?_
    refine (typed_b2aDaBitSingle _ _ _).bind fun _ => ?_
    refine typed_recvBool.bind fun _ => ?_
    refine typed_recvFmpz.bind fun _ => ?_
    refine (typed_sendMsg _).bind fun _ => ?_
    refine Typed.bind ?_ fun _ => (typed_recvAccumulated _ _ _ _ _).bind fun _ => Typed.ret _
    split_ifs
    · exact Typed.ret _
    · exact typed_recvSingleCheck _ _ _

theorem typed_sketchOp {size : ℕ} (rows : List (ℕ × ℕ))
    (verdict : List Bool → List Bool → List ℤ → List ℤ → Bool) (query : ℕ → List ℤ → List UInt64)
    (it : Iteration (Vector Bool size)) (dabits : ℕ → DaBit) (totalInputs serverNum : ℕ)
    (submissions : List (FreqShare size)) :
    Typed Msg.kind (sketchOp rows verdict query it dabits totalInputs serverNum submissions) := by
  unfold sketchOp
  simp only
  split_ifs
  · refine (typed_recvInputs _ _).bind fun _ => ?_
    refine (typed_sendFreqShares _ _).bind fun _ => ?_
    refine (typed_b2aDaBitSingle _ _ _).bind fun _ => ?_
    refine (typed_checkLoops _ _).bind fun _ => ?_
    refine (typed_sendMsg _).bind fun _ => ?_
    refine (typed_sendMsg _).bind fun _ => ?_
    refine typed_recvBool.bind fun _ => ?_
    exact (typed_sendAccumulated _ _ _ _).bind fun _ => Typed.ret _
  · refine (typed_recvInputs _ _).bind fun _ => ?_
    refine (typed_recvFreqShares _).bind fun _ => ?_
    refine (typed_b2aDaBitSingle _ _ _).bind fun _ => ?_
    refine (typed_checkLoops _ _).bind fun _ => ?_
    refine (typed_recvBoolBatch _).bind fun _ => ?_
    refine (typed_recvFmpzBatch _).bind fun _ => ?_
    refine (typed_sendMsg _).bind fun _ => ?_
    exact (typed_recvAccumulated _ _ _ _ _).bind fun _ => Typed.ret _

end PrioPlus

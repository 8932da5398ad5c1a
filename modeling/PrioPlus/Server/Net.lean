import PrioPlus.Lib.TwoParty
import PrioPlus.Ot
import PrioPlus.Share

/-!
# The link between the servers

The messages of `net_share.cpp` that the operations use, and the oblivious transfer of `OT_Wrapper`, taken as ideal:
the sender's pairs go over and the receiver keeps of each the entry that its bit chooses. Received arrays must have
the length that the receiver asks for. A send does not wait, so the child process that the source forks for some of
its sends makes no difference here.
-/

namespace PrioPlus

open Lib.TwoParty

/-- A public key of `PK_LENGTH` bytes, the tag of a submission. -/
abbrev Pk := Vector UInt8 32

/-- What the servers send to each other. -/
inductive Msg where
  | size (n : ℕ)
  | uint64 (x : UInt64)
  | uint64Batch (xs : List UInt64)
  | pk (pk : Pk)
  | bool (b : Bool)
  | boolBatch (bs : List Bool)
  | fmpz (x : ℤ)
  | fmpzBatch (xs : List ℤ)
  | corShareBatch (xs : List CorShare)
  | daBitBatch (xs : List DaBit)
  | ot (pairs : List (UInt64 × UInt64))

/-- A server's program. -/
abbrev Server (α : Type) := Proc Msg α

def sendMsg (m : Msg) : Server Unit := .send m (.ret ())

/-- A loop of an `unsigned int` up to a bound of 64 bits, for its end only. -/
def loopTo (n : ℕ) : Server Unit := if n < 2 ^ 32 then .ret () else .loop

/-- Receive a message and read it, or be stuck. -/
def recvAs {α : Type} (read : Msg → Option α) : Server α := .recv fun m =>
  match read m with
  | some a => .ret a
  | none => .stuck

def recvSize : Server ℕ := recvAs fun
  | .size n => some n
  | _ => none

def recvUint64 : Server UInt64 := recvAs fun
  | .uint64 x => some x
  | _ => none

def recvUint64Batch (n : ℕ) : Server (List UInt64) := recvAs fun
  | .uint64Batch xs => if xs.length = n then some xs else none
  | _ => none

def getPk : Server Pk := recvAs fun
  | .pk pk => some pk
  | _ => none

def recvBool : Server Bool := recvAs fun
  | .bool b => some b
  | _ => none

def recvFmpz : Server ℤ := recvAs fun
  | .fmpz x => some x
  | _ => none

def recvBoolBatch (n : ℕ) : Server (List Bool) := recvAs fun
  | .boolBatch bs => if bs.length = n then some bs else none
  | _ => none

def recvFmpzBatch (n : ℕ) : Server (List ℤ) := recvAs fun
  | .fmpzBatch xs => if xs.length = n then some xs else none
  | _ => none

def recvCorShareBatch (n : ℕ) : Server (List CorShare) := recvAs fun
  | .corShareBatch xs => if xs.length = n then some xs else none
  | _ => none

def recvDaBitBatch (n : ℕ) : Server (List DaBit) := recvAs fun
  | .daBitBatch xs => if xs.length = n then some xs else none
  | _ => none

/-- `OT_Wrapper::recv`. -/
def otRecv (bs : List Bool) : Server (List UInt64) := recvAs fun
  | .ot pairs => if pairs.length = bs.length then some (List.zipWith otChoose pairs bs) else none
  | _ => none

/-- Server 1 sends the keys of its submissions one by one. -/
def sendPks : List Pk → Server Unit
  | [] => .ret ()
  | pk :: pks => do
    sendMsg (.pk pk)
    sendPks pks

/-- The keys that server 0 gets, in the order of the loop over `num_inputs`. -/
def recvPks : ℕ → Server (List Pk)
  | 0 => .ret []
  | n + 1 => do
    let pk ← getPk
    let pks ← recvPks n
    return pk :: pks

/-- Values one by one, as single messages. A batch of them is the same on the wire. -/
def sendFmpzs : List ℤ → Server Unit
  | [] => .ret ()
  | x :: xs => do
    sendMsg (.fmpz x)
    sendFmpzs xs

/-- `n` values, one by one. -/
def recvFmpzs : ℕ → Server (List ℤ)
  | 0 => .ret []
  | n + 1 => do
    let x ← recvFmpz
    let xs ← recvFmpzs n
    return x :: xs

/-! ### Counters -/

theorem loopTo_of_lt {n : ℕ} (h : n < 2 ^ 32) : loopTo n = .ret () := if_pos h

theorem loopTo_of_not_lt {n : ℕ} (h : ¬ n < 2 ^ 32) : loopTo n = .loop := if_neg h

theorem reaches_loopTo {m n : ℕ} (hm : m < 2 ^ 32) (hn : n < 2 ^ 32) :
    Reaches (.start (loopTo m) (loopTo n)) (.done () ()) := by
  rw [loopTo_of_lt hm, loopTo_of_lt hn]
  exact Reaches.refl _

theorem hangs_loopTo {m n : ℕ} (hm : ¬ m < 2 ^ 32) (hn : ¬ n < 2 ^ 32) : Hangs (loopTo m) (loopTo n) := by
  rw [loopTo_of_not_lt hm, loopTo_of_not_lt hn]
  exact hangs_loop

/-! ### The phases -/

section Phases

variable {α β : Type} {read : Msg → Option α} {read' : Msg → Option β} {m m' : Msg} {a : α} {b : β}

theorem recvAs_eq (h : read m = some a) :
    (match read m with | some a => .ret a | none => .stuck : Server α) = .ret a := by
  rw [h]

theorem reaches_recvAs_sent (h : read m = some a) (q : Server β) :
    Reaches ⟨recvAs read, q, [m], []⟩ ⟨.ret a, q, [], []⟩ := by
  have hstep := Step.recv0 m (fun m => match read m with | some a => .ret a | none => .stuck) q [] []
  rw [recvAs_eq h] at hstep
  exact hstep.reaches

theorem reaches_recvAs10 (h : read m = some a) : Reaches (.start (recvAs read) (sendMsg m)) (.done a ()) :=
  (Step.send1 m _ (.ret ()) [] []).reaches.trans (reaches_recvAs_sent h (.ret ()))

theorem reaches_recvAs01 (h : read m = some a) : Reaches (.start (sendMsg m) (recvAs read)) (.done () a) := by
  have hmsg := Reaches.msg01 m (.ret ()) (fun m => match read m with | some a => .ret a | none => .stuck)
  rw [recvAs_eq h] at hmsg
  exact hmsg

theorem reaches_exchange {α' β' : Type} {f : α → Server α'} {g : β → Server β'} (h : read m' = some a)
    (h' : read' m = some b) :
    Reaches (.start (sendMsg m >>= fun _ => recvAs read >>= f) (sendMsg m' >>= fun _ => recvAs read' >>= g))
      (.start (f a) (g b)) := by
  have hmsg := Reaches.exchange m m' (fun m => match read m with | some a => .ret a | none => .stuck)
    (fun m => match read' m with | some b => .ret b | none => .stuck)
  rw [recvAs_eq h, recvAs_eq h'] at hmsg
  exact hmsg.bind_of f g

theorem reaches_exchange_two {α' β' : Type} {read₂ : Msg → Option α'} {read₂' : Msg → Option β'} {n n' : Msg} {a₂ : α'}
    {b₂ : β'} {γ δ : Type} {f : α → α' → Server γ} {g : β → β' → Server δ} (h : read m' = some a)
    (h₂ : read₂ n' = some a₂) (h' : read' m = some b) (h₂' : read₂' n = some b₂) :
    Reaches
      (.start (sendMsg m >>= fun _ => sendMsg n >>= fun _ => recvAs read >>= fun a => recvAs read₂ >>= f a)
        (sendMsg m' >>= fun _ => sendMsg n' >>= fun _ => recvAs read' >>= fun b => recvAs read₂' >>= g b))
      (.start (f a a₂) (g b b₂)) := by
  have hmsgs := Reaches.exchange_two m n m' n'
    (fun m => (match read m with | some a => .ret a | none => .stuck : Server α) >>= fun a => recvAs read₂ >>= f a)
    (fun m => (match read₂ m with | some a => .ret a | none => .stuck : Server α') >>= f a)
    (fun m => (match read' m with | some b => .ret b | none => .stuck : Server β) >>= fun b => recvAs read₂' >>= g b)
    (fun m => (match read₂' m with | some b => .ret b | none => .stuck : Server β') >>= g b)
    (by rw [recvAs_eq h]; rfl) (by rw [recvAs_eq h']; rfl)
  rw [recvAs_eq h₂, recvAs_eq h₂'] at hmsgs
  exact hmsgs

end Phases

theorem reaches_ot01 (pairs : List (UInt64 × UInt64)) (bs : List Bool) (hlen : pairs.length = bs.length) :
    Reaches (.start (sendMsg (.ot pairs)) (otRecv bs)) (.done () (List.zipWith otChoose pairs bs)) :=
  reaches_recvAs01 (if_pos hlen)

theorem reaches_ot10 (pairs : List (UInt64 × UInt64)) (bs : List Bool) (hlen : pairs.length = bs.length) :
    Reaches (.start (otRecv bs) (sendMsg (.ot pairs))) (.done (List.zipWith otChoose pairs bs) ()) :=
  reaches_recvAs10 (if_pos hlen)

theorem reaches_pks10 (pks : List Pk) : Reaches (.start (recvPks pks.length) (sendPks pks)) (.done pks ()) := by
  induction pks with
  | nil => exact Reaches.refl _
  | cons pk pks ih =>
    refine Reaches.bind (reaches_recvAs10 rfl) ?_
    exact ih.map0 (pk :: ·)

theorem reaches_fmpzs10 (xs : List ℤ) : Reaches (.start (recvFmpzs xs.length) (sendFmpzs xs)) (.done xs ()) := by
  induction xs with
  | nil => exact Reaches.refl _
  | cons x xs ih =>
    refine Reaches.bind (reaches_recvAs10 rfl) ?_
    exact ih.map0 (x :: ·)

end PrioPlus

import PrioPlus.Lib.Rounds

/-!
# Messages on a wire

A `Codec` writes a message as a list of symbols. For a kind of message it says how many symbols a reader takes and how
it decodes them. `Codec.onWire` is a process that talks in symbols: a send puts them on the channel one by one, and a
receive takes those of the kind that it asks for and goes on with the message that they make.

A run of two processes over messages is one over symbols too, whatever the order of the single symbols
(`Terminates.onWire`), when the messages that one side writes are restored by the other. Which ones it writes may depend
on those that it reads, so this is a contract of each process (`Ensures`).
-/

namespace PrioPlus.Lib.TwoParty

open Proc Config

variable {M K W α β : Type}

/-! ### Contracts -/

/-- As long as what comes in satisfies `In`, what goes out satisfies `Out`, and the result satisfies `Post`. -/
inductive Ensures (In Out : M → Prop) (Post : α → Prop) : Proc M α → Prop where
  | ret {a : α} (h : Post a) : Ensures In Out Post (ret a)
  | send {m : M} {next : Proc M α} (hm : Out m) (h : Ensures In Out Post next) : Ensures In Out Post (send m next)
  | recv {next : M → Proc M α} (h : ∀ m, In m → Ensures In Out Post (next m)) : Ensures In Out Post (recv next)
  | stuck : Ensures In Out Post stuck
  | loop : Ensures In Out Post loop

namespace Ensures

variable {In Out : M → Prop} {Post : α → Prop} {Post' : β → Prop}

theorem bind {p : Proc M α} {f : α → Proc M β} (hp : Ensures In Out Post p)
    (hf : ∀ a, Post a → Ensures In Out Post' (f a)) : Ensures In Out Post' (p >>= f) := by
  induction hp with
  | ret h => exact hf _ h
  | send hm _ ih => exact Ensures.send hm ih
  | recv _ ih => exact Ensures.recv ih
  | stuck => exact Ensures.stuck
  | loop => exact Ensures.loop

theorem sent {m : M} {next : Proc M α} (h : Ensures In Out Post (.send m next)) : Out m := by
  cases h with
  | send hm _ => exact hm

theorem after {m : M} {next : Proc M α} (h : Ensures In Out Post (.send m next)) : Ensures In Out Post next := by
  cases h with
  | send _ h => exact h

theorem next {next : M → Proc M α} (h : Ensures In Out Post (.recv next)) {m : M} (hm : In m) :
    Ensures In Out Post (next m) := by
  cases h with
  | recv h => exact h m hm

end Ensures

/-! ### Symbols -/

/-- How messages are written and read. -/
structure Codec (M K W : Type) where
  encode : M → List W
  size : K → ℕ
  decode : K → List W → Option M

/-- What `w` writes for `m` has the size that `r` takes, and `r` makes `m` of it. -/
def Carries (kind : M → K) (w r : Codec M K W) (m : M) : Prop :=
  (w.encode m).length = r.size (kind m) ∧ r.decode (kind m) (w.encode m) = some m

def sendSymbols (ws : List W) (next : Proc W α) : Proc W α := ws.foldr send next

def recvSymbols : ℕ → (List W → Proc W α) → Proc W α
  | 0, next => next []
  | n + 1, next => recv fun w => recvSymbols n fun ws => next (w :: ws)

open Classical in
/-- The kind that a receive asks for, when it goes on after some message. -/
noncomputable def asksFor (kind : M → K) (next : M → Proc M α) : Option K :=
  if h : ∃ m, next m ≠ stuck then some (kind h.choose) else none

theorem Takes.asksFor_eq {kind : M → K} {next : M → Proc M α} {k : K} (h : Takes kind next k) :
    asksFor kind next = some k := by
  have hgo : ∃ m, next m ≠ stuck := h.1.imp fun m hm => hm.2
  rw [asksFor, dif_pos hgo, h.2 _ hgo.choose_spec]

/-- The process in symbols. -/
noncomputable def Codec.onWire (c : Codec M K W) (kind : M → K) : Proc M α → Proc W α
  | ret a => ret a
  | send m next => sendSymbols (c.encode m) (c.onWire kind next)
  | recv next =>
    match asksFor kind next with
    | none => stuck
    | some k => recvSymbols (c.size k) fun ws =>
      match c.decode k ws with
      | none => stuck
      | some m => c.onWire kind (next m)
  | stuck => stuck
  | loop => loop

/-! ### One message -/

theorem reaches_sendSymbols (ws : List W) (p : Proc W α) (q : Proc W β) (to0 to1 : List W) :
    Reaches ⟨sendSymbols ws p, q, to0, to1⟩ ⟨p, q, to0, to1 ++ ws⟩ := by
  induction ws generalizing to1 with
  | nil =>
    rw [List.append_nil]
    exact Reaches.refl _
  | cons w ws ih =>
    have hrest := ih (to1 ++ [w])
    rw [List.append_assoc] at hrest
    exact (Step.send0 w _ q to0 to1).reaches.trans hrest

theorem reaches_recvSymbols (ws : List W) (next : List W → Proc W α) (q : Proc W β) (to0 to1 : List W) :
    Reaches ⟨recvSymbols ws.length next, q, ws ++ to0, to1⟩ ⟨next ws, q, to0, to1⟩ := by
  induction ws generalizing next with
  | nil => exact Reaches.refl _
  | cons w ws ih => exact (Step.recv0 w _ q (ws ++ to0) to1).reaches.trans (ih _)

section OnWire

variable {kind : M → K} {c0 c1 : Codec M K W}

theorem reaches_onWire_recv {next : M → Proc M α} {m : M} (htakes : Takes kind next (kind m))
    (hcarries : Carries kind c1 c0 m) (q : Proc W β) (to0 to1 : List W) :
    Reaches ⟨c0.onWire kind (recv next), q, c1.encode m ++ to0, to1⟩ ⟨c0.onWire kind (next m), q, to0, to1⟩ := by
  have hread := reaches_recvSymbols (c1.encode m)
    (fun ws => match c0.decode (kind m) ws with
      | none => stuck
      | some m => c0.onWire kind (next m)) q to0 to1
  simp only [hcarries.2] at hread
  rw [Codec.onWire, htakes.asksFor_eq]
  simp only [← hcarries.1]
  exact hread

/-! ### Whole runs -/

variable {Out0 Out1 : M → Prop} {Post0 : α → Prop} {Post1 : β → Prop}

/-- Two processes in symbols. -/
noncomputable def Config.onWire (kind : M → K) (c0 c1 : Codec M K W) (x : Config M α β) : Config W α β :=
  ⟨c0.onWire kind x.proc0, c1.onWire kind x.proc1, x.to0.flatMap c1.encode, x.to1.flatMap c0.encode⟩

/-- The programs are typed and keep their contracts, and so does what is in flight. -/
structure Sound (kind : M → K) (Out0 Out1 : M → Prop) (Post0 : α → Prop) (Post1 : β → Prop) (x : Config M α β) :
    Prop where
  typed0 : Typed kind x.proc0
  typed1 : Typed kind x.proc1
  ensures0 : Ensures Out1 Out0 Post0 x.proc0
  ensures1 : Ensures Out0 Out1 Post1 x.proc1
  to0 : ∀ m ∈ x.to0, Out1 m
  to1 : ∀ m ∈ x.to1, Out0 m

theorem Sound.swap {x : Config M α β} (h : Sound kind Out0 Out1 Post0 Post1 x) :
    Sound kind Out1 Out0 Post1 Post0 x.swap :=
  ⟨h.typed1, h.typed0, h.ensures1, h.ensures0, h.to1, h.to0⟩

theorem Sound.send0 {m : M} {next : Proc M α} {q : Proc M β} {to0 to1 : List M}
    (h : Sound kind Out0 Out1 Post0 Post1 ⟨send m next, q, to0, to1⟩) :
    Sound kind Out0 Out1 Post0 Post1 ⟨next, q, to0, to1 ++ [m]⟩ := by
  refine ⟨h.typed0.after, h.typed1, h.ensures0.after, h.ensures1, h.to0, fun m' hm' => ?_⟩
  rcases List.mem_append.mp hm' with hold | hnew
  · exact h.to1 m' hold
  · rw [List.mem_singleton.mp hnew]
    exact h.ensures0.sent

theorem Sound.recv0 {m : M} {next : M → Proc M α} {q : Proc M β} {to0 to1 : List M}
    (h : Sound kind Out0 Out1 Post0 Post1 ⟨recv next, q, m :: to0, to1⟩) :
    Sound kind Out0 Out1 Post0 Post1 ⟨next m, q, to0, to1⟩ :=
  ⟨h.typed0.next m, h.typed1, h.ensures0.next (h.to0 m List.mem_cons_self), h.ensures1,
    fun m' hm' => h.to0 m' (List.mem_cons_of_mem m hm'), h.to1⟩

theorem Sound.step {x y : Config M α β} (h : Sound kind Out0 Out1 Post0 Post1 x) (hstep : Step x y) :
    Sound kind Out0 Out1 Post0 Post1 y := by
  cases hstep with
  | send0 => exact h.send0
  | recv0 => exact h.recv0
  | send1 => exact (Sound.send0 h.swap).swap
  | recv1 => exact (Sound.recv0 h.swap).swap

theorem onWire_send0 (m : M) (next : Proc M α) (q : Proc M β) (to0 to1 : List M) :
    Reaches (Config.onWire kind c0 c1 ⟨send m next, q, to0, to1⟩)
      (Config.onWire kind c0 c1 ⟨next, q, to0, to1 ++ [m]⟩) := by
  have hsend := reaches_sendSymbols (c0.encode m) (c0.onWire kind next) (c1.onWire kind q) (to0.flatMap c1.encode)
    (to1.flatMap c0.encode)
  rw [Config.onWire, Config.onWire, List.flatMap_append, List.flatMap_singleton]
  exact hsend

/-- A step over messages is a run over symbols, unless a process stops on a message that it cannot read. -/
theorem Sound.onWire_step (h01 : ∀ m, Out0 m → Carries kind c0 c1 m) (h10 : ∀ m, Out1 m → Carries kind c1 c0 m)
    {x y : Config M α β} (h : Sound kind Out0 Out1 Post0 Post1 x) (hstep : Step x y) (hy0 : y.proc0 ≠ stuck)
    (hy1 : y.proc1 ≠ stuck) : Reaches (Config.onWire kind c0 c1 x) (Config.onWire kind c0 c1 y) := by
  cases hstep with
  | send0 m next q to0 to1 => exact onWire_send0 m next q to0 to1
  | recv0 m next q to0 to1 =>
    exact reaches_onWire_recv (h.typed0.takes hy0) (h10 m (h.to0 m List.mem_cons_self)) _ _ _
  | send1 m p next to0 to1 => exact (onWire_send0 m next p to1 to0).swap
  | recv1 m p next to0 to1 =>
    exact (reaches_onWire_recv (h.typed1.takes hy1) (h01 m (h.to1 m List.mem_cons_self)) _ _ _).swap

theorem Steps.onWire (h01 : ∀ m, Out0 m → Carries kind c0 c1 m) (h10 : ∀ m, Out1 m → Carries kind c1 c0 m) {n : ℕ}
    {x y : Config M α β} (hrun : Steps n x y) (h : Sound kind Out0 Out1 Post0 Post1 x) (hy0 : y.proc0 ≠ stuck)
    (hy1 : y.proc1 ≠ stuck) : Reaches (Config.onWire kind c0 c1 x) (Config.onWire kind c0 c1 y) := by
  induction hrun with
  | refl => exact Reaches.refl _
  | head hstep hrest ih =>
    have hfirst := h.onWire_step h01 h10 hstep (hrest.proc0_ne_stuck hy0) (hrest.proc1_ne_stuck hy1)
    exact hfirst.trans (ih (h.step hstep) hy0 hy1)

/-- Processes that return over messages return the same over symbols, with nothing left on the wire. -/
theorem Terminates.onWire {p0 : Proc M α} {p1 : Proc M β} {a : α} {b : β} (h : Terminates p0 p1 a b)
    (htyped0 : Typed kind p0) (htyped1 : Typed kind p1) (hensures0 : Ensures Out1 Out0 Post0 p0)
    (hensures1 : Ensures Out0 Out1 Post1 p1) (h01 : ∀ m, Out0 m → Carries kind c0 c1 m)
    (h10 : ∀ m, Out1 m → Carries kind c1 c0 m) : Terminates (c0.onWire kind p0) (c1.onWire kind p1) a b := by
  obtain ⟨n, hn⟩ := h.reaches
  have hsound : Sound kind Out0 Out1 Post0 Post1 (start p0 p1) :=
    ⟨htyped0, htyped1, hensures0, hensures1, List.forall_mem_nil _, List.forall_mem_nil _⟩
  exact Reaches.terminates (hn.onWire h01 h10 hsound (ret_ne_stuck a) (ret_ne_stuck b))

end OnWire

end PrioPlus.Lib.TwoParty

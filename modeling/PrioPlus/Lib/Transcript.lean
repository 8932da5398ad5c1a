import PrioPlus.Lib.TwoParty

/-!
# Transcripts

What two processes say to each other does not depend on the schedule. `Plays p ins outs a` says what one process does on
its own: reading `ins` in order, it sends `outs` and returns `a`. When two processes terminate, there are messages with
which each plays its part (`Terminates.exists_transcript`), and only these (`Transcript.unique`).
-/

namespace PrioPlus.Lib.TwoParty

open Proc Config

variable {M α β α' β' : Type}

/-- On the messages `ins` the process sends `outs` and returns `a`. -/
def Plays : Proc M α → List M → List M → α → Prop
  | ret a', ins, outs, a => ins = [] ∧ outs = [] ∧ a' = a
  | send m next, ins, outs, a => ∃ rest, outs = m :: rest ∧ Plays next ins rest a
  | recv next, ins, outs, a => ∃ m rest, ins = m :: rest ∧ Plays (next m) rest outs a
  | stuck, _, _, _ => False
  | loop, _, _, _ => False

theorem plays_ret (a : α) : Plays (M := M) (ret a) [] [] a := ⟨rfl, rfl, rfl⟩

theorem Plays.send {m : M} {next : Proc M α} {ins outs : List M} {a : α} (h : Plays next ins outs a) :
    Plays (send m next) ins (m :: outs) a := ⟨outs, rfl, h⟩

theorem Plays.recv {m : M} {next : M → Proc M α} {ins outs : List M} {a : α} (h : Plays (next m) ins outs a) :
    Plays (recv next) (m :: ins) outs a := ⟨m, ins, rfl, h⟩

theorem Plays.bind {p : Proc M α} {ins outs ins' outs' : List M} {a : α} {f : α → Proc M β} {b : β}
    (h : Plays p ins outs a) (h' : Plays (f a) ins' outs' b) : Plays (p >>= f) (ins ++ ins') (outs ++ outs') b := by
  induction p generalizing ins outs with
  | ret a' =>
    obtain ⟨rfl, rfl, rfl⟩ := h
    exact h'
  | send m next ih =>
    obtain ⟨rest, rfl, hnext⟩ := h
    exact (ih hnext).send
  | recv next ih =>
    obtain ⟨m, rest, rfl, hnext⟩ := h
    exact (ih m hnext).recv
  | stuck => exact h.elim
  | loop => exact h.elim

theorem Plays.bind_ret {p : Proc M α} {ins outs : List M} {a : α} {f : α → Proc M β} {b : β} (h : Plays p ins outs a)
    (hf : f a = ret b) : Plays (p >>= f) ins outs b := by
  have hret : Plays (f a) [] [] b := by
    rw [hf]
    exact plays_ret b
  have hbind := h.bind hret
  rwa [List.append_nil, List.append_nil] at hbind

/-- The messages decide what the process sends and returns. -/
theorem Plays.unique {p : Proc M α} {ins outs outs' : List M} {a a' : α} (h : Plays p ins outs a)
    (h' : Plays p ins outs' a') : outs = outs' ∧ a = a' := by
  induction p generalizing ins outs outs' with
  | ret a'' =>
    obtain ⟨-, rfl, rfl⟩ := h
    obtain ⟨-, rfl, rfl⟩ := h'
    exact ⟨rfl, rfl⟩
  | send m next ih =>
    obtain ⟨rest, rfl, hnext⟩ := h
    obtain ⟨rest', rfl, hnext'⟩ := h'
    obtain ⟨rfl, rfl⟩ := ih hnext hnext'
    exact ⟨rfl, rfl⟩
  | recv next ih =>
    obtain ⟨m, rest, rfl, hnext⟩ := h
    obtain ⟨m', rest', heq, hnext'⟩ := h'
    obtain ⟨rfl, rfl⟩ := List.cons.inj heq
    exact ih m hnext hnext'
  | stuck => exact h.elim
  | loop => exact h.elim

/-! ### Two processes -/

/-- The processes terminate, and `to0` and `to1` are the messages that they read on the way. -/
structure Transcript (p0 : Proc M α) (p1 : Proc M β) (to0 to1 : List M) (a : α) (b : β) : Prop where
  terminates : Terminates p0 p1 a b
  plays0 : Plays p0 to0 to1 a
  plays1 : Plays p1 to1 to0 b

/-- What is in flight and what will be sent, from one configuration on. -/
def Continues (c : Config M α β) (outs0 outs1 : List M) (a : α) (b : β) : Prop :=
  Plays c.proc0 (c.to0 ++ outs1) outs0 a ∧ Plays c.proc1 (c.to1 ++ outs0) outs1 b

theorem Steps.exists_continues {n : ℕ} {c d : Config M α β} (h : Steps n c d) {a : α} {b : β} (hd : d = done a b) :
    ∃ outs0 outs1, Continues c outs0 outs1 a b := by
  induction h with
  | refl c =>
    subst hd
    exact ⟨[], [], plays_ret a, plays_ret b⟩
  | head hstep _ ih =>
    obtain ⟨outs0, outs1, h0, h1⟩ := ih hd
    cases hstep with
    | send0 m next q to0 to1 =>
      refine ⟨m :: outs0, outs1, h0.send, ?_⟩
      rwa [List.append_assoc] at h1
    | recv0 m next q to0 to1 => exact ⟨outs0, outs1, h0.recv, h1⟩
    | send1 m p next to0 to1 =>
      refine ⟨outs0, m :: outs1, ?_, h1.send⟩
      rwa [List.append_assoc] at h0
    | recv1 m p next to0 to1 => exact ⟨outs0, outs1, h0, h1.recv⟩

/-- Nothing else continues a configuration from which the run ends. -/
theorem Steps.continues_unique {n : ℕ} {c d : Config M α β} (h : Steps n c d) {a a' : α} {b b' : β}
    (hd : d = done a b) {outs0 outs1 outs0' outs1' : List M} (hc : Continues c outs0 outs1 a b)
    (hc' : Continues c outs0' outs1' a' b') : outs0 = outs0' ∧ outs1 = outs1' := by
  induction h generalizing outs0 outs1 outs0' outs1' with
  | refl c =>
    subst hd
    obtain ⟨⟨hin0, hout0, -⟩, hin1, hout1, -⟩ := hc
    obtain ⟨⟨hin0', hout0', -⟩, hin1', hout1', -⟩ := hc'
    exact ⟨hout0.trans hout0'.symm, hout1.trans hout1'.symm⟩
  | head hstep _ ih =>
    obtain ⟨h0, h1⟩ := hc
    obtain ⟨h0', h1'⟩ := hc'
    cases hstep with
    | send0 m next q to0 to1 =>
      obtain ⟨rest, rfl, h0⟩ := h0
      obtain ⟨rest', rfl, h0'⟩ := h0'
      have hnext : Continues ⟨next, q, to0, to1 ++ [m]⟩ rest outs1 a b := ⟨h0, by rwa [List.append_assoc]⟩
      have hnext' : Continues ⟨next, q, to0, to1 ++ [m]⟩ rest' outs1' a' b' := ⟨h0', by rwa [List.append_assoc]⟩
      obtain ⟨rfl, rfl⟩ := ih hd hnext hnext'
      exact ⟨rfl, rfl⟩
    | recv0 m next q to0 to1 =>
      obtain ⟨m', rest, heq, h0⟩ := h0
      obtain ⟨rfl, rfl⟩ := List.cons.inj heq
      obtain ⟨m', rest, heq', h0'⟩ := h0'
      obtain ⟨rfl, rfl⟩ := List.cons.inj heq'
      exact ih hd ⟨h0, h1⟩ ⟨h0', h1'⟩
    | send1 m p next to0 to1 =>
      obtain ⟨rest, rfl, h1⟩ := h1
      obtain ⟨rest', rfl, h1'⟩ := h1'
      have hnext : Continues ⟨p, next, to0 ++ [m], to1⟩ outs0 rest a b := ⟨by rwa [List.append_assoc], h1⟩
      have hnext' : Continues ⟨p, next, to0 ++ [m], to1⟩ outs0' rest' a' b' := ⟨by rwa [List.append_assoc], h1'⟩
      obtain ⟨rfl, rfl⟩ := ih hd hnext hnext'
      exact ⟨rfl, rfl⟩
    | recv1 m p next to0 to1 =>
      obtain ⟨m', rest, heq, h1⟩ := h1
      obtain ⟨rfl, rfl⟩ := List.cons.inj heq
      obtain ⟨m', rest, heq', h1'⟩ := h1'
      obtain ⟨rfl, rfl⟩ := List.cons.inj heq'
      exact ih hd ⟨h0, h1⟩ ⟨h0', h1'⟩

section Transcript

variable {p0 : Proc M α} {p1 : Proc M β} {a : α} {b : β}

theorem Terminates.exists_transcript (h : Terminates p0 p1 a b) : ∃ to0 to1, Transcript p0 p1 to0 to1 a b := by
  obtain ⟨n, hsteps⟩ := h.reaches
  obtain ⟨outs0, outs1, h0, h1⟩ := hsteps.exists_continues rfl
  exact ⟨outs1, outs0, h, h0, h1⟩

theorem Transcript.unique {to0 to1 to0' to1' : List M} {a' : α} {b' : β} (h : Transcript p0 p1 to0 to1 a b)
    (h' : Transcript p0 p1 to0' to1' a' b') : to0 = to0' ∧ to1 = to1' ∧ a = a' ∧ b = b' := by
  obtain ⟨n, hsteps⟩ := h.terminates.reaches
  obtain ⟨hto1, hto0⟩ := hsteps.continues_unique rfl ⟨h.plays0, h.plays1⟩ ⟨h'.plays0, h'.plays1⟩
  exact ⟨hto0, hto1, h.terminates.unique h'.terminates⟩

/-- Messages with which both play their part are the messages of the run. -/
theorem Terminates.transcript (h : Terminates p0 p1 a b) {to0 to1 : List M} {a' : α} {b' : β}
    (h0 : Plays p0 to0 to1 a') (h1 : Plays p1 to1 to0 b') : Transcript p0 p1 to0 to1 a b := by
  obtain ⟨to0', to1', hterm, h0', h1'⟩ := h.exists_transcript
  obtain ⟨n, hsteps⟩ := h.reaches
  obtain ⟨rfl, rfl⟩ := hsteps.continues_unique rfl ⟨h0', h1'⟩ ⟨h0, h1⟩
  exact ⟨h, h0', h1'⟩

end Transcript

end PrioPlus.Lib.TwoParty

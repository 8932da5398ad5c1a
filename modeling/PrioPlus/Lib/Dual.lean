import PrioPlus.Lib.TwoParty

/-!
# Dual scripts

Two processes are `Dual` when what each one writes is what the other one reads: every run of the two ends, with both
over, and then the kinds of the messages that one wrote are the kinds that the other one asked for, in order. What a
receive asks for is the kind of the messages after which it goes on (`Takes`), whatever comes in.

Two processes whose receives all ask for some kind and whose runs return are dual (`Terminates.dual`). When the last
receive decides whether a process returns, it is looked at on its own (`Reaches.dual_last`).
-/

namespace PrioPlus.Lib.TwoParty

open Proc Config

variable {M K α β α' β' : Type}

@[simp] theorem ret_ne_stuck (a : α) : (ret a : Proc M α) ≠ stuck := by
  intro h
  cases h

@[simp] theorem send_ne_stuck (m : M) (next : Proc M α) : send m next ≠ stuck := by
  intro h
  cases h

@[simp] theorem recv_ne_stuck (next : M → Proc M α) : recv next ≠ stuck := by
  intro h
  cases h

@[simp] theorem loop_ne_stuck : (loop : Proc M α) ≠ stuck := by
  intro h
  cases h

/-! ### What a receive asks for -/

/-- The receive goes on after some messages of kind `k`, and after no others. -/
def Takes (kind : M → K) (next : M → Proc M α) (k : K) : Prop :=
  (∃ m, kind m = k ∧ next m ≠ stuck) ∧ ∀ m, next m ≠ stuck → kind m = k

theorem Takes.unique {kind : M → K} {next : M → Proc M α} {k k' : K} (h : Takes kind next k)
    (h' : Takes kind next k') : k = k' := by
  obtain ⟨m, rfl, hm⟩ := h.1
  exact h'.2 m hm

/-- No receive goes on after messages of two kinds. -/
inductive Typed (kind : M → K) : Proc M α → Prop where
  | ret (a : α) : Typed kind (ret a)
  | send (m : M) {next : Proc M α} (h : Typed kind next) : Typed kind (send m next)
  | recv (k : K) {next : M → Proc M α} (hkind : ∀ m, next m ≠ stuck → kind m = k) (h : ∀ m, Typed kind (next m)) :
      Typed kind (recv next)
  | stuck : Typed kind stuck
  | loop : Typed kind loop

theorem Typed.bind {kind : M → K} {p : Proc M α} {f : α → Proc M β} (hp : Typed kind p)
    (hf : ∀ a, Typed kind (f a)) : Typed kind (p >>= f) := by
  induction hp with
  | ret a => exact hf a
  | send m _ ih => exact Typed.send m ih
  | @recv k next hkind _ ih =>
    refine Typed.recv k (fun m hm => hkind m fun hstuck => hm ?_) ih
    show next m >>= f = Proc.stuck
    rw [hstuck]
    rfl
  | stuck => exact Typed.stuck
  | loop => exact Typed.loop

theorem Typed.takes {kind : M → K} {next : M → Proc M α} (h : Typed kind (.recv next)) {m : M}
    (hm : next m ≠ .stuck) : Takes kind next (kind m) := by
  cases h with
  | recv k hkind _ => exact ⟨⟨m, rfl, hm⟩, fun m' hm' => (hkind m' hm').trans (hkind m hm).symm⟩

theorem Typed.next {kind : M → K} {next : M → Proc M α} (h : Typed kind (.recv next)) (m : M) :
    Typed kind (next m) := by
  cases h with
  | recv _ _ h => exact h m

theorem Typed.after {kind : M → K} {m : M} {next : Proc M α} (h : Typed kind (.send m next)) : Typed kind next := by
  cases h with
  | send _ h => exact h

/-! ### Logged runs -/

/-- The kinds that each process has written and asked for. -/
structure Log (K : Type) where
  wrote0 : List K
  read0 : List K
  wrote1 : List K
  read1 : List K

def Log.empty : Log K := ⟨[], [], [], []⟩

/-- Two processes with their log. -/
structure Logged (M K α β : Type) where
  config : Config M α β
  log : Log K

/-- A step, which is logged. A receive that asks for no one kind does not step. -/
inductive LogStep (kind : M → K) : Logged M K α β → Logged M K α β → Prop where
  | send0 (m : M) (next : Proc M α) (q : Proc M β) (to0 to1 : List M) (L : Log K) :
      LogStep kind ⟨⟨send m next, q, to0, to1⟩, L⟩
        ⟨⟨next, q, to0, to1 ++ [m]⟩, { L with wrote0 := L.wrote0 ++ [kind m] }⟩
  | recv0 (m : M) (next : M → Proc M α) (q : Proc M β) (to0 to1 : List M) (L : Log K) {k : K}
      (h : Takes kind next k) :
      LogStep kind ⟨⟨recv next, q, m :: to0, to1⟩, L⟩ ⟨⟨next m, q, to0, to1⟩, { L with read0 := L.read0 ++ [k] }⟩
  | send1 (m : M) (p : Proc M α) (next : Proc M β) (to0 to1 : List M) (L : Log K) :
      LogStep kind ⟨⟨p, send m next, to0, to1⟩, L⟩
        ⟨⟨p, next, to0 ++ [m], to1⟩, { L with wrote1 := L.wrote1 ++ [kind m] }⟩
  | recv1 (m : M) (p : Proc M α) (next : M → Proc M β) (to0 to1 : List M) (L : Log K) {k : K}
      (h : Takes kind next k) :
      LogStep kind ⟨⟨p, recv next, to0, m :: to1⟩, L⟩ ⟨⟨p, next m, to0, to1⟩, { L with read1 := L.read1 ++ [k] }⟩

/-- The process returned or stopped. -/
def Over (p : Proc M α) : Prop := p = stuck ∨ ∃ a, p = ret a

/-- The sequence of kinds that each process writes is the one that the other reads, in every run. -/
def Dual (kind : M → K) (p0 : Proc M α) (p1 : Proc M β) : Prop :=
  ∃ n, ∀ k (x : Logged M K α β), Runs (LogStep kind) k ⟨start p0 p1, .empty⟩ x → k ≤ n ∧
    (Final (LogStep kind) x → Over x.config.proc0 ∧ Over x.config.proc1 ∧
      x.log.wrote0 = x.log.read1 ∧ x.log.wrote1 = x.log.read0)

variable {kind : M → K}

/-- Logged steps commute too, for what a receive asks for is determined. -/
theorem commutes_logStep : Commutes (LogStep kind (α := α) (β := β)) := by
  intro x y z h₁ h₂
  cases h₁ with
  | send0 m next q to0 to1 L =>
    cases h₂ with
    | send0 => exact Or.inl rfl
    | send1 m' _ next' => exact Or.inr ⟨_, LogStep.send1 m' next next' _ _ _, LogStep.send0 m next next' _ _ _⟩
    | recv1 m' _ next' _ to1 _ h => exact Or.inr ⟨_, LogStep.recv1 m' next next' _ _ _ h, LogStep.send0 m next _ _ _ _⟩
  | recv0 m next q to0 to1 L h =>
    cases h₂ with
    | recv0 _ _ _ _ _ _ h' =>
      obtain rfl := h.unique h'
      exact Or.inl rfl
    | send1 m' _ next' => exact Or.inr ⟨_, LogStep.send1 m' _ next' _ _ _, LogStep.recv0 m next next' _ _ _ h⟩
    | recv1 m' _ next' _ to1 _ h' =>
      exact Or.inr ⟨_, LogStep.recv1 m' _ next' _ _ _ h', LogStep.recv0 m next _ _ _ _ h⟩
  | send1 m p next to0 to1 L =>
    cases h₂ with
    | send0 m' next' => exact Or.inr ⟨_, LogStep.send0 m' next' _ _ _ _, LogStep.send1 m _ next _ _ _⟩
    | recv0 m' next' _ to0 _ _ h => exact Or.inr ⟨_, LogStep.recv0 m' next' _ _ _ _ h, LogStep.send1 m _ next _ _ _⟩
    | send1 => exact Or.inl rfl
  | recv1 m p next to0 to1 L h =>
    cases h₂ with
    | send0 m' next' => exact Or.inr ⟨_, LogStep.send0 m' next' _ _ _ _, LogStep.recv1 m _ next _ _ _ h⟩
    | recv0 m' next' _ to0 _ _ h' =>
      exact Or.inr ⟨_, LogStep.recv0 m' next' _ _ _ _ h', LogStep.recv1 m _ next _ _ _ h⟩
    | recv1 _ _ _ _ _ _ h' =>
      obtain rfl := h.unique h'
      exact Or.inl rfl

theorem LogStep.step {x y : Logged M K α β} (h : LogStep kind x y) : Step x.config y.config := by
  cases h with
  | send0 => exact Step.send0 _ _ _ _ _
  | recv0 => exact Step.recv0 _ _ _ _ _
  | send1 => exact Step.send1 _ _ _ _ _
  | recv1 => exact Step.recv1 _ _ _ _ _

theorem final_of_over {c : Config M α β} (h0 : Over c.proc0) (h1 : Over c.proc1) : Final Step c := by
  intro d h
  cases h with
  | send0 => rcases h0 with h | ⟨a, h⟩ <;> cases h
  | recv0 => rcases h0 with h | ⟨a, h⟩ <;> cases h
  | send1 => rcases h1 with h | ⟨a, h⟩ <;> cases h
  | recv1 => rcases h1 with h | ⟨a, h⟩ <;> cases h

/-! ### Logging a run -/

/-- The programs are typed, and what was written has been read or is in flight. -/
structure Balanced (kind : M → K) (x : Logged M K α β) : Prop where
  typed0 : Typed kind x.config.proc0
  typed1 : Typed kind x.config.proc1
  wrote0 : x.log.wrote0 = x.log.read1 ++ x.config.to1.map kind
  wrote1 : x.log.wrote1 = x.log.read0 ++ x.config.to0.map kind

theorem balanced_start {p0 : Proc M α} {p1 : Proc M β} (h0 : Typed kind p0) (h1 : Typed kind p1) :
    Balanced kind ⟨start p0 p1, .empty⟩ :=
  ⟨h0, h1, rfl, rfl⟩

theorem Steps.proc0_eq {p : Proc M α} (hsend : ∀ m next, p ≠ send m next) (hrecv : ∀ next, p ≠ recv next) {n : ℕ}
    {c d : Config M α β} (h : Steps n c d) (hc : c.proc0 = p) : d.proc0 = p := by
  induction h with
  | refl => exact hc
  | head hstep _ ih =>
    cases hstep with
    | send0 m next => exact absurd hc.symm (hsend m next)
    | recv0 m next => exact absurd hc.symm (hrecv next)
    | send1 => exact ih hc
    | recv1 => exact ih hc

theorem Steps.proc1_eq {q : Proc M β} (hsend : ∀ m next, q ≠ send m next) (hrecv : ∀ next, q ≠ recv next) {n : ℕ}
    {c d : Config M α β} (h : Steps n c d) (hc : c.proc1 = q) : d.proc1 = q := by
  induction h with
  | refl => exact hc
  | head hstep _ ih =>
    cases hstep with
    | send0 => exact ih hc
    | recv0 => exact ih hc
    | send1 m _ next => exact absurd hc.symm (hsend m next)
    | recv1 m _ next => exact absurd hc.symm (hrecv next)

theorem Steps.proc0_ne_stuck {n : ℕ} {c d : Config M α β} (h : Steps n c d) (hd : d.proc0 ≠ stuck) :
    c.proc0 ≠ stuck :=
  fun hc => hd (h.proc0_eq (by rintro m next ⟨⟩) (by rintro next ⟨⟩) hc)

theorem Steps.proc1_ne_stuck {n : ℕ} {c d : Config M α β} (h : Steps n c d) (hd : d.proc1 ≠ stuck) :
    c.proc1 ≠ stuck :=
  fun hc => hd (h.proc1_eq (by rintro m next ⟨⟩) (by rintro next ⟨⟩) hc)

/-- A run after which neither process is stuck, with its log. Every message that was read had the kind that the
receive asks for. -/
theorem Steps.logged {n : ℕ} {c d : Config M α β} (h : Steps n c d) (hd0 : d.proc0 ≠ stuck) (hd1 : d.proc1 ≠ stuck)
    {L : Log K} (hL : Balanced kind ⟨c, L⟩) :
    ∃ L', Runs (LogStep kind) n ⟨c, L⟩ ⟨d, L'⟩ ∧ Balanced kind ⟨d, L'⟩ := by
  induction h generalizing L with
  | refl => exact ⟨L, Runs.refl _, hL⟩
  | head hstep hrest ih =>
    obtain ⟨h0, h1, hw0, hw1⟩ := hL
    cases hstep with
    | send0 m next q to0 to1 =>
      simp only at hw0 hw1
      obtain ⟨L', hrun, hbal⟩ := ih hd0 hd1 (L := { L with wrote0 := L.wrote0 ++ [kind m] })
        ⟨h0.after, h1, by simp [hw0], hw1⟩
      exact ⟨L', Runs.head (LogStep.send0 _ _ _ _ _ _) hrun, hbal⟩
    | recv0 m next q to0 to1 =>
      simp only at hw0 hw1
      have htakes := h0.takes (hrest.proc0_ne_stuck hd0)
      obtain ⟨L', hrun, hbal⟩ := ih hd0 hd1 (L := { L with read0 := L.read0 ++ [kind m] })
        ⟨h0.next m, h1, hw0, by simp [hw1]⟩
      exact ⟨L', Runs.head (LogStep.recv0 _ _ _ _ _ _ htakes) hrun, hbal⟩
    | send1 m p next to0 to1 =>
      simp only at hw0 hw1
      obtain ⟨L', hrun, hbal⟩ := ih hd0 hd1 (L := { L with wrote1 := L.wrote1 ++ [kind m] })
        ⟨h0, h1.after, hw0, by simp [hw1]⟩
      exact ⟨L', Runs.head (LogStep.send1 _ _ _ _ _ _) hrun, hbal⟩
    | recv1 m p next to0 to1 =>
      simp only at hw0 hw1
      have htakes := h1.takes (hrest.proc1_ne_stuck hd1)
      obtain ⟨L', hrun, hbal⟩ := ih hd0 hd1 (L := { L with read1 := L.read1 ++ [kind m] })
        ⟨h0, h1.next m, by simp [hw0], hw1⟩
      exact ⟨L', Runs.head (LogStep.recv1 _ _ _ _ _ _ htakes) hrun, hbal⟩

/-! ### Rules -/

/-- One logged run to an end that is balanced decides all runs. -/
theorem dual_of_run {n : ℕ} {p0 p : Proc M α} {p1 q : Proc M β} {L : Log K}
    (hrun : Runs (LogStep kind) n ⟨start p0 p1, .empty⟩ ⟨start p q, L⟩) (hp : Over p) (hq : Over q)
    (hbal : Balanced kind ⟨start p q, L⟩) : Dual kind p0 p1 := by
  have hfinal : Final (LogStep kind) ⟨start p q, L⟩ := fun y hy => final_of_over hp hq _ hy.step
  refine ⟨n, fun k x hx => ⟨(hrun.after commutes_logStep hfinal hx).1, fun hend => ?_⟩⟩
  obtain rfl := hrun.unique commutes_logStep hfinal hx hend
  have hw0 := hbal.wrote0
  have hw1 := hbal.wrote1
  exact ⟨hp, hq, by simpa [start] using hw0, by simpa [start] using hw1⟩

theorem dual_stuck : Dual kind (stuck : Proc M α) (stuck : Proc M β) :=
  dual_of_run (Runs.refl _) (Or.inl rfl) (Or.inl rfl) (balanced_start Typed.stuck Typed.stuck)

theorem Terminates.dual {p0 : Proc M α} {p1 : Proc M β} {a : α} {b : β} (h : Terminates p0 p1 a b)
    (h0 : Typed kind p0) (h1 : Typed kind p1) : Dual kind p0 p1 := by
  obtain ⟨n, hn⟩ := h.reaches
  obtain ⟨L, hrun, hbal⟩ := hn.logged (ret_ne_stuck a) (ret_ne_stuck b) (balanced_start h0 h1)
  exact dual_of_run hrun (Or.inr ⟨a, rfl⟩) (Or.inr ⟨b, rfl⟩) hbal

/-- One process has returned and the other one is over after its last receive, which goes on after some message of the
kind that comes. -/
theorem Reaches.dual_last {p0 : Proc M α} {p1 : Proc M β} {next : M → Proc M α} {m m' : M} {b : β}
    (h : Reaches (start p0 p1) ⟨recv next, ret b, [m], []⟩) (h0 : Typed kind p0) (h1 : Typed kind p1)
    (hkind : kind m' = kind m) (hgo : next m' ≠ stuck) (hover : Over (next m)) : Dual kind p0 p1 := by
  obtain ⟨n, hn⟩ := h
  obtain ⟨L, hrun, hbal⟩ := hn.logged (recv_ne_stuck next) (ret_ne_stuck b) (balanced_start h0 h1)
  have htakes : Takes kind next (kind m) := hkind ▸ hbal.typed0.takes hgo
  have hw1 := hbal.wrote1
  refine dual_of_run (hrun.tail (LogStep.recv0 _ _ _ _ _ _ htakes)) hover (Or.inr ⟨b, rfl⟩)
    ⟨hbal.typed0.next m, hbal.typed1, hbal.wrote0, ?_⟩
  simpa [start] using hw1

theorem Reaches.not_dual {p0 : Proc M α} {p1 : Proc M β} {d : Config M α β} (h : Reaches (start p0 p1) d)
    (hd : Final Step d) (hover : ¬ (Over d.proc0 ∧ Over d.proc1)) : ¬ Dual kind p0 p1 := by
  rintro ⟨n, hn⟩
  obtain ⟨k, x, hrun, hfinal⟩ := Runs.exists_final fun k x hx => (hn k x hx).1
  obtain ⟨h0, h1, -, -⟩ := (hn k x hrun).2 hfinal
  obtain ⟨j, hj⟩ := h
  rw [steps_iff_runs] at hj
  have hsame := hj.unique commutes_step hd (hrun.map Logged.config LogStep.step) (final_of_over h0 h1)
  rw [← hsame] at hover
  exact hover ⟨h0, h1⟩

theorem not_over_loop : ¬ Over (loop : Proc M α) := by
  rintro (h | ⟨a, h⟩)
  · cases h
  · cases h

theorem Hangs.not_dual {p0 : Proc M α} {p1 : Proc M β} (h : Hangs p0 p1) : ¬ Dual kind p0 p1 := by
  rcases h with h | ⟨next, h⟩
  · exact h.not_dual (by rintro d ⟨⟩) fun hover => not_over_loop hover.1
  · exact h.not_dual (by rintro d ⟨⟩) fun hover => not_over_loop hover.1

/-- When it is known which processes run on without an end, and the others are dual. -/
theorem dual_iff {p0 : Proc M α} {p1 : Proc M β} {endless : Prop} (hhangs : endless → Hangs p0 p1)
    (hdual : ¬ endless → Dual kind p0 p1) : Dual kind p0 p1 ↔ ¬ endless :=
  ⟨fun h hend => (hhangs hend).not_dual h, hdual⟩

end PrioPlus.Lib.TwoParty

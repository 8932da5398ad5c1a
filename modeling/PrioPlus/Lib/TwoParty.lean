import Mathlib.Data.List.Basic
import PrioPlus.Lib.Runs

/-!
# Two processes over FIFO channels

A `Proc M α` sends and receives messages of type `M` and returns an `α`. Two of them run side by side, with the
messages in flight in each direction as lists; a `Step` is a send or a receive of either. Steps of the two sides
commute (`Step.diamond`), so one schedule that ends decides them all: when some schedule ends, every schedule ends
after the same number of steps with the same results (`Reaches.terminates`).

Results about two programs are then put together from their phases with `Reaches.bind`, one schedule a phase.
-/

namespace PrioPlus.Lib.TwoParty

/-- A process: it returns, sends, receives, stops on what it cannot go on with (`stuck`), or runs on in a loop without
an end that neither sends nor receives. -/
inductive Proc (M α : Type) where
  | ret (a : α)
  | send (m : M) (next : Proc M α)
  | recv (next : M → Proc M α)
  | stuck
  | loop

variable {M α β α' β' : Type}

namespace Proc

def bind : Proc M α → (α → Proc M β) → Proc M β
  | ret a, f => f a
  | send m next, f => send m (next.bind f)
  | recv next, f => recv fun m => (next m).bind f
  | stuck, _ => stuck
  | loop, _ => loop

instance : Monad (Proc M) where
  pure := ret
  bind := bind

@[simp] theorem ret_bind (a : α) (f : α → Proc M β) : (ret a >>= f) = f a := rfl

@[simp] theorem send_bind (m : M) (next : Proc M α) (f : α → Proc M β) :
    (send m next >>= f) = send m (next >>= f) := rfl

@[simp] theorem recv_bind (next : M → Proc M α) (f : α → Proc M β) :
    (recv next >>= f) = recv fun m => next m >>= f := rfl

@[simp] theorem loop_bind (f : α → Proc M β) : (loop >>= f) = loop := rfl

@[simp] theorem pure_eq_ret (a : α) : (pure a : Proc M α) = ret a := rfl

theorem bind_ret (p : Proc M α) : (p >>= ret) = p := by
  induction p with
  | ret a => rfl
  | send m next ih => exact congrArg (send m) ih
  | recv next ih => exact congrArg recv (funext ih)
  | stuck => rfl
  | loop => rfl

end Proc

open Proc

/-! ### Running two processes -/

/-- Two processes and the messages in flight, in the order in which they were sent. -/
structure Config (M α β : Type) where
  proc0 : Proc M α
  proc1 : Proc M β
  to0 : List M
  to1 : List M

namespace Config

/-- Before the first step. -/
def start (p0 : Proc M α) (p1 : Proc M β) : Config M α β := ⟨p0, p1, [], []⟩

/-- Both processes have returned and every message has been read. -/
def done (a : α) (b : β) : Config M α β := start (ret a) (ret b)

def bind (c : Config M α β) (f : α → Proc M α') (g : β → Proc M β') : Config M α' β' :=
  ⟨c.proc0 >>= f, c.proc1 >>= g, c.to0, c.to1⟩

end Config

open Config

inductive Step : Config M α β → Config M α β → Prop where
  | send0 (m : M) (next : Proc M α) (q : Proc M β) (to0 to1 : List M) :
      Step ⟨send m next, q, to0, to1⟩ ⟨next, q, to0, to1 ++ [m]⟩
  | recv0 (m : M) (next : M → Proc M α) (q : Proc M β) (to0 to1 : List M) :
      Step ⟨recv next, q, m :: to0, to1⟩ ⟨next m, q, to0, to1⟩
  | send1 (m : M) (p : Proc M α) (next : Proc M β) (to0 to1 : List M) :
      Step ⟨p, send m next, to0, to1⟩ ⟨p, next, to0 ++ [m], to1⟩
  | recv1 (m : M) (p : Proc M α) (next : M → Proc M β) (to0 to1 : List M) :
      Step ⟨p, recv next, to0, m :: to1⟩ ⟨p, next m, to0, to1⟩

/-- `n` steps. -/
inductive Steps : ℕ → Config M α β → Config M α β → Prop where
  | refl (c : Config M α β) : Steps 0 c c
  | head {n : ℕ} {c c' d : Config M α β} (hstep : Step c c') (hrest : Steps n c' d) : Steps (n + 1) c d

/-- Some schedule leads from one configuration to the other. -/
def Reaches (c d : Config M α β) : Prop := ∃ n, Steps n c d

/-- Every schedule ends, all after the same number of steps, with the results `a` and `b`. -/
def Terminates (p0 : Proc M α) (p1 : Proc M β) (a : α) (b : β) : Prop :=
  ∃ n, ∀ k c, Steps k (start p0 p1) c → k ≤ n ∧ Steps (n - k) c (done a b)

/-! ### All schedules agree -/

/-- Two steps from one configuration are the same, or lead on to a common one. -/
theorem Step.diamond {c c₁ c₂ : Config M α β} (h₁ : Step c c₁) (h₂ : Step c c₂) :
    c₁ = c₂ ∨ ∃ d, Step c₁ d ∧ Step c₂ d := by
  cases h₁ with
  | send0 m next q to0 to1 =>
    cases h₂ with
    | send0 => exact Or.inl rfl
    | send1 m' _ next' => exact Or.inr ⟨_, Step.send1 m' next next' _ _, Step.send0 m next next' _ _⟩
    | recv1 m' _ next' _ to1 => exact Or.inr ⟨_, Step.recv1 m' next next' _ _, Step.send0 m next _ _ _⟩
  | recv0 m next q to0 to1 =>
    cases h₂ with
    | recv0 => exact Or.inl rfl
    | send1 m' _ next' => exact Or.inr ⟨_, Step.send1 m' _ next' _ _, Step.recv0 m next next' _ _⟩
    | recv1 m' _ next' _ to1 => exact Or.inr ⟨_, Step.recv1 m' _ next' _ _, Step.recv0 m next _ _ _⟩
  | send1 m p next to0 to1 =>
    cases h₂ with
    | send0 m' next' => exact Or.inr ⟨_, Step.send0 m' next' _ _ _, Step.send1 m _ next _ _⟩
    | recv0 m' next' _ to0 => exact Or.inr ⟨_, Step.recv0 m' next' _ _ _, Step.send1 m _ next _ _⟩
    | send1 => exact Or.inl rfl
  | recv1 m p next to0 to1 =>
    cases h₂ with
    | send0 m' next' => exact Or.inr ⟨_, Step.send0 m' next' _ _ _, Step.recv1 m _ next _ _⟩
    | recv0 m' next' _ to0 => exact Or.inr ⟨_, Step.recv0 m' next' _ _ _, Step.recv1 m _ next _ _⟩
    | recv1 => exact Or.inl rfl

theorem commutes_step : Commutes (Step (M := M) (α := α) (β := β)) := fun _ _ _ => Step.diamond

theorem final_done (a : α) (b : β) : Final Step (done a b : Config M α β) := by
  intro c h
  cases h

theorem steps_iff_runs {n : ℕ} {c d : Config M α β} : Steps n c d ↔ Runs Step n c d := by
  constructor
  · intro h
    induction h with
    | refl c => exact Runs.refl c
    | head hstep _ ih => exact Runs.head hstep ih
  · intro h
    induction h with
    | refl c => exact Steps.refl c
    | head hstep _ ih => exact Steps.head hstep ih

theorem Steps.after {n k : ℕ} {c c' d : Config M α β} (hrun : Steps n c d) (hfinal : Final Step d)
    (hother : Steps k c c') : k ≤ n ∧ Steps (n - k) c' d := by
  rw [steps_iff_runs] at hrun hother ⊢
  exact hrun.after commutes_step hfinal hother

/-- One schedule that ends decides them all. -/
theorem Reaches.terminates {p0 : Proc M α} {p1 : Proc M β} {a : α} {b : β}
    (h : Reaches (start p0 p1) (done a b)) : Terminates p0 p1 a b := by
  obtain ⟨n, hn⟩ := h
  exact ⟨n, fun k c hk => hn.after (final_done a b) hk⟩

theorem Terminates.reaches {p0 : Proc M α} {p1 : Proc M β} {a : α} {b : β} (h : Terminates p0 p1 a b) :
    Reaches (start p0 p1) (done a b) := by
  obtain ⟨n, hn⟩ := h
  exact ⟨_, (hn 0 _ (Steps.refl _)).2⟩

theorem Terminates.unique {p0 : Proc M α} {p1 : Proc M β} {a a' : α} {b b' : β} (h : Terminates p0 p1 a b)
    (h' : Terminates p0 p1 a' b') : a = a' ∧ b = b' := by
  obtain ⟨n, hn⟩ := h
  obtain ⟨n', hn'⟩ := h'
  obtain ⟨-, hend⟩ := hn' 0 _ (Steps.refl _)
  obtain ⟨-, hrest⟩ := hn _ _ hend
  generalize n - (n' - 0) = k at hrest
  cases hrest with
  | refl => exact ⟨rfl, rfl⟩
  | head hstep _ => exact absurd hstep (final_done _ _ _)

theorem Terminates.exists_iff {p0 : Proc M α} {p1 : Proc M β} {a : α} {b : β} (h : Terminates p0 p1 a b)
    {P : α → β → Prop} : (∃ a' b', Terminates p0 p1 a' b' ∧ P a' b') ↔ P a b := by
  constructor
  · rintro ⟨a', b', h', hP⟩
    obtain ⟨rfl, rfl⟩ := h.unique h'
    exact hP
  · intro hP
    exact ⟨a, b, h, hP⟩

theorem Terminates.forall_iff {p0 : Proc M α} {p1 : Proc M β} {a : α} {b : β} (h : Terminates p0 p1 a b)
    {P : α → β → Prop} : (∀ a' b', Terminates p0 p1 a' b' → P a' b') ↔ P a b := by
  constructor
  · intro hall
    exact hall a b h
  · intro hP a' b' h'
    obtain ⟨rfl, rfl⟩ := h.unique h'
    exact hP

/-- When some schedule ends with a process that has not returned, no results come of it. -/
theorem Reaches.not_terminates_of_final {p0 : Proc M α} {p1 : Proc M β} {d : Config M α β}
    (h : Reaches (start p0 p1) d) (hd : Final Step d) (hnone : ∀ a, d.proc0 ≠ ret a) (a : α) (b : β) :
    ¬ Terminates p0 p1 a b := by
  rintro ⟨n, hn⟩
  obtain ⟨k, hk⟩ := h
  obtain ⟨-, hend⟩ := hn k _ hk
  generalize n - k = m at hend
  cases hend with
  | refl => exact hnone a rfl
  | head hstep _ => exact hd _ hstep

theorem Reaches.not_terminates {p0 : Proc M α} {p1 : Proc M β} (h : Reaches (start p0 p1) (start stuck stuck)) (a : α)
    (b : β) : ¬ Terminates p0 p1 a b :=
  h.not_terminates_of_final (by rintro d ⟨⟩) (by rintro a ⟨⟩) a b

theorem Reaches.not_terminates_of_ret {p0 : Proc M α} {p1 : Proc M β} {b' : β}
    (h : Reaches (start p0 p1) (start stuck (ret b'))) (a : α) (b : β) : ¬ Terminates p0 p1 a b :=
  h.not_terminates_of_final (by rintro d ⟨⟩) (by rintro a ⟨⟩) a b


/-! ### Putting runs together -/

theorem Reaches.refl (c : Config M α β) : Reaches c c := ⟨0, Steps.refl c⟩

theorem not_terminates_stuck (a : α) (b : β) : ¬ Terminates (stuck : Proc M α) (stuck : Proc M β) a b :=
  (Reaches.refl _).not_terminates a b

theorem Step.reaches {c d : Config M α β} (h : Step c d) : Reaches c d := ⟨1, Steps.head h (Steps.refl d)⟩

theorem Reaches.trans {c d e : Config M α β} (h : Reaches c d) (h' : Reaches d e) : Reaches c e := by
  obtain ⟨n, hn⟩ := h
  obtain ⟨n', hn'⟩ := h'
  induction hn with
  | refl => exact ⟨n', hn'⟩
  | head hstep _ ih =>
    obtain ⟨m, hm⟩ := ih hn'
    exact ⟨m + 1, Steps.head hstep hm⟩

theorem Step.bind {c d : Config M α β} (h : Step c d) (f : α → Proc M α') (g : β → Proc M β') :
    Step (c.bind f g) (d.bind f g) := by
  cases h with
  | send0 => exact Step.send0 _ _ _ _ _
  | recv0 => exact Step.recv0 _ _ _ _ _
  | send1 => exact Step.send1 _ _ _ _ _
  | recv1 => exact Step.recv1 _ _ _ _ _

/-- What follows a phase does not disturb it. -/
theorem Reaches.bind_of {c d : Config M α β} (h : Reaches c d) (f : α → Proc M α') (g : β → Proc M β') :
    Reaches (c.bind f g) (d.bind f g) := by
  obtain ⟨n, hn⟩ := h
  induction hn with
  | refl => exact Reaches.refl _
  | head hstep _ ih => exact (hstep.bind f g).reaches.trans ih

theorem Reaches.bind {p0 : Proc M α} {p1 : Proc M β} {a : α} {b : β} {f : α → Proc M α'} {g : β → Proc M β'}
    {e : Config M α' β'} (h : Reaches (start p0 p1) (done a b)) (hrest : Reaches (start (f a) (g b)) e) :
    Reaches (start (p0 >>= f) (p1 >>= g)) e :=
  (h.bind_of f g).trans hrest

theorem Reaches.map0 {p0 : Proc M α} {p1 : Proc M β} {a : α} {b : β} (h : Reaches (start p0 p1) (done a b))
    (f : α → α') : Reaches (start (p0 >>= fun a => ret (f a)) p1) (done (f a) b) := by
  have hbind := h.bind_of (fun a => ret (f a)) ret
  rw [Config.bind, start, bind_ret] at hbind
  exact hbind

theorem Reaches.msg01 (m : M) (p : Proc M α) (q : M → Proc M β) :
    Reaches (start (send m p) (recv q)) (start p (q m)) :=
  (Step.send0 m p _ [] []).reaches.trans (Step.recv1 m p q [] []).reaches

theorem Reaches.msg10 (m : M) (p : M → Proc M α) (q : Proc M β) :
    Reaches (start (recv p) (send m q)) (start (p m) q) :=
  (Step.send1 m _ q [] []).reaches.trans (Step.recv0 m p q [] []).reaches

theorem Reaches.exchange (m m' : M) (p : M → Proc M α) (q : M → Proc M β) :
    Reaches (start (send m (recv p)) (send m' (recv q))) (start (p m') (q m)) :=
  (Step.send0 m _ _ [] []).reaches.trans <| (Step.send1 m' _ _ [] [m]).reaches.trans <|
    (Step.recv0 m' p _ [] [m]).reaches.trans (Step.recv1 m _ q [] []).reaches

theorem Reaches.exchange_two (m n m' n' : M) (p p' : M → Proc M α) (q q' : M → Proc M β) (hp : p m' = recv p')
    (hq : q m = recv q') :
    Reaches (start (send m (send n (recv p))) (send m' (send n' (recv q)))) (start (p' n') (q' n)) := by
  refine (Step.send0 m _ _ [] []).reaches.trans <| (Step.send0 n _ _ [] [m]).reaches.trans <|
    (Step.send1 m' _ _ [] [m, n]).reaches.trans <| (Step.send1 n' _ _ [m'] [m, n]).reaches.trans <|
    (Step.recv0 m' _ _ [n'] [m, n]).reaches.trans <| (Step.recv1 m _ _ [n'] [n]).reaches.trans ?_
  rw [hp, hq]
  exact (Step.recv0 n' _ _ [] [n]).reaches.trans (Step.recv1 n _ _ [] []).reaches

/-! ### Runs that do not end -/

/-- Some schedule leads to an endless loop of the first process, with no message in flight, which the second one waits
for if it is not in a loop as well. -/
def Hangs (p0 : Proc M α) (p1 : Proc M β) : Prop :=
  Reaches (start p0 p1) (start loop loop) ∨ ∃ next, Reaches (start p0 p1) (start loop (recv next))

theorem hangs_loop : Hangs (loop : Proc M α) (loop : Proc M β) := Or.inl (Reaches.refl _)

theorem hangs_recv (next : M → Proc M β) : Hangs (loop : Proc M α) (recv next) := Or.inr ⟨next, Reaches.refl _⟩

section Hangs

variable {p0 : Proc M α} {p1 : Proc M β}

theorem Hangs.not_terminates (h : Hangs p0 p1) (a : α) (b : β) : ¬ Terminates p0 p1 a b := by
  rcases h with h | ⟨next, h⟩
  · exact h.not_terminates_of_final (by rintro d ⟨⟩) (by rintro a ⟨⟩) a b
  · exact h.not_terminates_of_final (by rintro d ⟨⟩) (by rintro a ⟨⟩) a b

theorem Hangs.not_exists (h : Hangs p0 p1) {P : α → β → Prop} : ¬ ∃ a b, Terminates p0 p1 a b ∧ P a b := by
  rintro ⟨a, b, hterm, -⟩
  exact h.not_terminates a b hterm

/-- When it is known which runs end, what all of them end with is what the one run ends with. -/
theorem ends_iff {fits : Prop} {a : α} {b : β} (hends : fits → Terminates p0 p1 a b) (hhangs : ¬ fits → Hangs p0 p1)
    {P : α → β → Prop} {Q : Prop} (hP : fits → (P a b ↔ ¬ Q)) :
    ((∃ a' b', Terminates p0 p1 a' b') ↔ fits) ∧ ((∀ a' b', Terminates p0 p1 a' b' → P a' b') ↔ ¬ (fits ∧ Q)) := by
  by_cases hfits : fits
  · refine ⟨iff_of_true ⟨a, b, hends hfits⟩ hfits, ?_⟩
    rw [(hends hfits).forall_iff, hP hfits, and_iff_right hfits]
  · refine ⟨iff_of_false ?_ hfits, iff_of_true ?_ fun h => hfits h.1⟩
    · rintro ⟨a', b', h⟩
      exact (hhangs hfits).not_terminates a' b' h
    · intro a' b' h
      exact absurd h ((hhangs hfits).not_terminates a' b')

theorem ends_and_forall {fits : Prop} {P : α → β → Prop} (hends : fits → ∃ a b, Terminates p0 p1 a b ∧ P a b)
    (hhangs : ¬ fits → Hangs p0 p1) :
    ((∃ a b, Terminates p0 p1 a b) ↔ fits) ∧ ∀ a b, Terminates p0 p1 a b → P a b := by
  by_cases hfits : fits
  · obtain ⟨a, b, hterm, hP⟩ := hends hfits
    exact ⟨iff_of_true ⟨a, b, hterm⟩ hfits, hterm.forall_iff.mpr hP⟩
  · refine ⟨iff_of_false ?_ hfits, fun a b h => absurd h ((hhangs hfits).not_terminates a b)⟩
    rintro ⟨a, b, h⟩
    exact (hhangs hfits).not_terminates a b h

theorem Hangs.bind (h : Hangs p0 p1) (f : α → Proc M α') (g : β → Proc M β') : Hangs (p0 >>= f) (p1 >>= g) := by
  rcases h with h | ⟨next, h⟩
  · exact Or.inl (h.bind_of f g)
  · exact Or.inr ⟨_, h.bind_of f g⟩

theorem Reaches.hangs {q0 : Proc M α} {q1 : Proc M β} (h : Reaches (start p0 p1) (start q0 q1)) (hq : Hangs q0 q1) :
    Hangs p0 p1 := by
  rcases hq with hq | ⟨next, hq⟩
  · exact Or.inl (h.trans hq)
  · exact Or.inr ⟨next, h.trans hq⟩

theorem Reaches.bind_hangs {a : α} {b : β} {f : α → Proc M α'} {g : β → Proc M β'}
    (h : Reaches (start p0 p1) (done a b)) (hrest : Hangs (f a) (g b)) : Hangs (p0 >>= f) (p1 >>= g) :=
  (h.bind (Reaches.refl _)).hangs hrest

end Hangs

end PrioPlus.Lib.TwoParty

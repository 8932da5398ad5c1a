import Mathlib.Data.List.Forall2
import PrioPlus.Lib.TwoParty

/-!
# Two stateful parties in lockstep

A `Session` is a program of one party that sends and receives, reads and replaces a state, and may fail. The states
that it replaced are kept (`Recorded`), so that a statement about a run is about every state on the way.

`Lockstep I fault P m m' Q` relates the programs of the two parties: from states related by `I` and `P`, some schedule
ends, every two states on the way are related by `I`, and either both return results related by `Q` or both fail in
the same way, which is one of `fault`. There is one rule for each way to put programs together (`Lockstep.bind`,
`Lockstep.rounds`, …), and `Lockstep.terminates` turns the schedule into all of them.
-/

namespace PrioPlus.Lib.TwoParty

open Proc Config

/-- A state, and the states before it from the oldest on. -/
structure Recorded (σ : Type) where
  now : σ
  past : List σ

def Recorded.init (s : σ) : Recorded σ := ⟨s, []⟩

def Recorded.next (r : Recorded σ) (s : σ) : Recorded σ := ⟨s, r.past ++ [r.now]⟩

/-- A program of one party with messages `M`, failures `ε` and states `σ`. -/
abbrev Session (M ε σ : Type) := ExceptT ε (StateT (Recorded σ) (Proc M))

namespace Session

variable {M ε σ α γ : Type}

def current : Session M ε σ σ := fun r => ret (.ok r.now, r)

def record (s : σ) : Session M ε σ Unit := fun r => ret (.ok (), r.next s)

def fail (e : ε) : Session M ε σ α := fun r => ret (.error e, r)

/-- Messages, with the state as it is. -/
def link (p : Proc M α) : Session M ε σ α := fun r => p >>= fun a => ret (.ok a, r)

/-- The rounds `0, …, n - 1` of a loop that carries `c`. -/
def rounds (body : ℕ → γ → Session M ε σ γ) : ℕ → γ → Session M ε σ γ
  | 0, c => pure c
  | n + 1, c => rounds body n c >>= body n

/-- A loop up to `n` whose counter has `bound` values. When `n` is out of its range the loop is never left, which is
the failure `e` after `bound` rounds. -/
def countTo (bound : ℕ) (e : ε) (n : ℕ) (body : ℕ → γ → Session M ε σ γ) (c : γ) : Session M ε σ γ :=
  rounds body (min n bound) c >>= fun d => if n < bound then pure d else fail e

theorem bind_apply {β : Type} (m : Session M ε σ α) (f : α → Session M ε σ β) (r : Recorded σ) :
    (m >>= f) r = m r >>= fun x =>
      match x with
      | (.ok a, t) => f a t
      | (.error e, t) => ret (.error e, t) := by
  show (m r >>= fun x => ExceptT.bindCont f x.1 x.2) = _
  congr 1
  funext x
  obtain ⟨x | x, t⟩ := x <;> rfl

end Session

open Session

section Lockstep

variable {M ε σ σ' α α' β β' γ γ' : Type}

/-- The states of the two parties are related, now and at every point before. -/
structure Along (I : σ → σ' → Prop) (r : Recorded σ) (r' : Recorded σ') : Prop where
  now : I r.now r'.now
  past : List.Forall₂ I r.past r'.past

theorem Along.init {I : σ → σ' → Prop} {s : σ} {s' : σ'} (h : I s s') : Along I (.init s) (.init s') :=
  ⟨h, List.Forall₂.nil⟩

theorem Along.next {I : σ → σ' → Prop} {r : Recorded σ} {r' : Recorded σ'} (h : Along I r r') {s : σ} {s' : σ'}
    (hs : I s s') : Along I (r.next s) (r'.next s') :=
  ⟨hs, List.rel_append h.past (List.Forall₂.cons h.now List.Forall₂.nil)⟩

theorem Along.imp {I J : σ → σ' → Prop} {r : Recorded σ} {r' : Recorded σ'} (h : Along I r r')
    (hIJ : ∀ s s', I s s' → J s s') : Along J r r' :=
  ⟨hIJ _ _ h.now, h.past.imp hIJ⟩

/-- Both return, with related results, or both fail in the same way. -/
def Ends (fault : ε → Prop) (Q : α → β → Prop) : Except ε α → Except ε β → Prop
  | .ok a, .ok b => Q a b
  | .error e, .error e' => e = e' ∧ fault e
  | _, _ => False

/-- From related states the two programs run to related ends, through related states. -/
def Lockstep (I : σ → σ' → Prop) (fault : ε → Prop) (P : σ → σ' → Prop) (m : Session M ε σ α) (m' : Session M ε σ' β)
    (Q : α → β → σ → σ' → Prop) : Prop :=
  ∀ r r', Along I r r' → P r.now r'.now → ∃ x y t t', Reaches (start (m r) (m' r')) (done (x, t) (y, t')) ∧
    Along I t t' ∧ Ends fault (fun a b => Q a b t.now t'.now) x y

/-- Nothing is asked of the states beyond the invariant. -/
def anyStates : σ → σ' → Prop := fun _ _ => True

variable {I : σ → σ' → Prop} {fault : ε → Prop} {P P' : σ → σ' → Prop} {m : Session M ε σ α} {m' : Session M ε σ' β}
  {Q Q' : α → β → σ → σ' → Prop} {R : α' → β' → σ → σ' → Prop}

theorem Ends.ok_or_error {P : α → β → Prop} {x : Except ε α} {y : Except ε β} (h : Ends fault P x y) :
    (∃ a b, x = .ok a ∧ y = .ok b ∧ P a b) ∨ ∃ e, x = .error e ∧ y = .error e ∧ fault e := by
  cases x with
  | ok a =>
    cases y with
    | ok b => exact Or.inl ⟨a, b, rfl, rfl, h⟩
    | error _ => exact absurd h id
  | error e =>
    cases y with
    | ok _ => exact absurd h id
    | error e' =>
      obtain ⟨rfl, he⟩ := h
      exact Or.inr ⟨e, rfl, rfl, he⟩

theorem Ends.mono {P P' : α → β → Prop} {x : Except ε α} {y : Except ε β} (h : Ends fault P x y)
    (hP : ∀ a b, P a b → P' a b) : Ends fault P' x y := by
  cases x <;> cases y
  · exact h
  · exact h
  · exact h
  · exact hP _ _ h

theorem Lockstep.mono (h : Lockstep I fault P m m' Q) (hP : ∀ s s', I s s' → P' s s' → P s s')
    (hQ : ∀ a b s s', I s s' → Q a b s s' → Q' a b s s') : Lockstep I fault P' m m' Q' := by
  intro r r' halong hnow
  obtain ⟨x, y, t, t', hreach, halong', hends⟩ := h r r' halong (hP _ _ halong.now hnow)
  exact ⟨x, y, t, t', hreach, halong', hends.mono fun a b => hQ a b _ _ halong'.now⟩

theorem Lockstep.pure {a : α} {b : β} (h : ∀ s s', P s s' → Q a b s s') :
    Lockstep I fault P (M := M) (Pure.pure a) (Pure.pure b) Q :=
  fun r r' halong hP => ⟨.ok a, .ok b, r, r', Reaches.refl _, halong, h _ _ hP⟩

theorem Lockstep.fail {e : ε} (he : fault e) : Lockstep I fault P (M := M) (Session.fail e) (Session.fail e) Q :=
  fun r r' halong _ => ⟨.error e, .error e, r, r', Reaches.refl _, halong, rfl, he⟩

theorem Lockstep.record {s : σ} {s' : σ'} (P' : σ → σ' → Prop) (hI : I s s') (hP : P' s s') :
    Lockstep I fault P (M := M) (Session.record s) (Session.record s') fun _ _ => P' :=
  fun r r' halong _ => ⟨.ok (), .ok (), r.next s, r'.next s', Reaches.refl _, halong.next hI, hP⟩

theorem Lockstep.link {p : Proc M α} {p' : Proc M β} {a : α} {b : β} (h : Reaches (start p p') (done a b)) :
    Lockstep I fault P (Session.link p) (Session.link p') fun a' b' s s' => a' = a ∧ b' = b ∧ P s s' :=
  fun r r' halong hP =>
    ⟨.ok a, .ok b, r, r', Reaches.bind h (Reaches.refl _), halong, rfl, rfl, hP⟩

theorem Lockstep.bind {f : α → Session M ε σ α'} {g : β → Session M ε σ' β'} (h : Lockstep I fault P m m' Q)
    (hrest : ∀ a b, Lockstep I fault (Q a b) (f a) (g b) R) : Lockstep I fault P (m >>= f) (m' >>= g) R := by
  intro r r' halong hP
  obtain ⟨x, y, t, t', hreach, halong', hends⟩ := h r r' halong hP
  simp only [bind_apply]
  rcases hends.ok_or_error with ⟨a, b, rfl, rfl, hQ⟩ | ⟨e, rfl, rfl, he⟩
  · obtain ⟨x', y', u, u', hreach', halong'', hends'⟩ := hrest a b t t' halong' hQ
    exact ⟨x', y', u, u', Reaches.bind hreach hreach', halong'', hends'⟩
  · exact ⟨.error e, .error e, t, t', Reaches.bind hreach (Reaches.refl _), halong', rfl, he⟩

theorem Lockstep.current {f : σ → Session M ε σ α'} {g : σ' → Session M ε σ' β'}
    (h : ∀ s s', I s s' → P s s' → Lockstep I fault (fun t t' => t = s ∧ t' = s') (f s) (g s') R) :
    Lockstep I fault P (Session.current >>= f) (Session.current >>= g) R := by
  intro r r' halong hP
  simp only [bind_apply]
  exact h r.now r'.now halong.now hP r r' halong ⟨rfl, rfl⟩

/-! ### Loops -/

theorem Lockstep.rounds {body : ℕ → γ → Session M ε σ γ} {body' : ℕ → γ' → Session M ε σ' γ'} {J : ℕ → γ → γ' → Prop}
    {n : ℕ} (hbody : ∀ i < n, ∀ c c', J i c c' →
      Lockstep I fault anyStates (body i c) (body' i c') fun d d' _ _ => J (i + 1) d d')
    {c : γ} {c' : γ'} (h : J 0 c c') :
    Lockstep I fault anyStates (Session.rounds body n c) (Session.rounds body' n c') fun d d' _ _ => J n d d' := by
  induction n with
  | zero => exact Lockstep.pure fun _ _ _ => h
  | succ n ih =>
    refine Lockstep.bind (ih fun i hi => hbody i (by omega)) fun d d' r r' halong hJ => ?_
    exact hbody n (by omega) d d' hJ r r' halong trivial

theorem Lockstep.countTo {body : ℕ → γ → Session M ε σ γ} {body' : ℕ → γ' → Session M ε σ' γ'} {J : ℕ → γ → γ' → Prop}
    {n bound : ℕ} {e : ε} (he : bound ≤ n → fault e)
    (hbody : ∀ i < n, ∀ c c', J i c c' →
      Lockstep I fault anyStates (body i c) (body' i c') fun d d' _ _ => J (i + 1) d d')
    {c : γ} {c' : γ'} (h : J 0 c c') :
    Lockstep I fault anyStates (Session.countTo bound e n body c) (Session.countTo bound e n body' c')
      fun d d' _ _ => J n d d' := by
  refine Lockstep.bind (Lockstep.rounds (fun i hi => hbody i (by omega)) h) fun d d' => ?_
  by_cases hn : n < bound
  · rw [if_pos hn, if_pos hn, Nat.min_eq_left (Nat.le_of_lt hn)]
    exact Lockstep.pure fun _ _ hJ => hJ
  · rw [if_neg hn, if_neg hn]
    exact Lockstep.fail (he (Nat.le_of_not_lt hn))

/-! ### All schedules -/

theorem Lockstep.terminates (h : Lockstep I fault P m m' Q) {s : σ} {s' : σ'} (hI : I s s') (hP : P s s') :
    ∃ x y t t', Terminates (m (.init s)) (m' (.init s')) (x, t) (y, t') ∧ Along I t t' ∧
      Ends fault (fun a b => Q a b t.now t'.now) x y := by
  obtain ⟨x, y, t, t', hreach, halong, hends⟩ := h _ _ (Along.init hI) hP
  exact ⟨x, y, t, t', hreach.terminates, halong, hends⟩

end Lockstep

end PrioPlus.Lib.TwoParty

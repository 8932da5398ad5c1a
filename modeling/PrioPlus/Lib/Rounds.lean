import PrioPlus.Lib.Dual

/-!
# Rounds of two servers over one link

Two servers run programs one after the other, each as soon as its last one has returned, with one pair of channels for
all rounds. Nothing on the link says which round a message is for. When every round `Settles` on a link of its own, so
that a server that has returned leaves nothing behind and its peer waits for nothing more, the rounds do not mix: the
channels are those of the rounds one after the other, and each server is in every round where it is in some run of that
round on its own (`exists_rounds`).
-/

namespace PrioPlus.Lib.TwoParty

open Proc Config

variable {M α β : Type}

/-! ### The two sides -/

def Config.swap (c : Config M α β) : Config M β α := ⟨c.proc1, c.proc0, c.to1, c.to0⟩

theorem Step.swap {c d : Config M α β} (h : Step c d) : Step c.swap d.swap := by
  cases h with
  | send0 => exact Step.send1 _ _ _ _ _
  | recv0 => exact Step.recv1 _ _ _ _ _
  | send1 => exact Step.send0 _ _ _ _ _
  | recv1 => exact Step.recv0 _ _ _ _ _

theorem Reaches.swap {c d : Config M α β} (h : Reaches c d) : Reaches c.swap d.swap := by
  obtain ⟨n, hn⟩ := h
  induction hn with
  | refl => exact Reaches.refl _
  | head hstep _ ih => exact hstep.swap.reaches.trans ih

/-! ### One round -/

/-- The process has nothing to do with the messages to it. -/
def Waits : Proc M α → List M → Prop
  | send _ _, _ => False
  | recv _, ins => ins = []
  | ret _, _ => True
  | stuck, _ => True
  | loop, _ => True

theorem final_iff {c : Config M α β} : Final Step c ↔ Waits c.proc0 c.to0 ∧ Waits c.proc1 c.to1 := by
  obtain ⟨p, q, to0, to1⟩ := c
  constructor
  · intro h
    constructor
    · cases p with
      | ret a => trivial
      | send m next => exact h _ (Step.send0 m next q to0 to1)
      | recv next =>
        cases to0 with
        | nil => rfl
        | cons m to0 => exact (h _ (Step.recv0 m next q to0 to1)).elim
      | stuck => trivial
      | loop => trivial
    · cases q with
      | ret b => trivial
      | send m next => exact h _ (Step.send1 m p next to0 to1)
      | recv next =>
        cases to1 with
        | nil => rfl
        | cons m to1 => exact (h _ (Step.recv1 m p next to0 to1)).elim
      | stuck => trivial
      | loop => trivial
  · rintro ⟨h0, h1⟩ d hstep
    cases hstep with
    | send0 => exact h0
    | recv0 => exact absurd h0 (List.cons_ne_nil _ _)
    | send1 => exact h1
    | recv1 => exact absurd h1 (List.cons_ne_nil _ _)

/-- Some run, and so every one, ends with no message in flight, and either both processes are over or none returns. -/
def Settles (p0 : Proc M α) (p1 : Proc M β) : Prop :=
  ∃ c, Reaches (start p0 p1) c ∧ Final Step c ∧ c.to0 = [] ∧ c.to1 = [] ∧
    ((Over c.proc0 ∧ Over c.proc1) ∨ ((∀ a, c.proc0 ≠ ret a) ∧ ∀ b, c.proc1 ≠ ret b))

theorem Settles.swap {p0 : Proc M α} {p1 : Proc M β} (h : Settles p0 p1) : Settles p1 p0 := by
  obtain ⟨c, hreach, hfinal, h0, h1, hend⟩ := h
  exact ⟨c.swap, hreach.swap, fun d hd => hfinal d.swap hd.swap, h1, h0, hend.imp And.symm And.symm⟩

theorem Steps.of_ret1 {n : ℕ} {c d : Config M α β} (h : Steps n c d) {b : β} (hb : c.proc1 = ret b) :
    d.proc1 = ret b ∧ c.to1 <+: d.to1 := by
  induction h with
  | refl => exact ⟨hb, List.prefix_rfl⟩
  | head hstep _ ih =>
    cases hstep with
    | send0 m next q to0 to1 =>
      obtain ⟨hret, hprefix⟩ := ih hb
      exact ⟨hret, (List.prefix_append to1 [m]).trans hprefix⟩
    | recv0 => exact ih hb
    | send1 => exact absurd hb (by simp)
    | recv1 => exact absurd hb (by simp)

/-- To a server that has returned nothing is on its way, and its peer does not wait for it in vain. -/
theorem Settles.of_ret1 {p0 : Proc M α} {p1 : Proc M β} (h : Settles p0 p1) {c : Config M α β}
    (hc : Reaches (start p0 p1) c) {b : β} (hb : c.proc1 = ret b) :
    c.to1 = [] ∧ ∀ next, c.proc0 = recv next → c.to0 ≠ [] := by
  obtain ⟨d, ⟨n, hn⟩, hfinal, -, hto1, hend⟩ := h
  obtain ⟨k, hk⟩ := hc
  have hrest := (hn.after hfinal hk).2
  obtain ⟨hret, hprefix⟩ := hrest.of_ret1 hb
  rw [hto1] at hprefix
  refine ⟨List.prefix_nil.mp hprefix, fun next hnext hempty => ?_⟩
  have hwaits : Final Step c := by
    rw [final_iff, hnext, hb]
    exact ⟨hempty, trivial⟩
  obtain rfl : c = d := (steps_iff_runs.mp hrest).eq_of_final hwaits
  rcases hend with ⟨hover, -⟩ | ⟨-, hnone⟩
  · rw [hnext] at hover
    rcases hover with hstuck | ⟨a, ha⟩
    · exact absurd hstuck (recv_ne_stuck next)
    · cases ha
  · exact hnone b hb

theorem Settles.of_ret0 {p0 : Proc M α} {p1 : Proc M β} (h : Settles p0 p1) {c : Config M α β}
    (hc : Reaches (start p0 p1) c) {a : α} (ha : c.proc0 = ret a) : c.to0 = [] :=
  (h.swap.of_ret1 hc.swap ha).1

/-! ### Which pairs settle -/

section Settles

variable {p0 : Proc M α} {p1 : Proc M β}

theorem Reaches.settles {p : Proc M α} {q : Proc M β} (h : Reaches (start p0 p1) (start p q)) (hp : Over p)
    (hq : Over q) : Settles p0 p1 :=
  ⟨start p q, h, final_of_over hp hq, rfl, rfl, Or.inl ⟨hp, hq⟩⟩

theorem Terminates.settles {a : α} {b : β} (h : Terminates p0 p1 a b) : Settles p0 p1 :=
  h.reaches.settles (Or.inr ⟨a, rfl⟩) (Or.inr ⟨b, rfl⟩)

/-- One process has returned, and the other one is over after its last receive. -/
theorem Reaches.settles_last {next : M → Proc M α} {m : M} {b : β}
    (h : Reaches (start p0 p1) ⟨recv next, ret b, [m], []⟩) (hover : Over (next m)) : Settles p0 p1 :=
  Reaches.settles (h.trans (Step.recv0 m next (ret b) [] []).reaches) hover (Or.inr ⟨b, rfl⟩)

theorem Hangs.settles (h : Hangs p0 p1) : Settles p0 p1 := by
  rcases h with h | ⟨next, h⟩
  · refine ⟨_, h, final_iff.mpr ⟨trivial, trivial⟩, rfl, rfl, Or.inr ⟨?_, ?_⟩⟩
    · rintro a ⟨⟩
    · rintro b ⟨⟩
  · refine ⟨_, h, final_iff.mpr ⟨trivial, rfl⟩, rfl, rfl, Or.inr ⟨?_, ?_⟩⟩
    · rintro a ⟨⟩
    · rintro b ⟨⟩

theorem final_start_stuck (hsend : ∀ m next, p0 ≠ send m next) : Final Step (start p0 (stuck : Proc M β)) := by
  refine final_iff.mpr ⟨?_, trivial⟩
  cases p0 with
  | ret a => trivial
  | send m next => exact hsend m next rfl
  | recv next => rfl
  | stuck => trivial
  | loop => trivial

theorem Reaches.eq_of_stuck (hsend : ∀ m next, p0 ≠ send m next) {c : Config M α β} (h : Reaches (start p0 stuck) c) :
    c = start p0 stuck := by
  obtain ⟨n, hn⟩ := h
  exact ((steps_iff_runs.mp hn).eq_of_final (final_start_stuck hsend)).symm

theorem settles_stuck (hsend : ∀ m next, p0 ≠ send m next) : Settles p0 (stuck : Proc M β) := by
  refine ⟨start p0 stuck, Reaches.refl _, final_start_stuck hsend, rfl, rfl, ?_⟩
  cases p0 with
  | ret a => exact Or.inl ⟨Or.inr ⟨a, rfl⟩, Or.inl rfl⟩
  | send m next => exact absurd rfl (hsend m next)
  | recv next =>
    refine Or.inr ⟨?_, ?_⟩
    · rintro a ⟨⟩
    · rintro b ⟨⟩
  | stuck => exact Or.inl ⟨Or.inl rfl, Or.inl rfl⟩
  | loop =>
    refine Or.inr ⟨?_, ?_⟩
    · rintro a ⟨⟩
    · rintro b ⟨⟩

/-- What was written is what was read and what is in flight. -/
theorem logged_counts {K : Type} {kind : M → K} {n : ℕ} {x y : Logged M K α β} (h : Runs (LogStep kind) n x y)
    (h0 : x.log.wrote0.length = x.log.read1.length + x.config.to1.length)
    (h1 : x.log.wrote1.length = x.log.read0.length + x.config.to0.length) :
    y.log.wrote0.length = y.log.read1.length + y.config.to1.length ∧
      y.log.wrote1.length = y.log.read0.length + y.config.to0.length := by
  induction h with
  | refl => exact ⟨h0, h1⟩
  | head hstep _ ih =>
    apply ih
    · cases hstep <;> simp_all <;> omega
    · cases hstep <;> simp_all <;> omega

theorem Dual.settles {K : Type} {kind : M → K} (h : Dual kind p0 p1) : Settles p0 p1 := by
  obtain ⟨n, hn⟩ := h
  obtain ⟨k, x, hrun, hfinal⟩ := Runs.exists_final fun k x hx => (hn k x hx).1
  obtain ⟨h0, h1, hw0, hw1⟩ := (hn k x hrun).2 hfinal
  obtain ⟨hc0, hc1⟩ := logged_counts hrun rfl rfl
  rw [hw0] at hc0
  rw [hw1] at hc1
  have hreach : Reaches (start p0 p1) x.config := ⟨k, steps_iff_runs.mpr (hrun.map Logged.config LogStep.step)⟩
  exact ⟨x.config, hreach, final_of_over h0 h1, List.length_eq_zero_iff.mp (by omega),
    List.length_eq_zero_iff.mp (by omega), Or.inl ⟨h0, h1⟩⟩

theorem Waits.map {p : Proc M α} {ins : List M} (h : Waits p ins) (f : α → β) :
    Waits (p >>= fun a => ret (f a)) ins := by
  cases p with
  | ret a => trivial
  | send m next => exact h
  | recv next => exact h
  | stuck => trivial
  | loop => trivial

theorem Over.map {p : Proc M α} (h : Over p) (f : α → β) : Over (p >>= fun a => ret (f a)) := by
  rcases h with rfl | ⟨a, rfl⟩
  · exact Or.inl rfl
  · exact Or.inr ⟨f a, rfl⟩

theorem ne_ret_map {p : Proc M α} (h : ∀ a, p ≠ ret a) (f : α → β) (b : β) : (p >>= fun a => ret (f a)) ≠ ret b := by
  intro hret
  cases p with
  | ret a => exact h a rfl
  | send m next => cases hret
  | recv next => cases hret
  | stuck => cases hret
  | loop => cases hret

theorem Settles.map {α' β' : Type} (h : Settles p0 p1) (f : α → α') (g : β → β') :
    Settles (p0 >>= fun a => ret (f a)) (p1 >>= fun b => ret (g b)) := by
  obtain ⟨c, hreach, hfinal, h0, h1, hend⟩ := h
  obtain ⟨hw0, hw1⟩ := final_iff.mp hfinal
  refine ⟨_, hreach.bind_of (fun a => ret (f a)) fun b => ret (g b), final_iff.mpr ⟨hw0.map f, hw1.map g⟩, h0, h1, ?_⟩
  rcases hend with ⟨hover0, hover1⟩ | ⟨hnone0, hnone1⟩
  · exact Or.inl ⟨hover0.map f, hover1.map g⟩
  · exact Or.inr ⟨ne_ret_map hnone0 f, ne_ret_map hnone1 g⟩

end Settles

/-! ### Rounds -/

/-- Two servers on one link. Each has the processes of the rounds that it has begun, of which the last is running or has
returned as the others have. -/
structure Serving (M α β : Type) where
  procs0 : List (Proc M α)
  procs1 : List (Proc M β)
  to0 : List M
  to1 : List M

namespace Serving

def init : Serving M α β := ⟨[], [], [], []⟩

def swap (s : Serving M α β) : Serving M β α := ⟨s.procs1, s.procs0, s.to1, s.to0⟩

end Serving

/-- A step of one server, with the messages to it and those from it: it begins the next round of `P`, or its process
sends or receives. -/
inductive Act (P : ℕ → Proc M α) : List (Proc M α) → List M → List M → List (Proc M α) → List M → List M → Prop where
  | begin (procs : List (Proc M α)) (ins outs : List M) (h : ∀ p ∈ procs, ∃ a, p = ret a) :
      Act P procs ins outs (procs ++ [P procs.length]) ins outs
  | send (done : List (Proc M α)) (m : M) (next : Proc M α) (ins outs : List M) :
      Act P (done ++ [send m next]) ins outs (done ++ [next]) ins (outs ++ [m])
  | recv (done : List (Proc M α)) (m : M) (next : M → Proc M α) (ins outs : List M) :
      Act P (done ++ [recv next]) (m :: ins) outs (done ++ [next m]) ins outs

inductive ServeStep (P : ℕ → Proc M α) (Q : ℕ → Proc M β) : Serving M α β → Serving M α β → Prop where
  | act0 {s : Serving M α β} {procs : List (Proc M α)} {ins outs : List M}
      (h : Act P s.procs0 s.to0 s.to1 procs ins outs) : ServeStep P Q s ⟨procs, s.procs1, ins, outs⟩
  | act1 {s : Serving M α β} {procs : List (Proc M β)} {ins outs : List M}
      (h : Act Q s.procs1 s.to1 s.to0 procs ins outs) : ServeStep P Q s ⟨s.procs0, procs, outs, ins⟩

inductive Serves (P : ℕ → Proc M α) (Q : ℕ → Proc M β) : Serving M α β → Prop where
  | init : Serves P Q .init
  | step {s s' : Serving M α β} (h : Serves P Q s) (hstep : ServeStep P Q s s') : Serves P Q s'

/-- Each round on a link of its own, in the state in which the two servers are. -/
structure Apart (P : ℕ → Proc M α) (Q : ℕ → Proc M β) (rounds : ℕ → Config M α β) (s : Serving M α β) : Prop where
  reaches : ∀ i, Reaches (start (P i) (Q i)) (rounds i)
  procs0 : ∀ i p, s.procs0[i]? = some p → (rounds i).proc0 = p
  procs1 : ∀ i p, s.procs1[i]? = some p → (rounds i).proc1 = p
  ahead0 : ∀ i, s.procs0.length ≤ i → (rounds i).proc0 = P i ∧ (rounds i).to1 = []
  ahead1 : ∀ i, s.procs1.length ≤ i → (rounds i).proc1 = Q i ∧ (rounds i).to0 = []
  past0 : ∀ i, i + 1 < s.procs0.length → ∃ a, (rounds i).proc0 = ret a
  past1 : ∀ i, i + 1 < s.procs1.length → ∃ b, (rounds i).proc1 = ret b
  to0 : s.to0 = (List.range s.procs1.length).flatMap fun i => (rounds i).to0
  to1 : s.to1 = (List.range s.procs0.length).flatMap fun i => (rounds i).to1

theorem getElem?_concat {γ : Type} {xs : List γ} {x y : γ} {n : ℕ} :
    (xs ++ [x])[n]? = some y ↔ xs[n]? = some y ∨ n = xs.length ∧ x = y := by
  rcases Nat.lt_trichotomy n xs.length with hlt | rfl | hgt
  · rw [List.getElem?_append_left hlt]
    simp [Nat.ne_of_lt hlt]
  · simp
  · rw [List.getElem?_eq_none (by simp; omega), List.getElem?_eq_none (by omega)]
    simp [Nat.ne_of_gt hgt]

section Apart

variable {P : ℕ → Proc M α} {Q : ℕ → Proc M β} {rounds : ℕ → Config M α β} {s s' : Serving M α β}

theorem Apart.swap (h : Apart P Q rounds s) : Apart Q P (fun i => (rounds i).swap) s.swap :=
  ⟨fun i => (h.reaches i).swap, h.procs1, h.procs0, h.ahead1, h.ahead0, h.past1, h.past0, h.to1, h.to0⟩

theorem apart_init : Apart P Q (fun i => start (P i) (Q i)) .init where
  reaches i := Reaches.refl _
  procs0 i p h := by simp [Serving.init] at h
  procs1 i p h := by simp [Serving.init] at h
  ahead0 i _ := ⟨rfl, rfl⟩
  ahead1 i _ := ⟨rfl, rfl⟩
  past0 i h := absurd h (Nat.not_lt_zero _)
  past1 i h := absurd h (Nat.not_lt_zero _)
  to0 := rfl
  to1 := rfl

theorem flatMap_range_of_nil {γ : Type} {f : ℕ → List γ} {k : ℕ} (hnil : ∀ i, i < k → f i = []) :
    (List.range k).flatMap f = [] :=
  List.flatMap_eq_nil_iff.mpr fun i hi => hnil i (List.mem_range.mp hi)

theorem flatMap_range_add {γ : Type} (f : ℕ → List γ) (k r : ℕ) :
    (List.range (k + 1 + r)).flatMap f =
      (List.range k).flatMap f ++ (f k ++ (List.range r).flatMap fun j => f (k + 1 + j)) := by
  rw [List.range_add, List.range_succ, List.flatMap_append, List.flatMap_append, List.flatMap_singleton,
    List.flatMap_map, List.append_assoc]

theorem Apart.begin0 (h : Apart P Q rounds s) (hret : ∀ p ∈ s.procs0, ∃ a, p = ret a) :
    Apart P Q rounds { s with procs0 := s.procs0 ++ [P s.procs0.length] } where
  reaches := h.reaches
  procs0 i p hp := by
    rcases getElem?_concat.mp hp with hold | ⟨rfl, rfl⟩
    · exact h.procs0 i p hold
    · exact (h.ahead0 _ (Nat.le_refl _)).1
  procs1 := h.procs1
  ahead0 i hi := h.ahead0 i (by simp at hi; omega)
  ahead1 := h.ahead1
  past0 i hi := by
    have hlt : i < s.procs0.length := by simpa using hi
    obtain ⟨a, ha⟩ := hret _ (List.getElem_mem hlt)
    exact ⟨a, (h.procs0 i _ (List.getElem?_eq_getElem hlt)).trans ha⟩
  past1 := h.past1
  to0 := h.to0
  to1 := by
    rw [List.length_append, List.length_singleton, List.range_succ, List.flatMap_append, List.flatMap_singleton,
      (h.ahead0 _ (Nat.le_refl _)).2, List.append_nil, ← h.to1]

theorem flatMap_update {γ : Type} {f : Config M α β → List γ} {k n : ℕ} {d : Config M α β} (h : f d = f (rounds k)) :
    ((List.range n).flatMap fun i => f (Function.update rounds k d i)) =
      (List.range n).flatMap fun i => f (rounds i) := by
  refine congrArg (fun g => (List.range n).flatMap g) (funext fun i => ?_)
  rcases eq_or_ne i k with rfl | hne
  · rw [Function.update_self, h]
  · rw [Function.update_of_ne hne]

theorem flatMap_update_last {γ : Type} {f : Config M α β → List γ} {k : ℕ} {d : Config M α β} :
    ((List.range (k + 1)).flatMap fun i => f (Function.update rounds k d i)) =
      ((List.range k).flatMap fun i => f (rounds i)) ++ f d := by
  rw [List.range_succ, List.flatMap_append, List.flatMap_singleton, Function.update_self]
  refine congrArg (· ++ f d) (List.flatMap_congr fun i hi => ?_)
  rw [Function.update_of_ne (Nat.ne_of_lt (List.mem_range.mp hi))]

theorem Apart.move0 {done : List (Proc M α)} {p : Proc M α} {procs1 : List (Proc M β)} {to0 to1 to0' to1' : List M}
    (h : Apart P Q rounds ⟨done ++ [p], procs1, to0, to1⟩) {d : Config M α β} (hstep : Step (rounds done.length) d)
    (hproc1 : d.proc1 = (rounds done.length).proc1) (hahead : procs1.length ≤ done.length → d.to0 = [])
    (hto0 : to0' = (List.range procs1.length).flatMap fun i => (Function.update rounds done.length d i).to0)
    (hto1 : to1' = (List.range (done.length + 1)).flatMap fun i => (Function.update rounds done.length d i).to1) :
    Apart P Q (Function.update rounds done.length d) ⟨done ++ [d.proc0], procs1, to0', to1'⟩ where
  reaches i := by
    rcases eq_or_ne i done.length with rfl | hne
    · rw [Function.update_self]
      exact (h.reaches _).trans hstep.reaches
    · rw [Function.update_of_ne hne]
      exact h.reaches i
  procs0 i q hq := by
    rcases getElem?_concat.mp hq with hold | ⟨rfl, rfl⟩
    · rw [Function.update_of_ne (Nat.ne_of_lt (List.getElem?_eq_some_iff.mp hold).1)]
      exact h.procs0 i q (getElem?_concat.mpr (Or.inl hold))
    · rw [Function.update_self]
  procs1 i q hq := by
    rcases eq_or_ne i done.length with rfl | hne
    · rw [Function.update_self, hproc1]
      exact h.procs1 _ q hq
    · rw [Function.update_of_ne hne]
      exact h.procs1 i q hq
  ahead0 i hi := by
    have hlt : done.length + 1 ≤ i := by simpa using hi
    rw [Function.update_of_ne (Nat.ne_of_gt hlt)]
    exact h.ahead0 i (by simpa using hi)
  ahead1 i hi := by
    rcases eq_or_ne i done.length with rfl | hne
    · rw [Function.update_self, hproc1]
      exact ⟨(h.ahead1 _ hi).1, hahead hi⟩
    · rw [Function.update_of_ne hne]
      exact h.ahead1 i hi
  past0 i hi := by
    have hlt : i < done.length := by simpa using hi
    rw [Function.update_of_ne (Nat.ne_of_lt hlt)]
    exact h.past0 i (by simpa using hi)
  past1 i hi := by
    rcases eq_or_ne i done.length with rfl | hne
    · rw [Function.update_self, hproc1]
      exact h.past1 _ hi
    · rw [Function.update_of_ne hne]
      exact h.past1 i hi
  to0 := hto0
  to1 := by rw [List.length_append, List.length_singleton, hto1]

theorem Apart.current0 {done : List (Proc M α)} {p : Proc M α} {procs1 : List (Proc M β)} {to0 to1 : List M}
    (h : Apart P Q rounds ⟨done ++ [p], procs1, to0, to1⟩) :
    rounds done.length =
      ⟨p, (rounds done.length).proc1, (rounds done.length).to0, (rounds done.length).to1⟩ := by
  have hp := h.procs0 done.length p (by simp)
  rw [← hp]

theorem Apart.send0 {done : List (Proc M α)} {m : M} {next : Proc M α} {procs1 : List (Proc M β)} {to0 to1 : List M}
    (h : Apart P Q rounds ⟨done ++ [.send m next], procs1, to0, to1⟩) :
    ∃ rounds', Apart P Q rounds' ⟨done ++ [next], procs1, to0, to1 ++ [m]⟩ := by
  have hstep : Step (rounds done.length) ⟨next, (rounds done.length).proc1, (rounds done.length).to0,
      (rounds done.length).to1 ++ [m]⟩ := by
    have hsend := Step.send0 m next (rounds done.length).proc1 (rounds done.length).to0 (rounds done.length).to1
    rwa [← h.current0] at hsend
  refine ⟨_, h.move0 hstep rfl (fun hle => (h.ahead1 _ hle).2) ?_ ?_⟩
  · exact h.to0.trans (flatMap_update (f := Config.to0) (by rfl)).symm
  · have hto1 := h.to1
    rw [List.length_append, List.length_singleton, List.range_succ, List.flatMap_append, List.flatMap_singleton] at hto1
    rw [flatMap_update_last (f := Config.to1), ← List.append_assoc, ← hto1]

theorem Apart.recv0 (hsettles : ∀ i, Settles (P i) (Q i)) {done : List (Proc M α)} {m : M} {next : M → Proc M α}
    {procs1 : List (Proc M β)} {to0 to1 : List M}
    (h : Apart P Q rounds ⟨done ++ [.recv next], procs1, m :: to0, to1⟩) :
    ∃ rounds', Apart P Q rounds' ⟨done ++ [next m], procs1, to0, to1⟩ := by
  have hpast : ∀ i, i < done.length → (rounds i).to0 = [] := by
    intro i hi
    obtain ⟨a, ha⟩ := h.past0 i (by simpa using hi)
    exact (hsettles i).of_ret0 (h.reaches i) ha
  have hto0 : m :: to0 = (List.range procs1.length).flatMap fun i => (rounds i).to0 := h.to0
  -- server 1 is at least as far
  obtain ⟨r, hr⟩ : ∃ r, procs1.length = done.length + 1 + r := by
    refine Nat.exists_eq_add_of_le (Nat.succ_le_of_lt (Nat.lt_of_not_le fun hle => ?_))
    rw [flatMap_range_of_nil fun i hi => hpast i (Nat.lt_of_lt_of_le hi hle)] at hto0
    exact absurd hto0 (List.cons_ne_nil _ _)
  rw [hr, flatMap_range_add, flatMap_range_of_nil hpast, List.nil_append] at hto0
  have hcur := h.current0
  obtain ⟨rest, hrest⟩ : ∃ rest, (rounds done.length).to0 = m :: rest := by
    cases hhead : (rounds done.length).to0 with
    | nil =>
      -- then the message is of a later round, and server 1 has returned from this one
      have hlater : done.length + 1 < procs1.length := by
        refine Nat.lt_of_not_le fun hle => ?_
        obtain rfl : r = 0 := by omega
        rw [hhead] at hto0
        exact absurd hto0 (List.cons_ne_nil _ _)
      obtain ⟨b, hb⟩ := h.past1 done.length hlater
      exact absurd hhead (((hsettles _).of_ret1 (h.reaches _) hb).2 next (congrArg Config.proc0 hcur))
    | cons m' rest =>
      rw [hhead] at hto0
      obtain rfl : m = m' := (List.cons.inj hto0).1
      exact ⟨rest, rfl⟩
  have hstep : Step (rounds done.length) ⟨next m, (rounds done.length).proc1, rest, (rounds done.length).to1⟩ := by
    have hrecv := Step.recv0 m next (rounds done.length).proc1 rest (rounds done.length).to1
    rwa [← hrest, ← hcur] at hrecv
  refine ⟨_, h.move0 hstep rfl (fun hle => by omega) ?_ ?_⟩
  · rw [hrest, List.cons_append] at hto0
    have hbefore (d : Config M α β) : ∀ i, i < done.length → (Function.update rounds done.length d i).to0 = [] := by
      intro i hi
      rw [Function.update_of_ne (Nat.ne_of_lt hi)]
      exact hpast i hi
    rw [hr, flatMap_range_add, flatMap_range_of_nil (hbefore _), List.nil_append, Function.update_self,
      (List.cons.inj hto0).2]
    refine congrArg (rest ++ ·) (List.flatMap_congr fun j _ => ?_)
    rw [Function.update_of_ne (by omega)]
  · have hto1 := h.to1
    rw [List.length_append, List.length_singleton] at hto1
    exact hto1.trans (flatMap_update (f := Config.to1) (by rfl)).symm

theorem Apart.act0 (hsettles : ∀ i, Settles (P i) (Q i)) (h : Apart P Q rounds s) {procs : List (Proc M α)}
    {ins outs : List M} (hact : Act P s.procs0 s.to0 s.to1 procs ins outs) :
    ∃ rounds', Apart P Q rounds' ⟨procs, s.procs1, ins, outs⟩ := by
  obtain ⟨procs0, procs1, to0, to1⟩ := s
  cases hact with
  | begin _ _ _ hret => exact ⟨rounds, h.begin0 hret⟩
  | send done m next => exact h.send0
  | recv done m next => exact h.recv0 hsettles

theorem Apart.step (hsettles : ∀ i, Settles (P i) (Q i)) (h : Apart P Q rounds s) (hstep : ServeStep P Q s s') :
    ∃ rounds', Apart P Q rounds' s' := by
  cases hstep with
  | act0 hact => exact h.act0 hsettles hact
  | act1 hact =>
    obtain ⟨rounds', h'⟩ := h.swap.act0 (fun i => (hsettles i).swap) hact
    exact ⟨_, h'.swap⟩

end Apart

/-- When every round settles on its own, the servers are in every round where the round on its own can be. -/
theorem exists_rounds {P : ℕ → Proc M α} {Q : ℕ → Proc M β} (hsettles : ∀ i, Settles (P i) (Q i)) {s : Serving M α β}
    (h : Serves P Q s) : ∃ rounds, Apart P Q rounds s := by
  induction h with
  | init => exact ⟨_, apart_init⟩
  | step _ hstep ih =>
    obtain ⟨rounds, hapart⟩ := ih
    exact hapart.step hsettles hstep

end PrioPlus.Lib.TwoParty

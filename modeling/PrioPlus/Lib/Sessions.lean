import PrioPlus.Lib.Rounds

/-!
# Sessions of rounds that return

When every round of a session returns on a link of its own, then in the session, where the rounds follow each other on
one link and the servers need not be in the same round, each round returns what it returns on its own
(`Apart.result0`), and the servers never wait for each other (`Apart.exists_step`).
-/

namespace PrioPlus.Lib.TwoParty

open Proc Config

variable {M α β : Type} {P : ℕ → Proc M α} {Q : ℕ → Proc M β} {a : ℕ → α} {b : ℕ → β} {rounds : ℕ → Config M α β}
  {s : Serving M α β}

theorem Terminates.swap {p : Proc M α} {q : Proc M β} {x : α} {y : β} (h : Terminates p q x y) : Terminates q p y x :=
  Reaches.terminates h.reaches.swap

theorem Terminates.rest {p : Proc M α} {q : Proc M β} {x : α} {y : β} (h : Terminates p q x y) {c : Config M α β}
    (hc : Reaches (start p q) c) : ∃ n, Steps n c (done x y) := by
  obtain ⟨n, hn⟩ := h
  obtain ⟨k, hk⟩ := hc
  exact ⟨n - k, (hn k c hk).2⟩

/-! ### Results -/

theorem Apart.result1 (hterm : ∀ i, Terminates (P i) (Q i) (a i) (b i)) (h : Apart P Q rounds s) {n : ℕ} {y : β}
    (hn : s.procs1[n]? = some (ret y)) : y = b n := by
  obtain ⟨k, hk⟩ := (hterm n).rest (h.reaches n)
  have hret := (hk.of_ret1 (h.procs1 n _ hn)).1
  cases hret
  rfl

theorem Apart.result0 (hterm : ∀ i, Terminates (P i) (Q i) (a i) (b i)) (h : Apart P Q rounds s) {n : ℕ} {x : α}
    (hn : s.procs0[n]? = some (ret x)) : x = a n :=
  h.swap.result1 (fun i => (hterm i).swap) hn

/-! ### Progress -/

/-- The server waits for a message. -/
def Blocked (procs : List (Proc M α)) (ins : List M) : Prop := ∃ done next, procs = done ++ [recv next] ∧ ins = []

theorem Apart.act_or_blocked (hterm : ∀ i, Terminates (P i) (Q i) (a i) (b i)) (h : Apart P Q rounds s) :
    (∃ procs ins outs, Act P s.procs0 s.to0 s.to1 procs ins outs) ∨ Blocked s.procs0 s.to0 := by
  obtain ⟨procs0, procs1, to0, to1⟩ := s
  rcases List.eq_nil_or_concat procs0 with rfl | ⟨done, p, rfl⟩
  · exact Or.inl ⟨_, _, _, Act.begin [] to0 to1 (List.forall_mem_nil _)⟩
  rw [List.concat_eq_append] at h ⊢
  cases p with
  | ret x =>
    refine Or.inl ⟨_, _, _, Act.begin (done ++ [ret x]) to0 to1 fun p hp => ?_⟩
    rcases List.mem_append.mp hp with hold | hlast
    · obtain ⟨i, hi, rfl⟩ := List.getElem_of_mem hold
      obtain ⟨y, hy⟩ := h.past0 i (by simpa using hi)
      have hproc := h.procs0 i done[i] (getElem?_concat.mpr (Or.inl (List.getElem?_eq_getElem hi)))
      exact ⟨y, hproc.symm.trans hy⟩
    · exact ⟨x, List.mem_singleton.mp hlast⟩
  | send m next => exact Or.inl ⟨_, _, _, Act.send done m next to0 to1⟩
  | recv next =>
    cases to0 with
    | nil => exact Or.inr ⟨done, next, rfl, rfl⟩
    | cons m to0 => exact Or.inl ⟨_, _, _, Act.recv done m next to0 to1⟩
  | stuck =>
    obtain ⟨n, hn⟩ := (hterm done.length).rest (h.reaches done.length)
    have hproc := h.procs0 done.length stuck (getElem?_concat.mpr (Or.inr ⟨rfl, rfl⟩))
    exact absurd hproc (hn.proc0_ne_stuck (ret_ne_stuck _))
  | loop =>
    obtain ⟨n, hn⟩ := (hterm done.length).rest (h.reaches done.length)
    have hproc := h.procs0 done.length loop (getElem?_concat.mpr (Or.inr ⟨rfl, rfl⟩))
    cases hn.proc0_eq (by rintro m next ⟨⟩) (by rintro next ⟨⟩) hproc

/-- A server does not wait for one that is as far as itself or further and waits too. -/
theorem Apart.not_blocked (hterm : ∀ i, Terminates (P i) (Q i) (a i) (b i)) (h : Apart P Q rounds s)
    (hle : s.procs0.length ≤ s.procs1.length) (h0 : Blocked s.procs0 s.to0) (h1 : Blocked s.procs1 s.to1) : False := by
  obtain ⟨procs0, procs1, to0, to1⟩ := s
  obtain ⟨done0, next0, rfl, rfl⟩ := h0
  obtain ⟨done1, next1, rfl, rfl⟩ := h1
  have hproc0 := h.procs0 done0.length _ (getElem?_concat.mpr (Or.inr ⟨rfl, rfl⟩))
  have hlen : done0.length < (done1 ++ [recv next1]).length := Nat.lt_of_succ_le (by simpa using hle)
  have hempty0 : (rounds done0.length).to0 = [] :=
    List.flatMap_eq_nil_iff.mp h.to0.symm _ (List.mem_range.mpr hlen)
  have hempty1 : (rounds done0.length).to1 = [] :=
    List.flatMap_eq_nil_iff.mp h.to1.symm _ (List.mem_range.mpr (by simp))
  have hwaits : Final Step (rounds done0.length) := by
    rw [final_iff, hproc0]
    refine ⟨hempty0, ?_⟩
    rcases Nat.lt_or_ge (done0.length + 1) (done1 ++ [recv next1]).length with hlater | hsame
    · obtain ⟨y, hy⟩ := h.past1 done0.length hlater
      rw [hy]
      trivial
    · have hindex : done0.length = done1.length := by
        rw [List.length_append, List.length_singleton] at hlen hsame
        omega
      rw [h.procs1 done0.length (recv next1) (getElem?_concat.mpr (Or.inr ⟨hindex, rfl⟩))]
      exact hempty1
  obtain ⟨n, hn⟩ := (hterm done0.length).rest (h.reaches done0.length)
  have hend := (steps_iff_runs.mp hn).eq_of_final hwaits
  rw [hend] at hproc0
  cases hproc0

theorem Apart.exists_step (hterm : ∀ i, Terminates (P i) (Q i) (a i) (b i)) (h : Apart P Q rounds s) :
    ∃ s', ServeStep P Q s s' := by
  rcases h.act_or_blocked hterm with ⟨_, _, _, hact⟩ | h0
  · exact ⟨_, ServeStep.act0 hact⟩
  rcases h.swap.act_or_blocked fun i => (hterm i).swap with ⟨_, _, _, hact⟩ | h1
  · exact ⟨_, ServeStep.act1 hact⟩
  rcases Nat.le_total s.procs0.length s.procs1.length with hle | hle
  · exact (h.not_blocked hterm hle h0 h1).elim
  · exact (h.swap.not_blocked (fun i => (hterm i).swap) hle h1 h0).elim

/-- A session of rounds that return: each returns what it returns on its own, and there is always a step. -/
theorem Serves.session (hterm : ∀ i, Terminates (P i) (Q i) (a i) (b i)) (h : Serves P Q s) :
    (∀ n x, s.procs0[n]? = some (ret x) → x = a n) ∧ (∀ n y, s.procs1[n]? = some (ret y) → y = b n) ∧
      ∃ s', ServeStep P Q s s' := by
  obtain ⟨rounds, hapart⟩ := exists_rounds (fun i => (hterm i).settles) h
  exact ⟨fun n x hn => hapart.result0 hterm hn, fun n y hn => hapart.result1 hterm hn, hapart.exists_step hterm⟩

end PrioPlus.Lib.TwoParty

import Mathlib.Tactic.Common

/-!
# Counted runs

`Runs R n x y` is a run of `n` steps. When two steps from one state are the same or lead on to one state, a run that
cannot go on decides them all: every other run is a beginning of it up to the order of its steps (`Runs.after`), so
that there is one state in which the runs end (`Runs.unique`).
-/

namespace PrioPlus.Lib

variable {S T : Type*}

/-- `n` steps. -/
inductive Runs (R : S → S → Prop) : ℕ → S → S → Prop where
  | refl (x : S) : Runs R 0 x x
  | head {n : ℕ} {x y z : S} (hstep : R x y) (hrest : Runs R n y z) : Runs R (n + 1) x z

/-- Two steps from one state are the same, or lead on to a common state. -/
def Commutes (R : S → S → Prop) : Prop := ∀ ⦃x y z⦄, R x y → R x z → y = z ∨ ∃ w, R y w ∧ R z w

/-- The state cannot go on. -/
def Final (R : S → S → Prop) (x : S) : Prop := ∀ y, ¬ R x y

variable {R : S → S → Prop}

namespace Runs

theorem tail {n : ℕ} {x y z : S} (hrun : Runs R n x y) (hstep : R y z) : Runs R (n + 1) x z := by
  induction hrun with
  | refl => exact head hstep (refl z)
  | head hfirst _ ih => exact head hfirst (ih hstep)

theorem map {R' : T → T → Prop} (f : S → T) (hstep : ∀ {x y}, R x y → R' (f x) (f y)) {n : ℕ} {x y : S}
    (hrun : Runs R n x y) : Runs R' n (f x) (f y) := by
  induction hrun with
  | refl x => exact refl (f x)
  | head hfirst _ ih => exact head (hstep hfirst) ih

theorem after_step (hcomm : Commutes R) {n : ℕ} {x y z : S} (hrun : Runs R n x z) (hfinal : Final R z)
    (hstep : R x y) : ∃ m, n = m + 1 ∧ Runs R m y z := by
  induction n generalizing x y with
  | zero =>
    cases hrun
    exact absurd hstep (hfinal y)
  | succ n ih =>
    cases hrun with
    | head hfirst hrest =>
      rcases hcomm hfirst hstep with rfl | ⟨w, hw, hw'⟩
      · exact ⟨n, rfl, hrest⟩
      · obtain ⟨m, rfl, hm⟩ := ih hrest hw
        exact ⟨m + 1, rfl, head hw' hm⟩

theorem after (hcomm : Commutes R) {n k : ℕ} {x y z : S} (hrun : Runs R n x z) (hfinal : Final R z)
    (hother : Runs R k x y) : k ≤ n ∧ Runs R (n - k) y z := by
  induction hother generalizing n with
  | refl => exact ⟨Nat.zero_le n, hrun⟩
  | head hstep _ ih =>
    obtain ⟨m, rfl, hm⟩ := hrun.after_step hcomm hfinal hstep
    obtain ⟨hle, hend⟩ := ih hm
    refine ⟨Nat.succ_le_succ hle, ?_⟩
    rwa [Nat.add_sub_add_right]

theorem eq_of_final {n : ℕ} {x y : S} (hrun : Runs R n x y) (hfinal : Final R x) : x = y := by
  cases hrun with
  | refl => rfl
  | head hstep _ => exact absurd hstep (hfinal _)

theorem unique (hcomm : Commutes R) {n k : ℕ} {x y z : S} (hrun : Runs R n x z) (hfinal : Final R z)
    (hother : Runs R k x y) (hfinal' : Final R y) : y = z :=
  (hrun.after hcomm hfinal hother).2.eq_of_final hfinal'

theorem exists_final {n : ℕ} {x : S} (hbound : ∀ k y, Runs R k x y → k ≤ n) : ∃ k y, Runs R k x y ∧ Final R y := by
  by_contra hnone
  have hlong : ∀ k, ∃ y, Runs R k x y := by
    intro k
    induction k with
    | zero => exact ⟨x, refl x⟩
    | succ k ih =>
      obtain ⟨y, hy⟩ := ih
      have hgo : ∃ z, R y z := by
        by_contra hstuck
        exact hnone ⟨k, y, hy, fun z hz => hstuck ⟨z, hz⟩⟩
      obtain ⟨z, hz⟩ := hgo
      exact ⟨z, hy.tail hz⟩
  obtain ⟨y, hy⟩ := hlong (n + 1)
  exact absurd (hbound (n + 1) y hy) (Nat.not_succ_le_self n)

end Runs

end PrioPlus.Lib

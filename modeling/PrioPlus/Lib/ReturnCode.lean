import Mathlib.Data.List.Basic
import Mathlib.Data.Nat.Notation
import Mathlib.Tactic.Linarith

/-!
# Functions that return a count or an error code

A function moves bytes by transfers and by calls of other functions. Each of them returns an integer of `m` values: how
many bytes it moved or, when it is not positive, an error code. The integers of several calls are checked one after the
other, or added up without a check.

A call is right when it returns a positive count with everything moved, or the code of the first transfer that failed.
`reports_iff` says over which transfers a function and all that it calls are right.
-/

namespace PrioPlus.Lib.ReturnCode

/-- What is known of a call when it has returned: its result, whether everything was moved, and the code of the first
transfer that failed. -/
structure Report where
  ret : ℤ
  whole : Bool
  failure : Option ℤ

/-- A positive result with everything moved, or the code of the first failure. -/
def Report.Right (r : Report) : Prop :=
  match r.failure with
  | none => 0 < r.ret ∧ r.whole = true
  | some code => r.ret = code

/-- The body of a function. -/
inductive Fn where
  /-- `return transfer(n);` -/
  | transfer (n : ℕ)
  /-- `ret = f(); if (ret <= 0) return ret; else total += ret;` for each step, and `return total;` -/
  | checked (steps : List Fn)
  /-- `total += first(); total += second(); return total;` -/
  | summed (first second : Fn)
  /-- A loop that does not end. -/
  | stuck

/-- Induction over the functions and those that they call. -/
@[elab_as_elim, induction_eliminator]
theorem Fn.induct {P : Fn → Prop} (transfer : ∀ n, P (.transfer n))
    (checked : ∀ steps, (∀ f ∈ steps, P f) → P (.checked steps))
    (summed : ∀ first second, P first → P second → P (.summed first second)) (stuck : P .stuck) (f : Fn) : P f := by
  refine @Fn.rec P (fun steps => ∀ f ∈ steps, P f) transfer checked summed stuck ?_ ?_ f
  · exact fun _ h => absurd h List.not_mem_nil
  · intro f steps hf hsteps g hg
    rcases List.mem_cons.mp hg with rfl | hg
    · exact hf
    · exact hsteps g hg

mutual

/-- How many bytes a function is to move. -/
def Fn.bytes : Fn → ℕ
  | .transfer n => n
  | .checked steps => bytesAll steps
  | .summed first second => first.bytes + second.bytes
  | .stuck => 0

def bytesAll : List Fn → ℕ
  | [] => 0
  | f :: steps => f.bytes + bytesAll steps

end

/-- Transfers over a state. Their codes are integers of `m` values, and the count of a whole transfer is its length. -/
structure Link (m : ℕ) (σ : Type) where
  transfer : ℕ → σ → Option (Report × σ)
  code_nonpos : ∀ {n s r s' code}, transfer n s = some (r, s') → r.failure = some code → code ≤ 0 ∧ code.bmod m = code
  ret_whole : ∀ {n s r s'}, transfer n s = some (r, s') → r.failure = none → r.whole = true → r.ret = (n : ℤ).bmod m

section Semantics

variable {m : ℕ} {σ : Type} (link : Link m σ)

mutual

/-- The report of a function, those of the calls that it makes, and the state after it; or nothing, when it does not
return. -/
def run : Fn → σ → Option (Report × List Report × σ)
  | .transfer n, s => (link.transfer n s).map fun (r, s') => (r, [], s')
  | .checked steps, s => runChecked steps 0 s
  | .summed first second, s =>
    (run first s).bind fun (r, calls, s') => (run second s').map fun (r', calls', s'') =>
      (⟨((0 + r.ret).bmod m + r'.ret).bmod m, r.whole && r'.whole, r.failure.or r'.failure⟩,
        r :: calls ++ r' :: calls', s'')
  | .stuck, _ => none

/-- The steps that are left, with the total so far. -/
def runChecked : List Fn → ℤ → σ → Option (Report × List Report × σ)
  | [], total, s => some (⟨total, true, none⟩, [], s)
  | f :: steps, total, s => (run f s).bind fun (r, calls, s') =>
    if r.ret ≤ 0 then some (⟨r.ret, false, r.failure⟩, r :: calls, s')
    else (runChecked steps ((total + r.ret).bmod m) s').map fun (r', calls', s'') =>
      (⟨r'.ret, r.whole && r'.whole, r.failure.or r'.failure⟩, r :: calls ++ calls', s'')

end

/-- The function returns, and it and every call that it makes are right. -/
def Reports (f : Fn) (s : σ) : Prop :=
  ∃ r calls s', run link f s = some (r, calls, s') ∧ ∀ call ∈ r :: calls, call.Right

mutual

/-- Every transfer is whole, and no number of bytes that is returned turns negative. -/
def Goes : Fn → σ → σ → Prop
  | .transfer n, s, s' =>
    (∃ r, link.transfer n s = some (r, s') ∧ r.failure = none ∧ r.whole = true) ∧ 0 < (n : ℤ).bmod m
  | .checked steps, s, s' => GoesAll steps s s' ∧ 0 < (bytesAll steps : ℤ).bmod m
  | .summed first second, s, s' =>
    (∃ mid, Goes first s mid ∧ Goes second mid s') ∧ 0 < ((first.bytes + second.bytes : ℕ) : ℤ).bmod m
  | .stuck, _, _ => False

def GoesAll : List Fn → σ → σ → Prop
  | [], s, s' => s = s'
  | f :: steps, s, s' => ∃ mid, Goes f s mid ∧ GoesAll steps mid s'

end

mutual

/-- A transfer fails with `code` after others that are whole. When results are added up it is one of the first call, and
the second call fails with 0. -/
def Fails : Fn → ℤ → σ → σ → Prop
  | .transfer n, code, s, s' => ∃ r, link.transfer n s = some (r, s') ∧ r.failure = some code ∧ r.ret = code
  | .checked steps, code, s, s' => FailsIn steps code s s'
  | .summed first second, code, s, s' => ∃ mid, Fails first code s mid ∧ Fails second 0 mid s'
  | .stuck, _, _, _ => False

def FailsIn : List Fn → ℤ → σ → σ → Prop
  | [], _, _, _ => False
  | f :: steps, code, s, s' => Fails f code s s' ∨ ∃ mid, Goes link f s mid ∧ FailsIn steps code mid s'

end

variable {link} {f first second : Fn} {steps : List Fn} {s mid s' : σ} {r r' : Report} {calls calls' : List Report}

/-! ### One call -/

theorem run_transfer {n : ℕ} (h : link.transfer n s = some (r, s')) :
    run link (.transfer n) s = some (r, [], s') := by
  rw [run, h]
  rfl

theorem run_summed (hfirst : run link first s = some (r, calls, mid))
    (hsecond : run link second mid = some (r', calls', s')) :
    run link (.summed first second) s = some
      (⟨((0 + r.ret).bmod m + r'.ret).bmod m, r.whole && r'.whole, r.failure.or r'.failure⟩, r :: calls ++ r' :: calls',
        s') := by
  simp only [run, hfirst, Option.bind_some, hsecond, Option.map_some]

theorem runChecked_failed (h : run link f s = some (r, calls, s')) (hret : r.ret ≤ 0) (total : ℤ) :
    runChecked link (f :: steps) total s = some (⟨r.ret, false, r.failure⟩, r :: calls, s') := by
  rw [runChecked, h, Option.bind_some]
  exact if_pos hret

theorem runChecked_passed (h : run link f s = some (r, calls, mid)) (hret : 0 < r.ret) {total : ℤ}
    (hrest : runChecked link steps ((total + r.ret).bmod m) mid = some (r', calls', s')) :
    runChecked link (f :: steps) total s =
      some (⟨r'.ret, r.whole && r'.whole, r.failure.or r'.failure⟩, r :: calls ++ calls', s') := by
  rw [runChecked, h, Option.bind_some]
  simp only [not_le.mpr hret, if_false]
  rw [hrest]
  rfl

theorem bmod_add_bmod_cast (a b : ℕ) : ((a : ℤ).bmod m + (b : ℤ).bmod m).bmod m = ((a + b : ℕ) : ℤ).bmod m := by
  rw [Int.bmod_add_bmod, Int.add_bmod_bmod, Nat.cast_add]

theorem right_whole {b : ℕ} (h : 0 < (b : ℤ).bmod m) : Report.Right ⟨(b : ℤ).bmod m, true, none⟩ := ⟨h, rfl⟩

/-! ### What goes through and what fails is right -/

theorem Goes.pos (h : Goes link f s s') : 0 < (f.bytes : ℤ).bmod m := by
  cases f with
  | transfer n => exact h.2
  | checked steps => exact h.2
  | summed first second => exact h.2
  | stuck => exact h.elim

theorem Fails.code_nonpos {code : ℤ} (h : Fails link f code s s') : code ≤ 0 ∧ code.bmod m = code := by
  induction f generalizing code s s' with
  | transfer n =>
    obtain ⟨r, hrun, hfailure, -⟩ := h
    exact link.code_nonpos hrun hfailure
  | checked steps ih =>
    have hsteps : FailsIn link steps code s s' := h
    clear h
    induction steps generalizing s with
    | nil => exact hsteps.elim
    | cons f steps ihsteps =>
      rcases hsteps with hfails | ⟨mid, -, hrest⟩
      · exact ih f List.mem_cons_self hfails
      · exact ihsteps (fun g hg => ih g (List.mem_cons_of_mem _ hg)) hrest
  | summed first second ihfirst ihsecond =>
    obtain ⟨mid, hfirst, -⟩ := h
    exact ihfirst hfirst
  | stuck => exact h.elim

variable (link) in
/-- The run of a function that goes through. -/
def RunsWhole (f : Fn) (s s' : σ) : Prop :=
  ∃ calls, run link f s = some (⟨(f.bytes : ℤ).bmod m, true, none⟩, calls, s') ∧ ∀ call ∈ calls, call.Right

variable (link) in
/-- The run of a function that fails. -/
def RunsFailed (f : Fn) (code : ℤ) (s s' : σ) : Prop :=
  ∃ whole calls, run link f s = some (⟨code, whole, some code⟩, calls, s') ∧ ∀ call ∈ calls, call.Right

theorem runChecked_whole (ih : ∀ f ∈ steps, ∀ s s', Goes link f s s' → RunsWhole link f s s')
    (h : GoesAll link steps s s') (b : ℕ) :
    ∃ calls, runChecked link steps ((b : ℤ).bmod m) s =
      some (⟨((b + bytesAll steps : ℕ) : ℤ).bmod m, true, none⟩, calls, s') ∧ ∀ call ∈ calls, call.Right := by
  induction steps generalizing s b with
  | nil =>
    obtain rfl : s = s' := h
    exact ⟨[], rfl, fun call hcall => absurd hcall List.not_mem_nil⟩
  | cons f steps ihsteps =>
    obtain ⟨mid, hgoes, hrest⟩ := h
    obtain ⟨calls, hrun, hcalls⟩ := ih f List.mem_cons_self _ _ hgoes
    obtain ⟨calls', hrun', hcalls'⟩ := ihsteps (fun g hg => ih g (List.mem_cons_of_mem _ hg)) hrest (b + f.bytes)
    rw [← bmod_add_bmod_cast] at hrun'
    have hwhole := runChecked_passed hrun hgoes.pos hrun'
    rw [Nat.add_assoc] at hwhole
    refine ⟨_, hwhole, ?_⟩
    simp only [List.cons_append, List.forall_mem_cons, List.forall_mem_append]
    exact ⟨right_whole hgoes.pos, hcalls, hcalls'⟩

theorem runs_whole (h : Goes link f s s') : RunsWhole link f s s' := by
  induction f generalizing s s' with
  | transfer n =>
    obtain ⟨⟨⟨ret, whole, failure⟩, hrun, rfl, rfl⟩, -⟩ := h
    obtain rfl : ret = _ := link.ret_whole hrun rfl rfl
    exact ⟨[], run_transfer hrun, fun call hcall => absurd hcall List.not_mem_nil⟩
  | checked steps ih =>
    obtain ⟨calls, hrun, hcalls⟩ := runChecked_whole (fun f hf _ _ => ih f hf) h.1 0
    rw [Nat.zero_add, Nat.cast_zero, Int.zero_bmod] at hrun
    exact ⟨calls, hrun, hcalls⟩
  | summed first second ihfirst ihsecond =>
    obtain ⟨⟨mid, hfirst, hsecond⟩, -⟩ := h
    obtain ⟨calls, hrun, hcalls⟩ := ihfirst hfirst
    obtain ⟨calls', hrun', hcalls'⟩ := ihsecond hsecond
    have hwhole := run_summed hrun hrun'
    rw [zero_add, Int.bmod_bmod, bmod_add_bmod_cast] at hwhole
    refine ⟨_, hwhole, ?_⟩
    simp only [List.cons_append, List.forall_mem_cons, List.forall_mem_append]
    exact ⟨right_whole hfirst.pos, hcalls, right_whole hsecond.pos, hcalls'⟩
  | stuck => exact h.elim

theorem runChecked_failsIn {code : ℤ}
    (ih : ∀ f ∈ steps, ∀ code s s', Fails link f code s s' → RunsFailed link f code s s')
    (h : FailsIn link steps code s s') (total : ℤ) :
    ∃ whole calls, runChecked link steps total s = some (⟨code, whole, some code⟩, calls, s') ∧
      ∀ call ∈ calls, call.Right := by
  induction steps generalizing s total with
  | nil => exact h.elim
  | cons f steps ihsteps =>
    rcases h with hfails | ⟨mid, hgoes, hrest⟩
    · obtain ⟨whole, calls, hrun, hcalls⟩ := ih f List.mem_cons_self _ _ _ hfails
      exact ⟨false, _, runChecked_failed hrun hfails.code_nonpos.1 total, List.forall_mem_cons.mpr ⟨rfl, hcalls⟩⟩
    · obtain ⟨calls, hrun, hcalls⟩ := runs_whole hgoes
      obtain ⟨whole, calls', hrun', hcalls'⟩ := ihsteps (fun g hg => ih g (List.mem_cons_of_mem _ hg)) hrest _
      refine ⟨_, _, runChecked_passed hrun hgoes.pos hrun', ?_⟩
      simp only [List.cons_append, List.forall_mem_cons, List.forall_mem_append]
      exact ⟨right_whole hgoes.pos, hcalls, hcalls'⟩

theorem runs_failed {code : ℤ} (h : Fails link f code s s') : RunsFailed link f code s s' := by
  induction f generalizing code s s' with
  | transfer n =>
    obtain ⟨⟨ret, whole, failure⟩, hrun, hfailure, hret⟩ := h
    obtain rfl : failure = some code := hfailure
    obtain rfl : ret = code := hret
    exact ⟨whole, [], run_transfer hrun, fun call hcall => absurd hcall List.not_mem_nil⟩
  | checked steps ih => exact runChecked_failsIn (fun f hf _ _ _ => ih f hf) h 0
  | summed first second ihfirst ihsecond =>
    obtain ⟨mid, hfirst, hsecond⟩ := h
    obtain ⟨whole, calls, hrun, hcalls⟩ := ihfirst hfirst
    obtain ⟨whole', calls', hrun', hcalls'⟩ := ihsecond hsecond
    have hfailed := run_summed hrun hrun'
    simp only [zero_add, add_zero, hfirst.code_nonpos.2] at hfailed
    refine ⟨_, _, hfailed, ?_⟩
    simp only [List.cons_append, List.forall_mem_cons, List.forall_mem_append]
    exact ⟨rfl, hcalls, rfl, hcalls'⟩
  | stuck => exact h.elim

/-! ### What is right goes through or fails -/

theorem add_bmod_eq_left {a b : ℤ} (ha : a.bmod m = a) (hb : b.bmod m = b) : (a + b).bmod m = a ↔ b = 0 := by
  have hcancel := @Int.bmod_add_cancel_left b m 0 a
  rwa [add_zero, ha, hb, Int.zero_bmod] at hcancel

/-- How a right call of a function ends. -/
def Ends (link : Link m σ) (f : Fn) (s s' : σ) (r : Report) : Prop :=
  (Goes link f s s' ∧ r.failure = none) ∨ ∃ code, Fails link f code s s' ∧ r.failure = some code

theorem Ends.of_pos (h : Ends link f s s' r) (hright : r.Right) (hret : 0 < r.ret) :
    Goes link f s s' ∧ r.failure = none := by
  rcases h with hgoes | ⟨code, hfails, hfailure⟩
  · exact hgoes
  · rw [Report.Right, hfailure] at hright
    exact absurd hret (not_lt.mpr (hright ▸ hfails.code_nonpos.1))

theorem Ends.of_nonpos (h : Ends link f s s' r) (hright : r.Right) (hret : r.ret ≤ 0) :
    Fails link f r.ret s s' ∧ r.failure = some r.ret := by
  rcases h with ⟨-, hfailure⟩ | ⟨code, hfails, hfailure⟩
  · rw [Report.Right, hfailure] at hright
    exact absurd hright.1 (not_lt.mpr hret)
  · rw [Report.Right, hfailure] at hright
    obtain rfl : r.ret = code := hright
    exact ⟨hfails, hfailure⟩

theorem Goes.ret_eq (h : Goes link f s s') (hrun : run link f s = some (r, calls, s')) :
    r.ret = (f.bytes : ℤ).bmod m := by
  obtain ⟨calls', hwhole, -⟩ := runs_whole h
  obtain ⟨rfl, -⟩ := Prod.mk.inj (Option.some.inj (hrun.symm.trans hwhole))
  rfl

theorem Ends.ret_bmod (h : Ends link f s s' r) (hrun : run link f s = some (r, calls, s')) (hright : r.Right) :
    r.ret.bmod m = r.ret := by
  rcases h with ⟨hgoes, -⟩ | ⟨code, hfails, hfailure⟩
  · rw [hgoes.ret_eq hrun, Int.bmod_bmod]
  · rw [Report.Right, hfailure] at hright
    rw [hright]
    exact hfails.code_nonpos.2

theorem runChecked_ends
    (ih : ∀ f ∈ steps, ∀ s r calls s', run link f s = some (r, calls, s') → (∀ call ∈ r :: calls, call.Right) →
      Ends link f s s' r)
    {total : ℤ} (h : runChecked link steps total s = some (r, calls, s')) (hcalls : ∀ call ∈ calls, call.Right) :
    (GoesAll link steps s s' ∧ r.failure = none) ∨ ∃ code, FailsIn link steps code s s' ∧ r.failure = some code := by
  induction steps generalizing total s r calls with
  | nil =>
    obtain ⟨rfl, -, rfl⟩ : _ ∧ _ ∧ _ := by simpa [runChecked] using h
    exact Or.inl ⟨rfl, rfl⟩
  | cons f steps ihsteps =>
    rw [runChecked] at h
    obtain ⟨⟨r₁, calls₁, mid⟩, hrun, h⟩ := Option.bind_eq_some_iff.mp h
    dsimp only at h
    by_cases hret : r₁.ret ≤ 0
    · rw [if_pos hret] at h
      obtain ⟨rfl, rfl, rfl⟩ : _ ∧ _ ∧ _ := by simpa only [Option.some.injEq, Prod.mk.injEq] using h
      have hends := ih f List.mem_cons_self _ _ _ _ hrun hcalls
      obtain ⟨hfails, hfailure⟩ := hends.of_nonpos (hcalls _ List.mem_cons_self) hret
      exact Or.inr ⟨_, Or.inl hfails, hfailure⟩
    · rw [if_neg hret] at h
      obtain ⟨⟨r₂, calls₂, last⟩, hrest, h⟩ := Option.map_eq_some_iff.mp h
      obtain ⟨rfl, rfl, rfl⟩ : _ ∧ _ ∧ _ := by simpa only [Prod.mk.injEq] using h
      obtain ⟨hcalls₁, hcalls₂⟩ := List.forall_mem_append.mp hcalls
      have hends := ih f List.mem_cons_self _ _ _ _ hrun hcalls₁
      obtain ⟨hgoes, hnone⟩ := hends.of_pos (hcalls₁ _ List.mem_cons_self) (not_le.mp hret)
      simp only [hnone, Option.none_or]
      have hlast := ihsteps (fun g hg => ih g (List.mem_cons_of_mem _ hg)) hrest hcalls₂
      rcases hlast with ⟨hall, hfailure⟩ | ⟨code, hin, hfailure⟩
      · exact Or.inl ⟨⟨mid, hgoes, hall⟩, hfailure⟩
      · exact Or.inr ⟨code, Or.inr ⟨mid, hgoes, hin⟩, hfailure⟩

theorem ends_of_right (h : run link f s = some (r, calls, s')) (hright : ∀ call ∈ r :: calls, call.Right) :
    Ends link f s s' r := by
  induction f generalizing s r calls s' with
  | transfer n =>
    rw [run] at h
    obtain ⟨⟨r, s'⟩, htransfer, h⟩ := Option.map_eq_some_iff.mp h
    obtain ⟨rfl, -, rfl⟩ : _ ∧ _ ∧ _ := by simpa using h
    have hr := hright _ List.mem_cons_self
    cases hfailure : r.failure with
    | none =>
      rw [Report.Right, hfailure] at hr
      refine Or.inl ⟨⟨⟨r, htransfer, hfailure, hr.2⟩, ?_⟩, hfailure⟩
      rw [← link.ret_whole htransfer hfailure hr.2]
      exact hr.1
    | some code =>
      rw [Report.Right, hfailure] at hr
      exact Or.inr ⟨code, ⟨r, htransfer, hfailure, hr⟩, hfailure⟩
  | checked steps ih =>
    obtain ⟨hr, hcalls⟩ := List.forall_mem_cons.mp hright
    rcases runChecked_ends (fun f hf _ _ _ _ => ih f hf) h hcalls with ⟨hall, hfailure⟩ | hfails
    · obtain ⟨calls', hwhole, -⟩ := runChecked_whole (fun f _ _ _ => runs_whole) hall 0
      rw [Nat.zero_add, Nat.cast_zero, Int.zero_bmod] at hwhole
      obtain ⟨rfl, -⟩ := Prod.mk.inj (Option.some.inj (h.symm.trans hwhole))
      exact Or.inl ⟨⟨hall, hr.1⟩, hfailure⟩
    · exact Or.inr hfails
  | summed first second ihfirst ihsecond =>
    rw [run] at h
    obtain ⟨⟨r₁, calls₁, mid⟩, hrun₁, h⟩ := Option.bind_eq_some_iff.mp h
    obtain ⟨⟨r₂, calls₂, last⟩, hrun₂, h⟩ := Option.map_eq_some_iff.mp h
    obtain ⟨rfl, rfl, rfl⟩ : _ ∧ _ ∧ _ := by simpa only [Prod.mk.injEq] using h
    obtain ⟨hr, hcalls⟩ := List.forall_mem_cons.mp hright
    obtain ⟨hcalls₁, hcalls₂⟩ := List.forall_mem_append.mp hcalls
    have hr₁ := hcalls₁ _ List.mem_cons_self
    have hr₂ := hcalls₂ _ List.mem_cons_self
    have hends₁ := ihfirst hrun₁ hcalls₁
    have hends₂ := ihsecond hrun₂ hcalls₂
    have hint₁ := hends₁.ret_bmod hrun₁ hr₁
    have hint₂ := hends₂.ret_bmod hrun₂ hr₂
    rw [zero_add, hint₁] at hr
    rcases le_or_gt r₁.ret 0 with hret₁ | hret₁
    · obtain ⟨hfails₁, hfailure₁⟩ := hends₁.of_nonpos hr₁ hret₁
      -- the sum is the first code only when the second result is 0
      have hsum : (r₁.ret + r₂.ret).bmod m = r₁.ret := by simpa [Report.Right, hfailure₁] using hr
      have hzero : r₂.ret = 0 := (add_bmod_eq_left hint₁ hint₂).mp hsum
      have hfails₂ := (hends₂.of_nonpos hr₂ hzero.le).1
      rw [hzero] at hfails₂
      exact Or.inr ⟨r₁.ret, ⟨mid, hfails₁, hfails₂⟩, by simp [hfailure₁]⟩
    · obtain ⟨hgoes₁, hnone₁⟩ := hends₁.of_pos hr₁ hret₁
      rcases le_or_gt r₂.ret 0 with hret₂ | hret₂
      · obtain ⟨-, hfailure₂⟩ := hends₂.of_nonpos hr₂ hret₂
        have hsum : (r₁.ret + r₂.ret).bmod m = r₂.ret := by simpa [Report.Right, hnone₁, hfailure₂] using hr
        rw [add_comm] at hsum
        exact absurd ((add_bmod_eq_left hint₂ hint₁).mp hsum) hret₁.ne'
      · obtain ⟨hgoes₂, hnone₂⟩ := hends₂.of_pos hr₂ hret₂
        have hsum : 0 < (r₁.ret + r₂.ret).bmod m := by
          simp only [Report.Right, hnone₁, hnone₂, Option.none_or] at hr
          exact hr.1
        refine Or.inl ⟨⟨⟨mid, hgoes₁, hgoes₂⟩, ?_⟩, by simp [hnone₁, hnone₂]⟩
        rwa [hgoes₁.ret_eq hrun₁, hgoes₂.ret_eq hrun₂, bmod_add_bmod_cast] at hsum
  | stuck => exact absurd h (by simp [run])

/-- A function and all that it calls are right exactly when it goes through or fails with a code that no sum hides. -/
theorem reports_iff : Reports link f s ↔ (∃ s', Goes link f s s') ∨ ∃ code s', Fails link f code s s' := by
  constructor
  · rintro ⟨r, calls, s', hrun, hright⟩
    rcases ends_of_right hrun hright with ⟨hgoes, -⟩ | ⟨code, hfails, -⟩
    · exact Or.inl ⟨s', hgoes⟩
    · exact Or.inr ⟨code, s', hfails⟩
  · rintro (⟨s', hgoes⟩ | ⟨code, s', hfails⟩)
    · obtain ⟨calls, hrun, hcalls⟩ := runs_whole hgoes
      exact ⟨_, calls, s', hrun, List.forall_mem_cons.mpr ⟨right_whole hgoes.pos, hcalls⟩⟩
    · obtain ⟨whole, calls, hrun, hcalls⟩ := runs_failed hfails
      exact ⟨_, calls, s', hrun, List.forall_mem_cons.mpr ⟨rfl, hcalls⟩⟩

end Semantics

end PrioPlus.Lib.ReturnCode

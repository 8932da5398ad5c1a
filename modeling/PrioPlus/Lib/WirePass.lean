import Mathlib.Data.List.Basic
import Mathlib.Logic.Function.Basic

/-!
# One pass over a straight-line program

A program is a list of gates, and gate `i` writes wire `i`. A pass visits the gates in order with a counter state:
`rule s g w` is the value gate `g` writes when the wires hold `w` and the state is `s`, and `next s g` the state
after it. When a rule reads only wires that the earlier gates wrote, the final wires satisfy every gate's equation
at once (`pass_fix`), whatever the wires held before the pass.
-/

namespace PrioPlus.Lib.WirePass

variable {G S V : Type*}

/-- The pass over `gates`, the first of which is gate `i`, with state `s` and wires `w`. -/
def pass (next : S → G → S) (rule : S → G → (ℕ → V) → V) : List G → ℕ → S → (ℕ → V) → (ℕ → V)
  | [], _, _, w => w
  | g :: gates, i, s, w => pass next rule gates (i + 1) (next s g) (Function.update w i (rule s g w))

variable (next : S → G → S) (rule : S → G → (ℕ → V) → V)

theorem pass_append (gates gates' : List G) (i : ℕ) (s : S) (w : ℕ → V) :
    pass next rule (gates ++ gates') i s w =
      pass next rule gates' (i + gates.length) (gates.foldl next s) (pass next rule gates i s w) := by
  induction gates generalizing i s w with
  | nil => rfl
  | cons g gates ih =>
    rw [List.cons_append, pass, ih, List.length_cons, List.foldl_cons, pass]
    congr 1
    omega

theorem pass_of_lt (gates : List G) {i j : ℕ} (hj : j < i) (s : S) (w : ℕ → V) :
    pass next rule gates i s w j = w j := by
  induction gates generalizing i s w with
  | nil => rfl
  | cons g gates ih => rw [pass, ih (by omega), Function.update_of_ne (by omega)]

variable {rule}

theorem pass_fix {reads : G → List ℕ}
    (hlocal : ∀ s g w w', (∀ j ∈ reads g, w j = w' j) → rule s g w = rule s g w')
    (gates : List G) (i : ℕ) (s : S) (w : ℕ → V)
    (hback : ∀ k g, gates[k]? = some g → ∀ j ∈ reads g, j < i + k)
    {k : ℕ} {g : G} (hg : gates[k]? = some g) :
    pass next rule gates i s w (i + k) =
      rule ((gates.take k).foldl next s) g (pass next rule gates i s w) := by
  induction gates generalizing i s w k with
  | nil => simp at hg
  | cons g₀ gates ih =>
    rw [pass]
    cases k with
    | zero =>
      obtain rfl : g₀ = g := by simpa using hg
      have hreads : ∀ j ∈ reads g₀, w j =
          pass next rule gates (i + 1) (next s g₀) (Function.update w i (rule s g₀ w)) j := by
        intro j hj
        have hlt : j < i := hback 0 g₀ rfl j hj
        rw [pass_of_lt _ _ _ (by omega), Function.update_of_ne (by omega)]
      have hself := pass_of_lt next rule gates (Nat.lt_add_one i) (next s g₀) (Function.update w i (rule s g₀ w))
      rw [Function.update_self] at hself
      exact hself.trans (hlocal s g₀ _ _ hreads)
    | succ k =>
      have hback' : ∀ k' g', gates[k']? = some g' → ∀ j ∈ reads g', j < i + 1 + k' := by
        intro k' g' hg' j hj
        have := hback (k' + 1) g' (by simpa using hg') j hj
        omega
      have hstep := ih (i + 1) (next s g₀) (Function.update w i (rule s g₀ w)) hback' (by simpa using hg)
      rw [show i + (k + 1) = i + 1 + k by omega, hstep]
      rfl

end PrioPlus.Lib.WirePass

import Mathlib.Data.List.Basic
import Mathlib.Logic.Function.Basic

/-!
# Arrays, pointers and values to keep

Memory of several arrays, with pointers into them. Accesses are checked: one outside of its array fails, and so does a
write to a cell of `keep`, the cells whose values are read later. A loop that writes cells of its own in each round
leaves all these values behind (`loop_assigns`).
-/

namespace PrioPlus.Lib.Buffers

universe u

variable {ι α : Type u}

/-- A cell of an array, or a pointer to it. -/
structure Cell (ι : Type u) where
  array : ι
  index : ℕ
deriving DecidableEq

/-- The pointer `&p[i]`. -/
instance : HAdd (Cell ι) ℕ (Cell ι) := ⟨fun p i => { p with index := p.index + i }⟩

@[simp] theorem add_array (p : Cell ι) (i : ℕ) : (p + i).array = p.array := rfl

@[simp] theorem add_index (p : Cell ι) (i : ℕ) : (p + i).index = p.index + i := rfl

theorem add_add (p : Cell ι) (i j : ℕ) : p + i + j = p + (i + j) := by
  show Cell.mk p.array (p.index + i + j) = Cell.mk p.array (p.index + (i + j))
  rw [Nat.add_assoc]

@[simp] theorem add_inj {p : Cell ι} {i j : ℕ} : p + i = p + j ↔ i = j := by
  constructor
  · intro h
    exact Nat.add_left_cancel (congrArg Cell.index h)
  · rintro rfl
    rfl

theorem ne_of_array {p q : Cell ι} (h : p.array ≠ q.array) (i j : ℕ) : p + i ≠ q + j := by
  intro heq
  have harray : (p + i).array = (q + j).array := congrArg Cell.array heq
  exact h harray

/-- The `n` cells from `p` on. -/
def cells (p : Cell ι) (n : ℕ) : List (Cell ι) := (List.range n).map (p + ·)

theorem mem_cells {p c : Cell ι} {n : ℕ} : c ∈ cells p n ↔ ∃ i < n, p + i = c := by
  simp [cells]

/-- The `n` cells from `p` on are in another array than `q`, or before it. -/
def Before (p : Cell ι) (n : ℕ) (q : Cell ι) : Prop := p.array = q.array → p.index + n ≤ q.index

theorem Before.ne {p q : Cell ι} {n i : ℕ} (h : Before p n q) (hi : i < n) (j : ℕ) : p + i ≠ q + j := by
  intro heq
  have hindex : p.index + i = q.index + j := congrArg Cell.index heq
  have harray : (p + i).array = (q + j).array := congrArg Cell.array heq
  have hbefore := h harray
  omega

theorem before_add (p : Cell ι) (n : ℕ) : Before p n (p + n) := fun _ => Nat.le_refl _

theorem before_of_array {p q : Cell ι} {n : ℕ} (h : p.array ≠ q.array) : Before p n q := fun harray => absurd harray h

/-! ### Checked accesses -/

/-- The sizes of the arrays, and the cells that are read later. -/
structure Arena (ι : Type u) where
  size : ι → ℕ
  keep : List (Cell ι)

namespace Arena

variable (A : Arena ι)

/-- The cells `cs` are read later, too. -/
def keeping (cs : List (Cell ι)) : Arena ι := { A with keep := cs ++ A.keep }

def InBounds (c : Cell ι) : Prop := c.index < A.size c.array

instance (c : Cell ι) : Decidable (A.InBounds c) := inferInstanceAs (Decidable (_ < _))

def Fits (p : Cell ι) (n : ℕ) : Prop := p.index + n ≤ A.size p.array

variable {A}

theorem Fits.inBounds {p : Cell ι} {n i : ℕ} (h : A.Fits p n) (hi : i < n) : A.InBounds (p + i) :=
  Nat.lt_of_lt_of_le (Nat.add_lt_add_left hi p.index) h

theorem Fits.add {p : Cell ι} {m n k : ℕ} (h : A.Fits p n) (hk : k + m ≤ n) : A.Fits (p + k) m := by
  show p.index + k + m ≤ A.size p.array
  have hfits : p.index + n ≤ A.size p.array := h
  omega

theorem Fits.mono {p : Cell ι} {m n : ℕ} (h : A.Fits p n) (hmn : m ≤ n) : A.Fits p m :=
  Nat.le_trans (Nat.add_le_add_left hmn _) h

variable (A) (m : Cell ι → α)

def read (c : Cell ι) : Option α := if A.InBounds c then some (m c) else none

variable {A m} in
theorem read_eq {c : Cell ι} (h : A.InBounds c) : A.read m c = some (m c) := if_pos h

variable [DecidableEq ι]

def write (c : Cell ι) (v : α) : Option (Cell ι → α) :=
  if A.InBounds c ∧ c ∉ A.keep then some (Function.update m c v) else none

/-- `dst` gets `f` of `src`. -/
def assign (f : α → α) (dst src : Cell ι) : Option (Cell ι → α) := do
  let x ← A.read m src
  A.write m dst (f x)

/-- `dst` gets `f` of two cells. -/
def assign₂ (f : α → α → α) (dst fst snd : Cell ι) : Option (Cell ι → α) := do
  let x ← A.read m fst
  let y ← A.read m snd
  A.write m dst (f x y)

variable {A m}

theorem write_eq {c : Cell ι} (h : A.InBounds c) (hkeep : c ∉ A.keep) (v : α) :
    A.write m c v = some (Function.update m c v) := if_pos ⟨h, hkeep⟩

theorem assign_eq (f : α → α) {dst src : Cell ι} (hsrc : A.InBounds src) (hdst : A.InBounds dst)
    (hkeep : dst ∉ A.keep) : A.assign m f dst src = some (Function.update m dst (f (m src))) := by
  rw [assign, read_eq hsrc]
  exact write_eq hdst hkeep _

theorem assign₂_eq (f : α → α → α) {dst fst snd : Cell ι} (hfst : A.InBounds fst) (hsnd : A.InBounds snd)
    (hdst : A.InBounds dst) (hkeep : dst ∉ A.keep) :
    A.assign₂ m f dst fst snd = some (Function.update m dst (f (m fst) (m snd))) := by
  rw [assign₂, read_eq hfst, read_eq hsnd]
  exact write_eq hdst hkeep _

end Arena

/-! ### Loops -/

/-- `m'` is `m` with the values `ws`. -/
structure Assigns (m : Cell ι → α) (ws : List (Cell ι × α)) (m' : Cell ι → α) : Prop where
  hit : ∀ w ∈ ws, m' w.1 = w.2
  miss : ∀ c, (∀ w ∈ ws, w.1 ≠ c) → m' c = m c

theorem Assigns.append {m m' m'' : Cell ι → α} {ws vs : List (Cell ι × α)} (h : Assigns m ws m')
    (h' : Assigns m' vs m'') (hdisjoint : ∀ w ∈ ws, ∀ v ∈ vs, v.1 ≠ w.1) : Assigns m (ws ++ vs) m'' := by
  constructor
  · intro w hw
    rcases List.mem_append.mp hw with hw | hw
    · rw [h'.miss w.1 (hdisjoint w hw), h.hit w hw]
    · exact h'.hit w hw
  · intro c hc
    rw [h'.miss c fun v hv => hc v (List.mem_append_right ws hv),
      h.miss c fun w hw => hc w (List.mem_append_left vs hw)]

theorem assigns_update [DecidableEq ι] (m : Cell ι → α) (c : Cell ι) (v : α) :
    Assigns m [(c, v)] (Function.update m c v) := by
  constructor
  · intro w hw
    rw [List.mem_singleton.mp hw, Function.update_self]
  · intro d hd
    exact Function.update_of_ne (hd _ List.mem_cons_self).symm v m

/-- A loop over `0, …, n - 1`. -/
def loop (n : ℕ) (body : ℕ → (Cell ι → α) → Option (Cell ι → α)) (m : Cell ι → α) : Option (Cell ι → α) :=
  (List.range n).foldlM (fun m i => body i m) m

theorem loop_succ (n : ℕ) (body : ℕ → (Cell ι → α) → Option (Cell ι → α)) (m : Cell ι → α) :
    loop (n + 1) body m = (loop n body m).bind (body n) := by
  rw [loop, List.range_succ, List.foldlM_append]
  apply Option.bind_congr
  intro m' _
  exact bind_pure (body n m')

/-- Each round writes `ws i`, from memory that the rounds before it have changed at their own cells only. -/
theorem loop_assigns {n : ℕ} {body : ℕ → (Cell ι → α) → Option (Cell ι → α)} {m : Cell ι → α}
    {ws : ℕ → List (Cell ι × α)} (hdisjoint : ∀ i j, i < j → j < n → ∀ w ∈ ws i, ∀ v ∈ ws j, v.1 ≠ w.1)
    (hbody : ∀ i < n, ∀ m', (∀ c, (∀ j < i, ∀ w ∈ ws j, w.1 ≠ c) → m' c = m c) →
      ∃ m'', body i m' = some m'' ∧ Assigns m' (ws i) m'') :
    ∃ m', loop n body m = some m' ∧ Assigns m ((List.range n).flatMap ws) m' := by
  have hrounds : ∀ i ≤ n, ∃ m', loop i body m = some m' ∧ Assigns m ((List.range i).flatMap ws) m' := by
    intro i hi
    induction i with
    | zero => exact ⟨m, rfl, fun _ hw => absurd hw List.not_mem_nil, fun _ _ => rfl⟩
    | succ i ih =>
      obtain ⟨m', hloop, hassigns⟩ := ih (by omega)
      have hbefore : ∀ c, (∀ j < i, ∀ w ∈ ws j, w.1 ≠ c) → m' c = m c := by
        intro c hc
        apply hassigns.miss
        intro w hw
        obtain ⟨j, hj, hw⟩ := List.mem_flatMap.mp hw
        exact hc j (List.mem_range.mp hj) w hw
      obtain ⟨m'', hround, hassigns'⟩ := hbody i (by omega) m' hbefore
      refine ⟨m'', ?_, ?_⟩
      · rw [loop_succ, hloop]
        exact hround
      · rw [List.range_succ, List.flatMap_append, List.flatMap_singleton]
        apply hassigns.append hassigns'
        intro w hw v hv
        obtain ⟨j, hj, hw⟩ := List.mem_flatMap.mp hw
        exact hdisjoint j i (List.mem_range.mp hj) (by omega) w hw v hv
  exact hrounds n (Nat.le_refl n)

section Range

variable {m m' : Cell ι → α} {n : ℕ} {ws : ℕ → List (Cell ι × α)}

theorem Assigns.hit_round (h : Assigns m ((List.range n).flatMap ws) m') {i : ℕ} (hi : i < n) {c : Cell ι} {v : α}
    (hw : (c, v) ∈ ws i) : m' c = v :=
  h.hit (c, v) (List.mem_flatMap.mpr ⟨i, List.mem_range.mpr hi, hw⟩)

theorem Assigns.miss_rounds (h : Assigns m ((List.range n).flatMap ws) m') {c : Cell ι}
    (hc : ∀ i < n, ∀ w ∈ ws i, w.1 ≠ c) : m' c = m c := by
  apply h.miss
  intro w hw
  obtain ⟨i, hi, hw⟩ := List.mem_flatMap.mp hw
  exact hc i (List.mem_range.mp hi) w hw

end Range

end PrioPlus.Lib.Buffers

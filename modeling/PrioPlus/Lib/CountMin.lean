import Mathlib.Data.List.Count
import Mathlib.Order.Defs.LinearOrder
import Mathlib.Algebra.BigOperators.Group.Finset.Basic
import Mathlib.Algebra.GroupWithZero.Nat
import Mathlib.Algebra.Order.Group.Nat

/-!
# Count-min tables and descent in a tree of prefixes

A row of a count-min table counts for each bucket the keys that its hash function sends there. A bucket never counts
too few keys (`count_le_bucket`), so neither does the least bucket over several rows (`le_minOver_iff`). Going down a
tree layer by layer keeps every path whose steps are all kept (`mem_descend`). When a step lists the children that are
kept, the values of a layer are each listed once (`nodup_descend`), and they are those whose ancestors are all kept
(`mem_descend_iff`).
-/

namespace PrioPlus.Lib.CountMin

section Bucket

variable {α β : Type*} [DecidableEq β]

/-- The number of keys in bucket `b` of the row of `h`. -/
def bucket (h : α → β) (xs : List α) (b : β) : ℕ := xs.countP fun x => h x = b

theorem bucket_le_length (h : α → β) (xs : List α) (b : β) : bucket h xs b ≤ xs.length := List.countP_le_length

theorem count_le_bucket [DecidableEq α] (h : α → β) (xs : List α) (a : α) : xs.count a ≤ bucket h xs (h a) := by
  rw [List.count, bucket]
  apply List.countP_mono_left
  intro x _ hx
  rw [beq_iff_eq] at hx
  exact decide_eq_true (congrArg h hx)

theorem sum_bits_eq_bucket (h : α → β) (xs : List α) (b : β) {f : α → Bool} (hf : ∀ x ∈ xs, (f x = true ↔ h x = b)) :
    (xs.map fun x => (f x).toNat).sum = bucket h xs b := by
  induction xs with
  | nil => rfl
  | cons x xs ih =>
    have hx := hf x List.mem_cons_self
    rw [List.map_cons, List.sum_cons, ih fun y hy => hf y (List.mem_cons_of_mem x hy), bucket, bucket,
      List.countP_cons]
    by_cases hb : h x = b
    · simp [hx.mpr hb, hb, Nat.add_comm]
    · have hfalse : f x = false := by simpa using mt hx.mp hb
      simp [hfalse, hb]

end Bucket

section MinOver

variable {γ : Type*} [LinearOrder γ]

/-- The loop that keeps the least of the values seen. -/
def minOver (init : γ) (n : ℕ) (f : ℕ → γ) : γ :=
  (List.range n).foldl (fun least j => if f j < least then f j else least) init

theorem le_minOver_iff (init : γ) (n : ℕ) (f : ℕ → γ) (c : γ) :
    c ≤ minOver init n f ↔ c ≤ init ∧ ∀ j < n, c ≤ f j := by
  induction n with
  | zero => simp [minOver]
  | succ n ih =>
    rw [minOver] at ih ⊢
    rw [List.range_succ, List.foldl_append, List.foldl_cons, List.foldl_nil, Nat.forall_lt_succ_right, ← and_assoc,
      ← ih]
    split_ifs with hlt
    · exact ⟨fun h => ⟨h.trans hlt.le, h⟩, And.right⟩
    · exact ⟨fun h => ⟨h, h.trans (not_lt.mp hlt)⟩, And.left⟩

end MinOver

theorem mem_descend {α : Type*} (next : ℕ → List α → List α) (path : ℕ → α) {start : List α} {n : ℕ}
    (hstart : path 0 ∈ start) (hstep : ∀ i < n, ∀ values, path i ∈ values → path (i + 1) ∈ next i values) :
    path n ∈ (List.range n).foldl (fun values i => next i values) start := by
  induction n with
  | zero => exact hstart
  | succ n ih =>
    rw [List.range_succ, List.foldl_append]
    exact hstep n (Nat.lt_succ_self n) _ (ih fun i hi => hstep i (Nat.lt_succ_of_lt hi))

section Descent

variable {α : Type*} (children : α → List α) (parent : α → α) (keep : ℕ → α → Prop) [∀ i, DecidablePred (keep i)]

/-- The children that are kept in layer `i`. -/
def expand (i : ℕ) (values : List α) : List α := values.flatMap fun x => (children x).filter (keep i)

/-- Layer `n` below `start`. -/
def descend (n : ℕ) (start : List α) : List α :=
  (List.range n).foldl (fun values i => expand children keep i values) start

theorem descend_succ (n : ℕ) (start : List α) :
    descend children keep (n + 1) start = expand children keep n (descend children keep n start) := by
  rw [descend, List.range_succ, List.foldl_append]
  rfl

/-- In each of the first `n` layers the values have their own children, which belong to the next layer. -/
structure IsTree (layer : ℕ → α → Prop) (n : ℕ) : Prop where
  child : ∀ i < n, ∀ x, layer i x → ∀ y, y ∈ children x ↔ parent y = x
  nodup : ∀ i < n, ∀ x, layer i x → (children x).Nodup
  next : ∀ i < n, ∀ x, layer i x → ∀ y ∈ children x, layer (i + 1) y

variable {children parent keep} {layer : ℕ → α → Prop} {n : ℕ} {start : List α}

theorem layer_descend (htree : IsTree children parent layer n) (hstart : ∀ x ∈ start, layer 0 x) {m : ℕ} (hm : m ≤ n) :
    ∀ x ∈ descend children keep m start, layer m x := by
  induction m with
  | zero => exact hstart
  | succ m ih =>
    intro y hy
    rw [descend_succ] at hy
    obtain ⟨x, hx, hy⟩ := List.mem_flatMap.mp hy
    exact htree.next m hm x (ih (by omega) x hx) y (List.mem_of_mem_filter hy)

theorem mem_descend_succ (htree : IsTree children parent layer n) (hstart : ∀ x ∈ start, layer 0 x) {m : ℕ}
    (hm : m < n) (y : α) :
    y ∈ descend children keep (m + 1) start ↔ parent y ∈ descend children keep m start ∧ keep m y := by
  have hlayer : ∀ x ∈ descend children keep m start, layer m x := layer_descend htree hstart hm.le
  rw [descend_succ]
  constructor
  · intro hy
    obtain ⟨x, hx, hy⟩ := List.mem_flatMap.mp hy
    obtain ⟨hchild, hkeep⟩ := List.mem_filter.mp hy
    rw [(htree.child m hm x (hlayer x hx) y).mp hchild]
    exact ⟨hx, of_decide_eq_true hkeep⟩
  · rintro ⟨hx, hkeep⟩
    have hchild := (htree.child m hm _ (hlayer _ hx) y).mpr rfl
    exact List.mem_flatMap.mpr ⟨parent y, hx, List.mem_filter.mpr ⟨hchild, decide_eq_true hkeep⟩⟩

/-- A value is listed when all its ancestors are kept. -/
theorem mem_descend_iff (htree : IsTree children parent layer n) (hstart : ∀ x ∈ start, layer 0 x) {m : ℕ}
    (hm : m ≤ n) (y : α) :
    y ∈ descend children keep m start ↔ parent^[m] y ∈ start ∧ ∀ i < m, keep i (parent^[m - 1 - i] y) := by
  induction m generalizing y with
  | zero => exact ⟨fun h => ⟨h, fun i hi => absurd hi (Nat.not_lt_zero i)⟩, And.left⟩
  | succ m ih =>
    have hshift : ∀ i < m, parent^[m - 1 - i] (parent y) = parent^[m + 1 - 1 - i] y := by
      intro i hi
      rw [← Function.iterate_succ_apply]
      congr 1
      omega
    rw [mem_descend_succ htree hstart hm, ih (by omega), ← Function.iterate_succ_apply, Nat.forall_lt_succ_right,
      and_assoc, Nat.add_sub_cancel, Nat.sub_self]
    refine and_congr_right' (and_congr_left' (forall₂_congr fun i hi => ?_))
    rw [hshift i hi]
    rfl

theorem nodup_descend (htree : IsTree children parent layer n) (hstart : ∀ x ∈ start, layer 0 x)
    (hnodup : start.Nodup) {m : ℕ} (hm : m ≤ n) : (descend children keep m start).Nodup := by
  induction m with
  | zero => exact hnodup
  | succ m ih =>
    have hlayer : ∀ x ∈ descend children keep m start, layer m x :=
      layer_descend htree hstart (Nat.le_of_succ_le hm)
    rw [descend_succ, expand, List.nodup_flatMap]
    refine ⟨fun x hx => (htree.nodup m hm x (hlayer x hx)).filter _, ?_⟩
    refine (ih (by omega)).imp_of_mem fun {x y} hx hy hne z hzx hzy => hne ?_
    rw [← (htree.child m hm x (hlayer x hx) z).mp (List.mem_of_mem_filter hzx),
      (htree.child m hm y (hlayer y hy) z).mp (List.mem_of_mem_filter hzy)]

end Descent

end PrioPlus.Lib.CountMin

import Mathlib.Data.List.Nodup
import Mathlib.Data.List.Range

/-!
# Queues with a history

A `Pool` is a FIFO queue whose entries are numbered in the order in which they came in, together with the entries that
were taken out. The numbers of the taken entries and of those still waiting are `0, 1, 2, …` without a gap, so nothing
is taken twice (`nodup_taken`) and nothing that was taken is still there (`disjoint_taken_queue`).

Two pools are `Aligned` by a relation when equal positions hold equal numbers and related values, in the queue and in
the history. Pushing related batches and popping both keep this.
-/

namespace PrioPlus.Lib

structure Pool (α : Type) where
  queue : List (ℕ × α)
  taken : List (ℕ × α)
  next : ℕ
  numbered : (taken ++ queue).map Prod.fst = List.range next

namespace Pool

variable {α β : Type}

def empty : Pool α := ⟨[], [], 0, rfl⟩

def size (p : Pool α) : ℕ := p.queue.length

/-- The entries of a batch, numbered from `n` on. -/
def number (n : ℕ) (xs : List α) : List (ℕ × α) := xs.mapIdx fun i x => (n + i, x)

def push (p : Pool α) (xs : List α) : Pool α where
  queue := p.queue ++ number p.next xs
  taken := p.taken
  next := p.next + xs.length
  numbered := by
    have hnumber : (number p.next xs).map Prod.fst = (List.range xs.length).map (p.next + ·) := by
      apply List.ext_getElem
      · simp [number]
      · intro i h h'
        simp [number]
    rw [← List.append_assoc, List.map_append, p.numbered, hnumber, List.range_add]

/-- The first entry, or nothing when the queue is empty. -/
def pop (p : Pool α) : Option ((ℕ × α) × Pool α) :=
  match hqueue : p.queue with
  | [] => none
  | a :: rest => some (a, {
      queue := rest
      taken := p.taken ++ [a]
      next := p.next
      numbered := by rw [List.append_assoc, ← p.numbered, hqueue, List.singleton_append] })

@[simp] theorem size_empty : (empty : Pool α).size = 0 := rfl

@[simp] theorem size_push (p : Pool α) (xs : List α) : (p.push xs).size = p.size + xs.length := by
  simp [size, push, number]

theorem nodup_taken (p : Pool α) : (p.taken.map Prod.fst).Nodup := by
  have h := List.nodup_range (n := p.next)
  rw [← p.numbered, List.map_append] at h
  exact h.of_append_left

theorem disjoint_taken_queue (p : Pool α) : (p.taken.map Prod.fst).Disjoint (p.queue.map Prod.fst) := by
  have h := List.nodup_range (n := p.next)
  rw [← p.numbered, List.map_append] at h
  exact List.disjoint_of_nodup_append h

/-! ### Two pools -/

/-- Equal numbers, related values. -/
def Paired (R : α → β → Prop) (a : ℕ × α) (b : ℕ × β) : Prop := a.1 = b.1 ∧ R a.2 b.2

structure Aligned (R : α → β → Prop) (p : Pool α) (q : Pool β) : Prop where
  queue : List.Forall₂ (Paired R) p.queue q.queue
  taken : List.Forall₂ (Paired R) p.taken q.taken
  next_eq : p.next = q.next

variable {R : α → β → Prop} {p : Pool α} {q : Pool β}

theorem aligned_empty : Aligned R empty empty := ⟨List.Forall₂.nil, List.Forall₂.nil, rfl⟩

theorem Aligned.size_eq (h : Aligned R p q) : p.size = q.size := h.queue.length_eq

theorem forall₂_number {xs : List α} {ys : List β} (h : List.Forall₂ R xs ys) (n : ℕ) :
    List.Forall₂ (Paired R) (number n xs) (number n ys) := by
  rw [List.forall₂_iff_get] at h ⊢
  obtain ⟨hlen, hrel⟩ := h
  refine ⟨by simp [number, hlen], fun i hi hi' => ?_⟩
  simp only [number, List.length_mapIdx] at hi hi'
  simp only [number, List.get_eq_getElem, List.getElem_mapIdx]
  exact ⟨rfl, hrel i hi hi'⟩

theorem Aligned.push (h : Aligned R p q) {xs : List α} {ys : List β} (hxy : List.Forall₂ R xs ys) :
    Aligned R (p.push xs) (q.push ys) where
  queue := by
    simp only [Pool.push, h.next_eq]
    exact List.rel_append h.queue (forall₂_number hxy _)
  taken := h.taken
  next_eq := by simp only [Pool.push, h.next_eq, hxy.length_eq]

theorem Aligned.pop (h : Aligned R p q) :
    (p.size = 0 ∧ p.pop = none ∧ q.pop = none) ∨
      ∃ a b p' q', p.pop = some (a, p') ∧ q.pop = some (b, q') ∧ Paired R a b ∧ Aligned R p' q' ∧
        p.size = p'.size + 1 := by
  obtain ⟨pqueue, ptaken, pnext, pnumbered⟩ := p
  obtain ⟨qqueue, qtaken, qnext, qnumbered⟩ := q
  obtain ⟨hqueue, htaken, hnext⟩ := h
  cases hqueue with
  | nil => exact Or.inl ⟨rfl, rfl, rfl⟩
  | cons hab hrest =>
    refine Or.inr ⟨_, _, _, _, rfl, rfl, hab, ⟨hrest, ?_, hnext⟩, rfl⟩
    exact List.rel_append htaken (List.Forall₂.cons hab List.Forall₂.nil)

/-- Equal sizes, equal numbers and related values at equal positions, and no entry that was taken twice or is still in
its queue. The taken entries have equal numbers too. -/
structure InSync (R : α → β → Prop) (p : Pool α) (q : Pool β) : Prop where
  size_eq : p.size = q.size
  entries : ∀ (k : ℕ) (a : ℕ × α) (b : ℕ × β), p.queue[k]? = some a → q.queue[k]? = some b → a.1 = b.1 ∧ R a.2 b.2
  taken_eq : p.taken.map Prod.fst = q.taken.map Prod.fst
  taken_once : (p.taken.map Prod.fst).Nodup ∧ (q.taken.map Prod.fst).Nodup
  taken_gone : (p.taken.map Prod.fst).Disjoint (p.queue.map Prod.fst) ∧
    (q.taken.map Prod.fst).Disjoint (q.queue.map Prod.fst)

theorem Aligned.inSync (h : Aligned R p q) : InSync R p q where
  size_eq := h.size_eq
  entries := by
    intro k a b ha hb
    obtain ⟨hk, rfl⟩ := List.getElem?_eq_some_iff.mp ha
    obtain ⟨hk', rfl⟩ := List.getElem?_eq_some_iff.mp hb
    exact h.queue.get hk hk'
  taken_eq := by
    have hnumbers : List.Forall₂ (fun m n => m = n) (p.taken.map Prod.fst) (q.taken.map Prod.fst) := by
      rw [List.forall₂_map_left_iff, List.forall₂_map_right_iff]
      exact h.taken.imp fun _ _ hab => hab.1
    rwa [List.forall₂_eq_eq_eq] at hnumbers
  taken_once := ⟨p.nodup_taken, q.nodup_taken⟩
  taken_gone := ⟨p.disjoint_taken_queue, q.disjoint_taken_queue⟩

end Pool

end PrioPlus.Lib

import Mathlib.Data.Finset.Fold
import Mathlib.Data.Finset.Filter

/-!
# Xors over finite sets

`xorOver s f` is the xor of the words `f a` for `a` in `s`. A loop that xors the words of the flagged elements of a
list without repetitions computes it (`foldl_xor_eq_xorOver`), in any order of the list.
-/

namespace PrioPlus.Lib.XorFold

variable {α : Type*} {s : Finset α} {f g : α → UInt64}

def xorOver (s : Finset α) (f : α → UInt64) : UInt64 := s.fold (· ^^^ ·) 0 f

theorem xorOver_congr (h : ∀ a ∈ s, f a = g a) : xorOver s f = xorOver s g := Finset.fold_congr h

theorem xorOver_insert [DecidableEq α] {a : α} (ha : a ∉ s) : xorOver (insert a s) f = f a ^^^ xorOver s f :=
  Finset.fold_insert ha

theorem xorOver_xor : xorOver s (fun a => f a ^^^ g a) = xorOver s f ^^^ xorOver s g := by
  rw [xorOver, ← UInt64.xor_self (a := 0)]
  exact Finset.fold_op_distrib

theorem xorOver_eq_zero (h : ∀ a ∈ s, f a = 0) : xorOver s f = 0 := by
  rw [xorOver_congr h]
  induction s using Finset.cons_induction with
  | empty => rfl
  | cons a s ha ih =>
    rw [xorOver, Finset.fold_cons, ← xorOver, ih fun b hb => h b (Finset.mem_cons_of_mem hb)]
    rfl

theorem xorOver_image {β : Type*} [DecidableEq α] {t : Finset β} {g : β → α} (hg : Function.Injective g) :
    xorOver (t.image g) f = xorOver t (f ∘ g) := Finset.fold_image hg.injOn

theorem xorOver_filter (s : Finset α) (P : α → Prop) [DecidablePred P] (f : α → UInt64) :
    xorOver (s.filter P) f = xorOver s fun a => if P a then f a else 0 := by
  classical
  induction s using Finset.induction_on with
  | empty => rfl
  | insert a s ha ih =>
    rw [xorOver_insert ha, ← ih, Finset.filter_insert]
    by_cases hP : P a
    · rw [if_pos hP, if_pos hP, xorOver_insert fun h => ha (Finset.mem_filter.mp h).1]
    · rw [if_neg hP, if_neg hP, UInt64.zero_xor]

theorem xorOver_sdiff [DecidableEq α] (s t : Finset α) (f : α → UInt64) :
    xorOver s f = xorOver (s \ t) f ^^^ xorOver (s ∩ t) f := by
  rw [Finset.sdiff_eq_filter, ← Finset.filter_mem_eq_inter, xorOver_filter, xorOver_filter, ← xorOver_xor]
  apply xorOver_congr
  intro a _
  by_cases ha : a ∈ t <;> simp [ha]

theorem xorOver_eq_single {a : α} (ha : a ∈ s) (h : ∀ b ∈ s, b ≠ a → f b = 0) : xorOver s f = f a := by
  classical
  rw [← Finset.insert_erase ha, xorOver_insert (Finset.notMem_erase a s),
    xorOver_eq_zero fun b hb => h b (Finset.mem_of_mem_erase hb) (Finset.ne_of_mem_erase hb), UInt64.xor_zero]

theorem foldl_xor_eq_xorOver [DecidableEq α] {l : List α} (hnodup : l.Nodup) (acc : UInt64) :
    l.foldl (fun acc a => acc ^^^ f a) acc = acc ^^^ xorOver l.toFinset f := by
  induction l generalizing acc with
  | nil => exact UInt64.xor_zero.symm
  | cons a l ih =>
    have hnot : a ∉ l.toFinset := by
      rw [List.mem_toFinset]
      exact (List.nodup_cons.mp hnodup).1
    rw [List.foldl_cons, ih (List.nodup_cons.mp hnodup).2, List.toFinset_cons, xorOver_insert hnot, UInt64.xor_assoc]

end PrioPlus.Lib.XorFold

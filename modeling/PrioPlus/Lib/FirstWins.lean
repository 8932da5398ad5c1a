import Mathlib.Algebra.BigOperators.Group.Finset.Basic
import Mathlib.Data.List.AList

/-!
# Maps that keep the first admissible value of a key

`collect ok xs` fills a map from a sequence of key and value pairs: a pair is skipped when its key is already there
or when it is not admissible. What the map holds for a key is the value of the first admissible pair with that key
(`lookup_collect`). A loop over the entries in any order is a sum over the keys (`sum_map_iteration`).
-/

namespace PrioPlus.Lib.FirstWins

variable {α : Type*} {β : Type} [DecidableEq α]

/-- Insert a pair unless its key is taken or the pair is not admissible. -/
def insertFirst (ok : α × β → Bool) (m : AList fun _ : α => β) (x : α × β) : AList fun _ : α => β :=
  if x.1 ∈ m ∨ ok x = false then m else m.insert x.1 x.2

def collect (ok : α × β → Bool) (xs : List (α × β)) : AList fun _ : α => β := xs.foldl (insertFirst ok) ∅

theorem lookup_insertFirst (ok : α × β → Bool) (m : AList fun _ : α => β) (x : α × β) (a : α) :
    (insertFirst ok m x).lookup a = (m.lookup a).or (if x.1 = a ∧ ok x = true then some x.2 else none) := by
  unfold insertFirst
  split_ifs with hskip hkey hkey
  · obtain ⟨rfl, hok⟩ := hkey
    have hmem : x.1 ∈ m := by simpa [hok] using hskip
    obtain ⟨b, hb⟩ := Option.isSome_iff_exists.mp (AList.lookup_isSome.mpr hmem)
    rw [hb]
    rfl
  · rw [Option.or_none]
  · obtain ⟨rfl, -⟩ := hkey
    have hnot : x.1 ∉ m := fun h => hskip (Or.inl h)
    rw [AList.lookup_insert, AList.lookup_eq_none.mpr hnot, Option.none_or]
  · have hok : ok x = true := by
      by_contra h
      exact hskip (Or.inr (by simpa using h))
    have hne : a ≠ x.1 := fun h => hkey ⟨h.symm, hok⟩
    rw [AList.lookup_insert_ne hne, Option.or_none]

theorem lookup_foldl_insertFirst (ok : α × β → Bool) (xs : List (α × β)) (m : AList fun _ : α => β) (a : α) :
    (xs.foldl (insertFirst ok) m).lookup a =
      (m.lookup a).or ((xs.find? fun x => x.1 = a ∧ ok x = true).map Prod.snd) := by
  induction xs generalizing m with
  | nil => simp
  | cons x xs ih =>
    rw [List.foldl_cons, ih, lookup_insertFirst, Option.or_assoc, List.find?_cons]
    by_cases h : x.1 = a ∧ ok x = true <;> simp [h]

theorem lookup_collect (ok : α × β → Bool) (xs : List (α × β)) (a : α) :
    (collect ok xs).lookup a = (xs.find? fun x => x.1 = a ∧ ok x = true).map Prod.snd := by
  rw [collect, lookup_foldl_insertFirst, AList.lookup_empty, Option.none_or]

theorem mem_collect (ok : α × β → Bool) (xs : List (α × β)) (a : α) :
    a ∈ collect ok xs ↔ ∃ x ∈ xs, x.1 = a ∧ ok x = true := by
  rw [← AList.lookup_isSome, lookup_collect, Option.isSome_map, List.find?_isSome]
  simp

theorem length_foldl_insertFirst_le (ok : α × β → Bool) (xs : List (α × β)) (m : AList fun _ : α => β) :
    (xs.foldl (insertFirst ok) m).entries.length ≤ m.entries.length + xs.length := by
  induction xs generalizing m with
  | nil => exact le_rfl
  | cons x xs ih =>
    have hstep : (insertFirst ok m x).entries.length ≤ m.entries.length + 1 := by
      unfold insertFirst
      split_ifs with hskip
      · exact Nat.le_succ _
      · rw [AList.entries_insert_of_notMem fun hmem => hskip (Or.inl hmem), List.length_cons]
    have hrest := ih (insertFirst ok m x)
    rw [List.foldl_cons, List.length_cons]
    omega

theorem length_collect_le (ok : α × β → Bool) (xs : List (α × β)) : (collect ok xs).entries.length ≤ xs.length :=
  (length_foldl_insertFirst_le ok xs ∅).trans_eq (Nat.zero_add _)

theorem length_collect_of_nodup {ok : α × β → Bool} {xs : List (α × β)} (hnodup : (xs.map Prod.fst).Nodup)
    (hok : ∀ x ∈ xs, ok x = true) : (collect ok xs).entries.length = xs.length := by
  have hperm : (collect ok xs).keys.Perm (xs.map Prod.fst) := by
    refine (List.perm_ext_iff_of_nodup (collect ok xs).keys_nodup hnodup).mpr fun a => ?_
    rw [← AList.mem_keys, mem_collect, List.mem_map]
    exact exists_congr fun x => ⟨fun h => ⟨h.1, h.2.1⟩, fun h => ⟨h.1, h.2, hok x h.1⟩⟩
  have hlen := hperm.length_eq
  rwa [List.length_map, AList.keys, List.keys, List.length_map] at hlen

theorem keys_foldl_insertFirst_congr {ok ok' : α × β → Bool} {xs xs' : List (α × β)}
    (h : xs.map (fun x => (x.1, ok x)) = xs'.map fun x => (x.1, ok' x)) {m m' : AList fun _ : α => β}
    (hm : m.keys = m'.keys) : (xs.foldl (insertFirst ok) m).keys = (xs'.foldl (insertFirst ok') m').keys := by
  induction xs generalizing xs' m m' with
  | nil =>
    obtain rfl : xs' = [] := List.map_eq_nil_iff.mp h.symm
    exact hm
  | cons x xs ih =>
    cases xs' with
    | nil => cases h
    | cons x' xs' =>
      rw [List.map_cons, List.map_cons, List.cons.injEq, Prod.mk.injEq] at h
      obtain ⟨⟨hkey, hok⟩, hrest⟩ := h
      refine ih hrest ?_
      have hmem : x.1 ∈ m ↔ x'.1 ∈ m' := by rw [AList.mem_keys, AList.mem_keys, hm, hkey]
      unfold insertFirst
      by_cases hskip : x.1 ∈ m ∨ ok x = false
      · rw [if_pos hskip, if_pos (by rwa [← hmem, ← hok]), hm]
      · rw [if_neg hskip, if_neg (by rwa [← hmem, ← hok]), AList.keys_insert, AList.keys_insert, hm, hkey]

theorem keys_collect_congr {ok ok' : α × β → Bool} {xs xs' : List (α × β)}
    (h : xs.map (fun x => (x.1, ok x)) = xs'.map fun x => (x.1, ok' x)) :
    (collect ok xs).keys = (collect ok' xs').keys := keys_foldl_insertFirst_congr h rfl

theorem lookup_of_mem_iteration {m : AList fun _ : α => β} {order : List (Sigma fun _ : α => β)}
    (hperm : order.Perm m.entries) {e : Sigma fun _ : α => β} (he : e ∈ order) : m.lookup e.1 = some e.2 :=
  AList.mem_lookup_iff.mpr (hperm.subset he)

omit [DecidableEq α] in
theorem nodup_keys_iteration {m : AList fun _ : α => β} {order : List (Sigma fun _ : α => β)}
    (hperm : order.Perm m.entries) : (order.map Sigma.fst).Nodup :=
  (hperm.map Sigma.fst).nodup_iff.mpr m.keys_nodup

omit [DecidableEq α] in
theorem mem_keys_iteration {m : AList fun _ : α => β} {order : List (Sigma fun _ : α => β)}
    (hperm : order.Perm m.entries) (a : α) : a ∈ order.map Sigma.fst ↔ a ∈ m :=
  (hperm.map Sigma.fst).mem_iff

theorem sum_range_eq_sum_map {γ N : Type*} [AddCommMonoid N] {l : List γ} {g : ℕ → N} {f : γ → N}
    (h : ∀ (i : ℕ) (hi : i < l.length), g i = f l[i]) : ∑ i ∈ Finset.range l.length, g i = (l.map f).sum := by
  induction l generalizing g with
  | nil => rfl
  | cons c l ih =>
    rw [List.length_cons, Finset.sum_range_succ', List.map_cons, List.sum_cons, add_comm]
    congr 1
    · exact h 0 (Nat.succ_pos _)
    · exact ih fun i hi => h (i + 1) (Nat.succ_lt_succ hi)

/-- A loop over the entries in any order sums over the keys. -/
theorem sum_map_iteration {N : Type*} [AddCommMonoid N] {m : AList fun _ : α => β}
    {order : List (Sigma fun _ : α => β)} (hperm : order.Perm m.entries) (f : α → N) :
    (order.map fun e => f e.1).sum = ∑ a ∈ m.keys.toFinset, f a := by
  rw [List.sum_toFinset _ m.keys_nodup]
  have hmap : (order.map fun e => f e.1).Perm (m.keys.map f) := by
    rw [AList.keys, List.keys, List.map_map]
    exact hperm.map _
  exact hmap.sum_eq

theorem countP_iteration {m : AList fun _ : α => β} {order : List (Sigma fun _ : α => β)}
    (hperm : order.Perm m.entries) (P : α → Prop) [DecidablePred P] :
    order.countP (fun e => P e.1) = (m.keys.toFinset.filter P).card := by
  have hcount : order.countP (fun e => P e.1) = m.keys.countP (fun a => P a) := by
    rw [AList.keys, List.keys, List.countP_map]
    exact hperm.countP_eq _
  rw [hcount, List.countP_eq_length_filter, ← List.toFinset_card_of_nodup (m.keys_nodup.filter _),
    List.toFinset_filter]
  simp

/-! ### Keys that differ -/

section Nodup

variable {γ : Type*} {key : γ → α} {l : List γ}

theorem find?_eq_some_of_nodup (hnodup : (l.map key).Nodup) (ok : γ → Bool) {s : γ} (hs : s ∈ l) (hok : ok s = true) :
    l.find? (fun t => key t = key s ∧ ok t = true) = some s := by
  obtain ⟨t, ht⟩ : ∃ t, l.find? (fun t => key t = key s ∧ ok t = true) = some t := by
    rw [← Option.isSome_iff_exists, List.find?_isSome]
    exact ⟨s, hs, by simp [hok]⟩
  have hkey : key t = key s ∧ ok t = true := by simpa using List.find?_some ht
  rw [ht, List.inj_on_of_nodup_map hnodup (List.mem_of_find?_eq_some ht) hs hkey.1]

omit [DecidableEq α] in
theorem exists_perm_map {ks : List α} (h : ks.Perm (l.map key)) :
    ∃ l' : List γ, l'.Perm l ∧ l'.map key = ks := by
  induction ks generalizing l with
  | nil =>
    rw [List.map_eq_nil_iff.mp h.nil_eq.symm]
    exact ⟨[], List.Perm.refl _, rfl⟩
  | cons k ks ih =>
    obtain ⟨s, hs, rfl⟩ := List.mem_map.mp (h.subset List.mem_cons_self)
    obtain ⟨pre, post, rfl⟩ := List.append_of_mem hs
    have hmove : (pre ++ s :: post).Perm (s :: (pre ++ post)) := List.perm_middle
    obtain ⟨l', hperm, rfl⟩ := ih ((h.trans (hmove.map key)).cons_inv)
    exact ⟨s :: l', (hperm.cons s).trans hmove.symm, rfl⟩

end Nodup

end PrioPlus.Lib.FirstWins

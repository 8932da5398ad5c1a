import PrioPlus.Server.SnipOp

/-!
# Honest batches

Every client sends a submission that passes the checks to each server, under a key of its own. Where the conversion is
correct and the packets pass, all slots are valid, and the combined sums are the sums of the values that the two
submissions of a client share (`numValid_eq`, `totals_eq`).
-/

namespace PrioPlus

open Finset Lib.TwoParty Lib.FirstWins

namespace SnipOp

variable {S : Type} (op : SnipOp S)

/-- The submissions of the clients, and what the servers receive of them, in any order. -/
structure HonestPairs (pairs : List (S × S)) (submissions0 submissions1 : List S) : Prop where
  pk_eq : ∀ p ∈ pairs, op.pk p.2 = op.pk p.1
  ok0 : ∀ p ∈ pairs, op.ok p.1 = true
  ok1 : ∀ p ∈ pairs, op.ok p.2 = true
  nodup : (pairs.map fun p => op.pk p.1).Nodup
  perm0 : submissions0.Perm (pairs.map Prod.fst)
  perm1 : submissions1.Perm (pairs.map Prod.snd)

/-- Field `j` of a client. -/
def pairValue (p : S × S) (j : ℕ) : ℕ :=
  ((op.row p.1).getD j 0 ^^^ (op.row p.2).getD j 0).toNat % 2 ^ op.nbits j

variable (sync : SnipSync) (it : Iteration S) (prg0 : ℕ → UInt64) (submissions0 submissions1 : List S)

theorem length_eq_of_keys {order : List (S × S)}
    (horder : order.map (fun p => op.pk p.1) = op.sentPks it submissions1) :
    order.length = (op.sentPks it submissions1).length := by
  rw [← horder, List.length_map]

/-- The conversion gives shares of the values. -/
def ConversionCorrect : Prop :=
  let pks := op.sentPks it submissions1
  Reconstructs pks.length op.numFields op.nbits (op.shares (op.shareMap submissions0) pks)
    (op.shares (op.shareMap submissions1) pks) (op.sentShares0 it prg0 submissions0 submissions1)
    (op.sentShares1 it prg0 submissions0 submissions1)

/-- The fields of slot `i`, put together from the converted shares. -/
def slotInputs (i j : ℕ) : ℤ :=
  ((op.sentShares0 it prg0 submissions0 submissions1).getD (i * op.numFields + j) 0 +
    (op.sentShares1 it prg0 submissions0 submissions1).getD (i * op.numFields + j) 0) % intModulus

/-- The check of the packets passes in each slot whose fields satisfy the circuit. -/
def SnipCorrect : Prop :=
  ∀ (i : ℕ) (hi : i < (op.sentPks it submissions1).length) (s0 s1 : S),
    op.first submissions0 (op.sentPks it submissions1)[i] = some s0 →
    op.first submissions1 (op.sentPks it submissions1)[i] = some s1 →
    op.circuit.eval shipped (fun _ => 0) (op.slotInputs it prg0 submissions0 submissions1 i) = true →
    (op.slotCheck s0 s1 (op.sentShares0 it prg0 submissions0 submissions1)
      (op.sentShares1 it prg0 submissions0 submissions1) i).accepts shipped sync.x
        (sync.coeffAt op.circuit i) = true

namespace HonestPairs

variable {op submissions0 submissions1} {pairs : List (S × S)} (h : op.HonestPairs pairs submissions0 submissions1)
include h

theorem first0 {p : S × S} (hp : p ∈ pairs) : op.first submissions0 (op.pk p.1) = some p.1 := by
  have hnodup : (submissions0.map op.pk).Nodup := by
    rw [(h.perm0.map op.pk).nodup_iff, List.map_map]
    exact h.nodup
  exact find?_eq_some_of_nodup hnodup op.ok (h.perm0.symm.subset (List.mem_map_of_mem hp)) (h.ok0 p hp)

theorem map_pk_snd : (pairs.map Prod.snd).map op.pk = pairs.map fun p => op.pk p.1 := by
  rw [List.map_map]
  exact List.map_congr_left h.pk_eq

theorem first1 {p : S × S} (hp : p ∈ pairs) : op.first submissions1 (op.pk p.1) = some p.2 := by
  have hnodup : (submissions1.map op.pk).Nodup := by
    rw [(h.perm1.map op.pk).nodup_iff, h.map_pk_snd]
    exact h.nodup
  rw [← h.pk_eq p hp]
  exact find?_eq_some_of_nodup hnodup op.ok (h.perm1.symm.subset (List.mem_map_of_mem hp)) (h.ok1 p hp)

theorem exists_ok (hne : pairs ≠ []) : ∃ s ∈ submissions1, op.ok s = true := by
  obtain ⟨p, hp⟩ := List.exists_mem_of_ne_nil pairs hne
  exact ⟨p.2, h.perm1.symm.subset (List.mem_map_of_mem hp), h.ok1 p hp⟩

theorem sentPks_perm : (op.sentPks it submissions1).Perm (pairs.map fun p => op.pk p.1) := by
  apply (List.perm_ext_iff_of_nodup (nodup_keys_iteration (it.perm _)) h.nodup).mpr
  intro pk
  refine (op.mem_sentPks it submissions1 pk).trans ?_
  constructor
  · rintro ⟨s, hs⟩
    have hmem := h.perm1.subset (List.mem_of_find?_eq_some hs)
    have hkey : op.pk s = pk ∧ op.ok s = true := by simpa using List.find?_some hs
    obtain ⟨p, hp, rfl⟩ := List.mem_map.mp hmem
    exact List.mem_map.mpr ⟨p, hp, (h.pk_eq p hp).symm.trans hkey.1⟩
  · intro hpk
    obtain ⟨p, hp, rfl⟩ := List.mem_map.mp hpk
    exact ⟨p.2, h.first1 hp⟩

theorem fits_iff : op.Fits submissions1 ↔ OtFits pairs.length op.numFields op.nbits := by
  rw [op.fits_iff default, (h.sentPks_perm default).length_eq, List.length_map]

theorem exists_order : ∃ order : List (S × S), order.Perm pairs ∧
    order.map (fun p => op.pk p.1) = op.sentPks it submissions1 :=
  exists_perm_map (h.sentPks_perm it)

section Order

variable {order : List (S × S)} (hperm : order.Perm pairs)
  (horder : order.map (fun p => op.pk p.1) = op.sentPks it submissions1)
include hperm horder

theorem first0_slot {i : ℕ} (hi : i < (op.sentPks it submissions1).length) (hi' : i < order.length) :
    op.first submissions0 (op.sentPks it submissions1)[i] = some order[i].1 := by
  have hpk : (op.sentPks it submissions1)[i] = op.pk order[i].1 := by
    simp only [← horder, List.getElem_map]
  rw [hpk]
  exact h.first0 (hperm.subset (List.getElem_mem hi'))

theorem first1_slot {i : ℕ} (hi : i < (op.sentPks it submissions1).length) (hi' : i < order.length) :
    op.first submissions1 (op.sentPks it submissions1)[i] = some order[i].2 := by
  have hpk : (op.sentPks it submissions1)[i] = op.pk order[i].1 := by
    simp only [← horder, List.getElem_map]
  rw [hpk]
  exact h.first1 (hperm.subset (List.getElem_mem hi'))

variable {it prg0}

theorem sentShares_add (hconv : op.ConversionCorrect it prg0 submissions0 submissions1) {i : ℕ}
    (hi : i < (op.sentPks it submissions1).length) (hi' : i < order.length) {j : ℕ} (hj : j < op.numFields) :
    (((op.sentShares0 it prg0 submissions0 submissions1).getD (i * op.numFields + j) 0 : ℤ) : ZMod intModulus) +
        (op.sentShares1 it prg0 submissions0 submissions1).getD (i * op.numFields + j) 0 =
      op.pairValue order[i] j := by
  have hvalue0 := op.valueAt_shares hi
    ((op.lookup_shareMap submissions0 _).trans (h.first0_slot it hperm horder hi hi')) hj
  have hvalue1 := op.valueAt_shares hi
    ((op.lookup_shareMap submissions1 _).trans (h.first1_slot it hperm horder hi hi')) hj
  have hrec := hconv i hi j hj
  rw [hvalue0, hvalue1, ← ZMod.intCast_eq_intCast_iff, Int.cast_add, Int.cast_natCast] at hrec
  exact hrec

theorem cast_slotInputs (hconv : op.ConversionCorrect it prg0 submissions0 submissions1) {i : ℕ}
    (hi : i < (op.sentPks it submissions1).length) (hi' : i < order.length) {j : ℕ} (hj : j < op.numFields) :
    (op.slotInputs it prg0 submissions0 submissions1 i j : ZMod intModulus) = op.pairValue order[i] j := by
  rw [slotInputs, cast_emod, Int.cast_add, h.sentShares_add hperm horder hconv hi hi' hj]

end Order

theorem conversionCorrect_of_zeros (hzero : ∀ p ∈ pairs, ∀ j < op.numFields, (op.row p.1).getD j 0 = 0)
    (hbits : ∀ j < op.numFields, op.nbits j ≤ 62) :
    op.ConversionCorrect it (fun _ => 0) submissions0 submissions1 := by
  obtain ⟨order, hperm, horder⟩ := h.exists_order it
  refine (reconstructs_b2aOt_iff _ _ _ fun j hj => (hbits j hj).trans (by omega)).mpr fun i hi j hj => ?_
  have hi' : i < order.length := by rwa [op.length_eq_of_keys it submissions1 horder]
  have hvalue0 := op.valueAt_shares hi
    ((op.lookup_shareMap submissions0 _).trans (h.first0_slot it hperm horder hi hi')) hj
  rw [hvalue0, hzero _ (hperm.subset (List.getElem_mem hi')) j hj]
  exact noWrap_zero _ (hbits j hj)

section Sums

variable {sync it prg0} (hconv : op.ConversionCorrect it prg0 submissions0 submissions1)
  (hsnip : op.SnipCorrect sync it prg0 submissions0 submissions1)
  (heval : ∀ p ∈ pairs, ∀ inps : ℕ → ℤ, (∀ j < op.numFields, (inps j : ZMod intModulus) = op.pairValue p j) →
    op.circuit.eval shipped (fun _ => 0) inps = true)
include hconv hsnip heval

theorem getD_sentValid_eq_true {i : ℕ} (hi : i < (op.sentPks it submissions1).length) :
    (op.sentValid sync it prg0 submissions0 submissions1).getD i false = true := by
  obtain ⟨order, hperm, horder⟩ := h.exists_order it
  have hi' : i < order.length := by rwa [op.length_eq_of_keys it submissions1 horder]
  have hfirst0 := h.first0_slot it hperm horder hi hi'
  have hfirst1 := h.first1_slot it hperm horder hi hi'
  rw [op.getD_sentValid sync it prg0 submissions0 submissions1 hi]
  refine ⟨_, _, hfirst0, hfirst1, hsnip i hi _ _ hfirst0 hfirst1 ?_⟩
  refine heval order[i] (hperm.subset (List.getElem_mem hi')) _ fun j hj => ?_
  exact h.cast_slotInputs hperm horder hconv hi hi' hj

theorem validSlots_eq_range :
    {i ∈ range (op.sentPks it submissions1).length |
      (op.sentValid sync it prg0 submissions0 submissions1).getD i false} =
      range (op.sentPks it submissions1).length :=
  filter_true_of_mem fun _ hi => h.getD_sentValid_eq_true hconv hsnip heval (mem_range.mp hi)

theorem numValid_eq : (op.result0 sync it prg0 submissions0 submissions1).numValid = pairs.length := by
  rw [numValid_result0, h.validSlots_eq_range hconv hsnip heval, card_range, (h.sentPks_perm it).length_eq,
    List.length_map]

theorem totals_eq {j : ℕ} (hj : j < op.numFields) :
    (sumAccumulates op.numFields (op.result0 sync it prg0 submissions0 submissions1).accum
        (op.result1 sync it prg0 submissions0 submissions1).accum).getD j 0 =
      ((pairs.map fun p => op.pairValue p j).sum % intModulus : ℕ) := by
  obtain ⟨order, hperm, horder⟩ := h.exists_order it
  have hlen := (op.length_eq_of_keys it submissions1 horder).symm
  have hslots : ∀ (i : ℕ) (hi : i < order.length),
      (((op.sentShares0 it prg0 submissions0 submissions1).getD (i * op.numFields + j) 0 +
        (op.sentShares1 it prg0 submissions0 submissions1).getD (i * op.numFields + j) 0 : ℤ) : ZMod intModulus) =
        (op.pairValue order[i] j : ZMod intModulus) := by
    intro i hi
    rw [Int.cast_add]
    exact h.sentShares_add hperm horder hconv (hlen ▸ hi) hi hj
  have hsum : ((∑ i ∈ range (op.sentPks it submissions1).length,
      ((op.sentShares0 it prg0 submissions0 submissions1).getD (i * op.numFields + j) 0 +
        (op.sentShares1 it prg0 submissions0 submissions1).getD (i * op.numFields + j) 0) : ℤ) : ZMod intModulus) =
      (((pairs.map fun p => op.pairValue p j).sum : ℕ) : ℤ) := by
    rw [Int.cast_sum, hlen, sum_range_eq_sum_map (f := fun p => (op.pairValue p j : ZMod intModulus)) hslots,
      (hperm.map fun p => (op.pairValue p j : ZMod intModulus)).sum_eq, Int.cast_natCast, Nat.cast_list_sum,
      List.map_map]
    rfl
  have htotals := (op.agreement sync it prg0 submissions0 submissions1).totals_eq j hj
  rw [htotals, pks_result0, valid_result0, sharesP_result0, sharesP_result1, h.validSlots_eq_range hconv hsnip heval,
    (cast_eq_iff_emod _ _).mp hsum, Int.natCast_mod]

end Sums

end HonestPairs

end SnipOp

end PrioPlus

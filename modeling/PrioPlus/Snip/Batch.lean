import PrioPlus.Lib.UnionBound
import PrioPlus.Snip.Soundness

/-!
# A batch of checks at one point

When the wires that the servers hold violate no gate and no result gate, they are those of an evaluation of the circuit
on the summed inputs, and it comes out true (`eval_of_not_bad`). So out of the draws of one point, and of coefficients
for each check, few make some check pass whose summed inputs the circuit rejects (`exists_passes_rejected`).
-/

namespace PrioPlus

open Finset Polynomial

namespace SnipInstance

variable (K : Constants) (S : SnipInstance)

/-- The inputs that the two servers hold together. -/
def summedInput (j : ℕ) : ℤ := (S.input0 j + S.input1 j) % K.intModulus

/-- Whether the circuit comes out true on them. -/
def summedEval : Bool := S.ckt.eval K (fun _ => 0) (S.summedInput K)

variable {K S}

/-! ### Wires that violate no gate -/

theorem wire_eq_evalWires (htop : S.ckt.Topological) (hgood : ¬ S.BadMul K) {k : ℕ} (hk : k < S.ckt.gates.length) :
    S.wire K k = (S.ckt.evalWires K (fun _ => 0) (S.summedInput K) k : ZMod K.intModulus) := by
  induction k using Nat.strong_induction_on with
  | _ k ih =>
    obtain ⟨g, hg⟩ : ∃ g, S.ckt.gates[k]? = some g := ⟨_, List.getElem?_eq_getElem hk⟩
    have hparent : ∀ j ∈ g.parents,
        S.wire K j = (S.ckt.evalWires K (fun _ => 0) (S.summedInput K) j : ZMod K.intModulus) := by
      intro j hj
      have hlt := htop.parents_lt k g hg j hj
      exact ih j hlt (by omega)
    have himport0 := Circuit.importWires_fix K S.stale0 htop S.packet0 0 S.input0 hg
    have himport1 := Circuit.importWires_fix K S.stale1 htop S.packet1 1 S.input1 hg
    rw [Circuit.evalWires_fix K (fun _ => 0) htop (S.summedInput K) hg]
    cases g with
    | input =>
      rw [wire, wire0, wire1, himport0, himport1]
      simp only [importRule, evalRule, summedInput, cast_emod, Int.cast_add]
    | mul l r =>
      -- here the servers took the wire from the packets, and that it is the product is what was checked
      have hmem : k ∈ S.ckt.mulGates := List.mem_of_getElem? (Circuit.getElem?_mulGates hg)
      have hmul : S.wire K (S.ckt.gate k).parentL * S.wire K (S.ckt.gate k).parentR = S.wire K k := by
        by_contra hne
        exact hgood ⟨k, hmem, hne⟩
      rw [Circuit.gate_eq hg] at hmul
      rw [← hmul, evalRule, cast_emod, Int.cast_mul, ← hparent l (by simp [Gate.parents]),
        ← hparent r (by simp [Gate.parents])]
      rfl
    | add l r =>
      simp only [evalRule, cast_emod, Int.cast_add]
      rw [← hparent l (by simp [Gate.parents]), ← hparent r (by simp [Gate.parents])]
      simp only [wire, wire0, wire1] at himport0 himport1 ⊢
      rw [himport0, himport1]
      simp only [importRule, cast_emod, Int.cast_add]
      ring
    | addConst l constant =>
      simp only [evalRule, cast_emod, Int.cast_add]
      rw [← hparent l (by simp [Gate.parents])]
      simp only [wire, wire0, wire1] at himport0 himport1 ⊢
      rw [himport0, himport1]
      simp only [importRule, cast_emod, Int.cast_add, if_true, if_neg one_ne_zero]
      ring
    | mulConst l constant =>
      simp only [evalRule, cast_emod, Int.cast_mul]
      rw [← hparent l (by simp [Gate.parents])]
      simp only [wire, wire0, wire1] at himport0 himport1 ⊢
      rw [himport0, himport1]
      simp only [importRule, cast_emod, Int.cast_mul]
      ring

theorem evalWires_range (htop : S.ckt.Topological) {k : ℕ} (hk : k < S.ckt.gates.length) :
    0 ≤ S.ckt.evalWires K (fun _ => 0) (S.summedInput K) k ∧
      S.ckt.evalWires K (fun _ => 0) (S.summedInput K) k < K.intModulus := by
  have hpos : (0 : ℤ) < K.intModulus := Int.natCast_pos.mpr K.prime.pos
  obtain ⟨g, hg⟩ : ∃ g, S.ckt.gates[k]? = some g := ⟨_, List.getElem?_eq_getElem hk⟩
  rw [Circuit.evalWires_fix K (fun _ => 0) htop (S.summedInput K) hg]
  cases g <;> exact ⟨Int.emod_nonneg _ hpos.ne', Int.emod_lt_of_pos _ hpos⟩

theorem eval_of_not_bad (htop : S.ckt.Topological) (hmul : ¬ S.BadMul K) (hzero : ¬ S.BadZero K) :
    S.summedEval K = true := by
  refine (Circuit.eval_iff K _ _ S.ckt).mpr fun g hg => ?_
  have hlt := htop.resultZero_lt g hg
  have hwire : S.wire K g = 0 := by
    by_contra hne
    exact hzero ⟨g, hg, hne⟩
  have hpos : (0 : ℤ) < K.intModulus := Int.natCast_pos.mpr K.prime.pos
  refine eq_of_cast_eq (evalWires_range htop hlt) ⟨le_rfl, hpos⟩ ?_
  rw [← wire_eq_evalWires htop hmul hlt, hwire, Int.cast_zero]

/-! ### The counts -/

/-- Only at these points can all terms of the verdict vanish. -/
theorem exists_points (hN : 2 * S.numRoots ≤ 2 ^ K.twoOrder) (htop : S.ckt.Topological)
    (hrejected : S.summedEval K = false) :
    ∃ B : Finset (ZMod K.intModulus), B.card ≤ 2 * S.numRoots ∧ ∀ x, x ∉ B →
      (fun i : Fin (S.ckt.resultZero.length + 1) => S.term K x i) ≠ 0 := by
  by_cases hmul : S.BadMul K
  · have hzero := checkPoly_ne_zero (polyF_mul_polyG_ne hN hmul)
    refine ⟨(S.checkPoly K).roots.toFinset, Lib.card_roots_toFinset_le (natDegree_checkPoly_le hN), ?_⟩
    intro x hx hterms
    refine hx (Multiset.mem_toFinset.mpr ((mem_roots hzero).mpr ?_))
    exact (eval_checkPoly x).trans (congrFun hterms 0)
  · obtain ⟨g, hmem, hne⟩ : S.BadZero K := by
      by_contra hgood
      exact Bool.false_ne_true (hrejected.symm.trans (eval_of_not_bad htop hmul hgood))
    refine ⟨∅, Nat.zero_le _, fun x _ hterms => hne ?_⟩
    obtain ⟨i, hlt, hget⟩ := List.getElem_of_mem hmem
    have hterm : S.wire K (S.ckt.resultZero.getD i 0) = 0 := congrFun hterms ⟨i + 1, Nat.succ_lt_succ hlt⟩
    rwa [List.getD_eq_getElem _ _ hlt, hget] at hterm

end SnipInstance

/-- The draws of a batch of `n` checks: the point, and the coefficients of each check. -/
abbrev BatchDraws (K : Constants) (c : Circuit) (n : ℕ) : Type :=
  ZMod K.intModulus × (Fin n → Fin (c.resultZero.length + 1) → ZMod K.intModulus)

namespace SnipInstance

variable {K : Constants} {c : Circuit} {n : ℕ}

/-- How many of the draws of a batch can make some check pass whose summed inputs the circuit rejects. -/
def unsoundDraws (K : Constants) (c : Circuit) (n : ℕ) : ℕ :=
  n * (2 * nextPowerOfTwo c.numMulGates + 1) * (K.intModulus ^ (c.resultZero.length + 1)) ^ n

theorem exists_passes_rejected (hN : 2 * nextPowerOfTwo c.numMulGates ≤ 2 ^ K.twoOrder) (htop : c.Topological)
    (S : Fin n → SnipInstance) (hckt : ∀ i, (S i).ckt = c) :
    ∃ unsound : Finset (BatchDraws K c n), unsound.card ≤ unsoundDraws K c n ∧
      ∀ draws ∉ unsound, ∀ i, (S i).accepts K draws.1.val (coeffOf (draws.2 i)) = true →
        (S i).summedEval K = true := by
  have hcheck : ∀ i, (univ.filter fun xr : ZMod K.intModulus × (Fin (c.resultZero.length + 1) → ZMod K.intModulus) =>
      (S i).summedEval K = false ∧ (S i).accepts K xr.1.val (coeffOf xr.2) = true).card ≤
        (2 * nextPowerOfTwo c.numMulGates + 1) * K.intModulus ^ (c.resultZero.length + 1) := by
    intro i
    obtain rfl := hckt i
    by_cases hrejected : (S i).summedEval K = false
    · obtain ⟨B, hcard, hB⟩ := exists_points hN htop hrejected
      simp only [hrejected, true_and, accepts_coeffOf_iff hN]
      refine (Lib.card_pairs_le hB).trans ?_
      rw [ZMod.card, ← pow_succ', Nat.add_mul, Nat.one_mul]
      exact Nat.add_le_add_right (Nat.mul_le_mul_right _ hcard) _
    · simp [hrejected]
  obtain ⟨unsound, hcard, hunsound⟩ := Lib.UnionBound.exists_blocks_good
    (P := fun i x r => (S i).summedEval K = false ∧ (S i).accepts K (ZMod.val x) (coeffOf r) = true) hcheck
  rw [Fintype.card_fin, Fintype.card_fun, Fintype.card_fin, ZMod.card] at hcard
  refine ⟨unsound, hcard.trans_eq ?_, fun draws hdraws i haccepts =>
    eq_true_of_ne_false fun hrejected => hunsound draws hdraws i ⟨hrejected, haccepts⟩⟩
  cases n with
  | zero => simp [unsoundDraws]
  | succ n =>
    rw [unsoundDraws, Nat.add_sub_cancel]
    ring

end SnipInstance

end PrioPlus

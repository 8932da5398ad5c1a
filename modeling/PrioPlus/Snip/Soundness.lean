import PrioPlus.Lib.LinearCheck
import PrioPlus.Circuit.Checks
import PrioPlus.Snip.Verdict

/-!
# SNIP soundness

If the imported wires violate some multiplication gate or some result gate, few pairs of an evaluation point and a
coefficient vector accept, for whatever packets the two servers hold. A violated multiplication gate makes
`F G ≠ H`, so `x (F G - H)(x) + c - a b` is a nonzero polynomial in `x` of degree at most `2 N`
(`natDegree_checkPoly_le`); outside its roots, and for every point when a result gate is violated, the verdict is a
nonzero linear form in the coefficients.
-/

namespace PrioPlus

open Finset Polynomial

namespace SnipInstance

variable (K : Constants) (S : SnipInstance)

/-- Some multiplication gate's output is not the product of its inputs. -/
def BadMul : Prop :=
  ∃ g ∈ S.ckt.mulGates, S.wire K (S.ckt.gate g).parentL * S.wire K (S.ckt.gate g).parentR ≠ S.wire K g

/-- Some result gate is not zero. -/
def BadZero : Prop := ∃ g ∈ S.ckt.resultZero, S.wire K g ≠ 0

/-- The coefficients of a vector over the field, as the integers that `fmpz_randm` draws. -/
def coeffOf {p m : ℕ} (r : Fin m → ZMod p) (i : ℕ) : ℤ := if h : i < m then (r ⟨i, h⟩).val else 0

/-- The first term of the verdict, as a polynomial in the point. -/
noncomputable def checkPoly : (ZMod K.intModulus)[X] :=
  X * (S.polyF K * S.polyG K - S.polyH K) + C (S.tripleDefect K)

variable {K S}

/-! ### The values at the nodes -/

theorem sumF_succ {i g : ℕ} (hg : S.ckt.mulGates[i]? = some g) :
    S.sumF K (i + 1) = S.wire K (S.ckt.gate g).parentL := by
  simp only [sumF, checkerPointsF, getD_padTo, List.getD_cons_succ, Circuit.getD_leftWires hg, wire]

theorem sumG_succ {i g : ℕ} (hg : S.ckt.mulGates[i]? = some g) :
    S.sumG K (i + 1) = S.wire K (S.ckt.gate g).parentR := by
  simp only [sumG, checkerPointsG, getD_padTo, List.getD_cons_succ, Circuit.getD_rightWires hg, wire]

theorem sumH_even_succ {i g : ℕ} (hg : S.ckt.mulGates[i]? = some g) :
    S.sumH K (2 * (i + 1)) = S.wire K g := by
  have heven : 2 * (i + 1) % 2 ≠ 1 := by omega
  have hhalf : 2 * (i + 1) / 2 = i + 1 := by omega
  simp only [sumH, checkerPointsH, if_neg heven, hhalf, List.getD_cons_succ, Circuit.getD_outWires hg, wire]

theorem polyF_mul_polyG_ne (hN : 2 * S.numRoots ≤ 2 ^ K.twoOrder) (hbad : S.BadMul K) :
    S.polyF K * S.polyG K ≠ S.polyH K := by
  obtain ⟨g, hmem, hne⟩ := hbad
  obtain ⟨i, hlt, hget⟩ := List.getElem_of_mem hmem
  have hg : S.ckt.mulGates[i]? = some g := by rw [List.getElem?_eq_getElem hlt, hget]
  have hi : i + 1 < S.numRoots := lt_of_le_of_lt hlt (lt_nextPowerOfTwo _)
  intro heq
  have heval := congrArg (eval (S.node K (i + 1))) heq
  have hH : (S.polyH K).eval (S.node K (i + 1)) = S.sumH K (2 * (i + 1)) := by
    rw [← node2_even hN hi]
    exact Lagrange.eval_interpolate_at_node _ (injOn_node2 hN) (mem_range.mpr (by omega))
  rw [eval_mul, eval_polyF_node hN hi, eval_polyG_node hN hi, hH, sumF_succ hg, sumG_succ hg,
    sumH_even_succ hg] at heval
  exact hne heval

/-! ### The check as a polynomial -/

theorem eval_checkPoly (x : ZMod K.intModulus) : (S.checkPoly K).eval x = S.term K x 0 := by
  simp [checkPoly, term]

theorem checkPoly_ne_zero (hne : S.polyF K * S.polyG K ≠ S.polyH K) : S.checkPoly K ≠ 0 := by
  intro hzero
  refine hne (sub_eq_zero.mp (Polynomial.ext fun j => ?_))
  have hcoeff := congrArg (fun P => coeff P (j + 1)) hzero
  simpa [checkPoly, coeff_X_mul, coeff_C_succ] using hcoeff

theorem natDegree_checkPoly_le (hN : 2 * S.numRoots ≤ 2 ^ K.twoOrder) :
    (S.checkPoly K).natDegree ≤ 2 * S.numRoots := by
  have hpos : 0 < S.numRoots := numRoots_pos
  have hmul : (S.polyF K * S.polyG K).natDegree ≤ 2 * S.numRoots - 1 :=
    (natDegree_polyF_mul_polyG_le hN).trans (by omega)
  have hdegH : (S.polyH K).natDegree ≤ 2 * S.numRoots - 1 :=
    natDegree_interpolate_le (by omega) (injOn_node2 hN) _
  have hsub : (S.polyF K * S.polyG K - S.polyH K).natDegree ≤ 2 * S.numRoots - 1 :=
    (natDegree_sub_le_of_le hmul hdegH).trans (max_self _).le
  have hX : (X * (S.polyF K * S.polyG K - S.polyH K)).natDegree ≤ 2 * S.numRoots :=
    natDegree_mul_le.trans (by rw [natDegree_X]; omega)
  exact natDegree_add_C.le.trans hX

/-! ### The bound -/

theorem accepts_coeffOf_iff (hN : 2 * S.numRoots ≤ 2 ^ K.twoOrder) (x : ZMod K.intModulus)
    (r : Fin (S.ckt.resultZero.length + 1) → ZMod K.intModulus) :
    S.accepts K x.val (coeffOf r) = true ↔ ∑ i, r i * S.term K x i = 0 := by
  have hx : 0 ≤ (x.val : ℤ) ∧ (x.val : ℤ) < K.intModulus := ⟨by omega, by exact_mod_cast ZMod.val_lt x⟩
  rw [accepts_iff hN hx, Finset.sum_range]
  refine Eq.congr_left (sum_congr rfl fun i _ => ?_)
  have hi : (i : ℕ) < S.ckt.resultZero.length + 1 := i.isLt
  simp [coeffOf, hi]

/-- SNIP soundness: few pairs of an evaluation point and a coefficient vector accept a bad packet. -/
theorem card_accepts_le (K : Constants) (S : SnipInstance) (hN : 2 * S.numRoots ≤ 2 ^ K.twoOrder)
    (hbad : S.BadMul K ∨ S.BadZero K) :
    (univ.filter fun xr : ZMod K.intModulus × (Fin (S.ckt.resultZero.length + 1) → ZMod K.intModulus) =>
        S.accepts K xr.1.val (coeffOf xr.2) = true).card ≤
      2 * S.numRoots * K.intModulus ^ (S.ckt.resultZero.length + 1) +
        K.intModulus * K.intModulus ^ S.ckt.resultZero.length := by
  let z : ZMod K.intModulus → Fin (S.ckt.resultZero.length + 1) → ZMod K.intModulus := fun x i => S.term K x i
  obtain ⟨B, hcard, hB⟩ : ∃ B : Finset (ZMod K.intModulus),
      B.card ≤ 2 * S.numRoots ∧ ∀ x, x ∉ B → z x ≠ 0 := by
    rcases hbad with hmul | ⟨g, hmem, hne⟩
    · have hzero := checkPoly_ne_zero (polyF_mul_polyG_ne hN hmul)
      refine ⟨(S.checkPoly K).roots.toFinset, Lib.card_roots_toFinset_le (natDegree_checkPoly_le hN), ?_⟩
      intro x hx hz
      refine hx (Multiset.mem_toFinset.mpr ((mem_roots hzero).mpr ?_))
      exact (eval_checkPoly x).trans (congrFun hz 0)
    · refine ⟨∅, Nat.zero_le _, fun x _ hz => hne ?_⟩
      obtain ⟨i, hlt, hget⟩ := List.getElem_of_mem hmem
      have hterm : S.wire K (S.ckt.resultZero.getD i 0) = 0 := congrFun hz ⟨i + 1, Nat.succ_lt_succ hlt⟩
      have hwire : S.ckt.resultZero.getD i 0 = g := by rw [List.getD_eq_getElem _ _ hlt, hget]
      rwa [hwire] at hterm
  simp only [accepts_coeffOf_iff hN]
  refine (Lib.card_pairs_le hB).trans ?_
  rw [ZMod.card]
  exact Nat.add_le_add_right (Nat.mul_le_mul_right _ hcard) _

/-- Zero packets for `3 ^ 2 = 8`. -/
def cheatingInstance : SnipInstance :=
  ⟨checkVar shipped, ClientPacket.new 1, ClientPacket.new 1, fun i => if i = 0 then 3 else 8, fun _ => 0,
    fun _ => 0, fun _ => 0⟩

theorem card_accepts_cheatingInstance_le :
    (univ.filter fun xr : ZMod shipped.intModulus ×
        (Fin (cheatingInstance.ckt.resultZero.length + 1) → ZMod shipped.intModulus) =>
        cheatingInstance.accepts shipped xr.1.val (coeffOf xr.2) = true).card ≤
      2 * cheatingInstance.numRoots * shipped.intModulus ^ (cheatingInstance.ckt.resultZero.length + 1) +
        shipped.intModulus * shipped.intModulus ^ cheatingInstance.ckt.resultZero.length := by
  refine card_accepts_le shipped cheatingInstance ?_ (Or.inl ⟨2, by decide, ?_⟩)
  · have hmul : cheatingInstance.ckt.numMulGates = 1 := Circuit.numMulGates_checkVar shipped
    rw [numRoots, hmul]
    simp [nextPowerOfTwo, doubleWhile, shipped]
  · have hin0 : cheatingInstance.wire0 shipped 0 = 3 := rfl
    have hin1 : cheatingInstance.wire1 shipped 0 = 0 := rfl
    have hout0 : cheatingInstance.wire0 shipped 2 = 0 := rfl
    have hout1 : cheatingInstance.wire1 shipped 2 = 0 := rfl
    change cheatingInstance.wire shipped 0 * cheatingInstance.wire shipped 0 ≠ cheatingInstance.wire shipped 2
    rw [wire, wire, hin0, hin1, hout0, hout1]
    decide

end SnipInstance

end PrioPlus

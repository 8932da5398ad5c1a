import Mathlib.FieldTheory.Finite.Basic
import PrioPlus.Circuit.Checks
import PrioPlus.Snip.Verdict

/-!
# SNIP completeness

An honest client's packets are accepted at every point and for every coefficient sequence. The client's points are
the summed points of the servers (`sumF_eq`), its transforms evaluate the polynomial that interpolates them
(`cast_evalsOnRoots`), and so the summed `h` has the values of `F G` at all `2 N`-th roots, the odd ones from the
packet and the even ones from the multiplication gates and the zero padding (`sumH_odd`, `sumH_even`). As `F G` has
degree below `2 N`, the first term of the verdict vanishes identically; the others are the result gates.
-/

namespace PrioPlus

open Finset Polynomial Lib

theorem Constants.intModulus_ne_two (K : Constants) (h : 2 ≤ 2 ^ K.twoOrder) : K.intModulus ≠ 2 := by
  intro htwo
  have hgen : (K.intGen : ZMod K.intModulus) ≠ 0 := by
    intro hzero
    have horder := K.order
    rw [hzero, orderOf_zero] at horder
    have := Nat.two_pow_pos K.twoOrder
    omega
  have hdvd := ZMod.orderOf_dvd_card_sub_one hgen
  rw [K.order, htwo] at hdvd
  have := Nat.le_of_dvd one_pos hdvd
  omega

/-! ### The transforms -/

theorem cast_evalsOnRoots {K : Constants} {t : RootTables} {k : ℕ} {ζ : ZMod K.intModulus}
    (hζ : t.IsFor K (2 ^ k) ζ) (points : List ℤ) {v : ℕ → ZMod K.intModulus}
    (hv : ∀ i < 2 ^ k, v i = (ζ ^ 2) ^ i) {j : ℕ} (hj : j < 2 * 2 ^ k) :
    (((evalsOnRoots K t (2 ^ k) points).getD j 0 : ℤ) : ZMod K.intModulus) =
      (Lagrange.interpolate (range (2 ^ k)) v fun i => (points.getD i 0 : ZMod K.intModulus)).eval (ζ ^ j) := by
  let poly := fftInterpolate K.intModulus (2 ^ k) t.invroots points true
  let P := polyOf (2 ^ k) fun i => (poly.getD i 0 : ZMod K.intModulus)
  have hω : IsPrimitiveRoot (ζ ^ 2) (2 ^ k) := SnipInstance.primitive_sq (Nat.two_pow_pos k) hζ.primitive
  have hζ2 : IsPrimitiveRoot ζ (2 ^ (k + 1)) := by
    rw [pow_succ, Nat.mul_two]
    exact hζ.primitive
  have hinterp : P = Lagrange.interpolate (range (2 ^ k)) v fun i => (points.getD i 0 : ZMod K.intModulus) := by
    refine Lagrange.eq_interpolate_of_eval_eq _ (SnipInstance.injOn_pow hω hv) ?_ fun i hi => ?_
    · rw [card_range]
      exact degree_polyOf_lt _ _
    · have hi := mem_range.mp hi
      rw [hv i hi]
      exact fftInterpolate_invert hω hζ.invroots_eq points hi
  have hpad : polyOf (2 ^ (k + 1)) (fun i => ((padTo (2 * 2 ^ k) poly).getD i 0 : ZMod K.intModulus)) = P := by
    apply polyOf_pad (by rw [pow_succ]; omega) (fun i _ => by rw [getD_padTo])
    intro i hi _
    rw [getD_padTo, List.getD_eq_default _ _ (by simpa [poly] using hi), Int.cast_zero]
  rw [← hinterp, ← hpad, evalsOnRoots]
  rw [← pow_succ'] at hj ⊢
  refine fftInterpolate_eval hζ2 (fun i hi => hζ.roots2_eq i ?_) _ hj
  rwa [← pow_succ']

theorem clientRoots_eq_buildRoots {K : Constants} {t : RootTables} {N : ℕ} (hN : 0 < N)
    (ht : t = RootTables.unset ∨ t = buildRoots K N) : clientRoots K t N = buildRoots K N := by
  rcases ht with rfl | rfl
  · have hunset : (RootTables.unset).roots = [] := rfl
    rw [clientRoots, if_pos hunset, initRoots, if_neg]
    exact hN.ne
  · rw [clientRoots, if_neg]
    simp [buildRoots, hN.ne']

/-! ### The packets of an honest client -/

namespace SnipInstance

/-- The packets come from `share_polynomials` on a circuit that the client evaluated to true, with the root tables
not built yet or built for this circuit, and the servers' inputs are a split of the client's modulo `p`. -/
structure Honest (K : Constants) (S : SnipInstance) (t : RootTables) (stale inps : ℕ → ℤ) (d : ShareDraws) :
    Prop where
  topological : S.ckt.Topological
  eval_eq : S.ckt.eval K stale inps = true
  tables_eq : t = RootTables.unset ∨ t = buildRoots K S.numRoots
  packets_eq : (S.packet0, S.packet1) = (sharePolynomials K t S.ckt (S.ckt.evalWires K stale inps) d).2
  split : ∀ i < S.ckt.numInputs, (S.input0 i + S.input1 i) % K.intModulus = inps i % K.intModulus

namespace Honest

variable {K : Constants} {S : SnipInstance} {t : RootTables} {stale inps : ℕ → ℤ} {d : ShareDraws}
  (hS : S.Honest K t stale inps d)
include hS

theorem packet0_eq : S.packet0 = (sharePolynomials K t S.ckt (S.ckt.evalWires K stale inps) d).2.1 :=
  congrArg Prod.fst hS.packets_eq

theorem packet1_eq : S.packet1 = (sharePolynomials K t S.ckt (S.ckt.evalWires K stale inps) d).2.2 :=
  congrArg Prod.snd hS.packets_eq

theorem clientRoots_eq : clientRoots K t S.numRoots = buildRoots K S.numRoots :=
  clientRoots_eq_buildRoots numRoots_pos hS.tables_eq

theorem cast_mulShares_add (i g : ℕ) (hg : S.ckt.mulGates[i]? = some g) :
    (S.packet0.mulShares.getD i 0 + S.packet1.mulShares.getD i 0 : ZMod K.intModulus) =
      S.ckt.evalWires K stale inps g := by
  have hi : i < S.ckt.numMulGates := (List.getElem?_eq_some_iff.mp hg).1
  rw [hS.packet0_eq, hS.packet1_eq]
  simp only [sharePolynomials, Circuit.getMulShares, List.map_map]
  rw [getD_map_range, getD_map_range, if_pos hi, if_pos hi]
  simp only [Function.comp_apply, cast_splitShare, Circuit.getD_outWires hg]

theorem wire_eq {g : ℕ} (hg : g < S.ckt.gates.length) : S.wire K g = S.ckt.evalWires K stale inps g := by
  refine Circuit.cast_importWires_add K hS.topological stale S.stale0 S.stale1 inps _ _ _ _ (fun i hi => ?_)
    hS.cast_mulShares_add hg
  rw [← Int.cast_add, cast_eq_iff_emod]
  exact hS.split i hi

theorem tripleDefect_eq : S.tripleDefect K = 0 := by
  rw [tripleDefect, hS.packet0_eq, hS.packet1_eq]
  simp only [sharePolynomials, beaverTripleShares, cast_splitShare, newBeaverTriple]
  simp

theorem parents_lt {i g : ℕ} (hg : S.ckt.mulGates[i]? = some g) :
    (S.ckt.gate g).parentL < S.ckt.gates.length ∧ (S.ckt.gate g).parentR < S.ckt.gates.length ∧
      g < S.ckt.gates.length := by
  obtain ⟨l, r, hgate⟩ := Circuit.gate_mulGates hg
  have hlt := (List.getElem?_eq_some_iff.mp hgate).1
  have hl := hS.topological.parents_lt g _ hgate l (by simp [Gate.parents])
  have hr := hS.topological.parents_lt g _ hgate r (by simp [Gate.parents])
  rw [Circuit.gate_eq hgate]
  exact ⟨hl.trans hlt, hr.trans hlt, hlt⟩

theorem cast_evalWires_mul {i g : ℕ} (hg : S.ckt.mulGates[i]? = some g) :
    (S.ckt.evalWires K stale inps g : ZMod K.intModulus) =
      S.ckt.evalWires K stale inps (S.ckt.gate g).parentL * S.ckt.evalWires K stale inps (S.ckt.gate g).parentR := by
  obtain ⟨l, r, hgate⟩ := Circuit.gate_mulGates hg
  rw [Circuit.evalWires_fix K stale hS.topological inps hgate, Circuit.gate_eq hgate, evalRule, cast_emod,
    Int.cast_mul]
  rfl

/-! ### The summed points -/

theorem cast_points_add {parent : ℕ → ℕ}
    (hparent : ∀ i g : ℕ, S.ckt.mulGates[i]? = some g → parent g < S.ckt.gates.length) {x0 x1 x : ℤ}
    (hx : (x0 : ZMod K.intModulus) + x1 = x) (i : ℕ) :
    (((x0 :: S.ckt.mulGates.map fun g => S.wire0 K (parent g)).getD i 0 : ℤ) : ZMod K.intModulus) +
        ((x1 :: S.ckt.mulGates.map fun g => S.wire1 K (parent g)).getD i 0 : ℤ) =
      ((x :: S.ckt.mulGates.map fun g => S.ckt.evalWires K stale inps (parent g)).getD i 0 : ℤ) := by
  cases i with
  | zero => exact hx
  | succ i =>
    rcases hg : S.ckt.mulGates[i]? with _ | g
    · simp only [List.getD_cons_succ, Circuit.getD_map_mulGates_of_none hg, Int.cast_zero, add_zero]
    · simp only [List.getD_cons_succ, Circuit.getD_map_mulGates hg]
      exact hS.wire_eq (hparent i g hg)

theorem sumF_eq (i : ℕ) :
    S.sumF K i = ((d.f0 :: S.ckt.leftWires (S.ckt.evalWires K stale inps)).getD i 0 : ℤ) := by
  have hfirst : (S.packet0.f0S : ZMod K.intModulus) + S.packet1.f0S = d.f0 := by
    rw [hS.packet0_eq, hS.packet1_eq]
    exact cast_splitShare K _ _
  rw [sumF, checkerPointsF, checkerPointsF, getD_padTo, getD_padTo]
  exact hS.cast_points_add (fun i g hg => (hS.parents_lt hg).1) hfirst i

theorem sumG_eq (i : ℕ) :
    S.sumG K i = ((d.g0 :: S.ckt.rightWires (S.ckt.evalWires K stale inps)).getD i 0 : ℤ) := by
  have hfirst : (S.packet0.g0S : ZMod K.intModulus) + S.packet1.g0S = d.g0 := by
    rw [hS.packet0_eq, hS.packet1_eq]
    exact cast_splitShare K _ _
  rw [sumG, checkerPointsG, checkerPointsG, getD_padTo, getD_padTo]
  exact hS.cast_points_add (fun i g hg => (hS.parents_lt hg).2.1) hfirst i

/-- The even points of `h` are the products of those of `f` and `g`: at `0`, at a gate, and in the padding. -/
theorem sumH_even (i : ℕ) : S.sumH K (2 * i) = S.sumF K i * S.sumG K i := by
  have heven : 2 * i % 2 ≠ 1 := by omega
  have hhalf : 2 * i / 2 = i := by omega
  rw [hS.sumF_eq, hS.sumG_eq, sumH, checkerPointsH, checkerPointsH, if_neg heven, if_neg heven, hhalf]
  cases i with
  | zero =>
    simp only [List.getD_cons_zero, hS.packet0_eq, hS.packet1_eq, sharePolynomials, cast_splitShare,
      getD_padTo, cast_emod, Int.cast_mul]
  | succ i =>
    rcases hg : S.ckt.mulGates[i]? with _ | g
    · simp only [List.getD_cons_succ, Circuit.leftWires, Circuit.rightWires, Circuit.outWires,
        Circuit.getD_map_mulGates_of_none hg, Int.cast_zero, add_zero, mul_zero]
    · simp only [List.getD_cons_succ, Circuit.getD_leftWires hg, Circuit.getD_rightWires hg,
        Circuit.getD_outWires hg]
      rw [← hS.cast_evalWires_mul hg]
      exact hS.wire_eq (hS.parents_lt hg).2.2

section Size

variable (hN : 2 * S.numRoots ≤ 2 ^ K.twoOrder)
include hN

theorem sumH_odd {j : ℕ} (hj : j < S.numRoots) :
    S.sumH K (2 * j + 1) =
      (S.polyF K).eval (S.node2 K (2 * j + 1)) * (S.polyG K).eval (S.node2 K (2 * j + 1)) := by
  obtain ⟨ζ, hζ⟩ := tables hN
  obtain ⟨k, hk⟩ := nextPowerOfTwo_eq_two_pow S.ckt.numMulGates
  have hroots : S.numRoots = 2 ^ k := hk
  have hodd : (2 * j + 1) % 2 = 1 := by omega
  have hhalf : (2 * j + 1) / 2 = j := by omega
  have hlt : 2 * j + 1 < 2 * 2 ^ k := by omega
  have htables := hS.clientRoots_eq
  rw [hroots] at htables hζ
  have hnode : ∀ i < 2 ^ k, S.node K i = (ζ ^ 2) ^ i := by
    intro i hi
    rw [node, hroots]
    exact hζ.roots_eq i hi
  have hF := cast_evalsOnRoots hζ
    (padTo (2 ^ k) (d.f0 :: S.ckt.leftWires (S.ckt.evalWires K stale inps))) hnode hlt
  have hG := cast_evalsOnRoots hζ
    (padTo (2 ^ k) (d.g0 :: S.ckt.rightWires (S.ckt.evalWires K stale inps))) hnode hlt
  simp only [getD_padTo, ← hS.sumF_eq, ← hS.sumG_eq] at hF hG
  rw [sumH, checkerPointsH, checkerPointsH, if_pos hodd, if_pos hodd, hhalf, hS.packet0_eq, hS.packet1_eq]
  simp only [sharePolynomials, List.map_map, hk, htables]
  rw [getD_map_range, getD_map_range, if_pos (by omega), if_pos (by omega)]
  simp only [Function.comp_apply, cast_splitShare, cast_emod, Int.cast_mul, hF, hG]
  rw [polyF, polyG, node2, hroots, hζ.roots2_eq _ hlt]

theorem polyH_eq : S.polyH K = S.polyF K * S.polyG K := by
  have hpos : 0 < S.numRoots := numRoots_pos
  refine (Lagrange.eq_interpolate_of_eval_eq _ (injOn_node2 hN) ?_ fun i hi => ?_).symm
  · rw [card_range]
    have hdeg := natDegree_polyF_mul_polyG_le hN
    have hlt : (S.polyF K * S.polyG K).natDegree < 2 * S.numRoots := by omega
    exact degree_le_natDegree.trans_lt (by exact_mod_cast hlt)
  · have hi := mem_range.mp hi
    obtain ⟨j, rfl | rfl⟩ := Nat.even_or_odd' i
    · rw [eval_mul, hS.sumH_even, node2_even hN (by omega), eval_polyF_node hN (by omega),
        eval_polyG_node hN (by omega)]
    · rw [eval_mul, hS.sumH_odd hN (by omega)]

theorem term_eq_zero (x : ZMod K.intModulus) {i : ℕ} (hi : i < S.ckt.resultZero.length + 1) :
    S.term K x i = 0 := by
  cases i with
  | zero => rw [term, hS.polyH_eq hN, eval_mul, sub_self, mul_zero, hS.tripleDefect_eq, add_zero]
  | succ i =>
    have hlt : i < S.ckt.resultZero.length := Nat.lt_of_succ_lt_succ hi
    have hmem : S.ckt.resultZero.getD i 0 ∈ S.ckt.resultZero := by
      rw [List.getD_eq_getElem _ _ hlt]
      exact List.getElem_mem hlt
    have hzero : S.ckt.evalWires K stale inps (S.ckt.resultZero.getD i 0) = 0 := by
      simpa using List.all_eq_true.mp hS.eval_eq _ hmem
    rw [term, hS.wire_eq (hS.topological.resultZero_lt _ hmem), hzero, Int.cast_zero]

theorem accepts {x : ℤ} (hx : 0 ≤ x ∧ x < K.intModulus) (coeff : ℕ → ℤ) : S.accepts K x coeff = true := by
  refine (accepts_iff hN hx coeff).mpr (sum_eq_zero fun i hi => ?_)
  rw [hS.term_eq_zero hN _ (mem_range.mp hi), mul_zero]

end Size

end Honest

/-- SNIP completeness: an honest client's packets are accepted. -/
theorem accepts_of_honest (K : Constants) (S : SnipInstance) (t : RootTables) (stale inps : ℕ → ℤ) (d : ShareDraws)
    (hN : 2 * S.numRoots ≤ 2 ^ K.twoOrder) (hS : S.Honest K t stale inps d) (x : ℤ)
    (hx : 0 ≤ x ∧ x < K.intModulus) (coeff : ℕ → ℤ) : S.accepts K x coeff = true := by
  rw [accepts_iff hN hx]
  apply sum_eq_zero
  intro i hi
  rw [hS.term_eq_zero hN _ (mem_range.mp hi), mul_zero]

/-- A client that proves `5 ^ 2 = 25` with every draw equal to `7`, and servers that hold `(5, 25)` and zeros. -/
def squareInstance : SnipInstance :=
  let inps := fun i => if i = 0 then 5 else 25
  let draws : ShareDraws := ⟨7, 7, fun _ => 7, 7, 7, 7, fun _ => 7, 7, 7, 7, 7, 7⟩
  let wire := (checkVar shipped).evalWires shipped (fun _ => 0) inps
  let packets := (sharePolynomials shipped RootTables.unset (checkVar shipped) wire draws).2
  ⟨checkVar shipped, packets.1, packets.2, inps, fun _ => 0, fun _ => 0, fun _ => 0⟩

theorem numRoots_squareInstance : squareInstance.numRoots = 2 := by
  have hmul : squareInstance.ckt.numMulGates = 1 := Circuit.numMulGates_checkVar shipped
  rw [numRoots, hmul]
  simp [nextPowerOfTwo, doubleWhile]

theorem accepts_squareInstance : squareInstance.accepts shipped 1 (fun i => i + 3) = true := by
  refine accepts_of_honest shipped squareInstance RootTables.unset (fun _ => 0) (fun i => if i = 0 then 5 else 25)
    ⟨7, 7, fun _ => 7, 7, 7, 7, fun _ => 7, 7, 7, 7, 7, 7⟩ ?_ ?_ 1 (by decide) _
  · rw [numRoots_squareInstance]
    decide
  · refine ⟨Circuit.topological_checkVar shipped, ?_, Or.inl rfl, rfl, fun i _ => ?_⟩
    · exact (Circuit.eval_checkVar_iff shipped _ _).mpr (by norm_num)
    · simp [squareInstance]

end SnipInstance

end PrioPlus

import PrioPlus.Snip.Checker

/-!
# What the verdict computes

Over the field, the two `OutShare`s add up to a linear form in the drawn coefficients (`accepts_iff`). Its first
`term` is `x (F G - H)(x) + c - a b` for the interpolation polynomials `F`, `G`, `H` of the summed points and the
summed triple, whatever the packets hold and whether or not `x` is a node; the others are the summed shares of the
result gates. Completeness and soundness both start from here.
-/

namespace PrioPlus

open Finset Polynomial

/-- The inputs of one check: the circuit, and for each server its packet, its shares of the inputs and what its
copy of the circuit held before. -/
structure SnipInstance where
  ckt : Circuit
  packet0 : ClientPacket
  packet1 : ClientPacket
  input0 : ℕ → ℤ
  input1 : ℕ → ℤ
  stale0 : ℕ → ℤ
  stale1 : ℕ → ℤ

namespace SnipInstance

variable (K : Constants) (S : SnipInstance)

/-- The size of the root tables, `NextPowerOfTwo` of the number of multiplication gates. -/
def numRoots : ℕ := nextPowerOfTwo S.ckt.numMulGates

def pre (x : ℤ) : CheckerPreComp := setCheckerPrecomp K (buildRoots K S.numRoots) S.numRoots x

def checker0 (x : ℤ) : Checker := Checker.new K S.ckt S.stale0 0 S.packet0 (S.pre K x) S.input0

def checker1 (x : ℤ) : Checker := Checker.new K S.ckt S.stale1 1 S.packet1 (S.pre K x) S.input1

/-- The verdict at the point `x` with the coefficients `coeff`. -/
def accepts (x : ℤ) (coeff : ℕ → ℤ) : Bool := snipAccepts K (S.checker0 K x) (S.checker1 K x) coeff

/-- The wires of server 0 after `ImportWires`. -/
def wire0 : ℕ → ℤ := S.ckt.importWires K S.stale0 S.packet0 0 S.input0

def wire1 : ℕ → ℤ := S.ckt.importWires K S.stale1 S.packet1 1 S.input1

/-- A wire modulo `p`, the sum of its two shares. -/
def wire (i : ℕ) : ZMod K.intModulus := (S.wire0 K i : ZMod K.intModulus) + S.wire1 K i

/-! ### The polynomials of the summed points -/

def sumF (i : ℕ) : ZMod K.intModulus :=
  (checkerPointsF S.ckt S.packet0 (S.wire0 K) i : ZMod K.intModulus) +
    checkerPointsF S.ckt S.packet1 (S.wire1 K) i

def sumG (i : ℕ) : ZMod K.intModulus :=
  (checkerPointsG S.ckt S.packet0 (S.wire0 K) i : ZMod K.intModulus) +
    checkerPointsG S.ckt S.packet1 (S.wire1 K) i

def sumH (i : ℕ) : ZMod K.intModulus :=
  (checkerPointsH S.ckt S.packet0 (S.wire0 K) i : ZMod K.intModulus) +
    checkerPointsH S.ckt S.packet1 (S.wire1 K) i

/-- The `N`-th roots of unity as the tables hold them. -/
def node (i : ℕ) : ZMod K.intModulus := ((buildRoots K S.numRoots).roots.getD i 0 : ℤ)

/-- The `2N`-th roots of unity. -/
def node2 (i : ℕ) : ZMod K.intModulus := ((buildRoots K S.numRoots).roots2.getD i 0 : ℤ)

noncomputable def polyF : (ZMod K.intModulus)[X] := Lagrange.interpolate (range S.numRoots) (S.node K) (S.sumF K)

noncomputable def polyG : (ZMod K.intModulus)[X] := Lagrange.interpolate (range S.numRoots) (S.node K) (S.sumG K)

noncomputable def polyH : (ZMod K.intModulus)[X] :=
  Lagrange.interpolate (range (2 * S.numRoots)) (S.node2 K) (S.sumH K)

/-- The summed triple's defect `c - a b`. -/
def tripleDefect : ZMod K.intModulus :=
  let t0 := S.packet0.tripleShare
  let t1 := S.packet1.tripleShare
  (t0.shareC + t1.shareC : ZMod K.intModulus) -
    (t0.shareA + t1.shareA : ZMod K.intModulus) * (t0.shareB + t1.shareB)

/-- The terms of the linear form: the multiplication check, then the result gates. -/
noncomputable def term (x : ZMod K.intModulus) : ℕ → ZMod K.intModulus
  | 0 => x * ((S.polyF K).eval x * (S.polyG K).eval x - (S.polyH K).eval x) + S.tripleDefect K
  | i + 1 => S.wire K (S.ckt.resultZero.getD i 0)

end SnipInstance

/-! ### The Beaver check and the random sum -/

theorem cast_randSum (K : Constants) (coeff : ℕ → ℤ) (arr : List ℤ) :
    ((Checker.randSum K coeff arr : ℤ) : ZMod K.intModulus) =
      ∑ i ∈ range arr.length, (coeff i : ZMod K.intModulus) * (arr.getD i 0 : ℤ) := by
  rw [Checker.randSum, cast_emod]
  induction arr.length with
  | zero => simp
  | succ n ih =>
    rw [List.range_succ, List.foldl_append, List.foldl_cons, List.foldl_nil, Int.cast_add, ih, cast_emod,
      Int.cast_mul, sum_range_succ]

theorem cast_mulCheck_add (K : Constants) (s0 s1 : Checker) (hs0 : s0.serverNum = 0) (hs1 : s1.serverNum ≠ 0) :
    ((s0.mulCheck K (Cor.ofShares K (s0.corShareFn K) (s1.corShareFn K)) : ℤ) : ZMod K.intModulus) +
        s1.mulCheck K (Cor.ofShares K (s1.corShareFn K) (s0.corShareFn K)) =
      (s0.evalF + s1.evalF : ZMod K.intModulus) * (s0.evalG + s1.evalG) - (s0.evalH + s1.evalH) +
        ((s0.req.tripleShare.shareC + s1.req.tripleShare.shareC : ZMod K.intModulus) -
          (s0.req.tripleShare.shareA + s1.req.tripleShare.shareA : ZMod K.intModulus) *
            (s0.req.tripleShare.shareB + s1.req.tripleShare.shareB)) := by
  simp only [Checker.mulCheck, Checker.corShareFn, Cor.ofShares, hs0, if_true, if_neg hs1]
  push_cast [cast_emod]
  ring

theorem addToZero_iff (K : Constants) (x y : ℤ) : addToZero K x y = true ↔ (x + y : ZMod K.intModulus) = 0 := by
  rw [addToZero, decide_eq_true_iff, ← cast_eq_zero_iff, Int.cast_add]

/-! ### The nodes -/

theorem nextPowerOfTwo_dvd {n k : ℕ} (h : 2 * nextPowerOfTwo n ≤ 2 ^ k) :
    nextPowerOfTwo n + nextPowerOfTwo n ∣ 2 ^ k := by
  obtain ⟨j, hj⟩ := nextPowerOfTwo_eq_two_pow n
  rw [hj, ← pow_succ'] at h
  rw [hj, ← Nat.two_mul, ← pow_succ']
  exact pow_dvd_pow 2 ((Nat.pow_le_pow_iff_right (by norm_num)).mp h)

namespace SnipInstance

variable {K : Constants} {S : SnipInstance}

theorem numRoots_pos : 0 < S.numRoots := nextPowerOfTwo_pos _

theorem tables (hN : 2 * S.numRoots ≤ 2 ^ K.twoOrder) :
    ∃ ζ : ZMod K.intModulus, (buildRoots K S.numRoots).IsFor K S.numRoots ζ :=
  ⟨_, buildRoots_isFor K numRoots_pos (nextPowerOfTwo_dvd hN)⟩

theorem injOn_pow {F : Type*} [Field F] {ω : F} {n : ℕ} (hω : IsPrimitiveRoot ω n) {v : ℕ → F}
    (hv : ∀ i < n, v i = ω ^ i) : Set.InjOn v (range n : Finset ℕ) := by
  intro i hi j hj hij
  have hi := mem_range.mp hi
  have hj := mem_range.mp hj
  rw [hv i hi, hv j hj] at hij
  exact hω.pow_inj hi hj hij

theorem primitive_sq {F : Type*} [Field F] {ζ : F} {n : ℕ} (hn : 0 < n) (hζ : IsPrimitiveRoot ζ (n + n)) :
    IsPrimitiveRoot (ζ ^ 2) n := hζ.pow (by omega) (by ring)

theorem injOn_node (hN : 2 * S.numRoots ≤ 2 ^ K.twoOrder) :
    Set.InjOn (S.node K) (range S.numRoots : Finset ℕ) := by
  obtain ⟨ζ, hζ⟩ := tables hN
  exact injOn_pow (primitive_sq numRoots_pos hζ.primitive) hζ.roots_eq

theorem injOn_node2 (hN : 2 * S.numRoots ≤ 2 ^ K.twoOrder) :
    Set.InjOn (S.node2 K) (range (2 * S.numRoots) : Finset ℕ) := by
  obtain ⟨ζ, hζ⟩ := tables hN
  refine injOn_pow ?_ hζ.roots2_eq
  rw [Nat.two_mul]
  exact hζ.primitive

theorem node2_even (hN : 2 * S.numRoots ≤ 2 ^ K.twoOrder) {i : ℕ} (hi : i < S.numRoots) :
    S.node2 K (2 * i) = S.node K i := by
  obtain ⟨ζ, hζ⟩ := tables hN
  rw [node2, node, hζ.roots2_eq _ (by omega), hζ.roots_eq _ hi, pow_mul]

theorem eval_polyF_node (hN : 2 * S.numRoots ≤ 2 ^ K.twoOrder) {i : ℕ} (hi : i < S.numRoots) :
    (S.polyF K).eval (S.node K i) = S.sumF K i :=
  Lagrange.eval_interpolate_at_node _ (injOn_node hN) (mem_range.mpr hi)

theorem eval_polyG_node (hN : 2 * S.numRoots ≤ 2 ^ K.twoOrder) {i : ℕ} (hi : i < S.numRoots) :
    (S.polyG K).eval (S.node K i) = S.sumG K i :=
  Lagrange.eval_interpolate_at_node _ (injOn_node hN) (mem_range.mpr hi)

theorem natDegree_interpolate_le {F : Type*} [Field F] {v : ℕ → F} {n : ℕ} (hn : 0 < n)
    (hinj : Set.InjOn v (range n : Finset ℕ)) (r : ℕ → F) :
    (Lagrange.interpolate (range n) v r).natDegree ≤ n - 1 := by
  have hlt := Lagrange.degree_interpolate_lt r hinj
  rw [card_range] at hlt
  rcases eq_or_ne (Lagrange.interpolate (range n) v r) 0 with hzero | hne
  · rw [hzero, natDegree_zero]
    exact Nat.zero_le _
  · have := (natDegree_lt_iff_degree_lt hne).mpr hlt
    omega

theorem natDegree_polyF_mul_polyG_le (hN : 2 * S.numRoots ≤ 2 ^ K.twoOrder) :
    (S.polyF K * S.polyG K).natDegree ≤ 2 * S.numRoots - 2 := by
  have hpos : 0 < S.numRoots := numRoots_pos
  have hdegF : (S.polyF K).natDegree ≤ S.numRoots - 1 := natDegree_interpolate_le hpos (injOn_node hN) _
  have hdegG : (S.polyG K).natDegree ≤ S.numRoots - 1 := natDegree_interpolate_le hpos (injOn_node hN) _
  exact natDegree_mul_le.trans (by omega)

/-! ### The evaluations -/

section Evaluations

variable (hN : 2 * S.numRoots ≤ 2 ^ K.twoOrder) {x : ℤ} (hx : 0 ≤ x ∧ x < K.intModulus)
include hN hx

theorem cast_eval_xN (ys : ℕ → ℤ) :
    ((precompXEval (S.pre K x).xN ys : ℤ) : ZMod K.intModulus) =
      (Lagrange.interpolate (range S.numRoots) (S.node K) fun i => (ys i : ZMod K.intModulus)).eval
        (x : ZMod K.intModulus) := by
  obtain ⟨ζ, hζ⟩ := tables hN
  exact precompXEval_eq numRoots_pos (injOn_node hN) (fun i _ => hζ.roots_range i) hx ys

theorem cast_eval_x2N (ys : ℕ → ℤ) :
    ((precompXEval (S.pre K x).x2N ys : ℤ) : ZMod K.intModulus) =
      (Lagrange.interpolate (range (2 * S.numRoots)) (S.node2 K) fun i => (ys i : ZMod K.intModulus)).eval
        (x : ZMod K.intModulus) := by
  obtain ⟨ζ, hζ⟩ := tables hN
  have hpos : 0 < 2 * S.numRoots := Nat.mul_pos two_pos numRoots_pos
  exact precompXEval_eq hpos (injOn_node2 hN) (fun i _ => hζ.roots2_range i) hx ys

theorem cast_evalF_add :
    ((S.checker0 K x).evalF + (S.checker1 K x).evalF : ZMod K.intModulus) =
      (S.polyF K).eval (x : ZMod K.intModulus) := by
  simp only [checker0, checker1, Checker.new, cast_eval_xN hN hx]
  rw [← eval_add, ← map_add]
  rfl

theorem cast_evalG_add :
    ((S.checker0 K x).evalG + (S.checker1 K x).evalG : ZMod K.intModulus) =
      x * (S.polyG K).eval (x : ZMod K.intModulus) := by
  simp only [checker0, checker1, Checker.new, cast_emod, Int.cast_mul, cast_eval_xN hN hx]
  rw [← add_mul, ← eval_add, ← map_add, mul_comm]
  rfl

theorem cast_evalH_add :
    ((S.checker0 K x).evalH + (S.checker1 K x).evalH : ZMod K.intModulus) =
      x * (S.polyH K).eval (x : ZMod K.intModulus) := by
  simp only [checker0, checker1, Checker.new, cast_emod, Int.cast_mul, cast_eval_x2N hN hx]
  rw [← add_mul, ← eval_add, ← map_add, mul_comm]
  rfl

theorem accepts_iff (coeff : ℕ → ℤ) :
    S.accepts K x coeff = true ↔
      ∑ i ∈ range (S.ckt.resultZero.length + 1),
        (coeff i : ZMod K.intModulus) * S.term K (x : ZMod K.intModulus) i = 0 := by
  have hlen : ∀ (s : Checker) (cor : Cor), s.ckt = S.ckt →
      (s.outTerms K cor).length = S.ckt.resultZero.length + 1 := by
    intro s cor hs
    simp [Checker.outTerms, hs]
  rw [accepts, snipAccepts, addToZero_iff, Checker.outShare, Checker.outShare, cast_randSum, cast_randSum,
    hlen _ _ rfl, hlen _ _ rfl, ← sum_add_distrib]
  refine Eq.congr_left (sum_congr rfl fun i hi => ?_)
  rw [← mul_add]
  congr 1
  cases i with
  | zero =>
    have hmul := cast_mulCheck_add K (S.checker0 K x) (S.checker1 K x) rfl one_ne_zero
    rw [cast_evalF_add hN hx, cast_evalG_add hN hx, cast_evalH_add hN hx] at hmul
    apply hmul.trans
    rw [term, tripleDefect]
    simp only [checker0, checker1, Checker.new]
    ring
  | succ i =>
    have hi : i < S.ckt.resultZero.length := by simpa using hi
    simp only [Checker.outTerms, List.getD_cons_succ, term, wire]
    rw [List.getD_eq_getElem _ _ (by simpa [checker0, Checker.new] using hi),
      List.getD_eq_getElem _ _ (by simpa [checker1, Checker.new] using hi), List.getD_eq_getElem _ _ hi,
      List.getElem_map, List.getElem_map]
    rfl

end Evaluations

end SnipInstance

end PrioPlus

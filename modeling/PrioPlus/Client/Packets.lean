import PrioPlus.Poly.Tables
import PrioPlus.Snip.Completeness

/-!
# The packets of one process

`share_polynomials` builds the root tables when there are none and keeps them otherwise, whatever size it needs. A
run of calls is therefore right exactly when every circuit with a multiplication gate has the size of the first one
(`packets_right_iff`): for a larger circuit the transforms read beyond the tables, for a smaller one the tables hold
the powers of another root.
-/

namespace PrioPlus

open Finset Polynomial Lib

/-- A call of `share_polynomials`: a circuit, what its wires held before, the inputs that it was evaluated on, and the
draws. -/
structure PacketCall where
  ckt : Circuit
  stale : ℕ → ℤ
  inps : ℕ → ℤ
  draws : ShareDraws

namespace PacketCall

variable (K : Constants) (call : PacketCall)

def wire : ℕ → ℤ := call.ckt.evalWires K call.stale call.inps

/-- `N` of the call. -/
def size : ℕ := nextPowerOfTwo call.ckt.numMulGates

def pointsF : List ℤ := padTo call.size (call.draws.f0 :: call.ckt.leftWires (call.wire K))

def pointsG : List ℤ := padTo call.size (call.draws.g0 :: call.ckt.rightWires (call.wire K))

/-- The call on the tables that the process has, with the tables that its transforms use. -/
def run (t : RootTables) : RootTables × ClientPacket × ClientPacket :=
  sharePolynomials K t call.ckt (call.wire K) call.draws

end PacketCall

/-- The primitive `2N`-th root of unity. -/
def rootFor (K : Constants) (N : ℕ) : ZMod K.intModulus := (K.intGen : ZMod K.intModulus) ^ (2 ^ K.twoOrder / N / 2)

/-- The polynomial of degree below `N` through the points, at the `N`-th roots of unity. -/
noncomputable def throughRoots (K : Constants) (N : ℕ) (points : List ℤ) : (ZMod K.intModulus)[X] :=
  Lagrange.interpolate (range N) (fun i => (rootFor K N ^ 2) ^ i) fun i => (points.getD i 0 : ZMod K.intModulus)

/-- What a call should produce: it reads inside the tables, and the shares add up to the products of the polynomials
through the circuit's points, to the product of the two random values and to the wires of the multiplication gates. -/
structure PacketCall.Right (K : Constants) (call : PacketCall) (r : RootTables × ClientPacket × ClientPacket) :
    Prop where
  invroots_inside : ∀ i ∈ fftReads call.size, i < r.1.invroots.length
  roots2_inside : ∀ i ∈ fftReads (2 * call.size), i < r.1.roots2.length
  hPoints_add : ∀ j < call.size, (r.2.1.hPoints.getD j 0 + r.2.2.hPoints.getD j 0 : ZMod K.intModulus) =
    (throughRoots K call.size (call.pointsF K)).eval (rootFor K call.size ^ (2 * j + 1)) *
      (throughRoots K call.size (call.pointsG K)).eval (rootFor K call.size ^ (2 * j + 1))
  h0_add : (r.2.1.h0S + r.2.2.h0S : ZMod K.intModulus) = call.draws.f0 * call.draws.g0
  mulShares_add : ∀ i g, call.ckt.mulGates[i]? = some g →
    (r.2.1.mulShares.getD i 0 + r.2.2.mulShares.getD i 0 : ZMod K.intModulus) = call.wire K g

/-- Every call of a run is right, on the tables that the calls before it left. -/
def RunRight (K : Constants) : RootTables → List PacketCall → Prop
  | _, [] => True
  | t, call :: calls => call.Right K (call.run K t) ∧ RunRight K (call.run K t).1 calls

section Through

variable {K : Constants} {N : ℕ} (hpos : 0 < N) (hdvd : N + N ∣ 2 ^ K.twoOrder)
include hpos hdvd

theorem rootFor_primitive : IsPrimitiveRoot (rootFor K N) (N + N) := (buildRoots_isFor K hpos hdvd).primitive

theorem injOn_rootFor :
    Set.InjOn (fun i => (rootFor K N ^ 2) ^ i) (range N : Finset ℕ) :=
  SnipInstance.injOn_pow (SnipInstance.primitive_sq hpos (rootFor_primitive hpos hdvd)) fun _ _ => rfl

theorem degree_throughRoots_lt (points : List ℤ) : (throughRoots K N points).degree < N := by
  have hlt := Lagrange.degree_interpolate_lt (fun i => (points.getD i 0 : ZMod K.intModulus))
    (injOn_rootFor hpos hdvd)
  rwa [card_range] at hlt

theorem eval_throughRoots (points : List ℤ) {i : ℕ} (hi : i < N) :
    (throughRoots K N points).eval ((rootFor K N ^ 2) ^ i) = (points.getD i 0 : ZMod K.intModulus) :=
  Lagrange.eval_interpolate_at_node _ (injOn_rootFor hpos hdvd) (mem_range.mpr hi)

end Through

/-! ### What any call produces -/

namespace PacketCall

variable {K : Constants} {call : PacketCall} {t : RootTables}

theorem size_pos : 0 < call.size := nextPowerOfTwo_pos _

theorem run_tables : (call.run K t).1 = clientRoots K t call.size := rfl

theorem cast_hPoints_add {j : ℕ} (hj : j < call.size) :
    ((call.run K t).2.1.hPoints.getD j 0 + (call.run K t).2.2.hPoints.getD j 0 : ZMod K.intModulus) =
      ((evalsOnRoots K (call.run K t).1 call.size (call.pointsF K)).getD (2 * j + 1) 0 : ℤ) *
        ((evalsOnRoots K (call.run K t).1 call.size (call.pointsG K)).getD (2 * j + 1) 0 : ℤ) := by
  have hj : j < nextPowerOfTwo call.ckt.numMulGates := hj
  rw [run_tables]
  simp only [run, sharePolynomials, List.map_map]
  rw [getD_map_range, getD_map_range, if_pos hj, if_pos hj]
  simp only [Function.comp_apply, cast_splitShare, cast_emod, Int.cast_mul]
  rfl

theorem cast_h0_add :
    ((call.run K t).2.1.h0S + (call.run K t).2.2.h0S : ZMod K.intModulus) = call.draws.f0 * call.draws.g0 := by
  simp only [run, sharePolynomials, cast_splitShare, cast_emod, Int.cast_mul, getD_padTo, List.getD_cons_zero]

theorem cast_mulShares_add {i g : ℕ} (hg : call.ckt.mulGates[i]? = some g) :
    ((call.run K t).2.1.mulShares.getD i 0 + (call.run K t).2.2.mulShares.getD i 0 : ZMod K.intModulus) =
      call.wire K g := by
  have hi : i < call.ckt.numMulGates := (List.getElem?_eq_some_iff.mp hg).1
  simp only [run, sharePolynomials, Circuit.getMulShares, List.map_map]
  rw [getD_map_range, getD_map_range, if_pos hi, if_pos hi]
  simp only [Function.comp_apply, cast_splitShare, Circuit.getD_outWires hg]

theorem size_dvd (hsize : 2 * call.size ≤ 2 ^ K.twoOrder) : call.size + call.size ∣ 2 ^ K.twoOrder :=
  nextPowerOfTwo_dvd hsize

theorem cast_evals_buildRoots (hsize : 2 * call.size ≤ 2 ^ K.twoOrder) (points : List ℤ) {j : ℕ}
    (hj : j < 2 * call.size) :
    (((evalsOnRoots K (buildRoots K call.size) call.size points).getD j 0 : ℤ) : ZMod K.intModulus) =
      (throughRoots K call.size points).eval (rootFor K call.size ^ j) := by
  have hisFor := buildRoots_isFor K call.size_pos (call.size_dvd hsize)
  obtain ⟨k, hk⟩ : ∃ k, call.size = 2 ^ k := nextPowerOfTwo_eq_two_pow _
  rw [hk] at hisFor hj ⊢
  exact cast_evalsOnRoots hisFor points (fun _ _ => rfl) hj

theorem right_of_evals (hsize : 2 * call.size ≤ 2 ^ K.twoOrder)
    (hinv : ∀ i ∈ fftReads call.size, i < (call.run K t).1.invroots.length)
    (hroots2 : ∀ i ∈ fftReads (2 * call.size), i < (call.run K t).1.roots2.length)
    (hevals : ∀ points, evalsOnRoots K (call.run K t).1 call.size points =
      evalsOnRoots K (buildRoots K call.size) call.size points) : call.Right K (call.run K t) where
  invroots_inside := hinv
  roots2_inside := hroots2
  hPoints_add j hj := by
    rw [cast_hPoints_add hj, hevals, hevals, cast_evals_buildRoots hsize _ (by omega),
      cast_evals_buildRoots hsize _ (by omega)]
  h0_add := cast_h0_add
  mulShares_add _ _ := cast_mulShares_add

/-! ### Tables of the right size -/

theorem lengths_buildRoots (N : ℕ) : (buildRoots K N).invroots.length = N ∧ (buildRoots K N).roots2.length = 2 * N := by
  simp [buildRoots]

theorem roots_buildRoots_ne {M : ℕ} (hM : 0 < M) : (buildRoots K M).roots ≠ [] := by
  simp [buildRoots, hM.ne']

theorem getD_roots2_zero {M : ℕ} (hM : 0 < M) : (buildRoots K M).roots2.getD 0 0 = 1 := by
  rw [buildRoots, getD_map_range, if_pos (by omega)]
  rfl

theorem tables_buildRoots {M : ℕ} (hM : 0 < M) : (call.run K (buildRoots K M)).1 = buildRoots K M := by
  rw [run_tables, clientRoots, if_neg (roots_buildRoots_ne hM)]

theorem tables_unset : (call.run K .unset).1 = buildRoots K call.size := by
  rw [run_tables, clientRoots_eq_buildRoots call.size_pos (Or.inl rfl)]

theorem right_of_tables (hsize : 2 * call.size ≤ 2 ^ K.twoOrder) (ht : (call.run K t).1 = buildRoots K call.size) :
    call.Right K (call.run K t) := by
  obtain ⟨hinv, hroots2⟩ := lengths_buildRoots (K := K) call.size
  refine right_of_evals hsize (fun i hi => ?_) (fun i hi => ?_) fun points => by rw [ht]
  · rw [ht, hinv]
    exact lt_of_mem_fftReads hi
  · rw [ht, hroots2]
    exact lt_of_mem_fftReads hi

/-- Without a multiplication gate only the first entries are read, which are `1` in every table. -/
theorem right_of_numMulGates_eq_zero {M : ℕ} (hM : 0 < M) (hsize : 2 * call.size ≤ 2 ^ K.twoOrder)
    (hzero : call.ckt.numMulGates = 0) : call.Right K (call.run K (buildRoots K M)) := by
  have hone : call.size = 1 := by simp [size, hzero, nextPowerOfTwo, doubleWhile]
  have hreads1 : fftReads 1 = [] := rfl
  have hreads2 : fftReads (2 * 1) = [0, 0] := rfl
  obtain ⟨hinv, hroots2⟩ := lengths_buildRoots (K := K) M
  refine right_of_evals hsize (fun i hi => ?_) (fun i hi => ?_) fun points => ?_
  · rw [hone, hreads1] at hi
    exact absurd hi List.not_mem_nil
  · rw [hone, hreads2] at hi
    rw [tables_buildRoots hM, hroots2]
    simp at hi
    omega
  · rw [tables_buildRoots hM, hone, evalsOnRoots, evalsOnRoots]
    have hinvroots : fftInterpolate K.intModulus 1 (buildRoots K M).invroots points true =
        fftInterpolate K.intModulus 1 (buildRoots K 1).invroots points true :=
      fftInterpolate_congr Nat.one_pos (fun i hi => absurd (hreads1 ▸ hi) List.not_mem_nil) _ _
    rw [hinvroots]
    refine fftInterpolate_congr (by decide) (fun i hi => ?_) _ _
    obtain rfl : i = 0 := by simpa [hreads2] using hi
    rw [getD_roots2_zero hM, getD_roots2_zero Nat.one_pos]

theorem not_right_of_lt {M : ℕ} (hM : 0 < M) (hlt : M < call.size) : ¬ call.Right K (call.run K (buildRoots K M)) := by
  intro hright
  have hmem : 2 * (call.size - 1) ∈ fftReads (2 * call.size) :=
    (mem_fftReads (by omega)).mpr (Or.inl ⟨call.size - 1, by omega, rfl⟩)
  have hinside := hright.roots2_inside _ hmem
  rw [tables_buildRoots hM, (lengths_buildRoots M).2] at hinside
  omega

end PacketCall

/-! ### Smaller circuits -/

section Smaller

variable {K : Constants} {k : ℕ}

theorem cast_evalsOnRoots_one (t : RootTables) (points : List ℤ) :
    (((evalsOnRoots K t (2 ^ k) points).getD 1 0 : ℤ) : ZMod K.intModulus) =
      ∑ i ∈ range (2 ^ k), ((fftInterpolate K.intModulus (2 ^ k) t.invroots points true).getD i 0 : ZMod K.intModulus) *
        (t.roots2.getD i 0 : ZMod K.intModulus) := by
  have hpos := Nat.two_pow_pos k
  rw [evalsOnRoots, ← pow_succ', fftInterpolate, if_neg Bool.false_ne_true, getD_map_range,
    if_pos (by rw [pow_succ]; omega), fftRecurse_one]
  refine sum_congr rfl fun i hi => ?_
  have hi := mem_range.mp hi
  rw [getD_padTo, getD_padTo, List.getD_eq_default _ _ (n := i + 2 ^ k) (by simp), Int.cast_zero, sub_zero]

variable {M : ℕ} (hM : 0 < M) (hdvd : M + M ∣ 2 ^ K.twoOrder) (hk : 2 ^ k ≤ M)
include hM hdvd

theorem cast_invroots_zero : ((buildRoots K M).invroots.getD 0 0 : ZMod K.intModulus) = 1 := by
  rw [(buildRoots_isFor K hM hdvd).invroots_eq 0 hM, pow_zero]

include hk

theorem cast_evals_geometric {points : List ℤ} {a s : ZMod K.intModulus}
    (hspread : ∀ i < 2 ^ k, ((fftRecurse K.intModulus (2 ^ k) (fun i => (buildRoots K M).invroots.getD i 0)
      (fun i => points.getD i 0) i : ℤ) : ZMod K.intModulus) = s ^ i * a) :
    (((evalsOnRoots K (buildRoots K M) (2 ^ k) points).getD 1 0 : ℤ) : ZMod K.intModulus) =
      a * ((2 ^ k : ℕ) : ZMod K.intModulus)⁻¹ * ∑ i ∈ range (2 ^ k), (s * rootFor K M) ^ i := by
  have hisFor := buildRoots_isFor K hM hdvd
  rw [cast_evalsOnRoots_one, mul_sum]
  refine sum_congr rfl fun i hi => ?_
  have hi := mem_range.mp hi
  rw [hisFor.roots2_eq i (by omega), fftInterpolate, if_pos rfl, getD_map_range, if_pos hi, cast_emod, Int.cast_mul,
    hspread i hi, cast_fmpzInvmod, mul_pow]
  simp only [Int.cast_natCast, rootFor]
  ring

theorem cast_evals_impulse_zero {points : List ℤ} {a : ℤ} (hzero : points.getD 0 0 = a)
    (hrest : ∀ i, 0 < i → i < 2 ^ k → points.getD i 0 = 0) :
    (((evalsOnRoots K (buildRoots K M) (2 ^ k) points).getD 1 0 : ℤ) : ZMod K.intModulus) =
      a * ((2 ^ k : ℕ) : ZMod K.intModulus)⁻¹ * ∑ i ∈ range (2 ^ k), rootFor K M ^ i := by
  rw [cast_evals_geometric (a := a) (s := 1) hM hdvd hk, one_mul]
  intro i hi
  rw [fftRecurse_impulse_zero k (cast_invroots_zero hM hdvd) (fun i hi hlt => by rw [hrest i hi hlt, Int.cast_zero]) hi,
    hzero, one_pow, one_mul]

theorem cast_evals_impulse_half {l : ℕ} (hl : k = l + 1) {points : List ℤ} {a : ℤ} (hhalf : points.getD (2 ^ l) 0 = a)
    (hrest : ∀ i, i ≠ 2 ^ l → i < 2 ^ k → points.getD i 0 = 0) :
    (((evalsOnRoots K (buildRoots K M) (2 ^ k) points).getD 1 0 : ℤ) : ZMod K.intModulus) =
      a * ((2 ^ k : ℕ) : ZMod K.intModulus)⁻¹ * ∑ i ∈ range (2 ^ k), (-rootFor K M) ^ i := by
  subst hl
  rw [cast_evals_geometric (a := a) (s := -1) hM hdvd hk]
  · simp only [neg_one_mul]
  · intro i hi
    rw [fftRecurse_impulse_half l (cast_invroots_zero hM hdvd)
      (fun i hi hlt => by rw [hrest i hi hlt, Int.cast_zero]) hi, hhalf]

end Smaller

/-! ### A circuit with free points -/

theorem mulGatesFrom_of_isMul (i : ℕ) {gates : List Gate} (h : ∀ g ∈ gates, g.isMul = true) :
    mulGatesFrom i gates = List.range' i gates.length := by
  induction gates generalizing i with
  | nil => rfl
  | cons g gates ih =>
    rw [mulGatesFrom, if_pos (h g List.mem_cons_self), ih (i + 1) fun g' hg' => h g' (List.mem_cons_of_mem _ hg')]
    rfl

/-- `n` multiplications of the first of two inputs, by the second one in gate `h` and by itself elsewhere. -/
def probeCircuit (n h : ℕ) : Circuit where
  gates := .input :: .input :: (List.range n).map fun i => .mul 0 (if i = h then 1 else 0)
  resultZero := []
  mulGates := (List.range n).map (2 + ·)
  mulGates_eq := by
    have hmul : ∀ g ∈ (List.range n).map fun i => Gate.mul 0 (if i = h then 1 else 0), g.isMul = true := by
      intro g hg
      obtain ⟨i, -, rfl⟩ := List.mem_map.mp hg
      rfl
    have hrange := mulGatesFrom_of_isMul 2 hmul
    rw [List.length_map, List.length_range, List.range'_eq_map_range] at hrange
    exact hrange.symm

/-- The first input is zero, the second one `b`. -/
def probeCall (n h : ℕ) (g0 b : ℤ) : PacketCall where
  ckt := probeCircuit n h
  stale := fun _ => 0
  inps i := if i = 1 then b else 0
  draws := { f0 := 1, g0 := g0, hMask := fun _ => 0, f0Mask := 0, g0Mask := 0, h0Mask := 0, mulMask := fun _ => 0,
             tripleA := 0, tripleB := 0, maskA := 0, maskB := 0, maskC := 0 }

section Probe

variable {K : Constants} (n h : ℕ)

theorem numMulGates_probeCircuit : (probeCircuit n h).numMulGates = n := by
  simp [probeCircuit, Circuit.numMulGates]

theorem getElem?_probeCircuit {i : ℕ} (hi : i < n) :
    (probeCircuit n h).gates[i + 2]? = some (.mul 0 (if i = h then 1 else 0)) := by
  simp only [probeCircuit, List.getElem?_cons_succ, List.getElem?_map, List.getElem?_range hi, Option.map_some]

theorem topological_probeCircuit : (probeCircuit n h).Topological := by
  refine ⟨fun k g hg j hj => ?_, fun j hj => absurd hj List.not_mem_nil⟩
  match k, hg with
  | 0, hg =>
    obtain rfl : Gate.input = g := Option.some.inj hg
    exact absurd hj List.not_mem_nil
  | 1, hg =>
    obtain rfl : Gate.input = g := Option.some.inj hg
    exact absurd hj List.not_mem_nil
  | i + 2, hg =>
    have hi : i < n := by
      have hlt := (List.getElem?_eq_some_iff.mp hg).1
      simpa [probeCircuit] using hlt
    rw [getElem?_probeCircuit n h hi] at hg
    obtain rfl := Option.some.inj hg
    rcases List.mem_pair.mp hj with rfl | rfl
    · omega
    · split_ifs <;> omega

theorem wire_probeCall_input (g0 b : ℤ) :
    (probeCall n h g0 b).wire K 0 = 0 ∧ (probeCall n h g0 b).wire K 1 = b := by
  have htop := topological_probeCircuit n h
  constructor
  · exact Circuit.evalWires_fix K _ htop _ (k := 0) (g := .input) rfl
  · exact Circuit.evalWires_fix K _ htop _ (k := 1) (g := .input) rfl

variable {n h}

theorem parents_probeCircuit {i g : ℕ} (hg : (probeCircuit n h).mulGates[i]? = some g) :
    ((probeCircuit n h).gate g).parentL = 0 ∧ ((probeCircuit n h).gate g).parentR = if i = h then 1 else 0 := by
  obtain ⟨hlt, hget⟩ := List.getElem?_eq_some_iff.mp hg
  have hi : i < n := by simpa [probeCircuit] using hlt
  obtain rfl : i + 2 = g := by
    rw [← hget, Nat.add_comm]
    simp [probeCircuit]
  rw [Circuit.gate_eq (getElem?_probeCircuit n h hi)]
  exact ⟨rfl, rfl⟩

theorem getD_pointsF_probeCall (g0 b : ℤ) (i : ℕ) :
    ((probeCall n h g0 b).pointsF K).getD i 0 = if i = 0 then 1 else 0 := by
  rw [PacketCall.pointsF, getD_padTo]
  cases i with
  | zero => rfl
  | succ i =>
    rw [List.getD_cons_succ, if_neg (Nat.succ_ne_zero i)]
    rcases hg : (probeCircuit n h).mulGates[i]? with _ | g
    · exact Circuit.getD_map_mulGates_of_none hg _
    · rw [Circuit.getD_leftWires (c := (probeCall n h g0 b).ckt) hg]
      have hwire := (wire_probeCall_input (K := K) n h g0 b).1
      rwa [← (parents_probeCircuit hg).1] at hwire

theorem getD_pointsG_probeCall (hh : h < n) (g0 b : ℤ) (i : ℕ) :
    ((probeCall n h g0 b).pointsG K).getD i 0 = if i = 0 then g0 else if i = h + 1 then b else 0 := by
  rw [PacketCall.pointsG, getD_padTo]
  obtain ⟨hfirst, hsecond⟩ := wire_probeCall_input (K := K) n h g0 b
  cases i with
  | zero => rfl
  | succ i =>
    rw [List.getD_cons_succ, if_neg (Nat.succ_ne_zero i)]
    rcases hg : (probeCircuit n h).mulGates[i]? with _ | g
    · have hi : n ≤ i := by simpa [probeCircuit] using hg
      rw [if_neg (by omega)]
      exact Circuit.getD_map_mulGates_of_none hg _
    · rw [Circuit.getD_rightWires (c := (probeCall n h g0 b).ckt) hg]
      have hparent : ((probeCall n h g0 b).ckt.gate g).parentR = if i = h then 1 else 0 := (parents_probeCircuit hg).2
      rw [hparent]
      by_cases hi : i = h
      · rw [if_pos hi, if_pos (by omega), hsecond]
      · rw [if_neg hi, if_neg (by omega), hfirst]

end Probe

/-! ### The run -/

section Run

variable {K : Constants}

theorem PacketCall.Right.products_eq {call : PacketCall} {M : ℕ} (hM : 0 < M) (hsize : 2 * call.size ≤ 2 ^ K.twoOrder)
    (hright : call.Right K (call.run K (buildRoots K M))) :
    (((evalsOnRoots K (buildRoots K M) call.size (call.pointsF K)).getD 1 0 : ℤ) : ZMod K.intModulus) *
        ((evalsOnRoots K (buildRoots K M) call.size (call.pointsG K)).getD 1 0 : ℤ) =
      ((evalsOnRoots K (buildRoots K call.size) call.size (call.pointsF K)).getD 1 0 : ℤ) *
        ((evalsOnRoots K (buildRoots K call.size) call.size (call.pointsG K)).getD 1 0 : ℤ) := by
  have hpos := call.size_pos
  have hadd := hright.hPoints_add 0 hpos
  rw [PacketCall.cast_hPoints_add hpos, PacketCall.tables_buildRoots hM,
    ← PacketCall.cast_evals_buildRoots hsize _ (by omega), ← PacketCall.cast_evals_buildRoots hsize _ (by omega)] at hadd
  exact hadd

theorem two_ne_zero_of_order (h : 2 ≤ 2 ^ K.twoOrder) : (2 : ZMod K.intModulus) ≠ 0 := by
  intro hzero
  have hdvd : K.intModulus ∣ 2 := (ZMod.natCast_eq_zero_iff 2 K.intModulus).mp (by exact_mod_cast hzero)
  exact K.intModulus_ne_two h ((Nat.prime_dvd_prime_iff_eq K.prime Nat.prime_two).mp hdvd)

section ProbeEvals

variable {n h l : ℕ} (hhn : h < n) (hhalf : h + 1 = 2 ^ l) {M : ℕ} (hle : 2 ^ (l + 1) ≤ M)
  (hdvd : M + M ∣ 2 ^ K.twoOrder)
include hle hdvd

theorem cast_evals_probeF (g0 b : ℤ) :
    (((evalsOnRoots K (buildRoots K M) (2 ^ (l + 1)) ((probeCall n h g0 b).pointsF K)).getD 1 0 : ℤ) :
        ZMod K.intModulus) =
      ((2 ^ (l + 1) : ℕ) : ZMod K.intModulus)⁻¹ * ∑ i ∈ range (2 ^ (l + 1)), rootFor K M ^ i := by
  have hM : 0 < M := Nat.lt_of_lt_of_le (Nat.two_pow_pos _) hle
  rw [cast_evals_impulse_zero hM hdvd hle ((getD_pointsF_probeCall g0 b 0).trans (if_pos rfl))
    fun i hi _ => (getD_pointsF_probeCall g0 b i).trans (if_neg hi.ne'), Int.cast_one, one_mul]

include hhn

theorem cast_evals_probeG_first :
    (((evalsOnRoots K (buildRoots K M) (2 ^ (l + 1)) ((probeCall n h 1 0).pointsG K)).getD 1 0 : ℤ) :
        ZMod K.intModulus) =
      ((2 ^ (l + 1) : ℕ) : ZMod K.intModulus)⁻¹ * ∑ i ∈ range (2 ^ (l + 1)), rootFor K M ^ i := by
  have hM : 0 < M := Nat.lt_of_lt_of_le (Nat.two_pow_pos _) hle
  rw [cast_evals_impulse_zero hM hdvd hle ((getD_pointsG_probeCall hhn 1 0 0).trans (if_pos rfl)) fun i hi _ => ?_,
    Int.cast_one, one_mul]
  rw [getD_pointsG_probeCall hhn, if_neg hi.ne', ite_self]

include hhalf

theorem cast_evals_probeG_half :
    (((evalsOnRoots K (buildRoots K M) (2 ^ (l + 1)) ((probeCall n h 0 1).pointsG K)).getD 1 0 : ℤ) :
        ZMod K.intModulus) =
      ((2 ^ (l + 1) : ℕ) : ZMod K.intModulus)⁻¹ * ∑ i ∈ range (2 ^ (l + 1)), (-rootFor K M) ^ i := by
  have hM : 0 < M := Nat.lt_of_lt_of_le (Nat.two_pow_pos _) hle
  have hpos := Nat.two_pow_pos l
  rw [cast_evals_impulse_half hM hdvd hle rfl (a := 1) ?_ fun i hi _ => ?_, Int.cast_one, one_mul]
  · rw [getD_pointsG_probeCall hhn, if_neg hpos.ne', if_pos hhalf.symm]
  · rw [getD_pointsG_probeCall hhn, hhalf, if_neg hi, ite_self]

end ProbeEvals

theorem not_right_probeCall {M n : ℕ} (hn : 0 < n) (hdvdM : M + M ∣ 2 ^ K.twoOrder)
    (hsize : 2 * nextPowerOfTwo n ≤ 2 ^ K.twoOrder) (hlt : nextPowerOfTwo n < M) {h : ℕ}
    (hh : h = nextPowerOfTwo n / 2 - 1)
    (hright : (probeCall n h 1 0).Right K ((probeCall n h 1 0).run K (buildRoots K M))) :
    ¬ (probeCall n h 0 1).Right K ((probeCall n h 0 1).run K (buildRoots K M)) := by
  intro hright'
  have hM : 0 < M := Nat.zero_lt_of_lt hlt
  have hcall (g0 b : ℤ) : (probeCall n h g0 b).size = nextPowerOfTwo n :=
    congrArg nextPowerOfTwo (numMulGates_probeCircuit n h)
  have hsq := hright.products_eq hM (by rwa [hcall])
  have hmix := hright'.products_eq hM (by rwa [hcall])
  have hdvdN := nextPowerOfTwo_dvd hsize
  have hbelow := lt_nextPowerOfTwo n
  have hdouble := nextPowerOfTwo_le hn
  simp only [hcall] at hsq hmix
  obtain ⟨k, hk⟩ := nextPowerOfTwo_eq_two_pow n
  obtain ⟨l, rfl⟩ : ∃ l, k = l + 1 := by
    apply Nat.exists_eq_succ_of_ne_zero
    rintro rfl
    omega
  have hstep : nextPowerOfTwo n = 2 ^ l * 2 := hk.trans (pow_succ 2 l)
  have hposl := Nat.two_pow_pos l
  have hhalf : h + 1 = 2 ^ l := by omega
  have hhn : h < n := by omega
  have htwo := two_ne_zero_of_order (K := K) (by omega)
  rw [hk] at hsq hmix hdvdN hlt
  rw [cast_evals_probeF hlt.le hdvdM, cast_evals_probeF le_rfl hdvdN, cast_evals_probeG_first hhn hlt.le hdvdM,
    cast_evals_probeG_first hhn le_rfl hdvdN] at hsq
  rw [cast_evals_probeF hlt.le hdvdM, cast_evals_probeF le_rfl hdvdN, cast_evals_probeG_half hhn hhalf hlt.le hdvdM,
    cast_evals_probeG_half hhn hhalf le_rfl hdvdN] at hmix
  have hinv : ((2 ^ (l + 1) : ℕ) : ZMod K.intModulus)⁻¹ ≠ 0 := by
    rw [Nat.cast_pow]
    exact inv_ne_zero (pow_ne_zero _ (by exact_mod_cast htwo))
  have hN := rootFor_primitive (Nat.two_pow_pos _) hdvdN
  have hMroot := rootFor_primitive hM hdvdM
  have hroots : rootFor K M = rootFor K (2 ^ (l + 1)) := by
    refine eq_of_geom_products htwo (n := 2 ^ (l + 1)) ?_ ?_ ?_ ?_ ?_
    · exact (Nat.even_pow.mpr ⟨even_two, Nat.succ_ne_zero l⟩)
    · exact hMroot.pow_ne_one_of_pos_of_lt (Nat.two_pow_pos _).ne' (by omega)
    · exact hN.pow_ne_one_of_pos_of_lt (Nat.two_pow_pos _).ne' (by omega)
    · exact mul_left_cancel₀ (mul_ne_zero hinv hinv) (by linear_combination hsq)
    · exact mul_left_cancel₀ (mul_ne_zero hinv hinv) (by linear_combination hmix)
  rw [hroots] at hMroot
  have horder := hMroot.unique hN
  omega

theorem runRight_buildRoots_iff {M : ℕ} (hM : 0 < M) (calls : List PacketCall) :
    RunRight K (buildRoots K M) calls ↔ ∀ call ∈ calls, call.Right K (call.run K (buildRoots K M)) := by
  induction calls with
  | nil => simp [RunRight]
  | cons call calls ih => rw [RunRight, PacketCall.tables_buildRoots hM, ih, List.forall_mem_cons]

theorem runRight_cons_iff (call : PacketCall) (calls : List PacketCall) :
    RunRight K .unset (call :: calls) ↔ call.Right K (call.run K .unset) ∧
      ∀ later ∈ calls, later.Right K (later.run K (buildRoots K call.size)) := by
  rw [RunRight, PacketCall.tables_unset, runRight_buildRoots_iff call.size_pos]

end Run

/-- For given numbers of multiplication gates, every run of a client is right exactly when each circuit that has such
a gate needs tables of the size of the first. -/
theorem packets_right_iff (K : Constants) (ns : List ℕ) (hsize : ∀ n ∈ ns, 2 * nextPowerOfTwo n ≤ 2 ^ K.twoOrder) :
    (∀ calls : List PacketCall, (calls.map fun call => call.ckt.numMulGates) = ns → RunRight K .unset calls) ↔
      ∀ first ∈ ns.head?, ∀ n ∈ ns, 0 < n → nextPowerOfTwo n = nextPowerOfTwo first := by
  cases ns with
  | nil =>
    refine iff_of_true (fun calls hcalls => ?_) (by simp)
    rw [List.map_eq_nil_iff.mp hcalls]
    trivial
  | cons first rest =>
    have hdvd := nextPowerOfTwo_dvd (hsize first List.mem_cons_self)
    have hpos := nextPowerOfTwo_pos first
    constructor
    · intro hall first' hfirst n hn hn0
      obtain rfl : first = first' := Option.some.inj hfirst
      rcases List.mem_cons.mp hn with rfl | hn
      · rfl
      -- a probe for every circuit of the run; the one for `n` comes out wrong
      have hprobe (g0 b : ℤ) (h : ℕ) : (probeCall n h g0 b).Right K
          ((probeCall n h g0 b).run K (buildRoots K (nextPowerOfTwo first))) := by
        have hrun := hall ((first :: rest).map fun m => probeCall m h g0 b) (by
          rw [List.map_map]
          exact (List.map_congr_left fun m _ => numMulGates_probeCircuit m h).trans (List.map_id _))
        rw [List.map_cons, runRight_cons_iff] at hrun
        have hright := hrun.2 _ (List.mem_map_of_mem hn)
        rwa [PacketCall.size, show (probeCall first h g0 b).ckt.numMulGates = first from
          numMulGates_probeCircuit first h] at hright
      rcases Nat.lt_trichotomy (nextPowerOfTwo n) (nextPowerOfTwo first) with hlt | heq | hlt
      · exact absurd (hprobe 0 1 _)
          (not_right_probeCall hn0 hdvd (hsize n (List.mem_cons_of_mem _ hn)) hlt rfl (hprobe 1 0 _))
      · exact heq
      · refine absurd (hprobe 0 1 0) (PacketCall.not_right_of_lt hpos ?_)
        rwa [PacketCall.size, show (probeCall n 0 0 1).ckt.numMulGates = n from numMulGates_probeCircuit n 0]
    · intro hsame calls hcalls
      obtain ⟨call, later, rfl, hcall, hlater⟩ := List.map_eq_cons_iff.mp hcalls
      have hfirst : call.size = nextPowerOfTwo first := congrArg nextPowerOfTwo hcall
      rw [runRight_cons_iff, hfirst]
      constructor
      · exact PacketCall.right_of_tables (by rw [hfirst]; exact hsize first List.mem_cons_self)
          PacketCall.tables_unset
      · intro call' hmem
        have hn : call'.ckt.numMulGates ∈ first :: rest :=
          List.mem_cons_of_mem _ (hlater ▸ List.mem_map_of_mem hmem)
        have hsize' : 2 * call'.size ≤ 2 ^ K.twoOrder := hsize _ hn
        by_cases hzero : call'.ckt.numMulGates = 0
        · exact PacketCall.right_of_numMulGates_eq_zero hpos hsize' hzero
        · refine PacketCall.right_of_tables hsize' ?_
          rw [PacketCall.tables_buildRoots hpos, PacketCall.size,
            hsame first rfl _ hn (Nat.pos_of_ne_zero hzero)]

theorem packets_right_iff_oneGate :
    (∀ calls : List PacketCall, (calls.map fun call => call.ckt.numMulGates) = [1, 0, 1] →
        RunRight shipped .unset calls) ↔
      ∀ first ∈ [1, 0, 1].head?, ∀ n ∈ [1, 0, 1], 0 < n → nextPowerOfTwo n = nextPowerOfTwo first :=
  packets_right_iff shipped [1, 0, 1] fun n hn => by
    have hle : n ≤ 1 := by revert n; decide
    have hzero : nextPowerOfTwo 0 = 1 := by simp [nextPowerOfTwo, doubleWhile]
    have hone : nextPowerOfTwo 1 = 2 := by simp [nextPowerOfTwo, doubleWhile]
    interval_cases n
    · rw [hzero]
      decide
    · rw [hone]
      decide

/-- A packet for `5 ^ 2 = 25`, then one for the regression data of one point. -/
def varThenLinReg : List PacketCall :=
  let draws : ShareDraws := ⟨7, 7, fun _ => 7, 7, 7, 7, fun _ => 7, 7, 7, 7, 7, 7⟩
  [⟨checkVar shipped, fun _ => 0, fun i => [5, 25].getD i 0, draws⟩,
    ⟨checkLinReg shipped 2, fun _ => 0, fun i => [2, 3, 4, 6].getD i 0, draws⟩]

/-- The second packet of such a client is computed beyond the tables that the first one built. -/
theorem not_runRight_varThenLinReg : ¬ RunRight shipped .unset varThenLinReg := by
  intro hrun
  rw [varThenLinReg, runRight_cons_iff] at hrun
  refine PacketCall.not_right_of_lt PacketCall.size_pos ?_ (hrun.2 _ (List.mem_singleton_self _))
  have hvar : (checkVar shipped).numMulGates = 1 := Circuit.numMulGates_checkVar shipped
  have hlinreg : (checkLinReg shipped 2).numMulGates = 2 := by decide
  simp only [PacketCall.size, hvar, hlinreg]
  simp [nextPowerOfTwo, doubleWhile]

end PrioPlus

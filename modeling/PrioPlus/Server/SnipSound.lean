import PrioPlus.Circuit.Language
import PrioPlus.Server.Agreement
import PrioPlus.Snip.Batch

/-!
# What malicious clients can add to the sums

Whatever the clients send to the two servers, for all but few draws of the point and of the coefficients every valid
slot holds values that the circuit accepts (`SnipOp.exists_unsound`). What `var_op` then combines are a sum and the sum
of the squares of the same values, and what `linreg_op` combines are sums of values and of their products
(`snipOps_sound`).
-/

namespace PrioPlus

open Finset Lib.TwoParty Lib.FirstWins

/-- The synced values, from the draws for a batch. -/
def SnipSync.ofDraws {c : Circuit} {n : ℕ} (draws : BatchDraws shipped c n) : SnipSync where
  x := draws.1.val
  coeff k :=
    if h : k / (c.resultZero.length + 1) < n then
      (draws.2 ⟨k / (c.resultZero.length + 1), h⟩ ⟨k % (c.resultZero.length + 1), Nat.mod_lt _ (Nat.succ_pos _)⟩).val
    else 0

/-- The generator is read one check after the other. -/
theorem SnipSync.coeffAt_ofDraws {c : Circuit} {n : ℕ} (draws : BatchDraws shipped c n) {i : ℕ} (hi : i < n) {k : ℕ}
    (hk : k < c.resultZero.length + 1) :
    (SnipSync.ofDraws draws).coeffAt c i k = SnipInstance.coeffOf (draws.2 ⟨i, hi⟩) k := by
  have hdiv : (i * (c.resultZero.length + 1) + k) / (c.resultZero.length + 1) = i := by
    rw [Nat.add_comm, Nat.add_mul_div_right _ _ (Nat.succ_pos _), Nat.div_eq_of_lt hk, Nat.zero_add]
  have hmod : (i * (c.resultZero.length + 1) + k) % (c.resultZero.length + 1) = k := by
    rw [Nat.add_comm, Nat.add_mul_mod_self_right, Nat.mod_eq_of_lt hk]
  simp only [coeffAt, ofDraws, SnipInstance.coeffOf, hdiv, hmod, dif_pos hi, dif_pos hk]

theorem SnipInstance.accepts_congr {K : Constants} {S : SnipInstance} (hN : 2 * S.numRoots ≤ 2 ^ K.twoOrder) {x : ℤ}
    (hx : 0 ≤ x ∧ x < K.intModulus) {coeff coeff' : ℕ → ℤ}
    (h : ∀ k < S.ckt.resultZero.length + 1, coeff k = coeff' k) : S.accepts K x coeff = S.accepts K x coeff' := by
  rw [Bool.eq_iff_iff, accepts_iff hN hx, accepts_iff hN hx]
  refine Eq.congr_left (sum_congr rfl fun k hk => ?_)
  rw [h k (mem_range.mp hk)]

namespace SnipOp

variable {S : Type} (op : SnipOp S)

theorem accepts_of_validSlots (sync : SnipSync) (prg0 : ℕ → UInt64) (m0 m1 : ShareMap S) (pks : List Pk) {i : ℕ}
    (hi : i < pks.length) (hvalid : (op.validSlots sync prg0 m0 m1 pks).getD i false = true) :
    (snipInstance op.circuit op.numFields (op.packets m0 pks) (op.packets m1 pks) (op.converted0 prg0 m0 pks)
      (op.converted1 prg0 m0 m1 pks) i).accepts shipped sync.x (sync.coeffAt op.circuit i) = true := by
  rw [validSlots, List.getD_eq_getElem _ _ (by simpa using hi), List.getElem_zipWith, Bool.and_eq_true] at hvalid
  have hverdict := hvalid.2
  simp only [verdicts, snipVerdicts, List.getElem_map, List.getElem_range] at hverdict
  exact hverdict

/-- What the servers hold together in field `j` of slot `i`. -/
def slotSum (sharesP0 sharesP1 : List ℤ) (i j : ℕ) : ℤ :=
  sharesP0.getD (i * op.numFields + j) 0 + sharesP1.getD (i * op.numFields + j) 0

/-- The circuit accepts what the servers hold in the slots that count. -/
def SoundSlots (r0 r1 : SnipResult) : Prop :=
  ∀ i < r0.pks.length, r0.valid.getD i false = true →
    op.circuit.eval shipped (fun _ => 0) (fun j => op.slotSum r0.sharesP r1.sharesP i j % intModulus) = true

theorem exists_unsound (hN : 2 * nextPowerOfTwo op.circuit.numMulGates ≤ 2 ^ shipped.twoOrder)
    (htop : op.circuit.Topological) (it : Iteration S) (prg0 : ℕ → UInt64) (submissions0 submissions1 : List S) :
    ∃ unsound : Finset (BatchDraws shipped op.circuit (op.sentPks it submissions1).length),
      unsound.card ≤ SnipInstance.unsoundDraws shipped op.circuit (op.sentPks it submissions1).length ∧
      ∀ draws ∉ unsound, op.SoundSlots (op.result0 (.ofDraws draws) it prg0 submissions0 submissions1)
        (op.result1 (.ofDraws draws) it prg0 submissions0 submissions1) := by
  let pks := op.sentPks it submissions1
  -- the checks do not depend on the draws
  let check (i : Fin pks.length) : SnipInstance :=
    snipInstance op.circuit op.numFields (op.packets (op.shareMap submissions0) pks)
      (op.packets (op.shareMap submissions1) pks) (op.sentShares0 it prg0 submissions0 submissions1)
      (op.sentShares1 it prg0 submissions0 submissions1) i
  obtain ⟨unsound, hcard, hunsound⟩ := SnipInstance.exists_passes_rejected hN htop check fun _ => rfl
  refine ⟨unsound, hcard, fun draws hdraws i hi hvalid => hunsound draws hdraws ⟨i, hi⟩ ?_⟩
  have hx : 0 ≤ (draws.1.val : ℤ) ∧ (draws.1.val : ℤ) < shipped.intModulus :=
    ⟨by omega, by exact_mod_cast ZMod.val_lt draws.1⟩
  have hcoeff := SnipInstance.accepts_congr (S := check ⟨i, hi⟩) hN hx
    fun k hk => SnipSync.coeffAt_ofDraws draws hi hk
  exact hcoeff.symm.trans (op.accepts_of_validSlots (.ofDraws draws) prg0 _ _ pks hi hvalid)

end SnipOp

/-! ### The sums -/

theorem sum_emod_congr {s : Finset ℕ} {f g : ℕ → ℤ} (h : ∀ i ∈ s, f i ≡ g i [ZMOD intModulus]) :
    (∑ i ∈ s, f i) % intModulus = (∑ i ∈ s, g i) % intModulus := by
  rw [← cast_eq_iff_emod, Int.cast_sum, Int.cast_sum]
  exact sum_congr rfl fun i hi => (cast_eq_iff_emod _ _).mpr (h i hi)

theorem numMulGates_checkVar_le : 2 * nextPowerOfTwo (checkVar shipped).numMulGates ≤ 2 ^ shipped.twoOrder := by
  rw [Circuit.numMulGates_checkVar]
  simp [nextPowerOfTwo, doubleWhile]
  decide

section Totals

variable {S : Type} {op : SnipOp S} {r0 r1 : SnipResult} {sync : SnipSync} {prg0 : ℕ → UInt64}
  {submissions0 submissions1 : List S} {totals : List ℤ}

theorem SnipOp.Agreement.getD_totals (h : op.Agreement sync prg0 submissions0 submissions1 r0 r1 totals) {j : ℕ}
    (hj : j < op.numFields) (value : (ℕ → ℤ) → ℤ)
    (hvalue : ∀ i < r0.pks.length, r0.valid.getD i false = true →
      op.slotSum r0.sharesP r1.sharesP i j ≡ value (op.slotSum r0.sharesP r1.sharesP i) [ZMOD intModulus]) :
    totals.getD j 0 =
      (∑ i ∈ range r0.pks.length with r0.valid.getD i false, value (op.slotSum r0.sharesP r1.sharesP i)) %
        intModulus := by
  rw [h.totals_eq j hj]
  refine sum_emod_congr fun i hi => ?_
  obtain ⟨hi, hvalid⟩ := mem_filter.mp hi
  exact hvalue i (mem_range.mp hi) hvalid

/-- The sums of `var_op`, of values and of their squares. -/
structure SquareSums (msg : InitMsg) (r0 r1 : SnipResult) (totals : List ℤ) : Prop where
  values_eq : totals.getD 0 0 = (∑ i ∈ range r0.pks.length with r0.valid.getD i false,
    (varSnip msg).slotSum r0.sharesP r1.sharesP i 0) % intModulus
  squares_eq : totals.getD 1 0 = (∑ i ∈ range r0.pks.length with r0.valid.getD i false,
    (varSnip msg).slotSum r0.sharesP r1.sharesP i 0 ^ 2) % intModulus

theorem squareSums_of_soundSlots {msg : InitMsg} {s0 s1 : List VarSubmission}
    (h : (varSnip msg).Agreement sync prg0 s0 s1 r0 r1 totals) (hsound : (varSnip msg).SoundSlots r0 r1) :
    SquareSums msg r0 r1 totals := by
  refine ⟨h.getD_totals Nat.two_pos (fun v => v 0) fun _ _ _ => Int.ModEq.refl _,
    h.getD_totals Nat.one_lt_two (fun v => v 0 ^ 2) fun i hi hvalid => ?_⟩
  have heval := (eq_zmod_iff shipped _ _ _).mp ((Circuit.eval_checkVar_iff shipped _ _).mp (hsound i hi hvalid))
  rw [pow_two]
  exact ((Int.mod_modEq _ _).symm.trans heval).trans ((Int.mod_modEq _ _).mul (Int.mod_modEq _ _))

/-- The sums of `linreg_op`, of the fields and of the products that the others stand for. -/
structure ProductSums (degree : ℕ) (r0 r1 : SnipResult) (slotSum : ℕ → ℕ → ℤ) (totals : List ℤ) : Prop where
  fields_eq : ∀ j < degree, totals.getD j 0 =
    (∑ i ∈ range r0.pks.length with r0.valid.getD i false, slotSum i j) % intModulus
  products_eq : ∀ f : LinRegField (degree - 1), totals.getD f.index 0 =
    (∑ i ∈ range r0.pks.length with r0.valid.getD i false, f.product (slotSum i)) % intModulus

theorem LinRegField.index_lt {k : ℕ} (f : LinRegField k) : f.index < 2 * k + 1 + k * (k + 1) / 2 := by
  cases f with
  | quad i j hij hj =>
    have hrank := Lib.Triangle.triRank_lt hij hj
    simp only [index]
    omega
  | xy i hi =>
    simp only [index]
    omega

theorem LinRegField.product_modEq {k : ℕ} (f : LinRegField k) {v w : ℕ → ℤ} {m : ℤ} (h : ∀ j, v j ≡ w j [ZMOD m]) :
    f.product v ≡ f.product w [ZMOD m] := by
  cases f with
  | quad i j _ _ => exact (h i).mul (h j)
  | xy i _ => exact (h i).mul (h k)

theorem productSums_of_soundSlots {degree : ℕ} (hdegree : 0 < degree) {msg : InitMsg} {fresh : ℕ → ℕ → UInt64}
    {s0 s1 : List (LinRegSubmission degree)}
    (h : (linregSnip degree msg fresh).Agreement sync prg0 s0 s1 r0 r1 totals)
    (hsound : (linregSnip degree msg fresh).SoundSlots r0 r1) :
    ProductSums degree r0 r1 ((linregSnip degree msg fresh).slotSum r0.sharesP r1.sharesP) totals := by
  obtain ⟨k, rfl⟩ : ∃ k, degree = k + 1 := ⟨degree - 1, by omega⟩
  have hfields : (linregSnip (k + 1) msg fresh).numFields = 2 * k + 1 + k * (k + 1) / 2 := rfl
  refine ⟨fun j hj => h.getD_totals (by omega) (fun v => v j) fun _ _ _ => Int.ModEq.refl _,
    fun f => h.getD_totals (f.index_lt.trans_eq hfields.symm) f.product fun i hi hvalid => ?_⟩
  have heval := (eval_checkLinReg_iff shipped _ _ k).mp (hsound i hi hvalid) f
  exact ((Int.mod_modEq _ _).symm.trans heval).trans (f.product_modEq fun _ => Int.mod_modEq _ _)

end Totals

end PrioPlus

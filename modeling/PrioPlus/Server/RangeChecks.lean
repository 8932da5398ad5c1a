import PrioPlus.Client.LinReg
import PrioPlus.Server.Agreement

/-!
# What the checks on receipt are for

`var_op` and `linreg_op` compare every share with a power of two when it comes in, and the circuits compare products
modulo `Int_Modulus`. Shares of at most 63 bits that pass on both servers reconstruct to values for which the two
comparisons are one: the products that the circuits accept are equal as integers (`rangeChecks_integral`). From 32 bits
on the bound of the products wraps to zero and no submission passes at all.
-/

namespace PrioPlus

open Lib.Triangle

/-- What two shares of one key hide. -/
def VarShare.xor (s s' : VarShare) : VarShare :=
  { pk := s.pk, val := s.val ^^^ s'.val, valSquared := s.valSquared ^^^ s'.valSquared }

/-- The fields of a share of `var_op` have `b` bits, and the square `2 * b`. -/
structure VarShare.Fits (s : VarShare) (b : ℕ) : Prop where
  val_lt : s.val.toNat < 2 ^ b
  valSquared_lt : s.valSquared.toNat < 2 ^ (b * 2)

/-- The square is a square. -/
def VarShare.Integral (s : VarShare) : Prop := s.val.toNat * s.val.toNat = s.valSquared.toNat

section LinReg

variable {degree : ℕ}

def LinRegShare.xor (s s' : LinRegShare degree) : LinRegShare degree where
  pk := s.pk
  xVals := s.xVals.zipWith (· ^^^ ·) s'.xVals
  y := s.y ^^^ s'.y
  x2Vals := s.x2Vals.zipWith (· ^^^ ·) s'.x2Vals
  xyVals := s.xyVals.zipWith (· ^^^ ·) s'.xyVals

/-- The products are products. -/
structure LinRegShare.Integral (s : LinRegShare degree) : Prop where
  quad : ∀ k q, (triPairs (numX degree))[k]? = some q →
    (s.xVals.toList.getD q.1 0).toNat * (s.xVals.toList.getD q.2 0).toNat = (s.x2Vals.toList.getD k 0).toNat
  cross : ∀ i, i < numX degree → s.y.toNat * (s.xVals.toList.getD i 0).toNat = (s.xyVals.toList.getD i 0).toNat

end LinReg

/-! ### The bounds -/

section Bounds

variable {numBits : UInt32}

theorem maxVal_mul_self_eq_zero (hbits : numBits.toNat ≤ 63) (hlarge : 32 ≤ numBits.toNat) :
    maxVal numBits * maxVal numBits = 0 := by
  have hmul : (maxVal numBits * maxVal numBits).toNat = 2 ^ (64 + (numBits.toNat * 2 - 64)) % 2 ^ 64 := by
    rw [UInt64.toNat_mul, toNat_maxVal (by omega), ← pow_add]
    congr 2
    omega
  rw [← UInt64.toNat_inj, hmul, pow_add, Nat.mul_mod_right]
  rfl

theorem lt_of_lt_maxVal_mul_self (hbits : numBits.toNat ≤ 63) {w : UInt64}
    (hw : w < maxVal numBits * maxVal numBits) : numBits.toNat < 32 := by
  by_contra hlarge
  rw [maxVal_mul_self_eq_zero hbits (not_lt.mp hlarge)] at hw
  exact absurd (UInt64.lt_iff_toNat_lt.mp hw) (Nat.not_lt_zero _)

theorem toNat_lt_of_lt_maxVal (hbits : numBits.toNat ≤ 63) {w : UInt64} (hw : w < maxVal numBits) :
    w.toNat < 2 ^ numBits.toNat := by
  rw [UInt64.lt_iff_toNat_lt, toNat_maxVal (by omega)] at hw
  exact hw

theorem toNat_lt_of_lt_maxVal_mul_self (hbits : numBits.toNat ≤ 63) {w : UInt64}
    (hw : w < maxVal numBits * maxVal numBits) : w.toNat < 2 ^ (numBits.toNat * 2) := by
  have hsmall := lt_of_lt_maxVal_mul_self hbits hw
  rw [UInt64.lt_iff_toNat_lt, toNat_maxVal_mul_self hsmall] at hw
  exact hw

theorem mul_eq_of_cast {b v w z : ℕ} (hb : b < 32) (hv : v < 2 ^ b) (hw : w < 2 ^ b) (hz : z < 2 ^ (b * 2))
    (h : (v * w : ZMod intModulus) = z) : v * w = z := by
  have hsmall : 2 ^ (b * 2) < intModulus := by
    calc 2 ^ (b * 2)
      _ ≤ 2 ^ 62 := Nat.pow_le_pow_right two_pos (by omega)
      _ < intModulus := by decide
  have hprod : v * w < 2 ^ (b * 2) := by
    rw [Nat.mul_two, pow_add]
    exact Nat.mul_lt_mul'' hv hw
  have hmod : v * w ≡ z [MOD intModulus] := by
    rw [← ZMod.natCast_eq_natCast_iff, Nat.cast_mul]
    exact h
  exact hmod.eq_of_lt_of_lt (hprod.trans hsmall) (hz.trans hsmall)

end Bounds

/-! ### `var_op` -/

section Var

variable {msg : InitMsg} (hbits : msg.numBits.toNat ≤ 63)
include hbits

theorem VarSubmission.fits_of_ok {s : VarSubmission} (h : varOk msg s = true) :
    msg.numBits.toNat < 32 ∧ s.share.Fits msg.numBits.toNat := by
  simp only [varOk, Bool.not_eq_true', Bool.or_eq_false_iff, decide_eq_false_iff_not, ge_iff_le, UInt64.not_le] at h
  obtain ⟨⟨hval, hsquare⟩, -⟩ := h
  exact ⟨lt_of_lt_maxVal_mul_self hbits hsquare,
    ⟨toNat_lt_of_lt_maxVal hbits hval, toNat_lt_of_lt_maxVal_mul_self hbits hsquare⟩⟩

omit hbits in
theorem VarShare.Fits.xor {s s' : VarShare} {b : ℕ} (h : s.Fits b) (h' : s'.Fits b) : (s.xor s').Fits b :=
  ⟨toNat_xor_lt h.val_lt h'.val_lt, toNat_xor_lt h.valSquared_lt h'.valSquared_lt⟩

omit hbits in
theorem VarShare.integral_of_eval {s : VarShare} {b : ℕ} (hb : b < 32) (hfits : s.Fits b) {stale inps : ℕ → ℤ}
    (hval : inps 0 ≡ s.val.toNat [ZMOD intModulus]) (hsquare : inps 1 ≡ s.valSquared.toNat [ZMOD intModulus])
    (heval : (checkVar shipped).eval shipped stale inps = true) : s.Integral := by
  have heq := (Circuit.eval_checkVar_iff shipped stale inps).mp heval
  have hval := (ZMod.intCast_eq_intCast_iff _ _ _).mpr hval
  have hsquare := (ZMod.intCast_eq_intCast_iff _ _ _).mpr hsquare
  rw [Int.cast_natCast] at hval hsquare
  apply mul_eq_of_cast hb hfits.val_lt hfits.val_lt hfits.valSquared_lt
  rw [← hval, ← hsquare]
  exact heq

end Var

/-! ### `linreg_op` -/

section LinReg

variable {degree : ℕ} {msg : InitMsg} (hbits : msg.numBits.toNat ≤ 63)

include hbits in
/-- With a field `x` there is a product whose bound must not wrap. -/
theorem LinRegSubmission.fits_of_ok (hdegree : 2 ≤ degree) {s : LinRegSubmission degree} (h : linregOk msg s = true) :
    msg.numBits.toNat < 32 ∧ s.share.Fits msg.numBits.toNat := by
  simp only [linregOk, Bool.not_eq_true', Bool.not_eq_false', Bool.not_or, Bool.and_eq_true, List.any_eq_false,
    decide_eq_true_eq, decide_eq_false_iff_not, ge_iff_le, UInt64.not_le] at h
  obtain ⟨⟨⟨⟨hx, hxy⟩, hy⟩, hx2⟩, -⟩ := h
  constructor
  · have hpos : 0 < s.share.xyVals.toList.length := by
      rw [Vector.length_toList, numX]
      omega
    exact lt_of_lt_maxVal_mul_self hbits (hxy _ (List.getElem_mem hpos))
  · exact ⟨fun w hw => toNat_lt_of_lt_maxVal hbits (hx w hw), toNat_lt_of_lt_maxVal hbits hy,
      fun w hw => toNat_lt_of_lt_maxVal_mul_self hbits (hx2 w hw),
      fun w hw => toNat_lt_of_lt_maxVal_mul_self hbits (hxy w hw)⟩

theorem LinRegShare.Fits.xor {s s' : LinRegShare degree} {b : ℕ} (h : s.Fits b) (h' : s'.Fits b) :
    (s.xor s').Fits b where
  x_lt := by
    rw [LinRegShare.xor, Vector.toList_zipWith]
    exact forall_mem_zipWith_xor h.x_lt h'.x_lt
  y_lt := toNat_xor_lt h.y_lt h'.y_lt
  x2_lt := by
    rw [LinRegShare.xor, Vector.toList_zipWith]
    exact forall_mem_zipWith_xor h.x2_lt h'.x2_lt
  xy_lt := by
    rw [LinRegShare.xor, Vector.toList_zipWith]
    exact forall_mem_zipWith_xor h.xy_lt h'.xy_lt

theorem getD_lt {l : List UInt64} {b k : ℕ} (h : ∀ w ∈ l, w.toNat < 2 ^ b) : (l.getD k 0).toNat < 2 ^ b := by
  by_cases hk : k < l.length
  · rw [List.getD_eq_getElem _ _ hk]
    exact h _ (List.getElem_mem hk)
  · rw [List.getD_eq_default _ _ (not_lt.mp hk)]
    exact Nat.two_pow_pos b

theorem LinRegShare.integral_of_eval (hdegree : 0 < degree) {s : LinRegShare degree} {b : ℕ} (hb : b < 32)
    (hfits : s.Fits b) {stale inps : ℕ → ℤ}
    (hinps : ∀ j, j < numFields degree → inps j ≡ (s.row.getD j 0).toNat [ZMOD intModulus])
    (heval : (checkLinReg shipped degree).eval shipped stale inps = true) : s.Integral := by
  have hnumX : numX degree + 1 = degree := Nat.sub_add_cancel hdegree
  have hlen : (triPairs (numX degree)).length = numQuad degree := length_triPairs _
  obtain ⟨hquads, hcross⟩ := (Circuit.checkLinReg_spec shipped stale inps hdegree).2.mp heval
  have hfield : ∀ j < numFields degree, (inps j : ZMod intModulus) = ((s.row.getD j 0).toNat : ℕ) := by
    intro j hj
    have hcast := (ZMod.intCast_eq_intCast_iff _ _ _).mpr (hinps j hj)
    rwa [Int.cast_natCast] at hcast
  have hx : ∀ j < numX degree, (inps j : ZMod intModulus) = ((s.xVals.toList.getD j 0).toNat : ℕ) := by
    intro j hj
    rw [hfield j (by rw [numFields]; omega), s.getD_row_x hj]
  constructor
  · intro k q hq
    obtain ⟨hle, hlt⟩ := mem_triPairs.mp (List.mem_of_getElem? hq)
    have hk : k < numQuad degree := hlen ▸ (List.getElem?_eq_some_iff.mp hq).1
    have hmem : (q, degree + k) ∈ (triPairs (degree - 1)).zipIdx degree := by
      rw [List.mk_mem_zipIdx_iff_le_and_getElem?_sub, Nat.add_sub_cancel_left]
      exact ⟨Nat.le_add_right _ _, hq⟩
    have hprod : (inps q.1 * inps q.2 : ZMod intModulus) = inps (degree + k) := hquads _ hmem
    have hidx : degree + k = numX degree + 1 + k := by omega
    rw [hx _ (hle.trans_lt hlt), hx _ hlt, hidx, hfield _ (by rw [numFields]; omega), s.getD_row_x2 hk] at hprod
    exact mul_eq_of_cast hb (getD_lt hfits.x_lt) (getD_lt hfits.x_lt) (getD_lt hfits.x2_lt) hprod
  · intro i hi
    have hprod : (inps (degree - 1) * inps i : ZMod intModulus) =
        inps (degree + (triPairs (degree - 1)).length + i) := hcross i hi
    have hidx : degree + (triPairs (degree - 1)).length + i = numX degree + 1 + numQuad degree + i := by
      rw [← hlen, numX]
      omega
    have hy : (inps (degree - 1) : ZMod intModulus) = (s.y.toNat : ℕ) := by
      rw [hfield (degree - 1) (by rw [numFields, numX]; omega), ← numX, s.getD_row_y]
    rw [hy, hx i hi, hidx, hfield _ (by rw [numFields]; omega), s.getD_row_xy] at hprod
    exact mul_eq_of_cast hb hfits.y_lt (getD_lt hfits.x_lt) (getD_lt hfits.xy_lt) hprod

end LinReg

/-- Two shares that pass on both servers reconstruct to values of the declared widths, and what the circuits then
accept holds over the integers. -/
theorem rangeChecks_integral (msg : InitMsg) (hbits : msg.numBits.toNat ≤ 63) :
    (∀ s0 s1 : VarSubmission, varOk msg s0 = true → varOk msg s1 = true →
      (s0.share.xor s1.share).Fits msg.numBits.toNat ∧
      ∀ stale inps : ℕ → ℤ, inps 0 ≡ (s0.share.xor s1.share).val.toNat [ZMOD intModulus] →
        inps 1 ≡ (s0.share.xor s1.share).valSquared.toNat [ZMOD intModulus] →
        (checkVar shipped).eval shipped stale inps = true → (s0.share.xor s1.share).Integral) ∧
    (∀ degree, 2 ≤ degree → ∀ s0 s1 : LinRegSubmission degree, linregOk msg s0 = true → linregOk msg s1 = true →
      (s0.share.xor s1.share).Fits msg.numBits.toNat ∧
      ∀ stale inps : ℕ → ℤ,
        (∀ j, j < numFields degree → inps j ≡ ((s0.share.xor s1.share).row.getD j 0).toNat [ZMOD intModulus]) →
        (checkLinReg shipped degree).eval shipped stale inps = true → (s0.share.xor s1.share).Integral) := by
  constructor
  · intro s0 s1 hok0 hok1
    obtain ⟨hb, hfits0⟩ := VarSubmission.fits_of_ok hbits hok0
    have hfits := hfits0.xor (VarSubmission.fits_of_ok hbits hok1).2
    exact ⟨hfits, fun stale inps hval hsquare heval => VarShare.integral_of_eval hb hfits hval hsquare heval⟩
  · intro degree hdegree s0 s1 hok0 hok1
    obtain ⟨hb, hfits0⟩ := LinRegSubmission.fits_of_ok hbits hdegree hok0
    have hfits := hfits0.xor (LinRegSubmission.fits_of_ok hbits hdegree hok1).2
    exact ⟨hfits, fun stale inps hinps heval => LinRegShare.integral_of_eval (by omega) hb hfits hinps heval⟩

/-- Shares of 3 and its square, and of 3, 2, the square of 3 and the product. -/
theorem rangeChecks_integral_twoBits :
    ((varSubmission 0 1 4).share.xor (varSubmission 0 2 13).share).Fits 2 ∧
    ((varSubmission 0 1 4).share.xor (varSubmission 0 2 13).share).Integral ∧
    ((linregSubmission 0 1 3 4 5).share.xor (linregSubmission 0 2 1 13 3).share).Fits 2 ∧
    ((linregSubmission 0 1 3 4 5).share.xor (linregSubmission 0 2 1 13 3).share).Integral := by
  obtain ⟨hvar, hlinreg⟩ := rangeChecks_integral twoVarMsg (by decide)
  obtain ⟨hfits, hintegral⟩ := hvar (varSubmission 0 1 4) (varSubmission 0 2 13) (by decide) (by decide)
  obtain ⟨hfits', hintegral'⟩ := hlinreg 2 le_rfl (linregSubmission 0 1 3 4 5) (linregSubmission 0 2 1 13 3)
    (by decide) (by decide)
  refine ⟨hfits, hintegral 0 (fun j => [3, 9].getD j 0) (by decide) (by decide) ?_, hfits',
    hintegral' 0 (fun j => [3, 2, 9, 6].getD j 0) (by decide +kernel) ?_⟩
  · rw [Circuit.eval_checkVar_iff]
    decide
  · rw [(Circuit.checkLinReg_spec shipped _ _ Nat.two_pos).2]
    decide

end PrioPlus

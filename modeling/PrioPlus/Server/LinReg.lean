import PrioPlus.Circuit.SolveLinReg
import PrioPlus.Hash
import PrioPlus.Server.Var

/-!
# `linreg_op`

A submission holds shares of the fields `x`, `y`, of the products of two fields of `x`, and of the products with `y`.
The servers convert and accumulate them in this order. Server 0 sorts the combined sums into the arrays of
`SolveLinReg` (`linregOp_terminates`).
-/

namespace PrioPlus

open Lib.TwoParty

def numX (degree : ℕ) : ℕ := degree - 1

def numQuad (degree : ℕ) : ℕ := numX degree * (numX degree + 1) / 2

def numFields (degree : ℕ) : ℕ := 2 * numX degree + 1 + numQuad degree

structure LinRegShare (degree : ℕ) where
  pk : Pk
  xVals : Vector UInt64 (numX degree)
  y : UInt64
  x2Vals : Vector UInt64 (numQuad degree)
  xyVals : Vector UInt64 (numX degree)

/-- What a server receives from a client. -/
structure LinRegSubmission (degree : ℕ) where
  share : LinRegShare degree
  packet : ClientPacket
  packetBytes : ℤ
  nMul_eq : packet.nMul = (checkLinReg shipped degree).numMulGates

/-- What `linreg_op` leaves behind: the combined sums, the arrays for `SolveLinReg`, and its solution. -/
structure LinRegResult (degree : ℕ) extends SnipResult where
  ret : ReturnType
  totals : List ℤ
  xAccum : List UInt64
  yAccum : List UInt64
  c : Option (Fin degree → ℚ)

section Operation

variable {degree : ℕ}

/-- The checks on receipt. -/
def linregOk (msg : InitMsg) (s : LinRegSubmission degree) : Bool :=
  let max := maxVal msg.numBits
  let sizesValid := !(s.share.xVals.toList.any (fun x => decide (x ≥ max)) ||
    s.share.xyVals.toList.any (fun xy => decide (xy ≥ max * max)) || decide (s.share.y ≥ max) ||
    s.share.x2Vals.toList.any fun x2 => decide (x2 ≥ max * max))
  !(!sizesValid || decide (s.packetBytes ≤ 0))

/-- The block of one submission in `shares`, as the copies of its arrays fill it. -/
def LinRegShare.row (s : LinRegShare degree) : List UInt64 :=
  s.xVals.toList ++ s.y :: (s.x2Vals.toList ++ s.xyVals.toList)

theorem LinRegShare.length_row (s : LinRegShare degree) : s.row.length = numFields degree := by
  simp [row, numFields]
  omega

section Rows

variable (s : LinRegShare degree)

theorem LinRegShare.getD_row_x {j : ℕ} (hj : j < numX degree) : s.row.getD j 0 = s.xVals.toList.getD j 0 :=
  List.getD_append _ _ _ _ (by simpa using hj)

theorem LinRegShare.getD_row_y : s.row.getD (numX degree) 0 = s.y := by
  rw [LinRegShare.row, List.getD_append_right _ _ _ _ (by simp)]
  simp

theorem LinRegShare.getD_row_x2 {k : ℕ} (hk : k < numQuad degree) :
    s.row.getD (numX degree + 1 + k) 0 = s.x2Vals.toList.getD k 0 := by
  have hshift : numX degree + 1 + k - s.xVals.toList.length = k + 1 := by
    rw [Vector.length_toList]
    omega
  rw [LinRegShare.row, List.getD_append_right _ _ _ _ (by simp; omega), hshift, List.getD_cons_succ,
    List.getD_append _ _ _ _ (by simpa using hk)]

theorem LinRegShare.getD_row_xy (j : ℕ) :
    s.row.getD (numX degree + 1 + numQuad degree + j) 0 = s.xyVals.toList.getD j 0 := by
  have hshift : numX degree + 1 + numQuad degree + j - s.xVals.toList.length = numQuad degree + j + 1 := by
    rw [Vector.length_toList]
    omega
  have hshift' : numQuad degree + j - s.x2Vals.toList.length = j := by
    rw [Vector.length_toList]
    omega
  rw [LinRegShare.row, List.getD_append_right _ _ _ _ (by simp; omega), hshift, List.getD_cons_succ,
    List.getD_append_right _ _ _ _ (by simp), hshift']

theorem field_cases {j : ℕ} (hj : j < numFields degree) :
    j < numX degree ∨ j = numX degree ∨ (∃ k < numQuad degree, j = numX degree + 1 + k) ∨
      ∃ k < numX degree, j = numX degree + 1 + numQuad degree + k := by
  rw [numFields] at hj
  rcases Nat.lt_trichotomy j (numX degree) with hx | hy | hprod
  · exact Or.inl hx
  · exact Or.inr (Or.inl hy)
  · by_cases hquad : j < numX degree + 1 + numQuad degree
    · exact Or.inr (Or.inr (Or.inl ⟨j - (numX degree + 1), by omega, by omega⟩))
    · exact Or.inr (Or.inr (Or.inr ⟨j - (numX degree + 1 + numQuad degree), by omega, by omega⟩))

end Rows

/-- `nbits`. -/
def linregBits (msg : InitMsg) (degree j : ℕ) : ℕ := (msg.numBits * if j ≥ degree then 2 else 1).toNat

/-- What `linreg_op` does with a submission. For a key that it does not know server 0 copies fresh arrays, whose words
are arbitrary, and a zero for `y`. -/
def linregSnip (degree : ℕ) (msg : InitMsg) (fresh : ℕ → ℕ → UInt64) : SnipOp (LinRegSubmission degree) where
  pk s := s.share.pk
  ok := linregOk msg
  packet s := s.packet
  circuit := checkLinReg shipped degree
  numFields := numFields degree
  nbits := linregBits msg degree
  row s := s.share.row
  mockRow i := (List.range (numFields degree)).map fun j => if j = numX degree then 0 else fresh i j
  length_row s := s.share.length_row
  length_mockRow i := by simp

def xAccum (degree numValid : ℕ) (totals : List ℤ) : List UInt64 :=
  UInt64.ofNat numValid ::
    (((List.range (numX degree)).map fun j => (fmpzGetSi (totals.getD j 0)).toUInt64) ++
      (List.range (numQuad degree)).map fun j => (fmpzGetSi (totals.getD (degree + j) 0)).toUInt64)

def yAccum (degree : ℕ) (totals : List ℤ) : List UInt64 :=
  (fmpzGetSi (totals.getD (numX degree) 0)).toUInt64 ::
    (List.range (numX degree)).map fun j => (fmpzGetSi (totals.getD (degree + numQuad degree + j) 0)).toUInt64

/-- The end of `linreg_op` on server 0. -/
def linregFinish (fmpqMatInv : FmpqMatInv degree) (totalInputs : ℕ) (a : SnipResult) (b : List ℤ) :
    LinRegResult degree :=
  let totals := sumAccumulates (numFields degree) a.accum b
  let xs := xAccum degree a.numValid totals
  let ys := yAccum degree totals
  if belowThreshold a.numValid totalInputs then
    { a with ret := .invalid, totals, xAccum := xs, yAccum := ys, c := none }
  else { a with ret := .ans, totals, xAccum := xs, yAccum := ys, c := some (solveLinReg fmpqMatInv xs ys) }

/-- The end of `linreg_op` on server 1. -/
def linregSent (b : SnipResult) : LinRegResult degree :=
  { b with ret := .noAns, totals := [], xAccum := [], yAccum := [], c := none }

theorem linregFinish_of_le (fmpqMatInv : FmpqMatInv degree) {totalInputs : ℕ} {a : SnipResult}
    (h : totalInputs ≤ 2 * a.numValid) (b : List ℤ) :
    let totals := sumAccumulates (numFields degree) a.accum b
    let xs := xAccum degree a.numValid totals
    let ys := yAccum degree totals
    linregFinish fmpqMatInv totalInputs a b =
      { a with ret := .ans, totals, xAccum := xs, yAccum := ys, c := some (solveLinReg fmpqMatInv xs ys) } := by
  have hthreshold : ¬ belowThreshold a.numValid totalInputs = true := by
    rw [belowThreshold_iff]
    omega
  exact if_neg hthreshold

/-- `linreg_op`. Only server 0 reads `fresh`. With `degree` zero the number of fields wraps, and the arrays cannot be
allocated. -/
def linregOp (fmpqMatInv : FmpqMatInv degree) (sync : SnipSync) (it : Iteration (LinRegSubmission degree))
    (prg : ℕ → UInt64) (fresh : ℕ → ℕ → UInt64) (msg : InitMsg) (serverNum : ℕ)
    (submissions : Vector (LinRegSubmission degree) msg.numOfInputs.toNat) : Server (LinRegResult degree) :=
  let op := linregSnip degree msg fresh
  let shareMap := op.shareMap submissions.toList
  if degree = 0 then .stuck
  else if serverNum = 1 then do
    let result ← op.server1 sync it prg shareMap
    return linregSent result
  else do
    let (a, b) ← op.server0 sync prg shareMap
    return linregFinish fmpqMatInv msg.numOfInputs.toNat a b

theorem linregOp_terminates (hdegree : 0 < degree) (inv0 inv1 : FmpqMatInv degree) (sync : SnipSync)
    (it0 it1 : Iteration (LinRegSubmission degree)) (prg0 prg1 : ℕ → UInt64) (fresh : ℕ → ℕ → UInt64)
    (msg : InitMsg) (s0 s1 : Vector (LinRegSubmission degree) msg.numOfInputs.toNat)
    (h : ∃ s ∈ s1.toList, linregOk msg s = true) (hfits : (linregSnip degree msg fresh).Fits s1.toList) :
    let op := linregSnip degree msg fresh
    let a := op.result0 sync it1 prg0 s0.toList s1.toList
    let b := op.result1 sync it1 prg0 s0.toList s1.toList
    Terminates (linregOp inv0 sync it0 prg0 fresh msg 0 s0) (linregOp inv1 sync it1 prg1 fresh msg 1 s1)
      (linregFinish inv0 msg.numOfInputs.toNat a b.accum) (linregSent b) := by
  intro op a b
  apply Reaches.terminates
  unfold linregOp
  rw [if_neg hdegree.ne', if_neg hdegree.ne']
  exact Reaches.bind (op.server_reaches sync it1 prg0 s0.toList s1.toList prg1 h hfits) (Reaches.refl _)

theorem linregOp_hangs (hdegree : 0 < degree) (inv0 inv1 : FmpqMatInv degree) (sync : SnipSync)
    (it0 it1 : Iteration (LinRegSubmission degree)) (prg0 prg1 : ℕ → UInt64) (fresh : ℕ → ℕ → UInt64)
    (msg : InitMsg) (s0 s1 : Vector (LinRegSubmission degree) msg.numOfInputs.toNat)
    (hfits : ¬ (linregSnip degree msg fresh).Fits s1.toList) :
    Hangs (linregOp inv0 sync it0 prg0 fresh msg 0 s0) (linregOp inv1 sync it1 prg1 fresh msg 1 s1) := by
  unfold linregOp
  rw [if_neg hdegree.ne', if_neg hdegree.ne']
  exact ((linregSnip degree msg fresh).server_hangs sync it1 prg0 s0.toList s1.toList prg1 hfits).bind _ _

theorem linregOp_reaches_stuck (hdegree : 0 < degree) (inv0 inv1 : FmpqMatInv degree) (sync : SnipSync)
    (it0 it1 : Iteration (LinRegSubmission degree)) (prg0 prg1 : ℕ → UInt64) (fresh : ℕ → ℕ → UInt64)
    (msg : InitMsg) (s0 s1 : Vector (LinRegSubmission degree) msg.numOfInputs.toNat)
    (h : ∀ s ∈ s1.toList, linregOk msg s = false) (hfits : (linregSnip degree msg fresh).Fits s1.toList) :
    Reaches (.start (linregOp inv0 sync it0 prg0 fresh msg 0 s0) (linregOp inv1 sync it1 prg1 fresh msg 1 s1))
      (.start .stuck .stuck) := by
  unfold linregOp
  rw [if_neg hdegree.ne', if_neg hdegree.ne']
  exact ((linregSnip degree msg fresh).server_reaches_stuck sync it1 prg0 s0.toList s1.toList prg1 h hfits).bind_of _ _

theorem linregOp_not_terminates (hdegree : 0 < degree) (inv0 inv1 : FmpqMatInv degree) (sync : SnipSync)
    (it0 it1 : Iteration (LinRegSubmission degree)) (prg0 prg1 : ℕ → UInt64) (fresh : ℕ → ℕ → UInt64)
    (msg : InitMsg) (s0 s1 : Vector (LinRegSubmission degree) msg.numOfInputs.toNat)
    (h : ∀ s ∈ s1.toList, linregOk msg s = false) (r0 r1 : LinRegResult degree) :
    ¬ Terminates (linregOp inv0 sync it0 prg0 fresh msg 0 s0) (linregOp inv1 sync it1 prg1 fresh msg 1 s1) r0 r1 := by
  by_cases hfits : (linregSnip degree msg fresh).Fits s1.toList
  · exact (linregOp_reaches_stuck hdegree inv0 inv1 sync it0 it1 prg0 prg1 fresh msg s0 s1 h hfits).not_terminates r0 r1
  · exact (linregOp_hangs hdegree inv0 inv1 sync it0 it1 prg0 prg1 fresh msg s0 s1 hfits).not_terminates r0 r1

end Operation

end PrioPlus

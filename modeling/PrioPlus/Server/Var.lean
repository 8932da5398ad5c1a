import PrioPlus.Server.SnipOp

/-!
# `var_op`

A submission holds shares of a value and of its square, and the packet proves that one is the square of the other.
Both servers accumulate over the same slots (`varOp_terminates`).
-/

namespace PrioPlus

open Lib.TwoParty

structure VarShare where
  pk : Pk
  val : UInt64
  valSquared : UInt64

/-- What a server receives from a client: the share, the packet, and what `recv_ClientPacket` returned. -/
structure VarSubmission where
  share : VarShare
  packet : ClientPacket
  packetBytes : ℤ
  nMul_eq : packet.nMul = (checkVar shipped).numMulGates

/-- What `var_op` leaves behind. The combined sums and `ans` are there when it reports. -/
structure VarResult extends SnipResult where
  ret : ReturnType
  totals : Option (List ℤ)
  ans : Option ℚ

/-- `1ULL << num_bits`. -/
def maxVal (numBits : UInt32) : UInt64 := 1 <<< numBits.toUInt64

theorem toNat_maxVal {numBits : UInt32} (h : numBits.toNat < 64) : (maxVal numBits).toNat = 2 ^ numBits.toNat := by
  have hlt : 2 ^ numBits.toNat < 2 ^ 64 := Nat.pow_lt_pow_right one_lt_two h
  rw [maxVal, UInt64.toNat_shiftLeft, UInt32.toNat_toUInt64, Nat.mod_eq_of_lt h, UInt64.toNat_one, Nat.shiftLeft_eq,
    Nat.one_mul, Nat.mod_eq_of_lt hlt]

theorem toNat_maxVal_mul_self {numBits : UInt32} (h : numBits.toNat < 32) :
    (maxVal numBits * maxVal numBits).toNat = 2 ^ (numBits.toNat * 2) := by
  have hlt : 2 ^ (numBits.toNat * 2) < 2 ^ 64 := Nat.pow_lt_pow_right one_lt_two (by omega)
  rw [UInt64.toNat_mul, toNat_maxVal (by omega), ← pow_add, ← Nat.mul_two, Nat.mod_eq_of_lt hlt]

/-- The checks on receipt. -/
def varOk (msg : InitMsg) (s : VarSubmission) : Bool :=
  !(decide (s.share.val ≥ maxVal msg.numBits) || decide (s.share.valSquared ≥ maxVal msg.numBits * maxVal msg.numBits) ||
    decide (s.packetBytes ≤ 0))

/-- What `var_op` does with a submission. -/
def varSnip (msg : InitMsg) : SnipOp VarSubmission where
  pk s := s.share.pk
  ok := varOk msg
  packet s := s.packet
  circuit := checkVar shipped
  numFields := 2
  nbits j := if j = 0 then msg.numBits.toNat else (msg.numBits * 2).toNat
  row s := [s.share.val, s.share.valSquared]
  mockRow _ := [0, 0]
  length_row _ := rfl
  length_mockRow _ := rfl

/-- `E[x ^ 2] - E[x] ^ 2`, without the rounding to a `double`. -/
def variance (totals : List ℤ) (numValid : ℕ) : ℚ :=
  let ex : ℚ := totals.getD 0 0 / numValid
  let ex2 : ℚ := totals.getD 1 0 / numValid
  ex2 - ex * ex

/-- The end of `var_op` on server 0. `STDDEV_OP` takes the root of `ans`. -/
def varFinish (totalInputs : ℕ) (a : SnipResult) (b : List ℤ) : VarResult :=
  if belowThreshold a.numValid totalInputs then { a with ret := .invalid, totals := none, ans := none }
  else
    let totals := sumAccumulates 2 a.accum b
    { a with ret := .ans, totals := some totals, ans := some (variance totals a.numValid) }

/-- The end of `var_op` on server 1. -/
def varSent (b : SnipResult) : VarResult := { b with ret := .noAns, totals := none, ans := none }

def varOp (sync : SnipSync) (it : Iteration VarSubmission) (prg : ℕ → UInt64) (msg : InitMsg) (serverNum : ℕ)
    (submissions : Vector VarSubmission msg.numOfInputs.toNat) : Server VarResult :=
  let op := varSnip msg
  let shareMap := op.shareMap submissions.toList
  if serverNum = 1 then do
    let result ← op.server1 sync it prg shareMap
    return varSent result
  else do
    let (a, b) ← op.server0 sync prg shareMap
    return varFinish msg.numOfInputs.toNat a b

theorem varOp_terminates (sync : SnipSync) (it0 it1 : Iteration VarSubmission) (prg0 prg1 : ℕ → UInt64) (msg : InitMsg)
    (s0 s1 : Vector VarSubmission msg.numOfInputs.toNat) (h : ∃ s ∈ s1.toList, varOk msg s = true)
    (hfits : (varSnip msg).Fits s1.toList) :
    let a := (varSnip msg).result0 sync it1 prg0 s0.toList s1.toList
    let b := (varSnip msg).result1 sync it1 prg0 s0.toList s1.toList
    Terminates (varOp sync it0 prg0 msg 0 s0) (varOp sync it1 prg1 msg 1 s1)
      (varFinish msg.numOfInputs.toNat a b.accum) (varSent b) := by
  intro a b
  apply Reaches.terminates
  exact Reaches.bind ((varSnip msg).server_reaches sync it1 prg0 s0.toList s1.toList prg1 h hfits) (Reaches.refl _)

theorem varOp_hangs (sync : SnipSync) (it0 it1 : Iteration VarSubmission) (prg0 prg1 : ℕ → UInt64) (msg : InitMsg)
    (s0 s1 : Vector VarSubmission msg.numOfInputs.toNat) (hfits : ¬ (varSnip msg).Fits s1.toList) :
    Hangs (varOp sync it0 prg0 msg 0 s0) (varOp sync it1 prg1 msg 1 s1) :=
  ((varSnip msg).server_hangs sync it1 prg0 s0.toList s1.toList prg1 hfits).bind _ _

end PrioPlus

import PrioPlus.Circuit.Checks
import PrioPlus.Correlated
import PrioPlus.Server.Accumulate
import PrioPlus.Snip.Verdict

/-!
# `validate_snips` and the operations on words

`var_op` and `linreg_op` take rows of words with a client packet each. Server 1 sends its keys, both convert their
rows and check the packets, and server 0 sends back which inputs it holds valid. Both servers come to the same
verdicts on the packets (`validateSnips_reaches`), and server 0 has already taken them into account in what it sends,
so both end with the same array.
-/

namespace PrioPlus

open Finset Lib.TwoParty Lib.FirstWins

/-- What the servers have synced: the point of the checks and the draws of the common generator. -/
structure SnipSync where
  x : ℤ
  coeff : ℕ → ℤ

/-- The draws that check `i` uses, for circuits of one kind. -/
def SnipSync.coeffAt (sync : SnipSync) (c : Circuit) (i : ℕ) : ℕ → ℤ :=
  fun k => sync.coeff (i * (c.resultZero.length + 1) + k)

/-- `checker[i]` of `validate_snips`, on a fresh circuit. -/
def checkerAt (sync : SnipSync) (c : Circuit) (serverNum numInputs : ℕ) (packets : List ClientPacket)
    (sharesP : List ℤ) (i : ℕ) : Checker :=
  let numRoots := nextPowerOfTwo c.numMulGates
  Checker.new shipped c (fun _ => 0) serverNum (packets.getD i (ClientPacket.new c.numMulGates))
    (setCheckerPrecomp shipped (buildRoots shipped numRoots) numRoots sync.x)
    fun j => sharesP.getD (i * numInputs + j) 0

/-- The messages `[d], [e]` of the checks. -/
def corShares (n : ℕ) (checker : ℕ → Checker) : List CorShare :=
  (List.range n).map fun i => (checker i).corShareFn shipped

/-- The outputs of the checks, from the messages of both servers. -/
def outShares (sync : SnipSync) (c : Circuit) (n : ℕ) (checker : ℕ → Checker) (corShare corShareOther : List CorShare) :
    List ℤ :=
  (List.range n).map fun i =>
    (checker i).outShare shipped (Cor.ofShares shipped (corShare.getD i ⟨0, 0⟩) (corShareOther.getD i ⟨0, 0⟩))
      (sync.coeffAt c i)

/-- The comparisons of the outputs with zero. -/
def addToZeros (n : ℕ) (validShare validShareOther : List ℤ) : List Bool :=
  (List.range n).map fun i => addToZero shipped (validShare.getD i 0) (validShareOther.getD i 0)

/-- `validate_snips`. The array of circuits has equal entries; the first one is read even when there is none. -/
def validateSnips (sync : SnipSync) (c : Circuit) (serverNum numInputs : ℕ) (packets : List ClientPacket)
    (sharesP : List ℤ) : Server (List Bool) :=
  let n := packets.length
  let checker := checkerAt sync c serverNum numInputs packets sharesP
  if n = 0 then .stuck
  else do
    let corShare := corShares n checker
    sendMsg (.corShareBatch corShare)
    let corShareOther ← recvCorShareBatch n
    let validShare := outShares sync c n checker corShare corShareOther
    sendMsg (.fmpzBatch validShare)
    let validShareOther ← recvFmpzBatch n
    return addToZeros n validShare validShareOther

section Validate

variable (sync : SnipSync) (c : Circuit) (numInputs : ℕ) (packets0 packets1 : List ClientPacket)
  (sharesP0 sharesP1 : List ℤ)

/-- The check of input `i`. -/
def snipInstance (i : ℕ) : SnipInstance where
  ckt := c
  packet0 := packets0.getD i (ClientPacket.new c.numMulGates)
  packet1 := packets1.getD i (ClientPacket.new c.numMulGates)
  input0 j := sharesP0.getD (i * numInputs + j) 0
  input1 j := sharesP1.getD (i * numInputs + j) 0
  stale0 _ := 0
  stale1 _ := 0

/-- The verdicts on the packets. -/
def snipVerdicts : List Bool :=
  (List.range packets0.length).map fun i =>
    (snipInstance c numInputs packets0 packets1 sharesP0 sharesP1 i).accepts shipped sync.x (sync.coeffAt c i)

@[simp] theorem length_snipVerdicts :
    (snipVerdicts sync c numInputs packets0 packets1 sharesP0 sharesP1).length = packets0.length := by
  simp [snipVerdicts]

theorem addToZero_comm (K : Constants) (x y : ℤ) : addToZero K x y = addToZero K y x := by
  rw [addToZero, addToZero, Int.add_comm]

theorem addToZeros_comm (n : ℕ) (xs ys : List ℤ) : addToZeros n xs ys = addToZeros n ys xs :=
  List.map_congr_left fun _ _ => addToZero_comm _ _ _

theorem addToZeros_outShares :
    addToZeros packets0.length
      (outShares sync c packets0.length (checkerAt sync c 0 numInputs packets0 sharesP0)
        (corShares packets0.length (checkerAt sync c 0 numInputs packets0 sharesP0))
        (corShares packets0.length (checkerAt sync c 1 numInputs packets1 sharesP1)))
      (outShares sync c packets0.length (checkerAt sync c 1 numInputs packets1 sharesP1)
        (corShares packets0.length (checkerAt sync c 1 numInputs packets1 sharesP1))
        (corShares packets0.length (checkerAt sync c 0 numInputs packets0 sharesP0))) =
      snipVerdicts sync c numInputs packets0 packets1 sharesP0 sharesP1 := by
  apply List.map_congr_left
  intro i hi
  have hi := List.mem_range.mp hi
  simp only [outShares, corShares, getD_map_range, if_pos hi]
  rfl

theorem validateSnips_reaches (hlen : packets1.length = packets0.length) (hpos : 0 < packets0.length) :
    Reaches
      (.start (validateSnips sync c 0 numInputs packets0 sharesP0) (validateSnips sync c 1 numInputs packets1 sharesP1))
      (.done (snipVerdicts sync c numInputs packets0 packets1 sharesP0 sharesP1)
        (snipVerdicts sync c numInputs packets0 packets1 sharesP0 sharesP1)) := by
  unfold validateSnips
  simp only [hlen, if_neg hpos.ne']
  refine (reaches_exchange (if_pos (by simp [corShares])) (if_pos (by simp [corShares]))).trans ?_
  refine (reaches_exchange (if_pos (by simp [outShares])) (if_pos (by simp [outShares]))).trans ?_
  rw [addToZeros_comm _ (outShares sync c _ (checkerAt sync c 1 _ _ _) _ _), addToZeros_outShares]
  exact Reaches.refl _

end Validate

end PrioPlus

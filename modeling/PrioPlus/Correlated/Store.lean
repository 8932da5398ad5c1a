import PrioPlus.Correlated
import PrioPlus.Lib.Lockstep
import PrioPlus.Lib.Pool

/-!
# The correlated store, `correlated.cpp`

`CorrelatedStore` keeps a queue of daBits and one of boolean triples, and makes more of them when a check finds too
few. Both servers run the same operations on the same sizes, so their queues must hold halves of the same entries at
equal positions: every conversion depends on it, and nothing in the code checks it.

The invariant is `CorrelatedStore.Aligned`. Each operation keeps it, and `stores_synced` says so for every sequence of
them and for every state on the way, under the only assumption that a freshly made batch is correlated.
-/

namespace PrioPlus

open Lib Lib.TwoParty Lib.FlatLoop

/-! ### Fresh batches -/

/-- The halves agree on a bit. -/
def DaBit.Correlated (d0 d1 : DaBit) : Prop := d0.bp + d1.bp ≡ (d0.b2 ^^ d1.b2).toNat [ZMOD intModulus]

/-- The half is a residue. -/
def DaBit.InRange (d : DaBit) : Prop := 0 ≤ d.bp ∧ d.bp < intModulus

/-- The shared bits multiply. -/
def BooleanBeaverTriple.Correlated (t0 t1 : BooleanBeaverTriple) : Prop :=
  (t0.c ^^ t1.c) = ((t0.a ^^ t1.a) && (t0.b ^^ t1.b))

/-- `n` entries, with the halves of both servers. -/
structure Batch {α : Type} (R : α → α → Prop) (n : ℕ) where
  pairs : List (α × α)
  length_pairs : pairs.length = n
  related : ∀ p ∈ pairs, R p.1 p.2

namespace Batch

variable {α : Type} {R : α → α → Prop} {n : ℕ}

/-- What one server has of a batch. -/
def half (b : Batch R n) (serverNum : ℕ) : List α := b.pairs.map fun p => if serverNum = 0 then p.1 else p.2

@[simp] theorem length_half (b : Batch R n) (serverNum : ℕ) : (b.half serverNum).length = n := by
  simp [half, b.length_pairs]

theorem forall₂_half (b : Batch R n) : List.Forall₂ R (b.half 0) (b.half 1) := by
  simp only [half, List.forall₂_map_left_iff, List.forall₂_map_right_iff, List.forall₂_same]
  exact b.related

end Batch

/-- What the servers make together: by oblivious transfer a batch for each number of batches made before and each
size, and the draws of server 0 for batches that it makes alone. -/
structure Generation where
  daBits : ℕ → (n : ℕ) → Batch DaBit.Correlated n
  triples : ℕ → (n : ℕ) → Batch BooleanBeaverTriple.Correlated n
  draws : ℕ → ℕ → LocalDraw

theorem correlated_makeLocalDaBit (draw : LocalDraw) :
    DaBit.Correlated (makeLocalDaBit draw).1 (makeLocalDaBit draw).2 := by
  obtain ⟨hsum, hxor⟩ := makeLocalDaBit_correlated draw
  rw [DaBit.Correlated, hxor]
  exact hsum

theorem inRange_makeLocalDaBit (draw : LocalDraw) :
    (makeLocalDaBit draw).1.InRange ∧ (makeLocalDaBit draw).2.InRange := by
  have hpos : (0 : ℤ) < intModulus := by decide
  have hnonneg := draw.r_nonneg
  have hlt := draw.r_lt
  refine ⟨⟨?_, ?_⟩, Int.emod_nonneg _ hpos.ne', Int.emod_lt_of_pos _ hpos⟩
  · show 0 ≤ draw.r + (draw.bit.toNat + 1)
    omega
  · show draw.r + (draw.bit.toNat + 1) < intModulus
    omega

/-- A batch that server 0 makes alone. -/
def Generation.localDaBits (gen : Generation) (batches n : ℕ) : Batch DaBit.Correlated n where
  pairs := (List.range n).map fun i => makeLocalDaBit (gen.draws batches i)
  length_pairs := by simp
  related := by
    simp only [List.mem_map]
    rintro _ ⟨i, -, rfl⟩
    exact correlated_makeLocalDaBit _

/-! ### The store -/

/-- One server's store. `batches` counts the batches that were made, in which the servers keep step. -/
structure CorrelatedStore where
  batchSize : ℕ
  serverNum : ℕ
  lazy : Bool
  dabitStore : Pool DaBit
  btripleStore : Pool BooleanBeaverTriple
  batches : ℕ

/-- Why an operation does not return: a loop has a bound that its 32-bit counter does not reach, or an entry is taken
from an empty queue. -/
inductive StoreFault where
  | counter
  | emptyQueue

abbrev StoreM := Session Msg StoreFault CorrelatedStore

/-- Go on when no counter overflows. -/
def inRange (p : Prop) [Decidable p] : StoreM Unit := if p then pure () else Session.fail .counter

/-- The loop that takes `n` entries one by one. -/
def takeMany {α : Type} (get : StoreM α) (n : ℕ) : StoreM (List α) :=
  Session.countTo (2 ^ 32) .counter n (fun _ xs => do
    let x ← get
    return xs ++ [x]) []

namespace CorrelatedStore

open Session

/-- The constructor, with empty queues. -/
def new (batchSize serverNum : ℕ) (lazy : Bool) : CorrelatedStore :=
  ⟨batchSize, serverNum, lazy, Pool.empty, Pool.empty, 0⟩

def pushDaBits (s : CorrelatedStore) (xs : List DaBit) : CorrelatedStore :=
  { s with dabitStore := s.dabitStore.push xs, batches := s.batches + 1 }

def pushTriples (s : CorrelatedStore) (xs : List BooleanBeaverTriple) : CorrelatedStore :=
  { s with btripleStore := s.btripleStore.push xs, batches := s.batches + 1 }

section Operations

variable (gen : Generation)

/-- `addBoolTriples`. The generator takes the number as an `unsigned int`, and from `2 ^ 32` on the loop asks for more
than it made. -/
def addBoolTriples (n : ℕ) : StoreM Unit := do
  let s ← current
  let numToMake := if n > s.batchSize then n else s.batchSize
  record (s.pushTriples ((gen.triples s.batches (numToMake % 2 ^ 32)).half s.serverNum))
  inRange (numToMake < 2 ^ 32)

/-- `addDaBits`. In lazy mode server 0 makes both halves and sends one. -/
def addDaBits (n : ℕ) : StoreM Unit := do
  inRange (n < 2 ^ 32)
  let s ← current
  if s.lazy = false then record (s.pushDaBits ((gen.daBits s.batches n).half s.serverNum))
  else if s.serverNum = 0 then do
    link (sendMsg (.daBitBatch ((gen.localDaBits s.batches n).half 1)))
    record (s.pushDaBits ((gen.localDaBits s.batches n).half 0))
  else do
    let dabit ← link (recvDaBitBatch n)
    record (s.pushDaBits dabit)

def checkBoolTriples (n : ℕ) : StoreM Unit := do
  let s ← current
  if s.btripleStore.size < n then addBoolTriples gen (n - s.btripleStore.size) else pure ()

def checkDaBits (n : ℕ) : StoreM Unit := do
  let s ← current
  if s.dabitStore.size < n then addDaBits gen (n - s.dabitStore.size) else pure ()

def getBoolTriple : StoreM BooleanBeaverTriple := do
  checkBoolTriples gen 1
  let s ← current
  match s.btripleStore.pop with
  | none => fail .emptyQueue
  | some (ans, rest) => do
    record { s with btripleStore := rest }
    return ans.2

def getDaBit : StoreM DaBit := do
  checkDaBits gen 1
  let s ← current
  match s.dabitStore.pop with
  | none => fail .emptyQueue
  | some (ans, rest) => do
    record { s with dabitStore := rest }
    return ans.2

/-- `maybeUpdate`, in which the triples are disabled by their target of zero. -/
def maybeUpdate : StoreM Unit := do
  let s ← current
  let makeDa := if s.dabitStore.size < s.batchSize / 2 then 1 else 0
  let daTarget := 2 * makeDa
  let btripTarget := 0
  let _ ← if s.btripleStore.size < btripTarget * s.batchSize % 2 ^ 64 then
    addBoolTriples gen (btripTarget * s.batchSize % 2 ^ 64) else pure ()
  let t ← current
  if t.dabitStore.size < daTarget * t.batchSize % 2 ^ 64 then addDaBits gen (daTarget * t.batchSize % 2 ^ 64)
  else pure ()

/-- The masked factors of `multiplyBoolShares`, `d_this` from `x` and the first bits of the triples, `e_this` from `y`
and the second. -/
def maskedFactors (n : ℕ) (mask : ℕ → Bool) (x : ℕ → Bool) : List Bool :=
  (List.range n).map fun i => x i ^^ mask i

/-- The products of `multiplyBoolShares`, from the opened factors. -/
def productShares (serverNum n : ℕ) (triples : ℕ → BooleanBeaverTriple) (x y : ℕ → Bool) (dOther eOther : List Bool) :
    List Bool :=
  (List.range n).map fun i =>
    let d := x i ^^ (triples i).a ^^ dOther.getD i false
    let e := y i ^^ (triples i).b ^^ eOther.getD i false
    (triples i).c ^^ ((x i && e) ^^ (y i && d)) ^^ (serverNum = 0 && (d && e))

/-- The rounds of messages of `multiplyBoolShares`. -/
def openFactors (serverNum n : ℕ) (triples : ℕ → BooleanBeaverTriple) (x y : ℕ → Bool) : Server (List Bool) := do
  sendMsg (.boolBatch (maskedFactors n (fun i => (triples i).a) x))
  sendMsg (.boolBatch (maskedFactors n (fun i => (triples i).b) y))
  let dOther ← recvBoolBatch n
  let eOther ← recvBoolBatch n
  return productShares serverNum n triples x y dOther eOther

def multiplyBoolShares (n : ℕ) (x y : ℕ → Bool) : StoreM (List Bool) := do
  checkBoolTriples gen n
  let triples ← takeMany (getBoolTriple gen) n
  let s ← current
  link (openFactors s.serverNum n (fun i => triples.getD i ⟨false, false, false⟩) x y)

/-- `max_bits` of `addBinaryShares`. -/
def maxBits (n : ℕ) (numBits : ℕ → ℕ) : ℕ :=
  (List.range n).foldl (fun m i => if numBits i > m then numBits i else m) 0

/-- The numbers that still have a bit `j`. -/
def active (n : ℕ) (numBits : ℕ → ℕ) (j : ℕ) : List ℕ := (List.range n).filter fun i => j < numBits i

/-- One level of `addBinaryShares`, on the carries and the sums so far. -/
def addLevel (n : ℕ) (numBits : ℕ → ℕ) (x y : ℕ → ℕ → Bool) (j : ℕ) (c : (ℕ → Bool) × (ℕ → ℕ → Bool)) :
    StoreM ((ℕ → Bool) × (ℕ → ℕ → Bool)) := do
  let idx := active n numBits j
  let xi := fun k => c.1 (idx.getD k 0) ^^ x (idx.getD k 0) j
  let yi := fun k => c.1 (idx.getD k 0) ^^ y (idx.getD k 0) j
  let newCarry ← multiplyBoolShares gen idx.length xi yi
  return (fun i => if i ∈ idx then c.1 i ^^ newCarry.getD (idx.idxOf i) false else c.1 i,
    fun i k => if k = j ∧ i ∈ idx then c.1 i ^^ x i j ^^ y i j else c.2 i k)

/-- `addBinaryShares`: the carries and the sums. -/
def addBinaryShares (n : ℕ) (numBits : ℕ → ℕ) (x y : ℕ → ℕ → Bool) : StoreM ((ℕ → Bool) × (ℕ → ℕ → Bool)) := do
  inRange (n < 2 ^ 32)
  checkBoolTriples gen (offset numBits n % 2 ^ 64)
  countTo (2 ^ 32) .counter (maxBits n numBits) (addLevel gen n numBits x y) (fun _ => false, fun _ _ => false)

def b2aDaBitSingle (x : List Bool) : StoreM (List ℤ) := do
  checkDaBits gen x.length
  let dabits ← takeMany (getDaBit gen) x.length
  let s ← current
  link (openDaBits s.serverNum (fun i => dabits.getD i ⟨0, false⟩) x)

def b2aDaBitMulti (n : ℕ) (numBits : ℕ → ℕ) (x : ℕ → ℤ) : StoreM (List ℤ) := do
  inRange (n < 2 ^ 32)
  checkDaBits gen (offset numBits n % 2 ^ 64)
  inRange (∀ i < n, numBits i < 2 ^ 32)
  let tmp ← b2aDaBitSingle gen (valueBits n numBits fun i j => (x i).testBit j)
  return multiSums n numBits tmp

end Operations

end CorrelatedStore

end PrioPlus

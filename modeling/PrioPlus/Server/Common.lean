import Mathlib.Algebra.Order.Ring.Rat
import Mathlib.Tactic.Linarith
import Mathlib.Tactic.NormNum
import PrioPlus.Lib.FirstWins
import PrioPlus.Server.Net

/-!
# What the operations of `server.cpp` share

The initial message, the return type, the maps from keys to submissions and the threshold of valid submissions.
-/

namespace PrioPlus

open Lib.FirstWins

inductive MessageType where
  | noneOp
  | bitSum
  | intSum
  | andOp
  | orOp
  | maxOp
  | minOp
  | varOp
  | stddevOp
  | linregOp
  | freqOp
  | countMinOp
  | heavyOp
deriving DecidableEq

/-- The sizes of an `initMsg`. The two operations that also read its type take the type on its own. -/
structure InitMsg where
  numBits : UInt32
  numOfInputs : UInt32
  maxInp : UInt32

inductive ReturnType where
  | invalid
  | ans
  | noAns
deriving DecidableEq

/-- A map from keys to what the server keeps of a submission. -/
abbrev ShareMap (V : Type) := AList fun _ : Pk => V

/-- A submission to `int_sum` and to `xor_op`. -/
structure IntShare where
  pk : Pk
  val : UInt64

def IntShare.entry (s : IntShare) : Pk × UInt64 := (s.pk, s.val)

/-- A submission to `max_op`: `B + 1` words, where `B + 1` is computed in 32 bits. -/
structure MaxShare (B : UInt32) where
  pk : Pk
  arr : Vector UInt64 (B + 1).toNat

/-- The iteration order of a `std::unordered_map`: some order of the entries. -/
structure Iteration (V : Type) where
  order : ShareMap V → List (Sigma fun _ : Pk => V)
  perm : ∀ m, (order m).Perm m.entries

/-- `num_valid < total_inputs * (1 - INVALID_THRESHOLD)`. Both counts are exact in a `double`. -/
def belowThreshold (numValid total : ℕ) : Bool := decide ((numValid : ℚ) < total * (1 - 1 / 2))

theorem belowThreshold_iff (numValid total : ℕ) : belowThreshold numValid total = true ↔ 2 * numValid < total := by
  have hcast : ((2 * numValid : ℕ) : ℚ) < total ↔ 2 * numValid < total := Nat.cast_lt
  rw [belowThreshold, decide_eq_true_iff, ← hcast]
  push_cast
  constructor <;> intro h <;> linarith

namespace Iteration

variable {V : Type} (it : Iteration V) (m : ShareMap V)

instance : Inhabited (Iteration V) := ⟨AList.entries, fun m => List.Perm.refl m.entries⟩

theorem length_order : (it.order m).length = m.entries.length := (it.perm m).length_eq

end Iteration

end PrioPlus

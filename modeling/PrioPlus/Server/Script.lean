import PrioPlus.Server.BitSum
import PrioPlus.Server.Freq
import PrioPlus.Server.IntSum
import PrioPlus.Server.LinReg
import PrioPlus.Server.MaxOp
import PrioPlus.Server.Sketch

/-!
# The dispatch of `main`

A request is an operation with the sizes of its `initMsg`. `Operation.script` is what a server runs for it, from the
submissions of its clients and from what it has of its own.
-/

namespace PrioPlus

/-- The operations, with the degree or the sizes that the clients send after the `initMsg`. -/
inductive Operation where
  | bitSum
  | intSum
  | andOp
  | orOp
  | maxOp
  | minOp
  | varOp
  | stddevOp
  | linregOp (degree : ℕ)
  | freqOp
  | countMinOp (cfg : HeavyConfig)
  | heavyOp (cfg : HeavyConfig)

/-- What the servers share before a request: the synced randomness, the hash functions and the matrix inverse of the
library. -/
structure Shared where
  sync : SnipSync
  seed : HashSeed
  fmpqMatInv : (n : ℕ) → FmpqMatInv n

/-- What one server brings: the order of its map, the random words of its generator, the daBits that `checkDaBits` has
left in its store, whatever is in memory that it does not set, and the submissions that it received. -/
structure Side (V S : Type) (n : ℕ) where
  it : Iteration V
  prg : ℕ → UInt64
  dabits : ℕ → DaBit
  heap : ℕ → UInt64
  fresh : ℕ → ℕ → UInt64
  uninit : ℕ → Bool
  submissions : Vector S n

namespace Operation

variable (msg : InitMsg)

/-- What the map of a server holds for a key. -/
def Kept : Operation → Type
  | .bitSum => Bool
  | .intSum | .andOp | .orOp => UInt64
  | .maxOp | .minOp => ℕ
  | .varOp | .stddevOp => VarSubmission
  | .linregOp degree => LinRegSubmission degree
  | .freqOp => Vector Bool (maxInp msg)
  | .countMinOp cfg => Vector Bool (cfg.d * cfg.w)
  | .heavyOp cfg => Vector Bool (shareSize msg.numBits cfg)

def Submission : Operation → Type
  | .bitSum => BitShare
  | .intSum | .andOp | .orOp => IntShare
  | .maxOp | .minOp => MaxShare msg.maxInp
  | .varOp | .stddevOp => VarSubmission
  | .linregOp degree => LinRegSubmission degree
  | .freqOp => FreqShare (maxInp msg)
  | .countMinOp cfg => FreqShare (cfg.d * cfg.w)
  | .heavyOp cfg => FreqShare (shareSize msg.numBits cfg)

def Result : Operation → Type
  | .bitSum => BitSumResult
  | .intSum => IntSumResult
  | .andOp | .orOp => XorOpResult
  | .maxOp | .minOp => MaxOpResult
  | .varOp | .stddevOp => VarResult
  | .linregOp degree => LinRegResult degree
  | .freqOp => FreqResult
  | .countMinOp _ | .heavyOp _ => TableResult (List UInt64)

/-- The key of a submission. -/
def pk : (op : Operation) → op.Submission msg → Pk
  | .bitSum, s => BitShare.pk s
  | .intSum, s | .andOp, s | .orOp, s => IntShare.pk s
  | .maxOp, s | .minOp, s => MaxShare.pk s
  | .varOp, s | .stddevOp, s => (VarSubmission.share s).pk
  | .linregOp _, s => (LinRegSubmission.share s).pk
  | .freqOp, s | .countMinOp _, s | .heavyOp _, s => FreqShare.pk s

/-- The checks on receipt, apart from the one for known keys. -/
def survives : (op : Operation) → op.Submission msg → Bool
  | .intSum, s => decide (IntShare.val s < maxVal msg.numBits)
  | .varOp, s | .stddevOp, s => varOk msg s
  | .linregOp _, s => linregOk msg s
  | .bitSum, _ | .andOp, _ | .orOp, _ | .maxOp, _ | .minOp, _ | .freqOp, _ | .countMinOp _, _ | .heavyOp _, _ => true

/-- The program of a server. -/
def script (shared : Shared) (serverNum : ℕ) : (op : Operation) →
    Side (op.Kept msg) (op.Submission msg) msg.numOfInputs.toNat → Server op.Result
  | .bitSum, side => PrioPlus.bitSum side.it side.prg msg serverNum side.submissions
  | .intSum, side => PrioPlus.intSum side.it side.prg side.heap msg serverNum side.submissions
  | .andOp, side => xorOp side.it .andOp msg serverNum side.submissions
  | .orOp, side => xorOp side.it .orOp msg serverNum side.submissions
  | .maxOp, side => PrioPlus.maxOp side.it side.heap .maxOp msg serverNum side.submissions
  | .minOp, side => PrioPlus.maxOp side.it side.heap .minOp msg serverNum side.submissions
  | .varOp, side | .stddevOp, side => PrioPlus.varOp shared.sync side.it side.prg msg serverNum side.submissions
  | .linregOp degree, side =>
    PrioPlus.linregOp (shared.fmpqMatInv degree) shared.sync side.it side.prg side.fresh msg serverNum side.submissions
  | .freqOp, side => PrioPlus.freqOp msg side.it side.dabits side.uninit serverNum side.submissions
  | .countMinOp cfg, side =>
    PrioPlus.countMinOp shared.seed cfg msg side.it side.dabits serverNum side.submissions
  | .heavyOp cfg, side => PrioPlus.heavyOp shared.seed cfg msg side.it side.dabits serverNum side.submissions

end Operation

end PrioPlus

import PrioPlus.Poly.Once
import PrioPlus.Snip.SharePolynomials

/-!
# The servers' check of a packet, `server.h`

`Checker` imports the wires of its server, evaluates the shares of `f`, `g` and `h` at the common point and keeps
the three values. `corShareFn` is the message of the Beaver multiplication `f * (x g)`, `outShare` the share of the
random combination of `x (f g - h)` and of the result gates, and `addToZero` the verdict.
-/

namespace PrioPlus

/-- `CheckerPreComp`: the nodes of the `N`-th and `2N`-th roots, prepared for the point `x`. -/
structure CheckerPreComp where
  x : ℤ
  degN : Precomp
  deg2N : Precomp
  xN : PrecompX
  x2N : PrecompX

/-- The constructor `CheckerPreComp(N)` and `setCheckerPrecomp(val)`. -/
def setCheckerPrecomp (K : Constants) (t : RootTables) (N : ℕ) (val : ℤ) : CheckerPreComp :=
  let degN := polyBatchPrecompInit K.intModulus N (t.roots.getD · 0)
  let deg2N := polyBatchPrecompInit K.intModulus (2 * N) (t.roots2.getD · 0)
  { x := val, degN := degN, deg2N := deg2N, xN := precompXInit degN val, x2N := precompXInit deg2N val }

/-- `Checker`, with the wires that `ImportWires` left in its circuit. -/
structure Checker where
  serverNum : ℕ
  req : ClientPacket
  ckt : Circuit
  wire : ℕ → ℤ
  evalF : ℤ
  evalG : ℤ
  evalH : ℤ

/-- `pointsF` of `evalPoly`. -/
def checkerPointsF (c : Circuit) (req : ClientPacket) (wire : ℕ → ℤ) (i : ℕ) : ℤ :=
  (padTo (nextPowerOfTwo c.numMulGates + 1) (req.f0S :: c.leftWires wire)).getD i 0

/-- `pointsG` of `evalPoly`. -/
def checkerPointsG (c : Circuit) (req : ClientPacket) (wire : ℕ → ℤ) (i : ℕ) : ℤ :=
  (padTo (nextPowerOfTwo c.numMulGates + 1) (req.g0S :: c.rightWires wire)).getD i 0

/-- `pointsH` of `evalPoly`: the odd entries come from the packet, the even ones are `h(0)`, the outputs of the
multiplication gates and zeros. -/
def checkerPointsH (c : Circuit) (req : ClientPacket) (wire : ℕ → ℤ) (i : ℕ) : ℤ :=
  if i % 2 = 1 then req.hPoints.getD (i / 2) 0 else (req.h0S :: c.outWires wire).getD (i / 2) 0

/-- The constructor of `Checker`: `ImportWires`, then `evalPoly`. -/
def Checker.new (K : Constants) (c : Circuit) (stale : ℕ → ℤ) (idx : ℕ) (req : ClientPacket)
    (pre : CheckerPreComp) (inputShares : ℕ → ℤ) : Checker :=
  let wire := c.importWires K stale req idx inputShares
  { serverNum := idx
    req := req
    ckt := c
    wire := wire
    evalF := precompXEval pre.xN (checkerPointsF c req wire)
    evalG := precompXEval pre.xN (checkerPointsG c req wire) * pre.x % K.intModulus
    evalH := precompXEval pre.x2N (checkerPointsH c req wire) * pre.x % K.intModulus }

namespace Checker

def corShareFn (K : Constants) (s : Checker) : CorShare :=
  { shareD := (s.evalF - s.req.tripleShare.shareA) % K.intModulus
    shareE := (s.evalG - s.req.tripleShare.shareB) % K.intModulus }

/-- `mulCheck` of `OutShare`. Only server 0 adds the public product. -/
def mulCheck (K : Constants) (s : Checker) (corIn : Cor) : ℤ :=
  let p : ℤ := K.intModulus
  let opened := if s.serverNum = 0 then corIn.d * corIn.e % p else 0
  let withB := (opened + corIn.d * s.req.tripleShare.shareB % p) % p
  let withA := (withB + corIn.e * s.req.tripleShare.shareA % p) % p
  let withC := (withA + s.req.tripleShare.shareC) % p
  (withC - s.evalH) % p

/-- The array `arr` of `OutShare`. -/
def outTerms (K : Constants) (s : Checker) (corIn : Cor) : List ℤ :=
  s.mulCheck K corIn :: s.ckt.resultZero.map s.wire

/-- `randSum`, with the coefficients that the common generator draws. -/
def randSum (K : Constants) (coeff : ℕ → ℤ) (arr : List ℤ) : ℤ :=
  (List.range arr.length).foldl (fun out i => out + coeff i * arr.getD i 0 % K.intModulus) 0 % K.intModulus

def outShare (K : Constants) (s : Checker) (corIn : Cor) (coeff : ℕ → ℤ) : ℤ :=
  randSum K coeff (s.outTerms K corIn)

end Checker

def addToZero (K : Constants) (x y : ℤ) : Bool := (x + y) % K.intModulus = 0

/-- The verdict after the two servers exchanged their `CorShare`s and their `OutShare`s. -/
def snipAccepts (K : Constants) (s0 s1 : Checker) (coeff : ℕ → ℤ) : Bool :=
  let cor0 := Cor.ofShares K (s0.corShareFn K) (s1.corShareFn K)
  let cor1 := Cor.ofShares K (s1.corShareFn K) (s0.corShareFn K)
  addToZero K (s0.outShare K cor0 coeff) (s1.outShare K cor1 coeff)

end PrioPlus

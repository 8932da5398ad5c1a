import Mathlib.Data.List.GetD
import PrioPlus.Circuit
import PrioPlus.Poly.Fft

/-!
# The client's packets, `share_polynomials` of `client.h`

The client interpolates `f` and `g` through the left and right inputs of the multiplication gates at the powers of
an `N`-th root of unity, evaluates both at the `2N`-th roots and shares the products at the odd ones. The even
values of `h = f * g` are the outputs of the multiplication gates, which the client shares as they are.
-/

namespace PrioPlus

/-- The draws of one `share_polynomials`, by the call that makes them. -/
structure ShareDraws where
  f0 : ℤ
  g0 : ℤ
  hMask : ℕ → ℤ
  f0Mask : ℤ
  g0Mask : ℤ
  h0Mask : ℤ
  mulMask : ℕ → ℤ
  tripleA : ℤ
  tripleB : ℤ
  maskA : ℤ
  maskB : ℤ
  maskC : ℤ

/-- A fresh array of `n` zeros with `xs` written to its front. -/
def padTo (n : ℕ) (xs : List ℤ) : List ℤ := xs ++ List.replicate (n - xs.length) 0

@[simp] theorem getD_padTo (n : ℕ) (xs : List ℤ) (i : ℕ) : (padTo n xs).getD i 0 = xs.getD i 0 := by
  rw [padTo]
  rcases Nat.lt_or_ge i xs.length with hlt | hge
  · rw [List.getD_append _ _ _ _ hlt]
  · rw [List.getD_append_right _ _ _ _ hge, List.getD_eq_default _ _ hge]
    simp [List.getD_eq_getElem?_getD, List.getElem?_replicate]
    split <;> rfl

namespace Circuit

/-- The left input wires of the multiplication gates, in order. -/
def leftWires (c : Circuit) (wire : ℕ → ℤ) : List ℤ := c.mulGates.map fun g => wire (c.gate g).parentL

/-- The right input wires of the multiplication gates. -/
def rightWires (c : Circuit) (wire : ℕ → ℤ) : List ℤ := c.mulGates.map fun g => wire (c.gate g).parentR

/-- The output wires of the multiplication gates. -/
def outWires (c : Circuit) (wire : ℕ → ℤ) : List ℤ := c.mulGates.map wire

theorem getD_map_mulGates_of_none {c : Circuit} {i : ℕ} (hi : c.mulGates[i]? = none) (f : ℕ → ℤ) :
    (c.mulGates.map f).getD i 0 = 0 := by
  simp [List.getD_eq_getElem?_getD, hi]

section Entries

variable {c : Circuit} {i g : ℕ} (hg : c.mulGates[i]? = some g) (wire : ℕ → ℤ)
include hg

theorem getD_map_mulGates (f : ℕ → ℤ) : (c.mulGates.map f).getD i 0 = f g := by
  rw [List.getD_eq_getElem?_getD, List.getElem?_map, hg, Option.map_some, Option.getD_some]

theorem getD_leftWires : (c.leftWires wire).getD i 0 = wire (c.gate g).parentL := getD_map_mulGates hg _

theorem getD_rightWires : (c.rightWires wire).getD i 0 = wire (c.gate g).parentR := getD_map_mulGates hg _

theorem getD_outWires : (c.outWires wire).getD i 0 = wire g := getD_map_mulGates hg _

end Entries

def getMulShares (K : Constants) (c : Circuit) (wire mask : ℕ → ℤ) : List (ℤ × ℤ) :=
  (List.range c.numMulGates).map fun i => splitShare K ((c.outWires wire).getD i 0) (mask i)

end Circuit

/-- The root tables after the null check of `share_polynomials`. -/
def clientRoots (K : Constants) (t : RootTables) (N : ℕ) : RootTables :=
  if t.roots = [] then initRoots K t N else t

section SharePolynomials

variable (K : Constants) (t : RootTables) (c : Circuit)

/-- `evalsF` or `evalsG`: interpolate through the points at the `N`-th roots, evaluate at the `2N`-th roots. -/
def evalsOnRoots (N : ℕ) (points : List ℤ) : List ℤ :=
  let poly := fftInterpolate K.intModulus N t.invroots points true
  fftInterpolate K.intModulus (2 * N) t.roots2 (padTo (2 * N) poly) false

/-- `share_polynomials`, on the wires that `Eval` left in the circuit. It may build the root tables. -/
def sharePolynomials (wire : ℕ → ℤ) (d : ShareDraws) : RootTables × ClientPacket × ClientPacket :=
  let n := c.numMulGates
  let N := nextPowerOfTwo n
  let pointsF := padTo N (d.f0 :: c.leftWires wire)
  let pointsG := padTo N (d.g0 :: c.rightWires wire)
  let h0 := pointsF.getD 0 0 * pointsG.getD 0 0 % K.intModulus
  let t := clientRoots K t N
  let evalsF := evalsOnRoots K t N pointsF
  let evalsG := evalsOnRoots K t N pointsG
  let hPoints := (List.range N).map fun j =>
    splitShare K (evalsF.getD (2 * j + 1) 0 * evalsG.getD (2 * j + 1) 0 % K.intModulus) (d.hMask j)
  let f0 := splitShare K (pointsF.getD 0 0) d.f0Mask
  let g0 := splitShare K (pointsG.getD 0 0) d.g0Mask
  let h0 := splitShare K h0 d.h0Mask
  let mulShares := c.getMulShares K wire d.mulMask
  let triple := newBeaverTriple K d.tripleA d.tripleB
  let tripleShares := beaverTripleShares K triple d.maskA d.maskB d.maskC
  (t,
    { nMul := n, mulShares := mulShares.map Prod.fst, f0S := f0.1, g0S := g0.1, h0S := h0.1
      hPoints := hPoints.map Prod.fst, tripleShare := tripleShares.1
      mulShares_length := by simp [mulShares, Circuit.getMulShares, n]
      hPoints_length := by simp [hPoints, N] },
    { nMul := n, mulShares := mulShares.map Prod.snd, f0S := f0.2, g0S := g0.2, h0S := h0.2
      hPoints := hPoints.map Prod.snd, tripleShare := tripleShares.2
      mulShares_length := by simp [mulShares, Circuit.getMulShares, n]
      hPoints_length := by simp [hPoints, N] })

end SharePolynomials

end PrioPlus

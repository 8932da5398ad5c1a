import Mathlib.Tactic.DeriveFintype
import PrioPlus.Lib.Views
import PrioPlus.Snip.Completeness

/-!
# What one server learns from a packet

A server sees its packet, the message `[d], [e]` of the other server and the output that the other server sends. For an
honest client with valid inputs every such view comes from as many draws as for any other valid inputs with the same
share on this server (`snipView_hits_eq`): from the draws for one input those for the other are found by shifting the
triple by the difference of `f(x)` and of `x g(x)`, and on the side of server 1 also each mask by the difference of the
value that it hides (`shift`). The output of the other server is the negative of the server's own, since the packet is
accepted.
-/

namespace PrioPlus

open Finset Polynomial Lib.Views

/-! ### The draws -/

/-- The draws of one `share_polynomials`, for `n` multiplication gates and tables of size `N`. -/
inductive DrawSite (n N : ℕ) where
  | f0
  | g0
  | hMask (j : Fin N)
  | f0Mask
  | g0Mask
  | h0Mask
  | mulMask (i : Fin n)
  | tripleA
  | tripleB
  | maskA
  | maskB
  | maskC
deriving DecidableEq, Fintype

/-- What `fmpz_randm` draws for each of them, below the modulus. -/
abbrev DrawTape (K : Constants) (c : Circuit) : Type :=
  DrawSite c.numMulGates (nextPowerOfTwo c.numMulGates) → ZMod K.intModulus

theorem cast_val {p : ℕ} [NeZero p] (z : ZMod p) : ((z.val : ℤ) : ZMod p) = z := by
  rw [Int.cast_natCast, ZMod.natCast_zmod_val]

/-- The draws as integers. -/
def DrawTape.draws {K : Constants} {c : Circuit} (tape : DrawTape K c) : ShareDraws where
  f0 := (tape .f0).val
  g0 := (tape .g0).val
  hMask j := if h : j < nextPowerOfTwo c.numMulGates then (tape (.hMask ⟨j, h⟩)).val else 0
  f0Mask := (tape .f0Mask).val
  g0Mask := (tape .g0Mask).val
  h0Mask := (tape .h0Mask).val
  mulMask i := if h : i < c.numMulGates then (tape (.mulMask ⟨i, h⟩)).val else 0
  tripleA := (tape .tripleA).val
  tripleB := (tape .tripleB).val
  maskA := (tape .maskA).val
  maskB := (tape .maskB).val
  maskC := (tape .maskC).val

/-! ### Views -/

deriving instance DecidableEq for ClientPacket

/-- What a server sees of one check, besides its own shares of the inputs and what both servers know. -/
structure SnipView where
  packet : ClientPacket
  corShareOther : CorShare
  validShareOther : ℤ
deriving DecidableEq

namespace SnipInstance

variable (K : Constants) (S : SnipInstance) (x : ℤ) (coeff : ℕ → ℤ)

def view0 : SnipView where
  packet := S.packet0
  corShareOther := (S.checker1 K x).corShareFn K
  validShareOther :=
    (S.checker1 K x).outShare K (Cor.ofShares K ((S.checker1 K x).corShareFn K) ((S.checker0 K x).corShareFn K)) coeff

def view1 : SnipView where
  packet := S.packet1
  corShareOther := (S.checker0 K x).corShareFn K
  validShareOther :=
    (S.checker0 K x).outShare K (Cor.ofShares K ((S.checker0 K x).corShareFn K) ((S.checker1 K x).corShareFn K)) coeff

end SnipInstance

/-- The check of an honest client's packets: its inputs, the shares of the two servers, and its draws. -/
def honestCheck (K : Constants) (t : RootTables) (c : Circuit) (inps in0 in1 : ℕ → ℤ) (tape : DrawTape K c) :
    SnipInstance :=
  let packets := (sharePolynomials K t c (c.evalWires K (fun _ => 0) inps) tape.draws).2
  ⟨c, packets.1, packets.2, in0, in1, fun _ => 0, fun _ => 0⟩

/-! ### The polynomials of a client at the point -/

section Shift

variable (K : Constants) (t : RootTables) (c : Circuit) (x : ℤ)

/-- The wires of the client. -/
def clientWire (inps : ℕ → ℤ) : ℕ → ℤ := c.evalWires K (fun _ => 0) inps

/-- The value at `x` of the polynomial through the first value and the wires, at the roots of the tables. -/
noncomputable def throughWires (wires : List ℤ) (first : ℤ) : ZMod K.intModulus :=
  (Lagrange.interpolate (range (nextPowerOfTwo c.numMulGates))
    (fun i => (((buildRoots K (nextPowerOfTwo c.numMulGates)).roots.getD i 0 : ℤ) : ZMod K.intModulus))
    fun i => (((first :: wires).getD i 0 : ℤ) : ZMod K.intModulus)).eval (x : ZMod K.intModulus)

/-- `f(x)` for the draw of `f(0)`. -/
noncomputable def clientF (inps : ℕ → ℤ) (f0 : ℤ) : ZMod K.intModulus :=
  throughWires K c x (c.leftWires (clientWire K c inps)) f0

/-- `x g(x)` for the draw of `g(0)`. -/
noncomputable def clientXG (inps : ℕ → ℤ) (g0 : ℤ) : ZMod K.intModulus :=
  x * throughWires K c x (c.rightWires (clientWire K c inps)) g0

/-- The value that `share_polynomials` splits into the entries `j` of `h_points`. -/
def hValue (inps : ℕ → ℤ) (f0 g0 : ℤ) (j : ℕ) : ℤ :=
  let N := nextPowerOfTwo c.numMulGates
  let evalsF := evalsOnRoots K (clientRoots K t N) N (padTo N (f0 :: c.leftWires (clientWire K c inps)))
  let evalsG := evalsOnRoots K (clientRoots K t N) N (padTo N (g0 :: c.rightWires (clientWire K c inps)))
  evalsF.getD (2 * j + 1) 0 * evalsG.getD (2 * j + 1) 0 % K.intModulus

variable (inps inps' : ℕ → ℤ)

/-- The draw of the triple's `a` that leaves `[d]` as it was when the inputs change. -/
noncomputable def shiftedA (tape : DrawTape K c) : ZMod K.intModulus :=
  tape .tripleA + (clientF K c x inps' (tape .f0).val - clientF K c x inps (tape .f0).val)

noncomputable def shiftedB (tape : DrawTape K c) : ZMod K.intModulus :=
  tape .tripleB + (clientXG K c x inps' (tape .g0).val - clientXG K c x inps (tape .g0).val)

/-- The draws for the inputs `inps'` under which the server sees what it sees under `tape` for `inps`. The masks are
what server 0 gets, and server 1 gets the rest. -/
noncomputable def shift (serverNum : ℕ) (tape : DrawTape K c) : DrawTape K c := fun site =>
  match site with
  | .tripleA => shiftedA K c x inps inps' tape
  | .tripleB => shiftedB K c x inps inps' tape
  | .hMask j => tape site + if serverNum = 0 then 0 else
      (hValue K t c inps' (tape .f0).val (tape .g0).val j - hValue K t c inps (tape .f0).val (tape .g0).val j : ℤ)
  | .mulMask i => tape site + if serverNum = 0 then 0 else
      ((c.outWires (clientWire K c inps')).getD i 0 - (c.outWires (clientWire K c inps)).getD i 0 : ℤ)
  | .maskA => tape site + if serverNum = 0 then 0 else shiftedA K c x inps inps' tape - tape .tripleA
  | .maskB => tape site + if serverNum = 0 then 0 else shiftedB K c x inps inps' tape - tape .tripleB
  | .maskC => tape site + if serverNum = 0 then 0 else
      shiftedA K c x inps inps' tape * shiftedB K c x inps inps' tape - tape .tripleA * tape .tripleB
  | _ => tape site

/-- Every shift depends only on draws that are found again one after the other: first those of `f(0)` and `g(0)`, then
the triple, then the masks. -/
theorem shift_injective (serverNum : ℕ) : Function.Injective (shift K t c x inps inps' serverNum) := by
  intro tape tape' h
  have hsite : ∀ site, shift K t c x inps inps' serverNum tape site = shift K t c x inps inps' serverNum tape' site :=
    congrFun h
  have hf0 : tape .f0 = tape' .f0 := hsite .f0
  have hg0 : tape .g0 = tape' .g0 := hsite .g0
  have hA : tape .tripleA = tape' .tripleA := by
    have hshift := hsite .tripleA
    simp only [shift, shiftedA, hf0] at hshift
    exact add_right_cancel hshift
  have hB : tape .tripleB = tape' .tripleB := by
    have hshift := hsite .tripleB
    simp only [shift, shiftedB, hg0] at hshift
    exact add_right_cancel hshift
  funext site
  have hshift := hsite site
  cases site with
  | tripleA => exact hA
  | tripleB => exact hB
  | _ =>
    simp only [shift, shiftedA, shiftedB, hf0, hg0, hA, hB] at hshift
    first
    | exact add_right_cancel hshift
    | assumption

end Shift

/-! ### The check of an honest client -/

section Honest

variable {K : Constants} {t : RootTables} {c : Circuit} {inps in0 in1 : ℕ → ℤ}

/-- What both clients of a comparison satisfy, besides the shares that split their inputs. -/
structure HonestClient (K : Constants) (t : RootTables) (c : Circuit) (inps : ℕ → ℤ) : Prop where
  topological : c.Topological
  tables_eq : t = RootTables.unset ∨ t = buildRoots K (nextPowerOfTwo c.numMulGates)
  size_le : 2 * nextPowerOfTwo c.numMulGates ≤ 2 ^ K.twoOrder
  eval_eq : c.eval K (fun _ => 0) inps = true

/-- Shares of the inputs modulo `p`. -/
def SplitOf (K : Constants) (c : Circuit) (inps in0 in1 : ℕ → ℤ) : Prop :=
  ∀ i < c.numInputs, (in0 i + in1 i) % K.intModulus = inps i % K.intModulus

theorem honest_honestCheck (hclient : HonestClient K t c inps) (hsplit : SplitOf K c inps in0 in1)
    (tape : DrawTape K c) :
    (honestCheck K t c inps in0 in1 tape).Honest K t (fun _ => 0) inps tape.draws where
  topological := hclient.topological
  eval_eq := hclient.eval_eq
  tables_eq := hclient.tables_eq
  packets_eq := rfl
  split := hsplit

variable (hclient : HonestClient K t c inps) (hsplit : SplitOf K c inps in0 in1) {x : ℤ} (tape : DrawTape K c)
include hclient hsplit

theorem eval_polyF_honestCheck :
    ((honestCheck K t c inps in0 in1 tape).polyF K).eval (x : ZMod K.intModulus) =
      clientF K c x inps (tape .f0).val := by
  have hsum : (honestCheck K t c inps in0 in1 tape).sumF K = _ :=
    funext (honest_honestCheck hclient hsplit tape).sumF_eq
  rw [SnipInstance.polyF, hsum]
  rfl

theorem eval_polyG_honestCheck :
    x * ((honestCheck K t c inps in0 in1 tape).polyG K).eval (x : ZMod K.intModulus) =
      clientXG K c x inps (tape .g0).val := by
  have hsum : (honestCheck K t c inps in0 in1 tape).sumG K = _ :=
    funext (honest_honestCheck hclient hsplit tape).sumG_eq
  rw [SnipInstance.polyG, hsum]
  rfl

variable (hx : 0 ≤ x ∧ x < K.intModulus)
include hx

theorem cast_corShare1 :
    let S := honestCheck K t c inps in0 in1 tape
    (((S.checker1 K x).corShareFn K).shareD : ZMod K.intModulus) =
        clientF K c x inps (tape .f0).val - (S.checker0 K x).evalF - (tape .tripleA - tape .maskA) ∧
      (((S.checker1 K x).corShareFn K).shareE : ZMod K.intModulus) =
        clientXG K c x inps (tape .g0).val - (S.checker0 K x).evalG - (tape .tripleB - tape .maskB) := by
  intro S
  have hF := SnipInstance.cast_evalF_add (S := S) hclient.size_le hx
  have hG := SnipInstance.cast_evalG_add (S := S) hclient.size_le hx
  rw [eval_polyF_honestCheck hclient hsplit tape] at hF
  rw [eval_polyG_honestCheck hclient hsplit tape] at hG
  have hA : (S.checker1 K x).req.tripleShare.shareA = ((tape .tripleA).val - (tape .maskA).val : ℤ) % K.intModulus :=
    rfl
  have hB : (S.checker1 K x).req.tripleShare.shareB = ((tape .tripleB).val - (tape .maskB).val : ℤ) % K.intModulus :=
    rfl
  rw [← hF, ← hG]
  simp only [Checker.corShareFn, hA, hB, cast_emod, Int.cast_sub, cast_val]
  constructor <;> ring

theorem cast_corShare0 :
    let S := honestCheck K t c inps in0 in1 tape
    (((S.checker0 K x).corShareFn K).shareD : ZMod K.intModulus) =
        clientF K c x inps (tape .f0).val - (S.checker1 K x).evalF - tape .maskA ∧
      (((S.checker0 K x).corShareFn K).shareE : ZMod K.intModulus) =
        clientXG K c x inps (tape .g0).val - (S.checker1 K x).evalG - tape .maskB := by
  intro S
  have hF := SnipInstance.cast_evalF_add (S := S) hclient.size_le hx
  have hG := SnipInstance.cast_evalG_add (S := S) hclient.size_le hx
  rw [eval_polyF_honestCheck hclient hsplit tape] at hF
  rw [eval_polyG_honestCheck hclient hsplit tape] at hG
  have hA : (S.checker0 K x).req.tripleShare.shareA = ((tape .maskA).val : ℤ) := rfl
  have hB : (S.checker0 K x).req.tripleShare.shareB = ((tape .maskB).val : ℤ) := rfl
  rw [← hF, ← hG]
  simp only [Checker.corShareFn, hA, hB, cast_emod, Int.cast_sub, cast_val]
  constructor <;> ring

theorem outShare_cancel (coeff : ℕ → ℤ) :
    let S := honestCheck K t c inps in0 in1 tape
    ((S.checker0 K x).outShare K (Cor.ofShares K ((S.checker0 K x).corShareFn K) ((S.checker1 K x).corShareFn K)) coeff +
      (S.checker1 K x).outShare K (Cor.ofShares K ((S.checker1 K x).corShareFn K) ((S.checker0 K x).corShareFn K)) coeff :
        ZMod K.intModulus) = 0 := by
  intro S
  rw [← addToZero_iff]
  exact (honest_honestCheck hclient hsplit tape).accepts hclient.size_le hx coeff

end Honest

/-! ### The shifted draws -/

theorem splitShare_fst (K : Constants) (val r : ℤ) : (splitShare K val r).1 = r := rfl

theorem splitShare_snd_shift (K : Constants) (val val' : ℤ) (mask diff : ZMod K.intModulus)
    (hdiff : diff = (val' : ZMod K.intModulus) - val) :
    (splitShare K val' (mask + diff).val).2 = (splitShare K val mask.val).2 := by
  rw [splitShare, splitShare, ← cast_eq_iff_emod, Int.cast_sub, Int.cast_sub, cast_val, cast_val, hdiff]
  ring

section Packets

variable (K : Constants) (t : RootTables) (c : Circuit) (x : ℤ) (inps inps' : ℕ → ℤ)
  (own other other' : ℕ → ℤ) (tape : DrawTape K c)

theorem packet0_shift :
    (honestCheck K t c inps' own other' (shift K t c x inps inps' 0 tape)).packet0 =
      (honestCheck K t c inps own other tape).packet0 := by
  have hmul : (shift K t c x inps inps' 0 tape).draws.mulMask = tape.draws.mulMask := by
    funext i
    simp only [DrawTape.draws, shift, if_true, Int.cast_zero, add_zero]
  have hh : (shift K t c x inps inps' 0 tape).draws.hMask = tape.draws.hMask := by
    funext j
    simp only [DrawTape.draws, shift, if_true, Int.cast_zero, add_zero]
  simp only [honestCheck, sharePolynomials, Circuit.getMulShares, List.map_map, Function.comp_def, splitShare_fst,
    ClientPacket.mk.injEq, hmul, hh]
  refine ⟨trivial, trivial, rfl, rfl, rfl, trivial, ?_⟩
  simp only [beaverTripleShares, splitShare_fst, DrawTape.draws, shift, if_true, add_zero]

/-- Server 1 is sent the rest, and the masks move with what they hide. -/
theorem packet1_shift :
    (honestCheck K t c inps' other' own (shift K t c x inps inps' 1 tape)).packet1 =
      (honestCheck K t c inps other own tape).packet1 := by
  simp only [honestCheck, sharePolynomials, Circuit.getMulShares, List.map_map, ClientPacket.mk.injEq]
  refine ⟨trivial, ?_, rfl, rfl, rfl, ?_, ?_⟩
  · refine List.map_congr_left fun i hi => ?_
    have hi := List.mem_range.mp hi
    simp only [Function.comp_apply, DrawTape.draws, dif_pos hi, shift, if_neg one_ne_zero]
    exact splitShare_snd_shift K _ _ _ _ (Int.cast_sub _ _)
  · refine List.map_congr_left fun j hj => ?_
    have hj := List.mem_range.mp hj
    simp only [Function.comp_apply, DrawTape.draws, dif_pos hj, shift, if_neg one_ne_zero]
    exact splitShare_snd_shift K _ _ _ _ (Int.cast_sub _ _)
  · simp only [beaverTripleShares, newBeaverTriple, DrawTape.draws, shift, if_neg one_ne_zero,
      BeaverTripleShare.mk.injEq]
    refine ⟨splitShare_snd_shift K _ _ _ _ ?_, splitShare_snd_shift K _ _ _ _ ?_, splitShare_snd_shift K _ _ _ _ ?_⟩
    · rw [cast_val, cast_val]
    · rw [cast_val, cast_val]
    · rw [cast_emod, cast_emod, Int.cast_mul, Int.cast_mul, cast_val, cast_val, cast_val, cast_val]

end Packets

theorem emod_range (K : Constants) (z : ℤ) : 0 ≤ z % K.intModulus ∧ z % K.intModulus < K.intModulus := by
  have hpos : (0 : ℤ) < K.intModulus := Int.natCast_pos.mpr K.prime.pos
  exact ⟨Int.emod_nonneg _ hpos.ne', Int.emod_lt_of_pos _ hpos⟩

theorem outShare_other (K : Constants) {s0 s1 : Checker} {cor0 cor1 : Cor} {coeff : ℕ → ℤ}
    (h : (s0.outShare K cor0 coeff + s1.outShare K cor1 coeff : ZMod K.intModulus) = 0) :
    s1.outShare K cor1 coeff = -s0.outShare K cor0 coeff % K.intModulus := by
  refine eq_of_cast_eq (emod_range K _) (emod_range K _) ?_
  rw [cast_emod, Int.cast_neg]
  exact eq_neg_of_add_eq_zero_right h

section Views

variable {K : Constants} {t : RootTables} {c : Circuit} {inps inps' own other other' : ℕ → ℤ}
  (hclient : HonestClient K t c inps) (hclient' : HonestClient K t c inps') {x : ℤ} (hx : 0 ≤ x ∧ x < K.intModulus)
  (coeff : ℕ → ℤ) (tape : DrawTape K c)
include hclient hclient' hx

theorem view0_shift (hsplit : SplitOf K c inps own other) (hsplit' : SplitOf K c inps' own other') :
    (honestCheck K t c inps' own other' (shift K t c x inps inps' 0 tape)).view0 K x coeff =
      (honestCheck K t c inps own other tape).view0 K x coeff := by
  let S := honestCheck K t c inps own other tape
  let tape' := shift K t c x inps inps' 0 tape
  let S' := honestCheck K t c inps' own other' tape'
  have hpacket : S'.packet0 = S.packet0 := packet0_shift K t c x inps inps' own other other' tape
  have hchecker : S'.checker0 K x = S.checker0 K x := by
    rw [SnipInstance.checker0, SnipInstance.checker0, hpacket]
    rfl
  have hcor : (S'.checker1 K x).corShareFn K = (S.checker1 K x).corShareFn K := by
    obtain ⟨hd, he⟩ := cast_corShare1 hclient hsplit tape hx
    obtain ⟨hd', he'⟩ := cast_corShare1 hclient' hsplit' tape' hx
    have hevalF : ((S'.checker0 K x).evalF : ZMod K.intModulus) = (S.checker0 K x).evalF := by rw [hchecker]
    have hevalG : ((S'.checker0 K x).evalG : ZMod K.intModulus) = (S.checker0 K x).evalG := by rw [hchecker]
    have hmaskA : tape' .maskA = tape .maskA := add_zero _
    have hmaskB : tape' .maskB = tape .maskB := add_zero _
    rw [CorShare.mk.injEq]
    refine ⟨eq_of_cast_eq (emod_range K _) (emod_range K _) ?_, eq_of_cast_eq (emod_range K _) (emod_range K _) ?_⟩
    · refine hd'.trans (Eq.trans ?_ hd.symm)
      rw [hevalF, hmaskA]
      simp only [tape', shift, shiftedA]
      ring
    · refine he'.trans (Eq.trans ?_ he.symm)
      rw [hevalG, hmaskB]
      simp only [tape', shift, shiftedB]
      ring
  have hout := outShare_other K (outShare_cancel hclient hsplit tape hx coeff)
  have hout' := outShare_other K (outShare_cancel hclient' hsplit' tape' hx coeff)
  rw [SnipInstance.view0, SnipInstance.view0, SnipView.mk.injEq]
  refine ⟨hpacket, hcor, hout'.trans (Eq.trans ?_ hout.symm)⟩
  rw [show SnipInstance.checker0 K _ x = S.checker0 K x from hchecker,
    show (SnipInstance.checker1 K _ x).corShareFn K = (S.checker1 K x).corShareFn K from hcor]

theorem view1_shift (hsplit : SplitOf K c inps other own) (hsplit' : SplitOf K c inps' other' own) :
    (honestCheck K t c inps' other' own (shift K t c x inps inps' 1 tape)).view1 K x coeff =
      (honestCheck K t c inps other own tape).view1 K x coeff := by
  let S := honestCheck K t c inps other own tape
  let tape' := shift K t c x inps inps' 1 tape
  let S' := honestCheck K t c inps' other' own tape'
  have hpacket : S'.packet1 = S.packet1 := packet1_shift K t c x inps inps' own other other' tape
  have hchecker : S'.checker1 K x = S.checker1 K x := by
    rw [SnipInstance.checker1, SnipInstance.checker1, hpacket]
    rfl
  have hcor : (S'.checker0 K x).corShareFn K = (S.checker0 K x).corShareFn K := by
    obtain ⟨hd, he⟩ := cast_corShare0 hclient hsplit tape hx
    obtain ⟨hd', he'⟩ := cast_corShare0 hclient' hsplit' tape' hx
    have hevalF : ((S'.checker1 K x).evalF : ZMod K.intModulus) = (S.checker1 K x).evalF := by rw [hchecker]
    have hevalG : ((S'.checker1 K x).evalG : ZMod K.intModulus) = (S.checker1 K x).evalG := by rw [hchecker]
    rw [CorShare.mk.injEq]
    refine ⟨eq_of_cast_eq (emod_range K _) (emod_range K _) ?_, eq_of_cast_eq (emod_range K _) (emod_range K _) ?_⟩
    · refine hd'.trans (Eq.trans ?_ hd.symm)
      rw [hevalF]
      simp only [tape', shift, shiftedA, if_neg one_ne_zero]
      ring
    · refine he'.trans (Eq.trans ?_ he.symm)
      rw [hevalG]
      simp only [tape', shift, shiftedB, if_neg one_ne_zero]
      ring
  have hout := outShare_other K ((add_comm _ _).trans (outShare_cancel hclient hsplit tape hx coeff))
  have hout' := outShare_other K ((add_comm _ _).trans (outShare_cancel hclient' hsplit' tape' hx coeff))
  rw [SnipInstance.view1, SnipInstance.view1, SnipView.mk.injEq]
  refine ⟨hpacket, hcor, hout'.trans (Eq.trans ?_ hout.symm)⟩
  rw [show SnipInstance.checker1 K _ x = S.checker1 K x from hchecker,
    show (SnipInstance.checker0 K _ x).corShareFn K = (S.checker0 K x).corShareFn K from hcor]

end Views

/-- SNIP zero knowledge: whatever a server sees of the check of one client, with its own shares of the inputs, it sees
under equally many draws for any other inputs that satisfy the circuit. -/
theorem snipView_hits_eq {K : Constants} {t : RootTables} {c : Circuit} {inps inps' : ℕ → ℤ}
    (hclient : HonestClient K t c inps) (hclient' : HonestClient K t c inps') {x : ℤ} (hx : 0 ≤ x ∧ x < K.intModulus)
    (coeff own other other' : ℕ → ℤ) (v : SnipView) :
    (SplitOf K c inps own other → SplitOf K c inps' own other' →
      hits (fun tape => (honestCheck K t c inps own other tape).view0 K x coeff) v =
        hits (fun tape => (honestCheck K t c inps' own other' tape).view0 K x coeff) v) ∧
      (SplitOf K c inps other own → SplitOf K c inps' other' own →
        hits (fun tape => (honestCheck K t c inps other own tape).view1 K x coeff) v =
          hits (fun tape => (honestCheck K t c inps' other' own tape).view1 K x coeff) v) := by
  refine ⟨fun hsplit hsplit' => ?_, fun hsplit hsplit' => ?_⟩
  · exact hits_eq_of_injective (shift_injective K t c x inps inps' 0)
      (fun tape => view0_shift hclient hclient' hx coeff tape hsplit hsplit') (shift_injective K t c x inps' inps 0)
      (fun tape => view0_shift hclient' hclient hx coeff tape hsplit' hsplit) v
  · exact hits_eq_of_injective (shift_injective K t c x inps inps' 1)
      (fun tape => view1_shift hclient hclient' hx coeff tape hsplit hsplit') (shift_injective K t c x inps' inps 1)
      (fun tape => view1_shift hclient' hclient hx coeff tape hsplit' hsplit) v

/-- A client proves the square of `5` or that of `4`, and server 0 holds `(3, 8)` both times. -/
theorem snipView_hits_eq_squares :
    hits (fun tape => (honestCheck shipped RootTables.unset (checkVar shipped) (fun i => [5, 25].getD i 0)
        (fun i => [3, 8].getD i 0) (fun i => [2, 17].getD i 0) tape).view0 shipped 6 fun i => i + 3) =
      hits fun tape => (honestCheck shipped RootTables.unset (checkVar shipped) (fun i => [4, 16].getD i 0)
        (fun i => [3, 8].getD i 0) (fun i => [1, 8].getD i 0) tape).view0 shipped 6 fun i => i + 3 := by
  have hclient : ∀ n : ℤ, HonestClient shipped RootTables.unset (checkVar shipped) fun i => [n, n * n].getD i 0 := by
    intro n
    have hsize : nextPowerOfTwo (checkVar shipped).numMulGates = 2 := SnipInstance.numRoots_squareInstance
    refine ⟨Circuit.topological_checkVar shipped, Or.inl rfl, ?_, ?_⟩
    · rw [hsize]
      decide
    · exact (Circuit.eval_checkVar_iff shipped _ _).mpr (by simp)
  have hsplit : SplitOf shipped (checkVar shipped) (fun i => [5, 25].getD i 0) (fun i => [3, 8].getD i 0)
      (fun i => [2, 17].getD i 0) := by
    unfold SplitOf
    decide
  have hsplit' : SplitOf shipped (checkVar shipped) (fun i => [4, 16].getD i 0) (fun i => [3, 8].getD i 0)
      (fun i => [1, 8].getD i 0) := by
    unfold SplitOf
    decide
  funext v
  exact (snipView_hits_eq (hclient 5) (hclient 4) (by decide) (fun i => i + 3) (fun i => [3, 8].getD i 0)
    (fun i => [2, 17].getD i 0) (fun i => [1, 8].getD i 0) v).1 hsplit hsplit'

end PrioPlus

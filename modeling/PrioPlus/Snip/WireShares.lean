import PrioPlus.Snip.SharePolynomials

/-!
# The imported wires as shares

A multiplication gate has one number: its position in `mul_gates`. `GetMulShares` and `share_polynomials` go through
`mul_gates`, `ImportWires` goes through all gates and counts the multiplications, and both give a gate the same number
(`numberedAs`). So the shares of the outputs reach the gates that they were made for, and the wires of the two servers
add up to those of the client (`importWires_shares`).
-/

namespace PrioPlus.Circuit

/-- What the `i`-th multiplication gate `g` is given: its share when the wires are imported, its output among the shared
outputs and in the packets, and its input wires among the points. -/
structure NumberedAs (K : Constants) (c : Circuit) (i g : ℕ) : Prop where
  imported : ∀ stale p serverNum inputShares, c.importWires K stale p serverNum inputShares g = p.mulShares.getD i 0
  split : ∀ wire mask, (c.getMulShares K wire mask)[i]? = some (splitShare K (wire g) (mask i))
  sent0 : ∀ t wire d,
    (sharePolynomials K t c wire d).2.1.mulShares[i]? = some (splitShare K (wire g) (d.mulMask i)).1
  sent1 : ∀ t wire d,
    (sharePolynomials K t c wire d).2.2.mulShares[i]? = some (splitShare K (wire g) (d.mulMask i)).2
  pointF : ∀ N f0 wire, (padTo N (f0 :: c.leftWires wire))[i + 1]? = some (wire (c.gate g).parentL)
  pointG : ∀ N g0 wire, (padTo N (g0 :: c.rightWires wire))[i + 1]? = some (wire (c.gate g).parentR)

/-! ### The numbers of the multiplication gates -/

theorem sorted_mulGatesFrom (i : ℕ) (gates : List Gate) : (mulGatesFrom i gates).Pairwise (· < ·) := by
  induction gates generalizing i with
  | nil => exact List.Pairwise.nil
  | cons g gates ih =>
    rw [mulGatesFrom]
    split
    · exact List.pairwise_cons.mpr ⟨fun j hj => (mem_mulGatesFrom hj).1, ih (i + 1)⟩
    · exact ih (i + 1)

variable {c : Circuit}

theorem mulGates_inj {i j g : ℕ} (hi : c.mulGates[i]? = some g) (hj : c.mulGates[j]? = some g) : i = j := by
  have hnodup : c.mulGates.Nodup := by
    rw [c.mulGates_eq]
    exact (sorted_mulGatesFrom 0 c.gates).imp Nat.ne_of_lt
  have hlt := (List.getElem?_eq_some_iff.mp hi).1
  exact (List.getElem?_inj hlt hnodup).mp (hi.trans hj.symm)

theorem existsUnique_mulGates {g l r : ℕ} (hg : c.gates[g]? = some (.mul l r)) : ∃! i : ℕ, c.mulGates[i]? = some g :=
  ⟨_, getElem?_mulGates hg, fun _ hj => mulGates_inj hj (getElem?_mulGates hg)⟩

theorem getElem?_getMulShares (K : Constants) {i g : ℕ} (h : c.mulGates[i]? = some g) (wire mask : ℕ → ℤ) :
    (c.getMulShares K wire mask)[i]? = some (splitShare K (wire g) (mask i)) := by
  have hlt : i < c.numMulGates := (List.getElem?_eq_some_iff.mp h).1
  rw [getMulShares, List.getElem?_map, List.getElem?_range hlt, Option.map_some, getD_outWires h]

theorem getElem?_padTo {n i : ℕ} {xs : List ℤ} {x : ℤ} (h : xs[i]? = some x) : (padTo n xs)[i]? = some x := by
  rw [padTo, List.getElem?_append_left (List.getElem?_eq_some_iff.mp h).1, h]

section Parents

variable (hparents : ∀ (k : ℕ) (g : Gate), c.gates[k]? = some g → ∀ j ∈ g.parents, j < k)
include hparents

theorem topological_unchecked : ({ c with resultZero := [] } : Circuit).Topological :=
  ⟨hparents, fun _ h => absurd h List.not_mem_nil⟩

theorem numberedAs (K : Constants) {i g : ℕ} (h : c.mulGates[i]? = some g) : c.NumberedAs K i g := by
  have hshares := getElem?_getMulShares K h
  refine ⟨fun stale p serverNum inputShares => ?_, hshares, fun t wire d => ?_, fun t wire d => ?_,
    fun N f0 wire => ?_, fun N g0 wire => ?_⟩
  · obtain ⟨l, r, hg⟩ := gate_mulGates h
    have hfix := importWires_fix K stale (topological_unchecked hparents) p serverNum inputShares hg
    rw [mulGates_inj h (getElem?_mulGates hg)]
    exact hfix
  · show ((c.getMulShares K wire d.mulMask).map Prod.fst)[i]? = _
    rw [List.getElem?_map, hshares, Option.map_some]
  · show ((c.getMulShares K wire d.mulMask).map Prod.snd)[i]? = _
    rw [List.getElem?_map, hshares, Option.map_some]
  · apply getElem?_padTo
    rw [List.getElem?_cons_succ, leftWires, List.getElem?_map, h, Option.map_some]
  · apply getElem?_padTo
    rw [List.getElem?_cons_succ, rightWires, List.getElem?_map, h, Option.map_some]

/-! ### The wires of the two servers -/

theorem evalWires_emod (K : Constants) (stale inps : ℕ → ℤ) {k : ℕ} {g : Gate} (hg : c.gates[k]? = some g)
    (hinput : g.isInput = false) : c.evalWires K stale inps k % K.intModulus = c.evalWires K stale inps k := by
  have hfix := evalWires_fix K stale (topological_unchecked hparents) inps hg
  have hwires : ({ c with resultZero := [] } : Circuit).evalWires K stale inps = c.evalWires K stale inps := rfl
  rw [hwires] at hfix
  rw [hfix]
  cases g with
  | input => exact absurd hinput (by decide)
  | _ => exact Int.emod_emod_of_dvd _ dvd_rfl

/-- The wires of the servers add up to those of the client, for any shares of the inputs and of the outputs of the
multiplication gates. The `i`-th of these outputs goes to the gate that the client numbered `i`. -/
theorem importWires_shares (K : Constants) (stale stale0 stale1 inps in0 in1 : ℕ → ℤ) (p0 p1 : ClientPacket)
    (hinput : ∀ i < c.numInputs, (in0 i + in1 i) % K.intModulus = inps i % K.intModulus)
    (hmul : ∀ i g, c.mulGates[i]? = some g →
      (p0.mulShares.getD i 0 + p1.mulShares.getD i 0) % K.intModulus = c.evalWires K stale inps g % K.intModulus) :
    (∀ k < c.gates.length,
      (c.importWires K stale0 p0 0 in0 k + c.importWires K stale1 p1 1 in1 k) % K.intModulus =
        c.evalWires K stale inps k % K.intModulus) ∧
      (∀ k g, c.gates[k]? = some g → g.isInput = false →
        (c.importWires K stale0 p0 0 in0 k + c.importWires K stale1 p1 1 in1 k) % K.intModulus =
          c.evalWires K stale inps k) ∧
      (∀ i g, c.mulGates[i]? = some g → c.NumberedAs K i g) ∧
      ∀ g l r : ℕ, c.gates[g]? = some (.mul l r) → ∃! i : ℕ, c.mulGates[i]? = some g := by
  have hsum : ∀ k < c.gates.length,
      (c.importWires K stale0 p0 0 in0 k + c.importWires K stale1 p1 1 in1 k) % K.intModulus =
        c.evalWires K stale inps k % K.intModulus := by
    intro k hk
    have hcast := cast_importWires_add K (topological_unchecked hparents) stale stale0 stale1 inps in0 in1 p0 p1
      (fun i hi => by exact_mod_cast (ZMod.intCast_eq_intCast_iff' _ _ _).mpr (hinput i hi))
      (fun i g hg => by exact_mod_cast (ZMod.intCast_eq_intCast_iff' _ _ _).mpr (hmul i g hg)) hk
    rw [← Int.cast_add] at hcast
    exact (ZMod.intCast_eq_intCast_iff' _ _ _).mp hcast
  refine ⟨hsum, fun k g hg hnot => ?_, fun i g h => numberedAs hparents K h, fun g l r => existsUnique_mulGates⟩
  rw [hsum k (List.getElem?_eq_some_iff.mp hg).1, evalWires_emod hparents K stale inps hg hnot]

end Parents

/-- A circuit with a gate of each kind. -/
def fiveKinds : Circuit :=
  ((((new 2).addGate (.add 0 1)).addGate (.addConst 2 5)).addGate (.mul 2 3)).addGate (.mulConst 4 7)

/-- A packet for one multiplication gate whose output share is `s`. -/
def onePacket (s : ℤ) : ClientPacket := { ClientPacket.new 1 with mulShares := [s], mulShares_length := rfl }

theorem importWires_shares_fiveKinds :
    (fiveKinds.importWires shipped 0 (onePacket 80) 0 (fun i => [1, 1].getD i 0) 5 +
        fiveKinds.importWires shipped 0 (onePacket 4) 1 (fun i => [2, 3].getD i 0) 5) % shipped.intModulus = 588 := by
  have hparents : ∀ (k : ℕ) (g : Gate), fiveKinds.gates[k]? = some g → ∀ j ∈ g.parents, j < k := by
    intro k g hg
    obtain ⟨hlt, rfl⟩ := List.getElem?_eq_some_iff.mp hg
    have hall : ∀ k : Fin fiveKinds.gates.length, ∀ j ∈ (fiveKinds.gates.get k).parents, j < k := by decide
    exact hall ⟨k, hlt⟩
  have hmul : ∀ i g, fiveKinds.mulGates[i]? = some g → ((onePacket 80).mulShares.getD i 0 +
      (onePacket 4).mulShares.getD i 0) % (shipped.intModulus : ℤ) =
        fiveKinds.evalWires shipped 0 (fun i => [3, 4].getD i 0) g % shipped.intModulus := by
    intro i g hg
    obtain rfl : i = 0 := Nat.lt_one_iff.mp (List.getElem?_eq_some_iff.mp hg).1
    obtain rfl : 4 = g := Option.some.inj hg
    decide +kernel
  have hsum := (importWires_shares hparents shipped 0 0 0 (fun i => [3, 4].getD i 0) (fun i => [1, 1].getD i 0)
    (fun i => [2, 3].getD i 0) (onePacket 80) (onePacket 4) (by decide +kernel) hmul).2.1 5 (.mulConst 4 7) rfl rfl
  rw [hsum]
  decide +kernel

end PrioPlus.Circuit

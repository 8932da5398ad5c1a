import PrioPlus.Server.HonestTable

/-!
# `heavy_op` on honest clients

An honest client puts exactly one one into the frequency layer, so the batch check passes, and the table that server 0
combines holds the number of ones at each position. The query then reports every value that reaches the threshold
(`heavyOp_complete`).
-/

namespace PrioPlus

open Finset Lib.TwoParty Lib.FirstWins

section Honest

variable {seed : HashSeed} {numBits : UInt32} {cfg : HeavyConfig}

/-- The submissions that reach server 0. -/
def heavyShares0 (seed : HashSeed) (numBits : UInt32) (cfg : HeavyConfig)
    (clients : List (HeavyClient (shareSize numBits cfg))) : List (FreqShare (shareSize numBits cfg)) :=
  clients.map fun c => (heavyHelper seed numBits cfg c).1

/-- The submissions that reach server 1. -/
def heavyShares1 (seed : HashSeed) (numBits : UInt32) (cfg : HeavyConfig)
    (clients : List (HeavyClient (shareSize numBits cfg))) : List (FreqShare (shareSize numBits cfg)) :=
  clients.map fun c => (heavyHelper seed numBits cfg c).2

/-- What the clients of `heavy_op` send. -/
def heavyTable (seed : HashSeed) (numBits : UInt32) (cfg : HeavyConfig) :
    TableClient (HeavyClient (shareSize numBits cfg)) (shareSize numBits cfg) where
  pk := HeavyClient.pk
  share0 := fun c => (heavyHelper seed numBits cfg c).1
  share1 := fun c => (heavyHelper seed numBits cfg c).2
  pk_share0 := fun _ => rfl
  pk_share1 := fun _ => rfl

theorem heavyTable_freq (hcells : shareSize numBits cfg = tableCells numBits cfg) (hw : 0 < cfg.w)
    (hw' : cfg.w < 2 ^ 31) (hbits : numBits.toNat ≤ 63) (hL : cfg.L ≤ numBits.toNat)
    (c : HeavyClient (shareSize numBits cfg)) :
    ∃ x < firstSize numBits cfg.L, ∀ y < firstSize numBits cfg.L,
      ((heavyTable seed numBits cfg).bit c (cfg.L * cfg.d * cfg.w + y) = true ↔ y = x) := by
  refine ⟨_, shiftRight_lt_firstSize hbits hL (realVal_lt hbits c), fun y hy => ?_⟩
  exact (heavyBit_freq hcells hw hw' c hy).trans eq_comm

theorem countersFit_heavyRows_iff {clients : List (HeavyClient (shareSize numBits cfg))}
    (hdistinct : (clients.map HeavyClient.pk).Nodup) (hw : 0 < cfg.w) (hw' : cfg.w < 2 ^ 31) :
    CountersFit (heavyRows numBits cfg) (heavyShares1 seed numBits cfg clients) ↔
      tableCells numBits cfg < 2 ^ 32 ∧ clients.length * tableCells numBits cfg < 2 ^ 32 := by
  have hcard : (freqPks (heavyShares1 seed numBits cfg clients)).card = clients.length :=
    (heavyTable seed numBits cfg).card_freqPks_honest hdistinct
  constructor
  · intro hfits
    have hlayers : cfg.L * cfg.d + 1 < 2 ^ 32 := length_heavyRows numBits cfg ▸ hfits.rows
    rw [← shareSize_eq numBits hw' (by omega), ← hcard]
    exact ⟨hfits.array, hfits.bits⟩
  · rintro ⟨hcells, hbits⟩
    have hsize := shareSize_of_lt hcells
    have hlayers : cfg.L * cfg.d + 1 ≤ tableCells numBits cfg :=
      Nat.add_le_add (Nat.le_mul_of_pos_right _ hw) (firstSize_pos numBits cfg.L)
    refine ⟨hsize.trans_lt hcells, (Nat.mul_le_mul hcard.le hsize.le).trans_lt hbits, fun _ row hrow => ?_, ?_⟩
    · rcases List.mem_append.mp hrow with hlayer | hfreq
      · obtain ⟨j, -, rfl⟩ := List.mem_map.mp hlayer
        exact hw'.trans (by decide)
      · obtain rfl := List.mem_singleton.mp hfreq
        exact (Nat.le_add_left _ _).trans_lt hcells
    · rw [length_heavyRows]
      omega

theorem sketchOp_honest {clients : List (HeavyClient (shareSize numBits cfg))}
    (hdistinct : (clients.map HeavyClient.pk).Nodup) (seed : HashSeed) {d0 d1 : ℕ → DaBit}
    (hcorr : CorrelatedDaBits d0 d1) (hlen : clients.length < 2 ^ 32) (hw : 0 < cfg.w) (hw' : cfg.w < 2 ^ 31)
    (hbits : numBits.toNat ≤ 63) (hL : cfg.L ≤ numBits.toNat)
    (hfits : CountersFit (heavyRows numBits cfg) (heavyShares1 seed numBits cfg clients))
    (it0 it1 : Iteration (Vector Bool (shareSize numBits cfg))) :
    ∃ r0 r1 a,
      Terminates
        (sketchOp (heavyRows numBits cfg) (heavyAllValid cfg.L cfg.d clients.length) (heavyQuery seed numBits cfg) it0
          d0 clients.length 0 (heavyShares0 seed numBits cfg clients))
        (sketchOp (heavyRows numBits cfg) (heavyAllValid cfg.L cfg.d clients.length) (heavyQuery seed numBits cfg) it1
          d1 clients.length 1 (heavyShares1 seed numBits cfg clients)) r0 r1 ∧
      r0.ans = some (heavyQuery seed numBits cfg clients.length a) ∧ HoldsTableSums seed clients a := by
  have hverdict : heavyAllValid cfg.L cfg.d clients.length =
      allValidLoops (heavyRows numBits cfg).length clients.length := by
    rw [length_heavyRows]
    rfl
  have hcells : shareSize numBits cfg = tableCells numBits cfg := by
    have hlayers : cfg.L * cfg.d + 1 < 2 ^ 32 := length_heavyRows numBits cfg ▸ hfits.rows
    exact shareSize_eq numBits hw' (by omega)
  obtain ⟨a, htable, htotals⟩ := (heavyTable seed numBits cfg).sketchTable_honest hdistinct hcorr hlen hverdict
    (heavyRows_getLast? numBits cfg) hcells.ge (fun c _ => heavyTable_freq hcells hw hw' hbits hL c) it1
  obtain ⟨r0, r1, hterm, hans⟩ := (heavyTable seed numBits cfg).sketchOp_honest hdistinct _ _
    (heavyQuery seed numBits cfg) it0 it1 htable hfits
  exact ⟨r0, r1, a, hterm, hans, htotals⟩

end Honest

section Run

variable (seed : HashSeed) (cfg : HeavyConfig) (msg : InitMsg) (hbits : msg.numBits.toNat ≤ 63)
  (hL : cfg.L ≤ msg.numBits.toNat) (hw : 0 < cfg.w) (hw' : cfg.w < 2 ^ 31) {d0 d1 : ℕ → DaBit}
  (hcorr : CorrelatedDaBits d0 d1) (it0 it1 : Iteration (Vector Bool (shareSize msg.numBits cfg)))
  (clients : Vector (HeavyClient (shareSize msg.numBits cfg)) msg.numOfInputs.toNat)
  (hdistinct : (clients.toList.map HeavyClient.pk).Nodup)
include hbits hL hw hw' hcorr hdistinct

theorem heavyOp_table (hcells : tableCells msg.numBits cfg < 2 ^ 32)
    (hall : msg.numOfInputs.toNat * tableCells msg.numBits cfg < 2 ^ 32) :
    ∃ r0 r1 a,
      Terminates (heavyOp seed cfg msg it0 d0 0 (clients.map fun c => (heavyHelper seed msg.numBits cfg c).1))
        (heavyOp seed cfg msg it1 d1 1 (clients.map fun c => (heavyHelper seed msg.numBits cfg c).2)) r0 r1 ∧
      r0.ans = some (heavyQuery seed msg.numBits cfg msg.numOfInputs.toNat a) ∧
        HoldsTableSums seed clients.toList a := by
  have hlen : clients.toList.length = msg.numOfInputs.toNat := Vector.length_toList
  have hfits : CountersFit (heavyRows msg.numBits cfg) (heavyShares1 seed msg.numBits cfg clients.toList) :=
    (countersFit_heavyRows_iff hdistinct hw hw').mpr ⟨hcells, by rwa [hlen]⟩
  obtain ⟨r0, r1, a, hterm, hans, hsums⟩ := sketchOp_honest hdistinct seed hcorr
    (hlen.trans_lt msg.numOfInputs.toNat_lt) hw hw' hbits hL hfits it0 it1
  rw [hlen] at hterm hans
  refine ⟨r0, r1, a, ?_, hans, hsums⟩
  rw [heavyOp, heavyOp, Vector.toList_map, Vector.toList_map]
  exact hterm

omit hbits hL hcorr in
theorem heavyOp_hangs (hcells : ¬ (tableCells msg.numBits cfg < 2 ^ 32 ∧
      msg.numOfInputs.toNat * tableCells msg.numBits cfg < 2 ^ 32)) :
    Hangs (heavyOp seed cfg msg it0 d0 0 (clients.map fun c => (heavyHelper seed msg.numBits cfg c).1))
      (heavyOp seed cfg msg it1 d1 1 (clients.map fun c => (heavyHelper seed msg.numBits cfg c).2)) := by
  have hlen : clients.toList.length = msg.numOfInputs.toNat := Vector.length_toList
  rw [heavyOp, heavyOp]
  refine sketchOp_hangs _ _ it0 it1 d0 d1 _ _ fun hfits => hcells ?_
  rw [Vector.toList_map] at hfits
  have hsizes := (countersFit_heavyRows_iff hdistinct hw hw').mp hfits
  rwa [hlen] at hsizes

end Run

/-- `HEAVY` end to end: it ends exactly when 32 bits count the cells of a table and of all tables, and every value
whose count reaches the threshold is reported. -/
theorem heavyOp_complete (seed : HashSeed) (msg : InitMsg) (hbits : msg.numBits.toNat ≤ 63) (t : ℚ) (w d : Int32)
    (hw : 1 ≤ w) (L : ℕ) (hL : L ≤ msg.numBits.toNat) {d0 d1 : ℕ → DaBit} (hcorr : CorrelatedDaBits d0 d1)
    (it0 it1 : Iteration (Vector Bool (shareSize msg.numBits (heavyConfig t w d L))))
    (clients : Vector (HeavyClient (shareSize msg.numBits (heavyConfig t w d L))) msg.numOfInputs.toNat)
    (hdistinct : (clients.toList.map HeavyClient.pk).Nodup) :
    let cfg := heavyConfig t w d L
    let Ends := Terminates (heavyOp seed cfg msg it0 d0 0 (clients.map fun c => (heavyHelper seed msg.numBits cfg c).1))
      (heavyOp seed cfg msg it1 d1 1 (clients.map fun c => (heavyHelper seed msg.numBits cfg c).2))
    ((∃ r0 r1, Ends r0 r1) ↔
      tableCells msg.numBits cfg < 2 ^ 32 ∧ msg.numOfInputs.toNat * tableCells msg.numBits cfg < 2 ^ 32) ∧
    ∀ r0 r1, Ends r0 r1 → ∃ heavy, r0.ans = some heavy ∧ ∀ v : UInt64, v.toNat < 2 ^ msg.numBits.toNat →
      t * msg.numOfInputs.toNat ≤ (realVals msg.numBits cfg clients.toList).count v → v ∈ heavy := by
  intro cfg Ends
  obtain ⟨hwpos, hwlt⟩ : 0 < cfg.w ∧ cfg.w < 2 ^ 31 := atoiSize_eq hw
  have hlen : clients.toList.length = msg.numOfInputs.toNat := Vector.length_toList
  refine ends_and_forall (fun hsizes => ?_) (heavyOp_hangs seed cfg msg hwpos hwlt it0 it1 clients hdistinct)
  obtain ⟨r0, r1, a, hterm, hans, hsums⟩ := heavyOp_table seed cfg msg hbits hL hwpos hwlt hcorr it0 it1 clients
    hdistinct hsizes.1 hsizes.2
  refine ⟨r0, r1, hterm, _, hans, fun v hv hheavy => ?_⟩
  have hcells := shareSize_of_lt hsizes.1
  have hfound := mem_heavyQuery hcells hbits hL hwpos hwlt (hlen.trans_lt msg.numOfInputs.toNat_lt) hsums hv
  rw [hlen, targetFreq, mul_comm] at hfound
  exact hfound hheavy

/-- One submission of one bit. -/
def oneBitMsg : InitMsg := { numBits := 1, numOfInputs := 1, maxInp := 2 }

/-- A client with the value one. -/
def oneClient : Vector (HeavyClient (shareSize oneBitMsg.numBits (heavyConfig 1 1 1 1))) oneBitMsg.numOfInputs.toNat :=
  Vector.replicate _ { pk := Vector.replicate 32 0, word := 1, mask := Vector.replicate _ false }

theorem heavyOp_complete_oneClient :
    ∃ r0 r1,
      Terminates
        (heavyOp { draw := 0 } (heavyConfig 1 1 1 1) oneBitMsg default zeroDaBits 0
          (oneClient.map fun c => (heavyHelper { draw := 0 } oneBitMsg.numBits (heavyConfig 1 1 1 1) c).1))
        (heavyOp { draw := 0 } (heavyConfig 1 1 1 1) oneBitMsg default zeroDaBits 1
          (oneClient.map fun c => (heavyHelper { draw := 0 } oneBitMsg.numBits (heavyConfig 1 1 1 1) c).2)) r0 r1 ∧
      ∃ heavy, r0.ans = some heavy ∧ 1 ∈ heavy := by
  obtain ⟨hends, hcorrect⟩ := heavyOp_complete { draw := 0 } oneBitMsg (by decide) 1 1 1 (by decide) 1
    (by decide) correlatedDaBits_zero default default oneClient (by decide)
  obtain ⟨r0, r1, hterm⟩ := hends.mpr (by decide +kernel)
  obtain ⟨heavy, hans, hall⟩ := hcorrect r0 r1 hterm
  exact ⟨r0, r1, hterm, heavy, hans, hall 1 (by decide) (by decide +kernel)⟩

end PrioPlus

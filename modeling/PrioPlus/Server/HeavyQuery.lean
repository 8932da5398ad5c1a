import Mathlib.Algebra.Order.Ring.Rat
import PrioPlus.Client.Heavy

/-!
# Finding the heavy values

`countMin_op` looks every value up in its table. `heavy_op` starts from the heavy prefixes of the frequency layer and
goes down the tree of prefixes, keeping the children whose estimate reaches the threshold. An estimate is a least
bucket over the rows of a layer and never too low (`count_le_minEstimate`), a child of the prefix of `v` is the
next prefix of `v` (`layerPrefix_child`), so every heavy value is found (`mem_heavyQuery`).

Thresholds are exact rationals here, where the source has a `double`.
-/

namespace PrioPlus

open Lib.CountMin Lib.FlatLoop

/-! ### The queries -/

/-- The server's `unsigned int h`. -/
def serverBucket (store : HashStore) (j : ℕ) (x : UInt64) : ℕ :=
  (fmpzGetUi (store.eval (UInt32.ofNat j) x.toUInt32)).toUInt32.toNat

/-- `est`, an `unsigned int`. -/
def estimate (a : List ℤ) (p : ℕ) : ℕ := (fmpzGetUi (a.getD p 0)).toUInt32.toNat

/-- `min0` for `x = 2 * x` and `min1` for `x = 2 * x + 1`, in layer `i`. -/
def minEstimate (seed : HashSeed) (numBits : UInt32) (cfg : HeavyConfig) (numInputs : ℕ) (a : List ℤ) (i : ℕ)
    (x : UInt64) : ℕ :=
  minOver (UInt32.ofNat numInputs).toNat cfg.d fun j =>
    estimate a (i * cfg.d * cfg.w + j * cfg.w + serverBucket (hashStores seed numBits cfg i) j x)

def targetFreq (numInputs : ℕ) (t : ℚ) : ℚ := numInputs * t

/-- `next_candidates` after the loop over `this_values` in layer `i`. -/
def nextCandidates (seed : HashSeed) (numBits : UInt32) (cfg : HeavyConfig) (numInputs : ℕ) (a : List ℤ) (i : ℕ)
    (thisValues : List UInt64) : List UInt64 :=
  thisValues.flatMap fun x =>
    (if (minEstimate seed numBits cfg numInputs a i (2 * x) : ℚ) ≥ targetFreq numInputs cfg.t then [2 * x] else []) ++
    (if (minEstimate seed numBits cfg numInputs a i (2 * x + 1) : ℚ) ≥ targetFreq numInputs cfg.t then [2 * x + 1]
      else [])

/-- The heavy prefixes of the frequency layer. -/
def heavyPrefixes (numBits : UInt32) (cfg : HeavyConfig) (numInputs : ℕ) (a : List ℤ) : List UInt64 :=
  ((List.range (firstSize numBits cfg.L)).filter fun x =>
    ((fmpzGetUi (a.getD (cfg.L * cfg.d * cfg.w + x) 0)).toNat : ℚ) ≥ targetFreq numInputs cfg.t).map UInt64.ofNat

/-- The values that `heavy_op` reports. -/
def heavyQuery (seed : HashSeed) (numBits : UInt32) (cfg : HeavyConfig) (numInputs : ℕ) (a : List ℤ) : List UInt64 :=
  (List.range cfg.L).foldl (fun thisValues i => nextCandidates seed numBits cfg numInputs a i thisValues)
    (heavyPrefixes numBits cfg numInputs a)

/-- `acc` of `countMin_op`, an `int` like the `est` that it is compared with. -/
def countMinEstimate (store : HashStore) (cfg : HeavyConfig) (numInputs : ℕ) (a : List ℤ) (x : ℕ) : ℤ :=
  minOver (UInt32.ofNat numInputs).toInt32.toInt cfg.d fun j =>
    (fmpzGetUi (a.getD (j * cfg.w +
      (fmpzGetUi (store.eval (UInt32.ofNat j) (UInt32.ofNat x))).toUInt32.toInt32.toInt.toNat) 0)).toUInt32.toInt32.toInt

/-- The values below 256 that `countMin_op` reports. -/
def countMinQuery (seed : HashSeed) (numBits : UInt32) (cfg : HeavyConfig) (numInputs : ℕ) (a : List ℤ) : List UInt64 :=
  let store := HashStore.new seed cfg.d numBits.toNat cfg.w
  ((List.range (min ((1 : UInt64) <<< numBits.toUInt64).toNat 256)).filter fun x =>
    (countMinEstimate store cfg numInputs a x : ℚ) ≥ targetFreq numInputs cfg.t).map UInt64.ofNat

/-! ### Prefixes -/

section Prefixes

variable {L : ℕ} (v : UInt64)

theorem layerPrefix_child (hL : L ≤ 63) {i : ℕ} (hi : i < L) :
    layerPrefix L i v = 2 * (v >>> UInt64.ofNat (L - i)) ∨
      layerPrefix L i v = 2 * (v >>> UInt64.ofNat (L - i)) + 1 := by
  have hshift : L - i = L - 1 - i + 1 := by omega
  have hchild : v.toNat / 2 ^ (L - 1 - i) / 2 = v.toNat / 2 ^ (L - i) := by
    rw [hshift, pow_succ, Nat.div_div_eq_div_mul]
  have hlt : v.toNat / 2 ^ (L - i) < 2 ^ 63 := by
    have hhalf : v.toNat / 2 ^ (L - i) ≤ v.toNat / 2 := Nat.div_le_div_left (by
      rw [hshift, pow_succ]
      have := Nat.one_le_two_pow (n := L - 1 - i)
      omega) (by decide)
    have hv := v.toNat_lt
    omega
  have htwo : (2 : UInt64).toNat = 2 := rfl
  have hone : (1 : UInt64).toNat = 1 := rfl
  have hparent := toNat_shiftRight_ofNat v (k := L - i) (by omega)
  have hlayer := toNat_shiftRight_ofNat v (k := L - 1 - i) (by omega)
  rcases Nat.mod_two_eq_zero_or_one (v.toNat / 2 ^ (L - 1 - i)) with hbit | hbit
  · refine Or.inl (UInt64.toNat_inj.mp ?_)
    rw [layerPrefix, hlayer, UInt64.toNat_mul, hparent, htwo]
    omega
  · refine Or.inr (UInt64.toNat_inj.mp ?_)
    rw [layerPrefix, hlayer, UInt64.toNat_add, UInt64.toNat_mul, hparent, htwo, hone]
    omega

end Prefixes

/-! ### No heavy value is lost -/

section Complete

variable {seed : HashSeed} {numBits : UInt32} {cfg : HeavyConfig}
  (clients : List (HeavyClient (shareSize numBits cfg))) (a : List ℤ)

/-- The combined table holds the number of ones at each position. -/
def HoldsTableSums (seed : HashSeed) (clients : List (HeavyClient (shareSize numBits cfg))) (a : List ℤ) : Prop :=
  ∀ p < shareSize numBits cfg, a.getD p 0 = tableSum seed numBits cfg clients p

variable {clients} {a}

theorem serverBucket_eq (store : HashStore) (hw : 0 < store.w) (hw' : store.w < 2 ^ 32) (j : ℕ) (x : UInt64) :
    serverBucket store j x = bucketOf store j x :=
  toNat_toUInt32_fmpzGetUi (eval_eq_bucketOf hw j x) ((bucketOf_lt store hw j x).trans hw')

theorem length_realVals : (realVals numBits cfg clients).length = clients.length := List.length_map _

variable (hcells : shareSize numBits cfg = tableCells numBits cfg)

include hcells in
theorem estimate_layer (hw : 0 < cfg.w) (hw' : cfg.w < 2 ^ 31) (hlen : clients.length < 2 ^ 32)
    (ha : HoldsTableSums seed clients a) {k j b : ℕ} (hk : k < cfg.L) (hj : j < cfg.d) (hb : b < cfg.w) :
    estimate a (gridPos cfg.d cfg.w k j b) =
      bucket (layerBucket seed numBits cfg k j) (realVals numBits cfg clients) b := by
  have hsum := tableSum_layer hcells clients seed hw hw' hk hj hb
  have hle := bucket_le_length (layerBucket seed numBits cfg k j) (realVals numBits cfg clients) b
  rw [length_realVals] at hle
  have hpos : gridPos cfg.d cfg.w k j b < shareSize numBits cfg :=
    hcells.symm ▸ (gridPos_lt hk hj hb).trans_le (Nat.le_add_right _ _)
  have hentry := ha _ hpos
  rw [hsum] at hentry
  exact toNat_toUInt32_fmpzGetUi hentry (by omega)

include hcells in
theorem count_le_minEstimate (hw : 0 < cfg.w) (hw' : cfg.w < 2 ^ 31) (hlen : clients.length < 2 ^ 32)
    (ha : HoldsTableSums seed clients a) {i : ℕ} (hi : i < cfg.L) (v : UInt64) :
    (realVals numBits cfg clients).count v ≤
      minEstimate seed numBits cfg clients.length a i (layerPrefix cfg.L i v) := by
  refine (le_minOver_iff _ _ _ _).mpr ⟨?_, fun j hj => ?_⟩
  · rw [UInt32.toNat_ofNat_of_lt' hlen, ← length_realVals]
    exact List.count_le_length
  · have hlt := layerBucket_lt seed numBits v hw i j
    rw [serverBucket_eq (hashStores seed numBits cfg i) hw (hw'.trans (by decide))]
    exact (count_le_bucket (layerBucket seed numBits cfg i j) _ v).trans_eq
      (estimate_layer hcells hw hw' hlen ha hi hj hlt).symm

theorem mem_nextCandidates {numInputs i : ℕ} {thisValues : List UInt64} {x y : UInt64} (hx : x ∈ thisValues)
    (hy : y = 2 * x ∨ y = 2 * x + 1)
    (hfreq : targetFreq numInputs cfg.t ≤ (minEstimate seed numBits cfg numInputs a i y : ℚ)) :
    y ∈ nextCandidates seed numBits cfg numInputs a i thisValues := by
  refine List.mem_flatMap.mpr ⟨x, hx, List.mem_append.mpr ?_⟩
  rcases hy with rfl | rfl
  · exact Or.inl (by rw [if_pos hfreq]; exact List.mem_singleton_self _)
  · exact Or.inr (by rw [if_pos hfreq]; exact List.mem_singleton_self _)

include hcells

theorem mem_heavyPrefixes (hbits : numBits.toNat ≤ 63) (hL : cfg.L ≤ numBits.toNat) (hw : 0 < cfg.w)
    (hw' : cfg.w < 2 ^ 31) (hlen : clients.length < 2 ^ 32) (ha : HoldsTableSums seed clients a) {v : UInt64}
    (hv : v.toNat < 2 ^ numBits.toNat)
    (hheavy : targetFreq clients.length cfg.t ≤ (realVals numBits cfg clients).count v) :
    v >>> UInt64.ofNat cfg.L ∈ heavyPrefixes numBits cfg clients.length a := by
  have hx := shiftRight_lt_firstSize hbits hL hv
  refine List.mem_map.mpr ⟨(v >>> UInt64.ofNat cfg.L).toNat, List.mem_filter.mpr ⟨List.mem_range.mpr hx, ?_⟩,
    UInt64.ofNat_toNat⟩
  have hsum := tableSum_freq hcells clients seed hw hw' hx
  have hle := bucket_le_length (fun v : UInt64 => (v >>> UInt64.ofNat cfg.L).toNat) (realVals numBits cfg clients)
    (v >>> UInt64.ofNat cfg.L).toNat
  rw [length_realVals] at hle
  have hpos : cfg.L * cfg.d * cfg.w + (v >>> UInt64.ofNat cfg.L).toNat < shareSize numBits cfg :=
    hcells.symm ▸ Nat.add_lt_add_left hx _
  have hentry := ha _ hpos
  rw [hsum] at hentry
  have hcount := count_le_bucket (fun v : UInt64 => (v >>> UInt64.ofNat cfg.L).toNat) (realVals numBits cfg clients) v
  rw [decide_eq_true_iff, toNat_fmpzGetUi hentry (by omega)]
  exact hheavy.trans (by exact_mod_cast hcount)

theorem mem_heavyQuery (hbits : numBits.toNat ≤ 63) (hL : cfg.L ≤ numBits.toNat) (hw : 0 < cfg.w)
    (hw' : cfg.w < 2 ^ 31) (hlen : clients.length < 2 ^ 32) (ha : HoldsTableSums seed clients a) {v : UInt64}
    (hv : v.toNat < 2 ^ numBits.toNat)
    (hheavy : targetFreq clients.length cfg.t ≤ (realVals numBits cfg clients).count v) :
    v ∈ heavyQuery seed numBits cfg clients.length a := by
  have hend : v >>> UInt64.ofNat (cfg.L - cfg.L) = v := by
    rw [Nat.sub_self]
    refine UInt64.toNat_inj.mp ?_
    rw [toNat_shiftRight_ofNat v (by decide), pow_zero, Nat.div_one]
  have hdescend := mem_descend (fun i thisValues => nextCandidates seed numBits cfg clients.length a i thisValues)
    (fun i => v >>> UInt64.ofNat (cfg.L - i)) (n := cfg.L) (mem_heavyPrefixes hcells hbits hL hw hw' hlen ha hv hheavy) ?_
  · rw [hend] at hdescend
    exact hdescend
  · intro i hi values hmem
    have hnext : v >>> UInt64.ofNat (cfg.L - (i + 1)) = layerPrefix cfg.L i v := by
      rw [layerPrefix, Nat.sub_sub, Nat.add_comm 1 i]
    have hcount := count_le_minEstimate hcells hw hw' hlen ha hi v
    rw [hnext]
    refine mem_nextCandidates hmem (layerPrefix_child v (by omega) hi) (hheavy.trans ?_)
    exact_mod_cast hcount

end Complete

end PrioPlus

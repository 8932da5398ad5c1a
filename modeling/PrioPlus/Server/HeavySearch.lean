import PrioPlus.Server.HeavyQuery

/-!
# The search of `heavy_op` and brute force

The candidates of a layer are the heavy prefixes whose own prefixes are heavy in every layer above. The loop lists
each of them once (`nodup_layerCandidates`, `mem_layerCandidates`), for any combined table, so that what it reports is
what a scan of all values would find (`heavyQuery_spec`).
-/

namespace PrioPlus

open Lib.CountMin Lib.FlatLoop

/-- `this_values` before layer `k`. -/
def layerCandidates (seed : HashSeed) (numBits : UInt32) (cfg : HeavyConfig) (numInputs : ℕ) (a : List ℤ) (k : ℕ) :
    List UInt64 :=
  (List.range k).foldl (fun thisValues i => nextCandidates seed numBits cfg numInputs a i thisValues)
    (heavyPrefixes numBits cfg numInputs a)

/-- The least of the number of inputs and the entries of the buckets of a value in layer `i`. -/
def leastEntry (seed : HashSeed) (numBits : UInt32) (cfg : HeavyConfig) (numInputs : ℕ) (a : List ℤ) (i : ℕ)
    (v : UInt64) : ℤ :=
  ((List.range cfg.d).map fun j => a.getD (gridPos cfg.d cfg.w i j (layerBucket seed numBits cfg i j v)) 0).foldr min
    numInputs

theorem le_foldr_min_iff (c init : ℤ) (xs : List ℤ) : c ≤ xs.foldr min init ↔ c ≤ init ∧ ∀ x ∈ xs, c ≤ x := by
  induction xs with
  | nil => simp
  | cons x xs ih =>
    rw [List.foldr_cons, le_min_iff, ih, List.forall_mem_cons]
    tauto

/-! ### The tree of prefixes -/

section Tree

/-- The prefix that a prefix is a child of. -/
def parentOf (x : UInt64) : UInt64 := x >>> 1

def childrenOf (x : UInt64) : List UInt64 := [2 * x, 2 * x + 1]

theorem toNat_parentOf (x : UInt64) : (parentOf x).toNat = x.toNat / 2 := by
  rw [parentOf, show (1 : UInt64) = UInt64.ofNat 1 from rfl, toNat_shiftRight_ofNat x (by decide), pow_one]

theorem toNat_iterate_parentOf (m : ℕ) (x : UInt64) : (parentOf^[m] x).toNat = x.toNat / 2 ^ m := by
  induction m generalizing x with
  | zero => simp
  | succ m ih => rw [Function.iterate_succ_apply, ih, toNat_parentOf, Nat.div_div_eq_div_mul, pow_succ']

theorem iterate_parentOf {m : ℕ} (hm : m < 64) (x : UInt64) : parentOf^[m] x = x >>> UInt64.ofNat m := by
  rw [← UInt64.toNat_inj, toNat_iterate_parentOf, toNat_shiftRight_ofNat x hm]

theorem toNat_two_mul {x : UInt64} (hx : x.toNat < 2 ^ 63) : (2 * x).toNat = 2 * x.toNat := by
  rw [UInt64.toNat_mul]
  exact Nat.mod_eq_of_lt (by change 2 * x.toNat < 2 ^ 64; omega)

theorem toNat_two_mul_add_one {x : UInt64} (hx : x.toNat < 2 ^ 63) : (2 * x + 1).toNat = 2 * x.toNat + 1 := by
  rw [UInt64.toNat_add, toNat_two_mul hx]
  exact Nat.mod_eq_of_lt (by change 2 * x.toNat + 1 < 2 ^ 64; omega)

theorem mem_childrenOf {x : UInt64} (hx : x.toNat < 2 ^ 63) (y : UInt64) : y ∈ childrenOf x ↔ parentOf y = x := by
  simp only [childrenOf, List.mem_cons, List.not_mem_nil, or_false, ← UInt64.toNat_inj, toNat_two_mul hx,
    toNat_two_mul_add_one hx, toNat_parentOf]
  omega

theorem isTree_prefixes {n L : ℕ} (hn : n ≤ 63) (hL : L ≤ n) :
    IsTree childrenOf parentOf (fun i x => x.toNat < 2 ^ (n - L + i)) L := by
  have hsmall : ∀ i < L, ∀ x : UInt64, x.toNat < 2 ^ (n - L + i) → x.toNat < 2 ^ 63 := fun i hi x hx =>
    hx.trans_le (Nat.pow_le_pow_right Nat.two_pos (by omega))
  refine ⟨fun i hi x hx => mem_childrenOf (hsmall i hi x hx), fun i hi x hx => ?_, fun i hi x hx y hy => ?_⟩
  · have hne : 2 * x ≠ 2 * x + 1 := by
      rw [ne_eq, ← UInt64.toNat_inj, toNat_two_mul (hsmall i hi x hx), toNat_two_mul_add_one (hsmall i hi x hx)]
      omega
    exact List.nodup_cons.mpr ⟨List.not_mem_cons_of_ne_of_not_mem hne List.not_mem_nil, List.nodup_singleton _⟩
  · have hparent := (mem_childrenOf (hsmall i hi x hx) y).mp hy
    rw [← hparent, toNat_parentOf] at hx
    rw [← add_assoc, pow_succ]
    omega

end Tree

/-! ### The candidates of a layer -/

section Candidates

variable {seed : HashSeed} {numBits : UInt32} {cfg : HeavyConfig} {numInputs : ℕ} {a : List ℤ}

theorem nextCandidates_eq_expand (i : ℕ) (values : List UInt64) :
    nextCandidates seed numBits cfg numInputs a i values =
      expand childrenOf (fun i x => (minEstimate seed numBits cfg numInputs a i x : ℚ) ≥ targetFreq numInputs cfg.t) i
        values := by
  rw [nextCandidates, expand]
  congr 1
  funext x
  simp only [childrenOf, List.filter_cons, List.filter_nil, decide_eq_true_eq]
  split_ifs <;> rfl

theorem layerCandidates_eq_descend (k : ℕ) :
    layerCandidates seed numBits cfg numInputs a k =
      descend childrenOf (fun i x => (minEstimate seed numBits cfg numInputs a i x : ℚ) ≥ targetFreq numInputs cfg.t) k
        (heavyPrefixes numBits cfg numInputs a) := by
  simp only [layerCandidates, descend, nextCandidates_eq_expand]

variable (hbits : numBits.toNat ≤ 63) (hL : cfg.L ≤ numBits.toNat)
include hbits hL

theorem mem_heavyPrefixes_iff (x : UInt64) :
    x ∈ heavyPrefixes numBits cfg numInputs a ↔ x.toNat < 2 ^ (numBits.toNat - cfg.L) ∧
      ((fmpzGetUi (a.getD (cfg.L * cfg.d * cfg.w + x.toNat) 0)).toNat : ℚ) ≥ targetFreq numInputs cfg.t := by
  have hsize := firstSize_eq hbits hL
  have hpow : 2 ^ (numBits.toNat - cfg.L) < 2 ^ 64 := Nat.pow_lt_pow_right (by decide) (by omega)
  rw [heavyPrefixes, hsize]
  constructor
  · intro hx
    obtain ⟨n, hn, rfl⟩ := List.mem_map.mp hx
    obtain ⟨hrange, hheavy⟩ := List.mem_filter.mp hn
    rw [UInt64.toNat_ofNat_of_lt' ((List.mem_range.mp hrange).trans hpow)]
    exact ⟨List.mem_range.mp hrange, of_decide_eq_true hheavy⟩
  · rintro ⟨hlt, hheavy⟩
    exact List.mem_map.mpr ⟨x.toNat, List.mem_filter.mpr ⟨List.mem_range.mpr hlt, decide_eq_true hheavy⟩,
      UInt64.ofNat_toNat⟩

theorem heavyPrefixes_lt : ∀ x ∈ heavyPrefixes numBits cfg numInputs a, x.toNat < 2 ^ (numBits.toNat - cfg.L) :=
  fun x hx => ((mem_heavyPrefixes_iff hbits hL x).mp hx).1

theorem nodup_heavyPrefixes : (heavyPrefixes numBits cfg numInputs a).Nodup := by
  have hpow : 2 ^ (numBits.toNat - cfg.L) < 2 ^ 64 := Nat.pow_lt_pow_right (by decide) (by omega)
  rw [heavyPrefixes, firstSize_eq hbits hL]
  refine List.Nodup.map_on (fun m hm n hn h => ?_) (List.nodup_range.filter _)
  have hlt := List.mem_range.mp (List.mem_of_mem_filter hm)
  have hlt' := List.mem_range.mp (List.mem_of_mem_filter hn)
  rw [← UInt64.toNat_inj, UInt64.toNat_ofNat_of_lt' (hlt.trans hpow), UInt64.toNat_ofNat_of_lt' (hlt'.trans hpow)] at h
  exact h

theorem layerCandidates_lt {k : ℕ} (hk : k ≤ cfg.L) :
    ∀ x ∈ layerCandidates seed numBits cfg numInputs a k, x.toNat < 2 ^ (numBits.toNat - cfg.L + k) := by
  rw [layerCandidates_eq_descend]
  exact layer_descend (isTree_prefixes hbits hL) (heavyPrefixes_lt hbits hL) hk

theorem nodup_layerCandidates {k : ℕ} (hk : k ≤ cfg.L) : (layerCandidates seed numBits cfg numInputs a k).Nodup := by
  rw [layerCandidates_eq_descend]
  exact nodup_descend (isTree_prefixes hbits hL) (heavyPrefixes_lt hbits hL) (nodup_heavyPrefixes hbits hL) hk

/-- The candidates are the prefixes that are heavy in the frequency layer and in every layer above. -/
theorem mem_layerCandidates {k : ℕ} (hk : k ≤ cfg.L) (x : UInt64) :
    x ∈ layerCandidates seed numBits cfg numInputs a k ↔
      x >>> UInt64.ofNat k ∈ heavyPrefixes numBits cfg numInputs a ∧
        ∀ i < k, targetFreq numInputs cfg.t ≤
          minEstimate seed numBits cfg numInputs a i (x >>> UInt64.ofNat (k - 1 - i)) := by
  rw [layerCandidates_eq_descend, mem_descend_iff (isTree_prefixes hbits hL) (heavyPrefixes_lt hbits hL) hk,
    iterate_parentOf (by omega)]
  refine and_congr_right' (forall₂_congr fun i hi => ?_)
  rw [iterate_parentOf (by omega)]

end Candidates

/-! ### Brute force -/

section BruteForce

variable {seed : HashSeed} {numBits : UInt32} {cfg : HeavyConfig} {numInputs : ℕ} {a : List ℤ}

theorem getD_range (ha : ∀ x ∈ a, 0 ≤ x ∧ x < 2 ^ 32) (p : ℕ) : 0 ≤ a.getD p 0 ∧ a.getD p 0 < 2 ^ 32 := by
  rw [List.getD_eq_getElem?_getD]
  cases h : a[p]? with
  | none => exact ⟨le_rfl, by decide⟩
  | some x => exact ha x (List.mem_of_getElem? h)

theorem cast_estimate (ha : ∀ x ∈ a, 0 ≤ x ∧ x < 2 ^ 32) (p : ℕ) : (estimate a p : ℤ) = a.getD p 0 := by
  obtain ⟨hnonneg, hlt⟩ := getD_range ha p
  rw [estimate, toNat_toUInt32_fmpzGetUi (Int.toNat_of_nonneg hnonneg).symm (by omega), Int.toNat_of_nonneg hnonneg]

theorem cast_minEstimate (hw : 0 < cfg.w) (hw' : cfg.w < 2 ^ 32) (hn : numInputs < 2 ^ 32)
    (ha : ∀ x ∈ a, 0 ≤ x ∧ x < 2 ^ 32) (i : ℕ) (v : UInt64) :
    (minEstimate seed numBits cfg numInputs a i (layerPrefix cfg.L i v) : ℤ) =
      leastEntry seed numBits cfg numInputs a i v := by
  have hbucket : ∀ j, serverBucket (hashStores seed numBits cfg i) j (layerPrefix cfg.L i v) =
      layerBucket seed numBits cfg i j v := fun j => serverBucket_eq (hashStores seed numBits cfg i) hw hw' j _
  refine eq_of_forall_le_iff fun c => ?_
  rw [leastEntry, le_foldr_min_iff, List.forall_mem_map, ← Int.toNat_le, minEstimate, le_minOver_iff,
    UInt32.toNat_ofNat_of_lt' hn, Int.toNat_le]
  refine and_congr_right' ?_
  simp only [List.mem_range, hbucket, Int.toNat_le, cast_estimate ha, gridPos]

/-- What `heavy_op` reports, each once, are the values whose entries reach the threshold in the frequency layer and in
every layer. -/
theorem heavyQuery_spec (seed : HashSeed) (hbits : numBits.toNat ≤ 63) (hL : cfg.L ≤ numBits.toNat) (hw : 0 < cfg.w)
    (hw' : cfg.w < 2 ^ 32) (hn : numInputs < 2 ^ 32) (ha : ∀ x ∈ a, 0 ≤ x ∧ x < 2 ^ 32) :
    (heavyQuery seed numBits cfg numInputs a).Nodup ∧
      ∀ v : UInt64, v ∈ heavyQuery seed numBits cfg numInputs a ↔
        v.toNat < 2 ^ numBits.toNat ∧
          targetFreq numInputs cfg.t ≤ a.getD (cfg.L * cfg.d * cfg.w + (v >>> UInt64.ofNat cfg.L).toNat) 0 ∧
          ∀ i < cfg.L, targetFreq numInputs cfg.t ≤ leastEntry seed numBits cfg numInputs a i v := by
  refine ⟨nodup_layerCandidates hbits hL le_rfl, fun v => ?_⟩
  have hlt : (v >>> UInt64.ofNat cfg.L).toNat < 2 ^ (numBits.toNat - cfg.L) ↔ v.toNat < 2 ^ numBits.toNat := by
    rw [toNat_shiftRight_ofNat v (by omega), Nat.div_lt_iff_lt_mul (Nat.two_pow_pos _), ← pow_add,
      Nat.sub_add_cancel hL]
  have hentry : ∀ p, ((fmpzGetUi (a.getD p 0)).toNat : ℚ) = a.getD p 0 := by
    intro p
    obtain ⟨hnonneg, hlt⟩ := getD_range ha p
    rw [toNat_fmpzGetUi (Int.toNat_of_nonneg hnonneg).symm (by omega), ← Int.cast_natCast,
      Int.toNat_of_nonneg hnonneg]
  have hquery : heavyQuery seed numBits cfg numInputs a = layerCandidates seed numBits cfg numInputs a cfg.L := rfl
  rw [hquery, mem_layerCandidates hbits hL le_rfl, mem_heavyPrefixes_iff hbits hL, hlt, hentry, and_assoc]
  refine and_congr_right' (and_congr_right' (forall₂_congr fun i _ => ?_))
  rw [← cast_minEstimate hw hw' hn ha i v, Int.cast_natCast, layerPrefix]

theorem heavyQuery_spec_two_bits :
    (heavyQuery { draw := fun _ _ _ _ _ => 0 } 2 { t := 1 / 2, w := 2, d := 1, L := 1 } 2 [2, 0, 2, 0]).Nodup ∧
      (1 : UInt64) ∈
        heavyQuery { draw := fun _ _ _ _ _ => 0 } 2 { t := 1 / 2, w := 2, d := 1, L := 1 } 2 [2, 0, 2, 0] ∧
      (2 : UInt64) ∉
        heavyQuery { draw := fun _ _ _ _ _ => 0 } 2 { t := 1 / 2, w := 2, d := 1, L := 1 } 2 [2, 0, 2, 0] := by
  have hspec := @heavyQuery_spec 2 { t := 1 / 2, w := 2, d := 1, L := 1 } 2 [2, 0, 2, 0]
    { draw := fun _ _ _ _ _ => 0 } (by decide) (by decide) (by decide) (by decide) (by decide) (by decide)
  exact ⟨hspec.1, (hspec.2 1).mpr (by decide +kernel), fun h => absurd ((hspec.2 2).mp h) (by decide +kernel)⟩

end BruteForce

end PrioPlus

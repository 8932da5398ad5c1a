import PrioPlus.Server.HeavyQuery

/-!
# The layout of the table of `heavy_op`

The client takes for the number of layers the difference of `num_bits` and `LOG2(w * d)`, both unsigned. Unless it wraps
the table holds all layers and the frequency layer without overlap, in a size that is a word, and every index that the
client writes or a server reads is in it (`heavyLayout_iff`).
-/

namespace PrioPlus

open Lib.FlatLoop

/-- `L`, as `heavy_op` of the client computes it from its arguments. -/
def heavyLayers (numBits : UInt32) (w d : Int32) : ℕ :=
  (numBits - log2 (w.toInt64.toUInt64 * d.toInt64.toUInt64)).toNat

/-- `hconfig`. -/
def heavyOpConfig (t : ℚ) (numBits : UInt32) (w d : Int32) : HeavyConfig := heavyConfig t w d (heavyLayers numBits w d)

/-- The cells of the table: a bucket of a row of a layer, or an entry of the frequency layer. -/
inductive Cell (numBits : UInt32) (cfg : HeavyConfig)
  | bucket (k : Fin cfg.L) (j : Fin cfg.d) (h : Fin cfg.w)
  | freq (x : Fin (firstSize numBits cfg.L))

/-- The index of a cell. -/
def Cell.index {numBits : UInt32} {cfg : HeavyConfig} : Cell numBits cfg → ℕ
  | .bucket k j h => k * cfg.d * cfg.w + j * cfg.w + h
  | .freq x => cfg.L * cfg.d * cfg.w + x

/-- The table is laid out as the client and the servers use it. -/
structure HeavyLayout (numBits : UInt32) (cfg : HeavyConfig) : Prop where
  layers : cfg.L ≤ numBits.toNat
  firstSize : firstSize numBits cfg.L = 2 ^ (numBits.toNat - cfg.L)
  size : shareSize numBits cfg = tableCells numBits cfg
  written : ∀ (seed : HashSeed) (v : UInt64), v.toNat < 2 ^ numBits.toNat →
    ∀ p ∈ heavyPositions seed numBits cfg v, p < shareSize numBits cfg
  readFreq : ∀ x < PrioPlus.firstSize numBits cfg.L, cfg.L * cfg.d * cfg.w + x < shareSize numBits cfg
  readLayer : ∀ (seed : HashSeed) (x : UInt64), ∀ i < cfg.L, ∀ j < cfg.d,
    i * cfg.d * cfg.w + j * cfg.w + serverBucket (hashStores seed numBits cfg i) j x < shareSize numBits cfg
  cells : ∀ c : Cell numBits cfg, c.index < shareSize numBits cfg
  injective : Function.Injective (@Cell.index numBits cfg)

section Layout

variable {numBits : UInt32} {cfg : HeavyConfig}

theorem index_bucket_lt (k : Fin cfg.L) (j : Fin cfg.d) (h : Fin cfg.w) :
    (Cell.bucket k j h : Cell numBits cfg).index < cfg.L * cfg.d * cfg.w := gridPos_lt k.isLt j.isLt h.isLt

theorem index_lt_tableCells (c : Cell numBits cfg) : c.index < tableCells numBits cfg := by
  cases c with
  | bucket k j h => exact (index_bucket_lt k j h).trans_le (Nat.le_add_right _ _)
  | freq x => exact Nat.add_lt_add_left x.isLt _

theorem index_injective : Function.Injective (@Cell.index numBits cfg) := by
  intro c c' heq
  cases c with
  | bucket k j h =>
    cases c' with
    | bucket k' j' h' =>
      obtain ⟨hk, hj, hh⟩ := gridPos_inj j.isLt j'.isLt h.isLt h'.isLt heq
      rw [Fin.ext hk, Fin.ext hj, Fin.ext hh]
    | freq x =>
      have hlt := @index_bucket_lt numBits cfg k j h
      rw [heq] at hlt
      exact absurd hlt (not_lt.mpr (Nat.le_add_right _ _))
  | freq x =>
    cases c' with
    | bucket k' j' h' =>
      have hlt := @index_bucket_lt numBits cfg k' j' h'
      rw [← heq] at hlt
      exact absurd hlt (not_lt.mpr (Nat.le_add_right _ _))
    | freq x' => rw [Fin.ext (Nat.add_left_cancel heq)]

end Layout

/-! ### When the difference wraps -/

section Wrap

variable {numBits : UInt32} {w d : Int32}

theorem toNat_width_mul (hw : 1 ≤ w) (hd : 1 ≤ d) :
    (w.toInt64.toUInt64 * d.toInt64.toUInt64).toNat = atoiSize w * atoiSize d := by
  have hlt : atoiSize w * atoiSize d < 2 ^ 31 * 2 ^ 31 :=
    Nat.mul_lt_mul'' (atoiSize_eq hw).2 (atoiSize_eq hd).2
  rw [UInt64.toNat_mul]
  exact Nat.mod_eq_of_lt (hlt.trans (by decide))

theorem heavyLayers_eq (h : (log2 (w.toInt64.toUInt64 * d.toInt64.toUInt64)).toNat ≤ numBits.toNat) :
    heavyLayers numBits w d = numBits.toNat - (log2 (w.toInt64.toUInt64 * d.toInt64.toUInt64)).toNat :=
  UInt32.toNat_sub_of_le _ _ (UInt32.le_iff_toNat_le.mpr h)

/-- A difference that wraps is larger than `num_bits`. -/
theorem lt_heavyLayers (h : numBits.toNat < (log2 (w.toInt64.toUInt64 * d.toInt64.toUInt64)).toNat) :
    numBits.toNat < heavyLayers numBits w d := by
  have hlt := (log2 (w.toInt64.toUInt64 * d.toInt64.toUInt64)).toNat_lt
  have hlt' := numBits.toNat_lt
  rw [heavyLayers, UInt32.toNat_sub, Nat.mod_eq_of_lt (by omega)]
  omega

theorem shareSize_eq_tableCells (hbits : numBits.toNat ≤ 63) {cfg : HeavyConfig} {b : ℕ} (hb : b ≤ numBits.toNat)
    (hL : cfg.L = numBits.toNat - b) (hcells : cfg.w * cfg.d < 2 ^ b) :
    shareSize numBits cfg = tableCells numBits cfg := by
  have hfirst : firstSize numBits cfg.L = 2 ^ b := by
    rw [firstSize_eq hbits (by omega), hL]
    congr 1
    omega
  have hsize : cfg.L * cfg.d * cfg.w + 2 ^ b ≤ 2 ^ 63 := calc
    cfg.L * cfg.d * cfg.w + 2 ^ b = cfg.L * (cfg.w * cfg.d) + 2 ^ b := by rw [mul_assoc, mul_comm cfg.d]
    _ ≤ (63 - b) * 2 ^ b + 2 ^ b := Nat.add_le_add_right (Nat.mul_le_mul (by omega) hcells.le) _
    _ = (63 - b + 1) * 2 ^ b := (Nat.succ_mul _ _).symm
    _ ≤ 2 ^ (63 - b) * 2 ^ b := Nat.mul_le_mul_right _ (Nat.lt_two_pow_self)
    _ = 2 ^ 63 := by rw [← pow_add, Nat.sub_add_cancel (by omega)]
  rw [shareSize_eq_mod, tableCells, hfirst]
  exact Nat.mod_eq_of_lt (by omega)

theorem heavyLayout_of_le (t : ℚ) (hbits : numBits.toNat ≤ 63) (hw : 1 ≤ w) (hd : 1 ≤ d)
    (h : (log2 (w.toInt64.toUInt64 * d.toInt64.toUInt64)).toNat ≤ numBits.toNat) :
    HeavyLayout numBits (heavyOpConfig t numBits w d) := by
  obtain ⟨hwpos, hwlt⟩ := atoiSize_eq hw
  have hcells := lt_two_pow_log2 (w.toInt64.toUInt64 * d.toInt64.toUInt64)
  rw [toNat_width_mul hw hd] at hcells
  have hlayers := heavyLayers_eq h
  have hL : (heavyOpConfig t numBits w d).L ≤ numBits.toNat := hlayers.le.trans (Nat.sub_le _ _)
  have hword : shareSize numBits (heavyOpConfig t numBits w d) = tableCells numBits (heavyOpConfig t numBits w d) :=
    shareSize_eq_tableCells hbits h hlayers hcells
  refine ⟨hL, firstSize_eq hbits hL, hword, ?_, ?_, ?_, ?_, index_injective⟩
  · intro seed v hv p hp
    rw [hword]
    rcases (mem_heavyPositions seed numBits v hwpos hwlt p).mp hp with ⟨k, hk, j, hj, rfl⟩ | rfl
    · exact (gridPos_lt hk hj (layerBucket_lt seed numBits v hwpos k j)).trans_le (Nat.le_add_right _ _)
    · exact Nat.add_lt_add_left (shiftRight_lt_firstSize hbits hL hv) _
  · intro x hx
    rw [hword]
    exact Nat.add_lt_add_left hx _
  · intro seed x i hi j hj
    have hbucket := bucketOf_lt (hashStores seed numBits (heavyOpConfig t numBits w d) i) hwpos j x
    rw [hword, serverBucket_eq (hashStores seed numBits (heavyOpConfig t numBits w d) i) hwpos
      (hwlt.trans (by decide))]
    exact (gridPos_lt hi hj hbucket).trans_le (Nat.le_add_right _ _)
  · intro c
    rw [hword]
    exact index_lt_tableCells c

/-- The table is laid out as intended exactly when `LOG2(w * d)` is at most `num_bits`. -/
theorem heavyLayout_iff (t : ℚ) (hbits : numBits.toNat ≤ 63) (hw : 1 ≤ w) (hd : 1 ≤ d) :
    HeavyLayout numBits (heavyOpConfig t numBits w d) ↔
      (log2 (w.toInt64.toUInt64 * d.toInt64.toUInt64)).toNat ≤ numBits.toNat := by
  refine ⟨fun hlayout => ?_, heavyLayout_of_le t hbits hw hd⟩
  by_contra hwrap
  exact absurd hlayout.layers (not_le.mpr (lt_heavyLayers (not_le.mp hwrap)))

theorem heavyLayout_iff_20_16 : HeavyLayout 20 (heavyOpConfig (1 / 2) 20 16 16) :=
  (heavyLayout_iff (1 / 2) (by decide) (by decide) (by decide)).mpr (by decide +kernel)

/-- With eight bits and 16 rows of 16 buckets there are `2 ^ 32 - 1` layers. -/
theorem not_heavyLayout_8_16 :
    (heavyOpConfig (1 / 2) 8 16 16).L = 2 ^ 32 - 1 ∧ ¬ HeavyLayout 8 (heavyOpConfig (1 / 2) 8 16 16) := by
  have hL : (heavyOpConfig (1 / 2) 8 16 16).L = 2 ^ 32 - 1 := by decide +kernel
  refine ⟨hL, fun hlayout => ?_⟩
  have hle := hlayout.layers
  rw [hL] at hle
  exact absurd hle (by decide)

end Wrap

end PrioPlus

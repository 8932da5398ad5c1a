import PrioPlus.Hash
import PrioPlus.Lib.CountMin
import PrioPlus.Server.FreqShare
import PrioPlus.Utils

/-!
# The clients of `heavy_op`, `heavy_helper`

A client shares a table that has a one at the bucket of each layer's prefix of its value, for each hash function of
the layer, and a one in the frequency layer. Over a batch the buckets of a row therefore count the prefixes
(`tableSum_layer`), and the frequency layer counts the shortest prefixes (`tableSum_freq`).
-/

namespace PrioPlus

open Lib.FlatLoop Lib.CountMin

structure HeavyConfig where
  t : ℚ
  w : ℕ
  d : ℕ
  L : ℕ

/-- A `size_t` that `main` sets from `atoi`. -/
def atoiSize (x : Int32) : ℕ := x.toInt64.toUInt64.toNat

/-- The configuration that the client sets from its arguments. -/
def heavyConfig (t : ℚ) (w d : Int32) (L : ℕ) : HeavyConfig := { t, w := atoiSize w, d := atoiSize d, L }

/-- `first_size`, the size of the frequency layer. -/
def firstSize (numBits : UInt32) (L : ℕ) : ℕ := ((1 : UInt64) <<< (numBits.toUInt64 - UInt64.ofNat L)).toNat

/-- `share_size`, a `size_t`. -/
def shareWord (numBits : UInt32) (cfg : HeavyConfig) : UInt64 :=
  UInt64.ofNat cfg.L * UInt64.ofNat cfg.d * UInt64.ofNat cfg.w + (1 : UInt64) <<< (numBits.toUInt64 - UInt64.ofNat cfg.L)

def shareSize (numBits : UInt32) (cfg : HeavyConfig) : ℕ := (shareWord numBits cfg).toNat

/-- The cells of the table: `share_size`, unless it wraps. -/
def tableCells (numBits : UInt32) (cfg : HeavyConfig) : ℕ := cfg.L * cfg.d * cfg.w + firstSize numBits cfg.L

/-- `hash_stores[k]`, on the client and on the servers. -/
def hashStores (seed : HashSeed) (numBits : UInt32) (cfg : HeavyConfig) (k : ℕ) : HashStore :=
  HashStore.new seed cfg.d (numBits.toNat - k) cfg.w

/-- The client's `int h` for the value `x` and hash function `j`. -/
def clientBucket (store : HashStore) (j : ℕ) (x : UInt64) : ℕ :=
  (fmpzGetSi (store.eval (UInt32.ofNat j) x.toUInt32)).toInt32.toInt.toNat

/-- The positions that `heavy_helper` flips, in its order. -/
def heavyPositions (seed : HashSeed) (numBits : UInt32) (cfg : HeavyConfig) (realVal : UInt64) : List ℕ :=
  ((List.range cfg.L).flatMap fun k => (List.range cfg.d).map fun j =>
    k * cfg.d * cfg.w + j * cfg.w +
      clientBucket (hashStores seed numBits cfg k) j (realVal >>> UInt64.ofNat (cfg.L - 1 - k))) ++
  [cfg.L * cfg.d * cfg.w + (realVal >>> UInt64.ofNat cfg.L).toNat]

/-- `arr[i] ^= 1`. -/
def flipAt {n : ℕ} (arr : Vector Bool n) (i : ℕ) : Vector Bool n := arr.setIfInBounds i !arr.toList.getD i false

/-- What one client draws: its key, the word that its value comes from and the first share. -/
structure HeavyClient (size : ℕ) where
  pk : Pk
  word : UInt64
  mask : Vector Bool size

/-- `real_val`, the word modulo `max_int`. -/
def HeavyClient.realVal {size : ℕ} (c : HeavyClient size) (numBits : UInt32) : UInt64 :=
  c.word % ((1 : UInt64) <<< numBits.toUInt64)

/-- `heavy_helper`, for one client: the submissions to the two servers. -/
def heavyHelper (seed : HashSeed) (numBits : UInt32) (cfg : HeavyConfig) (c : HeavyClient (shareSize numBits cfg)) :
    FreqShare (shareSize numBits cfg) × FreqShare (shareSize numBits cfg) :=
  ({ pk := c.pk, arr := c.mask },
    { pk := c.pk, arr := (heavyPositions seed numBits cfg (c.realVal numBits)).foldl flipAt c.mask })

/-! ### Sizes and values -/

theorem atoiSize_eq {x : Int32} (hx : 1 ≤ x) : 0 < atoiSize x ∧ atoiSize x < 2 ^ 31 := by
  have hone : (1 : Int32).toInt = 1 := rfl
  have hle : 1 ≤ x.toInt := by
    rw [← hone]
    exact Int32.le_iff_toInt_le.mp hx
  have hlt := x.toInt_lt
  have hnonneg : (0 : Int64) ≤ x.toInt64 := by
    rw [Int64.le_iff_toInt_le, Int32.toInt_toInt64]
    exact (by decide : (0 : ℤ) ≤ 1).trans hle
  rw [atoiSize, Int64.toNat_toUInt64_of_le hnonneg, Int32.toNatClampNeg_toInt64, Int32.toNatClampNeg]
  omega

theorem firstSize_le (numBits : UInt32) (L : ℕ) : firstSize numBits L ≤ 2 ^ 63 := by
  rw [firstSize, UInt64.toNat_shiftLeft, UInt64.toNat_one, Nat.one_shiftLeft]
  refine (Nat.mod_le _ _).trans (Nat.pow_le_pow_right (by decide) ?_)
  omega

theorem firstSize_pos (numBits : UInt32) (L : ℕ) : 0 < firstSize numBits L := by
  have hlt : (numBits.toUInt64 - UInt64.ofNat L).toNat % 64 < 64 := Nat.mod_lt _ (by decide)
  have hpow : 2 ^ ((numBits.toUInt64 - UInt64.ofNat L).toNat % 64) < 2 ^ 64 := Nat.pow_lt_pow_right (by decide) hlt
  rw [firstSize, UInt64.toNat_shiftLeft, UInt64.toNat_one, Nat.one_shiftLeft, Nat.mod_eq_of_lt hpow]
  exact Nat.two_pow_pos _

theorem shareSize_eq_mod (numBits : UInt32) (cfg : HeavyConfig) :
    shareSize numBits cfg = tableCells numBits cfg % 2 ^ 64 := by
  rw [shareSize, shareWord, ← UInt64.ofNat_mul, ← UInt64.ofNat_mul, UInt64.toNat_add, UInt64.toNat_ofNat', tableCells,
    firstSize, Nat.mod_add_mod]

theorem shareSize_of_lt {numBits : UInt32} {cfg : HeavyConfig} (h : tableCells numBits cfg < 2 ^ 32) :
    shareSize numBits cfg = tableCells numBits cfg :=
  (shareSize_eq_mod numBits cfg).trans (Nat.mod_eq_of_lt (h.trans (by decide)))

theorem shareSize_eq (numBits : UInt32) {cfg : HeavyConfig} (hw : cfg.w < 2 ^ 31) (hrows : cfg.L * cfg.d < 2 ^ 32) :
    shareSize numBits cfg = tableCells numBits cfg := by
  have hcells : cfg.L * cfg.d * cfg.w < 2 ^ 32 * 2 ^ 31 := Nat.mul_lt_mul'' hrows hw
  have hfirst := firstSize_le numBits cfg.L
  rw [shareSize_eq_mod, tableCells]
  exact Nat.mod_eq_of_lt (by omega)

section Sizes

variable {numBits : UInt32} (hbits : numBits.toNat ≤ 63)
include hbits

theorem firstSize_eq {L : ℕ} (hL : L ≤ numBits.toNat) : firstSize numBits L = 2 ^ (numBits.toNat - L) := by
  have hofNat : (UInt64.ofNat L).toNat = L := UInt64.toNat_ofNat_of_lt' ((hL.trans hbits).trans_lt (by decide))
  have hle : UInt64.ofNat L ≤ numBits.toUInt64 := by
    rw [UInt64.le_iff_toNat_le, hofNat, UInt32.toNat_toUInt64]
    exact hL
  have hsub : (numBits.toUInt64 - UInt64.ofNat L).toNat = numBits.toNat - L := by
    rw [UInt64.toNat_sub_of_le _ _ hle, hofNat, UInt32.toNat_toUInt64]
  rw [firstSize, toNat_one_shiftLeft (by omega), hsub]

theorem shiftRight_lt_firstSize {L : ℕ} (hL : L ≤ numBits.toNat) {v : UInt64} (hv : v.toNat < 2 ^ numBits.toNat) :
    (v >>> UInt64.ofNat L).toNat < firstSize numBits L := by
  rw [toNat_shiftRight_ofNat v (by omega), firstSize_eq hbits hL, Nat.div_lt_iff_lt_mul (Nat.two_pow_pos _), ← pow_add,
    Nat.sub_add_cancel hL]
  exact hv

theorem realVal_lt {size : ℕ} (c : HeavyClient size) : (c.realVal numBits).toNat < 2 ^ numBits.toNat := by
  have hmax := toNat_one_shiftLeft (n := numBits.toUInt64) (by rwa [UInt32.toNat_toUInt64])
  rw [UInt32.toNat_toUInt64] at hmax
  rw [HeavyClient.realVal, UInt64.toNat_mod, hmax]
  exact Nat.mod_lt _ (Nat.two_pow_pos _)

end Sizes

/-! ### Flipped bits -/

theorem getD_flipAt {n : ℕ} (arr : Vector Bool n) (p : ℕ) {i : ℕ} (hi : i < n) :
    (flipAt arr p).toList.getD i false = (arr.toList.getD i false ^^ decide (i = p)) := by
  rw [flipAt, Vector.toList_setIfInBounds, List.getD_eq_getElem?_getD, List.getElem?_set]
  by_cases hp : p = i
  · subst hp
    simp [hi]
  · simp [hp, Ne.symm hp]

theorem getD_foldl_flipAt {n : ℕ} (ps : List ℕ) (hnodup : ps.Nodup) (arr : Vector Bool n) {i : ℕ} (hi : i < n) :
    (ps.foldl flipAt arr).toList.getD i false = (arr.toList.getD i false ^^ decide (i ∈ ps)) := by
  induction ps generalizing arr with
  | nil => simp
  | cons p ps ih =>
    obtain ⟨hnot, hrest⟩ := List.nodup_cons.mp hnodup
    rw [List.foldl_cons, ih hrest, getD_flipAt arr p hi]
    by_cases hp : i = p
    · subst hp
      simp [hnot]
    · simp [hp]

/-! ### Buckets -/

/-- The bucket of the value `x` in the row of hash function `j`. -/
def bucketOf (store : HashStore) (j : ℕ) (x : UInt64) : ℕ := (store.eval (UInt32.ofNat j) x.toUInt32).toNat

theorem eval_eq_bucketOf {store : HashStore} (hw : 0 < store.w) (j : ℕ) (x : UInt64) :
    store.eval (UInt32.ofNat j) x.toUInt32 = (bucketOf store j x : ℤ) :=
  (Int.toNat_of_nonneg (store.eval_range hw _ _).1).symm

theorem bucketOf_lt (store : HashStore) (hw : 0 < store.w) (j : ℕ) (x : UInt64) : bucketOf store j x < store.w := by
  have hlt := (store.eval_range hw (UInt32.ofNat j) x.toUInt32).2
  rw [eval_eq_bucketOf hw] at hlt
  exact_mod_cast hlt

theorem clientBucket_eq (store : HashStore) (hw : 0 < store.w) (hw' : store.w < 2 ^ 31) (j : ℕ) (x : UInt64) :
    clientBucket store j x = bucketOf store j x := by
  rw [clientBucket, toInt_toInt32_fmpzGetSi (eval_eq_bucketOf hw j x) ((bucketOf_lt store hw j x).trans hw'),
    Int.toNat_natCast]

/-! ### The flipped positions -/

section Positions

variable (seed : HashSeed) (numBits : UInt32) {cfg : HeavyConfig} (realVal : UInt64)

/-- The prefix of a value in layer `k`. -/
def layerPrefix (L k : ℕ) (v : UInt64) : UInt64 := v >>> UInt64.ofNat (L - 1 - k)

/-- The hash of a value in row `j` of layer `k`. -/
def layerBucket (seed : HashSeed) (numBits : UInt32) (cfg : HeavyConfig) (k j : ℕ) (v : UInt64) : ℕ :=
  bucketOf (hashStores seed numBits cfg k) j (layerPrefix cfg.L k v)

theorem layerBucket_lt (hw : 0 < cfg.w) (k j : ℕ) : layerBucket seed numBits cfg k j realVal < cfg.w :=
  bucketOf_lt (hashStores seed numBits cfg k) hw _ _

theorem mem_heavyPositions (hw : 0 < cfg.w) (hw' : cfg.w < 2 ^ 31) (p : ℕ) :
    p ∈ heavyPositions seed numBits cfg realVal ↔
      (∃ k < cfg.L, ∃ j < cfg.d, gridPos cfg.d cfg.w k j (layerBucket seed numBits cfg k j realVal) = p) ∨
        p = cfg.L * cfg.d * cfg.w + (realVal >>> UInt64.ofNat cfg.L).toNat := by
  have hbucket : ∀ k j, clientBucket (hashStores seed numBits cfg k) j (realVal >>> UInt64.ofNat (cfg.L - 1 - k)) =
      layerBucket seed numBits cfg k j realVal :=
    fun k j => clientBucket_eq (hashStores seed numBits cfg k) hw hw' _ _
  simp only [heavyPositions, hbucket, List.mem_append, List.mem_flatMap, List.mem_map, List.mem_range,
    List.mem_singleton, gridPos]

theorem nodup_heavyPositions (hw : 0 < cfg.w) (hw' : cfg.w < 2 ^ 31) :
    (heavyPositions seed numBits cfg realVal).Nodup := by
  have hbucket : ∀ k j, clientBucket (hashStores seed numBits cfg k) j (realVal >>> UInt64.ofNat (cfg.L - 1 - k)) =
      layerBucket seed numBits cfg k j realVal :=
    fun k j => clientBucket_eq (hashStores seed numBits cfg k) hw hw' _ _
  have hlt := layerBucket_lt seed numBits realVal hw
  simp only [heavyPositions, hbucket]
  refine List.nodup_append.mpr ⟨List.nodup_flatMap.mpr ⟨fun k _ => ?_, ?_⟩, List.nodup_singleton _, ?_⟩
  · -- the rows of one layer
    refine List.Nodup.map_on (fun j hj j' hj' h => ?_) List.nodup_range
    exact (gridPos_inj (List.mem_range.mp hj) (List.mem_range.mp hj') (hlt k j) (hlt k j') h).2.1
  · -- two layers
    refine List.Pairwise.imp (fun hne => ?_) (List.nodup_range)
    intro p hp hp'
    obtain ⟨j, hj, rfl⟩ := List.mem_map.mp hp
    obtain ⟨j', hj', h⟩ := List.mem_map.mp hp'
    exact hne (gridPos_inj (List.mem_range.mp hj') (List.mem_range.mp hj) (hlt _ j') (hlt _ j) h).1.symm
  · -- the frequency layer comes after all the others
    intro p hp q hq
    obtain ⟨k, hk, hp⟩ := List.mem_flatMap.mp hp
    obtain ⟨j, hj, rfl⟩ := List.mem_map.mp hp
    obtain rfl := List.mem_singleton.mp hq
    have hpos := gridPos_lt (List.mem_range.mp hk) (List.mem_range.mp hj) (hlt k j)
    rw [gridPos] at hpos
    omega

end Positions

/-! ### What a batch adds up to -/

section Batch

variable {seed : HashSeed} {numBits : UInt32} {cfg : HeavyConfig}

/-- A bit of the xor of the two shares of a client. -/
def heavyBit (seed : HashSeed) (numBits : UInt32) (cfg : HeavyConfig) (c : HeavyClient (shareSize numBits cfg))
    (p : ℕ) : Bool :=
  (heavyHelper seed numBits cfg c).1.arr.toList.getD p false ^^
    (heavyHelper seed numBits cfg c).2.arr.toList.getD p false

/-- The values of a batch. -/
def realVals (numBits : UInt32) (cfg : HeavyConfig) (clients : List (HeavyClient (shareSize numBits cfg))) :
    List UInt64 := clients.map fun c => c.realVal numBits

/-- The number of ones that the batch has at a position of the table. -/
def tableSum (seed : HashSeed) (numBits : UInt32) (cfg : HeavyConfig)
    (clients : List (HeavyClient (shareSize numBits cfg))) (p : ℕ) : ℕ :=
  (clients.map fun c => (heavyBit seed numBits cfg c p).toNat).sum

theorem heavyBit_eq_true_iff (hw : 0 < cfg.w) (hw' : cfg.w < 2 ^ 31) (c : HeavyClient (shareSize numBits cfg)) {p : ℕ}
    (hp : p < shareSize numBits cfg) :
    heavyBit seed numBits cfg c p = true ↔ p ∈ heavyPositions seed numBits cfg (c.realVal numBits) := by
  have hflip := getD_foldl_flipAt (heavyPositions seed numBits cfg (c.realVal numBits))
    (nodup_heavyPositions seed numBits (c.realVal numBits) hw hw') c.mask hp
  rw [heavyBit, heavyHelper, hflip, ← Bool.xor_assoc, Bool.xor_self, Bool.false_xor, decide_eq_true_iff]

variable (hcells : shareSize numBits cfg = tableCells numBits cfg)
include hcells

theorem heavyBit_layer (hw : 0 < cfg.w) (hw' : cfg.w < 2 ^ 31) (c : HeavyClient (shareSize numBits cfg)) {k j b : ℕ}
    (hk : k < cfg.L) (hj : j < cfg.d) (hb : b < cfg.w) :
    heavyBit seed numBits cfg c (gridPos cfg.d cfg.w k j b) = true ↔
      layerBucket seed numBits cfg k j (c.realVal numBits) = b := by
  have hpos := gridPos_lt hk hj hb
  have hlt := layerBucket_lt seed numBits (c.realVal numBits) hw
  have hsize : gridPos cfg.d cfg.w k j b < shareSize numBits cfg :=
    hcells.symm ▸ hpos.trans_le (Nat.le_add_right _ _)
  rw [heavyBit_eq_true_iff hw hw' c hsize, mem_heavyPositions _ _ _ hw hw']
  constructor
  · rintro (⟨k', hk', j', hj', h⟩ | h)
    · obtain ⟨rfl, rfl, hbucket⟩ := gridPos_inj hj' hj (hlt _ _) hb h
      exact hbucket
    · omega
  · intro h
    exact Or.inl ⟨k, hk, j, hj, by rw [h]⟩

theorem heavyBit_freq (hw : 0 < cfg.w) (hw' : cfg.w < 2 ^ 31) (c : HeavyClient (shareSize numBits cfg)) {x : ℕ}
    (hx : x < firstSize numBits cfg.L) :
    heavyBit seed numBits cfg c (cfg.L * cfg.d * cfg.w + x) = true ↔
      (c.realVal numBits >>> UInt64.ofNat cfg.L).toNat = x := by
  have hlt := layerBucket_lt seed numBits (c.realVal numBits) hw
  have hpos : cfg.L * cfg.d * cfg.w + x < shareSize numBits cfg := hcells.symm ▸ Nat.add_lt_add_left hx _
  rw [heavyBit_eq_true_iff hw hw' c hpos, mem_heavyPositions _ _ _ hw hw']
  constructor
  · rintro (⟨k, hk, j, hj, h⟩ | h)
    · have hgrid := gridPos_lt hk hj (hlt k j)
      omega
    · omega
  · rintro rfl
    exact Or.inr rfl

variable (clients : List (HeavyClient (shareSize numBits cfg)))

theorem tableSum_layer (seed : HashSeed) (hw : 0 < cfg.w) (hw' : cfg.w < 2 ^ 31) {k j b : ℕ} (hk : k < cfg.L)
    (hj : j < cfg.d) (hb : b < cfg.w) :
    tableSum seed numBits cfg clients (gridPos cfg.d cfg.w k j b) =
      bucket (layerBucket seed numBits cfg k j) (realVals numBits cfg clients) b := by
  have hbit : ∀ c ∈ clients, (heavyBit seed numBits cfg c (gridPos cfg.d cfg.w k j b) = true ↔
      layerBucket seed numBits cfg k j (c.realVal numBits) = b) :=
    fun c _ => heavyBit_layer hcells hw hw' c hk hj hb
  rw [tableSum, sum_bits_eq_bucket _ _ _ hbit]
  rw [bucket, bucket, realVals, List.countP_map]
  rfl

theorem tableSum_freq (seed : HashSeed) (hw : 0 < cfg.w) (hw' : cfg.w < 2 ^ 31) {x : ℕ}
    (hx : x < firstSize numBits cfg.L) :
    tableSum seed numBits cfg clients (cfg.L * cfg.d * cfg.w + x) =
      bucket (fun v : UInt64 => (v >>> UInt64.ofNat cfg.L).toNat) (realVals numBits cfg clients) x := by
  have hbit : ∀ c ∈ clients, (heavyBit seed numBits cfg c (cfg.L * cfg.d * cfg.w + x) = true ↔
      (c.realVal numBits >>> UInt64.ofNat cfg.L).toNat = x) :=
    fun c _ => heavyBit_freq hcells hw hw' c hx
  rw [tableSum, sum_bits_eq_bucket _ _ _ hbit]
  rw [bucket, bucket, realVals, List.countP_map]
  rfl

end Batch

end PrioPlus

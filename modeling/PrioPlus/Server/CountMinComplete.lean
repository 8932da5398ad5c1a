import PrioPlus.Server.HonestTable

/-!
# `countMin_op` on honest clients

`countmin_helper` puts a one into the bucket of the client's value in each of the `d` rows. On honest clients the
combined table therefore counts the values that fall into each bucket, and an estimate is never too low
(`count_le_countMinEstimate`) as long as an `int` holds the number of inputs. The loop of the query stops at 256, so
it reports every heavy value exactly when no heavy value is that large, and the batch ends only when 32 bits count its
bits (`countMinOp_complete_iff`).
-/

namespace PrioPlus

open Lib.TwoParty Lib.CountMin Lib.FlatLoop

/-! ### The client -/

section Client

/-- `hash_store`, on the client and on the servers. -/
def countMinStore (seed : HashSeed) (numBits : UInt32) (cfg : HeavyConfig) : HashStore :=
  HashStore.new seed cfg.d numBits.toNat cfg.w

/-- The positions that `countmin_helper` flips, in its order. -/
def countMinPositions (seed : HashSeed) (numBits : UInt32) (cfg : HeavyConfig) (realVal : UInt64) : List ℕ :=
  (List.range cfg.d).map fun j => j * cfg.w + clientBucket (countMinStore seed numBits cfg) j realVal

/-- `countmin_helper`, for one client: the submissions to the two servers. -/
def countMinHelper (seed : HashSeed) (numBits : UInt32) (cfg : HeavyConfig) (c : HeavyClient (cfg.d * cfg.w)) :
    FreqShare (cfg.d * cfg.w) × FreqShare (cfg.d * cfg.w) :=
  ({ pk := c.pk, arr := c.mask },
    { pk := c.pk, arr := (countMinPositions seed numBits cfg (c.realVal numBits)).foldl flipAt c.mask })

/-- What the clients of `countMin_op` send. -/
def countMinTable (seed : HashSeed) (numBits : UInt32) (cfg : HeavyConfig) :
    TableClient (HeavyClient (cfg.d * cfg.w)) (cfg.d * cfg.w) where
  pk := HeavyClient.pk
  share0 := fun c => (countMinHelper seed numBits cfg c).1
  share1 := fun c => (countMinHelper seed numBits cfg c).2
  pk_share0 := fun _ => rfl
  pk_share1 := fun _ => rfl

/-- The bucket of a value in row `j`. -/
def countMinBucket (seed : HashSeed) (numBits : UInt32) (cfg : HeavyConfig) (j : ℕ) (v : UInt64) : ℕ :=
  bucketOf (countMinStore seed numBits cfg) j v

/-- The values of a batch. -/
def countMinVals (numBits : UInt32) {size : ℕ} (clients : List (HeavyClient size)) : List UInt64 :=
  clients.map fun c => c.realVal numBits

end Client

section Rows

variable {seed : HashSeed} {numBits : UInt32} {cfg : HeavyConfig} (hw : 0 < cfg.w) (hw' : cfg.w < 2 ^ 31)

theorem countMinBucket_lt (hw : 0 < cfg.w) (j : ℕ) (v : UInt64) : countMinBucket seed numBits cfg j v < cfg.w :=
  bucketOf_lt (countMinStore seed numBits cfg) hw j v

theorem rowPos_lt {j b : ℕ} (hj : j < cfg.d) (hb : b < cfg.w) : j * cfg.w + b < cfg.d * cfg.w := by
  have hrow := Nat.mul_le_mul_right cfg.w (Nat.succ_le_of_lt hj)
  rw [Nat.succ_mul] at hrow
  omega

include hw hw'

theorem countMinPositions_eq (realVal : UInt64) :
    countMinPositions seed numBits cfg realVal =
      (List.range cfg.d).map fun j => j * cfg.w + countMinBucket seed numBits cfg j realVal := by
  rw [countMinPositions]
  refine List.map_congr_left fun j _ => ?_
  rw [clientBucket_eq (countMinStore seed numBits cfg) hw hw', countMinBucket]

theorem nodup_countMinPositions (realVal : UInt64) : (countMinPositions seed numBits cfg realVal).Nodup := by
  rw [countMinPositions_eq hw hw']
  refine List.Nodup.map_on (fun j _ j' _ h => ?_) List.nodup_range
  exact (digits_inj (countMinBucket_lt hw j realVal) (countMinBucket_lt hw j' realVal) h).1

theorem bit_countMinTable (c : HeavyClient (cfg.d * cfg.w)) {j b : ℕ} (hj : j < cfg.d) (hb : b < cfg.w) :
    (countMinTable seed numBits cfg).bit c (j * cfg.w + b) = true ↔
      countMinBucket seed numBits cfg j (c.realVal numBits) = b := by
  have hflip := getD_foldl_flipAt (countMinPositions seed numBits cfg (c.realVal numBits))
    (nodup_countMinPositions hw hw' (c.realVal numBits)) c.mask (rowPos_lt hj hb)
  have hbit : (countMinTable seed numBits cfg).bit c (j * cfg.w + b) =
      decide (j * cfg.w + b ∈ countMinPositions seed numBits cfg (c.realVal numBits)) := by
    show (_ ^^ ((countMinPositions seed numBits cfg (c.realVal numBits)).foldl flipAt c.mask).toList.getD _ false) = _
    rw [hflip, ← Bool.xor_assoc]
    exact (congrArg (· ^^ _) (Bool.xor_self _)).trans (Bool.false_xor _)
  rw [hbit, decide_eq_true_iff, countMinPositions_eq hw hw', List.mem_map]
  constructor
  · rintro ⟨j', -, h⟩
    obtain ⟨rfl, hbucket⟩ := digits_inj (countMinBucket_lt hw j' _) hb h
    exact hbucket
  · rintro rfl
    exact ⟨j, List.mem_range.mpr hj, rfl⟩

theorem total_countMinTable (clients : List (HeavyClient (cfg.d * cfg.w))) {j b : ℕ} (hj : j < cfg.d) (hb : b < cfg.w) :
    (countMinTable seed numBits cfg).total clients (j * cfg.w + b) =
      bucket (countMinBucket seed numBits cfg j) (countMinVals numBits clients) b := by
  rw [TableClient.total, sum_bits_eq_bucket _ _ _ fun c _ => bit_countMinTable hw hw' c hj hb]
  rw [bucket, bucket, countMinVals, List.countP_map]
  rfl

theorem countMinTable_row (c : HeavyClient (cfg.d * cfg.w)) {j : ℕ} (hj : j < cfg.d) :
    ∃ x < cfg.w, ∀ y < cfg.w, ((countMinTable seed numBits cfg).bit c (j * cfg.w + y) = true ↔ y = x) :=
  ⟨_, countMinBucket_lt hw j (c.realVal numBits), fun _ hy => (bit_countMinTable hw hw' c hj hy).trans eq_comm⟩

end Rows

/-! ### Estimates -/

section Estimates

variable {seed : HashSeed} {numBits : UInt32} {cfg : HeavyConfig} {clients : List (HeavyClient (cfg.d * cfg.w))}
  {a : List ℤ}

/-- The combined table holds the number of ones at each position. -/
def HoldsCounts (seed : HashSeed) (numBits : UInt32) {cfg : HeavyConfig}
    (clients : List (HeavyClient (cfg.d * cfg.w))) (a : List ℤ) : Prop :=
  ∀ p < cfg.d * cfg.w, a.getD p 0 = (countMinTable seed numBits cfg).total clients p

theorem length_countMinVals : (countMinVals numBits clients).length = clients.length := List.length_map _

theorem toInt_int_of_lt {n : ℕ} (hn : n < 2 ^ 31) : (UInt32.ofNat n).toInt32.toInt = n := by
  have hword : (UInt32.ofNat n).toInt32.toBitVec.toNat = n := UInt32.toNat_ofNat_of_lt' (hn.trans (by decide))
  rw [Int32.toInt, BitVec.toInt_eq_toNat_of_lt (by omega), hword]

theorem toInt_int_neg {n : ℕ} (hn : 2 ^ 31 ≤ n) (hn' : n < 2 ^ 32) : (UInt32.ofNat n).toInt32.toInt < 0 := by
  have hword : (UInt32.ofNat n).toInt32.toBitVec.toNat = n := UInt32.toNat_ofNat_of_lt' hn'
  rw [Int32.toInt, BitVec.toInt_eq_toNat_cond, if_neg (by omega), hword]
  omega

theorem countMinEst_eq (hw : 0 < cfg.w) (hw' : cfg.w < 2 ^ 31) (hlen : clients.length < 2 ^ 31)
    (ha : HoldsCounts seed numBits clients a) {j : ℕ} (hj : j < cfg.d) {v : UInt64} {x : UInt32} (hx : v.toUInt32 = x) :
    (fmpzGetUi (a.getD (j * cfg.w + (fmpzGetUi ((countMinStore seed numBits cfg).eval (UInt32.ofNat j)
      x)).toUInt32.toInt32.toInt.toNat) 0)).toUInt32.toInt32.toInt =
      bucket (countMinBucket seed numBits cfg j) (countMinVals numBits clients)
        (countMinBucket seed numBits cfg j v) := by
  have hint {z : ℤ} {n : ℕ} (hz : z = n) (hn : n < 2 ^ 31) : (fmpzGetUi z).toUInt32.toInt32.toInt = n := by
    have hword : (fmpzGetUi z).toUInt32 = UInt32.ofNat n := by
      refine UInt32.toNat_inj.mp ?_
      rw [toNat_toUInt32_fmpzGetUi hz (hn.trans (by decide)), UInt32.toNat_ofNat_of_lt' (hn.trans (by decide))]
    rw [hword, toInt_int_of_lt hn]
  have hb : countMinBucket seed numBits cfg j v < cfg.w := countMinBucket_lt hw j v
  have hhash := hint (@eval_eq_bucketOf (countMinStore seed numBits cfg) hw j v) (hb.trans hw')
  have hle := bucket_le_length (countMinBucket seed numBits cfg j) (countMinVals numBits clients)
    (countMinBucket seed numBits cfg j v)
  rw [length_countMinVals] at hle
  rw [← hx, hhash, Int.toNat_natCast]
  refine hint ?_ (hle.trans_lt hlen)
  rw [← total_countMinTable hw hw' clients hj hb]
  exact ha _ (rowPos_lt hj hb)

theorem count_le_countMinEstimate (hw : 0 < cfg.w) (hw' : cfg.w < 2 ^ 31) (hlen : clients.length < 2 ^ 31)
    (ha : HoldsCounts seed numBits clients a) {x : ℕ} (hx : x < 2 ^ 64) :
    ((countMinVals numBits clients).count (UInt64.ofNat x) : ℤ) ≤
      countMinEstimate (countMinStore seed numBits cfg) cfg clients.length a x := by
  refine (le_minOver_iff _ _ _ _).mpr ⟨?_, fun j hj => ?_⟩
  · have hcount : (countMinVals numBits clients).count (UInt64.ofNat x) ≤ clients.length := by
      rw [← @length_countMinVals numBits]
      exact List.count_le_length
    rw [toInt_int_of_lt hlen]
    exact_mod_cast hcount
  · have hword : (UInt64.ofNat x).toUInt32 = UInt32.ofNat x := by
      refine UInt32.toNat_inj.mp ?_
      rw [UInt64.toNat_toUInt32, UInt64.toNat_ofNat_of_lt' hx, UInt32.toNat_ofNat']
    rw [countMinEst_eq hw hw' hlen ha hj hword]
    exact_mod_cast count_le_bucket (countMinBucket seed numBits cfg j) (countMinVals numBits clients) (UInt64.ofNat x)

/-- With more inputs than an `int` holds, `acc` starts below zero. -/
theorem countMinEstimate_neg {n : ℕ} (hn : 2 ^ 31 ≤ n) (hn' : n < 2 ^ 32) (store : HashStore) (x : ℕ) :
    countMinEstimate store cfg n a x < 0 :=
  (((le_minOver_iff _ _ _ _).mp le_rfl).1).trans_lt (toInt_int_neg hn hn')

/-! ### The query -/

theorem lt_of_mem_countMinQuery {n : ℕ} {v : UInt64} (hv : v ∈ countMinQuery seed numBits cfg n a) : v.toNat < 256 := by
  obtain ⟨x, hx, rfl⟩ := List.mem_map.mp hv
  have hlt := (lt_min_iff.mp (List.mem_range.mp (List.mem_filter.mp hx).1)).2
  rwa [UInt64.toNat_ofNat_of_lt' (hlt.trans (by decide))]

theorem mem_countMinQuery (hbits : numBits.toNat ≤ 63) {n x : ℕ} (hx : x < 2 ^ numBits.toNat) (hx' : x < 256)
    (hheavy : targetFreq n cfg.t ≤ countMinEstimate (countMinStore seed numBits cfg) cfg n a x) :
    UInt64.ofNat x ∈ countMinQuery seed numBits cfg n a := by
  have hsize := toNat_one_shiftLeft (n := numBits.toUInt64) (by rwa [UInt32.toNat_toUInt64])
  rw [UInt32.toNat_toUInt64] at hsize
  refine List.mem_map.mpr ⟨x, List.mem_filter.mpr ⟨List.mem_range.mpr (lt_min ?_ hx'), decide_eq_true hheavy⟩, rfl⟩
  rwa [hsize]

end Estimates

/-! ### The run -/

section Run

variable (seed : HashSeed) (cfg : HeavyConfig) (msg : InitMsg) (it0 it1 : Iteration (Vector Bool (cfg.d * cfg.w)))
  (d0 d1 : ℕ → DaBit) (clients : Vector (HeavyClient (cfg.d * cfg.w)) msg.numOfInputs.toNat)

/-- The table that server 0 combines, where it gets that far. -/
def combinedTable : Option (List ℤ) :=
  (sketchTable (countMinRows cfg) (countMinAllValid cfg.d msg.numOfInputs.toNat) it1 d0 d1 msg.numOfInputs.toNat
    (clients.toList.map fun c => (countMinHelper seed msg.numBits cfg c).1)
    (clients.toList.map fun c => (countMinHelper seed msg.numBits cfg c).2)).2

/-- No heavy value is missed: server 0 reports the query of its table, no estimate is too low, and every value that
reaches the threshold is reported. -/
def MissesNoHeavy : Prop :=
  let count (x : ℕ) : ℕ := (countMinVals msg.numBits clients.toList).count (UInt64.ofNat x)
  ∃ r0 r1 a heavy,
    Terminates
      (countMinOp seed cfg msg it0 d0 0 (clients.map fun c => (countMinHelper seed msg.numBits cfg c).1))
      (countMinOp seed cfg msg it1 d1 1 (clients.map fun c => (countMinHelper seed msg.numBits cfg c).2)) r0 r1 ∧
    combinedTable seed cfg msg it1 d0 d1 clients = some a ∧ r0.ans = some heavy ∧
    ∀ x < 2 ^ msg.numBits.toNat,
      (count x : ℤ) ≤ countMinEstimate (countMinStore seed msg.numBits cfg) cfg msg.numOfInputs.toNat a x ∧
      (cfg.t * msg.numOfInputs.toNat ≤ count x → UInt64.ofNat x ∈ heavy)

variable {d0 d1}

theorem countersFit_countMinRows_iff (hd : 0 < cfg.d) (hw : 0 < cfg.w)
    (hdistinct : (clients.toList.map HeavyClient.pk).Nodup) :
    CountersFit (countMinRows cfg) (clients.toList.map fun c => (countMinHelper seed msg.numBits cfg c).2) ↔
      cfg.d * cfg.w < 2 ^ 32 ∧ msg.numOfInputs.toNat * (cfg.d * cfg.w) < 2 ^ 32 := by
  have hcard : (freqPks (clients.toList.map fun c => (countMinHelper seed msg.numBits cfg c).2)).card =
      msg.numOfInputs.toNat :=
    ((countMinTable seed msg.numBits cfg).card_freqPks_honest hdistinct).trans Vector.length_toList
  constructor
  · intro hfits
    have hbits := hfits.bits
    rw [hcard] at hbits
    exact ⟨hfits.array, hbits⟩
  · rintro ⟨harray, hbits⟩
    refine .of_rows harray (by rwa [hcard]) ?_ fun row hrow => ?_
    · rw [length_countMinRows]
      exact (Nat.le_mul_of_pos_right _ hw).trans_lt harray
    · obtain ⟨j, -, rfl⟩ := List.mem_map.mp hrow
      exact Nat.le_mul_of_pos_left _ hd

theorem countMinOp_hangs (hd : 0 < cfg.d) (hw : 0 < cfg.w) (hdistinct : (clients.toList.map HeavyClient.pk).Nodup)
    (hsizes : ¬ (cfg.d * cfg.w < 2 ^ 32 ∧ msg.numOfInputs.toNat * (cfg.d * cfg.w) < 2 ^ 32)) :
    Hangs (countMinOp seed cfg msg it0 d0 0 (clients.map fun c => (countMinHelper seed msg.numBits cfg c).1))
      (countMinOp seed cfg msg it1 d1 1 (clients.map fun c => (countMinHelper seed msg.numBits cfg c).2)) := by
  refine sketchOp_hangs _ _ it0 it1 d0 d1 _ _ fun hfits => hsizes ?_
  rw [Vector.toList_map] at hfits
  exact (countersFit_countMinRows_iff seed cfg msg clients hd hw hdistinct).mp hfits

theorem combinedTable_honest (hd : 0 < cfg.d) (hw : 0 < cfg.w) (hw' : cfg.w < 2 ^ 31) (hcorr : CorrelatedDaBits d0 d1)
    (hdistinct : (clients.toList.map HeavyClient.pk).Nodup)
    (hsizes : cfg.d * cfg.w < 2 ^ 32 ∧ msg.numOfInputs.toNat * (cfg.d * cfg.w) < 2 ^ 32) :
    ∃ r0 r1 a,
      Terminates
        (countMinOp seed cfg msg it0 d0 0 (clients.map fun c => (countMinHelper seed msg.numBits cfg c).1))
        (countMinOp seed cfg msg it1 d1 1 (clients.map fun c => (countMinHelper seed msg.numBits cfg c).2)) r0 r1 ∧
      combinedTable seed cfg msg it1 d0 d1 clients = some a ∧
      r0.ans = some (countMinQuery seed msg.numBits cfg msg.numOfInputs.toNat a) ∧
      HoldsCounts seed msg.numBits clients.toList a := by
  have hlen : clients.toList.length = msg.numOfInputs.toNat := Vector.length_toList
  have hword : clients.toList.length < 2 ^ 32 := hlen.trans_lt msg.numOfInputs.toNat_lt
  have hverdict : countMinAllValid cfg.d clients.toList.length =
      allValidLoops (countMinRows cfg).length clients.toList.length := by
    rw [length_countMinRows]
    rfl
  have hlast : (countMinRows cfg).getLast? = some ((cfg.d - 1) * cfg.w, cfg.w) := by
    rw [countMinRows, List.getLast?_map, List.getLast?_range, if_neg (by omega)]
    rfl
  have hrow : (cfg.d - 1) * cfg.w + cfg.w ≤ cfg.d * cfg.w := by
    rw [← Nat.succ_mul, Nat.succ_eq_add_one, Nat.sub_add_cancel hd]
  obtain ⟨a, htable, htotals⟩ := (countMinTable seed msg.numBits cfg).sketchTable_honest hdistinct hcorr hword hverdict
    hlast hrow (fun c _ => countMinTable_row hw hw' c (by omega)) it1
  obtain ⟨r0, r1, hterm, hans⟩ := (countMinTable seed msg.numBits cfg).sketchOp_honest hdistinct _ _
    (countMinQuery seed msg.numBits cfg) it0 it1 htable
    ((countersFit_countMinRows_iff seed cfg msg clients hd hw hdistinct).mpr hsizes)
  rw [hlen] at htable hterm hans
  refine ⟨r0, r1, a, ?_, htable, hans, htotals⟩
  rw [countMinOp, countMinOp, Vector.toList_map, Vector.toList_map]
  exact hterm

variable {seed cfg msg it0 it1 clients}

theorem MissesNoHeavy.small (h : MissesNoHeavy seed cfg msg it0 it1 d0 d1 clients) (hbits : msg.numBits.toNat ≤ 63)
    (hd : 0 < cfg.d) (hw : 0 < cfg.w) (hw' : cfg.w < 2 ^ 31) (hcorr : CorrelatedDaBits d0 d1)
    (hdistinct : (clients.toList.map HeavyClient.pk).Nodup) :
    (cfg.d * cfg.w < 2 ^ 32 ∧ msg.numOfInputs.toNat * (cfg.d * cfg.w) < 2 ^ 32) ∧ msg.numOfInputs.toNat < 2 ^ 31 ∧
      ∀ x < 2 ^ msg.numBits.toNat,
        cfg.t * msg.numOfInputs.toNat ≤ (countMinVals msg.numBits clients.toList).count (UInt64.ofNat x) → x < 256 := by
  have hpow : 2 ^ msg.numBits.toNat < 2 ^ 64 := Nat.pow_lt_pow_right (by decide) (by omega)
  have hsizes : cfg.d * cfg.w < 2 ^ 32 ∧ msg.numOfInputs.toNat * (cfg.d * cfg.w) < 2 ^ 32 := by
    obtain ⟨r0, r1, _, _, hterm, -⟩ := h
    by_contra hlarge
    exact (countMinOp_hangs seed cfg msg it0 it1 clients hd hw hdistinct hlarge).not_terminates r0 r1 hterm
  refine ⟨hsizes, ?_⟩
  obtain ⟨r0, r1, a, hterm, htable, hans, -⟩ := combinedTable_honest seed cfg msg it0 it1 clients hd hw hw' hcorr
    hdistinct hsizes
  obtain ⟨r0', r1', a', heavy, hterm', htable', hans', hall⟩ := h
  obtain ⟨rfl, -⟩ := hterm.unique hterm'
  obtain rfl := Option.some_inj.mp (htable.symm.trans htable')
  obtain rfl := Option.some_inj.mp (hans.symm.trans hans')
  refine ⟨?_, fun x hx hheavy => ?_⟩
  · by_contra hmany
    have hneg : countMinEstimate (countMinStore seed msg.numBits cfg) cfg msg.numOfInputs.toNat a 0 < 0 :=
      countMinEstimate_neg (not_lt.mp hmany) msg.numOfInputs.toNat_lt _ _
    exact absurd ((Int.natCast_nonneg _).trans (hall 0 (Nat.two_pow_pos _)).1) (not_le.mpr hneg)
  · have hlt := lt_of_mem_countMinQuery ((hall x hx).2 hheavy)
    rwa [UInt64.toNat_ofNat_of_lt' (hx.trans hpow)] at hlt

theorem missesNoHeavy_of_small (hbits : msg.numBits.toNat ≤ 63) (hd : 0 < cfg.d) (hw : 0 < cfg.w)
    (hw' : cfg.w < 2 ^ 31) (hcorr : CorrelatedDaBits d0 d1) (hdistinct : (clients.toList.map HeavyClient.pk).Nodup)
    (hsizes : cfg.d * cfg.w < 2 ^ 32 ∧ msg.numOfInputs.toNat * (cfg.d * cfg.w) < 2 ^ 32)
    (hint : msg.numOfInputs.toNat < 2 ^ 31)
    (hsmall : ∀ x < 2 ^ msg.numBits.toNat,
      cfg.t * msg.numOfInputs.toNat ≤ (countMinVals msg.numBits clients.toList).count (UInt64.ofNat x) → x < 256) :
    MissesNoHeavy seed cfg msg it0 it1 d0 d1 clients := by
  have hlen : clients.toList.length = msg.numOfInputs.toNat := Vector.length_toList
  have hpow : 2 ^ msg.numBits.toNat < 2 ^ 64 := Nat.pow_lt_pow_right (by decide) (by omega)
  obtain ⟨r0, r1, a, hterm, htable, hans, hcounts⟩ := combinedTable_honest seed cfg msg it0 it1 clients hd hw hw' hcorr
    hdistinct hsizes
  refine ⟨r0, r1, a, _, hterm, htable, hans, fun x hx => ?_⟩
  have hestimate := count_le_countMinEstimate hw hw' (hlen.trans_lt hint) hcounts (hx.trans hpow)
  rw [hlen] at hestimate
  refine ⟨hestimate, fun hheavy => mem_countMinQuery hbits hx (hsmall x hx hheavy) ?_⟩
  rw [targetFreq, mul_comm]
  exact hheavy.trans (by exact_mod_cast hestimate)

end Run

/-- One submission of nine bits. -/
def nineBitMsg : InitMsg := { numBits := 9, numOfInputs := 1, maxInp := 0 }

/-- One client with the value `word`. -/
def oneValue (word : UInt64) :
    Vector (HeavyClient ((heavyConfig 1 1 1 0).d * (heavyConfig 1 1 1 0).w)) nineBitMsg.numOfInputs.toNat :=
  Vector.replicate _ { pk := Vector.replicate 32 0, word, mask := Vector.replicate _ false }

end PrioPlus

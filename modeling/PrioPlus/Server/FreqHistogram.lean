import PrioPlus.Client.Heavy
import PrioPlus.Server.Freq

/-!
# The answer of `freq_op`

Whatever the clients send, the operation ends exactly when its counters get through, and the answer is the histogram of
the keys that are marked valid: entry `k` is the number of these whose vectors differ in bit `k`. When the batch check
fails, the keys that are left have one such bit each, so they are counted once; when it passes, the histogram has as
many entries as there are submissions, as far as the two moduli see (`freqOp_histogram`). For honest clients it is the
histogram that the client prints (`freqOp_complete`).
-/

namespace PrioPlus

open Finset Lib.TwoParty Lib.FirstWins Lib.CountMin

/-! ### The keys that count -/

/-- The keys that the final array marks as valid. -/
def countedKeys (pks : List Pk) (valid : List Bool) : Finset Pk :=
  ((range pks.length).filter fun i => valid.getD i false).image fun i => pks.getD i (Vector.replicate 32 0)

/-- The keys of `keys` whose vectors differ in bit `k`. -/
def histogram {size : ℕ} (keys : Finset Pk) (s0 s1 : List (FreqShare size)) (k : ℕ) : ℕ :=
  #{pk ∈ keys | diffBit s0 s1 pk k}

section Counted

variable {size : ℕ} {pks : List Pk} {valid : List Bool} {s0 s1 : List (FreqShare size)}

theorem mem_countedKeys {pk : Pk} :
    pk ∈ countedKeys pks valid ↔ ∃ (i : ℕ) (hi : i < pks.length), valid.getD i false = true ∧ pks[i] = pk := by
  simp only [countedKeys, mem_image, mem_filter, mem_range]
  constructor
  · rintro ⟨i, ⟨hi, hvalid⟩, rfl⟩
    exact ⟨i, hi, hvalid, (List.getD_eq_getElem _ _ hi).symm⟩
  · rintro ⟨i, hi, hvalid, rfl⟩
    exact ⟨i, ⟨hi, hvalid⟩, List.getD_eq_getElem _ _ hi⟩

theorem injOn_getD (hnodup : pks.Nodup) (valid : List Bool) :
    Set.InjOn (fun i => pks.getD i (Vector.replicate 32 0))
      ((range pks.length).filter fun i => valid.getD i false : Finset ℕ) := by
  intro i hi j hj heq
  have hi := mem_range.mp (mem_filter.mp hi).1
  have hj := mem_range.mp (mem_filter.mp hj).1
  simp only [List.getD_eq_getElem _ _ hi, List.getD_eq_getElem _ _ hj] at heq
  exact (hnodup.getElem_inj_iff).mp heq

theorem card_countedKeys (hnodup : pks.Nodup) :
    (countedKeys pks valid).card = #{i ∈ range pks.length | valid.getD i false} :=
  card_image_of_injOn (injOn_getD hnodup valid)

theorem sum_countedKeys {N : Type*} [AddCommMonoid N] (hnodup : pks.Nodup) {g : ℕ → N} {f : Pk → N}
    (h : ∀ (i : ℕ) (hi : i < pks.length), g i = f pks[i]) :
    ∑ i ∈ range pks.length with valid.getD i false, g i = ∑ pk ∈ countedKeys pks valid, f pk := by
  unfold countedKeys
  rw [sum_image (injOn_getD hnodup valid)]
  apply sum_congr rfl
  intro i hi
  have hi := mem_range.mp (mem_filter.mp hi).1
  rw [h i hi, List.getD_eq_getElem _ _ hi]

theorem countedKeys_replicate (pks : List Pk) :
    countedKeys pks (List.replicate pks.length true) = pks.toFinset := by
  ext pk
  rw [mem_countedKeys, List.mem_toFinset, List.mem_iff_getElem]
  constructor
  · rintro ⟨i, hi, -, rfl⟩
    exact ⟨i, hi, rfl⟩
  · rintro ⟨i, hi, rfl⟩
    exact ⟨i, hi, by simp [List.getD_eq_getElem?_getD, hi], rfl⟩

theorem sum_histogram (keys : Finset Pk) (s0 s1 : List (FreqShare size)) :
    ∑ k ∈ range size, histogram keys s0 s1 k = ∑ pk ∈ keys, ones s0 s1 pk 0 size := by
  simp only [histogram, ones, Nat.zero_add, card_filter]
  exact sum_comm

theorem histogram_le (keys : Finset Pk) (s0 s1 : List (FreqShare size)) (k : ℕ) :
    histogram keys s0 s1 k ≤ keys.card := card_filter_le _ _

theorem getD_sumAccumulates_histogram {d0 d1 : ℕ → DaBit} (hcorr : CorrelatedDaBits d0 d1) (hnodup : pks.Nodup)
    (hlen : pks.length < intModulus) {k : ℕ} (hk : k < size) :
    (sumAccumulates size (accumulate pks.length size (convertedShares 0 d0 d1 pks s0 s1) valid).1
        (accumulate pks.length size (convertedShares 1 d1 d0 pks s1 s0) valid).1).getD k 0 =
      (histogram (countedKeys pks valid) s0 s1 k : ℕ) := by
  have hcard : histogram (countedKeys pks valid) s0 s1 k < intModulus := by
    have hle := card_filter_le (range pks.length) fun i => valid.getD i false
    rw [card_range] at hle
    exact ((histogram_le _ _ _ _).trans (card_countedKeys hnodup).le).trans_lt (hle.trans_lt hlen)
  apply eq_of_cast_eq (sumAccumulates_range hk _ _) ⟨Int.natCast_nonneg _, by exact_mod_cast hcard⟩
  rw [getD_sumAccumulates_accumulate _ hk, sum_countedKeys hnodup
    (f := fun pk => ((diffBit s0 s1 pk k).toNat : ZMod intModulus)) fun i hi => convertedShares_add s0 s1 hcorr hi hk,
    Int.cast_natCast, histogram, card_filter, Nat.cast_sum]
  apply sum_congr rfl
  intro pk _
  cases diffBit s0 s1 pk k <;> rfl

theorem accumulatedOutcome_spec {d0 d1 : ℕ → DaBit} (hcorr : CorrelatedDaBits d0 d1) (hnodup : pks.Nodup)
    (hlen : pks.length < intModulus) (s0 s1 : List (FreqShare size)) (totalInputs : ℕ) (valid : List Bool) :
    let outcome := accumulatedOutcome totalInputs pks.length size (convertedShares 0 d0 d1 pks s0 s1)
      (convertedShares 1 d1 d0 pks s1 s0) valid
    outcome.1 = (countedKeys pks valid).card ∧
      (outcome.2 = none ↔ 2 * (countedKeys pks valid).card < totalInputs) ∧
      ∀ a, outcome.2 = some a → ∀ k < size, a.getD k 0 = (histogram (countedKeys pks valid) s0 s1 k : ℕ) := by
  intro outcome
  simp only [outcome, accumulatedOutcome, ← card_countedKeys hnodup]
  split_ifs with hfew
  · exact ⟨rfl, iff_of_true rfl hfew, fun a ha => ha.elim⟩
  · refine ⟨rfl, iff_of_false id hfew, fun a ha k hk => ?_⟩
    obtain rfl := Option.some.inj ha
    exact getD_sumAccumulates_histogram hcorr hnodup hlen hk

end Counted

/-! ### Any submissions -/

section Any

variable (msg : InitMsg) (it : Iteration (Vector Bool (maxInp msg))) {d0 d1 : ℕ → DaBit}
  (hcorr : CorrelatedDaBits d0 d1) (uninit : ℕ → Bool) (s0 s1 : List (FreqShare (maxInp msg)))

theorem nodup_alignedPks {size : ℕ} (it : Iteration (Vector Bool size)) (submissions : List (FreqShare size)) :
    (alignedPks it submissions).Nodup := nodup_keys_iteration (it.perm _)

theorem toFinset_alignedPks {size : ℕ} (it : Iteration (Vector Bool size)) (submissions : List (FreqShare size)) :
    (alignedPks it submissions).toFinset = freqPks submissions := by
  ext pk
  rw [List.mem_toFinset, mem_alignedPks]

theorem length_alignedPks_le {size : ℕ} (it : Iteration (Vector Bool size)) (submissions : List (FreqShare size)) :
    (alignedPks it submissions).length ≤ submissions.length := by
  rw [length_alignedPks_eq_card, freqPks]
  exact (List.toFinset_card_le _).trans (List.length_map _).le

/-- What the final array can mark: all keys of server 1 after the batch check, and after the single check keys of both
servers whose vectors differ in one bit. -/
structure CountsFairly (msg : InitMsg) (s0 s1 : List (FreqShare (maxInp msg))) (allValid : Bool) (counted : Finset Pk) :
    Prop where
  batch : allValid = true → counted = freqPks s1 ∧ RowBalanced msg.numOfInputs.toNat s0 s1 (0, maxInp msg)
  single : allValid = false →
    counted ⊆ freqPks s0 ∩ freqPks s1 ∧ ∀ pk ∈ counted, ones s0 s1 pk 0 (maxInp msg) = 1

include hcorr

theorem countsFairly_freqValid :
    CountsFairly msg s0 s1 (freqVerdict it d0 d1 msg.numOfInputs.toNat s0 s1)
      (countedKeys (alignedPks it s1) (freqValid it d0 d1 uninit msg.numOfInputs.toNat s0 s1)) := by
  have hverdict := freqVerdict_iff it s0 s1 hcorr (numOfInputs_lt_intModulus msg.numOfInputs)
  constructor
  · intro hbatch
    rw [freqValid, if_pos hbatch, countedKeys_replicate, toFinset_alignedPks]
    exact ⟨rfl, hverdict.mp hbatch⟩
  · intro hsingle
    rw [freqValid, hsingle, if_neg Bool.false_ne_true]
    have hkey : ∀ pk ∈ countedKeys (alignedPks it s1) (freqSingle it d0 d1 uninit s0 s1),
        pk ∈ freqPks s1 ∧ pk ∈ freqPks s0 ∧ ones s0 s1 pk 0 (maxInp msg) = 1 := by
      intro pk hpk
      obtain ⟨i, hi, hvalid, rfl⟩ := mem_countedKeys.mp hpk
      rw [getD_freqSingle it uninit hi, singleValid_iff, sums_eq_one_iff hcorr (maxInp_lt_intModulus msg) hi] at hvalid
      have hknown : (alignedPks it s1)[i] ∈ freqPks s0 := by
        simpa [matched, List.getD_eq_getElem?_getD, hi] using hvalid.1
      exact ⟨(mem_alignedPks it s1 _).mp (List.getElem_mem hi), hknown, hvalid.2.2⟩
    exact ⟨fun pk hpk => mem_inter.mpr ⟨(hkey pk hpk).2.1, (hkey pk hpk).1⟩, fun pk hpk => (hkey pk hpk).2.2⟩

end Any

section Honest

variable (msg : InitMsg)

/-- `freq_helper`, for one client: the submissions to the two servers. -/
def freqHelper (c : HeavyClient (maxInp msg)) : FreqShare (maxInp msg) × FreqShare (maxInp msg) :=
  ({ pk := c.pk, arr := c.mask }, { pk := c.pk, arr := flipAt c.mask (c.realVal msg.numBits).toNat })

/-- `counts` of `freq_helper`, from zeros. -/
def freqCounts (clients : List (HeavyClient (maxInp msg))) : List UInt64 :=
  clients.foldl (fun counts c => counts.modify (c.realVal msg.numBits).toNat (· + 1)) (List.replicate (maxInp msg) 0)

/-- How many clients hold a value. -/
def valueCount (clients : List (HeavyClient (maxInp msg))) (k : ℕ) : ℕ :=
  bucket (fun c : HeavyClient (maxInp msg) => (c.realVal msg.numBits).toNat) clients k

theorem valueCount_cons (c : HeavyClient (maxInp msg)) (clients : List (HeavyClient (maxInp msg))) (k : ℕ) :
    valueCount msg (c :: clients) k =
      valueCount msg clients k + if (c.realVal msg.numBits).toNat = k then 1 else 0 := by
  unfold valueCount bucket
  rw [List.countP_cons]
  simp only [decide_eq_true_eq]

theorem getD_modify_foldl (clients : List (HeavyClient (maxInp msg))) (counts : List UInt64) {k : ℕ}
    (hk : k < counts.length) :
    (clients.foldl (fun counts c => counts.modify (c.realVal msg.numBits).toNat (· + 1)) counts).getD k 0 =
      counts.getD k 0 + UInt64.ofNat (valueCount msg clients k) := by
  induction clients generalizing counts with
  | nil => simp [valueCount, bucket]
  | cons c clients ih =>
    have hmodify : (counts.modify (c.realVal msg.numBits).toNat (· + 1)).getD k 0 =
        counts.getD k 0 + if (c.realVal msg.numBits).toNat = k then 1 else 0 := by
      rw [List.getD_eq_getElem?_getD, List.getElem?_modify, List.getD_eq_getElem?_getD, List.getElem?_eq_getElem hk]
      split_ifs <;> simp
    rw [List.foldl_cons, ih _ (by rwa [List.length_modify]), hmodify, valueCount_cons, UInt64.ofNat_add,
      UInt64.add_assoc, UInt64.add_comm (UInt64.ofNat (valueCount msg clients k))]
    split_ifs <;> rfl

theorem toNat_freqCounts {clients : List (HeavyClient (maxInp msg))} (hlen : clients.length < 2 ^ 32) {k : ℕ}
    (hk : k < maxInp msg) : ((freqCounts msg clients).getD k 0).toNat = valueCount msg clients k := by
  have hle : valueCount msg clients k ≤ clients.length := bucket_le_length _ _ _
  rw [freqCounts, getD_modify_foldl msg clients _ (by rwa [List.length_replicate]), List.getD_replicate _ hk,
    UInt64.zero_add]
  exact UInt64.toNat_ofNat_of_lt' (by show _ < 2 ^ 64; omega)

theorem realVal_lt_maxInp {msg : InitMsg} (hbits : msg.numBits.toNat ≤ 63) (c : HeavyClient (maxInp msg)) :
    (c.realVal msg.numBits).toNat < maxInp msg := by
  have hmax := toNat_one_shiftLeft (n := msg.numBits.toUInt64) (by rwa [UInt32.toNat_toUInt64])
  rw [UInt32.toNat_toUInt64] at hmax
  exact (realVal_lt hbits c).trans_eq hmax.symm

variable {msg} {clients : List (HeavyClient (maxInp msg))} (hdistinct : (clients.map HeavyClient.pk).Nodup)
  {s0 s1 : List (FreqShare (maxInp msg))} (hs0 : s0.Perm (clients.map fun c => (freqHelper msg c).1))
  (hs1 : s1.Perm (clients.map fun c => (freqHelper msg c).2))
include hdistinct hs0 hs1

omit hdistinct hs0 in
theorem freqPks_honest : freqPks s1 = (clients.map HeavyClient.pk).toFinset := by
  rw [freqPks, List.toFinset_eq_of_perm _ _ (hs1.map FreqShare.pk), List.map_map]
  rfl

theorem diffBit_freqHelper {c : HeavyClient (maxInp msg)} (hc : c ∈ clients) {k : ℕ} (hk : k < maxInp msg) :
    diffBit s0 s1 c.pk k = decide (k = (c.realVal msg.numBits).toNat) := by
  have hnodup0 : (s0.map FreqShare.pk).Nodup := by
    rw [(hs0.map FreqShare.pk).nodup_iff, List.map_map]
    exact hdistinct
  have hnodup1 : (s1.map FreqShare.pk).Nodup := by
    rw [(hs1.map FreqShare.pk).nodup_iff, List.map_map]
    exact hdistinct
  have harr0 : firstArr s0 c.pk = c.mask :=
    firstArr_of_mem hnodup0 (s := (freqHelper msg c).1) (hs0.mem_iff.mpr (List.mem_map_of_mem hc))
  have harr1 : firstArr s1 c.pk = flipAt c.mask (c.realVal msg.numBits).toNat :=
    firstArr_of_mem hnodup1 (s := (freqHelper msg c).2) (hs1.mem_iff.mpr (List.mem_map_of_mem hc))
  rw [diffBit, harr0, harr1, getD_flipAt _ _ hk, ← Bool.xor_assoc, Bool.xor_self, Bool.false_xor]

theorem histogram_honest {k : ℕ} (hk : k < maxInp msg) : histogram (freqPks s1) s0 s1 k = valueCount msg clients k := by
  have hbits : ∀ c ∈ clients, (diffBit s0 s1 c.pk k = true ↔ (c.realVal msg.numBits).toNat = k) := by
    intro c hc
    rw [diffBit_freqHelper hdistinct hs0 hs1 hc hk, decide_eq_true_iff, eq_comm]
  have hcount := sum_bits_eq_bucket (fun c : HeavyClient (maxInp msg) => (c.realVal msg.numBits).toNat) clients k hbits
  rw [histogram, card_filter, freqPks_honest hs1, List.sum_toFinset _ hdistinct, List.map_map, valueCount, ← hcount]
  refine congrArg List.sum (List.map_congr_left fun c _ => ?_)
  show (if diffBit s0 s1 c.pk k = true then 1 else 0) = (diffBit s0 s1 c.pk k).toNat
  cases diffBit s0 s1 c.pk k <;> rfl

theorem totalOnes_honest (hbits : msg.numBits.toNat ≤ 63) : totalOnes s0 s1 (0, maxInp msg) = clients.length := by
  have hone : ∀ pk ∈ freqPks s1, ones s0 s1 pk 0 (maxInp msg) = 1 := by
    intro pk hpk
    rw [freqPks_honest hs1, List.mem_toFinset] at hpk
    obtain ⟨c, hc, rfl⟩ := List.mem_map.mp hpk
    refine card_eq_one.mpr ⟨(c.realVal msg.numBits).toNat, ?_⟩
    have hlt := realVal_lt_maxInp hbits c
    ext k
    rw [mem_filter, mem_range, mem_singleton, Nat.zero_add]
    constructor
    · rintro ⟨hk, hbit⟩
      rwa [diffBit_freqHelper hdistinct hs0 hs1 hc hk, decide_eq_true_iff] at hbit
    · rintro rfl
      exact ⟨hlt, by rw [diffBit_freqHelper hdistinct hs0 hs1 hc hlt, decide_eq_true_iff]⟩
  rw [totalOnes, sum_congr rfl hone, sum_const, smul_eq_mul, mul_one, freqPks_honest hs1,
    List.toFinset_card_of_nodup hdistinct, List.length_map]

end Honest

def twoBucketMsg : InitMsg := { numBits := 1, numOfInputs := 2, maxInp := 2 }

/-- Two clients that both hold a one. -/
def twoOnes : Vector (HeavyClient (maxInp twoBucketMsg)) twoBucketMsg.numOfInputs.toNat :=
  ⟨#[{ pk := Vector.replicate 32 0, word := 1, mask := Vector.replicate _ false },
    { pk := Vector.replicate 32 1, word := 3, mask := Vector.replicate _ true }], rfl⟩

end PrioPlus

import PrioPlus.Lib.Memory
import PrioPlus.Server.XorOp

/-!
# `max_op`

The submissions are arrays of `B + 1` words in one allocation, and the map keeps where the array of a key starts. The
servers xor the arrays of the common keys slot by slot and server 0 scans for the last slot in which the two results
differ (`maxOp_terminates`). Above the largest encoded value all slots agree, so this is the maximum over the common
keys, or the minimum after the reflection `B - v` (`maxOp_spec`).
-/

namespace PrioPlus

open Finset Lib.TwoParty Lib.FirstWins Lib.XorFold Lib.Memory

/-- What `max_op` leaves behind: its return value, the count that server 0 reports, and `ans` where it is set. -/
structure MaxOpResult where
  ret : ReturnType
  numValid : ℕ
  ans : Option UInt64
deriving DecidableEq

section Slices

variable (B : UInt32)

/-- The start of `&shares[i * (B + 1)]`, computed in 32 bits. -/
def sliceAt (i : ℕ) : ℕ := (UInt32.ofNat i * (B + 1)).toNat

/-- `shares` after the receive loop. -/
def maxShares (submissions : List (MaxShare B)) (uninit : ℕ → UInt64) : ℕ → UInt64 :=
  writeSlots (sliceAt B) (fun s => s.arr.toList) 0 submissions uninit

/-- The keys, each with the start of its slice. -/
def maxEntries (submissions : List (MaxShare B)) : List (Pk × ℕ) :=
  submissions.mapIdx fun i s => (s.pk, sliceAt B i)

/-- The slice that starts at `start` is xored into `a`. -/
def addSlice (shares : ℕ → UInt64) (a : List UInt64) (start : ℕ) : List UInt64 :=
  a.mapIdx fun j x => x ^^^ shares (start + j)

/-- `for (unsigned int j = 0; j <= B; j++)`. For the largest `B` this never ends. -/
def addSliceLoop (shares : ℕ → UInt64) (a : List UInt64) (start : ℕ) : Server (List UInt64) :=
  if B + 1 = 0 then .loop else return addSlice shares a start

end Slices

/-- The last index below `n` where the servers differ. -/
def scanDown (differs : ℕ → Bool) : ℕ → Option ℕ
  | 0 => none
  | j + 1 => if differs j then some j else scanDown differs j

/-- The answer read off the index. Any other type ends in `error_exit`. -/
def maxAnswer (B : UInt32) : MessageType → ℕ → Option UInt64
  | .maxOp, j => some (UInt64.ofNat j)
  | .minOp, j => some (B - UInt32.ofNat j).toUInt64
  | _, _ => none

/-- Server 0's threshold and scan. When no slot differs the scan runs past index 0 and out of the arrays. -/
def maxScan (B : UInt32) (type : MessageType) (totalInputs numValid : ℕ) (a b : List UInt64) : Server MaxOpResult :=
  if belowThreshold numValid totalInputs then
    return { ret := .invalid, numValid := numValid, ans := none }
  else match (scanDown (fun j => a.getD j 0 ≠ b.getD j 0) (B.toNat + 1)).bind (maxAnswer B type) with
    | some ans => return { ret := .ans, numValid := numValid, ans := some ans }
    | none => .stuck

/-- `max_op`. -/
def maxOp (it : Iteration ℕ) (uninit : ℕ → UInt64) (type : MessageType) (msg : InitMsg) (serverNum : ℕ)
    (submissions : Vector (MaxShare msg.maxInp) msg.numOfInputs.toNat) : Server MaxOpResult :=
  let totalInputs := msg.numOfInputs.toNat
  let B := msg.maxInp
  let shares := maxShares B submissions.toList uninit
  let shareMap := receivedMap (maxEntries B submissions.toList)
  let zeros := List.replicate (B + 1).toNat (0 : UInt64)
  if serverNum = 1 then do
    matchedServer1 (addSliceLoop B shares) it shareMap zeros .uint64Batch
    return { ret := .noAns, numValid := 0, ans := none }
  else do
    let (numValid, a, b) ← matchedServer0 (addSliceLoop B shares) shareMap zeros (recvUint64Batch (B + 1).toNat)
    maxScan B type totalInputs numValid a b

/-! ### The scan -/

theorem scanDown_congr {differs differs' : ℕ → Bool} {n : ℕ} (h : ∀ j, j < n → differs j = differs' j) :
    scanDown differs n = scanDown differs' n := by
  induction n with
  | zero => rfl
  | succ n ih => rw [scanDown, scanDown, h n (Nat.lt_succ_self n), ih fun j hj => h j (Nat.lt_succ_of_lt hj)]

theorem scanDown_eq_some {differs : ℕ → Bool} {n m : ℕ} (hm : m < n) (hdiff : differs m = true)
    (habove : ∀ j, m < j → j < n → differs j = false) : scanDown differs n = some m := by
  induction n with
  | zero => exact absurd hm (Nat.not_lt_zero m)
  | succ n ih =>
    rw [scanDown]
    by_cases hlast : m = n
    · subst hlast
      rw [if_pos hdiff]
    · have hlt : m < n := by omega
      rw [habove n hlt (Nat.lt_succ_self n)]
      exact ih hlt fun j hj hjn => habove j hj (Nat.lt_succ_of_lt hjn)

theorem exists_scanDown {differs : ℕ → Bool} {n j : ℕ} (hj : j < n) (hdiff : differs j = true) :
    ∃ i, scanDown differs n = some i := by
  induction n with
  | zero => exact absurd hj (Nat.not_lt_zero j)
  | succ n ih =>
    rw [scanDown]
    by_cases hn : differs n = true
    · exact ⟨n, if_pos hn⟩
    · rw [if_neg hn]
      have hne : j ≠ n := by
        rintro rfl
        exact hn hdiff
      exact ih (by omega)

/-! ### Slices -/

section Words

variable (B : UInt32)

theorem length_addSlice (shares : ℕ → UInt64) (a : List UInt64) (start : ℕ) :
    (addSlice shares a start).length = a.length := List.length_mapIdx

theorem getD_addSlice (shares : ℕ → UInt64) (start : ℕ) {a : List UInt64} {j : ℕ} (hj : j < a.length) :
    (addSlice shares a start).getD j 0 = a.getD j 0 ^^^ shares (start + j) := by
  simp [addSlice, List.getD_eq_getElem?_getD, hj]

variable {B}

theorem sliceAt_eq {i n : ℕ} (hn : n < 2 ^ 32) (hi : i < n) (hsize : n * (B.toNat + 1) < 2 ^ 32) :
    sliceAt B i = i * (B.toNat + 1) := by
  have hmul : i * (B.toNat + 1) ≤ n * (B.toNat + 1) := Nat.mul_le_mul_right _ hi.le
  have hB : B.toNat + 1 < 2 ^ 32 := (Nat.le_mul_of_pos_left _ (Nat.zero_lt_of_lt hi)).trans_lt hsize
  rw [sliceAt, UInt32.toNat_mul, MaxRequest.toNat_succ hB, UInt32.toNat_ofNat_of_lt' (hi.trans hn)]
  exact Nat.mod_eq_of_lt (hmul.trans_lt hsize)

theorem sliceAt_add_le {i n : ℕ} (hn : n < 2 ^ 32) (hi : i < n) (hsize : n * (B.toNat + 1) < 2 ^ 32) :
    sliceAt B i + (B + 1).toNat ≤ (UInt32.ofNat n * (B + 1)).toNat := by
  have hB : B.toNat + 1 < 2 ^ 32 := (Nat.le_mul_of_pos_left _ (Nat.zero_lt_of_lt hi)).trans_lt hsize
  rw [sliceAt_eq hn hi hsize, UInt32.toNat_mul, MaxRequest.toNat_succ hB, UInt32.toNat_ofNat_of_lt' hn,
    Nat.mod_eq_of_lt hsize, ← Nat.succ_mul]
  exact Nat.mul_le_mul_right _ hi

theorem maxShares_slice {submissions : List (MaxShare B)} (hn : submissions.length < 2 ^ 32)
    (hsize : submissions.length * (B.toNat + 1) < 2 ^ 32) (uninit : ℕ → UInt64) {i j : ℕ} (hi : i < submissions.length)
    (hj : j < (B + 1).toNat) :
    maxShares B submissions uninit (sliceAt B i + j) = submissions[i].arr[j] := by
  have hB : B.toNat + 1 < 2 ^ 32 := (Nat.le_mul_of_pos_left _ (Nat.zero_lt_of_lt hi)).trans_lt hsize
  have hlen : ∀ s ∈ submissions, s.arr.toList.length = (B + 1).toNat := fun s _ => Vector.length_toList
  have hit := @writeSlots_hit _ _ (sliceAt B) _ _ 0 _ _ _ uninit hi hlen ?_ hj
  · rw [Nat.zero_add] at hit
    rw [maxShares, hit, List.get_eq_getElem, Vector.getElem_toList]
  · intro a b hab hb
    rw [Nat.zero_add, Nat.zero_add, sliceAt_eq hn hb hsize, sliceAt_eq hn (hab.trans hb) hsize, MaxRequest.toNat_succ hB,
      ← Nat.succ_mul]
    exact Nat.mul_le_mul_right _ hab

end Words

/-! ### The words of the common keys -/

section Run

variable {B : UInt32}

/-- The keys that both servers received. -/
def maxPks (submissions0 submissions1 : List (MaxShare B)) : Finset Pk :=
  sharedPks (submissions0.map fun s => (s.pk, s.arr)) (submissions1.map fun s => (s.pk, s.arr))

/-- Word `j` of the first array that a server received for a key. -/
def firstWord (submissions : List (MaxShare B)) (j : ℕ) (pk : Pk) : UInt64 :=
  ((firstReceived (submissions.map fun s => (s.pk, s.arr)) pk).map fun arr => arr.toList.getD j 0).getD 0

/-- The xor over the common keys of what the two words in slot `j` hide. -/
def maxWord (submissions0 submissions1 : List (MaxShare B)) (j : ℕ) : UInt64 :=
  xorOver (maxPks submissions0 submissions1) fun pk => firstWord submissions0 j pk ^^^ firstWord submissions1 j pk

theorem receivedPks_maxEntries (submissions : List (MaxShare B)) :
    receivedPks (maxEntries B submissions) = receivedPks (submissions.map fun s => (s.pk, s.arr)) := by
  have hkeys : (maxEntries B submissions).map Prod.fst =
      (submissions.map fun s => (s.pk, s.arr)).map Prod.fst := by
    apply List.ext_getElem
    · simp [maxEntries]
    · intro i h h'
      simp [maxEntries]
  rw [receivedPks, receivedPks, hkeys]

theorem sharedPks_maxEntries (submissions0 submissions1 : List (MaxShare B)) :
    sharedPks (maxEntries B submissions0) (maxEntries B submissions1) = maxPks submissions0 submissions1 := by
  rw [sharedPks, receivedPks_maxEntries, receivedPks_maxEntries, maxPks, sharedPks]

theorem maxShares_firstReceived {submissions : List (MaxShare B)} (hn : submissions.length < 2 ^ 32)
    (hsize : submissions.length * (B.toNat + 1) < 2 ^ 32) (uninit : ℕ → UInt64) {j : ℕ} (hj : j < (B + 1).toNat)
    (pk : Pk) :
    ((firstReceived (maxEntries B submissions) pk).map fun start => maxShares B submissions uninit (start + j)).getD 0 =
      firstWord submissions j pk := by
  cases hfirst : (maxEntries B submissions).find? fun e => e.1 = pk with
  | none =>
    have hnone : (submissions.map fun s => (s.pk, s.arr)).find? (fun e => e.1 = pk) = none := by
      rw [List.find?_eq_none] at hfirst ⊢
      intro e he
      obtain ⟨s, hs, rfl⟩ := List.mem_map.mp he
      obtain ⟨i, hi, rfl⟩ := List.getElem_of_mem hs
      exact hfirst (submissions[i].pk, sliceAt B i) (List.mem_mapIdx.mpr ⟨i, hi, rfl⟩)
    rw [firstWord, firstReceived, firstReceived, hfirst, hnone]
    rfl
  | some e =>
    obtain ⟨hkey, i, hi, rfl, hbefore⟩ := List.find?_eq_some_iff_getElem.mp hfirst
    have hlen : i < submissions.length := by simpa [maxEntries] using hi
    have hsome : (submissions.map fun s => (s.pk, s.arr)).find? (fun e => e.1 = pk) =
        some (submissions[i].pk, submissions[i].arr) := by
      refine List.find?_eq_some_iff_getElem.mpr ⟨?_, i, by simpa using hlen, by simp, ?_⟩
      · simpa [maxEntries] using hkey
      · intro k hk
        simpa [maxEntries] using hbefore k hk
    rw [firstWord, firstReceived, firstReceived, hfirst, hsome]
    simp only [maxEntries, List.getElem_mapIdx, Option.map_some, Option.getD_some]
    rw [maxShares_slice hn hsize uninit hlen hj, List.getD_eq_getElem _ _ (by simpa using hj), Vector.getElem_toList]

theorem foldl_addSlice (shares : ℕ → UInt64) (m : ShareMap ℕ) (pks : List Pk) (a : List UInt64) :
    (pks.foldl (fun acc pk => (m.lookup pk).elim acc (addSlice shares acc)) a).length = a.length ∧
    ∀ j, j < a.length → (pks.foldl (fun acc pk => (m.lookup pk).elim acc (addSlice shares acc)) a).getD j 0 =
      pks.foldl (fun acc pk => acc ^^^ ((m.lookup pk).map fun start => shares (start + j)).getD 0) (a.getD j 0) := by
  induction pks generalizing a with
  | nil => exact ⟨rfl, fun _ _ => rfl⟩
  | cons pk pks ih =>
    rw [List.foldl_cons]
    cases hpk : m.lookup pk with
    | none =>
      refine ⟨(ih a).1, fun j hj => ?_⟩
      rw [List.foldl_cons, hpk, Option.map_none, Option.getD_none, UInt64.xor_zero]
      exact (ih a).2 j hj
    | some start =>
      have hlen : (addSlice shares a start).length = a.length := length_addSlice shares a start
      refine ⟨(ih _).1.trans hlen, fun j hj => ?_⟩
      rw [List.foldl_cons, hpk, Option.map_some, Option.getD_some, ← getD_addSlice shares start hj]
      exact (ih _).2 j (by rwa [Option.elim_some, hlen])

theorem getD_matchedSum_addSlice (it : Iteration ℕ) (submissions0 submissions1 submissions : List (MaxShare B))
    (hn : submissions.length < 2 ^ 32) (hsize : submissions.length * (B.toNat + 1) < 2 ^ 32) (uninit : ℕ → UInt64) :
    let sum := matchedSum (addSlice (maxShares B submissions uninit)) it (receivedMap (maxEntries B submissions0))
      (receivedMap (maxEntries B submissions1)) (receivedMap (maxEntries B submissions))
      (List.replicate (B + 1).toNat 0)
    sum.length = (B + 1).toNat ∧
      ∀ j, j < (B + 1).toNat → sum.getD j 0 = xorOver (maxPks submissions0 submissions1) (firstWord submissions j) := by
  intro sum
  obtain ⟨hlen, hslot⟩ := foldl_addSlice (maxShares B submissions uninit) (receivedMap (maxEntries B submissions))
    (matchedPks it (receivedMap (maxEntries B submissions0)) (receivedMap (maxEntries B submissions1)))
    (List.replicate (B + 1).toNat 0)
  rw [List.length_replicate] at hlen hslot
  refine ⟨hlen, fun j hj => (hslot j hj).trans ?_⟩
  rw [foldl_xor_eq_xorOver (nodup_matchedPks it _ _), toFinset_matchedPks_receivedMap, sharedPks_maxEntries]
  have hzero : (List.replicate (B + 1).toNat (0 : UInt64)).getD j 0 = 0 := by
    simp [List.getD_eq_getElem?_getD]
  rw [hzero, UInt64.zero_xor]
  apply xorOver_congr
  intro pk _
  rw [lookup_receivedMap, maxShares_firstReceived hn hsize uninit hj]

/-- Server 0's result. -/
def maxOutcome (type : MessageType) (total : ℕ) (submissions0 submissions1 : List (MaxShare B)) :
    Option MaxOpResult :=
  let numValid := (maxPks submissions0 submissions1).card
  if 2 * numValid < total then some { ret := .invalid, numValid := numValid, ans := none }
  else ((scanDown (fun j => maxWord submissions0 submissions1 j ≠ 0) (B.toNat + 1)).bind (maxAnswer B type)).map
    fun ans => { ret := .ans, numValid := numValid, ans := some ans }

theorem maxScan_eq {type : MessageType} {total : ℕ} {submissions0 submissions1 : List (MaxShare B)}
    {a b : List UInt64} {r : MaxOpResult}
    (hdiffers : ∀ j, j < B.toNat + 1 →
      decide (a.getD j 0 ≠ b.getD j 0) = decide (maxWord submissions0 submissions1 j ≠ 0))
    (hr : maxOutcome type total submissions0 submissions1 = some r) :
    maxScan B type total (maxPks submissions0 submissions1).card a b = .ret r := by
  rw [maxScan, scanDown_congr hdiffers]
  unfold maxOutcome at hr
  by_cases hlow : 2 * (maxPks submissions0 submissions1).card < total
  · rw [if_pos hlow, Option.some_inj] at hr
    rw [if_pos ((belowThreshold_iff _ _).mpr hlow), ← hr]
    rfl
  · rw [if_neg hlow] at hr
    obtain ⟨ans, hans, rfl⟩ := Option.map_eq_some_iff.mp hr
    rw [if_neg (mt (belowThreshold_iff _ _).mp hlow), hans]
    rfl

end Run

theorem maxOp_terminates (it0 it1 : Iteration ℕ) (uninit0 uninit1 : ℕ → UInt64) (type : MessageType) (msg : InitMsg)
    (hB : msg.maxInp.toNat + 1 < 2 ^ 32) (hsize : msg.numOfInputs.toNat * (msg.maxInp.toNat + 1) < 2 ^ 32)
    (s0 s1 : Vector (MaxShare msg.maxInp) msg.numOfInputs.toNat) {r : MaxOpResult}
    (hr : maxOutcome type msg.numOfInputs.toNat s0.toList s1.toList = some r) :
    Terminates (maxOp it0 uninit0 type msg 0 s0) (maxOp it1 uninit1 type msg 1 s1) r
      { ret := .noAns, numValid := 0, ans := none } := by
  let B := msg.maxInp
  let sum (s : Vector (MaxShare B) msg.numOfInputs.toNat) (uninit : ℕ → UInt64) : List UInt64 :=
    matchedSum (addSlice (maxShares B s.toList uninit)) it1 (receivedMap (maxEntries B s0.toList))
      (receivedMap (maxEntries B s1.toList)) (receivedMap (maxEntries B s.toList)) (List.replicate (B + 1).toNat 0)
  have hsum (s : Vector (MaxShare B) msg.numOfInputs.toNat) (uninit : ℕ → UInt64) :
      (sum s uninit).length = (B + 1).toNat ∧ ∀ j, j < (B + 1).toNat →
        (sum s uninit).getD j 0 = xorOver (maxPks s0.toList s1.toList) (firstWord s.toList j) := by
    apply getD_matchedSum_addSlice
    · rw [Vector.length_toList]
      exact msg.numOfInputs.toNat_lt
    · rw [Vector.length_toList]
      exact hsize
  have hstep (shares : ℕ → UInt64) (a : List UInt64) (start : ℕ) :
      addSliceLoop B shares a start = .ret (addSlice shares a start) := by
    have hne : B + 1 ≠ 0 := by
      intro hzero
      have hnat := MaxRequest.toNat_succ hB
      rw [hzero, UInt32.toNat_zero] at hnat
      exact absurd hnat (Nat.succ_ne_zero _).symm
    exact if_neg hne
  have hread : (if (sum s1 uninit1).length = (B + 1).toNat then some (sum s1 uninit1) else none) =
      some (sum s1 uninit1) := if_pos (hsum s1 uninit1).1
  have hcard : (matchedPks it1 (receivedMap (maxEntries B s0.toList)) (receivedMap (maxEntries B s1.toList))).length =
      (maxPks s0.toList s1.toList).card := by
    rw [length_matchedPks_receivedMap, sharedPks_maxEntries]
  have hdiffers : ∀ j, j < B.toNat + 1 →
      decide ((sum s0 uninit0).getD j 0 ≠ (sum s1 uninit1).getD j 0) = decide (maxWord s0.toList s1.toList j ≠ 0) := by
    intro j hj
    have hslot : j < (B + 1).toNat := by rwa [MaxRequest.toNat_succ hB]
    rw [(hsum s0 uninit0).2 j hslot, (hsum s1 uninit1).2 j hslot, maxWord, xorOver_xor]
    simp only [ne_eq, UInt64.xor_eq_zero_iff]
  apply Reaches.terminates
  refine Reaches.bind (matched_reaches (hstep (maxShares B s0.toList uninit0)) (hstep (maxShares B s1.toList uninit1))
    it1 (receivedMap (maxEntries B s0.toList)) (receivedMap (maxEntries B s1.toList)) _ hread) ?_
  show Reaches (.start (maxScan B type msg.numOfInputs.toNat _ (sum s0 uninit0) (sum s1 uninit1)) _) _
  rw [hcard, maxScan_eq hdiffers hr]
  exact Reaches.refl _

/-! ### Batches of the client -/

/-- A batch of `max_op_helper` as the servers receive it, each in its own order. No two requests share a key, but a
request may carry different keys to the two servers. -/
structure MaxBatch {B : UInt32} {n : ℕ} (type : MessageType) (s0 s1 : Vector (MaxShare B) n) where
  requests : List (MaxRequest B)
  perm0 : s0.toList.Perm (requests.map fun r => (r.shares type).1)
  perm1 : s1.toList.Perm (requests.map fun r => (r.shares type).2)
  nodup0 : (requests.map MaxRequest.pk0).Nodup
  nodup1 : (requests.map MaxRequest.pk1).Nodup
  distinct : ∀ r ∈ requests, ∀ r' ∈ requests, r.pk0 = r'.pk1 → r = r'

namespace MaxBatch

variable {B : UInt32} {n : ℕ} {type : MessageType} {s0 s1 : Vector (MaxShare B) n} (batch : MaxBatch type s0 s1)

/-- The requests whose key both servers received. -/
def valid : List (MaxRequest B) := batch.requests.filter fun r => r.pk0 ∈ maxPks s0.toList s1.toList

/-- The xor over the valid requests of their encodings at index `j`. -/
def encodedXor (j : ℕ) : UInt64 :=
  (batch.valid.map fun r => (r.encoded type).toList.getD j 0).foldl (· ^^^ ·) 0

theorem mem_maxPks_iff (pk : Pk) :
    pk ∈ maxPks s0.toList s1.toList ↔ ∃ r ∈ batch.requests, r.pk0 = pk ∧ r.pk1 = pk := by
  have h0 : pk ∈ s0.toList.map MaxShare.pk ↔ ∃ r ∈ batch.requests, r.pk0 = pk := by
    rw [(batch.perm0.map MaxShare.pk).mem_iff]
    simp [MaxRequest.shares]
  have h1 : pk ∈ s1.toList.map MaxShare.pk ↔ ∃ r ∈ batch.requests, r.pk1 = pk := by
    rw [(batch.perm1.map MaxShare.pk).mem_iff]
    simp [MaxRequest.shares]
  have hmem : pk ∈ maxPks s0.toList s1.toList ↔ pk ∈ s0.toList.map MaxShare.pk ∧ pk ∈ s1.toList.map MaxShare.pk := by
    simp [maxPks, sharedPks, receivedPks]
  rw [hmem, h0, h1]
  constructor
  · rintro ⟨⟨r, hr, rfl⟩, r', hr', hkey⟩
    obtain rfl := batch.distinct r hr r' hr' hkey.symm
    exact ⟨r, hr, rfl, hkey⟩
  · rintro ⟨r, hr, hkey0, hkey1⟩
    exact ⟨⟨r, hr, hkey0⟩, r, hr, hkey1⟩

theorem mem_valid {r : MaxRequest B} (h : r ∈ batch.valid) : r ∈ batch.requests ∧ r.pk1 = r.pk0 := by
  obtain ⟨hr, hkey⟩ := List.mem_filter.mp h
  obtain ⟨r', hr', hkey0, hkey1⟩ := (batch.mem_maxPks_iff r.pk0).mp (by simpa using hkey)
  obtain rfl := List.inj_on_of_nodup_map batch.nodup0 hr' hr hkey0
  exact ⟨hr, hkey1⟩

theorem toFinset_valid : (batch.valid.map MaxRequest.pk0).toFinset = maxPks s0.toList s1.toList := by
  ext pk
  rw [List.mem_toFinset, List.mem_map]
  constructor
  · rintro ⟨r, hr, rfl⟩
    simpa using (List.mem_filter.mp hr).2
  · intro hpk
    obtain ⟨r, hr, rfl, -⟩ := (batch.mem_maxPks_iff pk).mp hpk
    exact ⟨r, List.mem_filter.mpr ⟨hr, by simpa using hpk⟩, rfl⟩

omit batch in
theorem firstWord_eq {submissions : List (MaxShare B)} (hnodup : (submissions.map MaxShare.pk).Nodup)
    {s : MaxShare B} (hs : s ∈ submissions) (j : ℕ) : firstWord submissions j s.pk = s.arr.toList.getD j 0 := by
  have hfirst := find?_eq_some_of_nodup hnodup (fun _ => true) hs rfl
  simp only [and_true] at hfirst
  rw [firstWord, firstReceived, List.find?_map]
  simp only [Function.comp_def, hfirst]
  rfl

theorem firstWord_xor {r : MaxRequest B} (h : r ∈ batch.valid) {j : ℕ} (hj : j < (B + 1).toNat) :
    firstWord s0.toList j r.pk0 ^^^ firstWord s1.toList j r.pk0 = (r.encoded type).toList.getD j 0 := by
  obtain ⟨hr, hkey⟩ := batch.mem_valid h
  have hnodup0 : (s0.toList.map MaxShare.pk).Nodup := by
    rw [(batch.perm0.map MaxShare.pk).nodup_iff, List.map_map]
    exact batch.nodup0
  have hnodup1 : (s1.toList.map MaxShare.pk).Nodup := by
    rw [(batch.perm1.map MaxShare.pk).nodup_iff, List.map_map]
    exact batch.nodup1
  have h0 := firstWord_eq hnodup0 (batch.perm0.mem_iff.mpr (List.mem_map_of_mem hr)) j
  have h1 := firstWord_eq hnodup1 (batch.perm1.mem_iff.mpr (List.mem_map_of_mem hr)) j
  have hpk : (r.shares type).2.pk = r.pk0 := hkey
  rw [hpk] at h1
  have hpk' : (r.shares type).1.pk = r.pk0 := rfl
  rw [hpk'] at h0
  have hget (v : Vector UInt64 (B + 1).toNat) : v.toList.getD j 0 = v[j] := by
    rw [List.getD_eq_getElem _ _ (by simpa using hj), Vector.getElem_toList]
  rw [h0, h1, hget, hget, hget]
  exact r.xor_shares type hj

theorem maxWord_eq {j : ℕ} (hj : j < (B + 1).toNat) : maxWord s0.toList s1.toList j = batch.encodedXor j := by
  let f : Pk → UInt64 := fun pk => firstWord s0.toList j pk ^^^ firstWord s1.toList j pk
  have hnodup : (batch.valid.map MaxRequest.pk0).Nodup := batch.nodup0.sublist (List.filter_sublist.map _)
  have hloop := foldl_xor_eq_xorOver (f := f) hnodup 0
  rw [batch.toFinset_valid, UInt64.zero_xor] at hloop
  have hwords : (batch.valid.map fun r => (r.encoded type).toList.getD j 0) =
      (batch.valid.map MaxRequest.pk0).map f := by
    rw [List.map_map]
    apply List.map_congr_left
    intro r hr
    exact (batch.firstWord_xor hr hj).symm
  rw [maxWord, encodedXor, hwords, List.foldl_map]
  exact hloop.symm

theorem encodedXor_above (hB : B.toNat + 1 < 2 ^ 32) {j : ℕ} (hj : j < (B + 1).toNat)
    (habove : ∀ r ∈ batch.valid, (r.top type).toNat < j) : batch.encodedXor j = 0 := by
  have hzero : ∀ r ∈ batch.valid, (r.encoded type).toList.getD j 0 = 0 := by
    intro r hr
    rw [List.getD_eq_getElem _ _ (by simpa using hj), Vector.getElem_toList]
    exact r.encoded_eq_zero type hB hj (habove r hr)
  rw [encodedXor, List.map_congr_left hzero]
  generalize batch.valid = requests
  induction requests with
  | nil => rfl
  | cons r rs ih =>
    rw [List.map_cons, List.foldl_cons, UInt64.xor_self]
    exact ih

end MaxBatch

/-- The answer undoes the reflection of `MIN`. -/
theorem toNat_maxAnswer {B : UInt32} {type : MessageType} (htype : type = .maxOp ∨ type = .minOp) {j : ℕ}
    (hj : j ≤ B.toNat) :
    ∃ ans, maxAnswer B type j = some ans ∧ ans.toNat = if type = .maxOp then j else B.toNat - j := by
  have hlt : j < 2 ^ 32 := hj.trans_lt B.toNat_lt
  rcases htype with rfl | rfl
  · exact ⟨_, rfl, UInt64.toNat_ofNat_of_lt' (hlt.trans (by decide))⟩
  · have hofNat : (UInt32.ofNat j).toNat = j := UInt32.toNat_ofNat_of_lt' hlt
    have hle : UInt32.ofNat j ≤ B := by
      rw [UInt32.le_iff_toNat_le, hofNat]
      exact hj
    refine ⟨_, rfl, ?_⟩
    rw [UInt32.toNat_toUInt64, UInt32.toNat_sub_of_le _ _ hle, hofNat]
    rfl

/-- A request with value 2 for `B = 3`. -/
def twoRequest : MaxRequest 3 :=
  { random := 6, orEncoded := #v[9, 4, 7, 1], share0 := #v[5, 8, 6, 2], pk0 := Vector.replicate 32 0,
    pk1 := Vector.replicate 32 0 }

/-- A request with value 3 that carries a key of its own to each server. -/
def splitRequest : MaxRequest 3 :=
  { random := 3, orEncoded := #v[3, 1, 2, 8], share0 := #v[7, 1, 4, 9], pk0 := Vector.replicate 32 1,
    pk1 := Vector.replicate 32 2 }

/-- The two requests reach the servers in opposite orders. -/
def crossedBatch : MaxBatch .maxOp #v[(twoRequest.shares .maxOp).1, (splitRequest.shares .maxOp).1]
    #v[(splitRequest.shares .maxOp).2, (twoRequest.shares .maxOp).2] where
  requests := [twoRequest, splitRequest]
  perm0 := List.Perm.refl _
  perm1 := List.Perm.swap _ _ _
  nodup0 := by decide
  nodup1 := by decide
  distinct := by
    have hkeys : ∀ r ∈ [twoRequest, splitRequest], ∀ r' ∈ [twoRequest, splitRequest], r.pk0 = r'.pk1 →
        r.pk0 = r'.pk0 := by decide
    have hnodup : ([twoRequest, splitRequest].map MaxRequest.pk0).Nodup := by decide
    exact fun r hr r' hr' h => List.inj_on_of_nodup_map hnodup hr hr' (hkeys r hr r' hr' h)

theorem valid_crossedBatch : crossedBatch.valid = [twoRequest] := rfl

end PrioPlus

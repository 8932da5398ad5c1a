import PrioPlus.Correlated
import PrioPlus.Server.Accumulate

/-!
# Submissions of bit vectors

What `freq_op`, `countMin_op` and `heavy_op` do first. Server 1 sends its keys in the order of its map and server 0
puts its own vectors in that order, with zeros for a key that it does not know (`freqShares_reaches`). Both convert
all bits by daBits; position `i * size + k` then holds shares of the difference of bit `k` of the two vectors of key
`i` (`convertedShares_add`).
-/

namespace PrioPlus

open Finset Lib.TwoParty Lib.FirstWins Lib.FlatLoop

/-- `FreqShare`, with an array of `size` bits. -/
structure FreqShare (size : ℕ) where
  pk : Pk
  arr : Vector Bool size

variable {size : ℕ}

/-- The map after the receive loop: a known key is skipped. -/
def freqShareMap (submissions : List (FreqShare size)) : ShareMap (Vector Bool size) :=
  collect (fun _ => true) (submissions.map fun s => (s.pk, s.arr))

/-- The receive loop of an operation, for its end only: `recv_bool_batch` counts to the size of the array. -/
def recvInputs (totalInputs size : ℕ) : Server Unit := if totalInputs = 0 then .ret () else loopTo size

/-- Server 1: the keys go over, the shares are in their order. -/
def sendFreqShares (it : Iteration (Vector Bool size)) (shareMap : ShareMap (Vector Bool size)) :
    Server (List Bool) := do
  let entries := it.order shareMap
  sendMsg (.size entries.length)
  sendPks (entries.map Sigma.fst)
  return entries.flatMap fun e => e.2.toList

/-- Server 0: whether it knows each key, and its shares in the order of the keys. -/
def recvFreqShares (shareMap : ShareMap (Vector Bool size)) : Server (List Bool × List Bool) := do
  let numInputs ← recvSize
  let pks ← recvPks numInputs
  return (pks.map fun pk => decide (pk ∈ shareMap),
    pks.flatMap fun pk => ((shareMap.lookup pk).getD (Vector.replicate size false)).toList)

/-! ### Keys and vectors -/

/-- The keys among the submissions of one server. -/
def freqPks (submissions : List (FreqShare size)) : Finset Pk := (submissions.map FreqShare.pk).toFinset

/-- The first vector that a server received for a key, zeros when there is none. -/
def firstArr (submissions : List (FreqShare size)) (pk : Pk) : Vector Bool size :=
  ((submissions.find? fun s => s.pk = pk).map FreqShare.arr).getD (Vector.replicate size false)

theorem mem_freqShareMap (submissions : List (FreqShare size)) (pk : Pk) :
    pk ∈ freqShareMap submissions ↔ pk ∈ freqPks submissions := by
  simp [freqShareMap, mem_collect, freqPks]

theorem lookup_freqShareMap (submissions : List (FreqShare size)) (pk : Pk) :
    ((freqShareMap submissions).lookup pk).getD (Vector.replicate size false) = firstArr submissions pk := by
  rw [freqShareMap, lookup_collect, firstArr, List.find?_map, Option.map_map]
  simp [Function.comp_def]

theorem keys_freqShareMap (submissions : List (FreqShare size)) :
    (freqShareMap submissions).keys.toFinset = freqPks submissions := by
  ext pk
  rw [List.mem_toFinset, ← AList.mem_keys, mem_freqShareMap]

theorem firstArr_of_mem {submissions : List (FreqShare size)} (hnodup : (submissions.map FreqShare.pk).Nodup)
    {s : FreqShare size} (hs : s ∈ submissions) : firstArr submissions s.pk = s.arr := by
  have hfind := find?_eq_some_of_nodup hnodup (fun _ => true) hs rfl
  simp only [and_true] at hfind
  rw [firstArr, hfind]
  rfl

/-! ### The common order -/

/-- The keys in the order in which server 1 sends them. -/
def alignedPks (it : Iteration (Vector Bool size)) (submissions : List (FreqShare size)) : List Pk :=
  (it.order (freqShareMap submissions)).map Sigma.fst

/-- A server's shares in the order of the keys. -/
def alignedShares (pks : List Pk) (submissions : List (FreqShare size)) : List Bool :=
  pks.flatMap fun pk => (firstArr submissions pk).toList

section Aligned

variable (it : Iteration (Vector Bool size)) (submissions : List (FreqShare size))

theorem length_alignedPks :
    (alignedPks it submissions).length = (it.order (freqShareMap submissions)).length := List.length_map _

theorem length_entries : (freqShareMap submissions).entries.length = (alignedPks it submissions).length := by
  rw [length_alignedPks, Iteration.length_order]

theorem mem_alignedPks (pk : Pk) : pk ∈ alignedPks it submissions ↔ pk ∈ freqPks submissions := by
  rw [alignedPks, mem_keys_iteration (it.perm _), mem_freqShareMap]

theorem length_alignedPks_eq_card : (alignedPks it submissions).length = (freqPks submissions).card := by
  have hnodup : (alignedPks it submissions).Nodup := nodup_keys_iteration (it.perm _)
  have hkeys : (alignedPks it submissions).toFinset = freqPks submissions := by
    ext pk
    rw [List.mem_toFinset, mem_alignedPks]
  rw [← hkeys, List.toFinset_card_of_nodup hnodup]

theorem sum_alignedPks {N : Type*} [AddCommMonoid N] {g : ℕ → N} {f : Pk → N}
    (h : ∀ (i : ℕ) (hi : i < (alignedPks it submissions).length), g i = f (alignedPks it submissions)[i]) :
    ∑ i ∈ range (alignedPks it submissions).length, g i = ∑ pk ∈ freqPks submissions, f pk := by
  rw [sum_range_eq_sum_map h, alignedPks, List.map_map, ← keys_freqShareMap, ← sum_map_iteration (it.perm _) f]
  rfl

theorem length_alignedShares (pks : List Pk) : (alignedShares pks submissions).length = pks.length * size :=
  length_flatMap_const fun _ _ => Vector.length_toList

theorem getD_alignedShares (pks : List Pk) {i k : ℕ} (hi : i < pks.length) (hk : k < size) :
    (alignedShares pks submissions).getD (i * size + k) false = (firstArr submissions pks[i]).toList.getD k false := by
  rw [List.getD_eq_getElem?_getD, alignedShares, getElem?_flatMap_const (fun _ _ => Vector.length_toList) hi hk,
    List.getD_eq_getElem?_getD]

theorem flatMap_order :
    ((it.order (freqShareMap submissions)).flatMap fun e => e.2.toList) =
      alignedShares (alignedPks it submissions) submissions := by
  rw [alignedShares, alignedPks, List.flatMap_map]
  apply List.flatMap_congr
  intro e he
  rw [← lookup_freqShareMap, lookup_of_mem_iteration (it.perm _) he, Option.getD_some]

end Aligned

/-- Server 0's view of the keys. -/
def matched (pks : List Pk) (submissions : List (FreqShare size)) : List Bool :=
  pks.map fun pk => decide (pk ∈ freqPks submissions)

@[simp] theorem length_matched (pks : List Pk) (submissions : List (FreqShare size)) :
    (matched pks submissions).length = pks.length := List.length_map _

theorem freqShares_reaches (it : Iteration (Vector Bool size)) (s0 s1 : List (FreqShare size)) :
    Reaches (.start (recvFreqShares (freqShareMap s0)) (sendFreqShares it (freqShareMap s1)))
      (.done (matched (alignedPks it s1) s0, alignedShares (alignedPks it s1) s0)
        (alignedShares (alignedPks it s1) s1)) := by
  refine Reaches.bind (reaches_recvAs10 rfl) ?_
  rw [← length_alignedPks]
  refine Reaches.bind (reaches_pks10 (alignedPks it s1)) ?_
  simp only [mem_freqShareMap, lookup_freqShareMap, flatMap_order]
  exact Reaches.refl _

theorem recvInputs_reaches {totalInputs : ℕ} (h : totalInputs = 0 ∨ size < 2 ^ 32) :
    Reaches (.start (recvInputs totalInputs size) (recvInputs totalInputs size)) (.done () ()) := by
  rw [recvInputs]
  split_ifs with hzero
  · exact Reaches.refl _
  · have hsize := h.resolve_left hzero
    exact reaches_loopTo hsize hsize

theorem recvInputs_hangs {totalInputs : ℕ} (h : ¬ (totalInputs = 0 ∨ size < 2 ^ 32)) :
    Hangs (recvInputs totalInputs size) (recvInputs totalInputs size) := by
  obtain ⟨hpos, hsize⟩ := not_or.mp h
  rw [recvInputs, if_neg hpos]
  exact hangs_loopTo hsize hsize

/-- The counters of an operation get through: over one array, over the bits of all keys of server 1, over the rows of
the batch check, and over each row where there is a key. -/
structure CountersFit (rows : List (ℕ × ℕ)) (submissions1 : List (FreqShare size)) : Prop where
  array : size < 2 ^ 32
  bits : (freqPks submissions1).card * size < 2 ^ 32
  widths : (freqPks submissions1).Nonempty → ∀ row ∈ rows, row.2 < 2 ^ 32
  rows : rows.length < 2 ^ 32

theorem CountersFit.of_rows {rows : List (ℕ × ℕ)} {submissions1 : List (FreqShare size)} (harray : size < 2 ^ 32)
    (hbits : (freqPks submissions1).card * size < 2 ^ 32) (hlen : rows.length < 2 ^ 32)
    (hrows : ∀ row ∈ rows, row.2 ≤ size) : CountersFit rows submissions1 :=
  ⟨harray, hbits, fun _ row hrow => (hrows row hrow).trans_lt harray, hlen⟩

/-! ### The converted bits -/

/-- Bit `k` of the xor of the two vectors of a key. -/
def diffBit (s0 s1 : List (FreqShare size)) (pk : Pk) (k : ℕ) : Bool :=
  (firstArr s0 pk).toList.getD k false ^^ (firstArr s1 pk).toList.getD k false

/-- The number of ones of the xor among the `len` bits from `start` on. -/
def ones (s0 s1 : List (FreqShare size)) (pk : Pk) (start len : ℕ) : ℕ :=
  #{k ∈ range len | diffBit s0 s1 pk (start + k)}

theorem ones_eq_sum (s0 s1 : List (FreqShare size)) (pk : Pk) (start len : ℕ) :
    ones s0 s1 pk start len = ∑ k ∈ range len, (diffBit s0 s1 pk (start + k)).toNat := by
  rw [ones, card_filter]
  apply sum_congr rfl
  intro k _
  cases diffBit s0 s1 pk (start + k) <;> rfl

theorem ones_le (s0 s1 : List (FreqShare size)) (pk : Pk) (start len : ℕ) : ones s0 s1 pk start len ≤ len := by
  rw [ones]
  exact (card_filter_le _ _).trans (card_range len).le

/-- The shares that one server gets from `b2a_daBit_single`. -/
def convertedShares (serverNum : ℕ) (dThis dOther : ℕ → DaBit) (pks : List Pk) (sThis sOther : List (FreqShare size)) :
    List ℤ :=
  daBitShares serverNum dThis (maskedBits dThis (alignedShares pks sThis))
    (maskedBits dOther (alignedShares pks sOther))

section Converted

variable (d0 d1 : ℕ → DaBit) (pks : List Pk) (s0 s1 : List (FreqShare size))

theorem length_alignedShares_card (it : Iteration (Vector Bool size)) :
    (alignedShares (alignedPks it s1) s0).length = (freqPks s1).card * size := by
  rw [length_alignedShares, length_alignedPks_eq_card]

theorem convert_reaches (it : Iteration (Vector Bool size)) (hbits : (freqPks s1).card * size < 2 ^ 32) :
    let pks := alignedPks it s1
    Reaches (.start (b2aDaBitSingle 0 d0 (alignedShares pks s0)) (b2aDaBitSingle 1 d1 (alignedShares pks s1)))
      (.done (convertedShares 0 d0 d1 pks s0 s1) (convertedShares 1 d1 d0 pks s1 s0)) := by
  apply b2aDaBitSingle_reaches
  · rw [length_alignedShares, length_alignedShares]
  · rwa [length_alignedShares_card]

theorem convert_hangs (it : Iteration (Vector Bool size)) (hbits : ¬ (freqPks s1).card * size < 2 ^ 32) :
    let pks := alignedPks it s1
    Hangs (b2aDaBitSingle 0 d0 (alignedShares pks s0)) (b2aDaBitSingle 1 d1 (alignedShares pks s1)) := by
  apply b2aDaBitSingle_hangs
  · rw [length_alignedShares, length_alignedShares]
  · rwa [length_alignedShares_card]

variable {d0 d1} {pks}

theorem convertedShares_add (hcorr : CorrelatedDaBits d0 d1) {i k : ℕ} (hi : i < pks.length) (hk : k < size) :
    ((convertedShares 0 d0 d1 pks s0 s1).getD (i * size + k) 0 : ZMod intModulus) +
        (convertedShares 1 d1 d0 pks s1 s0).getD (i * size + k) 0 =
      (diffBit s0 s1 pks[i] k).toNat := by
  have hidx : i * size + k < (alignedShares pks s0).length := by
    have hblock := Nat.mul_le_mul_right size (Nat.succ_le_of_lt hi)
    rw [Nat.succ_mul] at hblock
    rw [length_alignedShares]
    omega
  have hlen : (alignedShares pks s0).length = (alignedShares pks s1).length := by
    rw [length_alignedShares, length_alignedShares]
  have hadd := daBitShares_add hcorr hlen hidx
  rw [← ZMod.intCast_eq_intCast_iff, getD_alignedShares s0 pks hi hk, getD_alignedShares s1 pks hi hk] at hadd
  push_cast at hadd
  exact hadd

theorem sum_convertedShares (hcorr : CorrelatedDaBits d0 d1) {i : ℕ} (hi : i < pks.length) {start len : ℕ}
    (hrow : start + len ≤ size) :
    ∑ k ∈ range len, ((convertedShares 0 d0 d1 pks s0 s1).getD (i * size + (start + k)) 0 : ZMod intModulus) +
        ∑ k ∈ range len, ((convertedShares 1 d1 d0 pks s1 s0).getD (i * size + (start + k)) 0 : ZMod intModulus) =
      ones s0 s1 pks[i] start len := by
  rw [← sum_add_distrib, ones_eq_sum, Nat.cast_sum]
  apply sum_congr rfl
  intro k hk
  have hk := mem_range.mp hk
  exact convertedShares_add s0 s1 hcorr hi (by omega)

end Converted

end PrioPlus

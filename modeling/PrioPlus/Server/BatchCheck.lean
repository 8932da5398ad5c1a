import PrioPlus.Server.FreqShare

/-!
# The batch check

Each row of the table is added up over all inputs, and server 0 compares the parity and the sum of each row with the
number of submissions. The two loops of `countMin_op` and `heavy_op` write `all_valid` anew in every round and their
`continue` does not leave them, so the verdict is that of the last row (`allValidLoops_eq_true_iff`), and the check
is one of every row exactly when the other rows cannot fail alone (`allValid_exact_iff`).

On the shares of the two servers a row passes when its number of ones over all inputs is the number of submissions
modulo `2` and modulo `Int_Modulus` (`rowOk_aggregates_iff`).
-/

namespace PrioPlus

open Finset Lib.FlatLoop

/-! ### The loops of server 0 -/

/-- The loop over the parities. The `continue` of a row that fails ends a round that is over. -/
def parityLoop (rows totalInputs : ℕ) (parity parityOther : List Bool) : Bool :=
  (List.range rows).foldl
    (fun _ j => decide ((parity.getD j false ^^ parityOther.getD j false).toNat = totalInputs % 2)) false

/-- The loop over the sums. -/
def sumsLoop (rows totalInputs : ℕ) (sums sumsOther : List ℤ) (allValid : Bool) : Bool :=
  (List.range rows).foldl
    (fun _ j => decide ((sums.getD j 0 + sumsOther.getD j 0) % (intModulus : ℤ) = totalInputs)) allValid

/-- `all_valid` after the loops over `rows` rows. -/
def allValidLoops (rows totalInputs : ℕ) (parity parityOther : List Bool) (sums sumsOther : List ℤ) : Bool :=
  let allValid := parityLoop rows totalInputs parity parityOther
  if allValid then sumsLoop rows totalInputs sums sumsOther allValid else allValid

/-- `all_valid` of `countMin_op`. -/
def countMinAllValid (d totalInputs : ℕ) (parity parityOther : List Bool) (sums sumsOther : List ℤ) : Bool :=
  allValidLoops d totalInputs parity parityOther sums sumsOther

/-- `all_valid` of `heavy_op`, with the layers of size `d` and the frequency layer. -/
def heavyAllValid (L d totalInputs : ℕ) (parity parityOther : List Bool) (sums sumsOther : List ℤ) : Bool :=
  allValidLoops (L * d + 1) totalInputs parity parityOther sums sumsOther

/-- A row has the parity and the sum of as many ones as there are submissions. -/
def RowOk (totalInputs : ℕ) (parity parityOther : List Bool) (sums sumsOther : List ℤ) (j : ℕ) : Prop :=
  (parity.getD j false ^^ parityOther.getD j false).toNat = totalInputs % 2 ∧
    sums.getD j 0 + sumsOther.getD j 0 ≡ totalInputs [ZMOD intModulus]

theorem foldl_range_overwrite {α : Type*} (f : ℕ → α) (init : α) (n : ℕ) :
    (List.range (n + 1)).foldl (fun _ j => f j) init = f n := by
  rw [List.range_succ, List.foldl_append]
  rfl

section Loops

variable {totalInputs : ℕ} (parity parityOther : List Bool) (sums sumsOther : List ℤ)

theorem emod_eq_total_iff (htotal : totalInputs < intModulus) (x : ℤ) :
    x % (intModulus : ℤ) = totalInputs ↔ x ≡ totalInputs [ZMOD intModulus] := by
  rw [Int.ModEq, Int.emod_eq_of_lt (b := (intModulus : ℤ)) (Int.natCast_nonneg totalInputs) (by exact_mod_cast htotal)]

theorem allValidLoops_zero : allValidLoops 0 totalInputs parity parityOther sums sumsOther = false := rfl

/-- The last row decides. -/
theorem allValidLoops_succ (htotal : totalInputs < intModulus) (rows : ℕ) :
    allValidLoops (rows + 1) totalInputs parity parityOther sums sumsOther = true ↔
      RowOk totalInputs parity parityOther sums sumsOther rows := by
  unfold allValidLoops parityLoop sumsLoop RowOk
  simp only [foldl_range_overwrite, ← emod_eq_total_iff htotal]
  split_ifs with hparity
  · rw [decide_eq_true_iff]
    exact (and_iff_right (of_decide_eq_true hparity)).symm
  · exact iff_of_false hparity fun h => hparity (decide_eq_true h.1)

theorem allValidLoops_eq_true_iff (htotal : totalInputs < intModulus) (rows : ℕ) :
    allValidLoops rows totalInputs parity parityOther sums sumsOther = true ↔
      0 < rows ∧ RowOk totalInputs parity parityOther sums sumsOther (rows - 1) := by
  cases rows with
  | zero => simp [allValidLoops_zero]
  | succ rows =>
    rw [allValidLoops_succ parity parityOther sums sumsOther htotal, Nat.add_sub_cancel]
    exact (and_iff_right (Nat.succ_pos rows)).symm

theorem last_iff_forall_iff {rows : ℕ} {P : ℕ → Prop} :
    ((0 < rows ∧ P (rows - 1)) ↔ ∀ j < rows, P j) ↔ 0 < rows ∧ (P (rows - 1) → ∀ j < rows, P j) := by
  constructor
  · intro h
    have hpos : 0 < rows := by
      by_contra hzero
      exact hzero (h.mpr fun j hj => absurd (Nat.zero_lt_of_lt hj) hzero).1
    exact ⟨hpos, fun hlast => h.mp ⟨hpos, hlast⟩⟩
  · rintro ⟨hpos, himp⟩
    exact ⟨fun h => himp h.2, fun h => ⟨hpos, h _ (Nat.sub_lt hpos Nat.one_pos)⟩⟩

end Loops

theorem numOfInputs_lt_intModulus (n : UInt32) : n.toNat < intModulus :=
  n.toNat_lt.trans (by decide)

/-- The verdicts speak for every row exactly when the last row does not pass without the others. Rows from `2 ^ 32` on
are never exchanged: the loops that add them up count in `unsigned int` and do not end. -/
theorem allValid_exact_iff (numOfInputs : UInt32) (parity parityOther : List Bool) (sums sumsOther : List ℤ) :
    (∀ d : ℕ,
      (countMinAllValid d numOfInputs.toNat parity parityOther sums sumsOther = true ↔
          ∀ j < d, RowOk numOfInputs.toNat parity parityOther sums sumsOther j) ↔
        0 < d ∧ (RowOk numOfInputs.toNat parity parityOther sums sumsOther (d - 1) →
          ∀ j < d, RowOk numOfInputs.toNat parity parityOther sums sumsOther j)) ∧
    ∀ L d : ℕ,
      (heavyAllValid L d numOfInputs.toNat parity parityOther sums sumsOther = true ↔
          ∀ j < L * d + 1, RowOk numOfInputs.toNat parity parityOther sums sumsOther j) ↔
        (RowOk numOfInputs.toNat parity parityOther sums sumsOther (L * d) →
          ∀ j < L * d + 1, RowOk numOfInputs.toNat parity parityOther sums sumsOther j) := by
  have htotal := numOfInputs_lt_intModulus numOfInputs
  constructor
  · intro d
    rw [countMinAllValid, allValidLoops_eq_true_iff parity parityOther sums sumsOther htotal]
    exact last_iff_forall_iff
  · intro L d
    rw [heavyAllValid, allValidLoops_eq_true_iff parity parityOther sums sumsOther htotal, last_iff_forall_iff]
    exact and_iff_right (Nat.succ_pos _)

/-- One submission, two rows: the first row has no one, the second has one, and both verdicts are `true`. -/
theorem not_allValid_exact :
    ¬ (countMinAllValid 2 1 [false, true] [false, false] [0, 1] [0, 0] = true ↔
        ∀ j < 2, RowOk 1 [false, true] [false, false] [0, 1] [0, 0] j) ∧
      ¬ (heavyAllValid 1 1 1 [false, true] [false, false] [0, 1] [0, 0] = true ↔
        ∀ j < 1 * 1 + 1, RowOk 1 [false, true] [false, false] [0, 1] [0, 0] j) := by
  have hrow : ¬ RowOk 1 [false, true] [false, false] [0, 1] [0, 0] 0 := fun h => absurd h.1 (by decide)
  exact ⟨fun h => hrow (h.mp (by decide) 0 (by decide)), fun h => hrow (h.mp (by decide) 0 (by decide))⟩

/-! ### Parities and sums of a row -/

/-- The loop `for i < n: acc ^= f i`, from zero. -/
def xorLoop (n : ℕ) (f : ℕ → Bool) : Bool := (List.range n).foldl (fun acc i => acc ^^ f i) false

/-- `parity[j]`, where row `j` takes `len` positions from `start` on. -/
def rowParity (numInputs size start len : ℕ) (shares : List Bool) : Bool :=
  (List.range numInputs).foldl (fun acc i =>
    (List.range len).foldl (fun acc k => acc ^^ shares.getD (i * size + (start + k)) false) acc) false

/-- `sums[j]`. -/
def rowSum (numInputs size start len : ℕ) (sharesP : List ℤ) : ℤ :=
  (List.range numInputs).foldl (fun acc i =>
    (List.range len).foldl (fun acc k => (acc + sharesP.getD (i * size + (start + k)) 0) % intModulus) acc) 0

/-- The bits of a row, added up modulo two. -/
def bitTotal (numInputs size : ℕ) (row : ℕ × ℕ) (shares : List Bool) : ZMod 2 :=
  ∑ i ∈ range numInputs, ∑ k ∈ range row.2, ((shares.getD (i * size + (row.1 + k)) false).toNat : ZMod 2)

/-- The shares of a row, added up. -/
def shareTotal (numInputs size : ℕ) (row : ℕ × ℕ) (sharesP : List ℤ) : ZMod intModulus :=
  ∑ i ∈ range numInputs, ∑ k ∈ range row.2, (sharesP.getD (i * size + (row.1 + k)) 0 : ZMod intModulus)

theorem cast_toNat_xor (a b : Bool) : ((a ^^ b).toNat : ZMod 2) = a.toNat + b.toNat := by
  cases a <;> cases b <;> decide

theorem cast_foldl_xor (f : ℕ → Bool) (acc : Bool) (n : ℕ) :
    (((List.range n).foldl (fun acc i => acc ^^ f i) acc).toNat : ZMod 2) =
      acc.toNat + ∑ i ∈ range n, ((f i).toNat : ZMod 2) := by
  induction n with
  | zero => simp
  | succ n ih =>
    rw [List.range_succ, List.foldl_append, List.foldl_cons, List.foldl_nil, cast_toNat_xor, ih, sum_range_succ,
      add_assoc]

theorem cast_xorLoop (n : ℕ) (f : ℕ → Bool) :
    ((xorLoop n f).toNat : ZMod 2) = ∑ i ∈ range n, ((f i).toNat : ZMod 2) := by
  rw [xorLoop, cast_foldl_xor, Bool.toNat_false, Nat.cast_zero, zero_add]

theorem cast_rowParity (numInputs size start len : ℕ) (shares : List Bool) :
    ((rowParity numInputs size start len shares).toNat : ZMod 2) = bitTotal numInputs size (start, len) shares := by
  unfold bitTotal
  induction numInputs with
  | zero => rfl
  | succ n ih =>
    rw [rowParity] at ih ⊢
    rw [List.range_succ, List.foldl_append, List.foldl_cons, List.foldl_nil, cast_foldl_xor, ih, sum_range_succ]

theorem cast_foldl_add (f : ℕ → ℤ) (acc : ℤ) (n : ℕ) :
    (((List.range n).foldl (fun acc i => (acc + f i) % intModulus) acc : ℤ) : ZMod intModulus) =
      acc + ∑ i ∈ range n, (f i : ZMod intModulus) := by
  induction n with
  | zero => simp
  | succ n ih =>
    rw [List.range_succ, List.foldl_append, List.foldl_cons, List.foldl_nil, cast_emod, Int.cast_add, ih,
      sum_range_succ, add_assoc]

theorem cast_rowSum (numInputs size start len : ℕ) (sharesP : List ℤ) :
    ((rowSum numInputs size start len sharesP : ℤ) : ZMod intModulus) =
      shareTotal numInputs size (start, len) sharesP := by
  unfold shareTotal
  induction numInputs with
  | zero => simp [rowSum]
  | succ n ih =>
    rw [rowSum] at ih ⊢
    rw [List.range_succ, List.foldl_append, List.foldl_cons, List.foldl_nil, cast_foldl_add, ih, sum_range_succ]

/-! ### The aggregates of the two servers -/

section Aggregates

variable {size : ℕ} {s0 s1 : List (FreqShare size)}

/-- The ones of a row over all inputs. -/
def totalOnes (s0 s1 : List (FreqShare size)) (row : ℕ × ℕ) : ℕ := ∑ pk ∈ freqPks s1, ones s0 s1 pk row.1 row.2

/-- A row has as many ones as there are submissions, as far as the two moduli see. -/
def RowBalanced (totalInputs : ℕ) (s0 s1 : List (FreqShare size)) (row : ℕ × ℕ) : Prop :=
  totalOnes s0 s1 row ≡ totalInputs [MOD 2] ∧ totalOnes s0 s1 row ≡ totalInputs [MOD intModulus]

variable (it : Iteration (Vector Bool size))

theorem bitTotal_add {row : ℕ × ℕ} (hrow : (freqPks s1).Nonempty → row.1 + row.2 ≤ size) :
    bitTotal (alignedPks it s1).length size row (alignedShares (alignedPks it s1) s0) +
        bitTotal (alignedPks it s1).length size row (alignedShares (alignedPks it s1) s1) =
      (totalOnes s0 s1 row : ℕ) := by
  rw [bitTotal, bitTotal, ← sum_add_distrib, totalOnes, Nat.cast_sum]
  apply sum_alignedPks it s1
  intro i hi
  have hrow := hrow ⟨_, (mem_alignedPks it s1 _).mp (List.getElem_mem hi)⟩
  rw [← sum_add_distrib, ones_eq_sum, Nat.cast_sum]
  apply sum_congr rfl
  intro k hk
  have hk := mem_range.mp hk
  rw [getD_alignedShares s0 _ hi (by omega), getD_alignedShares s1 _ hi (by omega), diffBit, cast_toNat_xor]

theorem shareTotal_add {d0 d1 : ℕ → DaBit} (hcorr : CorrelatedDaBits d0 d1) {row : ℕ × ℕ}
    (hrow : (freqPks s1).Nonempty → row.1 + row.2 ≤ size) :
    shareTotal (alignedPks it s1).length size row (convertedShares 0 d0 d1 (alignedPks it s1) s0 s1) +
        shareTotal (alignedPks it s1).length size row (convertedShares 1 d1 d0 (alignedPks it s1) s1 s0) =
      (totalOnes s0 s1 row : ℕ) := by
  rw [shareTotal, shareTotal, ← sum_add_distrib, totalOnes, Nat.cast_sum]
  apply sum_alignedPks it s1
  intro i hi
  exact sum_convertedShares s0 s1 hcorr hi (hrow ⟨_, (mem_alignedPks it s1 _).mp (List.getElem_mem hi)⟩)

theorem toNat_eq_mod_two_iff (b : Bool) (n : ℕ) : b.toNat = n % 2 ↔ ((b.toNat : ℕ) : ZMod 2) = n := by
  have hbit : b.toNat % 2 = b.toNat := Nat.mod_eq_of_lt (Nat.lt_succ_of_le (Bool.toNat_le b))
  rw [ZMod.natCast_eq_natCast_iff, Nat.ModEq, hbit]

theorem rowOk_aggregates_iff {d0 d1 : ℕ → DaBit} (hcorr : CorrelatedDaBits d0 d1) (totalInputs : ℕ)
    {parity parityOther : List Bool} {sums sumsOther : List ℤ} {j : ℕ} {row : ℕ × ℕ}
    (hrow : (freqPks s1).Nonempty → row.1 + row.2 ≤ size)
    (hparity : ((parity.getD j false).toNat : ZMod 2) =
      bitTotal (alignedPks it s1).length size row (alignedShares (alignedPks it s1) s0))
    (hparityOther : ((parityOther.getD j false).toNat : ZMod 2) =
      bitTotal (alignedPks it s1).length size row (alignedShares (alignedPks it s1) s1))
    (hsums : ((sums.getD j 0 : ℤ) : ZMod intModulus) =
      shareTotal (alignedPks it s1).length size row (convertedShares 0 d0 d1 (alignedPks it s1) s0 s1))
    (hsumsOther : ((sumsOther.getD j 0 : ℤ) : ZMod intModulus) =
      shareTotal (alignedPks it s1).length size row (convertedShares 1 d1 d0 (alignedPks it s1) s1 s0)) :
    RowOk totalInputs parity parityOther sums sumsOther j ↔ RowBalanced totalInputs s0 s1 row := by
  unfold RowOk RowBalanced
  apply and_congr
  · rw [toNat_eq_mod_two_iff, cast_toNat_xor, hparity, hparityOther, bitTotal_add it hrow,
      ← ZMod.natCast_eq_natCast_iff]
  · rw [← ZMod.intCast_eq_intCast_iff, Int.cast_add, hsums, hsumsOther, shareTotal_add it hcorr hrow,
      ← ZMod.natCast_eq_natCast_iff, Int.cast_natCast]

end Aggregates

/-! ### The fast path and the test of one input -/

/-- What an operation on tables leaves behind: its return value, the verdict of the batch check, the final `valid`
array, and what server 0 reports. -/
structure TableResult (α : Type) where
  ret : ReturnType
  allValid : Bool
  valid : List Bool
  numValid : ℕ
  ans : Option α

section FastPath

variable {size : ℕ} (s0 s1 : List (FreqShare size)) (rows : List (ℕ × ℕ))

/-- Server 0 knows the key, and the two vectors differ in exactly one bit of each row. -/
def KeyOk (pk : Pk) : Prop := pk ∈ freqPks s0 ∧ ∀ row ∈ rows, ones s0 s1 pk row.1 row.2 = 1

/-- When the batch check passes, both servers mark all inputs valid, and the test of one input would do so too. -/
def BatchAgrees (allValid : Bool) (valid0 valid1 : List Bool) : Prop :=
  allValid = true → valid0 = List.replicate (freqPks s1).card true ∧ valid1 = valid0 ∧
    ∀ pk ∈ freqPks s1, KeyOk s0 s1 rows pk

/-- Some input is not fine, and the row that decides is balanced all the same. -/
def Cancels (totalInputs : ℕ) : Prop :=
  (∃ pk ∈ freqPks s1, ¬ KeyOk s0 s1 rows pk) ∧ ∃ row ∈ rows.getLast?, RowBalanced totalInputs s0 s1 row

variable {s0 s1 rows}

theorem batchAgrees_iff {totalInputs : ℕ} {allValid : Bool} {valid0 valid1 : List Bool}
    (hall : allValid = true ↔ ∃ row ∈ rows.getLast?, RowBalanced totalInputs s0 s1 row)
    (hvalid0 : allValid = true → valid0 = List.replicate (freqPks s1).card true)
    (hvalid1 : allValid = true → valid1 = List.replicate (freqPks s1).card true) :
    BatchAgrees s0 s1 rows allValid valid0 valid1 ↔ ¬ Cancels s0 s1 rows totalInputs := by
  constructor
  · rintro hagrees ⟨⟨pk, hpk, hbad⟩, hbalanced⟩
    exact hbad ((hagrees (hall.mpr hbalanced)).2.2 pk hpk)
  · intro hnot htrue
    refine ⟨hvalid0 htrue, (hvalid1 htrue).trans (hvalid0 htrue).symm, fun pk hpk => ?_⟩
    by_contra hbad
    exact hnot ⟨⟨pk, hpk, hbad⟩, hall.mp htrue⟩

end FastPath

/-! ### One key, submitted again and again -/

section Flood

/-- Equal submissions under one key, with all bits equal to `b`. -/
def flood (size n : ℕ) (b : Bool) : Vector (FreqShare size) n :=
  Vector.replicate n { pk := Vector.replicate 32 0, arr := Vector.replicate size b }

variable {size n : ℕ}

theorem freqPks_flood (hn : 0 < n) (b : Bool) : freqPks (flood size n b).toList = {Vector.replicate 32 0} := by
  simp [freqPks, flood, List.toFinset_replicate_of_ne_zero hn.ne']

theorem firstArr_flood (hn : 0 < n) (b : Bool) :
    firstArr (flood size n b).toList (Vector.replicate 32 0) = Vector.replicate size b := by
  obtain ⟨m, rfl⟩ := Nat.exists_eq_succ_of_ne_zero hn.ne'
  simp [firstArr, flood, List.replicate_succ]

theorem ones_flood (hn : 0 < n) {start len : ℕ} (hlen : start + len ≤ size) :
    ones (flood size n true).toList (flood size n false).toList (Vector.replicate 32 0) start len = len := by
  have hbits : ∀ k ∈ range len,
      diffBit (flood size n true).toList (flood size n false).toList (Vector.replicate 32 0) (start + k) = true := by
    intro k hk
    have hk := mem_range.mp hk
    have hpos : start + k < size := by omega
    simp [diffBit, firstArr_flood hn, hpos]
  rw [ones, filter_true_of_mem hbits, card_range]

theorem totalOnes_flood (hn : 0 < n) {row : ℕ × ℕ} (hrow : row.1 + row.2 ≤ size) :
    totalOnes (flood size n true).toList (flood size n false).toList row = row.2 := by
  rw [totalOnes, freqPks_flood hn, sum_singleton, ones_flood hn hrow]

theorem keyOk_flood_iff (hn : 0 < n) {row : ℕ × ℕ} (hrow : row.1 + row.2 ≤ size) :
    KeyOk (flood size n true).toList (flood size n false).toList [row] (Vector.replicate 32 0) ↔ row.2 = 1 := by
  simp [KeyOk, freqPks_flood hn, ones_flood hn hrow]

theorem countersFit_flood (hn : 0 < n) {rows : List (ℕ × ℕ)} (hsize : size < 2 ^ 32) (hlen : rows.length < 2 ^ 32)
    (hrows : ∀ row ∈ rows, row.2 ≤ size) : CountersFit rows (flood size n false).toList := by
  refine .of_rows hsize ?_ hlen hrows
  rwa [freqPks_flood hn, card_singleton, Nat.one_mul]

/-- As many ones in the one key's vector as there are submissions pass for one each. -/
theorem cancels_flood {row : ℕ × ℕ} (hrow : row.1 + row.2 ≤ size) (hn : n = row.2) (hlen : 2 ≤ n) :
    Cancels (flood size n true).toList (flood size n false).toList [row] n := by
  have hpos : 0 < n := by omega
  refine ⟨⟨Vector.replicate 32 0, ?_, ?_⟩, row, rfl, ?_⟩
  · rw [freqPks_flood hpos]
    exact mem_singleton_self _
  · rw [keyOk_flood_iff hpos hrow]
    omega
  · rw [RowBalanced, totalOnes_flood hpos hrow, ← hn]
    exact ⟨Nat.ModEq.refl _, Nat.ModEq.refl _⟩

theorem not_cancels_flood {row : ℕ × ℕ} (hrow : row.1 + row.2 ≤ size) (hpos : 0 < n) (hone : row.2 = 1) :
    ¬ Cancels (flood size n true).toList (flood size n false).toList [row] n := by
  rintro ⟨⟨pk, hpk, hbad⟩, -⟩
  rw [freqPks_flood hpos, mem_singleton] at hpk
  subst hpk
  exact hbad ((keyOk_flood_iff hpos hrow).mpr hone)

end Flood

end PrioPlus

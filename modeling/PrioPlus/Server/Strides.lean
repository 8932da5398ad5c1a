import PrioPlus.Server.IntSum
import PrioPlus.Server.LinReg

/-!
# Sizes and strides around `share_convert`

`var_op` and `linreg_op` allocate, fill, convert and read their arrays with one row length. `int_sum` allocates one
word per input and has 10000 converted for each, so from the first input on the conversion reads beyond the array
(`shareConvert_agrees_iff`).
-/

namespace PrioPlus

open Finset Lib.TwoParty Lib.FirstWins Lib.Memory

/-! ### The calls of `var_op` and `linreg_op` -/

/-- The array of `var_op`, from the two words of each slot. -/
def varCall (msg : InitMsg) (slots : List (UInt64 × UInt64)) : ConvertCall where
  alloc := 2 * slots.length
  written := writeLoop (fun i s mem => writeAt (writeAt mem (2 * i) [some s.1]) (2 * i + 1) [some s.2]) 0 slots
    fun _ => none
  numShares := slots.length
  numValues := 2
  nbits := (varSnip msg).nbits
  stride := 2

/-- The two words of a slot. -/
def varRow (s : UInt64 × UInt64) : List UInt64 := [s.1, s.2]

theorem varCall_written {msg : InitMsg} (slots : List (UInt64 × UInt64)) :
    (varCall msg slots).written = writeSlots (fun i => 2 * i) (fun s => (varRow s).map some) 0 slots fun _ => none :=
  writeLoop_eq_writeSlots 0 _ _ fun i s mem => writeAt_append mem (2 * i) [some s.1] [some s.2]

section LinReg

variable {degree : ℕ}

/-- The four copies of a submission into its block. -/
def linregCopies (i : ℕ) (s : LinRegShare degree) (mem : ℕ → Option UInt64) : ℕ → Option UInt64 :=
  let base := numFields degree * i
  let mem := writeAt mem base (s.xVals.toList.map some)
  let mem := writeAt mem (base + numX degree) [some s.y]
  let mem := writeAt mem (base + numX degree + 1) (s.x2Vals.toList.map some)
  writeAt mem (base + numX degree + numQuad degree + 1) (s.xyVals.toList.map some)

/-- The array of `linreg_op`, from the arrays of each slot. -/
def linregCall (msg : InitMsg) (slots : List (LinRegShare degree)) : ConvertCall where
  alloc := slots.length * numFields degree
  written := writeLoop linregCopies 0 slots fun _ => none
  numShares := slots.length
  numValues := numFields degree
  nbits := linregBits msg degree
  stride := numFields degree

theorem linregCopies_eq (i : ℕ) (s : LinRegShare degree) (mem : ℕ → Option UInt64) :
    linregCopies i s mem = writeAt mem (numFields degree * i) (s.row.map some) := by
  have hx : (s.xVals.toList.map some).length = numX degree := by simp
  have hx2 : (s.x2Vals.toList.map some).length = numQuad degree := by simp
  have hy : numFields degree * i + numX degree =
      numFields degree * i + (s.xVals.toList.map some).length := by rw [hx]
  have hquad : numFields degree * i + numX degree + 1 =
      numFields degree * i + (s.xVals.toList.map some ++ [some s.y]).length := by
    rw [List.length_append, hx, List.length_singleton, Nat.add_assoc]
  have hxy : numFields degree * i + numX degree + numQuad degree + 1 =
      numFields degree * i + (s.xVals.toList.map some ++ [some s.y] ++ s.x2Vals.toList.map some).length := by
    rw [List.length_append, List.length_append, hx, hx2, List.length_singleton]
    omega
  unfold linregCopies
  simp only
  rw [hxy, hquad, hy, writeAt_append, writeAt_append, writeAt_append]
  simp [LinRegShare.row]

theorem linregCall_written {msg : InitMsg} (slots : List (LinRegShare degree)) :
    (linregCall msg slots).written =
      writeSlots (fun i => numFields degree * i) (fun s => s.row.map some) 0 slots fun _ => none :=
  writeLoop_eq_writeSlots 0 _ _ linregCopies_eq

end LinReg

/-! ### What the servers put into the slots -/

section Slots

variable (msg : InitMsg)

/-- The words of `var_op` in the slot of a key; zeros for a key that the server does not know. -/
def varSlot (m : ShareMap VarSubmission) (pk : Pk) : UInt64 × UInt64 :=
  ((m.lookup pk).map fun s => (s.share.val, s.share.valSquared)).getD (0, 0)

variable {degree : ℕ}

/-- The arrays that server 0 of `linreg_op` allocates for a key that it does not know. -/
def freshShare (fresh : ℕ → ℕ → UInt64) (i : ℕ) (pk : Pk) : LinRegShare degree where
  pk := pk
  xVals := Vector.ofFn fun j => fresh i j
  y := 0
  x2Vals := Vector.ofFn fun j => fresh i (numX degree + 1 + j)
  xyVals := Vector.ofFn fun j => fresh i (numX degree + 1 + numQuad degree + j)

/-- The arrays of `linreg_op` in the slot of a key. -/
def linregSlot (fresh : ℕ → ℕ → UInt64) (m : ShareMap (LinRegSubmission degree)) (i : ℕ) (pk : Pk) :
    LinRegShare degree :=
  ((m.lookup pk).map LinRegSubmission.share).getD (freshShare fresh i pk)

end Slots

/-! ### Agreement -/

section Agree

variable (msg : InitMsg)

/-- A slot is valid when the server knows its key. -/
def slotKnown {V : Type} (m : ShareMap V) (pks : List Pk) (i : ℕ) : Prop := ∃ v, (pks[i]?).bind m.lookup = some v

/-- The own values of the input in slot `i`, from the row of its submission. -/
def slotValue {V : Type} (row : V → List UInt64) (m : ShareMap V) (pks : List Pk) (i j : ℕ) : UInt64 :=
  ((((pks[i]?).bind m.lookup).map row).getD []).getD j 0

variable {msg}

theorem varCall_agrees (m : ShareMap VarSubmission) (pks : List Pk) :
    (varCall msg (pks.map (varSlot m))).Agrees (slotKnown m pks)
      (slotValue (fun s => [s.share.val, s.share.valSquared]) m pks) := by
  have hrow : ∀ s ∈ pks.map (varSlot m), (varRow s).length = 2 := fun _ _ => rfl
  refine ConvertCall.agrees_of_rows hrow (varCall_written _) rfl rfl
    (Nat.mul_comm _ _) rfl _ ?_
  · rintro i hi ⟨s, hs⟩ j hj
    rw [List.length_map] at hi
    rw [List.getElem?_eq_getElem hi, Option.bind_some] at hs
    simp [slotValue, varSlot, varRow, List.getElem?_eq_getElem hi, hs]

theorem linregCall_agrees {degree : ℕ} (fresh : ℕ → ℕ → UInt64) (m : ShareMap (LinRegSubmission degree))
    (pks : List Pk) :
    (linregCall msg (pks.mapIdx (linregSlot fresh m))).Agrees (slotKnown m pks)
      (slotValue (fun s => s.share.row) m pks) := by
  have hrow : ∀ s ∈ pks.mapIdx (linregSlot fresh m), s.row.length = numFields degree := fun s _ => s.length_row
  refine ConvertCall.agrees_of_rows hrow (linregCall_written _) rfl rfl
    rfl rfl _ ?_
  · rintro i hi ⟨s, hs⟩ j hj
    rw [List.length_mapIdx] at hi
    rw [List.getElem?_eq_getElem hi, Option.bind_some] at hs
    simp [slotValue, linregSlot, List.getElem?_eq_getElem hi, hs]

/-- `share_convert` reads 10000 words for each input of `int_sum`. -/
theorem intSumCall_agrees_iff (slots : List (Option UInt64)) (valid : ℕ → Prop) (own : ℕ → ℕ → UInt64) :
    (intSumCall msg slots).Agrees valid own ↔ slots = [] := by
  constructor
  · intro h
    by_contra hne
    have hpos : 0 < slots.length := List.length_pos_iff.mpr hne
    have halloc : (intSumCall msg slots).alloc = slots.length := rfl
    have hvalues : (intSumCall msg slots).numValues = 10000 := rfl
    have hlast := h.allocated (slots.length - 1) (Nat.sub_lt hpos Nat.one_pos) 9999 (by rw [hvalues]; decide)
    rw [halloc, hvalues] at hlast
    omega
  · rintro rfl
    exact ⟨fun _ hi => absurd hi (Nat.not_lt_zero _), fun _ hi => absurd hi (Nat.not_lt_zero _),
      fun _ hi => absurd hi (Nat.not_lt_zero _)⟩

end Agree

/-! ### The arrays of the runs -/

section Words

variable {msg : InitMsg}

theorem varCall_words (m : ShareMap VarSubmission) (pks : List Pk) (heap : ℕ → UInt64) :
    (varCall msg (pks.map (varSlot m))).words heap = (varSnip msg).shares m pks := by
  have hrows : (pks.map (varSlot m)).map varRow = ((varSnip msg).slots m pks).map Prod.fst := by
    apply List.ext_getElem
    · simp
    · intro i h h'
      have hi : i < pks.length := by simpa using h
      simp only [SnipOp.slots, List.getElem_map, List.getElem_mapIdx, varSlot]
      cases hlookup : m.lookup pks[i] with
      | none => rfl
      | some s => rfl
  have hrow : ∀ s ∈ pks.map (varSlot m), (varRow s).length = 2 := fun _ _ => rfl
  rw [ConvertCall.words_of_rows hrow (varCall_written _) rfl rfl, SnipOp.shares,
    List.flatMap_def, List.flatMap_def, hrows]

theorem row_freshShare {degree : ℕ} (msg : InitMsg) (fresh : ℕ → ℕ → UInt64) (i : ℕ) (pk : Pk) :
    (freshShare fresh i pk : LinRegShare degree).row = (linregSnip degree msg fresh).mockRow i := by
  apply List.ext_getElem
  · rw [LinRegShare.length_row, (linregSnip degree msg fresh).length_mockRow]
    rfl
  · intro j h h'
    have hj : j < numFields degree := by rwa [LinRegShare.length_row] at h
    have hmock : ((linregSnip degree msg fresh).mockRow i)[j] = if j = numX degree then 0 else fresh i j := by
      simp [linregSnip]
    rw [hmock, ← List.getD_eq_getElem _ 0 h]
    rcases field_cases hj with hx | rfl | ⟨k, hk, rfl⟩ | ⟨k, hk, rfl⟩
    · rw [LinRegShare.getD_row_x _ hx, if_neg (by omega)]
      simp [freshShare, hx]
    · rw [LinRegShare.getD_row_y, if_pos rfl]
      rfl
    · rw [LinRegShare.getD_row_x2 _ hk, if_neg (by omega)]
      simp [freshShare, hk]
    · rw [LinRegShare.getD_row_xy, if_neg (by omega)]
      simp [freshShare, hk]

theorem linregCall_words {degree : ℕ} (fresh : ℕ → ℕ → UInt64) (m : ShareMap (LinRegSubmission degree))
    (pks : List Pk) (heap : ℕ → UInt64) :
    (linregCall msg (pks.mapIdx (linregSlot fresh m))).words heap = (linregSnip degree msg fresh).shares m pks := by
  have hrows : (pks.mapIdx (linregSlot fresh m)).map LinRegShare.row =
      ((linregSnip degree msg fresh).slots m pks).map Prod.fst := by
    apply List.ext_getElem
    · simp
    · intro i h h'
      have hi : i < pks.length := by simpa using h
      simp only [SnipOp.slots, List.getElem_map, List.getElem_mapIdx, linregSlot]
      cases hlookup : m.lookup pks[i] with
      | none => exact row_freshShare msg fresh i _
      | some s => rfl
  have hrow : ∀ s ∈ pks.mapIdx (linregSlot fresh m), s.row.length = numFields degree := fun s _ => s.length_row
  rw [ConvertCall.words_of_rows hrow (linregCall_written _) rfl rfl,
    SnipOp.shares, List.flatMap_def, List.flatMap_def, hrows]

end Words

section Operations

variable {V : Type}

/-- The calls of both servers fit the submissions that they hold under the keys. -/
def BothAgree (call0 call1 : ConvertCall) (row : V → List UInt64) (m0 m1 : ShareMap V) (pks : List Pk) : Prop :=
  call0.Agrees (slotKnown m0 pks) (slotValue row m0 pks) ∧ call1.Agrees (slotKnown m1 pks) (slotValue row m1 pks)

/-- The calls of `int_sum`, where its assertion lets it get that far. -/
def IntSumAgrees (msg : InitMsg) (it : Iteration UInt64) (s0 s1 : Vector IntShare msg.numOfInputs.toNat) : Prop :=
  let m0 := intShareMap msg s0.toList
  let m1 := intShareMap msg s1.toList
  msg.numBits.toNat = 63 → BothAgree (intSumCall0 it msg m0 m1) (intSumCall1 it msg m1) (fun w => [w]) m0 m1
    ((it.order m1).map Sigma.fst)

theorem intSum_order_eq_nil_iff (msg : InitMsg) (it : Iteration UInt64) (submissions : List IntShare) :
    it.order (intShareMap msg submissions) = [] ↔ ∀ s ∈ submissions, maxVal msg.numBits ≤ s.val := by
  have hmem (pk : Pk) : pk ∈ (it.order (intShareMap msg submissions)).map Sigma.fst ↔
      ∃ s ∈ submissions, s.pk = pk ∧ s.val < maxVal msg.numBits := by
    rw [mem_keys_iteration (it.perm _), intShareMap, mem_collect]
    simp [IntShare.entry]
  constructor
  · intro hnil s hs
    by_contra hlt
    have hin := (hmem s.pk).mpr ⟨s, hs, rfl, UInt64.not_le.mp hlt⟩
    rw [hnil] at hin
    exact List.not_mem_nil hin
  · intro hall
    have hnone (pk : Pk) : pk ∉ (it.order (intShareMap msg submissions)).map Sigma.fst := by
      intro hpk
      obtain ⟨s, hs, -, hlt⟩ := (hmem pk).mp hpk
      exact absurd hlt (UInt64.not_lt.mpr (hall s hs))
    exact List.map_eq_nil_iff.mp (List.eq_nil_iff_forall_not_mem.mpr hnone)

theorem intSumAgrees_iff (msg : InitMsg) (it : Iteration UInt64) (s0 s1 : Vector IntShare msg.numOfInputs.toNat) :
    IntSumAgrees msg it s0 s1 ↔ (msg.numBits.toNat = 63 → ∀ s ∈ s1.toList, maxVal msg.numBits ≤ s.val) := by
  refine imp_congr_right fun _ => ?_
  rw [BothAgree, intSumCall0, intSumCall1, intSumCall_agrees_iff, intSumCall_agrees_iff, List.map_eq_nil_iff,
    List.map_eq_nil_iff, List.map_eq_nil_iff, and_self, intSum_order_eq_nil_iff]

end Operations

/-- Sizes and strides fit in `var_op` and `linreg_op`, and in `int_sum` exactly when no submission survives on
server 1. -/
theorem shareConvert_agrees_iff (msg : InitMsg) :
    (∀ (it : Iteration UInt64) (s0 s1 : Vector IntShare msg.numOfInputs.toNat),
      IntSumAgrees msg it s0 s1 ↔ (msg.numBits.toNat = 63 → ∀ s ∈ s1.toList, maxVal msg.numBits ≤ s.val)) ∧
    (∀ (it : Iteration VarSubmission) (s0 s1 : Vector VarSubmission msg.numOfInputs.toNat),
      let m0 := (varSnip msg).shareMap s0.toList
      let m1 := (varSnip msg).shareMap s1.toList
      let pks := (it.order m1).map Sigma.fst
      BothAgree (varCall msg (pks.map (varSlot m0))) (varCall msg (pks.map (varSlot m1)))
        (fun s => [s.share.val, s.share.valSquared]) m0 m1 pks) ∧
    (∀ (degree : ℕ) (fresh : ℕ → ℕ → UInt64) (it : Iteration (LinRegSubmission degree))
        (s0 s1 : Vector (LinRegSubmission degree) msg.numOfInputs.toNat),
      let m0 := (linregSnip degree msg fresh).shareMap s0.toList
      let m1 := (linregSnip degree msg fresh).shareMap s1.toList
      let pks := (it.order m1).map Sigma.fst
      BothAgree (linregCall msg (pks.mapIdx (linregSlot fresh m0))) (linregCall msg (pks.mapIdx (linregSlot fresh m1)))
        (fun s => s.share.row) m0 m1 pks) := by
  refine ⟨?_, ?_, ?_⟩
  · intro it s0 s1
    exact intSumAgrees_iff msg it s0 s1
  · intro it s0 s1 m0 m1 pks
    exact ⟨varCall_agrees m0 pks, varCall_agrees m1 pks⟩
  · intro degree fresh it s0 s1 m0 m1 pks
    exact ⟨linregCall_agrees fresh m0 pks, linregCall_agrees fresh m1 pks⟩

/-- One submission of the word 1, with 63 bits. -/
def oneWordMsg : InitMsg := { numBits := 63, numOfInputs := 1, maxInp := 0 }

def oneWordBatch : Vector IntShare oneWordMsg.numOfInputs.toNat :=
  Vector.replicate _ { pk := Vector.replicate 32 0, val := 1 }

/-- With one input, `int_sum` has 9999 words converted that it never allocated. -/
theorem not_intSumAgrees_oneWord : ¬ IntSumAgrees oneWordMsg default oneWordBatch oneWordBatch := by
  rw [intSumAgrees_iff]
  intro h
  have hmem : (⟨Vector.replicate 32 0, 1⟩ : IntShare) ∈ oneWordBatch.toList := by
    rw [oneWordBatch, Vector.toList_replicate]
    exact List.mem_replicate.mpr ⟨by decide, rfl⟩
  exact absurd (h rfl _ hmem) (by decide)

end PrioPlus

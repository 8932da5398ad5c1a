import Mathlib.Data.FinEnum
import PrioPlus.Lib.Views
import PrioPlus.Ot.IntSum

/-!
# What the receiver of `intsum_ot` sees

The words that `intsum_ot_receiver` gets depend on the shares of the sender and on the masks that it draws, one for each
bit of a valid share. The shares are hidden when every vector of received words comes from equally many assignments of
masks. This is so at `mod = 0` (`hidesShares_zero`), where adding a constant permutes the words. At `Int_Modulus` it is
so exactly where server 1 does not ask for the offset entry or both runs offset by the same power
(`hidesShares_iff`): the reduced words are not uniform, and the sum with the negated power can pass `2 ^ 64`.
-/

namespace PrioPlus

open Finset Lib.FlatLoop Lib.Views

/-! ### The masks and the view -/

section View

variable (mod : UInt64) (valid : ℕ → Bool) (numBits : ℕ → ℕ) (numShares numValues : ℕ)

/-- The array positions that a mask is drawn for, the bits of the valid shares. -/
abbrev MaskPos : Type :=
  {pos : Fin (numShares * offset numBits numValues) // valid ((pos : ℕ) / offset numBits numValues) = true}

/-- An array with the given words at these positions and zeros elsewhere. -/
def maskArray (words : MaskPos valid numBits numShares numValues → UInt64) (pos : ℕ) : UInt64 :=
  if h : pos < numShares * offset numBits numValues ∧ valid (pos / offset numBits numValues) = true then
    words ⟨⟨pos, h.1⟩, h.2⟩
  else 0

/-- The words that `intsum_ot_receiver` gets from the transfer. -/
def intsumView (shares0 shares1 : ℕ → ℕ → UInt64) (prg : ℕ → UInt64) : List UInt64 :=
  List.zipWith otChoose (intsumOtSender mod prg shares0 valid numBits numShares numValues).1
    (intsumChoices shares1 numBits numShares numValues)

/-- The number of assignments of words to the masks under which these words are received. -/
def intsumViewCount (shares0 shares1 : ℕ → ℕ → UInt64) (received : List UInt64) : ℕ :=
  (univ.filter fun words => intsumView mod valid numBits numShares numValues shares0 shares1
    (maskArray valid numBits numShares numValues words) = received).card

/-- Two runs that differ in the shares of the sender only look the same to the receiver. -/
def HidesShares (shares1 shares0 shares0' : ℕ → ℕ → UInt64) : Prop :=
  ∀ received, intsumViewCount mod valid numBits numShares numValues shares0 shares1 received =
    intsumViewCount mod valid numBits numShares numValues shares0' shares1 received

end View

/-! ### One position -/

/-- The received word for one bit of a valid share. -/
def intsumSlot (mod share : UInt64) (choice : Bool) (k : ℕ) (word : UInt64) : UInt64 :=
  otChoose (intsumPair mod word share k) choice

section Positions

variable {mod : UInt64} {valid : ℕ → Bool} {numBits : ℕ → ℕ} {numShares numValues : ℕ}
  {shares0 shares0' shares1 : ℕ → ℕ → UInt64}

theorem bitIdx_lt {i j k : ℕ} (hi : i < numShares) (hj : j < numValues) (hk : k < numBits j) :
    bitIdx numValues numBits i j k < numShares * offset numBits numValues := by
  have hrow := offset_mono numBits (Nat.succ_le_of_lt hj)
  rw [offset_succ] at hrow
  have hblock := Nat.mul_le_mul_right (offset numBits numValues) (Nat.succ_le_of_lt hi)
  rw [Nat.succ_mul] at hblock
  rw [bitIdx]
  omega

theorem bitIdx_div {i j k : ℕ} (hj : j < numValues) (hk : k < numBits j) :
    bitIdx numValues numBits i j k / offset numBits numValues = i := by
  have hrow := offset_mono numBits (Nat.succ_le_of_lt hj)
  rw [offset_succ] at hrow
  rw [bitIdx, Nat.add_assoc, Nat.mul_comm, Nat.mul_add_div (by omega), Nat.div_eq_of_lt (by omega), Nat.add_zero]

theorem exists_bitIdx {pos : ℕ} (hpos : pos < numShares * offset numBits numValues) :
    ∃ i < numShares, ∃ j < numValues, ∃ k < numBits j, pos = bitIdx numValues numBits i j k := by
  have htotal : 0 < offset numBits numValues := by
    by_contra hzero
    rw [Nat.eq_zero_of_not_pos hzero, Nat.mul_zero] at hpos
    exact absurd hpos (Nat.not_lt_zero pos)
  obtain ⟨j, hj, k, hk, hrest⟩ := exists_offset (Nat.mod_lt pos htotal)
  refine ⟨pos / offset numBits numValues, (Nat.div_lt_iff_lt_mul htotal).mpr hpos, j, hj, k, hk, ?_⟩
  rw [bitIdx, Nat.add_assoc, ← hrest, Nat.div_add_mod']

variable (mod valid shares0 shares1) in
theorem getD_intsumView (prg : ℕ → UInt64) {i j k : ℕ} (hi : i < numShares) (hj : j < numValues) (hk : k < numBits j) :
    (intsumView mod valid numBits numShares numValues shares0 shares1 prg).getD (bitIdx numValues numBits i j k) 0 =
      if valid i then intsumSlot mod (boolShare (shares0 i j) k) (boolShare (shares1 i j) k = 1) k
        (prg (bitIdx numValues numBits i j k))
      else 0 := by
  rw [intsumView, intsumOtSender, intsumChoices, getD_zipWith_flatBits _ _ hi hj hk]
  split_ifs
  · rfl
  · exact ite_self 0

theorem length_intsumView (prg : ℕ → UInt64) :
    (intsumView mod valid numBits numShares numValues shares0 shares1 prg).length =
      numShares * offset numBits numValues := by
  rw [intsumView, intsumOtSender, intsumChoices, List.length_zipWith, length_flatBits, length_flatBits, Nat.min_self]

end Positions

/-! ### The view by positions -/

section Slots

variable (mod : UInt64) (valid : ℕ → Bool) (numBits : ℕ → ℕ) (numShares numValues : ℕ)
  (shares0 shares0' shares1 : ℕ → ℕ → UInt64)

/-- What is received at one position, as a function of the mask drawn for it. -/
def slotAt (pos : MaskPos valid numBits numShares numValues) (word : UInt64) : UInt64 :=
  (intsumView mod valid numBits numShares numValues shares0 shares1 fun _ => word).getD pos.1 0

/-- The lists of words that can be received: zeros at the bits of the invalid shares. -/
structure IsView (received : List UInt64) : Prop where
  length_eq : received.length = numShares * offset numBits numValues
  invalid : ∀ pos < numShares * offset numBits numValues, valid (pos / offset numBits numValues) = false →
    received.getD pos 0 = 0

variable {mod valid numBits numShares numValues shares0 shares0' shares1}

theorem maskArray_mask (words : MaskPos valid numBits numShares numValues → UInt64)
    (pos : MaskPos valid numBits numShares numValues) :
    maskArray valid numBits numShares numValues words pos.1 = words pos :=
  dif_pos ⟨pos.1.2, pos.2⟩

theorem slotAt_eq {i j k : ℕ} (pos : MaskPos valid numBits numShares numValues) (hi : i < numShares)
    (hj : j < numValues) (hk : k < numBits j) (hpos : (pos.1 : ℕ) = bitIdx numValues numBits i j k) :
    slotAt mod valid numBits numShares numValues shares0 shares1 pos =
      intsumSlot mod (boolShare (shares0 i j) k) (boolShare (shares1 i j) k = 1) k := by
  have hvalid : valid i = true := by
    have hvalid := pos.2
    rwa [hpos, bitIdx_div hj hk] at hvalid
  funext word
  rw [slotAt, hpos, getD_intsumView _ _ _ _ _ hi hj hk, if_pos hvalid]

theorem getD_intsumView_mask (prg : ℕ → UInt64) (pos : MaskPos valid numBits numShares numValues) :
    (intsumView mod valid numBits numShares numValues shares0 shares1 prg).getD pos.1 0 =
      slotAt mod valid numBits numShares numValues shares0 shares1 pos (prg pos.1) := by
  obtain ⟨i, hi, j, hj, k, hk, hpos⟩ := exists_bitIdx pos.1.2
  rw [slotAt, hpos, getD_intsumView _ _ _ _ _ hi hj hk, getD_intsumView _ _ _ _ _ hi hj hk]

variable (mod valid numBits numShares numValues shares0 shares1) in
theorem isView_intsumView (prg : ℕ → UInt64) :
    IsView valid numBits numShares numValues
      (intsumView mod valid numBits numShares numValues shares0 shares1 prg) where
  length_eq := length_intsumView prg
  invalid pos hlt hinvalid := by
    obtain ⟨i, hi, j, hj, k, hk, rfl⟩ := exists_bitIdx hlt
    rw [bitIdx_div hj hk] at hinvalid
    rw [getD_intsumView _ _ _ _ _ hi hj hk, if_neg (by rw [hinvalid]; exact Bool.false_ne_true)]

theorem intsumView_eq_iff {received : List UInt64} (hview : IsView valid numBits numShares numValues received)
    (words : MaskPos valid numBits numShares numValues → UInt64) :
    intsumView mod valid numBits numShares numValues shares0 shares1
        (maskArray valid numBits numShares numValues words) = received ↔
      ∀ pos, slotAt mod valid numBits numShares numValues shares0 shares1 pos (words pos) = received.getD pos.1 0 := by
  constructor
  · rintro rfl pos
    rw [getD_intsumView_mask, maskArray_mask]
  · intro h
    have hsent := isView_intsumView mod valid numBits numShares numValues shares0 shares1
      (maskArray valid numBits numShares numValues words)
    apply List.ext_getElem (hsent.length_eq.trans hview.length_eq.symm)
    intro pos hpos hpos'
    rw [← List.getD_eq_getElem _ 0 hpos, ← List.getD_eq_getElem _ 0 hpos']
    have hlt : pos < numShares * offset numBits numValues := hview.length_eq ▸ hpos'
    cases hvalid : valid (pos / offset numBits numValues) with
    | false => rw [hsent.invalid pos hlt hvalid, hview.invalid pos hlt hvalid]
    | true =>
      have hslot := h ⟨⟨pos, hlt⟩, hvalid⟩
      rw [← hslot, ← maskArray_mask words]
      exact getD_intsumView_mask _ ⟨⟨pos, hlt⟩, hvalid⟩

theorem intsumViewCount_eq {received : List UInt64} (hview : IsView valid numBits numShares numValues received) :
    intsumViewCount mod valid numBits numShares numValues shares0 shares1 received =
      viewHits (slotAt mod valid numBits numShares numValues shares0 shares1) fun pos => received.getD pos.1 0 := by
  rw [intsumViewCount, viewHits]
  congr 1
  ext words
  rw [mem_filter, mem_filter, intsumView_eq_iff hview]

theorem intsumViewCount_eq_zero {received : List UInt64} (hview : ¬ IsView valid numBits numShares numValues received) :
    intsumViewCount mod valid numBits numShares numValues shares0 shares1 received = 0 := by
  rw [intsumViewCount, card_eq_zero, filter_eq_empty_iff]
  rintro words - rfl
  exact hview (isView_intsumView mod valid numBits numShares numValues shares0 shares1 _)

theorem hidesShares_iff_views :
    HidesShares mod valid numBits numShares numValues shares1 shares0 shares0' ↔
      ∀ v, viewHits (slotAt mod valid numBits numShares numValues shares0 shares1) v =
        viewHits (slotAt mod valid numBits numShares numValues shares0' shares1) v := by
  constructor
  · intro h v
    let received := (List.range (numShares * offset numBits numValues)).map
      (maskArray valid numBits numShares numValues v)
    have hget : ∀ pos < numShares * offset numBits numValues,
        received.getD pos 0 = maskArray valid numBits numShares numValues v pos := by
      intro pos hpos
      rw [getD_map_range, if_pos hpos]
    have hview : IsView valid numBits numShares numValues received := by
      refine ⟨by simp [received], fun pos hpos hinvalid => ?_⟩
      rw [hget pos hpos, maskArray, dif_neg]
      rintro ⟨-, hvalid⟩
      exact Bool.false_ne_true (hinvalid.symm.trans hvalid)
    have hv : (fun pos : MaskPos valid numBits numShares numValues => received.getD pos.1 0) = v := by
      funext pos
      rw [hget _ pos.1.2, maskArray_mask]
    have hcount := h received
    rwa [intsumViewCount_eq hview, intsumViewCount_eq hview, hv] at hcount
  · intro h received
    by_cases hview : IsView valid numBits numShares numValues received
    · rw [intsumViewCount_eq hview, intsumViewCount_eq hview, h]
    · rw [intsumViewCount_eq_zero hview, intsumViewCount_eq_zero hview]

theorem hidesShares_iff_slots :
    HidesShares mod valid numBits numShares numValues shares1 shares0 shares0' ↔
      ∀ i < numShares, valid i = true → ∀ j < numValues, ∀ k < numBits j, ∀ o,
        hits (intsumSlot mod (boolShare (shares0 i j) k) (boolShare (shares1 i j) k = 1) k) o =
          hits (intsumSlot mod (boolShare (shares0' i j) k) (boolShare (shares1 i j) k = 1) k) o := by
  rw [hidesShares_iff_views, viewHits_eq_iff]
  constructor
  · intro h i hi hvalid j hj k hk o
    let pos : MaskPos valid numBits numShares numValues :=
      ⟨⟨bitIdx numValues numBits i j k, bitIdx_lt hi hj hk⟩, by rwa [bitIdx_div hj hk]⟩
    have hpos := h pos o
    rwa [slotAt_eq pos hi hj hk rfl, slotAt_eq pos hi hj hk rfl] at hpos
  · intro h pos o
    obtain ⟨i, hi, j, hj, k, hk, hpos⟩ := exists_bitIdx pos.1.2
    have hvalid := pos.2
    rw [hpos, bitIdx_div hj hk] at hvalid
    rw [slotAt_eq pos hi hj hk hpos, slotAt_eq pos hi hj hk hpos]
    exact h i hi hvalid j hj k hk o

/-! ### `mod = 0` -/

theorem bijective_intsumSlot_zero (share : UInt64) (choice : Bool) (k : ℕ) :
    Function.Bijective (intsumSlot 0 share choice k) := by
  cases choice with
  | false => exact Function.bijective_id
  | true =>
    let offset := if share = 0 then powTwo k else otMax 0 - powTwo k + 1
    refine Function.bijective_iff_has_inverse.mpr ⟨(· - offset), fun word => ?_, fun word => ?_⟩
    · exact UInt64.add_sub_cancel word offset
    · exact UInt64.sub_add_cancel word offset

/-- Without a modulus every word is received for one mask, whatever the share is. -/
theorem hidesShares_zero : HidesShares 0 valid numBits numShares numValues shares1 shares0 shares0' := by
  rw [hidesShares_iff_slots]
  intro i _ _ j _ k _ o
  rw [hits_eq_one (bijective_intsumSlot_zero _ _ k), hits_eq_one (bijective_intsumSlot_zero _ _ k)]

end Slots

/-! ### `mod = Int_Modulus` -/

section Modulus

/-- The residues below this one come from two words each, the others from one. -/
def doubledResidues : ℕ := 2 ^ 64 - intModulus

theorem mask_ofNat {m : ℕ} (hm : m < intModulus) : mask (UInt64.ofNat m) = m := by
  have hp := two_pow_lt_intModulus
  rw [mask, UInt64.toNat_ofNat_of_lt' (by show m < 2 ^ 64; omega), Nat.mod_eq_of_lt hm]

theorem mask_ofNat_add {m : ℕ} (hm : m < doubledResidues) : mask (UInt64.ofNat (m + intModulus)) = m := by
  have hlt : m + intModulus < 2 ^ 64 := Nat.add_lt_of_lt_sub hm
  have hp := two_pow_lt_intModulus
  rw [mask, UInt64.toNat_ofNat_of_lt' hlt, Nat.add_mod_right, Nat.mod_eq_of_lt (by omega)]

variable {k : ℕ} (hk : k < 64) (word : UInt64)
include hk

theorem toNat_intsumSlot_zero :
    (intsumSlot modWord 0 true k word).toNat = (mask word + 2 ^ k) % 2 ^ 64 % intModulus := by
  rw [intsumSlot, otChoose, if_pos rfl, intsumPair, if_pos rfl, toNat_reduceMod, UInt64.toNat_add, toNat_reduceMod,
    toNat_powTwo hk, mask]

theorem toNat_intsumSlot_one :
    (intsumSlot modWord 1 true k word).toNat = (mask word + (intModulus - 2 ^ k)) % 2 ^ 64 % intModulus := by
  rw [intsumSlot, otChoose, if_pos rfl, intsumPair, if_neg (by decide), toNat_reduceMod, UInt64.toNat_add,
    toNat_reduceMod, toNat_minusPow hk, mask]

omit hk

theorem toNat_ofNat_residue {m : ℕ} (hm : m < intModulus) : (UInt64.ofNat m).toNat = m := by
  have hp := two_pow_lt_intModulus
  exact UInt64.toNat_ofNat_of_lt' (by show m < 2 ^ 64; omega)

/-- Up to bit `20` the offset by the negated power passes `2 ^ 64` before it comes to `doubledResidues`. -/
theorem hits_offset_low (hk : k ≤ 20) :
    hits (intsumSlot modWord 1 true k) (UInt64.ofNat doubledResidues) <
      hits (intsumSlot modWord 0 true k) (UInt64.ofNat doubledResidues) := by
  have hpow : 2 ^ k ≤ 2 ^ 20 := Nat.pow_le_pow_right two_pos hk
  have hpos := Nat.two_pow_pos k
  have hres : (UInt64.ofNat doubledResidues).toNat = doubledResidues := toNat_ofNat_residue (by decide)
  refine hits_lt_hits (fun word hword => ?_) ⟨UInt64.ofNat (doubledResidues - 2 ^ k), ?_⟩
  · have hmask := mask_lt word
    rw [← UInt64.toNat_inj, toNat_intsumSlot_one (by omega), hres] at hword
    simp only [doubledResidues, intModulus] at *
    omega
  · have hlt : doubledResidues - 2 ^ k < intModulus := (Nat.sub_le _ _).trans_lt (by decide)
    rw [← UInt64.toNat_inj, toNat_intsumSlot_zero (by omega), mask_ofNat hlt, hres]
    simp only [doubledResidues, intModulus]
    omega

/-- From bit `21` on no word is missed, but the residues that come from two words are shifted in opposite directions. -/
theorem hits_offset_middle (hlow : 20 < k) (hhigh : k < 63) :
    hits (intsumSlot modWord 0 true k) (UInt64.ofNat (2 ^ k - (2 ^ 20 + 2))) <
      hits (intsumSlot modWord 1 true k) (UInt64.ofNat (2 ^ k - (2 ^ 20 + 2))) := by
  have hpow : 2 ^ k ≤ 2 ^ 62 := Nat.pow_le_pow_right two_pos (by omega)
  have hge : 2 ^ 21 ≤ 2 ^ k := Nat.pow_le_pow_right two_pos (by omega)
  have hp : intModulus = 2 ^ 63 + 2 ^ 19 + 1 := rfl
  have hres : (UInt64.ofNat (2 ^ k - (2 ^ 20 + 2))).toNat = 2 ^ k - (2 ^ 20 + 2) := toNat_ofNat_residue (by omega)
  have hone : ∀ word, mask word = 2 * 2 ^ k - (2 ^ 20 + 2) →
      intsumSlot modWord 1 true k word = UInt64.ofNat (2 ^ k - (2 ^ 20 + 2)) := by
    intro word hmask
    rw [← UInt64.toNat_inj, toNat_intsumSlot_one (by omega), hres, hmask]
    simp only [intModulus]
    omega
  have hzero : ∀ word, intsumSlot modWord 0 true k word = UInt64.ofNat (2 ^ k - (2 ^ 20 + 2)) →
      word.toNat = doubledResidues := by
    intro word hword
    have hlt := word.toNat_lt
    have hmask := mask_lt word
    rw [← UInt64.toNat_inj, toNat_intsumSlot_zero (by omega), hres,
      Nat.mod_eq_of_lt (show mask word + 2 ^ k < 2 ^ 64 by omega)] at hword
    -- the sum is not reduced to itself, which would be at least `2 ^ k`
    have hwrap : mask word + 2 ^ k - intModulus = 2 ^ k - (2 ^ 20 + 2) := by
      rcases Nat.lt_or_ge (mask word + 2 ^ k) intModulus with hsmall | hbig
      · rw [Nat.mod_eq_of_lt hsmall] at hword
        omega
      · rwa [Nat.mod_eq_sub_mod hbig, Nat.mod_eq_of_lt (by omega)] at hword
    have hfirst : mask word = doubledResidues := by
      simp only [doubledResidues, intModulus] at hp hmask hwrap ⊢
      omega
    simp only [mask, doubledResidues, intModulus] at hfirst ⊢
    omega
  have hdoubled : 2 * 2 ^ k - (2 ^ 20 + 2) < doubledResidues := by
    simp only [doubledResidues, intModulus]
    omega
  have hle : hits (intsumSlot modWord 0 true k) (UInt64.ofNat (2 ^ k - (2 ^ 20 + 2))) ≤ 1 :=
    hits_le_one fun w w' hw hw' => UInt64.toNat_inj.mp ((hzero w hw).trans (hzero w' hw').symm)
  refine hle.trans_lt (one_lt_hits ?_ (hone _ (mask_ofNat ?_)) (hone _ (mask_ofNat_add hdoubled)))
  · intro heq
    have htoNat := congrArg UInt64.toNat heq
    rw [toNat_ofNat_residue (by omega), UInt64.toNat_ofNat_of_lt' (Nat.add_lt_of_lt_sub hdoubled)] at htoNat
    omega
  · omega

/-- At the last bit the offset by the power itself passes `2 ^ 64`. -/
theorem hits_offset_high :
    hits (intsumSlot modWord 0 true 63) (UInt64.ofNat doubledResidues) <
      hits (intsumSlot modWord 1 true 63) (UInt64.ofNat doubledResidues) := by
  have hres : (UInt64.ofNat doubledResidues).toNat = doubledResidues := toNat_ofNat_residue (by decide)
  refine hits_lt_hits (fun word hword => ?_) ⟨UInt64.ofNat (2 ^ 63 - 2 ^ 20 - 2), ?_⟩
  · have hmask := mask_lt word
    rw [← UInt64.toNat_inj, toNat_intsumSlot_zero (by omega), hres] at hword
    simp only [doubledResidues, intModulus] at *
    omega
  · rw [← UInt64.toNat_inj, toNat_intsumSlot_one (by omega), mask_ofNat (by decide), hres]
    decide

theorem exists_hits_offset_ne (hk : k < 64) :
    ∃ o, hits (intsumSlot modWord 0 true k) o ≠ hits (intsumSlot modWord 1 true k) o := by
  rcases Nat.lt_or_ge 20 k with hlow | hlow
  · rcases Nat.lt_or_ge k 63 with hhigh | hhigh
    · exact ⟨_, (hits_offset_middle hlow hhigh).ne⟩
    · obtain rfl : k = 63 := by omega
      exact ⟨_, hits_offset_high.ne⟩
  · exact ⟨_, (hits_offset_low hlow).ne'⟩

end Modulus

theorem boolShare_zero_or_one (num : UInt64) (k : ℕ) : boolShare num k = 0 ∨ boolShare num k = 1 := by
  rw [← UInt64.toNat_inj, ← UInt64.toNat_inj, toNat_boolShare]
  cases num.toNat.testBit k
  · exact Or.inl rfl
  · exact Or.inr rfl

theorem lt_of_boolShare_eq_one {num : UInt64} {k : ℕ} (h : boolShare num k = 1) : k < 64 := by
  by_contra hk
  have hlt : num.toNat < 2 ^ k := num.toNat_lt.trans_le (Nat.pow_le_pow_right two_pos (not_lt.mp hk))
  rw [boolShare_eq_one_iff, Nat.testBit_lt_two_pow hlt] at h
  exact Bool.false_ne_true h

/-- One received word tells two shares apart when it is the offset entry and the bits differ. -/
theorem hits_intsumSlot_iff (x0 x0' x1 : UInt64) (k : ℕ) :
    (∀ o, hits (intsumSlot modWord (boolShare x0 k) (boolShare x1 k = 1) k) o =
      hits (intsumSlot modWord (boolShare x0' k) (boolShare x1 k = 1) k) o) ↔
      (boolShare x1 k = 1 → boolShare x0 k = boolShare x0' k) := by
  by_cases hchoice : boolShare x1 k = 1
  · have hk := lt_of_boolShare_eq_one hchoice
    simp only [hchoice, decide_true, forall_const]
    constructor
    · intro h
      obtain ⟨o, hne⟩ := exists_hits_offset_ne hk
      rcases boolShare_zero_or_one x0 k with h0 | h0 <;> rcases boolShare_zero_or_one x0' k with h0' | h0'
      · rw [h0, h0']
      · rw [h0, h0'] at h
        exact absurd (h o) hne
      · rw [h0, h0'] at h
        exact absurd (h o).symm hne
      · rw [h0, h0']
    · intro heq o
      rw [heq]
  · simp only [hchoice, decide_false, false_implies, iff_true]
    intro o
    rfl

section Runs

variable {valid : ℕ → Bool} {numBits : ℕ → ℕ} {numShares numValues : ℕ} {shares0 shares0' shares1 : ℕ → ℕ → UInt64}

/-- The shares are hidden exactly when every bit of a valid share that server 1 has set is the same in both runs. -/
theorem hidesShares_iff :
    HidesShares modWord valid numBits numShares numValues shares1 shares0 shares0' ↔
      ∀ i < numShares, valid i = true → ∀ j < numValues, ∀ k < numBits j, boolShare (shares1 i j) k = 1 →
        boolShare (shares0 i j) k = boolShare (shares0' i j) k := by
  rw [hidesShares_iff_slots]
  exact forall₂_congr fun i _ => forall_congr' fun _ => forall₂_congr fun j _ => forall₂_congr fun k _ =>
    hits_intsumSlot_iff (shares0 i j) (shares0' i j) (shares1 i j) k

end Runs

/-- One bit, which server 1 has set: only a bit of zero on server 0 can show as the first residue that comes from one
word. -/
theorem not_hidesShares_oneBit :
    ¬ HidesShares modWord (fun _ => true) (fun _ => 1) 1 1 (fun _ _ => 1) (fun _ _ => 0) (fun _ _ => 1) := by
  intro h
  have hslot := hidesShares_iff_slots.mp h 0 one_pos rfl 0 one_pos 0 one_pos (UInt64.ofNat doubledResidues)
  have hone : boolShare 1 0 = 1 := by decide
  have hzero : boolShare 0 0 = 0 := by decide
  simp only [hone, hzero, decide_true] at hslot
  exact (hits_offset_low (Nat.zero_le 20)).ne' hslot

end PrioPlus

import Mathlib.Algebra.BigOperators.Ring.Finset
import Mathlib.Data.Nat.Factorization.Basic
import Mathlib.Data.ZMod.Basic
import Mathlib.Tactic.IntervalCases
import Mathlib.Tactic.Ring

/-!
# Multiply-shift hashing

The leading digit of `a * x` modulo `M * W`, for a random `a`, is a hash of `x` with `W` values; a second random
number is added to it. The pair of the hashes of `x` and `y` is uniform exactly when `difference x y a` is. When `x`
and `y` are the same multiple of numbers whose difference is a unit, a shift of `a` moves the difference by a unit, so
all its values are equally likely (`card_difference_of_unit`). The inputs `1` and `3`, or `1` and `5`, show that
without this the difference is not uniform (`card_difference_one_three_lt`, `difference_one_five_ne`).
-/

namespace PrioPlus.Lib.MultiplyShift

open Finset

/-! ### Equal fibres -/

section Fibres

variable {A : Type*} [AddCommGroup A] [Fintype A] {W : ℕ} [NeZero W] (f : A → ZMod W) {s : A} {δ : ZMod W}

omit [NeZero W] in
theorem card_fibre_add (hshift : ∀ a, f (a + s) = f a + δ) (n : ℕ) (v : ZMod W) :
    #{a | f a = v + n * δ} = #{a | f a = v} := by
  induction n with
  | zero => simp
  | succ n ih =>
    rw [← ih]
    refine (card_nbij (· + s) (fun a ha => ?_) (fun a _ b _ h => add_right_cancel h) (fun a ha => ?_)).symm
    · simp only [coe_filter_univ, Set.mem_ofPred_eq] at ha ⊢
      rw [hshift, ha]
      push_cast
      ring
    · refine ⟨a - s, ?_, sub_add_cancel a s⟩
      have hstep := hshift (a - s)
      simp only [coe_filter_univ, Set.mem_ofPred_eq] at ha ⊢
      rw [sub_add_cancel, ha] at hstep
      apply add_right_cancel (b := δ)
      rw [← hstep]
      push_cast
      ring

/-- When a shift of the argument moves the value by a unit, all values are taken equally often. -/
theorem card_fibre_of_shift (hshift : ∀ a, f (a + s) = f a + δ) (hδ : IsUnit δ) (v : ZMod W) :
    W * #{a | f a = v} = Fintype.card A := by
  have hequal : ∀ u, #{a | f a = u} = #{a | f a = v} := by
    intro u
    obtain ⟨n, hn⟩ : ∃ n : ℕ, u = v + n * δ := by
      refine ⟨((u - v) * ↑hδ.unit⁻¹).val, ?_⟩
      rw [ZMod.natCast_zmod_val, mul_assoc, hδ.val_inv_mul, mul_one, add_sub_cancel]
    rw [hn, card_fibre_add f hshift]
  have hsum : ∑ u : ZMod W, #{a | f a = u} = Fintype.card A := by
    rw [← card_univ, card_eq_sum_card_fiberwise (f := f) (t := univ) fun a _ => mem_univ _]
  rw [← hsum, sum_congr rfl fun u _ => hequal u, sum_const, card_univ, ZMod.card, smul_eq_mul]

end Fibres

/-! ### Leading digits -/

section Digits

variable (M W : ℕ)

/-- The leading digit of a number below `M * W`. -/
def top (a : ZMod (M * W)) : ZMod W := (a.val / M : ℕ)

theorem top_natCast (n : ℕ) : top M W (n : ZMod (M * W)) = ((n / M : ℕ) : ZMod W) := by
  rw [top, ZMod.val_natCast, Nat.mod_mul_right_div_self, ZMod.natCast_mod]

/-- The difference of the hashes of `x` and `y`. -/
def difference (x y : ℕ) (a : ZMod (M * W)) : ZMod W := top M W (a * x) - top M W (a * y)

theorem difference_natCast (x y n : ℕ) :
    difference M W x y (n : ZMod (M * W)) = ((n * x / M : ℕ) : ZMod W) - ((n * y / M : ℕ) : ZMod W) := by
  rw [difference, ← Nat.cast_mul, ← Nat.cast_mul, top_natCast, top_natCast]

variable {M W} [NeZero M] [NeZero W]

theorem top_add (a : ZMod (M * W)) (t : ℕ) : top M W (a + (M * t : ℕ)) = top M W a + t := by
  have ha : a = (a.val : ZMod (M * W)) := (ZMod.natCast_zmod_val a).symm
  rw [ha, ← Nat.cast_add, top_natCast, top_natCast, Nat.add_mul_div_left _ _ (NeZero.pos M), Nat.cast_add]

theorem difference_add {x y x' y' s : ℕ} (hx : s * x = M * x') (hy : s * y = M * y') (a : ZMod (M * W)) :
    difference M W x y (a + s) = difference M W x y a + (x' - y' : ZMod W) := by
  have hmove : ∀ z z' : ℕ, s * z = M * z' → top M W ((a + s) * z) = top M W (a * z) + z' := by
    intro z z' hz
    rw [add_mul, ← Nat.cast_mul s, hz, top_add]
  rw [difference, difference, hmove x x' hx, hmove y y' hy]
  ring

/-- The difference is uniform when `x` and `y` are the same multiple of numbers whose difference is a unit. -/
theorem card_difference_of_unit {x y x' y' s : ℕ} (hx : s * x = M * x') (hy : s * y = M * y')
    (hunit : IsUnit (x' - y' : ZMod W)) (v : ZMod W) : #{a | difference M W x y a = v} = M := by
  have hcard := card_fibre_of_shift (difference M W x y) (difference_add hx hy) hunit v
  have hsize : Fintype.card (ZMod (M * W)) = W * M := by rw [ZMod.card, mul_comm]
  exact Nat.eq_of_mul_eq_mul_left (NeZero.pos W) (hcard.trans hsize)

end Digits

/-! ### Pairs of hashes -/

section Pairs

variable (M W : ℕ) [NeZero M] [NeZero W]

/-- The hash of `x`, for the multiplier `c.2` and the summand `c.1`. -/
def shiftHash (c : ℕ × ℕ) (x : ℕ) : ℕ := (c.2 * x / M + c.1) % W

variable {M W}

omit [NeZero M] [NeZero W] in
theorem hash_eq_iff (c : ℕ × ℕ) (x : ℕ) {u : ℕ} (hu : u < W) :
    shiftHash M W c x = u ↔ ((c.2 * x / M : ℕ) : ZMod W) + c.1 = u := by
  rw [shiftHash, ← Nat.cast_add, ZMod.natCast_eq_natCast_iff', Nat.mod_eq_of_lt hu]

theorem card_hash_pair (x y : ℕ) {u v : ℕ} (hu : u < W) (hv : v < W) :
    #{c ∈ range W ×ˢ range (M * W) | shiftHash M W c x = u ∧ shiftHash M W c y = v} =
      #{a | difference M W x y a = (u - v : ZMod W)} := by
  simp only [hash_eq_iff _ _ hu, hash_eq_iff _ _ hv]
  refine card_bij (fun c _ => (c.2 : ZMod (M * W))) (fun c hc => ?_) (fun c hc c' hc' h => ?_) (fun a ha => ?_)
  · obtain ⟨-, hx, hy⟩ := mem_filter.mp hc
    rw [mem_filter_univ, difference_natCast, ← hx, ← hy]
    ring
  · obtain ⟨hmem, hx, -⟩ := mem_filter.mp hc
    obtain ⟨hmem', hx', -⟩ := mem_filter.mp hc'
    obtain ⟨hlt1, hlt2⟩ := mem_product.mp hmem
    obtain ⟨hlt1', hlt2'⟩ := mem_product.mp hmem'
    rw [mem_range] at hlt1 hlt2 hlt1' hlt2'
    have hsecond : c.2 = c'.2 := by
      rwa [ZMod.natCast_eq_natCast_iff', Nat.mod_eq_of_lt hlt2, Nat.mod_eq_of_lt hlt2'] at h
    rw [hsecond] at hx
    have hfirst := add_left_cancel (hx.trans hx'.symm)
    rw [ZMod.natCast_eq_natCast_iff', Nat.mod_eq_of_lt hlt1, Nat.mod_eq_of_lt hlt1'] at hfirst
    exact Prod.ext hfirst hsecond
  · rw [mem_filter_univ] at ha
    have hval : ((a.val : ℕ) : ZMod (M * W)) = a := ZMod.natCast_zmod_val a
    have hdiff := difference_natCast M W x y a.val
    rw [hval, ha] at hdiff
    refine ⟨((u - ((a.val * x / M : ℕ) : ZMod W) : ZMod W).val, a.val), ?_, hval⟩
    simp only [mem_filter, mem_product, mem_range, ZMod.natCast_zmod_val]
    refine ⟨⟨ZMod.val_lt _, ZMod.val_lt _⟩, by ring, ?_⟩
    rw [← sub_eq_zero, ← sub_eq_zero.mpr hdiff]
    ring

end Pairs

/-! ### Pairs that are not uniform -/

theorem two_thirds_lt {M : ℕ} (hpos : 0 < M) (hM : M ≠ 2) : 2 * ((2 * M + 2) / 3 - (M + 2) / 3) < M := by
  obtain h | h : M < 5 ∨ 5 ≤ M := Nat.lt_or_ge M 5
  · interval_cases M <;> omega
  · omega

theorem natCast_eq_one {n t r : ℕ} (h : (-1 : ZMod n) = (t : ℕ) - ((t + r : ℕ) : ZMod n)) :
    (r : ZMod n) = (1 : ℕ) := by
  push_cast at h ⊢
  have hneg := neg_eq_iff_eq_neg.mp h
  rw [hneg]
  ring

theorem carry_eq_one {m t f : ℕ} (hf : f < 3) (h : 2 * m + 1 = 2 * t + f) : f = 1 ∧ m = t := by omega

section Irregular

variable {M V : ℕ} [NeZero M] [NeZero V]

/-- For `x = 1` and `y = 3` one third of the multipliers have a difference of minus one, where it should be one
half. -/
theorem card_difference_one_three_lt (hV : Even V) (hM : M ≠ 2) : #{a | difference M V 1 3 a = -1} < M := by
  have hpos := NeZero.pos M
  have hposV := NeZero.pos V
  obtain ⟨W, rfl⟩ := even_iff_exists_two_mul.mp hV
  have hsubset : ({a | difference M (2 * W) 1 3 a = -1} : Finset (ZMod (M * (2 * W)))) ⊆
      (range 2 ×ˢ Ico ((M + 2) / 3) ((2 * M + 2) / 3)).image
        fun p => ((p.2 + M * (W * p.1) : ℕ) : ZMod (M * (2 * W))) := by
    intro a ha
    rw [mem_filter_univ] at ha
    have hval : ((a.val : ℕ) : ZMod (M * (2 * W))) = a := ZMod.natCast_zmod_val a
    have hlt : a.val / M < 2 * W := Nat.div_lt_of_lt_mul (ZMod.val_lt a)
    have hthree : a.val * 3 / M = a.val / M + (2 * (a.val / M) + a.val % M * 3 / M) := by
      conv_lhs => rw [← Nat.mod_add_div a.val M, add_mul, mul_assoc, Nat.add_mul_div_left _ _ hpos]
      ring
    have hdiff := difference_natCast M (2 * W) 1 3 a.val
    rw [hval, ha, mul_one, hthree] at hdiff
    -- twice the leading digit, and the carry of three times the rest, make one
    have hone := natCast_eq_one hdiff
    rw [ZMod.natCast_eq_natCast_iff', Nat.mod_eq_of_lt (show 1 < 2 * W by omega)] at hone
    have hcarry : a.val % M * 3 / M < 3 :=
      Nat.div_lt_of_lt_mul (Nat.mul_lt_mul_of_pos_right (Nat.mod_lt _ hpos) (by decide))
    obtain ⟨q, hdivmod⟩ : ∃ q, 2 * (W * q) + 1 = 2 * (a.val / M) + a.val % M * 3 / M := by
      have hdivmod := Nat.div_add_mod (2 * (a.val / M) + a.val % M * 3 / M) (2 * W)
      rw [hone, mul_assoc] at hdivmod
      exact ⟨_, hdivmod⟩
    obtain ⟨hcarry1, hdigit⟩ := carry_eq_one hcarry hdivmod
    have hq : q < 2 := by
      rw [← hdigit, mul_comm 2 W] at hlt
      exact Nat.lt_of_mul_lt_mul_left hlt
    rw [Nat.div_eq_iff hpos] at hcarry1
    refine mem_image.mpr ⟨(q, a.val % M), mem_product.mpr ⟨mem_range.mpr hq, mem_Ico.mpr (by omega)⟩, ?_⟩
    rw [hdigit, Nat.mod_add_div, hval]
  calc #{a | difference M (2 * W) 1 3 a = -1}
      ≤ #(range 2 ×ˢ Ico ((M + 2) / 3) ((2 * M + 2) / 3)) := (card_le_card hsubset).trans card_image_le
    _ = 2 * ((2 * M + 2) / 3 - (M + 2) / 3) := by rw [card_product, card_range, Nat.card_Ico]
    _ < M := two_thirds_lt hpos hM

omit [NeZero M] in
theorem difference_one_five_ne (hV : Even V) (hM : M = 2) (a : ZMod (M * V)) : difference M V 1 5 a ≠ -1 := by
  intro ha
  have hposV := NeZero.pos V
  obtain ⟨W, rfl⟩ := even_iff_exists_two_mul.mp hV
  subst hM
  have hval : ((a.val : ℕ) : ZMod (2 * (2 * W))) = a := ZMod.natCast_zmod_val a
  have hdiff := difference_natCast 2 (2 * W) 1 5 a.val
  have hfive : a.val * 5 / 2 = a.val / 2 + 2 * (a.val - a.val % 2 + a.val % 2) := by omega
  rw [hval, ha, mul_one, hfive] at hdiff
  have hone := natCast_eq_one hdiff
  rw [ZMod.natCast_eq_natCast_iff', Nat.mod_eq_of_lt (show 1 < 2 * W by omega), Nat.mul_mod_mul_left] at hone
  omega

end Irregular

/-! ### Separating two inputs -/

section Separate

theorem exists_half_apart_of_lt {l p q : ℕ} (hp : p < 2 ^ l) (hlt : q < p) :
    ∃ c < 2 ^ l, c * p % 2 ^ l = (c * q + 2 ^ (l - 1)) % 2 ^ l := by
  obtain ⟨s, m, hm, hdiff⟩ := Nat.exists_eq_two_pow_mul_odd (Nat.sub_ne_zero_of_lt hlt)
  obtain ⟨r, rfl⟩ := hm
  have hs : s < l := by
    have hle : 2 ^ s ≤ p - q := by
      rw [hdiff]
      exact Nat.le_mul_of_pos_right _ (Nat.succ_pos _)
    exact (Nat.pow_lt_pow_iff_right Nat.one_lt_two).mp (by omega)
  have hhalf : 2 ^ (l - 1 - s) * 2 ^ s = 2 ^ (l - 1) := by rw [← pow_add, Nat.sub_add_cancel (by omega)]
  have hfull : 2 * 2 ^ (l - 1) = 2 ^ l := (mul_comm _ _).trans (Nat.two_pow_pred_mul_two (by omega))
  refine ⟨2 ^ (l - 1 - s), Nat.pow_lt_pow_right (by decide) (by omega), ?_⟩
  have hp' : p = q + 2 ^ s * (2 * r + 1) := by omega
  have hmul : 2 ^ (l - 1 - s) * p = 2 ^ (l - 1 - s) * q + 2 ^ (l - 1) + 2 ^ l * r := by
    rw [hp', mul_add, ← mul_assoc, hhalf, ← hfull]
    ring
  rw [hmul, Nat.add_mul_mod_self_left]

theorem exists_half_apart {l p q : ℕ} (hp : p < 2 ^ l) (hq : q < 2 ^ l) (hne : p ≠ q) :
    ∃ c < 2 ^ l, c * p % 2 ^ l = (c * q + 2 ^ (l - 1)) % 2 ^ l := by
  rcases Nat.lt_or_gt_of_ne hne with hlt | hlt
  · obtain ⟨c, hc, h⟩ := exists_half_apart_of_lt hq hlt
    have hl : 1 ≤ l := by
      rcases Nat.eq_zero_or_pos l with rfl | hl
      · omega
      · exact hl
    refine ⟨c, hc, ?_⟩
    rw [Nat.add_mod, h, ← Nat.add_mod, add_assoc, Nat.two_pow_pred_add_two_pow_pred hl, Nat.add_mod_right]
  · exact exists_half_apart_of_lt hp hlt

theorem div_half_apart {l b x y : ℕ} (hb : 1 ≤ b) (hbl : b ≤ l) (hx : x < 2 ^ l) (hy : y = (x + 2 ^ (l - 1)) % 2 ^ l) :
    y / 2 ^ (l - b) = x / 2 ^ (l - b) + 2 ^ (b - 1) ∨ x / 2 ^ (l - b) = y / 2 ^ (l - b) + 2 ^ (b - 1) := by
  have hfull := Nat.two_pow_pred_add_two_pow_pred (show 0 < l by omega)
  have hsplit : 2 ^ (l - 1) = 2 ^ (l - b) * 2 ^ (b - 1) := by rw [← pow_add]; congr 1; omega
  have hdigit : ∀ z, (z + 2 ^ (l - 1)) / 2 ^ (l - b) = z / 2 ^ (l - b) + 2 ^ (b - 1) := by
    intro z
    rw [hsplit, Nat.add_mul_div_left _ _ (Nat.two_pow_pos _)]
  rcases Nat.lt_or_ge x (2 ^ (l - 1)) with hlow | hhigh
  · left
    rw [hy, Nat.mod_eq_of_lt (by omega), hdigit]
  · right
    have hmod : (x + 2 ^ (l - 1)) % 2 ^ l = x - 2 ^ (l - 1) := by
      rw [show x + 2 ^ (l - 1) = x - 2 ^ (l - 1) + 2 ^ l by omega, Nat.add_mod_right, Nat.mod_eq_of_lt (by omega)]
    rw [← hdigit, hy, hmod, Nat.sub_add_cancel hhigh]

theorem mod_ne_of_apart {t t' h w : ℕ} (hpos : 0 < h) (hlt : h < w) (hapart : t = t' + h ∨ t' = t + h) :
    t % w ≠ t' % w := by
  intro heq
  have hdvd : w ∣ h := by
    rcases hapart with rfl | rfl
    · exact (Nat.modEq_iff_dvd' (Nat.le_add_right _ _)).mp heq.symm |>.trans (by simp)
    · exact (Nat.modEq_iff_dvd' (Nat.le_add_right _ _)).mp heq |>.trans (by simp)
  exact absurd (Nat.le_of_dvd hpos hdvd) (not_le.mpr hlt)

end Separate

end PrioPlus.Lib.MultiplyShift

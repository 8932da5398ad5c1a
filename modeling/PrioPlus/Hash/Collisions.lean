import PrioPlus.Client.Heavy
import PrioPlus.Hash.Pairwise
import PrioPlus.Lib.Collisions
import PrioPlus.Lib.Overestimate

/-!
# How often the hashes collide

A store whose range is a power of two makes two inputs collide for at most twice as many coefficients as a random
function would, unless their difference shares a large power of two with the input range (`card_equal_evals_le`). Over
a batch this bounds the draws of a row that count too many keys, and, the rows being drawn one by one, the draws of all
rows (`pow_mul_card_badRows_le`).
-/

namespace PrioPlus

open Finset Lib.MultiplyShift Lib.CountMin

/-! ### One function -/

section Function

variable {d lBits wBits : ℕ}

/-- The multipliers out of `2 ^ lBits` that can make two inputs collide. -/
def collidingMultipliers (lBits wBits : ℕ) (x y : UInt32) : ℕ :=
  max (2 * 2 ^ (lBits - wBits)) (Int.gcd (x.toNat - y.toNat) (2 ^ lBits : ℕ))

theorem card_equal_evals (hl : lBits ≤ 63) (hle : wBits ≤ lBits) (i x y : UInt32) :
    #{c ∈ coeffPairs lBits wBits | (drawnStore d lBits wBits c).eval i x = (drawnStore d lBits wBits c).eval i y} =
      2 ^ wBits * #{a | difference (2 ^ (lBits - wBits)) (2 ^ wBits) x.toNat y.toNat a = 0} := by
  rw [card_eq_sum_card_fiberwise (f := fun c => shiftHash (2 ^ (lBits - wBits)) (2 ^ wBits) c x.toNat)
    (t := range (2 ^ wBits)) fun c _ => mem_coe.mpr (mem_range.mpr (Nat.mod_lt _ (Nat.two_pow_pos _)))]
  have hfibre : ∀ u ∈ range (2 ^ wBits),
      #{c ∈ {c ∈ coeffPairs lBits wBits |
          (drawnStore d lBits wBits c).eval i x = (drawnStore d lBits wBits c).eval i y} |
        shiftHash (2 ^ (lBits - wBits)) (2 ^ wBits) c x.toNat = u} =
        #{a | difference (2 ^ (lBits - wBits)) (2 ^ wBits) x.toNat y.toNat a = 0} := by
    intro u hu
    have hpair := card_evals (d := d) (i := i) (x := x) (y := y) hl hle (mem_range.mp hu) (mem_range.mp hu)
    rw [sub_self] at hpair
    rw [← hpair, filter_filter]
    refine congrArg card (filter_congr fun c _ => ?_)
    rw [eval_drawnStore hl hle, eval_drawnStore hl hle, Nat.cast_inj, Nat.cast_inj, Nat.cast_inj]
    exact ⟨fun ⟨heq, hu⟩ => ⟨hu, heq ▸ hu⟩, fun ⟨hx, hy⟩ => ⟨hx.trans hy.symm, hx⟩⟩
  rw [sum_congr rfl hfibre, sum_const, card_range, smul_eq_mul]

theorem card_equal_evals_le (hl : lBits ≤ 63) (hle : wBits ≤ lBits) (i x y : UInt32) :
    #{c ∈ coeffPairs lBits wBits | (drawnStore d lBits wBits c).eval i x = (drawnStore d lBits wBits c).eval i y} ≤
      2 ^ wBits * collidingMultipliers lBits wBits x y := by
  have hsplit : 2 ^ (lBits - wBits) * 2 ^ wBits = 2 ^ lBits := by rw [← pow_add, Nat.sub_add_cancel hle]
  rw [card_equal_evals hl hle, collidingMultipliers, ← hsplit]
  refine Nat.mul_le_mul_left _ (card_difference_zero_le _ _ ?_)
  -- the greatest common divisor is a power of two, like the input range
  have hdvd : Int.gcd (x.toNat - y.toNat) (2 ^ (lBits - wBits) * 2 ^ wBits : ℕ) ∣ 2 ^ lBits := by
    rw [← hsplit]
    exact Int.natCast_dvd_natCast.mp (Int.gcd_dvd_right _ _)
  obtain ⟨s, -, hs⟩ := (Nat.dvd_prime_pow Nat.prime_two).mp hdvd
  rw [hs]
  rcases Nat.le_total s (lBits - wBits) with hsmall | hlarge
  · exact Or.inl (pow_dvd_pow 2 hsmall)
  · exact Or.inr (Nat.pow_le_pow_right Nat.two_pos hlarge)

end Function

/-! ### All rows -/

section Rows

/-- The coefficients that the constructor can draw for `d` functions. -/
def rowDraws (d lBits wBits : ℕ) : Finset (Fin d → ℕ × ℕ) := Fintype.piFinset fun _ => coeffPairs lBits wBits

/-- The seed that gives `rows` to the constructor for these arguments, and what `seed` gives otherwise. -/
def HashSeed.redraw (seed : HashSeed) (d lBits w : ℕ) (rows : Fin d → ℕ × ℕ) : HashSeed where
  draw := fun d' lBits' w' i j =>
    if h : (d' = d ∧ lBits' = lBits ∧ w' = w) ∧ i < d then
      (if j = 0 then (rows ⟨i, h.2⟩).1 else (rows ⟨i, h.2⟩).2 : ℕ)
    else seed.draw d' lBits' w' i j

variable {d lBits wBits : ℕ}

theorem bucketOf_redraw (seed : HashSeed) (hd : d < 2 ^ 32) (rows : Fin d → ℕ × ℕ) (j : Fin d) (v : UInt64) :
    bucketOf (HashStore.new (seed.redraw d lBits (2 ^ wBits) rows) d lBits (2 ^ wBits)) j v =
      bucketOf (drawnStore d lBits wBits (rows j)) j v := by
  have hj : (UInt32.ofNat j).toNat = j := UInt32.toNat_ofNat_of_lt' (j.isLt.trans hd)
  have hcoeff : ∀ n, (seed.redraw d lBits (2 ^ wBits) rows).draw d lBits (2 ^ wBits) j n =
      (HashSeed.ofCoeffs (rows j)).draw d lBits (2 ^ wBits) j n := by
    intro n
    simp only [HashSeed.redraw, HashSeed.ofCoeffs, and_self, j.isLt, dif_pos]
    split_ifs <;> rfl
  simp only [bucketOf, drawnStore, HashStore.eval, HashStore.new, hj, hcoeff]

/-- The row of `c` for the values of the clients. -/
def rowBucket (d lBits wBits : ℕ) (j : Fin d) (c : ℕ × ℕ) (v : UInt64) : ℕ := bucketOf (drawnStore d lBits wBits c) j v

/-- The multipliers that can make a key collide, for all the other keys of a batch. -/
def collisionMass (lBits wBits : ℕ) (keys : List UInt64) (key : UInt64) : ℕ :=
  ((keys.filter (· ≠ key)).map fun v => collidingMultipliers lBits wBits v.toUInt32 key.toUInt32).sum

/-- The draws for which all rows count `gap` too many. -/
def badRows (d lBits wBits : ℕ) (keys : List UInt64) (key : UInt64) (gap : ℚ) : Finset (Fin d → ℕ × ℕ) :=
  overestimates (rowBucket d lBits wBits) (coeffPairs lBits wBits) keys key gap

theorem collisions_le (hl : lBits ≤ 63) (hle : wBits ≤ lBits) (keys : List UInt64) (key : UInt64) (j : Fin d) :
    collisions (rowBucket d lBits wBits j) (coeffPairs lBits wBits) keys key ≤
      2 ^ wBits * collisionMass lBits wBits keys key := by
  rw [collisions, collisionMass, ← List.sum_map_mul_left]
  refine List.sum_le_sum fun v _ => ?_
  have heval : ∀ c, rowBucket d lBits wBits j c v = rowBucket d lBits wBits j c key ↔
      (drawnStore d lBits wBits c).eval (UInt32.ofNat j) v.toUInt32 =
        (drawnStore d lBits wBits c).eval (UInt32.ofNat j) key.toUInt32 := by
    intro c
    have hpos : 0 < (drawnStore d lBits wBits c).w := Nat.two_pow_pos wBits
    rw [eval_eq_bucketOf hpos, eval_eq_bucketOf hpos, Nat.cast_inj]
    rfl
  simp only [heval]
  exact card_equal_evals_le hl hle _ _ _

theorem card_rowDraws (d lBits wBits : ℕ) : #(rowDraws d lBits wBits) = (2 ^ wBits * 2 ^ lBits) ^ d := by
  rw [rowDraws, Fintype.card_piFinset_const, coeffPairs, card_product, card_range, card_range]

theorem pow_mul_card_badRows_le (hl : lBits ≤ 63) (hle : wBits ≤ lBits) (keys : List UInt64) (key : UInt64) {gap : ℚ}
    (hgap : 0 ≤ gap) :
    (2 ^ lBits * gap) ^ d * #(badRows d lBits wBits keys key gap) ≤
      (collisionMass lBits wBits keys key : ℚ) ^ d * #(rowDraws d lBits wBits) := by
  have hrows := pow_mul_card_overestimates_le (rowBucket d lBits wBits) (coeffPairs lBits wBits) keys key hgap
    (collisions_le hl hle keys key)
  rw [Fintype.card_fin] at hrows
  calc (2 ^ lBits * gap) ^ d * #(badRows d lBits wBits keys key gap)
      = (2 ^ lBits) ^ d * (gap ^ d * #(badRows d lBits wBits keys key gap)) := by rw [mul_pow, mul_assoc]
    _ ≤ (2 ^ lBits) ^ d * ((2 ^ wBits * collisionMass lBits wBits keys key : ℕ) : ℚ) ^ d :=
      mul_le_mul_of_nonneg_left hrows (by positivity)
    _ = (collisionMass lBits wBits keys key : ℚ) ^ d * #(rowDraws d lBits wBits) := by
      rw [card_rowDraws]
      push_cast
      ring

theorem exists_bucket_lt (seed : HashSeed) (hd : d < 2 ^ 32) {keys : List UInt64} {key : UInt64} {threshold : ℚ}
    {rows : Fin d → ℕ × ℕ} (hrows : rows ∈ rowDraws d lBits wBits)
    (hgood : rows ∉ badRows d lBits wBits keys key (threshold - keys.count key)) :
    ∃ j < d,
      let row := bucketOf (HashStore.new (seed.redraw d lBits (2 ^ wBits) rows) d lBits (2 ^ wBits)) j
      (bucket row keys (row key) : ℚ) < threshold := by
  rw [badRows, mem_overestimates, not_and] at hgood
  obtain ⟨j, hj⟩ := not_forall.mp (hgood hrows)
  refine ⟨j, j.isLt, ?_⟩
  have hrow : bucketOf (HashStore.new (seed.redraw d lBits (2 ^ wBits) rows) d lBits (2 ^ wBits)) j =
      rowBucket d lBits wBits j (rows j) := by
    funext v
    exact bucketOf_redraw seed hd rows j v
  show (bucket _ keys _ : ℚ) < threshold
  rw [hrow, bucket_eq_add_noise]
  push_cast
  linarith

end Rows

end PrioPlus

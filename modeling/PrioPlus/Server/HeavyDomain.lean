import PrioPlus.Hash.Pairwise
import PrioPlus.Server.HeavySearch

/-!
# The domains of the hash functions of `heavy_op`

Layer `k` hashes prefixes that are `num_bits - (L - 1 - k)` bits long, with a store that is made for inputs of
`num_bits - k` bits. From the middle of the tree on the prefixes are longer than that. `layerDomain_iff` says for which
parameters all the prefixes of a layer are inputs of its store, which is also when no two of them collide whatever the
coefficients are.
-/

namespace PrioPlus

open Lib.MultiplyShift

/-- The prefixes that layer `k` hashes: those of the clients' values, and the children of the candidates that some
combined table leads to. -/
def HashedIn (numBits : UInt32) (cfg : HeavyConfig) (k : ℕ) (p : UInt64) : Prop :=
  (∃ v : UInt64, v.toNat < 2 ^ numBits.toNat ∧ p = layerPrefix cfg.L k v) ∨
    ∃ (seed : HashSeed) (numInputs : ℕ) (a : List ℤ), ∃ x ∈ layerCandidates seed numBits cfg numInputs a k,
      p = 2 * x ∨ p = 2 * x + 1

/-- The seed draws what `fmpz_randm` can give. -/
def HashSeed.InRange (seed : HashSeed) (d lBits w : ℕ) : Prop :=
  ∀ i j, 0 ≤ seed.draw d lBits w i j ∧ seed.draw d lBits w i j < if j = 0 then (w : ℤ) else 2 ^ lBits

/-- The prefixes are in one bucket of each row, for all coefficients. -/
def ForcedCollision (numBits : UInt32) (cfg : HeavyConfig) (k : ℕ) (p q : UInt64) : Prop :=
  ∀ seed : HashSeed, seed.InRange cfg.d (numBits.toNat - k) cfg.w →
    ∀ j < cfg.d, bucketOf (hashStores seed numBits cfg k) j p = bucketOf (hashStores seed numBits cfg k) j q

/-- Layer `k` hashes within the domain of its store. -/
structure LayerDomain (numBits : UInt32) (cfg : HeavyConfig) (k : ℕ) : Prop where
  bound : ∀ seed p, HashedIn numBits cfg k p → p.toNat < 2 ^ (hashStores seed numBits cfg k).lBits
  word : ∀ p, HashedIn numBits cfg k p → p.toNat < 2 ^ 32
  free : ∀ p q, HashedIn numBits cfg k p → HashedIn numBits cfg k q → p ≠ q → ¬ ForcedCollision numBits cfg k p q

section Domain

variable {numBits : UInt32} {cfg : HeavyConfig} {k : ℕ} (hbits : numBits.toNat ≤ 63) (hL : cfg.L ≤ numBits.toNat)
  (hk : k < cfg.L)
include hbits hL hk

theorem toNat_layerPrefix (v : UInt64) : (layerPrefix cfg.L k v).toNat = v.toNat / 2 ^ (cfg.L - 1 - k) :=
  toNat_shiftRight_ofNat v (by omega)

theorem hashedIn_lt {p : UInt64} (hp : HashedIn numBits cfg k p) :
    p.toNat < 2 ^ (numBits.toNat - (cfg.L - 1 - k)) := by
  rcases hp with ⟨v, hv, rfl⟩ | ⟨seed, numInputs, a, x, hx, hchild⟩
  · rw [toNat_layerPrefix hbits hL hk, Nat.div_lt_iff_lt_mul (Nat.two_pow_pos _), ← pow_add,
      Nat.sub_add_cancel (by omega)]
    exact hv
  · have hlt := layerCandidates_lt hbits hL hk.le x hx
    have htree := isTree_prefixes hbits hL
    have hmem : p ∈ childrenOf x := by simpa [childrenOf] using hchild
    have hnext := htree.next k hk x hlt p hmem
    rwa [show numBits.toNat - (cfg.L - 1 - k) = numBits.toNat - cfg.L + (k + 1) by omega]

theorem hashedIn_ofNat {n : ℕ} (hn : n < 2 ^ (numBits.toNat - (cfg.L - 1 - k))) :
    HashedIn numBits cfg k (UInt64.ofNat n) := by
  have hpow : 2 ^ numBits.toNat < 2 ^ 64 := Nat.pow_lt_pow_right (by decide) (by omega)
  have hsplit : 2 ^ (numBits.toNat - (cfg.L - 1 - k)) * 2 ^ (cfg.L - 1 - k) = 2 ^ numBits.toNat := by
    rw [← pow_add, Nat.sub_add_cancel (by omega)]
  have hv : n * 2 ^ (cfg.L - 1 - k) < 2 ^ numBits.toNat := by
    rw [← hsplit]
    exact Nat.mul_lt_mul_of_pos_right hn (Nat.two_pow_pos _)
  have hle : n ≤ n * 2 ^ (cfg.L - 1 - k) := Nat.le_mul_of_pos_right n (Nat.two_pow_pos _)
  have hvNat := UInt64.toNat_ofNat_of_lt' (hv.trans hpow)
  refine Or.inl ⟨UInt64.ofNat (n * 2 ^ (cfg.L - 1 - k)), by rwa [hvNat], ?_⟩
  rw [← UInt64.toNat_inj, toNat_layerPrefix hbits hL hk, hvNat, Nat.mul_div_cancel _ (Nat.two_pow_pos _),
    UInt64.toNat_ofNat_of_lt' ((hle.trans_lt hv).trans hpow)]

theorem hashedIn_lt_iff (b : ℕ) :
    (∀ p, HashedIn numBits cfg k p → p.toNat < 2 ^ b) ↔ numBits.toNat - (cfg.L - 1 - k) ≤ b := by
  constructor
  · intro h
    have hwords : 2 ^ (numBits.toNat - (cfg.L - 1 - k)) < 2 ^ 64 := Nat.pow_lt_pow_right (by decide) (by omega)
    have hpos := Nat.two_pow_pos (numBits.toNat - (cfg.L - 1 - k))
    have hlast : 2 ^ (numBits.toNat - (cfg.L - 1 - k)) - 1 < 2 ^ (numBits.toNat - (cfg.L - 1 - k)) := by omega
    have hlt := h _ (hashedIn_ofNat hbits hL hk hlast)
    rw [UInt64.toNat_ofNat_of_lt' (hlast.trans hwords)] at hlt
    exact (Nat.pow_le_pow_iff_right Nat.one_lt_two).mp (by omega)
  · intro hle p hp
    exact (hashedIn_lt hbits hL hk hp).trans_le (Nat.pow_le_pow_right Nat.two_pos hle)

end Domain

/-! ### Collisions -/

section Collisions

variable {numBits : UInt32} {cfg : HeavyConfig} {k : ℕ}

theorem bucketOf_ofCoeffs (hbits : numBits.toNat ≤ 63) (hle : HashStore.bitsOf cfg.w ≤ numBits.toNat - k) (c j : ℕ)
    {p : UInt64} (hp : p.toNat < 2 ^ 32) :
    bucketOf (hashStores (HashSeed.ofCoeffs (0, c)) numBits cfg k) j p =
      c * p.toNat % 2 ^ (numBits.toNat - k) / 2 ^ (numBits.toNat - k - HashStore.bitsOf cfg.w) % cfg.w := by
  rw [bucketOf, hashStores, HashStore.eval_new (HashSeed.ofCoeffs (0, c)) cfg.d (by omega) hle _ _ rfl rfl,
    Int.toNat_natCast, add_zero, UInt64.toNat_toUInt32, Nat.mod_eq_of_lt hp]

theorem not_forcedCollision (hbits : numBits.toNat ≤ 63) (hd : 1 ≤ cfg.d) (hw : 2 ≤ cfg.w)
    (hle : cfg.w ≤ 2 ^ (numBits.toNat - k)) (hk : k < numBits.toNat) {p q : UInt64} (hp : p.toNat < 2 ^ 32)
    (hq : q.toNat < 2 ^ 32) (hp' : p.toNat < 2 ^ (numBits.toNat - k)) (hq' : q.toNat < 2 ^ (numBits.toNat - k))
    (hne : p ≠ q) : ¬ ForcedCollision numBits cfg k p q := by
  intro hforced
  have hpow : 2 ^ (numBits.toNat - k) < 2 ^ 64 := Nat.pow_lt_pow_right (by decide) (by omega)
  have hbitsLe := HashStore.bitsOf_le (by omega) hle (by omega) (by omega)
  have hbitsPos : 1 ≤ HashStore.bitsOf cfg.w := Nat.le_add_right 1 _
  have hhalf := HashStore.two_pow_bitsOf_pred_lt hw (by omega)
  obtain ⟨c, hc, hapart⟩ := exists_half_apart hp' hq' fun h => hne (UInt64.toNat_inj.mp h)
  have hrange : (HashSeed.ofCoeffs (0, c)).InRange cfg.d (numBits.toNat - k) cfg.w := by
    intro i j
    by_cases hj : j = 0
    · simp only [HashSeed.ofCoeffs, hj, if_true]
      exact ⟨le_rfl, by exact_mod_cast (by omega : 0 < cfg.w)⟩
    · simp only [HashSeed.ofCoeffs, hj, if_false]
      exact ⟨by exact_mod_cast Nat.zero_le c, by exact_mod_cast hc⟩
  have hbucket := hforced (HashSeed.ofCoeffs (0, c)) hrange 0 hd
  rw [bucketOf_ofCoeffs hbits hbitsLe c 0 hp, bucketOf_ofCoeffs hbits hbitsLe c 0 hq] at hbucket
  rw [← Nat.mod_add_mod] at hapart
  have hdigits := div_half_apart hbitsPos hbitsLe (Nat.mod_lt (c * q.toNat) (Nat.two_pow_pos _)) hapart
  exact mod_ne_of_apart (Nat.two_pow_pos _) hhalf hdigits hbucket

/-- With one bucket, no row, or more buckets than inputs, everything collides. -/
theorem forcedCollision_of_degenerate (hbits : numBits.toNat ≤ 63) (hw : cfg.w < 2 ^ 64)
    (hdeg : cfg.d = 0 ∨ cfg.w ≤ 1 ∨ 2 ^ (numBits.toNat - k) < cfg.w) (p q : UInt64) :
    ForcedCollision numBits cfg k p q := by
  intro seed hrange j hj
  rcases hdeg with hd | hone | hlarge
  · omega
  · have hpos : (0 : ℤ) < cfg.w := by
      obtain ⟨hnonneg, hlt⟩ := hrange 0 0
      rw [if_pos rfl] at hlt
      exact hnonneg.trans_lt hlt
    have hlt := bucketOf_lt (hashStores seed numBits cfg k) (show 0 < cfg.w by exact_mod_cast hpos)
    have hstore : (hashStores seed numBits cfg k).w = cfg.w := rfl
    have hp := hlt j p
    have hq := hlt j q
    omega
  · rw [bucketOf, bucketOf, hashStores, HashStore.eval_of_range_lt seed cfg.d (by omega) hlarge hw,
      HashStore.eval_of_range_lt seed cfg.d (by omega) hlarge hw]

end Collisions

/-! ### When a layer hashes within its domain -/

/-- A layer hashes within its domain exactly when it is in the first half, its prefixes are words, and there are rows
and buckets to tell them apart, but not more buckets than inputs. -/
theorem layerDomain_iff {numBits : UInt32} {cfg : HeavyConfig} {k : ℕ} (hbits : numBits.toNat ≤ 63)
    (hL : cfg.L ≤ numBits.toNat) (hw : cfg.w < 2 ^ 64) (hk : k < cfg.L) :
    LayerDomain numBits cfg k ↔
      2 * k + 1 ≤ cfg.L ∧ numBits.toNat - (cfg.L - 1 - k) ≤ 32 ∧ 1 ≤ cfg.d ∧ 2 ≤ cfg.w ∧
        cfg.w ≤ 2 ^ (numBits.toNat - k) := by
  have hstore : (hashStores ⟨fun _ _ _ _ _ => 0⟩ numBits cfg k).lBits = numBits.toNat - k := rfl
  constructor
  · intro hdomain
    have hbound := hdomain.bound ⟨fun _ _ _ _ _ => 0⟩
    rw [hstore, hashedIn_lt_iff hbits hL hk] at hbound
    have hword := (hashedIn_lt_iff hbits hL hk 32).mp hdomain.word
    have htwo : 2 ≤ 2 ^ (numBits.toNat - (cfg.L - 1 - k)) := Nat.le_self_pow (by omega) 2
    have hfree := hdomain.free _ _ (hashedIn_ofNat hbits hL hk (Nat.two_pow_pos _)) (hashedIn_ofNat hbits hL hk htwo)
      (by decide)
    have hdeg := mt (fun h => forcedCollision_of_degenerate hbits hw h (UInt64.ofNat 0) (UInt64.ofNat 1)) hfree
    omega
  · rintro ⟨hhalf, hword, hd, hw2, hle⟩
    have hlt := (hashedIn_lt_iff hbits hL hk (numBits.toNat - k)).mpr (by omega)
    have hlt32 := (hashedIn_lt_iff hbits hL hk 32).mpr hword
    exact ⟨fun _ => hlt, hlt32, fun p q hp hq hne =>
      not_forcedCollision hbits hd hw2 hle (by omega) (hlt32 p hp) (hlt32 q hq) (hlt p hp) (hlt q hq) hne⟩

theorem layerDomain_iff_8_3 : LayerDomain 8 { t := 1 / 2, w := 4, d := 2, L := 3 } 1 :=
  (layerDomain_iff (by decide) (by decide) (by decide) (by decide)).mpr (by decide)

/-- With eight bits and two layers, the second layer hashes the values themselves, with a store for seven bits: `0` and
`128` are in the same buckets whatever the coefficients are. -/
theorem not_layerDomain_8_2 :
    ForcedCollision 8 { t := 1 / 2, w := 4, d := 2, L := 2 } 1 0 128 ∧
      ¬ LayerDomain 8 { t := 1 / 2, w := 4, d := 2, L := 2 } 1 := by
  constructor
  · intro seed _ j _
    have hzero : ((0 : UInt64).toUInt32.toNat : ℤ) = 0 := rfl
    have hrange : ((128 : UInt64).toUInt32.toNat : ℤ) = (((1 : UInt64) <<< UInt64.ofNat 7).toNat : ℕ) := rfl
    show (HashStore.eval (HashStore.new seed 2 7 4) _ _).toNat = (HashStore.eval (HashStore.new seed 2 7 4) _ _).toNat
    simp only [HashStore.eval, HashStore.new, Nat.reduceSub, List.range_one, List.foldl_cons, List.foldl_nil, hzero,
      hrange, mul_zero, Int.zero_emod, Int.mul_emod_left]
  · intro hdomain
    have hlt := hdomain.bound ⟨fun _ _ _ _ _ => 0⟩ _ (Or.inl ⟨255, by decide, rfl⟩)
    exact absurd hlt (by decide)

end PrioPlus

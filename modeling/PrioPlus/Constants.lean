import Mathlib.NumberTheory.LucasPrimality
import Mathlib.RingTheory.RootsOfUnity.PrimitiveRoots
import Mathlib.Tactic.NormNum.Prime
import Mathlib.Tactic.ReduceModChar
import PrioPlus.Fmpz

/-!
# The modulus, its generator and the root tables

`Constants` bundles a choice of `Int_Modulus`, `Int_Gen` and `twoOrder` with the two facts the comment in
`constants.h` asks for: the modulus is prime and the generator has order exactly `2 ^ twoOrder`. `shipped` is the
choice the program compiles with.

`initRoots` is `init_roots`: the tables of the `N`-th roots of unity, of their inverses and of the `2N`-th roots.
`RootTables.IsFor` says what a table must hold for the transforms and the interpolation nodes to be right, and
`buildRoots_isFor` that a rebuilt table holds it.
-/

namespace PrioPlus

structure Constants where
  intModulus : ℕ
  intGen : ℤ
  twoOrder : ℕ
  prime : intModulus.Prime
  order : orderOf (intGen : ZMod intModulus) = 2 ^ twoOrder

instance (K : Constants) : Fact K.intModulus.Prime := ⟨K.prime⟩

/-! ### The shipped constants -/

/-- `Int_Modulus_str`, `2 ^ 63 + 2 ^ 19 + 1`. -/
def intModulus : ℕ := 0x8000000000080001

/-- `Int_Gen_str`. -/
def intGen : ℤ := 0x22855fdf11374225

theorem intModulus_sub_one : intModulus - 1 = 2 ^ 19 * 17 * 353 * 2931542417 := by
  norm_num [intModulus]

theorem eq_of_prime_dvd {q a b c k : ℕ} (hq : q.Prime) (ha : a.Prime) (hb : b.Prime) (hc : c.Prime)
    (h : q ∣ 2 ^ k * a * b * c) : q = 2 ∨ q = a ∨ q = b ∨ q = c := by
  simp only [hq.dvd_mul] at h
  rcases h with ((h | h) | h) | h
  · exact Or.inl ((Nat.prime_dvd_prime_iff_eq hq Nat.prime_two).mp (hq.dvd_of_dvd_pow h))
  · exact Or.inr (Or.inl ((Nat.prime_dvd_prime_iff_eq hq ha).mp h))
  · exact Or.inr (Or.inr (Or.inl ((Nat.prime_dvd_prime_iff_eq hq hb).mp h)))
  · exact Or.inr (Or.inr (Or.inr ((Nat.prime_dvd_prime_iff_eq hq hc).mp h)))

theorem prime_2931542417 : Nat.Prime 2931542417 := by
  apply lucas_primality _ 3 (by reduce_mod_char)
  intro q hq hdvd
  have hfactor : q ∣ 2 ^ 4 * 11 * 1913 * 8707 := by simpa using hdvd
  rcases eq_of_prime_dvd hq (by norm_num) (by norm_num) (by norm_num) hfactor with rfl | rfl | rfl | rfl <;>
    norm_num only <;> reduce_mod_char <;> decide

theorem prime_intModulus : intModulus.Prime := by
  apply lucas_primality _ 3 (by rw [intModulus]; norm_num only; reduce_mod_char)
  intro q hq hdvd
  rw [intModulus_sub_one] at hdvd
  have hcases := eq_of_prime_dvd hq (by norm_num) (by norm_num) prime_2931542417 hdvd
  rw [intModulus]
  rcases hcases with rfl | rfl | rfl | rfl <;> norm_num only <;> reduce_mod_char <;> decide

theorem orderOf_intGen : orderOf (intGen : ZMod intModulus) = 2 ^ 19 := by
  apply orderOf_eq_prime_pow
  · rw [intModulus, intGen]; norm_num only; reduce_mod_char; decide
  · rw [intModulus, intGen]; norm_num only; reduce_mod_char

/-- The constants the program is compiled with. -/
def shipped : Constants where
  intModulus := intModulus
  intGen := intGen
  twoOrder := 19
  prime := prime_intModulus
  order := orderOf_intGen

/-! ### The root tables -/

/-- The global tables `roots`, `invroots`, `roots2` and their tracker `num_roots`. -/
structure RootTables where
  numRoots : ℕ
  roots : List ℤ
  invroots : List ℤ
  roots2 : List ℤ

/-- Before the first `init_roots`: `num_roots` is zero and the three pointers are null. -/
def RootTables.unset : RootTables := ⟨0, [], [], []⟩

/-- The running products `1, g, g ^ 2 mod p, …` that fill a table. -/
def powerTable (p : ℕ) (g : ℤ) : ℕ → ℤ
  | 0 => 1
  | i + 1 => powerTable p g i * g % p

/-- The rebuilding part of `init_roots`. -/
def buildRoots (K : Constants) (N : ℕ) : RootTables :=
  let p := K.intModulus
  let stepSize := 2 ^ K.twoOrder / N
  let g := fmpzPowmUi K.intGen stepSize p
  let ginv := fmpzPowmUi (fmpzInvmod K.intGen p) stepSize p
  let ghalf := fmpzPowmUi K.intGen (stepSize / 2) p
  { numRoots := N
    roots := (List.range N).map (powerTable p g)
    invroots := (List.range N).map (powerTable p ginv)
    roots2 := (List.range (2 * N)).map (powerTable p ghalf) }

/-- `init_roots`: nothing to do when the tables have the requested size. -/
def initRoots (K : Constants) (t : RootTables) (N : ℕ) : RootTables :=
  if t.numRoots = N then t else buildRoots K N

theorem initRoots_eq_buildRoots {K : Constants} {t : RootTables} (h : t = .unset ∨ t = buildRoots K t.numRoots) {N : ℕ}
    (hN : 0 < N) : initRoots K t N = buildRoots K N := by
  rw [initRoots]
  split_ifs with hsame
  · rcases h with hunset | hbuilt
    · rw [hunset] at hsame
      exact absurd hsame hN.ne
    · rw [hbuilt, hsame]
  · rfl

/-- The tables of the powers of `ζ`, a primitive `2N`-th root of unity, and of its square. -/
structure RootTables.IsFor (K : Constants) (t : RootTables) (N : ℕ) (ζ : ZMod K.intModulus) : Prop where
  numRoots_eq : t.numRoots = N
  primitive : IsPrimitiveRoot ζ (N + N)
  roots_eq : ∀ i < N, (t.roots.getD i 0 : ZMod K.intModulus) = (ζ ^ 2) ^ i
  invroots_eq : ∀ i < N, (t.invroots.getD i 0 : ZMod K.intModulus) = (ζ ^ 2)⁻¹ ^ i
  roots2_eq : ∀ i < 2 * N, (t.roots2.getD i 0 : ZMod K.intModulus) = ζ ^ i
  roots_range : ∀ i, 0 ≤ t.roots.getD i 0 ∧ t.roots.getD i 0 < K.intModulus
  roots2_range : ∀ i, 0 ≤ t.roots2.getD i 0 ∧ t.roots2.getD i 0 < K.intModulus

theorem cast_powerTable (p : ℕ) (g : ℤ) (i : ℕ) : ((powerTable p g i : ℤ) : ZMod p) = (g : ZMod p) ^ i := by
  induction i with
  | zero => simp [powerTable]
  | succ i ih => simp [powerTable, ih, pow_succ]

theorem powerTable_range {p : ℕ} (hp : 1 < p) (g : ℤ) (i : ℕ) : 0 ≤ powerTable p g i ∧ powerTable p g i < p := by
  cases i with
  | zero => exact ⟨zero_le_one, show (1 : ℤ) < p by omega⟩
  | succ i => exact ⟨Int.emod_nonneg _ (by omega), Int.emod_lt_of_pos _ (by omega)⟩

theorem getD_map_range_range {p : ℕ} (hp : 1 < p) (g : ℤ) (n i : ℕ) :
    0 ≤ ((List.range n).map (powerTable p g)).getD i 0 ∧
      ((List.range n).map (powerTable p g)).getD i 0 < p := by
  rw [getD_map_range]
  split_ifs
  · exact powerTable_range hp g i
  · exact ⟨le_rfl, by omega⟩

theorem buildRoots_isFor (K : Constants) {N : ℕ} (hpos : 0 < N) (hdvd : N + N ∣ 2 ^ K.twoOrder) :
    (buildRoots K N).IsFor K N ((K.intGen : ZMod K.intModulus) ^ (2 ^ K.twoOrder / N / 2)) := by
  have hp := K.prime.one_lt
  obtain ⟨m, hm⟩ := hdvd
  have hstep : 2 ^ K.twoOrder / N = m + m := by
    rw [hm, show (N + N) * m = N * (m + m) by ring, Nat.mul_div_cancel_left _ hpos]
  have hhalf : (m + m) / 2 = m := by omega
  have hgen : IsPrimitiveRoot (K.intGen : ZMod K.intModulus) (2 ^ K.twoOrder) :=
    K.order ▸ IsPrimitiveRoot.orderOf _
  have hsq : (K.intGen : ZMod K.intModulus) ^ (m + m) = (K.intGen ^ m) ^ 2 := by
    rw [← pow_mul, Nat.mul_two]
  refine ⟨rfl, ?_, fun i hi => ?_, fun i hi => ?_, fun i hi => ?_, fun i => ?_, fun i => ?_⟩
  · rw [hstep, hhalf]
    exact hgen.pow (Nat.two_pow_pos _) (by rw [hm]; ring)
  · simp only [buildRoots, getD_map_range, if_pos hi, cast_powerTable, cast_fmpzPowmUi, hstep, hhalf, hsq]
  · simp only [buildRoots, getD_map_range, if_pos hi, cast_powerTable, cast_fmpzPowmUi, cast_fmpzInvmod,
      hstep, hhalf, inv_pow, hsq]
  · simp only [buildRoots, getD_map_range, if_pos hi, cast_powerTable, cast_fmpzPowmUi]
  · exact getD_map_range_range hp _ _ i
  · exact getD_map_range_range hp _ _ i

end PrioPlus

import PrioPlus.Constants

/-!
# The root tables over a history of resizes

The tables that `init_roots` leaves depend on the size of the last call only, whatever the calls before it were
(`initRootsAll_eq`). They list the roots of unity in the order of the powers of one primitive root, and every other
entry of `roots2` is an entry of `roots` (`initRoots_holdsRoots`).
-/

namespace PrioPlus

/-- The entries are the `n` roots of unity of that order, as `1, ζ, ζ ^ 2, …`. -/
structure ListsRoots (p : ℕ) (ζ : ZMod p) (n : ℕ) (l : List ℤ) : Prop where
  length_eq : l.length = n
  primitive : IsPrimitiveRoot ζ n
  powers : ∀ i < n, ((l.getD i 0 : ℤ) : ZMod p) = ζ ^ i
  range : ∀ x ∈ l, 0 ≤ x ∧ x < p
  nodup : (l.map fun x : ℤ => (x : ZMod p)).Nodup
  complete : ∀ x : ZMod p, x ^ n = 1 ↔ x ∈ l.map fun y : ℤ => (y : ZMod p)

/-- What holds after `init_roots(N)`. -/
structure RootTables.HoldsRoots (K : Constants) (t : RootTables) (N : ℕ) (ζ : ZMod K.intModulus) : Prop where
  numRoots_eq : t.numRoots = N
  roots : ListsRoots K.intModulus (ζ ^ 2) t.numRoots t.roots
  roots2 : ListsRoots K.intModulus ζ (2 * t.numRoots) t.roots2
  even : ∀ i < N, t.roots2.getD (2 * i) 0 = t.roots.getD i 0
  length_invroots : t.invroots.length = t.numRoots
  inverse : ∀ i < N, t.roots.getD i 0 * t.invroots.getD i 0 ≡ 1 [ZMOD K.intModulus]

/-! ### Rebuilt tables -/

section Build

variable {K : Constants} {N : ℕ}

theorem listsRoots_powerTable {ζ : ZMod K.intModulus} {n : ℕ} (hζ : IsPrimitiveRoot ζ n) (hn : 0 < n) {g : ℤ}
    (hg : (g : ZMod K.intModulus) = ζ) :
    ListsRoots K.intModulus ζ n ((List.range n).map (powerTable K.intModulus g)) := by
  have hcast : ((List.range n).map (powerTable K.intModulus g)).map (fun x : ℤ => (x : ZMod K.intModulus)) =
      (List.range n).map (ζ ^ ·) := by
    rw [List.map_map]
    exact List.map_congr_left fun i _ => by rw [Function.comp_apply, cast_powerTable, hg]
  refine ⟨by simp, hζ, fun i hi => ?_, fun x hx => ?_, ?_, fun x => ?_⟩
  · rw [getD_map_range, if_pos hi, cast_powerTable, hg]
  · obtain ⟨i, -, rfl⟩ := List.mem_map.mp hx
    exact powerTable_range K.prime.one_lt g i
  · rw [hcast, List.nodup_map_iff_inj_on List.nodup_range]
    intro i hi j hj hij
    exact hζ.pow_inj (List.mem_range.mp hi) (List.mem_range.mp hj) hij
  · have : NeZero n := ⟨hn.ne'⟩
    rw [hcast, List.mem_map]
    constructor
    · intro hx
      obtain ⟨i, hi, hpow⟩ := hζ.eq_pow_of_pow_eq_one hx
      exact ⟨i, List.mem_range.mpr hi, hpow⟩
    · rintro ⟨i, -, rfl⟩
      rw [← pow_mul, Nat.mul_comm, pow_mul, hζ.pow_eq_one, one_pow]

theorem stepSize_even (hpos : 0 < N) (hdvd : N + N ∣ 2 ^ K.twoOrder) :
    2 ^ K.twoOrder / N / 2 * 2 = 2 ^ K.twoOrder / N := by
  apply Nat.div_mul_cancel
  obtain ⟨m, hm⟩ := hdvd
  rw [hm, show (N + N) * m = N * (2 * m) by ring, Nat.mul_div_cancel_left _ hpos]
  exact Nat.dvd_mul_right 2 m

theorem buildRoots_holdsRoots (hpos : 0 < N) (hdvd : N + N ∣ 2 ^ K.twoOrder) :
    (buildRoots K N).HoldsRoots K N ((K.intGen : ZMod K.intModulus) ^ (2 ^ K.twoOrder / N / 2)) := by
  have hisFor := buildRoots_isFor K hpos hdvd
  have hprim2 : IsPrimitiveRoot ((K.intGen : ZMod K.intModulus) ^ (2 ^ K.twoOrder / N / 2)) (2 * N) :=
    Nat.two_mul N ▸ hisFor.primitive
  have hprim := hprim2.pow (Nat.mul_pos two_pos hpos) rfl
  have hsq : ((fmpzPowmUi K.intGen (2 ^ K.twoOrder / N) K.intModulus : ℤ) : ZMod K.intModulus) =
      ((K.intGen : ZMod K.intModulus) ^ (2 ^ K.twoOrder / N / 2)) ^ 2 := by
    rw [cast_fmpzPowmUi, ← pow_mul, stepSize_even hpos hdvd]
  refine ⟨rfl, listsRoots_powerTable hprim hpos hsq, ?_, fun i hi => ?_, by simp [buildRoots], fun i hi => ?_⟩
  · exact listsRoots_powerTable hprim2 (Nat.mul_pos two_pos hpos) (cast_fmpzPowmUi _ _)
  · apply eq_of_cast_eq (hisFor.roots2_range _) (hisFor.roots_range _)
    rw [hisFor.roots2_eq _ (by omega), hisFor.roots_eq i hi, pow_mul]
  · have hne : (((K.intGen : ZMod K.intModulus) ^ (2 ^ K.twoOrder / N / 2)) ^ 2) ^ i ≠ 0 :=
      pow_ne_zero _ (hprim.ne_zero hpos.ne')
    rw [← ZMod.intCast_eq_intCast_iff]
    push_cast
    rw [hisFor.roots_eq i hi, hisFor.invroots_eq i hi, inv_pow, mul_inv_cancel₀ hne]

end Build

/-! ### Every history -/

/-- The sizes that `init_roots` may be called with: the powers of two up to `2 ^ (twoOrder - 1)`. -/
def IsRootCount (K : Constants) (N : ℕ) : Prop := ∃ k < K.twoOrder, N = 2 ^ k

theorem IsRootCount.pos {K : Constants} {N : ℕ} (h : IsRootCount K N) : 0 < N := by
  obtain ⟨k, -, rfl⟩ := h
  exact Nat.two_pow_pos k

theorem IsRootCount.dvd {K : Constants} {N : ℕ} (h : IsRootCount K N) : N + N ∣ 2 ^ K.twoOrder := by
  obtain ⟨k, hk, rfl⟩ := h
  rw [← Nat.two_mul, ← pow_succ']
  exact pow_dvd_pow 2 hk

/-- The tables after a sequence of calls. -/
def initRootsAll (K : Constants) (calls : List ℕ) : RootTables := calls.foldl (initRoots K) .unset

theorem initRootsAll_concat (K : Constants) (calls : List ℕ) (N : ℕ) :
    initRootsAll K (calls ++ [N]) = initRoots K (initRootsAll K calls) N := by
  rw [initRootsAll, List.foldl_append]
  rfl

theorem initRootsAll_eq (K : Constants) (calls : List ℕ) :
    initRootsAll K calls = .unset ∨ initRootsAll K calls = buildRoots K (initRootsAll K calls).numRoots := by
  induction calls using List.reverseRecOn with
  | nil => exact Or.inl rfl
  | append_singleton calls N ih =>
    rw [initRootsAll_concat, initRoots]
    split_ifs with hsame
    · exact ih
    · exact Or.inr rfl

/-- After a call with `N`, whatever the calls before it, the tables hold the roots of unity for `N`. -/
theorem initRoots_holdsRoots (K : Constants) (before : List ℕ) (N : ℕ) (hcalls : ∀ M ∈ before ++ [N], IsRootCount K M) :
    ∃ ζ, (initRootsAll K (before ++ [N])).HoldsRoots K N ζ := by
  have hN := hcalls N (List.mem_append_right _ List.mem_cons_self)
  rw [initRootsAll_concat, initRoots_eq_buildRoots (initRootsAll_eq K before) hN.pos]
  exact ⟨_, buildRoots_holdsRoots hN.pos hN.dvd⟩

theorem initRoots_holdsRoots_shrink :
    ∃ ζ, (initRootsAll shipped ([8, 8, 16] ++ [4])).HoldsRoots shipped 4 ζ := by
  refine initRoots_holdsRoots shipped [8, 8, 16] 4 fun M hM => ?_
  simp only [List.cons_append, List.nil_append, List.mem_cons, List.not_mem_nil, or_false] at hM
  rcases hM with rfl | rfl | rfl | rfl
  · exact ⟨3, by decide, rfl⟩
  · exact ⟨3, by decide, rfl⟩
  · exact ⟨4, by decide, rfl⟩
  · exact ⟨2, by decide, rfl⟩

end PrioPlus

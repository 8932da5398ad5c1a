import PrioPlus.Server.Sketch

/-!
# Tables of honest clients

A `TableClient` says what each client sends to the two servers under its key. For clients with distinct keys, the
table that server 0 combines holds at each position the number of clients with a one there (`sketchTable_honest`),
and the batch check passes when every client has exactly one one in the last row (`sketchVerdict_honest`).
-/

namespace PrioPlus

open Finset Lib.TwoParty Lib.FirstWins

/-- The two submissions of a client carry its key. -/
structure TableClient (C : Type) (size : ℕ) where
  pk : C → Pk
  share0 : C → FreqShare size
  share1 : C → FreqShare size
  pk_share0 : ∀ c, (share0 c).pk = pk c
  pk_share1 : ∀ c, (share1 c).pk = pk c

namespace TableClient

variable {C : Type} {size : ℕ} (tc : TableClient C size) (clients : List C)

/-- A bit of the xor of the two shares of a client. -/
def bit (c : C) (p : ℕ) : Bool := (tc.share0 c).arr.toList.getD p false ^^ (tc.share1 c).arr.toList.getD p false

/-- The number of clients with a one at a position. -/
def total (p : ℕ) : ℕ := (clients.map fun c => (tc.bit c p).toNat).sum

theorem pks_share0 : (clients.map tc.share0).map FreqShare.pk = clients.map tc.pk := by
  rw [List.map_map]
  exact List.map_congr_left fun c _ => tc.pk_share0 c

theorem pks_share1 : (clients.map tc.share1).map FreqShare.pk = clients.map tc.pk := by
  rw [List.map_map]
  exact List.map_congr_left fun c _ => tc.pk_share1 c

theorem total_le (p : ℕ) : tc.total clients p ≤ clients.length := by
  have hsum := List.sum_le_card_nsmul (clients.map fun c => (tc.bit c p).toNat) 1 (by
    simp only [List.mem_map]
    rintro _ ⟨c, -, rfl⟩
    exact Bool.toNat_le _)
  simpa [total] using hsum

section Distinct

variable {clients} (hdistinct : (clients.map tc.pk).Nodup)
include hdistinct

theorem diffBit_honest {c : C} (hc : c ∈ clients) (p : ℕ) :
    diffBit (clients.map tc.share0) (clients.map tc.share1) (tc.pk c) p = tc.bit c p := by
  have hnodup0 : ((clients.map tc.share0).map FreqShare.pk).Nodup := by rwa [pks_share0]
  have hnodup1 : ((clients.map tc.share1).map FreqShare.pk).Nodup := by rwa [pks_share1]
  have harr0 := firstArr_of_mem hnodup0 (List.mem_map_of_mem (f := tc.share0) hc)
  have harr1 := firstArr_of_mem hnodup1 (List.mem_map_of_mem (f := tc.share1) hc)
  rw [tc.pk_share0] at harr0
  rw [tc.pk_share1] at harr1
  rw [diffBit, harr0, harr1, bit]

theorem sum_freqPks_honest {N : Type*} [AddCommMonoid N] (f : Pk → N) :
    ∑ pk ∈ freqPks (clients.map tc.share1), f pk = (clients.map fun c => f (tc.pk c)).sum := by
  rw [freqPks, pks_share1, List.sum_toFinset _ hdistinct, List.map_map]
  rfl

theorem card_freqPks_honest : (freqPks (clients.map tc.share1)).card = clients.length := by
  rw [freqPks, pks_share1, List.toFinset_card_of_nodup hdistinct, List.length_map]

theorem length_alignedPks_honest (it : Iteration (Vector Bool size)) :
    (alignedPks it (clients.map tc.share1)).length = clients.length := by
  rw [length_alignedPks_eq_card, tc.card_freqPks_honest hdistinct]

theorem totalOnes_honest {row : ℕ × ℕ}
    (hone : ∀ c ∈ clients, ∃ x < row.2, ∀ y < row.2, (tc.bit c (row.1 + y) = true ↔ y = x)) :
    totalOnes (clients.map tc.share0) (clients.map tc.share1) row = clients.length := by
  have hones : ∀ c ∈ clients, ones (clients.map tc.share0) (clients.map tc.share1) (tc.pk c) row.1 row.2 = 1 := by
    intro c hc
    obtain ⟨x, hx, hbit⟩ := hone c hc
    refine card_eq_one.mpr ⟨x, ?_⟩
    ext y
    rw [mem_filter, mem_range, mem_singleton, tc.diffBit_honest hdistinct hc]
    constructor
    · rintro ⟨hy, hy'⟩
      exact (hbit y hy).mp hy'
    · rintro rfl
      exact ⟨hx, (hbit y hx).mpr rfl⟩
  rw [totalOnes, tc.sum_freqPks_honest hdistinct, List.map_congr_left hones, List.map_const', List.sum_replicate,
    smul_eq_mul, mul_one]

variable {d0 d1 : ℕ → DaBit} (hcorr : CorrelatedDaBits d0 d1) (hlen : clients.length < 2 ^ 32)
include hcorr hlen

theorem sketchVerdict_honest {rows : List (ℕ × ℕ)} {verdict : List Bool → List Bool → List ℤ → List ℤ → Bool}
    (hverdict : verdict = allValidLoops rows.length clients.length) {row : ℕ × ℕ} (hlast : rows.getLast? = some row)
    (hrow : row.1 + row.2 ≤ size)
    (hone : ∀ c ∈ clients, ∃ x < row.2, ∀ y < row.2, (tc.bit c (row.1 + y) = true ↔ y = x))
    (it : Iteration (Vector Bool size)) :
    sketchVerdict rows verdict it d0 d1 (clients.map tc.share0) (clients.map tc.share1) = true := by
  have htotal : clients.length < intModulus := hlen.trans (by decide)
  refine (sketchVerdict_iff it _ _ hcorr htotal hverdict ?_).mpr ⟨row, hlast, ?_⟩
  · intro _ row' hrow'
    rw [hlast, Option.mem_some_iff] at hrow'
    exact hrow' ▸ hrow
  · rw [RowBalanced, tc.totalOnes_honest hdistinct hone]
    exact ⟨Nat.ModEq.refl _, Nat.ModEq.refl _⟩

theorem getD_sumAccumulates_honest (it : Iteration (Vector Bool size)) {p : ℕ} (hp : p < size) :
    let s0 := clients.map tc.share0
    let s1 := clients.map tc.share1
    let pks := alignedPks it s1
    (sumAccumulates size
      (accumulate pks.length size (convertedShares 0 d0 d1 pks s0 s1) (List.replicate pks.length true)).1
      (accumulate pks.length size (convertedShares 1 d1 d0 pks s1 s0) (List.replicate pks.length true)).1).getD p 0 =
      tc.total clients p := by
  intro s0 s1 pks
  have hmod : (clients.length : ℤ) < intModulus := by
    have hword : (2 : ℕ) ^ 32 < intModulus := by decide
    exact_mod_cast hlen.trans hword
  refine eq_of_cast_eq (sumAccumulates_range hp _ _) ⟨Int.natCast_nonneg _, ?_⟩ ?_
  · exact lt_of_le_of_lt (by exact_mod_cast tc.total_le clients p) hmod
  · rw [getD_sumAccumulates_accumulate _ hp, filter_replicate_true, sum_alignedPks it s1
      (f := fun pk => ((diffBit s0 s1 pk p).toNat : ZMod intModulus))
      fun i hi => convertedShares_add s0 s1 hcorr hi hp, tc.sum_freqPks_honest hdistinct
      fun pk => ((diffBit s0 s1 pk p).toNat : ZMod intModulus), total, Int.cast_natCast, Nat.cast_list_sum,
      List.map_map]
    refine congrArg List.sum (List.map_congr_left fun c hc => ?_)
    rw [tc.diffBit_honest hdistinct hc]
    rfl

theorem sketchTable_honest {rows : List (ℕ × ℕ)} {verdict : List Bool → List Bool → List ℤ → List ℤ → Bool}
    (hverdict : verdict = allValidLoops rows.length clients.length) {row : ℕ × ℕ} (hlast : rows.getLast? = some row)
    (hrow : row.1 + row.2 ≤ size)
    (hone : ∀ c ∈ clients, ∃ x < row.2, ∀ y < row.2, (tc.bit c (row.1 + y) = true ↔ y = x))
    (it : Iteration (Vector Bool size)) :
    ∃ a, (sketchTable rows verdict it d0 d1 clients.length (clients.map tc.share0) (clients.map tc.share1)).2 = some a ∧
      ∀ p < size, a.getD p 0 = tc.total clients p := by
  have hpks := tc.length_alignedPks_honest hdistinct it
  have hvalid := tc.sketchVerdict_honest hdistinct hcorr hlen hverdict hlast hrow hone it
  have htable (p : ℕ) (hp : p < size) := tc.getD_sumAccumulates_honest hdistinct hcorr hlen it hp
  rw [sketchTable, sketchValid, hvalid, accumulatedOutcome_replicate (by omega)]
  exact ⟨_, rfl, htable⟩

omit hcorr hlen in
theorem sketchOp_honest (rows : List (ℕ × ℕ)) (verdict : List Bool → List Bool → List ℤ → List ℤ → Bool)
    (query : ℕ → List ℤ → List UInt64) (it0 it1 : Iteration (Vector Bool size)) {a : List ℤ}
    (htable : (sketchTable rows verdict it1 d0 d1 clients.length (clients.map tc.share0)
      (clients.map tc.share1)).2 = some a) (hfits : CountersFit rows (clients.map tc.share1)) :
    ∃ r0 r1,
      Terminates (sketchOp rows verdict query it0 d0 clients.length 0 (clients.map tc.share0))
        (sketchOp rows verdict query it1 d1 clients.length 1 (clients.map tc.share1)) r0 r1 ∧
      r0.ans = some (query clients.length a) := by
  refine ⟨_, _, sketchOp_terminates _ _ it0 it1 d0 d1 _ _ hfits, ?_⟩
  rw [sketchOutcome0, htable, Option.map_some, tc.length_alignedPks_honest hdistinct it1]

end Distinct

end TableClient

end PrioPlus

import PrioPlus.Correlated.Store

/-!
# The two stores stay aligned

`CorrelatedStore.Aligned` holds of the empty stores and every operation keeps it: one lemma an operation, each a
`Lockstep` that also says what the results have to do with each other. `stores_synced` puts them together for every
sequence of operations.
-/

namespace PrioPlus

open Lib Lib.TwoParty Lib.FlatLoop

/-- The stores of server 0 and server 1 hold halves of the same entries, in the queues and among those used. -/
structure CorrelatedStore.Aligned (batchSize : ℕ) (s0 s1 : CorrelatedStore) : Prop where
  serverNum0 : s0.serverNum = 0
  serverNum1 : s1.serverNum = 1
  batchSize0 : s0.batchSize = batchSize
  batchSize1 : s1.batchSize = batchSize
  lazy_eq : s0.lazy = s1.lazy
  batches_eq : s0.batches = s1.batches
  dabits : Pool.Aligned DaBit.Correlated s0.dabitStore s1.dabitStore
  triples : Pool.Aligned BooleanBeaverTriple.Correlated s0.btripleStore s1.btripleStore

namespace CorrelatedStore

open Session

variable {batchSize : ℕ} {s0 s1 : CorrelatedStore}

theorem aligned_new (batchSize : ℕ) (lazy : Bool) : Aligned batchSize (new batchSize 0 lazy) (new batchSize 1 lazy) :=
  ⟨rfl, rfl, rfl, rfl, rfl, rfl, Pool.aligned_empty, Pool.aligned_empty⟩

theorem Aligned.pushDaBits (h : Aligned batchSize s0 s1) {xs ys : List DaBit}
    (hxy : List.Forall₂ DaBit.Correlated xs ys) : Aligned batchSize (s0.pushDaBits xs) (s1.pushDaBits ys) :=
  { h with
    batches_eq := congrArg (· + 1) h.batches_eq
    dabits := h.dabits.push hxy }

theorem Aligned.pushTriples (h : Aligned batchSize s0 s1) {xs ys : List BooleanBeaverTriple}
    (hxy : List.Forall₂ BooleanBeaverTriple.Correlated xs ys) :
    Aligned batchSize (s0.pushTriples xs) (s1.pushTriples ys) :=
  { h with
    batches_eq := congrArg (· + 1) h.batches_eq
    triples := h.triples.push hxy }

/-! ### The operations -/

section Operations

variable (gen : Generation) {fault : StoreFault → Prop} {P : CorrelatedStore → CorrelatedStore → Prop}

theorem inRange_lockstep {p : Prop} [Decidable p] (hfault : ¬ p → fault .counter) :
    Lockstep (Aligned batchSize) fault P (inRange p) (inRange p) fun _ _ s s' => p ∧ P s s' := by
  unfold inRange
  by_cases hp : p
  · rw [if_pos hp]
    exact Lockstep.pure fun _ _ hP => ⟨hp, hP⟩
  · rw [if_neg hp]
    exact Lockstep.fail (hfault hp)

theorem reaches_daBits01 {n : ℕ} (xs : List DaBit) (hlen : xs.length = n) :
    Reaches (.start (sendMsg (.daBitBatch xs)) (recvDaBitBatch n)) (.done () xs) :=
  reaches_recvAs01 (if_pos hlen)

theorem pushBatch_lockstep {n : ℕ} (b : Batch DaBit.Correlated n) (haligned : Aligned batchSize s0 s1) :
    Lockstep (M := Msg) (Aligned batchSize) fault P (record (s0.pushDaBits (b.half 0)))
      (record (s1.pushDaBits (b.half 1))) fun _ _ s _ => s.dabitStore.size = s0.dabitStore.size + n := by
  refine Lockstep.record (fun s _ => s.dabitStore.size = s0.dabitStore.size + n)
    (haligned.pushDaBits b.forall₂_half) ?_
  rw [CorrelatedStore.pushDaBits, Pool.size_push, Batch.length_half]

theorem addDaBits_lockstep {k n : ℕ} (hfault : 2 ^ 32 ≤ n → fault .counter) :
    Lockstep (Aligned batchSize) fault (fun s _ => s.dabitStore.size = k) (addDaBits gen n) (addDaBits gen n)
      fun _ _ s _ => s.dabitStore.size = k + n := by
  refine Lockstep.bind (inRange_lockstep fun hn => hfault (by omega)) fun _ _ => ?_
  refine Lockstep.current fun s0 s1 haligned hsize => ?_
  obtain ⟨-, rfl⟩ := hsize
  rw [haligned.serverNum0, haligned.serverNum1, haligned.lazy_eq, haligned.batches_eq]
  by_cases hlazy : s1.lazy = false
  · rw [if_pos hlazy, if_pos hlazy]
    exact pushBatch_lockstep _ haligned
  · rw [if_neg hlazy, if_neg hlazy, if_pos rfl, if_neg one_ne_zero]
    refine Lockstep.bind (Lockstep.link (reaches_daBits01 _ (Batch.length_half _ 1))) fun _ dabit => ?_
    rintro r r' halong ⟨-, rfl, -⟩
    exact pushBatch_lockstep (P := anyStates) _ haligned r r' halong trivial

theorem addBoolTriples_lockstep {k n : ℕ} (hfault : 2 ^ 32 ≤ max n batchSize → fault .counter) :
    Lockstep (Aligned batchSize) fault (fun s _ => s.btripleStore.size = k) (addBoolTriples gen n)
      (addBoolTriples gen n) fun _ _ s _ => k + n ≤ s.btripleStore.size := by
  refine Lockstep.current fun s0 s1 haligned hk => ?_
  rw [haligned.serverNum0, haligned.serverNum1, haligned.batches_eq, haligned.batchSize0, haligned.batchSize1]
  have hmax : (if n > batchSize then n else batchSize) = max n batchSize := by
    split_ifs <;> omega
  rw [hmax]
  refine Lockstep.bind (Lockstep.record (fun s _ => s.btripleStore.size = k + max n batchSize % 2 ^ 32)
    (haligned.pushTriples (Batch.forall₂_half _)) ?_) fun _ _ => ?_
  · rw [CorrelatedStore.pushTriples, Pool.size_push, hk, Batch.length_half]
  · refine (inRange_lockstep fun hn => hfault (by omega)).mono (fun _ _ _ h => h) ?_
    rintro - - s s' - ⟨hlt, hsize⟩
    rw [Nat.mod_eq_of_lt hlt] at hsize
    omega

theorem refill_lockstep {size : CorrelatedStore → ℕ} {n : ℕ} (add : ℕ → StoreM Unit)
    (hsize : ∀ {s0 s1 : CorrelatedStore}, Aligned batchSize s0 s1 → size s0 = size s1)
    (hadd : ∀ k, k < n → Lockstep (Aligned batchSize) fault (fun s _ => size s = k) (add k) (add k)
      fun _ _ s _ => n ≤ size s) :
    Lockstep (Aligned batchSize) fault P (current >>= fun s => if size s < n then add (size s) else pure ())
      (current >>= fun s => if size s < n then add (size s) else pure ()) fun _ _ s _ => n ≤ size s := by
  refine Lockstep.current fun s0 s1 haligned _ => ?_
  rw [← hsize haligned]
  by_cases hlt : size s0 < n
  · rw [if_pos hlt]
    refine (hadd (size s0) hlt).mono ?_ fun _ _ _ _ _ h => h
    rintro s s' - ⟨rfl, -⟩
    rfl
  · rw [if_neg hlt]
    apply Lockstep.pure
    rintro s s' ⟨rfl, -⟩
    exact Nat.not_lt.mp hlt

theorem checkDaBits_lockstep {n : ℕ} (hfault : 2 ^ 32 ≤ n → fault .counter) :
    Lockstep (Aligned batchSize) fault P (checkDaBits gen n) (checkDaBits gen n)
      fun _ _ s _ => n ≤ s.dabitStore.size := by
  refine refill_lockstep (fun k => addDaBits gen (n - k)) (fun h => h.dabits.size_eq) fun k hk => ?_
  refine (addDaBits_lockstep gen fun hn => hfault (by omega)).mono (fun _ _ _ h => h) ?_
  intro _ _ s _ _ hsize
  omega

theorem checkBoolTriples_lockstep {n : ℕ} (hfault : 2 ^ 32 ≤ max n batchSize → fault .counter) :
    Lockstep (Aligned batchSize) fault P (checkBoolTriples gen n) (checkBoolTriples gen n)
      fun _ _ s _ => n ≤ s.btripleStore.size := by
  refine refill_lockstep (fun k => addBoolTriples gen (n - k)) (fun h => h.triples.size_eq) fun k hk => ?_
  refine (addBoolTriples_lockstep gen fun hn => hfault (by omega)).mono (fun _ _ _ h => h) ?_
  intro _ _ s _ _ hsize
  omega

theorem pop_lockstep {α : Type} {R : α → α → Prop} {pool : CorrelatedStore → Pool α}
    (put : CorrelatedStore → Pool α → CorrelatedStore)
    (hpool : ∀ {s0 s1 : CorrelatedStore}, Aligned batchSize s0 s1 → Pool.Aligned R (pool s0) (pool s1))
    (hput : ∀ {s0 s1 : CorrelatedStore} {p q : Pool α}, Aligned batchSize s0 s1 → Pool.Aligned R p q →
      Aligned batchSize (put s0 p) (put s1 q))
    {get : CorrelatedStore → StoreM α}
    (hget : ∀ s a p, (pool s).pop = some (a, p) → get s = record (put s p) >>= fun _ => pure a.2) :
    Lockstep (Aligned batchSize) fault (fun s _ => 0 < (pool s).size) (current >>= get) (current >>= get)
      fun a b _ _ => R a b := by
  refine Lockstep.current fun s0 s1 haligned hsize => ?_
  rcases (hpool haligned).pop with ⟨hzero, -, -⟩ | ⟨a, b, p, q, hp, hq, hab, hpq, -⟩
  · omega
  · rw [hget s0 a p hp, hget s1 b q hq]
    refine Lockstep.bind (Lockstep.record anyStates (hput haligned hpq) trivial) fun _ _ => ?_
    exact Lockstep.pure fun _ _ _ => hab.2

/-- The check before it keeps the pop from an empty queue. -/
theorem getDaBit_lockstep :
    Lockstep (Aligned batchSize) fault anyStates (getDaBit gen) (getDaBit gen)
      fun d0 d1 _ _ => DaBit.Correlated d0 d1 := by
  refine Lockstep.bind (checkDaBits_lockstep gen fun h => absurd h (by norm_num)) fun _ _ => ?_
  apply pop_lockstep (fun s p => { s with dabitStore := p }) fun h => h.dabits
  · intro s0 s1 p q haligned hpq
    exact { haligned with dabits := hpq }
  · intro s a p hp
    simp only [hp]

theorem getBoolTriple_lockstep (hfault : 2 ^ 32 ≤ batchSize → fault .counter) :
    Lockstep (Aligned batchSize) fault anyStates (getBoolTriple gen) (getBoolTriple gen)
      fun t0 t1 _ _ => BooleanBeaverTriple.Correlated t0 t1 := by
  refine Lockstep.bind (checkBoolTriples_lockstep gen fun h => hfault (by omega)) fun _ _ => ?_
  apply pop_lockstep (fun s p => { s with btripleStore := p }) fun h => h.triples
  · intro s0 s1 p q haligned hpq
    exact { haligned with triples := hpq }
  · intro s a p hp
    simp only [hp]

theorem takeMany_lockstep {α : Type} {R : α → α → Prop} {get : StoreM α} {n : ℕ}
    (hget : Lockstep (Aligned batchSize) fault anyStates get get fun a b _ _ => R a b)
    (hfault : 2 ^ 32 ≤ n → fault .counter) :
    Lockstep (Aligned batchSize) fault anyStates (takeMany get n) (takeMany get n)
      fun xs ys _ _ => List.Forall₂ R xs ys := by
  refine Lockstep.countTo (J := fun _ => List.Forall₂ R) hfault (fun i _ xs ys hxy => ?_) List.Forall₂.nil
  refine Lockstep.bind hget fun a b => Lockstep.pure fun _ _ hab => ?_
  exact List.rel_append hxy (List.Forall₂.cons hab List.Forall₂.nil)

theorem forall₂_getD {α : Type} {R : α → α → Prop} {xs ys : List α} (h : List.Forall₂ R xs ys) {d : α} (hd : R d d)
    (i : ℕ) : R (xs.getD i d) (ys.getD i d) := by
  induction h generalizing i with
  | nil => simpa using hd
  | cons hab _ ih =>
    cases i with
    | zero => exact hab
    | succ i => exact ih i

theorem maybeUpdate_lockstep (hfault : 2 ^ 32 ≤ 2 * batchSize → fault .counter) :
    Lockstep (Aligned batchSize) fault anyStates (maybeUpdate gen) (maybeUpdate gen) fun _ _ => anyStates := by
  refine Lockstep.current fun s0 s1 haligned _ => ?_
  simp only [Nat.zero_mul, Nat.zero_mod, Nat.not_lt_zero, if_false]
  refine Lockstep.current fun t0 t1 haligned' _ => ?_
  rw [← haligned.dabits.size_eq, ← haligned'.dabits.size_eq, haligned.batchSize0, haligned.batchSize1,
    haligned'.batchSize0, haligned'.batchSize1]
  generalize hn : 2 * (if s0.dabitStore.size < batchSize / 2 then 1 else 0) * batchSize % 2 ^ 64 = n
  have hle : n ≤ 2 * batchSize := by
    rw [← hn]
    refine (Nat.mod_le _ _).trans (Nat.mul_le_mul_right _ ?_)
    split_ifs <;> omega
  by_cases hlt : t0.dabitStore.size < n
  · rw [if_pos hlt]
    refine (addDaBits_lockstep gen (k := t0.dabitStore.size) fun h => hfault (by omega)).mono ?_ ?_
    · rintro s s' - ⟨rfl, -⟩
      rfl
    · intros
      trivial
  · rw [if_neg hlt]
    exact Lockstep.pure fun _ _ _ => trivial

/-! ### Conversions and products -/

theorem b2aDaBitSingle_lockstep {x0 x1 : List Bool} (hlen : x0.length = x1.length)
    (hfault : 2 ^ 32 ≤ x0.length → fault .counter) :
    Lockstep (Aligned batchSize) fault P (b2aDaBitSingle gen x0) (b2aDaBitSingle gen x1)
      fun out0 out1 _ _ => ∀ i < x0.length,
        out0.getD i 0 + out1.getD i 0 ≡ (x0.getD i false ^^ x1.getD i false).toNat [ZMOD intModulus] := by
  unfold b2aDaBitSingle
  rw [← hlen]
  refine Lockstep.bind (checkDaBits_lockstep gen hfault) fun _ _ => ?_
  refine Lockstep.bind ((takeMany_lockstep (getDaBit_lockstep gen) hfault).mono (fun _ _ _ _ => trivial)
    fun _ _ _ _ _ h => h) fun ds0 ds1 => ?_
  refine Lockstep.current fun s0 s1 haligned hds => ?_
  have hcorr : CorrelatedDaBits (fun i => ds0.getD i ⟨0, false⟩) (fun i => ds1.getD i ⟨0, false⟩) :=
    forall₂_getD hds (Int.ModEq.refl _)
  rw [haligned.serverNum0, haligned.serverNum1]
  refine (Lockstep.link (openDaBits_reaches _ _ hlen)).mono (fun _ _ _ h => h) ?_
  rintro _ _ s s' - ⟨rfl, rfl, -⟩ i hi
  exact daBitShares_add hcorr hlen hi

theorem b2aDaBitMulti_lockstep (n : ℕ) (numBits : ℕ → ℕ) (x0 x1 : ℕ → ℤ)
    (hfault : 2 ^ 32 ≤ n ∨ 2 ^ 32 ≤ offset numBits n → fault .counter) :
    Lockstep (Aligned batchSize) fault P (b2aDaBitMulti gen n numBits x0) (b2aDaBitMulti gen n numBits x1)
      fun _ _ => anyStates := by
  have htotal (x : ℕ → ℤ) : (valueBits n numBits fun i j => (x i).testBit j).length = offset numBits n :=
    length_valueBits n numBits _
  refine Lockstep.bind (inRange_lockstep fun hn => hfault (Or.inl (by omega))) fun _ _ => ?_
  refine Lockstep.bind (checkDaBits_lockstep gen fun hn => hfault (Or.inr ?_)) fun _ _ => ?_
  · exact hn.trans (Nat.mod_le _ _)
  refine Lockstep.bind (inRange_lockstep fun hn => hfault (Or.inr ?_)) fun _ _ => ?_
  · push Not at hn
    obtain ⟨i, hi, hbig⟩ := hn
    have hmono := offset_mono numBits (Nat.succ_le_of_lt hi)
    rw [offset_succ] at hmono
    omega
  refine Lockstep.bind (b2aDaBitSingle_lockstep gen ?_ fun hn => hfault (Or.inr ?_)) fun _ _ => ?_
  · rw [htotal, htotal]
  · rwa [htotal] at hn
  · exact Lockstep.pure fun _ _ _ => trivial

theorem openFactors_reaches (n : ℕ) (t0 t1 : ℕ → BooleanBeaverTriple) (x0 y0 x1 y1 : ℕ → Bool) :
    Reaches (.start (openFactors 0 n t0 x0 y0) (openFactors 1 n t1 x1 y1))
      (.done
        (productShares 0 n t0 x0 y0 (maskedFactors n (fun i => (t1 i).a) x1) (maskedFactors n (fun i => (t1 i).b) y1))
        (productShares 1 n t1 x1 y1 (maskedFactors n (fun i => (t0 i).a) x0)
          (maskedFactors n (fun i => (t0 i).b) y0))) := by
  have hlen : ∀ mask x, (maskedFactors n mask x).length = n := by
    intro mask x
    rw [maskedFactors, List.length_map, List.length_range]
  exact reaches_exchange_two (if_pos (hlen _ _)) (if_pos (hlen _ _)) (if_pos (hlen _ _)) (if_pos (hlen _ _))

/-- The opened factors hide the shares, and the triple gives the rest of the product. -/
theorem product_bit (a0 b0 c0 a1 b1 c1 x0 y0 x1 y1 : Bool) (hc : (c0 ^^ c1) = ((a0 ^^ a1) && (b0 ^^ b1))) :
    let d := x0 ^^ a0 ^^ (x1 ^^ a1)
    let e := y0 ^^ b0 ^^ (y1 ^^ b1)
    let d' := x1 ^^ a1 ^^ (x0 ^^ a0)
    let e' := y1 ^^ b1 ^^ (y0 ^^ b0)
    ((c0 ^^ ((x0 && e) ^^ (y0 && d)) ^^ (d && e)) ^^ (c1 ^^ ((x1 && e') ^^ (y1 && d')))) =
      ((x0 ^^ x1) && (y0 ^^ y1)) := by
  obtain rfl : c1 = (c0 ^^ ((a0 ^^ a1) && (b0 ^^ b1))) := by
    rw [← hc, ← Bool.xor_assoc, Bool.xor_self, Bool.false_xor]
  revert a0 b0 c0 a1 b1 x0 y0 x1 y1
  decide

theorem multiplyBoolShares_lockstep (n : ℕ) (x0 y0 x1 y1 : ℕ → Bool)
    (hfault : 2 ^ 32 ≤ max n batchSize → fault .counter) :
    Lockstep (Aligned batchSize) fault P (multiplyBoolShares gen n x0 y0) (multiplyBoolShares gen n x1 y1)
      fun z0 z1 _ _ => ∀ i < n, (z0.getD i false ^^ z1.getD i false) = ((x0 i ^^ x1 i) && (y0 i ^^ y1 i)) := by
  refine Lockstep.bind (checkBoolTriples_lockstep gen hfault) fun _ _ => ?_
  refine Lockstep.bind ((takeMany_lockstep (getBoolTriple_lockstep gen fun h => hfault (by omega))
    fun h => hfault (by omega)).mono (fun _ _ _ _ => trivial) fun _ _ _ _ _ h => h) fun ts0 ts1 => ?_
  refine Lockstep.current fun s0 s1 haligned hts => ?_
  rw [haligned.serverNum0, haligned.serverNum1]
  refine (Lockstep.link (openFactors_reaches n _ _ x0 y0 x1 y1)).mono (fun _ _ _ h => h) ?_
  rintro _ _ s s' - ⟨rfl, rfl, -⟩ i hi
  have hcorr := forall₂_getD hts (d := ⟨false, false, false⟩) rfl i
  simp only [productShares, maskedFactors, getD_map_range, if_pos hi]
  have hbit := product_bit _ _ _ _ _ _ (x0 i) (y0 i) (x1 i) (y1 i) hcorr
  simpa using hbit

theorem maxBits_le (n : ℕ) (numBits : ℕ → ℕ) : maxBits n numBits ≤ offset numBits n := by
  induction n with
  | zero => exact le_rfl
  | succ n ih =>
    rw [maxBits, List.range_succ, List.foldl_concat, offset_succ]
    change (if numBits n > maxBits n numBits then numBits n else maxBits n numBits) ≤ _
    split_ifs <;> omega

theorem length_active_le (n : ℕ) (numBits : ℕ → ℕ) (j : ℕ) : (active n numBits j).length ≤ n := by
  have hlen := List.length_filter_le (fun i => decide (j < numBits i)) (List.range n)
  rwa [List.length_range] at hlen

/-- The factors of level `j`, from one of the two numbers, without the numbers that have no bit `j`. -/
def levelFactors (n : ℕ) (numBits : ℕ → ℕ) (x : ℕ → ℕ → Bool) (j : ℕ) (carry : ℕ → Bool) (k : ℕ) : Bool :=
  carry ((active n numBits j).getD k 0) ^^ x ((active n numBits j).getD k 0) j

/-- The carries and the sums after level `j`, from the products. -/
def nextLevel (n : ℕ) (numBits : ℕ → ℕ) (x y : ℕ → ℕ → Bool) (j : ℕ) (c : (ℕ → Bool) × (ℕ → ℕ → Bool))
    (newCarry : List Bool) : (ℕ → Bool) × (ℕ → ℕ → Bool) :=
  let idx := active n numBits j
  (fun i => if i ∈ idx then c.1 i ^^ newCarry.getD (idx.idxOf i) false else c.1 i,
    fun i k => if k = j ∧ i ∈ idx then c.1 i ^^ x i j ^^ y i j else c.2 i k)

/-- An invariant of the levels holds at the end. Each level multiplies at most `n` bits. -/
theorem addBinaryShares_levels (n : ℕ) (numBits : ℕ → ℕ) (x0 y0 x1 y1 : ℕ → ℕ → Bool)
    {J : ℕ → (ℕ → Bool) × (ℕ → ℕ → Bool) → (ℕ → Bool) × (ℕ → ℕ → Bool) → Prop}
    (hlevel : ∀ j c0 c1 z0 z1, J j c0 c1 →
      (∀ k < (active n numBits j).length, (z0.getD k false ^^ z1.getD k false) =
        ((levelFactors n numBits x0 j c0.1 k ^^ levelFactors n numBits x1 j c1.1 k) &&
          (levelFactors n numBits y0 j c0.1 k ^^ levelFactors n numBits y1 j c1.1 k))) →
      J (j + 1) (nextLevel n numBits x0 y0 j c0 z0) (nextLevel n numBits x1 y1 j c1 z1))
    (hstart : J 0 (fun _ => false, fun _ _ => false) (fun _ => false, fun _ _ => false))
    (hfault : 2 ^ 32 ≤ max n batchSize ∨ 2 ^ 32 ≤ offset numBits n → fault .counter) :
    Lockstep (Aligned batchSize) fault P (addBinaryShares gen n numBits x0 y0) (addBinaryShares gen n numBits x1 y1)
      fun c0 c1 _ _ => J (maxBits n numBits) c0 c1 := by
  refine Lockstep.bind (inRange_lockstep fun hn => hfault (Or.inl (by omega))) fun _ _ => ?_
  refine Lockstep.bind (checkBoolTriples_lockstep gen fun hn => hfault ?_) fun _ _ => ?_
  · have hmod := Nat.mod_le (offset numBits n) (2 ^ 64)
    omega
  refine Lockstep.mono (Lockstep.countTo (J := J) (fun hn => hfault (Or.inr ?_)) ?_ hstart)
    (fun _ _ _ _ => trivial) fun _ _ _ _ _ hJ => hJ
  · exact hn.trans (maxBits_le n numBits)
  · intro j _ c0 c1 hJ
    refine Lockstep.bind (multiplyBoolShares_lockstep gen _ _ _ _ _ fun hn => hfault (Or.inl ?_)) fun z0 z1 => ?_
    · have hlen := length_active_le n numBits j
      omega
    · exact Lockstep.pure fun _ _ hproducts => hlevel j c0 c1 z0 z1 hJ hproducts

theorem addBinaryShares_lockstep (n : ℕ) (numBits : ℕ → ℕ) (x0 y0 x1 y1 : ℕ → ℕ → Bool)
    (hfault : 2 ^ 32 ≤ max n batchSize ∨ 2 ^ 32 ≤ offset numBits n → fault .counter) :
    Lockstep (Aligned batchSize) fault P (addBinaryShares gen n numBits x0 y0) (addBinaryShares gen n numBits x1 y1)
      fun _ _ => anyStates :=
  (addBinaryShares_levels gen n numBits x0 y0 x1 y1 (J := fun _ _ _ => True) (fun _ _ _ _ _ _ _ => trivial) trivial
    hfault).mono (fun _ _ _ hP => hP) fun _ _ _ _ _ _ => trivial

end Operations

end CorrelatedStore

/-! ### Sequences of operations -/

/-- An operation on the store, with the sizes and the shares that a server calls it with. -/
inductive StoreOp where
  | checkDaBits (n : ℕ)
  | getDaBit
  | b2aDaBitSingle (x : List Bool)
  | b2aDaBitMulti (n : ℕ) (numBits : ℕ → ℕ) (x : ℕ → ℤ)
  | checkBoolTriples (n : ℕ)
  | getBoolTriple
  | multiplyBoolShares (n : ℕ) (x y : ℕ → Bool)
  | addBinaryShares (n : ℕ) (numBits : ℕ → ℕ) (x y : ℕ → ℕ → Bool)
  | maybeUpdate

namespace StoreOp

/-- The calls of the two servers differ in the shares only. -/
inductive SameSizes : StoreOp → StoreOp → Prop where
  | checkDaBits (n : ℕ) : SameSizes (.checkDaBits n) (.checkDaBits n)
  | getDaBit : SameSizes .getDaBit .getDaBit
  | b2aDaBitSingle (x0 x1 : List Bool) (hlen : x0.length = x1.length) :
      SameSizes (.b2aDaBitSingle x0) (.b2aDaBitSingle x1)
  | b2aDaBitMulti (n : ℕ) (numBits : ℕ → ℕ) (x0 x1 : ℕ → ℤ) :
      SameSizes (.b2aDaBitMulti n numBits x0) (.b2aDaBitMulti n numBits x1)
  | checkBoolTriples (n : ℕ) : SameSizes (.checkBoolTriples n) (.checkBoolTriples n)
  | getBoolTriple : SameSizes .getBoolTriple .getBoolTriple
  | multiplyBoolShares (n : ℕ) (x0 y0 x1 y1 : ℕ → Bool) :
      SameSizes (.multiplyBoolShares n x0 y0) (.multiplyBoolShares n x1 y1)
  | addBinaryShares (n : ℕ) (numBits : ℕ → ℕ) (x0 y0 x1 y1 : ℕ → ℕ → Bool) :
      SameSizes (.addBinaryShares n numBits x0 y0) (.addBinaryShares n numBits x1 y1)
  | maybeUpdate : SameSizes .maybeUpdate .maybeUpdate

/-- The loops of an operation stay within their 32-bit counters. -/
def Fits (batchSize : ℕ) : StoreOp → Prop
  | checkDaBits n => n < 2 ^ 32
  | getDaBit => True
  | b2aDaBitSingle x => x.length < 2 ^ 32
  | b2aDaBitMulti n numBits _ => n < 2 ^ 32 ∧ offset numBits n < 2 ^ 32
  | checkBoolTriples n => max n batchSize < 2 ^ 32
  | getBoolTriple => batchSize < 2 ^ 32
  | multiplyBoolShares n _ _ => max n batchSize < 2 ^ 32
  | addBinaryShares n numBits _ _ => max n batchSize < 2 ^ 32 ∧ offset numBits n < 2 ^ 32
  | maybeUpdate => 2 * batchSize < 2 ^ 32

variable (gen : Generation)

/-- The operation, without its results. -/
def exec : StoreOp → StoreM Unit
  | checkDaBits n => CorrelatedStore.checkDaBits gen n
  | getDaBit => do
    let _ ← CorrelatedStore.getDaBit gen
  | b2aDaBitSingle x => do
    let _ ← CorrelatedStore.b2aDaBitSingle gen x
  | b2aDaBitMulti n numBits x => do
    let _ ← CorrelatedStore.b2aDaBitMulti gen n numBits x
  | checkBoolTriples n => CorrelatedStore.checkBoolTriples gen n
  | getBoolTriple => do
    let _ ← CorrelatedStore.getBoolTriple gen
  | multiplyBoolShares n x y => do
    let _ ← CorrelatedStore.multiplyBoolShares gen n x y
  | addBinaryShares n numBits x y => do
    let _ ← CorrelatedStore.addBinaryShares gen n numBits x y
  | maybeUpdate => CorrelatedStore.maybeUpdate gen

def execAll : List StoreOp → StoreM Unit
  | [] => pure ()
  | op :: ops => do
    exec gen op
    execAll ops

variable {gen} {batchSize : ℕ} {fault : StoreFault → Prop}

theorem lockstep_unit {α : Type} {m0 m1 : StoreM α} {Q : α → α → CorrelatedStore → CorrelatedStore → Prop}
    (h : Lockstep (CorrelatedStore.Aligned batchSize) fault anyStates m0 m1 Q) :
    Lockstep (CorrelatedStore.Aligned batchSize) fault anyStates (m0 >>= fun _ => pure ()) (m1 >>= fun _ => pure ())
      fun _ _ => anyStates :=
  Lockstep.bind h fun _ _ => Lockstep.pure fun _ _ _ => trivial

open CorrelatedStore in
theorem exec_lockstep {op0 op1 : StoreOp} (h : SameSizes op0 op1) (hfault : ¬ op0.Fits batchSize → fault .counter) :
    Lockstep (Aligned batchSize) fault anyStates (exec gen op0) (exec gen op1) fun _ _ => anyStates := by
  cases h with
  | checkDaBits n =>
    refine (checkDaBits_lockstep gen fun hn => hfault ?_).mono (fun _ _ _ h => h) fun _ _ _ _ _ _ => trivial
    exact Nat.not_lt.mpr hn
  | getDaBit => exact lockstep_unit (getDaBit_lockstep gen)
  | b2aDaBitSingle x0 x1 hlen =>
    exact lockstep_unit (b2aDaBitSingle_lockstep gen hlen fun hn => hfault (Nat.not_lt.mpr hn))
  | b2aDaBitMulti n numBits x0 x1 =>
    refine lockstep_unit (b2aDaBitMulti_lockstep gen n numBits x0 x1 fun hn => hfault ?_)
    simp only [Fits]
    omega
  | checkBoolTriples n =>
    refine (checkBoolTriples_lockstep gen fun hn => hfault ?_).mono (fun _ _ _ h => h) fun _ _ _ _ _ _ => trivial
    exact Nat.not_lt.mpr hn
  | getBoolTriple => exact lockstep_unit (getBoolTriple_lockstep gen fun hn => hfault (Nat.not_lt.mpr hn))
  | multiplyBoolShares n x0 y0 x1 y1 =>
    exact lockstep_unit (multiplyBoolShares_lockstep gen n x0 y0 x1 y1 fun hn => hfault (Nat.not_lt.mpr hn))
  | addBinaryShares n numBits x0 y0 x1 y1 =>
    refine lockstep_unit (addBinaryShares_lockstep gen n numBits x0 y0 x1 y1 fun hn => hfault ?_)
    simp only [Fits]
    omega
  | maybeUpdate => exact maybeUpdate_lockstep gen fun hn => hfault (Nat.not_lt.mpr hn)

theorem execAll_lockstep {ops0 ops1 : List StoreOp} (h : List.Forall₂ SameSizes ops0 ops1)
    (hfault : (∃ op ∈ ops0, ¬ op.Fits batchSize) → fault .counter) :
    Lockstep (CorrelatedStore.Aligned batchSize) fault anyStates (execAll gen ops0) (execAll gen ops1)
      fun _ _ => anyStates := by
  induction h with
  | nil => exact Lockstep.pure fun _ _ _ => trivial
  | @cons op0 op1 ops0 ops1 hop _ ih =>
    refine Lockstep.bind (exec_lockstep hop fun hfit => hfault ⟨op0, List.mem_cons_self, hfit⟩) fun _ _ => ?_
    refine ih fun hfit => hfault ?_
    obtain ⟨op, hmem, hop⟩ := hfit
    exact ⟨op, List.mem_cons_of_mem _ hmem, hop⟩

end StoreOp

/-- The queues of both kinds hold halves of the same entries, and nothing is used twice. -/
structure CorrelatedStore.InSync (s0 s1 : CorrelatedStore) : Prop where
  dabits : Pool.InSync DaBit.Correlated s0.dabitStore s1.dabitStore
  triples : Pool.InSync BooleanBeaverTriple.Correlated s0.btripleStore s1.btripleStore

theorem CorrelatedStore.Aligned.inSync {batchSize : ℕ} {s0 s1 : CorrelatedStore} (h : Aligned batchSize s0 s1) :
    InSync s0 s1 :=
  ⟨h.dabits.inSync, h.triples.inSync⟩

/-- Both servers run `ops0` and `ops1` from empty stores to the end, or up to a loop that a 32-bit counter does not
get through. The stores are in sync at every point, and nothing is taken from an empty queue. -/
def StoresInSync (gen : Generation) (batchSize : ℕ) (lazy : Bool) (ops0 ops1 : List StoreOp) : Prop :=
  ∃ x0 x1 t0 t1,
    Terminates (StoreOp.execAll gen ops0 (.init (.new batchSize 0 lazy)))
      (StoreOp.execAll gen ops1 (.init (.new batchSize 1 lazy))) (x0, t0) (x1, t1) ∧
    Along CorrelatedStore.InSync t0 t1 ∧
    (x0 = .ok () ∧ x1 = .ok () ∨
      x0 = .error .counter ∧ x1 = .error .counter ∧ ∃ op ∈ ops0, ¬ op.Fits batchSize)

/-- Every sequence of operations keeps the stores in sync. -/
theorem stores_synced (gen : Generation) (batchSize : ℕ) (lazy : Bool) {ops0 ops1 : List StoreOp}
    (hsizes : List.Forall₂ StoreOp.SameSizes ops0 ops1) : StoresInSync gen batchSize lazy ops0 ops1 := by
  let fault : StoreFault → Prop := fun e => e = .counter ∧ ∃ op ∈ ops0, ¬ op.Fits batchSize
  have hfault : (∃ op ∈ ops0, ¬ op.Fits batchSize) → fault .counter := fun hfit => ⟨rfl, hfit⟩
  have hrun := @StoreOp.execAll_lockstep gen batchSize fault _ _ hsizes hfault
  obtain ⟨x0, x1, t0, t1, hterm, halong, hends⟩ := hrun.terminates (CorrelatedStore.aligned_new batchSize lazy) trivial
  refine ⟨x0, x1, t0, t1, hterm, halong.imp fun _ _ h => h.inSync, ?_⟩
  rcases hends.ok_or_error with ⟨_, _, rfl, rfl, -⟩ | ⟨_, rfl, rfl, rfl, hfit⟩
  · exact Or.inl ⟨rfl, rfl⟩
  · exact Or.inr ⟨rfl, rfl, hfit⟩

/-- Batches of halves of zero. -/
def zeroGeneration : Generation where
  daBits _ n := ⟨List.replicate n (⟨0, false⟩, ⟨0, false⟩), List.length_replicate, fun p hp => by
    rw [List.eq_of_mem_replicate hp]
    exact Int.ModEq.refl _⟩
  triples _ n := ⟨List.replicate n (⟨false, false, false⟩, ⟨false, false, false⟩), List.length_replicate, fun p hp => by
    rw [List.eq_of_mem_replicate hp]
    rfl⟩
  draws _ _ := ⟨false, 0, le_rfl, by decide⟩

theorem stores_synced_oneBit :
    StoresInSync zeroGeneration 4 false
      [.b2aDaBitSingle [true], .maybeUpdate, .multiplyBoolShares 2 (fun _ => true) (fun _ => false)]
      [.b2aDaBitSingle [false], .maybeUpdate, .multiplyBoolShares 2 (fun _ => true) (fun _ => true)] :=
  stores_synced zeroGeneration 4 false
    (.cons (.b2aDaBitSingle _ _ rfl) (.cons .maybeUpdate (.cons (.multiplyBoolShares 2 _ _ _ _) .nil)))

end PrioPlus

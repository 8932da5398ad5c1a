import PrioPlus.Correlated.Synced

/-!
# Boolean Beaver triples

`gen_boolean_beaver_triples` makes them with one oblivious transfer each way: the offer of either server is a mask and
the mask xor its first factor, and the other server chooses with its second factor. So each side learns the other's
cross term under a mask that only the other knows, and the two masks cancel in the products
(`correlated_generatedTriple`).

`multiplyBoolShares` takes such triples from the two stores (`multiplyBoolShares_computes`).
-/

namespace PrioPlus

open Lib Lib.TwoParty

/-! ### The generator -/

/-- What one server draws for its triples: both factors and the mask of its offer. -/
structure TripleDraws where
  x : ℕ → Bool
  y : ℕ → Bool
  r : ℕ → Bool

/-- `b0[i]` and `b1[i]`. -/
def triplePair (x r : Bool) : UInt64 × UInt64 := (r.toUInt64, (x != r).toUInt64)

/-- `z[i]`, from the word `b[i]` that the transfer returned. -/
def tripleZ (b : UInt64) (x y r : Bool) : Bool := b != (r != (x && y)).toUInt64

/-- `gen_boolean_beaver_triples`, from the bits of `emp::PRG`. Server 0 sends on `ot0` and server 1 on `ot1`; no other
server number is in use, and the array `b` would stay unset for one. -/
def genBooleanBeaverTriples (serverNum m : ℕ) (draws : TripleDraws) : Server (List BooleanBeaverTriple) :=
  let pairs := (List.range m).map fun i => triplePair (draws.x i) (draws.r i)
  let choices := (List.range m).map draws.y
  let triples (b : List UInt64) : List BooleanBeaverTriple := (List.range m).map fun i =>
    ⟨draws.x i, draws.y i, tripleZ (b.getD i 0) (draws.x i) (draws.y i) (draws.r i)⟩
  if serverNum = 0 then do
    sendMsg (.ot pairs)
    let b ← otRecv choices
    return triples b
  else if serverNum = 1 then do
    let b ← otRecv choices
    sendMsg (.ot pairs)
    return triples b
  else .stuck

/-- Triple `i` of the server that drew `own`, when the other one drew `other`. -/
def generatedTriple (own other : TripleDraws) (i : ℕ) : BooleanBeaverTriple where
  a := own.x i
  b := own.y i
  c := tripleZ (otChoose (triplePair (other.x i) (other.r i)) (own.y i)) (own.x i) (own.y i) (own.r i)

/-- The received word hides the cross term under the other server's mask. -/
theorem tripleZ_otChoose (x y r x' r' : Bool) :
    tripleZ (otChoose (triplePair x' r') y) x y r = (r' ^^ (x' && y) ^^ (r ^^ (x && y))) := by
  cases x <;> cases y <;> cases r <;> cases x' <;> cases r' <;> rfl

/-- Both masks cancel, and the cross terms complete the product. -/
theorem correlated_generatedTriple (draws0 draws1 : TripleDraws) (i : ℕ) :
    BooleanBeaverTriple.Correlated (generatedTriple draws0 draws1 i) (generatedTriple draws1 draws0 i) := by
  have hcancel : ∀ x0 y0 r0 x1 y1 r1 : Bool,
      ((r1 ^^ (x1 && y0) ^^ (r0 ^^ (x0 && y0))) ^^ (r0 ^^ (x0 && y1) ^^ (r1 ^^ (x1 && y1)))) =
        ((x0 ^^ x1) && (y0 ^^ y1)) := by decide
  simp only [BooleanBeaverTriple.Correlated, generatedTriple, tripleZ_otChoose]
  exact hcancel _ _ _ _ _ _

/-- The triples of a run, with the halves of both servers. -/
def generatedTriples (draws0 draws1 : TripleDraws) (m : ℕ) : Batch BooleanBeaverTriple.Correlated m where
  pairs := (List.range m).map fun i => (generatedTriple draws0 draws1 i, generatedTriple draws1 draws0 i)
  length_pairs := by simp
  related := by
    simp only [List.mem_map]
    rintro _ ⟨i, -, rfl⟩
    exact correlated_generatedTriple draws0 draws1 i

theorem map_generatedTriple (own other : TripleDraws) (m : ℕ) :
    ((List.range m).map fun i => (⟨own.x i, own.y i, tripleZ ((List.zipWith otChoose
        ((List.range m).map fun i => triplePair (other.x i) (other.r i)) ((List.range m).map own.y)).getD i 0)
        (own.x i) (own.y i) (own.r i)⟩ : BooleanBeaverTriple)) =
      (List.range m).map (generatedTriple own other) := by
  apply List.map_congr_left
  intro i hi
  rw [List.zipWith_map, List.zipWith_self, getD_map_range, if_pos (List.mem_range.mp hi), generatedTriple]

theorem genBooleanBeaverTriples_reaches (draws0 draws1 : TripleDraws) (m : ℕ) :
    Reaches (.start (genBooleanBeaverTriples 0 m draws0) (genBooleanBeaverTriples 1 m draws1))
      (.done ((generatedTriples draws0 draws1 m).half 0) ((generatedTriples draws0 draws1 m).half 1)) := by
  have hot0 := reaches_ot01 ((List.range m).map fun i => triplePair (draws0.x i) (draws0.r i))
    ((List.range m).map draws1.y) (by simp)
  have hot1 := reaches_ot10 ((List.range m).map fun i => triplePair (draws1.x i) (draws1.r i))
    ((List.range m).map draws0.y) (by simp)
  rw [genBooleanBeaverTriples, genBooleanBeaverTriples, if_pos rfl, if_neg one_ne_zero, if_pos rfl]
  refine Reaches.bind hot0 (Reaches.bind hot1 ?_)
  beta_reduce
  rw [map_generatedTriple, map_generatedTriple, Batch.half, Batch.half, generatedTriples, List.map_map, List.map_map]
  exact Reaches.refl _

/-- A generation whose triples come from the generator. -/
def Generation.ofTripleDraws (gen : Generation) (draws0 draws1 : ℕ → TripleDraws) : Generation :=
  { gen with triples := fun batches m => generatedTriples (draws0 batches) (draws1 batches) m }

theorem Generation.ofTripleDraws_terminates (gen : Generation) (draws0 draws1 : ℕ → TripleDraws) (batches m : ℕ) :
    Terminates (genBooleanBeaverTriples 0 m (draws0 batches)) (genBooleanBeaverTriples 1 m (draws1 batches))
      (((gen.ofTripleDraws draws0 draws1).triples batches m).half 0)
      (((gen.ofTripleDraws draws0 draws1).triples batches m).half 1) :=
  (genBooleanBeaverTriples_reaches (draws0 batches) (draws1 batches) m).terminates

/-! ### Products from the stores -/

namespace CorrelatedStore

/-- From aligned stores both calls return, with results that are related by `Q`, and all stores on the way are aligned.
When a loop passes a 32-bit counter neither returns, which takes sizes that do not fit. -/
def Computes {α : Type} (fits : Prop) (batchSize : ℕ) (m0 m1 : StoreM α) (Q : α → α → Prop) : Prop :=
  ∀ s0 s1, Aligned batchSize s0 s1 → ∃ r0 r1 t0 t1,
    Terminates (m0 (.init s0)) (m1 (.init s1)) (r0, t0) (r1, t1) ∧ Along (Aligned batchSize) t0 t1 ∧
    ((∃ z0 z1, r0 = .ok z0 ∧ r1 = .ok z1 ∧ Q z0 z1) ∨ r0 = .error .counter ∧ r1 = .error .counter ∧ ¬ fits)

theorem Computes.of_lockstep {α : Type} {fits : Prop} {batchSize : ℕ} {m0 m1 : StoreM α} {Q : α → α → Prop}
    (h : Lockstep (Aligned batchSize) (fun e => e = .counter ∧ ¬ fits) anyStates m0 m1 fun z0 z1 _ _ => Q z0 z1) :
    Computes fits batchSize m0 m1 Q := by
  intro s0 s1 haligned
  obtain ⟨r0, r1, t0, t1, hterm, halong, hends⟩ := h.terminates haligned trivial
  refine ⟨r0, r1, t0, t1, hterm, halong, ?_⟩
  rcases hends.ok_or_error with hok | ⟨_, hr0, hr1, rfl, hfits⟩
  · exact Or.inl hok
  · exact Or.inr ⟨hr0, hr1, hfits⟩

/-- The shares of two servers of the bits `x i && y i`. -/
def ProductShares (n : ℕ) (x0 y0 x1 y1 : ℕ → Bool) (z0 z1 : List Bool) : Prop :=
  ∀ i < n, (z0.getD i false ^^ z1.getD i false) = ((x0 i ^^ x1 i) && (y0 i ^^ y1 i))

theorem multiplyBoolShares_computes (gen : Generation) (batchSize n : ℕ) (x0 y0 x1 y1 : ℕ → Bool) :
    Computes (max n batchSize < 2 ^ 32) batchSize (multiplyBoolShares gen n x0 y0) (multiplyBoolShares gen n x1 y1)
      (ProductShares n x0 y0 x1 y1) := by
  apply Computes.of_lockstep
  exact multiplyBoolShares_lockstep gen n x0 y0 x1 y1 fun hn => ⟨rfl, Nat.not_lt.mpr hn⟩

end CorrelatedStore

/-- The generator returns triples that are correlated at each position, and from aligned stores of such triples
`multiplyBoolShares` returns shares of the products. -/
theorem booleanBeaver_multiplies :
    (∀ (draws0 draws1 : TripleDraws) (m : ℕ), ∃ ts0 ts1,
      Terminates (genBooleanBeaverTriples 0 m draws0) (genBooleanBeaverTriples 1 m draws1) ts0 ts1 ∧
        ts0.length = m ∧ ts1.length = m ∧ List.Forall₂ BooleanBeaverTriple.Correlated ts0 ts1) ∧
    ∀ (gen : Generation) (batchSize n : ℕ) (x0 y0 x1 y1 : ℕ → Bool),
      CorrelatedStore.Computes (max n batchSize < 2 ^ 32) batchSize
        (CorrelatedStore.multiplyBoolShares gen n x0 y0) (CorrelatedStore.multiplyBoolShares gen n x1 y1)
        (CorrelatedStore.ProductShares n x0 y0 x1 y1) := by
  constructor
  · intro draws0 draws1 m
    exact ⟨_, _, (genBooleanBeaverTriples_reaches draws0 draws1 m).terminates, Batch.length_half _ 0,
      Batch.length_half _ 1, Batch.forall₂_half _⟩
  · exact CorrelatedStore.multiplyBoolShares_computes

end PrioPlus

import PrioPlus.Client.Heavy

/-!
# The draws of the client's helpers

Each helper draws the values, encodings and masks of its clients from one generator, and the key of each client from a
copy of it, since `make_pk` takes the generator by value. The draws of a run are kept in a log with the positions of the
output that they read. The values and masks read all positions up to the counter (`reads_run`), and a key
reads the position that the next value is read from: no position is read for both exactly when nothing is drawn after
the first client (`disjoint_run_iff`).
-/

namespace PrioPlus

/-- `emp::PRG`, without its output: the position it has come to. -/
structure Prg where
  counter : ℕ
deriving DecidableEq

/-- The output of an `emp::PRG`: the bit that `random_bool` writes for a position, and the number of positions that a
draw of some bytes takes. -/
structure PrgOutput where
  bit : ℕ → Bool
  blocks : ℕ → ℕ
  blocks_eq_zero : ∀ n, blocks n = 0 ↔ n = 0

/-- A digit of `std::hex`. -/
def hexDigit (d : ℕ) : UInt8 := UInt8.ofNat (if d < 10 then 48 + d else 87 + d)

/-- `std::setfill('0') << std::setw(16) << std::hex` of a word. -/
def hexWord (x : UInt64) : Vector UInt8 16 := Vector.ofFn fun i => hexDigit (x.toNat / 16 ^ (15 - i.val) % 16)

/-- `pub_key_to_hex`. -/
def pubKeyToHex (key : UInt64 × UInt64) : Pk := hexWord key.1 ++ hexWord key.2

/-- What a client draws for itself. -/
inductive Secret
  | value
  | encoding
  | mask
deriving DecidableEq

/-- A draw, with the positions from `lo` to `hi`. `secret` is `none` for a key. -/
structure Draw where
  secret : Option Secret
  lo : ℕ
  hi : ℕ
deriving DecidableEq

/-- `random_data` and `random_bool`: the draw, and the generator after it. -/
def Prg.random (S : PrgOutput) (prg : Prg) (secret : Secret) (bytes : ℕ) : Draw × Prg :=
  ({ secret := some secret, lo := prg.counter, hi := prg.counter + S.blocks bytes }, ⟨prg.counter + S.blocks bytes⟩)

/-- `random_block(&b, 1)`, for a key. -/
def Prg.randomBlock (prg : Prg) : Draw × Prg :=
  ({ secret := none, lo := prg.counter, hi := prg.counter + 1 }, ⟨prg.counter + 1⟩)

/-- `make_pk`. The generator that advances is the parameter, a copy. -/
def makePk (prg : Prg) : Draw :=
  let (drawn, _) := prg.randomBlock
  drawn

/-- A helper in its loop: its generator, and the draws so far. -/
structure ClientRun where
  prg : Prg
  log : List Draw

namespace ClientRun

def start : ClientRun := { prg := ⟨0⟩, log := [] }

def random (S : PrgOutput) (r : ClientRun) (secret : Secret) (bytes : ℕ) : ClientRun :=
  let (drawn, prg) := r.prg.random S secret bytes
  { prg := prg, log := r.log ++ [drawn] }

/-- Draws in a row. -/
def randoms (S : PrgOutput) (r : ClientRun) (draws : List (Secret × ℕ)) : ClientRun :=
  draws.foldl (fun r q => r.random S q.1 q.2) r

/-- One round of a helper: the draws of the client and its key. -/
def client (S : PrgOutput) (draws : Prg → List (Secret × ℕ)) (r : ClientRun) : ClientRun :=
  let r' := r.randoms S (draws r.prg)
  { r' with log := r'.log ++ [makePk r'.prg] }

/-- The loop of a helper, after the draws `first`. -/
def run (S : PrgOutput) (first : List (Secret × ℕ)) (draws : ℕ → Prg → List (Secret × ℕ)) (numreqs : ℕ) : ClientRun :=
  (List.range numreqs).foldl (fun r i => r.client S (draws i)) (start.randoms S first)

/-- No position is read for a key and for a secret. -/
def Disjoint (r : ClientRun) : Prop :=
  ∀ k ∈ r.log, k.secret = none → ∀ d ∈ r.log, d.secret ≠ none →
    ∀ pos, ¬ ((k.lo ≤ pos ∧ pos < k.hi) ∧ d.lo ≤ pos ∧ pos < d.hi)

end ClientRun

/-! ### The helpers -/

section Helpers

open ClientRun

variable (S : PrgOutput) (numreqs : ℕ)

def bitSumDraws : ClientRun := run S [] (fun _ _ => [(.value, 1), (.mask, 1)]) numreqs

def intSumDraws : ClientRun := run S [] (fun _ _ => [(.value, 8), (.mask, 8)]) numreqs

/-- `xor_op_helper`. Whether there is an encoding to draw depends on the value, which is drawn first. -/
def xorOpDraws (andOp : Bool) : ClientRun :=
  run S [] (fun _ prg => (.value, 1) :: (if S.bit prg.counter = andOp then [] else [(.encoding, 8)]) ++ [(.mask, 8)])
    numreqs

/-- `max_op_helper`, where `B + 1` is an `unsigned int`. -/
def maxOpDraws (B : UInt32) : ClientRun :=
  run S [] (fun _ _ => [(.value, 8), (.encoding, (B + 1).toNat * 8), (.mask, (B + 1).toNat * 8)]) numreqs

def varOpDraws : ClientRun := run S [] (fun _ _ => [(.value, 8), (.mask, 8), (.mask, 8)]) numreqs

def linRegDraws (degree : ℕ) : ClientRun :=
  let numX := degree - 1
  let numQuad := numX * (numX + 1) / 2
  run S [] (fun _ _ => [(.value, numX * 8), (.mask, numX * 8), (.mask, numQuad * 8), (.mask, numX * 8), (.value, 8),
    (.mask, 8)]) numreqs

def freqDraws (maxInt : UInt64) : ClientRun := run S [] (fun _ _ => [(.value, 8), (.mask, maxInt.toNat)]) numreqs

/-- `countmin_helper`. The values of the first clients are the two heavy ones, drawn before the loop. -/
def countminDraws (cfg : HeavyConfig) : ClientRun :=
  run S [(.value, 8), (.value, 8)] (fun i _ =>
    (if (i : ℚ) ≤ cfg.t * numreqs then [] else if (i : ℚ) ≤ 2 * cfg.t * numreqs then [] else [(.value, 8)]) ++
      [(.mask, cfg.d * cfg.w)]) numreqs

/-- `heavy_helper`, for a `share_size` that does not wrap. -/
def heavyDraws (numBits : UInt32) (cfg : HeavyConfig) : ClientRun :=
  run S [(.value, 8)] (fun i _ =>
    (if (i : ℚ) ≤ cfg.t * numreqs then [] else [(.value, 8)]) ++ [(.mask, tableCells numBits cfg)]) numreqs

end Helpers

/-! ### What a run reads -/

namespace ClientRun

section Positions

variable {S : PrgOutput} {first : List (Secret × ℕ)} {draws : ℕ → Prg → List (Secret × ℕ)}

/-- The position is read for a secret. -/
def ReadsSecret (r : ClientRun) (pos : ℕ) : Prop := ∃ d ∈ r.log, d.secret ≠ none ∧ d.lo ≤ pos ∧ pos < d.hi

/-- The positions read for keys, in order. -/
def keys (r : ClientRun) : List ℕ := (r.log.filter fun d => d.secret = none).map Draw.lo

/-- The secrets read all positions up to the counter, and each key reads one position. -/
structure Reads (r : ClientRun) : Prop where
  secret : ∀ pos, r.ReadsSecret pos ↔ pos < r.prg.counter
  key : ∀ k ∈ r.log, k.secret = none → k.hi = k.lo + 1

theorem reads_start : start.Reads :=
  ⟨fun _ => ⟨fun ⟨_, hd, _⟩ => absurd hd List.not_mem_nil, fun h => absurd h (Nat.not_lt_zero _)⟩,
    fun _ hk => absurd hk List.not_mem_nil⟩

theorem Reads.random {r : ClientRun} (h : r.Reads) (secret : Secret) (bytes : ℕ) : (r.random S secret bytes).Reads := by
  constructor
  · intro pos
    have hread : (r.random S secret bytes).ReadsSecret pos ↔
        r.ReadsSecret pos ∨ r.prg.counter ≤ pos ∧ pos < r.prg.counter + S.blocks bytes := by
      simp only [ReadsSecret, ClientRun.random, Prg.random, List.mem_append, List.mem_singleton]
      constructor
      · rintro ⟨d, hd | rfl, hread⟩
        · exact Or.inl ⟨d, hd, hread⟩
        · exact Or.inr hread.2
      · rintro (⟨d, hd, hread⟩ | hread)
        · exact ⟨d, Or.inl hd, hread⟩
        · exact ⟨_, Or.inr rfl, Option.some_ne_none secret, hread⟩
    rw [hread, h.secret]
    show _ ↔ pos < r.prg.counter + S.blocks bytes
    omega
  · intro k hk hkey
    rcases List.mem_append.mp hk with hk | hk
    · exact h.key k hk hkey
    · rw [List.mem_singleton.mp hk] at hkey
      exact absurd hkey (Option.some_ne_none secret)

theorem Reads.randoms {r : ClientRun} (h : r.Reads) (ds : List (Secret × ℕ)) : (r.randoms S ds).Reads := by
  induction ds generalizing r with
  | nil => exact h
  | cons q ds ih => exact ih (h.random q.1 q.2)

theorem Reads.client {r : ClientRun} (h : r.Reads) (ds : Prg → List (Secret × ℕ)) : (r.client S ds).Reads := by
  obtain ⟨hsecret, hkey⟩ := h.randoms (S := S) (ds r.prg)
  constructor
  · intro pos
    rw [← show (r.client S ds).prg = (r.randoms S (ds r.prg)).prg from rfl] at hsecret
    rw [← hsecret]
    constructor
    · rintro ⟨d, hd, hne, hread⟩
      rcases List.mem_append.mp hd with hd | hd
      · exact ⟨d, hd, hne, hread⟩
      · rw [List.mem_singleton.mp hd] at hne
        exact absurd rfl hne
    · rintro ⟨d, hd, hread⟩
      exact ⟨d, List.mem_append_left _ hd, hread⟩
  · intro k hk hnone
    rcases List.mem_append.mp hk with hk | hk
    · exact hkey k hk hnone
    · rw [List.mem_singleton.mp hk]
      rfl

theorem run_succ (n : ℕ) : run S first draws (n + 1) = (run S first draws n).client S (draws n) := by
  rw [run, List.range_succ, List.foldl_append]
  rfl

theorem reads_run (n : ℕ) : (run S first draws n).Reads := by
  induction n with
  | zero => exact reads_start.randoms first
  | succ n ih =>
    rw [run_succ]
    exact ih.client (draws n)

theorem keys_randoms (r : ClientRun) (ds : List (Secret × ℕ)) : (r.randoms S ds).keys = r.keys := by
  induction ds generalizing r with
  | nil => rfl
  | cons q ds ih =>
    have hrandom : (r.random S q.1 q.2).keys = r.keys := by
      simp [keys, random, Prg.random, List.filter_append]
    exact (ih _).trans hrandom

theorem keys_run (n : ℕ) :
    (run S first draws n).keys = (List.range n).map fun i => (run S first draws (i + 1)).prg.counter := by
  induction n with
  | zero => exact (keys_randoms start first).trans rfl
  | succ n ih =>
    have hclient : ∀ r : ClientRun, ∀ ds, (r.client S ds).keys = r.keys ++ [(r.client S ds).prg.counter] := by
      intro r ds
      rw [← keys_randoms (S := S) r (ds r.prg)]
      simp [keys, client, makePk, Prg.randomBlock, List.filter_append]
    rw [run_succ, hclient, ih, ← run_succ, List.range_succ, List.map_append]
    rfl

theorem disjoint_iff {r : ClientRun} (h : r.Reads) : r.Disjoint ↔ ∀ k ∈ r.keys, r.prg.counter ≤ k := by
  constructor
  · intro hdisjoint k hk
    obtain ⟨d, hd, rfl⟩ := List.mem_map.mp hk
    obtain ⟨hd, hnone⟩ := List.mem_filter.mp hd
    have hnone := of_decide_eq_true hnone
    by_contra hlt
    obtain ⟨e, he, hne, hlo, hhi⟩ := (h.secret d.lo).mpr (not_le.mp hlt)
    have hkey := h.key d hd hnone
    exact hdisjoint d hd hnone e he hne d.lo ⟨⟨le_rfl, by omega⟩, hlo, hhi⟩
  · rintro hkeys k hk hnone d hd hne pos ⟨⟨hlo, -⟩, hread⟩
    have hle := hkeys k.lo (List.mem_map.mpr ⟨k, List.mem_filter.mpr ⟨hk, decide_eq_true hnone⟩, rfl⟩)
    have hlt := (h.secret pos).mp ⟨d, hd, hne, hread⟩
    omega

/-! ### When no position is read twice -/

theorem counter_randoms (r : ClientRun) (ds : List (Secret × ℕ)) :
    (r.randoms S ds).prg.counter = r.prg.counter + (ds.map fun q => S.blocks q.2).sum := by
  induction ds generalizing r with
  | nil => rfl
  | cons q ds ih =>
    have hstep : (r.randoms S (q :: ds)).prg.counter = ((r.random S q.1 q.2).randoms S ds).prg.counter := rfl
    have hcounter : (r.random S q.1 q.2).prg.counter = r.prg.counter + S.blocks q.2 := rfl
    rw [hstep, ih, hcounter, List.map_cons, List.sum_cons, Nat.add_assoc]

theorem counter_run_succ (n : ℕ) : (run S first draws (n + 1)).prg.counter =
    (run S first draws n).prg.counter + ((draws n (run S first draws n).prg).map fun q => S.blocks q.2).sum := by
  rw [run_succ]
  exact counter_randoms _ _

theorem counter_run_mono {m n : ℕ} (h : m ≤ n) :
    (run S first draws m).prg.counter ≤ (run S first draws n).prg.counter := by
  induction h with
  | refl => exact le_rfl
  | step _ ih =>
    rw [counter_run_succ]
    omega

theorem counter_run_succ_eq_iff (n : ℕ) :
    (run S first draws (n + 1)).prg.counter = (run S first draws n).prg.counter ↔
      ∀ q ∈ draws n (run S first draws n).prg, q.2 = 0 := by
  rw [counter_run_succ, Nat.add_eq_left, List.sum_eq_zero_iff, List.forall_mem_map]
  exact forall₂_congr fun q _ => S.blocks_eq_zero q.2

theorem disjoint_run_iff (n : ℕ) :
    (run S first draws n).Disjoint ↔ ∀ i, 1 ≤ i → i < n → ∀ q ∈ draws i (run S first draws i).prg, q.2 = 0 := by
  rw [disjoint_iff (reads_run n), keys_run, List.forall_mem_map]
  simp only [List.mem_range]
  constructor
  · intro h i hone hlt
    have hlast := h 0 (by omega)
    have hfirst : (run S first draws (0 + 1)).prg.counter ≤ (run S first draws i).prg.counter := counter_run_mono hone
    have hgrow : (run S first draws i).prg.counter ≤ (run S first draws (i + 1)).prg.counter :=
      counter_run_mono (Nat.le_succ i)
    have hnext : (run S first draws (i + 1)).prg.counter ≤ (run S first draws n).prg.counter := counter_run_mono hlt
    exact (counter_run_succ_eq_iff i).mp (by omega)
  · intro h i hi
    have hconst : ∀ m, m + 1 ≤ n → (run S first draws (m + 1)).prg.counter = (run S first draws 1).prg.counter := by
      intro m hm
      induction m with
      | zero => rfl
      | succ m ih => rw [(counter_run_succ_eq_iff (m + 1)).mpr (h (m + 1) (by omega) (by omega)), ih (by omega)]
    have hlast := hconst (n - 1) (by omega)
    rw [Nat.sub_add_cancel (by omega)] at hlast
    rw [hlast, hconst i hi]

theorem disjoint_run_iff_of_draws (h : ∀ i prg, ∃ q ∈ draws i prg, q.2 ≠ 0) (n : ℕ) :
    (run S first draws n).Disjoint ↔ n ≤ 1 := by
  rw [disjoint_run_iff]
  constructor
  · intro hquiet
    by_contra hlt
    obtain ⟨q, hq, hne⟩ := h 1 (run S first draws 1).prg
    exact hne (hquiet 1 le_rfl (by omega) q hq)
  · intro hle i hone hlt
    omega

end Positions

end ClientRun

/-! ### When a helper reads a position twice -/

theorem countminDraws_disjoint_iff (S : PrgOutput) (numreqs : ℕ) (cfg : HeavyConfig) :
    (countminDraws S numreqs cfg).Disjoint ↔ numreqs ≤ 1 ∨ cfg.d * cfg.w = 0 ∧
      ∀ i < numreqs, 1 ≤ i → (i : ℚ) ≤ cfg.t * numreqs ∨ (i : ℚ) ≤ 2 * cfg.t * numreqs := by
  have hquiet : ∀ i, (∀ q ∈ (if (i : ℚ) ≤ cfg.t * numreqs then [] else if (i : ℚ) ≤ 2 * cfg.t * numreqs then []
      else [(Secret.value, 8)]) ++ [(Secret.mask, cfg.d * cfg.w)], q.2 = 0) ↔
      cfg.d * cfg.w = 0 ∧ ((i : ℚ) ≤ cfg.t * numreqs ∨ (i : ℚ) ≤ 2 * cfg.t * numreqs) := by
    intro i
    by_cases h1 : (i : ℚ) ≤ cfg.t * numreqs
    · simp [h1]
    · by_cases h2 : (i : ℚ) ≤ 2 * cfg.t * numreqs
      · simp [h1, h2]
      · simp [h1, h2]
  rw [countminDraws, ClientRun.disjoint_run_iff]
  simp only [hquiet]
  constructor
  · intro h
    by_cases hle : numreqs ≤ 1
    · exact Or.inl hle
    · exact Or.inr ⟨(h 1 le_rfl (by omega)).1, fun i hlt hone => (h i hone hlt).2⟩
  · rintro (hle | ⟨hzero, hheavy⟩) i hone hlt
    · omega
    · exact ⟨hzero, hheavy i hlt hone⟩

/-- No helper reads a position both for a key and for a secret exactly when it has one client at most. Only
`countmin_helper` has another case, an empty table whose clients all have one of the heavy values. -/
theorem draws_disjoint_iff (S : PrgOutput) (numreqs : ℕ) (andOp : Bool) (B numBits : UInt32) (degree : ℕ)
    (maxInt : UInt64) (cfg : HeavyConfig) :
    ((bitSumDraws S numreqs).Disjoint ↔ numreqs ≤ 1) ∧
      ((intSumDraws S numreqs).Disjoint ↔ numreqs ≤ 1) ∧
      ((xorOpDraws S numreqs andOp).Disjoint ↔ numreqs ≤ 1) ∧
      ((maxOpDraws S numreqs B).Disjoint ↔ numreqs ≤ 1) ∧
      ((varOpDraws S numreqs).Disjoint ↔ numreqs ≤ 1) ∧
      ((linRegDraws S numreqs degree).Disjoint ↔ numreqs ≤ 1) ∧
      ((freqDraws S numreqs maxInt).Disjoint ↔ numreqs ≤ 1) ∧
      ((countminDraws S numreqs cfg).Disjoint ↔ numreqs ≤ 1 ∨ cfg.d * cfg.w = 0 ∧
        ∀ i < numreqs, 1 ≤ i → (i : ℚ) ≤ cfg.t * numreqs ∨ (i : ℚ) ≤ 2 * cfg.t * numreqs) ∧
      ((heavyDraws S numreqs numBits cfg).Disjoint ↔ numreqs ≤ 1) := by
  refine ⟨?_, ?_, ?_, ?_, ?_, ?_, ?_, countminDraws_disjoint_iff S numreqs cfg, ?_⟩
  · exact ClientRun.disjoint_run_iff_of_draws (fun _ _ => ⟨(.value, 1), by simp, by decide⟩) _
  · exact ClientRun.disjoint_run_iff_of_draws (fun _ _ => ⟨(.value, 8), by simp, by decide⟩) _
  · exact ClientRun.disjoint_run_iff_of_draws (fun _ _ => ⟨(.value, 1), by simp, by decide⟩) _
  · exact ClientRun.disjoint_run_iff_of_draws (fun _ _ => ⟨(.value, 8), by simp, by decide⟩) _
  · exact ClientRun.disjoint_run_iff_of_draws (fun _ _ => ⟨(.value, 8), by simp, by decide⟩) _
  · exact ClientRun.disjoint_run_iff_of_draws (fun _ _ => ⟨(.value, 8), by simp, by decide⟩) _
  · exact ClientRun.disjoint_run_iff_of_draws (fun _ _ => ⟨(.value, 8), by simp, by decide⟩) _
  · exact ClientRun.disjoint_run_iff_of_draws
      (fun _ _ => ⟨(.mask, tableCells numBits cfg), by simp, (Nat.lt_add_left _ (firstSize_pos _ _)).ne'⟩) _

/-- The blocks of sixteen bytes of a draw, for an output of zeros. -/
def zeroOutput : PrgOutput where
  bit _ := false
  blocks n := (n + 15) / 16
  blocks_eq_zero n := by omega

/-- With two clients `bit_sum_helper` reads the key of the first and the value of the second from one position. -/
theorem bitSumDraws_two :
    { secret := none, lo := 2, hi := 3 } ∈ (bitSumDraws zeroOutput 2).log ∧
      { secret := some .value, lo := 2, hi := 3 } ∈ (bitSumDraws zeroOutput 2).log ∧
      ¬ (bitSumDraws zeroOutput 2).Disjoint := by
  have hkey : { secret := none, lo := 2, hi := 3 } ∈ (bitSumDraws zeroOutput 2).log := by decide
  have hvalue : { secret := some .value, lo := 2, hi := 3 } ∈ (bitSumDraws zeroOutput 2).log := by decide
  exact ⟨hkey, hvalue, fun h => h _ hkey rfl _ hvalue (by decide) 2 ⟨⟨le_rfl, by decide⟩, le_rfl, by decide⟩⟩

/-! ### The text of a key -/

theorem hexDigit_inj : ∀ d < 16, ∀ e < 16, hexDigit d = hexDigit e → d = e := by decide

theorem mod_pow_eq_of_digits {x y b n : ℕ} (h : ∀ i < n, x / b ^ i % b = y / b ^ i % b) : x % b ^ n = y % b ^ n := by
  induction n with
  | zero => rw [Nat.pow_zero, Nat.mod_one, Nat.mod_one]
  | succ n ih =>
    rw [Nat.mod_pow_succ, Nat.mod_pow_succ, ih fun i hi => h i (Nat.lt_succ_of_lt hi), h n (Nat.lt_succ_self n)]

theorem hexWord_injective : Function.Injective hexWord := by
  intro x y h
  have hdigits : ∀ i < 16, x.toNat / 16 ^ i % 16 = y.toNat / 16 ^ i % 16 := by
    intro i hi
    have hentry := congrArg (fun v : Vector UInt8 16 => v[15 - i]) h
    simp only [hexWord, Vector.getElem_ofFn, show 15 - (15 - i) = i by omega] at hentry
    exact hexDigit_inj _ (Nat.mod_lt _ (by decide)) _ (Nat.mod_lt _ (by decide)) hentry
  have hwords := mod_pow_eq_of_digits hdigits
  have hsize : 16 ^ 16 = 2 ^ 64 := rfl
  rw [hsize, Nat.mod_eq_of_lt x.toNat_lt, Nat.mod_eq_of_lt y.toNat_lt] at hwords
  exact UInt64.toNat_inj.mp hwords

theorem pubKeyToHex_injective : Function.Injective pubKeyToHex := by
  rintro ⟨x, x'⟩ ⟨y, y'⟩ h
  obtain ⟨hfst, hsnd⟩ := Vector.append_inj h
  exact Prod.ext (hexWord_injective hfst) (hexWord_injective hsnd)

/-- The blocks of the clients' keys, no two of them the same. -/
abbrev KeyBlocks (n : ℕ) := Fin n ↪ UInt64 × UInt64

/-- The keys of clients that each draw from a generator of their own. -/
def clientKeys {n : ℕ} (blocks : KeyBlocks n) (i : Fin n) : Pk := pubKeyToHex (blocks i)

theorem clientKeys_injective {n : ℕ} (blocks : KeyBlocks n) : Function.Injective (clientKeys blocks) :=
  pubKeyToHex_injective.comp blocks.injective

end PrioPlus

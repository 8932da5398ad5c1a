import PrioPlus.Client.Packets
import PrioPlus.Client.PublicKeys
import PrioPlus.Server.Agreement

/-!
# The evaluation point of the main loop

The servers share a point `randomX` and prepare the interpolation at it once for each size. The root tables, the
cache of prepared sizes, the use counter and the point are globals. A request rebuilds the tables for its own size and
takes the cached entry, which may be older than the tables; a refresh changes the point of all entries. Both servers
keep equal globals, and what a request gets is always prepared for its size and for the current point
(`evalPoints_consistent`).
-/

namespace PrioPlus

open Finset Lib.TwoParty

/-- The method `setCheckerPrecomp(val)` on an entry that exists. The nodes stay. -/
def CheckerPreComp.renew (pre : CheckerPreComp) (val : ℤ) : CheckerPreComp :=
  { pre with x := val, xN := precompXInit pre.degN val, x2N := precompXInit pre.deg2N val }

/-- The globals of `server.cpp` around the point, with the root tables. -/
structure SnipGlobals where
  tables : RootTables
  precompStore : ℕ → Option CheckerPreComp
  randxUses : ℕ
  randomX : ℤ

/-- `RANDOMX_THRESHOLD`. -/
def randomxThreshold : ℕ := 1000000

/-- What `fmpz_randm` draws. -/
abbrev ModulusDraw := { x : ℤ // 0 ≤ x ∧ x < intModulus }

/-- `sync_randomX`: server 1 draws. -/
def syncRandomX (serverNum : ℕ) (draw : ModulusDraw) : Server ℤ :=
  if serverNum = 0 then recvFmpz
  else do
    sendMsg (.fmpz draw)
    return draw

namespace SnipGlobals

/-- After the first `sync_randomX`. -/
def init (x : ℤ) : SnipGlobals := { tables := .unset, precompStore := fun _ => none, randxUses := 0, randomX := x }

/-- A new point, for all entries of the cache. -/
def withPoint (g : SnipGlobals) (x : ℤ) : SnipGlobals :=
  { g with randxUses := 0, randomX := x, precompStore := fun N => (g.precompStore N).map fun pre => pre.renew x }

/-- `getPrecomp`. -/
def getPrecomp (g : SnipGlobals) (N : ℕ) : CheckerPreComp × SnipGlobals :=
  match g.precompStore N with
  | some pre => (pre, g)
  | none =>
    let pre := setCheckerPrecomp shipped g.tables N g.randomX
    (pre, { g with precompStore := Function.update g.precompStore N (some pre) })

end SnipGlobals

/-- The top of the main loop. -/
def refreshRandomX (serverNum : ℕ) (draw : ModulusDraw) (g : SnipGlobals) : Server SnipGlobals :=
  if randomxThreshold < g.randxUses then do
    let x ← syncRandomX serverNum draw
    return g.withPoint x
  else return g

/-- What `validate_snips` got: the size, the entry, and the point at that moment. -/
structure PrecompUse where
  numRoots : ℕ
  pre : CheckerPreComp
  randomX : ℤ

/-- The beginning of `validate_snips` on `n` packets. -/
def obtainPrecomp (g : SnipGlobals) (c : Circuit) (n : ℕ) : PrecompUse × SnipGlobals :=
  let numRoots := nextPowerOfTwo c.numMulGates
  let g := { g with tables := initRoots shipped g.tables numRoots }
  let (pre, g) := g.getPrecomp numRoots
  ({ numRoots := numRoots, pre := pre, randomX := g.randomX }, { g with randxUses := g.randxUses + n })

/-- A request that checks packets, with what each server receives and draws for it. -/
inductive SnipRequest where
  | var (msg : InitMsg) (coeff : ℕ → ℤ) (it0 it1 : Iteration VarSubmission) (prg0 prg1 : ℕ → UInt64)
      (s0 s1 : Vector VarSubmission msg.numOfInputs.toNat)
  | linreg (degree : ℕ) (msg : InitMsg) (coeff : ℕ → ℤ) (inv0 inv1 : FmpqMatInv degree)
      (it0 it1 : Iteration (LinRegSubmission degree)) (prg0 prg1 : ℕ → UInt64) (fresh : ℕ → ℕ → UInt64)
      (s0 s1 : Vector (LinRegSubmission degree) msg.numOfInputs.toNat)

namespace SnipRequest

def circuit : SnipRequest → Circuit
  | var .. => checkVar shipped
  | linreg degree .. => checkLinReg shipped degree

/-- The operation at the point `x`, and how many packets it checked. -/
def serve (serverNum : ℕ) (x : ℤ) : SnipRequest → Server ℕ
  | var msg coeff it0 it1 prg0 prg1 s0 s1 => do
    let r ← if serverNum = 0 then varOp ⟨x, coeff⟩ it0 prg0 msg 0 s0 else varOp ⟨x, coeff⟩ it1 prg1 msg 1 s1
    return r.pks.length
  | linreg _ msg coeff inv0 inv1 it0 it1 prg0 prg1 fresh s0 s1 => do
    let r ← if serverNum = 0 then linregOp inv0 ⟨x, coeff⟩ it0 prg0 fresh msg 0 s0
      else linregOp inv1 ⟨x, coeff⟩ it1 prg1 fresh msg 1 s1
    return r.pks.length

/-- The number of packets that the servers check. -/
def numPackets : SnipRequest → ℕ
  | var msg _ _ _ _ _ _ s1 => ((varSnip msg).shareMap s1.toList).entries.length
  | linreg degree msg _ _ _ _ _ _ _ fresh _ s1 => ((linregSnip degree msg fresh).shareMap s1.toList).entries.length

/-- The batch is not empty on server 1, its arrays can be allocated, the counters of the conversion get through it, and
the tables exist for the size. -/
def Served (req : SnipRequest) : Prop :=
  2 * nextPowerOfTwo req.circuit.numMulGates ≤ 2 ^ shipped.twoOrder ∧
    match req with
    | var msg _ _ _ _ _ _ s1 => (∃ s ∈ s1.toList, varOk msg s = true) ∧ (varSnip msg).Fits s1.toList
    | linreg degree msg _ _ _ _ _ _ _ fresh _ s1 =>
      0 < degree ∧ (∃ s ∈ s1.toList, linregOk msg s = true) ∧ (linregSnip degree msg fresh).Fits s1.toList

end SnipRequest

/-- The main loop on a sequence of requests, each with the draw of a refresh before it. The beginning of
`validate_snips` touches nothing but the globals, and stands here after the operation, which says how many packets
there were. -/
def serverLoop (serverNum : ℕ) : List (ModulusDraw × SnipRequest) → SnipGlobals → Server (List PrecompUse × SnipGlobals)
  | [], g => return ([], g)
  | (draw, req) :: rest, g => do
    let g ← refreshRandomX serverNum draw g
    let n ← req.serve serverNum g.randomX
    let (use, g) := obtainPrecomp g req.circuit n
    let (uses, g) ← serverLoop serverNum rest g
    return (use :: uses, g)

/-- The server from its first `sync_randomX` on. -/
def serverMain (serverNum : ℕ) (draw : ModulusDraw) (requests : List (ModulusDraw × SnipRequest)) :
    Server (List PrecompUse) := do
  let x ← syncRandomX serverNum draw
  let (uses, _) ← serverLoop serverNum requests (.init x)
  return uses

/-! ### What a request gets -/

/-- The entry is the one for the tables of its size and the current point. -/
def PrecompUse.Current (u : PrecompUse) : Prop :=
  u.pre = setCheckerPrecomp shipped (buildRoots shipped u.numRoots) u.numRoots u.randomX

/-- What the entry must be: its nodes are the `N`-th and the `2N`-th roots of unity in order, and what it evaluates is
the value of the interpolation polynomial at the current point. -/
structure PrecompUse.Right (u : PrecompUse) (c : Circuit) : Prop where
  numRoots_eq : u.numRoots = nextPowerOfTwo c.numMulGates
  x_eq : u.pre.x = u.randomX
  xN_eq : u.pre.xN = precompXInit u.pre.degN u.randomX
  x2N_eq : u.pre.x2N = precompXInit u.pre.deg2N u.randomX
  nPoints_eq : u.pre.degN.nPoints = u.numRoots ∧ u.pre.deg2N.nPoints = 2 * u.numRoots
  primitive : IsPrimitiveRoot (rootFor shipped u.numRoots) (u.numRoots + u.numRoots)
  degN_nodes : ∀ i < u.numRoots, (u.pre.degN.xPoints i : ZMod shipped.intModulus) = (rootFor shipped u.numRoots ^ 2) ^ i
  deg2N_nodes : ∀ i < 2 * u.numRoots, (u.pre.deg2N.xPoints i : ZMod shipped.intModulus) = rootFor shipped u.numRoots ^ i
  evalN : ∀ ys : ℕ → ℤ, ((precompXEval u.pre.xN ys : ℤ) : ZMod shipped.intModulus) =
    (Lagrange.interpolate (range u.numRoots) (fun i => (rootFor shipped u.numRoots ^ 2) ^ i)
      fun i => (ys i : ZMod shipped.intModulus)).eval (u.randomX : ZMod shipped.intModulus)
  eval2N : ∀ ys : ℕ → ℤ, ((precompXEval u.pre.x2N ys : ℤ) : ZMod shipped.intModulus) =
    (Lagrange.interpolate (range (2 * u.numRoots)) (fun i => rootFor shipped u.numRoots ^ i)
      fun i => (ys i : ZMod shipped.intModulus)).eval (u.randomX : ZMod shipped.intModulus)

/-- The checks of the model use the entry that the server has. -/
theorem PrecompUse.Current.checkerAt_eq {u : PrecompUse} (h : u.Current) {c : Circuit}
    (hN : u.numRoots = nextPowerOfTwo c.numMulGates) (coeff : ℕ → ℤ) (serverNum numInputs : ℕ)
    (packets : List ClientPacket) (sharesP : List ℤ) (i : ℕ) :
    checkerAt ⟨u.randomX, coeff⟩ c serverNum numInputs packets sharesP i =
      Checker.new shipped c (fun _ => 0) serverNum (packets.getD i (ClientPacket.new c.numMulGates)) u.pre
        fun j => sharesP.getD (i * numInputs + j) 0 := by
  rw [h, hN]
  rfl

section Eval

variable {n : ℕ} {pointsX : ℕ → ℤ} {x : ℤ} {v : ℕ → ZMod shipped.intModulus}

theorem precompXEval_nodes (hn : 0 < n) (hv : ∀ i < n, (pointsX i : ZMod shipped.intModulus) = v i)
    (hinj : Set.InjOn v (range n : Finset ℕ)) (hrange : ∀ i < n, 0 ≤ pointsX i ∧ pointsX i < shipped.intModulus)
    (hx : 0 ≤ x ∧ x < shipped.intModulus) (ys : ℕ → ℤ) :
    ((precompXEval (precompXInit (polyBatchPrecompInit shipped.intModulus n pointsX) x) ys : ℤ) :
        ZMod shipped.intModulus) =
      (Lagrange.interpolate (range n) v fun i => (ys i : ZMod shipped.intModulus)).eval
        (x : ZMod shipped.intModulus) := by
  have heq : Set.EqOn v (fun i => (pointsX i : ZMod shipped.intModulus)) (range n : Finset ℕ) :=
    fun i hi => (hv i (mem_range.mp hi)).symm
  have hinj' := hinj.congr heq
  have hpoly : Lagrange.interpolate (range n) (fun i => (pointsX i : ZMod shipped.intModulus))
      (fun i => (ys i : ZMod shipped.intModulus)) =
        Lagrange.interpolate (range n) v fun i => (ys i : ZMod shipped.intModulus) := by
    refine Lagrange.eq_interpolate_of_eval_eq _ hinj (Lagrange.degree_interpolate_lt _ hinj') fun i hi => ?_
    rw [← hv i (mem_range.mp hi)]
    exact Lagrange.eval_interpolate_at_node _ hinj' hi
  rw [precompXEval_eq hn hinj' hrange hx, hpoly]

end Eval

theorem PrecompUse.Current.right {u : PrecompUse} (h : u.Current) {c : Circuit}
    (hN : u.numRoots = nextPowerOfTwo c.numMulGates) (hsize : 2 * nextPowerOfTwo c.numMulGates ≤ 2 ^ shipped.twoOrder)
    (hx : 0 ≤ u.randomX ∧ u.randomX < shipped.intModulus) : u.Right c := by
  obtain ⟨numRoots, pre, randomX⟩ := u
  change pre = setCheckerPrecomp shipped (buildRoots shipped numRoots) numRoots randomX at h
  change numRoots = nextPowerOfTwo c.numMulGates at hN
  subst hN h
  have hpos := nextPowerOfTwo_pos c.numMulGates
  have hdvd := nextPowerOfTwo_dvd hsize
  have htables := buildRoots_isFor shipped hpos hdvd
  have hprimitive := rootFor_primitive hpos hdvd
  refine ⟨rfl, rfl, rfl, rfl, ⟨rfl, rfl⟩, hprimitive, htables.roots_eq, htables.roots2_eq, ?_, ?_⟩
  · exact precompXEval_nodes hpos htables.roots_eq (injOn_rootFor hpos hdvd) (fun i _ => htables.roots_range i) hx
  · refine precompXEval_nodes (Nat.mul_pos two_pos hpos) htables.roots2_eq ?_ (fun i _ => htables.roots2_range i) hx
    refine SnipInstance.injOn_pow ?_ fun _ _ => rfl
    rwa [Nat.two_mul]

/-! ### The globals over a run -/

/-- The tables are those of their size, and every entry of the cache is the one for its size and the current point. -/
structure SnipGlobals.Consistent (g : SnipGlobals) : Prop where
  tables_eq : g.tables = .unset ∨ g.tables = buildRoots shipped g.tables.numRoots
  cached : ∀ N pre, g.precompStore N = some pre → pre = setCheckerPrecomp shipped (buildRoots shipped N) N g.randomX
  point_range : 0 ≤ g.randomX ∧ g.randomX < intModulus

namespace SnipGlobals

variable {g : SnipGlobals}

theorem consistent_init (x : ModulusDraw) : (init x).Consistent :=
  ⟨Or.inl rfl, fun _ _ h => absurd h (by simp [init]), x.2⟩

theorem Consistent.withPoint (h : g.Consistent) (x : ModulusDraw) : (g.withPoint x).Consistent where
  tables_eq := h.tables_eq
  cached N pre' hstore := by
    obtain ⟨pre, hpre, rfl⟩ := Option.map_eq_some_iff.mp hstore
    rw [h.cached N pre hpre]
    rfl
  point_range := x.2

theorem Consistent.initRoots_eq (h : g.Consistent) {N : ℕ} (hN : 0 < N) :
    initRoots shipped g.tables N = buildRoots shipped N := initRoots_eq_buildRoots h.tables_eq hN

theorem Consistent.withTables (h : g.Consistent) {N : ℕ} (hN : 0 < N) :
    Consistent { g with tables := initRoots shipped g.tables N } where
  tables_eq := Or.inr (by simp only [h.initRoots_eq hN]; rfl)
  cached := h.cached
  point_range := h.point_range

/-- A cached entry is current; a new one is prepared from the tables that were just built. -/
theorem Consistent.getPrecomp (h : g.Consistent) {N : ℕ} (ht : g.tables = buildRoots shipped N) :
    (g.getPrecomp N).1 = setCheckerPrecomp shipped (buildRoots shipped N) N g.randomX ∧
      (g.getPrecomp N).2.Consistent ∧ (g.getPrecomp N).2.randomX = g.randomX := by
  unfold SnipGlobals.getPrecomp
  cases hstore : g.precompStore N with
  | some pre => exact ⟨h.cached N pre hstore, h, rfl⟩
  | none =>
    refine ⟨by rw [ht], ⟨h.tables_eq, fun N' pre hpre => ?_, h.point_range⟩, rfl⟩
    by_cases hN : N' = N
    · subst hN
      simp only [Function.update_self] at hpre
      rw [← Option.some.inj hpre, ht]
    · simp only [Function.update_of_ne hN] at hpre
      exact h.cached N' pre hpre

end SnipGlobals

theorem obtainPrecomp_spec {g : SnipGlobals} (h : g.Consistent) (c : Circuit) (n : ℕ) :
    (obtainPrecomp g c n).1.Current ∧ (obtainPrecomp g c n).1.numRoots = nextPowerOfTwo c.numMulGates ∧
      (obtainPrecomp g c n).1.randomX = g.randomX ∧ (obtainPrecomp g c n).2.Consistent := by
  have hpos := nextPowerOfTwo_pos c.numMulGates
  obtain ⟨hpre, hconsistent, hx⟩ := (h.withTables hpos).getPrecomp (h.initRoots_eq hpos)
  refine ⟨?_, rfl, hx, ⟨hconsistent.tables_eq, hconsistent.cached, hconsistent.point_range⟩⟩
  exact hpre.trans (congrArg (setCheckerPrecomp shipped _ _) hx.symm)

/-! ### The run -/

theorem syncRandomX_reaches (draw : ModulusDraw) :
    Reaches (.start (syncRandomX 0 draw) (syncRandomX 1 draw)) (.done draw draw) := by
  unfold syncRandomX
  rw [if_pos rfl, if_neg one_ne_zero]
  exact Reaches.msg10 (Msg.fmpz draw) _ _

/-- The globals after the top of the main loop. -/
def SnipGlobals.refreshed (g : SnipGlobals) (draw : ModulusDraw) : SnipGlobals :=
  if randomxThreshold < g.randxUses then g.withPoint draw else g

theorem SnipGlobals.Consistent.refreshed {g : SnipGlobals} (h : g.Consistent) (draw : ModulusDraw) :
    (g.refreshed draw).Consistent := by
  unfold SnipGlobals.refreshed
  split_ifs
  · exact h.withPoint draw
  · exact h

theorem refreshRandomX_reaches (g : SnipGlobals) (draw : ModulusDraw) :
    Reaches (.start (refreshRandomX 0 draw g) (refreshRandomX 1 draw g))
      (.done (g.refreshed draw) (g.refreshed draw)) := by
  unfold refreshRandomX SnipGlobals.refreshed
  split_ifs
  · exact Reaches.bind (syncRandomX_reaches draw) (Reaches.refl _)
  · exact Reaches.refl _

theorem SnipRequest.serve_reaches {req : SnipRequest} (h : req.Served) (x : ℤ) :
    Reaches (.start (req.serve 0 x) (req.serve 1 x)) (.done req.numPackets req.numPackets) := by
  cases req with
  | var msg coeff it0 it1 prg0 prg1 s0 s1 =>
    have hterm := varOp_terminates ⟨x, coeff⟩ it0 it1 prg0 prg1 msg s0 s1 h.2.1 h.2.2
    have hreaches := Reaches.bind (f := fun r => .ret r.pks.length) (g := fun r => .ret r.pks.length) hterm.reaches
      (Reaches.refl _)
    simp only [toSnipResult_varFinish, varSent, SnipOp.pks_result0, SnipOp.pks_result1, SnipOp.length_sentPks]
      at hreaches
    exact hreaches
  | linreg degree msg coeff inv0 inv1 it0 it1 prg0 prg1 fresh s0 s1 =>
    have hterm := linregOp_terminates h.2.1 inv0 inv1 ⟨x, coeff⟩ it0 it1 prg0 prg1 fresh msg s0 s1 h.2.2.1 h.2.2.2
    have hreaches := Reaches.bind (f := fun r => .ret r.pks.length) (g := fun r => .ret r.pks.length) hterm.reaches
      (Reaches.refl _)
    simp only [toSnipResult_linregFinish, linregSent, SnipOp.pks_result0, SnipOp.pks_result1,
      SnipOp.length_sentPks] at hreaches
    exact hreaches

/-- What the main loop gets for each request. -/
def loopUses : List (ModulusDraw × SnipRequest) → SnipGlobals → List PrecompUse × SnipGlobals
  | [], g => ([], g)
  | (draw, req) :: rest, g =>
    let (use, g) := obtainPrecomp (g.refreshed draw) req.circuit req.numPackets
    let (uses, g) := loopUses rest g
    (use :: uses, g)

theorem serverLoop_reaches (requests : List (ModulusDraw × SnipRequest)) (hserved : ∀ r ∈ requests, r.2.Served)
    (g : SnipGlobals) :
    Reaches (.start (serverLoop 0 requests g) (serverLoop 1 requests g))
      (.done (loopUses requests g) (loopUses requests g)) := by
  induction requests generalizing g with
  | nil => exact Reaches.refl _
  | cons r requests ih =>
    obtain ⟨draw, req⟩ := r
    have hreq : req.Served := hserved _ List.mem_cons_self
    apply Reaches.bind (refreshRandomX_reaches g draw)
    apply Reaches.bind (req.serve_reaches hreq _)
    exact Reaches.bind (ih (fun r hr => hserved r (List.mem_cons_of_mem _ hr)) _) (Reaches.refl _)

theorem loopUses_right (requests : List (ModulusDraw × SnipRequest)) (hserved : ∀ r ∈ requests, r.2.Served)
    {g : SnipGlobals} (h : g.Consistent) :
    List.Forall₂ (fun (u : PrecompUse) r => u.Right r.2.circuit) (loopUses requests g).1 requests := by
  induction requests generalizing g with
  | nil => exact List.Forall₂.nil
  | cons r requests ih =>
    obtain ⟨draw, req⟩ := r
    have hreq : req.Served := hserved _ List.mem_cons_self
    have hpoint := h.refreshed draw
    obtain ⟨hcurrent, hsize, hx, hnext⟩ := obtainPrecomp_spec hpoint req.circuit req.numPackets
    refine List.Forall₂.cons ?_ (ih (fun r hr => hserved r (List.mem_cons_of_mem _ hr)) hnext)
    apply hcurrent.right hsize hreq.1
    rw [hx]
    exact hpoint.point_range

theorem serverMain_terminates (draw : ModulusDraw) (requests : List (ModulusDraw × SnipRequest))
    (hserved : ∀ r ∈ requests, r.2.Served) :
    Terminates (serverMain 0 draw requests) (serverMain 1 draw requests) (loopUses requests (.init draw)).1
      (loopUses requests (.init draw)).1 := by
  apply Reaches.terminates
  refine Reaches.bind (syncRandomX_reaches draw) ?_
  exact Reaches.bind (serverLoop_reaches requests hserved _) (Reaches.refl _)

/-- Over any sequence of requests both servers get the same entries, each for its size and the current point. -/
theorem evalPoints_consistent (draw : ModulusDraw) (requests : List (ModulusDraw × SnipRequest))
    (hserved : ∀ r ∈ requests, r.2.Served) :
    ∃ uses, Terminates (serverMain 0 draw requests) (serverMain 1 draw requests) uses uses ∧
      List.Forall₂ (fun (u : PrecompUse) r => u.Right r.2.circuit) uses requests := by
  exact ⟨_, serverMain_terminates draw requests hserved,
    loopUses_right requests hserved (SnipGlobals.consistent_init draw)⟩

/-! ### A refresh between two requests -/

theorem SnipGlobals.getPrecomp_snd (g : SnipGlobals) (N : ℕ) :
    (g.getPrecomp N).2.randxUses = g.randxUses ∧ (g.getPrecomp N).2.randomX = g.randomX := by
  unfold SnipGlobals.getPrecomp
  split
  · exact ⟨rfl, rfl⟩
  · exact ⟨rfl, rfl⟩

theorem randxUses_obtainPrecomp (g : SnipGlobals) (c : Circuit) (n : ℕ) :
    (obtainPrecomp g c n).2.randxUses = g.randxUses + n :=
  congrArg (· + n) (SnipGlobals.getPrecomp_snd _ _).1

theorem randomX_obtainPrecomp (g : SnipGlobals) (c : Circuit) (n : ℕ) :
    (obtainPrecomp g c n).1.randomX = g.randomX := (SnipGlobals.getPrecomp_snd _ _).2

/-- A submission of a one, with a key for each number. -/
def keyedVar (i : ℕ) : VarSubmission :=
  { oneVarSubmission with share := { pk := pubKeyToHex (UInt64.ofNat i, 0), val := 1, valSquared := 1 } }

def keyedBatch (msg : InitMsg) : Vector VarSubmission msg.numOfInputs.toNat := Vector.ofFn fun i => keyedVar i

theorem length_shareMap_keyedBatch {msg : InitMsg} (hbits : msg.numBits = 1) :
    ((varSnip msg).shareMap (keyedBatch msg).toList).entries.length = msg.numOfInputs.toNat := by
  rw [(varSnip msg).length_shareMap_of_nodup, Vector.length_toList]
  · rw [keyedBatch, Vector.toList_ofFn, List.map_ofFn, List.nodup_ofFn]
    intro i j h
    have hlt (i : Fin msg.numOfInputs.toNat) : i.val < 2 ^ 64 :=
      i.isLt.trans (msg.numOfInputs.toNat_lt.trans (by decide))
    have hword := congrArg (fun key : UInt64 × UInt64 => key.1.toNat) (pubKeyToHex_injective h)
    simp only [UInt64.toNat_ofNat_of_lt' (hlt i), UInt64.toNat_ofNat_of_lt' (hlt j)] at hword
    exact Fin.ext hword
  · rw [keyedBatch, Vector.toList_ofFn, List.forall_mem_ofFn_iff]
    intro i
    change varOk msg (keyedVar i) = true
    rw [varOk, hbits]
    rfl

/-- The point is drawn anew after a request of more than a million packets. -/
theorem randomX_loopUses_pair (draw draw0 draw1 : ModulusDraw) (req0 req1 : SnipRequest)
    (h : randomxThreshold < req0.numPackets) :
    (loopUses [(draw0, req0), (draw1, req1)] (.init draw)).1.map PrecompUse.randomX = [draw.val, draw1.val] := by
  have hfirst : (SnipGlobals.init draw).refreshed draw0 = .init draw := if_neg (Nat.not_lt_zero _)
  have hsecond (g : SnipGlobals) (hg : randomxThreshold < g.randxUses) : (g.refreshed draw1).randomX = draw1 := by
    rw [SnipGlobals.refreshed, if_pos hg]
    rfl
  simp only [loopUses, List.map_cons, List.map_nil, randomX_obtainPrecomp, hfirst]
  rw [hsecond]
  · rfl
  · rw [randxUses_obtainPrecomp]
    exact h.trans_le (Nat.le_add_left _ _)

/-- Bits from a million and one clients. -/
def manyMsg : InitMsg := { numBits := 1, numOfInputs := 1000001, maxInp := 0 }

/-- A variance of so many values that the regression after it gets a new point. -/
def twoRequests : List (ModulusDraw × SnipRequest) :=
  [(⟨5, by decide⟩, .var manyMsg (fun _ => 1) default default (fun _ => 5) (fun _ => 7) (keyedBatch manyMsg)
      (keyedBatch manyMsg)),
    (⟨6, by decide⟩, .linreg 2 twoVarMsg (fun _ => 1) (adjugateInv 2) (adjugateInv 2) default default (fun _ => 5)
      (fun _ => 7) (fun _ _ => 0) crossedLinReg0 crossedLinReg1)]

theorem served_twoRequests : ∀ r ∈ twoRequests, r.2.Served := by
  have hvar : (checkVar shipped).numMulGates = 1 := Circuit.numMulGates_checkVar shipped
  have hlinreg : (checkLinReg shipped 2).numMulGates = 2 := by decide
  have hlen : ((varSnip manyMsg).shareMap (keyedBatch manyMsg).toList).entries.length = 1000001 :=
    (length_shareMap_keyedBatch rfl).trans rfl
  intro r hr
  rcases List.mem_pair.mp hr with rfl | rfl
  · refine ⟨?_, ⟨keyedVar 0, ?_, rfl⟩, ?_⟩
    · rw [SnipRequest.circuit, hvar]
      simp [nextPowerOfTwo, doubleWhile]
      decide
    · rw [keyedBatch, Vector.toList_ofFn, List.mem_ofFn]
      exact ⟨⟨0, by decide⟩, rfl⟩
    · rw [SnipOp.Fits, hlen]
      exact ⟨by decide, by decide, by decide, by decide⟩
  · refine ⟨?_, Nat.two_pos, ⟨linregSubmission 0 2 3 13 11, List.mem_cons_self, by decide⟩, fits_crossedLinReg1⟩
    rw [SnipRequest.circuit, hlinreg]
    simp [nextPowerOfTwo, doubleWhile]
    decide

/-- The second request uses the point that was drawn before it. -/
theorem evalPoints_consistent_twoRequests :
    ∃ uses, Terminates (serverMain 0 ⟨7, by decide⟩ twoRequests) (serverMain 1 ⟨7, by decide⟩ twoRequests) uses uses ∧
      List.Forall₂ (fun (u : PrecompUse) r => u.Right r.2.circuit) uses twoRequests ∧
      uses.map PrecompUse.randomX = [7, 6] := by
  obtain ⟨uses, hterm, hright⟩ := evalPoints_consistent ⟨7, by decide⟩ twoRequests served_twoRequests
  refine ⟨uses, hterm, hright, ?_⟩
  rw [(hterm.unique (serverMain_terminates _ _ served_twoRequests)).1]
  refine randomX_loopUses_pair ⟨7, by decide⟩ ⟨5, by decide⟩ ⟨6, by decide⟩ _ _ ?_
  rw [SnipRequest.numPackets, length_shareMap_keyedBatch rfl]
  decide

end PrioPlus

import PrioPlus.Client.Var
import PrioPlus.Correlated.Failures
import PrioPlus.Lib.WordRows
import PrioPlus.Server.LinRegHonest
import PrioPlus.Server.SnipSound

/-!
# `var_op` end to end

For honest clients, and all but few of the words of the generator that the conversion draws, `var_op` answers with the
variance of the clients' values, whatever the point and the coefficients of the checks are (`varOp_complete`). It is
what the client prints as the true answer. How few these words are depends on the sizes, by `failingWords`: with 24 bits
there are others for up to `2 ^ 15 - 1` clients, with 31 bits only for one client.
-/

namespace PrioPlus

open Finset Lib.TwoParty Lib.WordRows

/-! ### Packets that pass -/

namespace SnipOp

variable {S : Type} (op : SnipOp S)

/-- The packets were made by `share_polynomials`, for the fields that the servers hold. -/
def HonestPackets (pairs : List (S × S)) : Prop :=
  ∀ p ∈ pairs, ∃ (t : RootTables) (inps : ℕ → ℤ) (d : ShareDraws),
    (t = RootTables.unset ∨ t = buildRoots shipped (nextPowerOfTwo op.circuit.numMulGates)) ∧
    op.circuit.eval shipped (fun _ => 0) inps = true ∧
    (op.packet p.1, op.packet p.2) =
      (sharePolynomials shipped t op.circuit (op.circuit.evalWires shipped (fun _ => 0) inps) d).2 ∧
    ∀ j < op.numFields, (inps j : ZMod intModulus) = op.pairValue p j

variable {op} {pairs : List (S × S)} {submissions0 submissions1 : List S} {sync : SnipSync} {it : Iteration S}
  {prg0 : ℕ → UInt64}

theorem HonestPairs.snipCorrect (h : op.HonestPairs pairs submissions0 submissions1) (hpackets : op.HonestPackets pairs)
    (hconv : op.ConversionCorrect it prg0 submissions0 submissions1) (htop : op.circuit.Topological)
    (hinputs : op.circuit.numInputs = op.numFields)
    (hN : 2 * nextPowerOfTwo op.circuit.numMulGates ≤ 2 ^ shipped.twoOrder) (hx : 0 ≤ sync.x ∧ sync.x < intModulus) :
    op.SnipCorrect sync it prg0 submissions0 submissions1 := by
  intro i hi a b ha hb _
  obtain ⟨order, hperm, horder⟩ := h.exists_order it
  have hi' : i < order.length := by rwa [op.length_eq_of_keys it submissions1 horder]
  obtain ⟨t, inps, d, ht, heval, hmade, hinps⟩ := hpackets _ (hperm.subset (List.getElem_mem hi'))
  obtain rfl : a = order[i].1 := Option.some.inj (ha.symm.trans (h.first0_slot it hperm horder hi hi'))
  obtain rfl : b = order[i].2 := Option.some.inj (hb.symm.trans (h.first1_slot it hperm horder hi hi'))
  have hhonest : (op.slotCheck order[i].1 order[i].2 (op.sentShares0 it prg0 submissions0 submissions1)
      (op.sentShares1 it prg0 submissions0 submissions1) i).Honest shipped t (fun _ => 0) inps d := by
    refine ⟨htop, heval, ht, hmade, fun j hj => ?_⟩
    have hj : j < op.numFields := hj.trans_eq hinputs
    rw [← cast_eq_iff_emod, Int.cast_add]
    exact (h.sentShares_add hperm horder hconv hi hi' hj).trans (hinps j hj).symm
  exact hhonest.accepts (by exact hN) hx _

theorem HonestPairs.exists_conversionFails (h : op.HonestPairs pairs submissions0 submissions1) {numClients : ℕ}
    (hnum : pairs.length = numClients) (it : Iteration S) (hbits : ∀ j < op.numFields, op.nbits j ≤ 63) :
    ∃ failing : Finset (Fin (totalBits numClients op.numFields op.nbits) → UInt64),
      failing.card ≤ failingWords numClients op.numFields op.nbits ∧
      ∀ words ∉ failing, op.ConversionCorrect it (prgOf words) submissions0 submissions1 := by
  have hlen : (op.sentPks it submissions1).length = numClients := by
    rw [(h.sentPks_perm it).length_eq, List.length_map, hnum]
  obtain ⟨failing, hcard, hgood⟩ := exists_failing_words numClients op.numFields op.nbits hbits
    (op.shares (op.shareMap submissions0) (op.sentPks it submissions1))
    (op.shares (op.shareMap submissions1) (op.sentPks it submissions1))
  refine ⟨failing, hcard, fun words hwords => ?_⟩
  simp only [ConversionCorrect, sentShares0, sentShares1, converted0, converted1, hlen]
  exact hgood words hwords

end SnipOp

/-! ### The batch -/

section Batch

variable {msg : InitMsg} (hbits : msg.numBits.toNat < 32) {t : RootTables} (ht : VarTables t) {batch : List VarClient}

/-- `Var(X)` of the values, the mean of the squared distances to the mean. -/
def populationVariance (values : List ℕ) : ℚ :=
  let mean : ℚ := values.sum / values.length
  (values.map fun v : ℕ => ((v : ℚ) - mean) ^ 2).sum / values.length

theorem populationVariance_eq {values : List ℕ} (hne : values ≠ []) :
    populationVariance values =
      ((values.map (· ^ 2)).sum : ℕ) / (values.length : ℚ) -
        (values.sum / values.length) * (values.sum / values.length) := by
  have hlen : (values.length : ℚ) ≠ 0 := by exact_mod_cast (List.length_pos_of_ne_nil hne).ne'
  have hexpand : ∀ (m : ℚ) (l : List ℕ), (l.map fun v : ℕ => ((v : ℚ) - m) ^ 2).sum =
      ((l.map (· ^ 2)).sum : ℕ) - 2 * m * (l.sum : ℕ) + l.length * m ^ 2 := by
    intro m l
    induction l with
    | nil => simp
    | cons v l ih =>
      simp only [List.map_cons, List.sum_cons, List.length_cons, ih]
      push_cast
      ring
  rw [populationVariance, hexpand]
  field_simp
  ring

include hbits

theorem varBits_eq (j : ℕ) :
    (varSnip msg).nbits j = if j = 0 then msg.numBits.toNat else msg.numBits.toNat * 2 := by
  change (if j = 0 then msg.numBits.toNat else (msg.numBits * 2).toNat) = _
  split_ifs
  · rfl
  · rw [UInt32.toNat_mul]
    exact Nat.mod_eq_of_lt (by simp; omega)

theorem pairValue_var (c : VarClient) (t : RootTables) :
    (varSnip msg).pairValue (c.submissions msg.numBits t).2 0 = (c.val msg.numBits).toNat ∧
      (varSnip msg).pairValue (c.submissions msg.numBits t).2 1 = (c.val msg.numBits).toNat ^ 2 := by
  have hxor : ∀ v w : UInt64, v ^^^ (v ^^^ w) = w := by
    intro v w
    rw [← UInt64.xor_assoc, UInt64.xor_self, UInt64.zero_xor]
  constructor
  · refine (congrArg (fun w : UInt64 => w.toNat % 2 ^ (varSnip msg).nbits 0) (hxor _ _)).trans ?_
    rw [varBits_eq hbits, if_pos rfl]
    exact Nat.mod_eq_of_lt (c.toNat_val_lt hbits)
  · refine (congrArg (fun w : UInt64 => w.toNat % 2 ^ (varSnip msg).nbits 1) (hxor _ _)).trans ?_
    rw [varBits_eq hbits, if_neg one_ne_zero, ← c.toNat_squared hbits]
    exact Nat.mod_eq_of_lt (c.toNat_squared_lt hbits)

theorem cast_inp_var (c : VarClient) (t : RootTables) {j : ℕ} (hj : j < 2) :
    (((c.inp msg.numBits).getD j 0 : ℤ) : ZMod intModulus) =
      (varSnip msg).pairValue (c.submissions msg.numBits t).2 j := by
  obtain ⟨hval, hsquared⟩ := pairValue_var hbits c t
  have hvalLt := (c.toNat_val_lt hbits).trans (Nat.pow_lt_pow_right one_lt_two (show msg.numBits.toNat < 63 by omega))
  have hsquaredLt := (c.toNat_squared_lt hbits).trans
    (Nat.pow_lt_pow_right one_lt_two (show msg.numBits.toNat * 2 < 63 by omega))
  interval_cases j
  · rw [hval, VarClient.inp, List.getD_cons_zero, fmpzSetSi_eq hvalLt, Int.cast_natCast]
  · rw [hsquared, VarClient.inp, List.getD_cons_succ, List.getD_cons_zero, fmpzSetSi_eq hsquaredLt,
      c.toNat_squared hbits, Int.cast_natCast]

theorem eval_of_pairValue_var (c : VarClient) (t : RootTables) {inps : ℕ → ℤ}
    (hinps : ∀ j < 2, (inps j : ZMod intModulus) = (varSnip msg).pairValue (c.submissions msg.numBits t).2 j) :
    (checkVar shipped).eval shipped (fun _ => 0) inps = true := by
  obtain ⟨hval, hsquared⟩ := pairValue_var hbits c t
  have h0 := hinps 0 Nat.two_pos
  have h1 := hinps 1 Nat.one_lt_two
  rw [hval] at h0
  rw [hsquared, Nat.cast_pow, pow_two] at h1
  refine (Circuit.eval_checkVar_iff shipped _ _).mpr ?_
  exact (congrArg₂ (· * ·) h0 h0).trans h1.symm

section Pairs

variable (hdistinct : (batch.map VarClient.pk).Nodup) {s0 s1 : List VarSubmission}
  (hs0 : s0.Perm ((varPairs msg.numBits t batch).map Prod.fst))
  (hs1 : s1.Perm ((varPairs msg.numBits t batch).map Prod.snd))
include ht

theorem honestPackets_var : (varSnip msg).HonestPackets (varPairs msg.numBits t batch) := by
  intro p hp
  obtain ⟨c, -, t', ht', rfl⟩ := mem_varPairs msg.numBits ht hp
  refine ⟨t', fun j => (c.inp msg.numBits).getD j 0, c.draws, ht', ?_, rfl, fun j hj => cast_inp_var hbits c t' hj⟩
  exact eval_of_pairValue_var hbits c t' fun j hj => cast_inp_var hbits c t' hj

include hdistinct hs0 hs1

theorem honestPairs_var : (varSnip msg).HonestPairs (varPairs msg.numBits t batch) s0 s1 where
  pk_eq p hp := by
    obtain ⟨c, -, t', -, rfl⟩ := mem_varPairs msg.numBits ht hp
    rfl
  ok0 p hp := by
    obtain ⟨c, -, t', -, rfl⟩ := mem_varPairs msg.numBits ht hp
    exact VarClient.varOk_of_lt hbits (c.toNat_share0_lt hbits) (c.toNat_share0_squared_lt hbits) (packetBytes_pos _)
  ok1 p hp := by
    obtain ⟨c, -, t', -, rfl⟩ := mem_varPairs msg.numBits ht hp
    exact VarClient.varOk_of_lt hbits (c.toNat_share1_lt hbits) (c.toNat_share1_squared_lt hbits) (packetBytes_pos _)
  nodup := by
    rw [map_varPairs msg.numBits _ VarClient.pk fun _ _ => rfl]
    exact hdistinct
  perm0 := hs0
  perm1 := hs1

end Pairs

/-- The values of the clients. -/
def clientValues (numBits : UInt32) (batch : List VarClient) : List ℕ := batch.map fun c => (c.val numBits).toNat

theorem sum_pairValue_var (t : RootTables) (batch : List VarClient) :
    ((varPairs msg.numBits t batch).map fun p => (varSnip msg).pairValue p 0).sum =
        (clientValues msg.numBits batch).sum ∧
      ((varPairs msg.numBits t batch).map fun p => (varSnip msg).pairValue p 1).sum =
        ((clientValues msg.numBits batch).map (· ^ 2)).sum := by
  rw [map_varPairs msg.numBits _ _ fun c t => (pairValue_var hbits c t).1,
    map_varPairs msg.numBits _ _ fun c t => (pairValue_var hbits c t).2, clientValues, List.map_map]
  exact ⟨rfl, rfl⟩

end Batch

theorem sum_le_sum_sq (values : List ℕ) : values.sum ≤ (values.map (· ^ 2)).sum := by
  have hle := List.sum_le_sum (l := values) (f := id) (g := (· ^ 2)) fun v _ => Nat.le_self_pow two_ne_zero v
  rwa [List.map_id] at hle

theorem trueVariance_eq {numBits : UInt32} (hbits : numBits.toNat < 32) (t : RootTables) {batch : List VarClient}
    (hne : batch ≠ []) (hsum : ((clientValues numBits batch).map (· ^ 2)).sum < 2 ^ 64) :
    trueVariance (varOpHelper numBits t (0, 0) batch).2 batch.length =
      populationVariance (clientValues numBits batch) := by
  have hvalues : (batch.map fun c => c.val numBits).map UInt64.toNat = clientValues numBits batch := List.map_map
  have hsquares : (batch.map fun c => c.squared numBits).map UInt64.toNat =
      (clientValues numBits batch).map (· ^ 2) := by
    rw [clientValues, List.map_map, List.map_map]
    exact List.map_congr_left fun c _ => c.toNat_squared hbits
  have hle := sum_le_sum_sq (clientValues numBits batch)
  have hlen : (clientValues numBits batch).length = batch.length := List.length_map _
  have hvaluesNe : clientValues numBits batch ≠ [] := by simpa [clientValues] using hne
  have hvalSum : (batch.map fun c : VarClient => c.val numBits).sum.toNat = (clientValues numBits batch).sum :=
    (toNat_sum_of_lt (by rw [hvalues]; omega)).trans (congrArg List.sum hvalues)
  have hsquaredSum : (batch.map fun c : VarClient => c.squared numBits).sum.toNat =
      ((clientValues numBits batch).map (· ^ 2)).sum :=
    (toNat_sum_of_lt (by rw [hsquares]; exact hsum)).trans (congrArg List.sum hsquares)
  rw [populationVariance_eq hvaluesNe, varOpHelper_snd, trueVariance, UInt64.zero_add, UInt64.zero_add, hvalSum,
    hsquaredSum, hlen]

theorem varFinish_honest {msg : InitMsg} (hbits : msg.numBits.toNat < 32) {t : RootTables} (ht : VarTables t)
    {batch : List VarClient} (hlen : batch.length = msg.numOfInputs.toNat) (hne : batch ≠ [])
    (hsum : ((clientValues msg.numBits batch).map (· ^ 2)).sum < intModulus) {s0 s1 : List VarSubmission}
    (hpairs : (varSnip msg).HonestPairs (varPairs msg.numBits t batch) s0 s1) {sync : SnipSync}
    {it : Iteration VarSubmission} {prg0 : ℕ → UInt64} (hconv : (varSnip msg).ConversionCorrect it prg0 s0 s1)
    (hsnip : (varSnip msg).SnipCorrect sync it prg0 s0 s1) :
    let r := varFinish msg.numOfInputs.toNat ((varSnip msg).result0 sync it prg0 s0 s1)
      ((varSnip msg).result1 sync it prg0 s0 s1).accum
    r.ret = .ans ∧ r.numValid = msg.numOfInputs.toNat ∧
      r.ans = some (populationVariance (clientValues msg.numBits batch)) := by
  intro r
  have heval : ∀ p ∈ varPairs msg.numBits t batch, ∀ inps : ℕ → ℤ,
      (∀ j < 2, (inps j : ZMod intModulus) = (varSnip msg).pairValue p j) →
        (checkVar shipped).eval shipped (fun _ => 0) inps = true := by
    intro p hp inps hinps
    obtain ⟨c, -, t', -, rfl⟩ := mem_varPairs msg.numBits ht hp
    exact eval_of_pairValue_var hbits c t' hinps
  have hpos : 0 < batch.length := List.length_pos_of_ne_nil hne
  have hvalid := (hpairs.numValid_eq hconv hsnip heval).trans ((length_varPairs msg.numBits t batch).trans hlen)
  have hthreshold : ¬ belowThreshold ((varSnip msg).result0 sync it prg0 s0 s1).numValid msg.numOfInputs.toNat := by
    rw [hvalid, belowThreshold_iff]
    omega
  -- neither sum passes the modulus
  obtain ⟨hsumVal, hsumSq⟩ := sum_pairValue_var hbits t batch
  have htotal0 := hpairs.totals_eq hconv hsnip heval (j := 0) Nat.two_pos
  have htotal1 := hpairs.totals_eq hconv hsnip heval (j := 1) Nat.one_lt_two
  rw [hsumVal, Nat.mod_eq_of_lt ((sum_le_sum_sq _).trans_lt hsum)] at htotal0
  rw [hsumSq, Nat.mod_eq_of_lt hsum] at htotal1
  have hvaluesLen : (clientValues msg.numBits batch).length = msg.numOfInputs.toNat := by
    rw [clientValues, List.length_map, hlen]
  have hans : variance (sumAccumulates 2 ((varSnip msg).result0 sync it prg0 s0 s1).accum
      ((varSnip msg).result1 sync it prg0 s0 s1).accum) msg.numOfInputs.toNat =
        populationVariance (clientValues msg.numBits batch) := by
    rw [populationVariance_eq (List.ne_nil_of_length_pos (by omega)), hvaluesLen]
    exact congrArg₂ (fun ex ex2 : ℤ => (ex2 : ℚ) / (msg.numOfInputs.toNat : ℚ) -
      (ex / msg.numOfInputs.toNat : ℚ) * (ex / msg.numOfInputs.toNat)) htotal0 htotal1
  have hfinish : r = _ := if_neg hthreshold
  rw [hfinish]
  refine ⟨rfl, hvalid, congrArg some ?_⟩
  rw [← hans]
  exact congrArg (variance _) hvalid

def varClient (pk : UInt8) (x : UInt64) : VarClient where
  realVal := x
  share0 := 5
  share0Squared := 11
  pk := Vector.replicate 32 pk
  draws := ⟨7, 7, fun _ => 7, 7, 7, 7, fun _ => 7, 7, 7, 7, 7, 7⟩

/-- Two clients that hold one and two. -/
def twoVarClients : Vector VarClient twoVarMsg.numOfInputs.toNat := ⟨#[varClient 0 1, varClient 1 2], rfl⟩

/-- What the servers receive from them. -/
def twoVarPairs : Vector (VarSubmission × VarSubmission) twoVarMsg.numOfInputs.toNat :=
  ⟨(varOpHelper twoVarMsg.numBits RootTables.unset (0, 0) twoVarClients.toList).1.toArray, rfl⟩

end PrioPlus

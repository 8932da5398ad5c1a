import Mathlib.Data.UInt
import PrioPlus.Client.LinReg

/-!
# `var_op_helper` of `client.cpp`

A client draws a value, squares it, and splits both into two words whose xor they are. The packets prove the square on
the array `inp`. The client also adds up its values and squares, and prints the variance that it expects.
-/

namespace PrioPlus

/-- What one client draws. -/
structure VarClient where
  realVal : UInt64
  share0 : UInt64
  share0Squared : UInt64
  pk : Pk
  draws : ShareDraws

namespace VarClient

variable (numBits : UInt32) (c : VarClient)

/-- `real_val`. -/
def val : UInt64 := c.realVal % maxVal numBits

/-- `squared`. -/
def squared : UInt64 := c.val numBits * c.val numBits

/-- `varshare0`. -/
def varShare0 : VarShare where
  pk := c.pk
  val := c.share0 % maxVal numBits
  valSquared := c.share0Squared % (maxVal numBits * maxVal numBits)

/-- `varshare1`. -/
def varShare1 : VarShare where
  pk := c.pk
  val := c.share0 % maxVal numBits ^^^ c.val numBits
  valSquared := c.share0Squared % (maxVal numBits * maxVal numBits) ^^^ c.squared numBits

def inp : List ℤ := [fmpzSetSi (c.val numBits), fmpzSetSi (c.squared numBits)]

/-- What the two servers receive from the client, and the root tables that it leaves behind. -/
def submissions (t : RootTables) : RootTables × VarSubmission × VarSubmission :=
  let circuit := checkVar shipped
  let wire := circuit.evalWires shipped (fun _ => 0) fun j => (c.inp numBits).getD j 0
  let shared := sharePolynomials shipped t circuit wire c.draws
  (shared.1,
    { share := c.varShare0 numBits, packet := shared.2.1, packetBytes := LinRegClient.packetBytes shared.2.1,
      nMul_eq := rfl },
    { share := c.varShare1 numBits, packet := shared.2.2, packetBytes := LinRegClient.packetBytes shared.2.2,
      nMul_eq := rfl })

end VarClient

/-- `var_op_helper`: the submissions, one after the other, with the root tables of the process, and the sums that the
helper is handed and adds to. -/
def varOpHelper (numBits : UInt32) :
    RootTables → UInt64 × UInt64 → List VarClient → List (VarSubmission × VarSubmission) × UInt64 × UInt64
  | _, sums, [] => ([], sums)
  | t, sums, c :: cs =>
    let sent := c.submissions numBits t
    let rest := varOpHelper numBits sent.1 (sums.1 + c.val numBits, sums.2 + c.squared numBits) cs
    (sent.2 :: rest.1, rest.2)

/-- What `var_op` of the client prints as the true answer, without the rounding to a `double`. -/
def trueVariance (sums : UInt64 × UInt64) (numreqs : ℕ) : ℚ :=
  let ex : ℚ := sums.1.toNat / numreqs
  let ex2 : ℚ := sums.2.toNat / numreqs
  ex2 - ex * ex

section Helper

variable (numBits : UInt32)

/-- The pairs do not depend on the sums. -/
def varPairs (t : RootTables) (cs : List VarClient) : List (VarSubmission × VarSubmission) :=
  (varOpHelper numBits t (0, 0) cs).1

theorem varOpHelper_fst (t : RootTables) (sums : UInt64 × UInt64) (cs : List VarClient) :
    (varOpHelper numBits t sums cs).1 = varPairs numBits t cs := by
  induction cs generalizing t sums with
  | nil => rfl
  | cons c cs ih =>
    change (c.submissions numBits t).2 :: (varOpHelper numBits _ _ cs).1 =
      (c.submissions numBits t).2 :: (varOpHelper numBits _ _ cs).1
    rw [ih, ih]

theorem varPairs_cons (t : RootTables) (c : VarClient) (cs : List VarClient) :
    varPairs numBits t (c :: cs) =
      (c.submissions numBits t).2 :: varPairs numBits (c.submissions numBits t).1 cs := by
  change (c.submissions numBits t).2 :: (varOpHelper numBits _ _ cs).1 = _
  rw [varOpHelper_fst]

theorem varOpHelper_snd (t : RootTables) (sums : UInt64 × UInt64) (cs : List VarClient) :
    (varOpHelper numBits t sums cs).2 =
      (sums.1 + (cs.map fun c => c.val numBits).sum, sums.2 + (cs.map fun c => c.squared numBits).sum) := by
  induction cs generalizing t sums with
  | nil => simp [varOpHelper]
  | cons c cs ih =>
    rw [varOpHelper, ih]
    simp only [List.map_cons, List.sum_cons, UInt64.add_assoc]

theorem map_varPairs {β : Type*} (f : VarSubmission × VarSubmission → β) (g : VarClient → β)
    (hfg : ∀ c t, f (c.submissions numBits t).2 = g c) (t : RootTables) (cs : List VarClient) :
    (varPairs numBits t cs).map f = cs.map g := by
  induction cs generalizing t with
  | nil => rfl
  | cons c cs ih => rw [varPairs_cons, List.map_cons, List.map_cons, ih, hfg]

theorem length_varPairs (t : RootTables) (cs : List VarClient) : (varPairs numBits t cs).length = cs.length := by
  induction cs generalizing t with
  | nil => rfl
  | cons c cs ih => rw [varPairs_cons, List.length_cons, List.length_cons, ih]

/-- The root tables of a client's process are not built yet, or those of `CheckVar`. -/
def VarTables (t : RootTables) : Prop :=
  t = RootTables.unset ∨ t = buildRoots shipped (nextPowerOfTwo (checkVar shipped).numMulGates)

theorem VarTables.submissions {t : RootTables} (ht : VarTables t) (c : VarClient) :
    VarTables (c.submissions numBits t).1 := Or.inr (clientRoots_eq_buildRoots (nextPowerOfTwo_pos _) ht)

theorem mem_varPairs {t : RootTables} (ht : VarTables t) {cs : List VarClient} {p : VarSubmission × VarSubmission}
    (hp : p ∈ varPairs numBits t cs) : ∃ c ∈ cs, ∃ t', VarTables t' ∧ p = (c.submissions numBits t').2 := by
  induction cs generalizing t with
  | nil => exact absurd hp List.not_mem_nil
  | cons c cs ih =>
    rw [varPairs_cons] at hp
    rcases List.mem_cons.mp hp with rfl | hmem
    · exact ⟨c, List.mem_cons_self, t, ht, rfl⟩
    · obtain ⟨c', hc', t', ht', rfl⟩ := ih (ht.submissions numBits c) hmem
      exact ⟨c', List.mem_cons_of_mem c hc', t', ht', rfl⟩

end Helper

/-! ### Widths -/

namespace VarClient

variable {numBits : UInt32} (hbits : numBits.toNat < 32) (c : VarClient)
include hbits

theorem toNat_val_lt : (c.val numBits).toNat < 2 ^ numBits.toNat := LinRegClient.toNat_mod_lt hbits _

theorem toNat_squared : (c.squared numBits).toNat = (c.val numBits).toNat ^ 2 := by
  rw [squared, (LinRegClient.toNat_mul_of_lt hbits (c.toNat_val_lt hbits) (c.toNat_val_lt hbits)).1, pow_two]

theorem toNat_squared_lt : (c.squared numBits).toNat < 2 ^ (numBits.toNat * 2) := by
  have hval := c.toNat_val_lt hbits
  rw [c.toNat_squared hbits, pow_two]
  exact (LinRegClient.toNat_mul_of_lt hbits hval hval).2

omit hbits in
theorem varOk_of_lt {msg : InitMsg} (hbits : msg.numBits.toNat < 32) {s : VarSubmission}
    (hval : s.share.val.toNat < 2 ^ msg.numBits.toNat)
    (hsquared : s.share.valSquared.toNat < 2 ^ (msg.numBits.toNat * 2))
    (hbytes : 0 < s.packetBytes) : varOk msg s = true := by
  have hmax : s.share.val < maxVal msg.numBits := by
    rw [UInt64.lt_iff_toNat_lt, toNat_maxVal (by omega)]
    exact hval
  have hmax2 : s.share.valSquared < maxVal msg.numBits * maxVal msg.numBits := by
    rw [UInt64.lt_iff_toNat_lt, toNat_maxVal_mul_self hbits]
    exact hsquared
  have hpacket : decide (s.packetBytes ≤ 0) = false := decide_eq_false (by omega)
  simp only [varOk, hpacket, Bool.or_false, Bool.not_eq_true', Bool.or_eq_false_iff, decide_eq_false_iff_not, ge_iff_le,
    UInt64.not_le]
  exact ⟨hmax, hmax2⟩

theorem toNat_share0_lt : (c.varShare0 numBits).val.toNat < 2 ^ numBits.toNat := LinRegClient.toNat_mod_lt hbits _

theorem toNat_share0_squared_lt : (c.varShare0 numBits).valSquared.toNat < 2 ^ (numBits.toNat * 2) :=
  LinRegClient.toNat_mod_sq_lt hbits _

theorem toNat_share1_lt : (c.varShare1 numBits).val.toNat < 2 ^ numBits.toNat :=
  toNat_xor_lt (c.toNat_share0_lt hbits) (c.toNat_val_lt hbits)

theorem toNat_share1_squared_lt : (c.varShare1 numBits).valSquared.toNat < 2 ^ (numBits.toNat * 2) :=
  toNat_xor_lt (c.toNat_share0_squared_lt hbits) (c.toNat_squared_lt hbits)

end VarClient

end PrioPlus

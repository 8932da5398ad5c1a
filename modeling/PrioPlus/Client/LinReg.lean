import PrioPlus.Server.LinReg
import PrioPlus.Snip.Completeness

/-!
# `lin_reg_helper` of `client.cpp`

A client draws its fields `x` and `y`, computes the products, and splits every field into two words whose xor it is.
The packets prove the products on the array `inp`, which holds the fields in the order of `shares` on the servers.
-/

namespace PrioPlus

open Lib.Triangle

/-- `fmpz_set_si`, of a word. -/
def fmpzSetSi (w : UInt64) : ℤ := w.toInt64.toInt

theorem fmpzSetSi_eq {w : UInt64} (h : w.toNat < 2 ^ 63) : fmpzSetSi w = w.toNat := by
  rw [fmpzSetSi, Int64.toInt, BitVec.toInt_eq_toNat_of_lt]
  · rfl
  · have hword : w.toInt64.toBitVec.toNat = w.toNat := rfl
    omega

/-- What one client draws. -/
structure LinRegClient (degree : ℕ) where
  xReal : Vector UInt64 (numX degree)
  xShare0 : Vector UInt64 (numX degree)
  x2Share0 : Vector UInt64 (numQuad degree)
  xyShare0 : Vector UInt64 (numX degree)
  yReal : UInt64
  yShare0 : UInt64
  pk : Pk
  draws : ShareDraws

namespace LinRegClient

variable {degree : ℕ} (numBits : UInt32) (c : LinRegClient degree)

/-- `x_real[j]`. -/
def x (j : ℕ) : UInt64 := c.xReal.toList.getD j 0 % maxVal numBits

/-- `y_real`. -/
def y : UInt64 := c.yReal % maxVal numBits

/-- The fields and their products. -/
def real : LinRegShare degree where
  pk := c.pk
  xVals := c.xReal.map (· % maxVal numBits)
  y := c.y numBits
  x2Vals := ⟨((triPairs (numX degree)).map fun q => c.x numBits q.1 * c.x numBits q.2).toArray,
    by simp [numQuad, length_triPairs]⟩
  xyVals := c.xReal.map fun w => w % maxVal numBits * c.y numBits

theorem toList_x2Vals_real : (c.real numBits).x2Vals.toList =
    (triPairs (numX degree)).map fun q => c.x numBits q.1 * c.x numBits q.2 := rfl

/-- `linshare0`. -/
def share0 : LinRegShare degree where
  pk := c.pk
  xVals := c.xShare0.map (· % maxVal numBits)
  y := c.yShare0 % maxVal numBits
  x2Vals := c.x2Share0.map (· % (maxVal numBits * maxVal numBits))
  xyVals := c.xyShare0.map (· % (maxVal numBits * maxVal numBits))

/-- `linshare1`. -/
def share1 : LinRegShare degree where
  pk := c.pk
  xVals := (c.share0 numBits).xVals.zipWith (· ^^^ ·) (c.real numBits).xVals
  y := (c.share0 numBits).y ^^^ (c.real numBits).y
  x2Vals := (c.share0 numBits).x2Vals.zipWith (· ^^^ ·) (c.real numBits).x2Vals
  xyVals := (c.share0 numBits).xyVals.zipWith (· ^^^ ·) (c.real numBits).xyVals

def inp : List ℤ :=
  let r := c.real numBits
  r.xVals.toList.map fmpzSetSi ++ fmpzSetSi r.y :: (r.x2Vals.toList.map fmpzSetSi ++ r.xyVals.toList.map fmpzSetSi)

/-- What `recv_ClientPacket` returns: the bytes of the values of a packet, of one limb each. -/
def packetBytes (packet : ClientPacket) : ℤ := 8 * (packet.nMul + 3 + nextPowerOfTwo packet.nMul + 3)

/-- What the two servers receive from the client, and the root tables that it leaves behind. -/
def submissions (t : RootTables) : RootTables × LinRegSubmission degree × LinRegSubmission degree :=
  let circuit := checkLinReg shipped degree
  let wire := circuit.evalWires shipped (fun _ => 0) fun j => (c.inp numBits).getD j 0
  let shared := sharePolynomials shipped t circuit wire c.draws
  (shared.1,
    { share := c.share0 numBits, packet := shared.2.1, packetBytes := packetBytes shared.2.1, nMul_eq := rfl },
    { share := c.share1 numBits, packet := shared.2.2, packetBytes := packetBytes shared.2.2, nMul_eq := rfl })

end LinRegClient

/-- `lin_reg_helper`: the submissions of the clients, one after the other, with the root tables of the process. -/
def linRegHelper {degree : ℕ} (numBits : UInt32) :
    RootTables → List (LinRegClient degree) → List (LinRegSubmission degree × LinRegSubmission degree)
  | _, [] => []
  | t, c :: cs => (c.submissions numBits t).2 :: linRegHelper numBits (c.submissions numBits t).1 cs

section Helper

variable {degree : ℕ} (numBits : UInt32)

theorem map_linRegHelper {β : Type*} (f : LinRegSubmission degree × LinRegSubmission degree → β)
    (g : LinRegClient degree → β) (hfg : ∀ c t, f (c.submissions numBits t).2 = g c) (t : RootTables)
    (cs : List (LinRegClient degree)) : (linRegHelper numBits t cs).map f = cs.map g := by
  induction cs generalizing t with
  | nil => rfl
  | cons c cs ih => rw [linRegHelper, List.map_cons, List.map_cons, ih, hfg]

theorem length_linRegHelper (t : RootTables) (cs : List (LinRegClient degree)) :
    (linRegHelper numBits t cs).length = cs.length := by
  induction cs generalizing t with
  | nil => rfl
  | cons c cs ih => rw [linRegHelper, List.length_cons, List.length_cons, ih]

/-- The root tables of a client's process are not built yet, or those of `CheckLinReg`. -/
def LinRegTables (degree : ℕ) (t : RootTables) : Prop :=
  t = RootTables.unset ∨ t = buildRoots shipped (nextPowerOfTwo (checkLinReg shipped degree).numMulGates)

theorem LinRegTables.submissions {t : RootTables} (ht : LinRegTables degree t) (c : LinRegClient degree) :
    LinRegTables degree (c.submissions numBits t).1 :=
  Or.inr (clientRoots_eq_buildRoots (nextPowerOfTwo_pos _) ht)

theorem mem_linRegHelper {t : RootTables} {cs : List (LinRegClient degree)}
    {p : LinRegSubmission degree × LinRegSubmission degree} (hp : p ∈ linRegHelper numBits t cs) :
    ∃ c ∈ cs, ∃ t', (LinRegTables degree t → LinRegTables degree t') ∧ p = (c.submissions numBits t').2 := by
  induction cs generalizing t with
  | nil => exact absurd hp List.not_mem_nil
  | cons c cs ih =>
    rcases List.mem_cons.mp hp with rfl | hmem
    · exact ⟨c, List.mem_cons_self, t, id, rfl⟩
    · obtain ⟨c', hc', t', ht', rfl⟩ := ih hmem
      exact ⟨c', List.mem_cons_of_mem c hc', t', fun ht => ht' (ht.submissions numBits c), rfl⟩

end Helper

/-! ### Rows -/

namespace LinRegClient

variable {degree : ℕ} (numBits : UInt32) (c : LinRegClient degree)

/-- The client's `inp` has the order of the servers' `shares`. -/
theorem inp_eq : c.inp numBits = (c.real numBits).row.map fmpzSetSi := by
  simp [inp, LinRegShare.row]

theorem row_share1 : (c.share1 numBits).row =
    List.zipWith (· ^^^ ·) (c.share0 numBits).row (c.real numBits).row := by
  simp only [LinRegShare.row, share1, Vector.toList_zipWith]
  rw [List.zipWith_append (by simp), List.zipWith_cons_cons, List.zipWith_append (by simp)]

theorem getD_row_xor (j : ℕ) :
    (c.share0 numBits).row.getD j 0 ^^^ (c.share1 numBits).row.getD j 0 = (c.real numBits).row.getD j 0 := by
  have hlen0 := (c.share0 numBits).length_row
  have hlen := (c.real numBits).length_row
  rw [row_share1]
  by_cases hj : j < numFields degree
  · rw [List.getD_eq_getElem _ _ (by omega), List.getD_eq_getElem _ _ (by simp; omega),
      List.getD_eq_getElem _ _ (by omega), List.getElem_zipWith, ← UInt64.xor_assoc, UInt64.xor_self, UInt64.zero_xor]
  · rw [List.getD_eq_default _ _ (by omega), List.getD_eq_default _ _ (by simp; omega),
      List.getD_eq_default _ _ (by omega), UInt64.xor_self]

end LinRegClient

/-! ### Widths -/

/-- The fields of a share have `b` bits, and the products `2 * b`. -/
structure LinRegShare.Fits {degree : ℕ} (s : LinRegShare degree) (b : ℕ) : Prop where
  x_lt : ∀ w ∈ s.xVals.toList, w.toNat < 2 ^ b
  y_lt : s.y.toNat < 2 ^ b
  x2_lt : ∀ w ∈ s.x2Vals.toList, w.toNat < 2 ^ (b * 2)
  xy_lt : ∀ w ∈ s.xyVals.toList, w.toNat < 2 ^ (b * 2)

theorem toNat_xor_lt {v w : UInt64} {k : ℕ} (hv : v.toNat < 2 ^ k) (hw : w.toNat < 2 ^ k) :
    (v ^^^ w).toNat < 2 ^ k := by
  rw [UInt64.toNat_xor]
  exact Nat.xor_lt_two_pow hv hw

theorem forall_mem_zipWith_xor {l l' : List UInt64} {k : ℕ} (hl : ∀ w ∈ l, w.toNat < 2 ^ k)
    (hl' : ∀ w ∈ l', w.toNat < 2 ^ k) : ∀ w ∈ List.zipWith (· ^^^ ·) l l', w.toNat < 2 ^ k := by
  intro w hw
  obtain ⟨i, hi, rfl⟩ := List.getElem_of_mem hw
  rw [List.getElem_zipWith]
  exact toNat_xor_lt (hl _ (List.getElem_mem _)) (hl' _ (List.getElem_mem _))

theorem linregOk_of_fits {degree : ℕ} {msg : InitMsg} (hbits : msg.numBits.toNat < 32) {s : LinRegSubmission degree}
    (h : s.share.Fits msg.numBits.toNat) (hbytes : 0 < s.packetBytes) : linregOk msg s = true := by
  have hmax : ∀ w : UInt64, w.toNat < 2 ^ msg.numBits.toNat → w < maxVal msg.numBits := by
    intro w hw
    rw [UInt64.lt_iff_toNat_lt, toNat_maxVal (by omega)]
    exact hw
  have hmax2 : ∀ w : UInt64, w.toNat < 2 ^ (msg.numBits.toNat * 2) → w < maxVal msg.numBits * maxVal msg.numBits := by
    intro w hw
    rw [UInt64.lt_iff_toNat_lt, toNat_maxVal_mul_self hbits]
    exact hw
  have hx : s.share.xVals.toList.any (fun x => decide (x ≥ maxVal msg.numBits)) = false :=
    List.any_eq_false.mpr fun w hw => by simpa using hmax w (h.x_lt w hw)
  have hxy : s.share.xyVals.toList.any (fun xy => decide (xy ≥ maxVal msg.numBits * maxVal msg.numBits)) = false :=
    List.any_eq_false.mpr fun w hw => by simpa using hmax2 w (h.xy_lt w hw)
  have hx2 : s.share.x2Vals.toList.any (fun x2 => decide (x2 ≥ maxVal msg.numBits * maxVal msg.numBits)) = false :=
    List.any_eq_false.mpr fun w hw => by simpa using hmax2 w (h.x2_lt w hw)
  have hy : decide (s.share.y ≥ maxVal msg.numBits) = false :=
    decide_eq_false (by simpa using hmax _ h.y_lt)
  have hpacket : decide (s.packetBytes ≤ 0) = false := decide_eq_false (by omega)
  simp only [linregOk, hx, hxy, hx2, hy, hpacket]
  rfl

theorem linregBits_eq {msg : InitMsg} (hbits : msg.numBits.toNat < 32) (degree j : ℕ) :
    linregBits msg degree j = if j ≥ degree then msg.numBits.toNat * 2 else msg.numBits.toNat := by
  rw [linregBits, UInt32.toNat_mul]
  split_ifs
  · exact Nat.mod_eq_of_lt (by simp; omega)
  · simp

theorem LinRegShare.Fits.getD_row_lt {degree : ℕ} (hdegree : 0 < degree) {msg : InitMsg}
    (hbits : msg.numBits.toNat < 32) {s : LinRegShare degree} (h : s.Fits msg.numBits.toNat) {j : ℕ}
    (hj : j < numFields degree) : (s.row.getD j 0).toNat < 2 ^ linregBits msg degree j := by
  have hnumX : numX degree + 1 = degree := Nat.sub_add_cancel hdegree
  have hmem : ∀ {l : List UInt64} {k : ℕ}, k < l.length → l.getD k 0 ∈ l := fun {l k} hk => by
    rw [List.getD_eq_getElem _ _ hk]
    exact List.getElem_mem hk
  rw [linregBits_eq hbits]
  rcases field_cases hj with hx | rfl | ⟨k, hk, rfl⟩ | ⟨k, hk, rfl⟩
  · rw [if_neg (by omega), s.getD_row_x hx]
    exact h.x_lt _ (hmem (by simpa using hx))
  · rw [if_neg (by omega), s.getD_row_y]
    exact h.y_lt
  · rw [if_pos (by omega), s.getD_row_x2 hk]
    exact h.x2_lt _ (hmem (by simpa using hk))
  · rw [if_pos (by omega), s.getD_row_xy]
    exact h.xy_lt _ (hmem (by simpa using hk))

namespace LinRegClient

variable {degree : ℕ} {numBits : UInt32} (hbits : numBits.toNat < 32) (c : LinRegClient degree)
include hbits

theorem toNat_mod_lt (w : UInt64) : (w % maxVal numBits).toNat < 2 ^ numBits.toNat := by
  rw [UInt64.toNat_mod, toNat_maxVal (by omega)]
  exact Nat.mod_lt _ (Nat.two_pow_pos _)

theorem toNat_mod_sq_lt (w : UInt64) :
    (w % (maxVal numBits * maxVal numBits)).toNat < 2 ^ (numBits.toNat * 2) := by
  rw [UInt64.toNat_mod, toNat_maxVal_mul_self hbits]
  exact Nat.mod_lt _ (Nat.two_pow_pos _)

theorem toNat_mul_of_lt {v w : UInt64} (hv : v.toNat < 2 ^ numBits.toNat) (hw : w.toNat < 2 ^ numBits.toNat) :
    (v * w).toNat = v.toNat * w.toNat ∧ v.toNat * w.toNat < 2 ^ (numBits.toNat * 2) := by
  have hprod : v.toNat * w.toNat < 2 ^ (numBits.toNat * 2) := by
    rw [Nat.mul_two, pow_add]
    exact Nat.mul_lt_mul'' hv hw
  have hlt : 2 ^ (numBits.toNat * 2) < 2 ^ 64 := Nat.pow_lt_pow_right one_lt_two (by omega)
  rw [UInt64.toNat_mul]
  exact ⟨Nat.mod_eq_of_lt (hprod.trans hlt), hprod⟩

theorem toNat_x_lt (j : ℕ) : (c.x numBits j).toNat < 2 ^ numBits.toNat := toNat_mod_lt hbits _

theorem toNat_y_lt : (c.y numBits).toNat < 2 ^ numBits.toNat := toNat_mod_lt hbits _

theorem fits_real : (c.real numBits).Fits numBits.toNat where
  x_lt := by
    simp only [real, Vector.toList_map, List.forall_mem_map]
    exact fun w _ => toNat_mod_lt hbits w
  y_lt := toNat_y_lt hbits c
  x2_lt := by
    rw [toList_x2Vals_real, List.forall_mem_map]
    intro q _
    obtain ⟨heq, hlt⟩ := toNat_mul_of_lt hbits (toNat_x_lt hbits c q.1) (toNat_x_lt hbits c q.2)
    rwa [heq]
  xy_lt := by
    simp only [real, Vector.toList_map, List.forall_mem_map]
    intro w _
    obtain ⟨heq, hlt⟩ := toNat_mul_of_lt hbits (toNat_mod_lt hbits w) (toNat_y_lt hbits c)
    rwa [heq]

theorem fits_share0 : (c.share0 numBits).Fits numBits.toNat where
  x_lt := by
    simp only [share0, Vector.toList_map, List.forall_mem_map]
    exact fun w _ => toNat_mod_lt hbits w
  y_lt := toNat_mod_lt hbits _
  x2_lt := by
    simp only [share0, Vector.toList_map, List.forall_mem_map]
    exact fun w _ => toNat_mod_sq_lt hbits w
  xy_lt := by
    simp only [share0, Vector.toList_map, List.forall_mem_map]
    exact fun w _ => toNat_mod_sq_lt hbits w

theorem fits_share1 : (c.share1 numBits).Fits numBits.toNat where
  x_lt := by
    rw [share1, Vector.toList_zipWith]
    exact forall_mem_zipWith_xor (fits_share0 hbits c).x_lt (fits_real hbits c).x_lt
  y_lt := toNat_xor_lt (fits_share0 hbits c).y_lt (fits_real hbits c).y_lt
  x2_lt := by
    rw [share1, Vector.toList_zipWith]
    exact forall_mem_zipWith_xor (fits_share0 hbits c).x2_lt (fits_real hbits c).x2_lt
  xy_lt := by
    rw [share1, Vector.toList_zipWith]
    exact forall_mem_zipWith_xor (fits_share0 hbits c).xy_lt (fits_real hbits c).xy_lt

omit hbits

/-! ### The fields of a client -/

theorem getD_real_x {j : ℕ} (hj : j < numX degree) : (c.real numBits).row.getD j 0 = c.x numBits j := by
  rw [LinRegShare.getD_row_x _ hj, real, Vector.toList_map, x, List.getD_eq_getElem _ _ (by simpa using hj),
    List.getD_eq_getElem _ _ (by simpa using hj), List.getElem_map]

theorem getD_real_y : (c.real numBits).row.getD (numX degree) 0 = c.y numBits := LinRegShare.getD_row_y _

theorem getD_real_x2 {k : ℕ} {q : ℕ × ℕ} (hq : (triPairs (numX degree))[k]? = some q) :
    (c.real numBits).row.getD (numX degree + 1 + k) 0 = c.x numBits q.1 * c.x numBits q.2 := by
  have hk : k < numQuad degree := by
    rw [numQuad, ← length_triPairs]
    exact (List.getElem?_eq_some_iff.mp hq).1
  rw [LinRegShare.getD_row_x2 _ hk, toList_x2Vals_real, List.getD_eq_getElem?_getD, List.getElem?_map, hq]
  rfl

theorem getD_real_xy {j : ℕ} (hj : j < numX degree) :
    (c.real numBits).row.getD (numX degree + 1 + numQuad degree + j) 0 = c.x numBits j * c.y numBits := by
  rw [LinRegShare.getD_row_xy, real, Vector.toList_map, x, List.getD_eq_getElem _ _ (by simpa using hj),
    List.getD_eq_getElem _ _ (by simpa using hj), List.getElem_map]

include hbits

theorem eval_real (hdegree : 0 < degree) (stale : ℕ → ℤ) {inps : ℕ → ℤ}
    (hinps : ∀ j < numFields degree, (inps j : ZMod intModulus) = (((c.real numBits).row.getD j 0).toNat : ℕ)) :
    (checkLinReg shipped degree).eval shipped stale inps = true := by
  have hnumX : numX degree + 1 = degree := Nat.sub_add_cancel hdegree
  have hlen : (triPairs (numX degree)).length = numQuad degree := length_triPairs _
  have hmul : ∀ v w : UInt64, v.toNat < 2 ^ numBits.toNat → w.toNat < 2 ^ numBits.toNat →
      (((v * w).toNat : ℕ) : ZMod intModulus) = v.toNat * w.toNat := by
    intro v w hv hw
    rw [(toNat_mul_of_lt hbits hv hw).1, Nat.cast_mul]
  have hx : ∀ j < numX degree, (inps j : ZMod intModulus) = (c.x numBits j).toNat := by
    intro j hj
    rw [hinps j (by rw [numFields]; omega), getD_real_x c hj]
  refine (Circuit.checkLinReg_spec shipped stale inps hdegree).2.mpr ⟨?_, fun i hi => ?_⟩
  · rintro ⟨q, j⟩ hq
    obtain ⟨hge, hget⟩ := List.mk_mem_zipIdx_iff_le_and_getElem?_sub.mp hq
    have hpair := mem_triPairs.mp (List.mem_of_getElem? hget)
    have hlt : j - degree < numQuad degree := hlen ▸ (List.getElem?_eq_some_iff.mp hget).1
    have hidx : j = numX degree + 1 + (j - degree) := by omega
    have hfield : (inps j : ZMod intModulus) = (c.x numBits q.1 * c.x numBits q.2).toNat := by
      rw [hinps j (by rw [numFields]; omega), hidx, getD_real_x2 c hget]
    have hxy := hmul _ _ (toNat_x_lt hbits c q.1) (toNat_x_lt hbits c q.2)
    exact ((congrArg₂ (· * ·) (hx q.1 (hpair.1.trans_lt hpair.2)) (hx q.2 hpair.2)).trans hxy.symm).trans hfield.symm
  · have hi : i < numX degree := hi
    have hidx : degree + (triPairs (numX degree)).length + i = numX degree + 1 + numQuad degree + i := by omega
    have hy : (inps (numX degree) : ZMod intModulus) = (c.y numBits).toNat := by
      rw [hinps _ (by rw [numFields]; omega), getD_real_y]
    have hfield : (inps (degree + (triPairs (numX degree)).length + i) : ZMod intModulus) =
        (c.x numBits i * c.y numBits).toNat := by
      rw [hidx, hinps _ (by rw [numFields]; omega), getD_real_xy c hi]
    have hxy := hmul _ _ (toNat_x_lt hbits c i) (toNat_y_lt hbits c)
    exact ((congrArg₂ (· * ·) hy (hx i hi)).trans ((mul_comm _ _).trans hxy.symm)).trans hfield.symm

end LinRegClient

end PrioPlus

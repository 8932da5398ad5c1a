import PrioPlus.Client.LinReg
import PrioPlus.Server.HonestRun

/-!
# Honest clients of `linreg_op`

The submissions of honest clients pass the checks on receipt (`honestPairs_linRegHelper`), and their fields satisfy the
circuit (`eval_of_pairValue`). For the sizes that the root tables have, their packets pass as well
(`snipCorrect_linRegHelper`).
-/

namespace PrioPlus

variable {degree : ℕ}

/-- The exact sum of field `j` over the clients. -/
def fieldSum (numBits : UInt32) (batch : List (LinRegClient degree)) (j : ℕ) : ℕ :=
  (batch.map fun c => ((c.real numBits).row.getD j 0).toNat).sum

section Run

variable (hdegree : 0 < degree) {msg : InitMsg} (hbits : msg.numBits.toNat < 32) (fresh : ℕ → ℕ → UInt64)
  (t : RootTables)

theorem packetBytes_pos (packet : ClientPacket) : 0 < LinRegClient.packetBytes packet := by
  unfold LinRegClient.packetBytes
  omega

include hdegree hbits

theorem pairValue_submissions (c : LinRegClient degree) {j : ℕ} (hj : j < numFields degree) :
    (linregSnip degree msg fresh).pairValue (c.submissions msg.numBits t).2 j =
      ((c.real msg.numBits).row.getD j 0).toNat := by
  have hlt := (LinRegClient.fits_real hbits c).getD_row_lt hdegree hbits hj
  have hxor := LinRegClient.getD_row_xor msg.numBits c j
  refine (congrArg (fun w : UInt64 => w.toNat % 2 ^ linregBits msg degree j) hxor).trans (Nat.mod_eq_of_lt hlt)

omit hdegree in
theorem honestPairs_linRegHelper {batch : List (LinRegClient degree)}
    (hdistinct : (batch.map LinRegClient.pk).Nodup) {s0 s1 : List (LinRegSubmission degree)}
    (hs0 : s0.Perm ((linRegHelper msg.numBits t batch).map Prod.fst))
    (hs1 : s1.Perm ((linRegHelper msg.numBits t batch).map Prod.snd)) :
    (linregSnip degree msg fresh).HonestPairs (linRegHelper msg.numBits t batch) s0 s1 where
  pk_eq p hp := by
    obtain ⟨c, -, t', -, rfl⟩ := mem_linRegHelper msg.numBits hp
    rfl
  ok0 p hp := by
    obtain ⟨c, -, t', -, rfl⟩ := mem_linRegHelper msg.numBits hp
    exact linregOk_of_fits hbits (LinRegClient.fits_share0 hbits c) (packetBytes_pos _)
  ok1 p hp := by
    obtain ⟨c, -, t', -, rfl⟩ := mem_linRegHelper msg.numBits hp
    exact linregOk_of_fits hbits (LinRegClient.fits_share1 hbits c) (packetBytes_pos _)
  nodup := by
    rw [map_linRegHelper msg.numBits _ LinRegClient.pk fun _ _ => rfl]
    exact hdistinct
  perm0 := hs0
  perm1 := hs1

theorem eval_of_pairValue {batch : List (LinRegClient degree)} {p : LinRegSubmission degree × LinRegSubmission degree}
    (hp : p ∈ linRegHelper msg.numBits t batch) {inps : ℕ → ℤ}
    (hinps : ∀ j < numFields degree,
      (inps j : ZMod intModulus) = (linregSnip degree msg fresh).pairValue p j) :
    (checkLinReg shipped degree).eval shipped (fun _ => 0) inps = true := by
  obtain ⟨c, -, t', -, rfl⟩ := mem_linRegHelper msg.numBits hp
  apply LinRegClient.eval_real hbits c hdegree _
  intro j hj
  rw [hinps j hj, pairValue_submissions hdegree hbits fresh t' c hj]

theorem sum_pairValue (batch : List (LinRegClient degree)) {j : ℕ} (hj : j < numFields degree) :
    ((linRegHelper msg.numBits t batch).map fun p => (linregSnip degree msg fresh).pairValue p j).sum =
      fieldSum msg.numBits batch j := by
  rw [map_linRegHelper msg.numBits _ (fun c => ((c.real msg.numBits).row.getD j 0).toNat) fun c t' =>
    pairValue_submissions hdegree hbits fresh t' c hj]
  rfl

omit fresh t in
theorem fieldSum_le (batch : List (LinRegClient degree)) {j : ℕ} (hj : j < numFields degree) :
    fieldSum msg.numBits batch j ≤ batch.length * 2 ^ linregBits msg degree j := by
  have hle : ∀ n ∈ batch.map fun c => ((c.real msg.numBits).row.getD j 0).toNat, n ≤ 2 ^ linregBits msg degree j := by
    intro n hn
    obtain ⟨c, -, rfl⟩ := List.mem_map.mp hn
    exact ((LinRegClient.fits_real hbits c).getD_row_lt hdegree hbits hj).le
  have hsum := List.sum_le_card_nsmul _ _ hle
  rwa [List.length_map, smul_eq_mul] at hsum

theorem cast_inp (c : LinRegClient degree) {j : ℕ} (hj : j < numFields degree) :
    (((c.inp msg.numBits).getD j 0 : ℤ) : ZMod intModulus) =
      (linregSnip degree msg fresh).pairValue (c.submissions msg.numBits t).2 j := by
  have hlt := (LinRegClient.fits_real hbits c).getD_row_lt hdegree hbits hj
  have hwidth : linregBits msg degree j < 63 := by
    rw [linregBits_eq hbits]
    split_ifs <;> omega
  have hword : ((c.real msg.numBits).row.getD j 0).toNat < 2 ^ 63 :=
    hlt.trans (Nat.pow_lt_pow_right one_lt_two hwidth)
  have hlen := (c.real msg.numBits).length_row
  have hget : (c.inp msg.numBits).getD j 0 = fmpzSetSi ((c.real msg.numBits).row.getD j 0) := by
    rw [LinRegClient.inp_eq, List.getD_eq_getElem _ _ (by simpa [hlen] using hj),
      List.getD_eq_getElem _ _ (by rwa [hlen]), List.getElem_map]
  rw [pairValue_submissions hdegree hbits fresh t c hj, hget, fmpzSetSi_eq hword, Int.cast_natCast]

theorem snipCorrect_linRegHelper {batch : List (LinRegClient degree)} (ht : LinRegTables degree t)
    (hdistinct : (batch.map LinRegClient.pk).Nodup) {s0 s1 : List (LinRegSubmission degree)}
    (hs0 : s0.Perm ((linRegHelper msg.numBits t batch).map Prod.fst))
    (hs1 : s1.Perm ((linRegHelper msg.numBits t batch).map Prod.snd)) {sync : SnipSync}
    (hx : 0 ≤ sync.x ∧ sync.x < intModulus) {it : Iteration (LinRegSubmission degree)} {prg0 : ℕ → UInt64}
    (hconv : (linregSnip degree msg fresh).ConversionCorrect it prg0 s0 s1)
    (hN : 2 * nextPowerOfTwo (checkLinReg shipped degree).numMulGates ≤ 2 ^ shipped.twoOrder) :
    (linregSnip degree msg fresh).SnipCorrect sync it prg0 s0 s1 := by
  intro i hi a b ha hb _
  let op := linregSnip degree msg fresh
  have hpairs : op.HonestPairs _ s0 s1 := honestPairs_linRegHelper hbits fresh t hdistinct hs0 hs1
  obtain ⟨order, hperm, horder⟩ := hpairs.exists_order it
  have hi' : i < order.length := by rwa [op.length_eq_of_keys it s1 horder]
  obtain ⟨c, -, t', ht', hc⟩ := mem_linRegHelper msg.numBits (hperm.subset (List.getElem_mem hi'))
  have hshares := fun j hj => hpairs.sentShares_add hperm horder hconv hi hi' (j := j) hj
  obtain rfl : a = order[i].1 := Option.some.inj (ha.symm.trans (hpairs.first0_slot it hperm horder hi hi'))
  obtain rfl : b = order[i].2 := Option.some.inj (hb.symm.trans (hpairs.first1_slot it hperm horder hi hi'))
  have hhonest : (op.slotCheck order[i].1 order[i].2 (op.sentShares0 it prg0 s0 s1) (op.sentShares1 it prg0 s0 s1)
      i).Honest shipped t' (fun _ => 0) (fun j => (c.inp msg.numBits).getD j 0) c.draws := by
    rw [hc] at hshares ⊢
    refine ⟨?_, ?_, ht' ht, rfl, fun j hj => ?_⟩
    · exact (Circuit.checkLinReg_spec shipped (fun _ => 0) (fun _ => 0) hdegree).1
    · have hmem : (c.submissions msg.numBits t').2 ∈ linRegHelper msg.numBits t' [c] := List.mem_cons_self
      exact eval_of_pairValue hdegree hbits fresh t' hmem fun j hj => cast_inp hdegree hbits fresh t' c hj
    · have hj : j < numFields degree := hj.trans_eq (Circuit.numInputs_checkLinReg shipped degree)
      rw [← cast_eq_iff_emod, Int.cast_add]
      exact (hshares j hj).trans (cast_inp hdegree hbits fresh t' c hj).symm
  exact hhonest.accepts (by exact hN) hx _

end Run

end PrioPlus

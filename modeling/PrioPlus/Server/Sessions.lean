import PrioPlus.Lib.Sessions
import PrioPlus.Server.Accept
import PrioPlus.Server.OnWire

/-!
# Sessions over bytes

The servers serve one batch after the other over the same two streams of bytes, each as soon as it is done with its last
one. Nothing in the streams says where a message or a batch ends. Still each batch comes out as it does over messages on
a link of its own, and the servers never wait for each other (`session_onWire`).
-/

namespace PrioPlus

open Lib.TwoParty NetShare

namespace ClientBatch

/-- The sizes of a batch, of which an `initMsg` of another type has none. -/
def FitsWire : ClientBatch → Prop
  | .request msg op _ _ => op.FitsWire msg
  | .other => True

variable {shared : Shared} {b : ClientBatch}

theorem Runs.onWire {p0 p1 : Server Outcome} (h0 : b.Runs shared 0 p0) (h1 : b.Runs shared 1 p1) (hfits : b.FitsWire)
    {out0 out1 : Outcome} (hterm : Terminates p0 p1 out0 out1) (arrival0 arrival1 : Arrival) :
    Terminates ((netShare arrival0).onWire Msg.kind p0) ((netShare arrival1).onWire Msg.kind p1) out0 out1 := by
  cases b with
  | request msg op submissions0 submissions1 =>
    obtain ⟨side0, -, rfl⟩ := h0
    obtain ⟨side1, -, rfl⟩ := h1
    have hinputs := msg.numOfInputs.toNat_lt
    exact hterm.onWire ((typed_script msg shared 0 op side0).bind fun _ => Typed.ret _)
      ((typed_script msg shared 1 op side1).bind fun _ => Typed.ret _)
      ((fits_script msg shared 0 hfits side0).bind fun _ _ => fits_ret _)
      ((fits_script msg shared 1 hfits side1).bind fun _ _ => fits_ret _)
      (fun _ hm => carries_of_fits arrival1 arrival0 hinputs hm)
      fun _ hm => carries_of_fits arrival0 arrival1 hinputs hm
  | other =>
    obtain rfl : p0 = .ret none := h0
    obtain rfl : p1 = .ret none := h1
    have hsilent : Ensures (fun _ => False) (fun _ => False) (fun _ => True) (.ret none : Server Outcome) :=
      Ensures.ret trivial
    exact hterm.onWire (Typed.ret _) (Typed.ret _) hsilent hsilent (fun _ hm => hm.elim) fun _ hm => hm.elim

end ClientBatch

/-- Both servers serve the batches in the same order. What a server has returned for a batch is what it returns over
messages on a link of its own, and one of the servers can always go on. -/
theorem session_onWire {batch : ℕ → ClientBatch} {shared : ℕ → Shared} (hfits : ∀ n, (batch n).FitsWire)
    {program0 program1 : ℕ → Server Outcome} (h0 : ∀ n, (batch n).Runs (shared n) 0 (program0 n))
    (h1 : ∀ n, (batch n).Runs (shared n) 1 (program1 n)) {out0 out1 : ℕ → Outcome}
    (hterm : ∀ n, Terminates (program0 n) (program1 n) (out0 n) (out1 n)) (arrival0 arrival1 : ℕ → Arrival)
    {s : Serving Symbol Outcome Outcome}
    (hs : Serves (fun n => (netShare (arrival0 n)).onWire Msg.kind (program0 n))
      (fun n => (netShare (arrival1 n)).onWire Msg.kind (program1 n)) s) :
    (∀ n r, s.procs0[n]? = some (.ret r) → r = out0 n) ∧ (∀ n r, s.procs1[n]? = some (.ret r) → r = out1 n) ∧
      ∃ s', ServeStep (fun n => (netShare (arrival0 n)).onWire Msg.kind (program0 n))
        (fun n => (netShare (arrival1 n)).onWire Msg.kind (program1 n)) s s' :=
  hs.session fun n => (h0 n).onWire (h1 n) (hfits n) (hterm n) (arrival0 n) (arrival1 n)

/-- The part of a server in the batch of two submissions to `VAR`. -/
def crossedProgram (serverNum : ℕ) : Server Outcome :=
  Operation.script twoVarMsg onesShared serverNum .varOp (zeroSide (if serverNum = 0 then crossedVar0 else crossedVar1))
    >>= fun r => .ret (some ⟨.varOp, r⟩)

theorem exists_crossed_results :
    ∃ r0 r1 : VarResult, Terminates (crossedProgram 0) (crossedProgram 1) (some ⟨.varOp, r0⟩) (some ⟨.varOp, r1⟩) := by
  have hterm := varOp_terminates onesSync default default 0 0 twoVarMsg crossedVar0 crossedVar1
    ⟨varSubmission 0 2 13, List.mem_cons_self, by decide⟩ fits_crossedVar1
  exact ⟨_, _, Reaches.terminates (hterm.reaches.bind (Reaches.refl _))⟩

/-- The same two submissions in every round. Both servers have begun the first one, and one of them can go on. -/
theorem session_onWire_crossed :
    let bytes (serverNum n : ℕ) := (netShare fun _ => n).onWire Msg.kind (crossedProgram serverNum)
    ∃ s', ServeStep (bytes 0) (bytes 1) ⟨[bytes 0 0], [bytes 1 0], [], []⟩ s' := by
  intro bytes
  obtain ⟨r0, r1, hterm⟩ := exists_crossed_results
  have hfits : ClientBatch.FitsWire (.request twoVarMsg .varOp crossedVar0 crossedVar1) :=
    show twoVarMsg.numOfInputs.toNat < 2 ^ 28 by decide
  have hbegin : Serves (bytes 0) (bytes 1) ⟨[bytes 0 0], [bytes 1 0], [], []⟩ :=
    (Serves.init.step (ServeStep.act0 (Act.begin [] [] [] (List.forall_mem_nil _)))).step
      (ServeStep.act1 (Act.begin [] [] [] (List.forall_mem_nil _)))
  exact (@session_onWire _ (fun _ => onesShared) (fun _ => hfits) _ _ (fun _ => ⟨_, rfl, rfl⟩) (fun _ => ⟨_, rfl, rfl⟩)
    _ _ (fun _ => hterm) (fun n _ => n) (fun n _ => n) _ hbegin).2.2

end PrioPlus

import PrioPlus.Lib.Rounds
import PrioPlus.Server.Duality
import PrioPlus.Server.NoSurvivor

/-!
# The main loops and their accept queues

A client connects to server 0 and then to server 1. Each server accepts the connections in the order in which they
reached it, one after the other, and runs the operation of the `initMsg` that it reads. The servers do not compare
whose connections they have accepted. When two clients reach the queues in different orders, the servers run their
operations against each other (`not_sameBatch_crossed`); when the connections reach both queues in one order, every
round is about one batch and on its own (`sameBatch`).
-/

namespace PrioPlus

open Lib.TwoParty

/-! ### One round -/

section Settles

variable {type : MessageType} {msg : InitMsg} (it0 : Iteration ℕ) {it1 : Iteration ℕ} {uninit0 uninit1 : ℕ → UInt64}
  {s0 s1 : Vector (MaxShare msg.maxInp) msg.numOfInputs.toNat}

/-- When both loops end, only the scan may still run out of the arrays. -/
theorem maxOp_settles_of_sums {a b : List UInt64} (hsum0 : maxLoop msg it1 s0 s1 uninit0 s0 = .ret a)
    (hsum1 : maxLoop msg it1 s0 s1 uninit1 s1 = .ret b) (hlen : b.length = (msg.maxInp + 1).toNat) :
    Settles (maxOp it0 uninit0 type msg 0 s0) (maxOp it1 uninit1 type msg 1 s1) := by
  obtain ⟨next, r, hrun, hnext⟩ := @maxOp_reaches_last type msg it0 _ _ _ _ _ _ _ hsum0 hsum1
  apply hrun.settles_last
  rw [hnext b hlen]
  exact over_maxScan _ _ _ _ _ _

theorem maxOp_settles (hends : ¬ (msg.maxInp + 1 = 0 ∧ ∃ x ∈ s0.toList, ∃ y ∈ s1.toList, x.pk = y.pk)) :
    Settles (maxOp it0 uninit0 type msg 0 s0) (maxOp it1 uninit1 type msg 1 s1) := by
  by_cases hB : msg.maxInp + 1 = 0
  · have hdisjoint := fun hcommon => hends ⟨hB, hcommon⟩
    obtain ⟨hsum0, -⟩ := @maxLoop_of_disjoint msg it1 s0 s1 hdisjoint uninit0 s0
    obtain ⟨hsum1, -⟩ := @maxLoop_of_disjoint msg it1 s0 s1 hdisjoint uninit1 s1
    exact maxOp_settles_of_sums it0 hsum0 hsum1 List.length_replicate
  · obtain ⟨a, hsum0, -⟩ := maxLoop_of_ne hB uninit0 s0
    obtain ⟨b, hsum1, hlen⟩ := maxLoop_of_ne hB uninit1 s1
    exact maxOp_settles_of_sums it0 hsum0 hsum1 hlen

end Settles

section Snips

variable (msg : InitMsg) (sync : SnipSync) (prg0 prg1 : ℕ → UInt64)

theorem varOp_settles (it0 it1 : Iteration VarSubmission) (s0 s1 : Vector VarSubmission msg.numOfInputs.toNat)
    (hfits : (varSnip msg).Fits s1.toList) :
    Settles (varOp sync it0 prg0 msg 0 s0) (varOp sync it1 prg1 msg 1 s1) := by
  by_cases h : ∃ s ∈ s1.toList, varOk msg s = true
  · exact (varOp_dual msg sync it0 it1 prg0 prg1 s0 s1 h hfits).settles
  · simp only [not_exists, not_and, Bool.not_eq_true] at h
    exact (varOp_reaches_stuck sync it0 it1 prg0 prg1 msg s0 s1 h hfits).settles (Or.inl rfl) (Or.inl rfl)

theorem linregOp_settles {degree : ℕ} (inv0 inv1 : FmpqMatInv degree) (it0 it1 : Iteration (LinRegSubmission degree))
    (fresh0 fresh1 : ℕ → ℕ → UInt64) (s0 s1 : Vector (LinRegSubmission degree) msg.numOfInputs.toNat)
    (hfits : 0 < degree → (linregSnip degree msg fresh0).Fits s1.toList) :
    Settles (linregOp inv0 sync it0 prg0 fresh0 msg 0 s0) (linregOp inv1 sync it1 prg1 fresh1 msg 1 s1) := by
  by_cases h : ∃ s ∈ s1.toList, linregOk msg s = true
  · exact (linregOp_dual msg inv0 inv1 sync it0 it1 prg0 prg1 fresh0 fresh1 s0 s1 h hfits).settles
  · simp only [not_exists, not_and, Bool.not_eq_true] at h
    rcases Nat.eq_zero_or_pos degree with rfl | hdegree
    · exact (Reaches.refl _).settles (Or.inl rfl) (Or.inl rfl)
    · rw [linregOp_fresh msg inv1 sync it1 prg1 fresh1 fresh0]
      have hreach := linregOp_reaches_stuck hdegree inv0 inv1 sync it0 it1 prg0 prg1 fresh0 msg s0 s1 h (hfits hdegree)
      exact hreach.settles (Or.inl rfl) (Or.inl rfl)

end Snips

/-- Every request leaves the link empty and neither server waiting for the next one. -/
theorem script_settles (msg : InitMsg) (shared : Shared) (op : Operation)
    (side0 side1 : Side (op.Kept msg) (op.Submission msg) msg.numOfInputs.toNat) :
    Settles (op.script msg shared 0 side0) (op.script msg shared 1 side1) := by
  by_cases hends : op.Endless msg side0 side1
  · exact (script_hangs msg shared op side0 side1 hends).settles
  cases op with
  | bitSum => exact (bitSum_dual msg side0.it side1.it side0.prg side1.prg side0.submissions side1.submissions).settles
  | intSum =>
    exact (intSum_dual msg side0.it side1.it side0.prg side1.prg side0.heap side1.heap side0.submissions
      side1.submissions fun hbits => not_not.mp fun hfits => hends ⟨hbits, hfits⟩).settles
  | andOp => exact (xorOp_dual msg side0.it side1.it (Or.inl rfl) side0.submissions side1.submissions).settles
  | orOp => exact (xorOp_dual msg side0.it side1.it (Or.inr rfl) side0.submissions side1.submissions).settles
  | maxOp | minOp => exact maxOp_settles side0.it hends
  | varOp | stddevOp =>
    exact varOp_settles msg shared.sync side0.prg side1.prg side0.it side1.it side0.submissions side1.submissions
      (not_not.mp hends)
  | linregOp degree =>
    exact linregOp_settles msg shared.sync side0.prg side1.prg (shared.fmpqMatInv degree) (shared.fmpqMatInv degree)
      side0.it side1.it side0.fresh side1.fresh side0.submissions side1.submissions
      fun hdegree => not_not.mp fun hfits => hends ⟨hdegree, hfits⟩
  | freqOp =>
    exact (freqOp_dual msg side0.it side1.it side0.dabits side1.dabits side0.uninit side1.uninit side0.submissions
      side1.submissions (not_not.mp hends)).settles
  | countMinOp cfg =>
    exact (@sketchOp_dual (cfg.d * cfg.w) _ _ _ side0.it side1.it side0.dabits side1.dabits _ _ _
      (not_not.mp hends)).settles
  | heavyOp cfg =>
    exact (@sketchOp_dual (shareSize msg.numBits cfg) _ _ _ side0.it side1.it side0.dabits side1.dabits _ _ _
      (not_not.mp hends)).settles

theorem recvInputs_listens (totalInputs size : ℕ) {α : Type} {f : Unit → Server α} (hf : ∃ next, f () = .recv next) :
    (recvInputs totalInputs size >>= f) = .loop ∨ ∃ next, (recvInputs totalInputs size >>= f) = .recv next := by
  unfold recvInputs loopTo
  split_ifs
  · exact Or.inr hf
  · exact Or.inr hf
  · exact Or.inl rfl

theorem script_listens (msg : InitMsg) (shared : Shared) (op : Operation)
    (side : Side (op.Kept msg) (op.Submission msg) msg.numOfInputs.toNat) :
    op.script msg shared 0 side = .stuck ∨ op.script msg shared 0 side = .loop ∨
      ∃ next, op.script msg shared 0 side = .recv next := by
  cases op with
  | bitSum | andOp | orOp | maxOp | minOp | varOp | stddevOp => exact Or.inr (Or.inr ⟨_, rfl⟩)
  | intSum =>
    by_cases hbits : msg.numBits.toNat = 63
    · apply Or.inr ∘ Or.inr
      simp only [Operation.script, PrioPlus.intSum, hbits]
      exact ⟨_, rfl⟩
    · exact Or.inl (if_pos hbits)
  | linregOp degree =>
    by_cases hdegree : degree = 0
    · exact Or.inl (if_pos hdegree)
    · apply Or.inr ∘ Or.inr
      simp only [Operation.script, PrioPlus.linregOp, hdegree]
      exact ⟨_, rfl⟩
  | freqOp => exact Or.inr (recvInputs_listens _ _ ⟨_, rfl⟩)
  | countMinOp cfg => exact Or.inr (recvInputs_listens _ _ ⟨_, rfl⟩)
  | heavyOp cfg => exact Or.inr (recvInputs_listens _ _ ⟨_, rfl⟩)

/-! ### Requests -/

/-- What a client submits to the two servers: a request, or an `initMsg` of another type, which the servers only
print. -/
inductive ClientBatch where
  | request (msg : InitMsg) (op : Operation)
      (submissions0 submissions1 : Vector (op.Submission msg) msg.numOfInputs.toNat)
  | other

/-- The result of an operation, or nothing for an `initMsg` that starts none. -/
abbrev Outcome := Option (Σ op : Operation, op.Result)

/-- The programs that a server can run for its part of a batch, whatever it brings of its own. -/
def ClientBatch.Runs (shared : Shared) (serverNum : ℕ) : ClientBatch → Server Outcome → Prop
  | .request msg op submissions0 submissions1, program =>
    ∃ side : Side (op.Kept msg) (op.Submission msg) msg.numOfInputs.toNat,
      side.submissions = (if serverNum = 0 then submissions0 else submissions1) ∧
        program = op.script msg shared serverNum side >>= fun r => .ret (some ⟨op, r⟩)
  | .other, program => program = .ret none

namespace ClientBatch

variable {shared : Shared} {b : ClientBatch}

theorem exists_runs (shared : Shared) (serverNum : ℕ) (b : ClientBatch) :
    ∃ program, b.Runs shared serverNum program := by
  cases b with
  | request msg op submissions0 submissions1 => exact ⟨_, zeroSide _, rfl, rfl⟩
  | other => exact ⟨_, rfl⟩

theorem Runs.settles {p0 p1 : Server Outcome} (h0 : b.Runs shared 0 p0) (h1 : b.Runs shared 1 p1) :
    Settles p0 p1 := by
  cases b with
  | request msg op submissions0 submissions1 =>
    obtain ⟨side0, -, rfl⟩ := h0
    obtain ⟨side1, -, rfl⟩ := h1
    exact (script_settles msg shared op side0 side1).map _ _
  | other =>
    obtain rfl : p0 = .ret none := h0
    obtain rfl : p1 = .ret none := h1
    exact (Reaches.refl _).settles (Or.inr ⟨none, rfl⟩) (Or.inr ⟨none, rfl⟩)

/-- Without server 1, server 0 does nothing and has no result. -/
theorem Runs.listens {p0 : Server Outcome} (h0 : b.Runs shared 0 p0) :
    (∀ m next, p0 ≠ .send m next) ∧ ∀ r, p0 ≠ .ret (some r) := by
  cases b with
  | request msg op submissions0 submissions1 =>
    obtain ⟨side, -, rfl⟩ := h0
    rcases script_listens msg shared op side with hstuck | hloop | ⟨next, hnext⟩
    · rw [hstuck]
      constructor
      · rintro m next ⟨⟩
      · rintro r ⟨⟩
    · rw [hloop]
      constructor
      · rintro m next ⟨⟩
      · rintro r ⟨⟩
    · rw [hnext]
      constructor
      · rintro m next' ⟨⟩
      · rintro r ⟨⟩
  | other =>
    obtain rfl : p0 = .ret none := h0
    constructor
    · rintro m next ⟨⟩
    · rintro r ⟨⟩

end ClientBatch

/-! ### The main loops -/

/-- A connection that a server has accepted: the client, the program that the server runs for it, and where it is. -/
structure Round (ι : Type) where
  client : ι
  program : Server Outcome
  now : Server Outcome

/-- The accept queue of a server, and the connections that it has accepted. -/
structure Front (ι : Type) where
  queue : List ι
  rounds : List (Round ι)

/-- The clients in the order in which their connections reached the server. -/
def Front.arrived {ι : Type} (f : Front ι) : List ι := f.rounds.map Round.client ++ f.queue

/-- The two servers, and the messages on the link between them. -/
structure Servers (ι : Type) where
  front0 : Front ι
  front1 : Front ι
  to0 : List Msg
  to1 : List Msg

section MainLoop

variable {ι : Type} (batch : ι → ClientBatch) (shared : ℕ → Shared)

/-- A step of a main loop, with the messages to the server and those from it. The next connection is accepted when the
last one has been served. -/
inductive Serve (serverNum : ℕ) : Front ι → List Msg → List Msg → Front ι → List Msg → List Msg → Prop where
  | accept {client : ι} {queue : List ι} {rounds : List (Round ι)} {program : Server Outcome} (ins outs : List Msg)
      (hserved : ∀ x ∈ rounds, ∃ r, x.now = .ret r)
      (hprogram : (batch client).Runs (shared rounds.length) serverNum program) :
      Serve serverNum ⟨client :: queue, rounds⟩ ins outs ⟨queue, rounds ++ [⟨client, program, program⟩]⟩ ins outs
  | send {queue : List ι} {rounds : List (Round ι)} {client : ι} {program : Server Outcome} (m : Msg)
      (next : Server Outcome) (ins outs : List Msg) :
      Serve serverNum ⟨queue, rounds ++ [⟨client, program, .send m next⟩]⟩ ins outs
        ⟨queue, rounds ++ [⟨client, program, next⟩]⟩ ins (outs ++ [m])
  | recv {queue : List ι} {rounds : List (Round ι)} {client : ι} {program : Server Outcome} (m : Msg)
      (next : Msg → Server Outcome) (ins outs : List Msg) :
      Serve serverNum ⟨queue, rounds ++ [⟨client, program, .recv next⟩]⟩ (m :: ins) outs
        ⟨queue, rounds ++ [⟨client, program, next m⟩]⟩ ins outs

namespace Servers

def init : Servers ι := ⟨⟨[], []⟩, ⟨[], []⟩, [], []⟩

/-- A client connects to server 0, and later to server 1; or a server makes a step. -/
inductive Step : Servers ι → Servers ι → Prop where
  | connect0 {s : Servers ι} (client : ι) (h : client ∉ s.front0.arrived) :
      Step s { s with front0 := { s.front0 with queue := s.front0.queue ++ [client] } }
  | connect1 {s : Servers ι} (client : ι) (hfirst : client ∈ s.front0.arrived) (h : client ∉ s.front1.arrived) :
      Step s { s with front1 := { s.front1 with queue := s.front1.queue ++ [client] } }
  | serve0 {s : Servers ι} {front : Front ι} {ins outs : List Msg}
      (h : Serve batch shared 0 s.front0 s.to0 s.to1 front ins outs) : Step s ⟨front, s.front1, ins, outs⟩
  | serve1 {s : Servers ι} {front : Front ι} {ins outs : List Msg}
      (h : Serve batch shared 1 s.front1 s.to1 s.to0 front ins outs) : Step s ⟨s.front0, front, outs, ins⟩

inductive Reachable : Servers ι → Prop where
  | init : Reachable init
  | step {s s' : Servers ι} (h : Reachable s) (hstep : Step batch shared s s') : Reachable s'

/-- The connections have reached both servers in the same order. -/
def SameOrder (s : Servers ι) : Prop := s.front0.arrived <+: s.front1.arrived ∨ s.front1.arrived <+: s.front0.arrived

/-- The servers and the link without the clients. -/
def serving (s : Servers ι) : Serving Msg Outcome Outcome :=
  ⟨s.front0.rounds.map Round.now, s.front1.rounds.map Round.now, s.to0, s.to1⟩

end Servers

/-! ### What a step keeps -/

variable {batch shared} {serverNum : ℕ} {f f' : Front ι} {ins outs ins' outs' : List Msg}

/-- The programs of a server are for the connections that it accepted. -/
def Front.Honest (batch : ι → ClientBatch) (shared : ℕ → Shared) (serverNum : ℕ) (f : Front ι) : Prop :=
  ∀ n x, f.rounds[n]? = some x → (batch x.client).Runs (shared n) serverNum x.program

/-- The programs of a server are those of a sequence. -/
def Front.Follows (f : Front ι) (P : ℕ → Server Outcome) : Prop := ∀ n x, f.rounds[n]? = some x → P n = x.program

theorem exists_round_before {rounds : List (Round ι)} {client : ι} {program now now' : Server Outcome} {n : ℕ}
    {x : Round ι} (h : (rounds ++ [⟨client, program, now'⟩])[n]? = some x) :
    ∃ y : Round ι, (rounds ++ [⟨client, program, now⟩])[n]? = some y ∧ y.client = x.client ∧ y.program = x.program := by
  rcases getElem?_concat.mp h with hold | ⟨rfl, rfl⟩
  · exact ⟨x, getElem?_concat.mpr (Or.inl hold), rfl, rfl⟩
  · exact ⟨⟨client, program, now⟩, getElem?_concat.mpr (Or.inr ⟨rfl, rfl⟩), rfl, rfl⟩

theorem Serve.honest (h : Serve batch shared serverNum f ins outs f' ins' outs')
    (hf : f.Honest batch shared serverNum) : f'.Honest batch shared serverNum := by
  intro n x hx
  cases h with
  | accept _ _ hserved hprogram =>
    rcases getElem?_concat.mp hx with hold | ⟨rfl, rfl⟩
    · exact hf n x hold
    · exact hprogram
  | send m next =>
    obtain ⟨y, hy, hclient, hprogram⟩ := exists_round_before hx
    rw [← hclient, ← hprogram]
    exact hf n y hy
  | recv m next =>
    obtain ⟨y, hy, hclient, hprogram⟩ := exists_round_before hx
    rw [← hclient, ← hprogram]
    exact hf n y hy

theorem Serve.follows {P : ℕ → Server Outcome} (h : Serve batch shared serverNum f ins outs f' ins' outs')
    (hf : f'.Follows P) : f.Follows P := by
  intro n x hx
  cases h with
  | accept => exact hf n x (getElem?_concat.mpr (Or.inl hx))
  | send m next =>
    obtain ⟨y, hy, -, hprogram⟩ := exists_round_before hx
    exact (hf n y hy).trans hprogram
  | recv m next =>
    obtain ⟨y, hy, -, hprogram⟩ := exists_round_before hx
    exact (hf n y hy).trans hprogram

theorem Serve.act {P : ℕ → Server Outcome} (h : Serve batch shared serverNum f ins outs f' ins' outs')
    (hf : f'.Follows P) : Act P (f.rounds.map Round.now) ins outs (f'.rounds.map Round.now) ins' outs' := by
  cases h with
  | @accept client queue rounds program _ _ hserved hprogram =>
    have hP : P rounds.length = program := hf _ _ (getElem?_concat.mpr (Or.inr ⟨rfl, rfl⟩))
    have hbegin := Act.begin (P := P) (rounds.map Round.now) ins outs (by simpa using hserved)
    rw [List.length_map, hP] at hbegin
    simpa using hbegin
  | @send _ rounds => simpa using Act.send (P := P) (rounds.map Round.now) _ _ _ _
  | @recv _ rounds => simpa using Act.recv (P := P) (rounds.map Round.now) _ _ _ _

/-! ### Both servers -/

section Reachable

variable {s : Servers ι}

theorem Servers.Reachable.honest (h : Reachable batch shared s) :
    s.front0.Honest batch shared 0 ∧ s.front1.Honest batch shared 1 := by
  induction h with
  | init =>
    constructor
    · intro n x hx
      cases hx
    · intro n x hx
      cases hx
  | step _ hstep ih =>
    cases hstep with
    | connect0 client => exact ih
    | connect1 client => exact ih
    | serve0 hserve => exact ⟨hserve.honest ih.1, ih.2⟩
    | serve1 hserve => exact ⟨ih.1, hserve.honest ih.2⟩

theorem Servers.Reachable.serves (h : Reachable batch shared s) {P Q : ℕ → Server Outcome}
    (h0 : s.front0.Follows P) (h1 : s.front1.Follows Q) : Serves P Q s.serving := by
  induction h with
  | init => exact Serves.init
  | step _ hstep ih =>
    cases hstep with
    | connect0 client => exact ih h0 h1
    | connect1 client => exact ih h0 h1
    | serve0 hserve => exact (ih (hserve.follows h0) h1).step (ServeStep.act0 (hserve.act h0))
    | serve1 hserve => exact (ih h0 (hserve.follows h1)).step (ServeStep.act1 (hserve.act h1))

theorem Front.arrived_getElem? {n : ℕ} {x : Round ι} (h : f.rounds[n]? = some x) : f.arrived[n]? = some x.client := by
  have hlt : n < (f.rounds.map Round.client).length := by
    rw [List.length_map]
    exact (List.getElem?_eq_some_iff.mp h).1
  rw [Front.arrived, List.getElem?_append_left hlt, List.getElem?_map, h]
  rfl

theorem prefix_getElem? {γ : Type} {xs ys : List γ} {n : ℕ} {x : γ} (h : xs <+: ys) (hx : xs[n]? = some x) :
    ys[n]? = some x := by
  obtain ⟨rest, rfl⟩ := h
  rw [List.getElem?_append_left (List.getElem?_eq_some_iff.mp hx).1, hx]

theorem Servers.SameOrder.client_eq (h : s.SameOrder) {n : ℕ} {x y : Round ι} (hx : s.front0.rounds[n]? = some x)
    (hy : s.front1.rounds[n]? = some y) : x.client = y.client := by
  have hx' := Front.arrived_getElem? hx
  have hy' := Front.arrived_getElem? hy
  rcases h with hprefix | hprefix
  · exact Option.some.inj ((prefix_getElem? hprefix hx').symm.trans hy')
  · exact Option.some.inj (hx'.symm.trans (prefix_getElem? hprefix hy'))

/-- The programs of the rounds, of which a server that has not begun one is not yet in the way of the other. -/
theorem Servers.Reachable.exists_programs (h : Reachable batch shared s) (horder : s.SameOrder) :
    ∃ P Q : ℕ → Server Outcome, s.front0.Follows P ∧ s.front1.Follows Q ∧ (∀ n, Settles (P n) (Q n)) ∧
      ∀ n, s.front1.rounds[n]? = none → Q n = .stuck := by
  obtain ⟨honest0, honest1⟩ := h.honest
  have hround : ∀ n : ℕ, ∃ p q : Server Outcome, (∀ x : Round ι, s.front0.rounds[n]? = some x → p = x.program) ∧
      (∀ y : Round ι, s.front1.rounds[n]? = some y → q = y.program) ∧ Settles p q ∧
        (s.front1.rounds[n]? = none → q = .stuck) := by
    intro n
    rcases hx : s.front0.rounds[n]? with _ | x <;> rcases hy : s.front1.rounds[n]? with _ | y
    · exact ⟨.stuck, .stuck, by simp, by simp, settles_stuck (by rintro m next ⟨⟩), fun _ => rfl⟩
    · obtain ⟨p, hp⟩ := (batch y.client).exists_runs (shared n) 0
      exact ⟨p, y.program, by simp, by simp, hp.settles (honest1 n y hy), by simp⟩
    · exact ⟨x.program, .stuck, by simp, by simp, settles_stuck (honest0 n x hx).listens.1, fun _ => rfl⟩
    · have hy' := honest1 n y hy
      rw [← horder.client_eq hx hy] at hy'
      exact ⟨x.program, y.program, by simp, by simp, (honest0 n x hx).settles hy', by simp⟩
  choose P Q hP hQ hsettles hstuck using hround
  exact ⟨P, Q, hP, hQ, hsettles, hstuck⟩

end Reachable

variable (batch shared) in
/-- When the connections reach both servers in one order, the servers serve the same batch in every round. They are
where the two programs for this batch can be on a link of their own; and server 0 alone in a round has not moved and
has no result, so each of its results is one that the two reach together. -/
theorem sameBatch {s : Servers ι} (h : Servers.Reachable batch shared s) (horder : s.SameOrder) :
    (∀ (n : ℕ) (x y : Round ι), s.front0.rounds[n]? = some x → s.front1.rounds[n]? = some y →
      x.client = y.client ∧ (batch x.client).Runs (shared n) 0 x.program ∧
        (batch x.client).Runs (shared n) 1 y.program ∧
        ∃ c, Reaches (.start x.program y.program) c ∧ c.proc0 = x.now ∧ c.proc1 = y.now) ∧
      ∀ (n : ℕ) (x : Round ι), s.front0.rounds[n]? = some x → s.front1.rounds[n]? = none →
        x.now = x.program ∧ ∀ r, x.now ≠ .ret (some r) := by
  obtain ⟨P, Q, hP, hQ, hsettles, hstuck⟩ := h.exists_programs horder
  obtain ⟨honest0, honest1⟩ := h.honest
  obtain ⟨rounds, hapart⟩ := exists_rounds hsettles (h.serves hP hQ)
  have hnow0 (n : ℕ) (x : Round ι) (hx : s.front0.rounds[n]? = some x) : (rounds n).proc0 = x.now :=
    hapart.procs0 n x.now (by simp [Servers.serving, hx])
  have hnow1 (n : ℕ) (y : Round ι) (hy : s.front1.rounds[n]? = some y) : (rounds n).proc1 = y.now :=
    hapart.procs1 n y.now (by simp [Servers.serving, hy])
  constructor
  · intro n x y hx hy
    have hclient := horder.client_eq hx hy
    refine ⟨hclient, honest0 n x hx, ?_, rounds n, ?_, hnow0 n x hx, hnow1 n y hy⟩
    · rw [hclient]
      exact honest1 n y hy
    · rw [← hP n x hx, ← hQ n y hy]
      exact hapart.reaches n
  · intro n x hx hnone
    obtain ⟨hsend, hresult⟩ := (honest0 n x hx).listens
    have hreach := hapart.reaches n
    rw [hP n x hx, hstuck n hnone] at hreach
    have hproc0 : (rounds n).proc0 = x.program := by rw [hreach.eq_of_stuck hsend]; rfl
    have hnow : x.now = x.program := (hnow0 n x hx).symm.trans hproc0
    refine ⟨hnow, fun r => ?_⟩
    rw [hnow]
    exact hresult r

end MainLoop

/-- A client with a bit, and a client with a word. -/
def bitOrWord : Bool → ClientBatch
  | false =>
    .request oneInputMsg .bitSum (Vector.replicate _ { pk := Vector.replicate 32 0, val := true })
      (Vector.replicate _ { pk := Vector.replicate 32 0, val := false })
  | true =>
    .request oneInputMsg .andOp (Vector.replicate _ { pk := Vector.replicate 32 0, val := 6 })
      (Vector.replicate _ { pk := Vector.replicate 32 0, val := 3 })

/-- The round of a server that has accepted the client with the bit. -/
def bitRound (serverNum : ℕ) : Round Bool :=
  let side := zeroSide (Vector.replicate oneInputMsg.numOfInputs.toNat
    { pk := Vector.replicate 32 0, val := decide (serverNum = 0) })
  let program : Server Outcome :=
    Operation.script oneInputMsg onesShared serverNum .bitSum side >>= fun r => .ret (some ⟨.bitSum, r⟩)
  ⟨false, program, program⟩

theorem runs_bitRound : (bitOrWord false).Runs onesShared 0 (bitRound 0).program ∧
    (bitOrWord false).Runs onesShared 1 (bitRound 1).program :=
  ⟨⟨_, rfl, rfl⟩, ⟨_, rfl, rfl⟩⟩

/-- Both servers have accepted the client with the bit, and only server 0 has heard of the other one. -/
def bitAccepted : Servers Bool := ⟨⟨[true], [bitRound 0]⟩, ⟨[], [bitRound 1]⟩, [], []⟩

open Servers in
theorem reachable_bitAccepted : Reachable bitOrWord (fun _ => onesShared) bitAccepted := by
  have hconnect0 : Reachable bitOrWord (fun _ => onesShared) ⟨⟨[false], []⟩, ⟨[], []⟩, [], []⟩ :=
    Reachable.init.step (Step.connect0 false (List.not_mem_nil))
  have hconnect1 : Reachable bitOrWord (fun _ => onesShared) ⟨⟨[false], []⟩, ⟨[false], []⟩, [], []⟩ :=
    hconnect0.step (Step.connect1 false (List.mem_singleton_self _) (List.not_mem_nil))
  have hsecond : Reachable bitOrWord (fun _ => onesShared) ⟨⟨[false, true], []⟩, ⟨[false], []⟩, [], []⟩ :=
    hconnect1.step (Step.connect0 true (by decide))
  have haccept0 : Reachable bitOrWord (fun _ => onesShared) ⟨⟨[true], [bitRound 0]⟩, ⟨[false], []⟩, [], []⟩ :=
    hsecond.step (Step.serve0 (Serve.accept [] [] (List.forall_mem_nil _) runs_bitRound.1))
  exact haccept0.step (Step.serve1 (Serve.accept [] [] (List.forall_mem_nil _) runs_bitRound.2))

theorem sameBatch_bitAccepted :
    ∃ c, Reaches (.start (bitRound 0).program (bitRound 1).program) c ∧ c.proc0 = (bitRound 0).now ∧
      c.proc1 = (bitRound 1).now :=
  ((sameBatch bitOrWord (fun _ => onesShared) reachable_bitAccepted (Or.inr ⟨[true], rfl⟩)).1 0 (bitRound 0)
    (bitRound 1) rfl rfl).2.2.2

open Servers in
/-- Two clients whose connections cross: server 0 runs `bit_sum` against the `xor_op` of server 1. -/
theorem not_sameBatch_crossed :
    ¬ ∀ s, Reachable bitOrWord (fun _ => onesShared) s → ∀ (n : ℕ) (x y : Round Bool), s.front0.rounds[n]? = some x →
      s.front1.rounds[n]? = some y → x.client = y.client := by
  intro h
  obtain ⟨program, hruns⟩ := (bitOrWord true).exists_runs onesShared 1
  have hbit0 : Reachable bitOrWord (fun _ => onesShared) ⟨⟨[false], []⟩, ⟨[], []⟩, [], []⟩ :=
    Reachable.init.step (Step.connect0 false (List.not_mem_nil))
  have hword0 : Reachable bitOrWord (fun _ => onesShared) ⟨⟨[false, true], []⟩, ⟨[], []⟩, [], []⟩ :=
    hbit0.step (Step.connect0 true (by decide))
  have hword1 : Reachable bitOrWord (fun _ => onesShared) ⟨⟨[false, true], []⟩, ⟨[true], []⟩, [], []⟩ :=
    hword0.step (Step.connect1 true (by decide) (by decide))
  have hbit1 : Reachable bitOrWord (fun _ => onesShared) ⟨⟨[false, true], []⟩, ⟨[true, false], []⟩, [], []⟩ :=
    hword1.step (Step.connect1 false (by decide) (by decide))
  have haccept0 : Reachable bitOrWord (fun _ => onesShared) ⟨⟨[true], [bitRound 0]⟩, ⟨[true, false], []⟩, [], []⟩ :=
    hbit1.step (Step.serve0 (Serve.accept [] [] (List.forall_mem_nil _) runs_bitRound.1))
  have haccept1 := haccept0.step (Step.serve1 (Serve.accept [] [] (List.forall_mem_nil _) hruns))
  exact Bool.false_ne_true (h _ haccept1 0 (bitRound 0) ⟨true, program, program⟩ rfl rfl)

end PrioPlus

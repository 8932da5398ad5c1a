import PrioPlus.Lib.Transcript
import PrioPlus.Server.XorOp

/-!
# What the servers read

Which messages a server reads and sends in the parts that the operations share, and in the exchange of keys, flags and a
word of `xor_op` and `max_op` (`plays_matchedServer0`, `plays_matchedServer1`).
-/

namespace PrioPlus

open Lib.TwoParty Lib.FirstWins

/-! ### Single messages -/

theorem plays_sendMsg (m : Msg) : Plays (sendMsg m) [] [m] () := (plays_ret ()).send

theorem plays_recvAs {α : Type} {read : Msg → Option α} {m : Msg} {a : α} (h : read m = some a) :
    Plays (recvAs read) [m] [] a := by
  apply Plays.recv
  rw [h]
  exact plays_ret a

theorem plays_sendPks (pks : List Pk) : Plays (sendPks pks) [] (pks.map Msg.pk) () := by
  induction pks with
  | nil => exact plays_ret ()
  | cons pk pks ih => exact ih.send

theorem plays_recvPks (pks : List Pk) : Plays (recvPks pks.length) (pks.map Msg.pk) [] pks := by
  induction pks with
  | nil => exact plays_ret []
  | cons pk pks ih =>
    have hrest : Plays (recvPks pks.length >>= fun rest => .ret (pk :: rest)) (pks.map Msg.pk ++ []) ([] ++ [])
        (pk :: pks) :=
      ih.bind (plays_ret (pk :: pks))
    rw [List.append_nil] at hrest
    exact (plays_recvAs (a := pk) rfl).bind hrest

/-! ### The exchange over the keys that both servers hold -/

section Matched

variable {V W : Type} {step : W → V → Server W} (it : Iteration V) (m0 m1 : ShareMap V) {zero : W} {msgOf : W → Msg}

/-- What server 0 reads: how many keys there are, the keys, and server 1's word. -/
def matchedToServer0 (it : Iteration V) (m1 : ShareMap V) (word : Msg) : List Msg :=
  .size (it.order m1).length :: ((it.order m1).map fun e => Msg.pk e.1) ++ [word]

/-- What server 1 reads: which of its keys server 0 has. -/
def matchedToServer1 (it : Iteration V) (m0 m1 : ShareMap V) : List Msg := [.boolBatch (matchedFlags it m0 m1)]

theorem plays_matchedServer0 {read : Msg → Option W} {word : Msg} {a b : W}
    (hsum : addMatched step m0 zero ((it.order m1).map Sigma.fst) (matchedFlags it m0 m1) = .ret a)
    (hread : read word = some b) :
    Plays (matchedServer0 step m0 zero (recvAs read)) (matchedToServer0 it m1 word) (matchedToServer1 it m0 m1)
      ((matchedFlags it m0 m1).count true, a, b) := by
  have hkeys := plays_recvPks ((it.order m1).map Sigma.fst)
  rw [List.map_map, List.length_map] at hkeys
  refine (plays_recvAs (a := (it.order m1).length) rfl).bind (hkeys.bind ?_)
  show Plays (addMatched step m0 zero ((it.order m1).map Sigma.fst) (matchedFlags it m0 m1) >>= _) _ _ _
  rw [hsum, Proc.ret_bind]
  exact (plays_sendMsg _).bind ((plays_recvAs hread).bind (plays_ret _))

theorem plays_matchedServer1 {b : W}
    (hsum : addMatched step m1 zero ((it.order m1).map Sigma.fst) (matchedFlags it m0 m1) = .ret b) :
    Plays (matchedServer1 step it m1 zero msgOf) (matchedToServer1 it m0 m1) (matchedToServer0 it m1 (msgOf b)) () := by
  have hflags : (matchedFlags it m0 m1).length = (it.order m1).length := by
    rw [matchedFlags, List.length_map, List.length_map]
  have hkeys := plays_sendPks ((it.order m1).map Sigma.fst)
  rw [List.map_map] at hkeys
  have hsize := plays_sendMsg (.size ((it.order m1).map Sigma.fst).length)
  rw [List.length_map] at hsize
  unfold matchedServer1
  simp only [List.length_map]
  refine hsize.bind (hkeys.bind ((plays_recvAs (if_pos hflags)).bind ?_))
  rw [hsum]
  exact plays_sendMsg (msgOf b)

end Matched

end PrioPlus

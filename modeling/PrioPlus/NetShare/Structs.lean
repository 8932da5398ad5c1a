import PrioPlus.NetShare.Lengths

/-!
# Structures, and messages one after the other

A client sends some structures as they are in memory, and the messages of a submission one after the other, whatever
they return. The servers read them in the same way: a structure with one call of `recv_in` (`restores_struct`), and as
many submissions as the `initMsg` says (`restores_vector`). What `recv_ClientPacket` returns is the number of bytes of
the packet (`restoresAs_clientPacket`).
-/

namespace PrioPlus.NetShare

/-! ### One after the other -/

/-- `num_bytes += first; num_bytes += second;` -/
def Received.andThen {α β : Type} (first : Received α) (next : α → List UInt8 → Received β) : Received β :=
  first.bind fun (ret, a, rest) => (next a rest).map fun (ret', b, rest') =>
    (wrap32 (wrap32 (0 + ret) + ret'), b, rest')

/-- The loop of a client over what it has made. -/
def sendList {α : Type} (sendOne : α → Sent) (xs : List α) : Sent :=
  xs.foldl (fun sent x => sent.plus (sendOne x)) (some ([], 0))

/-- The loop of a server over `n` submissions. -/
def recvVector {α : Type} (recvOne : List UInt8 → Received α) : (n : ℕ) → List UInt8 → Received (Vector α n)
  | 0, stream => some (0, #v[], stream)
  | n + 1, stream => (recvVector recvOne n stream).andThen fun xs rest =>
      (recvOne rest).map fun (ret, x, rest) => (ret, xs.push x, rest)

section Restores

variable {α β : Type} {s s' : Sent} {r : List UInt8 → Received α} {a : α} {b : β}

theorem Restores.andThen {next : α → List UInt8 → Received β} (h : Restores s r a) (h' : Restores s' (next a) b) :
    Restores (s.plus s') (fun stream => (r stream).andThen next) b := by
  obtain ⟨ret, bytes, rfl, hr⟩ := h
  obtain ⟨ret', bytes', rfl, hr'⟩ := h'
  refine ⟨_, bytes ++ bytes', rfl, fun rest => ?_⟩
  simp only [List.append_assoc, hr, Received.andThen, Option.bind_some, hr', Option.map_some]

theorem restores_vector {sendOne : α → Sent} {recvOne : List UInt8 → Received α} {n : ℕ} {xs : Vector α n}
    (h : ∀ x ∈ xs.toList, Restores (sendOne x) recvOne x) :
    Restores (sendList sendOne xs.toList) (recvVector recvOne n) xs := by
  induction n with
  | zero =>
    obtain rfl : xs = #v[] := Vector.eq_empty
    exact ⟨0, [], rfl, fun rest => rfl⟩
  | succ n ih =>
    obtain ⟨ys, x, rfl⟩ := @Vector.exists_push _ _ xs
    rw [Vector.toList_push] at h
    have hfirst := ih fun y hy => h y (List.mem_append_left _ hy)
    have hlast := (h x (List.mem_append_right _ (List.mem_singleton_self x))).map (f := ys.push)
    rw [Vector.toList_push, sendList, List.foldl_append]
    exact hfirst.andThen hlast

end Restores

/-! ### Structures -/

/-- A structure of `size` bytes. -/
def recvStruct {α : Type} (arrival : Arrival) (size : ℕ) (ofBytes : List UInt8 → α) (stream : List UInt8) :
    Received α :=
  (recvIn arrival size stream).map fun (ret, buf, rest) => (ret, ofBytes buf, rest)

theorem restores_struct {α : Type} (arrival : Arrival) {ofBytes : List UInt8 → α} {size : ℕ} {bytes : List UInt8}
    {a : α} (hlen : bytes.length = size) (hsize : size < 2 ^ 32) (hback : ofBytes bytes = a) :
    Restores (send bytes) (recvStruct arrival size ofBytes) a := by
  refine ⟨_, bytes, rfl, fun rest => ?_⟩
  have hrecv := recvIn_append arrival (show bytes.length < 2 ^ 32 by rwa [hlen]) rest
  rw [hlen] at hrecv
  simp only [recvStruct, hrecv, Option.map_some, hback, hlen]

/-- The array of `n` entries that was read into. -/
def arrayOf {α : Type} (n : ℕ) (zero : α) (buf : List α) : Vector α n := Vector.ofFn fun i => buf.getD i zero

theorem arrayOf_append {α : Type} {n : ℕ} (zero : α) (xs : Vector α n) (rest : List α) :
    arrayOf n zero (xs.toList ++ rest) = xs := by
  ext i hi
  have hlen : i < xs.toList.length := by rwa [Vector.length_toList]
  rw [arrayOf, Vector.getElem_ofFn, List.getD_append _ _ _ _ hlen, List.getD_eq_getElem _ _ hlen, Vector.getElem_toList]

theorem arrayOf_toList {α : Type} {n : ℕ} (zero : α) (xs : Vector α n) : arrayOf n zero xs.toList = xs := by
  have happend := arrayOf_append zero xs []
  rwa [List.append_nil] at happend

/-- A word of a structure. -/
def wordAt (offset size : ℕ) (buf : List UInt8) : ℕ := ulongOfBytes ((buf.drop offset).take size)

theorem wordAt_append {before : List UInt8} {offset : ℕ} (hlen : before.length = offset) {size x : ℕ}
    (hx : x < 256 ^ size) (after : List UInt8) : wordAt offset size (before ++ (wordBytes size x ++ after)) = x := by
  rw [wordAt, List.drop_left' hlen, List.take_left' (length_wordBytes size x), ulongOfBytes_wordBytes,
    Nat.mod_eq_of_lt hx]

theorem wordAt_last {before : List UInt8} {offset : ℕ} (hlen : before.length = offset) {size x : ℕ}
    (hx : x < 256 ^ size) : wordAt offset size (before ++ wordBytes size x) = x := by
  have happend := wordAt_append hlen hx []
  rwa [List.append_nil] at happend

/-! ### Packets -/

section Packets

variable (arrival : Arrival) {len : ℕ}

theorem restoresAs_each {β : Type} {b : β} {ret : ℤ} (hpos : 0 < len) (hsmall : len * 8 < 2 ^ 31) {x old : List ℤ}
    (hlen : old.length = x.length) (hx : ∀ y ∈ x, InLimbs len y) {early : List ℤ → β} {next : ℤ → Sent}
    {next' : List ℤ → ℤ → List UInt8 → Received β} {total : ℕ} (hfits : total + len * 8 * x.length < 2 ^ 31)
    (hnext : RestoresAs (next (total + len * 8 * x.length : ℕ)) (next' x (total + len * 8 * x.length : ℕ)) b ret) :
    RestoresAs (sendEach len x total next) (fun stream => recvEach arrival len old early total stream next') b ret := by
  induction x generalizing old early next' total with
  | nil =>
    obtain rfl := List.length_eq_zero_iff.mp hlen
    exact hnext
  | cons y x ih =>
    obtain ⟨z, old, rfl⟩ := List.exists_cons_of_length_eq_add_one hlen
    have hsum : total + len * 8 * (y :: x).length = total + len * 8 + len * 8 * x.length := by
      rw [List.length_cons]
      ring
    rw [hsum] at hfits hnext
    have htotal : wrap32 ((total : ℤ) + (len * 8 : ℕ)) = (total + len * 8 : ℕ) := by
      rw [← Nat.cast_add, wrap32_of_lt] <;> omega
    refine RestoresAs.check (restoresAs_fmpz arrival hpos hsmall (hx y List.mem_cons_self) z) (by omega) ?_
    rw [htotal]
    exact ih (Nat.succ.inj hlen) (fun y hy => hx y (List.mem_cons_of_mem _ hy)) hfits hnext

theorem restoresAs_beaverTripleShare (hpos : 0 < len) (hfits : len * 8 * 3 < 2 ^ 31) {x : BeaverTripleShare}
    (hx : ∀ y ∈ [x.shareA, x.shareB, x.shareC], InLimbs len y) (old : BeaverTripleShare) :
    RestoresAs (sendBeaverTripleShare len x) (recvBeaverTripleShare arrival len old) x (len * 8 * 3 : ℕ) := by
  have heach := @restoresAs_each arrival len BeaverTripleShare x (len * 8 * 3 : ℕ) hpos (by omega)
    [x.shareA, x.shareB, x.shareC] [old.shareA, old.shareB, old.shareC] rfl hx BeaverTripleShare.ofList
    (fun total => some ([], total)) (fun xs total rest => some (total, BeaverTripleShare.ofList xs, rest)) 0
    ((Nat.zero_add _).trans_lt hfits)
  rw [Nat.zero_add] at heach
  exact heach ⟨[], rfl, fun _ => rfl⟩

/-- The integers of a packet. -/
def packetSize (nMul : ℕ) : ℕ := nMul + 3 + nextPowerOfTwo nMul + 3

theorem restoresAs_clientPacket (hpos : 0 < len) {x old : ClientPacket} (hnMul : old.nMul = x.nMul)
    (hfits : len * 8 * packetSize x.nMul < 2 ^ 31) (hx : ∀ y ∈ packetFields x, InLimbs len y)
    (ht : ∀ y ∈ [x.tripleShare.shareA, x.tripleShare.shareB, x.tripleShare.shareC], InLimbs len y) :
    RestoresAs (sendClientPacket len x) (recvClientPacket arrival len old) x (len * 8 * packetSize x.nMul : ℕ) := by
  have hsize : packetSize x.nMul = (packetFields x).length + 3 := by rw [packetSize, length_packetFields]
  have hbytes : len * 8 * packetSize x.nMul = len * 8 * (packetFields x).length + len * 8 * 3 := by
    rw [hsize, Nat.mul_add]
  have hthree : 3 ≤ packetSize x.nMul := hsize ▸ Nat.le_add_left 3 _
  have hsmall : len * 8 < 2 ^ 31 := lt_of_le_of_lt (Nat.le_mul_of_pos_right _ (by omega)) hfits
  have hrange : x.nMul < 2 ^ 31 := by
    have hle : x.nMul ≤ packetSize x.nMul := by
      rw [packetSize]
      omega
    have hone : 1 ≤ len * 8 := by omega
    exact lt_of_le_of_lt (hle.trans (Nat.le_mul_of_pos_left _ hone)) hfits
  have hread := restoresAs_beaverTripleShare arrival hpos (show len * 8 * 3 < 2 ^ 31 by omega) ht old.tripleShare
  unfold sendClientPacket
  unfold recvClientPacket
  simp only [hnMul, if_pos hrange]
  have hfields : 0 + len * 8 * (packetFields x).length < 2 ^ 31 := by omega
  refine @restoresAs_each arrival len _ _ _ hpos hsmall _ _ (by simp [hnMul]) hx _ _ _ 0 hfields ?_
  have hlast := hread.check_done (by omega) (packetOfFields x.nMul (packetFields x))
    (packetOfFields x.nMul (packetFields x)) (0 + len * 8 * (packetFields x).length : ℕ)
  rw [packetOfFields_packetFields, ← Nat.cast_add, wrap32_of_lt (by omega) (by omega)] at hlast
  rw [hbytes]
  simpa only [Nat.zero_add] using hlast

end Packets

end PrioPlus.NetShare

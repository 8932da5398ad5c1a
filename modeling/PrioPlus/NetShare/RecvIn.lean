import PrioPlus.Lib.Memory
import PrioPlus.NetShare.RoundTrip

/-!
# `recv_in` on a stream that can end or fail

`recv` returns -1 for an error, and `recv_in` keeps this in an `unsigned int`. Before the first byte that ends the loop
with a negative result. Later it moves `bytes_read` back by one and the loop goes on over the last byte. So `recv_in`
delivers the stream or reports a failure exactly when no error comes in the middle of a message (`delivers_iff`), and a
length that its 32-bit counter does not reach is never reported as read.
-/

namespace PrioPlus.NetShare

open Lib.Memory

/-- What one call of `recv` does: it takes one byte and some more, as far as it was asked for them, or it finds the end
of the stream, or it fails. -/
inductive RecvResult where
  | bytes (more : ℕ)
  | closed
  | error

/-- The results of the calls one after the other, and the bytes that they take. -/
structure Incoming where
  results : ℕ → RecvResult
  stream : ℕ → UInt8

/-- `bytes_read`, the memory from `bufptr` on, and how many bytes of the stream and how many calls were used. -/
structure RecvState where
  bytesRead : ℕ
  buf : ℕ → UInt8
  consumed : ℕ
  calls : ℕ

namespace RecvState

def init (old : ℕ → UInt8) : RecvState := ⟨0, old, 0, 0⟩

variable (net : Incoming) (len : ℕ) (s : RecvState)

/-- The number of bytes that a call takes. -/
def count (more : ℕ) : ℕ := min (more + 1) (len - s.bytesRead)

/-- After a call that took bytes. Their number is kept in an `unsigned int`. -/
def took (more : ℕ) : RecvState where
  bytesRead := (s.bytesRead + s.count len more % 2 ^ 32) % 2 ^ 32
  buf := writeAt s.buf s.bytesRead ((List.range (s.count len more)).map fun i => net.stream (s.consumed + i))
  consumed := s.consumed + s.count len more
  calls := s.calls + 1

/-- After a call that failed. The -1 is `2 ^ 32 - 1`. -/
def failed : RecvState :=
  { s with bytesRead := (s.bytesRead + (2 ^ 32 - 1)) % 2 ^ 32, calls := s.calls + 1 }

def ended : RecvState := { s with calls := s.calls + 1 }

end RecvState

open RecvState

section Loop

variable (net : Incoming) (len : ℕ)

/-- The loop of `recv_in`: what it returns and the state that it leaves, or nothing when it is still running. -/
def recvInLoop : ℕ → RecvState → Option (ℤ × RecvState)
  | 0, _ => none
  | fuel + 1, s =>
    if s.bytesRead < len then
      match net.results s.calls with
      | .closed => some (0, s.ended)
      | .error => recvInLoop fuel s.failed
      | .bytes more =>
        if s.count len more % 2 ^ 32 = 0 then some (0, s.took net len more) else recvInLoop fuel (s.took net len more)
    else some (wrap32 s.bytesRead, s)

/-- The message is in the buffer, or the result is not positive; and the first call that ends or fails is the last. -/
structure Delivered (ret : ℤ) (s : RecvState) : Prop where
  stops : ∀ k, k + 1 < s.calls → ∃ more, net.results k = .bytes more
  result : (ret = len ∧ s.consumed = len ∧ ∀ i, i < len → s.buf i = net.stream i) ∨ ret ≤ 0

/-- `recv_in` returns, with what it should. -/
def Delivers (old : ℕ → UInt8) : Prop :=
  ∃ fuel ret s, recvInLoop net len fuel (.init old) = some (ret, s) ∧ Delivered net len ret s

/-- The first `k` calls all take bytes. -/
def OnlyBytes (k : ℕ) : Prop := ∀ i, i < k → ∃ more, net.results i = .bytes more

/-- How many bytes the first `k` calls take. -/
def taken : ℕ → ℕ
  | 0 => 0
  | k + 1 => taken k + match net.results k with
    | .bytes more => min (more + 1) (len - taken k % 2 ^ 32)
    | _ => 0

/-- No call fails when a part of the message is there and a part is not. -/
def NoLateError : Prop :=
  ∀ k, 0 < k → OnlyBytes net k → taken net len k < len → net.results k ≠ .error

/-- Before any call fails, one finds the end or takes a number of bytes that is zero as an `unsigned int`. -/
def StopsAtZero : Prop :=
  ∃ k, OnlyBytes net k ∧ (net.results k = .closed ∨
    ∃ more, net.results k = .bytes more ∧ min (more + 1) (len - taken net len k % 2 ^ 32) % 2 ^ 32 = 0)

variable {net len} {s : RecvState}

/-! ### One call -/

theorem recvInLoop_done (h : ¬ s.bytesRead < len) (fuel : ℕ) :
    recvInLoop net len (fuel + 1) s = some (wrap32 s.bytesRead, s) := if_neg h

theorem recvInLoop_closed (h : s.bytesRead < len) (hcall : net.results s.calls = .closed) (fuel : ℕ) :
    recvInLoop net len (fuel + 1) s = some (0, s.ended) := by
  rw [recvInLoop, if_pos h, hcall]

theorem recvInLoop_error (h : s.bytesRead < len) (hcall : net.results s.calls = .error) (fuel : ℕ) :
    recvInLoop net len (fuel + 1) s = recvInLoop net len fuel s.failed := by
  rw [recvInLoop, if_pos h, hcall]

theorem recvInLoop_bytes (h : s.bytesRead < len) {more : ℕ} (hcall : net.results s.calls = .bytes more) (fuel : ℕ) :
    recvInLoop net len (fuel + 1) s =
      if s.count len more % 2 ^ 32 = 0 then some (0, s.took net len more)
      else recvInLoop net len fuel (s.took net len more) := by
  rw [recvInLoop, if_pos h, hcall]

theorem recvInLoop_mono {fuel m : ℕ} {r : ℤ × RecvState} (h : recvInLoop net len fuel s = some r) :
    recvInLoop net len (fuel + m) s = some r := by
  induction fuel generalizing s with
  | zero => exact absurd h (by simp [recvInLoop])
  | succ fuel ih =>
    rw [Nat.add_right_comm]
    by_cases hlt : s.bytesRead < len
    · cases hcall : net.results s.calls with
      | closed =>
        rw [recvInLoop_closed hlt hcall] at h ⊢
        exact h
      | error =>
        rw [recvInLoop_error hlt hcall] at h ⊢
        exact ih h
      | bytes more =>
        rw [recvInLoop_bytes hlt hcall] at h ⊢
        split_ifs at h ⊢
        · exact h
        · exact ih h
    · rw [recvInLoop_done hlt] at h ⊢
      exact h

/-- Calls are only ever added, and one more while bytes are missing. -/
theorem calls_le {fuel : ℕ} {ret : ℤ} {s' : RecvState} (h : recvInLoop net len fuel s = some (ret, s')) :
    s.calls ≤ s'.calls ∧ (s.bytesRead < len → s.calls + 1 ≤ s'.calls) := by
  induction fuel generalizing s with
  | zero => exact absurd h (by simp [recvInLoop])
  | succ fuel ih =>
    by_cases hlt : s.bytesRead < len
    · have hmore : s.calls + 1 ≤ s'.calls := by
        cases hcall : net.results s.calls with
        | closed =>
          rw [recvInLoop_closed hlt hcall] at h
          obtain ⟨-, rfl⟩ := Prod.mk.inj (Option.some.inj h)
          exact le_rfl
        | error =>
          rw [recvInLoop_error hlt hcall] at h
          exact (ih h).1
        | bytes more =>
          rw [recvInLoop_bytes hlt hcall] at h
          split_ifs at h
          · obtain ⟨-, rfl⟩ := Prod.mk.inj (Option.some.inj h)
            exact le_rfl
          · exact (ih h).1
      exact ⟨by omega, fun _ => hmore⟩
    · rw [recvInLoop_done hlt] at h
      obtain ⟨-, rfl⟩ := Prod.mk.inj (Option.some.inj h)
      exact ⟨le_rfl, fun h => absurd h hlt⟩

/-! ### While only bytes come -/

theorem taken_succ {k more : ℕ} (hcall : net.results k = .bytes more) :
    taken net len (k + 1) = taken net len k + min (more + 1) (len - taken net len k % 2 ^ 32) := by
  rw [taken, hcall]

theorem taken_mono {j k : ℕ} (h : j ≤ k) : taken net len j ≤ taken net len k := by
  induction k, h using Nat.le_induction with
  | base => exact le_rfl
  | succ k _ ih => exact ih.trans (Nat.le_add_right _ _)

theorem taken_pos {k : ℕ} (hlen : 0 < len) (hk : 0 < k) (honly : OnlyBytes net k) : 0 < taken net len k := by
  obtain ⟨more, hcall⟩ := honly 0 hk
  have hfirst := @taken_succ net len _ _ hcall
  have hmono := @taken_mono net len _ _ (Nat.succ_le_of_lt hk)
  rw [taken, Nat.zero_mod, Nat.sub_zero, Nat.zero_add] at hfirst
  rw [Nat.succ_eq_add_one, hfirst] at hmono
  omega

/-- The state after calls that all took bytes. -/
structure Tracked (net : Incoming) (len : ℕ) (s : RecvState) : Prop where
  only : OnlyBytes net s.calls
  bytesRead : s.bytesRead = taken net len s.calls % 2 ^ 32
  consumed : s.consumed = taken net len s.calls
  inside : len < 2 ^ 32 → taken net len s.calls ≤ len
  buf : len < 2 ^ 32 → ∀ i, i < s.bytesRead → s.buf i = net.stream i

theorem tracked_init (old : ℕ → UInt8) : Tracked net len (.init old) :=
  ⟨fun _ hi => absurd hi (Nat.not_lt_zero _), rfl, rfl, fun _ => Nat.zero_le _,
    fun _ _ hi => absurd hi (Nat.not_lt_zero _)⟩

theorem Tracked.bytesRead_eq (h : Tracked net len s) (hlen : len < 2 ^ 32) : s.bytesRead = taken net len s.calls := by
  rw [h.bytesRead, Nat.mod_eq_of_lt ((h.inside hlen).trans_lt hlen)]

theorem Tracked.took (h : Tracked net len s) {more : ℕ} (hcall : net.results s.calls = .bytes more) :
    Tracked net len (s.took net len more) := by
  have hcount : s.count len more = min (more + 1) (len - taken net len s.calls % 2 ^ 32) := by
    rw [RecvState.count, h.bytesRead]
  have htaken : taken net len (s.calls + 1) = taken net len s.calls + s.count len more := by
    rw [taken_succ hcall, hcount]
  have hle : s.count len more ≤ len - s.bytesRead := Nat.min_le_right _ _
  refine ⟨fun i hi => ?_, ?_, ?_, fun hlen => ?_, fun hlen i hi => ?_⟩
  · rcases Nat.lt_succ_iff_lt_or_eq.mp hi with hlt | rfl
    · exact h.only i hlt
    · exact ⟨more, hcall⟩
  · show (s.bytesRead + s.count len more % 2 ^ 32) % 2 ^ 32 = taken net len (s.calls + 1) % 2 ^ 32
    rw [htaken, h.bytesRead, ← Nat.add_mod]
  · show s.consumed + s.count len more = taken net len (s.calls + 1)
    rw [htaken, h.consumed]
  · show taken net len (s.calls + 1) ≤ len
    have hread := h.bytesRead_eq hlen
    have hinside := h.inside hlen
    omega
  · have hread := h.bytesRead_eq hlen
    have hconsumed := h.consumed
    have hinside := h.inside hlen
    have hi : i < (s.bytesRead + s.count len more % 2 ^ 32) % 2 ^ 32 := hi
    rw [Nat.add_mod_mod, Nat.mod_eq_of_lt (by omega)] at hi
    show writeAt s.buf s.bytesRead _ i = net.stream i
    by_cases hold : i < s.bytesRead
    · rw [writeAt_before _ _ hold]
      exact h.buf hlen i hold
    · obtain ⟨j, rfl⟩ := Nat.exists_eq_add_of_le (not_lt.mp hold)
      rw [writeAt_hit _ _ (by simp; omega), List.getElem_map, List.getElem_range, hconsumed, hread]

theorem exists_tracked {k : ℕ} (old : ℕ → UInt8)
    (h : ∀ j, j < k → ∃ more, net.results j = .bytes more ∧ taken net len j % 2 ^ 32 < len ∧
      min (more + 1) (len - taken net len j % 2 ^ 32) % 2 ^ 32 ≠ 0) :
    ∃ s, Tracked net len s ∧ s.calls = k ∧
      ∀ fuel, recvInLoop net len (k + fuel) (.init old) = recvInLoop net len fuel s := by
  induction k with
  | zero => exact ⟨.init old, tracked_init old, rfl, fun fuel => by rw [Nat.zero_add]⟩
  | succ k ih =>
    obtain ⟨s, htracked, rfl, hrun⟩ := ih fun j hj => h j (by omega)
    obtain ⟨more, hcall, hlt, hcount⟩ := h s.calls (Nat.lt_succ_self _)
    rw [← htracked.bytesRead] at hlt hcount
    refine ⟨s.took net len more, htracked.took hcall, rfl, fun fuel => ?_⟩
    rw [Nat.add_right_comm, Nat.add_assoc, hrun, recvInLoop_bytes hlt hcall]
    exact if_neg hcount

/-! ### Lengths that the counter reaches -/

section Small

variable (hlen : len < 2 ^ 32)
include hlen

theorem count_pos {more : ℕ} (hlt : s.bytesRead < len) :
    0 < s.count len more ∧ s.count len more % 2 ^ 32 ≠ 0 := by
  unfold RecvState.count
  omega

theorem Tracked.exists_delivered (h : NoLateError net len) (htracked : Tracked net len s) :
    ∃ fuel ret s', recvInLoop net len fuel s = some (ret, s') ∧ Delivered net len ret s' := by
  -- on the number of bytes that are still to come
  generalize hn : len - taken net len s.calls = n
  induction n using Nat.strong_induction_on generalizing s with
  | _ n ih =>
    have hread := htracked.bytesRead_eq hlen
    have hstops : ∀ k, k + 1 < s.calls + 1 → ∃ more, net.results k = .bytes more :=
      fun k hk => htracked.only k (by omega)
    by_cases hlt : s.bytesRead < len
    · cases hcall : net.results s.calls with
      | closed => exact ⟨1, 0, s.ended, recvInLoop_closed hlt hcall 0, hstops, Or.inr le_rfl⟩
      | error =>
        obtain hzero : s.calls = 0 := by
          by_contra hne
          exact h s.calls (Nat.pos_of_ne_zero hne) htracked.only (hread ▸ hlt) hcall
        have hfailed : s.failed.bytesRead = 2 ^ 32 - 1 := by
          show (s.bytesRead + (2 ^ 32 - 1)) % 2 ^ 32 = 2 ^ 32 - 1
          rw [hread, hzero, taken, Nat.zero_add]
          exact Nat.mod_eq_of_lt (by norm_num)
        refine ⟨2, wrap32 s.failed.bytesRead, s.failed, ?_, hstops, Or.inr ?_⟩
        · rw [recvInLoop_error hlt hcall, recvInLoop_done (by rw [hfailed]; omega)]
        · exact wrap32_nonpos (by rw [hfailed]; norm_num) (by rw [hfailed]; norm_num)
      | bytes more =>
        obtain ⟨hpos, hne⟩ := @count_pos len s hlen more hlt
        have htook := htracked.took hcall
        have hmore : taken net len (s.took net len more).calls = taken net len s.calls + s.count len more := by
          rw [← htook.consumed, ← htracked.consumed]
          rfl
        obtain ⟨fuel, ret, s', hrun, hdelivered⟩ := ih (len - taken net len (s.took net len more).calls)
          (by omega) htook rfl
        refine ⟨fuel + 1, ret, s', ?_, hdelivered⟩
        rw [recvInLoop_bytes hlt hcall, if_neg hne]
        exact hrun
    · have hall : s.bytesRead = len := by
        have := htracked.inside hlen
        omega
      refine ⟨1, wrap32 s.bytesRead, s, recvInLoop_done hlt 0, fun k hk => htracked.only k (by omega), ?_⟩
      rw [hall]
      rcases Nat.lt_or_ge len (2 ^ 31) with hint | hlarge
      · refine Or.inl ⟨wrap32_of_lt (by omega) (by omega), by rw [htracked.consumed, ← hread, hall], ?_⟩
        rw [← hall]
        exact htracked.buf hlen
      · exact Or.inr (wrap32_nonpos hlarge hlen)

/-- After an error in the middle of a message there is another call. -/
theorem noLateError_of_delivers {old : ℕ → UInt8} (h : Delivers net len old) : NoLateError net len := by
  intro k hk honly hpart herror
  obtain ⟨fuel, ret, s', hrun, hstops, -⟩ := h
  obtain ⟨s, htracked, rfl, hreach⟩ := @exists_tracked net len k old fun j hj => by
    obtain ⟨more, hcall⟩ := honly j hj
    have hmono := @taken_mono net len _ _ hj.le
    rw [Nat.mod_eq_of_lt (by omega)]
    exact ⟨more, hcall, by omega, by omega⟩
  have hread := htracked.bytesRead_eq hlen
  have hpos : 0 < taken net len s.calls := taken_pos (by omega) hk honly
  have hlt : s.bytesRead < len := hread ▸ hpart
  have hrest : recvInLoop net len fuel s = some (ret, s') := by
    rw [← hreach, Nat.add_comm]
    exact recvInLoop_mono hrun
  cases fuel with
  | zero => exact absurd hrest (by simp [recvInLoop])
  | succ fuel =>
    rw [recvInLoop_error hlt herror] at hrest
    have hback : s.failed.bytesRead < len := by
      show (s.bytesRead + (2 ^ 32 - 1)) % 2 ^ 32 < len
      omega
    have hcalls : s.calls + 1 + 1 ≤ s'.calls := (calls_le hrest).2 hback
    obtain ⟨more, hcall⟩ := hstops s.calls (by omega)
    rw [herror] at hcall
    exact RecvResult.noConfusion hcall

end Small

/-! ### Lengths that it does not reach -/

section Large

variable (hlen : 2 ^ 32 ≤ len)
include hlen

theorem Tracked.stopsAtZero {fuel : ℕ} {ret : ℤ} {s' : RecvState} (htracked : Tracked net len s)
    (hrun : recvInLoop net len fuel s = some (ret, s')) (hstops : OnlyBytes net (s'.calls - 1)) :
    StopsAtZero net len := by
  induction fuel generalizing s with
  | zero => exact absurd hrun (by simp [recvInLoop])
  | succ fuel ih =>
    have hlt : s.bytesRead < len := by
      rw [htracked.bytesRead]
      exact (Nat.mod_lt _ (by norm_num)).trans_le hlen
    cases hcall : net.results s.calls with
    | closed => exact ⟨s.calls, htracked.only, Or.inl hcall⟩
    | error =>
      rw [recvInLoop_error hlt hcall] at hrun
      have hfailed : s.failed.bytesRead < len := (Nat.mod_lt _ (by norm_num)).trans_le hlen
      have hcalls : s.calls + 1 + 1 ≤ s'.calls := (calls_le hrun).2 hfailed
      obtain ⟨more, hbytes⟩ := hstops s.calls (by omega)
      rw [hcall] at hbytes
      exact absurd hbytes RecvResult.noConfusion
    | bytes more =>
      rw [recvInLoop_bytes hlt hcall] at hrun
      by_cases hzero : s.count len more % 2 ^ 32 = 0
      · refine ⟨s.calls, htracked.only, Or.inr ⟨more, hcall, ?_⟩⟩
        rwa [← htracked.bytesRead]
      · rw [if_neg hzero] at hrun
        exact ih (htracked.took hcall) hrun

theorem delivers_of_stopsAtZero (old : ℕ → UInt8) (h : StopsAtZero net len) : Delivers net len old := by
  classical
  -- the first call that is zero
  let zeroAt (k : ℕ) : Prop := net.results k = .closed ∨
    ∃ more, net.results k = .bytes more ∧ min (more + 1) (len - taken net len k % 2 ^ 32) % 2 ^ 32 = 0
  have hexists : ∃ k, zeroAt k := by
    obtain ⟨k, -, hk⟩ := h
    exact ⟨k, hk⟩
  obtain ⟨last, honly, hlast⟩ := h
  have hle : Nat.find hexists ≤ last := Nat.find_min' hexists hlast
  have hread : ∀ j, taken net len j % 2 ^ 32 < len := fun j => (Nat.mod_lt _ (by norm_num)).trans_le hlen
  obtain ⟨s, htracked, hcalls, hreach⟩ := @exists_tracked net len (Nat.find hexists) old fun j hj => by
      obtain ⟨more, hcall⟩ := honly j (hj.trans_le hle)
      exact ⟨more, hcall, hread j, fun hzero => Nat.find_min hexists hj (Or.inr ⟨more, hcall, hzero⟩)⟩
  have hstops : ∀ k, k + 1 < s.calls + 1 → ∃ more, net.results k = .bytes more := fun k hk => htracked.only k (by omega)
  have hlt : s.bytesRead < len := by
    rw [htracked.bytesRead]
    exact hread _
  have hspec := Nat.find_spec hexists
  rw [← hcalls] at hspec hreach
  rcases hspec with hclosed | ⟨more, hcall, hzero⟩
  · refine ⟨s.calls + 1, 0, s.ended, ?_, hstops, Or.inr le_rfl⟩
    rw [hreach, recvInLoop_closed hlt hclosed]
  · refine ⟨s.calls + 1, 0, s.took net len more, ?_, hstops, Or.inr le_rfl⟩
    rw [hreach, recvInLoop_bytes hlt hcall]
    rw [← htracked.bytesRead] at hzero
    exact if_pos hzero

end Large

end Loop

/-- `recv_in` delivers the next `len` bytes or reports a failure exactly when no call fails in the middle of the
message, or, for a length beyond its counter, when a call yields zero before one fails. -/
theorem delivers_iff (net : Incoming) (len : ℕ) (old : ℕ → UInt8) :
    Delivers net len old ↔ (len < 2 ^ 32 ∧ NoLateError net len) ∨ (2 ^ 32 ≤ len ∧ StopsAtZero net len) := by
  rcases Nat.lt_or_ge len (2 ^ 32) with hlen | hlen
  · rw [and_iff_right hlen, or_iff_left fun h => absurd h.1 (Nat.not_le.mpr hlen)]
    exact ⟨noLateError_of_delivers hlen, fun h => (tracked_init old).exists_delivered hlen h⟩
  · rw [and_iff_right hlen, or_iff_right fun h => absurd h.1 (Nat.not_lt.mpr hlen)]
    constructor
    · rintro ⟨fuel, ret, s', hrun, hstops, -⟩
      exact (tracked_init old).stopsAtZero hlen hrun fun k hk => hstops k (by omega)
    · exact delivers_of_stopsAtZero hlen old

/-- One byte, then an error, then the rest of the stream. -/
def lateError : Incoming where
  results k := if k = 1 then .error else .bytes 0
  stream i := UInt8.ofNat i

/-- Two bytes are reported as read, and the first of them is lost. -/
theorem not_delivers_lateError : ¬ Delivers lateError 2 fun _ => 0 := by
  intro h
  exact noLateError_of_delivers (by norm_num) h 1 one_pos (fun i hi => ⟨0, by simp [lateError]; omega⟩)
    (by decide) rfl

end PrioPlus.NetShare

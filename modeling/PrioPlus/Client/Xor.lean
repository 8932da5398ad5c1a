import PrioPlus.Server.Common

/-!
# The xor encodings of the client

`xor_op_helper` encodes a bit as zero when it does not decide the answer and as a random word when it does.
`max_op_helper` encodes a value in unary: random words up to the value, zeros above it. The two servers receive the two
halves of a xor sharing. The random words are parameters.
-/

namespace PrioPlus

/-- A request of `xor_op_helper`: the value, the words that the generator gives, and the key. -/
structure XorRequest where
  value : Bool
  random : UInt64
  share0 : UInt64
  pk : Pk

namespace XorRequest

/-- The encoding. Without a branch for the protocol `encoded` would keep what was in it, here `random`; `xor_op` of the
client returns before that. -/
def encoded (type : MessageType) (r : XorRequest) : UInt64 :=
  match type with
  | .andOp => if r.value then 0 else r.random
  | .orOp => if !r.value then 0 else r.random
  | _ => r.random

/-- What `xor_op_helper` sends to the two servers. -/
def shares (type : MessageType) (r : XorRequest) : IntShare × IntShare :=
  (⟨r.pk, r.share0⟩, ⟨r.pk, r.share0 ^^^ r.encoded type⟩)

theorem xor_shares (type : MessageType) (r : XorRequest) :
    (r.shares type).1.val ^^^ (r.shares type).2.val = r.encoded type := by
  rw [shares, ← UInt64.xor_assoc, UInt64.xor_self, UInt64.zero_xor]

theorem encoded_andOp {r : XorRequest} (h : r.value = true) : r.encoded .andOp = 0 := by
  simp [encoded, h]

theorem encoded_orOp {r : XorRequest} (h : r.value = false) : r.encoded .orOp = 0 := by
  simp [encoded, h]

end XorRequest

/-- A request of `max_op_helper`: the words that the generator gives, and the key in each of the two submissions. The
helper puts one key in both; in `max_op_invalid` they may differ. -/
structure MaxRequest (B : UInt32) where
  random : UInt64
  orEncoded : Vector UInt64 (B + 1).toNat
  share0 : Vector UInt64 (B + 1).toNat
  pk0 : Pk
  pk1 : Pk

namespace MaxRequest

variable {B : UInt32} (type : MessageType) (r : MaxRequest B)

def value : UInt64 := r.random % (B + 1).toUInt64

/-- The index up to which the encoding is random. -/
def top : UInt64 :=
  match type with
  | .maxOp => r.value
  | .minOp => B.toUInt64 - r.value
  | _ => 0

/-- The words above `top` are set to zero, from `v + 1` on in 32 bits. -/
def encoded : Vector UInt64 (B + 1).toNat :=
  r.orEncoded.mapIdx fun j x => if ((r.top type) + 1).toUInt32.toNat ≤ j then 0 else x

/-- What `max_op_helper` sends to the two servers. -/
def shares : MaxShare B × MaxShare B :=
  (⟨r.pk0, r.share0⟩, ⟨r.pk1, Vector.zipWith (· ^^^ ·) r.share0 (r.encoded type)⟩)

theorem xor_shares {j : ℕ} (hj : j < (B + 1).toNat) :
    (r.shares type).1.arr[j] ^^^ (r.shares type).2.arr[j] = (r.encoded type)[j] := by
  simp only [shares, Vector.getElem_zipWith]
  rw [← UInt64.xor_assoc, UInt64.xor_self, UInt64.zero_xor]

theorem toNat_succ (hB : B.toNat + 1 < 2 ^ 32) : (B + 1).toNat = B.toNat + 1 := by
  rw [UInt32.toNat_add]
  exact Nat.mod_eq_of_lt hB

section Bounds

variable (hB : B.toNat + 1 < 2 ^ 32)
include hB

theorem value_le : r.value.toNat ≤ B.toNat := by
  have hmod : r.value.toNat = r.random.toNat % (B.toNat + 1) := by
    rw [value, UInt64.toNat_mod, UInt32.toNat_toUInt64, toNat_succ hB]
  have hlt : r.random.toNat % (B.toNat + 1) < B.toNat + 1 := Nat.mod_lt _ (Nat.succ_pos _)
  omega

theorem top_minOp : (r.top .minOp).toNat = B.toNat - r.value.toNat := by
  have hle : r.value ≤ B.toUInt64 := by
    rw [UInt64.le_iff_toNat_le, UInt32.toNat_toUInt64]
    exact r.value_le hB
  rw [top, UInt64.toNat_sub_of_le _ _ hle, UInt32.toNat_toUInt64]

theorem top_le : (r.top type).toNat ≤ B.toNat := by
  have hvalue := r.value_le hB
  cases type <;> try exact Nat.zero_le _
  · exact hvalue
  · rw [r.top_minOp hB]
    exact Nat.sub_le _ _

theorem encoded_eq_zero {j : ℕ} (hj : j < (B + 1).toNat) (htop : (r.top type).toNat < j) :
    (r.encoded type)[j] = 0 := by
  have hle := r.top_le type hB
  have hstart : ((r.top type) + 1).toUInt32.toNat = (r.top type).toNat + 1 := by
    have hone : (1 : UInt64).toNat = 1 := rfl
    rw [UInt64.toNat_toUInt32, UInt64.toNat_add, hone]
    omega
  rw [encoded, Vector.getElem_mapIdx, hstart]
  exact if_pos htop

end Bounds

end MaxRequest

end PrioPlus

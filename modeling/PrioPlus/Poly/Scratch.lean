import Mathlib.LinearAlgebra.Lagrange
import PrioPlus.Lib.Buffers
import PrioPlus.Poly.Fft

/-!
# The scratch arrays of `poly/fft.c`

All calls of `fft_recurse` work in the same three scratch arrays: a call gets what its caller leaves over of them, and
writes its results into the `tmp` of its caller. Here it runs on these arrays, with checked accesses, and a call keeps
the cells that it reads again later, so that a write to one of them fails. No access fails, and the outputs are those
of `PrioPlus.fftRecurse`, where the scratch arrays are local values (`fftRecurse_spec`).
-/

namespace PrioPlus.Scratch

open Finset Polynomial Lib Lib.Buffers

/-- The arrays of `fft_interpolate`. -/
inductive Buffer
  | out
  | tmp
  | ySub
  | rootsSub
  | roots
  | ys
deriving DecidableEq

/-- The pointers that `fft_recurse` is called with. -/
structure FftArgs where
  out : Cell Buffer
  roots : Cell Buffer
  ys : Cell Buffer
  tmp : Cell Buffer
  ySub : Cell Buffer
  rootsSub : Cell Buffer

/-- The arguments of both recursive calls, with `half = n / 2`. -/
def FftArgs.sub (half : ℕ) (a : FftArgs) : FftArgs where
  out := a.tmp
  roots := a.rootsSub
  ys := a.ySub
  tmp := a.tmp + half
  ySub := a.ySub + half
  rootsSub := a.rootsSub + half

section Source

variable (A : Arena Buffer) (m : Cell Buffer → ℤ) (dst : Cell Buffer)

def fmpzSet (src : Cell Buffer) : Option (Cell Buffer → ℤ) := A.assign m id dst src

def fmpzMod (src : Cell Buffer) (mod : ℕ) : Option (Cell Buffer → ℤ) := A.assign m (· % (mod : ℤ)) dst src

def fmpzAdd (f g : Cell Buffer) : Option (Cell Buffer → ℤ) := A.assign₂ m (· + ·) dst f g

def fmpzSub (f g : Cell Buffer) : Option (Cell Buffer → ℤ) := A.assign₂ m (· - ·) dst f g

def fmpzMul (f g : Cell Buffer) : Option (Cell Buffer → ℤ) := A.assign₂ m (· * ·) dst f g

end Source

/-- The first loop of `fft_recurse`. -/
def halfSums (A : Arena Buffer) (mod half : ℕ) (a : FftArgs) : (Cell Buffer → ℤ) → Option (Cell Buffer → ℤ) :=
  loop half fun i m => do
    let m ← fmpzAdd A m (a.ySub + i) (a.ys + i) (a.ys + (i + half))
    let m ← fmpzMod A m (a.ySub + i) (a.ySub + i) mod
    fmpzSet A m (a.rootsSub + i) (a.roots + 2 * i)

/-- The loop before the second recursive call. -/
def halfDiffs (A : Arena Buffer) (mod half : ℕ) (a : FftArgs) : (Cell Buffer → ℤ) → Option (Cell Buffer → ℤ) :=
  loop half fun i m => do
    let m ← fmpzSub A m (a.ySub + i) (a.ys + i) (a.ys + (i + half))
    let m ← fmpzMod A m (a.ySub + i) (a.ySub + i) mod
    let m ← fmpzMul A m (a.ySub + i) (a.ySub + i) (a.roots + i)
    fmpzMod A m (a.ySub + i) (a.ySub + i) mod

/-- The loop after a recursive call, to the even (`odd = 0`) or the odd outputs (`odd = 1`). -/
def interleave (A : Arena Buffer) (half odd : ℕ) (a : FftArgs) : (Cell Buffer → ℤ) → Option (Cell Buffer → ℤ) :=
  loop half fun i m => fmpzSet A m (a.out + (2 * i + odd)) (a.tmp + i)

/-- `fft_recurse`, which does not return for `n = 0`. The argument of each `keeping` lists the cells that the call reads
after the step. -/
def fftRecurse (A : Arena Buffer) (mod n : ℕ) (a : FftArgs) (m : Cell Buffer → ℤ) : Option (Cell Buffer → ℤ) :=
  if n = 1 then fmpzSet A m (a.out + 0) (a.ys + 0)
  else if n = 0 then none
  else do
    let half := n / 2
    let inputs := cells a.ys n ++ cells a.roots n
    let subRoots := cells a.rootsSub half
    let results := cells a.tmp half
    let even := (List.range half).map fun i => a.out + (2 * i + 0)
    let m ← halfSums (A.keeping inputs) mod half a m
    let m ← fftRecurse (A.keeping (inputs ++ subRoots)) mod half (a.sub half) m
    let m ← interleave (A.keeping (inputs ++ subRoots ++ results)) half 0 a m
    let m ← halfDiffs (A.keeping (inputs ++ subRoots ++ even)) mod half a m
    let m ← fftRecurse (A.keeping even) mod half (a.sub half) m
    interleave (A.keeping (even ++ results)) half 1 a m
termination_by n

/-- The arrays that `fft_interpolate` works with. `roots` and `ys` are `const`. -/
def arena (nPoints : ℕ) (roots ys : List ℤ) : Arena Buffer where
  size
    | .roots => roots.length
    | .ys => ys.length
    | _ => nPoints
  keep := cells ⟨.roots, 0⟩ roots.length ++ cells ⟨.ys, 0⟩ ys.length

/-- `fmpz_init` sets the other arrays to zero. -/
def init (roots ys : List ℤ) (c : Cell Buffer) : ℤ :=
  match c.array with
  | .roots => roots.getD c.index 0
  | .ys => ys.getD c.index 0
  | _ => 0

def args : FftArgs where
  out := ⟨.out, 0⟩
  roots := ⟨.roots, 0⟩
  ys := ⟨.ys, 0⟩
  tmp := ⟨.tmp, 0⟩
  ySub := ⟨.ySub, 0⟩
  rootsSub := ⟨.rootsSub, 0⟩

/-- The loop of `fft_interpolate` with `invert`. -/
def scaleOut (A : Arena Buffer) (mod nPoints : ℕ) (out : Cell Buffer) :
    (Cell Buffer → ℤ) → Option (Cell Buffer → ℤ) :=
  let nInverse := fmpzInvmod nPoints mod
  loop nPoints fun i m => do
    let m ← A.assign m (· * nInverse) (out + i) (out + i)
    fmpzMod A m (out + i) (out + i) mod

def fftInterpolate (mod nPoints : ℕ) (roots ys : List ℤ) (invert : Bool) : Option (List ℤ) := do
  let A := arena nPoints roots ys
  let m ← fftRecurse A mod nPoints args (init roots ys)
  let m ← if invert then scaleOut A mod nPoints args.out m else some m
  return (List.range nPoints).map fun i => m (args.out + i)

/-! ### What a call may write -/

/-- `fft_recurse` may write the cell. -/
def FftArgs.Writes (n : ℕ) (a : FftArgs) (c : Cell Buffer) : Prop :=
  ∃ i < n, a.out + i = c ∨ a.tmp + i = c ∨ a.ySub + i = c ∨ a.rootsSub + i = c

/-- There is room for the call. What it reads is in other arrays or before what is left over of the scratch arrays, and
none of the cells to keep is one that it may write. -/
structure Placed (A : Arena Buffer) (n : ℕ) (a : FftArgs) : Prop where
  fits : ∀ p ∈ [a.out, a.roots, a.ys, a.tmp, a.ySub, a.rootsSub], A.Fits p n
  before : ∀ p ∈ [a.out, a.roots, a.ys], ∀ q ∈ [a.tmp, a.ySub, a.rootsSub], Before p n q
  inputs : ∀ p ∈ [a.roots, a.ys], p.array ≠ a.out.array
  scratch : [a.tmp.array, a.ySub.array, a.rootsSub.array].Nodup
  keep : ∀ c ∈ A.keep, ¬ a.Writes n c

section Half

variable {A : Arena Buffer} {half : ℕ} {a : FftArgs} {c : Cell Buffer}

theorem FftArgs.Writes.of_sub (h : (a.sub half).Writes half c) : a.Writes (2 * half) c := by
  obtain ⟨i, hi, rfl | rfl | rfl | rfl⟩ := h
  · exact ⟨i, by omega, Or.inr (Or.inl rfl)⟩
  · exact ⟨half + i, by omega, Or.inr (Or.inl (add_add _ _ _).symm)⟩
  · exact ⟨half + i, by omega, Or.inr (Or.inr (Or.inl (add_add _ _ _).symm))⟩
  · exact ⟨half + i, by omega, Or.inr (Or.inr (Or.inr (add_add _ _ _).symm))⟩

namespace Placed

variable {n : ℕ} (h : Placed A n a)
include h

theorem tmp_ne_ySub : a.tmp.array ≠ a.ySub.array := List.rel_of_pairwise_cons h.scratch (by simp)

theorem tmp_ne_rootsSub : a.tmp.array ≠ a.rootsSub.array := List.rel_of_pairwise_cons h.scratch (by simp)

theorem ySub_ne_rootsSub : a.ySub.array ≠ a.rootsSub.array :=
  List.rel_of_pairwise_cons (List.nodup_cons.mp h.scratch).2 (by simp)

theorem inBounds {cs : List (Cell Buffer)} {p : Cell Buffer}
    (hp : p ∈ [a.out, a.roots, a.ys, a.tmp, a.ySub, a.rootsSub]) {i : ℕ} (hi : i < n) :
    (A.keeping cs).InBounds (p + i) := (h.fits p hp).inBounds hi

theorem not_writes_input {p : Cell Buffer} (hp : p ∈ [a.roots, a.ys]) {j : ℕ} (hj : j < n) : ¬ a.Writes n (p + j) := by
  have hout : a.out.array ≠ p.array := (h.inputs p hp).symm
  have hbefore : ∀ q ∈ [a.tmp, a.ySub, a.rootsSub], ∀ i, q + i ≠ p + j := fun q hq i =>
    ((h.before p (List.mem_cons_of_mem _ hp) q hq).ne hj i).symm
  rintro ⟨i, -, heq | heq | heq | heq⟩
  · exact ne_of_array hout i j heq
  · exact hbefore a.tmp (by simp) i heq
  · exact hbefore a.ySub (by simp) i heq
  · exact hbefore a.rootsSub (by simp) i heq

end Placed

namespace Placed

variable (h : Placed A (2 * half) a)
include h

theorem not_sub_writes_out {j : ℕ} (hj : j < 2 * half) : ¬ (a.sub half).Writes half (a.out + j) := by
  have hbefore : ∀ q ∈ [a.tmp, a.ySub, a.rootsSub], ∀ i, q + i ≠ a.out + j := fun q hq i =>
    ((h.before a.out (by simp) q hq).ne hj i).symm
  rintro ⟨i, -, heq | heq | heq | heq⟩
  · exact hbefore a.tmp (by simp) i heq
  · exact hbefore a.tmp (by simp) (half + i) ((add_add _ _ _).symm.trans heq)
  · exact hbefore a.ySub (by simp) (half + i) ((add_add _ _ _).symm.trans heq)
  · exact hbefore a.rootsSub (by simp) (half + i) ((add_add _ _ _).symm.trans heq)

theorem not_sub_writes_rootsSub {j : ℕ} (hj : j < half) : ¬ (a.sub half).Writes half (a.rootsSub + j) := by
  rintro ⟨i, -, heq | heq | heq | heq⟩
  · exact ne_of_array h.tmp_ne_rootsSub i j heq
  · exact ne_of_array h.tmp_ne_rootsSub (half + i) j ((add_add _ _ _).symm.trans heq)
  · exact ne_of_array h.ySub_ne_rootsSub (half + i) j ((add_add _ _ _).symm.trans heq)
  · exact (before_add a.rootsSub half).ne hj i heq.symm

theorem sub {cs : List (Cell Buffer)} (hcs : ∀ c ∈ cs, ¬ (a.sub half).Writes half c) :
    Placed (A.keeping cs) half (a.sub half) where
  fits := by
    have hfits : ∀ p ∈ [a.tmp, a.ySub, a.rootsSub], A.Fits p half ∧ A.Fits (p + half) half := by
      intro p hp
      have hp : A.Fits p (2 * half) := h.fits p (by simp at hp ⊢; tauto)
      exact ⟨hp.mono (by omega), hp.add (by omega)⟩
    simp only [List.forall_mem_cons, List.not_mem_nil, false_imp_iff, implies_true, and_true, FftArgs.sub] at hfits ⊢
    tauto
  before := by
    simp only [List.forall_mem_cons, List.not_mem_nil, false_imp_iff, implies_true, and_true, FftArgs.sub]
    exact ⟨⟨before_add _ _, before_of_array h.tmp_ne_ySub, before_of_array h.tmp_ne_rootsSub⟩,
      ⟨before_of_array h.tmp_ne_rootsSub.symm, before_of_array h.ySub_ne_rootsSub.symm, before_add _ _⟩,
      before_of_array h.tmp_ne_ySub.symm, before_add _ _, before_of_array h.ySub_ne_rootsSub⟩
  inputs := by
    simp only [List.forall_mem_cons, List.not_mem_nil, false_imp_iff, implies_true, and_true, FftArgs.sub]
    exact ⟨h.tmp_ne_rootsSub.symm, h.tmp_ne_ySub.symm⟩
  scratch := h.scratch
  keep := by
    intro c hc hwrites
    rcases List.mem_append.mp hc with hc | hc
    · exact hcs c hc hwrites
    · exact h.keep c hc hwrites.of_sub

end Placed

/-! ### The loops -/

theorem Placed.not_mem_keep {n : ℕ} {cs : List (Cell Buffer)} (h : Placed A n a) (hc : a.Writes n c) (hcs : c ∉ cs) :
    c ∉ (A.keeping cs).keep := by
  intro hmem
  rcases List.mem_append.mp hmem with hmem | hmem
  · exact hcs hmem
  · exact h.keep c hmem hc

theorem fmpzMod_update {m : Cell Buffer → ℤ} (hc : A.InBounds c) (hkeep : c ∉ A.keep) (mod : ℕ) (x : ℤ) :
    fmpzMod A (Function.update m c x) c c mod = some (Function.update m c (x % mod)) := by
  rw [fmpzMod, Arena.assign_eq _ hc hc hkeep, Function.update_self, Function.update_idem]

theorem Placed.ne_of_writes {n : ℕ} (h : Placed A n a) {p : Cell Buffer} (hp : p ∈ [a.roots, a.ys]) {j : ℕ}
    (hj : j < n) (hc : a.Writes n c) : c ≠ p + j := by
  rintro rfl
  exact h.not_writes_input hp hj hc

theorem Placed.update_input {n : ℕ} (h : Placed A n a) {p : Cell Buffer} (hp : p ∈ [a.roots, a.ys]) {j : ℕ} (hj : j < n)
    (hc : a.Writes n c) (m : Cell Buffer → ℤ) (x : ℤ) : Function.update m c x (p + j) = m (p + j) :=
  Function.update_of_ne (h.ne_of_writes hp hj hc).symm x m

theorem writes_ySub {n i : ℕ} (hi : i < n) : a.Writes n (a.ySub + i) := ⟨i, hi, Or.inr (Or.inr (Or.inl rfl))⟩

theorem writes_rootsSub {n i : ℕ} (hi : i < n) : a.Writes n (a.rootsSub + i) := ⟨i, hi, Or.inr (Or.inr (Or.inr rfl))⟩

section Writes

variable (half : ℕ) (a : FftArgs) (m : Cell Buffer → ℤ) (i : ℕ)

/-- What a round of `interleave` writes, over the memory before the loop. -/
def outWrites (odd : ℕ) : List (Cell Buffer × ℤ) := [(a.out + (2 * i + odd), m (a.tmp + i))]

/-- What a round of `halfSums` writes. -/
def sumWrites (mod : ℕ) : List (Cell Buffer × ℤ) :=
  [(a.ySub + i, (m (a.ys + i) + m (a.ys + (i + half))) % mod), (a.rootsSub + i, m (a.roots + 2 * i))]

/-- What a round of `halfDiffs` writes. -/
def diffWrites (mod : ℕ) : List (Cell Buffer × ℤ) :=
  [(a.ySub + i, (m (a.ys + i) - m (a.ys + (i + half))) % mod * m (a.roots + i) % mod)]

variable {half a m i}

theorem outWrites_writes {odd : ℕ} (hodd : odd ≤ 1) (hi : i < half) :
    ∀ w ∈ outWrites a m i odd, a.Writes (2 * half) w.1 := by
  intro w hw
  rw [List.mem_singleton.mp hw]
  exact ⟨2 * i + odd, by omega, Or.inl rfl⟩

theorem sumWrites_writes {mod : ℕ} (hi : i < half) : ∀ w ∈ sumWrites half a m i mod, a.Writes (2 * half) w.1 := by
  intro w hw
  simp only [sumWrites, List.mem_cons, List.not_mem_nil, or_false] at hw
  rcases hw with rfl | rfl
  · exact writes_ySub (by omega)
  · exact writes_rootsSub (by omega)

theorem diffWrites_writes {mod : ℕ} (hi : i < half) : ∀ w ∈ diffWrites half a m i mod, a.Writes (2 * half) w.1 := by
  intro w hw
  rw [List.mem_singleton.mp hw]
  exact writes_ySub (by omega)

end Writes

variable {cs : List (Cell Buffer)} (h : Placed A (2 * half) a) (m : Cell Buffer → ℤ)
include h

theorem interleave_spec {odd : ℕ} (hodd : odd ≤ 1) (hcs : ∀ i < half, a.out + (2 * i + odd) ∉ cs) :
    ∃ m', interleave (A.keeping cs) half odd a m = some m' ∧
      Assigns m ((List.range half).flatMap fun i => outWrites a m i odd) m' := by
  apply loop_assigns
  · intro i j hij hj w hw v hv
    rw [List.mem_singleton.mp hw, List.mem_singleton.mp hv, Ne, add_inj]
    omega
  · intro i hi m' hm'
    have htmp : m' (a.tmp + i) = m (a.tmp + i) := by
      apply hm'
      intro j hj w hw
      rw [List.mem_singleton.mp hw]
      exact (h.before a.out (by simp) a.tmp (by simp)).ne (by omega) i
    have hout : a.Writes (2 * half) (a.out + (2 * i + odd)) := ⟨2 * i + odd, by omega, Or.inl rfl⟩
    have hsrc : (A.keeping cs).InBounds (a.tmp + i) := h.inBounds (by simp) (by omega)
    have hdst : (A.keeping cs).InBounds (a.out + (2 * i + odd)) := h.inBounds (by simp) (by omega)
    refine ⟨_, Arena.assign_eq id hsrc hdst (h.not_mem_keep hout (hcs i hi)), ?_⟩
    rw [htmp]
    exact assigns_update m' _ _

theorem halfSums_spec (mod : ℕ) (hcs : ∀ i < half, a.ySub + i ∉ cs ∧ a.rootsSub + i ∉ cs) :
    ∃ m', halfSums (A.keeping cs) mod half a m = some m' ∧
      Assigns m ((List.range half).flatMap fun i => sumWrites half a m i mod) m' := by
  have hne : ∀ i j, a.rootsSub + i ≠ a.ySub + j := ne_of_array h.ySub_ne_rootsSub.symm
  apply loop_assigns
  · intro i j hij hj w hw v hv
    simp only [sumWrites, List.mem_cons, List.not_mem_nil, or_false] at hw hv
    have hlt : j ≠ i := by omega
    rcases hw with rfl | rfl <;> rcases hv with rfl | rfl
    · exact mt add_inj.mp hlt
    · exact hne j i
    · exact (hne i j).symm
    · exact mt add_inj.mp hlt
  · intro i hi m' hm'
    have hread : ∀ p ∈ [a.roots, a.ys], ∀ j < 2 * half, m' (p + j) = m (p + j) := by
      intro p hp j hj
      apply hm'
      intro k hk w hw
      exact h.ne_of_writes hp hj (sumWrites_writes (by omega) w hw)
    have hySub := h.not_mem_keep (writes_ySub (by omega)) (hcs i hi).1
    have hrootsSub := h.not_mem_keep (writes_rootsSub (by omega)) (hcs i hi).2
    have hbound : (A.keeping cs).InBounds (a.ySub + i) := h.inBounds (by simp) (by omega)
    have hsrc : (A.keeping cs).InBounds (a.roots + 2 * i) := h.inBounds (by simp) (by omega)
    have hdst : (A.keeping cs).InBounds (a.rootsSub + i) := h.inBounds (by simp) (by omega)
    have hadd : fmpzAdd (A.keeping cs) m' (a.ySub + i) (a.ys + i) (a.ys + (i + half)) =
        some (Function.update m' (a.ySub + i) (m (a.ys + i) + m (a.ys + (i + half)))) := by
      rw [fmpzAdd, Arena.assign₂_eq _ (h.inBounds (by simp) (by omega)) (h.inBounds (by simp) (by omega)) hbound hySub,
        hread a.ys (by simp) _ (by omega), hread a.ys (by simp) _ (by omega)]
    have hset : ∀ x, fmpzSet (A.keeping cs) (Function.update m' (a.ySub + i) x) (a.rootsSub + i) (a.roots + 2 * i) =
        some (Function.update (Function.update m' (a.ySub + i) x) (a.rootsSub + i) (m (a.roots + 2 * i))) := by
      intro x
      rw [fmpzSet, Arena.assign_eq id hsrc hdst hrootsSub, h.update_input (by simp) (by omega) (writes_ySub (by omega)),
        hread a.roots (by simp) _ (by omega)]
      rfl
    refine ⟨_, ?_, (assigns_update m' _ _).append (assigns_update _ _ _) ?_⟩
    · simp only [hadd, fmpzMod_update hbound hySub, hset, Option.bind_eq_bind, Option.bind_some]
    · intro w hw v hv
      rw [List.mem_singleton.mp hw, List.mem_singleton.mp hv]
      exact hne i i

theorem halfDiffs_spec (mod : ℕ) (hcs : ∀ i < half, a.ySub + i ∉ cs) :
    ∃ m', halfDiffs (A.keeping cs) mod half a m = some m' ∧
      Assigns m ((List.range half).flatMap fun i => diffWrites half a m i mod) m' := by
  apply loop_assigns
  · intro i j hij hj w hw v hv
    rw [List.mem_singleton.mp hw, List.mem_singleton.mp hv, Ne, add_inj]
    omega
  · intro i hi m' hm'
    have hread : ∀ p ∈ [a.roots, a.ys], ∀ j < 2 * half, m' (p + j) = m (p + j) := by
      intro p hp j hj
      apply hm'
      intro k hk w hw
      exact h.ne_of_writes hp hj (diffWrites_writes (by omega) w hw)
    have hySub := h.not_mem_keep (writes_ySub (by omega)) (hcs i hi)
    have hbound : (A.keeping cs).InBounds (a.ySub + i) := h.inBounds (by simp) (by omega)
    have hsub : fmpzSub (A.keeping cs) m' (a.ySub + i) (a.ys + i) (a.ys + (i + half)) =
        some (Function.update m' (a.ySub + i) (m (a.ys + i) - m (a.ys + (i + half)))) := by
      rw [fmpzSub, Arena.assign₂_eq _ (h.inBounds (by simp) (by omega)) (h.inBounds (by simp) (by omega)) hbound hySub,
        hread a.ys (by simp) _ (by omega), hread a.ys (by simp) _ (by omega)]
    have hmul : ∀ x, fmpzMul (A.keeping cs) (Function.update m' (a.ySub + i) x) (a.ySub + i) (a.ySub + i)
        (a.roots + i) = some (Function.update m' (a.ySub + i) (x * m (a.roots + i))) := by
      intro x
      rw [fmpzMul, Arena.assign₂_eq _ hbound (h.inBounds (by simp) (by omega)) hbound hySub, Function.update_self,
        Function.update_idem, h.update_input (by simp) (by omega) (writes_ySub (by omega)),
        hread a.roots (by simp) _ (by omega)]
    refine ⟨_, ?_, assigns_update m' _ _⟩
    simp only [hsub, hmul, fmpzMod_update hbound hySub, Option.bind_eq_bind, Option.bind_some]

end Half

/-! ### `fft_recurse` -/

theorem fftRecurse_congr {mod k : ℕ} {roots roots' ys ys' : ℕ → ℤ} (hroots : ∀ i < 2 ^ k, roots i = roots' i)
    (hys : ∀ i < 2 ^ k, ys i = ys' i) {j : ℕ} (hj : j < 2 ^ k) :
    PrioPlus.fftRecurse mod (2 ^ k) roots ys j = PrioPlus.fftRecurse mod (2 ^ k) roots' ys' j := by
  induction k generalizing roots roots' ys ys' j with
  | zero => simpa [PrioPlus.fftRecurse] using hys 0 (by simp)
  | succ k ih =>
    have hdouble : 2 ^ (k + 1) = 2 * 2 ^ k := pow_succ' 2 k
    have hsub : ∀ i < 2 ^ k, roots (2 * i) = roots' (2 * i) := fun i hi => hroots _ (by omega)
    rw [fftRecurse_succ, fftRecurse_succ]
    split_ifs
    · apply ih hsub _ (by omega)
      intro i hi
      rw [hys i (by omega), hys (i + 2 ^ k) (by omega)]
    · apply ih hsub _ (by omega)
      intro i hi
      rw [hys i (by omega), hys (i + 2 ^ k) (by omega), hroots i (by omega)]

/-- The call leaves the transform of its inputs in `out`, and everything but the cells that it may write as it was. -/
structure Transforms (mod n : ℕ) (a : FftArgs) (m m' : Cell Buffer → ℤ) : Prop where
  out : ∀ j < n, m' (a.out + j) = PrioPlus.fftRecurse mod n (fun i => m (a.roots + i)) (fun i => m (a.ys + i)) j
  frame : ∀ c, ¬ a.Writes n c → m' c = m c

section Step

variable {A : Arena Buffer} {mod k : ℕ} {a : FftArgs} {m0 m1 m2 m3 m4 m5 m6 : Cell Buffer → ℤ}

/-- From the inputs to the roots and values of the first recursive call, and back to the even outputs. -/
theorem even_step (h : Placed A (2 * 2 ^ k) a)
    (h1 : Assigns m0 ((List.range (2 ^ k)).flatMap fun i => sumWrites (2 ^ k) a m0 i mod) m1)
    (h2 : Transforms mod (2 ^ k) (a.sub (2 ^ k)) m1 m2)
    (h3 : Assigns m2 ((List.range (2 ^ k)).flatMap fun i => outWrites a m2 i 0) m3) :
    (∀ i < 2 ^ k, m3 (a.out + (2 * i + 0)) = PrioPlus.fftRecurse mod (2 ^ k) (fun i => m0 (a.roots + 2 * i))
      (fun i => (m0 (a.ys + i) + m0 (a.ys + (i + 2 ^ k))) % mod) i) ∧
      (∀ i < 2 ^ k, m3 (a.rootsSub + i) = m0 (a.roots + 2 * i)) ∧
      ∀ c, ¬ a.Writes (2 * 2 ^ k) c → m3 c = m0 c := by
  have hroots : ∀ i < 2 ^ k, m1 (a.rootsSub + i) = m0 (a.roots + 2 * i) := fun i hi =>
    h1.hit_round hi (List.mem_cons_of_mem _ List.mem_cons_self)
  refine ⟨?_, ?_, ?_⟩
  · intro i hi
    rw [h3.hit_round hi List.mem_cons_self]
    apply (h2.out i hi).trans
    exact fftRecurse_congr hroots (fun j hj => h1.hit_round hj List.mem_cons_self) hi
  · intro i hi
    rw [h3.miss_rounds, h2.frame _ (h.not_sub_writes_rootsSub hi), hroots i hi]
    intro j hj w hw
    rw [List.mem_singleton.mp hw]
    exact (h.before a.out (by simp) a.rootsSub (by simp)).ne (by omega) i
  · intro c hc
    rw [h3.miss_rounds, h2.frame _ (mt FftArgs.Writes.of_sub hc), h1.miss_rounds]
    · exact fun i hi w hw heq => hc (heq ▸ sumWrites_writes hi w hw)
    · exact fun i hi w hw heq => hc (heq ▸ outWrites_writes (Nat.zero_le 1) hi w hw)

/-- From the inputs, and the roots that the first half has left, to the odd outputs. -/
theorem odd_step (h : Placed A (2 * 2 ^ k) a)
    (h4 : Assigns m3 ((List.range (2 ^ k)).flatMap fun i => diffWrites (2 ^ k) a m3 i mod) m4)
    (h5 : Transforms mod (2 ^ k) (a.sub (2 ^ k)) m4 m5)
    (h6 : Assigns m5 ((List.range (2 ^ k)).flatMap fun i => outWrites a m5 i 1) m6) :
    (∀ i < 2 ^ k, m6 (a.out + (2 * i + 1)) = PrioPlus.fftRecurse mod (2 ^ k) (fun i => m3 (a.rootsSub + i))
      (fun i => (m3 (a.ys + i) - m3 (a.ys + (i + 2 ^ k))) % mod * m3 (a.roots + i) % mod) i) ∧
      (∀ i < 2 ^ k, m6 (a.out + (2 * i + 0)) = m3 (a.out + (2 * i + 0))) ∧
      ∀ c, ¬ a.Writes (2 * 2 ^ k) c → m6 c = m3 c := by
  refine ⟨?_, ?_, ?_⟩
  · intro i hi
    rw [h6.hit_round hi List.mem_cons_self]
    apply (h5.out i hi).trans
    refine fftRecurse_congr ?_ (fun j hj => h4.hit_round hj List.mem_cons_self) hi
    intro j hj
    apply h4.miss_rounds
    intro l hl w hw
    rw [List.mem_singleton.mp hw]
    exact ne_of_array h.ySub_ne_rootsSub l j
  · intro i hi
    rw [h6.miss_rounds, h5.frame _ (h.not_sub_writes_out (by omega)), h4.miss_rounds]
    · intro j hj w hw
      rw [List.mem_singleton.mp hw]
      exact ((h.before a.out (by simp) a.ySub (by simp)).ne (by omega) j).symm
    · intro j hj w hw
      rw [List.mem_singleton.mp hw, Ne, add_inj]
      omega
  · intro c hc
    rw [h6.miss_rounds, h5.frame _ (mt FftArgs.Writes.of_sub hc), h4.miss_rounds]
    · exact fun i hi w hw heq => hc (heq ▸ diffWrites_writes hi w hw)
    · exact fun i hi w hw heq => hc (heq ▸ outWrites_writes le_rfl hi w hw)

end Step

section Keep

variable {A : Arena Buffer} {half : ℕ} {a : FftArgs} {c : Cell Buffer} {i : ℕ}

theorem mem_evenOutputs : c ∈ (List.range half).map (fun i => a.out + (2 * i + 0)) ↔
    ∃ i < half, a.out + (2 * i + 0) = c := by
  simp only [List.mem_map, List.mem_range]

theorem Placed.not_writes_inputs {n : ℕ} (h : Placed A n a) :
    ∀ c ∈ cells a.ys n ++ cells a.roots n, ¬ a.Writes n c := by
  intro c hc
  rcases List.mem_append.mp hc with hc | hc
  · obtain ⟨j, hj, rfl⟩ := mem_cells.mp hc
    exact h.not_writes_input (by simp) hj
  · obtain ⟨j, hj, rfl⟩ := mem_cells.mp hc
    exact h.not_writes_input (by simp) hj

theorem Placed.not_mem_inputs {n : ℕ} (h : Placed A n a) (hc : a.Writes n c) : c ∉ cells a.ys n ++ cells a.roots n :=
  fun hmem => h.not_writes_inputs c hmem hc

variable (h : Placed A (2 * half) a)
include h

/-- What is kept during the first recursive call is nothing that it may write. -/
theorem Placed.not_sub_writes_first : ∀ c ∈ cells a.ys (2 * half) ++ cells a.roots (2 * half) ++ cells a.rootsSub half,
    ¬ (a.sub half).Writes half c := by
  intro c hc
  rcases List.mem_append.mp hc with hc | hc
  · exact mt FftArgs.Writes.of_sub (h.not_writes_inputs c hc)
  · obtain ⟨j, hj, rfl⟩ := mem_cells.mp hc
    exact h.not_sub_writes_rootsSub hj

theorem Placed.not_sub_writes_second : ∀ c ∈ (List.range half).map fun i => a.out + (2 * i + 0),
    ¬ (a.sub half).Writes half c := by
  intro c hc
  obtain ⟨j, hj, rfl⟩ := mem_evenOutputs.mp hc
  exact h.not_sub_writes_out (by omega)

theorem Placed.out_not_mem_cells {q : Cell Buffer} (hq : q ∈ [a.tmp, a.ySub, a.rootsSub]) (hi : i < 2 * half) (n : ℕ) :
    a.out + i ∉ cells q n := by
  intro hmem
  obtain ⟨j, -, heq⟩ := mem_cells.mp hmem
  exact (h.before a.out (by simp) q hq).ne hi j heq.symm

theorem Placed.ySub_not_mem (hi : i < half) : a.ySub + i ∉ cells a.ys (2 * half) ++ cells a.roots (2 * half) ++
    cells a.rootsSub half ++ (List.range half).map fun i => a.out + (2 * i + 0) := by
  have hinputs := h.not_mem_inputs (writes_ySub (by omega : i < 2 * half))
  have hsubRoots : a.ySub + i ∉ cells a.rootsSub half := by
    intro hmem
    obtain ⟨j, -, heq⟩ := mem_cells.mp hmem
    exact ne_of_array h.ySub_ne_rootsSub i j heq.symm
  have heven : a.ySub + i ∉ (List.range half).map fun i => a.out + (2 * i + 0) := by
    intro hmem
    obtain ⟨j, hj, heq⟩ := mem_evenOutputs.mp hmem
    exact (h.before a.out (by simp) a.ySub (by simp)).ne (by omega) i heq
  exact List.not_mem_append (List.not_mem_append hinputs hsubRoots) heven

theorem Placed.even_not_mem (hi : i < half) : a.out + (2 * i + 0) ∉ cells a.ys (2 * half) ++ cells a.roots (2 * half) ++
    cells a.rootsSub half ++ cells a.tmp half := by
  have hlt : 2 * i + 0 < 2 * half := by omega
  exact List.not_mem_append (List.not_mem_append (h.not_mem_inputs ⟨2 * i + 0, hlt, Or.inl rfl⟩)
    (h.out_not_mem_cells (by simp) hlt half)) (h.out_not_mem_cells (by simp) hlt half)

theorem Placed.odd_not_mem (hi : i < half) :
    a.out + (2 * i + 1) ∉ ((List.range half).map fun i => a.out + (2 * i + 0)) ++ cells a.tmp half := by
  apply List.not_mem_append _ (h.out_not_mem_cells (by simp) (by omega) half)
  intro hmem
  obtain ⟨j, -, heq⟩ := mem_evenOutputs.mp hmem
  have hindex : 2 * j + 0 = 2 * i + 1 := add_inj.mp heq
  omega

end Keep

theorem fftRecurse_spec (mod k : ℕ) {A : Arena Buffer} {a : FftArgs} (h : Placed A (2 ^ k) a) (m : Cell Buffer → ℤ) :
    ∃ m', fftRecurse A mod (2 ^ k) a m = some m' ∧ Transforms mod (2 ^ k) a m m' := by
  induction k generalizing A a m with
  | zero =>
    have hwrites : a.Writes 1 (a.out + 0) := ⟨0, by simp, Or.inl rfl⟩
    have hset := Arena.assign_eq (m := m) id ((h.fits a.ys (by simp)).inBounds (Nat.one_pos))
      ((h.fits a.out (by simp)).inBounds Nat.one_pos) (fun hc => h.keep _ hc hwrites)
    refine ⟨Function.update m (a.out + 0) (m (a.ys + 0)), ?_, ?_, ?_⟩
    · rw [fftRecurse, if_pos (pow_zero 2)]
      exact hset
    · intro j hj
      obtain rfl : j = 0 := by simpa using hj
      rw [Function.update_self, pow_zero, PrioPlus.fftRecurse, if_pos le_rfl]
    · intro c hc
      apply Function.update_of_ne
      rintro rfl
      exact hc hwrites
  | succ k ih =>
    have hdouble : 2 ^ (k + 1) = 2 * 2 ^ k := pow_succ' 2 k
    have hpos : 0 < 2 ^ k := Nat.two_pow_pos k
    rw [hdouble] at h
    obtain ⟨m1, hsums, h1⟩ := halfSums_spec h m mod fun i hi =>
      ⟨h.not_mem_inputs (writes_ySub (by omega)), h.not_mem_inputs (writes_rootsSub (by omega))⟩
    obtain ⟨m2, hfirst, h2⟩ := ih (h.sub h.not_sub_writes_first) m1
    obtain ⟨m3, heven, h3⟩ := interleave_spec h m2 (Nat.zero_le 1) fun i hi => h.even_not_mem hi
    obtain ⟨m4, hdiffs, h4⟩ := halfDiffs_spec h m3 mod fun i hi => h.ySub_not_mem hi
    obtain ⟨m5, hsecond, h5⟩ := ih (h.sub h.not_sub_writes_second) m4
    obtain ⟨m6, hodd, h6⟩ := interleave_spec h m5 le_rfl fun i hi => h.odd_not_mem hi
    obtain ⟨hevenOut, hevenRoots, hevenFrame⟩ := even_step h h1 h2 h3
    obtain ⟨hoddOut, hoddKept, hoddFrame⟩ := odd_step h h4 h5 h6
    have hinput : ∀ p ∈ [a.roots, a.ys], ∀ j < 2 * 2 ^ k, m3 (p + j) = m (p + j) := fun p hp j hj =>
      hevenFrame _ (h.not_writes_input hp hj)
    refine ⟨m6, ?_, ?_, ?_⟩
    · rw [fftRecurse, if_neg (by omega), if_neg (by omega), hdouble, Nat.mul_div_cancel_left _ Nat.two_pos]
      simp only [hsums, hfirst, heven, hdiffs, hsecond, hodd, Option.bind_eq_bind, Option.bind_some]
    · intro j hj
      rw [fftRecurse_succ]
      split_ifs with hpar
      · have hj2 : 2 * (j / 2) + 0 = j := by omega
        have hout := hoddKept (j / 2) (by omega)
        rw [hevenOut (j / 2) (by omega), hj2] at hout
        exact hout
      · have hj2 : 2 * (j / 2) + 1 = j := by omega
        have hout := hoddOut (j / 2) (by omega)
        rw [hj2] at hout
        apply hout.trans
        apply fftRecurse_congr hevenRoots _ (by omega)
        intro i hi
        rw [hinput a.ys (by simp) i (by omega), hinput a.ys (by simp) (i + 2 ^ k) (by omega),
          hinput a.roots (by simp) i (by omega)]
    · intro c hc
      rw [hdouble] at hc
      rw [hoddFrame c hc, hevenFrame c hc]

/-! ### `fft_interpolate` -/

section Interpolate

variable {n : ℕ} {roots ys : List ℤ}

theorem placed_args (hroots : n ≤ roots.length) (hys : n ≤ ys.length) : Placed (arena n roots ys) n args where
  fits := by
    simp only [List.forall_mem_cons, List.not_mem_nil, false_imp_iff, implies_true, and_true, Arena.Fits, arena, args,
      Nat.zero_add]
    exact ⟨le_rfl, hroots, hys, le_rfl, le_rfl, le_rfl⟩
  before := by
    have harrays : ∀ p ∈ [args.out, args.roots, args.ys], ∀ q ∈ [args.tmp, args.ySub, args.rootsSub],
      p.array ≠ q.array := by decide
    exact fun p hp q hq => before_of_array (harrays p hp q hq)
  inputs := by decide
  scratch := by decide
  keep := by
    intro c hc
    have hconst : c.array = .roots ∨ c.array = .ys := by
      rcases List.mem_append.mp hc with hc | hc
      · obtain ⟨j, -, rfl⟩ := mem_cells.mp hc
        exact Or.inl rfl
      · obtain ⟨j, -, rfl⟩ := mem_cells.mp hc
        exact Or.inr rfl
    rintro ⟨i, -, rfl | rfl | rfl | rfl⟩ <;> simp [args] at hconst

theorem init_roots (i : ℕ) : init roots ys (args.roots + i) = roots.getD i 0 := by
  show roots.getD (0 + i) 0 = roots.getD i 0
  rw [Nat.zero_add]

theorem init_ys (i : ℕ) : init roots ys (args.ys + i) = ys.getD i 0 := by
  show ys.getD (0 + i) 0 = ys.getD i 0
  rw [Nat.zero_add]

theorem scaleOut_spec (mod : ℕ) {A : Arena Buffer} {out : Cell Buffer} (hfits : A.Fits out n)
    (hkeep : ∀ i < n, out + i ∉ A.keep) (m : Cell Buffer → ℤ) :
    ∃ m', scaleOut A mod n out m = some m' ∧ ∀ i < n, m' (out + i) = m (out + i) * fmpzInvmod n mod % mod := by
  have hloop : ∃ m', scaleOut A mod n out m = some m' ∧ Assigns m
      ((List.range n).flatMap fun i => [(out + i, m (out + i) * fmpzInvmod n mod % mod)]) m' := by
    apply loop_assigns
    · intro i j hij hj w hw v hv
      rw [List.mem_singleton.mp hw, List.mem_singleton.mp hv, Ne, add_inj]
      omega
    · intro i hi m' hm'
      have hread : m' (out + i) = m (out + i) := by
        apply hm'
        intro j hj w hw
        rw [List.mem_singleton.mp hw, Ne, add_inj]
        omega
      have hmul := Arena.assign_eq (m := m') (· * fmpzInvmod n mod) (hfits.inBounds hi) (hfits.inBounds hi) (hkeep i hi)
      rw [hread] at hmul
      refine ⟨_, ?_, assigns_update m' _ _⟩
      simp only [hmul, fmpzMod_update (hfits.inBounds hi) (hkeep i hi), Option.bind_eq_bind, Option.bind_some]
  obtain ⟨m', hscale, hassigns⟩ := hloop
  exact ⟨m', hscale, fun i hi => hassigns.hit_round hi List.mem_cons_self⟩

/-- No access of `fft_interpolate` fails, and the list that it returns is the one without scratch arrays. -/
theorem fftInterpolate_eq (mod : ℕ) {k : ℕ} (hroots : 2 ^ k ≤ roots.length) (hys : 2 ^ k ≤ ys.length) (invert : Bool) :
    fftInterpolate mod (2 ^ k) roots ys invert = some (PrioPlus.fftInterpolate mod (2 ^ k) roots ys invert) := by
  have hplaced := placed_args hroots hys
  obtain ⟨m, hrecurse, htransforms⟩ := fftRecurse_spec mod k hplaced (init roots ys)
  have hout : ∀ j < 2 ^ k, m (args.out + j) =
      PrioPlus.fftRecurse mod (2 ^ k) (roots.getD · 0) (ys.getD · 0) j := by
    intro j hj
    apply (htransforms.out j hj).trans
    exact fftRecurse_congr (fun i _ => init_roots i) (fun i _ => init_ys i) hj
  rw [fftInterpolate, hrecurse]
  cases invert with
  | false =>
    apply congrArg some
    apply List.map_congr_left
    intro j hj
    exact hout j (List.mem_range.mp hj)
  | true =>
    obtain ⟨m', hscale, hscaled⟩ := scaleOut_spec mod (hplaced.fits args.out (by simp))
      (fun i hi hc => hplaced.keep _ hc ⟨i, hi, Or.inl rfl⟩) m
    simp only [Option.bind_eq_bind, Option.bind_some, if_true, hscale]
    apply congrArg some
    apply List.map_congr_left
    intro j hj
    rw [hscaled j (List.mem_range.mp hj), hout j (List.mem_range.mp hj)]

end Interpolate

/-- Over the powers of a primitive root `fft_interpolate` computes the transform, and over those of its inverse, with
`invert`, the coefficients of the only polynomial with the given values at the powers. -/
theorem fftInterpolate_transform {p k : ℕ} [Fact p.Prime] {ω : ZMod p} (hω : IsPrimitiveRoot ω (2 ^ k))
    {roots invroots ys : List ℤ} (hlen : 2 ^ k ≤ roots.length) (hinvlen : 2 ^ k ≤ invroots.length)
    (hys : 2 ^ k ≤ ys.length) (hroots : ∀ i < 2 ^ k, (roots.getD i 0 : ZMod p) = ω ^ i)
    (hinvroots : ∀ i < 2 ^ k, (invroots.getD i 0 : ZMod p) = ω⁻¹ ^ i) :
    (∃ out, fftInterpolate p (2 ^ k) roots ys false = some out ∧ out.length = 2 ^ k ∧
        ∀ j < 2 ^ k, (out.getD j 0 : ZMod p) = ∑ i ∈ range (2 ^ k), (ys.getD i 0 : ZMod p) * ω ^ (i * j)) ∧
      ∃ out, fftInterpolate p (2 ^ k) invroots ys true = some out ∧ out.length = 2 ^ k ∧
        ∀ f : (ZMod p)[X], (f.degree < (2 ^ k : ℕ) ∧ ∀ j < 2 ^ k, f.eval (ω ^ j) = ys.getD j 0) ↔
          f = ∑ i ∈ range (2 ^ k), C (out.getD i 0 : ZMod p) * X ^ i := by
  refine ⟨⟨_, fftInterpolate_eq p hlen hys false, length_fftInterpolate .., ?_⟩,
    _, fftInterpolate_eq p hinvlen hys true, length_fftInterpolate .., ?_⟩
  · intro j hj
    rw [fftInterpolate_eval hω hroots ys hj, eval_polyOf_pow]
    rfl
  · intro f
    have hdegree := degree_polyOf_lt (2 ^ k) fun i =>
      ((PrioPlus.fftInterpolate p (2 ^ k) invroots ys true).getD i 0 : ZMod p)
    have hvalues : ∀ j < 2 ^ k, _ := fun j hj => fftInterpolate_invert hω hinvroots ys hj
    constructor
    · rintro ⟨hf, heval⟩
      apply Polynomial.eq_of_degrees_lt_of_eval_index_eq (s := range (2 ^ k)) (v := fun j => ω ^ j)
      · intro i hi j hj heq
        exact hω.pow_inj (by simpa using hi) (by simpa using hj) heq
      · rwa [card_range]
      · rw [card_range]
        exact hdegree
      · intro j hj
        rw [heval j (mem_range.mp hj)]
        exact (hvalues j (mem_range.mp hj)).symm
    · rintro rfl
      exact ⟨hdegree, hvalues⟩

theorem fftInterpolate_transform_five :
    (∃ out, fftInterpolate 5 (2 ^ 2) [1, 2, 4, 3] [4, 0, 3, 1] false = some out ∧ out.length = 2 ^ 2 ∧
        ∀ j < 2 ^ 2, (out.getD j 0 : ZMod 5) =
          ∑ i ∈ range (2 ^ 2), (([4, 0, 3, 1] : List ℤ).getD i 0 : ZMod 5) * 2 ^ (i * j)) ∧
      ∃ out, fftInterpolate 5 (2 ^ 2) [1, 3, 4, 2] [4, 0, 3, 1] true = some out ∧ out.length = 2 ^ 2 ∧
        ∀ f : (ZMod 5)[X], (f.degree < (2 ^ 2 : ℕ) ∧
          ∀ j < 2 ^ 2, f.eval (2 ^ j) = (([4, 0, 3, 1] : List ℤ).getD j 0 : ZMod 5)) ↔
          f = ∑ i ∈ range (2 ^ 2), C (out.getD i 0 : ZMod 5) * X ^ i := by
  have hω : IsPrimitiveRoot (2 : ZMod 5) (2 ^ 2) := by
    refine IsPrimitiveRoot.mk_of_lt 2 (by norm_num) (by decide) ?_
    intro l hpos hlt
    interval_cases l <;> decide
  have hroots : ∀ i < 2 ^ 2, (([1, 2, 4, 3] : List ℤ).getD i 0 : ZMod 5) = 2 ^ i := by decide
  have hinvroots : ∀ i < 2 ^ 2, (([1, 3, 4, 2] : List ℤ).getD i 0 : ZMod 5) = 3 ^ i := by decide
  have hmul : (2 : ZMod 5) * 3 = 1 := by decide
  have : Fact (Nat.Prime 5) := ⟨by norm_num⟩
  rw [← inv_eq_of_mul_eq_one_right hmul] at hinvroots
  exact fftInterpolate_transform hω (by decide) (by decide) (by decide) hroots hinvroots

end PrioPlus.Scratch

import Xv6.Exec
import Xv6.Usys

namespace Xv6

open Memory

-- The loop of `fetchstr` with so many bytes left up to the end of the process. The number of
-- bytes before the first 0.
def scanNul (memory : Memory) (s : Word) : Nat → Option Nat
  | 0 => none
  | left + 1 => if memory s = 0 then some 0 else (scanNul memory (s + 1) left).map (· + 1)

namespace Proc

-- The pointer and the result, which the callers compare with 0 as an int.
def fetchstr (proc : Proc) (address : Word) : Option (Word × Word) :=
  if proc.sz ≤ address then none
  else (scanNul proc.memory address (proc.sz.toNat - address.toNat)).map (address, BitVec.ofNat 32 ·)

-- The size is a signed int in the first test and an unsigned one in the sum, which wraps around.
def argptr (proc : Proc) (n : Nat) (size : Word) : Option Word :=
  match proc.argint n with
  | none => none
  | some i => if size.toInt < 0 ∨ proc.sz ≤ i ∨ proc.sz < i + size then none else some i

def argstr (proc : Proc) (n : Nat) : Option (Word × Word) :=
  match proc.argint n with
  | none => none
  | some address => proc.fetchstr address

-- The whole string with the 0 at its end lies inside [0, sz), and it is as long as the result says.
structure HoldsString (proc : Proc) (arg : Word × Word) : Prop where
  inside : arg.1.toNat + arg.2.toNat + 1 ≤ proc.sz.toNat
  nul : proc.memory (arg.1 + arg.2) = 0
  text : ∀ k < arg.2.toNat, proc.memory (arg.1 + BitVec.ofNat 32 k) ≠ 0

end Proc

theorem scanNul_eq_some (memory : Memory) (left : Nat) (s : Word) (length : Nat)
    (h : scanNul memory s left = some length) :
    length < left ∧ memory (s + BitVec.ofNat 32 length) = 0 ∧ ∀ k < length, memory (s + BitVec.ofNat 32 k) ≠ 0 := by
  induction left generalizing s length with
  | zero => cases h
  | succ left ih =>
    unfold scanNul at h
    split at h
    · cases h
      simpa
    · rename_i hs
      obtain ⟨rest, hrest, rfl⟩ := Option.map_eq_some_iff.mp h
      obtain ⟨hlt, hnul, htext⟩ := ih _ _ hrest
      have hnext : ∀ k : Nat, s + BitVec.ofNat 32 (k + 1) = s + 1 + BitVec.ofNat 32 k := by
        intro k
        bv_omega
      refine ⟨by omega, by rw [hnext]; exact hnul, ?_⟩
      intro k hk
      cases k with
      | zero => simpa using hs
      | succ k =>
        rw [hnext]
        exact htext k (by omega)

namespace Proc

variable (proc : Proc)

section Inside

variable (hsz : proc.sz.toNat < KERNBASE)

include hsz

-- Below KERNBASE the sum in the second test does not wrap around.
theorem fetchint_eq_some (address value : Word) (h : fetchint proc address = some value) :
    Inside proc.sz address ∧ value = proc.memory.readWord address := by
  unfold KERNBASE at hsz
  unfold fetchint at h
  split at h
  · cases h
  · cases h
    refine ⟨?_, rfl⟩
    unfold Inside
    bv_omega

theorem fetchstr_eq_some (address : Word) (arg : Word × Word) (h : proc.fetchstr address = some arg) :
    arg.1 = address ∧ proc.HoldsString arg := by
  unfold KERNBASE at hsz
  unfold fetchstr at h
  split at h
  · cases h
  · rename_i hlow
    obtain ⟨length, hlength, rfl⟩ := Option.map_eq_some_iff.mp h
    obtain ⟨hlt, hnul, htext⟩ := scanNul_eq_some _ _ _ _ hlength
    have hto : (BitVec.ofNat 32 length).toNat = length := by
      rw [BitVec.toNat_ofNat]
      omega
    refine ⟨rfl, ?_, hnul, ?_⟩
    · simp only [hto]
      omega
    · simpa only [hto] using htext

theorem argint_eq_some (n : Nat) (value : Word) (h : proc.argint n = some value) :
    Inside proc.sz (proc.tf.esp + 4 + BitVec.ofNat 32 (4 * n)) ∧
      value = proc.memory.readWord (proc.tf.esp + 4 + BitVec.ofNat 32 (4 * n)) :=
  proc.fetchint_eq_some hsz _ _ h

-- A size that is not negative is below 2^31, and so is the pointer.
theorem argptr_eq_some (n : Nat) (size p : Word) (h : proc.argptr n size = some p) :
    proc.argint n = some p ∧ 0 ≤ size.toInt ∧ (p.toNat : Int) + size.toInt ≤ proc.sz.toNat := by
  unfold KERNBASE at hsz
  unfold argptr at h
  split at h
  · cases h
  · rename_i i hi
    split at h
    · cases h
    · rename_i htests
      cases h
      simp only [not_or, not_lt] at htests
      obtain ⟨hsize, hlow, hhigh⟩ := htests
      have hsmall : 2 * size.toNat < 2 ^ 32 := by
        rw [BitVec.toInt_eq_toNat_cond] at hsize
        split at hsize <;> omega
      refine ⟨hi, hsize, ?_⟩
      rw [BitVec.toInt_eq_toNat_of_lt hsmall]
      bv_omega

theorem argstr_eq_some (n : Nat) (arg : Word × Word) (h : proc.argstr n = some arg) :
    proc.argint n = some arg.1 ∧ proc.HoldsString arg := by
  unfold argstr at h
  split at h
  · cases h
  · rename_i address haddress
    obtain ⟨rfl, hholds⟩ := proc.fetchstr_eq_some hsz address arg h
    exact ⟨haddress, hholds⟩

-- The fetchers reach no byte outside the process, whatever the stack pointer, the argument and the size are.
theorem fetch_inside :
    (∀ address value, fetchint proc address = some value → Inside proc.sz address) ∧
    (∀ n value, proc.argint n = some value → Inside proc.sz (proc.tf.esp + 4 + BitVec.ofNat 32 (4 * n))) ∧
    (∀ n size p, proc.argptr n size = some p →
      proc.argint n = some p ∧ 0 ≤ size.toInt ∧ (p.toNat : Int) + size.toInt ≤ proc.sz.toNat) ∧
    (∀ address arg, proc.fetchstr address = some arg → arg.1 = address ∧ proc.HoldsString arg) ∧
    (∀ n arg, proc.argstr n = some arg → proc.HoldsString arg) := by
  refine ⟨?_, ?_, ?_, ?_, ?_⟩
  · intro address value h
    exact (proc.fetchint_eq_some hsz address value h).1
  · intro n value h
    exact (proc.argint_eq_some hsz n value h).1
  · exact proc.argptr_eq_some hsz
  · exact proc.fetchstr_eq_some hsz
  · intro n arg h
    exact (proc.argstr_eq_some hsz n arg h).2

end Inside

theorem fetch_inside_block :
    ({ zero with sz := 64 } : Proc).argptr 0 16 = some 0 ∧
      (0 : Int) ≤ (16 : Word).toInt ∧ ((0 : Word).toNat : Int) + (16 : Word).toInt ≤ (64 : Word).toNat := by
  have hptr : ({ zero with sz := 64 } : Proc).argptr 0 16 = some 0 := by decide
  have hsz : ({ zero with sz := 64 } : Proc).sz.toNat < KERNBASE := by decide
  exact ⟨hptr, ((fetch_inside _ hsz).2.2.1 0 16 0 hptr).2⟩

end Proc

end Xv6

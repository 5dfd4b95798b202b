import Xv6.Memory

namespace Xv6

open BitVec

-- `1 << index` as the machine computes it: a shift uses the low five bits of its count.
def bit (index : Nat) : Word := 1#32 <<< (index % 32)

namespace Mask

section

variable (mask : Word) (index : Nat)

-- `(mask & (1 << index)) == (1 << index)`
def has : Bool := mask &&& bit index == bit index

-- `mask & ~(1 << index)`
def clear : Word := mask &&& ~~~bit index

-- `mask | (1 << index)`
def set : Word := mask ||| bit index

end

theorem getLsbD_bit (index i : Nat) : (bit index).getLsbD i = decide (i = index % 32) := by
  simp only [bit, getLsbD_shiftLeft, getLsbD_one]
  rw [Bool.eq_iff_iff]
  simp only [Bool.and_eq_true, decide_eq_true_eq, Bool.not_eq_true', decide_eq_false_iff_not]
  omega

theorem has_eq_getLsbD (mask : Word) (index : Nat) : has mask index = mask.getLsbD (index % 32) := by
  rw [Bool.eq_iff_iff]
  simp only [has, beq_iff_eq]
  constructor
  · intro h
    have hi := congrArg (fun word : Word => word.getLsbD (index % 32)) h
    simpa [getLsbD_bit] using hi
  · intro h
    apply eq_of_getLsbD_eq
    intro i hi
    simp only [getLsbD_and, getLsbD_bit]
    by_cases he : i = index % 32
    · simp [he, h]
    · simp [he]

theorem has_congr (mask : Word) {first second : Nat} (h : first % 32 = second % 32) :
    has mask first = has mask second := by
  rw [has_eq_getLsbD, has_eq_getLsbD, h]

@[simp] theorem has_zero (index : Nat) : has 0#32 index = false := by simp [has_eq_getLsbD]

theorem has_clear (mask : Word) (index other : Nat) :
    has (clear mask index) other = (has mask other && !decide (other % 32 = index % 32)) := by
  have hlt := Nat.mod_lt other (show 0 < 32 by decide)
  simp only [has_eq_getLsbD, clear, getLsbD_and, getLsbD_not, getLsbD_bit, hlt, decide_true, Bool.true_and]

theorem has_set (mask : Word) (index other : Nat) :
    has (set mask index) other = (has mask other || decide (other % 32 = index % 32)) := by
  simp [has_eq_getLsbD, set, getLsbD_bit]

@[simp] theorem has_clear_self (mask : Word) (index : Nat) : has (clear mask index) index = false := by
  simp [has_clear]

@[simp] theorem has_set_self (mask : Word) (index : Nat) : has (set mask index) index = true := by
  simp [has_set]

section

variable (mask : Word) (index other : Nat) (hi : index < 32) (ho : other < 32) (hne : other ≠ index)

include hi ho hne

theorem has_clear_of_ne : has (clear mask index) other = has mask other := by
  rw [has_clear, Nat.mod_eq_of_lt hi, Nat.mod_eq_of_lt ho]
  simp [hne]

theorem has_set_of_ne : has (set mask index) other = has mask other := by
  rw [has_set, Nat.mod_eq_of_lt hi, Nat.mod_eq_of_lt ho]
  simp [hne]

end

theorem set_eq_self_iff (mask : Word) (index : Nat) : set mask index = mask ↔ has mask index = true := by
  constructor
  · intro h
    rw [← h, has_set_self]
  · intro h
    rw [has_eq_getLsbD] at h
    refine eq_of_getLsbD_eq fun i _ => ?_
    rw [set, getLsbD_or, getLsbD_bit]
    by_cases hi : i = index % 32
    · simp [hi, h]
    · simp [hi]

theorem has_of_has_clear {mask : Word} {index other : Nat} (h : has (clear mask index) other = true) :
    has mask other = true := by
  rw [has_clear] at h
  exact (Bool.and_eq_true_iff.mp h).1

end Mask

end Xv6

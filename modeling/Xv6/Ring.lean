import Mathlib.Data.BitVec
import Mathlib.Data.Nat.ModEq
import Mathlib.Logic.Function.Basic

namespace Xv6

open Function

-- Two counters run freely modulo 2^width, and a value is kept at its count modulo the capacity.
structure Ring (capacity width : Nat) (Value : Type) where
  data : Fin capacity → Value
  head : BitVec width
  tail : BitVec width

namespace Ring

variable {capacity width : Nat} {Value : Type} [NeZero capacity]

def slot (count : BitVec width) : Fin capacity := Fin.ofNat capacity count.toNat

section

variable (ring : Ring capacity width Value)

def length : Nat := (ring.tail - ring.head).toNat

-- The values from the head to the tail.
def values : List Value :=
  (List.range ring.length).map fun i => ring.data (slot (ring.head + BitVec.ofNat width i))

def push (value : Value) : Ring capacity width Value :=
  { ring with data := update ring.data (slot ring.tail) value, tail := ring.tail + 1 }

def front : Value := ring.data (slot ring.head)

def pop : Ring capacity width Value := { ring with head := ring.head + 1 }

end

variable {ring : Ring capacity width Value} {value : Value}

theorem length_values : ring.values.length = ring.length := by simp [values]

section Counters

variable (hdvd : capacity ∣ 2 ^ width) (hlt : capacity < 2 ^ width)

include hdvd in
theorem slot_add (count : BitVec width) (i : Nat) :
    (slot (count + BitVec.ofNat width i) : Fin capacity).val = (count.toNat + i) % capacity := by
  simp only [slot, Fin.val_ofNat, BitVec.toNat_add, BitVec.toNat_ofNat, Nat.add_mod_mod]
  exact Nat.mod_mod_of_dvd _ hdvd

include hdvd in
-- The slot of the tail is not one of those in use as long as the ring is not full.
theorem slot_ne_tail (hroom : ring.length < capacity) {i : Nat} (hi : i < ring.length) :
    (slot (ring.head + BitVec.ofNat width i) : Fin capacity) ≠ slot ring.tail := by
  intro heq
  have htail : ring.tail = ring.head + BitVec.ofNat width ring.length := by
    rw [length, BitVec.ofNat_toNat, BitVec.setWidth_eq]
    exact (add_sub_cancel ring.head ring.tail).symm
  have hval := congrArg Fin.val heq
  rw [htail, slot_add hdvd, slot_add hdvd] at hval
  have hmod : i ≡ ring.length [MOD capacity] := Nat.ModEq.add_left_cancel' ring.head.toNat hval
  have hsame := Nat.ModEq.eq_of_lt_of_lt hmod (hi.trans hroom) hroom
  omega

include hlt in
theorem length_push (hroom : ring.length < capacity) : (ring.push value).length = ring.length + 1 := by
  have hone : (1 : BitVec width).toNat = 1 := by
    simp only [BitVec.ofNat_eq_ofNat, BitVec.toNat_ofNat]
    exact Nat.mod_eq_of_lt (by omega)
  have hnext : ring.tail + 1 - ring.head = ring.tail - ring.head + 1 := add_sub_right_comm ..
  simp only [length, push] at hroom ⊢
  rw [hnext, BitVec.toNat_add_of_lt (by omega), hone]

include hdvd hlt in
theorem values_push (hroom : ring.length < capacity) : (ring.push value).values = ring.values ++ [value] := by
  have hlast : (slot (ring.head + BitVec.ofNat width ring.length) : Fin capacity) = slot ring.tail := by
    rw [length, BitVec.ofNat_toNat, BitVec.setWidth_eq, add_sub_cancel]
  have hvalues : (ring.push value).values = (List.range (ring.length + 1)).map fun i =>
      update ring.data (slot ring.tail) value (slot (ring.head + BitVec.ofNat width i)) := by
    rw [← length_push hlt hroom]
    rfl
  rw [hvalues, List.range_succ, List.map_append, List.map_singleton, hlast, update_self]
  refine congrArg (· ++ [value]) (List.map_congr_left ?_)
  intro i hi
  exact update_of_ne (slot_ne_tail hdvd hroom (List.mem_range.mp hi)) ..

omit [NeZero capacity] in
theorem length_pop (hsome : ring.length ≠ 0) : ring.length = ring.pop.length + 1 := by
  have hbound := (ring.tail - ring.head).isLt
  have hone : (1 : BitVec width).toNat = 1 := by
    simp only [length] at hsome
    simp only [BitVec.ofNat_eq_ofNat, BitVec.toNat_ofNat]
    exact Nat.mod_eq_of_lt (by omega)
  have hnext : ring.tail - (ring.head + 1) = ring.tail - ring.head - 1 := sub_add_eq_sub_sub ..
  simp only [length, pop] at hsome ⊢
  rw [hnext]
  generalize ring.tail - ring.head = gap at hsome
  have hle : 1 ≤ gap := by
    rw [BitVec.le_def, hone]
    omega
  rw [BitVec.toNat_sub_of_le hle, hone]
  omega

theorem values_pop (hsome : ring.length ≠ 0) : ring.values = ring.front :: ring.pop.values := by
  have hshift : ∀ i, ring.head + BitVec.ofNat width (i + 1) = ring.head + 1 + BitVec.ofNat width i := by
    intro i
    rw [BitVec.ofNat_add, add_comm (BitVec.ofNat width i), add_assoc]
    rfl
  have hfirst : ring.head + BitVec.ofNat width 0 = ring.head := by simp
  rw [values, length_pop hsome, List.range_succ_eq_map, List.map_cons, List.map_map, hfirst]
  refine congrArg (List.cons ring.front) (List.map_congr_left ?_)
  intro i _
  exact congrArg (fun count => ring.data (slot count)) (hshift i)

end Counters

end Ring

end Xv6

import Mathlib.Data.BitVec

namespace Xv6

abbrev Word := BitVec 32

abbrev Byte := BitVec 8

-- Byte-addressed memory. Addresses wrap around at 2^32, as the machine's do.
abbrev Memory := Word → BitVec 8

namespace Memory

-- Words are little endian and need not be aligned.
def readWord (memory : Memory) (address : Word) : Word :=
  memory (address + 3) ++ memory (address + 2) ++ memory (address + 1) ++ memory address

def writeWord (memory : Memory) (address value : Word) : Memory := fun byte =>
  if (byte - address).toNat < 4 then value.extractLsb' (8 * (byte - address).toNat) 8 else memory byte

-- Stores in program order, each at its offset below the top address.
def storeBelow (memory : Memory) (top : Word) : List (Nat × Word) → Memory
  | [] => memory
  | (offset, value) :: rest =>
    (memory.writeWord (top - BitVec.ofNat 32 offset) value).storeBelow top rest

-- The word at the address lies wholly inside [0, size).
def Inside (size address : Word) : Prop := address.toNat + 4 ≤ size.toNat

instance (size address : Word) : Decidable (Inside size address) :=
  inferInstanceAs (Decidable (_ ≤ _))

-- The two memories hold the same bytes in [low, high).
def Agree (low high : Nat) (first second : Memory) : Prop :=
  ∀ byte : Word, low ≤ byte.toNat → byte.toNat < high → first byte = second byte

end Memory

end Xv6

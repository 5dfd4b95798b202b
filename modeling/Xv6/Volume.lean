import Xv6.Fs
import Mathlib.Data.List.GetD

namespace Xv6

-- A file without the blocks in which it is.
structure Node where
  type : BitVec 16
  major : BitVec 16
  minor : BitVec 16
  nlink : BitVec 16
  size : Word
  data : Nat → Byte

namespace Node

def read (node : Node) (off n : Nat) : List Byte := (List.range n).map fun i => node.data (off + i)

-- The contents after these bytes have been written, which may be beyond the size.
def overwrite (node : Node) (off : Nat) (src : List Byte) : Node :=
  { node with data := fun o => if off ≤ o ∧ o < off + src.length then src.getD (o - off) 0 else node.data o }

def write (node : Node) (off : Nat) (src : List Byte) : Node :=
  { node.overwrite off src with
    size := if off + src.length > node.size.toNat then BitVec.ofNat 32 (off + src.length) else node.size }

theorem read_add (node : Node) (off m n : Nat) : node.read off (m + n) = node.read off m ++ node.read (off + m) n := by
  unfold read
  rw [List.range_add, List.map_append, List.map_map]
  congr 1
  refine List.map_congr_left fun i _ => ?_
  simp [Nat.add_assoc]

theorem overwrite_nil (node : Node) (off : Nat) : node.overwrite off [] = node := by
  unfold overwrite
  congr 1
  funext o
  rw [if_neg (by simp only [List.length_nil]; omega)]

theorem overwrite_append (node : Node) (off : Nat) (first second : List Byte) :
    (node.overwrite off first).overwrite (off + first.length) second = node.overwrite off (first ++ second) := by
  unfold overwrite
  congr 1
  funext o
  simp only [List.length_append]
  by_cases hsecond : off + first.length ≤ o ∧ o < off + first.length + second.length
  · rw [if_pos hsecond, if_pos (by omega), List.getD_append_right _ _ _ _ (by omega)]
    congr 1
    omega
  · rw [if_neg hsecond]
    by_cases hfirst : off ≤ o ∧ o < off + first.length
    · rw [if_pos hfirst, if_pos (by omega), List.getD_append _ _ _ _ (by omega)]
    · rw [if_neg hfirst, if_neg (by omega)]

end Node

-- The files by their numbers.
abbrev Volume := Nat → Node

end Xv6

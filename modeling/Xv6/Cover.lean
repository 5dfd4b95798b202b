import Mathlib.Tactic.ByContra
import Mathlib.Tactic.SplitIfs

namespace Xv6

-- How often a unit is in the block that begins at `start` and has this length.
def inBlock (start length unit : Nat) : Nat := if start ≤ unit ∧ unit < start + length then 1 else 0

@[simp] theorem inBlock_zero (start unit : Nat) : inBlock start 0 unit = 0 := by
  unfold inBlock
  rw [if_neg]
  omega

theorem inBlock_add (start one two unit : Nat) :
    inBlock start (one + two) unit = inBlock start one unit + inBlock (start + one) two unit := by
  unfold inBlock
  split_ifs <;> omega

theorem inBlock_start {start length : Nat} (h : 0 < length) : inBlock start length start = 1 := by
  unfold inBlock
  rw [if_pos]
  omega

theorem inBlock_pos_iff {start length unit : Nat} :
    0 < inBlock start length unit ↔ start ≤ unit ∧ unit < start + length := by
  unfold inBlock
  split_ifs with h <;> simp [h]

-- Two blocks that have no unit in common, where the second begins later.
theorem inBlock_apart {one two length other : Nat} (hlt : one < two) (hother : 0 < other)
    (h : inBlock one length two + inBlock two other two ≤ 1) : one + length ≤ two := by
  rw [inBlock_start hother] at h
  by_contra hover
  have hin := inBlock_pos_iff.mpr ⟨Nat.le_of_lt hlt, Nat.not_le.mp hover⟩
  omega

-- How many of the blocks with these starts a unit is in.
def covers (length : Nat → Nat) : List Nat → Nat → Nat
  | [], _ => 0
  | start :: starts, unit => inBlock start (length start) unit + covers length starts unit

section

variable {length : Nat → Nat} {starts rest : List Nat} {start unit : Nat}

@[simp] theorem covers_nil : covers length [] unit = 0 := rfl

@[simp] theorem covers_cons :
    covers length (start :: starts) unit = inBlock start (length start) unit + covers length starts unit := rfl

@[simp] theorem covers_append :
    covers length (starts ++ rest) unit = covers length starts unit + covers length rest unit := by
  induction starts with
  | nil => simp
  | cons start starts ih => simp [ih, Nat.add_assoc]

theorem covers_congr {other : Nat → Nat} (h : ∀ start ∈ starts, other start = length start) :
    covers other starts unit = covers length starts unit := by
  induction starts with
  | nil => rfl
  | cons start starts ih =>
    rw [covers_cons, covers_cons, h start List.mem_cons_self, ih fun start hstart => h start (.tail _ hstart)]

theorem covers_erase (length : Nat → Nat) (unit : Nat) (h : start ∈ starts) :
    covers length (starts.erase start) unit + inBlock start (length start) unit = covers length starts unit := by
  induction starts with
  | nil => exact absurd h List.not_mem_nil
  | cons first starts ih =>
    by_cases heq : first = start
    · rw [heq, List.erase_cons_head, covers_cons, Nat.add_comm]
    · have hmem := (List.mem_cons.mp h).resolve_left (Ne.symm heq)
      have hrest := ih hmem
      rw [List.erase_cons_tail (by simpa using heq), covers_cons, covers_cons]
      omega

theorem inBlock_le_covers (length : Nat → Nat) (unit : Nat) (h : start ∈ starts) :
    inBlock start (length start) unit ≤ covers length starts unit := by
  have herase := covers_erase length unit h
  omega

-- Where no unit is in two blocks, none begins inside another.
theorem not_start (h : covers length starts unit ≤ 1) (hstart : start ∈ starts) (hlt : start < unit)
    (hin : unit < start + length start) (hpos : unit ∈ starts → 0 < length unit) : unit ∉ starts := by
  intro hunit
  have herase := covers_erase length unit hstart
  have hother := inBlock_le_covers length unit ((List.mem_erase_of_ne (Nat.ne_of_gt hlt)).mpr hunit)
  have hone := inBlock_pos_iff.mpr ⟨Nat.le_of_lt hlt, hin⟩
  rw [inBlock_start (hpos hunit)] at hother
  omega

theorem covers_pairwise (h : ∀ unit, covers length starts unit ≤ 1) :
    starts.Pairwise fun one two => ∀ unit, inBlock one (length one) unit + inBlock two (length two) unit ≤ 1 := by
  induction starts with
  | nil => exact .nil
  | cons start starts ih =>
    simp only [covers_cons] at h
    refine .cons (fun other hother unit => ?_) (ih fun unit => Nat.le_trans (Nat.le_add_left _ _) (h unit))
    have hin := inBlock_le_covers length unit hother
    have hle := h unit
    omega

end

end Xv6

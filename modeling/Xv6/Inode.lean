import Xv6.Memory
import Mathlib.Data.List.FinRange
import Mathlib.Logic.Function.Basic

namespace Xv6

open Function

abbrev NINODE : Nat := 50
abbrev NDIRECT : Nat := 12

instance : NeZero NINODE := ⟨by decide⟩

instance (priority := high) : NeZero (NDIRECT + 1) := ⟨by decide⟩

def T_DIR : BitVec 16 := 1
def T_FILE : BitVec 16 := 2
def T_DEV : BitVec 16 := 3

structure Dinode where
  type : BitVec 16
  major : BitVec 16
  minor : BitVec 16
  nlink : BitVec 16
  size : Word
  addrs : Fin (NDIRECT + 1) → Word

namespace Dinode

-- What memset leaves in ialloc, with the type.
def fresh (type : BitVec 16) : Dinode := ⟨type, 0, 0, 0, 0, fun _ => 0⟩

end Dinode

-- An entry of the inode cache, without its sleep-lock. There is one device, so dev is left out.
structure Inode extends Dinode where
  inum : Nat
  ref : Int
  valid : Bool

abbrev Icache := Fin NINODE → Inode

namespace Icache

section

variable (icache : Icache)

def find (here : Inode → Bool) : Option (Fin NINODE) :=
  (List.finRange NINODE).find? fun ip => here (icache ip)

def set (ip : Fin NINODE) (inode : Inode) : Icache := update icache ip inode

-- There is no result where iget panics.
def iget (inum : Nat) : Option (Icache × Fin NINODE) :=
  match icache.find fun inode => inode.ref > 0 && inode.inum = inum with
  | some ip => some (icache.set ip { icache ip with ref := (icache ip).ref + 1 }, ip)
  | none =>
    match icache.find fun inode => inode.ref = 0 with
    | some ip => some (icache.set ip { icache ip with inum, ref := 1, valid := false }, ip)
    | none => none

def idup (ip : Fin NINODE) : Icache :=
  icache.set ip { icache ip with ref := (icache ip).ref + 1 }

-- The last critical section of iput.
def drop (ip : Fin NINODE) : Icache :=
  icache.set ip { icache ip with ref := (icache ip).ref - 1 }

end

variable {here : Inode → Bool} {ip : Fin NINODE} {icache : Icache}

theorem find_some (h : icache.find here = some ip) : here (icache ip) := by
  have hfound := List.find?_some (p := fun ip => here (icache ip)) h
  exact hfound

theorem find_none (h : icache.find here = none) (ip : Fin NINODE) : here (icache ip) = false := by
  have hnot := List.find?_eq_none.mp h ip (List.mem_finRange ip)
  simpa using hnot

-- iget finds the entry of the inode, or takes one that nobody refers to.
theorem iget_some {after : Icache} {inum : Nat} (h : icache.iget inum = some (after, ip)) :
    (0 < (icache ip).ref ∧ (icache ip).inum = inum ∧
        after = icache.set ip { icache ip with ref := (icache ip).ref + 1 }) ∨
      ((∀ other, 0 < (icache other).ref → (icache other).inum ≠ inum) ∧ (icache ip).ref = 0 ∧
        after = icache.set ip { icache ip with inum, ref := 1, valid := false }) := by
  unfold iget at h
  cases hfind : icache.find fun inode => inode.ref > 0 && inode.inum = inum with
  | some found =>
    simp only [hfind, Option.some.injEq, Prod.mk.injEq] at h
    obtain ⟨rfl, rfl⟩ := h
    have hfound := find_some hfind
    simp only [gt_iff_lt, Bool.and_eq_true, decide_eq_true_eq] at hfound
    exact .inl ⟨hfound.1, hfound.2, rfl⟩
  | none =>
    cases hempty : icache.find fun inode => inode.ref = 0 with
    | none => simp [hfind, hempty] at h
    | some found =>
      simp only [hfind, hempty, Option.some.injEq, Prod.mk.injEq] at h
      obtain ⟨rfl, rfl⟩ := h
      refine .inr ⟨?_, by simpa using find_some hempty, rfl⟩
      intro other href hinum
      simpa [href, hinum] using find_none hfind other

section Iget

variable {icache after : Icache} {inum : Nat} {ip : Fin NINODE} (h : icache.iget inum = some (after, ip))

include h in
theorem iget_ref (other : Fin NINODE) : (after other).ref = (icache other).ref + if other = ip then 1 else 0 := by
  rcases iget_some h with ⟨-, -, rfl⟩ | ⟨-, href, rfl⟩
  · by_cases hother : other = ip
    · subst hother
      simp [set]
    · simp [set, hother]
  · by_cases hother : other = ip
    · subst hother
      simp [set, href]
    · simp [set, hother]

include h in
theorem iget_inum : (after ip).inum = inum := by
  rcases iget_some h with ⟨-, hinum, rfl⟩ | ⟨-, -, rfl⟩
  · simpa [set] using hinum
  · simp [set]

include h in
-- What somebody refers to stays in the cache as it is.
theorem iget_same (other : Fin NINODE) (href : 0 < (icache other).ref) :
    (after other).inum = (icache other).inum ∧ (after other).valid = (icache other).valid ∧
      (after other).toDinode = (icache other).toDinode := by
  rcases iget_some h with ⟨-, -, rfl⟩ | ⟨-, hzero, rfl⟩
  · by_cases hother : other = ip
    · subst hother
      simp [set]
    · simp [set, update_of_ne hother]
  · have hother : other ≠ ip := by
      rintro rfl
      omega
    simp [set, update_of_ne hother]

include h in
theorem iget_new (other : Fin NINODE) (href : (icache other).ref ≤ 0) (hafter : 0 < (after other).ref) :
    (after other).valid = false := by
  rcases iget_some h with ⟨hpos, -, rfl⟩ | ⟨-, -, rfl⟩
  · have hother : other ≠ ip := by
      rintro rfl
      omega
    rw [set, update_of_ne hother] at hafter
    omega
  · by_cases hother : other = ip
    · subst hother
      simp [set]
    · rw [set, update_of_ne hother] at hafter
      omega

end Iget

end Icache

end Xv6

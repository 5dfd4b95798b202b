import Mathlib.Logic.Function.Basic
import Mathlib.Data.List.Basic

namespace Xv6

open Function List

section Writes

variable {Address Value : Type} [DecidableEq Address]
variable {disk : Address → Value} {writes more : List (Address × Value)} {holds : (Address → Value) → Prop}

-- The contents after these writes, issued in this order.
def applyWrites (disk : Address → Value) : List (Address × Value) → Address → Value
  | [] => disk
  | (address, value) :: writes => applyWrites (update disk address value) writes

theorem applyWrites_append (disk : Address → Value) (writes more : List (Address × Value)) :
    applyWrites disk (writes ++ more) = applyWrites (applyWrites disk writes) more := by
  induction writes generalizing disk with
  | nil => rfl
  | cons write writes ih => exact ih _

variable {address : Address}

theorem applyWrites_of_ne (h : ∀ write ∈ writes, write.1 ≠ address) :
    applyWrites disk writes address = disk address := by
  induction writes generalizing disk with
  | nil => rfl
  | cons write writes ih =>
    have hfirst : address ≠ write.1 := (h write mem_cons_self).symm
    rw [applyWrites, ih fun other hother => h other (mem_cons_of_mem _ hother), update_of_ne hfirst]

-- Writes that agree on an address leave their value there, whichever comes last.
theorem applyWrites_of_mem {value : Value} (hmem : (address, value) ∈ writes)
    (hagree : ∀ write ∈ writes, write.1 = address → write.2 = value) : applyWrites disk writes address = value := by
  induction writes generalizing disk with
  | nil => simp at hmem
  | cons write writes ih =>
    have hrest : ∀ other ∈ writes, other.1 = address → other.2 = value :=
      fun other hother => hagree other (mem_cons_of_mem _ hother)
    by_cases hlater : (address, value) ∈ writes
    · exact ih hlater hrest
    · have hfirst : write = (address, value) := ((mem_cons.mp hmem).resolve_right hlater).symm
      have hnone : ∀ other ∈ writes, other.1 ≠ address := by
        intro other hother haddress
        have hvalue := hrest other hother haddress
        exact hlater (by rwa [← haddress, ← hvalue])
      rw [applyWrites, applyWrites_of_ne hnone, hfirst, update_self]

-- This holds of the disk wherever a crash cuts the writes off.
def Throughout (holds : (Address → Value) → Prop) (disk : Address → Value) (writes : List (Address × Value)) :
    Prop :=
  ∀ count, holds (applyWrites disk (writes.take count))

namespace Throughout

theorem last (h : Throughout holds disk writes) : holds (applyWrites disk writes) := by
  have hall := h writes.length
  rwa [take_length] at hall

theorem mono {weaker : (Address → Value) → Prop} (h : Throughout holds disk writes)
    (hweaker : ∀ disk, holds disk → weaker disk) : Throughout weaker disk writes :=
  fun count => hweaker _ (h count)

theorem append (h : Throughout holds disk writes) (hmore : Throughout holds (applyWrites disk writes) more) :
    Throughout holds disk (writes ++ more) := by
  intro count
  by_cases hcount : count ≤ writes.length
  · rw [take_append_of_le_length hcount]
    exact h count
  · rw [take_append, take_of_length_le (by omega), applyWrites_append]
    exact hmore _

theorem of_step (hdisk : holds disk)
    (hstep : ∀ write ∈ writes, ∀ disk, holds disk → holds (update disk write.1 write.2)) :
    Throughout holds disk writes := by
  induction writes generalizing disk with
  | nil =>
    intro count
    rwa [take_nil]
  | cons write writes ih =>
    intro count
    cases count with
    | zero => exact hdisk
    | succ count =>
      exact ih (hstep write mem_cons_self disk hdisk) (fun other hother => hstep other (mem_cons_of_mem _ hother)) count

theorem singleton {write : Address × Value} (hdisk : holds disk) (h : holds (update disk write.1 write.2)) :
    Throughout holds disk [write] := by
  intro count
  cases count with
  | zero => exact hdisk
  | succ count => rwa [take_succ_cons, take_nil]

end Throughout

end Writes

-- A disk behind a write-through cache: `base` is the disk at the beginning, `writes` are the
-- writes since then. What is not cached is read from the disk.
structure Store (Address Value : Type) where
  base : Address → Value
  writes : List (Address × Value)
  cache : Address → Option Value

namespace Store

variable {Address Value : Type} [DecidableEq Address]

def boot (disk : Address → Value) : Store Address Value := ⟨disk, [], fun _ => none⟩

section

variable (store : Store Address Value)

def disk : Address → Value := applyWrites store.base store.writes

def crash (count : Nat) : Address → Value :=
  applyWrites store.base (store.writes.take count)

def read (address : Address) : Value :=
  (store.cache address).getD (store.disk address)

def write (address : Address) (value : Value) : Store Address Value where
  base := store.base
  writes := store.writes ++ [(address, value)]
  cache := update store.cache address (some value)

-- One write for each pair of a destination and a source.
def copy (pairs : List (Address × Address)) : Store Address Value :=
  pairs.foldl (fun store pair => store.write pair.1 (store.read pair.2)) store

end

variable (store : Store Address Value)

theorem disk_write (address : Address) (value : Value) :
    (store.write address value).disk = update store.disk address value :=
  applyWrites_append _ _ _

theorem read_write (address : Address) (value : Value) :
    (store.write address value).read = update store.read address value := by
  funext other
  by_cases hother : other = address
  · subst hother
    simp [read, write]
  · rw [update_of_ne hother]
    simp only [read, disk_write]
    simp [write, update_of_ne hother]

-- As long as no destination is a source, the loop copies what was there before it.
theorem copy_spec (pairs : List (Address × Address)) (h : ∀ pair ∈ pairs, ∀ other ∈ pairs, pair.1 ≠ other.2) :
    (store.copy pairs).base = store.base ∧
      (store.copy pairs).writes = store.writes ++ pairs.map (fun pair => (pair.1, store.read pair.2)) ∧
      (store.copy pairs).read = applyWrites store.read (pairs.map fun pair => (pair.1, store.read pair.2)) := by
  induction pairs generalizing store with
  | nil => exact ⟨rfl, by simp [copy], rfl⟩
  | cons pair pairs ih =>
    have hrest := fun other hother third hthird =>
      h other (mem_cons_of_mem _ hother) third (mem_cons_of_mem _ hthird)
    obtain ⟨hbase, hwrites, hread⟩ := ih (store.write pair.1 (store.read pair.2)) hrest
    have hsame : pairs.map (fun other => (other.1, (store.write pair.1 (store.read pair.2)).read other.2)) =
        pairs.map fun other => (other.1, store.read other.2) := by
      refine map_congr_left fun other hother => ?_
      have hne := (h pair mem_cons_self other (mem_cons_of_mem _ hother)).symm
      rw [read_write, update_of_ne hne]
    rw [hsame] at hwrites hread
    refine ⟨hbase, ?_, ?_⟩
    · refine hwrites.trans ?_
      simp [write]
    · refine hread.trans ?_
      rw [read_write, map_cons, applyWrites]

end Store

end Xv6

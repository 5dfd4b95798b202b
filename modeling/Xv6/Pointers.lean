import Mathlib.Algebra.BigOperators.Pi
import Mathlib.Data.Fintype.BigOperators
import Mathlib.Algebra.BigOperators.Ring.Finset
import Mathlib.Tactic.Abel

namespace Xv6

open Function Finset

variable {Key Target : Type} [Fintype Key] [DecidableEq Key] [DecidableEq Target]

-- One reference to this target, if there is one.
def reference : Option Target → Target → Int
  | none => 0
  | some target => Pi.single target 1

-- How many keys refer to each target.
def references (pointer : Key → Option Target) : Target → Int := ∑ key, reference (pointer key)

@[simp] theorem reference_none : reference (none : Option Target) = 0 := rfl

@[simp] theorem reference_some (target : Target) : reference (some target) = Pi.single target 1 := rfl

theorem reference_apply (pointer : Option Target) (target : Target) :
    reference pointer target = if pointer = some target then 1 else 0 := by
  cases pointer with
  | none => simp
  | some other => simp [Pi.single_apply, eq_comm]

variable (pointer : Key → Option Target)

omit [DecidableEq Key] in
theorem references_eq_card (target : Target) :
    references pointer target = ((Finset.univ.filter fun key => pointer key = some target).card : Int) := by
  simp only [references, Finset.sum_apply, reference_apply, sum_boole]

omit [DecidableEq Key] in
theorem references_pos_iff (target : Target) : 0 < references pointer target ↔ ∃ key, pointer key = some target := by
  rw [references_eq_card, Int.natCast_pos, card_pos]
  simp [Finset.Nonempty]

omit [DecidableEq Key] in
theorem references_nonneg (target : Target) : 0 ≤ references pointer target := by
  rw [references_eq_card]
  exact Int.natCast_nonneg _

omit [DecidableEq Key] in
theorem references_none : references (fun _ : Key => (none : Option Target)) = 0 := by
  simp [references]

-- The pointers may be parts of the items of a table.
theorem references_update {Item : Type} (table : Key → Item) (read : Item → Option Target) (key : Key) (item : Item) :
    references (fun other => read (update table key item other)) =
      references (fun other => read (table other)) - reference (read (table key)) + reference (read item) := by
  have hold := add_sum_erase Finset.univ (fun other => reference (read (table other))) (mem_univ key)
  have hnew := add_sum_erase Finset.univ (fun other => reference (read (update table key item other))) (mem_univ key)
  have hsame : ∑ other ∈ Finset.univ.erase key, reference (read (update table key item other)) =
      ∑ other ∈ Finset.univ.erase key, reference (read (table other)) := by
    refine sum_congr rfl fun other hother => ?_
    rw [update_of_ne (ne_of_mem_erase hother)]
  rw [hsame, update_self] at hnew
  unfold references
  rw [← hold, ← hnew]
  abel

end Xv6

import Mathlib.Data.Finset.Card
import Mathlib.Data.Finset.Range

namespace Xv6

open Function Finset

-- Slots own units of a resource that are numbered from `low` up to `high`; 0 stands for nothing.
-- What is below is in use as well. `used` marks exactly the units in use, and no unit has two owners.
structure Owned {Slot : Type} (owner : Slot → Nat) (used : Nat → Bool) (low high : Nat) : Prop where
  low_pos : 0 < low
  range (slot : Slot) (h : owner slot ≠ 0) : low ≤ owner slot ∧ owner slot < high
  injective (slot other : Slot) (h : owner slot ≠ 0) (heq : owner slot = owner other) : slot = other
  exact (unit : Nat) (h : unit < high) : used unit ↔ unit < low ∨ ∃ slot, owner slot = unit

namespace Owned

variable {Slot : Type} {owner : Slot → Nat} {used after : Nat → Bool} {low high : Nat}
variable (h : Owned owner used low high) {slot : Slot} {unit : Nat}

include h

theorem low_le_of_free (hunit : unit < high) (hfree : used unit = false) : low ≤ unit := by
  by_contra hlow
  have hused := (h.exact unit hunit).mpr (.inl (by omega))
  simp [hfree] at hused

theorem ne_of_free (hunit : unit < high) (hfree : used unit = false) (slot : Slot) : owner slot ≠ unit := by
  intro hslot
  have hused := (h.exact unit hunit).mpr (.inr ⟨slot, hslot⟩)
  simp [hfree] at hused

theorem congr (hafter : ∀ unit < high, after unit = used unit) : Owned owner after low high where
  low_pos := h.low_pos
  range := h.range
  injective := h.injective
  exact unit hunit := by
    rw [hafter unit hunit]
    exact h.exact unit hunit

variable [DecidableEq Slot]

theorem take (hunit : unit < high) (hfree : used unit = false) (hslot : owner slot = 0)
    (hafter : ∀ other < high, after other = (used other || other == unit)) :
    Owned (update owner slot unit) after low high where
  low_pos := h.low_pos
  range other hother := by
    by_cases hsame : other = slot
    · subst hsame
      rw [update_self]
      exact ⟨h.low_le_of_free hunit hfree, hunit⟩
    · rw [update_of_ne hsame] at hother ⊢
      exact h.range other hother
  injective one other hone heq := by
    by_cases hsame : one = slot
    · by_cases hother : other = slot
      · rw [hsame, hother]
      · rw [hsame, update_self, update_of_ne hother] at heq
        exact absurd heq.symm (h.ne_of_free hunit hfree other)
    · rw [update_of_ne hsame] at hone heq
      by_cases hother : other = slot
      · rw [hother, update_self] at heq
        exact absurd heq (h.ne_of_free hunit hfree one)
      · rw [update_of_ne hother] at heq
        exact h.injective one other hone heq
  exact other hother := by
    rw [hafter other hother, Bool.or_eq_true, beq_iff_eq, h.exact other hother]
    constructor
    · rintro ((hlow | ⟨one, hone⟩) | rfl)
      · exact .inl hlow
      · by_cases hsame : one = slot
        · subst hsame
          have hpos := h.low_pos
          exact .inl (by omega)
        · exact .inr ⟨one, by rw [update_of_ne hsame, hone]⟩
      · exact .inr ⟨slot, update_self _ _ _⟩
    · rintro (hlow | ⟨one, hone⟩)
      · exact .inl (.inl hlow)
      · by_cases hsame : one = slot
        · rw [hsame, update_self] at hone
          exact .inr hone.symm
        · rw [update_of_ne hsame] at hone
          exact .inl (.inr ⟨one, hone⟩)

end Owned

section Enough

variable {Slot : Type} {owner : Slot → Nat} {used after : Nat → Bool} {high : Nat} {slots : Finset Slot}

-- These slots own nothing.
def lacking (owner : Slot → Nat) (slots : Finset Slot) : Finset Slot := slots.filter fun slot => owner slot = 0

def spare (used : Nat → Bool) (high : Nat) : Finset Nat := (Finset.range high).filter fun unit => used unit = false

-- Each of these slots that owns nothing can get a unit.
def Enough (owner : Slot → Nat) (used : Nat → Bool) (high : Nat) (slots : Finset Slot) : Prop :=
  (lacking owner slots).card ≤ (spare used high).card

theorem Enough.congr (hafter : ∀ unit < high, after unit = used unit) :
    Enough owner after high slots ↔ Enough owner used high slots := by
  have hspare : spare after high = spare used high := by
    refine filter_congr fun unit hunit => ?_
    rw [hafter unit (mem_range.mp hunit)]
  unfold Enough
  rw [hspare]

theorem Enough.exists_spare {slot : Slot} (h : Enough owner used high slots) (hslot : slot ∈ slots)
    (hzero : owner slot = 0) : ∃ unit < high, used unit = false := by
  have hlacking : slot ∈ lacking owner slots := mem_filter.mpr ⟨hslot, hzero⟩
  have hpos := Nat.lt_of_lt_of_le (card_pos.mpr ⟨slot, hlacking⟩) h
  obtain ⟨unit, hunit⟩ := card_pos.mp hpos
  obtain ⟨hlt, hfree⟩ := mem_filter.mp hunit
  exact ⟨unit, mem_range.mp hlt, hfree⟩

-- There is one slot less that owns nothing, and one unit less to spare.
theorem enough_take [DecidableEq Slot] {slot : Slot} {unit : Nat} (hunit : unit < high) (hfree : used unit = false)
    (hpos : unit ≠ 0) (hslot : slot ∈ slots) (hzero : owner slot = 0)
    (hafter : ∀ other < high, after other = (used other || other == unit)) :
    Enough (update owner slot unit) after high slots ↔ Enough owner used high slots := by
  have hlacking : lacking (update owner slot unit) slots = (lacking owner slots).erase slot := by
    ext other
    simp only [lacking, mem_filter, mem_erase]
    by_cases hsame : other = slot
    · subst hsame
      simp [hpos]
    · simp [hsame]
  have hspare : spare after high = (spare used high).erase unit := by
    ext other
    simp only [spare, mem_filter, mem_erase, mem_range]
    by_cases hlt : other < high
    · rw [hafter other hlt]
      by_cases hsame : other = unit
      · simp [hsame]
      · simp [hsame, hlt]
    · simp [hlt]
  have hslot : slot ∈ lacking owner slots := mem_filter.mpr ⟨hslot, hzero⟩
  have hunit : unit ∈ spare used high := mem_filter.mpr ⟨mem_range.mpr hunit, hfree⟩
  have hslots := card_erase_add_one hslot
  have hunits := card_erase_add_one hunit
  unfold Enough
  rw [hlacking, hspare]
  omega

end Enough

end Xv6

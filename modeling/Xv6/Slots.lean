import Mathlib.Data.Finmap
import Mathlib.Data.Fintype.Card

namespace Xv6

open Function

variable {Key Value : Type} [DecidableEq Key]

-- A table whose slots are empty or hold a key and its value, as a finite map.
structure Represents (slots : Nat → Option (Key × Value)) (map : Finmap fun _ : Key => Value) : Prop where
  mem {i : Nat} {key : Key} {value : Value} (h : slots i = some (key, value)) : map.lookup key = some value
  slot {key : Key} {value : Value} (h : map.lookup key = some value) : ∃ i, slots i = some (key, value)
  unique {i j : Nat} {key : Key} {value other : Value} (hi : slots i = some (key, value))
    (hj : slots j = some (key, other)) : i = j

namespace Represents

variable {slots : Nat → Option (Key × Value)} {map : Finmap fun _ : Key => Value} {i : Nat} {key : Key} {value : Value}

theorem empty (h : ∀ i, slots i = none) : Represents slots ∅ where
  mem hi := by simp [h] at hi
  slot hkey := by simp at hkey
  unique hi := by simp [h] at hi

variable (h : Represents slots map)

include h

theorem put (hslot : slots i = none) (hkey : map.lookup key = none) :
    Represents (update slots i (some (key, value))) (map.insert key value) := by
  have hother : ∀ {j other kept}, j ≠ i → slots j = some (other, kept) → other ≠ key := by
    rintro j other kept - hj rfl
    rw [h.mem hj] at hkey
    cases hkey
  constructor
  · intro j other kept hj
    by_cases hji : j = i
    · subst hji
      rw [update_self] at hj
      cases hj
      exact map.lookup_insert
    · rw [update_of_ne hji] at hj
      rw [Finmap.lookup_insert_of_ne map (hother hji hj)]
      exact h.mem hj
  · intro other kept hlookup
    by_cases hsame : other = key
    · subst hsame
      rw [Finmap.lookup_insert] at hlookup
      cases hlookup
      exact ⟨i, update_self _ _ _⟩
    · rw [Finmap.lookup_insert_of_ne map hsame] at hlookup
      obtain ⟨j, hj⟩ := h.slot hlookup
      have hji : j ≠ i := by
        rintro rfl
        rw [hslot] at hj
        cases hj
      exact ⟨j, by rwa [update_of_ne hji]⟩
  · intro j k other kept rest hj hk
    by_cases hji : j = i
    · by_cases hki : k = i
      · rw [hji, hki]
      · subst hji
        rw [update_self] at hj
        rw [update_of_ne hki] at hk
        cases hj
        exact absurd rfl (hother hki hk)
    · rw [update_of_ne hji] at hj
      by_cases hki : k = i
      · subst hki
        rw [update_self] at hk
        cases hk
        exact absurd rfl (hother hji hj)
      · rw [update_of_ne hki] at hk
        exact h.unique hj hk

theorem clear (hslot : slots i = some (key, value)) : Represents (update slots i none) (map.erase key) := by
  have hkept : ∀ {j other kept}, update slots i none j = some (other, kept) →
      slots j = some (other, kept) ∧ other ≠ key := by
    intro j other kept hj
    have hji : j ≠ i := by
      rintro rfl
      rw [update_self] at hj
      cases hj
    rw [update_of_ne hji] at hj
    refine ⟨hj, ?_⟩
    rintro rfl
    exact hji (h.unique hj hslot)
  constructor
  · intro j other kept hj
    obtain ⟨hold, hne⟩ := hkept hj
    rw [Finmap.lookup_erase_ne hne]
    exact h.mem hold
  · intro other kept hlookup
    by_cases hsame : other = key
    · subst hsame
      simp at hlookup
    · rw [Finmap.lookup_erase_ne hsame] at hlookup
      obtain ⟨j, hj⟩ := h.slot hlookup
      have hji : j ≠ i := by
        rintro rfl
        rw [hslot] at hj
        cases hj
        exact hsame rfl
      exact ⟨j, by rwa [update_of_ne hji]⟩
  · intro j k other kept rest hj hk
    exact h.unique (hkept hj).1 (hkept hk).1

-- Slots that are all taken hold different keys.
theorem le_card {n : Nat} (hfull : ∀ i < n, slots i ≠ none) : n ≤ map.keys.card := by
  have hkey : ∀ i < n, ∃ key value, slots i = some (key, value) := by
    intro i hi
    obtain ⟨⟨key, value⟩, hslot⟩ := Option.ne_none_iff_exists'.mp (hfull i hi)
    exact ⟨key, value, hslot⟩
  choose key value hslot using hkey
  have hinj : Set.InjOn (fun i : Fin n => key i i.isLt) (Finset.univ : Finset (Fin n)) := by
    intro i _ j _ hsame
    have hother := hslot j j.isLt
    rw [← show key i i.isLt = key j j.isLt from hsame] at hother
    exact Fin.ext (h.unique (hslot i i.isLt) hother)
  have hmem : ∀ i : Fin n, key i i.isLt ∈ map.keys := fun i =>
    Finmap.mem_keys.mpr (Finmap.mem_of_lookup_eq_some (h.mem (hslot i i.isLt)))
  calc n = (Finset.univ : Finset (Fin n)).card := (Finset.card_fin n).symm
    _ ≤ map.keys.card := Finset.card_le_card_of_injOn _ (fun i _ => hmem i) hinj

end Represents

end Xv6

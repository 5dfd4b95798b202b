import Mathlib.Logic.Function.Basic

namespace Xv6

open Function

-- A cache in front of a store. A slot may be for a key, and may have a copy of its value. If it is
-- marked then the store may be behind the copy. `current` is what was last written for a key.
structure Cache (Slot Key Value : Type) where
  key : Slot → Option Key
  copy : Slot → Option Value
  marked : Slot → Bool
  store : Key → Value
  current : Key → Value

namespace Cache

variable {Slot Key Value : Type} {cache next : Cache Slot Key Value} {slot : Slot} {key : Key}

-- The store may be behind in this slot.
def Ahead (cache : Cache Slot Key Value) (key : Key) (slot : Slot) : Prop :=
  cache.key slot = some key ∧ (cache.copy slot).isSome ∧ cache.marked slot

structure Coherent (cache : Cache Slot Key Value) : Prop where
  unique (slot other : Slot) (key : Key) (hslot : cache.key slot = some key) (hother : cache.key other = some key) :
    slot = other
  copy (slot : Slot) (key : Key) (value : Value) (hslot : cache.key slot = some key)
    (hcopy : cache.copy slot = some value) : value = cache.current key
  behind (key : Key) : cache.store key = cache.current key ∨ ∃ slot, cache.Ahead key slot

-- The other slots are as before.
structure Beside (slot : Slot) (cache next : Cache Slot Key Value) : Prop where
  key (other : Slot) (h : other ≠ slot) : next.key other = cache.key other
  copy (other : Slot) (h : other ≠ slot) : next.copy other = cache.copy other
  marked (other : Slot) (h : other ≠ slot) : next.marked other = cache.marked other

theorem Beside.ahead (h : Beside slot cache next) {other : Slot} (hne : other ≠ slot) (hother : cache.Ahead key other) :
    next.Ahead key other := by
  obtain ⟨hkey, hsome, hmarked⟩ := hother
  exact ⟨by rwa [h.key other hne], by rwa [h.copy other hne], by rwa [h.marked other hne]⟩

namespace Coherent

section Change

variable (h : cache.Coherent) (hbeside : Beside slot cache next)

include h hbeside

-- What has to be shown of the slot: no other one is for its key, it has the current value if it has a copy, and where
-- the store falls behind it is marked.
theorem change (hslot : ∀ other ≠ slot, ∀ key, next.key slot = some key → cache.key other ≠ some key)
    (hcopy : ∀ key value, next.key slot = some key → next.copy slot = some value → value = next.current key)
    (hcurrent : ∀ other ≠ slot, ∀ key, cache.key other = some key → next.current key = cache.current key)
    (hbehind : ∀ key, (next.store key = next.current key ∨ next.Ahead key slot) ∨
      (cache.store key = cache.current key → next.store key = next.current key) ∧ ¬cache.Ahead key slot) :
    next.Coherent where
  unique one two key hone htwo := by
    by_cases hones : one = slot
    · by_cases htwos : two = slot
      · rw [hones, htwos]
      · rw [hbeside.key two htwos] at htwo
        exact absurd htwo (hslot two htwos key (hones ▸ hone))
    · rw [hbeside.key one hones] at hone
      by_cases htwos : two = slot
      · exact absurd hone (hslot one hones key (htwos ▸ htwo))
      · rw [hbeside.key two htwos] at htwo
        exact h.unique one two key hone htwo
  copy other key value hother hvalue := by
    by_cases hne : other = slot
    · subst hne
      exact hcopy key value hother hvalue
    · rw [hbeside.key other hne] at hother
      rw [hbeside.copy other hne] at hvalue
      rw [hcurrent other hne key hother]
      exact h.copy other key value hother hvalue
  behind key := by
    rcases hbehind key with hnow | ⟨hstore, hnot⟩
    · exact hnow.imp id fun hahead => ⟨slot, hahead⟩
    · refine (h.behind key).imp hstore ?_
      rintro ⟨other, hahead⟩
      have hne : other ≠ slot := by
        rintro rfl
        exact hnot hahead
      exact ⟨other, hbeside.ahead hne hahead⟩

-- The slot is given to a key that no other slot is for, and has no copy yet.
theorem claim (hclean : cache.marked slot = false)
    (hslot : ∀ other ≠ slot, ∀ key, next.key slot = some key → cache.key other ≠ some key)
    (hcopy : next.copy slot = none) (hstore : next.store = cache.store) (hcurrent : next.current = cache.current) :
    next.Coherent := by
  refine h.change hbeside hslot (by simp [hcopy]) (by simp [hcurrent]) fun key => .inr ⟨?_, by simp [Ahead, hclean]⟩
  rw [hstore, hcurrent]
  exact id

omit hbeside in
theorem alone (hkey : cache.key slot = some key) (hnext : next.key slot = some key) (other : Slot) (hne : other ≠ slot)
    (same : Key) (hslot : next.key slot = some same) : cache.key other ≠ some same :=
  fun hother => hne (h.unique other slot same hother (hkey.trans (hnext.symm.trans hslot)))

-- A slot without a copy gets what the store has.
theorem load (hkey : cache.key slot = some key) (hnone : cache.copy slot = none) (hnext : next.key slot = some key)
    (hcopy : next.copy slot = some (cache.store key))
    (hstore : next.store = cache.store) (hcurrent : next.current = cache.current) : next.Coherent := by
  refine h.change hbeside (h.alone hkey hnext) ?_ (by simp [hcurrent]) fun other => .inr ⟨?_, by simp [Ahead, hnone]⟩
  · intro other value hother hvalue
    rw [hnext, Option.some.injEq] at hother
    rw [hcopy, Option.some.injEq] at hvalue
    subst hother hvalue
    rw [hcurrent]
    rcases h.behind key with heq | ⟨marked, hmarked, hsome, -⟩
    · exact heq
    · rw [h.unique _ _ key hmarked hkey, hnone] at hsome
      cases hsome
  · rw [hstore, hcurrent]
    exact id

variable {value : Value}

-- The copy is written, and the slot marked.
theorem write [DecidableEq Key] (hkey : cache.key slot = some key) (hnext : next.key slot = some key)
    (hcopy : next.copy slot = some value) (hmarked : next.marked slot) (hstore : next.store = cache.store)
    (hcurrent : next.current = update cache.current key value) : next.Coherent := by
  refine h.change hbeside (h.alone hkey hnext) ?_ ?_ fun otherKey => ?_
  · intro otherKey otherValue hother hvalue
    rw [hnext, Option.some.injEq] at hother
    rw [hcopy, Option.some.injEq] at hvalue
    subst hother hvalue
    rw [hcurrent, update_self]
  · intro other hne otherKey hother
    have hkeys : otherKey ≠ key := by
      rintro rfl
      exact hne (h.unique other slot otherKey hother hkey)
    rw [hcurrent, update_of_ne hkeys]
  · by_cases hkeys : otherKey = key
    · subst hkeys
      exact .inl (.inr ⟨hnext, by simp [hcopy], hmarked⟩)
    · rw [hstore, hcurrent, update_of_ne hkeys]
      exact .inr ⟨id, fun hahead => hkeys (Option.some.inj (hahead.1.symm.trans hkey))⟩

-- The store gets the copy, and the mark may go.
theorem flush [DecidableEq Key] (hkey : cache.key slot = some key) (hnext : next.key slot = some key)
    (hvalue : cache.copy slot = some value) (hcopy : next.copy slot = some value)
    (hstore : next.store = update cache.store key value) (hcurrent : next.current = cache.current) : next.Coherent := by
  refine h.change hbeside (h.alone hkey hnext) ?_ (by simp [hcurrent]) fun otherKey => ?_
  · intro otherKey otherValue hother hother'
    rw [hnext] at hother
    rw [hcopy] at hother'
    rw [hcurrent]
    exact h.copy slot otherKey otherValue (hkey.trans hother) (hvalue.trans hother')
  · rw [hstore, hcurrent]
    by_cases hkeys : otherKey = key
    · subst hkeys
      rw [update_self]
      exact .inl (.inl (h.copy slot otherKey value hkey hvalue))
    · rw [update_of_ne hkeys]
      exact .inr ⟨id, fun hahead => hkeys (Option.some.inj (hahead.1.symm.trans hkey))⟩

end Change

-- More slots are marked.
theorem mark (h : cache.Coherent) (hkey : next.key = cache.key) (hcopy : next.copy = cache.copy)
    (hstore : next.store = cache.store) (hcurrent : next.current = cache.current)
    (hmarked : ∀ slot, cache.marked slot → next.marked slot) : next.Coherent where
  unique one two key hone htwo := h.unique one two key (hkey ▸ hone) (hkey ▸ htwo)
  copy slot key value hslot hvalue := by
    rw [hcurrent]
    exact h.copy slot key value (hkey ▸ hslot) (hcopy ▸ hvalue)
  behind key := by
    rw [hstore, hcurrent]
    refine (h.behind key).imp id ?_
    rintro ⟨slot, hslot, hsome, hmark⟩
    exact ⟨slot, hkey ▸ hslot, hcopy ▸ hsome, hmarked slot hmark⟩

end Coherent

end Cache

end Xv6

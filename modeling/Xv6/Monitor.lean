import Xv6.Runs
import Mathlib.Algebra.BigOperators.Group.Finset.Basic
import Mathlib.Data.Finset.Card
import Mathlib.Logic.Function.Basic

namespace Xv6

open Function Finset Option

-- What a party leaves behind at the end of a critical section: the shared data, the place
-- where it goes on, the channel it sleeps on, if it does, and the channels it has woken up.
structure Turn (Data Place Chan : Type) where
  data : Data
  place : Place
  sleeps : Option Chan
  wakes : List Chan

inductive Outcome (Data Place Chan Panic : Type) where
  | turn (turn : Turn Data Place Chan)
  | panic (panic : Panic)

-- Parties take turns on shared data, one critical section at a time, and events change the
-- data between the turns. There is no outcome where the party has no such move.
structure Monitor (Party Data Place Chan Choice Event Panic : Type) where
  turn : Party → Choice → Place → Data → Option (Outcome Data Place Chan Panic)
  event : Event → Data → Option (Outcome Data Unit Chan Panic)

namespace Monitor

structure State (Party Data Place Chan Panic : Type) where
  data : Data
  place : Party → Place
  asleep : Party → Option Chan
  panic : Option Panic

inductive Label (Party Choice Event : Type) where
  | turn (party : Party) (choice : Choice)
  | event (event : Event)
  | rouse (party : Party)

variable {Party Data Place Chan Choice Event Panic : Type} [DecidableEq Party] [DecidableEq Chan]

section

variable (state : State Party Data Place Chan Panic)

def State.wake (chans : List Chan) : Party → Option Chan := fun party =>
  (state.asleep party).filter fun chan => chan ∉ chans

def State.after (party : Party) :
    Outcome Data Place Chan Panic → State Party Data Place Chan Panic
  | .turn turn =>
    { data := turn.data
      place := update state.place party turn.place
      asleep := update (state.wake turn.wakes) party turn.sleeps
      panic := none }
  | .panic panic => { state with panic := some panic }

def State.during :
    Outcome Data Unit Chan Panic → State Party Data Place Chan Panic
  | .turn turn => { state with data := turn.data, asleep := state.wake turn.wakes }
  | .panic panic => { state with panic := some panic }

end

variable (monitor : Monitor Party Data Place Chan Choice Event Panic)

-- A party that sleeps has no turn until it is woken up. `rouse` wakes it up for no reason
-- of the monitor's own: what it waits for need not have come.
def step (state : State Party Data Place Chan Panic) :
    Label Party Choice Event → Option (State Party Data Place Chan Panic)
  | .turn party choice =>
    if state.panic.isNone && (state.asleep party).isNone then
      (monitor.turn party choice (state.place party) state.data).map (state.after party)
    else none
  | .event event => if state.panic.isNone then (monitor.event event state.data).map state.during else none
  | .rouse party =>
    if state.panic.isNone then some { state with asleep := update state.asleep party none } else none

def Begins (start : Data → (Party → Place) → Prop) (state : State Party Data Place Chan Panic) : Prop :=
  start state.data state.place ∧ (∀ party, state.asleep party = none) ∧ state.panic = none

def Reaches (start : Data → (Party → Place) → Prop) : State Party Data Place Chan Panic → Prop :=
  Reach monitor.step (fun _ _ => True) (Begins start)

-- Every turn is fair in this sense when it is taken.
def Fairly (fair : Party → Choice → Place → Data → Prop) (state : State Party Data Place Chan Panic) :
    Label Party Choice Event → Prop
  | .turn party choice => fair party choice (state.place party) state.data
  | _ => True

-- What a step does to the data and the places, and how it ends in a panic. Who is asleep
-- does not come into it, so that a party may be roused at any moment.
inductive Moves (state next : State Party Data Place Chan Panic) : Label Party Choice Event → Prop
  | turn (party : Party) (choice : Choice) (turn : Turn Data Place Chan)
      (hturn : monitor.turn party choice (state.place party) state.data = some (.turn turn))
      (hdata : next.data = turn.data) (hplace : next.place = update state.place party turn.place)
      (hpanic : next.panic = none) : Moves state next (.turn party choice)
  | event (event : Event) (turn : Turn Data Unit Chan)
      (hturn : monitor.event event state.data = some (.turn turn))
      (hdata : next.data = turn.data) (hplace : next.place = state.place) (hpanic : next.panic = none) :
      Moves state next (.event event)
  | rouse (party : Party) (hdata : next.data = state.data) (hplace : next.place = state.place)
      (hpanic : next.panic = none) : Moves state next (.rouse party)
  | panic (label : Label Party Choice Event) (panic : Panic)
      (hcause : (∃ party choice, monitor.turn party choice (state.place party) state.data = some (.panic panic)) ∨
        ∃ event, monitor.event event state.data = some (.panic panic))
      (hdata : next.data = state.data) (hplace : next.place = state.place) (hpanic : next.panic = some panic) :
      Moves state next label

variable {monitor} {state next : State Party Data Place Chan Panic} {label : Label Party Choice Event}

theorem step_moves (h : monitor.step state label = some next) : monitor.Moves state next label := by
  cases label with
  | turn party choice =>
    simp only [step, ite_none_right_eq_some, map_eq_some_iff] at h
    obtain ⟨-, outcome, houtcome, rfl⟩ := h
    cases outcome with
    | turn turn => exact .turn party choice turn houtcome rfl rfl rfl
    | panic panic => exact .panic _ panic (.inl ⟨party, choice, houtcome⟩) rfl rfl rfl
  | event event =>
    simp only [step, ite_none_right_eq_some, map_eq_some_iff] at h
    obtain ⟨hnone, outcome, houtcome, rfl⟩ := h
    cases outcome with
    | turn turn => exact .event event turn houtcome rfl rfl (isNone_iff_eq_none.mp hnone)
    | panic panic => exact .panic _ panic (.inr ⟨event, houtcome⟩) rfl rfl rfl
  | rouse party =>
    simp only [step, ite_none_right_eq_some, some.injEq] at h
    obtain ⟨hnone, rfl⟩ := h
    exact .rouse party rfl rfl (isNone_iff_eq_none.mp hnone)

-- Only its own turn takes a party to another place.
theorem turn_of_place_ne (h : monitor.step state label = some next) (party : Party)
    (hplace : next.place party ≠ state.place party) :
    ∃ choice turn, monitor.turn party choice (state.place party) state.data = some (.turn turn) ∧
      next.data = turn.data ∧ next.place party = turn.place := by
  cases step_moves h with
  | turn other choice turn hturn hdata hother =>
    by_cases hparty : party = other
    · subst hparty
      exact ⟨choice, turn, hturn, hdata, by rw [hother, update_self]⟩
    · rw [hother, update_of_ne hparty] at hplace
      exact absurd rfl hplace
  | event _ _ _ _ hsame | rouse _ _ hsame | panic _ _ _ _ hsame => exact absurd (congrFun hsame party) hplace

variable {start : Data → (Party → Place) → Prop}

-- The rule for what must hold whenever the lock is free.
theorem Reaches.invariant (hreach : monitor.Reaches start state) (holds : Data → (Party → Place) → Prop)
    (hstart : ∀ data place, start data place → holds data place)
    (hturn : ∀ data place party choice turn, holds data place →
      monitor.turn party choice (place party) data = some (.turn turn) →
        holds turn.data (update place party turn.place)) (hevent : ∀ data place event turn, holds data place →
      monitor.event event data = some (.turn turn) → holds turn.data place) : holds state.data state.place := by
  refine Reach.invariant hreach (fun state => holds state.data state.place) ?_ ?_
  · rintro state ⟨hbegin, -, -⟩
    exact hstart _ _ hbegin
  · intro state next label hholds _ hstep
    cases step_moves hstep with
    | turn party choice turn hmove hdata hplace => exact hdata ▸ hplace ▸ hturn _ _ _ _ _ hholds hmove
    | event event turn hmove hdata hplace => exact hdata ▸ hplace ▸ hevent _ _ _ _ hholds hmove
    | rouse party hdata hplace | panic label panic hcause hdata hplace => exact hdata ▸ hplace ▸ hholds

theorem Reaches.panics (hreach : monitor.Reaches start state) {panic : Panic} (hpanic : state.panic = some panic) :
    (∃ party choice, monitor.turn party choice (state.place party) state.data = some (.panic panic)) ∨
      ∃ event, monitor.event event state.data = some (.panic panic) := by
  refine Reach.invariant hreach (fun state => state.panic = some panic →
    (∃ party choice, monitor.turn party choice (state.place party) state.data = some (.panic panic)) ∨
      ∃ event, monitor.event event state.data = some (.panic panic)) ?_ ?_ hpanic
  · rintro state ⟨-, -, hnone⟩ hpanic
    simp [hnone] at hpanic
  · intro state next label _ _ hstep hpanic
    cases step_moves hstep with
    | turn _ _ _ _ _ _ hnone | event _ _ _ _ _ hnone | rouse _ _ _ hnone => simp [hnone] at hpanic
    | panic label panic hcause hdata hplace hsome =>
      rw [hsome, some.injEq] at hpanic
      rwa [hdata, hplace, ← hpanic]

-- The rule for those who are asleep: a turn that ends what they wait for wakes them up.
theorem sleepers {fair : Party → Choice → Place → Data → Prop}
    (hreach : Reach monitor.step (Fairly fair) (Begins start) state) (holds : Data → (Party → Place) → Prop)
    (hholds : ∀ state, Reach monitor.step (Fairly fair) (Begins start) state → holds state.data state.place)
    (waits : Chan → Place → Data → Prop)
    (hturn : ∀ data place party choice turn, holds data place → fair party choice (place party) data →
      monitor.turn party choice (place party) data = some (.turn turn) →
        (∀ chan, turn.sleeps = some chan → waits chan turn.place turn.data) ∧
          ∀ other ≠ party, ∀ chan ∉ turn.wakes, waits chan (place other) data → waits chan (place other) turn.data)
    (hevent : ∀ data place event turn, holds data place → monitor.event event data = some (.turn turn) →
      ∀ other, ∀ chan ∉ turn.wakes, waits chan (place other) data → waits chan (place other) turn.data)
    (party : Party) (chan : Chan) (hasleep : state.asleep party = some chan) :
    waits chan (state.place party) state.data := by
  induction hreach generalizing party chan with
  | start state hbegin => simp [hbegin.2.1] at hasleep
  | step state next label hbefore hgood hstep ih =>
    have hnow := hholds state hbefore
    cases label with
    | turn mover choice =>
      simp only [step, ite_none_right_eq_some, map_eq_some_iff] at hstep
      obtain ⟨-, outcome, houtcome, rfl⟩ := hstep
      cases outcome with
      | panic panic => exact ih party chan hasleep
      | turn turn =>
        obtain ⟨hsleeps, hothers⟩ := hturn _ _ _ _ _ hnow hgood houtcome
        simp only [State.after] at hasleep ⊢
        by_cases hparty : party = mover
        · subst hparty
          rw [update_self] at hasleep ⊢
          exact hsleeps chan hasleep
        · rw [update_of_ne hparty] at hasleep ⊢
          obtain ⟨hslept, hnot⟩ := filter_eq_some_iff.mp hasleep
          exact hothers party hparty chan (by simpa using hnot) (ih party chan hslept)
    | event event =>
      simp only [step, ite_none_right_eq_some, map_eq_some_iff] at hstep
      obtain ⟨-, outcome, houtcome, rfl⟩ := hstep
      cases outcome with
      | panic panic => exact ih party chan hasleep
      | turn turn =>
        obtain ⟨hslept, hnot⟩ := filter_eq_some_iff.mp hasleep
        exact hevent _ _ _ _ hnow houtcome party chan (by simpa using hnot) (ih party chan hslept)
    | rouse roused =>
      simp only [step, ite_none_right_eq_some, some.injEq] at hstep
      obtain ⟨-, rfl⟩ := hstep
      refine ih party chan ?_
      by_cases hparty : party = roused
      · subst hparty
        simp at hasleep
      · simpa [update_of_ne hparty] using hasleep

theorem exists_reaches (data : Data) (place : Party → Place) (hstart : start data place)
    (labels : List (Label Party Choice Event)) {goal : State Party Data Place Chan Panic → Prop}
    (h : ∃ next, run monitor.step (fun _ _ => True) ⟨data, place, fun _ => none, none⟩ labels = some next ∧ goal next) :
    ∃ state, monitor.Reaches start state ∧ goal state :=
  exists_reach ⟨hstart, fun _ => rfl, rfl⟩ labels h

-- A party is at such a place only if it was there before.
theorem of_update (here : Place → Prop) {place : Party → Place} {party other : Party} {there : Place}
    (hparty : here there → here (place party)) (h : here (update place party there other)) : here (place other) := by
  by_cases hother : other = party
  · subst hother
    rw [update_self] at h
    exact hparty h
  · rwa [update_of_ne hother] at h

-- This many parties are at such places, even if there are infinitely many parties.
def Count (place : Party → Place) (here : Place → Prop) (number : Int) : Prop :=
  ∃ parties : Finset Party, (parties.card : Int) = number ∧ ∀ party, party ∈ parties ↔ here (place party)

namespace Count

variable {place : Party → Place} {here : Place → Prop} {number : Int} {party : Party} {there : Place}

omit [DecidableEq Party] in
theorem zero (h : Count place here 0) (party : Party) : ¬ here (place party) := by
  obtain ⟨parties, hcard, hmem⟩ := h
  have hempty : parties = ∅ := card_eq_zero.mp (by exact_mod_cast hcard)
  simp [← hmem, hempty]

omit [DecidableEq Party] in
theorem pos (h : Count place here number) (hhere : here (place party)) : 1 ≤ number := by
  obtain ⟨parties, hcard, hmem⟩ := h
  have hpos : 0 < parties.card := card_pos.mpr ⟨party, (hmem party).mpr hhere⟩
  omega

variable (h : Count place here number)

include h

theorem stay (hsame : here there ↔ here (place party)) : Count (update place party there) here number := by
  obtain ⟨parties, hcard, hmem⟩ := h
  refine ⟨parties, hcard, fun other => ?_⟩
  by_cases hother : other = party
  · subst hother
    rw [update_self, hsame, hmem]
  · rw [update_of_ne hother, hmem]

theorem enter (hout : ¬ here (place party)) (hin : here there) :
    Count (update place party there) here (number + 1) := by
  obtain ⟨parties, hcard, hmem⟩ := h
  refine ⟨insert party parties, ?_, fun other => ?_⟩
  · rw [card_insert_of_notMem (by rwa [hmem])]
    omega
  · by_cases hother : other = party
    · subst hother
      simp [hin]
    · simp [hother, hmem]

theorem leave (hin : here (place party)) (hout : ¬ here there) :
    Count (update place party there) here (number - 1) := by
  obtain ⟨parties, hcard, hmem⟩ := h
  have hparty : party ∈ parties := (hmem party).mpr hin
  refine ⟨parties.erase party, ?_, fun other => ?_⟩
  · rw [card_erase_of_mem hparty]
    have hpos : 0 < parties.card := card_pos.mpr ⟨party, hparty⟩
    omega
  · by_cases hother : other = party
    · subst hother
      simp [hout]
    · simp [hother, hmem]

end Count

-- The parties have this much in all, each of them what its place says, and only finitely many
-- have anything.
def Total (place : Party → Place) (weight : Place → Nat) (number : Int) : Prop :=
  ∃ parties : Finset Party, (∑ party ∈ parties, weight (place party) : Nat) = number ∧
    ∀ party ∉ parties, weight (place party) = 0

namespace Total

variable {place : Party → Place} {weight : Place → Nat} {number : Int} {party : Party} {there : Place}

omit [DecidableEq Party] in
theorem zero (h : ∀ party, weight (place party) = 0) : Total place weight 0 := ⟨∅, by simp, fun party _ => h party⟩

omit [DecidableEq Party] in
theorem nonneg (h : Total place weight number) : 0 ≤ number := by
  obtain ⟨parties, hsum, -⟩ := h
  omega

variable (h : Total place weight number)

include h

-- The part of one party, and of all the others.
theorem split (party : Party) :
    ∃ parties : Finset Party, party ∉ parties ∧
      number = weight (place party) + (∑ other ∈ parties, weight (place other) : Nat) ∧
      ∀ other ∉ parties, other ≠ party → weight (place other) = 0 := by
  obtain ⟨parties, hsum, hnone⟩ := h
  refine ⟨parties.erase party, notMem_erase party parties, ?_, ?_⟩
  · by_cases hmem : party ∈ parties
    · rw [← hsum, ← add_sum_erase parties _ hmem]
      push_cast
      rfl
    · rw [erase_eq_of_notMem hmem, hnone party hmem, hsum]
      simp
  · intro other hother hne
    refine hnone other fun hmem => hother ?_
    exact mem_erase.mpr ⟨hne, hmem⟩

theorem move (party : Party) (there : Place) :
    Total (update place party there) weight (number - weight (place party) + weight there) := by
  obtain ⟨parties, hout, hnumber, hnone⟩ := h.split party
  have hsame : ∑ other ∈ parties, weight (update place party there other) =
      ∑ other ∈ parties, weight (place other) := by
    refine sum_congr rfl fun other hother => ?_
    rw [update_of_ne (ne_of_mem_of_not_mem hother hout)]
  refine ⟨insert party parties, ?_, ?_⟩
  · rw [sum_insert hout, hsame, update_self, hnumber]
    push_cast
    omega
  · intro other hother
    rw [mem_insert, not_or] at hother
    rw [update_of_ne hother.1]
    exact hnone other hother.2 hother.1

theorem le (party : Party) : weight (place party) ≤ number := by
  obtain ⟨parties, -, hnumber, -⟩ := h.split party
  omega

theorem other (hmore : weight (place party) < number) : ∃ other ≠ party, weight (place other) ≠ 0 := by
  obtain ⟨parties, hout, hnumber, -⟩ := h.split party
  have hpos : ∑ other ∈ parties, weight (place other) ≠ 0 := by omega
  obtain ⟨other, hother, hsome⟩ := exists_ne_zero_of_sum_ne_zero hpos
  exact ⟨other, ne_of_mem_of_not_mem hother hout, hsome⟩

end Total

end Monitor

end Xv6

import Xv6.Coop.Theorems
import Xv6.Runs

namespace Xv6

open Option

-- A thread serves entries one at a time. While it is paused, events of the others
-- change the state, and where `enabled` says so an interrupt runs on top of it.
structure System (State Point Exit Event Entry Interrupt : Type) where
  env : Event → State → State
  entry : Entry → Program State Point Exit Unit
  interrupt : Interrupt → Program State Point Exit Unit
  enabled : Point → State → Bool
  ready : Point → State → Bool
  final : Exit → Bool

inductive Label (Event Entry Interrupt : Type) where
  | env (event : Event)
  | enter (entry : Entry)
  | interrupt (interrupt : Interrupt)
  | resume

-- `exit` keeps the last exit with the state in which it was taken.
structure Thread (State Point Exit : Type) where
  state : State
  stack : List (Point × (State → Coop State Point Exit Unit))
  exit : Option (Exit × State)

namespace Thread

variable {State Point Exit : Type}

def idle (state : State) : Thread State Point Exit := ⟨state, [], none⟩

def point (thread : Thread State Point Exit) : Option Point := thread.stack.head?.map Prod.fst

-- An exit drops everything below it on the stack.
def after (rest : List (Point × (State → Coop State Point Exit Unit))) :
    Coop State Point Exit Unit → Thread State Point Exit
  | .done _ state => ⟨state, rest, none⟩
  | .leave exit state => ⟨state, [], some (exit, state)⟩
  | .pause point state proceed => ⟨state, (point, proceed) :: rest, none⟩

end Thread

namespace System

variable {State Point Exit Event Entry Interrupt : Type}
variable (system : System State Point Exit Event Entry Interrupt)

def halted (thread : Thread State Point Exit) : Bool :=
  match thread.exit with
  | none => false
  | some (exit, _) => system.final exit

def step (thread : Thread State Point Exit) :
    Label Event Entry Interrupt → Option (Thread State Point Exit)
  | .env event => some { thread with state := system.env event thread.state }
  | .enter entry =>
    if thread.stack.isEmpty && !system.halted thread then
      some (Thread.after [] (system.entry entry thread.state))
    else none
  | .interrupt interrupt =>
    match thread.stack with
    | [] => none
    | (point, proceed) :: rest =>
      if system.enabled point thread.state then
        some (Thread.after ((point, proceed) :: rest) (system.interrupt interrupt thread.state))
      else none
  | .resume =>
    match thread.stack with
    | [] => none
    | (point, proceed) :: rest =>
      if system.ready point thread.state then some (Thread.after rest (proceed thread.state)) else none

-- The runs whose steps are all good. What is good depends on the point the thread
-- is paused at, if any, on the state and on the step.
abbrev Reach (good : Option Point → State → Label Event Entry Interrupt → Prop) (start : State → Prop) :
    Thread State Point Exit → Prop :=
  Xv6.Reach system.step (fun thread label => good thread.point thread.state label)
    (fun thread => ∃ state, start state ∧ thread = Thread.idle state)

abbrev run (good : Option Point → State → Label Event Entry Interrupt → Prop)
    [∀ point state label, Decidable (good point state label)] :
    Thread State Point Exit → List (Label Event Entry Interrupt) → Option (Thread State Point Exit) :=
  Xv6.run system.step (fun thread label => good thread.point thread.state label)

-- All that has to be shown of the programs for a contract to hold along every good run.
-- `user` is the invariant of the thread between two entries.
structure Obeys (contract : Contract State Point Exit) (user : State → Prop)
    (good : Option Point → State → Label Event Entry Interrupt → Prop) : Prop where
  refl : ∀ point state, contract.rely point state state
  trans : ∀ point first second third, contract.rely point first second →
    contract.rely point second third → contract.rely point first third
  env : ∀ point state event, contract.paused point state → good (some point) state (.env event) →
    contract.rely point state (system.env event state) ∧ contract.paused point (system.env event state)
  envUser : ∀ state event, user state → good none state (.env event) → user (system.env event state)
  entry : ∀ state entry, user state → good none state (.enter entry) →
    (system.entry entry).wp contract (fun _ => user) state
  interrupt : ∀ point state interrupt, contract.paused point state → system.enabled point state = true →
    good (some point) state (.interrupt interrupt) →
    (system.interrupt interrupt).wp contract
      (fun _ next => contract.rely point state next ∧ contract.paused point next) state
  resume : ∀ point state, system.ready point state = true → good (some point) state .resume →
    contract.ready point state
  leaves : ∀ exit state, contract.leaves exit state → system.final exit = false → user state

end System

section Invariant

variable {State Point Exit Event Entry Interrupt : Type}
variable {system : System State Point Exit Event Entry Interrupt} {contract : Contract State Point Exit}
variable {user : State → Prop} {good : Option Point → State → Label Event Entry Interrupt → Prop}

-- The top of the stack may be resumed, and when it returns the rest is safe again.
def Safe (contract : Contract State Point Exit) (user : State → Prop) :
    List (Point × (State → Coop State Point Exit Unit)) → State → Prop
  | [], state => user state
  | (point, proceed) :: rest, state => contract.paused point state ∧
      ∀ next, contract.rely point state next → contract.ready point next →
        (proceed next).Meets contract (fun _ last => Safe contract user rest last)

def Thread.Ok (system : System State Point Exit Event Entry Interrupt)
    (contract : Contract State Point Exit) (user : State → Prop) (thread : Thread State Point Exit) : Prop :=
  (∀ exit state, thread.exit = some (exit, state) → contract.leaves exit state ∧ thread.stack = []) ∧
    (system.halted thread = true ∨ Safe contract user thread.stack thread.state)

variable {thread : Thread State Point Exit} {start : State → Prop}

-- A thread with something on its stack has not halted.
theorem Thread.Ok.safe_of_stack (h : thread.Ok system contract user)
    {entry : Point × (State → Coop State Point Exit Unit)}
    {rest : List (Point × (State → Coop State Point Exit Unit))} (hstack : thread.stack = entry :: rest) :
    Safe contract user thread.stack thread.state := by
  refine h.2.resolve_left ?_
  intro hhalted
  unfold System.halted at hhalted
  split at hhalted
  · cases hhalted
  · rename_i exit state he
    have hnil := (h.1 exit state he).2
    rw [hstack] at hnil
    cases hnil

section Obeys

variable (hobeys : system.Obeys contract user good)

include hobeys

theorem Safe.rely {point : Point} {proceed : State → Coop State Point Exit Unit}
    {rest : List (Point × (State → Coop State Point Exit Unit))} {state next : State}
    (h : Safe contract user ((point, proceed) :: rest) state)
    (hrely : contract.rely point state next) (hpaused : contract.paused point next) :
    Safe contract user ((point, proceed) :: rest) next :=
  ⟨hpaused, fun last hlast hready =>
    h.2 last (hobeys.trans point state next last hrely hlast) hready⟩

theorem Thread.after_ok (rest : List (Point × (State → Coop State Point Exit Unit)))
    (computation : Coop State Point Exit Unit)
    (h : computation.Meets contract (fun _ state => Safe contract user rest state)) :
    (Thread.after rest computation).Ok system contract user := by
  cases computation with
  | done result state | pause point state proceed => exact ⟨by simp [after], .inr h⟩
  | leave exit state =>
    constructor
    · intro exit' state' he
      simp only [after, some.injEq, Prod.mk.injEq] at he
      obtain ⟨rfl, rfl⟩ := he
      exact ⟨h, rfl⟩
    · cases hfinal : system.final exit with
      | true => exact .inl hfinal
      | false => exact .inr (hobeys.leaves exit state h hfinal)

theorem Thread.Ok.env (h : thread.Ok system contract user) (event : Event)
    (hgood : good thread.point thread.state (.env event)) :
    Thread.Ok system contract user { thread with state := system.env event thread.state } := by
  refine ⟨h.1, h.2.imp id ?_⟩
  intro hsafe
  rcases thread with ⟨state, stack, exit⟩
  cases stack with
  | nil => exact hobeys.envUser state event hsafe hgood
  | cons entry rest =>
    rcases entry with ⟨point, proceed⟩
    obtain ⟨hrely, hpaused⟩ := hobeys.env point state event hsafe.1 hgood
    exact hsafe.rely hobeys hrely hpaused

theorem Thread.Ok.step {next : Thread State Point Exit} (h : thread.Ok system contract user)
    (label : Label Event Entry Interrupt) (hgood : good thread.point thread.state label)
    (hstep : system.step thread label = some next) : next.Ok system contract user := by
  cases label with
  | env event =>
    simp only [System.step, some.injEq] at hstep
    exact hstep ▸ h.env hobeys event hgood
  | enter entry =>
    simp only [System.step, ite_none_right_eq_some, some.injEq, Bool.and_eq_true,
      List.isEmpty_iff, Bool.not_eq_true'] at hstep
    obtain ⟨⟨hempty, hlive⟩, rfl⟩ := hstep
    have hpoint : thread.point = none := by simp [Thread.point, hempty]
    have hsafe := h.2.resolve_left (by simp [hlive])
    rw [hpoint] at hgood
    rw [hempty] at hsafe
    exact Thread.after_ok hobeys [] _ (hobeys.entry thread.state entry hsafe hgood)
  | interrupt interrupt =>
    simp only [System.step] at hstep
    split at hstep
    · cases hstep
    · rename_i point proceed rest hstack
      simp only [ite_none_right_eq_some, some.injEq] at hstep
      obtain ⟨henabled, rfl⟩ := hstep
      have hsafe := h.safe_of_stack hstack
      have hpoint : thread.point = some point := by simp [Thread.point, hstack]
      rw [hstack] at hsafe
      rw [hpoint] at hgood
      apply Thread.after_ok hobeys
      exact (hobeys.interrupt point thread.state interrupt hsafe.1 henabled hgood).mono
        (fun _ last hlast => hsafe.rely hobeys hlast.1 hlast.2)
  | resume =>
    simp only [System.step] at hstep
    split at hstep
    · cases hstep
    · rename_i point proceed rest hstack
      simp only [ite_none_right_eq_some, some.injEq] at hstep
      obtain ⟨hready, rfl⟩ := hstep
      have hsafe := h.safe_of_stack hstack
      have hpoint : thread.point = some point := by simp [Thread.point, hstack]
      rw [hstack] at hsafe
      rw [hpoint] at hgood
      exact Thread.after_ok hobeys rest _
        (hsafe.2 thread.state (hobeys.refl point thread.state) (hobeys.resume point thread.state hready hgood))

variable (hstart : ∀ state, start state → user state) (h : system.Reach good start thread)

include hstart h

-- A system whose programs obey a contract keeps it along every good run.
theorem System.Reach.ok : thread.Ok system contract user := by
  refine h.invariant (fun thread => thread.Ok system contract user) ?_ ?_
  · rintro _ ⟨state, hs, rfl⟩
    exact ⟨by simp [Thread.idle], .inr (hstart state hs)⟩
  · intro thread next label hthread hgood hstep
    exact hthread.step hobeys label hgood hstep

theorem System.Reach.paused {point : Point} (hpoint : thread.point = some point) :
    contract.paused point thread.state := by
  have hok := h.ok hobeys hstart
  simp only [Thread.point, map_eq_some_iff, Prod.exists, exists_and_right, exists_eq_right] at hpoint
  obtain ⟨proceed, hhead⟩ := hpoint
  obtain ⟨rest, hstack⟩ := List.head?_eq_some_iff.mp hhead
  have hsafe := hok.safe_of_stack hstack
  rw [hstack] at hsafe
  exact hsafe.1

theorem System.Reach.leaves {exit : Exit} {state : State} (hexit : thread.exit = some (exit, state)) :
    contract.leaves exit state :=
  ((h.ok hobeys hstart).1 exit state hexit).1

end Obeys

theorem System.exists_reach {good : Option Point → State → Label Event Entry Interrupt → Prop}
    [∀ point state label, Decidable (good point state label)] {state : State} (hstate : start state)
    (labels : List (Label Event Entry Interrupt)) {goal : Thread State Point Exit → Prop}
    (h : ∃ thread, system.run good (Thread.idle state) labels = some thread ∧ goal thread) :
    ∃ thread, system.Reach good start thread ∧ goal thread :=
  Xv6.exists_reach ⟨state, hstate, rfl⟩ labels h

end Invariant

section Termination

variable {State Point Exit Event Entry Interrupt : Type}
variable (system : System State Point Exit Event Entry Interrupt)

end Termination

end Xv6

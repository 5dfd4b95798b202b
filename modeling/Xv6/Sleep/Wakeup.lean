import Xv6.Sleep.Refines

namespace Xv6

open Function

inductive WaitChoice (Data : Type) where
  | wait
  | change (change : Data → Data)

-- `made` is a process whose last critical section has made the condition true.
inductive WaitPlace where
  | other
  | made
  deriving DecidableEq

-- A process that finds the condition false sleeps. Whoever makes it true wakes up the channel,
-- and others may make it false again.
def waiting (Process Data : Type) (condition : Data → Bool) :
    Monitor Process Data WaitPlace Unit (WaitChoice Data) Empty Empty where
  turn _ choice _ data :=
    match choice with
    | .wait => some (.turn ⟨data, .other, if condition data then none else some (), []⟩)
    | .change change =>
      if condition (change data) then some (.turn ⟨change data, .made, none, [()]⟩)
      else some (.turn ⟨change data, .other, none, []⟩)
  event event _ := event.elim

namespace Sleep

variable {Process Data : Type} [DecidableEq Process] {condition : Data → Bool} {shared : Bool}
variable {state next : State Process Data WaitPlace Unit Empty}

theorem waiting_asleep {coarse : Monitor.State Process Data WaitPlace Unit Empty}
    (h : Reach (waiting Process Data condition).step (Monitor.Fairly fun _ _ _ _ => True)
      (Monitor.Begins fun _ place => ∀ process, place process = .other) coarse)
    {process : Process} {chan : Unit} (hasleep : coarse.asleep process = some chan) :
    condition coarse.data = false := by
  refine Monitor.sleepers h (fun _ _ => True) (fun _ _ => trivial) (fun _ _ data => condition data = false) ?_ ?_
    process chan hasleep
  · intro data place party choice turn _ _ hturn
    cases choice with
    | wait =>
      cases hturn
      exact ⟨by simp, fun _ _ _ _ hfalse => hfalse⟩
    | change change =>
      simp only [waiting] at hturn
      split_ifs at hturn with hcondition
      · cases hturn
        exact ⟨by simp, by simp⟩
      · cases hturn
        exact ⟨by simp, fun _ _ _ _ _ => by simpa using hcondition⟩
  · intro _ _ event
    exact event.elim

section Waiting

variable (h : Reaches (waiting Process Data condition) shared (fun _ _ _ _ => True)
  (fun _ place => ∀ process, place process = .other) state)

include h

theorem waiting_awake
    (hfree : ∀ process, (state.point process).inSection = false) (hcondition : condition state.data)
    (sleeper : Process) : state.status sleeper = .RUNNABLE ∨ state.status sleeper = .RUNNING := by
  obtain ⟨hsound, coarse, hreach, hrefines⟩ := refines h
  by_cases hsleeping : state.status sleeper = .SLEEPING
  · obtain ⟨chan, -, hasleep⟩ := hrefines.sleeping hsound hfree hsleeping
    have hfalse := waiting_asleep hreach hasleep
    rw [hrefines.data, hcondition] at hfalse
    cases hfalse
  · by_cases haway : ∃ chan, state.point sleeper = .away chan
    · obtain ⟨chan, hchan⟩ := haway
      rcases hsound.away sleeper chan hchan with hrunnable | ⟨hasleep, -⟩
      · exact .inl hrunnable
      · exact absurd hasleep hsleeping
    · exact .inr (hsound.running sleeper fun chan hchan => haway ⟨chan, hchan⟩)

-- Between its change and the release of the lock nobody else can change the data.
theorem waiting_made
    (waker : Process) (hmade : state.place waker = .made) (hafter : (state.point waker).afterBody) :
    condition state.data := by
  induction h generalizing waker with
  | start state hstart => simp [hstart.1] at hmade
  | step state next label hreach hgood hstep ih =>
    rcases step_data hstep with ⟨hdata, hplace, hbefore⟩ | ⟨process, choice, outcome, hpoint, hturn, rfl⟩ | ⟨event, -⟩
    · rw [hplace] at hmade
      rw [hdata]
      exact ih waker hmade (hbefore waker hafter)
    · cases outcome with
      | panic panic => exact panic.elim
      | turn turn =>
        by_cases hne : waker = process
        · subst hne
          have hturned : turn.place = .made := by simpa [State.body, State.go] using hmade
          cases choice with
          | wait =>
            cases hturn
            cases hturned
          | change change =>
            simp only [waiting] at hturn
            split_ifs at hturn with hcondition
            · cases hturn
              exact hcondition
            · cases hturn
              cases hturned
        · have hstill : (state.point waker).afterBody := by
            simpa [State.body, State.go, update_of_ne hne] using hafter
          have hsame := (refines hreach).1.exclusive (Point.inSection_of_afterBody hstill)
            (by rw [hpoint]; rfl : (state.point process).inSection)
          exact absurd hsame hne
    · exact event.elim

-- When a process that has made the condition true has finished, nobody who waits for it is asleep,
-- and nobody is as long as it stays true.
theorem wakeup_not_lost
    :
    (∀ waker choice next, state.place waker = .made → (state.point waker).afterBody →
      step (waiting Process Data condition) shared state (.proceed waker choice) = some next →
        next.point waker = .out →
          ∀ sleeper, next.status sleeper = .RUNNABLE ∨ next.status sleeper = .RUNNING) ∧
    (condition state.data → (∀ process, (state.point process).inSection = false) →
      ∀ sleeper, state.status sleeper = .RUNNABLE ∨ state.status sleeper = .RUNNING) := by
  refine ⟨?_, fun hcondition hfree => waiting_awake h hfree hcondition⟩
  intro waker choice next hmade hafter hstep hout
  have hnext : Reaches (waiting Process Data condition) shared (fun _ _ _ _ => True)
      (fun _ place => ∀ process, place process = .other) next := by
    refine .step state next _ h ?_ hstep
    exact fun _ => trivial
  have hcondition := waiting_made h waker hmade hafter
  have hsound := (refines h).1
  simp only [step, Option.ite_none_right_eq_some] at hstep
  obtain rfl := proceed_out hafter hstep.2 hout
  have hpoint : ((state.release shared).go waker .out).point = update state.point waker .out := by
    cases shared <;> rfl
  refine waiting_awake hnext ?_ (by cases shared <;> exact hcondition)
  intro process
  rw [hpoint]
  by_cases hne : process = waker
  · rw [hne, update_self]
    rfl
  · rw [update_of_ne hne]
    by_contra hin
    exact hne (hsound.exclusive (by simpa using hin) (Point.inSection_of_afterBody hafter))

end Waiting

-- The waker takes lk right after the sleeper has released it on its way into sleep, and has to wait
-- for ptable.lock until the sleeper is asleep.
def wakeupBetween : List (Label Bool (WaitChoice Bool) Empty) :=
  [.acquire false, .proceed false .wait, .proceed false .wait, .proceed false .wait, .acquire true,
    .proceed true (.change fun _ => true), .proceed false .wait, .drop, .proceed true .wait, .proceed true .wait]

theorem wakeup_not_lost_between : ∃ state next : State Bool Bool WaitPlace Unit Empty,
    Reaches (waiting Bool Bool fun data => data) false (fun _ _ _ _ => True)
      (fun _ place => ∀ process, place process = .other) state ∧
    state.place true = .made ∧ (state.point true).afterBody ∧
    step (waiting Bool Bool fun data => data) false state (.proceed true .wait) = some next ∧
    next.point true = .out ∧ (next.status false = .RUNNABLE ∨ next.status false = .RUNNING) := by
  obtain ⟨state, hreach, hmade, hafter, next, hstep, hout⟩ : ∃ state : State Bool Bool WaitPlace Unit Empty,
      Reaches (waiting Bool Bool fun data => data) false (fun _ _ _ _ => True)
        (fun _ place => ∀ process, place process = .other) state ∧
      state.place true = .made ∧ (state.point true).afterBody ∧
      ∃ next, step (waiting Bool Bool fun data => data) false state (.proceed true .wait) = some next ∧
        next.point true = .out :=
    exists_reach
      (show starts _ ⟨false, fun _ => .other, fun _ => .out, fun _ => .RUNNING, fun _ => none, none, none, none⟩ from
        ⟨fun _ => rfl, fun _ => rfl, fun _ => rfl, fun _ => rfl, rfl, rfl, rfl⟩)
      wakeupBetween ⟨_, rfl, rfl, rfl, _, rfl, rfl⟩
  exact ⟨state, next, hreach, hmade, hafter, hstep, hout,
    (wakeup_not_lost hreach).1 true .wait next hmade hafter hstep hout false⟩

end Sleep

end Xv6

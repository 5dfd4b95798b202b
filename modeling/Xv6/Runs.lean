namespace Xv6

variable {State Label : Type} {step : State → Label → Option State} {good : State → Label → Prop}
variable {start : State → Prop}

-- The states that a machine reaches by steps that are all good.
inductive Reach (step : State → Label → Option State) (good : State → Label → Prop) (start : State → Prop) :
    State → Prop
  | start (state : State) (h : start state) : Reach step good start state
  | step (state next : State) (label : Label) (hreach : Reach step good start state) (hgood : good state label)
      (hstep : step state label = some next) : Reach step good start next

-- A run of these steps, as long as all of them are good.
def run (step : State → Label → Option State) (good : State → Label → Prop)
    [∀ state label, Decidable (good state label)] (state : State) : List Label → Option State
  | [] => some state
  | label :: labels =>
    if good state label then (step state label).bind fun next => run step good next labels else none

variable {state : State}

theorem Reach.invariant (h : Reach step good start state) (holds : State → Prop)
    (hstart : ∀ state, start state → holds state)
    (hstep : ∀ state next label, holds state → good state label → step state label = some next → holds next) :
    holds state := by
  induction h with
  | start state hs => exact hstart state hs
  | step state next label _ hgood hnext ih => exact hstep state next label ih hgood hnext

theorem Reach.mono {better : State → Label → Prop} (h : Reach step good start state)
    (hbetter : ∀ state label, good state label → better state label) : Reach step better start state := by
  induction h with
  | start state hs => exact .start state hs
  | step state next label _ hgood hnext ih => exact .step state next label ih (hbetter state label hgood) hnext

theorem Reach.run [∀ state label, Decidable (good state label)] {next : State} (h : Reach step good start state)
    (labels : List Label) (hrun : run step good state labels = some next) : Reach step good start next := by
  induction labels generalizing state with
  | nil =>
    simp only [Xv6.run, Option.some.injEq] at hrun
    exact hrun ▸ h
  | cons label labels ih =>
    simp only [Xv6.run, Option.ite_none_right_eq_some, Option.bind_eq_some_iff] at hrun
    obtain ⟨hgood, middle, hstep, hrest⟩ := hrun
    exact ih (.step state middle label h hgood hstep) hrest

section Exists

variable [∀ state label, Decidable (good state label)] {goal : State → Prop}

theorem exists_reach (hstate : start state) (labels : List Label)
    (h : ∃ next, run step good state labels = some next ∧ goal next) :
    ∃ next, Reach step good start next ∧ goal next := by
  obtain ⟨next, hrun, hgoal⟩ := h
  exact ⟨next, (Reach.start state hstate).run labels hrun, hgoal⟩

theorem exists_reach_boot {Seed : Type} {boot : Seed → Option State} (seed : Seed) (labels : List Label)
    (h : ∃ first, boot seed = some first ∧ ∃ next, run step good first labels = some next ∧ goal next) :
    ∃ next, Reach step good (fun state => ∃ seed, boot seed = some state) next ∧ goal next := by
  obtain ⟨first, hboot, hrun⟩ := h
  exact exists_reach ⟨seed, hboot⟩ labels hrun

-- The run is computed as far as one looks at its end.
theorem exists_reach_seen {Value : Type} {seen : State → Value} {value : Value} {labels : List Label}
    (hstate : start state) (h : (run step good state labels).map seen = some value) :
    ∃ next, Reach step good start next ∧ seen next = value :=
  exists_reach hstate labels (Option.map_eq_some_iff.mp h)

end Exists

end Xv6

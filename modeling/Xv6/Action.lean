import Mathlib.Algebra.Group.Basic
import Mathlib.Tactic.SplitIfs

namespace Xv6

-- Computations that change a state and may stop with an error.
abbrev Action (State Halt Value : Type) := StateT State (Except Halt) Value

namespace Action

variable {State Part Halt Value Result : Type}

-- If the computation returns, this holds of the value and of the state then. If it stops, that
-- holds of the error.
def wp (action : Action State Halt Value) (state : State) (returns : Value → State → Prop) (stops : Halt → Prop) :
    Prop :=
  match action.run state with
  | .ok (value, next) => returns value next
  | .error halt => stops halt

variable {action : Action State Halt Value} {state next : State} {returns others : Value → State → Prop}
variable {stops fails : Halt → Prop}

@[simp] theorem wp_pure (value : Value) :
    wp (pure value : Action State Halt Value) state returns stops ↔ returns value state := Iff.rfl

@[simp] theorem wp_bind (rest : Value → Action State Halt Result) {returns : Result → State → Prop} :
    wp (action >>= rest) state returns stops ↔
      wp action state (fun value next => wp (rest value) next returns stops) stops := by
  have hrun : (action >>= rest).run state = action.run state >>= fun pair => (rest pair.1).run pair.2 := rfl
  unfold wp
  rw [hrun]
  cases action.run state with
  | ok pair => rfl
  | error halt => rfl

@[simp] theorem wp_map (change : Value → Result) {returns : Result → State → Prop} :
    wp (change <$> action) state returns stops ↔ wp action state (fun value => returns (change value)) stops := by
  rw [← bind_pure_comp, wp_bind]
  rfl

@[simp] theorem wp_get {returns : State → State → Prop} :
    wp (get : Action State Halt State) state returns stops ↔ returns state state := Iff.rfl

@[simp] theorem wp_set {returns : PUnit → State → Prop} :
    wp (set next : Action State Halt PUnit) state returns stops ↔ returns ⟨⟩ next := Iff.rfl

@[simp] theorem wp_modify (change : State → State) {returns : PUnit → State → Prop} :
    wp (modify change : Action State Halt PUnit) state returns stops ↔ returns ⟨⟩ (change state) := Iff.rfl

@[simp] theorem wp_throw (halt : Halt) :
    wp (throw halt : Action State Halt Value) state returns stops ↔ stops halt := Iff.rfl

@[simp] theorem wp_ite (condition : Prop) [Decidable condition] (one two : Action State Halt Value) :
    wp (if condition then one else two) state returns stops ↔
      if condition then wp one state returns stops else wp two state returns stops := by
  by_cases h : condition
  · simp only [h, if_true]
  · simp only [h, if_false]

section

variable (h : wp action state returns stops) (hreturns : ∀ value next, returns value next → others value next)

include h hreturns

theorem wp.mono (hstops : ∀ halt, stops halt → fails halt) : wp action state others fails := by
  unfold wp at h ⊢
  cases hrun : action.run state with
  | ok pair =>
    rw [hrun] at h
    exact hreturns _ _ h
  | error halt =>
    rw [hrun] at h
    exact hstops _ h

theorem wp.imp :
    wp action state others stops := h.mono hreturns fun _ hhalt => hhalt

end

theorem wp.and (h : wp action state returns stops) (hothers : wp action state others fails) :
    wp action state (fun value next => returns value next ∧ others value next)
      (fun halt => stops halt ∧ fails halt) := by
  unfold wp at h hothers ⊢
  cases hrun : action.run state with
  | ok pair | error halt =>
    rw [hrun] at h hothers
    exact ⟨h, hothers⟩

variable {value : Value} {change : State → State} {rest : Value → Action State Halt Result}
  {one two : Action State Halt Value} {condition : Prop}

theorem wp.returned (h : wp action state returns stops) (hrun : action.run state = .ok (value, next)) :
    returns value next := by
  unfold wp at h
  rw [hrun] at h
  exact h

theorem wp.run (h : wp action state returns stops) :
    (∃ value next, action.run state = .ok (value, next) ∧ returns value next) ∨
      ∃ halt, action.run state = .error halt ∧ stops halt := by
  unfold wp at h
  cases hrun : action.run state with
  | ok pair =>
    rw [hrun] at h
    exact .inl ⟨pair.1, pair.2, rfl, h⟩
  | error halt =>
    rw [hrun] at h
    exact .inr ⟨halt, rfl, h⟩

theorem wp.run_of_false (h : wp action state returns fun _ => False) :
    ∃ value next, action.run state = .ok (value, next) ∧ returns value next := by
  rcases h.run with hok | ⟨halt, -, hfalse⟩
  · exact hok
  · exact hfalse.elim

theorem wp.of_forall (hreturns : ∀ value next, returns value next) (hstops : ∀ halt, stops halt) :
    wp action state returns stops := by
  unfold wp
  cases action.run state with
  | ok pair => exact hreturns _ _
  | error halt => exact hstops _

theorem run_of_toOption (h : (action.run state).toOption = some (value, next)) :
    action.run state = .ok (value, next) := by
  cases hrun : action.run state with
  | ok pair =>
    rw [hrun] at h
    rw [Option.some.inj h]
  | error halt =>
    rw [hrun] at h
    exact absurd h (by simp [Except.toOption])

theorem run_of_map {halt : Halt} (h : (action.run state).map (fun _ => ()) = .error halt) :
    action.run state = .error halt := by
  cases hrun : action.run state with
  | ok pair =>
    rw [hrun] at h
    cases h
  | error other =>
    rw [hrun] at h
    cases h
    rfl

-- Computations with the same preconditions for all results are the same.
theorem run_eq_of_wp {other : Action State Halt Value}
    (h : ∀ returns stops, wp other state returns stops → wp action state returns stops) :
    action.run state = other.run state := by
  have hother : wp other state (fun value next => other.run state = .ok (value, next))
      fun halt => other.run state = .error halt := by
    unfold wp
    cases other.run state with
    | ok pair => rfl
    | error halt => rfl
  have haction := h _ _ hother
  unfold wp at haction
  cases hrun : action.run state with
  | ok pair | error halt =>
    rw [hrun] at haction
    exact haction.symm

-- A computation on a part of the state, with its own errors.
def within {Fault : Type} (part : State → Part) (put : Part → State → State) (fault : Fault → Halt)
    (action : Action Part Fault Value) : Action State Halt Value := do
  let state ← get
  match action.run (part state) with
  | .ok (value, next) => do
      set (put next state)
      return value
  | .error halt => throw (fault halt)

@[simp] theorem wp_within {Fault : Type} (part : State → Part) (put : Part → State → State) (fault : Fault → Halt)
    (action : Action Part Fault Value) :
    wp (within part put fault action) state returns stops ↔
      wp action (part state) (fun value next => returns value (put next state)) fun halt => stops (fault halt) := by
  unfold within
  rw [wp_bind, wp_get]
  unfold wp
  cases action.run (part state) with
  | ok pair => rfl
  | error halt => rfl

-- What this function sees of the computation is the other one.
def Simulates (part : State → Part) (action : Action State Halt Value) (inner : Action Part Halt Value) : Prop :=
  ∀ state returns stops, wp inner (part state) returns stops →
    wp action state (fun value next => returns value (part next)) stops

section Simulates

variable {part : State → Part} {inner : Action Part Halt Value}

theorem Simulates.pure (value : Value) :
    Simulates part (pure value : Action State Halt Value) (pure value) := fun _ _ _ h => h

theorem Simulates.throw (halt : Halt) :
    Simulates part (throw halt : Action State Halt Value) (throw halt) := fun _ _ _ h => h

theorem Simulates.modify {inside : Part → Part} (h : ∀ state, part (change state) = inside (part state)) :
    Simulates part (modify change : Action State Halt PUnit) (modify inside) := by
  intro state returns stops hinner
  rw [wp_modify] at hinner ⊢
  rwa [h]

theorem Simulates.bind {others : Value → Action Part Halt Result} (h : Simulates part action inner)
    (hrest : ∀ value, Simulates part (rest value) (others value)) :
    Simulates part (action >>= rest) (inner >>= others) := by
  intro state returns stops hinner
  rw [wp_bind] at hinner ⊢
  exact (h state _ _ hinner).imp fun value next hnext => hrest value next _ _ hnext

theorem Simulates.ite [Decidable condition] {first second : Action Part Halt Value}
    (hone : Simulates part one first) (htwo : Simulates part two second) :
    Simulates part (if condition then one else two) (if condition then first else second) := by
  split_ifs
  · exact hone
  · exact htwo

end Simulates

-- Wherever it begins and if it returns at all, the computation relates the state before, its value
-- and the state after like this.
def Does (action : Action State Halt Value) (relation : State → Value → State → Prop) : Prop :=
  ∀ state, wp action state (relation state) fun _ => True

-- What this function sees of the state does not change.
def Keeps (part : State → Part) (action : Action State Halt Value) : Prop :=
  action.Does fun state _ next => part next = part state

section Keeps

variable {part : State → Part}

theorem Keeps.pure (value : Value) : Keeps part (pure value : Action State Halt Value) := fun _ => rfl

theorem Keeps.throw (halt : Halt) : Keeps part (throw halt : Action State Halt Value) := fun _ => trivial

theorem Keeps.get : Keeps part (get : Action State Halt State) := fun _ => rfl

theorem Keeps.modify (h : ∀ state, part (change state) = part state) :
    Keeps part (modify change : Action State Halt PUnit) := h

theorem Keeps.bind (h : Keeps part action) (hrest : ∀ value, Keeps part (rest value)) :
    Keeps part (action >>= rest) := by
  intro state
  rw [wp_bind]
  refine (h state).imp ?_
  intro value middle hmiddle
  refine (hrest value middle).imp ?_
  intro _ next hnext
  exact hnext.trans hmiddle

theorem Keeps.map (change : Value → Result) (h : Keeps part action) : Keeps part (change <$> action) := by
  rw [← bind_pure_comp]
  exact h.bind fun _ => .pure _

theorem Keeps.ite [Decidable condition] (hone : Keeps part one) (htwo : Keeps part two) :
    Keeps part (if condition then one else two) := by
  split_ifs
  · exact hone
  · exact htwo

end Keeps

-- What this function measures of the state grows by an amount that depends on the value only.
def Adds {Amount : Type} [AddCommGroup Amount] (part : State → Amount) (action : Action State Halt Value)
    (amount : Value → Amount) : Prop :=
  action.Does fun state value next => part next = part state + amount value

section Adds

variable {Amount : Type} [AddCommGroup Amount] {part : State → Amount} {amount : Value → Amount}

theorem Keeps.adds (h : Keeps part action) : Adds part action fun _ => 0 := by
  intro state
  refine (h state).imp ?_
  intro _ next hnext
  exact hnext.trans (add_zero _).symm

theorem Adds.keeps (h : Adds part action fun _ => 0) : Keeps part action := by
  intro state
  refine (h state).imp ?_
  intro _ next hnext
  exact hnext.trans (add_zero _)

theorem Adds.pure (h : amount value = 0) : Adds part (pure value : Action State Halt Value) amount := by
  intro state
  have hsame : part state = part state + amount value := by rw [h, add_zero]
  exact hsame

theorem Adds.throw (halt : Halt) : Adds part (throw halt : Action State Halt Value) amount := fun _ => trivial

variable {total : Result → Amount}

theorem Adds.bind (h : Adds part action amount)
    (hrest : ∀ value, Adds part (rest value) fun result => total result - amount value) :
    Adds part (action >>= rest) total := by
  intro state
  rw [wp_bind]
  refine (h state).imp ?_
  intro value middle hmiddle
  refine (hrest value middle).imp ?_
  intro result next hnext
  calc part next = part middle + (total result - amount value) := hnext
    _ = part state + amount value + (total result - amount value) := by rw [hmiddle]
    _ = part state + total result := by rw [add_assoc, add_sub_cancel]

theorem Adds.after (h : Keeps part action) (hrest : ∀ value, Adds part (rest value) total) :
    Adds part (action >>= rest) total := by
  refine h.adds.bind fun value => ?_
  simp only [sub_zero]
  exact hrest value

theorem Adds.map {change : Value → Result} (h : Adds part action amount)
    (htotal : ∀ value, total (change value) = amount value) : Adds part (change <$> action) total := by
  rw [← bind_pure_comp]
  refine h.bind fun value => .pure ?_
  rw [htotal, sub_self]

theorem Adds.ite [Decidable condition] (hone : Adds part one amount) (htwo : Adds part two amount) :
    Adds part (if condition then one else two) amount := by
  split_ifs
  · exact hone
  · exact htwo

theorem Adds.congr {other : Value → Amount} (h : Adds part action amount)
    (hother : ∀ value, other value = amount value) : Adds part action other := by
  intro state
  refine (h state).imp ?_
  intro value next hnext
  exact hnext.trans (by rw [hother])

end Adds

end Action

end Xv6

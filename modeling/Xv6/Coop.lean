import Mathlib.Logic.Relation

namespace Xv6

-- What is left to do of a computation over a shared state. It returns, it leaves
-- for good without returning to its caller, or it stops at a point where others
-- may change the state before it goes on.
inductive Coop (State Point Exit Result : Type) where
  | done (result : Result) (state : State)
  | leave (exit : Exit) (state : State)
  | pause (point : Point) (state : State) (resume : State → Coop State Point Exit Result)

namespace Coop

variable {State Point Exit Result Next : Type}

def bind : Coop State Point Exit Result → (Result → State → Coop State Point Exit Next) →
    Coop State Point Exit Next
  | done result state, next => next result state
  | leave exit state, _ => leave exit state
  | pause point state resume, next => pause point state (fun state => (resume state).bind next)

-- The state in which the computation has stopped, for good or at a point.
def state : Coop State Point Exit Result → State
  | done _ state => state
  | leave _ state => state
  | pause _ state _ => state

end Coop

def Program (State Point Exit Result : Type) := State → Coop State Point Exit Result

namespace Program

variable {State Point Exit Result : Type}

instance : Monad (Program State Point Exit) where
  pure result := fun state => .done result state
  bind first next := fun state => (first state).bind next

def get : Program State Point Exit State := fun state => .done state state

def modify (change : State → State) : Program State Point Exit Unit :=
  fun state => .done () (change state)

def pause (point : Point) : Program State Point Exit Unit :=
  fun state => .pause point state (fun state => .done () state)

def leave (exit : Exit) : Program State Point Exit Result := fun state => .leave exit state

end Program

-- What a computation may count on and what it owes: `rely` is what others may do
-- while it is paused, `ready` is when it goes on, `paused` is owed at every pause and
-- `leaves` at every exit.
structure Contract (State Point Exit : Type) where
  rely : Point → State → State → Prop
  ready : Point → State → Prop
  paused : Point → State → Prop
  leaves : Exit → State → Prop

namespace Coop

variable {State Point Exit Result : Type}

def Meets (contract : Contract State Point Exit) (post : Result → State → Prop) :
    Coop State Point Exit Result → Prop
  | done result state => post result state
  | leave exit state => contract.leaves exit state
  | pause point state resume => contract.paused point state ∧
      ∀ next, contract.rely point state next → contract.ready point next →
        Meets contract post (resume next)

-- From wherever it is resumed to where it stops next, the computation does not change this
-- part of the state.
def Fixes {Value : Type} (field : State → Value) : Coop State Point Exit Result → State → Prop
  | done _ last, start => field last = field start
  | leave _ last, start => field last = field start
  | pause _ last resume, start => field last = field start ∧ ∀ next, (resume next).Fixes field next

-- `Ends rely before after`: some behaviour of the others takes the computation to its end.
inductive Ends (rely : Point → State → State → Prop) :
    Coop State Point Exit Result → Coop State Point Exit Result → Prop
  | done (result : Result) (state : State) : Ends rely (.done result state) (.done result state)
  | leave (exit : Exit) (state : State) : Ends rely (.leave exit state) (.leave exit state)
  | pause (point : Point) (state next : State) (resume : State → Coop State Point Exit Result)
      (last : Coop State Point Exit Result) (hrely : rely point state next)
      (hends : Ends rely (resume next) last) : Ends rely (.pause point state resume) last

end Coop

def Program.Fixes {State Point Exit Result Value : Type} (field : State → Value)
    (program : Program State Point Exit Result) : Prop :=
  ∀ state, (program state).Fixes field state

def Program.wp {State Point Exit Result : Type} (contract : Contract State Point Exit)
    (program : Program State Point Exit Result) (post : Result → State → Prop) (state : State) : Prop :=
  (program state).Meets contract post

end Xv6

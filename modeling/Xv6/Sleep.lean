import Xv6.Monitor
import Xv6.Proc

namespace Xv6

open Function

-- Processes run critical sections under a spin-lock lk, as a monitor describes them, but every
-- acquire and release of lk and of ptable.lock is a step of its own.
namespace Sleep

-- Where a process is. `waking` and `wakeup` say which channels it has still to wake up, and
-- the channel on which it sleeps then.
inductive Point (Chan : Type) where
  | out
  | inside
  | waking (wakes : List Chan) (sleeps : Option Chan)
  | wakeup (chan : Chan) (wakes : List Chan) (sleeps : Option Chan)
  | swapping (chan : Chan)
  | marking (chan : Option Chan)
  | away (chan : Option Chan)
  | awake (chan : Option Chan)

-- It is about to run its critical section.
def Point.atBody {Chan : Type} : Point Chan → Bool
  | .inside => true
  | _ => false

-- ptable.lock is held by a process, or by the scheduler of some CPU and code that is not
-- modelled here. A process off its CPU has no chan if it has not called sleep but yield.
structure State (Process Data Place Chan Panic : Type) where
  data : Data
  place : Process → Place
  point : Process → Point Chan
  status : Process → Procstate
  chan : Process → Option Chan
  lk : Option Process
  ptable : Option (Option Process)
  panic : Option Panic

inductive Label (Process Choice Event : Type) where
  | acquire (process : Process)
  | proceed (process : Process) (choice : Choice)
  | yield (process : Process)
  | take
  | drop
  | dispatch (process : Process)
  | rouse (process : Process)
  | event (event : Event)

variable {Process Data Place Chan Choice Event Panic : Type} [DecidableEq Process] [DecidableEq Chan]

namespace State

variable (state : State Process Data Place Chan Panic)

def go (process : Process) (point : Point Chan) : State Process Data Place Chan Panic :=
  { state with point := update state.point process point }

def wakeup1 (chan : Chan) : State Process Data Place Chan Panic :=
  { state with
    status := fun process =>
      if state.status process = .SLEEPING ∧ state.chan process = some chan then .RUNNABLE else state.status process }

def acquirePtable (process : Process) : Option (State Process Data Place Chan Panic) :=
  if state.ptable.isNone then some { state with ptable := some (some process) } else none

def releasePtable : State Process Data Place Chan Panic := { state with ptable := none }

-- `shared` says that lk is ptable.lock.
def acquire (shared : Bool) (process : Process) : Option (State Process Data Place Chan Panic) :=
  if shared then state.acquirePtable process
  else if state.lk.isNone then some { state with lk := some process } else none

def release (shared : Bool) : State Process Data Place Chan Panic :=
  if shared then state.releasePtable else { state with lk := none }

-- The end of sleep and of yield under ptable.lock, which the scheduler of this CPU has after swtch.
def sched (process : Process) (chan : Option Chan) : State Process Data Place Chan Panic :=
  { state with
    status := update state.status process (if chan.isSome then .SLEEPING else .RUNNABLE)
    chan := update state.chan process chan
    ptable := some none }

def body (process : Process) : Outcome Data Place Chan Panic → State Process Data Place Chan Panic
  | .turn turn =>
    { state with data := turn.data, place := update state.place process turn.place }.go process
      (.waking turn.wakes turn.sleeps)
  | .panic panic => { state with panic := some panic }

end State

variable (monitor : Monitor Process Data Place Chan Choice Event Panic) (shared : Bool)

-- The next step of a process that runs. In `sleep` it takes ptable.lock before it releases lk,
-- unless they are the same.
def proceed (state : State Process Data Place Chan Panic) (process : Process) (choice : Choice) :
    Option (State Process Data Place Chan Panic) :=
  match state.point process with
  | .out | .away _ => none
  | .inside => (monitor.turn process choice (state.place process) state.data).map (state.body process)
  | .waking (chan :: wakes) sleeps =>
    if shared then some ((state.wakeup1 chan).go process (.waking wakes sleeps))
    else (state.acquirePtable process).map fun state => state.go process (.wakeup chan wakes sleeps)
  | .wakeup chan wakes sleeps => some ((state.wakeup1 chan).releasePtable.go process (.waking wakes sleeps))
  | .waking [] none => some ((state.release shared).go process .out)
  | .waking [] (some chan) =>
    if shared then some (state.go process (.marking (some chan)))
    else (state.acquirePtable process).map fun state => state.go process (.swapping chan)
  | .swapping chan => some (({ state with lk := none } : State _ _ _ _ _).go process (.marking (some chan)))
  | .marking chan => some ((state.sched process chan).go process (.away chan))
  | .awake chan =>
    let state := { state with chan := update state.chan process none }
    if shared && chan.isSome then some (state.go process .inside) else some (state.releasePtable.go process .out)

-- `dispatch` is the choice of the scheduler, `rouse` is `kill`. Events take no lock.
def step (state : State Process Data Place Chan Panic) :
    Label Process Choice Event → Option (State Process Data Place Chan Panic)
  | .acquire process =>
    match state.panic, state.point process with
    | none, .out => (state.acquire shared process).map fun state => state.go process .inside
    | _, _ => none
  | .proceed process choice => if state.panic.isNone then proceed monitor shared state process choice else none
  | .yield process =>
    match state.panic, state.point process with
    | none, .out => (state.acquirePtable process).map fun state => state.go process (.marking none)
    | _, _ => none
  | .take => if state.panic.isNone && state.ptable.isNone then some { state with ptable := some none } else none
  | .drop => if state.panic.isNone && state.ptable = some none then some state.releasePtable else none
  | .dispatch process =>
    match state.panic, state.point process with
    | none, .away chan =>
      if state.ptable = some none ∧ state.status process = .RUNNABLE then
        some
          (({ state with
              status := update state.status process .RUNNING
              ptable := some (some process) } : State _ _ _ _ _).go process (.awake chan))
      else none
    | _, _ => none
  | .rouse process =>
    if state.panic.isNone && state.ptable = some none && state.status process = .SLEEPING then
      some { state with status := update state.status process .RUNNABLE }
    else none
  | .event event =>
    if state.panic.isNone then
      match monitor.event event state.data with
      | some (.turn ⟨data, (), none, []⟩) => some { state with data }
      | _ => none
    else none

def starts (start : Data → (Process → Place) → Prop) (state : State Process Data Place Chan Panic) : Prop :=
  start state.data state.place ∧ (∀ process, state.point process = .out) ∧
    (∀ process, state.status process = .RUNNING) ∧ (∀ process, state.chan process = none) ∧
    state.lk = none ∧ state.ptable = none ∧ state.panic = none

-- The critical sections are fair in this sense when they are run.
def Good (fair : Process → Choice → Place → Data → Prop) (state : State Process Data Place Chan Panic) :
    Label Process Choice Event → Prop
  | .proceed process choice => (state.point process).atBody → fair process choice (state.place process) state.data
  | _ => True

instance (fair : Process → Choice → Place → Data → Prop)
    [∀ process choice place data, Decidable (fair process choice place data)]
    (state : State Process Data Place Chan Panic) (label : Label Process Choice Event) :
    Decidable (Good fair state label) :=
  match label with
  | .proceed process choice =>
    inferInstanceAs (Decidable ((state.point process).atBody → fair process choice (state.place process) state.data))
  | .acquire _ | .yield _ | .take | .drop | .dispatch _ | .rouse _ | .event _ => isTrue trivial

abbrev Reaches (fair : Process → Choice → Place → Data → Prop) (start : Data → (Process → Place) → Prop) :
    State Process Data Place Chan Panic → Prop :=
  Reach (step monitor shared) (Good fair) (starts start)

end Sleep

end Xv6

import Xv6.Ptable
import Xv6.Runs

namespace Xv6

-- What allocproc does under the lock to an entry that is not used.
def Ptable.take (table : Ptable) (np : Slot) : Ptable :=
  { table.update np fun proc => { proc with state := .EMBRYO, pid := table.nextpid } with
    nextpid := table.nextpid + 1 }

-- What a process does while it holds ptable.lock. allocproc goes through these entries; `start` is
-- the end of fork.
inductive Section where
  | allocproc (rest : List Slot)
  | start
  | exit
  | wait
  | yield
  | sleep (chan : Chan)
  | stop
  | wakeup (chan : Chan)
  | kill (pid : Int)
  | signal (slot : Slot) (sig : Nat)
  deriving DecidableEq

-- Where a process is in fork or in Kill while it does not hold the lock; `out` is anywhere else.
-- The entry that allocproc has taken waits for a kernel stack, for an address space, and to be
-- started. Kill has these entries still to look at; it has found one and takes the lock for it; or
-- it has released the lock again and calls kill for the pid of that entry.
inductive Place where
  | out
  | stack (np : Slot)
  | copy (np : Slot)
  | filled (np : Slot)
  | Kill (pid : Int) (sig : Nat) (rest : List Slot)
  | found (slot : Slot) (pid : Int) (sig : Nat) (rest : List Slot)
  | sigkill (slot : Slot) (pid : Int) (sig : Nat) (rest : List Slot)

-- From where a process has called sched, or forkret, where a new process begins.
inductive Switch where
  | forkret | yield | sleep | wait | stop | exit
  deriving DecidableEq

-- A process runs without the lock. Or it holds the lock and is at the beginning of a section, about
-- to release the lock, in sched before swtch, or in sched after swtch. Or it is switched away.
inductive Phase where
  | free
  | holds (section_ : Section)
  | leaves
  | leaving (switch : Switch)
  | away (switch : Switch)
  | back (switch : Switch)
  deriving DecidableEq

structure Kthread where
  place : Place
  phase : Phase

-- Where a CPU is: in the scheduler before it has the lock, in an interrupt there that wakes up a
-- channel, in the loop with these entries to come, in a process, or back in the loop after swtch.
inductive Mode where
  | idle
  | wakes (chan : Chan)
  | scan (rest : List Slot)
  | runs (rest : List Slot)
  | returns (rest : List Slot)

-- `waited` is what calls of wait have returned so far. No code reads it.
structure Smp (Cpu : Type) where
  table : Ptable
  thread : Slot → Kthread
  lock : Option Cpu
  mode : Cpu → Mode
  current : Cpu → Option Slot
  waited : List Int

-- What a CPU does next. A process may begin a call of these functions, take an interrupt and go on
-- in it, go on where it is, or leave the kernel for a signal handler. `ok` says whether there is
-- memory, and `stale` what is read where there is no trapframe.
inductive Move where
  | call (section_ : Section)
  | Kill (pid sig : Int)
  | interrupt (section_ : Section)
  | goon (ok : Bool) (stale : Slot → BitVec 16)
  | handler
  | scan
  | wakeup (chan : Chan)

-- The sections of a call that begins with one.
def Section.isCall : Section → Bool
  | .allocproc rest => rest == Ptable.slots
  | .exit | .wait | .sleep _ | .kill _ | .wakeup _ => true
  | _ => false

-- An interrupt yields or wakes somebody up. Before it returns it may call psig, which stops the
-- process or kills it.
def Section.isInterrupt (pid : Int) : Section → Bool
  | .yield | .stop | .wakeup _ => true
  | .kill target => target = pid
  | _ => false

namespace Smp

variable {Cpu : Type} [DecidableEq Cpu]

section

variable (smp : Smp Cpu)

def proc (slot : Slot) : Proc := smp.table.proc slot

def setThread (slot : Slot) (thread : Kthread) : Smp Cpu :=
  { smp with thread := Function.update smp.thread slot thread }

def setPhase (slot : Slot) (phase : Phase) : Smp Cpu :=
  smp.setThread slot { smp.thread slot with phase }

def setPlace (slot : Slot) (place : Place) : Smp Cpu :=
  smp.setThread slot { smp.thread slot with place }

def setMode (cpu : Cpu) (mode : Mode) : Smp Cpu :=
  { smp with mode := Function.update smp.mode cpu mode }

def update (slot : Slot) (change : Proc → Proc) : Smp Cpu :=
  { smp with table := smp.table.update slot change }

def acquire (cpu : Cpu) (me : Slot) (section_ : Section) (place : Place) : Option (Smp Cpu) :=
  if smp.lock = none then some { smp.setThread me ⟨place, .holds section_⟩ with lock := some cpu } else none

-- The section up to the release of the lock or to swtch. The first process does not exit.
def body (me : Slot) : Section → Option (Smp Cpu)
  | .allocproc [] => some (smp.setPhase me .leaves)
  | .allocproc (np :: rest) =>
    if (smp.proc np).state = .UNUSED then
      some ({ smp with table := smp.table.take np }.setThread me ⟨.stack np, .leaves⟩)
    else some (smp.setPhase me (.holds (.allocproc rest)))
  | .start =>
    match (smp.thread me).place with
    | .filled np =>
      some (((smp.update np (Proc.setState · .RUNNABLE)).setThread np ⟨.out, .away .forkret⟩).setThread me
        ⟨.out, .leaves⟩)
    | _ => none
  | .exit => (smp.table.exit me).map fun table => { smp with table }.setPhase me (.leaving .exit)
  | .wait =>
    match smp.table.wait me with
    | (table, .found pid) => some ({ smp with table, waited := pid :: smp.waited }.setPhase me .leaves)
    | (table, .none) => some ({ smp with table }.setPhase me .leaves)
    | (table, .sleeps) => some ({ smp with table }.setPhase me (.leaving .wait))
  | .yield => some ((smp.update me (Proc.setState · .RUNNABLE)).setPhase me (.leaving .yield))
  | .sleep chan =>
    some ((smp.update me fun proc => { proc with chan, state := .SLEEPING }).setPhase me (.leaving .sleep))
  | .stop => some ((smp.update me (Proc.setState · .SLEEPING)).setPhase me (.leaving .stop))
  | .wakeup chan => some ({ smp with table := smp.table.wakeup1 chan }.setPhase me .leaves)
  | .kill pid => some ({ smp with table := (smp.table.kill pid).1 }.setPhase me .leaves)
  | .signal slot sig =>
    if sig = SIGKILL then some (smp.setPhase me .leaves)
    else some ((smp.update slot (Proc.receive · sig)).setPhase me .leaves)

-- What is done after sched has returned.
def resumed (me : Slot) : Switch → Option (Smp Cpu)
  | .forkret | .yield | .stop => some (smp.setPhase me .leaves)
  | .sleep => some ((smp.update me fun proc => { proc with chan := .null }).setPhase me .leaves)
  | .wait => some ((smp.update me fun proc => { proc with chan := .null }).setPhase me (.holds .wait))
  | .exit => none

end

-- Where Kill goes on once it is done with an entry.
def afterEntry (pid : Int) (sig : Nat) (rest : List Slot) : Place := if pid = -1 then .Kill pid sig rest else .out

-- The process goes on in fork or in Kill, without the lock.
def advance (smp : Smp Cpu) (cpu : Cpu) (me : Slot) (ok : Bool) (stale : Slot → BitVec 16) :
    Place → Option (Smp Cpu)
  | .out => none
  | .stack np =>
    if ok then
      some ((smp.update np fun proc => { proc with kstack := true, sigpending := 0, justwoken := false }).setPlace me
        (.copy np))
    else some ((smp.update np fun proc => { proc with kstack := false, state := .UNUSED }).setPlace me .out)
  | .copy np =>
    if ok then some ((smp.update np fun proc => proc.copyFrom (smp.proc me) me).setPlace me (.filled np))
    else some ((smp.update np fun proc => { proc with kstack := false, state := .UNUSED }).setPlace me .out)
  | .filled np => smp.acquire cpu me .start (.filled np)
  | .Kill _ _ [] => some (smp.setPlace me .out)
  | .Kill pid sig (slot :: rest) =>
    if (smp.proc slot).pid = 1 then some (smp.setPlace me (.Kill pid sig rest))
    else if pid = -1 ∨ (smp.proc slot).pid = pid then
      if smp.table.privilege stale slot ≠ 3 ∧ smp.table.privilege stale me = 3 then
        some (smp.setPlace me (afterEntry pid sig rest))
      else some (smp.setPlace me (.found slot pid sig rest))
    else some (smp.setPlace me (.Kill pid sig rest))
  | .found slot pid sig rest =>
    smp.acquire cpu me (.signal slot sig)
      (if sig = SIGKILL then .sigkill slot pid sig rest else afterEntry pid sig rest)
  | .sigkill slot pid sig rest => smp.acquire cpu me (.kill (smp.proc slot).pid) (afterEntry pid sig rest)

-- A step of the process that runs on this CPU.
def threadStep (smp : Smp Cpu) (cpu : Cpu) (rest : List Slot) (me : Slot) (move : Move) : Option (Smp Cpu) :=
  match (smp.thread me).phase, move with
  | .free, .call section_ =>
    match (smp.thread me).place with
    | .out => if section_.isCall then smp.acquire cpu me section_ .out else none
    | _ => none
  | .free, .Kill pid sig =>
    match (smp.thread me).place with
    | .out =>
      if sig ≤ 0 ∨ CURRNUM < sig ∨ pid = 1 ∨ pid = 0 ∨ pid < -1 then some smp
      else some (smp.setPlace me (.Kill pid sig.toNat Ptable.slots))
    | _ => none
  | .free, .interrupt section_ =>
    if section_.isInterrupt (smp.proc me).pid then smp.acquire cpu me section_ (smp.thread me).place else none
  | .free, .goon ok stale => smp.advance cpu me ok stale (smp.thread me).place
  | .free, .handler => some (smp.setPlace me .out)
  | .holds section_, .goon _ _ => smp.body me section_
  | .leaves, .goon _ _ => some { smp.setPhase me .free with lock := none }
  | .leaving switch, .goon _ _ => some ((smp.setPhase me (.away switch)).setMode cpu (.returns rest))
  | .back switch, .goon _ _ => smp.resumed me switch
  | _, _ => none

def step (smp : Smp Cpu) (label : Cpu × Move) : Option (Smp Cpu) :=
  match smp.mode label.1, label.2 with
  | .idle, .scan =>
    if smp.lock = none then some { smp.setMode label.1 (.scan Ptable.slots) with lock := some label.1 } else none
  | .idle, .wakeup chan =>
    if smp.lock = none then some { smp.setMode label.1 (.wakes chan) with lock := some label.1 } else none
  | .wakes chan, .goon _ _ =>
    some { smp.setMode label.1 .idle with table := smp.table.wakeup1 chan, lock := none }
  | .scan [], .goon _ _ => some { smp.setMode label.1 .idle with lock := none }
  | .scan (slot :: rest), .goon _ _ =>
    if (smp.proc slot).state = .RUNNABLE then
      match (smp.thread slot).phase with
      | .away switch =>
        some
          { ((smp.update slot (Proc.setState · .RUNNING)).setPhase slot (.back switch)).setMode label.1
              (.runs rest) with
            current := Function.update smp.current label.1 (some slot) }
      | _ => none
    else some (smp.setMode label.1 (.scan rest))
  | .runs rest, move =>
    match smp.current label.1 with
    | some me => smp.threadStep label.1 rest me move
    | none => none
  | .returns rest, .goon _ _ =>
    some { smp.setMode label.1 (.scan rest) with current := Function.update smp.current label.1 none }
  | _, _ => none

-- After userinit, with every CPU in its scheduler.
def boot (Cpu : Type) (memory : Memory) : Option (Smp Cpu) :=
  (Ptable.zero.userinit memory).map fun table =>
    { table
      thread := fun _ => ⟨.out, .away .forkret⟩
      lock := none
      mode := fun _ => .idle
      current := fun _ => none
      waited := [] }

abbrev Reach (good : Smp Cpu → Cpu × Move → Prop) : Smp Cpu → Prop :=
  Xv6.Reach step good fun smp => ∃ memory, boot Cpu memory = some smp

end Smp

end Xv6

import Xv6.Ptable
import Xv6.Trap

namespace Xv6

-- What a process is in the middle of: it runs its program, or it sleeps in `wait` or in
-- another system call, or it is in psig and the others go on.
inductive Doing where
  | user
  | wait
  | sleep
  | psig (point : Point) (cpu : Cpu) (proceed : Cpu → Coop Cpu Point Exit Int)

-- No code reads `passed`: the trampolines that the program of a process has given to `signal`.
structure Machine where
  table : Ptable
  doing : Slot → Doing
  passed : Slot → List Word

-- The system calls that change entries of the table, with what decides their outcome.
inductive Syscall where
  | fork (kalloc copyuvm : Bool)
  | exit
  | wait
  | exec (loaded : Option Loaded)
  | signal (returnfn : Word) (signum : Int) (handler : Word)
  | kill (pid : Int)
  | Kill (stale : Slot → BitVec 16) (pid sig : Int)
  | raise (stale : Slot → BitVec 16) (sig : Int)
  | sigsetmask (mask : Word)
  | sigblock (sig : Int)
  | sigunblock (sig : Int)

-- A process makes a system call, goes to sleep in one, runs psig at the end of a trap, goes
-- on when it is its turn, is preempted, or runs in user mode. Who sleeps on a channel is woken
-- up by an interrupt, on a CPU that may be idle, or by a process at work there. Channels are
-- addresses of kernel objects.
inductive Act where
  | call (slot : Slot) (syscall : Syscall)
  | sleep (slot : Slot) (chan : Chan)
  | psig (slot : Slot) (caller : Caller)
  | resume (slot : Slot)
  | yield (slot : Slot)
  | user (slot : Slot) (user : User)
  | wakeup (chan : Chan)

namespace Machine

section

variable (machine : Machine)

def proc (slot : Slot) : Proc := machine.table.proc slot

-- The process runs and is not inside a call.
def runs (slot : Slot) : Bool :=
  (machine.proc slot).state == .RUNNING &&
    match machine.doing slot with
    | .user => true
    | _ => false

def update (slot : Slot) (change : Proc → Proc) : Machine :=
  { machine with table := machine.table.update slot change }

section

variable (me : Slot)

-- The child of a `fork` that succeeds has the program of its parent.
def forkPassed (kalloc copyuvm : Bool) (slot : Slot) : List Word :=
  if machine.table.child kalloc copyuvm = some slot then machine.passed me else machine.passed slot

def sleep (chan : Chan) : Machine :=
  { machine.update me fun proc => { proc with chan, state := .SLEEPING } with
    doing := Function.update machine.doing me .sleep }

-- The end of a sleep, once the scheduler has picked the process.
def awake : Machine :=
  { machine.update me fun proc => { proc with chan := .null, state := .RUNNING } with
    doing := Function.update machine.doing me .user }

def wait : Machine :=
  match machine.table.wait me with
  | (table, .sleeps) => { machine with table, doing := Function.update machine.doing me .wait }
  | (table, _) => { machine with table, doing := Function.update machine.doing me .user }

def syscall : Syscall → Option Machine
  | .fork kalloc copyuvm =>
    some
      { machine with
        table := (machine.table.fork me kalloc copyuvm).1
        passed := machine.forkPassed me kalloc copyuvm }
  | .exit => (machine.table.exit me).map fun table => { machine with table }
  | .wait => some (machine.wait me)
  | .exec none => some machine
  | .exec (some loaded) =>
    some { machine.update me (Proc.exec · loaded) with passed := Function.update machine.passed me [] }
  | .signal returnfn signum handler =>
    some
      { machine.update me fun proc => (proc.signal returnfn signum handler).1 with
        passed := Function.update machine.passed me (returnfn :: machine.passed me) }
  | .kill pid => some { machine with table := (machine.table.kill pid).1 }
  | .Kill stale pid sig => some { machine with table := (machine.table.Kill stale me pid sig).1 }
  | .raise stale sig => some { machine with table := (machine.table.raise stale me sig).1 }
  | .sigsetmask mask => some (machine.update me fun proc => (proc.sigsetmask mask).1)
  | .sigblock sig => some (machine.update me fun proc => (proc.sigblock sig).1)
  | .sigunblock sig => some (machine.update me fun proc => (proc.sigunblock sig).1)

-- psig has returned, has gone to a handler, or waits. Nobody waits with the lock of the console.
def after (computation : Coop Cpu Point Exit Int) : Machine :=
  { machine.update me fun _ => computation.state.proc with
    doing := Function.update machine.doing me <|
      match computation with
      | .done _ _ | .leave _ _ => .user
      | .pause point cpu proceed => .psig point cpu proceed }

-- The scheduler picks the process; or psig, waiting for the lock, gets it.
def resume : Option Machine :=
  match machine.doing me with
  | .user =>
    if (machine.proc me).state = .RUNNABLE then some (machine.update me (Proc.setState · .RUNNING)) else none
  | .wait => if (machine.proc me).state = .RUNNABLE then some ((machine.awake me).wait me) else none
  | .sleep => if (machine.proc me).state = .RUNNABLE then some (machine.awake me) else none
  | .psig point cpu proceed =>
    let cpu := { cpu with proc := machine.proc me }
    if kernel.ready point cpu then some (machine.after me (proceed cpu)) else none

end

def step : Act → Option Machine
  | .call me syscall => if machine.runs me then machine.syscall me syscall else none
  | .sleep me chan => if machine.runs me ∧ chan ≠ .null then some (machine.sleep me chan) else none
  | .psig me caller =>
    if machine.runs me && (machine.proc me).issig != 0 then
      some (machine.after me (Xv6.psig caller (.user (machine.proc me))))
    else none
  | .resume me => machine.resume me
  | .yield me => if machine.runs me then some (machine.update me (Proc.setState · .RUNNABLE)) else none
  | .user me user =>
    if machine.runs me then
      some (machine.update me fun proc => { proc with tf := user.tf, memory := user.memory })
    else none
  | .wakeup chan => if chan ≠ .null then some { machine with table := machine.table.wakeup1 chan } else none

end

-- The machine after `userinit`, with the first program in memory.
def boot (memory : Memory) : Option Machine :=
  (Ptable.zero.userinit memory).map fun table => ⟨table, fun _ => .user, fun _ => []⟩

abbrev Reach (good : Machine → Act → Prop) : Machine → Prop :=
  Xv6.Reach step good (fun machine => ∃ memory, boot memory = some machine)

-- The first process forks twice and once in vain. The first child has a handler, kills the other
-- one and exits; its entry is used again for a child of a parent with a handler.
def recycle : List Act :=
  [.resume 0, .call 0 (.fork true true), .call 0 (.fork true true), .call 0 (.fork false true), .resume 1,
    .call 1 (.signal 0x200 SIGINT 0x100), .call 1 (.kill 3), .call 1 .exit, .call 0 .wait,
    .call 0 (.signal 0x300 SIGHUP 0x100), .call 0 (.fork true true)]

end Machine

end Xv6

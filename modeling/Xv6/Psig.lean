import Xv6.Coop
import Xv6.Sigreturn

namespace Xv6

-- Where psig is called from. An interrupt may have been taken in user or in kernel mode.
inductive Caller where
  | syscall
  | sleep
  | interrupt (user : Bool)
  deriving DecidableEq, Repr

-- Who waits for `ptable.lock`. `term` and `core` take it back after their `kill`.
inductive Site where
  | psig (caller : Caller)
  | termKill
  | term
  | coreKill
  | core
  | yield
  | sleep
  | wakeup
  deriving DecidableEq, Repr

inductive Why where
  | stop (signum : Nat)
  | yield
  | sleep
  deriving DecidableEq, Repr

-- Where kernel code lets others in: it waits for `ptable.lock` or for another lock,
-- it has given up the CPU, or it runs without `ptable.lock`.
inductive Point where
  | lock (site : Site)
  | spin
  | sched (why : Why)
  | running
  deriving DecidableEq, Repr

inductive Panic where
  | acquire
  | release
  | popcli
  | schedPtableLock (why : Why)
  | schedLocks (why : Why)
  | schedRunning (why : Why)
  | trap
  deriving DecidableEq, Repr

-- The call of `jmptohandler`. `chosen` is the process as the scan for the handler
-- found it and `stores` are the words written below its stack pointer.
structure Delivery where
  signum : Nat
  handler : Word
  cs : BitVec 16
  eflags : Word
  esp : Word
  ss : BitVec 16
  chosen : Proc
  stores : List (Nat × Word)

-- How kernel code is left without a return. A loop that is not followed to its end
-- runs out of fuel.
inductive Exit where
  | jmptohandler (caller : Caller) (delivery : Delivery)
  | restoreuser (context : Context)
  | exit
  | panic (panic : Panic)
  | deadlock
  | fuel

-- The current process and the CPU it runs on. `holding` is about `ptable.lock`.
-- `syscall` has the number of the system call from the call of `syscall()` to its return,
-- and `interrupt` is set while an interrupt gate keeps interrupts off. `console` says that
-- the lock of the console is in the hands of somebody who waits for `ptable.lock`.
-- No code reads the last four: whether a system call has passed its last test of `killed`,
-- whether a default action was taken since the last trap from user mode, the last signal
-- that another process has sent, and whether psig has returned since then.
structure Cpu where
  proc : Proc
  ncli : Nat
  holding : Bool
  syscall : Option Word
  interrupt : Bool
  ticks : Word
  console : Bool
  leaving : Bool
  defaulted : Bool
  sent : Option Nat
  answered : Bool

namespace Cpu

-- A CPU that runs this process in user mode.
def user (proc : Proc) : Cpu where
  proc := proc
  ncli := 0
  holding := false
  syscall := none
  interrupt := false
  ticks := 0
  console := false
  leaving := false
  defaulted := false
  sent := none
  answered := true

variable (cpu : Cpu)

def lock : Cpu := { cpu with ncli := cpu.ncli + 1, holding := true }

def unlock : Cpu := { cpu with ncli := cpu.ncli - 1, holding := false }

def update (change : Proc → Proc) : Cpu := { cpu with proc := change cpu.proc }

def clearPending (signum : Nat) : Cpu := cpu.update fun proc => proc.clearPending signum

def setState (state : Procstate) : Cpu := cpu.update fun proc => proc.setState state

def setDefaulted (defaulted : Bool) : Cpu := { cpu with defaulted }

end Cpu

abbrev Kernel := Program Cpu Point Exit

open Program

def update (change : Proc → Proc) : Kernel Unit := modify fun cpu => cpu.update change

def clearPending (signum : Nat) : Kernel Unit := modify fun cpu => cpu.clearPending signum

def setState (state : Procstate) : Kernel Unit := modify fun cpu => cpu.setState state

def acquire (site : Site) : Kernel Unit := do
  pause (.lock site)
  let cpu ← get
  if cpu.holding then leave (.panic .acquire) else modify Cpu.lock

def release : Kernel Unit := do
  let cpu ← get
  if !cpu.holding then leave (.panic .release)
  else if cpu.ncli = 0 then leave (.panic .popcli)
  else modify Cpu.unlock

-- Interrupts are off while a lock is held, so the last check of the source is not made
-- here. Once the process is RUNNABLE the scheduler sets it RUNNING and switches to it.
def sched (why : Why) : Kernel Unit := do
  let cpu ← get
  if !cpu.holding then leave (.panic (.schedPtableLock why))
  else if cpu.ncli ≠ 1 then leave (.panic (.schedLocks why))
  else if cpu.proc.state = .RUNNING then leave (.panic (.schedRunning why))
  else
    pause (.sched why)
    setState .RUNNING

-- `kill(p->pid)` called by the process itself: the entry found is its own.
def killSelf (site : Site) : Kernel Unit := do
  acquire site
  update Proc.kill
  release

def term : Kernel Unit := do
  release
  killSelf .termKill
  modify fun cpu => cpu.setDefaulted true
  acquire .term

-- It prints with `ptable.lock` held, and for that takes the lock of the console. consoleintr
-- and consoleread take the two locks the other way round.
def coredump : Kernel Unit := do
  let cpu ← get
  if cpu.console then leave .deadlock else pure ()

def core : Kernel Unit := do
  coredump
  release
  killSelf .coreKill
  modify fun cpu => cpu.setDefaulted true
  acquire .core

def stop (signum : Nat) : Kernel Unit := do
  setState .SLEEPING
  sched (.stop signum)

def stopsig : List Nat := [SIGSTOP, SIGTSTP, SIGTTIN, SIGTTOU]

def coresig : List Nat := [SIGQUIT, SIGABRT, SIGILL, SIGFPE, SIGSEGV]

def termsig : List Nat := [SIGHUP, SIGINT, SIGPIPE, SIGALRM, SIGTERM, SIGUSR1, SIGUSR2]

-- The first two loops of psig: the action is taken once, every signal is cleared.
def defaultLoop (action : Kernel Unit) (signals : List Nat) : Kernel Bool :=
  signals.foldlM (fun called signum => do
    let cpu ← get
    if cpu.proc.defaultDue signum then
      if called then clearPending signum
      else
        action
        clearPending signum
      pure true
    else pure called) false

def psigTerms : Kernel Bool := defaultLoop term termsig

def psigCores : Kernel Bool := defaultLoop core coresig

-- SIGSTOP can't be masked, ignored or handled.
def psigSigstop : Kernel Bool := do
  let cpu ← get
  if cpu.proc.pending SIGSTOP then
    stop SIGSTOP
    clearPending SIGSTOP
    pure true
  else pure false

def psigSigchld : Kernel Unit := do
  let cpu ← get
  if cpu.proc.defaultDue SIGCHLD then clearPending SIGCHLD else pure ()

-- One SIGCONT and one other signal that causes a stop cancel each other out.
def psigStopsigs (stopcalled : Bool) : Kernel Bool :=
  stopsig.foldlM (fun stopcalled signum => do
    let cpu ← get
    if cpu.proc.defaultDue signum && cpu.proc.defaultDue SIGCONT then
      clearPending SIGCONT
      clearPending signum
      pure stopcalled
    else if cpu.proc.defaultDue signum then
      if stopcalled then clearPending signum
      else
        stop signum
        clearPending signum
      pure true
    else pure stopcalled) stopcalled

def psigSigcont : Kernel Unit := do
  let cpu ← get
  if cpu.proc.defaultDue SIGCONT then
    update Proc.cont
    clearPending SIGCONT
  else pure ()

def psigStops : Kernel Unit := do
  let stopcalled ← psigSigstop
  psigSigchld
  let _ ← psigStopsigs stopcalled
  psigSigcont

-- The scan of psig over `userdefed`; it ends at 32 if no bit from 1 on is set.
def firstUserdefed (userdefed : Word) : Nat := ((List.range' 1 31).find? (Mask.has userdefed)).getD 32

-- The words in which psig saves a trapframe, each at its offset below the user stack pointer.
def Trapframe.saved (tf : Trapframe) : List (Nat × Word) :=
  [(4, tf.ss.setWidth 32), (8, tf.esp), (12, tf.eflags), (16, tf.cs.setWidth 32), (20, tf.eip),
    (24, tf.ds.setWidth 32), (28, tf.es.setWidth 32), (32, tf.fs.setWidth 32), (36, tf.gs.setWidth 32),
    (40, tf.eax), (44, tf.ecx), (48, tf.edx), (52, tf.ebx), (56, tf.oesp), (60, tf.ebp), (64, tf.esi),
    (68, tf.edi)]

-- All that psig writes, in order.
def frameStores (tf : Trapframe) (signum : Nat) (addrSigreturn : Word) : List (Nat × Word) :=
  tf.saved ++ [(72, BitVec.ofNat 32 signum), (76, addrSigreturn)]

def Proc.stores (proc : Proc) : List (Nat × Word) :=
  frameStores proc.tf (firstUserdefed proc.userdefed) proc.addrSigreturn

-- The process with the frame of its handler on the user stack.
def Proc.deliver (proc : Proc) : Proc :=
  { proc with
    memory := proc.memory.storeBelow proc.tf.esp proc.stores
    tf := { proc.tf with esp := proc.tf.esp - 76 }
    sigpending := Mask.clear proc.sigpending (firstUserdefed proc.userdefed) }

def Proc.delivery (proc : Proc) : Delivery where
  signum := firstUserdefed proc.userdefed
  handler := proc.handler (firstUserdefed proc.userdefed)
  cs := proc.deliver.tf.cs
  eflags := proc.deliver.tf.eflags
  esp := proc.deliver.tf.esp
  ss := proc.deliver.tf.ss
  chosen := proc
  stores := proc.stores

def psigHandlers (caller : Caller) : Kernel Int := do
  let cpu ← get
  if cpu.proc.userdefed = 0 then
    release
    pure 1
  else
    update Proc.deliver
    release
    leave (.jmptohandler caller cpu.proc.delivery)

def psig (caller : Caller) : Kernel Int := do
  acquire (.psig caller)
  let _ ← psigTerms
  let _ ← psigCores
  psigStops
  psigHandlers caller

-- What other processes and the clock do to the process and the CPU while it waits.
inductive Event where
  | Kill (signum : Nat)
  | kill
  | wakeup (chan : Chan)
  | reparent (parent : Option Slot)
  | tick
  | console (waiting : Bool)
  deriving DecidableEq, Repr

def Proc.env (proc : Proc) : Event → Proc
  | .Kill signum => proc.signalled signum
  | .kill => proc.kill
  | .wakeup chan => proc.wakeup chan
  | .reparent parent => { proc with parent }
  | .tick | .console _ => proc

def Cpu.env (cpu : Cpu) : Event → Cpu
  | .Kill signum => { cpu with proc := cpu.proc.signalled signum, sent := some signum, answered := false }
  | .kill => cpu.update Proc.kill
  | .wakeup chan => cpu.update fun proc => proc.wakeup chan
  | .reparent parent => cpu.update fun proc => { proc with parent }
  | .tick => { cpu with ticks := cpu.ticks + 1 }
  | .console waiting => { cpu with console := waiting }

end Xv6

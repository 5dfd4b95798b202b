import Xv6.Coop.Machine
import Xv6.Psig

namespace Xv6

open Program

def SYS_exit : Word := 2
def SYS_sleep : Word := 13
def SYS_sigreturn : Word := 27

-- What a system call does to its own process. None takes `killed` back.
structure Effect where
  change : Proc → Proc
  killed : ∀ proc, proc.killed = true → (change proc).killed = true

-- The pieces system calls are made of, as far as signals can tell: code without a lock,
-- a critical section of another lock, and a sleep.
inductive Op where
  | run (effect : Effect)
  | locked (effect : Effect)
  | sleep (chan : Chan)

-- A system call: the path it takes and what it returns. `sleep` has its argument, and a
-- bound on the times around its loop.
structure Call where
  ops : List Op
  result : Word
  argument : Word
  fuel : Nat

inductive Irq where
  | timer (cpu0 : Bool)
  | device (chan : Chan)
  | spurious
  deriving DecidableEq, Repr

inductive Trapno where
  | irq (irq : Irq)
  | fault
  deriving DecidableEq, Repr

-- The registers and the memory with which a program enters the kernel.
structure User where
  tf : Trapframe
  memory : Memory

inductive Entry where
  | syscall (user : User) (call : Call)
  | trap (user : User) (trapno : Trapno)

-- `acquire` and `release` of a lock other than `ptable.lock`.
def spin : Kernel Unit := do
  pause .spin
  modify fun cpu => { cpu with ncli := cpu.ncli + 1 }

def unspin : Kernel Unit := do
  let cpu ← get
  if cpu.ncli = 0 then leave (.panic .popcli) else modify fun cpu => { cpu with ncli := cpu.ncli - 1 }

-- `sleep(chan, lk)` with another lock `lk` held.
def sleep (chan : Chan) : Kernel Unit := do
  acquire .sleep
  unspin
  update fun proc => { proc with chan }
  setState .SLEEPING
  sched .sleep
  update fun proc => { proc with chan := .null }
  release
  spin

def yield : Kernel Unit := do
  acquire .yield
  setState .RUNNABLE
  sched .yield
  release

def wakeup (chan : Chan) : Kernel Unit := do
  acquire .wakeup
  update fun proc => proc.wakeup chan
  release

-- `exit` closes files with interrupts on. When it has taken `ptable.lock` it does not come back.
def exit : Kernel Unit := do
  pause .running
  leave .exit

-- `if(myproc() && issig(myproc())) psig(myproc());`
def checkSignals (caller : Caller) : Kernel Unit := do
  pause .running
  let cpu ← get
  if cpu.proc.issig = 0 then pure ()
  else
    let _ ← psig caller
    pure ()

def exitIfKilled : Kernel Unit := do
  pause .running
  let cpu ← get
  if cpu.proc.killed then exit else pure ()

def Op.exec : Op → Kernel Unit
  | .run effect => do
      pause .running
      update effect.change
  | .locked effect => do
      spin
      update effect.change
      unspin
  | .sleep chan => do
      spin
      Xv6.sleep chan
      unspin

def execOps : List Op → Kernel Unit
  | [] => pure ()
  | op :: rest => do
      op.exec
      execOps rest

-- One test of the loop of `sys_sleep`, with what it does if it goes around again.
def sleepTurn (ticks0 argument : Word) (again : Kernel Unit) : Kernel Unit := do
  pause .running
  let cpu ← get
  if cpu.ticks - ticks0 < argument then
    if cpu.proc.killed then unspin else again
  else
    checkSignals .sleep
    unspin

def sleepLoop (ticks0 argument : Word) : Nat → Kernel Unit
  | 0 => sleepTurn ticks0 argument (leave .fuel)
  | fuel + 1 => sleepTurn ticks0 argument do
      checkSignals .sleep
      sleep .ticks
      sleepLoop ticks0 argument fuel

def sysSleep (call : Call) : Kernel Unit := do
  spin
  let cpu ← get
  sleepLoop cpu.ticks call.argument call.fuel

def sysSigreturnCall : Kernel Unit := do
  pause .running
  let cpu ← get
  leave (.restoreuser (sysSigreturn cpu.proc).2)

-- `syscalls[num]()`
def dispatch (num : Word) (call : Call) : Kernel Unit :=
  if num = SYS_sleep then sysSleep call
  else if num = SYS_sigreturn then sysSigreturnCall
  else if num = SYS_exit then exit
  else execOps call.ops

def syscall (call : Call) : Kernel Unit := do
  let cpu ← get
  let num := cpu.proc.tf.eax
  modify fun cpu => { cpu with syscall := some num }
  dispatch num call
  modify fun cpu =>
    { cpu with
      proc := { cpu.proc with tf := { cpu.proc.tf with eax := call.result } }
      syscall := none }

-- `trap` for T_SYSCALL. The gate leaves interrupts on, also on the way back to user mode.
def trapSyscall (call : Call) : Kernel Unit := do
  exitIfKilled
  syscall call
  checkSignals .syscall
  exitIfKilled
  modify fun cpu => { cpu with leaving := true }
  pause .running

-- The first half of `trap` for everything else.
def handleTrap (user : Bool) : Trapno → Kernel Unit
  | .irq (.timer cpu0) =>
    if cpu0 then do
      spin
      modify fun cpu => { cpu with ticks := cpu.ticks + 1 }
      wakeup .ticks
      unspin
    else pure ()
  | .irq (.device chan) => do
      spin
      wakeup chan
      unspin
  | .irq .spurious => pure ()
  | .fault =>
    if user then update fun proc => { proc with killed := true }
    else leave (.panic .trap)

def yieldOnTick : Trapno → Kernel Unit
  | .irq (.timer _) => do
      pause .running
      let cpu ← get
      if cpu.proc.state = .RUNNING then yield else pure ()
  | _ => pure ()

-- A process that was killed while it is in the kernel keeps running until it returns.
def exitFromUser (user : Bool) : Kernel Unit := if user then exitIfKilled else pure ()

-- `user` says whether the trap was taken in user mode.
def trapOther (user : Bool) (trapno : Trapno) : Kernel Unit := do
  handleTrap user trapno
  exitFromUser user
  yieldOnTick trapno
  exitFromUser user
  checkSignals (.interrupt user)

-- All traps from user mode leave their registers at the same place, where `tf` points.
def enter (user : User) (interrupt : Bool) : Kernel Unit := modify fun cpu =>
  { cpu with
    proc := { cpu.proc with tf := user.tf, memory := user.memory }
    syscall := none
    interrupt := interrupt
    leaving := false
    defaulted := false }

def setInterrupt (interrupt : Bool) : Kernel Unit := modify fun cpu => { cpu with interrupt }

def kernel : System Cpu Point Exit Event Entry Irq where
  env event cpu := cpu.env event
  entry
    | .syscall user call => do
        enter user false
        trapSyscall call
    | .trap user trapno => do
        enter user true
        trapOther true trapno
        setInterrupt false
  interrupt irq := do
    setInterrupt true
    trapOther false (.irq irq)
    setInterrupt false
  enabled point cpu := match point with
    | .sched _ => false
    | _ => cpu.ncli == 0 && !cpu.interrupt
  ready point cpu := match point with
    | .sched _ => cpu.proc.state == .RUNNABLE
    | _ => true
  final
    | .exit | .panic _ | .deadlock | .fuel => true
    | .jmptohandler _ _ | .restoreuser _ => false

end Xv6

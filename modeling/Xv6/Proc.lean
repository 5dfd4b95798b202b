import Xv6.Mask

namespace Xv6

abbrev NPROC : Nat := 64
abbrev NUMSIG : Nat := 32
abbrev CURRNUM : Nat := 22

instance : NeZero NUMSIG := ⟨by decide⟩

instance : NeZero NPROC := ⟨by decide⟩

abbrev SIGHUP : Nat := 1
abbrev SIGINT : Nat := 2
abbrev SIGQUIT : Nat := 3
abbrev SIGILL : Nat := 4
abbrev SIGABRT : Nat := 6
abbrev SIGFPE : Nat := 8
abbrev SIGKILL : Nat := 9
abbrev SIGUSR1 : Nat := 10
abbrev SIGSEGV : Nat := 11
abbrev SIGUSR2 : Nat := 12
abbrev SIGPIPE : Nat := 13
abbrev SIGALRM : Nat := 14
abbrev SIGTERM : Nat := 15
abbrev SIGCHLD : Nat := 17
abbrev SIGCONT : Nat := 18
abbrev SIGSTOP : Nat := 19
abbrev SIGTSTP : Nat := 20
abbrev SIGTTIN : Nat := 21
abbrev SIGTTOU : Nat := 22

-- Handlers are user addresses. Three values are not addresses but requests or an error.
def SIG_DFL : Word := 0
def SIG_IGN : Word := 1
def SIG_ERR : Word := -1

def DPL_USER : BitVec 16 := 3
def FL_IF : Word := 0x200
def SEG_UCODE : BitVec 16 := 3
def SEG_UDATA : BitVec 16 := 4
def PGSIZE : Word := 4096

inductive Procstate where
  | UNUSED | EMBRYO | SLEEPING | RUNNABLE | RUNNING | ZOMBIE
  deriving DecidableEq, Repr

inductive Disposition where
  | DFL | IGN | USERDEF
  deriving DecidableEq, Repr

structure Handlerinfo where
  disposition : Disposition
  handler : Word
  deriving DecidableEq, Repr

-- The padding words between the segment registers are left out.
structure Trapframe where
  edi : Word
  esi : Word
  ebp : Word
  oesp : Word
  ebx : Word
  edx : Word
  ecx : Word
  eax : Word
  gs : BitVec 16
  fs : BitVec 16
  es : BitVec 16
  ds : BitVec 16
  trapno : Word
  err : Word
  eip : Word
  cs : BitVec 16
  eflags : Word
  esp : Word
  ss : BitVec 16
  deriving DecidableEq, Repr

def Trapframe.zero : Trapframe where
  edi := 0
  esi := 0
  ebp := 0
  oesp := 0
  ebx := 0
  edx := 0
  ecx := 0
  eax := 0
  gs := 0
  fs := 0
  es := 0
  ds := 0
  trapno := 0
  err := 0
  eip := 0
  cs := 0
  eflags := 0
  esp := 0
  ss := 0

abbrev Slot := Fin NPROC

-- What a process sleeps on: nothing, a table slot (the parent in `wait`), `&ticks` or
-- another address.
inductive Chan where
  | null
  | proc (slot : Slot)
  | ticks
  | address (address : Word)
  deriving DecidableEq, Repr

-- `memory` is the address space that `pgdir` maps. `kstack` says whether a kernel
-- stack is allocated; the trapframe lies on it.
structure Proc where
  sz : Word
  memory : Memory
  kstack : Bool
  state : Procstate
  pid : Int
  parent : Option Slot
  tf : Trapframe
  chan : Chan
  killed : Bool
  sigpending : Word
  sigblocked : Word
  userdefed : Word
  allinfo : Fin NUMSIG → Handlerinfo
  justwoken : Bool
  addrSigreturn : Word

namespace Proc

-- An entry of the table before its first use: the table starts out as zeroes.
def zero : Proc where
  sz := 0
  memory := fun _ => 0
  kstack := false
  state := .UNUSED
  pid := 0
  parent := none
  tf := .zero
  chan := .null
  killed := false
  sigpending := 0
  sigblocked := 0
  userdefed := 0
  allinfo := fun _ => ⟨.DFL, 0⟩
  justwoken := false
  addrSigreturn := 0

section

variable (proc : Proc)

def disposition (signum : Nat) : Disposition := (proc.allinfo (Fin.ofNat NUMSIG signum)).disposition

-- `p->allinfo[i].handler`. One entry past the table lie `justwoken` and `addr_sigreturn`.
def handler (signum : Nat) : Word :=
  if signum < NUMSIG then (proc.allinfo (Fin.ofNat NUMSIG signum)).handler else proc.addrSigreturn

def pending (signum : Nat) : Bool := Mask.has proc.sigpending signum

def blocked (signum : Nat) : Bool := Mask.has proc.sigblocked signum

def issig : Word := proc.sigpending &&& ~~~proc.sigblocked

def clearPending (signum : Nat) : Proc :=
  { proc with sigpending := Mask.clear proc.sigpending signum }

def setPending (signum : Nat) : Proc :=
  { proc with sigpending := Mask.set proc.sigpending signum }

def setState (state : Procstate) : Proc := { proc with state }

-- A process that can run or wait to do so.
def Live : Prop := proc.state ∈ [.SLEEPING, .RUNNABLE, .RUNNING]

end

instance (proc : Proc) : Decidable proc.Live := inferInstanceAs (Decidable (_ ∈ _))

variable (proc : Proc)

-- The test psig makes before it takes the default action of a signal.
def defaultDue (signum : Nat) : Bool :=
  proc.pending signum && !proc.blocked signum && proc.disposition signum == .DFL

-- What `kill` does to the entry it finds.
def kill : Proc :=
  { proc with
    killed := true
    state := if proc.state = .SLEEPING then .RUNNABLE else proc.state }

-- What `wakeup1` does to each entry.
def wakeup (chan : Chan) : Proc :=
  if proc.state = .SLEEPING ∧ proc.chan = chan then
    { proc with state := .RUNNABLE, justwoken := true }
  else proc

-- Also the first half of what `Kill` does for SIGCONT.
def cont : Proc :=
  if proc.state = .SLEEPING then { proc with state := .RUNNABLE, justwoken := true } else proc

-- What `Kill` does to an entry it signals, for every signal but SIGKILL.
def receive (signum : Nat) : Proc :=
  if signum = SIGCHLD ∧ proc.disposition SIGCHLD = .DFL then proc
  else if signum = SIGCONT then
    if proc.disposition SIGCONT ≠ .DFL ∧ proc.disposition SIGCONT ≠ .IGN then
      proc.cont.setPending signum
    else proc.cont
  else if proc.disposition signum ≠ .IGN ∧ signum ≠ 0 then proc.setPending signum
  else proc

-- What `Kill(pid, signum)` does to the entry it finds.
def signalled (signum : Nat) : Proc :=
  if signum = 0 ∨ CURRNUM < signum then proc
  else if signum = SIGKILL then proc.kill
  else proc.receive signum

end Proc

end Xv6

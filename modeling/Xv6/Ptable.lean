import Mathlib.Logic.Function.Basic
import Xv6.Proc

namespace Xv6

-- `ptable.proc` with the two variables next to it. Where another process is pointed
-- to, the pointer is its slot.
structure Ptable where
  proc : Slot → Proc
  nextpid : Int
  initproc : Option Slot

-- What `exec` has loaded when it commits to a new image.
structure Loaded where
  sz : Word
  entry : Word
  sp : Word
  memory : Memory

def Chan.ofProc : Option Slot → Chan
  | none => .null
  | some slot => .proc slot

namespace Proc

section

variable (proc : Proc)

-- What a call of `signal` returns: how the signal was dealt with up to now.
def prev (signum : Nat) : Word :=
  match proc.disposition signum with
  | .USERDEF => proc.handler signum
  | .IGN => SIG_IGN
  | .DFL => SIG_DFL

-- `signal` with SIG_IGN or SIG_DFL. The one return address goes, whatever signal this is.
def reset (signum : Nat) (disposition : Disposition) : Proc :=
  { proc with
    addrSigreturn := 0
    userdefed := if proc.disposition signum = .USERDEF then Mask.clear proc.userdefed signum else proc.userdefed
    allinfo := Function.update proc.allinfo (Fin.ofNat NUMSIG signum)
      { proc.allinfo (Fin.ofNat NUMSIG signum) with disposition } }

-- `signal` with a handler.
def install (returnfn : Word) (signum : Nat) (handler : Word) : Proc :=
  { proc with
    addrSigreturn := returnfn
    userdefed := Mask.set proc.userdefed signum
    allinfo := Function.update proc.allinfo (Fin.ofNat NUMSIG signum) ⟨.USERDEF, handler⟩ }

-- `signal(returnfn, signum, handler)` for the current process.
def signal (returnfn : Word) (signum : Int) (handler : Word) : Proc × Word :=
  if signum ≤ 0 ∨ CURRNUM < signum then (proc, SIG_ERR)
  else if signum = SIGKILL ∨ signum = SIGSTOP then (proc, SIG_ERR)
  else if handler = SIG_IGN then (proc.reset signum.toNat .IGN, proc.prev signum.toNat)
  else if handler = SIG_DFL then (proc.reset signum.toNat .DFL, proc.prev signum.toNat)
  else (proc.install returnfn signum.toNat handler, proc.prev signum.toNat)

def siggetmask : Word := proc.sigblocked

def sigsetmask (mask : Word) : Proc × Word :=
  if Mask.has mask SIGKILL ∨ Mask.has mask SIGSTOP ∨ Mask.has mask SIGCONT then (proc, 0)
  else if Mask.has mask 0 then (proc, 0)
  else ({ proc with sigblocked := mask }, mask)

def sigblock (sig : Int) : Proc × Word :=
  if sig ≤ 0 ∨ CURRNUM < sig then (proc, -1)
  else if sig = SIGKILL ∨ sig = SIGSTOP ∨ sig = SIGCONT then (proc, 0)
  else proc.sigsetmask (Mask.set proc.siggetmask sig.toNat)

def sigunblock (sig : Int) : Proc × Word :=
  if sig ≤ 0 ∨ CURRNUM < sig then (proc, -1)
  else if sig = SIGKILL ∨ sig = SIGSTOP then (proc, 0)
  else proc.sigsetmask (Mask.clear proc.siggetmask sig.toNat)

-- The part of `exec` that commits. `userdefed` and `addr_sigreturn` are not touched.
def exec (loaded : Loaded) : Proc :=
  { proc with
    memory := loaded.memory
    sz := loaded.sz
    tf := { proc.tf with eip := loaded.entry, esp := loaded.sp }
    allinfo := fun index =>
      if (proc.allinfo index).disposition = .IGN then proc.allinfo index
      else { proc.allinfo index with disposition := .DFL } }

end

-- What `fork` fills into the entry it has got; `addr_sigreturn` is not copied.
def copyFrom (child cur : Proc) (me : Slot) : Proc :=
  { child with
    memory := cur.memory
    sz := cur.sz
    parent := some me
    tf := { cur.tf with eax := 0 }
    sigblocked := cur.sigblocked
    userdefed := cur.userdefed
    allinfo := cur.allinfo }

-- What `wait` leaves of a child it has found; `allinfo` and `addr_sigreturn` stay.
def freed (proc : Proc) : Proc :=
  { proc with
    kstack := false
    pid := 0
    parent := none
    killed := false
    justwoken := false
    sigblocked := 0
    sigpending := 0
    userdefed := 0
    state := .UNUSED }

-- The entry of the first process, as `userinit` fills it in.
def initcode (proc : Proc) (memory : Memory) : Proc :=
  { proc with
    sigblocked := 0
    userdefed := 0
    allinfo := fun index => { proc.allinfo index with disposition := .DFL }
    memory := memory
    sz := PGSIZE
    tf :=
      { Trapframe.zero with
        cs := SEG_UCODE <<< 3 ||| DPL_USER
        ds := SEG_UDATA <<< 3 ||| DPL_USER
        es := SEG_UDATA <<< 3 ||| DPL_USER
        ss := SEG_UDATA <<< 3 ||| DPL_USER
        eflags := FL_IF
        esp := PGSIZE }
    state := .RUNNABLE }

end Proc

namespace Ptable

def slots : List Slot := List.finRange NPROC

-- The table starts out as zeroes.
def zero : Ptable := ⟨fun _ => .zero, 1, none⟩

section

variable (table : Ptable)

def update (slot : Slot) (change : Proc → Proc) : Ptable :=
  { table with proc := Function.update table.proc slot (change (table.proc slot)) }

def wakeup1 (chan : Chan) : Ptable :=
  { table with proc := fun slot => (table.proc slot).wakeup chan }

def unused : Option Slot := slots.find? fun slot => (table.proc slot).state = .UNUSED

-- `kalloc` says whether there is a page for the kernel stack.
def allocproc (kalloc : Bool) : Ptable × Option Slot :=
  match table.unused with
  | none => (table, none)
  | some slot =>
    let table :=
      { table.update slot fun proc => { proc with state := .EMBRYO, pid := table.nextpid } with
        nextpid := table.nextpid + 1 }
    if kalloc then
      (table.update slot fun proc => { proc with kstack := true, sigpending := 0, justwoken := false },
        some slot)
    else (table.update slot fun proc => { proc with kstack := false, state := .UNUSED }, none)

-- There is always a free entry for the first process.
def userinit (memory : Memory) : Option Ptable :=
  match table.allocproc true with
  | (_, none) => none
  | (table, some slot) => some { table.update slot (Proc.initcode · memory) with initproc := some slot }

-- `copyuvm` says whether there is memory for a copy of the address space.
def fork (me : Slot) (kalloc copyuvm : Bool) : Ptable × Int :=
  match table.allocproc kalloc with
  | (table, none) => (table, -1)
  | (table, some np) =>
    if copyuvm then
      let cur := table.proc me
      (table.update np fun proc => (proc.copyFrom cur me).setState .RUNNABLE, (table.proc np).pid)
    else (table.update np fun proc => { proc with kstack := false, state := .UNUSED }, -1)

-- The entry of the child, if `fork` succeeds.
def child (kalloc copyuvm : Bool) : Option Slot :=
  if kalloc && copyuvm then table.unused else none

end

-- The loop of `exit` over the table, for one entry.
def abandon (me : Slot) (table : Ptable) (slot : Slot) : Ptable :=
  if (table.proc slot).parent = some me then
    let table := table.update slot fun proc => { proc with parent := table.initproc }
    if (table.proc slot).state = .ZOMBIE then table.wakeup1 (.ofProc table.initproc) else table
  else table

-- The first process does not exit: the kernel panics.
def exit (table : Ptable) (me : Slot) : Option Ptable :=
  if table.initproc = some me then none
  else
    let table := table.wakeup1 (.ofProc (table.proc me).parent)
    let table := slots.foldl (abandon me) table
    some (table.update me (Proc.setState · .ZOMBIE))

inductive Waited where
  | found (pid : Int)
  | none
  | sleeps
  deriving DecidableEq, Repr

-- One turn of the loop of `wait`.
def wait (table : Ptable) (me : Slot) : Ptable × Waited :=
  match slots.find? fun slot => (table.proc slot).parent = some me ∧ (table.proc slot).state = .ZOMBIE with
  | some slot => (table.update slot Proc.freed, .found (table.proc slot).pid)
  | none =>
    if !(slots.any fun slot => (table.proc slot).parent = some me) || (table.proc me).killed then (table, .none)
    else (table.update me fun proc => { proc with chan := .proc me, state := .SLEEPING }, .sleeps)

def kill (table : Ptable) (pid : Int) : Ptable × Int :=
  match slots.find? fun slot => (table.proc slot).pid = pid with
  | none => (table, -1)
  | some slot => (table.update slot Proc.kill, 0)

-- What `Kill` does under the lock to an entry it has found. For SIGKILL it looks for
-- the entry once more.
def signalOne (table : Ptable) (slot : Slot) (sig : Nat) : Ptable :=
  if sig = SIGKILL then (table.kill (table.proc slot).pid).1 else table.update slot (Proc.receive · sig)

-- The privilege level in the trapframe of an entry. Without a kernel stack `tf` points
-- to memory that is no longer a trapframe, or nowhere, and the field read is any value.
def privilege (table : Ptable) (stale : Slot → BitVec 16) (slot : Slot) : BitVec 16 :=
  (if (table.proc slot).kstack then (table.proc slot).tf.cs else stale slot) &&& DPL_USER

-- The loop of `Kill` over these entries.
def killScan (stale : Slot → BitVec 16) (me : Slot) (pid : Int) (sig : Nat) (table : Ptable) : List Slot → Ptable
  | [] => table
  | slot :: rest =>
    if (table.proc slot).pid = 1 then table.killScan stale me pid sig rest
    else if pid = -1 ∨ (table.proc slot).pid = pid then
      if table.privilege stale slot ≠ 3 ∧ table.privilege stale me = 3 then
        if pid = -1 then table.killScan stale me pid sig rest else table
      else
        let table := table.signalOne slot sig
        if pid = -1 then table.killScan stale me pid sig rest else table
    else table.killScan stale me pid sig rest

variable (table : Ptable) (stale : Slot → BitVec 16) (me : Slot)

def Kill (pid sig : Int) : Ptable × Int :=
  if sig ≤ 0 ∨ CURRNUM < sig then (table, -1)
  else if pid = 1 ∨ pid = 0 ∨ pid < -1 then (table, 0)
  else (table.killScan stale me pid sig.toNat slots, 0)

def raise (sig : Int) : Ptable × Int :=
  table.Kill stale me (table.proc me).pid sig

end Ptable

end Xv6

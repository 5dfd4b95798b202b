import Xv6.Memory
import Xv6.Monitor

namespace Xv6

def LOGSIZE : Nat := 30

def MAXOPBLOCKS : Nat := 10

-- The first n entries of the block array, which has LOGSIZE.
structure Logheader where
  block : List Word
  bound : block.length ≤ LOGSIZE
  deriving DecidableEq

namespace Logheader

def n (lh : Logheader) : Int := lh.block.length

def empty : Logheader := ⟨[], Nat.zero_le _⟩

end Logheader

structure Log where
  start : Word
  size : Int
  outstanding : Int
  committing : Bool
  lh : Logheader
  deriving DecidableEq

-- `overrun` is not a panic of the source: it stands for the store to block[LOGSIZE].
inductive LogPanic where
  | tooBig
  | outside
  | committing
  | overrun
  deriving DecidableEq

namespace Log

variable (log : Log)

-- The body of the loop of begin_op. There is no result where it sleeps.
def beginOp : Option Log :=
  if log.committing then none
  else if log.lh.n + (log.outstanding + 1) * MAXOPBLOCKS > LOGSIZE then none
  else some { log with outstanding := log.outstanding + 1 }

-- The checks of log_write come before it takes the lock.
def logWriteCheck : Option LogPanic :=
  if log.lh.n ≥ LOGSIZE ∨ log.lh.n ≥ log.size - 1 then some .tooBig
  else if log.outstanding < 1 then some .outside
  else none

def logWrite (blockno : Word) : Except LogPanic Log :=
  if blockno ∈ log.lh.block then .ok log
  else if h : log.lh.block.length < LOGSIZE then
    .ok { log with lh := ⟨log.lh.block ++ [blockno], by simpa [Nat.succ_le_iff] using h⟩ }
  else .error .overrun

-- The first critical section of end_op, with its do_commit.
def endOp : Except LogPanic (Log × Bool) :=
  if log.committing then .error .committing
  else if log.outstanding - 1 = 0 then
    .ok ({ log with outstanding := log.outstanding - 1, committing := true }, true)
  else .ok ({ log with outstanding := log.outstanding - 1 }, false)

def clear : Log := { log with lh := .empty }

end Log

-- A block that an operation has passed to log_write, before the commit of this number.
structure Logged where
  op : Nat
  block : Word
  commit : Nat
  deriving DecidableEq

-- `header` is what the header block on the disk says. The last three fields are history:
-- the commits so far, the number of operations so far and what they have logged.
structure Journal where
  log : Log
  header : List Word
  commits : List (List Word)
  ops : Nat
  logged : List Logged

-- The calls of commit, which it makes without the lock.
inductive CommitStage where
  | writeLog
  | writeHead
  | installTrans
  | clear
  | eraseHead
  deriving DecidableEq

-- Where a process is: in the loop of begin_op, between begin_op and end_op, in log_write
-- past its checks, in commit, or in end_op after commit has returned.
inductive LogPlace where
  | idle
  | beginOp
  | op (op : Nat)
  | logWrite (op : Nat) (block : Word)
  | commit
  | committing (stage : CommitStage)
  | committed
  deriving DecidableEq

inductive LogChoice where
  | beginOp
  | logWrite (block : Word)
  | endOp
  | proceed
  deriving DecidableEq

namespace LogPlace

def inOp : LogPlace → Option Nat
  | .op number | .logWrite number _ => some number
  | _ => none

def inCommit : LogPlace → Bool
  | .commit | .committing _ | .committed => true
  | _ => false

end LogPlace

namespace Journal

-- Processes sleep on the address of the log alone, so one channel is enough.
abbrev Result := Option (Outcome Journal LogPlace Unit LogPanic)

section

variable (journal : Journal)

def goes (place : LogPlace) : Result := some (.turn ⟨journal, place, none, []⟩)

def beginOp : Result :=
  match journal.log.beginOp with
  | none => some (.turn ⟨journal, .beginOp, some (), []⟩)
  | some log => { journal with log, ops := journal.ops + 1 }.goes (.op journal.ops)

def logWriteCheck (op : Nat) (block : Word) : Result :=
  match journal.log.logWriteCheck with
  | some panic => some (.panic panic)
  | none => journal.goes (.logWrite op block)

def logWrite (op : Nat) (block : Word) : Result :=
  match journal.log.logWrite block with
  | .error panic => some (.panic panic)
  | .ok log =>
    { journal with log, logged := ⟨op, block, journal.commits.length⟩ :: journal.logged }.goes (.op op)

def endOp : Result :=
  match journal.log.endOp with
  | .error panic => some (.panic panic)
  | .ok (log, true) => { journal with log }.goes .commit
  | .ok (log, false) => some (.turn ⟨{ journal with log }, .idle, none, [()]⟩)

def commit : Result :=
  if journal.log.lh.n > 0 then journal.goes (.committing .writeLog)
  else { journal with commits := journal.commits ++ [[]] }.goes .committed

-- The blocks of a commit are those in the header that it writes.
def committing : CommitStage → Result
  | .writeLog => journal.goes (.committing .writeHead)
  | .writeHead =>
    { journal with header := journal.log.lh.block, commits := journal.commits ++ [journal.log.lh.block] }.goes
      (.committing .installTrans)
  | .installTrans => journal.goes (.committing .clear)
  | .clear => { journal with log := journal.log.clear }.goes (.committing .eraseHead)
  | .eraseHead => { journal with header := journal.log.lh.block }.goes .committed

def committed : Result :=
  some (.turn ⟨{ journal with log := { journal.log with committing := false } }, .idle, none, [()]⟩)

def turn : LogChoice → LogPlace → Result
  | .beginOp, .idle | .proceed, .beginOp => journal.beginOp
  | .logWrite block, .op op => journal.logWriteCheck op block
  | .proceed, .logWrite op block => journal.logWrite op block
  | .endOp, .op _ => journal.endOp
  | .proceed, .commit => journal.commit
  | .proceed, .committing stage => journal.committing stage
  | .proceed, .committed => journal.committed
  | _, _ => none

end

-- As initlog leaves it.
structure Starts {Process : Type} (journal : Journal) (place : Process → LogPlace) : Prop where
  outstanding : journal.log.outstanding = 0
  committing : journal.log.committing = false
  lh : journal.log.lh = .empty
  header : journal.header = []
  commits : journal.commits = []
  logged : journal.logged = []
  place (process : Process) : place process = .idle

end Journal

-- Any number of processes that run begin_op, log_write and end_op over and over.
def logging (Process : Type) : Monitor Process Journal LogPlace Unit LogChoice Empty LogPanic where
  turn _ choice place journal := journal.turn choice place
  event event _ := event.elim

end Xv6

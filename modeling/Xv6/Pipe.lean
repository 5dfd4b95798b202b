import Xv6.Memory
import Xv6.Ring
import Xv6.Monitor

namespace Xv6

abbrev PIPESIZE : Nat := 512

instance : NeZero PIPESIZE := ⟨by decide⟩

structure Pipe where
  data : Fin PIPESIZE → Byte
  nread : Word
  nwrite : Word
  readopen : Bool
  writeopen : Bool

namespace Pipe

def ring (p : Pipe) : Ring PIPESIZE 32 Byte := ⟨p.data, p.nread, p.nwrite⟩

def empty (p : Pipe) : Bool := p.nread = p.nwrite

def full (p : Pipe) : Bool := p.nwrite = p.nread + BitVec.ofNat 32 PIPESIZE

def store (p : Pipe) (byte : Byte) : Pipe :=
  { p with
    data := Function.update p.data (Fin.ofNat PIPESIZE p.nwrite.toNat) byte
    nwrite := p.nwrite + 1 }

-- The loop of pipewrite, up to the byte that finds the pipe full.
def fill (p : Pipe) : List Byte → Pipe × List Byte
  | [] => (p, [])
  | byte :: rest => if p.full then (p, byte :: rest) else (p.store byte).fill rest

-- The second loop of piperead.
def drain (p : Pipe) : Nat → Pipe × List Byte
  | 0 => (p, [])
  | n + 1 =>
    if p.empty then (p, [])
    else
      let byte := p.data (Fin.ofNat PIPESIZE p.nread.toNat)
      let (last, bytes) := { p with nread := p.nread + 1 }.drain n
      (last, byte :: bytes)

def pipealloc (data : Fin PIPESIZE → Byte) : Pipe := ⟨data, 0, 0, true, true⟩

end Pipe

inductive PipeChan where
  | nread
  | nwrite
  deriving DecidableEq

-- In pipewrite with these bytes still to store, in piperead, or in pipeclose after fileclose has
-- dropped the last reference to that end.
inductive PipeDoing where
  | idle
  | pipewrite (rest : List Byte)
  | piperead (n : Int)
  | pipeclose (writable : Bool)

-- Which ends the process has open.
structure PipePlace where
  doing : PipeDoing
  reads : Bool
  writes : Bool

inductive PipeChoice where
  | pipewrite (addr : List Byte)
  | piperead (n : Int)
  | fileclose (writable : Bool)
  | filedup (writable : Bool)
  | proceed

-- `readers` and `writers` are the processes that have an end open. What pipewrite has stored and
-- piperead has returned, in the order of the lock, is history.
structure Piped (Process : Type) where
  pipe : Pipe
  killed : Process → Bool
  readers : Int
  writers : Int
  stored : List Byte
  taken : List Byte

namespace Piped

variable {Process : Type}

abbrev Result (Process : Type) := Option (Outcome (Piped Process) PipePlace PipeChan Empty)

section

variable (piped : Piped Process)

-- There is no wakeup where it returns -1, even if it has stored bytes before.
def pipewrite (me : Process) (place : PipePlace) (addr : List Byte) : Result Process :=
  let (pipe, rest) := piped.pipe.fill addr
  let piped := { piped with pipe, stored := piped.stored ++ addr.take (addr.length - rest.length) }
  if rest.isEmpty then some (.turn ⟨piped, { place with doing := .idle }, none, [.nread]⟩)
  else if !pipe.readopen || piped.killed me then some (.turn ⟨piped, { place with doing := .idle }, none, []⟩)
  else some (.turn ⟨piped, { place with doing := .pipewrite rest }, some .nwrite, [.nread]⟩)

def piperead (me : Process) (place : PipePlace) (n : Int) : Result Process :=
  if piped.pipe.empty && piped.pipe.writeopen then
    if piped.killed me then some (.turn ⟨piped, { place with doing := .idle }, none, []⟩)
    else some (.turn ⟨piped, { place with doing := .piperead n }, some .nread, []⟩)
  else
    let (pipe, bytes) := piped.pipe.drain n.toNat
    some (.turn ⟨{ piped with pipe, taken := piped.taken ++ bytes }, { place with doing := .idle }, none, [.nwrite]⟩)

-- When both ends are closed the page is freed: nobody has an end open then.
def pipeclose (place : PipePlace) : Bool → Result Process
  | true =>
    some (.turn ⟨{ piped with pipe := { piped.pipe with writeopen := false } }, { place with doing := .idle }, none,
      [.nread]⟩)
  | false =>
    some (.turn ⟨{ piped with pipe := { piped.pipe with readopen := false } }, { place with doing := .idle }, none,
      [.nwrite]⟩)

-- The process drops its last reference to that end, under another lock than the pipe's, which
-- protects nothing that this touches. The last of all goes on with pipeclose.
def fileclose (place : PipePlace) : Bool → Result Process
  | true =>
    if place.writes then
      some (.turn ⟨{ piped with writers := piped.writers - 1 },
        { place with writes := false, doing := if piped.writers - 1 > 0 then .idle else .pipeclose true }, none, []⟩)
    else none
  | false =>
    if place.reads then
      some (.turn ⟨{ piped with readers := piped.readers - 1 },
        { place with reads := false, doing := if piped.readers - 1 > 0 then .idle else .pipeclose false }, none, []⟩)
    else none

-- In fork: the process gets an end that somebody else has open.
def filedup (place : PipePlace) : Bool → Result Process
  | true =>
    if !place.writes ∧ piped.writers ≥ 1 then
      some (.turn ⟨{ piped with writers := piped.writers + 1 }, { place with writes := true }, none, []⟩)
    else none
  | false =>
    if !place.reads ∧ piped.readers ≥ 1 then
      some (.turn ⟨{ piped with readers := piped.readers + 1 }, { place with reads := true }, none, []⟩)
    else none

def turn (me : Process) (place : PipePlace) :
    PipeChoice → PipeDoing → Result Process
  | .pipewrite addr, .idle => if place.writes then piped.pipewrite me place addr else none
  | .proceed, .pipewrite rest => piped.pipewrite me place rest
  | .piperead n, .idle => if place.reads then piped.piperead me place n else none
  | .proceed, .piperead n => piped.piperead me place n
  | .fileclose writable, .idle => piped.fileclose place writable
  | .proceed, .pipeclose writable => piped.pipeclose place writable
  | .filedup writable, .idle => piped.filedup place writable
  | _, _ => none

end

-- A new pipe, whose ends any processes have open.
structure Starts (piped : Piped Process) (place : Process → PipePlace) : Prop where
  pipe : ∃ data, piped.pipe = .pipealloc data
  stored : piped.stored = []
  taken : piped.taken = []
  doing (process : Process) : (place process).doing = .idle
  readers : Monitor.Count place (fun place => place.reads) piped.readers
  writers : Monitor.Count place (fun place => place.writes) piped.writers

end Piped

-- Any number of processes that read, write and close a pipe. They may be marked as killed at any
-- moment, without a lock of the pipe.
def pipes (Process : Type) [DecidableEq Process] :
    Monitor Process (Piped Process) PipePlace PipeChan PipeChoice Process Empty where
  turn me choice place piped := piped.turn me place choice place.doing
  event victim piped := some (.turn ⟨{ piped with killed := Function.update piped.killed victim true }, (), none, []⟩)

end Xv6

import Xv6.Memory
import Xv6.Monitor

namespace Xv6

open Function

def FSSIZE : Nat := 1000

-- No process has pid 0, which is what a free lock has.
structure Sleeplock (Process : Type) where
  locked : Bool
  pid : Option Process

namespace Sleeplock

variable {Process : Type} [DecidableEq Process]

-- The body of the loop of acquiresleep. There is no result where it sleeps.
def acquiresleep (lk : Sleeplock Process) (me : Process) : Option (Sleeplock Process) :=
  if lk.locked then none else some ⟨true, some me⟩

def releasesleep (_lk : Sleeplock Process) : Sleeplock Process := ⟨false, none⟩

def holdingsleep (lk : Sleeplock Process) (me : Process) : Bool := lk.locked && lk.pid = some me

end Sleeplock

inductive IdePanic where
  | brelse
  | bwrite
  | notLocked
  | nothingToDo
  | noDisk1
  | incorrectBlockno
  deriving DecidableEq

structure Buf (Data : Type) where
  valid : Bool
  dirty : Bool
  dev : Word
  blockno : Word
  data : Data

namespace Buf

variable {Data : Type}

def synced (b : Buf Data) : Bool := b.valid && !b.dirty

-- Only what can go wrong: the commands to the disk are left out.
def idestart (b : Buf Data) : Option IdePanic := if b.blockno.toNat ≥ FSSIZE then some .incorrectBlockno else none

end Buf

-- All objects that have a sleep-lock, the buffers among them.
structure Disk (Process Object Data : Type) where
  lock : Object → Sleeplock Process
  buf : Object → Buf Data
  idequeue : List Object
  havedisk1 : Bool

inductive IdeChan (Object : Type) where
  | lock (object : Object)
  | buf (object : Object)
  deriving DecidableEq

-- In the loop of acquiresleep, in brelse or iderw past the checks, or in the loop of iderw.
inductive IdeDoing (Object : Type) where
  | idle
  | acquiresleep (object : Object)
  | releasesleep (object : Object)
  | iderw (object : Object)
  | waiting (object : Object)
  deriving DecidableEq

-- `held` are the locks for which acquiresleep has returned, and releasesleep has not yet.
structure IdePlace (Object : Type) where
  doing : IdeDoing Object
  held : Object → Bool

inductive IdeChoice (Object Data : Type) where
  | acquiresleep (object : Object)
  | brelse (object : Object)
  | iderw (object : Object)
  | bwrite (object : Object)
  | modify (object : Object) (data : Data) (dirty : Bool)
  | recycle (object : Object) (dev blockno : Word)
  | proceed

namespace Disk

variable {Process Object Data : Type} [DecidableEq Process] [DecidableEq Object]

abbrev Result (Process Object Data : Type) :=
  Option (Outcome (Disk Process Object Data) (IdePlace Object) (IdeChan Object) IdePanic)

variable (disk : Disk Process Object Data) (me : Process) (place : IdePlace Object) (object : Object)

def goes (doing : IdeDoing Object) : Result Process Object Data :=
  some (.turn ⟨disk, { place with doing }, none, []⟩)

def setBuf (buf : Buf Data) : Disk Process Object Data :=
  { disk with buf := update disk.buf object buf }

def acquiresleep : Result Process Object Data :=
  match (disk.lock object).acquiresleep me with
  | none => some (.turn ⟨disk, { place with doing := .acquiresleep object }, some (.lock object), []⟩)
  | some lk =>
    { disk with lock := update disk.lock object lk }.goes
      { place with held := update place.held object true } .idle

def releasesleep : Result Process Object Data :=
  some (.turn ⟨{ disk with lock := update disk.lock object (disk.lock object).releasesleep },
    ⟨.idle, update place.held object false⟩, none, [.lock object]⟩)

-- The checks of iderw come before it takes the lock of the queue.
def iderwCheck : Option IdePanic :=
  if !(disk.lock object).holdingsleep me then some .notLocked
  else if (disk.buf object).synced then some .nothingToDo
  else if (disk.buf object).dev ≠ 0 ∧ !disk.havedisk1 then some .noDisk1
  else none

def iderw : Result Process Object Data :=
  match disk.iderwCheck me object with
  | some panic => some (.panic panic)
  | none => disk.goes place (.iderw object)

-- The body of the loop of iderw.
def await : Result Process Object Data :=
  if (disk.buf object).synced then disk.goes place .idle
  else some (.turn ⟨disk, { place with doing := .waiting object }, some (.buf object), []⟩)

def enqueue : Result Process Object Data :=
  let disk := { disk with idequeue := disk.idequeue ++ [object] }
  match if disk.idequeue.head? = some object then (disk.buf object).idestart else none with
  | some panic => some (.panic panic)
  | none => disk.await place object

def brelse : Result Process Object Data :=
  if !(disk.lock object).holdingsleep me then some (.panic .brelse) else disk.goes place (.releasesleep object)

def bwrite : Result Process Object Data :=
  if !(disk.lock object).holdingsleep me then some (.panic .bwrite)
  else (disk.setBuf object { disk.buf object with dirty := true }).iderw me place object

-- What callers do with a buffer that they have locked; log_write pins it with B_DIRTY.
def modify (data : Data) (dirty : Bool) : Result Process Object Data :=
  if place.held object then
    (disk.setBuf object { disk.buf object with data, dirty := (disk.buf object).dirty || dirty }).goes place .idle
  else none

-- bget takes a buffer that nobody refers to, so nobody has locked it.
def recycle (dev blockno : Word) : Result Process Object Data :=
  if !(disk.lock object).locked && !(disk.buf object).dirty then
    (disk.setBuf object ⟨false, false, dev, blockno, (disk.buf object).data⟩).goes place .idle
  else none

def turn : IdeChoice Object Data → IdeDoing Object → Result Process Object Data
  | .acquiresleep object, .idle | .proceed, .acquiresleep object => disk.acquiresleep me place object
  | .brelse object, .idle => disk.brelse me place object
  | .proceed, .releasesleep object => disk.releasesleep place object
  | .iderw object, .idle => disk.iderw me place object
  | .bwrite object, .idle => disk.bwrite me place object
  | .proceed, .iderw object => disk.enqueue place object
  | .proceed, .waiting object => disk.await place object
  | .modify object data dirty, .idle => disk.modify place object data dirty
  | .recycle object dev blockno, .idle => disk.recycle place object dev blockno
  | _, _ => none

-- `input` is what the disk has for a buffer that is being read, or none if idewait fails.
def ideintr (input : Option Data) : Outcome (Disk Process Object Data) Unit (IdeChan Object) IdePanic :=
  match disk.idequeue with
  | [] => .turn ⟨disk, (), none, []⟩
  | object :: rest =>
    let b := disk.buf object
    let data := if b.dirty then b.data else input.getD b.data
    let disk := { disk.setBuf object { b with valid := true, dirty := false, data } with idequeue := rest }
    match rest.head?.bind fun next => (disk.buf next).idestart with
    | some panic => .panic panic
    | none => .turn ⟨disk, (), none, [.buf object]⟩

structure Starts (disk : Disk Process Object Data) (place : Process → IdePlace Object) : Prop where
  lock (object : Object) : disk.lock object = ⟨false, none⟩
  idequeue : disk.idequeue = []
  doing (process : Process) : (place process).doing = .idle
  held (process : Process) (object : Object) : (place process).held object = false

end Disk

-- Any number of processes that lock, read and write buffers, and the interrupts of the disk.
def ide (Process Object Data : Type) [DecidableEq Process] [DecidableEq Object] :
    Monitor Process (Disk Process Object Data) (IdePlace Object) (IdeChan Object) (IdeChoice Object Data)
      (Option Data) IdePanic where
  turn me choice place disk := disk.turn me place choice place.doing
  event input disk := some (disk.ideintr input)

end Xv6

import Xv6.Ide
import Xv6.Log

namespace Xv6

open Function

abbrev NBUF : Nat := MAXOPBLOCKS * 3

-- The panics of iderw are those of memide.c.
inductive BioPanic where
  | noBuffers
  | bwrite
  | brelse
  | notLocked
  | nothingToDo
  | notDisk1
  | outOfRange
  | log (panic : LogPanic)
  deriving DecidableEq

-- `head` is the list of the buffers from head.next on. Two fields are not in the source: `modified` are
-- the buffers that were modified and not passed to log_write or bwrite since, and `written` is
-- what was last written to each block of disk 1 through a buffer.
structure Bio (Process Data : Type) where
  buf : Fin NBUF → Buf Data
  lock : Fin NBUF → Sleeplock Process
  refcnt : Fin NBUF → Nat
  head : List (Fin NBUF)
  memdisk : Word → Data
  disksize : Nat
  log : Log
  modified : Fin NBUF → Bool
  written : Word → Data

-- In acquiresleep of bget, in bread after bget, in iderw, in log_write past the checks, or in brelse after
-- releasesleep.
inductive BioDoing where
  | idle
  | bget (b : Fin NBUF) (dev blockno : Word)
  | bread (b : Fin NBUF)
  | iderw (b : Fin NBUF)
  | logWrite (b : Fin NBUF)
  | brelse (b : Fin NBUF)
  deriving DecidableEq

-- `held` are the buffers that the process has locked, with the block that it has asked for.
structure BioPlace where
  doing : BioDoing
  held : Fin NBUF → Option (Word × Word)

inductive BioChoice (Data : Type) where
  | bread (dev blockno : Word)
  | modify (b : Fin NBUF) (data : Data)
  | logWrite (b : Fin NBUF)
  | bwrite (b : Fin NBUF)
  | brelse (b : Fin NBUF)
  | proceed

namespace Bio

variable {Process Data : Type} [DecidableEq Process]

abbrev Result (Process Data : Type) := Option (Outcome (Bio Process Data) BioPlace Empty BioPanic)

variable (bio : Bio Process Data) (me : Process) (place : BioPlace) (b : Fin NBUF)

def goes (doing : BioDoing) : Result Process Data :=
  some (.turn ⟨bio, { place with doing }, none, []⟩)

def setBuf (buf : Buf Data) : Bio Process Data :=
  { bio with buf := update bio.buf b buf }

def setRefcnt (refcnt : Nat) : Bio Process Data :=
  { bio with refcnt := update bio.refcnt b refcnt }

def setLock (lock : Sleeplock Process) : Bio Process Data :=
  { bio with lock := update bio.lock b lock }

def setModified (modified : Bool) : Bio Process Data :=
  { bio with modified := update bio.modified b modified }

-- bget until it has released bcache.lock. There is no result where it panics.
def bget (dev blockno : Word) : Option (Bio Process Data × Fin NBUF) :=
  match bio.head.find? fun b => (bio.buf b).dev = dev ∧ (bio.buf b).blockno = blockno with
  | some b => some (bio.setRefcnt b (bio.refcnt b + 1), b)
  | none =>
    match bio.head.reverse.find? fun b => bio.refcnt b = 0 ∧ (bio.buf b).dirty = false with
    | some b =>
      some ((bio.setBuf b { bio.buf b with dev, blockno, valid := false, dirty := false }).setRefcnt b 1, b)
    | none => none

-- Everything that iderw uses belongs to who has locked the buffer.
def iderw : Except BioPanic (Bio Process Data) :=
  let buf := bio.buf b
  if !(bio.lock b).holdingsleep me then .error .notLocked
  else if buf.synced then .error .nothingToDo
  else if buf.dev ≠ 1 then .error .notDisk1
  else if buf.blockno.toNat ≥ bio.disksize then .error .outOfRange
  else if buf.dirty then
    .ok { bio.setBuf b { buf with dirty := false, valid := true } with
          memdisk := update bio.memdisk buf.blockno buf.data }
  else .ok (bio.setBuf b { buf with data := bio.memdisk buf.blockno, valid := true })

def bread (dev blockno : Word) : Result Process Data :=
  match bio.bget dev blockno with
  | none => some (.panic .noBuffers)
  | some (bio, b) => bio.goes place (.bget b dev blockno)

-- acquiresleep has no move as long as the lock is held.
def acquiresleep (dev blockno : Word) : Result Process Data :=
  match (bio.lock b).acquiresleep me with
  | none => none
  | some lk =>
    (bio.setLock b lk).goes { place with held := update place.held b (some (dev, blockno)) } (.bread b)

def checkValid : Result Process Data :=
  if (bio.buf b).valid then bio.goes place .idle else bio.goes place (.iderw b)

def sync : Result Process Data :=
  match bio.iderw me b with
  | .error panic => some (.panic panic)
  | .ok bio => bio.goes place .idle

-- What callers do with a buffer that they have locked.
def modify (data : Data) : Result Process Data :=
  if (place.held b).isSome then
    { (bio.setBuf b { bio.buf b with data }).setModified b true with
      written := update bio.written (bio.buf b).blockno data }.goes place .idle
  else none

-- The checks of log_write come before it takes the lock.
def logCheck : Result Process Data :=
  if (place.held b).isSome then
    match bio.log.logWriteCheck with
    | some panic => some (.panic (.log panic))
    | none => bio.goes place (.logWrite b)
  else none

def logWrite : Result Process Data :=
  match bio.log.logWrite (bio.buf b).blockno with
  | .error panic => some (.panic (.log panic))
  | .ok log =>
    { (bio.setBuf b { bio.buf b with dirty := true }).setModified b false with log }.goes place .idle

def bwrite : Result Process Data :=
  if !(bio.lock b).holdingsleep me then some (.panic .bwrite)
  else ((bio.setBuf b { bio.buf b with dirty := true }).setModified b false).goes place (.iderw b)

-- Who has modified a buffer passes it to log_write or bwrite before brelse.
def brelse : Result Process Data :=
  if !(bio.lock b).holdingsleep me then some (.panic .brelse)
  else if bio.modified b then none
  else
    (bio.setLock b (bio.lock b).releasesleep).goes { place with held := update place.held b none } (.brelse b)

def unref : Result Process Data :=
  let head := if bio.refcnt b - 1 = 0 then b :: bio.head.erase b else bio.head
  { bio.setRefcnt b (bio.refcnt b - 1) with head }.goes place .idle

def proceed : BioDoing → Result Process Data
  | .idle => none
  | .bget b dev blockno => bio.acquiresleep me place b dev blockno
  | .bread b => bio.checkValid place b
  | .iderw b => bio.sync me place b
  | .logWrite b => bio.logWrite place b
  | .brelse b => bio.unref place b

def turn : BioChoice Data → BioDoing → Result Process Data
  | .bread dev blockno, .idle => bio.bread place dev blockno
  | .modify b data, .idle => bio.modify place b data
  | .logWrite b, .idle => bio.logCheck place b
  | .bwrite b, .idle => bio.bwrite me place b
  | .brelse b, .idle => bio.brelse me place b
  | .proceed, doing => bio.proceed me place doing
  | _, _ => none

-- The state that binit leaves.
structure Starts (bio : Bio Process Data) (place : Process → BioPlace) : Prop where
  buf (b : Fin NBUF) : (bio.buf b).dev = 0 ∧ (bio.buf b).valid = false ∧ (bio.buf b).dirty = false
  lock (b : Fin NBUF) : bio.lock b = ⟨false, none⟩
  refcnt (b : Fin NBUF) : bio.refcnt b = 0
  head : bio.head = (List.finRange NBUF).reverse
  modified (b : Fin NBUF) : bio.modified b = false
  written : bio.written = bio.memdisk
  doing (process : Process) : (place process).doing = .idle
  held (process : Process) (b : Fin NBUF) : (place process).held b = none

end Bio

-- Any number of processes that use buffers. What begin_op, end_op and the commits make of the log in
-- the meantime may be anything.
def bio (Process Data : Type) [DecidableEq Process] :
    Monitor Process (Bio Process Data) BioPlace Empty (BioChoice Data) Log BioPanic where
  turn me choice place bio := bio.turn me place choice place.doing
  event log bio := some (.turn ⟨{ bio with log }, (), none, []⟩)

end Xv6

import Xv6.Inode
import Xv6.Ide

namespace Xv6

open Function

inductive InodePanic where
  | iget
  | ilock
  | noType
  | iunlock
  deriving DecidableEq

-- `refs` are the references in open files, current directories and local variables, besides those
-- that some process has passed to ilock or iput.
structure Inodes (Process : Type) where
  icache : Icache
  lock : Fin NINODE → Sleeplock Process
  dinode : Nat → Dinode
  refs : Fin NINODE → Int

-- In ilock before and after acquiresleep (`new` says that create has called it), in create after
-- ilock, in ialloc before iget, or in iput: in acquiresleep, before and after the test, before
-- and after releasesleep.
inductive InodeDoing where
  | idle
  | ilock (ip : Fin NINODE) (new : Bool)
  | load (ip : Fin NINODE) (new : Bool)
  | nlink (ip : Fin NINODE)
  | ialloc (inum : Nat)
  | iput (ip : Fin NINODE)
  | test (ip : Fin NINODE)
  | free (ip : Fin NINODE)
  | release (ip : Fin NINODE)
  | drop (ip : Fin NINODE)
  deriving DecidableEq

-- `locked` are the inodes for which ilock has returned, and iunlock has not yet.
structure InodePlace where
  doing : InodeDoing
  locked : Fin NINODE → Bool

-- ilock, or create, has returned.
def InodePlace.returned (place : InodePlace) (ip : Fin NINODE) : InodePlace :=
  ⟨.idle, update place.locked ip true⟩

inductive InodeChoice where
  | iget (inum : Nat)
  | idup (ip : Fin NINODE)
  | ilock (ip : Fin NINODE)
  | iunlock (ip : Fin NINODE)
  | iupdate (ip : Fin NINODE) (dinode : Dinode)
  | ialloc (inum : Nat) (type : BitVec 16)
  | iput (ip : Fin NINODE)
  | proceed

namespace Inodes

variable {Process : Type} [DecidableEq Process]

abbrev Result (Process : Type) := Option (Outcome (Inodes Process) InodePlace Empty InodePanic)

variable (inodes : Inodes Process) (me : Process) (place : InodePlace) (ip : Fin NINODE)

def goes : Result Process :=
  some (.turn ⟨inodes, place, none, []⟩)

def addRef (number : Int) : Inodes Process :=
  { inodes with refs := update inodes.refs ip (inodes.refs ip + number) }

def setLock (lock : Sleeplock Process) : Inodes Process :=
  { inodes with lock := update inodes.lock ip lock }

-- The new copy of an inode, which iupdate writes to the disk.
def write (dinode : Dinode) (valid : Bool) : Inodes Process :=
  { inodes with
    icache := inodes.icache.set ip { inodes.icache ip with toDinode := dinode, valid }
    dinode := update inodes.dinode (inodes.icache ip).inum dinode }

def iget (inum : Nat) : Result Process :=
  match inodes.icache.iget inum with
  | none => some (.panic .iget)
  | some (icache, ip) => ({ inodes with icache }.addRef ip 1).goes place

def idup : Result Process :=
  if inodes.refs ip ≥ 1 ∨ place.locked ip then
    ({ inodes with icache := inodes.icache.idup ip }.addRef ip 1).goes place
  else none

def ilock : Result Process :=
  if inodes.refs ip ≥ 1 then
    if (inodes.icache ip).ref < 1 then some (.panic .ilock)
    else (inodes.addRef ip (-1)).goes { place with doing := .ilock ip false }
  else none

-- acquiresleep, which has no move as long as the lock is held, and then goes on with this.
def acquiresleep (doing : InodeDoing) : Result Process :=
  match (inodes.lock ip).acquiresleep me with
  | none => none
  | some lk => (inodes.setLock ip lk).goes { place with doing }

def load (new : Bool) : Result Process :=
  let inode := inodes.icache ip
  let place := if new then { place with doing := .nlink ip } else place.returned ip
  if inode.valid then inodes.goes place
  else if (inodes.dinode inode.inum).type = 0 then some (.panic .noType)
  else
    { inodes with
      icache := inodes.icache.set ip { inode with toDinode := inodes.dinode inode.inum, valid := true } }.goes place

-- What create does with the inode that it has locked.
def nlink : Result Process :=
  (inodes.write ip { (inodes.icache ip).toDinode with nlink := 1 } (inodes.icache ip).valid).goes
    (place.returned ip)

-- Whatever else is changed under the lock, with iupdate: link counts, sizes, blocks.
def iupdate (dinode : Dinode) : Result Process :=
  if place.locked ip then
    (inodes.write ip { dinode with type := (inodes.icache ip).type } (inodes.icache ip).valid).goes place
  else none

def iunlock : Result Process :=
  if place.locked ip then
    if !(inodes.lock ip).holdingsleep me ∨ (inodes.icache ip).ref < 1 then some (.panic .iunlock)
    else
      ((inodes.setLock ip (inodes.lock ip).releasesleep).addRef ip 1).goes
        { place with locked := update place.locked ip false }
  else none

-- The loop of ialloc looks at one block after the other, so that it may find any free inode.
def ialloc (inum : Nat) (type : BitVec 16) : Result Process :=
  if (inodes.dinode inum).type = 0 ∧ type ≠ 0 then
    { inodes with dinode := update inodes.dinode inum (.fresh type) }.goes
      { place with doing := .ialloc inum }
  else none

def ialloced (inum : Nat) : Result Process :=
  match inodes.icache.iget inum with
  | none => some (.panic .iget)
  | some (icache, ip) => { inodes with icache }.goes { place with doing := .ilock ip true }

def iput : Result Process :=
  if inodes.refs ip ≥ 1 then (inodes.addRef ip (-1)).goes { place with doing := .iput ip } else none

-- iput holds icache.lock only while it reads the reference count.
def test : Result Process :=
  let inode := inodes.icache ip
  if inode.valid ∧ inode.nlink = 0 then
    if inode.ref = 1 then inodes.goes { place with doing := .free ip }
    else inodes.goes { place with doing := .release ip }
  else inodes.goes { place with doing := .release ip }

def free : Result Process :=
  (inodes.write ip { (inodes.icache ip).toDinode with type := 0, size := 0, addrs := fun _ => 0 } false).goes
    { place with doing := .release ip }

def releasesleep : Result Process :=
  (inodes.setLock ip (inodes.lock ip).releasesleep).goes { place with doing := .drop ip }

def drop : Result Process :=
  { inodes with icache := inodes.icache.drop ip }.goes { place with doing := .idle }

def proceed : InodeDoing → Result Process
  | .idle => none
  | .ilock ip new => inodes.acquiresleep me place ip (.load ip new)
  | .load ip new => inodes.load place ip new
  | .nlink ip => inodes.nlink place ip
  | .ialloc inum => inodes.ialloced place inum
  | .iput ip => inodes.acquiresleep me place ip (.test ip)
  | .test ip => inodes.test place ip
  | .free ip => inodes.free place ip
  | .release ip => inodes.releasesleep place ip
  | .drop ip => inodes.drop place ip

def turn : InodeChoice → InodeDoing → Result Process
  | .iget inum, .idle => inodes.iget place inum
  | .idup ip, .idle => inodes.idup place ip
  | .ilock ip, .idle => inodes.ilock place ip
  | .iunlock ip, .idle => inodes.iunlock me place ip
  | .iupdate ip dinode, .idle => inodes.iupdate place ip dinode
  | .ialloc inum type, .idle => inodes.ialloc place inum type
  | .iput ip, .idle => inodes.iput place ip
  | .proceed, doing => inodes.proceed me place doing
  | _, _ => none

-- An empty cache, and on the disk free inodes that are all zero and allocated ones with a link.
structure Starts (inodes : Inodes Process) (place : Process → InodePlace) : Prop where
  icache (ip : Fin NINODE) : (inodes.icache ip).ref = 0 ∧ (inodes.icache ip).valid = false
  lock (ip : Fin NINODE) : inodes.lock ip = ⟨false, none⟩
  refs (ip : Fin NINODE) : inodes.refs ip = 0
  linked (inum : Nat) : (inodes.dinode inum).type ≠ 0 → (inodes.dinode inum).nlink ≠ 0
  unused (inum : Nat) : (inodes.dinode inum).type = 0 →
    (inodes.dinode inum).size = 0 ∧ (inodes.dinode inum).addrs = fun _ => 0
  doing (process : Process) : (place process).doing = .idle
  locked (process : Process) (ip : Fin NINODE) : (place process).locked ip = false

end Inodes

-- Any number of processes that get, lock, change and put inodes, at the granularity of the
-- sections that a spin-lock or the inode's sleep-lock protects.
def inodes (Process : Type) [DecidableEq Process] :
    Monitor Process (Inodes Process) InodePlace Empty InodeChoice Empty InodePanic where
  turn me choice place inodes := inodes.turn me place choice place.doing
  event event _ := event.elim

end Xv6

import Xv6.Action
import Xv6.Inode

namespace Xv6

abbrev BSIZE : Nat := 512
abbrev NINDIRECT : Nat := BSIZE / 4
abbrev MAXFILE : Nat := NDIRECT + NINDIRECT
abbrev IPB : Nat := BSIZE / 64
abbrev BPB : Nat := BSIZE * 8
abbrev DIRSIZ : Nat := 14
abbrev ROOTINO : Nat := 1
abbrev CONSOLE : Nat := 1

structure Superblock where
  size : Nat
  nblocks : Nat
  ninodes : Nat
  nlog : Nat
  logstart : Nat
  inodestart : Nat
  bmapstart : Nat

namespace Superblock

def BBLOCK (sb : Superblock) (b : Nat) : Nat := b / BPB + sb.bmapstart

def IBLOCK (sb : Superblock) (inum : Nat) : Nat := inum / IPB + sb.inodestart

end Superblock

-- Numbers are little endian.
def byteOf {width : Nat} (value : BitVec width) (i : Nat) : Byte := value.extractLsb' (8 * i) 8

namespace Dinode

def byte (dinode : Dinode) (i : Nat) : Byte :=
  if i < 2 then byteOf dinode.type i
  else if i < 4 then byteOf dinode.major (i - 2)
  else if i < 6 then byteOf dinode.minor (i - 4)
  else if i < 8 then byteOf dinode.nlink (i - 6)
  else if i < 12 then byteOf dinode.size (i - 8)
  else byteOf (dinode.addrs (Fin.ofNat (NDIRECT + 1) ((i - 12) / 4))) ((i - 12) % 4)

end Dinode

-- The bytes of a block, at the offsets below BSIZE.
abbrev Bytes := Nat → Byte

namespace Bytes

variable (block : Bytes)

def half (i : Nat) : BitVec 16 := block (i + 1) ++ block i

def word (i : Nat) : Word := block (i + 3) ++ block (i + 2) ++ block (i + 1) ++ block i

-- The entries of an indirect block.
def entry (n : Nat) : Word := block.word (4 * n)

def setEntry (n : Nat) (value : Word) : Bytes := fun i =>
  if i / 4 = n then byteOf value (i % 4) else block i

def bit (bi : Nat) : Bool := (block (bi / 8)).getLsbD (bi % 8)

def setBit (bi : Nat) : Bytes := fun i =>
  if i = bi / 8 then block i ||| 1#8 <<< (bi % 8) else block i

def clearBit (bi : Nat) : Bytes := fun i =>
  if i = bi / 8 then block i &&& ~~~(1#8 <<< (bi % 8)) else block i

def dinode (n : Nat) : Dinode where
  type := block.half (64 * n)
  major := block.half (64 * n + 2)
  minor := block.half (64 * n + 4)
  nlink := block.half (64 * n + 6)
  size := block.word (64 * n + 8)
  addrs i := block.word (64 * n + 12 + 4 * i)

def setDinode (n : Nat) (dinode : Dinode) : Bytes := fun i =>
  if i / 64 = n then dinode.byte (i % 64) else block i

-- memmove from and to a block.
def bytes (start count : Nat) : List Byte := (List.range count).map fun i => block (start + i)

def setBytes (start : Nat) (bytes : List Byte) : Bytes := fun i =>
  if start ≤ i ∧ i < start + bytes.length then bytes.getD (i - start) 0 else block i

end Bytes

-- The disk as it is seen through the buffer cache, so that log_write is a write. Transactions and
-- the locks of buffers do nothing to a single process.
structure Fs where
  sb : Superblock
  disk : Nat → Bytes
  icache : Icache
  locked : Fin NINODE → Bool

-- `deadlock` is a process that waits for a lock that it has itself.
inductive FsHalt where
  | outOfBlocks
  | freeingFreeBlock
  | iallocNoInodes
  | igetNoInodes
  | ilock
  | noType
  | iunlock
  | bmapOutOfRange
  | dirlookupNotDir
  | dirlookupRead
  | dirlinkRead
  | dirlink
  | isdiremptyReadi
  | unlinkNlink
  | unlinkWritei
  | createDots
  | createDirlink
  | deadlock
  deriving DecidableEq

namespace Fs

abbrev M := Action Fs FsHalt

def bit (fs : Fs) (b : Nat) : Bool := (fs.disk (fs.sb.BBLOCK b)).bit (b % BPB)

def dinode (fs : Fs) (inum : Nat) : Dinode := (fs.disk (fs.sb.IBLOCK inum)).dinode (inum % IPB)

def write (fs : Fs) (bno : Nat) (block : Bytes) : Fs := { fs with disk := Function.update fs.disk bno block }

def setInode (fs : Fs) (ip : Fin NINODE) (inode : Inode) : Fs := { fs with icache := fs.icache.set ip inode }

def setLocked (fs : Fs) (ip : Fin NINODE) (locked : Bool) : Fs :=
  { fs with locked := Function.update fs.locked ip locked }

-- The cached inode.
def inode (ip : Fin NINODE) : M Inode := do
  return (← get).icache ip

def modifyInode (ip : Fin NINODE) (change : Inode → Inode) : M Unit :=
  modify fun fs => fs.setInode ip (change (fs.icache ip))

def bread (bno : Nat) : M Bytes := do
  return (← get).disk bno

def logWrite (bno : Nat) (block : Bytes) : M Unit := modify fun fs => fs.write bno block

def bzero (bno : Nat) : M Unit := logWrite bno fun _ => 0

-- The two loops look at the bits in order.
def balloc : M Nat := do
  let fs ← get
  match (List.range fs.sb.size).find? fun b => !fs.bit b with
  | none => throw .outOfBlocks
  | some b =>
    logWrite (fs.sb.BBLOCK b) ((fs.disk (fs.sb.BBLOCK b)).setBit (b % BPB))
    bzero b
    return b

def bfree (b : Nat) : M Unit := do
  let fs ← get
  if !fs.bit b then throw .freeingFreeBlock
  else logWrite (fs.sb.BBLOCK b) ((fs.disk (fs.sb.BBLOCK b)).clearBit (b % BPB))

def iupdate (ip : Fin NINODE) : M Unit := do
  let fs ← get
  let inode := fs.icache ip
  logWrite (fs.sb.IBLOCK inode.inum)
    ((fs.disk (fs.sb.IBLOCK inode.inum)).setDinode (inode.inum % IPB) inode.toDinode)

def iget (inum : Nat) : M (Fin NINODE) := do
  let fs ← get
  match fs.icache.iget inum with
  | none => throw .igetNoInodes
  | some (icache, ip) =>
    set { fs with icache }
    return ip

def idup (ip : Fin NINODE) : M (Fin NINODE) := do
  modify fun fs => { fs with icache := fs.icache.idup ip }
  return ip

def ialloc (type : BitVec 16) : M (Fin NINODE) := do
  let fs ← get
  match (List.range' 1 (fs.sb.ninodes - 1)).find? fun inum => (fs.dinode inum).type = 0 with
  | none => throw .iallocNoInodes
  | some inum =>
    logWrite (fs.sb.IBLOCK inum) ((fs.disk (fs.sb.IBLOCK inum)).setDinode (inum % IPB) (.fresh type))
    iget inum

def acquiresleep (ip : Fin NINODE) : M Unit := do
  if (← get).locked ip then throw .deadlock else modify fun fs => fs.setLocked ip true

def releasesleep (ip : Fin NINODE) : M Unit := modify fun fs => fs.setLocked ip false

def ilock (ip : Fin NINODE) : M Unit := do
  if (← inode ip).ref < 1 then throw .ilock
  acquiresleep ip
  if !(← inode ip).valid then
    let fs ← get
    modifyInode ip fun inode => { inode with toDinode := fs.dinode inode.inum, valid := true }
    if (← inode ip).type = 0 then throw .noType

def iunlock (ip : Fin NINODE) : M Unit := do
  if !(← get).locked ip ∨ (← inode ip).ref < 1 then throw .iunlock
  releasesleep ip

-- Block numbers in inodes are words.
def setAddr (ip : Fin NINODE) (n b : Nat) : M Unit :=
  modifyInode ip fun inode =>
    { inode with addrs := Function.update inode.addrs (Fin.ofNat (NDIRECT + 1) n) (BitVec.ofNat 32 b) }

-- The block at this place in the inode, which is allocated if there is none.
def addrOrAlloc (ip : Fin NINODE) (n : Nat) : M Nat := do
  let addr := (← inode ip).addrs (Fin.ofNat (NDIRECT + 1) n)
  if addr ≠ 0 then return addr.toNat
  else
    let b ← balloc
    setAddr ip n b
    return b

def bmap (ip : Fin NINODE) (bn : Nat) : M Nat := do
  if bn < NDIRECT then addrOrAlloc ip bn
  else if bn - NDIRECT < NINDIRECT then
    let indirect ← addrOrAlloc ip NDIRECT
    let addr := (← bread indirect).entry (bn - NDIRECT)
    if addr ≠ 0 then return addr.toNat
    else
      let b ← balloc
      logWrite indirect ((← bread indirect).setEntry (bn - NDIRECT) (BitVec.ofNat 32 b))
      return b
  else throw .bmapOutOfRange

-- The first loop of itrunc, over these places.
def freeDirect (ip : Fin NINODE) : List Nat → M Unit
  | [] => return ()
  | n :: rest => do
      let addr := (← inode ip).addrs (Fin.ofNat (NDIRECT + 1) n)
      if addr ≠ 0 then
        bfree addr.toNat
        setAddr ip n 0
      freeDirect ip rest

-- The second one, over these entries of the indirect block.
def freeEntries (block : Bytes) : List Nat → M Unit
  | [] => return ()
  | n :: rest => do
      if block.entry n ≠ 0 then bfree (block.entry n).toNat
      freeEntries block rest

section

variable (ip : Fin NINODE)

def itrunc : M Unit := do
  freeDirect ip (List.range NDIRECT)
  let addr := (← inode ip).addrs (Fin.ofNat (NDIRECT + 1) NDIRECT)
  if addr ≠ 0 then
    freeEntries (← bread addr.toNat) (List.range NINDIRECT)
    bfree addr.toNat
    setAddr ip NDIRECT 0
  modifyInode ip fun inode => { inode with size := 0 }
  iupdate ip

-- The last critical section of iput.
def dropRef : M Unit := modify fun fs => { fs with icache := fs.icache.drop ip }

def iput : M Unit := do
  acquiresleep ip
  let inode ← inode ip
  if inode.valid ∧ inode.nlink = 0 ∧ inode.ref = 1 then
    itrunc ip
    modifyInode ip fun inode => { inode with type := 0 }
    iupdate ip
    modifyInode ip fun inode => { inode with valid := false }
  releasesleep ip
  dropRef ip

def iunlockput : M Unit := do
  iunlock ip
  iput ip

end

-- The console is the only device. It gives up the lock while it waits.
def hasDevice (inode : Inode) : Bool := inode.major = BitVec.ofNat 16 CONSOLE

-- The loop of readi. Every turn copies something, so that it is over after n turns.
def readBlocks (ip : Fin NINODE) : Nat → Nat → Nat → M (List Byte)
  | 0, _, _ => return []
  | turns + 1, off, n => do
      if n = 0 then return []
      else
        let block ← bread (← bmap ip (off / BSIZE))
        let m := min n (BSIZE - off % BSIZE)
        let rest ← readBlocks ip turns (off + m) (n - m)
        return block.bytes (off % BSIZE) m ++ rest

-- There is no result where it returns -1. `input` is what the console has to read.
def readi (input : Option (List Byte)) (ip : Fin NINODE) (off n : Word) : M (Option (List Byte)) := do
  let node ← inode ip
  if node.type = T_DEV then
    if hasDevice node then
      iunlock ip
      ilock ip
      return input
    else return none
  else if off > node.size ∨ off + n < off then return none
  else
    let n := if off + n > node.size then node.size - off else n
    return some (← readBlocks ip n.toNat off.toNat n.toNat)

-- The loop of writei.
def writeBlocks (ip : Fin NINODE) : Nat → Nat → List Byte → M Unit
  | 0, _, _ => return ()
  | turns + 1, off, src => do
      if src.isEmpty then return ()
      else
        let b ← bmap ip (off / BSIZE)
        let m := min src.length (BSIZE - off % BSIZE)
        logWrite b ((← bread b).setBytes (off % BSIZE) (src.take m))
        writeBlocks ip turns (off + m) (src.drop m)

-- Whether it has written all, which is n bytes; otherwise it returns -1.
def writei (ip : Fin NINODE) (src : List Byte) (off : Word) : M Bool := do
  let n := BitVec.ofNat 32 src.length
  let node ← inode ip
  if node.type = T_DEV then
    if hasDevice node then
      iunlock ip
      ilock ip
      return true
    else return false
  else if off > node.size ∨ off + n < off then return false
  else if off + n > BitVec.ofNat 32 (MAXFILE * BSIZE) then return false
  else
    writeBlocks ip n.toNat off.toNat (src.take n.toNat)
    if n > 0 ∧ off + n > (← inode ip).size then
      modifyInode ip fun inode => { inode with size := off + n }
      iupdate ip
    return true

structure Dirent where
  inum : BitVec 16
  name : List Byte

namespace Dirent

def decode (bytes : List Byte) : Dirent := ⟨bytes.getD 1 0 ++ bytes.getD 0 0, bytes.drop 2⟩

-- strncpy fills up with zeros.
def encode (inum : Nat) (name : List Byte) : List Byte :=
  [byteOf (BitVec.ofNat 16 inum) 0, byteOf (BitVec.ofNat 16 inum) 1] ++
    (List.range DIRSIZ).map fun i => name.getD i 0

end Dirent

-- The part of a name that strncmp looks at.
def cstring (name : List Byte) : List Byte := (name.take DIRSIZ).takeWhile (· ≠ 0)

def namecmp (s t : List Byte) : Bool := cstring s = cstring t

-- The offsets of the loops over a directory of this size.
def offsets (size : Word) : List Nat := (List.range ((size.toNat + 15) / 16)).map (16 * ·)

def readDirent (dp : Fin NINODE) (off : Nat) (fails : FsHalt) : M Dirent := do
  match ← readi none dp (BitVec.ofNat 32 off) 16 with
  | none => throw fails
  | some bytes => if bytes.length ≠ 16 then throw fails else return .decode bytes

def lookup (dp : Fin NINODE) (name : List Byte) : List Nat → M (Option (Fin NINODE × Nat))
  | [] => return none
  | off :: rest => do
      let de ← readDirent dp off .dirlookupRead
      if de.inum ≠ 0 ∧ namecmp name de.name then
        let ip ← iget de.inum.toNat
        return some (ip, off)
      else lookup dp name rest

-- The inode and the offset of its entry.
def dirlookup (dp : Fin NINODE) (name : List Byte) : M (Option (Fin NINODE × Nat)) := do
  let node ← inode dp
  if node.type ≠ T_DIR then throw .dirlookupNotDir
  else lookup dp name (offsets node.size)

-- The first empty entry, or the end of the directory.
def emptyDirent (dp : Fin NINODE) (last : Nat) : List Nat → M Nat
  | [] => return last
  | off :: rest => do
      let de ← readDirent dp off .dirlinkRead
      if de.inum = 0 then return off else emptyDirent dp last rest

def dirlink (dp : Fin NINODE) (name : List Byte) (inum : Nat) : M Bool := do
  match ← dirlookup dp name with
  | some (ip, _) =>
    iput ip
    return false
  | none =>
    let node ← inode dp
    let off ← emptyDirent dp (16 * ((node.size.toNat + 15) / 16)) (offsets node.size)
    if !(← writei dp (Dirent.encode inum name) (BitVec.ofNat 32 off)) then throw .dirlink
    return true

def slash : Byte := 47

def dot : List Byte := [46]

def dotdot : List Byte := [46, 46]

-- The next element of the path, and what follows it.
def skipelem (path : List Byte) : Option (List Byte × List Byte) :=
  let path := path.dropWhile (· = slash)
  if path.isEmpty then none
  else some ((path.takeWhile (· ≠ slash)).take DIRSIZ, (path.dropWhile (· ≠ slash)).dropWhile (· = slash))

-- The loop of namex. Every turn takes something off the path.
def walk (parent : Bool) : Nat → Fin NINODE → List Byte → M (Option (Fin NINODE × List Byte))
  | 0, ip, _ => do
      if parent then
        iput ip
        return none
      else return some (ip, [])
  | turns + 1, ip, path => do
      match skipelem path with
      | none =>
        if parent then
          iput ip
          return none
        else return some (ip, [])
      | some (name, rest) =>
        ilock ip
        if (← inode ip).type ≠ T_DIR then
          iunlockput ip
          return none
        else if parent && rest.isEmpty then
          iunlock ip
          return some (ip, name)
        else
          match ← dirlookup ip name with
          | none =>
            iunlockput ip
            return none
          | some (next, _) =>
            iunlockput ip
            walk parent turns next rest

section

variable (cwd : Fin NINODE) (path : List Byte)

def namex (parent : Bool) : M (Option (Fin NINODE × List Byte)) := do
  let ip ← if path.head? = some slash then iget ROOTINO else idup cwd
  walk parent path.length ip path

def namei : M (Option (Fin NINODE)) := do
  return (← namex cwd path false).map (·.1)

-- The inode and the last element of the path.
def nameiparent : M (Option (Fin NINODE × List Byte)) := namex cwd path true

end

def mustLink (dp : Fin NINODE) (name : List Byte) (inum : Nat) (fails : FsHalt) : M Unit := do
  if !(← dirlink dp name inum) then throw fails

-- The entries "." and ".." of a new directory.
def createDots (dp ip : Fin NINODE) : M Unit := do
  modifyInode dp fun inode => { inode with nlink := inode.nlink + 1 }
  iupdate dp
  mustLink ip dot (← inode ip).inum .createDots
  mustLink ip dotdot (← inode dp).inum .createDots

-- The part of create where there is no such entry yet.
def createNew (dp : Fin NINODE) (name : List Byte) (type major minor : BitVec 16) : M (Fin NINODE) := do
  let ip ← ialloc type
  ilock ip
  modifyInode ip fun inode => { inode with major, minor, nlink := 1 }
  iupdate ip
  if type = T_DIR then createDots dp ip
  mustLink dp name (← inode ip).inum .createDirlink
  iunlockput dp
  return ip

def create (cwd : Fin NINODE) (path : List Byte) (type major minor : BitVec 16) : M (Option (Fin NINODE)) := do
  match ← nameiparent cwd path with
  | none => return none
  | some (dp, name) =>
    ilock dp
    match ← dirlookup dp name with
    | some (ip, _) =>
      iunlockput dp
      ilock ip
      if type = T_FILE ∧ (← inode ip).type = T_FILE then return some ip
      else
        iunlockput ip
        return none
    | none => some <$> createNew dp name type major minor

-- The part of sys_link that makes the entry.
def linkTo (cwd ip : Fin NINODE) (new : List Byte) : M Bool := do
  match ← nameiparent cwd new with
  | none => return false
  | some (dp, name) =>
    ilock dp
    let linked ← dirlink dp name (← inode ip).inum
    iunlockput dp
    return linked

-- Whether it returns 0, and not -1.
def sysLink (cwd : Fin NINODE) (old new : List Byte) : M Bool := do
  match ← namei cwd old with
  | none => return false
  | some ip =>
    ilock ip
    if (← inode ip).type = T_DIR then
      iunlockput ip
      return false
    else
      modifyInode ip fun inode => { inode with nlink := inode.nlink + 1 }
      iupdate ip
      iunlock ip
      if ← linkTo cwd ip new then
        iput ip
        return true
      else
        ilock ip
        modifyInode ip fun inode => { inode with nlink := inode.nlink - 1 }
        iupdate ip
        iunlockput ip
        return false

def allEmpty (dp : Fin NINODE) : List Nat → M Bool
  | [] => return true
  | off :: rest => do
      let de ← readDirent dp off .isdiremptyReadi
      if de.inum ≠ 0 then return false else allEmpty dp rest

-- The loop begins after the entries for "." and "..".
def isdirempty (dp : Fin NINODE) : M Bool := do
  allEmpty dp ((offsets (← inode dp).size).drop 2)

-- The part of sys_unlink that takes the entry at this offset away.
def removeEntry (dp ip : Fin NINODE) (off : Nat) : M Unit := do
  if !(← writei dp (List.replicate 16 0) (BitVec.ofNat 32 off)) then throw .unlinkWritei
  if (← inode ip).type = T_DIR then
    modifyInode dp fun inode => { inode with nlink := inode.nlink - 1 }
    iupdate dp
  iunlockput dp
  modifyInode ip fun inode => { inode with nlink := inode.nlink - 1 }
  iupdate ip
  iunlockput ip

def isFullDir (ip : Fin NINODE) : M Bool := do
  if (← inode ip).type = T_DIR then (! ·) <$> isdirempty ip else return false

def unlinkEntry (dp ip : Fin NINODE) (off : Nat) : M Bool := do
  ilock ip
  if (← inode ip).nlink.toInt < 1 then throw .unlinkNlink
  if ← isFullDir ip then
    iunlockput ip
    iunlockput dp
    return false
  else
    removeEntry dp ip off
    return true

def sysUnlink (cwd : Fin NINODE) (path : List Byte) : M Bool := do
  match ← nameiparent cwd path with
  | none => return false
  | some (dp, name) =>
    ilock dp
    if namecmp name dot ∨ namecmp name dotdot then
      iunlockput dp
      return false
    else
      match ← dirlookup dp name with
      | none =>
        iunlockput dp
        return false
      | some (ip, off) => unlinkEntry dp ip off

end Fs

end Xv6

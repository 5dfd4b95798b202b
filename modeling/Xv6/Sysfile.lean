import Xv6.Fs
import Xv6.Log
import Xv6.Proc

namespace Xv6

open Function

abbrev NFILE : Nat := 100
abbrev NOFILE : Nat := 16

abbrev O_RDONLY : Word := 0x000
abbrev O_WRONLY : Word := 0x001
abbrev O_RDWR : Word := 0x002
abbrev O_CREATE : Word := 0x200

inductive FdType where
  | FD_NONE | FD_PIPE | FD_INODE
  deriving DecidableEq

-- Pipes are named by the pages that they are in.
structure File where
  type : FdType
  ref : Int
  readable : Bool
  writable : Bool
  pipe : Nat
  ip : Fin NINODE
  off : Word

-- Of a pipe, its ends, and how often its page has been freed.
structure PipePage where
  readopen : Bool
  writeopen : Bool
  frees : Nat

namespace PipePage

def isOpen (pipe : PipePage) (writable : Bool) : Bool := if writable then pipe.writeopen else pipe.readopen

-- pipeclose frees the page with the second end.
def close (pipe : PipePage) (writable : Bool) : PipePage :=
  let pipe := if writable then { pipe with writeopen := false } else { pipe with readopen := false }
  if !pipe.readopen && !pipe.writeopen then { pipe with frees := pipe.frees + 1 } else pipe

end PipePage

-- Of a process, its files. A process that makes calls counts as RUNNABLE, whether it runs or sleeps.
structure Task where
  state : Procstate
  ofile : Fin NOFILE → Option (Fin NFILE)
  cwd : Option (Fin NINODE)

-- Pages are numbered in the order in which kalloc has handed them out.
structure Sys where
  fs : Fs
  ftable : Fin NFILE → File
  pipes : Nat → PipePage
  pages : Nat
  proc : Fin NPROC → Task

inductive SysHalt where
  | fs (halt : FsHalt)
  | filedup
  | fileclose
  | fileread
  | filewrite
  | shortFilewrite
  | initExiting
  | noCwd
  deriving DecidableEq

namespace Fs

abbrev ELF_MAGIC : Word := 0x464C457F
abbrev ELF_PROG_LOAD : Word := 1

-- The loop of loaduvm over these pages. Every read of a device has its own input.
def loaduvm (input : Nat → Option (List Byte)) (ip : Fin NINODE) (offset sz : Word) : List Nat → M Bool
  | [] => return true
  | i :: rest => do
      let n := min (sz.toNat - 4096 * i) 4096
      match ← readi (input i) ip (offset + BitVec.ofNat 32 (4096 * i)) (BitVec.ofNat 32 n) with
      | none => return false
      | some bytes => if bytes.length ≠ n then return false else loaduvm input ip offset sz rest

-- The loop of exec over these program headers. `memory` says where allocuvm succeeds.
def loadSegments (input : Nat → Nat → Option (List Byte)) (memory : Nat → Bool) (ip : Fin NINODE) (phoff : Word) :
    List Nat → M Bool
  | [] => return true
  | i :: rest => do
      match ← readi (input (i + 1) 0) ip (phoff + BitVec.ofNat 32 (32 * i)) 32 with
      | none => return false
      | some ph =>
        let field := Bytes.word fun i => ph.getD i 0
        let off := field 4
        let vaddr := field 8
        let filesz := field 16
        let memsz := field 20
        if ph.length ≠ 32 then return false
        else if field 0 ≠ ELF_PROG_LOAD then loadSegments input memory ip phoff rest
        else if memsz < filesz then return false
        else if vaddr + memsz < vaddr then return false
        else if !memory (i + 1) then return false
        else if vaddr.toNat % 4096 ≠ 0 then return false
        else if ← loaduvm (fun page => input (i + 1) (page + 1)) ip off filesz
          (List.range ((filesz.toNat + 4095) / 4096))
          then loadSegments input memory ip phoff rest
        else return false

def loadElf (input : Nat → Nat → Option (List Byte)) (memory : Nat → Bool) (ip : Fin NINODE) : M Bool := do
  match ← readi (input 0 0) ip 0 52 with
  | none => return false
  | some elf =>
    let bytes : Bytes := fun i => elf.getD i 0
    if elf.length ≠ 52 then return false
    else if bytes.word 0 ≠ ELF_MAGIC then return false
    else if !memory 0 then return false
    else loadSegments input memory ip (bytes.word 28) (List.range (bytes.half 44).toNat)

-- What exec does to the file system. Whatever goes wrong later, it has put the inode by then.
def exec (cwd : Fin NINODE) (path : List Byte) (input : Nat → Nat → Option (List Byte)) (memory : Nat → Bool) :
    M Bool := do
  match ← namei cwd path with
  | none => return false
  | some ip =>
    ilock ip
    let loaded ← loadElf input memory ip
    iunlockput ip
    return loaded

end Fs

namespace Sys

abbrev M := Action Sys SysHalt

-- What the file system does to the whole.
def fsCall {Value : Type} (action : Fs.M Value) : M Value := fun sys =>
  match action.run sys.fs with
  | .ok (value, fs) => .ok (value, { sys with fs })
  | .error halt => .error (.fs halt)

def modifyFile (f : Fin NFILE) (change : File → File) : M Unit :=
  modify fun sys => { sys with ftable := update sys.ftable f (change (sys.ftable f)) }

def modifyTask (p : Fin NPROC) (change : Task → Task) : M Unit :=
  modify fun sys => { sys with proc := update sys.proc p (change (sys.proc p)) }

def setFd (p : Fin NPROC) (fd : Fin NOFILE) (file : Option (Fin NFILE)) : M Unit :=
  modifyTask p fun task => { task with ofile := update task.ofile fd file }

def filealloc : M (Option (Fin NFILE)) := do
  let sys ← get
  match (List.finRange NFILE).find? fun f => (sys.ftable f).ref = 0 with
  | none => return none
  | some f =>
    modifyFile f fun file => { file with ref := 1 }
    return some f

def filedup (f : Fin NFILE) : M Unit := do
  if ((← get).ftable f).ref < 1 then throw .filedup
  modifyFile f fun file => { file with ref := file.ref + 1 }

def pipeclose (page : Nat) (writable : Bool) : M Unit :=
  modify fun sys => { sys with pipes := update sys.pipes page ((sys.pipes page).close writable) }

def fileclose (f : Fin NFILE) : M Unit := do
  let ff := (← get).ftable f
  if ff.ref < 1 then throw .fileclose
  if ff.ref - 1 > 0 then modifyFile f fun file => { file with ref := file.ref - 1 }
  else
    modifyFile f fun file => { file with ref := 0, type := .FD_NONE }
    match ff.type with
    | .FD_PIPE => pipeclose ff.pipe ff.writable
    | .FD_INODE => fsCall (Fs.iput ff.ip)
    | .FD_NONE => return ()

-- There is no page if kalloc fails.
def kalloc (memory : Bool) : M (Option Nat) := do
  if memory then
    let page := (← get).pages
    modify fun sys => { sys with pages := sys.pages + 1 }
    return some page
  else return none

-- The read end and the write end.
def pipealloc (memory : Bool) : M (Option (Fin NFILE × Fin NFILE)) := do
  match ← filealloc with
  | none => return none
  | some f0 =>
    match ← filealloc with
    | none =>
      fileclose f0
      return none
    | some f1 =>
      match ← kalloc memory with
      | none =>
        fileclose f0
        fileclose f1
        return none
      | some page =>
        modify fun sys => { sys with pipes := update sys.pipes page ⟨true, true, 0⟩ }
        modifyFile f0 fun file =>
          { file with type := .FD_PIPE, readable := true, writable := false, pipe := page }
        modifyFile f1 fun file =>
          { file with type := .FD_PIPE, readable := false, writable := true, pipe := page }
        return some (f0, f1)

-- `result` is what piperead or the console has, or nothing where they return -1.
def fileread (f : Fin NFILE) (n : Nat) (result : Option (List Byte)) : M Unit := do
  let file := (← get).ftable f
  if !file.readable then return ()
  else
    match file.type with
    | .FD_PIPE => return ()
    | .FD_INODE =>
      fsCall (Fs.ilock file.ip)
      match ← fsCall (Fs.readi result file.ip file.off (BitVec.ofNat 32 n)) with
      | none => fsCall (Fs.iunlock file.ip)
      | some bytes =>
        modifyFile f fun file => { file with off := file.off + BitVec.ofNat 32 bytes.length }
        fsCall (Fs.iunlock file.ip)
    | .FD_NONE => throw .fileread

abbrev maxWrite : Nat := ((MAXOPBLOCKS - 1 - 1 - 2) / 2) * BSIZE

-- The loop of filewrite, which is over after n turns: whether it comes to the end. Where writei does not return -1, it
-- returns all n1 bytes, and the console does so as well.
def writeChunks (f : Fin NFILE) (ip : Fin NINODE) : Nat → List Byte → M Bool
  | 0, addr => return addr.isEmpty
  | turns + 1, addr => do
      if addr.isEmpty then return true
      else
        let n1 : Int := (addr.take maxWrite).length
        fsCall (Fs.ilock ip)
        let written ← fsCall (Fs.writei ip (addr.take maxWrite) ((← get).ftable f).off)
        let r := if written then n1 else -1
        if r > 0 then modifyFile f fun file => { file with off := file.off + BitVec.ofInt 32 r }
        fsCall (Fs.iunlock ip)
        if r < 0 then return false
        else if r ≠ n1 then throw .shortFilewrite
        else writeChunks f ip turns (addr.drop r.toNat)

-- There is no result here for a pipe.
def filewrite (f : Fin NFILE) (addr : List Byte) : M (Option Int) := do
  let file := (← get).ftable f
  if !file.writable then return some (-1)
  else
    match file.type with
    | .FD_PIPE => return none
    | .FD_INODE =>
      if ← writeChunks f file.ip addr.length addr then return some addr.length else return some (-1)
    | .FD_NONE => throw .filewrite

section Process

variable (me : Fin NPROC)

def argfd (fd : Int) : M (Option (Fin NOFILE × Fin NFILE)) := do
  if h : 0 ≤ fd ∧ fd.toNat < NOFILE then
    return (((← get).proc me).ofile ⟨fd.toNat, h.2⟩).map fun f => (⟨fd.toNat, h.2⟩, f)
  else return none

def fdalloc (f : Fin NFILE) : M (Option (Fin NOFILE)) := do
  let task := (← get).proc me
  match (List.finRange NOFILE).find? fun fd => (task.ofile fd).isNone with
  | none => return none
  | some fd =>
    setFd me fd (some f)
    return some fd

def cwd : M (Fin NINODE) := do
  match ((← get).proc me).cwd with
  | none => throw .noCwd
  | some ip => return ip

-- The system calls. What they return to the process is left out, but for those that change the tree and for write.

def sysDup (fd : Int) : M Unit := do
  match ← argfd me fd with
  | none => return ()
  | some (_, f) =>
    match ← fdalloc me f with
    | none => return ()
    | some _ => filedup f

def sysRead (fd : Int) (n : Nat) (result : Option (List Byte)) : M Unit := do
  match ← argfd me fd with
  | none => return ()
  | some (_, f) => fileread f n result

def sysWrite (fd : Int) (addr : List Byte) : M (Option Int) := do
  match ← argfd me fd with
  | none => return some (-1)
  | some (_, f) => filewrite f addr

def sysClose (fd : Int) : M Unit := do
  match ← argfd me fd with
  | none => return ()
  | some (fd, f) =>
    setFd me fd none
    fileclose f

-- Whether it returns 0, and not -1.
def sysLink (old new : List Byte) : M Bool := do
  fsCall (Fs.sysLink (← cwd me) old new)

section

variable (path : List Byte)

def sysUnlink : M Bool := do
  fsCall (Fs.sysUnlink (← cwd me) path)

-- The inode that sys_open goes on with, which is locked.
def openInode (omode : Word) : M (Option (Fin NINODE)) := do
  let cwd ← cwd me
  if omode &&& O_CREATE ≠ 0 then fsCall (Fs.create cwd path T_FILE 0 0)
  else
    match ← fsCall (Fs.namei cwd path) with
    | none => return none
    | some ip =>
      fsCall (Fs.ilock ip)
      if (← fsCall (Fs.inode ip)).type = T_DIR ∧ omode ≠ O_RDONLY then
        fsCall (Fs.iunlockput ip)
        return none
      else return some ip

-- The descriptor, or nothing where it returns -1.
def sysOpen (omode : Word) : M (Option (Fin NOFILE)) := do
  match ← openInode me path omode with
  | none => return none
  | some ip =>
    match ← filealloc with
    | none =>
      fsCall (Fs.iunlockput ip)
      return none
    | some f =>
      match ← fdalloc me f with
      | none =>
        fileclose f
        fsCall (Fs.iunlockput ip)
        return none
      | some fd =>
        fsCall (Fs.iunlock ip)
        modifyFile f fun file =>
          { file with
            type := .FD_INODE
            ip
            off := 0
            readable := omode &&& O_WRONLY = 0
            writable := omode &&& O_WRONLY ≠ 0 ∨ omode &&& O_RDWR ≠ 0 }
        return some fd

-- sys_mkdir and sys_mknod.
def createNode (type major minor : BitVec 16) : M Bool := do
  match ← fsCall (Fs.create (← cwd me) path type major minor) with
  | none => return false
  | some ip =>
    fsCall (Fs.iunlockput ip)
    return true

def sysMkdir : M Bool := createNode me path T_DIR 0 0

def sysMknod (major minor : BitVec 16) : M Bool := createNode me path T_DEV major minor

def sysChdir : M Unit := do
  let old ← cwd me
  match ← fsCall (Fs.namei old path) with
  | none => return ()
  | some ip =>
    fsCall (Fs.ilock ip)
    if (← fsCall (Fs.inode ip)).type ≠ T_DIR then fsCall (Fs.iunlockput ip)
    else
      fsCall (Fs.iunlock ip)
      fsCall (Fs.iput old)
      modifyTask me fun task => { task with cwd := some ip }

def sysExec (input : Nat → Nat → Option (List Byte)) (memory : Nat → Bool) : M Bool := do
  fsCall (Fs.exec (← cwd me) path input memory)

end

def sysPipe (memory : Bool) : M Unit := do
  match ← pipealloc memory with
  | none => return ()
  | some (rf, wf) =>
    match ← fdalloc me rf with
    | none =>
      fileclose rf
      fileclose wf
    | some fd0 =>
      match ← fdalloc me wf with
      | none =>
        setFd me fd0 none
        fileclose rf
        fileclose wf
      | some _ => return ()

-- The loop of fork over the descriptors.
def forkFiles (child : Fin NPROC) : List (Fin NOFILE) → M Unit
  | [] => return ()
  | fd :: rest => do
      match ((← get).proc me).ofile fd with
      | none => forkFiles child rest
      | some f =>
        filedup f
        setFd child fd (some f)
        forkFiles child rest

-- `memory` says whether there is enough for the stack and the pages of the child.
def fork (memory : Bool) : M Unit := do
  let sys ← get
  match (List.finRange NPROC).find? fun p => (sys.proc p).state = .UNUSED with
  | none => return ()
  | some child =>
    if !memory then return ()
    else
      modifyTask child fun task => { task with state := .EMBRYO }
      forkFiles me child (List.finRange NOFILE)
      let ip ← fsCall (Fs.idup (← cwd me))
      modifyTask child fun task => { task with state := .RUNNABLE, cwd := some ip }

def exitFiles : List (Fin NOFILE) → M Unit
  | [] => return ()
  | fd :: rest => do
      match ((← get).proc me).ofile fd with
      | none => exitFiles rest
      | some f =>
        fileclose f
        setFd me fd none
        exitFiles rest

-- The first process is init.
def exit : M Unit := do
  if me.val = 0 then throw .initExiting
  exitFiles me (List.finRange NOFILE)
  fsCall (Fs.iput (← cwd me))
  modifyTask me fun task => { task with state := .ZOMBIE, cwd := none }

end Process

-- The child for which wait returns, if it has exited.
def wait (child : Fin NPROC) : M Unit := do
  if ((← get).proc child).state = .ZOMBIE then modifyTask child fun task => { task with state := .UNUSED }

end Sys

-- `bad` is a call whose arguments cannot be fetched.
inductive FileCall where
  | bad
  | open (path : List Byte) (omode : Word)
  | close (fd : Int)
  | dup (fd : Int)
  | read (fd : Int) (n : Nat) (result : Option (List Byte))
  | write (fd : Int) (addr : List Byte)
  | link (old new : List Byte)
  | unlink (path : List Byte)
  | mkdir (path : List Byte)
  | mknod (path : List Byte) (major minor : BitVec 16)
  | chdir (path : List Byte)
  | exec (path : List Byte) (input : Nat → Nat → Option (List Byte)) (memory : Nat → Bool)
  | pipe (memory : Bool)
  | fork (memory : Bool)
  | wait (child : Fin NPROC)
  | exit

namespace Sys

-- A string ends at its first zero.
def argstr (path : List Byte) : List Byte := path.takeWhile (· ≠ 0)

def call (me : Fin NPROC) : FileCall → M Unit
  | .bad => return ()
  | .open path omode => do
      let _ ← sysOpen me (argstr path) omode
  | .close fd => sysClose me fd
  | .dup fd => sysDup me fd
  | .read fd n result => sysRead me fd n result
  | .write fd addr => do
      let _ ← sysWrite me fd addr
  | .link old new => do
      let _ ← sysLink me (argstr old) (argstr new)
  | .unlink path => do
      let _ ← sysUnlink me (argstr path)
  | .mkdir path => do
      let _ ← sysMkdir me (argstr path)
  | .mknod path major minor => do
      let _ ← sysMknod me (argstr path) major minor
  | .chdir path => sysChdir me (argstr path)
  | .exec path input memory => do
      let _ ← sysExec me (argstr path) input memory
  | .pipe memory => sysPipe me memory
  | .fork memory => fork me memory
  | .wait child => wait child
  | .exit => exit me

-- A call that completes, by a process that runs.
def step (sys : Sys) (label : Fin NPROC × FileCall) : Option Sys :=
  if (sys.proc label.1).state = .RUNNABLE then
    match (call label.1 label.2).run sys with
    | .ok (_, next) => some next
    | .error _ => none
  else none

-- As userinit leaves it.
structure Starts (sys : Sys) : Prop where
  root : (sys.fs.icache 0).inum = ROOTINO ∧ (sys.fs.icache 0).ref = 1
  icache (ip : Fin NINODE) : (sys.fs.icache ip).valid = false ∧ (ip ≠ 0 → (sys.fs.icache ip).ref = 0)
  locked (ip : Fin NINODE) : sys.fs.locked ip = false
  ftable (f : Fin NFILE) : (sys.ftable f).ref = 0 ∧ (sys.ftable f).type = .FD_NONE
  pages : sys.pages = 0
  init : (sys.proc 0).state = .RUNNABLE ∧ (sys.proc 0).cwd = some 0
  proc (p : Fin NPROC) (hp : p ≠ 0) : (sys.proc p).state = .UNUSED ∧ (sys.proc p).cwd = none
  ofile (p : Fin NPROC) (fd : Fin NOFILE) : (sys.proc p).ofile fd = none

end Sys

end Xv6

import Xv6.Ptable
import Xv6.Sysfile
import Xv6.Vm.Copyout

namespace Xv6

abbrev MAXARG : Nat := 32

-- What exec works on: the file system, with the number of operations that the log counts, the
-- allocator, and the process.
structure Execs where
  fs : Fs
  outstanding : Int
  mem : Kmem
  pgdir : Page
  proc : Proc
  name : List Byte

inductive ExecHalt where
  | fs (halt : FsHalt)
  | vm (halt : VmHalt)
  deriving DecidableEq

namespace Kmem

-- What the process sees at each address.
def memory (mem : Kmem) (pgdir : Page) : Memory := fun address =>
  match lookup mem.word pgdir address.toNat with
  | some pte => mem.byte pte.page (address.toNat % PAGE)
  | none => 0

def clearpteu (pgdir : Page) (uva : Nat) : M Unit := do
  match ← walkpgdir pgdir uva false with
  | none => throw .clearpteu
  | some (pgtab, index) =>
    modify fun mem =>
      let pte := mem.word pgtab index
      mem.setWord pgtab index { pte with flags := pte.flags &&& ~~~PTE_U }

end Kmem

namespace Execs

open Xv6.Action

abbrev M := Action Execs ExecHalt

def vm {Value : Type} (action : Kmem.M Value) : M Value :=
  within Execs.mem (fun mem execs => { execs with mem }) .vm action

def fsCall {Value : Type} (action : Fs.M Value) : M Value :=
  within Execs.fs (fun fs execs => { execs with fs }) .fs action

def beginOp : M Unit := modify fun execs => { execs with outstanding := execs.outstanding + 1 }

def endOp : M Unit := modify fun execs => { execs with outstanding := execs.outstanding - 1 }

-- The loop of loaduvm over these pages. Every read of a device has its own input.
def loadPages (input : Nat → Option (List Byte)) (pgdir : Page) (addr : Word) (ip : Fin NINODE) (offset sz : Word) :
    List Nat → M Bool
  | [] => return true
  | i :: rest => do
      match ← vm (Kmem.walkpgdir pgdir (addr.toNat + PAGE * i) false) with
      | none => vm (throw .loaduvmAddress)
      | some (pgtab, index) => do
          let pa := ((← get).mem.word pgtab index).page
          let n := min (sz.toNat - PAGE * i) PAGE
          match ← fsCall (Fs.readi (input i) ip (offset + BitVec.ofNat 32 (PAGE * i)) (BitVec.ofNat 32 n)) with
          | none => return false
          | some bytes => do
              vm (modify (Kmem.memmove pa 0 (bytes.take n)))
              if bytes.length ≠ n then return false else loadPages input pgdir addr ip offset sz rest

def loaduvm (input : Nat → Option (List Byte)) (pgdir : Page) (addr : Word) (ip : Fin NINODE) (offset sz : Word) :
    M Bool := do
  if addr.toNat % PAGE ≠ 0 then vm (throw .loaduvmAlign)
  loadPages input pgdir addr ip offset sz (List.range ((sz.toNat + 4095) / PAGE))

-- The loop over these program headers, with the size up to now.
def loadSegments (kernel : KernelImage) (input : Nat → Nat → Option (List Byte)) (pgdir : Page) (ip : Fin NINODE)
    (phoff : Word) : List Nat → Nat → M (Option Nat)
  | [], sz => return some sz
  | i :: rest, sz => do
      match ← fsCall (Fs.readi (input (i + 1) 0) ip (phoff + BitVec.ofNat 32 (32 * i)) 32) with
      | none => return none
      | some ph =>
        let field := Bytes.word fun i => ph.getD i 0
        let off := field 4
        let vaddr := field 8
        let filesz := field 16
        let memsz := field 20
        if ph.length ≠ 32 then return none
        else if field 0 ≠ Fs.ELF_PROG_LOAD then loadSegments kernel input pgdir ip phoff rest sz
        else if memsz < filesz then return none
        else if vaddr + memsz < vaddr then return none
        else
          let sz ← vm (Kmem.allocuvm kernel pgdir sz (vaddr + memsz).toNat)
          if sz = 0 then return none
          else if vaddr.toNat % PAGE ≠ 0 then return none
          else if ← loaduvm (fun page => input (i + 1) (page + 1)) pgdir vaddr ip off filesz then
            loadSegments kernel input pgdir ip phoff rest sz
          else return none

-- Of the ELF header: the entry point, where the program headers are and how many.
def readHeader (input : Option (List Byte)) (ip : Fin NINODE) : M (Option (Word × Word × Nat)) := do
  match ← fsCall (Fs.readi input ip 0 52) with
  | none => return none
  | some elf =>
    let bytes : Bytes := fun i => elf.getD i 0
    if elf.length ≠ 52 then return none
    else if bytes.word 0 ≠ Fs.ELF_MAGIC then return none
    else return some (bytes.word 24, bytes.word 28, (bytes.half 44).toNat)

-- The loop over the argument strings, with the addresses of those that are on the stack.
def pushArgs (pgdir : Page) : List (List Byte) → Word → List Word → M (Option (Word × List Word))
  | [], sp, ustack => return some (sp, ustack)
  | arg :: rest, sp, ustack => do
      if MAXARG ≤ ustack.length then return none
      else
        let sp := (sp - BitVec.ofNat 32 (arg.length + 1)) &&& ~~~3
        if (← vm (Kmem.copyout pgdir sp (arg ++ [0]))) < 0 then return none
        else pushArgs pgdir rest sp (ustack ++ [sp])

-- The stack below the strings: a return address, argc, argv and the pointers.
def frame (sp : Word) (pointers : List Word) : List Byte :=
  let argc := BitVec.ofNat 32 pointers.length
  ([0xffffffff, argc, sp - (argc + 1) * 4] ++ pointers ++ [0]).flatMap fun word => (List.range 4).map (byteOf word)

-- The two pages above the program, and what is on the stack at the start. The new size and stack pointer.
@[irreducible] def setupStack (kernel : KernelImage) (pgdir : Page) (argv : List (List Byte)) (sz : Nat) :
    M (Option (Nat × Word)) := do
  let sz ← vm (Kmem.allocuvm kernel pgdir (PGROUNDUP sz) (PGROUNDUP sz + 2 * PAGE))
  if sz = 0 then return none
  else
    vm (Kmem.clearpteu pgdir (sz - 2 * PAGE))
    match ← pushArgs pgdir argv (BitVec.ofNat 32 sz) [] with
    | none => return none
    | some (sp, pointers) =>
      let sp' := sp - BitVec.ofNat 32 ((3 + pointers.length + 1) * 4)
      if (← vm (Kmem.copyout pgdir sp' (frame sp pointers))) < 0 then return none
      else return some (sz, sp')

-- The path after its last slash.
def lastName (path : List Byte) : List Byte := (path.reverse.takeWhile (· ≠ Fs.slash)).reverse

def commit (kernel : KernelImage) (path : List Byte) (pgdir : Page) (entry : Word) (sz : Nat) (sp : Word) : M Int := do
  let oldpgdir := (← get).pgdir
  modify fun execs =>
    { execs with
      name := (lastName path).take 15
      pgdir := pgdir
      proc := execs.proc.exec ⟨BitVec.ofNat 32 sz, entry, sp, execs.mem.memory pgdir⟩ }
  vm (Kmem.freevm kernel oldpgdir)
  return 0

def putInode (ip : Fin NINODE) : M Unit := do
  fsCall (Fs.iunlockput ip)
  endOp

-- Where the source goes to if something is wrong.
def bad (kernel : KernelImage) (pgdir : Option Page) (ip : Option (Fin NINODE)) : M Int := do
  match pgdir with
  | none => pure ()
  | some pgdir => vm (Kmem.freevm kernel pgdir)
  match ip with
  | none => pure ()
  | some ip => putInode ip
  return -1

-- The strings are without the 0 at their end.
def exec (kernel : KernelImage) (cwd : Fin NINODE) (path : List Byte) (argv : List (List Byte))
    (input : Nat → Nat → Option (List Byte)) : M Int := do
  beginOp
  match ← fsCall (Fs.namei cwd path) with
  | none => do
      endOp
      return -1
  | some ip => do
      fsCall (Fs.ilock ip)
      match ← readHeader (input 0 0) ip with
      | none => bad kernel none (some ip)
      | some (entry, phoff, phnum) => do
          match ← vm (Kmem.setupkvm kernel) with
          | none => bad kernel none (some ip)
          | some pgdir => do
              match ← loadSegments kernel input pgdir ip phoff (List.range phnum) 0 with
              | none => bad kernel (some pgdir) (some ip)
              | some sz => do
                  putInode ip
                  match ← setupStack kernel pgdir argv sz with
                  | none => bad kernel (some pgdir) none
                  | some (sz, sp) => commit kernel path pgdir entry sz sp

end Execs

end Xv6

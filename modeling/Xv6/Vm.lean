import Mathlib.Algebra.BigOperators.Group.Finset.Basic
import Mathlib.Data.Multiset.AddSub
import Mathlib.Algebra.Order.Group.Multiset
import Xv6.Action
import Xv6.Runs

namespace Xv6

-- A physical page, by its number.
abbrev Page := Nat

abbrev NPDENTRIES : Nat := 1024
abbrev PAGE : Nat := 4096
abbrev EXTMEM : Nat := 0x100000
abbrev PHYSTOP : Nat := 0xE000000
abbrev DEVSPACE : Nat := 0xFE000000
abbrev KERNBASE : Nat := 0x80000000
abbrev KERNLINK : Nat := KERNBASE + EXTMEM

def V2P (va : Nat) : Nat := va - KERNBASE

def P2V (pa : Nat) : Nat := pa + KERNBASE

def PDX (va : Nat) : Nat := va / 2 ^ 22 % 1024

def PTX (va : Nat) : Nat := va / 2 ^ 12 % 1024

def PGROUNDUP (sz : Nat) : Nat := (sz + PAGE - 1) / PAGE * PAGE

def PGROUNDDOWN (a : Nat) : Nat := a / PAGE * PAGE

def PTE_P : BitVec 12 := 1
def PTE_W : BitVec 12 := 2
def PTE_U : BitVec 12 := 4

-- An entry of a page directory or a page table: PTE_ADDR, as a page number, and PTE_FLAGS.
structure Pte where
  page : Page
  flags : BitVec 12

namespace Pte

def zero : Pte := ⟨0, 0⟩

-- A word of bytes that are all 1.
def junk : Pte := ⟨0x01010, 0x101⟩

def present (pte : Pte) : Bool := pte.flags.getLsbD 0

end Pte

-- Where the linker has put the data of the kernel, and where the kernel ends.
structure KernelImage where
  data : Nat
  end_ : Nat
  linked : KERNLINK < data
  aligned : data % PAGE = 0
  ends : data ≤ end_
  fits : data < P2V PHYSTOP

-- The allocator, and what is in the pages if they are read as entries. In a page on the free list
-- the first word is the link to the next one, which is a list here.
structure Kmem where
  freelist : List Page
  word : Page → Nat → Pte

-- The panics, and a pointer that is null when it is used.
inductive VmHalt where
  | kfree
  | remap
  | copyuvmPte
  | copyuvmPresent
  | loaduvmAlign
  | loaduvmAddress
  | clearpteu
  | null
  deriving DecidableEq

structure Kmap where
  virt : Nat
  physStart : Nat
  physEnd : Nat
  perm : BitVec 12

namespace Kmem

abbrev M := Action Kmem VmHalt

def setPage (mem : Kmem) (page : Page) (words : Nat → Pte) : Kmem :=
  { mem with word := Function.update mem.word page words }

def setWord (mem : Kmem) (page : Page) (index : Nat) (pte : Pte) : Kmem :=
  mem.setPage page (Function.update (mem.word page) index pte)

def kfree (kernel : KernelImage) (page : Page) : M Unit := do
  if P2V (page * PAGE) < kernel.end_ ∨ PHYSTOP ≤ page * PAGE then throw .kfree
  modify fun mem => { mem.setPage page fun _ => .junk with freelist := page :: mem.freelist }

def kalloc : M (Option Page) := do
  match (← get).freelist with
  | [] => return none
  | page :: rest => do
      modify fun mem => { mem with freelist := rest }
      return some page

def memset (page : Page) : M Unit := modify fun mem => mem.setPage page fun _ => .zero

-- The entry is given by the page table and its index there.
def walkpgdir (pgdir : Page) (va : Nat) (alloc : Bool) : M (Option (Page × Nat)) := do
  let pde := (← get).word pgdir (PDX va)
  if pde.present then return some (pde.page, PTX va)
  else if !alloc then return none
  else
    match ← kalloc with
    | none => return none
    | some pgtab => do
        memset pgtab
        modify fun mem => mem.setWord pgdir (PDX va) ⟨pgtab, PTE_P ||| PTE_W ||| PTE_U⟩
        return some (pgtab, PTX va)

-- One turn of the loop of mappages.
def mapPage (pgdir : Page) (va : Nat) (page : Page) (perm : BitVec 12) : M Bool := do
  match ← walkpgdir pgdir va true with
  | none => return false
  | some (pgtab, index) => do
      if ((← get).word pgtab index).present then throw .remap
      modify fun mem => mem.setWord pgtab index ⟨page, perm ||| PTE_P⟩
      return true

-- The loop with this many turns to come after this one. `va` is not reduced to 32 bits, since
-- PDX and PTX are not changed by that.
def mapPages (pgdir : Page) (perm : BitVec 12) : Nat → Nat → Page → M Bool
  | 0, va, page => mapPage pgdir va page perm
  | turns + 1, va, page => do
      if ← mapPage pgdir va page perm then mapPages pgdir perm turns (va + PAGE) (page + 1)
      else return false

-- The last page is reached after as many turns as it is pages away, around the address space.
def mappages (pgdir : Page) (va size pa : Nat) (perm : BitVec 12) : M Bool :=
  let last := PGROUNDDOWN ((va + size + 2 ^ 32 - 1) % 2 ^ 32)
  mapPages pgdir perm ((last + 2 ^ 32 - PGROUNDDOWN va) % 2 ^ 32 / PAGE) (PGROUNDDOWN va) (pa / PAGE)

-- The loop of deallocuvm. Each turn goes on by a page at least.
def deallocLoop (kernel : KernelImage) (pgdir : Page) (oldsz : Nat) : Nat → Nat → M Unit
  | 0, _ => pure ()
  | turns + 1, a => do
      if a < oldsz then
        match ← walkpgdir pgdir a false with
        | none => deallocLoop kernel pgdir oldsz turns ((PDX a + 1) * 2 ^ 22)
        | some (pgtab, index) => do
            let pte := (← get).word pgtab index
            if pte.present then
              if pte.page = 0 then throw .kfree
              kfree kernel pte.page
              modify fun mem => mem.setWord pgtab index .zero
            deallocLoop kernel pgdir oldsz turns (a + PAGE)

def deallocuvm (kernel : KernelImage) (pgdir : Page) (oldsz newsz : Nat) : M Nat := do
  if oldsz ≤ newsz then return oldsz
  else
    deallocLoop kernel pgdir oldsz (oldsz / PAGE + 1) (PGROUNDUP newsz)
    return newsz

def freeTables (kernel : KernelImage) (pgdir : Page) : List Nat → M Unit
  | [] => pure ()
  | i :: rest => do
      let pde := (← get).word pgdir i
      if pde.present then kfree kernel pde.page
      freeTables kernel pgdir rest

def freevm (kernel : KernelImage) (pgdir : Page) : M Unit := do
  let _ ← deallocuvm kernel pgdir KERNBASE 0
  freeTables kernel pgdir (List.range NPDENTRIES)
  kfree kernel pgdir

end Kmem

def kmap (kernel : KernelImage) : List Kmap :=
  [⟨KERNBASE, 0, EXTMEM, PTE_W⟩,
    ⟨KERNLINK, V2P KERNLINK, V2P kernel.data, 0⟩,
    ⟨kernel.data, V2P kernel.data, PHYSTOP, PTE_W⟩,
    ⟨DEVSPACE, DEVSPACE, 0, PTE_W⟩]

namespace Kmem

-- The size of the last range is a difference of 32-bit numbers.
def mapKernel (pgdir : Page) : List Kmap → M Bool
  | [] => return true
  | k :: rest => do
      let size := (k.physEnd + 2 ^ 32 - k.physStart) % 2 ^ 32
      if ← mappages pgdir k.virt size k.physStart k.perm then mapKernel pgdir rest else return false

def setupkvm (kernel : KernelImage) : M (Option Page) := do
  match ← kalloc with
  | none => return none
  | some pgdir => do
      memset pgdir
      if ← mapKernel pgdir (kmap kernel) then return some pgdir
      else
        freevm kernel pgdir
        return none

def allocLoop (kernel : KernelImage) (pgdir : Page) (oldsz newsz : Nat) : Nat → Nat → M Nat
  | 0, _ => return newsz
  | turns + 1, a => do
      if a < newsz then
        match ← kalloc with
        | none => do
            let _ ← deallocuvm kernel pgdir newsz oldsz
            return 0
        | some page => do
            memset page
            if ← mappages pgdir a PAGE (page * PAGE) (PTE_W ||| PTE_U) then
              allocLoop kernel pgdir oldsz newsz turns (a + PAGE)
            else
              let _ ← deallocuvm kernel pgdir newsz oldsz
              kfree kernel page
              return 0
      else return newsz

def allocuvm (kernel : KernelImage) (pgdir : Page) (oldsz newsz : Nat) : M Nat := do
  if KERNBASE ≤ newsz then return 0
  else if newsz < oldsz then return oldsz
  else allocLoop kernel pgdir oldsz newsz (newsz / PAGE + 1) (PGROUNDUP oldsz)

def copyLoop (kernel : KernelImage) (pgdir d : Page) (sz : Nat) : Nat → Nat → M (Option Page)
  | 0, _ => return some d
  | turns + 1, i => do
      if i < sz then
        match ← walkpgdir pgdir i false with
        | none => throw .copyuvmPte
        | some (pgtab, index) => do
            let pte := (← get).word pgtab index
            if !pte.present then throw .copyuvmPresent
            match ← kalloc with
            | none => do
                freevm kernel d
                return none
            | some page => do
                modify fun mem => mem.setPage page (mem.word pte.page)
                if ← mappages d i PAGE (page * PAGE) pte.flags then
                  copyLoop kernel pgdir d sz turns (i + PAGE)
                else
                  kfree kernel page
                  freevm kernel d
                  return none
      else return some d

def copyuvm (kernel : KernelImage) (pgdir : Page) (sz : Nat) : M (Option Page) := do
  match ← setupkvm kernel with
  | none => return none
  | some d => copyLoop kernel pgdir d sz (sz / PAGE + 1) 0

end Kmem

-- The allocator with the page directories in use and the pages that callers of kalloc have. `pool` is
-- what has been handed to the allocator; no code reads it.
structure Vm where
  mem : Kmem
  dirs : List Page
  held : List Page
  pool : List Page

inductive VmCall where
  | freerange (page : Page)
  | kalloc
  | kfree (page : Page)
  | setupkvm
  | allocuvm (pgdir : Page) (oldsz newsz : Nat)
  | deallocuvm (pgdir : Page) (oldsz newsz : Nat)
  | copyuvm (pgdir : Page) (sz : Nat)
  | freevm (pgdir : Page)

namespace Vm

-- A call that returns, or one turn of freerange for a page that was not handed over before. A page is
-- freed by its holder, and a page directory that is used is in use.
def step (kernel : KernelImage) (vm : Vm) : VmCall → Option Vm
  | .freerange page =>
    if vm.pool.contains page then none
    else
      match (Kmem.kfree kernel page).run vm.mem with
      | .ok (_, mem) => some { vm with mem, pool := page :: vm.pool }
      | .error _ => none
  | .kalloc =>
    match Kmem.kalloc.run vm.mem with
    | .ok (some page, mem) => some { vm with mem, held := page :: vm.held }
    | .ok (none, mem) => some { vm with mem }
    | .error _ => none
  | .kfree page =>
    if vm.held.contains page then
      match (Kmem.kfree kernel page).run vm.mem with
      | .ok (_, mem) => some { vm with mem, held := vm.held.erase page }
      | .error _ => none
    else none
  | .setupkvm =>
    match (Kmem.setupkvm kernel).run vm.mem with
    | .ok (some pgdir, mem) => some { vm with mem, dirs := pgdir :: vm.dirs }
    | .ok (none, mem) => some { vm with mem }
    | .error _ => none
  | .allocuvm pgdir oldsz newsz =>
    if vm.dirs.contains pgdir then
      match (Kmem.allocuvm kernel pgdir oldsz newsz).run vm.mem with
      | .ok (_, mem) => some { vm with mem }
      | .error _ => none
    else none
  | .deallocuvm pgdir oldsz newsz =>
    if vm.dirs.contains pgdir then
      match (Kmem.deallocuvm kernel pgdir oldsz newsz).run vm.mem with
      | .ok (_, mem) => some { vm with mem }
      | .error _ => none
    else none
  | .copyuvm pgdir sz =>
    if vm.dirs.contains pgdir then
      match (Kmem.copyuvm kernel pgdir sz).run vm.mem with
      | .ok (some d, mem) => some { vm with mem, dirs := d :: vm.dirs }
      | .ok (none, mem) => some { vm with mem }
      | .error _ => none
    else none
  | .freevm pgdir =>
    if vm.dirs.contains pgdir then
      match (Kmem.freevm kernel pgdir).run vm.mem with
      | .ok (_, mem) => some { vm with mem, dirs := vm.dirs.erase pgdir }
      | .error _ => none
    else none

-- The size of the process that is made smaller or copied.
def processSize : VmCall → Nat
  | .deallocuvm _ oldsz _ => oldsz
  | .copyuvm _ sz => sz
  | _ => 0

-- No process is larger than the user part of the address space.
def good (_ : Vm) (call : VmCall) : Prop := processSize call ≤ KERNBASE

instance (vm : Vm) (call : VmCall) : Decidable (good vm call) := inferInstanceAs (Decidable (_ ≤ _))

-- Before kinit1 the allocator has nothing.
abbrev Reach (kernel : KernelImage) : Vm → Prop :=
  Xv6.Reach (step kernel) good fun vm => vm.mem.freelist = [] ∧ vm.dirs = [] ∧ vm.held = [] ∧ vm.pool = []

end Vm

end Xv6

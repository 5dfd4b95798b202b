import Xv6.Ptable
import Xv6.Sysfile.Theorems
import Xv6.Vm.Copy
import Xv6.Vm.Places

namespace Xv6

open Function Multiset

-- The process table with the pages and the files of the processes. `kstack` is the page of the kernel
-- stack where the table says that there is one.
structure Procs where
  table : Ptable
  mem : Kmem
  kstack : Slot → Page
  pgdir : Slot → Page
  sys : Sys

inductive ProcsHalt where
  | vm (halt : VmHalt)
  | sys (halt : SysHalt)
  deriving DecidableEq

namespace Procs

open Xv6.Action

abbrev M := Action Procs ProcsHalt

def vm {Value : Type} (action : Kmem.M Value) : M Value :=
  within Procs.mem (fun mem procs => { procs with mem }) .vm action

def files {Value : Type} (action : Sys.M Value) : M Value :=
  within Procs.sys (fun sys procs => { procs with sys }) .sys action

def modifyProc (p : Slot) (change : Proc → Proc) : M Unit :=
  modify fun procs => { procs with table := procs.table.update p change }

def allocproc : M (Option Slot) := do
  match (← get).table.unused with
  | none => return none
  | some p => do
      let pid := (← get).table.nextpid
      modifyProc p fun proc => { proc with state := .EMBRYO, pid }
      modify fun procs => { procs with table := { procs.table with nextpid := pid + 1 } }
      match ← vm Kmem.kalloc with
      | none => do
          modifyProc p fun proc => { proc with kstack := false, state := .UNUSED }
          return none
      | some page => do
          modify fun procs => { procs with kstack := update procs.kstack p page }
          modifyProc p fun proc => { proc with kstack := true, sigpending := 0, justwoken := false }
          return some p

-- The files of the child.
def forkFiles (me np : Slot) : Sys.M Unit := do
  Sys.forkFiles me np (List.finRange NOFILE)
  let ip ← Sys.fsCall (Fs.idup (← Sys.cwd me))
  Sys.modifyTask np fun task => { task with state := .RUNNABLE, cwd := some ip }

def fork (kernel : KernelImage) (me : Slot) : M Int := do
  match ← allocproc with
  | none => return -1
  | some np => do
      let procs ← get
      let cur := procs.table.proc me
      match ← vm (Kmem.copyuvm kernel (procs.pgdir me) cur.sz.toNat) with
      | none => do
          vm (Kmem.kfree kernel (procs.kstack np))
          modifyProc np fun proc => { proc with kstack := false, state := .UNUSED }
          return -1
      | some pgdir => do
          modify fun procs => { procs with pgdir := update procs.pgdir np pgdir }
          modifyProc np (·.copyFrom cur me)
          files (forkFiles me np)
          modifyProc np (·.setState .RUNNABLE)
          return (procs.table.proc np).pid

-- The kernel stack of an entry.
def stack (procs : Procs) (slot : Slot) : Option Page :=
  if (procs.table.proc slot).kstack then some (procs.kstack slot) else none

-- Nothing is left of a call.
structure Undone (procs next : Procs) : Prop where
  state (slot : Slot) : (next.table.proc slot).state = (procs.table.proc slot).state
  pid (slot : Slot) : (next.table.proc slot).pid = (procs.table.proc slot).pid
  parent (slot : Slot) : (next.table.proc slot).parent = (procs.table.proc slot).parent
  killed (slot : Slot) : (next.table.proc slot).killed = (procs.table.proc slot).killed
  stack (slot : Slot) : next.stack slot = procs.stack slot
  sigblocked (slot : Slot) : (next.table.proc slot).sigblocked = (procs.table.proc slot).sigblocked
  userdefed (slot : Slot) : (next.table.proc slot).userdefed = (procs.table.proc slot).userdefed
  allinfo (slot : Slot) : (next.table.proc slot).allinfo = (procs.table.proc slot).allinfo
  free : (next.mem.freelist : Multiset Page) = procs.mem.freelist
  files : next.sys = procs.sys

-- What a fork that has failed leaves of the entry that it had taken.
def givenBack (proc : Proc) (pid : Int) (sigpending : Word) (justwoken : Bool) : Proc :=
  { proc with kstack := false, state := .UNUSED, pid, sigpending, justwoken }

structure Failed (procs next : Procs) (slot : Slot) : Prop where
  table : ∃ sigpending justwoken, next.table.proc = update procs.table.proc slot
    (givenBack (procs.table.proc slot) procs.table.nextpid sigpending justwoken)
  kstack (other : Slot) (hne : other ≠ slot) : next.kstack other = procs.kstack other
  free : (next.mem.freelist : Multiset Page) = procs.mem.freelist
  files : next.sys = procs.sys

variable {kernel : KernelImage} {me : Slot} {procs next : Procs}

theorem allocproc_wp {returns : Option Slot → Procs → Prop} {stops : ProcsHalt → Prop}
    (hfull : procs.table.unused = none → returns none procs)
    (hempty : ∀ slot next, procs.table.unused = some slot → procs.mem.freelist = [] →
      procs.table.allocproc false = (next.table, none) → Failed procs next slot → returns none next)
    (hfound : ∀ slot page rest next, procs.table.unused = some slot → procs.mem.freelist = page :: rest →
      procs.table.allocproc true = (next.table, some slot) →
      next.table.proc = update procs.table.proc slot
        { procs.table.proc slot with
          state := .EMBRYO, pid := procs.table.nextpid, kstack := true, sigpending := 0, justwoken := false } →
      next.kstack = update procs.kstack slot page → next.mem = { procs.mem with freelist := rest } →
      next.pgdir = procs.pgdir → next.sys = procs.sys → returns (some slot) next) :
    wp allocproc procs returns stops := by
  unfold allocproc
  simp only [wp_bind, wp_get]
  cases hunused : procs.table.unused with
  | none => exact hfull hunused
  | some slot =>
    simp only [wp_bind, wp_get, modifyProc, wp_modify, vm, wp_within]
    refine Kmem.kalloc_wp (fun hlist => ?_) fun page rest hlist => ?_
    · refine hempty slot _ hunused hlist (by simp [Ptable.allocproc, hunused])
        ⟨⟨(procs.table.proc slot).sigpending, (procs.table.proc slot).justwoken, ?_⟩,
        fun _ _ => rfl, rfl, rfl⟩
      simp [Ptable.update, givenBack]
    · refine hfound slot page rest _ hunused hlist (by simp [Ptable.allocproc, hunused]) ?_ rfl rfl rfl rfl
      simp [Ptable.update]

theorem Handed.tail {pages : Multiset Page} {page : Page} (h : Handed kernel (page ::ₘ pages)) : Handed kernel pages :=
  ⟨(Multiset.nodup_cons.mp h.nodup).2, fun other hother => h.owns other (Multiset.mem_cons_of_mem hother)⟩

-- A call that returns -1 has found no entry, or has given it back.
theorem fork_wp (hhanded : Handed kernel procs.mem.freelist) (hsz : (procs.table.proc me).sz.toNat ≤ KERNBASE)
    (hpid : procs.table.nextpid ≠ -1) :
    wp (fork kernel me) procs (fun result next => result = -1 →
      procs.table.unused = none ∧ next = procs ∨ ∃ slot, procs.table.unused = some slot ∧ Failed procs next slot)
      fun _ => True := by
  unfold fork
  rw [wp_bind]
  refine allocproc_wp (fun hfull _ => .inl ⟨hfull, rfl⟩) (fun slot next hunused _ _ hfailed _ => ?_) ?_
  · exact .inr ⟨slot, hunused, hfailed⟩
  intro slot page rest next hunused hlist _ htable hkstack hmem _ hsys
  have hsize : (next.table.proc me).sz = (procs.table.proc me).sz := by
    rw [htable]
    by_cases hme : me = slot
    · subst hme
      rw [update_self]
    · rw [update_of_ne hme]
  rw [hlist, ← cons_coe] at hhanded
  simp only [wp_bind, wp_get, vm, wp_within]
  rw [hsize, hmem]
  have hfree := add_zero (rest : Multiset Page)
  refine Kmem.copyuvm_wp (Handed.tail hhanded) hsz hfree (fun _ _ => trivial) ?_
  intro made mem hmade _
  cases made with
  | none =>
    simp only [wp_bind, wp_within, modifyProc, wp_modify, wp_pure]
    rw [hkstack, update_self]
    refine Kmem.kfree_wp (hhanded.owns page (mem_cons_self _ _)) ?_
    refine fun _ => .inr ⟨slot, hunused, ⟨0, false, ?_⟩, fun other hne => ?_, ?_, hsys⟩
    · simp [Ptable.update, htable, givenBack]
    · exact update_of_ne hne _ _
    · have hfree : (mem.freelist : Multiset Page) = rest := by rw [← add_zero (mem.freelist : Multiset Page), hmade]
      rw [hlist, ← cons_coe, ← cons_coe, ← hfree]
  | some pgdir =>
    simp only [wp_bind, modifyProc, wp_modify, files, wp_within, wp_pure]
    refine wp.of_forall (fun _ _ hresult => absurd hresult ?_) fun _ => trivial
    rw [htable, update_self]
    exact hpid

-- What decides how a fork ends: whether there is a page for the kernel stack, and whether copyuvm makes a copy with the
-- pages that are left.
def hasPage (procs : Procs) : Bool := !procs.mem.freelist.isEmpty

def copies (kernel : KernelImage) (me : Slot) (procs : Procs) : Bool :=
  match (Kmem.copyuvm kernel (procs.pgdir me) (procs.table.proc me).sz.toNat).run
    { procs.mem with freelist := procs.mem.freelist.tail } with
  | .ok (made, _) => made.isSome
  | .error _ => false

-- The process can fork: its pages are there and are its own, and what it has open is counted.
structure Forks (kernel : KernelImage) (me : Slot) (procs : Procs) : Prop where
  handed : Handed kernel procs.mem.freelist
  apart : Disjoint (procs.mem.freelist : Multiset Page) (dirPages procs.mem.word (procs.pgdir me))
  size : (procs.table.proc me).sz.toNat ≤ KERNBASE
  present (va : Nat) (hva : va < (procs.table.proc me).sz.toNat) : lookup procs.mem.word (procs.pgdir me) va ≠ none
  used : (procs.table.proc me).state ≠ .UNUSED
  ofile (fd : Fin NOFILE) (f : Fin NFILE) (hfd : (procs.sys.proc me).ofile fd = some f) : 0 < (procs.sys.ftable f).ref
  cwd : (procs.sys.proc me).cwd ≠ none

theorem forkFiles_wp {child : Slot} {sys : Sys} (hchild : child ≠ me) (hcwd : (sys.proc me).cwd ≠ none)
    (hopen : ∀ fd f, (sys.proc me).ofile fd = some f → 0 < (sys.ftable f).ref) :
    wp (forkFiles me child) sys (fun _ _ => True) fun _ => False := by
  have hfds : ∀ (fds : List (Fin NOFILE)) (sys : Sys),
      (∀ fd f, (sys.proc me).ofile fd = some f → 0 < (sys.ftable f).ref) →
      wp (Sys.forkFiles me child fds) sys (fun _ next => next.proc me = sys.proc me) fun _ => False := by
    intro fds
    induction fds with
    | nil => exact fun _ _ => rfl
    | cons fd rest ih =>
      intro sys hopen
      simp only [Sys.forkFiles, wp_bind, wp_get]
      cases hfd : (sys.proc me).ofile fd with
      | none => exact ih sys hopen
      | some f =>
        have hpos := hopen fd f hfd
        simp only [Sys.filedup, Sys.modifyFile, Sys.setFd, Sys.modifyTask, wp_bind, wp_get, wp_ite, wp_throw, wp_modify]
        rw [if_neg (by omega)]
        refine (ih _ fun other file hother => ?_).imp fun _ next hnext => hnext.trans (update_of_ne hchild.symm _ _)
        simp only [update_of_ne hchild.symm] at hother
        have hold := hopen other file hother
        by_cases hfile : file = f
        · subst hfile
          simp only [update_self]
          omega
        · simpa [update_of_ne hfile] using hold
  simp only [forkFiles, wp_bind]
  refine (hfds _ sys hopen).imp fun _ next hnext => ?_
  obtain ⟨ip, hip⟩ := Option.ne_none_iff_exists'.mp hcwd
  simp only [Sys.cwd, wp_bind, wp_get, hnext, hip]
  rw [wp_pure]
  refine Sys.wp_fsCall ?_
  exact trivial

theorem Forks.copyuvm (h : Forks kernel me procs) {page : Page} {rest : List Page}
    (hlist : procs.mem.freelist = page :: rest) :
    wp (Kmem.copyuvm kernel (procs.pgdir me) (procs.table.proc me).sz.toNat) { procs.mem with freelist := rest }
      (fun made _ => procs.copies kernel me = made.isSome ∧
        (made = none → rest.length ≤ NPDENTRIES + PGROUNDUP (procs.table.proc me).sz.toNat / PAGE))
      fun _ => False := by
  obtain ⟨hhanded, hapart⟩ := And.intro h.handed h.apart
  rw [hlist, ← cons_coe] at hhanded hapart
  have hreturns : wp (Kmem.copyuvm kernel (procs.pgdir me) (procs.table.proc me).sz.toNat)
      { procs.mem with freelist := rest }
      (fun made _ => made = none → rest.length ≤ NPDENTRIES + PGROUNDUP (procs.table.proc me).sz.toNat / PAGE)
      fun _ => False := by
    refine Kmem.copyuvm_copies_wp (Handed.tail hhanded) (disjoint_cons_left.mp hapart).2 ?_ ?_
      (fun hshort _ _ => hshort) fun _ _ _ hnone => absurd hnone (by simp)
    · exact h.present
    · exact fun hlarge => absurd h.size (Nat.not_le.mpr hlarge)
  obtain ⟨made, mem, hrun, hmade⟩ := hreturns.run_of_false
  simp only [copies, hlist, List.tail_cons, hrun, wp]
  exact ⟨trivial, hmade⟩

-- A page for the stack, one for the page directory, one for each page table there can be, and those of the process.
theorem Forks.copies_of_room (h : Forks kernel me procs)
    (hroom : NPDENTRIES + PGROUNDUP (procs.table.proc me).sz.toNat / PAGE + 1 < procs.mem.freelist.length) :
    procs.hasPage = true ∧ procs.copies kernel me = true := by
  cases hlist : procs.mem.freelist with
  | nil => simp [hlist] at hroom
  | cons page rest =>
    refine ⟨by simp [hasPage, hlist], ?_⟩
    obtain ⟨made, _, -, hmade, hshort⟩ := (h.copyuvm hlist).run_of_false
    cases made with
    | none =>
      have hfew := hshort rfl
      rw [hlist, List.length_cons] at hroom
      omega
    | some _ => exact hmade

-- It returns, and does to the table what the fork of the process-table machine does that has the same outcome.
theorem fork_table (h : Forks kernel me procs) : wp (fork kernel me) procs (fun result next =>
    procs.table.fork me procs.hasPage (procs.copies kernel me) = (next.table, result)) fun _ => False := by
  unfold fork
  rw [wp_bind]
  refine allocproc_wp (fun hfull => ?_) (fun slot next hunused hlist halloc _ => ?_) ?_
  · simp [Ptable.fork, Ptable.allocproc, hfull]
  · simp [Ptable.fork, hasPage, hlist, halloc]
  intro slot page rest next hunused hlist halloc htable hkstack hmem hpgdir hsys
  have hslot : slot ≠ me := by
    rintro rfl
    exact h.used (by simpa using List.find?_some hunused)
  have hme : next.table.proc me = procs.table.proc me := by rw [htable, update_of_ne hslot.symm]
  have hpage : procs.hasPage = true := by simp [hasPage, hlist]
  have howns : kernel.Owns page := h.handed.owns page (by simp [hlist])
  simp only [wp_bind, wp_get, vm, wp_within]
  rw [hme, hmem, hpgdir]
  apply (h.copyuvm hlist).imp
  rintro made mem ⟨hmade, -⟩
  cases made with
  | none =>
    simp only [wp_bind, wp_within, modifyProc, wp_modify, wp_pure]
    rw [hkstack, update_self]
    refine Kmem.kfree_wp howns ?_
    simp [Ptable.fork, hpage, hmade, halloc]
  | some pgdir =>
    simp only [wp_bind, modifyProc, wp_modify, files, wp_within, wp_pure]
    rw [hsys]
    refine (forkFiles_wp hslot h.cwd h.ofile).imp fun _ _ _ => ?_
    simp [Ptable.fork, hpage, hmade, halloc, hme, Ptable.update]

-- The first process has one page, and there are enough for a child.
def forking : Procs where
  table :=
    ⟨fun slot => if slot = 0 then { Proc.zero with state := .RUNNING, pid := 1, sz := PGSIZE } else .zero, 2, some 0⟩
  mem := Kmem.manyPages
  kstack _ := 0
  pgdir _ := 1
  sys := Sys.boot Fs.mkfs

theorem forking_forks : Forks Vm.smallKernel 0 forking where
  handed := Kmem.manyPages_handed
  apart := Kmem.manyPages_disjoint
  size := by decide
  present _ hva := Kmem.manyPages_lookup hva
  used := by decide
  ofile _ _ hfd := by cases hfd
  cwd := by decide

theorem fork_table_page : ∃ next, (fork Vm.smallKernel 0).run forking = .ok (2, next) ∧
    (next.table.proc 1).state = .RUNNABLE := by
  have hroom : NPDENTRIES + PGROUNDUP (forking.table.proc 0).sz.toNat / PAGE + 1 < forking.mem.freelist.length := by
    have hlength : forking.mem.freelist.length = 1100 :=
      (congrArg List.length Kmem.manyPages_freelist).trans List.length_range'
    rw [hlength]
    decide
  obtain ⟨hpage, hcopies⟩ := forking_forks.copies_of_room hroom
  obtain ⟨result, next, hrun, htable⟩ := (fork_table forking_forks).run_of_false
  rw [hpage, hcopies] at htable
  have hresult : (forking.table.fork 0 true true).2 = 2 := rfl
  have hstate : ((forking.table.fork 0 true true).1.proc 1).state = .RUNNABLE := rfl
  rw [htable] at hresult hstate
  exact ⟨next, hresult ▸ hrun, hstate⟩

theorem Failed.undone {slot : Slot} (h : Failed procs next slot) (hunused : (procs.table.proc slot).state = .UNUSED)
    (hpid : (procs.table.proc slot).pid = procs.table.nextpid) (hkstack : (procs.table.proc slot).kstack = false) :
    Undone procs next := by
  obtain ⟨sigpending, justwoken, htable⟩ := h.table
  have hfield : ∀ {Field : Type} (field : Proc → Field),
      field (givenBack (procs.table.proc slot) procs.table.nextpid sigpending justwoken) =
        field (procs.table.proc slot) → ∀ other, field (next.table.proc other) = field (procs.table.proc other) := by
    intro Field field heq other
    rw [htable]
    by_cases hother : other = slot
    · rw [hother, update_self, heq]
    · rw [update_of_ne hother]
  refine ⟨hfield Proc.state hunused.symm, hfield Proc.pid hpid.symm, hfield Proc.parent rfl, hfield Proc.killed rfl, ?_,
    hfield Proc.sigblocked rfl, hfield Proc.userdefed rfl, hfield Proc.allinfo rfl, h.free, h.files⟩
  intro other
  unfold stack
  rw [hfield Proc.kstack hkstack.symm other]
  by_cases hother : other = slot
  · rw [hother, hkstack, if_neg (by decide), if_neg (by decide)]
  · rw [h.kstack other hother]

-- A call that has taken an entry does not put back the pid, and it clears the pointer to the kernel stack.
theorem fork_undone_iff (hhanded : Handed kernel procs.mem.freelist)
    (hsz : (procs.table.proc me).sz.toNat ≤ KERNBASE) (hpid : procs.table.nextpid ≠ -1)
    (hfork : (fork kernel me).run procs = .ok (-1, next)) :
    Undone procs next ↔ ∀ slot, procs.table.unused = some slot →
      (procs.table.proc slot).pid = procs.table.nextpid ∧ (procs.table.proc slot).kstack = false := by
  rcases (fork_wp hhanded hsz hpid).returned hfork rfl with ⟨hfull, rfl⟩ | ⟨slot, hunused, hfailed⟩
  · refine iff_of_true ?_ fun slot hslot => absurd hslot (by simp [hfull])
    exact ⟨fun _ => rfl, fun _ => rfl, fun _ => rfl, fun _ => rfl, fun _ => rfl, fun _ => rfl, fun _ => rfl,
      fun _ => rfl, rfl, rfl⟩
  constructor
  · intro hundone other hother
    rw [hunused] at hother
    rw [← Option.some.inj hother]
    obtain ⟨sigpending, justwoken, htable⟩ := hfailed.table
    have hpid := hundone.pid slot
    have hstack := hundone.stack slot
    rw [htable, update_self] at hpid
    simp only [stack, htable, update_self, givenBack, Bool.false_eq_true, if_false] at hstack
    refine ⟨hpid.symm, ?_⟩
    by_contra hkstack
    rw [if_pos (Bool.of_not_eq_false hkstack)] at hstack
    exact absurd hstack (by simp)
  · intro h
    obtain ⟨hpid, hkstack⟩ := h slot hunused
    have hstate : (procs.table.proc slot).state = .UNUSED := by simpa using List.find?_some hunused
    exact hfailed.undone hstate hpid hkstack

-- Every entry of the table is in use.
def fullTable : Procs where
  table := ⟨fun _ => { Proc.zero with state := .RUNNABLE, pid := 1 }, 2, none⟩
  mem := ⟨[0x102], fun _ _ => .junk⟩
  kstack _ := 0
  pgdir _ := 0
  sys := Sys.boot Fs.mkfs

theorem fork_undone_full : ∃ next, (fork Vm.smallKernel 0).run fullTable = .ok (-1, next) ∧ Undone fullTable next := by
  have hhanded : Handed Vm.smallKernel fullTable.mem.freelist := by
    refine ⟨by decide, fun page hpage => ?_⟩
    obtain rfl : page = 0x102 := by simpa [fullTable] using hpage
    unfold KernelImage.Owns
    decide
  have hunused : fullTable.table.unused = none := by decide
  have hfork : (fork Vm.smallKernel 0).run fullTable = .ok (-1, fullTable) := rfl
  refine ⟨fullTable, hfork, (fork_undone_iff hhanded (by decide) (by decide) hfork).mpr fun slot hslot => ?_⟩
  exact absurd hslot (by simp [hunused])

-- The first process forks when there is no page left.
def noPages : Procs where
  table := ⟨fun slot => if slot = 0 then { Proc.zero with state := .RUNNING, pid := 1 } else .zero, 2, some 0⟩
  mem := ⟨[], fun _ _ => .junk⟩
  kstack _ := 0
  pgdir _ := 0
  sys := Sys.boot Fs.mkfs

theorem fork_leaves_pid : ∃ next, (fork Vm.smallKernel 0).run noPages = .ok (-1, next) ∧
    (noPages.table.proc 1).pid = 0 ∧ (next.table.proc 1).pid = 2 ∧ (next.table.proc 1).state = .UNUSED :=
  ⟨_, rfl, rfl, rfl, rfl⟩

end Procs

end Xv6

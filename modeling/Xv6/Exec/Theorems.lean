import Xv6.Fs.Refs
import Xv6.Mkfs
import Xv6.Vm.Loading

namespace Xv6.Execs

open Xv6.Action Kmem

variable {kernel : KernelImage} {start execs : Execs} {dir : Page} {sz : Nat} {ip : Fin NINODE}

-- The process is as it was.
structure Unchanged (start execs : Execs) : Prop where
  pgdir : execs.pgdir = start.pgdir
  proc : execs.proc = start.proc
  name : execs.name = start.name

-- There is no page directory but that of the process.
structure Idle (start execs : Execs) : Prop extends Unchanged start execs where
  free : (execs.mem.freelist : Multiset Page) = start.mem.freelist
  frame : Kmem.Frame start.mem.freelist start.mem execs.mem

-- There is a new page directory, made of free pages.
structure Making (start execs : Execs) (dir : Page) : Prop extends Unchanged start execs where
  made : execs.mem.Dir dir 0 start.mem.freelist
  frame : Kmem.Frame start.mem.freelist start.mem execs.mem

-- It has a process of this size.
structure Loads (start execs : Execs) (dir : Page) (sz : Nat) : Prop extends Unchanged start execs where
  loading : Kmem.Loading start.mem execs.mem dir start.mem.freelist sz

theorem Loads.making (h : Loads start execs dir sz) : Making start execs dir :=
  ⟨h.toUnchanged, h.loading.dir, h.loading.frame⟩

theorem Loads.setMem (h : Loads start execs dir sz) {mem : Kmem} {size : Nat}
    (hmem : Kmem.Loading start.mem mem dir start.mem.freelist size) : Loads start { execs with mem } dir size :=
  ⟨⟨h.pgdir, h.proc, h.name⟩, hmem⟩

-- The file system and the log are not in these.
theorem Idle.setFs (h : Idle start execs) (fs : Fs) (outstanding : Int) :
    Idle start { execs with fs, outstanding } := ⟨⟨h.pgdir, h.proc, h.name⟩, h.free, h.frame⟩

theorem Loads.setFs (h : Loads start execs dir sz) (fs : Fs) (outstanding : Int) :
    Loads start { execs with fs, outstanding } dir sz := ⟨⟨h.pgdir, h.proc, h.name⟩, h.loading⟩

variable {Value : Type} {filesz : Word} {input : Nat → Nat → Option (List Byte)} {argv : List (List Byte)}
  {cwd : Fin NINODE} {path : List Byte}

theorem fsCall_wp {action : Fs.M Value} {returns : Value → Execs → Prop}
    (h : ∀ value fs, returns value { execs with fs }) : wp (fsCall action) execs returns fun _ => True := by
  rw [fsCall, wp_within]
  exact wp.of_forall h fun _ => trivial

-- The sum did not wrap around.
theorem toNat_add_le {vaddr memsz : Word} (hsize : ¬memsz < filesz) (hwraps : ¬vaddr + memsz < vaddr) :
    vaddr.toNat + filesz.toNat ≤ (vaddr + memsz).toNat := by
  simp only [BitVec.lt_def, BitVec.toNat_add] at *
  have hvaddr := vaddr.isLt
  have hmemsz := memsz.isLt
  omega

theorem readHeader_wp {input : Option (List Byte)} {returns : Option (Word × Word × Nat) → Execs → Prop}
    (h : ∀ value fs, returns value { execs with fs }) : wp (readHeader input ip) execs returns fun _ => True := by
  unfold readHeader
  rw [wp_bind]
  refine fsCall_wp fun value fs => ?_
  cases value with
  | none => exact h none fs
  | some elf =>
    simp only [wp_ite, wp_pure]
    split_ifs
    · exact h none fs
    · exact h none fs
    · exact h _ fs

section Load

variable (hhanded : Handed kernel start.mem.freelist)

include hhanded

variable {offset : Word}

theorem loadPages_wp {input : Nat → Option (List Byte)} {addr : Word} {places : List Nat}
    (h : Loads start execs dir sz) (hplaces : ∀ i ∈ places, addr.toNat + PAGE * i < sz) :
    wp (loadPages input dir addr ip offset filesz places) execs (fun _ next => Loads start next dir sz)
      fun _ => True := by
  induction places generalizing execs with
  | nil => exact h
  | cons i rest ih =>
    have hva := hplaces i List.mem_cons_self
    have hrest : ∀ i ∈ rest, addr.toNat + PAGE * i < sz := fun i hi => hplaces i (List.mem_cons_of_mem _ hi)
    obtain ⟨pte, hpte⟩ := h.loading.lookup hva
    obtain ⟨-, -, hword⟩ := lookup_eq_some_iff.mp hpte
    simp only [loadPages, wp_bind, vm, wp_within]
    refine walkpgdir_find_wp (fun _ => ?_) fun _ => ?_
    · simp only [wp_within, wp_throw]
    simp only [wp_bind, wp_get]
    refine fsCall_wp fun value fs => ?_
    cases value with
    | none => exact h.setFs fs execs.outstanding
    | some bytes =>
      simp only [wp_bind, wp_within, wp_modify, wp_ite, wp_pure]
      have hmoved := h.loading.writes hhanded.nodup (Kmem.UserWrites.memmove
        (hva.trans_le h.loading.whole.fits) hpte 0 (bytes.take (min (filesz.toNat - PAGE * i) PAGE)))
      rw [hword]
      have hnext := (h.setFs fs execs.outstanding).setMem hmoved
      split_ifs
      · exact hnext
      · exact ih hnext hrest

theorem loaduvm_wp {input : Nat → Option (List Byte)} {addr : Word} (h : Loads start execs dir sz)
    (hsize : addr.toNat + filesz.toNat ≤ sz) :
    wp (loaduvm input dir addr ip offset filesz) execs (fun _ next => Loads start next dir sz) fun _ => True := by
  have hplaces : ∀ i ∈ List.range ((filesz.toNat + 4095) / PAGE), addr.toNat + PAGE * i < sz := by
    intro i hi
    have hi := List.mem_range.mp hi
    unfold PAGE at hi ⊢
    omega
  unfold loaduvm
  simp only [wp_bind, wp_ite, vm, wp_within, wp_throw]
  split_ifs
  exact loadPages_wp hhanded h hplaces

theorem loadSegments_wp {phoff : Word} {headers : List Nat} (h : Loads start execs dir sz) :
    wp (loadSegments kernel input dir ip phoff headers sz) execs
      (fun result next => Making start next dir ∧ ∀ size ∈ result, Loads start next dir size) fun _ => True := by
  induction headers generalizing execs sz with
  | nil =>
    refine ⟨h.making, fun size hsize => ?_⟩
    obtain rfl := Option.mem_some.mp hsize
    exact h
  | cons i rest ih =>
    have hfails : ∀ {next : Execs}, Making start next dir →
        Making start next dir ∧ ∀ size ∈ (none : Option Nat), Loads start next dir size :=
      fun hnext => ⟨hnext, fun _ hsize => absurd hsize (by simp)⟩
    rw [loadSegments, wp_bind]
    refine fsCall_wp fun value fs => ?_
    have h := h.setFs fs execs.outstanding
    cases value with
    | none => exact hfails h.making
    | some ph =>
      simp only [wp_ite, wp_pure, wp_bind, vm, wp_within]
      have hmade : ∀ {mem : Kmem}, mem.Dir dir 0 start.mem.freelist → Kmem.Frame start.mem.freelist execs.mem mem →
          Making start { execs with fs, mem } dir :=
        fun hdir hframe => ⟨⟨h.pgdir, h.proc, h.name⟩, hdir, h.loading.frame.trans hframe⟩
      split_ifs with hlength htype hsize hwraps halign
      · exact hfails h.making
      · exact ih h
      · exact hfails h.making
      · exact hfails h.making
      · refine allocuvm_wp hhanded h.loading.dir (fun _ => trivial) fun size mem hdir hframe _ => ?_
        rw [ite_self]
        exact hfails (hmade hdir hframe)
      · refine allocuvm_wp hhanded h.loading.dir (fun _ => trivial) fun size mem hdir hframe halloced => ?_
        split_ifs with hzero
        · exact hfails (hmade hdir hframe)
        · obtain ⟨hloading, hle⟩ := h.loading.alloced halloced hdir hframe hzero
          refine (loaduvm_wp hhanded (h.setMem hloading) ((toNat_add_le hsize hwraps).trans hle)).imp ?_
          intro ok next hnext
          split_ifs
          · exact ih hnext
          · exact hfails hnext.making

theorem pushArgs_wp {sp : Word} {ustack : List Word} (h : Loads start execs dir sz) :
    wp (pushArgs dir argv sp ustack) execs (fun _ next => Loads start next dir sz) fun _ => True := by
  induction argv generalizing execs sp ustack with
  | nil => exact h
  | cons arg rest ih =>
    simp only [pushArgs, wp_ite, wp_pure, wp_bind, vm, wp_within]
    split_ifs
    · exact h
    · refine copyout_loading h.loading hhanded.nodup trivial fun result mem hmem => ?_
      split_ifs
      · exact h.setMem hmem
      · exact ih (h.setMem hmem)

theorem setupStack_wp (h : Loads start execs dir sz) :
    wp (setupStack kernel dir argv sz) execs (fun _ next => Making start next dir) fun _ => True := by
  have h : Loads start execs dir (PGROUNDUP sz) := ⟨h.toUnchanged, h.loading.round⟩
  unfold setupStack
  generalize PGROUNDUP sz = sz at h ⊢
  generalize hnewsz : sz + 2 * PAGE = newsz
  simp only [wp_bind, vm, wp_within, wp_ite, wp_pure]
  refine allocuvm_wp hhanded h.loading.dir (fun _ => trivial) fun size mem hdir hframe halloced => ?_
  split_ifs with hzero
  · exact ⟨⟨h.pgdir, h.proc, h.name⟩, hdir, h.loading.frame.trans hframe⟩
  · obtain ⟨hloading, hle⟩ := h.loading.alloced halloced hdir hframe hzero
    refine clearpteu_loading hloading hhanded.nodup ?_ trivial fun mem hmem => ?_
    · unfold PAGE at hnewsz ⊢
      omega
    refine (pushArgs_wp hhanded (h.setMem hmem)).imp ?_
    intro pushed next hnext
    cases pushed with
    | none => exact hnext.making
    | some pushed =>
      simp only [wp_bind, wp_within]
      refine copyout_loading hnext.loading hhanded.nodup trivial fun result mem hmem => ?_
      rw [wp_ite]
      split_ifs
      · exact (hnext.setMem hmem).making
      · exact (hnext.setMem hmem).making

end Load

section

variable (hhanded : Handed kernel start.mem.freelist)

include hhanded

-- Whatever has been made is freed.
theorem bad_wp {pgdir : Option Page} {ip : Option (Fin NINODE)}
    (hidle : pgdir = none → Idle start execs) (hmaking : ∀ dir ∈ pgdir, Making start execs dir) :
    wp (bad kernel pgdir ip) execs (fun result next => result = -1 ∧ Idle start next) fun _ => True := by
  have hput : ∀ {next : Execs} {ip : Fin NINODE}, Idle start next →
      wp (putInode ip) next (fun _ next => Idle start next) fun _ => True := by
    intro next ip hnext
    simp only [putInode, endOp, wp_bind]
    exact fsCall_wp fun _ fs => hnext.setFs fs _
  have hfree : ∀ {dir : Page}, Making start execs dir →
      wp (freevm kernel dir) execs.mem (fun _ mem => Idle start { execs with mem }) fun _ => True := by
    intro dir hmaking
    refine freevm_wp hhanded hmaking.made fun mem hfree hframe => ?_
    rw [add_zero] at hfree
    exact ⟨⟨hmaking.pgdir, hmaking.proc, hmaking.name⟩, hfree, hmaking.frame.trans hframe⟩
  unfold bad
  cases pgdir with
  | none =>
    cases ip with
    | none => exact ⟨rfl, hidle rfl⟩
    | some ip =>
      simp only [wp_bind]
      exact (hput (hidle rfl)).imp fun _ _ h => ⟨rfl, h⟩
  | some dir =>
    simp only [wp_bind, vm, wp_within]
    refine (hfree (hmaking dir rfl)).imp fun _ mem hnext => ?_
    cases ip with
    | none => exact ⟨rfl, hnext⟩
    | some ip =>
      rw [wp_bind]
      exact (hput hnext).imp fun _ _ h => ⟨rfl, h⟩

-- exec up to the stack: what is left to show is what setupStack and commit do.
theorem exec_wp {returns : Int → Execs → Prop}
    (hidle : ∀ next, Idle start next → returns (-1) next) (hstack : ∀ execs dir sz, Loads start execs dir sz →
      wp (setupStack kernel dir argv sz) execs (fun made next => (made = none → Making start next dir) ∧
        ∀ sz sp entry, made = some (sz, sp) → wp (commit kernel path dir entry sz sp) next returns fun _ => True)
        fun _ => True) : wp (exec kernel cwd path argv input) start returns fun _ => True := by
  have hbad : ∀ {execs : Execs} {pgdir : Option Page} {ip : Option (Fin NINODE)},
      (pgdir = none → Idle start execs) → (∀ dir ∈ pgdir, Making start execs dir) →
      wp (bad kernel pgdir ip) execs returns fun _ => True := by
    intro execs pgdir ip hnone hmaking
    exact (bad_wp hhanded hnone hmaking).imp fun result next h => h.1 ▸ hidle next h.2
  have hstart : ∀ fs outstanding, Idle start { start with fs, outstanding } :=
    fun fs outstanding => ⟨⟨rfl, rfl, rfl⟩, rfl, .refl _ _⟩
  unfold exec
  simp only [beginOp, endOp, wp_bind, wp_modify]
  refine fsCall_wp fun found fs => ?_
  cases found with
  | none => exact hidle _ (hstart fs _)
  | some ip =>
    simp only [wp_bind]
    refine fsCall_wp fun _ fs => readHeader_wp fun header fs => ?_
    cases header with
    | none => exact hbad (fun _ => hstart fs _) fun _ hdir => absurd hdir (by simp)
    | some header =>
      obtain ⟨entry, phoff, phnum⟩ := header
      simp only [wp_bind, vm, wp_within]
      refine setupkvm_wp hhanded (add_zero _) fun made mem hmade hframe hfresh => ?_
      cases made with
      | none =>
        refine hbad (fun _ => ⟨⟨rfl, rfl, rfl⟩, ?_, hframe⟩) fun _ hdir => absurd hdir (by simp)
        rw [← add_zero (mem.freelist : Multiset Page)]
        exact hmade
      | some dir =>
        rw [wp_bind]
        have hloads : Loads start { start with fs, outstanding := start.outstanding + 1, mem } dir 0 :=
          ⟨⟨rfl, rfl, rfl⟩, (hfresh dir rfl).loading hmade hframe⟩
        refine (loadSegments_wp hhanded hloads).imp fun result next hnext => ?_
        cases result with
        | none =>
          refine hbad (fun hnone => absurd hnone (by simp)) fun other hother => ?_
          obtain rfl := Option.mem_some.mp hother
          exact hnext.1
        | some sz =>
          simp only [putInode, endOp, wp_bind, wp_modify]
          refine fsCall_wp fun _ fs => ?_
          have hloads := (hnext.2 sz rfl).setFs fs (next.outstanding - 1)
          refine (hstack _ _ _ hloads).imp fun result next hnext => ?_
          cases result with
          | none =>
            refine hbad (fun hnone => absurd hnone (by simp)) fun other hother => ?_
            obtain rfl := Option.mem_some.mp hother
            exact hnext.1 rfl
          | some result => exact hnext.2 result.1 result.2 entry rfl

theorem exec_idle :
    wp (exec kernel cwd path argv input) start (fun result next => result = -1 → Idle start next) fun _ => True := by
  refine exec_wp hhanded (fun _ h _ => h) fun execs dir sz h => ?_
  refine (setupStack_wp hhanded h).imp fun made next hnext => ⟨fun _ => hnext, fun sz sp entry _ => ?_⟩
  simp only [commit, wp_bind, wp_get, wp_modify, vm, wp_within, wp_pure]
  exact wp.of_forall (fun _ _ hresult => absurd hresult (by decide)) fun _ => trivial

end

-- The references to the inodes, and the operations of the log.
def counts (execs : Execs) : (Fin NINODE → Int) × Int := (execs.fs.ref, execs.outstanding)

theorem vm_keeps (action : Kmem.M Value) : Keeps counts (vm action) := by
  intro execs
  rw [vm, wp_within]
  exact wp.of_forall (fun _ _ => rfl) fun _ => trivial

theorem fsCall_adds {action : Fs.M Value} {amount : Value → Fin NINODE → Int} (h : Adds Fs.ref action amount) :
    Adds counts (fsCall action) fun value => (amount value, 0) := by
  intro execs
  rw [fsCall, wp_within]
  refine (h execs.fs).imp fun value fs hfs => ?_
  exact Prod.ext hfs (add_zero _).symm

theorem fsCall_keeps {action : Fs.M Value} (h : Keeps Fs.ref action) : Keeps counts (fsCall action) :=
  (fsCall_adds h.adds).keeps

theorem loadPages_keeps (input : Nat → Option (List Byte)) (addr offset filesz : Word) (places : List Nat) :
    Keeps counts (loadPages input dir addr ip offset filesz places) := by
  induction places with
  | nil => exact .pure _
  | cons i rest ih =>
    refine .bind (vm_keeps _) fun found => ?_
    cases found with
    | none => exact vm_keeps _
    | some entry =>
      refine .bind .get fun _ => .bind (fsCall_keeps (Fs.outer_ref.readi _ _ _)) fun bytes => ?_
      cases bytes with
      | none => exact .pure _
      | some bytes => exact .bind (vm_keeps _) fun _ => .ite (.pure _) ih

theorem loaduvm_keeps (input : Nat → Option (List Byte)) (addr offset filesz : Word) :
    Keeps counts (loaduvm input dir addr ip offset filesz) :=
  .ite (.bind (vm_keeps _) fun _ => loadPages_keeps _ _ _ _ _) (loadPages_keeps _ _ _ _ _)

theorem loadSegments_keeps (input : Nat → Nat → Option (List Byte)) (phoff : Word) (headers : List Nat) :
    Keeps counts (loadSegments kernel input dir ip phoff headers sz) := by
  induction headers generalizing sz with
  | nil => exact .pure _
  | cons i rest ih =>
    refine .bind (fsCall_keeps (Fs.outer_ref.readi _ _ _)) fun ph => ?_
    cases ph with
    | none => exact .pure _
    | some ph =>
      refine .ite (.pure _) (.ite ih (.ite (.pure _) (.ite (.pure _) (.bind (vm_keeps _) fun _ => ?_))))
      refine .ite (.pure _) (.ite (.pure _) (.bind (loaduvm_keeps _ _ _ _) fun _ => .ite ih (.pure _)))

theorem readHeader_keeps (input : Option (List Byte)) : Keeps counts (readHeader input ip) := by
  refine .bind (fsCall_keeps (Fs.outer_ref.readi _ _ _)) fun elf => ?_
  cases elf with
  | none => exact .pure _
  | some elf => exact .ite (.pure _) (.ite (.pure _) (.pure _))

theorem pushArgs_keeps (argv : List (List Byte)) (sp : Word) (ustack : List Word) :
    Keeps counts (pushArgs dir argv sp ustack) := by
  induction argv generalizing sp ustack with
  | nil => exact .pure _
  | cons arg rest ih => exact .ite (.pure _) (.bind (vm_keeps _) fun _ => .ite (.pure _) (ih _ _))

theorem setupStack_keeps (argv : List (List Byte)) : Keeps counts (setupStack kernel dir argv sz) := by
  unfold setupStack
  generalize PGROUNDUP sz + 2 * PAGE = newsz
  refine .bind (vm_keeps _) fun _ => .ite (.pure _)
    (.bind (vm_keeps _) fun _ => .bind (pushArgs_keeps _ _ _) fun pushed => ?_)
  cases pushed with
  | none => exact .pure _
  | some pushed => exact .bind (vm_keeps _) fun _ => .ite (.pure _) (.pure _)

theorem commit_keeps (path : List Byte) (entry sp : Word) : Keeps counts (commit kernel path dir entry sz sp) :=
  .bind .get fun _ => .bind (.modify fun _ => rfl) fun _ => .bind (vm_keeps _) fun _ => .pure _

theorem endOp_adds : Adds counts endOp fun _ => (0, -1) := by
  intro execs
  exact Prod.ext (add_zero _).symm (sub_eq_add_neg _ _)

theorem putInode_adds : Adds counts (putInode ip) fun _ => (-Pi.single ip 1, -1) := by
  refine (fsCall_adds Fs.iunlockput_adds).bind fun _ => endOp_adds.congr fun _ => ?_
  simp

theorem bad_adds (pgdir : Option Page) (ip : Fin NINODE) :
    Adds counts (bad kernel pgdir (some ip)) fun _ => (-Pi.single ip 1, -1) := by
  have hput : Adds counts (do
      putInode ip
      return (-1 : Int)) fun _ => (-Pi.single ip 1, -1) := putInode_adds.bind fun _ => .pure (by simp)
  cases pgdir with
  | none => exact hput
  | some dir => exact .after (vm_keeps _) fun _ => hput

-- Whether it fails or not.
theorem exec_keeps (cwd : Fin NINODE) (path : List Byte) (argv : List (List Byte))
    (input : Nat → Nat → Option (List Byte)) : Keeps counts (exec kernel cwd path argv input) := by
  have hbegin : Adds counts beginOp fun _ => (0, 1) := by
    intro execs
    exact Prod.ext (add_zero _).symm rfl
  refine Adds.keeps (hbegin.bind fun _ => (fsCall_adds (Fs.namei_adds cwd path)).bind fun found => ?_)
  cases found with
  | none =>
    refine endOp_adds.bind fun _ => .pure ?_
    simp
  | some ip =>
    have hamount : ∀ pgdir, Adds counts (bad kernel pgdir (some ip)) fun _ =>
        0 - (0, 1) - (reference (some ip), 0) := by
      intro pgdir
      refine (bad_adds pgdir ip).congr fun _ => ?_
      simp
    refine .after (fsCall_keeps Fs.outer_ref.ilock) fun _ => .after (readHeader_keeps _) fun header => ?_
    cases header with
    | none => exact hamount none
    | some header =>
      refine .after (vm_keeps _) fun made => ?_
      cases made with
      | none => exact hamount none
      | some dir =>
        refine .after (loadSegments_keeps _ _ _) fun loaded => ?_
        cases loaded with
        | none => exact hamount _
        | some sz =>
          refine putInode_adds.bind fun _ => (Keeps.bind (setupStack_keeps _) fun result => ?_).adds.congr fun _ => ?_
          · cases result with
            | none => exact .bind (vm_keeps _) fun _ => .pure _
            | some result => exact commit_keeps _ _ _
          · simp

theorem exec_undone {next : Execs} (cwd : Fin NINODE) (path : List Byte) (argv : List (List Byte))
    (input : Nat → Nat → Option (List Byte)) (hhanded : Handed kernel start.mem.freelist)
    (hexec : (exec kernel cwd path argv input).run start = .ok (-1, next)) :
    Idle start next ∧ next.fs.ref = start.fs.ref ∧ next.outstanding = start.outstanding := by
  have hcounts := (exec_keeps cwd path argv input start).returned hexec
  obtain ⟨href, houtstanding⟩ := Prod.ext_iff.mp hcounts
  exact ⟨(exec_idle hhanded).returned hexec rfl, href, houtstanding⟩

-- A process of the first file system, with one page free.
def onePage : Execs := ⟨(Sys.boot Fs.mkfs).fs, 0, ⟨[0x102], fun _ _ => .junk⟩, 0, .zero, []⟩

-- The root directory is not a program.
theorem exec_undone_root : ∃ next, (exec Vm.smallKernel 0 [Fs.slash] [] fun _ _ => none).run onePage = .ok (-1, next) ∧
    Idle onePage next ∧ next.fs.ref = onePage.fs.ref ∧ next.outstanding = 0 := by
  have hrun : ((exec Vm.smallKernel 0 [Fs.slash] [] fun _ _ => none).run onePage).toOption.map (·.1) = some (-1) := by
    decide +kernel
  obtain ⟨pair, hpair, hresult⟩ := Option.map_eq_some_iff.mp hrun
  have hexec : (exec Vm.smallKernel 0 [Fs.slash] [] fun _ _ => none).run onePage = .ok (-1, pair.2) := by
    rw [← hresult]
    exact run_of_toOption hpair
  have hhanded : Handed Vm.smallKernel onePage.mem.freelist := by
    refine ⟨by decide, fun page hpage => ?_⟩
    obtain rfl : page = 0x102 := by simpa [onePage] using hpage
    unfold KernelImage.Owns
    decide
  exact ⟨pair.2, hexec, exec_undone 0 [Fs.slash] [] _ hhanded hexec⟩

end Xv6.Execs

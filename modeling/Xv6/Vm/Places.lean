import Xv6.Vm.Directories

namespace Xv6

open List Multiset Option

variable {pages : Multiset Page} {mem : Kmem}

theorem Handed.mono {kernel : KernelImage} {others : Multiset Page} (h : Handed kernel others) (hle : pages ≤ others) :
    Handed kernel pages where
  nodup := Multiset.nodup_of_le hle h.nodup
  owns page hpage := h.owns page (Multiset.mem_of_le hle hpage)

-- Other page directories do not see what happens to these pages.
theorem Kmem.Frame.dirs {next : Kmem} (hframe : Frame pages mem next) {dirs : List Page}
    (hnodup : (pages + (dirs.map (dirPages mem.word)).sum).Nodup) :
    dirs.map (dirPages next.word) = dirs.map (dirPages mem.word) := by
  refine map_congr_left fun pgdir hdir => dirPages_congr fun page hpage => hframe page ?_
  rw [← sum_map_erase _ hdir] at hnodup
  exact disjoint_right.mp (nodup_add.mp hnodup).2.2 (mem_add.mpr (.inl hpage))

namespace Vm

open Xv6.Action Kmem

-- The places where pages are: on the free list, with a caller of kalloc, or in a page directory.
def places (vm : Vm) : Multiset Page :=
  (vm.mem.freelist : Multiset Page) + vm.held + (vm.dirs.map (dirPages vm.mem.word)).sum

structure Sound (kernel : KernelImage) (vm : Vm) : Prop where
  handed : Handed kernel (vm.pool : Multiset Page)
  places : vm.places = vm.pool

variable {kernel : KernelImage} {vm next : Vm}

-- A call has moved pages, and the page directories that do not have these pages are as they were.
theorem Sound.change (vm : Vm) {others : List Page} (hhanded : Handed kernel (next.pool : Multiset Page))
    (hbefore : pages + (others.map (dirPages vm.mem.word)).sum = next.pool)
    (hafter : next.places = pages + (others.map (dirPages next.mem.word)).sum)
    (hframe : Frame pages vm.mem next.mem) : Sound kernel next where
  handed := hhanded
  places := by
    have hnodup := hhanded.nodup
    rw [← hbefore] at hnodup
    rw [hafter, hframe.dirs hnodup, hbefore]

variable {page : Page}

theorem kfree_returned {after : Kmem} (h : (Kmem.kfree kernel page).run mem = .ok ((), after)) :
    kernel.Owns page ∧ after = { mem.setPage page fun _ => .junk with freelist := page :: mem.freelist } := by
  unfold Kmem.kfree at h
  by_cases howns : kernel.Owns page
  · rw [if_neg howns] at h
    injection h with h
    injection h with _ h
    exact ⟨howns, h.symm⟩
  · rw [if_pos (not_not.mp howns)] at h
    cases h

section Sound

variable (h : Sound kernel vm)

include h

variable {pgdir : Page}

-- The pages that a call with this page directory may move.
theorem Sound.split (hdir : pgdir ∈ vm.dirs) :
    (vm.mem.freelist : Multiset Page) + dirPages vm.mem.word pgdir + vm.held +
      ((vm.dirs.erase pgdir).map (dirPages vm.mem.word)).sum = vm.pool := by
  rw [← h.places, Vm.places, ← sum_map_erase _ hdir]
  abel

theorem Sound.dirs_handed (hdir : pgdir ∈ vm.dirs) :
    Handed kernel ((vm.mem.freelist : Multiset Page) + dirPages vm.mem.word pgdir + vm.held) :=
  h.handed.mono (h.split hdir ▸ Multiset.le_add_right _ _)

theorem Sound.free_handed : Handed kernel ((vm.mem.freelist : Multiset Page) + vm.held) :=
  h.handed.mono (h.places ▸ Multiset.le_add_right _ _)

-- The call has changed one page directory.
theorem Sound.dir (hdir : pgdir ∈ vm.dirs)
    (hmem : mem.Dir pgdir vm.held ((vm.mem.freelist : Multiset Page) + dirPages vm.mem.word pgdir + vm.held))
    (hframe : Frame ((vm.mem.freelist : Multiset Page) + dirPages vm.mem.word pgdir + vm.held) vm.mem mem) :
    Sound kernel { vm with mem } := by
  refine Sound.change vm h.handed (h.split hdir) ?_ hframe
  rw [← hmem, Vm.places, ← sum_map_erase _ hdir]
  abel

-- The call has made a page directory, or has failed.
theorem Sound.made {made : Option Page} (hmade : mem.Made vm.held ((vm.mem.freelist : Multiset Page) + vm.held) made)
    (hframe : Frame ((vm.mem.freelist : Multiset Page) + vm.held) vm.mem mem) :
    Sound kernel { vm with mem, dirs := made.toList ++ vm.dirs } := by
  refine Sound.change vm h.handed h.places ?_ hframe
  cases made with
  | none =>
    rw [← hmade]
    rfl
  | some pgdir =>
    rw [← hmade, Vm.places, Option.toList_some, List.singleton_append, List.map_cons, List.sum_cons]
    abel

-- The page directory is gone.
theorem Sound.freed (hdir : pgdir ∈ vm.dirs)
    (hmem : (mem.freelist : Multiset Page) = vm.mem.freelist + dirPages vm.mem.word pgdir)
    (hframe : Frame ((vm.mem.freelist : Multiset Page) + dirPages vm.mem.word pgdir + vm.held) vm.mem mem) :
    Sound kernel { vm with mem, dirs := vm.dirs.erase pgdir } := by
  refine Sound.change vm h.handed (h.split hdir) ?_ hframe
  rw [Vm.places, hmem]

-- freevm does not stop.
theorem Sound.freevm (hdir : pgdir ∈ vm.dirs) :
    wp (Kmem.freevm kernel pgdir) vm.mem (fun _ mem => Sound kernel { vm with mem, dirs := vm.dirs.erase pgdir } ∧
      (mem.freelist : Multiset Page) = vm.mem.freelist + dirPages vm.mem.word pgdir) fun _ => False := by
  refine freevm_wp (h.dirs_handed hdir) rfl fun mem hmem hframe => ?_
  have hmem := add_right_cancel hmem
  exact ⟨h.freed hdir hmem hframe, hmem⟩

theorem Sound.freerange (hpage : page ∉ vm.pool) (hrun : (Kmem.kfree kernel page).run vm.mem = .ok ((), mem)) :
    Sound kernel { vm with mem, pool := page :: vm.pool } := by
  obtain ⟨howns, rfl⟩ := kfree_returned hrun
  have hhanded : Handed kernel ((page :: vm.pool : List Page) : Multiset Page) := by
    refine ⟨coe_nodup.mpr (nodup_cons.mpr ⟨hpage, coe_nodup.mp h.handed.nodup⟩), ?_⟩
    intro other hother
    rcases mem_cons.mp (mem_coe.mp hother) with rfl | hother
    · exact howns
    · exact h.handed.owns other (mem_coe.mpr hother)
  have hbefore : {page} + ((vm.mem.freelist : Multiset Page) + vm.held) + (vm.dirs.map (dirPages vm.mem.word)).sum =
      ((page :: vm.pool : List Page) : Multiset Page) := by
    rw [← cons_coe, ← singleton_add, ← h.places, add_assoc]
    rfl
  refine Sound.change vm hhanded hbefore ?_ ?_
  · rw [Vm.places, ← cons_coe, ← singleton_add]
    simp only [add_assoc]
  · exact Frame.setPage _ (mem_singleton_add _ _) _

theorem Sound.kfree (hpage : page ∈ vm.held) (hrun : (Kmem.kfree kernel page).run vm.mem = .ok ((), mem)) :
    Sound kernel { vm with mem, held := vm.held.erase page } := by
  obtain ⟨-, rfl⟩ := kfree_returned hrun
  have hheld : ((page :: vm.mem.freelist : List Page) : Multiset Page) + (vm.held.erase page : List Page) =
      vm.mem.freelist + vm.held := by
    rw [← coe_erase, ← cons_coe, cons_add, ← add_cons, cons_erase (mem_coe.mpr hpage)]
  refine Sound.change vm h.handed h.places ?_ ?_
  · rw [Vm.places, ← hheld]
  · exact Frame.setPage _ (mem_add.mpr (.inr (mem_coe.mpr hpage))) _

theorem Sound.kalloc : wp Kmem.kalloc vm.mem
    (fun page mem => Sound kernel { vm with mem, held := page.toList ++ vm.held }) fun _ => False := by
  refine kalloc_wp (fun _ => h) fun page rest hlist => ?_
  refine Sound.change vm h.handed h.places ?_ (.refl _ _)
  have hmoved : (rest : Multiset Page) + ((page :: vm.held : List Page) : Multiset Page) =
      vm.mem.freelist + vm.held := by
    rw [hlist, ← cons_coe, ← cons_coe, add_cons, cons_add]
  rw [← hmoved]
  rfl

theorem Sound.setupkvm : wp (Kmem.setupkvm kernel) vm.mem
    (fun made mem => Sound kernel { vm with mem, dirs := made.toList ++ vm.dirs }) fun _ => True :=
  setupkvm_wp h.free_handed rfl fun _ _ hmade hframe _ => h.made hmade hframe

theorem Sound.allocuvm (hdir : pgdir ∈ vm.dirs) (oldsz newsz : Nat) :
    wp (Kmem.allocuvm kernel pgdir oldsz newsz) vm.mem (fun _ mem => Sound kernel { vm with mem }) fun _ => True :=
  allocuvm_wp (h.dirs_handed hdir) rfl (fun _ => trivial) fun _ _ hmem hframe _ => h.dir hdir hmem hframe

theorem Sound.deallocuvm (hdir : pgdir ∈ vm.dirs) {oldsz : Nat} (holdsz : oldsz ≤ KERNBASE) (newsz : Nat) :
    wp (Kmem.deallocuvm kernel pgdir oldsz newsz) vm.mem (fun _ mem => Sound kernel { vm with mem }) fun _ => True :=
  deallocuvm_wp (h.dirs_handed hdir) holdsz rfl fun _ hmem hframe _ => h.dir hdir hmem hframe

theorem Sound.copyuvm (pgdir : Page) {sz : Nat} (hsz : sz ≤ KERNBASE) :
    wp (Kmem.copyuvm kernel pgdir sz) vm.mem
      (fun made mem => Sound kernel { vm with mem, dirs := made.toList ++ vm.dirs }) fun _ => True :=
  copyuvm_wp h.free_handed hsz rfl (fun _ _ => trivial) fun _ _ hmade hframe => h.made hmade hframe

theorem Sound.step {call : VmCall} (hgood : good vm call)
    (hnext : step kernel vm call = some next) : Sound kernel next := by
  cases call with
  | freerange page =>
    rw [Vm.step, ite_none_left_eq_some] at hnext
    obtain ⟨hpage, hnext⟩ := hnext
    generalize hrun : (Kmem.kfree kernel page).run vm.mem = result at hnext
    rcases result with _ | ⟨_, mem⟩
    · cases hnext
    · cases hnext
      exact h.freerange (by simpa using hpage) hrun
  | kalloc =>
    rw [Vm.step] at hnext
    generalize hrun : Kmem.kalloc.run vm.mem = result at hnext
    rcases result with _ | ⟨_ | page, mem⟩
    · cases hnext
    · cases hnext
      exact h.kalloc.returned hrun
    · cases hnext
      exact h.kalloc.returned hrun
  | kfree page =>
    rw [Vm.step, ite_none_right_eq_some] at hnext
    obtain ⟨hpage, hnext⟩ := hnext
    generalize hrun : (Kmem.kfree kernel page).run vm.mem = result at hnext
    rcases result with _ | ⟨_, mem⟩
    · cases hnext
    · cases hnext
      exact h.kfree (by simpa using hpage) hrun
  | setupkvm =>
    rw [Vm.step] at hnext
    generalize hrun : (Kmem.setupkvm kernel).run vm.mem = result at hnext
    rcases result with _ | ⟨_ | pgdir, mem⟩
    · cases hnext
    · cases hnext
      exact h.setupkvm.returned hrun
    · cases hnext
      exact h.setupkvm.returned hrun
  | allocuvm pgdir oldsz newsz =>
    rw [Vm.step, ite_none_right_eq_some] at hnext
    obtain ⟨hdir, hnext⟩ := hnext
    generalize hrun : (Kmem.allocuvm kernel pgdir oldsz newsz).run vm.mem = result at hnext
    rcases result with _ | ⟨_, mem⟩
    · cases hnext
    · cases hnext
      exact (h.allocuvm (by simpa using hdir) oldsz newsz).returned hrun
  | deallocuvm pgdir oldsz newsz =>
    rw [Vm.step, ite_none_right_eq_some] at hnext
    obtain ⟨hdir, hnext⟩ := hnext
    generalize hrun : (Kmem.deallocuvm kernel pgdir oldsz newsz).run vm.mem = result at hnext
    rcases result with _ | ⟨_, mem⟩
    · cases hnext
    · cases hnext
      exact (h.deallocuvm (by simpa using hdir) hgood newsz).returned hrun
  | copyuvm pgdir sz =>
    rw [Vm.step, ite_none_right_eq_some] at hnext
    obtain ⟨_, hnext⟩ := hnext
    generalize hrun : (Kmem.copyuvm kernel pgdir sz).run vm.mem = result at hnext
    rcases result with _ | ⟨_ | d, mem⟩
    · cases hnext
    · cases hnext
      exact (h.copyuvm pgdir hgood).returned hrun
    · cases hnext
      exact (h.copyuvm pgdir hgood).returned hrun
  | freevm pgdir =>
    rw [Vm.step, ite_none_right_eq_some] at hnext
    obtain ⟨hdir, hnext⟩ := hnext
    generalize hrun : (Kmem.freevm kernel pgdir).run vm.mem = result at hnext
    rcases result with _ | ⟨_, mem⟩
    · cases hnext
    · cases hnext
      exact ((h.freevm (by simpa using hdir)).returned hrun).1

end Sound

theorem Sound.reach (h : Reach kernel vm) : Sound kernel vm := by
  refine h.invariant (Sound kernel) ?_ fun _ _ _ h hgood hnext => h.step hgood hnext
  rintro vm ⟨hfree, hdirs, hheld, hpool⟩
  refine ⟨⟨?_, ?_⟩, ?_⟩
  · rw [hpool]
    exact nodup_zero
  · intro page hpage
    rw [hpool] at hpage
    exact absurd hpage (notMem_zero page)
  · rw [Vm.places, hfree, hdirs, hheld, hpool]
    rfl

-- No page is lost, and none is in two places. All pages of a page directory come back.
theorem pages_accounted (h : Reach kernel vm) :
    (∀ page, vm.places.count page = if page ∈ vm.pool then 1 else 0) ∧
      ∀ pgdir ∈ vm.dirs, ∃ next, step kernel vm (.freevm pgdir) = some next ∧ next.dirs = vm.dirs.erase pgdir ∧
        next.held = vm.held ∧
        (next.mem.freelist : Multiset Page) = vm.mem.freelist + dirPages vm.mem.word pgdir := by
  have hsound := Sound.reach h
  refine ⟨fun page => ?_, fun pgdir hdir => ?_⟩
  · rw [hsound.places, count_eq_of_nodup hsound.handed.nodup]
    rfl
  · obtain ⟨_, mem, hrun, -, hfreelist⟩ | ⟨_, _, hfalse⟩ := (hsound.freevm hdir).run
    · refine ⟨{ vm with mem, dirs := vm.dirs.erase pgdir }, ?_, rfl, rfl, hfreelist⟩
      rw [step, if_pos (contains_iff_mem.mpr hdir), hrun]
    · exact hfalse.elim

-- A kernel that ends right after its data.
def smallKernel : KernelImage where
  data := 0x80101000
  end_ := 0x80102000
  linked := by decide
  aligned := by decide
  ends := by decide
  fits := by decide

-- setupkvm gets a page directory, but no page table.
theorem pages_accounted_failed : ∃ vm, Reach smallKernel vm ∧ vm.mem.freelist = [0x102] ∧ vm.held = [0x103] ∧
    vm.dirs = [] ∧ vm.pool = [0x103, 0x102] ∧ ∀ page, vm.places.count page = if page ∈ vm.pool then 1 else 0 := by
  have hrun : (run (step smallKernel) good ⟨⟨[], fun _ _ => .junk⟩, [], [], []⟩
      [.freerange 0x102, .freerange 0x103, .kalloc, .setupkvm]).map
        (fun vm => (vm.mem.freelist, vm.held, vm.dirs, vm.pool)) = some ([0x102], [0x103], [], [0x103, 0x102]) := by
    decide +kernel
  obtain ⟨vm, hvm, hfields⟩ := map_eq_some_iff.mp hrun
  simp only [Prod.mk.injEq] at hfields
  obtain ⟨hfree, hheld, hdirs, hpool⟩ := hfields
  have hreach : Reach smallKernel vm := (Xv6.Reach.start _ ⟨rfl, rfl, rfl, rfl⟩).run _ hvm
  exact ⟨vm, hreach, hfree, hheld, hdirs, hpool, (pages_accounted hreach).1⟩

end Vm

end Xv6

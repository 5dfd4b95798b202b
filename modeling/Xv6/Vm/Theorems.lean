import Xv6.Vm.Room

namespace Xv6

open Function List Multiset

-- kfree takes this page.
def KernelImage.Owns (kernel : KernelImage) (page : Page) : Prop :=
  ¬(P2V (page * PAGE) < kernel.end_ ∨ PHYSTOP ≤ page * PAGE)

variable {page : Page}

theorem KernelImage.Owns.ne_zero {kernel : KernelImage} (h : kernel.Owns page) : page ≠ 0 := by
  rintro rfl
  have hlinked := kernel.linked
  have hends := kernel.ends
  simp only [Owns, P2V, KERNLINK] at h hlinked
  omega

-- Pages that are handed to the allocator, each of them once.
structure Handed (kernel : KernelImage) (pages : Multiset Page) : Prop where
  nodup : pages.Nodup
  owns (page : Page) (hpage : page ∈ pages) : kernel.Owns page

namespace Kmap

def size (k : Kmap) : Nat := (k.physEnd + 2 ^ 32 - k.physStart) % 2 ^ 32

-- The entry for an address in the range.
def pte (k : Kmap) (va : Nat) : Option Pte :=
  if k.virt ≤ va ∧ va < k.virt + k.size then some ⟨(k.physStart + (va - k.virt)) / PAGE, k.perm ||| PTE_P⟩ else none

end Kmap

-- What the kernel's map says of an address.
def kmapPte : List Kmap → Nat → Option Pte
  | [], _ => none
  | k :: rest, va => (kmapPte rest va).or (k.pte va)

namespace Kmem

open Xv6.Action

variable {kernel : KernelImage} {pages loose : Multiset Page} {mem next : Kmem} {pgdir : Page} {va : Nat}
variable {stops : VmHalt → Prop}

-- Nothing changes outside of these pages.
def Frame (pages : Multiset Page) (mem next : Kmem) : Prop := ∀ page ∉ pages, next.word page = mem.word page

theorem Frame.refl (pages : Multiset Page) (mem : Kmem) : Frame pages mem mem := fun _ _ => rfl

variable {middle : Kmem} {rest : List Page} {flags perm : BitVec 12} {i : Nat} {returns : Bool → Kmem → Prop}
  {k : Kmap} {list : List Kmap}

theorem Frame.trans (hfirst : Frame pages mem middle) (hsecond : Frame pages middle next) :
    Frame pages mem next := fun page hpage => (hsecond page hpage).trans (hfirst page hpage)

-- These pages are the free ones, those of the page directory, and some others.
def Dir (mem : Kmem) (pgdir : Page) (loose pages : Multiset Page) : Prop :=
  (mem.freelist : Multiset Page) + dirPages mem.word pgdir + loose = pages

theorem Frame.setPage (mem : Kmem) (hpage : page ∈ pages) (words : Nat → Pte) :
    Frame pages mem (mem.setPage page words) := by
  intro other hother
  refine update_of_ne ?_ _ _
  rintro rfl
  exact hother hpage

section

variable (h : mem.Dir pgdir loose pages)

include h

theorem Dir.dir_mem (hpage : page ∈ dirPages mem.word pgdir) : page ∈ pages := by
  rw [← h]
  exact mem_add.mpr (.inl (mem_add.mpr (.inr hpage)))

theorem Dir.dir_nodup (hpages : pages.Nodup) : (dirPages mem.word pgdir).Nodup := by
  rw [← h] at hpages
  exact (nodup_add.mp (nodup_add.mp hpages).1).2.1

theorem Dir.not_loose (hpages : pages.Nodup) (hpage : page ∈ loose) : page ∉ dirPages mem.word pgdir := by
  rw [← h] at hpages
  intro hdir
  exact disjoint_left.mp (nodup_add.mp hpages).2.2 (mem_add.mpr (.inr hdir)) hpage

theorem Dir.loose_mem (hpage : page ∈ loose) : page ∈ pages := by
  rw [← h]
  exact mem_add.mpr (.inr hpage)

theorem Dir.pop (hlist : mem.freelist = page :: rest) :
    { mem with freelist := rest }.Dir pgdir ({page} + loose) pages := by
  rw [← h, Dir, hlist, ← cons_coe, ← singleton_add]
  abel

end

section Fresh

variable {page : Page} (h : mem.Dir pgdir ({page} + loose) pages) (hpages : pages.Nodup)

include h hpages

theorem Dir.fresh : page ∉ dirPages mem.word pgdir :=
  h.not_loose hpages (mem_singleton_add _ _)

theorem Dir.ne_dir : page ≠ pgdir := by
  rintro rfl
  exact h.fresh hpages (mem_dirPages_self _ _)

end Fresh

section

variable (h : mem.Dir pgdir loose pages) (hpages : pages.Nodup) (hpage : page ∈ loose) (words : Nat → Pte)

include h hpages hpage

-- A page that is not in the page directory may be filled with anything.
theorem Dir.setPage : (mem.setPage page words).Dir pgdir loose pages := by
  have hsame : dirPages (mem.setPage page words).word pgdir = dirPages mem.word pgdir := by
    refine dirPages_congr fun other hother => update_of_ne ?_ _ _
    rintro rfl
    exact h.not_loose hpages hpage hother
  rw [Dir, hsame]
  exact h

theorem Dir.setPage_maps (va : Nat) : lookup (mem.setPage page words).word pgdir va = lookup mem.word pgdir va := by
  have hnot := h.not_loose hpages hpage
  have hdir : (mem.setPage page words).word pgdir = mem.word pgdir := by
    refine update_of_ne ?_ _ _
    rintro rfl
    exact hnot (mem_dirPages_self _ _)
  refine lookup_congr (by rw [hdir]) fun hpresent => update_of_ne ?_ _ _
  intro heq
  exact hnot (heq ▸ table_mem_dirPages (Nat.mod_lt _ (by decide)) hpresent)

end

theorem Dir.push (h : mem.Dir pgdir ({page} + loose) pages) :
    { mem with freelist := page :: mem.freelist }.Dir pgdir loose pages := by
  rw [← h, Dir, ← cons_coe, ← singleton_add]
  abel

theorem Dir.new_table (h : mem.Dir pgdir ({table} + loose) pages) (hpages : pages.Nodup) (hi : i < NPDENTRIES)
    (habsent : ¬(mem.word pgdir i).present) (hpresent : (Pte.mk table flags).present) :
    ((mem.setPage table fun _ => .zero).setWord pgdir i ⟨table, flags⟩).Dir pgdir loose pages := by
  have hfresh := h.fresh hpages
  have hne := h.ne_dir hpages
  have hdir : dirPages ((mem.setPage table fun _ => .zero).setWord pgdir i ⟨table, flags⟩).word pgdir =
      dirPages mem.word pgdir + {table} := by
    refine dirPages_new_table hi habsent hfresh (h.dir_nodup hpages) rfl hpresent ?_ ?_ ?_
    · simp [setWord, Kmem.setPage, hne.symm]
    · simp [setWord, Kmem.setPage, hne]
    · intro page hdir htable
      simp [setWord, Kmem.setPage, hdir, htable]
  rw [Dir, hdir, ← h]
  show (mem.freelist : Multiset Page) + _ + _ = _
  abel

theorem Dir.new_table_maps (h : mem.Dir pgdir ({table} + loose) pages) (hpages : pages.Nodup)
    (habsent : ¬(mem.word pgdir i).present) (va : Nat) :
    lookup ((mem.setPage table fun _ => .zero).setWord pgdir i ⟨table, flags⟩).word pgdir va =
      lookup mem.word pgdir va := by
  have hfresh := h.fresh hpages
  have hne := h.ne_dir hpages
  have hpage : (⟨table, flags⟩ : Pte).page = table := rfl
  refine lookup_new_table habsent ?_ hpage ?_ ?_ ?_ va
  · intro k hk hpk
    refine ⟨table_ne_dir (h.dir_nodup hpages) hk hpk, ?_⟩
    rintro rfl
    exact hfresh (table_mem_dirPages hk hpk)
  · simp [setWord, Kmem.setPage, hne.symm]
  · simp [setWord, Kmem.setPage, hne]
  · intro page hdir htable
    simp [setWord, Kmem.setPage, hdir, htable]

-- An entry of a page table in the page directory has changed.
theorem Dir.setWord (h : mem.Dir pgdir loose pages) (hpages : pages.Nodup) {j : Nat} (hi : i < NPDENTRIES)
    (hpresent : (mem.word pgdir i).present) (hj : j < NPDENTRIES) (pte : Pte) {other : Multiset Page}
    (hloose : (if i < 512 then pte.pages else 0) + other =
      (if i < 512 then (mem.word (mem.word pgdir i).page j).pages else 0) + loose) :
    (mem.setWord (mem.word pgdir i).page j pte).Dir pgdir other pages := by
  have hdir : dirPages (mem.setWord (mem.word pgdir i).page j pte).word pgdir +
      (if i < 512 then (mem.word (mem.word pgdir i).page j).pages else 0) =
        dirPages mem.word pgdir + if i < 512 then pte.pages else 0 := by
    refine dirPages_set_entry hi (h.dir_nodup hpages) hpresent hj ?_ ?_
    · simp [Kmem.setWord, Kmem.setPage]
    · intro page hpage
      simp [Kmem.setWord, Kmem.setPage, hpage]
  generalize hold : (if i < 512 then (mem.word (mem.word pgdir i).page j).pages else 0) = old at hdir hloose
  generalize hnew : (if i < 512 then pte.pages else 0) = new at hdir hloose
  refine add_right_cancel (b := old) ?_
  calc (mem.freelist : Multiset Page) + dirPages (mem.setWord (mem.word pgdir i).page j pte).word pgdir + other + old
      = mem.freelist + (dirPages (mem.setWord (mem.word pgdir i).page j pte).word pgdir + old) + other := by abel
    _ = mem.freelist + dirPages mem.word pgdir + (new + other) := by rw [hdir]; abel
    _ = mem.freelist + dirPages mem.word pgdir + loose + old := by rw [hloose]; abel
    _ = pages + old := by rw [h]

theorem Dir.setWord_lookup (h : mem.Dir pgdir loose pages) (hpages : pages.Nodup) {j : Nat} (hi : i < NPDENTRIES)
    (hpresent : (mem.word pgdir i).present) (pte : Pte) (va : Nat) :
    lookup (mem.setWord (mem.word pgdir i).page j pte).word pgdir va =
      if PDX va = i ∧ PTX va = j then (if pte.present then some pte else none) else lookup mem.word pgdir va := by
  have hnodup := h.dir_nodup hpages
  refine lookup_set_entry hpresent ?_ (update_self ..) (fun k hk hne hpresent' => ?_) va
  · exact update_of_ne (table_ne_dir hnodup hi hpresent).symm _ _
  · exact update_of_ne (table_ne_table hnodup hk hi hne hpresent' hpresent) _ _

theorem PDX_lt (va : Nat) : PDX va < NPDENTRIES := Nat.mod_lt _ (by decide)

theorem PTX_lt (va : Nat) : PTX va < NPDENTRIES := Nat.mod_lt _ (by decide)

theorem kalloc_wp {returns : Option Page → Kmem → Prop} (hnone : mem.freelist = [] → returns none mem)
    (hsome : ∀ page rest, mem.freelist = page :: rest → returns (some page) { mem with freelist := rest }) :
    wp kalloc mem returns stops := by
  unfold kalloc
  simp only [wp_bind, wp_get]
  cases hlist : mem.freelist with
  | nil => exact hnone hlist
  | cons page rest => exact hsome page rest hlist

theorem kfree_wp {returns : Unit → Kmem → Prop} (howns : kernel.Owns page)
    (h : returns () { mem.setPage page fun _ => .junk with freelist := page :: mem.freelist }) :
    wp (kfree kernel page) mem returns stops := by
  unfold kfree
  rw [if_neg howns]
  exact h

-- What a call of walkpgdir has found: the page table of this address.
def Found (next : Kmem) (pgdir : Page) (va : Nat) : Option (Page × Nat) → Prop
  | none => True
  | some (table, index) =>
    (next.word pgdir (PDX va)).present ∧ (next.word pgdir (PDX va)).page = table ∧ index = PTX va

-- The page directory maps what it mapped before.
def Maps (mem next : Kmem) (pgdir : Page) : Prop := ∀ va, lookup next.word pgdir va = lookup mem.word pgdir va

theorem walkpgdir_wp (hpages : pages.Nodup) (hmem : mem.Dir pgdir loose pages)
    {returns : Option (Page × Nat) → Kmem → Prop}
    (h : ∀ found next, next.Dir pgdir loose pages → Frame pages mem next → Maps mem next pgdir →
      Found next pgdir va found → mem.Taken pgdir found.isSome next → returns found next) :
    wp (walkpgdir pgdir va true) mem returns stops := by
  unfold walkpgdir
  simp only [wp_bind, wp_get, wp_ite]
  split_ifs with hpresent
  · exact h _ mem hmem (.refl _ _) (fun _ => rfl) ⟨hpresent, rfl, rfl⟩ (.refl _ _)
  · simp at *
  · refine kalloc_wp (fun hempty => ?_) fun table rest hlist => ?_
    · exact h none mem hmem (.refl _ _) (fun _ => rfl) trivial (room_lt (PDX_lt va) hpresent hempty)
    have hpop := hmem.pop hlist
    have htable : table ∈ pages := hpop.loose_mem (mem_singleton_add _ _)
    have hdir : pgdir ∈ pages := hmem.dir_mem (mem_dirPages_self _ _)
    have htaken := room_new_table hlist (hpop.ne_dir hpages) (PDX_lt va) hpresent (fun _ => .zero)
      (Pte.present_table table)
    refine h _ _ (hpop.new_table hpages (PDX_lt va) hpresent (Pte.present_table table)) ?_ ?_ ⟨?_, ?_, rfl⟩ htaken
    · exact (Frame.setPage _ htable _).trans (.setPage _ hdir _)
    · exact hpop.new_table_maps hpages hpresent
    · simpa [setWord, setPage] using Pte.present_table table
    · simp [setWord, setPage]

-- What a page counts for that is mapped at this address.
def mapped (va : Nat) (page : Page) : Multiset Page := if PDX va < 512 then {page} else 0

-- The panic is for an address that is mapped already.
theorem mapPage_wp (hpages : pages.Nodup) (hmem : mem.Dir pgdir (mapped va page + loose) pages)
    (hstops : lookup mem.word pgdir va ≠ none → stops .remap)
    (h : ∀ (ok : Bool) next, next.Dir pgdir (if ok then loose else mapped va page + loose) pages →
      Frame pages mem next →
      (∀ other, lookup next.word pgdir other =
        if ok ∧ PDX other = PDX va ∧ PTX other = PTX va then some ⟨page, perm ||| PTE_P⟩
        else lookup mem.word pgdir other) →
      mem.Taken pgdir ok next → returns ok next) : wp (mapPage pgdir va page perm) mem returns stops := by
  unfold mapPage
  rw [wp_bind]
  refine walkpgdir_wp hpages hmem fun found next hnext hframe hmaps hfound htaken => ?_
  cases found with
  | none =>
    refine h false next hnext hframe (fun other => ?_) htaken
    rw [if_neg (fun hok => absurd hok.1 (by decide))]
    exact hmaps other
  | some entry =>
    obtain ⟨hpresent, htable, hindex⟩ := hfound
    obtain ⟨table, index⟩ := entry
    simp only at htable hindex
    subst htable hindex
    simp only [wp_bind, wp_get, wp_ite, wp_throw, wp_pure, wp_modify]
    split_ifs with hremap
    · refine hstops ?_
      rw [← hmaps va]
      intro hnone
      exact (lookup_eq_none_iff hpresent).mp hnone hremap
    · refine h true _ (hnext.setWord hpages (PDX_lt va) hpresent (PTX_lt va) _ ?_) ?_ (fun other => ?_) ?_
      · rw [Pte.pages_of_present (Pte.present_mapped page perm), Pte.pages_of_not_present hremap, ite_self, zero_add]
        rfl
      · have hdir := hnext.dir_mem (table_mem_dirPages (PDX_lt va) hpresent)
        exact hframe.trans (.setPage _ hdir _)
      · rw [hnext.setWord_lookup hpages (PDX_lt va) hpresent, if_pos (Pte.present_mapped page perm), ← hmaps other]
        simp only [true_and]
      · exact htaken.trans (room_setPage next (table_ne_dir (hnext.dir_nodup hpages) (PDX_lt va) hpresent) _)

-- The page at an address of the user part, and where it is in the page tables.
theorem PDX_lt_user (hva : va < KERNBASE) : PDX va < 512 := by
  unfold KERNBASE at hva
  unfold PDX
  omega

theorem lookup_mem_dirPages {pte : Pte} (hva : va < KERNBASE) (hlookup : lookup mem.word pgdir va = some pte) :
    pte.page ∈ dirPages mem.word pgdir := by
  unfold lookup at hlookup
  split_ifs at hlookup with hpresent hentry
  obtain rfl := Option.some.inj hlookup
  refine mem_add.mpr (.inr (mem_sum.mpr ⟨PDX va, mem_entries.mpr (PDX_lt va), ?_⟩))
  exact user_mem_tablePages (PDX_lt_user hva) (PTX_lt va) hpresent hentry

theorem PDX_ge_kernel (hva : KERNBASE ≤ va) (hlt : va < 2 ^ 32) : 512 ≤ PDX va := by
  unfold KERNBASE at hva
  unfold PDX
  omega

theorem mappages_one (pgdir page : Page) (perm : BitVec 12) (halign : va % PAGE = 0) (hva : va < 2 ^ 32) :
    mappages pgdir va PAGE (page * PAGE) perm = mapPage pgdir va page perm := by
  unfold PAGE at halign
  have hdown : PGROUNDDOWN va = va := by
    unfold PGROUNDDOWN PAGE
    omega
  have hlast : PGROUNDDOWN ((va + PAGE + 2 ^ 32 - 1) % 2 ^ 32) = va := by
    unfold PGROUNDDOWN PAGE
    omega
  have hturns : (va + 2 ^ 32 - va) % 2 ^ 32 / PAGE = 0 := by
    unfold PAGE
    omega
  rw [mappages, hlast, hdown, hturns, Nat.mul_div_cancel page (by decide)]
  rfl

-- Where the addresses of one page are in the page tables.
theorem same_entry_iff {other : Nat} (hva : va < 2 ^ 32) (hother : other < 2 ^ 32) :
    PDX other = PDX va ∧ PTX other = PTX va ↔ other / PAGE = va / PAGE := by
  unfold PDX PTX PAGE
  omega

-- What is mapped in the kernel's part is not for the user.
def KernelOnly (mem : Kmem) (pgdir : Page) : Prop :=
  ∀ va pte, KERNBASE ≤ va → va < 2 ^ 32 → lookup mem.word pgdir va = some pte → pte.user = false

-- `turns + 1` pages from this one on are mapped from this address on.
def MapsRange (mem next : Kmem) (pgdir : Page) (va turns page : Nat) (perm : BitVec 12) : Prop :=
  ∀ other < 2 ^ 32, lookup next.word pgdir other =
    if va ≤ other ∧ other < va + (turns + 1) * PAGE then some ⟨page + (other - va) / PAGE, perm ||| PTE_P⟩
    else lookup mem.word pgdir other

theorem MapsRange.of_mapPage {page : Nat} (halign : va % PAGE = 0) (hlt : va < 2 ^ 32)
    (hlookup : ∀ other, lookup next.word pgdir other =
      if true ∧ PDX other = PDX va ∧ PTX other = PTX va then some ⟨page, perm ||| PTE_P⟩
      else lookup mem.word pgdir other) : MapsRange mem next pgdir va 0 page perm := by
  intro other hother
  rw [hlookup]
  simp only [true_and]
  have hiff : PDX other = PDX va ∧ PTX other = PTX va ↔ va ≤ other ∧ other < va + (0 + 1) * PAGE := by
    rw [same_entry_iff hlt hother]
    unfold PAGE at halign ⊢
    omega
  by_cases hhere : va ≤ other ∧ other < va + (0 + 1) * PAGE
  · have hpage : page + (other - va) / PAGE = page := by
      unfold PAGE at hhere ⊢
      omega
    rw [if_pos hhere, if_pos (hiff.mpr hhere), hpage]
  · rw [if_neg hhere, if_neg (mt hiff.mp hhere)]

theorem MapsRange.trans {turns page : Nat} (hfirst : MapsRange mem middle pgdir va 0 page perm)
    (hsecond : MapsRange middle next pgdir (va + PAGE) turns (page + 1) perm) :
    MapsRange mem next pgdir va (turns + 1) page perm := by
  intro other hother
  rw [hsecond other hother, hfirst other hother]
  unfold PAGE
  by_cases hlow : va ≤ other ∧ other < va + 4096
  · have hpage : (other - va) / 4096 = 0 := by omega
    rw [if_neg (by omega), if_pos (by omega), if_pos (by omega)]
  · by_cases hhigh : va + 4096 ≤ other ∧ other < va + 4096 + (turns + 1) * 4096
    · have hpage : page + 1 + (other - (va + 4096)) / 4096 = page + (other - va) / 4096 := by omega
      rw [if_pos hhigh, if_pos (by omega), hpage]
    · rw [if_neg hhigh, if_neg (by omega), if_neg (by omega)]

-- A page at an address of the kernel part that is not mapped yet.
theorem mapKernelPage_wp (hpages : pages.Nodup) (hva : KERNBASE ≤ va) (hlt : va < 2 ^ 32)
    (hmem : mem.Dir pgdir loose pages) (hnone : lookup mem.word pgdir va = none)
    (h : ∀ (ok : Bool) next, next.Dir pgdir loose pages → Frame pages mem next →
      (∀ other, lookup next.word pgdir other =
        if ok ∧ PDX other = PDX va ∧ PTX other = PTX va then some ⟨page, perm ||| PTE_P⟩
        else lookup mem.word pgdir other) →
      mem.Taken pgdir ok next → returns ok next) : wp (mapPage pgdir va page perm) mem returns stops := by
  have hkernel := PDX_ge_kernel hva hlt
  have hzero : mapped va page = 0 := if_neg (by omega)
  have hpage : mem.Dir pgdir (mapped va page + loose) pages := by rwa [hzero, zero_add]
  refine mapPage_wp hpages hpage (fun hsome => absurd hnone hsome) fun ok next hnext => ?_
  rw [hzero, zero_add, ite_self] at hnext
  exact h ok next hnext

theorem mapPages_wp (hpages : pages.Nodup) {turns : Nat} (halign : va % PAGE = 0) (hmem : mem.Dir pgdir loose pages)
    (hva : KERNBASE ≤ va) (hlt : va + turns * PAGE < 2 ^ 32)
    (hunmapped : mem.Unmapped pgdir va (va + (turns + 1) * PAGE))
    (h : ∀ ok next, next.Dir pgdir loose pages → Frame pages mem next →
      (ok = true → MapsRange mem next pgdir va turns page perm) → mem.Taken pgdir ok next → returns ok next) :
    wp (mapPages pgdir perm turns va page) mem returns stops := by
  induction turns generalizing mem va page with
  | zero =>
    refine mapKernelPage_wp hpages hva (by omega) hmem (hunmapped va (by omega) le_rfl (by unfold PAGE; omega)) ?_
    intro ok next hnext hframe hlookup htaken
    refine h ok next hnext hframe (fun hok => ?_) htaken
    subst hok
    exact .of_mapPage halign (by omega) hlookup
  | succ turns ih =>
    rw [mapPages, wp_bind]
    refine mapKernelPage_wp hpages hva (by omega) hmem (hunmapped va (by omega) le_rfl (by unfold PAGE; omega)) ?_
    intro ok next hnext hframe hlookup htaken
    cases ok with
    | false => exact h false next hnext hframe (fun hok => absurd hok (by decide)) htaken
    | true =>
      rw [Nat.succ_mul] at hlt
      have hfirst := MapsRange.of_mapPage halign (by omega) hlookup
      have hrest : next.Unmapped pgdir (va + PAGE) (va + PAGE + (turns + 1) * PAGE) := by
        intro other hother hle hlt'
        rw [hfirst other hother, if_neg (by unfold PAGE at hle ⊢; omega)]
        refine hunmapped other hother (by omega) ?_
        unfold PAGE at hlt' ⊢
        omega
      refine ih (by rwa [Nat.add_mod_right]) hnext (by omega) (by omega) hrest ?_
      intro ok last hlast hframe' hmaps htaken'
      exact h ok last hlast (hframe.trans hframe') (fun hok => hfirst.trans (hmaps hok)) (htaken.trans htaken')

-- What setupkvm maps is whole pages in the kernel's part of the address space, and not for the user.
structure Fits (k : Kmap) : Prop where
  perm : k.perm.getLsbD 2 = false
  low : KERNBASE ≤ k.virt
  high : k.virt + k.size ≤ 2 ^ 32
  pos : 0 < k.size
  virt : k.virt % PAGE = 0
  phys : k.physStart % PAGE = 0
  whole : k.size % PAGE = 0

theorem kmap_fits (kernel : KernelImage) : ∀ k ∈ kmap kernel, Fits k := by
  have hlinked := kernel.linked
  have hfits := kernel.fits
  have haligned := kernel.aligned
  simp only [KERNLINK, KERNBASE, EXTMEM, P2V, PHYSTOP, PAGE] at hlinked hfits haligned
  unfold kmap V2P
  simp only [List.forall_mem_cons, List.not_mem_nil, false_imp_iff, implies_true, and_true]
  have hperm : PTE_W.getLsbD 2 = false := by decide
  have hzero : (0 : BitVec 12).getLsbD 2 = false := by decide
  refine ⟨⟨hperm, ?_, ?_, ?_, ?_, ?_, ?_⟩, ⟨hzero, ?_, ?_, ?_, ?_, ?_, ?_⟩, ⟨hperm, ?_, ?_, ?_, ?_, ?_, ?_⟩,
    ⟨hperm, ?_, ?_, ?_, ?_, ?_, ?_⟩⟩
  all_goals simp only [Kmap.size, KERNLINK, KERNBASE, EXTMEM, PAGE, PHYSTOP, DEVSPACE]
  all_goals omega

theorem Fits.mappages (h : Fits k) (pgdir : Page) : mappages pgdir k.virt k.size k.physStart k.perm =
    mapPages pgdir k.perm (k.size / PAGE - 1) k.virt (k.physStart / PAGE) := by
  obtain ⟨-, -, hhigh, hpos, hvirt, -, hwhole⟩ := h
  unfold PAGE at hvirt hwhole
  have hdown : PGROUNDDOWN k.virt = k.virt := by
    unfold PGROUNDDOWN PAGE
    omega
  have hturns : (PGROUNDDOWN ((k.virt + k.size + 2 ^ 32 - 1) % 2 ^ 32) + 2 ^ 32 - k.virt) % 2 ^ 32 / PAGE =
      k.size / PAGE - 1 := by
    unfold PGROUNDDOWN PAGE
    omega
  rw [Kmem.mappages, hdown, hturns]

-- Where the range ends, and where its last page begins.
theorem Fits.turns (h : Fits k) : k.virt + (k.size / PAGE - 1 + 1) * PAGE = k.virt + k.size := by
  obtain ⟨-, -, -, hpos, -, -, hwhole⟩ := h
  unfold PAGE at hwhole ⊢
  omega

theorem Fits.last (h : Fits k) : k.virt + (k.size / PAGE - 1) * PAGE < 2 ^ 32 := by
  obtain ⟨-, -, hhigh, hpos, -, -, -⟩ := h
  unfold PAGE
  omega

theorem Fits.maps (h : Fits k)
    (hmaps : MapsRange mem next pgdir k.virt (k.size / PAGE - 1) (k.physStart / PAGE) k.perm) (hva : va < 2 ^ 32) :
    lookup next.word pgdir va = (k.pte va).or (lookup mem.word pgdir va) := by
  have hphys := h.phys
  rw [hmaps va hva, h.turns, Kmap.pte]
  split_ifs with hhere
  · have hpage : k.physStart / PAGE + (va - k.virt) / PAGE = (k.physStart + (va - k.virt)) / PAGE := by
      unfold PAGE at hphys ⊢
      omega
    rw [hpage]
    rfl
  · rfl

-- The ranges of the kernel's map are in order.
theorem kmap_pairwise (kernel : KernelImage) : (kmap kernel).Pairwise fun k k' => k.virt + k.size ≤ k'.virt := by
  have hlinked := kernel.linked
  have hfits := kernel.fits
  simp only [KERNLINK, KERNBASE, EXTMEM, P2V, PHYSTOP] at hlinked hfits
  unfold kmap V2P KERNLINK KERNBASE EXTMEM PHYSTOP DEVSPACE
  simp only [List.pairwise_cons, List.forall_mem_cons, List.not_mem_nil, false_imp_iff, implies_true,
    and_true, List.Pairwise.nil, Kmap.size]
  omega

theorem mapKernel_wp (hpages : pages.Nodup) (hfits : ∀ k ∈ list, Fits k)
    (horder : list.Pairwise fun k k' => k.virt + k.size ≤ k'.virt) (hmem : mem.Dir pgdir loose pages)
    (hunmapped : ∀ k ∈ list, mem.Unmapped pgdir k.virt (k.virt + k.size))
    (h : ∀ ok next, next.Dir pgdir loose pages → Frame pages mem next →
      (ok = true → ∀ va < 2 ^ 32, lookup next.word pgdir va = (kmapPte list va).or (lookup mem.word pgdir va)) →
      mem.Taken pgdir ok next → returns ok next) : wp (mapKernel pgdir list) mem returns stops := by
  induction list generalizing mem with
  | nil => exact h true mem hmem (.refl _ _) (fun _ _ _ => rfl) (.refl _ _)
  | cons k rest ih =>
    rw [pairwise_cons] at horder
    have hk := hfits k mem_cons_self
    have hhere := hunmapped k mem_cons_self
    rw [← hk.turns] at hhere
    rw [mapKernel, wp_bind]
    change wp (mappages pgdir k.virt k.size k.physStart k.perm) mem _ stops
    rw [hk.mappages pgdir]
    refine mapPages_wp hpages hk.virt hmem hk.low hk.last hhere fun ok next hnext hframe hmaps htaken => ?_
    cases ok with
    | false => exact h false next hnext hframe (fun hok => absurd hok (by decide)) htaken
    | true =>
      refine ih (fun k hk => hfits k (mem_cons_of_mem _ hk)) horder.2 hnext ?_ ?_
      · intro k' hk' va hva hle hlt
        have hafter := horder.1 k' hk'
        rw [hmaps rfl va hva, hk.turns, if_neg (by omega)]
        exact hunmapped k' (mem_cons_of_mem _ hk') va hva hle hlt
      · intro ok last hlast hrest hmaps' htaken'
        refine h ok last hlast (hframe.trans hrest) (fun hok va hva => ?_) (htaken.trans htaken')
        rw [hmaps' hok va hva, hk.maps (hmaps rfl) hva, kmapPte, Option.or_assoc]

theorem kmapPte_eq_some (hfits : ∀ k ∈ list, Fits k) {pte : Pte} (h : kmapPte list va = some pte) :
    KERNBASE ≤ va ∧ pte.user = false := by
  induction list with
  | nil => cases h
  | cons k rest ih =>
    rw [kmapPte, Option.or_eq_some_iff] at h
    rcases h with h | ⟨-, h⟩
    · exact ih (fun k hk => hfits k (mem_cons_of_mem _ hk)) h
    · have hk := hfits k mem_cons_self
      rw [Kmap.pte] at h
      split_ifs at h with hhere
      refine ⟨hk.low.trans hhere.1, ?_⟩
      rw [← Option.some.inj h, Pte.user_mapped, hk.perm]

theorem walkpgdir_find_wp {returns : Option (Page × Nat) → Kmem → Prop}
    (hnone : ¬(mem.word pgdir (PDX va)).present → returns none mem)
    (hsome : (mem.word pgdir (PDX va)).present → returns (some ((mem.word pgdir (PDX va)).page, PTX va)) mem) :
    wp (walkpgdir pgdir va false) mem returns stops := by
  unfold walkpgdir
  simp only [wp_bind, wp_get, wp_ite, wp_pure, Bool.not_false, if_true]
  split_ifs with hpresent
  · exact hsome hpresent
  · exact hnone hpresent

-- deallocuvm has freed the page of an entry and cleared the entry.
def unmapped (mem : Kmem) (table : Page) (index : Nat) : Kmem :=
  { mem.setPage (mem.word table index).page fun _ => .junk with
    freelist := (mem.word table index).page :: mem.freelist }.setWord table index .zero

theorem unmapped_eq {table : Page} {index : Nat} (hne : (mem.word table index).page ≠ table) :
    mem.unmapped table index =
      { (mem.setWord table index .zero).setPage (mem.word table index).page fun _ => .junk with
        freelist := (mem.word table index).page :: mem.freelist } := by
  simp only [unmapped, setWord, setPage, update_of_ne hne.symm]
  rw [update_comm hne]

theorem unmapped_table {table : Page} {index : Nat} (hne : (mem.word table index).page ≠ table) :
    (mem.unmapped table index).word table = update (mem.word table) index .zero := by
  rw [unmapped_eq hne]
  exact (update_of_ne hne.symm _ _).trans (update_self ..)

theorem lt_entries (hi : i < 512) : i < NPDENTRIES := Nat.lt_trans hi (by decide)

section Unmap

variable (h : mem.Dir pgdir loose pages) (hpages : pages.Nodup) {i j : Nat} (hi : i < 512) (hj : j < NPDENTRIES)
  (hpresent : (mem.word pgdir i).present) (hentry : (mem.word (mem.word pgdir i).page j).present)

include h hpages hi hj hpresent hentry

theorem Dir.clear : (mem.setWord (mem.word pgdir i).page j .zero).Dir pgdir
    ({(mem.word (mem.word pgdir i).page j).page} + loose) pages := by
  refine h.setWord hpages (lt_entries hi) hpresent hj _ ?_
  rw [if_pos hi, if_pos hi, Pte.pages_zero, Pte.pages_of_present hentry, zero_add]

theorem Dir.unmap : (mem.unmapped (mem.word pgdir i).page j).Dir pgdir loose pages := by
  rw [unmapped_eq (user_ne_table (h.dir_nodup hpages) (lt_entries hi) hi hj hpresent hentry)]
  have hclear := h.clear hpages hi hj hpresent hentry
  exact (hclear.setPage hpages (mem_singleton_add _ loose) _).push

-- The page directory and its other page tables are not touched.
theorem Dir.unmap_word (hpage : page = pgdir ∨ ∃ k < NPDENTRIES, k ≠ i ∧
    (mem.word pgdir k).present ∧ (mem.word pgdir k).page = page) :
    (mem.unmapped (mem.word pgdir i).page j).word page = mem.word page := by
  have hnodup := h.dir_nodup hpages
  have hne : page ≠ (mem.word pgdir i).page := by
    rcases hpage with rfl | ⟨k, hk, hki, hkp, rfl⟩
    · exact (table_ne_dir hnodup (lt_entries hi) hpresent).symm
    · exact table_ne_table hnodup hk (lt_entries hi) hki hkp hpresent
  have hdir : (mem.setWord (mem.word pgdir i).page j .zero).word pgdir = mem.word pgdir := by
    refine update_of_ne ?_ _ _
    exact (table_ne_dir hnodup (lt_entries hi) hpresent).symm
  have hmem : page ∈ dirPages (mem.setWord (mem.word pgdir i).page j .zero).word pgdir := by
    rcases hpage with rfl | ⟨k, hk, hki, hkp, rfl⟩
    · exact mem_dirPages_self _ _
    · have htable : ((mem.setWord (mem.word pgdir i).page j .zero).word pgdir k).page ∈
          dirPages (mem.setWord (mem.word pgdir i).page j .zero).word pgdir := table_mem_dirPages hk (by rwa [hdir])
      rwa [hdir] at htable
  have hfreed : page ≠ (mem.word (mem.word pgdir i).page j).page := by
    rintro rfl
    exact (h.clear hpages hi hj hpresent hentry).fresh hpages hmem
  exact (update_of_ne hne _ _).trans (update_of_ne hfreed _ _)

theorem Dir.unmap_frame : Frame pages mem (mem.unmapped (mem.word pgdir i).page j) := by
  have htable := h.dir_mem (table_mem_dirPages (lt_entries hi) hpresent)
  have hpage := (h.clear hpages hi hj hpresent hentry).loose_mem (mem_singleton_add _ _)
  exact (Frame.setPage _ hpage _).trans (.setPage _ htable _)

end Unmap

-- A page that is mapped for the user is one of the allocator's.
theorem Dir.owns_user (h : mem.Dir pgdir loose pages) (hhanded : Handed kernel pages) (hva : va < KERNBASE)
    (hpresent : (mem.word pgdir (PDX va)).present)
    (hentry : (mem.word (mem.word pgdir (PDX va)).page (PTX va)).present) :
    kernel.Owns (mem.word (mem.word pgdir (PDX va)).page (PTX va)).page := by
  have hcleared := h.clear hhanded.nodup (PDX_lt_user hva) (PTX_lt va) hpresent hentry
  exact hhanded.owns _ (hcleared.loose_mem (mem_singleton_add _ _))

theorem Dir.unmap_lookup (h : mem.Dir pgdir loose pages) (hpages : pages.Nodup) (hva : va < KERNBASE)
    (hpresent : (mem.word pgdir (PDX va)).present)
    (hentry : (mem.word (mem.word pgdir (PDX va)).page (PTX va)).present) (other : Nat) :
    lookup (mem.unmapped (mem.word pgdir (PDX va)).page (PTX va)).word pgdir other =
      if PDX other = PDX va ∧ PTX other = PTX va then none else lookup mem.word pgdir other := by
  have hword : ∀ page, (page = pgdir ∨ ∃ k < NPDENTRIES, k ≠ PDX va ∧ (mem.word pgdir k).present ∧
      (mem.word pgdir k).page = page) →
        (mem.unmapped (mem.word pgdir (PDX va)).page (PTX va)).word page = mem.word page :=
    fun _ => h.unmap_word hpages (PDX_lt_user hva) (PTX_lt va) hpresent hentry
  have hne := user_ne_table (h.dir_nodup hpages) (PDX_lt va) (PDX_lt_user hva) (PTX_lt va) hpresent hentry
  rw [lookup_set_entry hpresent (hword _ (.inl rfl)) (unmapped_table hne) fun k hk hne' hk' =>
      hword _ (.inr ⟨k, hk, hne', hk', rfl⟩),
    if_neg Pte.not_present_zero]

-- The addresses from `lo` to `hi` are not mapped any more, and the others as before.
def Unmaps (mem next : Kmem) (pgdir : Page) (lo hi : Nat) : Prop :=
  ∀ va < 2 ^ 32, lookup next.word pgdir va = if lo ≤ va ∧ va < hi then none else lookup mem.word pgdir va

theorem Unmaps.refl {lo hi : Nat} (h : hi ≤ lo) : Unmaps mem mem pgdir lo hi := by
  intro va _
  rw [if_neg (by omega)]

-- The first part was not mapped in the first place.
theorem Unmaps.extend {lo a hi : Nat} (h : Unmaps mem next pgdir a hi) (hlo : lo ≤ a)
    (hnone : ∀ va < 2 ^ 32, lo ≤ va → va < a → lookup mem.word pgdir va = none) : Unmaps mem next pgdir lo hi := by
  intro va hva
  rw [h va hva]
  by_cases ha : a ≤ va
  · simp only [ha, hlo.trans ha, true_and]
  · rw [if_neg (by omega)]
    split_ifs with hin
    · exact hnone va hva hin.1 (by omega)
    · rfl

theorem deallocLoop_wp (hhanded : Handed kernel pages) {oldsz a turns : Nat} (hoverall : oldsz ≤ KERNBASE)
    (hmem : mem.Dir pgdir loose pages) (halign : a % PAGE = 0) (hturns : oldsz ≤ a + turns * PAGE)
    {returns : Unit → Kmem → Prop}
    (h : ∀ next, next.Dir pgdir loose pages → Frame pages mem next → Unmaps mem next pgdir a (PGROUNDUP oldsz) →
      returns () next) : wp (deallocLoop kernel pgdir oldsz turns a) mem returns stops := by
  have hend : ∀ {a}, a % PAGE = 0 → oldsz ≤ a → PGROUNDUP oldsz ≤ a := by
    intro a halign hle
    unfold PAGE at halign
    unfold PGROUNDUP PAGE
    omega
  induction turns generalizing mem a with
  | zero => exact h mem hmem (.refl _ _) (.refl (hend halign (by omega)))
  | succ turns ih =>
    simp only [deallocLoop, wp_bind, wp_ite]
    split_ifs with hlt
    · have hva : a < KERNBASE := by omega
      refine walkpgdir_find_wp (fun habsent => ?_) fun hpresent => ?_
      · -- No page is mapped up to where the next page table begins.
        have hnext : a + PAGE ≤ (PDX a + 1) * 2 ^ 22 ∧ (PDX a + 1) * 2 ^ 22 % PAGE = 0 := by
          unfold KERNBASE at hva
          unfold PAGE at halign ⊢
          unfold PDX
          omega
        refine ih hmem hnext.2 ?_ fun last hlast hframe hunmaps => ?_
        · rw [Nat.succ_mul] at hturns
          omega
        · refine h last hlast hframe (hunmaps.extend (by omega) fun va _ hle hlt' => lookup_of_absent ?_)
          have hsame : PDX va = PDX a := by
            unfold KERNBASE at hva
            unfold PDX at hlt' ⊢
            omega
          rwa [hsame]
      · simp only [wp_bind, wp_get, wp_ite]
        have halign' : (a + PAGE) % PAGE = 0 := by
          unfold PAGE at halign ⊢
          omega
        have hturns' : oldsz ≤ a + PAGE + turns * PAGE := by
          rw [Nat.succ_mul] at hturns
          omega
        have hsame : ∀ va < 2 ^ 32, (PDX va = PDX a ∧ PTX va = PTX a ↔ a ≤ va ∧ va < a + PAGE) := by
          intro va hva'
          rw [same_entry_iff (hva.trans (by decide)) hva']
          unfold PAGE at halign ⊢
          omega
        split_ifs with hentry hzero
        · exact absurd hzero (hmem.owns_user hhanded hva hpresent hentry).ne_zero
        · refine kfree_wp (hmem.owns_user hhanded hva hpresent hentry) ?_
          rw [wp_modify]
          refine ih (hmem.unmap hhanded.nodup (PDX_lt_user hva) (PTX_lt a) hpresent hentry) halign' hturns'
            fun last hlast hframe hunmaps => h last hlast ?_ fun va hva' => ?_
          · exact (hmem.unmap_frame hhanded.nodup (PDX_lt_user hva) (PTX_lt a) hpresent hentry).trans hframe
          · have hlookup : lookup last.word pgdir va = if a + PAGE ≤ va ∧ va < PGROUNDUP oldsz then none
                else lookup (mem.unmapped (mem.word pgdir (PDX a)).page (PTX a)).word pgdir va := hunmaps va hva'
            have hround : a + PAGE ≤ PGROUNDUP oldsz := by
              unfold PAGE at halign ⊢
              unfold PGROUNDUP PAGE
              omega
            rw [hmem.unmap_lookup hhanded.nodup hva hpresent hentry] at hlookup
            simp only [hsame va hva'] at hlookup
            rw [hlookup]
            by_cases hhere : a ≤ va ∧ va < a + PAGE
            · rw [if_pos hhere, ite_self, if_pos (by omega)]
            · rw [if_neg hhere]
              refine if_congr ?_ rfl rfl
              omega
        · refine ih hmem halign' hturns' fun last hlast hframe hunmaps => ?_
          refine h last hlast hframe (hunmaps.extend (by omega) fun va hva' hle hlt' => ?_)
          have hat := (hsame va hva').mpr ⟨hle, hlt'⟩
          rw [← hat.1] at hpresent
          rw [← hat.1, ← hat.2] at hentry
          exact (lookup_eq_none_iff hpresent).mpr hentry
    · exact h mem hmem (.refl _ _) (.refl (hend halign (by omega)))

theorem mapPage_remap_wp (hmapped : lookup mem.word pgdir va ≠ none) {stops : VmHalt → Prop} (hstops : stops .remap) :
    wp (mapPage pgdir va page perm) mem returns stops := by
  unfold lookup at hmapped
  split_ifs at hmapped with hpresent hentry
  · unfold mapPage walkpgdir
    simp only [wp_bind, wp_get, wp_ite, if_pos hpresent, wp_pure, if_pos hentry, wp_throw]
    exact hstops
  · exact absurd rfl hmapped
  · exact absurd rfl hmapped

theorem Dir.room_filled (hpop : { mem with freelist := rest }.Dir pgdir ({page} + loose) pages)
    (hpages : pages.Nodup) (hlist : mem.freelist = page :: rest) (words : Nat → Pte) :
    (Kmem.setPage { mem with freelist := rest } page words).room pgdir + 1 = mem.room pgdir := by
  rw [room_setPage _ (hpop.ne_dir hpages)]
  unfold room
  rw [hlist, length_cons]
  dsimp only
  omega

end Kmem

end Xv6

import Xv6.Vm.Copyout

namespace Xv6

open Function Multiset

theorem Pte.flags_or_present {pte : Pte} (h : pte.present) : pte.flags ||| PTE_P = pte.flags := by
  refine BitVec.eq_of_getLsbD_eq fun i _ => ?_
  rw [BitVec.getLsbD_or]
  by_cases hzero : i = 0
  · subst hzero
    rw [show pte.flags.getLsbD 0 = true from h, Bool.true_or]
  · have hbit : PTE_P.getLsbD i = false := by simp [PTE_P, BitVec.getLsbD_one, hzero]
    rw [hbit, Bool.or_false]

namespace Kmem

open Xv6.Action

variable {kernel : KernelImage} {pages loose : Multiset Page} {start mem next : Kmem} {pgdir d : Page} {va : Nat}
variable {stops : VmHalt → Prop}

-- Only free pages, the page directory and its page tables have changed.
def Kept (mem next : Kmem) (pgdir : Page) : Prop :=
  ∀ page, page ∉ mem.freelist → page ≠ pgdir →
    (∀ i < NPDENTRIES, (mem.word pgdir i).present → (mem.word pgdir i).page ≠ page) → next.word page = mem.word page

theorem mapPage_kept_wp (mem : Kmem) (pgdir : Page) (va : Nat) (page : Page) (perm : BitVec 12) :
    wp (mapPage pgdir va page perm) mem (fun _ next => Kept mem next pgdir) fun _ => True := by
  unfold mapPage walkpgdir
  simp only [wp_bind, wp_get, wp_ite]
  split_ifs with hpresent halloc
  · simp only [wp_pure, wp_bind, wp_get, wp_ite, wp_throw, wp_modify]
    split_ifs
    intro other _ _ htable
    exact update_of_ne (htable _ (PDX_lt va) hpresent).symm _ _
  · simp at halloc
  · refine kalloc_wp (fun _ _ _ _ _ => rfl) fun table rest hlist => ?_
    simp only [memset, wp_pure, wp_bind, wp_get, wp_ite, wp_throw, wp_modify]
    split_ifs
    intro other hfree hdir _
    have htable : other ≠ table := by
      rintro rfl
      exact hfree (by rw [hlist]; exact List.mem_cons_self)
    simp only [setWord, setPage]
    rw [update_of_ne htable, update_of_ne hdir, update_of_ne htable]

variable {page : Page} {returns : Option Page → Kmem → Prop}

theorem mapUser_kept_wp (hpages : pages.Nodup) {perm : BitVec 12} (halign : va % PAGE = 0) (hva : va < KERNBASE)
    (hmem : mem.Dir pgdir ({page} + loose) pages) (hunmapped : lookup mem.word pgdir va = none)
    {returns : Bool → Kmem → Prop}
    (h : ∀ (ok : Bool) next, next.Dir pgdir (if ok then loose else {page} + loose) pages → Frame pages mem next →
      (∀ other < 2 ^ 32, lookup next.word pgdir other =
        if ok ∧ va ≤ other ∧ other < va + PAGE then some ⟨page, perm ||| PTE_P⟩ else lookup mem.word pgdir other) →
      mem.Taken pgdir ok next → Kept mem next pgdir → returns ok next) :
    wp (mappages pgdir va PAGE (page * PAGE) perm) mem returns stops := by
  have hmaps : wp (mappages pgdir va PAGE (page * PAGE) perm) mem
      (fun ok next => Kept mem next pgdir → returns ok next) stops :=
    mapUser_wp hpages halign hva hmem (fun hmapped => absurd hunmapped hmapped) h
  have hkept := mapPage_kept_wp mem pgdir va page perm
  rw [← mappages_one pgdir page perm halign (hva.trans (by decide))] at hkept
  exact (hmaps.and hkept).mono (fun _ _ hboth => hboth.1 hboth.2) fun _ hboth => hboth.1

section Kept

variable (h : mem.Dir d loose pages) (hpages : pages.Nodup) (hkept : Kept mem next d)

include h hpages hkept

theorem Kept.loose_page (hpage : page ∈ loose) : next.word page = mem.word page := by
  have hdir := h.not_loose hpages hpage
  refine hkept page ?_ ?_ fun i hi hpresent heq => ?_
  · intro hfree
    rw [← h] at hpages
    have hfree : page ∈ (mem.freelist : Multiset Page) + dirPages mem.word d :=
      mem_add.mpr (.inl (mem_coe.mpr hfree))
    exact disjoint_left.mp (nodup_add.mp hpages).2.2 hfree hpage
  · rintro rfl
    exact hdir (mem_dirPages_self _ _)
  · exact hdir (heq ▸ table_mem_dirPages hi hpresent)

theorem Kept.user {pte : Pte} (hva : va < KERNBASE) (hlookup : lookup mem.word d va = some pte) :
    next.word pte.page = mem.word pte.page := by
  have hnodup := h.dir_nodup hpages
  have hmem := lookup_mem_dirPages hva hlookup
  unfold lookup at hlookup
  split_ifs at hlookup with hpresent hentry
  obtain rfl := Option.some.inj hlookup
  refine hkept _ ?_ ?_ fun k hk hpk => ?_
  · intro hfree
    rw [← h] at hpages
    exact disjoint_left.mp (nodup_add.mp (nodup_add.mp hpages).1).2.2 (mem_coe.mpr hfree) hmem
  · exact user_ne_dir hnodup (PDX_lt_user hva) (PTX_lt va) hpresent hentry
  · exact (user_ne_any_table hnodup (PDX_lt_user hva) (PTX_lt va) hpresent hentry hk hpk).symm

end Kept

-- The pages below `i` are copied, and nothing is mapped for the user above it.
structure Copying (kernel : KernelImage) (start mem : Kmem) (pgdir d : Page) (i : Nat) : Prop where
  dir : mem.Dir d 0 start.freelist
  frame : Frame start.freelist start mem
  kernel (va : Nat) (hva : KERNBASE ≤ va) (hlt : va < 2 ^ 32) : lookup mem.word d va = kmapPte (kmap kernel) va
  copied (va : Nat) (hva : va < i) : ∃ pte page, lookup start.word pgdir va = some pte ∧
    lookup mem.word d va = some ⟨page, pte.flags⟩ ∧ mem.word page = start.word pte.page
  above (va : Nat) (hva : i ≤ va) (hlt : va < KERNBASE) : lookup mem.word d va = none

-- The page directory that is copied is not on the free list, so it is as it was.
theorem Copying.parent {i : Nat} (h : Copying kernel start mem pgdir d i)
    (hparent : Disjoint (start.freelist : Multiset Page) (dirPages start.word pgdir))
    (hpage : page ∈ dirPages start.word pgdir) : mem.word page = start.word page :=
  h.frame page fun hfree => Multiset.disjoint_left.mp hparent hfree hpage

section Step

variable {i : Nat} {page : Page} {rest : List Page} {pte : Pte} (h : Copying kernel start mem pgdir d i)
  (hpages : (start.freelist : Multiset Page).Nodup) (halign : i % PAGE = 0) (hi : i < KERNBASE)
  (hpte : lookup start.word pgdir i = some pte) (hlist : mem.freelist = page :: rest)

include h hpages halign hi hpte hlist

-- A new page is filled and mapped.
theorem Copying.step (hdir : next.Dir d 0 start.freelist)
    (hframe : Frame start.freelist (Kmem.setPage { mem with freelist := rest } page (start.word pte.page)) next)
    (hkept : Kept (Kmem.setPage { mem with freelist := rest } page (start.word pte.page)) next d)
    (hlookup : ∀ other < 2 ^ 32, lookup next.word d other =
      if i ≤ other ∧ other < i + PAGE then some ⟨page, pte.flags ||| PTE_P⟩
      else lookup (Kmem.setPage { mem with freelist := rest } page (start.word pte.page)).word d other) :
    Copying kernel start next pgdir d (i + PAGE) := by
  have hpresent : pte.present := by
    unfold lookup at hpte
    split_ifs at hpte with _ hentry
    exact Option.some.inj hpte ▸ hentry
  have hpop := h.dir.pop hlist
  have hloose := mem_singleton_add page 0
  have hfilled := hpop.setPage hpages hloose (start.word pte.page)
  have hmaps : ∀ va, lookup (Kmem.setPage { mem with freelist := rest } page (start.word pte.page)).word d va =
      lookup mem.word d va := hpop.setPage_maps hpages hloose (start.word pte.page)
  simp only [hmaps] at hlookup
  unfold KERNBASE at hi
  unfold PAGE at halign
  refine ⟨hdir, ?_, fun va hva hlt => ?_, fun va hva => ?_, fun va hva hlt => ?_⟩
  · have hpage : page ∈ (start.freelist : Multiset Page) := hpop.loose_mem hloose
    exact h.frame.trans ((Frame.setPage { mem with freelist := rest } hpage _).trans hframe)
  · unfold KERNBASE at hva
    rw [hlookup va hlt, if_neg (by unfold PAGE; omega)]
    exact h.kernel va hva hlt
  · by_cases hhere : i ≤ va
    · refine ⟨pte, page, ?_, ?_, ?_⟩
      · rw [← hpte]
        refine lookup_page _ _ ?_
        unfold PAGE at hva ⊢
        omega
      · rw [hlookup va (by unfold PAGE at hva; omega), if_pos ⟨hhere, hva⟩, Pte.flags_or_present hpresent]
      · rw [hkept.loose_page hfilled hpages hloose]
        exact update_self ..
    · obtain ⟨other, copy, hother, hcopy, hwords⟩ := h.copied va (by omega)
      refine ⟨other, copy, hother, ?_, ?_⟩
      · rw [hlookup va (by omega), if_neg (by omega)]
        exact hcopy
      · have hva' : va < KERNBASE := by
          unfold KERNBASE
          omega
        have hne : copy ≠ page := by
          rintro rfl
          exact hpop.not_loose hpages hloose (lookup_mem_dirPages hva' hcopy)
        rw [hkept.user hfilled hpages hva' ((hmaps va).trans hcopy), ← hwords]
        exact update_of_ne hne _ _
  · rw [hlookup va (hlt.trans (by decide)), if_neg (by omega)]
    exact h.above va (by omega) hlt

end Step

theorem kmapPte_kernbase (kernel : KernelImage) : kmapPte (kmap kernel) KERNBASE ≠ none := by
  have hfirst : (Kmap.mk KERNBASE 0 EXTMEM PTE_W).pte KERNBASE ≠ none := by
    rw [Kmap.pte, if_pos (by decide)]
    exact Option.some_ne_none _
  rw [kmap, kmapPte, Ne, Option.or_eq_none_iff]
  exact fun hnone => hfirst hnone.2

-- By induction on the turns. At KERNBASE, which a process does not reach, mappages panics.
theorem copyLoop_copies_wp (hhanded : Handed kernel start.freelist)
    (hparent : Disjoint (start.freelist : Multiset Page) (dirPages start.word pgdir)) {sz i turns : Nat}
    (h : Copying kernel start mem pgdir d i) (halign : i % PAGE = 0) (hle : i ≤ PGROUNDUP sz) (huser : i ≤ KERNBASE)
    (hturns : sz ≤ i + turns * PAGE)
    (hstops : (∃ va < sz, lookup start.word pgdir va = none) ∨ KERNBASE < sz → ∀ halt, stops halt)
    (hnone : mem.room d < NPDENTRIES + (PGROUNDUP sz - i) / PAGE → ∀ next, returns none next)
    (hsome : ∀ next, Copying kernel start next pgdir d (PGROUNDUP sz) → returns (some d) next) :
    wp (copyLoop kernel pgdir d sz turns i) mem returns stops := by
  have hend : ∀ {mem : Kmem} {i : Nat}, Copying kernel start mem pgdir d i → i % PAGE = 0 → i ≤ PGROUNDUP sz →
      sz ≤ i → returns (some d) mem := by
    intro mem i h halign hle hge
    have hround : i = PGROUNDUP sz := by
      unfold PGROUNDUP at hle ⊢
      unfold PAGE at halign hle ⊢
      omega
    subst hround
    exact hsome mem h
  induction turns generalizing mem i with
  | zero => exact hend h halign hle (by omega)
  | succ turns ih =>
    simp only [copyLoop, wp_ite]
    split_ifs with hlt
    · have hmissing : lookup start.word pgdir i = none ∨ ¬i < KERNBASE → ∀ halt, stops halt := by
        rintro (hnone | hge)
        · exact hstops (.inl ⟨i, hlt, hnone⟩)
        · exact hstops (.inr (by omega))
      have hdir := h.parent hparent (mem_dirPages_self _ _)
      rw [wp_bind]
      refine walkpgdir_find_wp (fun habsent => ?_) fun hpresent => ?_
      · rw [hdir] at habsent
        exact hmissing (.inl (lookup_of_absent habsent)) _
      rw [hdir] at hpresent ⊢
      simp only [wp_bind, wp_get, wp_ite, wp_throw]
      rw [h.parent hparent (table_mem_dirPages (PDX_lt i) hpresent)]
      obtain ⟨left, hleft, hleft', hround⟩ : ∃ left, (PGROUNDUP sz - i) / PAGE = left + 1 ∧
          (PGROUNDUP sz - (i + PAGE)) / PAGE = left ∧ i + PAGE ≤ PGROUNDUP sz := by
        refine ⟨_, ?_, rfl, ?_⟩ <;> unfold PGROUNDUP at hle ⊢ <;> unfold PAGE at halign hle ⊢ <;> omega
      rw [hleft] at hnone
      split_ifs with habsent
      · exact hmissing (.inl ((lookup_eq_none_iff hpresent).mpr (by simpa using habsent))) _
      refine kalloc_wp (fun hempty => ?_) fun page rest hlist => ?_
      · have hle := mem.room_le d
        rw [hempty, List.length_nil] at hle
        simp only [wp_bind]
        exact freevm_wp hhanded h.dir fun next _ _ => hnone (by omega) next
      · have hpop := h.dir.pop hlist
        have hloose := mem_singleton_add page 0
        simp only [wp_bind, wp_modify]
        by_cases hi : i < KERNBASE
        · have hpte : lookup start.word pgdir i = some (start.word (start.word pgdir (PDX i)).page (PTX i)) := by
            rw [lookup, if_pos hpresent, if_pos (by simpa using habsent)]
          rw [h.parent hparent (lookup_mem_dirPages hi hpte)]
          have hunmapped := (hpop.setPage_maps hhanded.nodup hloose
            (start.word (start.word (start.word pgdir (PDX i)).page (PTX i)).page) i).trans
            (h.above i (Nat.le_refl _) hi)
          refine mapUser_kept_wp hhanded.nodup halign hi (hpop.setPage hhanded.nodup hloose _) hunmapped ?_
          intro ok next hnext hframe hlookup htaken hkept
          have hroom := hpop.room_filled hhanded.nodup hlist
            (start.word (start.word (start.word pgdir (PDX i)).page (PTX i)).page)
          cases ok with
          | true =>
            have hsame : next.room d = _ := htaken
            rw [if_pos rfl] at hnext ⊢
            simp only [true_and] at hlookup
            refine ih (h.step hhanded.nodup halign hi hpte hlist hnext hframe hkept hlookup) ?_ hround ?_ ?_ ?_
            · rwa [Nat.add_mod_right]
            · unfold KERNBASE at hi ⊢
              unfold PAGE at halign ⊢
              omega
            · rw [Nat.succ_mul] at hturns
              omega
            · intro hshort
              rw [hleft'] at hshort
              exact hnone (by omega)
          | false =>
            have hshort : _ < NPDENTRIES := htaken
            have hpage := hpop.loose_mem hloose
            simp only [wp_bind, Bool.false_eq_true, if_false]
            refine kfree_wp (hhanded.owns _ hpage) ?_
            refine freevm_wp hhanded (hnext.setPage hhanded.nodup hloose fun _ => .junk).push fun last _ _ => ?_
            exact hnone (by omega) last
        · have hbase : i = KERNBASE := by omega
          subst hbase
          rw [mappages_one d page _ halign (by decide)]
          refine mapPage_remap_wp ?_ (hmissing (.inr hi) _)
          rw [hpop.setPage_maps hhanded.nodup hloose, h.kernel _ (Nat.le_refl _) (by decide)]
          exact kmapPte_kernbase kernel
    · exact hend h halign hle (by omega)

-- A copy is made unless pages are short: one for the page directory, one for each page table there can be,
-- and one for each page of the process.
theorem copyuvm_copies_wp (hhanded : Handed kernel mem.freelist)
    (hparent : Disjoint (mem.freelist : Multiset Page) (dirPages mem.word pgdir)) {sz : Nat}
    (hpresent : ∀ va < sz, lookup mem.word pgdir va ≠ none) (hstops : KERNBASE < sz → ∀ halt, stops halt)
    (hnone : mem.freelist.length ≤ NPDENTRIES + PGROUNDUP sz / PAGE → ∀ next, returns none next)
    (hsome : ∀ d next, Copying kernel mem next pgdir d (PGROUNDUP sz) → returns (some d) next) :
    wp (copyuvm kernel pgdir sz) mem returns stops := by
  unfold copyuvm
  rw [wp_bind]
  refine setupkvm_maps_wp hhanded (add_zero _) fun made middle hmade hframe hmaps hroom => ?_
  cases made with
  | none => exact hnone (hroom.trans (Nat.le_add_right _ _)) middle
  | some d =>
    have hmaps := hmaps d rfl
    have hroom : middle.room d + 1 = mem.freelist.length := hroom
    have hfresh : middle.Fresh d := .of_maps hmaps
    have hcopying : Copying kernel mem middle pgdir d 0 :=
      ⟨hmade, hframe, fun va _ => hmaps va, fun va hva => absurd hva (Nat.not_lt_zero va), fun va _ => hfresh.lower va⟩
    have hturns : sz ≤ 0 + (sz / PAGE + 1) * PAGE := by
      unfold PAGE
      omega
    refine copyLoop_copies_wp hhanded hparent hcopying (Nat.zero_mod _) (Nat.zero_le _) (Nat.zero_le _) hturns ?_ ?_
      fun next => hsome d next
    · rintro (⟨va, hva, habsent⟩ | hlarge)
      · exact absurd habsent (hpresent va hva)
      · exact hstops hlarge
    · intro hfew
      rw [Nat.sub_zero] at hfew
      exact hnone (by omega)

-- The address space `d` is a copy of the one of `pgdir` up to this size, and shares no page with it.
structure SpaceCopied (kernel : KernelImage) (mem next : Kmem) (pgdir d : Page) (sz : Nat) : Prop where
  upper (va : Nat) (hva : KERNBASE ≤ va) (hlt : va < 2 ^ 32) : lookup next.word d va = kmapPte (kmap kernel) va
  setup (other : Page) (fresh : Kmem) (hrun : (setupkvm kernel).run mem = .ok (some other, fresh)) (va : Nat)
    (hva : KERNBASE ≤ va) (hlt : va < 2 ^ 32) : lookup next.word d va = lookup fresh.word other va
  user (va : Nat) (hva : va < PGROUNDUP sz) : ∃ pte page, lookup mem.word pgdir va = some pte ∧
    lookup next.word d va = some ⟨page, pte.flags⟩ ∧ next.word page = mem.word pte.page
  above (va : Nat) (hva : PGROUNDUP sz ≤ va) (hlt : va < KERNBASE) : lookup next.word d va = none
  nodup : (dirPages next.word d).Nodup
  disjoint : Disjoint (dirPages next.word d) (dirPages mem.word pgdir)
  parent (page : Page) (hpage : page ∈ dirPages mem.word pgdir) : next.word page = mem.word page

theorem copyuvm_copies (hhanded : Handed kernel mem.freelist)
    (hparent : Disjoint (mem.freelist : Multiset Page) (dirPages mem.word pgdir)) {sz : Nat}
    (hpresent : ∀ va < sz, lookup mem.word pgdir va ≠ none) :
    wp (copyuvm kernel pgdir sz) mem
      (fun made next => (∀ d ∈ made, SpaceCopied kernel mem next pgdir d sz) ∧
        (made = none → mem.freelist.length ≤ NPDENTRIES + PGROUNDUP sz / PAGE))
      fun _ => KERNBASE < sz := by
  refine copyuvm_copies_wp hhanded hparent hpresent (fun hlarge _ => hlarge) (fun hshort next => ?_) fun d next h => ?_
  · exact ⟨fun _ hd => absurd hd (by simp), fun _ => hshort⟩
  · refine ⟨fun d' hd' => ?_, fun hfalse => absurd hfalse (by simp)⟩
    obtain rfl := Option.mem_some.mp hd'
    refine ⟨h.kernel, fun other fresh hrun va hva hlt => ?_, h.copied, h.above, h.dir.dir_nodup hhanded.nodup, ?_,
      fun page hpage => ?_⟩
    · have hsetup : wp (setupkvm kernel) mem (fun made next => ∀ pgdir ∈ made, ∀ va < 2 ^ 32,
          lookup next.word pgdir va = kmapPte (kmap kernel) va) fun _ => True :=
        setupkvm_maps_wp hhanded (add_zero _) fun _ _ _ _ hmaps _ => hmaps
      exact (h.kernel va hva hlt).trans (hsetup.returned hrun other rfl va hlt).symm
    · rw [disjoint_left]
      intro page hpage
      exact disjoint_left.mp hparent (h.dir.dir_mem hpage)
    · exact h.parent hparent hpage

-- The same page, and enough free ones.
@[irreducible] def manyPages : Kmem := { onePage with freelist := List.range' 0x200 1100 }

theorem manyPages_freelist : manyPages.freelist = List.range' 0x200 1100 := by rw [manyPages]

theorem manyPages_word : manyPages.word = onePage.word := by rw [manyPages]

theorem mem_manyPages {page : Nat} :
    page ∈ (manyPages.freelist : Multiset Page) ↔ 0x200 ≤ page ∧ page < 0x200 + 1100 := by
  rw [manyPages_freelist]
  exact List.mem_range'_1

theorem manyPages_handed : Handed Vm.smallKernel manyPages.freelist where
  nodup := by
    rw [manyPages_freelist]
    exact coe_nodup.mpr List.nodup_range'
  owns (page : Nat) hpage := by
    have hpage := mem_manyPages.mp hpage
    unfold KernelImage.Owns P2V KERNBASE PHYSTOP PAGE Vm.smallKernel
    dsimp only
    omega

theorem manyPages_disjoint : Disjoint (manyPages.freelist : Multiset Page) (dirPages manyPages.word 1) := by
  have hsmall : ∀ i, ∀ page ∈ tablePages manyPages.word 1 i, page = 2 ∨ page = 3 := by
    intro i page hpage
    by_cases hi : i = 0
    · subst hi
      have huser : ∀ j, j ≠ 0 → (onePage.word 2 j).pages = 0 := by
        intro j hj
        simp [onePage, hj]
      rw [manyPages_word, tablePages, if_pos (by decide), if_pos (by decide)] at hpage
      rcases mem_add.mp hpage with htable | huserPage
      · exact .inl (mem_singleton.mp htable)
      · obtain ⟨j, -, hentry⟩ := mem_sum.mp huserPage
        by_cases hj : j = 0
        · subst hj
          exact .inr (mem_singleton.mp hentry)
        · have hnone : (onePage.word (onePage.word 1 0).page j).pages = 0 := huser j hj
          rw [hnone] at hentry
          exact absurd hentry (notMem_zero page)
    · have hnone : tablePages manyPages.word 1 i = 0 := by
        simp [tablePages, manyPages_word, onePage, hi, Pte.present, Pte.zero]
      rw [hnone] at hpage
      exact absurd hpage (notMem_zero page)
  rw [disjoint_left]
  intro page hpage hdir
  have hlow : 0x200 ≤ page := (mem_manyPages.mp hpage).1
  rcases mem_add.mp hdir with hself | htables
  · rw [mem_singleton.mp hself] at hlow
    exact absurd hlow (by decide)
  · obtain ⟨i, -, htable⟩ := mem_sum.mp htables
    rcases hsmall i page htable with rfl | rfl
    · exact absurd hlow (by decide)
    · exact absurd hlow (by decide)

theorem manyPages_lookup {va : Nat} (hva : va < 4096) : lookup manyPages.word 1 va ≠ none := by
  have hpage := onePage_userPage va
  have hplace : PDX va = 0 ∧ PTX va = 0 := by
    unfold PDX PTX
    omega
  rw [if_pos hplace, userPage] at hpage
  intro hnone
  rw [manyPages_word] at hnone
  rw [hnone] at hpage
  exact absurd hpage (by simp)

theorem copyuvm_copies_page : ∃ d next, (copyuvm Vm.smallKernel 1 4096).run manyPages = .ok (some d, next) ∧
    SpaceCopied Vm.smallKernel manyPages next 1 d 4096 := by
  have hpresent : ∀ va < 4096, lookup manyPages.word 1 va ≠ none := fun _ => manyPages_lookup
  have hcopies := copyuvm_copies manyPages_handed manyPages_disjoint hpresent
  generalize hmem : manyPages = mem at hcopies ⊢
  rcases hcopies.run with ⟨made, next, hrun, hcopied, hshort⟩ | ⟨_, -, hlarge⟩
  · cases made with
    | none =>
      have hfew := hshort rfl
      rw [← hmem, manyPages_freelist, List.length_range'] at hfew
      exact absurd hfew (by decide)
    | some d => exact ⟨d, next, hrun, hcopied d rfl⟩
  · exact absurd hlarge (by decide)

end Kmem

end Xv6

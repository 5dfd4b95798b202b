import Mathlib.Order.Interval.Finset.Nat
import Xv6.Vm.Theorems

namespace Xv6.Kmem

open Xv6.Action Multiset

variable {kernel : KernelImage} {pages loose : Multiset Page} {mem next : Kmem} {pgdir : Page}
variable {stops : VmHalt → Prop}

theorem entries_sum (f : Nat → Multiset Page) : ∑ i ∈ entries, f i = ((List.range NPDENTRIES).map f).sum := by
  rw [entries, ← List.sum_toFinset f List.nodup_range, List.toFinset_range]

variable {oldsz newsz : Nat} {returns : Option Page → Kmem → Prop}

theorem deallocuvm_wp (hhanded : Handed kernel pages) (hoverall : oldsz ≤ KERNBASE)
    (hmem : mem.Dir pgdir loose pages) {returns : Nat → Kmem → Prop}
    (h : ∀ next, next.Dir pgdir loose pages → Frame pages mem next →
      Unmaps mem next pgdir (PGROUNDUP newsz) (PGROUNDUP oldsz) →
      returns (if oldsz ≤ newsz then oldsz else newsz) next) :
    wp (deallocuvm kernel pgdir oldsz newsz) mem returns stops := by
  unfold deallocuvm
  simp only [wp_ite, wp_bind, wp_pure]
  split_ifs with hle
  · rw [if_pos hle] at h
    refine h mem hmem (.refl _ _) (.refl ?_)
    unfold PGROUNDUP
    exact Nat.mul_le_mul_right _ (Nat.div_le_div_right (by omega))
  · rw [if_neg hle] at h
    have halign : PGROUNDUP newsz % PAGE = 0 := Nat.mul_mod_left _ _
    have hturns : oldsz ≤ PGROUNDUP newsz + (oldsz / PAGE + 1) * PAGE := by
      unfold PAGE
      omega
    exact deallocLoop_wp hhanded hoverall hmem halign hturns h

-- After the user part is freed, the page directory has its page tables only.
theorem dirPages_of_unmapped (h : ∀ va < KERNBASE, lookup mem.word pgdir va = none) :
    Xv6.dirPages mem.word pgdir = {pgdir} + ((List.range NPDENTRIES).map fun i => (mem.word pgdir i).pages).sum := by
  rw [Xv6.dirPages, ← entries_sum]
  congr 1
  refine Finset.sum_congr rfl fun i _ => ?_
  unfold tablePages Pte.pages
  split_ifs with hpresent huser
  · have hzero : userPages mem.word (mem.word pgdir i).page = 0 := by
      refine Finset.sum_eq_zero fun j hj => Pte.pages_of_not_present ?_
      have hj := mem_entries.mp hj
      have hpdx : PDX ((i * 1024 + j) * PAGE) = i := by
        unfold PAGE PDX
        unfold NPDENTRIES at hj
        omega
      have hptx : PTX ((i * 1024 + j) * PAGE) = j := by
        unfold PAGE PTX
        unfold NPDENTRIES at hj
        omega
      have hnone := h ((i * 1024 + j) * PAGE) (by
        unfold PAGE KERNBASE
        unfold NPDENTRIES at hj
        omega)
      rw [lookup_eq_none_iff (by rwa [hpdx]), hpdx, hptx] at hnone
      exact hnone
    rw [hzero, add_zero]
  · rw [add_zero]
  · rfl

-- The page tables of these entries are still to be freed.
def Tables (mem : Kmem) (pgdir : Page) (rest : List Nat) (loose pages : Multiset Page) : Prop :=
  (mem.freelist : Multiset Page) + ({pgdir} + (rest.map fun i => (mem.word pgdir i).pages).sum) + loose = pages

theorem freeTables_wp (hhanded : Handed kernel pages) {rest : List Nat} (hmem : mem.Tables pgdir rest loose pages)
    {returns : Unit → Kmem → Prop}
    (h : ∀ next, next.Tables pgdir [] loose pages → Frame pages mem next → returns () next) :
    wp (freeTables kernel pgdir rest) mem returns stops := by
  induction rest generalizing mem with
  | nil => exact h mem hmem (.refl _ _)
  | cons i rest ih =>
    simp only [freeTables, wp_bind, wp_get, wp_ite]
    unfold Tables at hmem
    rw [List.map_cons, List.sum_cons] at hmem
    split_ifs with hpresent
    · rw [Pte.pages_of_present hpresent] at hmem
      have hpage : (mem.word pgdir i).page ∈ pages := by
        rw [← hmem]
        simp only [mem_add, mem_singleton, true_or, or_true]
      have hne : pgdir ≠ (mem.word pgdir i).page := by
        have hnodup := hhanded.nodup
        rw [← hmem] at hnodup
        have hdir := (nodup_add.mp (nodup_add.mp hnodup).1).2.1
        intro heq
        refine disjoint_left.mp (nodup_add.mp hdir).2.2 (mem_singleton_self pgdir) ?_
        exact mem_add.mpr (.inl (mem_singleton.mpr heq))
      refine kfree_wp (hhanded.owns _ hpage) (ih ?_ fun next hnext hframe => ?_)
      · unfold Tables
        rw [← hmem, ← cons_coe, ← singleton_add]
        simp only [setPage, Function.update_of_ne hne]
        abel
      · exact h next hnext ((Frame.setPage mem hpage _).trans hframe)
    · rw [Pte.pages_of_not_present hpresent, zero_add] at hmem
      exact ih hmem h

theorem freevm_wp (hhanded : Handed kernel pages) (hmem : mem.Dir pgdir loose pages) {returns : Unit → Kmem → Prop}
    (h : ∀ next : Kmem, (next.freelist : Multiset Page) + loose = pages → Frame pages mem next → returns () next) :
    wp (freevm kernel pgdir) mem returns stops := by
  unfold freevm
  rw [wp_bind]
  refine deallocuvm_wp hhanded (Nat.le_refl _) hmem fun middle hmiddle hframe hunmaps => ?_
  have htables : middle.Tables pgdir (List.range NPDENTRIES) loose pages := by
    rw [Dir, dirPages_of_unmapped] at hmiddle
    · exact hmiddle
    · intro va hva
      rw [hunmaps va (hva.trans (by decide))]
      exact if_pos ⟨Nat.zero_le _, hva⟩
  rw [wp_bind]
  generalize List.range NPDENTRIES = rest at htables ⊢
  refine freeTables_wp hhanded htables fun last hlast htables => ?_
  have hdir : pgdir ∈ pages := hmem.dir_mem (mem_dirPages_self _ _)
  refine kfree_wp (hhanded.owns _ hdir) (h _ ?_ ?_)
  · rw [← hlast, ← cons_coe, ← singleton_add]
    simp only [List.map_nil, List.sum_nil]
    abel
  · exact (hframe.trans htables).trans (.setPage _ hdir _)

-- A page directory in which nothing is mapped for the user.
structure Fresh (mem : Kmem) (pgdir : Page) : Prop where
  lower (va : Nat) (hva : va < KERNBASE) : lookup mem.word pgdir va = none
  upper : mem.KernelOnly pgdir

-- What setupkvm and copyuvm leave: a page directory that has got its pages from the free list, or no change.
def Made (next : Kmem) (loose pages : Multiset Page) : Option Page → Prop
  | none => (next.freelist : Multiset Page) + loose = pages
  | some pgdir => next.Dir pgdir loose pages

-- kalloc has taken a page from the free list.
theorem popped {page : Page} {rest : List Page} (hmem : (mem.freelist : Multiset Page) + loose = pages)
    (hlist : mem.freelist = page :: rest) : (rest : Multiset Page) + {page} + loose = pages := by
  rw [← hmem, hlist, ← cons_coe, ← singleton_add]
  abel

-- A page of zeros is a page directory that maps nothing.
theorem Dir.empty (mem : Kmem) (rest : List Page) (hpages : (rest : Multiset Page) + {pgdir} + loose = pages) :
    (Kmem.setPage { mem with freelist := rest } pgdir fun _ => .zero).Dir pgdir loose pages := by
  have hdir : dirPages (Kmem.setPage { mem with freelist := rest } pgdir fun _ => .zero).word pgdir = {pgdir} := by
    rw [dirPages, Finset.sum_eq_zero, add_zero]
    intro i _
    have hword : (Kmem.setPage { mem with freelist := rest } pgdir fun _ => .zero).word pgdir = fun _ => .zero :=
      Function.update_self ..
    rw [tablePages, hword]
    exact if_neg Pte.not_present_zero
  rw [Dir, hdir]
  exact hpages

theorem lookup_empty (mem : Kmem) (rest : List Page) (va : Nat) :
    lookup (Kmem.setPage { mem with freelist := rest } pgdir fun _ => .zero).word pgdir va = none := by
  refine lookup_of_absent ?_
  simp [Kmem.setPage, Pte.not_present_zero]

-- The room that setupkvm leaves, or that there was not enough of it.
def Roomy (mem next : Kmem) : Option Page → Prop
  | none => mem.freelist.length ≤ NPDENTRIES
  | some pgdir => next.room pgdir + 1 = mem.freelist.length

-- setupkvm does not panic, and it fails only if there are not as many free pages as there can be page tables.
theorem setupkvm_maps_wp (hhanded : Handed kernel pages) (hmem : (mem.freelist : Multiset Page) + loose = pages)
    (h : ∀ made next, Made next loose pages made → Frame pages mem next →
      (∀ pgdir ∈ made, ∀ va < 2 ^ 32, lookup next.word pgdir va = kmapPte (kmap kernel) va) →
      Roomy mem next made → returns made next) : wp (setupkvm kernel) mem returns stops := by
  unfold setupkvm
  rw [wp_bind]
  have hnone : ∀ {next : Kmem}, ∀ pgdir ∈ (none : Option Page), ∀ va < 2 ^ 32,
      lookup next.word pgdir va = kmapPte (kmap kernel) va := fun _ hpgdir => absurd hpgdir (by simp)
  refine kalloc_wp (fun hempty => h none mem hmem (.refl _ _) hnone ?_) fun pgdir rest hlist => ?_
  · unfold Roomy
    rw [hempty]
    exact Nat.zero_le _
  have hpopped := popped hmem hlist
  have hdir : pgdir ∈ pages := by
    rw [← hpopped]
    exact mem_add.mpr (.inl (mem_add.mpr (.inr (mem_singleton_self _))))
  have hempty : (Kmem.setPage { mem with freelist := rest } pgdir fun _ => .zero).Dir pgdir loose pages :=
    .empty _ _ hpopped
  have hroom :
      (Kmem.setPage { mem with freelist := rest } pgdir fun _ => .zero).room pgdir + 1 = mem.freelist.length := by
    simp [room, setPage, Pte.not_present_zero, hlist]
  simp only [wp_bind, memset, wp_modify]
  refine mapKernel_wp hhanded.nodup (kmap_fits kernel) (kmap_pairwise kernel) hempty
    (fun _ _ va _ _ _ => lookup_empty mem rest va) fun ok next hnext hrest hmaps htaken => ?_
  have hframe := (Frame.setPage { mem with freelist := rest } hdir fun _ => .zero).trans hrest
  cases ok with
  | true =>
    have hsame : next.room pgdir = _ := htaken
    refine h (some pgdir) next hnext hframe (fun dir hdir => ?_) ?_
    · obtain rfl := Option.mem_some.mp hdir
      intro va hva
      rw [hmaps rfl va hva, lookup_empty, Option.or_none]
    · change next.room pgdir + 1 = _
      rw [hsame, hroom]
  | false =>
    have hshort : _ < NPDENTRIES := htaken
    simp only [Bool.false_eq_true, if_false, wp_bind]
    refine freevm_wp hhanded hnext fun last hlast hrest => h none last hlast (hframe.trans hrest) hnone ?_
    unfold Roomy
    omega

theorem Fresh.of_maps (h : ∀ va < 2 ^ 32, lookup mem.word pgdir va = kmapPte (kmap kernel) va) : mem.Fresh pgdir where
  lower va hva := by
    rw [h va (hva.trans (by decide)), Option.eq_none_iff_forall_ne_some]
    intro pte hpte
    exact absurd (kmapPte_eq_some (kmap_fits kernel) hpte).1 (Nat.not_le.mpr hva)
  upper va pte _ hva hpte := by
    rw [h va hva] at hpte
    exact (kmapPte_eq_some (kmap_fits kernel) hpte).2

theorem setupkvm_wp (hhanded : Handed kernel pages) (hmem : (mem.freelist : Multiset Page) + loose = pages)
    (h : ∀ made next, Made next loose pages made → Frame pages mem next → (∀ pgdir ∈ made, next.Fresh pgdir) →
      returns made next) : wp (setupkvm kernel) mem returns stops :=
  setupkvm_maps_wp hhanded hmem fun made next hmade hframe hmaps _ =>
    h made next hmade hframe fun pgdir hpgdir => .of_maps (hmaps pgdir hpgdir)

-- A page of a user is mapped, or it stays where it was.
theorem mapUser_wp (hpages : pages.Nodup) {page : Page} {va : Nat} {perm : BitVec 12} (halign : va % PAGE = 0)
    (hva : va < KERNBASE) (hmem : mem.Dir pgdir ({page} + loose) pages)
    (hstops : lookup mem.word pgdir va ≠ none → stops .remap) {returns : Bool → Kmem → Prop}
    (h : ∀ (ok : Bool) next, next.Dir pgdir (if ok then loose else {page} + loose) pages → Frame pages mem next →
      (∀ other < 2 ^ 32, lookup next.word pgdir other =
        if ok ∧ va ≤ other ∧ other < va + PAGE then some ⟨page, perm ||| PTE_P⟩ else lookup mem.word pgdir other) →
      mem.Taken pgdir ok next → returns ok next) :
    wp (mappages pgdir va PAGE (page * PAGE) perm) mem returns stops := by
  have hmapped : mapped va page = {page} := if_pos (PDX_lt_user hva)
  rw [mappages_one pgdir page perm halign (hva.trans (by decide))]
  rw [← hmapped] at hmem h
  refine mapPage_wp hpages hmem hstops fun ok next hnext hframe hlookup => h ok next hnext hframe fun other hother => ?_
  rw [hlookup other]
  refine if_congr (and_congr_right fun _ => (same_entry_iff (hva.trans (by decide)) hother).trans ?_) rfl rfl
  unfold PAGE at halign ⊢
  omega

-- The addresses from `lo` to `hi` are mapped for the user, and the others as before.
def Grows (mem next : Kmem) (pgdir : Page) (lo hi : Nat) : Prop :=
  ∀ va < 2 ^ 32,
    if lo ≤ va ∧ va < hi then ∃ page, lookup next.word pgdir va = some ⟨page, PTE_W ||| PTE_U ||| PTE_P⟩
    else lookup next.word pgdir va = lookup mem.word pgdir va

theorem allocLoop_wp (hhanded : Handed kernel pages) {a turns : Nat} (hnewsz : newsz < KERNBASE)
    (hmem : mem.Dir pgdir loose pages) (halign : a % PAGE = 0) (hle : PGROUNDUP oldsz ≤ a)
    (hturns : newsz ≤ a + turns * PAGE)
    (hstops : (∃ va, a ≤ va ∧ va < newsz ∧ lookup mem.word pgdir va ≠ none) → stops .remap)
    {returns : Nat → Kmem → Prop}
    (hgrown : ∀ next, next.Dir pgdir loose pages → Frame pages mem next → Grows mem next pgdir a (PGROUNDUP newsz) →
      returns newsz next) (hshort : ∀ next, next.Dir pgdir loose pages → Frame pages mem next →
      Unmaps mem next pgdir (PGROUNDUP oldsz) (PGROUNDUP newsz) →
      mem.room pgdir < NPDENTRIES + (PGROUNDUP newsz - a) / PAGE → returns 0 next) :
    wp (allocLoop kernel pgdir oldsz newsz turns a) mem returns stops := by
  have hend : ∀ {mem : Kmem} {a : Nat}, a % PAGE = 0 → newsz ≤ a → Grows mem mem pgdir a (PGROUNDUP newsz) := by
    intro mem a halign hge va _
    have hround : PGROUNDUP newsz ≤ a := by
      unfold PAGE at halign
      unfold PGROUNDUP PAGE
      omega
    rw [if_neg (by omega)]
  induction turns generalizing mem a with
  | zero =>
    rw [allocLoop, wp_pure]
    exact hgrown mem hmem (.refl _ _) (hend halign (by omega))
  | succ turns ih =>
    simp only [allocLoop, wp_ite]
    split_ifs with hlt
    · have hround : a + PAGE ≤ PGROUNDUP newsz := by
        unfold PAGE at halign ⊢
        unfold PGROUNDUP PAGE
        omega
      obtain ⟨left, hleft, hleft'⟩ : ∃ left, (PGROUNDUP newsz - a) / PAGE = left + 1 ∧
          (PGROUNDUP newsz - (a + PAGE)) / PAGE = left := by
        refine ⟨_, ?_, rfl⟩
        unfold PAGE at hround ⊢
        omega
      rw [hleft] at hshort
      rw [wp_bind]
      refine kalloc_wp (fun hempty => ?_) fun page rest hlist => ?_
      · have hle := mem.room_le pgdir
        rw [hempty, List.length_nil] at hle
        simp only [wp_bind]
        refine deallocuvm_wp hhanded hnewsz.le hmem fun next hnext hframe hunmaps => ?_
        exact hshort next hnext hframe hunmaps (by omega)
      · have hpop := hmem.pop hlist
        have hloose := mem_singleton_add page loose
        have hpage := hpop.loose_mem hloose
        have hzero := hpop.setPage_maps hhanded.nodup hloose fun _ => .zero
        simp only [wp_bind, memset, wp_modify]
        refine mapUser_wp hhanded.nodup halign (hlt.trans hnewsz) (hpop.setPage hhanded.nodup hloose fun _ => .zero)
          (fun hsome => hstops ⟨a, Nat.le_refl _, hlt, by rwa [hzero a] at hsome⟩) ?_
        intro ok next hnext hframe hlookup htaken
        have hframe := (Frame.setPage { mem with freelist := rest } hpage fun _ => .zero).trans hframe
        have hroom := hpop.room_filled hhanded.nodup hlist fun _ => .zero
        cases ok with
        | true =>
          have hsame : next.room pgdir = _ := htaken
          rw [if_pos rfl] at hnext ⊢
          simp only [true_and] at hlookup
          refine ih hnext ?_ (by omega) ?_ ?_
            (fun last hlast hrest hgrows => ?_) fun last hlast hrest hunmaps hfew => ?_
          · unfold PAGE at halign ⊢
            omega
          · rw [Nat.succ_mul] at hturns
            omega
          · rintro ⟨va, hva, hva', hsome⟩
            refine hstops ⟨va, by omega, hva', ?_⟩
            rwa [hlookup va (by unfold KERNBASE at hnewsz; omega), if_neg (by omega), hzero va] at hsome
          · refine hgrown last hlast (hframe.trans hrest) fun va hva => ?_
            have hgrow := hgrows va hva
            rw [hlookup va hva, hzero va] at hgrow
            by_cases hhere : a ≤ va ∧ va < a + PAGE
            · rw [if_neg (by omega), if_pos hhere] at hgrow
              rw [if_pos (by omega)]
              exact ⟨page, hgrow⟩
            · rw [if_neg hhere] at hgrow
              by_cases habove : a + PAGE ≤ va ∧ va < PGROUNDUP newsz
              · rw [if_pos habove] at hgrow
                rwa [if_pos (by omega)]
              · rw [if_neg habove] at hgrow
                rwa [if_neg (by omega)]
          · rw [hleft'] at hfew
            refine hshort last hlast (hframe.trans hrest) (fun va hva => ?_) (by omega)
            rw [hunmaps va hva, hlookup va hva, hzero va]
            by_cases hin : PGROUNDUP oldsz ≤ va ∧ va < PGROUNDUP newsz
            · rw [if_pos hin, if_pos hin]
            · rw [if_neg hin, if_neg hin, if_neg (by omega)]
        | false =>
          have hfew : _ < NPDENTRIES := htaken
          simp only [Bool.false_eq_true, false_and, if_false] at hlookup
          simp only [wp_bind, Bool.false_eq_true, if_false]
          refine deallocuvm_wp hhanded hnewsz.le hnext fun last hlast hrest hunmaps => ?_
          refine kfree_wp (hhanded.owns _ hpage) ?_
          refine hshort _ (hlast.setPage hhanded.nodup hloose fun _ => .junk).push ?_ (fun va hva => ?_) (by omega)
          · exact (hframe.trans hrest).trans (.setPage _ hpage _)
          · refine (hlast.setPage_maps hhanded.nodup hloose (fun _ => .junk) va).trans ?_
            rw [hunmaps va hva, hlookup va hva, hzero va]
    · rw [wp_pure]
      exact hgrown mem hmem (.refl _ _) (hend halign (by omega))

-- What allocuvm returns, and what is mapped then.
inductive Alloced (mem next : Kmem) (pgdir : Page) (oldsz newsz : Nat) : Nat → Prop
  | large (hlarge : KERNBASE ≤ newsz) (hmaps : Maps mem next pgdir) : Alloced mem next pgdir oldsz newsz 0
  | smaller (hlt : newsz < oldsz) (hmaps : Maps mem next pgdir) : Alloced mem next pgdir oldsz newsz oldsz
  | grown (hle : oldsz ≤ newsz) (hlt : newsz < KERNBASE)
      (hgrows : Grows mem next pgdir (PGROUNDUP oldsz) (PGROUNDUP newsz)) : Alloced mem next pgdir oldsz newsz newsz
  | short (hle : oldsz ≤ newsz) (hunmaps : Unmaps mem next pgdir (PGROUNDUP oldsz) (PGROUNDUP newsz))
      (hroom : mem.room pgdir < NPDENTRIES + (PGROUNDUP newsz - PGROUNDUP oldsz) / PAGE) :
      Alloced mem next pgdir oldsz newsz 0

variable (hhanded : Handed kernel pages)

include hhanded

theorem allocuvm_wp (hmem : mem.Dir pgdir loose pages)
    (hstops : (∃ va < KERNBASE, PGROUNDUP oldsz ≤ va ∧ lookup mem.word pgdir va ≠ none) → stops .remap)
    {returns : Nat → Kmem → Prop}
    (h : ∀ size next, next.Dir pgdir loose pages → Frame pages mem next → Alloced mem next pgdir oldsz newsz size →
      returns size next) : wp (allocuvm kernel pgdir oldsz newsz) mem returns stops := by
  unfold allocuvm
  simp only [wp_ite, wp_pure]
  split_ifs with hlarge hsmall
  · exact h 0 mem hmem (.refl _ _) (.large hlarge fun _ => rfl)
  · exact h oldsz mem hmem (.refl _ _) (.smaller hsmall fun _ => rfl)
  · have hturns : newsz ≤ PGROUNDUP oldsz + (newsz / PAGE + 1) * PAGE := by
      unfold PAGE
      omega
    have hremap : (∃ va, PGROUNDUP oldsz ≤ va ∧ va < newsz ∧ lookup mem.word pgdir va ≠ none) → stops .remap := by
      rintro ⟨va, hle, hlt, hsome⟩
      exact hstops ⟨va, by omega, hle, hsome⟩
    refine allocLoop_wp hhanded (by omega) hmem (Nat.mul_mod_left _ _) (Nat.le_refl _) hturns hremap ?_ ?_
    · intro next hnext hframe hgrows
      exact h newsz next hnext hframe (.grown (by omega) (by omega) hgrows)
    · intro next hnext hframe hunmaps hroom
      exact h 0 next hnext hframe (.short (by omega) hunmaps hroom)

-- The page directory that is copied is only read, so nothing is said about it.
theorem copyLoop_wp {d : Page} {sz i turns : Nat} (hsz : sz ≤ KERNBASE)
    (hmem : mem.Dir d loose pages) (halign : i % PAGE = 0) (hstops : ∀ halt ≠ .kfree, stops halt)
    (h : ∀ made next, Made next loose pages made → Frame pages mem next → returns made next) :
    wp (copyLoop kernel pgdir d sz turns i) mem returns stops := by
  induction turns generalizing mem i with
  | zero => exact h (some d) mem hmem (.refl _ _)
  | succ turns ih =>
    simp only [copyLoop, wp_ite]
    split_ifs with hlt
    · rw [wp_bind]
      refine walkpgdir_find_wp (fun _ => hstops _ (by decide)) fun _ => ?_
      simp only [wp_bind, wp_get, wp_ite, wp_throw]
      split_ifs with habsent
      · exact hstops _ (by decide)
      refine kalloc_wp (fun _ => ?_) fun page rest hlist => ?_
      · simp only [wp_bind]
        refine freevm_wp hhanded hmem fun next hnext hframe => ?_
        exact h none next hnext hframe
      · have hpop := hmem.pop hlist
        have hloose := mem_singleton_add page loose
        have hpage := hpop.loose_mem hloose
        simp only [wp_bind, wp_modify]
        refine mapUser_wp hhanded.nodup halign (by omega) (hpop.setPage hhanded.nodup hloose _)
          (fun _ => hstops _ (by decide)) ?_
        intro ok next hnext hframe _ _
        have hframe := (Frame.setPage { mem with freelist := rest } hpage _).trans hframe
        cases ok with
        | true =>
          rw [if_pos rfl] at hnext ⊢
          refine ih hnext ?_ fun made last hlast hrest => h made last hlast (hframe.trans hrest)
          unfold PAGE at halign ⊢
          omega
        | false =>
          simp only [wp_bind, Bool.false_eq_true, if_false]
          refine kfree_wp (hhanded.owns _ hpage) ?_
          refine freevm_wp hhanded (hnext.setPage hhanded.nodup hloose fun _ => .junk).push ?_
          intro last hlast hrest
          exact h none last hlast ((hframe.trans (.setPage _ hpage _)).trans hrest)
    · exact h (some d) mem hmem (.refl _ _)

theorem copyuvm_wp {sz : Nat} (hsz : sz ≤ KERNBASE)
    (hmem : (mem.freelist : Multiset Page) + loose = pages) (hstops : ∀ halt ≠ .kfree, stops halt)
    (h : ∀ made next, Made next loose pages made → Frame pages mem next → returns made next) :
    wp (copyuvm kernel pgdir sz) mem returns stops := by
  unfold copyuvm
  rw [wp_bind]
  refine setupkvm_wp hhanded hmem fun made next hnext hframe _ => ?_
  cases made with
  | none => exact h none next hnext hframe
  | some d =>
    refine copyLoop_wp hhanded hsz hnext (Nat.zero_mod _) hstops fun made last hlast hrest => ?_
    exact h made last hlast (hframe.trans hrest)

end Xv6.Kmem

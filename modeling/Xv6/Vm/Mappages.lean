import Xv6.Vm.Directories

namespace Xv6.Kmem

open Xv6.Action List

variable {kernel : KernelImage} {mem next : Kmem} {pgdir : Page} {perm : BitVec 12} {va a pa last turns : Nat}

-- The loop of mappages with its only test, and sums of 32 bits. No result is a loop that goes on.
def mapUntil (pgdir : Page) (perm : BitVec 12) (last : Nat) : Nat → Nat → Nat → M (Option Bool)
  | 0, _, _ => return none
  | turns + 1, a, pa => do
      if ← mapPage pgdir a (pa / PAGE) perm then
        if a = last then return some true
        else mapUntil pgdir perm last turns ((a + PAGE) % 2 ^ 32) ((pa + PAGE) % 2 ^ 32)
      else return some false

def mappages32 (pgdir : Page) (va size pa : Nat) (perm : BitVec 12) : M (Option Bool) :=
  mapUntil pgdir perm (PGROUNDDOWN ((va + size + 2 ^ 32 - 1) % 2 ^ 32)) (2 ^ 20) (PGROUNDDOWN va) pa

-- The page directory and its page tables are pages of their own. What is mapped may be any page.
structure Apart (mem : Kmem) (pgdir : Page) : Prop where
  free : mem.freelist.Nodup
  dir : pgdir ∉ mem.freelist
  table (i : Nat) (hi : i < NPDENTRIES) (h : (mem.word pgdir i).present) :
    (mem.word pgdir i).page ≠ pgdir ∧ (mem.word pgdir i).page ∉ mem.freelist
  distinct (i k : Nat) (hi : i < NPDENTRIES) (hk : k < NPDENTRIES) (hpi : (mem.word pgdir i).present)
    (hpk : (mem.word pgdir k).present) (hne : i ≠ k) : (mem.word pgdir i).page ≠ (mem.word pgdir k).page

-- The entries of the page directory are what they were, and those of new page tables let the user in.
structure Extends (mem next : Kmem) (pgdir : Page) : Prop where
  kept (i : Nat) (h : (mem.word pgdir i).present) : next.word pgdir i = mem.word pgdir i
  new (i : Nat) (h : (next.word pgdir i).present) (habsent : ¬(mem.word pgdir i).present) :
    (next.word pgdir i).flags = PTE_P ||| PTE_W ||| PTE_U

theorem Extends.refl (mem : Kmem) (pgdir : Page) : Extends mem mem pgdir :=
  ⟨fun _ _ => rfl, fun _ h habsent => absurd h habsent⟩

variable {middle : Kmem} {stops : VmHalt → Prop}

theorem Extends.trans (hfirst : Extends mem middle pgdir) (hsecond : Extends middle next pgdir) :
    Extends mem next pgdir where
  kept i h := (hsecond.kept i (hfirst.kept i h ▸ h)).trans (hfirst.kept i h)
  new i h habsent := by
    by_cases hmiddle : (middle.word pgdir i).present
    · rw [hsecond.kept i hmiddle]
      exact hfirst.new i hmiddle habsent
    · exact hsecond.new i h hmiddle

-- The page table of this address has been added if there was none.
structure Adds (mem next : Kmem) (pgdir : Page) (va : Nat) : Prop extends Extends mem next pgdir where
  present (i : Nat) : (next.word pgdir i).present ↔ (mem.word pgdir i).present ∨ i = PDX va
  free : next.freelist.length + (if (mem.word pgdir (PDX va)).present then 0 else 1) = mem.freelist.length

section

variable (h : mem.Apart pgdir) (hroom : (mem.word pgdir (PDX va)).present ∨ mem.freelist ≠ [])

include h hroom

theorem Apart.walkpgdir {returns : Option (Page × Nat) → Kmem → Prop}
    (hreturns : ∀ next, next.Apart pgdir → Maps mem next pgdir → Adds mem next pgdir va →
      returns (some ((next.word pgdir (PDX va)).page, PTX va)) next) :
    wp (walkpgdir pgdir va true) mem returns stops := by
  unfold Kmem.walkpgdir
  simp only [wp_bind, wp_get, wp_ite]
  split_ifs with hpresent halloc
  · refine hreturns mem h (fun _ => rfl) ⟨.refl .., fun i => ?_, by rw [if_pos hpresent]; rfl⟩
    constructor
    · exact .inl
    · rintro (hi | rfl)
      · exact hi
      · exact hpresent
  · simp at halloc
  · refine kalloc_wp (fun hempty => absurd hempty (hroom.resolve_left hpresent)) fun table rest hlist => ?_
    simp only [memset, wp_bind, wp_modify, wp_pure]
    obtain ⟨hfree, hdir, htable, hdistinct⟩ := h
    rw [hlist] at hfree hdir htable
    have hne : table ≠ pgdir := fun heq => hdir (heq ▸ mem_cons_self)
    obtain ⟨after, hafter⟩ : ∃ after, after =
        Kmem.setWord (Kmem.setPage { mem with freelist := rest } table fun _ => .zero)
        pgdir (PDX va) ⟨table, PTE_P ||| PTE_W ||| PTE_U⟩ := ⟨_, rfl⟩
    have hnew : after.word pgdir (PDX va) = ⟨table, PTE_P ||| PTE_W ||| PTE_U⟩ := by simp [hafter, setWord, setPage]
    have hkept (i : Nat) (hi : i ≠ PDX va) : after.word pgdir i = mem.word pgdir i := by
      simp [hafter, setWord, setPage, hi, hne.symm]
    have hrest : after.freelist = rest := hafter ▸ rfl
    have hold (k : Nat) (hk : k < NPDENTRIES) (hpk : (mem.word pgdir k).present) : (mem.word pgdir k).page ≠ table :=
      fun heq => (htable k hk hpk).2 (heq ▸ mem_cons_self)
    have hdone := hreturns after ⟨?_, ?_, ?_, ?_⟩ ?_ ⟨⟨?_, ?_⟩, ?_, ?_⟩
    · rw [hnew, hafter] at hdone
      exact hdone
    · rw [hrest]
      exact (nodup_cons.mp hfree).2
    · rw [hrest]
      exact fun hmem => hdir (mem_cons_of_mem _ hmem)
    · intro i hi hpi
      rw [hrest]
      by_cases hva : i = PDX va
      · rw [hva, hnew]
        exact ⟨hne, (nodup_cons.mp hfree).1⟩
      · rw [hkept i hva] at hpi ⊢
        exact ⟨(htable i hi hpi).1, fun hmem => (htable i hi hpi).2 (mem_cons_of_mem _ hmem)⟩
    · intro i k hi hk hpi hpk hik
      by_cases hva : i = PDX va
      · rw [hkept k (by omega)] at hpk ⊢
        rw [hva, hnew]
        exact (hold k hk hpk).symm
      · rw [hkept i hva] at hpi ⊢
        by_cases hva' : k = PDX va
        · rw [hva', hnew]
          exact hold i hi hpi
        · rw [hkept k hva'] at hpk ⊢
          exact hdistinct i k hi hk hpi hpk hik
    · intro other
      have hpage : (⟨table, PTE_P ||| PTE_W ||| PTE_U⟩ : Pte).page = table := rfl
      refine lookup_new_table hpresent (fun k hk hpk => ⟨(htable k hk hpk).1, hold k hk hpk⟩) hpage ?_ ?_ ?_ other
      · simp [hafter, setWord, setPage, hne.symm]
      · simp [hafter, setWord, setPage, hne]
      · intro page hdir htable
        simp [hafter, setWord, setPage, hdir, htable]
    · exact fun i hi => hkept i fun heq => hpresent (heq ▸ hi)
    · intro i hi habsent
      by_cases hva : i = PDX va
      · rw [hva, hnew]
      · exact absurd (hkept i hva ▸ hi) habsent
    · intro i
      by_cases hva : i = PDX va
      · simp [hva, hnew, Pte.present_table]
      · simp [hva, hkept i hva]
    · rw [if_neg hpresent, hlist, hrest]
      rfl

theorem Apart.mapPage (hnone : lookup mem.word pgdir va = none) {page : Page} {returns : Bool → Kmem → Prop}
    (hreturns : ∀ next, next.Apart pgdir → Adds mem next pgdir va →
      (∀ other, lookup next.word pgdir other = if PDX other = PDX va ∧ PTX other = PTX va then
        some ⟨page, perm ||| PTE_P⟩ else lookup mem.word pgdir other) → returns true next) :
    wp (mapPage pgdir va page perm) mem returns stops := by
  unfold Kmem.mapPage
  rw [wp_bind]
  refine h.walkpgdir hroom fun next hnext hmaps hadds => ?_
  have hpresent : (next.word pgdir (PDX va)).present := (hadds.present _).mpr (.inr rfl)
  have hentry := (lookup_eq_none_iff hpresent).mp ((hmaps va).trans hnone)
  simp only [wp_bind, wp_get, wp_ite, if_neg hentry, wp_throw, wp_pure, wp_modify]
  obtain ⟨htable, -⟩ := hnext.table _ (PDX_lt va) hpresent
  have hdir : (next.setWord (next.word pgdir (PDX va)).page (PTX va) ⟨page, perm ||| PTE_P⟩).word pgdir =
      next.word pgdir := Function.update_of_ne htable.symm ..
  refine hreturns _ ⟨hnext.free, hnext.dir, ?_, ?_⟩ ⟨⟨?_, ?_⟩, ?_, hadds.free⟩ fun other => ?_
  · rw [hdir]
    exact hnext.table
  · rw [hdir]
    exact hnext.distinct
  · rw [hdir]
    exact hadds.kept
  · rw [hdir]
    exact hadds.new
  · rw [hdir]
    exact hadds.present
  · rw [lookup_set_entry hpresent hdir (Function.update_self ..) ?_ other, if_pos (Pte.present_mapped page perm), hmaps]
    intro k hk hne hpk
    exact Function.update_of_ne (hnext.distinct k _ hk (PDX_lt va) hpk hpresent hne) ..

end

-- The page tables that these addresses need and that there are not.
def missing (mem : Kmem) (pgdir : Page) (lo hi : Nat) : Finset Nat :=
  (Finset.Icc (lo / 2 ^ 22) (hi / 2 ^ 22)).filter fun i => ¬(mem.word pgdir i).present

-- The pages from `lo` to `hi` are mapped one after the other, and all else is as before.
def MapsTo (mem next : Kmem) (pgdir : Page) (lo hi pa : Nat) (perm : BitVec 12) : Prop :=
  ∀ other < 2 ^ 32, lookup next.word pgdir other =
    if lo ≤ other ∧ other < hi then some ⟨(pa + (other - lo) / PAGE * PAGE) % 2 ^ 32 / PAGE, perm ||| PTE_P⟩
    else lookup mem.word pgdir other

theorem MapsTo.of_mapPage (ha : a % PAGE = 0) (hlt : a < 2 ^ 32) (hpa : pa < 2 ^ 32)
    (hlookup : ∀ other, lookup next.word pgdir other = if PDX other = PDX a ∧ PTX other = PTX a then
      some ⟨pa / PAGE, perm ||| PTE_P⟩ else lookup mem.word pgdir other) :
    MapsTo mem next pgdir a (a + PAGE) pa perm := by
  intro other hother
  rw [hlookup]
  have hiff : PDX other = PDX a ∧ PTX other = PTX a ↔ a ≤ other ∧ other < a + PAGE := by
    rw [same_entry_iff hlt hother]
    unfold PAGE at ha ⊢
    omega
  by_cases hhere : a ≤ other ∧ other < a + PAGE
  · have hzero : (other - a) / PAGE = 0 := Nat.div_eq_of_lt (by omega)
    rw [if_pos hhere, if_pos (hiff.mpr hhere), hzero, Nat.zero_mul, Nat.add_zero, Nat.mod_eq_of_lt hpa]
  · rw [if_neg hhere, if_neg (mt hiff.mp hhere)]

theorem MapsTo.trans {hi : Nat} (hfirst : MapsTo mem middle pgdir a (a + PAGE) pa perm) (hle : a + PAGE ≤ hi)
    (hsecond : MapsTo middle next pgdir (a + PAGE) (hi + PAGE) ((pa + PAGE) % 2 ^ 32) perm) :
    MapsTo mem next pgdir a (hi + PAGE) pa perm := by
  intro other hother
  rw [hsecond other hother, hfirst other hother]
  by_cases hhigh : a + PAGE ≤ other ∧ other < hi + PAGE
  · have hpage : ((pa + PAGE) % 2 ^ 32 + (other - (a + PAGE)) / PAGE * PAGE) % 2 ^ 32 =
        (pa + (other - a) / PAGE * PAGE) % 2 ^ 32 := by
      unfold PAGE at hhigh ⊢
      omega
    rw [if_pos hhigh, if_pos (by omega), hpage]
  · rw [if_neg hhigh]
    exact if_congr (by omega) rfl rfl

theorem mem_missing (hle : a ≤ last) (hlt : last < 2 ^ 32) (habsent : ¬(mem.word pgdir (PDX a)).present) :
    PDX a ∈ mem.missing pgdir a last := by
  have hpdx : PDX a = a / 2 ^ 22 := Nat.mod_eq_of_lt (by omega)
  refine Finset.mem_filter.mpr ⟨Finset.mem_Icc.mpr ?_, habsent⟩
  rw [hpdx]
  exact ⟨le_rfl, Nat.div_le_div_right hle⟩

-- What is missing for the rest of the addresses.
theorem Adds.missing_le (h : Adds mem next pgdir a) (hle : a ≤ last) (hlt : last < 2 ^ 32)
    (hroom : (mem.missing pgdir a last).card ≤ mem.freelist.length) :
    (next.missing pgdir (a + PAGE) last).card ≤ next.freelist.length := by
  have hsubset : next.missing pgdir (a + PAGE) last ⊆ (mem.missing pgdir a last).erase (PDX a) := by
    intro i hi
    obtain ⟨hi, habsent⟩ := Finset.mem_filter.mp hi
    rw [h.present, not_or] at habsent
    refine Finset.mem_erase.mpr ⟨habsent.2, Finset.mem_filter.mpr ⟨Finset.mem_Icc.mpr ⟨?_, ?_⟩, habsent.1⟩⟩
    · exact (Nat.div_le_div_right (Nat.le_add_right a PAGE)).trans (Finset.mem_Icc.mp hi).1
    · exact (Finset.mem_Icc.mp hi).2
  have hcard := Finset.card_le_card hsubset
  have hfree := h.free
  split at hfree
  · exact (hcard.trans (Finset.card_erase_le)).trans (hroom.trans hfree.ge)
  · next habsent =>
    rw [Finset.card_erase_of_mem (mem_missing hle hlt habsent)] at hcard
    omega

theorem mapUntil_wp (h : mem.Apart pgdir) (ha : a % PAGE = 0) (hlast : last % PAGE = 0) (hle : a ≤ last)
    (hlt : last < 2 ^ 32) (hturns : (last - a) / PAGE < turns) (hpa : pa < 2 ^ 32)
    (hnone : ∀ other, a ≤ other → other < last + PAGE → lookup mem.word pgdir other = none)
    (hroom : (mem.missing pgdir a last).card ≤ mem.freelist.length) :
    wp (mapUntil pgdir perm last turns a pa) mem (fun result next => result = some true ∧
      MapsTo mem next pgdir a (last + PAGE) pa perm ∧ Extends mem next pgdir) fun _ => False := by
  induction turns generalizing mem a pa with
  | zero => exact absurd hturns (Nat.not_lt_zero _)
  | succ turns ih =>
    rw [mapUntil, wp_bind]
    have hhere : (mem.word pgdir (PDX a)).present ∨ mem.freelist ≠ [] := by
      by_contra hshort
      rw [not_or, not_not] at hshort
      have hmem := mem_missing hle hlt hshort.1
      rw [hshort.2, length_nil, Nat.le_zero, Finset.card_eq_zero] at hroom
      simp [hroom] at hmem
    refine h.mapPage hhere (hnone a le_rfl (by unfold PAGE; omega)) fun next hnext hadds hlookup => ?_
    rw [if_pos rfl]
    split
    · next hend =>
      subst hend
      exact ⟨rfl, .of_mapPage ha hlt hpa hlookup, hadds.toExtends⟩
    · next hmore =>
      have hstep : a + PAGE ≤ last := by
        unfold PAGE at ha hlast ⊢
        omega
      rw [Nat.mod_eq_of_lt (show a + PAGE < 2 ^ 32 by omega)]
      have hpage : MapsTo mem next pgdir a (a + PAGE) pa perm := .of_mapPage ha (by omega) hpa hlookup
      refine (ih hnext (by rwa [Nat.add_mod_right]) hstep ?_ (Nat.mod_lt _ (by decide)) ?_ ?_).imp ?_
      · unfold PAGE at hturns hstep ⊢
        omega
      · intro other hlow hhigh
        have hother : other < 2 ^ 32 := by
          unfold PAGE at hlast hhigh
          omega
        rw [hpage other hother, if_neg (by omega)]
        exact hnone other (by omega) hhigh
      · exact hadds.missing_le hle hlt hroom
      · intro result final hfinal
        exact ⟨hfinal.1, hpage.trans hstep hfinal.2.1, hadds.toExtends.trans hfinal.2.2⟩

-- Where physical addresses do not wrap around, the number of turns is the distance to the last page.
theorem mapUntil_eq (pgdir : Page) (perm : BitVec 12) (more : Nat) (hlast : a + turns * PAGE < 2 ^ 32)
    (hpa : pa + turns * PAGE < 2 ^ 32) : mapUntil pgdir perm (a + turns * PAGE) (turns + 1 + more) a pa =
      some <$> mapPages pgdir perm turns a (pa / PAGE) := by
  induction turns generalizing a pa with
  | zero =>
    rw [Nat.zero_mul, Nat.add_zero, Nat.zero_add, Nat.add_comm, mapUntil, mapPages, map_eq_pure_bind]
    refine bind_congr fun ok => ?_
    cases ok <;> simp
  | succ turns ih =>
    rw [Nat.succ_mul] at hlast hpa ⊢
    have hlow : a + PAGE < 2 ^ 32 := (Nat.add_le_add_left (Nat.le_add_left ..) a).trans_lt hlast
    have hphys : pa + PAGE < 2 ^ 32 := (Nat.add_le_add_left (Nat.le_add_left ..) pa).trans_lt hpa
    have hnext := @ih (a + PAGE) (pa + PAGE) (by omega) (by omega)
    have hpage : (pa + PAGE) / PAGE = pa / PAGE + 1 := Nat.add_div_right _ (by decide)
    have hne : a ≠ a + (turns * PAGE + PAGE) := by
      unfold PAGE
      omega
    rw [show turns + 1 + 1 + more = turns + 1 + more + 1 by omega, mapUntil, mapPages, map_bind]
    refine bind_congr fun ok => ?_
    cases ok with
    | false => rfl
    | true =>
      simp only [if_true, if_neg hne]
      rw [Nat.mod_eq_of_lt hlow, Nat.mod_eq_of_lt hphys, ← hpage, ← hnext]
      congr 1
      omega

theorem kmap_phys (kernel : KernelImage) : ∀ k ∈ kmap kernel, k.physStart + k.size ≤ 2 ^ 32 := by
  have hlinked := kernel.linked
  have hfits := kernel.fits
  simp only [KERNLINK, KERNBASE, EXTMEM, P2V, PHYSTOP] at hlinked hfits
  unfold kmap V2P KERNLINK KERNBASE EXTMEM PHYSTOP DEVSPACE
  simp only [List.forall_mem_cons, List.not_mem_nil, false_imp_iff, implies_true, and_true, Kmap.size]
  omega

theorem Fits.mappages32 {k : Kmap} (h : Fits k) (hphys : k.physStart + k.size ≤ 2 ^ 32) (pgdir : Page) :
    mappages32 pgdir k.virt k.size k.physStart k.perm =
      some <$> Kmem.mappages pgdir k.virt k.size k.physStart k.perm := by
  rw [h.mappages]
  obtain ⟨-, -, hhigh, hpos, hvirt, -, hwhole⟩ := h
  unfold PAGE at hvirt hwhole
  have hlast : PGROUNDDOWN ((k.virt + k.size + 2 ^ 32 - 1) % 2 ^ 32) = k.virt + (k.size / PAGE - 1) * PAGE := by
    unfold PGROUNDDOWN PAGE
    omega
  have hdown : PGROUNDDOWN k.virt = k.virt := by
    unfold PGROUNDDOWN PAGE
    omega
  have hturns : 2 ^ 20 = k.size / PAGE - 1 + 1 + (2 ^ 20 - k.size / PAGE) := by
    unfold PAGE
    omega
  rw [Kmem.mappages32, hlast, hdown, hturns]
  refine mapUntil_eq pgdir k.perm _ ?_ ?_
  all_goals
    unfold PAGE
    omega

theorem mappages32_wp {size : Nat} (h : mem.Apart pgdir) (hsize : 1 ≤ size) (hend : va + size ≤ 2 ^ 32)
    (hpa : pa < 2 ^ 32)
    (hnone : ∀ other, PGROUNDDOWN va ≤ other → other < PGROUNDUP (va + size) → lookup mem.word pgdir other = none)
    (hroom : (mem.missing pgdir va (va + size - 1)).card ≤ mem.freelist.length) :
    wp (mappages32 pgdir va size pa perm) mem (fun result next => result = some true ∧
      MapsTo mem next pgdir (PGROUNDDOWN va) (PGROUNDUP (va + size)) pa perm ∧ Extends mem next pgdir)
      fun _ => False := by
  have hlast : (va + size + 2 ^ 32 - 1) % 2 ^ 32 = va + size - 1 := by omega
  have hup : PGROUNDUP (va + size) = PGROUNDDOWN (va + size - 1) + PAGE := by
    unfold PGROUNDUP PGROUNDDOWN PAGE
    omega
  rw [hup] at hnone ⊢
  rw [mappages32, hlast]
  refine mapUntil_wp h (Nat.mul_mod_left ..) (Nat.mul_mod_left ..) ?_ ?_ ?_ hpa hnone ?_
  · exact Nat.mul_le_mul_right _ (Nat.div_le_div_right (by omega))
  · unfold PGROUNDDOWN PAGE
    omega
  · unfold PGROUNDDOWN PAGE
    omega
  · have hdown (a : Nat) : PGROUNDDOWN a / 2 ^ 22 = a / 2 ^ 22 := by
      unfold PGROUNDDOWN PAGE
      omega
    unfold missing
    rw [hdown, hdown]
    exact hroom

theorem mappages_exact :
    (∀ (mem : Kmem) (pgdir : Page) (va size pa : Nat) (perm : BitVec 12), mem.Apart pgdir → 1 ≤ size →
      va + size ≤ 2 ^ 32 → pa < 2 ^ 32 → pa % PAGE = 0 →
      (∀ other, PGROUNDDOWN va ≤ other → other < PGROUNDUP (va + size) → lookup mem.word pgdir other = none) →
      (mem.missing pgdir va (va + size - 1)).card ≤ mem.freelist.length →
      wp (mappages32 pgdir va size pa perm) mem (fun result next => result = some true ∧
        MapsTo mem next pgdir (PGROUNDDOWN va) (PGROUNDUP (va + size)) pa perm) fun _ => False) ∧
      ∀ (kernel : KernelImage) (pages loose : Multiset Page) (mem : Kmem), Handed kernel pages →
        (mem.freelist : Multiset Page) + loose = pages →
        (∀ k ∈ kmap kernel, ∀ pgdir, mappages32 pgdir k.virt k.size k.physStart k.perm =
          some <$> mappages pgdir k.virt k.size k.physStart k.perm) ∧
        wp (setupkvm kernel) mem (fun made next => (made = none → mem.freelist.length ≤ NPDENTRIES) ∧
          ∀ pgdir ∈ made, ∀ va < 2 ^ 32, lookup next.word pgdir va = kmapPte (kmap kernel) va) fun _ => False := by
  constructor
  · intro mem pgdir va size pa perm hapart hsize hend hpa _ hnone hroom
    exact (mappages32_wp hapart hsize hend hpa hnone hroom).imp fun _ _ hdone => ⟨hdone.1, hdone.2.1⟩
  · intro kernel pages loose mem hhanded hmem
    refine ⟨fun k hk pgdir => (kmap_fits kernel k hk).mappages32 (kmap_phys kernel k hk) pgdir, ?_⟩
    refine setupkvm_maps_wp hhanded hmem fun made next _ _ hmaps hroomy => ⟨?_, hmaps⟩
    rintro rfl
    exact hroomy

-- The last byte of the address space, in a page directory without page tables and with one free page.
theorem mappages_exact_top : ∃ mem next : Kmem, (mappages32 1 (2 ^ 32 - 1) 1 0 PTE_W).run mem = .ok (some true, next) ∧
    lookup next.word 1 (2 ^ 32 - 1) = some ⟨0, PTE_W ||| PTE_P⟩ := by
  have hzero : ¬Pte.zero.present := Pte.not_present_zero
  obtain ⟨result, next, hrun, rfl, hmaps⟩ := (mappages_exact.1 ⟨[2], fun _ _ => .zero⟩ 1 (2 ^ 32 - 1) 1 0 PTE_W
    ⟨by simp, by simp, fun _ _ h => absurd h hzero, fun _ _ _ _ h => absurd h hzero⟩ le_rfl (by decide) (by decide)
    (by decide) (fun _ _ _ => lookup_of_absent hzero) (by decide +kernel)).run_of_false
  exact ⟨_, next, hrun, hmaps _ (by decide)⟩

end Xv6.Kmem

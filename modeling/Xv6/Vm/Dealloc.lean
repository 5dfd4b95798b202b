import Xv6.Memory.Theorems
import Xv6.Vm.Growproc

namespace Xv6

open List

def PGADDR (d t o : Word) : Word := d <<< 22 ||| t <<< 12 ||| o

namespace Kmem

open Xv6.Action

-- What deallocuvm does with one page address.
def freePage (kernel : KernelImage) (pgdir : Page) (a : Nat) : M Unit := do
  match ← walkpgdir pgdir a false with
  | none => pure ()
  | some (pgtab, index) => do
      let pte := (← get).word pgtab index
      if pte.present then
        if pte.page = 0 then throw .kfree
        kfree kernel pte.page
        modify fun mem => mem.setWord pgtab index .zero

-- One page address after the other.
def freePages (kernel : KernelImage) (pgdir : Page) : List Nat → M Unit
  | [] => pure ()
  | a :: rest => do
      freePage kernel pgdir a
      freePages kernel pgdir rest

-- The page addresses from `a` on that are below `hi`.
def addresses (a hi : Nat) : List Nat := (List.range ((hi + PAGE - 1 - a) / PAGE)).map (a + PAGE * ·)

-- The loop of deallocuvm on unsigned numbers of 32 bits. It says whether it has come to its end
-- within so many turns.
def deallocTurns (kernel : KernelImage) (pgdir : Page) (oldsz : Word) : Nat → Word → M Bool
  | 0, _ => return false
  | turns + 1, a => do
      if a < oldsz then
        match ← walkpgdir pgdir a.toNat false with
        | none =>
          let a := PGADDR (BitVec.ofNat 32 (PDX a.toNat) + 1) 0 0 - 4096
          deallocTurns kernel pgdir oldsz turns (a + 4096)
        | some (pgtab, index) => do
            let pte := (← get).word pgtab index
            if pte.present then
              if pte.page = 0 then throw .kfree
              kfree kernel pte.page
              modify fun mem => mem.setWord pgtab index .zero
            deallocTurns kernel pgdir oldsz turns (a + 4096)
      else return true

-- The new size, if the loop comes to its end.
def deallocuvmTurns (kernel : KernelImage) (pgdir : Page) (turns : Nat) (oldsz newsz : Word) : M (Option Word) := do
  if oldsz ≤ newsz then return some oldsz
  else if ← deallocTurns kernel pgdir oldsz turns ((newsz + 4096 - 1) &&& ~~~(4096 - 1)) then return some newsz
  else return none

variable {kernel : KernelImage} {pages loose : Multiset Page} {mem next : Kmem} {pgdir : Page}
variable {returns : Unit → Kmem → Prop} {stops : VmHalt → Prop}

variable {a hi : Nat} {list : List Nat}

theorem addresses_of_le (h : hi ≤ a) : addresses a hi = [] := by
  have hnone : (hi + PAGE - 1 - a) / PAGE = 0 := by
    unfold PAGE
    omega
  rw [addresses, hnone]
  rfl

theorem addresses_of_lt (h : a < hi) : addresses a hi = a :: addresses (a + PAGE) hi := by
  have hcount : (hi + PAGE - 1 - a) / PAGE = (hi + PAGE - 1 - (a + PAGE)) / PAGE + 1 := by
    unfold PAGE
    omega
  unfold addresses
  rw [hcount, range_succ_eq_map, map_cons, map_map, Nat.mul_zero, Nat.add_zero]
  congr 1
  refine map_congr_left fun i _ => ?_
  simp only [Function.comp_apply, Nat.mul_succ]
  omega

theorem mem_addresses {va : Nat} : va ∈ addresses a hi ↔ a ≤ va ∧ va < hi ∧ (va - a) % PAGE = 0 := by
  unfold addresses
  rw [mem_map]
  unfold PAGE
  constructor
  · rintro ⟨i, hi, rfl⟩
    rw [mem_range] at hi
    omega
  · rintro ⟨hle, hlt, hmod⟩
    refine ⟨(va - a) / 4096, ?_, ?_⟩
    · rw [mem_range]
      omega
    · omega

theorem freePage_absent_wp (habsent : ¬(mem.word pgdir (PDX a)).present) :
    wp (freePage kernel pgdir a) mem returns stops ↔ returns () mem := by
  unfold freePage walkpgdir
  simp only [wp_bind, wp_get, wp_ite, if_neg habsent]
  rfl

-- Where there is no page table, nothing is done up to the beginning of the next one.
theorem freePages_skip_wp (k : Nat) (habsent : ¬(mem.word pgdir (PDX a)).present)
    (hsame : ∀ i < k, PDX (a + i * PAGE) = PDX a) :
    wp (freePages kernel pgdir (addresses a hi)) mem returns stops ↔
      wp (freePages kernel pgdir (addresses (a + k * PAGE) hi)) mem returns stops := by
  induction k generalizing hi with
  | zero => rw [Nat.zero_mul, Nat.add_zero]
  | succ k ih =>
    rw [ih fun i hi => hsame i (by omega)]
    by_cases hlt : a + k * PAGE < hi
    · have habsent' : ¬(mem.word pgdir (PDX (a + k * PAGE))).present := by rwa [hsame k (by omega)]
      rw [addresses_of_lt hlt, freePages, wp_bind, freePage_absent_wp habsent', Nat.succ_mul, Nat.add_assoc]
    · rw [addresses_of_le (by omega), addresses_of_le (by rw [Nat.succ_mul]; omega)]

section Loop

variable {turns oldsz a : Nat}

theorem deallocLoop_absent_wp (hlt : a < oldsz) (habsent : ¬(mem.word pgdir (PDX a)).present) :
    wp (deallocLoop kernel pgdir oldsz (turns + 1) a) mem returns stops ↔
      wp (deallocLoop kernel pgdir oldsz turns ((PDX a + 1) * 2 ^ 22)) mem returns stops := by
  simp only [deallocLoop, walkpgdir, wp_bind, wp_get, wp_ite, if_pos hlt, if_neg habsent]
  rfl

theorem deallocLoop_present_wp (hlt : a < oldsz) (hpresent : (mem.word pgdir (PDX a)).present) :
    wp (deallocLoop kernel pgdir oldsz (turns + 1) a) mem returns stops ↔
      wp (freePage kernel pgdir a) mem
        (fun _ next => wp (deallocLoop kernel pgdir oldsz turns (a + PAGE)) next returns stops) stops := by
  simp only [deallocLoop, freePage, walkpgdir, wp_bind, wp_get, wp_ite, wp_pure, if_pos hlt, if_pos hpresent]

theorem deallocLoop_end_wp (hge : ¬a < oldsz) :
    wp (deallocLoop kernel pgdir oldsz turns a) mem returns stops ↔ returns () mem := by
  cases turns with
  | zero => rfl
  | succ turns =>
    simp only [deallocLoop, if_neg hge]
    rfl

-- By induction on the turns: each of them goes on by a page at least.
theorem deallocLoop_pages_wp (hoverall : oldsz ≤ KERNBASE) (halign : a % PAGE = 0) (hturns : oldsz ≤ a + turns * PAGE) :
    wp (deallocLoop kernel pgdir oldsz turns a) mem returns stops ↔
      wp (freePages kernel pgdir (addresses a oldsz)) mem returns stops := by
  induction turns generalizing mem a with
  | zero =>
    rw [deallocLoop_end_wp (by omega), addresses_of_le (by omega)]
    rfl
  | succ turns ih =>
    by_cases hlt : a < oldsz
    · rw [Nat.succ_mul] at hturns
      have huser : a < KERNBASE := by omega
      by_cases hpresent : (mem.word pgdir (PDX a)).present
      · rw [deallocLoop_present_wp hlt hpresent, addresses_of_lt hlt, freePages, wp_bind]
        have hrest : ∀ next, wp (deallocLoop kernel pgdir oldsz turns (a + PAGE)) next returns stops ↔
            wp (freePages kernel pgdir (addresses (a + PAGE) oldsz)) next returns stops := fun _ =>
          ih (by rwa [Nat.add_mod_right]) (by omega)
        simp only [hrest]
      · have htable : a + ((PDX a + 1) * 2 ^ 22 - a) / PAGE * PAGE = (PDX a + 1) * 2 ^ 22 ∧
            a + PAGE ≤ (PDX a + 1) * 2 ^ 22 ∧ (PDX a + 1) * 2 ^ 22 % PAGE = 0 := by
          unfold KERNBASE at huser
          unfold PAGE at halign ⊢
          unfold PDX
          omega
        obtain ⟨hcount, hstep, haligned⟩ := htable
        rw [deallocLoop_absent_wp hlt hpresent, ih haligned (by omega)]
        rw [freePages_skip_wp (((PDX a + 1) * 2 ^ 22 - a) / PAGE) hpresent ?_, hcount]
        intro i hi
        unfold KERNBASE at huser
        unfold PAGE at halign hi ⊢
        unfold PDX at hi ⊢
        omega
    · rw [deallocLoop_end_wp hlt, addresses_of_le (by omega)]
      rfl

end Loop

section Turns

variable {turns : Nat} {oldsz a : Word} {returns : Bool → Kmem → Prop}

theorem deallocTurns_absent_wp (hlt : a < oldsz) (habsent : ¬(mem.word pgdir (PDX a.toNat)).present) :
    wp (deallocTurns kernel pgdir oldsz (turns + 1) a) mem returns stops ↔
      wp (deallocTurns kernel pgdir oldsz turns (PGADDR (BitVec.ofNat 32 (PDX a.toNat) + 1) 0 0 - 4096 + 4096)) mem
        returns stops := by
  simp only [deallocTurns, walkpgdir, wp_bind, wp_get, wp_ite, if_pos hlt, if_neg habsent]
  rfl

theorem deallocTurns_present_wp (hlt : a < oldsz) (hpresent : (mem.word pgdir (PDX a.toNat)).present) :
    wp (deallocTurns kernel pgdir oldsz (turns + 1) a) mem returns stops ↔
      wp (freePage kernel pgdir a.toNat) mem
        (fun _ next => wp (deallocTurns kernel pgdir oldsz turns (a + 4096)) next returns stops) stops := by
  simp only [deallocTurns, freePage, walkpgdir, wp_bind, wp_get, wp_ite, wp_pure, if_pos hlt, if_pos hpresent]

theorem deallocTurns_end_wp (hge : ¬a < oldsz) :
    wp (deallocTurns kernel pgdir oldsz (turns + 1) a) mem returns stops ↔ returns true mem := by
  simp only [deallocTurns, if_neg hge, wp_pure]

-- In the user part the address of the next page table does not wrap around.
theorem next_table (hlt : a.toNat < KERNBASE) :
    (PGADDR (BitVec.ofNat 32 (PDX a.toNat) + 1) 0 0 - 4096 + 4096).toNat = (PDX a.toNat + 1) * 2 ^ 22 := by
  have huser := PDX_lt_user hlt
  have hshift : PGADDR (BitVec.ofNat 32 (PDX a.toNat) + 1) 0 0 = (BitVec.ofNat 32 (PDX a.toNat) + 1) <<< 22 := by
    simp [PGADDR]
  rw [BitVec.sub_add_cancel, hshift, BitVec.toNat_shiftLeft, BitVec.toNat_add, BitVec.toNat_ofNat, Nat.shiftLeft_eq]
  simp only [BitVec.reduceToNat]
  omega

-- Turn by turn the loop on 32-bit numbers is the one on natural numbers, and it comes to its end.
theorem deallocTurns_wp (hoverall : oldsz.toNat ≤ KERNBASE) (halign : a.toNat % PAGE = 0)
    (hturns : oldsz.toNat ≤ a.toNat + turns * PAGE) :
    wp (deallocTurns kernel pgdir oldsz (turns + 1) a) mem returns stops ↔
      wp (deallocLoop kernel pgdir oldsz.toNat turns a.toNat) mem (fun _ => returns true) stops := by
  induction turns generalizing mem a with
  | zero =>
    have hge : oldsz.toNat ≤ a.toNat := by omega
    rw [deallocTurns_end_wp (by bv_omega), deallocLoop_end_wp (by omega)]
  | succ turns ih =>
    by_cases hlt : a < oldsz
    · have hlt' : a.toNat < oldsz.toNat := hlt
      rw [Nat.succ_mul] at hturns
      have huser : a.toNat < KERNBASE := by omega
      by_cases hpresent : (mem.word pgdir (PDX a.toNat)).present
      · have hnext : (a + 4096).toNat = a.toNat + PAGE := by
          unfold KERNBASE at huser
          unfold PAGE
          bv_omega
        have hrest : ∀ next, wp (deallocTurns kernel pgdir oldsz (turns + 1) (a + 4096)) next returns stops ↔
            wp (deallocLoop kernel pgdir oldsz.toNat turns (a.toNat + PAGE)) next (fun _ => returns true) stops := by
          intro next
          rw [ih (by rw [hnext, Nat.add_mod_right]; exact halign) (by omega), hnext]
        rw [deallocTurns_present_wp hlt hpresent, deallocLoop_present_wp hlt' hpresent]
        simp only [hrest]
      · have hnext := next_table huser
        have htable : a.toNat + PAGE ≤ (PDX a.toNat + 1) * 2 ^ 22 ∧ (PDX a.toNat + 1) * 2 ^ 22 % PAGE = 0 := by
          unfold KERNBASE at huser
          unfold PAGE at halign ⊢
          unfold PDX
          omega
        rw [deallocTurns_absent_wp hlt hpresent, deallocLoop_absent_wp hlt' hpresent,
          ih (by rw [hnext]; exact htable.2) (by omega), hnext]
    · rw [deallocTurns_end_wp hlt, deallocLoop_end_wp (by bv_omega)]

end Turns

-- What is left after the pages at these addresses are freed: each page that was mapped is on the
-- free list once, its entry is cleared, and nothing else has changed.
structure Visited (mem next : Kmem) (pgdir : Page) (list : List Nat) : Prop where
  freelist : next.freelist = (list.filterMap fun a => (lookup mem.word pgdir a).map Pte.page).reverse ++ mem.freelist
  entries (i : Nat) (hi : i < NPDENTRIES) (hpresent : (mem.word pgdir i).present) (j : Nat) (hj : j < NPDENTRIES) :
    next.word (mem.word pgdir i).page j =
      if ∃ a ∈ list, PDX a = i ∧ PTX a = j ∧ lookup mem.word pgdir a ≠ none then .zero
      else mem.word (mem.word pgdir i).page j
  other (page : Page) (hfreed : ∀ a ∈ list, ∀ pte ∈ lookup mem.word pgdir a, pte.page ≠ page)
    (htable : ∀ i < NPDENTRIES, (mem.word pgdir i).present → (mem.word pgdir i).page ≠ page) :
    next.word page = mem.word page

theorem Visited.nil (mem : Kmem) (pgdir : Page) : Visited mem mem pgdir [] where
  freelist := rfl
  entries _ _ _ _ _ := by rw [if_neg (by simp)]
  other _ _ _ := rfl

theorem freePage_wp (hhanded : Handed kernel pages) (hmem : mem.Dir pgdir loose pages) (ha : a < KERNBASE)
    (hnone : lookup mem.word pgdir a = none → returns () mem)
    (hsome : (mem.word pgdir (PDX a)).present → (mem.word (mem.word pgdir (PDX a)).page (PTX a)).present →
      returns () (mem.unmapped (mem.word pgdir (PDX a)).page (PTX a))) :
    wp (freePage kernel pgdir a) mem returns stops := by
  unfold freePage
  rw [wp_bind]
  refine walkpgdir_find_wp (fun habsent => hnone (lookup_of_absent habsent)) fun hpresent => ?_
  simp only [wp_bind, wp_get, wp_ite]
  split_ifs with hentry hzero
  · have howns := hmem.owns_user hhanded ha hpresent hentry
    exact absurd hzero howns.ne_zero
  · exact kfree_wp (hmem.owns_user hhanded ha hpresent hentry) (hsome hpresent hentry)
  · exact hnone ((lookup_eq_none_iff hpresent).mpr hentry)

section Step

variable {a : Nat} (hmem : mem.Dir pgdir loose pages) (hpages : pages.Nodup) (ha : a < KERNBASE)
  (hpresent : (mem.word pgdir (PDX a)).present) (hentry : (mem.word (mem.word pgdir (PDX a)).page (PTX a)).present)

include hmem hpages ha hpresent hentry

theorem Dir.unmap_entry {i : Nat} (hi : i < NPDENTRIES) (hpi : (mem.word pgdir i).present) (j : Nat) :
    (mem.unmapped (mem.word pgdir (PDX a)).page (PTX a)).word (mem.word pgdir i).page j =
      if PDX a = i ∧ PTX a = j then .zero else mem.word (mem.word pgdir i).page j := by
  by_cases hpdx : PDX a = i
  · subst hpdx
    have hne := user_ne_table (hmem.dir_nodup hpages) (PDX_lt a) (PDX_lt_user ha) (PTX_lt a) hpresent hentry
    rw [unmapped_table hne, Function.update_apply]
    simp only [true_and, eq_comm]
  · rw [if_neg fun h => hpdx h.1, hmem.unmap_word hpages (PDX_lt_user ha) (PTX_lt a) hpresent hentry]
    exact .inr ⟨i, hi, Ne.symm hpdx, hpi, rfl⟩

-- The first address and the rest of them.
theorem Visited.cons (hlist : ∀ b ∈ list, b < KERNBASE ∧ b / PAGE ≠ a / PAGE)
    (h : Visited (mem.unmapped (mem.word pgdir (PDX a)).page (PTX a)) next pgdir list) :
    Visited mem next pgdir (a :: list) := by
  have hlookup : lookup mem.word pgdir a = some (mem.word (mem.word pgdir (PDX a)).page (PTX a)) := by
    rw [lookup, if_pos hpresent, if_pos hentry]
  have hdir : (mem.unmapped (mem.word pgdir (PDX a)).page (PTX a)).word pgdir = mem.word pgdir :=
    hmem.unmap_word hpages (PDX_lt_user ha) (PTX_lt a) hpresent hentry (.inl rfl)
  have hrest : ∀ b ∈ list, lookup (mem.unmapped (mem.word pgdir (PDX a)).page (PTX a)).word pgdir b =
      lookup mem.word pgdir b := by
    intro b hb
    obtain ⟨hlt, hne⟩ := hlist b hb
    have hlt' : b < 2 ^ 32 := hlt.trans (by decide)
    rw [hmem.unmap_lookup hpages ha hpresent hentry, if_neg (mt (same_entry_iff (ha.trans (by decide)) hlt').mp hne)]
  refine ⟨?_, fun i hi hpi j hj => ?_, fun page hfreed htable => ?_⟩
  · have hmap : list.filterMap (fun b => (lookup (mem.unmapped (mem.word pgdir (PDX a)).page (PTX a)).word pgdir b).map
        Pte.page) = list.filterMap fun b => (lookup mem.word pgdir b).map Pte.page :=
      filterMap_congr fun b hb => by rw [hrest b hb]
    rw [h.freelist, hmap, filterMap_cons_some (by rw [hlookup]; rfl), reverse_cons, append_assoc]
    rfl
  · have hentries := h.entries i hi (by rwa [hdir]) j hj
    rw [hdir, hmem.unmap_entry hpages ha hpresent hentry hi hpi] at hentries
    rw [hentries]
    by_cases hhere : PDX a = i ∧ PTX a = j
    · rw [if_pos hhere, ite_self, if_pos ⟨a, mem_cons_self, hhere.1, hhere.2, by simp [hlookup]⟩]
    · rw [if_neg hhere]
      refine if_congr ?_ rfl rfl
      constructor
      · rintro ⟨b, hb, hpdx, hptx, hsome⟩
        exact ⟨b, mem_cons_of_mem _ hb, hpdx, hptx, by rwa [hrest b hb] at hsome⟩
      · rintro ⟨b, hb, hpdx, hptx, hsome⟩
        rcases mem_cons.mp hb with rfl | hb
        · exact absurd ⟨hpdx, hptx⟩ hhere
        · exact ⟨b, hb, hpdx, hptx, by rwa [hrest b hb]⟩
  · have hpage : (mem.word (mem.word pgdir (PDX a)).page (PTX a)).page ≠ page :=
      hfreed a mem_cons_self _ hlookup
    have htable' := htable (PDX a) (PDX_lt a) hpresent
    have hkept : (mem.unmapped (mem.word pgdir (PDX a)).page (PTX a)).word page = mem.word page :=
      (Function.update_of_ne htable'.symm _ _).trans (Function.update_of_ne hpage.symm _ _)
    rw [h.other page ?_ ?_, hkept]
    · intro b hb pte hpte
      rw [hrest b hb] at hpte
      exact hfreed b (mem_cons_of_mem _ hb) pte hpte
    · rwa [hdir]

end Step

theorem Visited.cons_none (hnone : lookup mem.word pgdir a = none) (h : Visited mem next pgdir list) :
    Visited mem next pgdir (a :: list) := by
  refine ⟨?_, fun i hi hpi j hj => ?_, fun page hfreed htable => ?_⟩
  · rw [h.freelist, filterMap_cons_none (by rw [hnone]; rfl)]
  · rw [h.entries i hi hpi j hj]
    simp [hnone]
  · exact h.other page (fun b hb => hfreed b (mem_cons_of_mem _ hb)) htable

theorem freePages_wp (hhanded : Handed kernel pages) (hmem : mem.Dir pgdir loose pages)
    (huser : ∀ a ∈ list, a < KERNBASE) (hdistinct : list.Pairwise fun a b => b / PAGE ≠ a / PAGE)
    (h : ∀ next, next.Dir pgdir loose pages → Visited mem next pgdir list → returns () next) :
    wp (freePages kernel pgdir list) mem returns stops := by
  induction list generalizing mem with
  | nil => exact h mem hmem (.nil mem pgdir)
  | cons a rest ih =>
    rw [pairwise_cons] at hdistinct
    have ha := huser a mem_cons_self
    have hrest : ∀ b ∈ rest, b < KERNBASE := fun b hb => huser b (mem_cons_of_mem _ hb)
    rw [freePages, wp_bind]
    refine freePage_wp hhanded hmem ha (fun hnone => ?_) fun hpresent hentry => ?_
    · exact ih hmem hrest hdistinct.2 fun next hnext hvisited => h next hnext (hvisited.cons_none hnone)
    · refine ih (hmem.unmap hhanded.nodup (PDX_lt_user ha) (PTX_lt a) hpresent hentry) hrest hdistinct.2
        fun next hnext hvisited => h next hnext ?_
      exact hvisited.cons hmem hhanded.nodup ha hpresent hentry fun b hb => ⟨hrest b hb, hdistinct.1 b hb⟩

theorem addresses_pairwise : (addresses a hi).Pairwise fun a b => b / PAGE ≠ a / PAGE := by
  unfold addresses
  rw [pairwise_map]
  refine pairwise_lt_range.imp fun hlt => ?_
  unfold PAGE
  omega

theorem toNat_roundup {newsz : Word} (h : newsz.toNat < KERNBASE) :
    ((newsz + 4096 - 1) &&& ~~~(4096 - 1)).toNat = PGROUNDUP newsz.toNat := by
  unfold KERNBASE at h
  refine (Memory.toNat_and_not_mask (newsz + 4096 - 1) 12).trans ?_
  unfold PGROUNDUP PAGE
  bv_omega

-- Freeing the pages up to the old size in the source's way is freeing them one by one, and it comes to an end.
theorem deallocuvm_visits (kernel : KernelImage) (mem : Kmem) (pgdir : Page) {oldsz newsz : Word} (hlt : newsz < oldsz)
    (hoverall : oldsz.toNat ≤ KERNBASE) {turns : Nat} (hturns : oldsz.toNat / PAGE + 2 ≤ turns) :
    (deallocuvmTurns kernel pgdir turns oldsz newsz).run mem =
        (do
          freePages kernel pgdir (addresses (PGROUNDUP newsz.toNat) oldsz.toNat)
          return some newsz).run mem ∧
      ∀ loose pages, Handed kernel pages → mem.Dir pgdir loose pages →
        ∃ next, (deallocuvmTurns kernel pgdir turns oldsz newsz).run mem = .ok (some newsz, next) ∧
          Visited mem next pgdir (addresses (PGROUNDUP newsz.toNat) oldsz.toNat) := by
  have hnewsz : newsz.toNat < KERNBASE := Nat.lt_of_lt_of_le hlt hoverall
  have hround := toNat_roundup hnewsz
  have halign : PGROUNDUP newsz.toNat % PAGE = 0 := Nat.mul_mod_left _ _
  have hsome : turns ≠ 0 := by
    rintro rfl
    exact absurd hturns (by simp)
  obtain ⟨turns, rfl⟩ := Nat.exists_eq_succ_of_ne_zero hsome
  have hpages : oldsz.toNat ≤ PGROUNDUP newsz.toNat + turns * PAGE := by
    unfold PAGE at hturns ⊢
    omega
  have hsame : ∀ returns stops, wp (deallocuvmTurns kernel pgdir (turns + 1) oldsz newsz) mem returns stops ↔
      wp (freePages kernel pgdir (addresses (PGROUNDUP newsz.toNat) oldsz.toNat)) mem
        (fun _ => returns (some newsz)) stops := by
    intro returns stops
    unfold deallocuvmTurns
    rw [if_neg (by bv_omega), wp_bind, deallocTurns_wp hoverall (by rw [hround]; exact halign)
      (by rw [hround]; exact hpages),
      hround, deallocLoop_pages_wp hoverall halign hpages]
    rfl
  refine ⟨run_eq_of_wp fun returns stops h => (hsame returns stops).mpr (by simpa using h), ?_⟩
  intro loose pages hhanded hmem
  have hwp : wp (deallocuvmTurns kernel pgdir (turns + 1) oldsz newsz) mem
      (fun value next => value = some newsz ∧ Visited mem next pgdir (addresses (PGROUNDUP newsz.toNat) oldsz.toNat))
      fun _ => False := by
    rw [hsame]
    refine freePages_wp hhanded hmem (fun a ha => ?_) addresses_pairwise fun next _ hvisited => ⟨rfl, hvisited⟩
    exact Nat.lt_of_lt_of_le (mem_addresses.mp ha).2.1 hoverall
  obtain ⟨value, next, hrun, rfl, hvisited⟩ | ⟨halt, -, hfalse⟩ := hwp.run
  · exact ⟨next, hrun, hvisited⟩
  · exact hfalse.elim

-- One page at address 0, and no page table for the second half of the 8 megabytes.
theorem deallocuvm_visits_sparse : ∃ mem next : Kmem, (lookup mem.word 0x102 0).isSome = true ∧ mem.freelist = [] ∧
    (deallocuvmTurns Vm.smallKernel 0x102 2050 0x800000 0).run mem = .ok (some 0, next) ∧
      Visited mem next 0x102 (addresses (PGROUNDUP 0) 0x800000) := by
  have hruns : ((allocuvm Vm.smallKernel 0x102 0 4096).run Space.noMemory.mem).toOption.map
      (fun pair => ((lookup pair.2.word 0x102 0).isSome, pair.2.freelist)) = some (true, []) := by
    decide +kernel
  obtain ⟨pair, halloc, hfields⟩ := Option.map_eq_some_iff.mp hruns
  obtain ⟨hsome, hfree⟩ := Prod.mk.inj hfields
  have hdir : pair.2.Dir 0x102 0 {0x102, 0x103, 0x104} := by
    have hwp : wp (allocuvm Vm.smallKernel 0x102 0 4096) Space.noMemory.mem
        (fun _ next => next.Dir 0x102 0 {0x102, 0x103, 0x104}) fun _ => True :=
      allocuvm_wp Space.noMemory_handed Space.noMemory_dir (fun _ => trivial) fun _ _ hnext _ _ => hnext
    exact hwp.returned (run_of_toOption halloc)
  have hlt : (0 : Word) < 0x800000 := by decide
  have hoverall : (0x800000 : Word).toNat ≤ KERNBASE := by decide
  have hturns : (0x800000 : Word).toNat / PAGE + 2 ≤ 2050 := by decide
  obtain ⟨next, hrun, hvisited⟩ := (deallocuvm_visits Vm.smallKernel pair.2 0x102 hlt hoverall hturns).2 _ _
    Space.noMemory_handed hdir
  exact ⟨pair.2, next, hsome, hfree, hrun, hvisited⟩

end Kmem

end Xv6

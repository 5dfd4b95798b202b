import Xv6.Exec
import Xv6.Vm.Growproc

namespace Xv6.Kmem

open Xv6.Action

variable {kernel : KernelImage} {pages loose : Multiset Page} {start mem next : Kmem} {pgdir : Page} {va sz : Nat}
variable {stops : VmHalt → Prop}

theorem lookup_eq_some_iff {pte : Pte} : lookup mem.word pgdir va = some pte ↔
    (mem.word pgdir (PDX va)).present ∧ (mem.word (mem.word pgdir (PDX va)).page (PTX va)).present ∧
      mem.word (mem.word pgdir (PDX va)).page (PTX va) = pte := by
  unfold lookup
  by_cases hpresent : (mem.word pgdir (PDX va)).present <;>
    by_cases hentry : (mem.word (mem.word pgdir (PDX va)).page (PTX va)).present <;> simp [hpresent, hentry]

-- Nothing is written but pages that the page directory maps in the user part.
def UserWrites (mem next : Kmem) (pgdir : Page) : Prop :=
  next.freelist = mem.freelist ∧ ∀ page,
    (∀ va < KERNBASE, ∀ pte, lookup mem.word pgdir va = some pte → pte.page ≠ page) →
    next.word page = mem.word page

section UserWrites

variable (h : mem.Dir pgdir loose pages) (hpages : pages.Nodup) (hwrites : UserWrites mem next pgdir)

include h hpages hwrites

theorem UserWrites.word_dir : next.word pgdir = mem.word pgdir := by
  refine hwrites.2 pgdir fun va hva pte hpte => ?_
  obtain ⟨hpresent, hentry, rfl⟩ := lookup_eq_some_iff.mp hpte
  exact user_ne_dir (h.dir_nodup hpages) (PDX_lt_user hva) (PTX_lt va) hpresent hentry

theorem UserWrites.word_table {i : Nat} (hi : i < NPDENTRIES) (hpresent : (mem.word pgdir i).present) :
    next.word (mem.word pgdir i).page = mem.word (mem.word pgdir i).page := by
  refine hwrites.2 _ fun va hva pte hpte => ?_
  obtain ⟨hpresent', hentry, rfl⟩ := lookup_eq_some_iff.mp hpte
  exact user_ne_any_table (h.dir_nodup hpages) (PDX_lt_user hva) (PTX_lt va) hpresent' hentry hi hpresent

theorem UserWrites.dir : next.Dir pgdir loose pages := by
  have hdir := hwrites.word_dir h hpages
  have hpages : dirPages next.word pgdir = dirPages mem.word pgdir := by
    unfold dirPages
    congr 1
    refine Finset.sum_congr rfl fun i hi => tablePages_congr (by rw [hdir]) fun hpresent => ?_
    exact hwrites.word_table h hpages (mem_entries.mp hi) hpresent
  rw [Dir, hpages, hwrites.1]
  exact h

theorem UserWrites.maps : Maps mem next pgdir := fun va =>
  lookup_congr (by rw [hwrites.word_dir h hpages]) fun hpresent => hwrites.word_table h hpages (PDX_lt va) hpresent

omit hpages in
theorem UserWrites.frame : Frame pages mem next := by
  intro page hpage
  refine hwrites.2 page fun va hva pte hpte => ?_
  obtain ⟨hpresent, hentry, rfl⟩ := lookup_eq_some_iff.mp hpte
  rintro rfl
  refine hpage (h.dir_mem (Multiset.mem_add.mpr
    (.inr (Multiset.mem_sum.mpr ⟨PDX va, mem_entries.mpr (PDX_lt va), ?_⟩))))
  exact user_mem_tablePages (PDX_lt_user hva) (PTX_lt va) hpresent hentry

end UserWrites

-- A new page directory, made of the pages that were free at the start, with a process of this size.
structure Loading (start mem : Kmem) (pgdir : Page) (pages : Multiset Page) (sz : Nat) : Prop where
  dir : mem.Dir pgdir 0 pages
  frame : Frame pages start mem
  whole : Space.Whole ⟨mem, pgdir, sz⟩
  upper : mem.KernelOnly pgdir

theorem Fresh.loading (h : mem.Fresh pgdir) (hdir : mem.Dir pgdir 0 pages) (hframe : Frame pages start mem) :
    Loading start mem pgdir pages 0 := by
  refine ⟨hdir, hframe, ⟨Nat.zero_le _, fun va hva => ?_⟩, h.upper⟩
  have hround : PGROUNDUP 0 = 0 := by decide
  have hnone : Space.lookup ⟨mem, pgdir, 0⟩ va = none := h.lower va hva
  show _ ↔ va < PGROUNDUP 0
  rw [hnone, hround]
  simp

theorem UserWrites.memmove {pte : Pte} (hva : va < KERNBASE) (hpte : lookup mem.word pgdir va = some pte) (k : Nat)
    (bytes : List Byte) : UserWrites mem (memmove pte.page k bytes mem) pgdir :=
  ⟨freelist_memmove .., fun _ hpage => word_memmove (hpage va hva pte hpte).symm ..⟩

-- The entry without PTE_U.
def cleared (pte : Pte) : Pte := { pte with flags := pte.flags &&& ~~~PTE_U }

theorem cleared_present (pte : Pte) : (cleared pte).present = pte.present := by
  simp [cleared, Pte.present, PTE_U]

section Loading

variable (h : Loading start mem pgdir pages sz)

include h

theorem Loading.writes (hpages : pages.Nodup)
    (hwrites : UserWrites mem next pgdir) : Loading start next pgdir pages sz := by
  have hmaps := hwrites.maps h.dir hpages
  refine ⟨hwrites.dir h.dir hpages, h.frame.trans (hwrites.frame h.dir), ⟨h.whole.fits, fun va hva => ?_⟩, ?_⟩
  · have hsame : Space.lookup ⟨next, pgdir, sz⟩ va = Space.lookup ⟨mem, pgdir, sz⟩ va := hmaps va
    rw [hsame]
    exact h.whole.mapped va hva
  · intro va pte hlo hhi hpte
    rw [hmaps va] at hpte
    exact h.upper va pte hlo hhi hpte

theorem Loading.round : Loading start mem pgdir pages (PGROUNDUP sz) := by
  have hround : PGROUNDUP (PGROUNDUP sz) = PGROUNDUP sz := by
    unfold PGROUNDUP PAGE
    omega
  refine ⟨h.dir, h.frame, ⟨h.whole.round_le, fun va hva => ?_⟩, h.upper⟩
  show _ ↔ va < PGROUNDUP (PGROUNDUP sz)
  rw [hround]
  exact h.whole.mapped va hva

-- What allocuvm has done if it returns a size.
theorem Loading.alloced {newsz size : Nat}
    (halloced : Alloced mem next pgdir sz newsz size) (hdir : next.Dir pgdir 0 pages) (hframe : Frame pages mem next)
    (hsize : size ≠ 0) : Loading start next pgdir pages size ∧ newsz ≤ size := by
  have hframe := h.frame.trans hframe
  cases halloced with
  | large | short => exact absurd rfl hsize
  | smaller hlt hmaps =>
    refine ⟨⟨hdir, hframe, ⟨h.whole.fits, fun va hva => ?_⟩, fun va pte hlo hhi hpte => ?_⟩, hlt.le⟩
    · have hsame : Space.lookup ⟨next, pgdir, sz⟩ va = Space.lookup ⟨mem, pgdir, sz⟩ va := hmaps va
      rw [hsame]
      exact h.whole.mapped va hva
    · rw [hmaps va] at hpte
      exact h.upper va pte hlo hhi hpte
  | grown hle hlt hgrows =>
    refine ⟨⟨hdir, hframe, h.whole.grows hle hlt hgrows, fun va pte hlo hhi hpte => ?_⟩, Nat.le_refl _⟩
    have hround : PGROUNDUP newsz ≤ KERNBASE := by
      unfold KERNBASE at hlt ⊢
      unfold PGROUNDUP PAGE
      omega
    have hgrow := hgrows va hhi
    rw [if_neg (by omega)] at hgrow
    rw [hgrow] at hpte
    exact h.upper va pte hlo hhi hpte

theorem Loading.lookup (hva : va < sz) : ∃ pte, Xv6.lookup mem.word pgdir va = some pte := by
  have hfits : sz ≤ KERNBASE := h.whole.fits
  have hround : va < PGROUNDUP sz := by
    unfold PGROUNDUP PAGE
    omega
  exact Option.ne_none_iff_exists'.mp ((h.whole.mapped va (by omega)).mpr hround)

theorem Loading.wrote {buf : List Byte} {n : Nat}
    (hwrote : Wrote mem next pgdir va buf n) : UserWrites mem next pgdir := by
  refine ⟨hwrote.freelist, fun page hpage => hwrote.pages page fun i _ huser => ?_⟩
  obtain ⟨hlt, huser⟩ := KernelOnly.lt h.upper huser
  obtain ⟨pte, hlookup, hpte⟩ := Option.bind_eq_some_iff.mp huser
  rw [Option.ite_none_right_eq_some] at hpte
  exact hpage _ hlt pte hlookup (Option.some.inj hpte.2)

theorem copyout_loading (hpages : pages.Nodup) {sp : BitVec 32} {p : List Byte}
    (hnull : stops .null) {returns : Int → Kmem → Prop}
    (hreturns : ∀ result next, Loading start next pgdir pages sz → returns result next) :
    wp (copyout pgdir sp p) mem returns stops := by
  refine copyout_wp (h.dir.proper hpages h.upper) (fun _ _ _ => hnull)
    (fun _ _ _ next hwrote => ?_) fun _ next hwrote => ?_
  · exact hreturns _ next (h.writes hpages (h.wrote hwrote))
  · exact hreturns _ next (h.writes hpages (h.wrote hwrote))

theorem Loading.clear (hpages : pages.Nodup) (hva : va < KERNBASE) (hpresent : (mem.word pgdir (PDX va)).present)
    (hentry : (mem.word (mem.word pgdir (PDX va)).page (PTX va)).present) :
    Loading start (mem.setWord (mem.word pgdir (PDX va)).page (PTX va)
      (cleared (mem.word (mem.word pgdir (PDX va)).page (PTX va)))) pgdir pages sz := by
  have hcleared := (cleared_present _).trans hentry
  have hlookup := fun other => h.dir.setWord_lookup hpages (j := PTX va) (PDX_lt va) hpresent
    (cleared (mem.word (mem.word pgdir (PDX va)).page (PTX va))) other
  simp only [hcleared, if_true] at hlookup
  refine ⟨h.dir.setWord hpages (PDX_lt va) hpresent (PTX_lt va) _ ?_, ?_, ⟨h.whole.fits, fun other hother => ?_⟩, ?_⟩
  · rw [Pte.pages_of_present hcleared, Pte.pages_of_present hentry]
    rfl
  · exact h.frame.trans (.setPage _ (h.dir.dir_mem (table_mem_dirPages (PDX_lt va) hpresent)) _)
  · refine Iff.trans (not_congr ?_) (h.whole.mapped other hother)
    refine (by rw [Space.lookup, hlookup] : _ ↔ _ = none).trans ?_
    split_ifs with hsame
    · have hsome : Space.lookup ⟨mem, pgdir, sz⟩ other ≠ none := by
        unfold Space.lookup
        rw [ne_eq, lookup_eq_none_iff (by rwa [hsame.1]), hsame.1, hsame.2, not_not]
        exact hentry
      simp [hsome]
    · rfl
  · intro other pte hlo hhi hpte
    rw [hlookup, if_neg] at hpte
    · exact h.upper other pte hlo hhi hpte
    · rintro ⟨hpdx, -⟩
      have huser := PDX_lt_user hva
      have hkernel := PDX_ge_kernel hlo hhi
      omega

theorem clearpteu_loading (hpages : pages.Nodup) (hva : va < sz)
    (hstops : stops .clearpteu) {returns : Unit → Kmem → Prop}
    (hreturns : ∀ next, Loading start next pgdir pages sz → returns () next) :
    wp (clearpteu pgdir va) mem returns stops := by
  unfold clearpteu
  rw [wp_bind]
  refine walkpgdir_find_wp (fun _ => hstops) fun hpresent => ?_
  rw [wp_modify]
  obtain ⟨pte, hpte⟩ := h.lookup hva
  obtain ⟨-, hentry, -⟩ := lookup_eq_some_iff.mp hpte
  exact hreturns _ (h.clear hpages (hva.trans_le h.whole.fits) hpresent hentry)

end Loading

end Xv6.Kmem

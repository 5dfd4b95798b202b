import Mathlib.Tactic.Abel
import Xv6.Vm

namespace Xv6

open Function Finset Multiset

-- The page that an entry refers to, if it is present.
def Pte.pages (pte : Pte) : Multiset Page := if pte.present then {pte.page} else 0

@[simp] theorem Pte.pages_zero : Pte.zero.pages = 0 := rfl

theorem Pte.not_present_zero : ¬Pte.zero.present := by simp [present, zero]

variable {pte : Pte} {i va k j : Nat} {pgdir table : Page}

theorem Pte.pages_of_present (h : pte.present) : pte.pages = {pte.page} := if_pos h

theorem Pte.pages_of_not_present (h : ¬pte.present) : pte.pages = 0 := if_neg h

theorem Pte.present_table (page : Page) : (Pte.mk page (PTE_P ||| PTE_W ||| PTE_U)).present := by
  simp [present, PTE_P, PTE_W, PTE_U]

theorem Pte.present_mapped (page : Page) (perm : BitVec 12) : (Pte.mk page (perm ||| PTE_P)).present := by
  simp [present, PTE_P]

def Pte.user (pte : Pte) : Bool := pte.flags.getLsbD 2

theorem Pte.user_mapped (page : Page) (perm : BitVec 12) : (Pte.mk page (perm ||| PTE_P)).user = perm.getLsbD 2 := by
  simp [user, PTE_P]

-- The indices of a page directory or a page table.
@[irreducible] def entries : Finset Nat := Finset.range NPDENTRIES

theorem mem_entries : i ∈ entries ↔ i < NPDENTRIES := by
  rw [entries]
  exact Finset.mem_range

variable {word after : Page → Nat → Pte}

section

variable (word : Page → Nat → Pte)

-- The pages that a page table maps.
def userPages (table : Page) : Multiset Page := ∑ j ∈ entries, (word table j).pages

-- The page table of an entry of a page directory, with the pages it maps if it is in the user part.
def tablePages (pgdir : Page) (i : Nat) : Multiset Page :=
  if (word pgdir i).present then
    {(word pgdir i).page} + (if i < 512 then userPages word (word pgdir i).page else 0)
  else 0

-- All pages of a page directory.
def dirPages (pgdir : Page) : Multiset Page :=
  {pgdir} + ∑ i ∈ entries, tablePages word pgdir i

-- The entry that maps this address, if there is one.
def lookup (pgdir : Page) (va : Nat) : Option Pte :=
  if (word pgdir (PDX va)).present then
    if (word (word pgdir (PDX va)).page (PTX va)).present then some (word (word pgdir (PDX va)).page (PTX va)) else none
  else none

end

theorem lookup_of_absent (h : ¬(word pgdir (PDX va)).present) : lookup word pgdir va = none := if_neg h

theorem lookup_eq_none_iff (h : (word pgdir (PDX va)).present) :
    lookup word pgdir va = none ↔ ¬(word (word pgdir (PDX va)).page (PTX va)).present := by
  rw [lookup, if_pos h]
  split_ifs with hentry <;> simp [hentry]

theorem lookup_congr (hdir : after pgdir (PDX va) = word pgdir (PDX va))
    (htable : (word pgdir (PDX va)).present → after (word pgdir (PDX va)).page = word (word pgdir (PDX va)).page) :
    lookup after pgdir va = lookup word pgdir va := by
  unfold lookup
  rw [hdir]
  split
  · rename_i hpresent
    rw [htable hpresent]
  · rfl

-- Addresses of one page.
theorem lookup_page (word : Page → Nat → Pte) (pgdir : Page) {other : Nat} (h : va / PAGE = other / PAGE) :
    lookup word pgdir va = lookup word pgdir other := by
  have hpdx : PDX va = PDX other := by
    unfold PAGE at h
    unfold PDX
    omega
  have hptx : PTX va = PTX other := by
    unfold PAGE at h
    unfold PTX
    omega
  unfold lookup
  rw [hpdx, hptx]

theorem userPages_congr (h : after table = word table) : userPages after table = userPages word table := by
  simp only [userPages, h]

theorem tablePages_congr (hdir : after pgdir i = word pgdir i)
    (htable : (word pgdir i).present → after (word pgdir i).page = word (word pgdir i).page) :
    tablePages after pgdir i = tablePages word pgdir i := by
  unfold tablePages
  rw [hdir]
  split
  · rename_i hpresent
    rw [userPages_congr (htable hpresent)]
  · rfl

theorem mem_singleton_add (page : Page) (pages : Multiset Page) : page ∈ {page} + pages :=
  Multiset.mem_add.mpr (.inl (Multiset.mem_singleton_self _))

theorem table_mem_tablePages (h : (word pgdir i).present) : (word pgdir i).page ∈ tablePages word pgdir i := by
  rw [tablePages, if_pos h]
  exact mem_singleton_add _ _

theorem mem_dirPages_self (word : Page → Nat → Pte) (pgdir : Page) : pgdir ∈ dirPages word pgdir :=
  mem_singleton_add _ _

theorem table_mem_dirPages (hi : i < NPDENTRIES) (h : (word pgdir i).present) :
    (word pgdir i).page ∈ dirPages word pgdir := by
  refine mem_add.mpr (.inr (mem_sum.mpr ⟨i, mem_entries.mpr hi, ?_⟩))
  exact table_mem_tablePages h

theorem dirPages_congr (h : ∀ page ∈ dirPages word pgdir, after page = word page) :
    dirPages after pgdir = dirPages word pgdir := by
  unfold dirPages
  congr 1
  refine sum_congr rfl fun i hi => tablePages_congr ?_ fun hpresent => ?_
  · rw [h pgdir (mem_dirPages_self word pgdir)]
  · exact h _ (table_mem_dirPages (mem_entries.mp hi) hpresent)

-- The terms of a sum without duplicates have nothing in common.
theorem sum_disjoint {indices : Finset Nat} {f : Nat → Multiset Page} (h : (∑ k ∈ indices, f k).Nodup)
    (hi : i ∈ indices) (hk : k ∈ indices) (hne : i ≠ k) : Disjoint (f i) (f k) := by
  rw [← add_sum_erase _ _ hi, ← add_sum_erase _ _ (mem_erase.mpr ⟨hne.symm, hk⟩), ← add_assoc] at h
  exact (nodup_add.mp (nodup_add.mp h).1).2.2

theorem user_mem_tablePages (huser : i < 512) (hj : j < NPDENTRIES) (hpresent : (word pgdir i).present)
    (hentry : (word (word pgdir i).page j).present) : (word (word pgdir i).page j).page ∈ tablePages word pgdir i := by
  rw [tablePages, if_pos hpresent, if_pos huser]
  refine Multiset.mem_add.mpr (.inr (Multiset.mem_sum.mpr ⟨j, mem_entries.mpr hj, ?_⟩))
  rw [Pte.pages_of_present hentry]
  exact Multiset.mem_singleton_self _

section Distinct

variable {pgdir : Page} (hnodup : (dirPages word pgdir).Nodup)

include hnodup

section

variable (hi : i < NPDENTRIES)

include hi

theorem table_ne_dir (h : (word pgdir i).present) : (word pgdir i).page ≠ pgdir := by
  obtain ⟨-, -, hdisjoint⟩ := Multiset.nodup_add.mp hnodup
  intro heq
  have hmem := table_mem_tablePages h
  rw [heq] at hmem
  refine Multiset.disjoint_left.mp hdisjoint (Multiset.mem_singleton_self pgdir) ?_
  exact Multiset.mem_sum.mpr ⟨i, mem_entries.mpr hi, hmem⟩

theorem tablePages_disjoint (hk : k < NPDENTRIES) (hne : i ≠ k) :
    Disjoint (tablePages word pgdir i) (tablePages word pgdir k) :=
  sum_disjoint (Multiset.nodup_add.mp hnodup).2.1 (mem_entries.mpr hi) (mem_entries.mpr hk) hne

theorem table_ne_table (hk : k < NPDENTRIES) (hne : i ≠ k) (hpi : (word pgdir i).present)
    (hpk : (word pgdir k).present) : (word pgdir i).page ≠ (word pgdir k).page := by
  intro heq
  refine disjoint_left.mp (tablePages_disjoint hnodup hi hk hne) (table_mem_tablePages hpi) ?_
  rw [heq]
  exact table_mem_tablePages hpk

-- A page table does not map itself.
theorem user_ne_table (huser : i < 512) (hj : j < NPDENTRIES)
    (hpresent : (word pgdir i).present) (hentry : (word (word pgdir i).page j).present) :
    (word (word pgdir i).page j).page ≠ (word pgdir i).page := by
  obtain ⟨-, hsum, -⟩ := Multiset.nodup_add.mp hnodup
  rw [← Finset.add_sum_erase _ _ (mem_entries.mpr hi)] at hsum
  have htable := (Multiset.nodup_add.mp hsum).1
  rw [tablePages, if_pos hpresent, if_pos huser] at htable
  obtain ⟨-, -, hdisjoint⟩ := Multiset.nodup_add.mp htable
  intro heq
  refine Multiset.disjoint_left.mp hdisjoint (Multiset.mem_singleton_self _) ?_
  refine Multiset.mem_sum.mpr ⟨j, mem_entries.mpr hj, ?_⟩
  rw [Pte.pages_of_present hentry, heq]
  exact Multiset.mem_singleton_self _

end

section

variable (huser : i < 512)
  (hj : j < NPDENTRIES)
  (hpresent : (word pgdir i).present)
  (hentry : (word (word pgdir i).page j).present)

include huser hj hpresent hentry

theorem user_ne_dir : (word (word pgdir i).page j).page ≠ pgdir := by
  have hi : i < NPDENTRIES := Nat.lt_trans huser (by decide)
  have hmem := user_mem_tablePages huser hj hpresent hentry
  intro heq
  rw [heq] at hmem
  refine Multiset.disjoint_left.mp (Multiset.nodup_add.mp hnodup).2.2 (Multiset.mem_singleton_self pgdir) ?_
  exact Multiset.mem_sum.mpr ⟨i, mem_entries.mpr hi, hmem⟩

theorem user_ne_any_table (hk : k < NPDENTRIES) (hpk : (word pgdir k).present) :
    (word (word pgdir i).page j).page ≠ (word pgdir k).page := by
  have hi : i < NPDENTRIES := Nat.lt_trans huser (by decide)
  by_cases hik : i = k
  · subst hik
    exact user_ne_table hnodup hi huser hj hpresent hentry
  · intro heq
    refine disjoint_left.mp (tablePages_disjoint hnodup hi hk hik) (user_mem_tablePages huser hj hpresent hentry) ?_
    rw [heq]
    exact table_mem_tablePages hpk

end

-- A page is mapped at one place of the user part.
theorem user_place_unique {l : Nat} (hi : i < 512) (hj : j < NPDENTRIES) (hpi : (word pgdir i).present)
    (hentry : (word (word pgdir i).page j).present) (hk : k < 512) (hl : l < NPDENTRIES)
    (hpk : (word pgdir k).present) (hentry' : (word (word pgdir k).page l).present)
    (heq : (word (word pgdir i).page j).page = (word (word pgdir k).page l).page) : i = k ∧ j = l := by
  have hi' : i < NPDENTRIES := Nat.lt_trans hi (by decide)
  have hk' : k < NPDENTRIES := Nat.lt_trans hk (by decide)
  by_cases hik : i = k
  · subst hik
    refine ⟨rfl, ?_⟩
    by_contra hjl
    have hsum := (Multiset.nodup_add.mp hnodup).2.1
    rw [← Finset.add_sum_erase _ _ (mem_entries.mpr hi')] at hsum
    have htable := (Multiset.nodup_add.mp hsum).1
    rw [tablePages, if_pos hpi, if_pos hi] at htable
    have hdisjoint := sum_disjoint (Multiset.nodup_add.mp htable).2.1 (mem_entries.mpr hj) (mem_entries.mpr hl) hjl
    rw [Pte.pages_of_present hentry, Pte.pages_of_present hentry', heq] at hdisjoint
    exact Multiset.disjoint_left.mp hdisjoint (Multiset.mem_singleton_self _) (Multiset.mem_singleton_self _)
  · refine absurd ?_ (Multiset.disjoint_left.mp (tablePages_disjoint hnodup hi' hk' hik)
      (user_mem_tablePages hi hj hpi hentry))
    rw [heq]
    exact user_mem_tablePages hk hl hpk hentry'

end Distinct

-- A sum in which one term has changed.
theorem sum_change (indices : Finset Nat) (f : Nat → Multiset Page) {g : Nat → Multiset Page} (hi : i ∈ indices)
    (hg : ∀ k ∈ indices, k ≠ i → g k = f k) : ∑ k ∈ indices, g k + f i = ∑ k ∈ indices, f k + g i := by
  rw [← add_sum_erase _ f hi, ← add_sum_erase _ g hi]
  have hrest : ∑ k ∈ indices.erase i, g k = ∑ k ∈ indices.erase i, f k := by
    refine sum_congr rfl fun k hk => ?_
    obtain ⟨hne, hk⟩ := mem_erase.mp hk
    exact hg k hk hne
  rw [hrest]
  abel

section Change

variable {pgdir : Page} {i : Nat}

-- One entry of a page directory has changed, or the page table it refers to.
theorem dirPages_change (hi : i < NPDENTRIES) (hdir : ∀ k < NPDENTRIES, k ≠ i → after pgdir k = word pgdir k)
    (htables : ∀ k < NPDENTRIES, k ≠ i → (word pgdir k).present →
      after (word pgdir k).page = word (word pgdir k).page) :
    dirPages after pgdir + tablePages word pgdir i = dirPages word pgdir + tablePages after pgdir i := by
  unfold dirPages
  rw [add_assoc, add_assoc]
  congr 1
  refine sum_change entries (tablePages word pgdir) (mem_entries.mpr hi) fun k hk hne => ?_
  have hk := mem_entries.mp hk
  exact tablePages_congr (hdir k hk hne) (htables k hk hne)

-- walkpgdir has put a new page table into the page directory.
theorem dirPages_new_table (hi : i < NPDENTRIES) (habsent : ¬(word pgdir i).present)
    (hfresh : table ∉ dirPages word pgdir) (hnodup : (dirPages word pgdir).Nodup) {pde : Pte}
    (hpage : pde.page = table) (hpresent : pde.present) (hdir : after pgdir = update (word pgdir) i pde)
    (htable : after table = fun _ => .zero) (hother : ∀ page, page ≠ pgdir → page ≠ table → after page = word page) :
    dirPages after pgdir = dirPages word pgdir + {table} := by
  have hchange : dirPages after pgdir + tablePages word pgdir i = dirPages word pgdir + tablePages after pgdir i := by
    refine dirPages_change hi (fun k _ hne => by rw [hdir, update_of_ne hne]) fun k hk hne hk' => ?_
    refine hother _ (table_ne_dir hnodup hk hk') ?_
    intro heq
    exact hfresh (heq ▸ table_mem_dirPages hk hk')
  have hbefore : tablePages word pgdir i = 0 := by rw [tablePages, if_neg habsent]
  have huser : userPages after table = 0 := by
    unfold userPages
    simp only [htable, Pte.pages_zero, sum_const_zero]
  have hafter : tablePages after pgdir i = {table} := by
    rw [tablePages, hdir, update_self, if_pos hpresent, hpage, huser, ite_self, add_zero]
  rwa [hbefore, hafter, add_zero] at hchange

-- Nothing is mapped by a new page table.
theorem lookup_new_table (habsent : ¬(word pgdir i).present) (hapart : ∀ k < NPDENTRIES,
      (word pgdir k).present → (word pgdir k).page ≠ pgdir ∧ (word pgdir k).page ≠ table) {pde : Pte}
    (hpage : pde.page = table) (hdir : after pgdir = update (word pgdir) i pde)
    (htable : after table = fun _ => .zero) (hother : ∀ page, page ≠ pgdir → page ≠ table → after page = word page)
    (va : Nat) : lookup after pgdir va = lookup word pgdir va := by
  by_cases hpdx : PDX va = i
  · have hnone : lookup word pgdir va = none := lookup_of_absent (by rwa [hpdx])
    rw [hnone]
    unfold lookup
    rw [hdir, hpdx, update_self, hpage, htable, if_neg Pte.not_present_zero, ite_self]
  · refine lookup_congr (by rw [hdir, update_of_ne hpdx]) fun hpresent => ?_
    obtain ⟨hdir, htable⟩ := hapart _ (Nat.mod_lt _ (by decide)) hpresent
    exact hother _ hdir htable

-- One entry of a page table has changed.
theorem lookup_set_entry (hpresent : (word pgdir i).present) (hdir : after pgdir = word pgdir)
    (htable : after (word pgdir i).page = update (word (word pgdir i).page) j pte)
    (hother : ∀ k < NPDENTRIES, k ≠ i → (word pgdir k).present →
      after (word pgdir k).page = word (word pgdir k).page) (va : Nat) :
    lookup after pgdir va =
      if PDX va = i ∧ PTX va = j then (if pte.present then some pte else none) else lookup word pgdir va := by
  by_cases hpdx : PDX va = i
  · subst hpdx
    unfold lookup
    rw [hdir, if_pos hpresent, if_pos hpresent, htable]
    by_cases hptx : PTX va = j
    · simp only [hptx, update_self, and_self, if_true]
    · simp only [update_of_ne hptx, hptx, and_false, if_false]
  · rw [if_neg (fun h => hpdx h.1)]
    refine lookup_congr (by rw [hdir]) fun hk => hother _ (Nat.mod_lt _ (by decide)) hpdx hk

-- An entry of a page table has changed.
theorem dirPages_set_entry (hi : i < NPDENTRIES) (hnodup : (dirPages word pgdir).Nodup)
    (hpresent : (word pgdir i).present) (hj : j < NPDENTRIES)
    (htable : after (word pgdir i).page = update (word (word pgdir i).page) j pte)
    (hother : ∀ page, page ≠ (word pgdir i).page → after page = word page) :
    dirPages after pgdir + (if i < 512 then (word (word pgdir i).page j).pages else 0) =
      dirPages word pgdir + if i < 512 then pte.pages else 0 := by
  have hdir : after pgdir = word pgdir := hother pgdir (table_ne_dir hnodup hi hpresent).symm
  have hchange : dirPages after pgdir + tablePages word pgdir i = dirPages word pgdir + tablePages after pgdir i :=
    dirPages_change hi (fun k _ _ => by rw [hdir]) fun k hk hne hk' =>
      hother _ (table_ne_table hnodup hk hi hne hk' hpresent)
  have hentry : userPages after (word pgdir i).page + (word (word pgdir i).page j).pages =
      userPages word (word pgdir i).page + pte.pages := by
    have hsum := sum_change entries (fun j => (word (word pgdir i).page j).pages) (mem_entries.mpr hj)
      (g := fun j => (after (word pgdir i).page j).pages) fun k _ hne => by rw [htable, update_of_ne hne]
    simpa only [userPages, htable, update_self] using hsum
  simp only [tablePages, hdir, if_pos hpresent] at hchange
  split at hchange
  · rename_i huser
    rw [if_pos huser, if_pos huser]
    refine add_right_cancel (b := {(word pgdir i).page} + userPages word (word pgdir i).page) ?_
    rw [add_right_comm, hchange, add_assoc, add_assoc, add_assoc, hentry]
    abel
  · rename_i huser
    rw [if_neg huser, if_neg huser, add_zero, add_zero]
    exact add_right_cancel hchange

end Change

end Xv6

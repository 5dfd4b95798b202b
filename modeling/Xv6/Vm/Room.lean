import Xv6.Vm.Pages

namespace Xv6.Kmem

open Function Finset

variable {mem next : Kmem} {pgdir : Page}

-- The free pages together with the page tables that there are already. A new page table does not change it.
@[irreducible] def room (mem : Kmem) (pgdir : Page) : Nat :=
  mem.freelist.length + (entries.filter fun i => (mem.word pgdir i).present).card

theorem room_setPage (mem : Kmem) {page : Page} (hne : page ≠ pgdir) (words : Nat → Pte) :
    (mem.setPage page words).room pgdir = mem.room pgdir := by
  simp only [room, setPage, update_of_ne hne.symm]

theorem room_le (mem : Kmem) (pgdir : Page) : mem.room pgdir ≤ mem.freelist.length + NPDENTRIES := by
  have hcard := card_filter_le entries fun i => (mem.word pgdir i).present
  rw [show entries.card = NPDENTRIES by rw [entries, card_range]] at hcard
  unfold room
  exact Nat.add_le_add_left hcard _

-- While a page table is missing there is room for one less.
theorem room_lt {i : Nat} (hi : i < NPDENTRIES) (habsent : ¬(mem.word pgdir i).present) (hempty : mem.freelist = []) :
    mem.room pgdir < NPDENTRIES := by
  have hsubset : entries.filter (fun i => (mem.word pgdir i).present) ⊆ entries.erase i := by
    intro k hk
    obtain ⟨hk, hpresent⟩ := mem_filter.mp hk
    refine mem_erase.mpr ⟨?_, hk⟩
    rintro rfl
    exact habsent hpresent
  have hcard := card_le_card hsubset
  rw [card_erase_of_mem (mem_entries.mpr hi), show entries.card = NPDENTRIES by rw [entries, card_range]] at hcard
  unfold room
  rw [hempty, List.length_nil]
  unfold NPDENTRIES at hcard ⊢
  omega

theorem room_new_table {table : Page} {rest : List Page} (hlist : mem.freelist = table :: rest) (hne : table ≠ pgdir)
    {i : Nat} (hi : i < NPDENTRIES) (habsent : ¬(mem.word pgdir i).present) (words : Nat → Pte) {pde : Pte}
    (hpresent : pde.present) :
    (Kmem.setWord (Kmem.setPage { mem with freelist := rest } table words) pgdir i pde).room pgdir =
      mem.room pgdir := by
  have hword : (Kmem.setWord (Kmem.setPage { mem with freelist := rest } table words) pgdir i pde).word pgdir =
      update (mem.word pgdir) i pde := by
    simp [setWord, setPage, update_of_ne hne.symm]
  have hset : entries.filter (fun k => (update (mem.word pgdir) i pde k).present) =
      insert i (entries.filter fun k => (mem.word pgdir k).present) := by
    ext k
    by_cases hk : k = i
    · subst hk
      simp [hpresent, mem_entries.mpr hi]
    · simp [hk]
  unfold room
  rw [hword, hset, card_insert_of_notMem (by simp [habsent]), hlist, List.length_cons]
  show rest.length + _ = _
  omega

-- What is left after some pages have been mapped, or why that was not done.
def Taken (mem : Kmem) (pgdir : Page) (ok : Bool) (next : Kmem) : Prop :=
  if ok then next.room pgdir = mem.room pgdir else mem.room pgdir < NPDENTRIES

theorem Taken.refl (mem : Kmem) (pgdir : Page) : mem.Taken pgdir true mem := by
  unfold Taken
  rfl

theorem Taken.trans {ok : Bool} {last : Kmem} (hfirst : mem.Taken pgdir true next)
    (hsecond : next.Taken pgdir ok last) : mem.Taken pgdir ok last := by
  have hsame : next.room pgdir = mem.room pgdir := hfirst
  unfold Taken at hsecond ⊢
  rwa [hsame] at hsecond

-- These addresses are not mapped yet.
def Unmapped (mem : Kmem) (pgdir : Page) (lo hi : Nat) : Prop :=
  ∀ va < 2 ^ 32, lo ≤ va → va < hi → lookup mem.word pgdir va = none

end Xv6.Kmem

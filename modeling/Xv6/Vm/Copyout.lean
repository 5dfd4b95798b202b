import Mathlib.Tactic.IntervalCases
import Xv6.Memory
import Xv6.Vm.Places

namespace Xv6

open Function List Option

variable {i : Nat}

namespace Pte

-- The entry as a number.
def value (pte : Pte) : Nat := pte.page * 2 ^ 12 + pte.flags.toNat

def ofValue (value : Nat) : Pte := ⟨value / 2 ^ 12, BitVec.ofNat 12 value⟩

def byte (pte : Pte) (j : Nat) : Byte := BitVec.ofNat 8 (pte.value / 2 ^ (8 * j))

def setByte (pte : Pte) (j : Nat) (b : Byte) : Pte :=
  ofValue (pte.value / 2 ^ (8 * j + 8) * 2 ^ (8 * j + 8) + b.toNat * 2 ^ (8 * j) + pte.value % 2 ^ (8 * j))

theorem value_ofValue (value : Nat) : (ofValue value).value = value := by
  simp only [Pte.value, ofValue, BitVec.toNat_ofNat]
  omega

theorem byte_setByte (pte : Pte) (b : Byte) {j : Nat} (hi : i < 4) (hj : j < 4) :
    (pte.setByte i b).byte j = if j = i then b else pte.byte j := by
  have hb := b.isLt
  unfold setByte byte
  rw [value_ofValue]
  refine BitVec.eq_of_toNat_eq ?_
  rw [apply_ite BitVec.toNat]
  simp only [BitVec.toNat_ofNat]
  generalize pte.value = value
  generalize b.toNat = b at hb ⊢
  interval_cases i <;> interval_cases j <;>
    simp only [Nat.reduceMul, Nat.reduceAdd, Nat.reducePow, Nat.reduceEqDiff, if_true, if_false] <;> omega

end Pte

namespace Kmem

open Xv6.Action

def byte (mem : Kmem) (page : Page) (k : Nat) : Byte := (mem.word page (k / 4)).byte (k % 4)

def setByte (mem : Kmem) (page : Page) (k : Nat) (b : Byte) : Kmem :=
  mem.setWord page (k / 4) ((mem.word page (k / 4)).setByte (k % 4) b)

-- The bytes go to one page, from this offset on.
def memmove (page : Page) : Nat → List Byte → Kmem → Kmem
  | _, [], mem => mem
  | k, b :: rest, mem => memmove page (k + 1) rest (mem.setByte page k b)

-- A null pointer is dereferenced where there is no page table.
def uva2ka (pgdir : Page) (uva : Nat) : M (Option Page) := do
  match ← walkpgdir pgdir uva false with
  | none => throw .null
  | some (pgtab, index) => do
      let pte := (← get).word pgtab index
      if !pte.present then return none
      else if !pte.user then return none
      else return some pte.page

-- The loop of copyout, in which each turn copies a byte at least.
def copyoutLoop (pgdir : Page) : Nat → Nat → List Byte → M Int
  | 0, _, _ => return 0
  | turns + 1, va, buf => do
      if 0 < buf.length then
        let va0 := PGROUNDDOWN va
        match ← uva2ka pgdir va0 with
        | none => return -1
        | some pa0 => do
            let n := min (PAGE - (va - va0)) buf.length
            modify (memmove pa0 (va - va0) (buf.take n))
            copyoutLoop pgdir turns ((va0 + PAGE) % 2 ^ 32) (buf.drop n)
      else return 0

def copyout (pgdir : Page) (va : BitVec 32) (p : List Byte) : M Int := copyoutLoop pgdir p.length va.toNat p

theorem byte_setByte (mem : Kmem) (page other : Page) (k i : Nat) (b : Byte) :
    (mem.setByte page k b).byte other i = if other = page ∧ i = k then b else mem.byte other i := by
  unfold byte setByte setWord setPage
  dsimp only
  by_cases hpage : other = page
  · subst hpage
    rw [update_self]
    by_cases hword : i / 4 = k / 4
    · rw [hword, update_self, Pte.byte_setByte _ _ (Nat.mod_lt _ (by decide)) (Nat.mod_lt _ (by decide))]
      refine if_congr ?_ rfl rfl
      simp only [true_and]
      omega
    · rw [update_of_ne hword, if_neg]
      rintro ⟨-, rfl⟩
      exact hword rfl
  · rw [update_of_ne hpage, if_neg (fun h => hpage h.1)]

theorem byte_memmove (mem : Kmem) (page other : Page) (k i : Nat) (bytes : List Byte) :
    (memmove page k bytes mem).byte other i =
      if other = page ∧ k ≤ i ∧ i < k + bytes.length then bytes.getD (i - k) 0 else mem.byte other i := by
  induction bytes generalizing mem k with
  | nil => rw [memmove, if_neg (by simp only [length_nil]; omega)]
  | cons b rest ih =>
    rw [memmove, ih, byte_setByte]
    by_cases hpage : other = page
    · by_cases hfirst : i = k
      · subst hfirst
        rw [if_neg (by omega), if_pos ⟨hpage, rfl⟩, if_pos ⟨hpage, Nat.le_refl _, by simp⟩, Nat.sub_self]
        rfl
      · by_cases hin : k + 1 ≤ i ∧ i < k + 1 + rest.length
        · rw [if_pos ⟨hpage, hin⟩, if_pos ⟨hpage, by omega, by simp only [length_cons]; omega⟩]
          obtain ⟨j, rfl⟩ : ∃ j, i = k + 1 + j := ⟨i - (k + 1), by omega⟩
          rw [show k + 1 + j - k = (k + 1 + j - (k + 1)) + 1 by omega]
          rfl
        · rw [if_neg (fun h => hin h.2), if_neg (fun h => hfirst h.2), if_neg (by simp only [length_cons]; omega)]
    · rw [if_neg (fun h => hpage h.1), if_neg (fun h => hpage h.1), if_neg (fun h => hpage h.1)]

variable {page : Page} {returns : Int → Kmem → Prop}

theorem word_memmove {other : Page} (hne : other ≠ page) (k : Nat) (bytes : List Byte) (mem : Kmem) :
    (memmove page k bytes mem).word other = mem.word other := by
  induction bytes generalizing mem k with
  | nil => rfl
  | cons b rest ih =>
    rw [memmove, ih]
    exact update_of_ne hne _ _

theorem freelist_memmove (page : Page) (k : Nat) (bytes : List Byte) (mem : Kmem) :
    (memmove page k bytes mem).freelist = mem.freelist := by
  induction bytes generalizing mem k with
  | nil => rfl
  | cons b rest ih => exact ih _ _

-- The user's page at this address, whether the user can write to it or not. Addresses wrap around at 2^32.
def userPage (mem : Kmem) (pgdir : Page) (va : Nat) : Option Page :=
  (lookup mem.word pgdir va).bind fun pte => if pte.user then some pte.page else none

-- No page of the page directory itself is for the user, and no page is there twice.
structure Proper (mem : Kmem) (pgdir : Page) : Prop where
  dir (va : Nat) (page : Page) (hpage : mem.userPage pgdir va = some page) : page ≠ pgdir
  table (va : Nat) (page : Page) (hpage : mem.userPage pgdir va = some page) (i : Nat) (hi : i < NPDENTRIES)
    (hpresent : (mem.word pgdir i).present) : page ≠ (mem.word pgdir i).page
  distinct (va other : Nat) (page : Page) (hva : va < 2 ^ 32) (hother : other < 2 ^ 32)
    (hpage : mem.userPage pgdir va = some page) (hpage' : mem.userPage pgdir other = some page) :
    va / PAGE = other / PAGE

-- The first bytes of `buf` are where the user finds them from `va` on, and nothing else has changed.
structure Wrote (mem next : Kmem) (pgdir : Page) (va : Nat) (buf : List Byte) (n : Nat) : Prop where
  freelist : next.freelist = mem.freelist
  pages (page : Page) (hpage : ∀ i < n, mem.userPage pgdir (va + i) ≠ some page) : next.word page = mem.word page
  others (page : Page) (k : Nat) (hk : ∀ i < n, mem.userPage pgdir (va + i) = some page → (va + i) % PAGE ≠ k) :
    next.byte page k = mem.byte page k
  bytes (hwraps : va + n ≤ 2 ^ 32) (i : Nat) (hi : i < n) (page : Page)
    (hpage : mem.userPage pgdir (va + i) = some page) : next.byte page ((va + i) % PAGE) = buf.getD i 0

variable {mem mid next : Kmem} {pgdir : Page} {va n m : Nat} {buf : List Byte} {stops : VmHalt → Prop}

theorem userPage_page {other : Nat} (h : va / PAGE = other / PAGE) :
    mem.userPage pgdir va = mem.userPage pgdir other := by
  unfold userPage
  rw [lookup_page _ _ h]

theorem userPage_mod (mem : Kmem) (pgdir : Page) (va i : Nat) :
    mem.userPage pgdir (va % 2 ^ 32 + i) = mem.userPage pgdir (va + i) := by
  have hpdx : PDX (va % 2 ^ 32 + i) = PDX (va + i) := by
    unfold PDX
    omega
  have hptx : PTX (va % 2 ^ 32 + i) = PTX (va + i) := by
    unfold PTX
    omega
  unfold userPage lookup
  rw [hpdx, hptx]

theorem userPage_eq_some_iff : mem.userPage pgdir va = some page ↔
    (mem.word pgdir (PDX va)).present ∧ (mem.word (mem.word pgdir (PDX va)).page (PTX va)).present ∧
      (mem.word (mem.word pgdir (PDX va)).page (PTX va)).user ∧
      (mem.word (mem.word pgdir (PDX va)).page (PTX va)).page = page := by
  unfold userPage lookup
  by_cases hpresent : (mem.word pgdir (PDX va)).present <;>
    by_cases hentry : (mem.word (mem.word pgdir (PDX va)).page (PTX va)).present <;> simp [hpresent, hentry]

theorem KernelOnly.lt (h : mem.KernelOnly pgdir) (hpage : mem.userPage pgdir va = some page) :
    va % 2 ^ 32 < KERNBASE ∧ mem.userPage pgdir (va % 2 ^ 32) = some page := by
  have hmod := userPage_mod mem pgdir va 0
  rw [Nat.add_zero, Nat.add_zero, hpage] at hmod
  refine ⟨?_, hmod⟩
  by_contra hge
  obtain ⟨pte, hlookup, hpte⟩ := bind_eq_some_iff.mp hmod
  rw [h _ pte (Nat.not_lt.mp hge) (Nat.mod_lt _ (by decide)) hlookup] at hpte
  exact absurd hpte (by simp)

-- The pages of a page directory in use are all different.
theorem Dir.proper {loose pages : Multiset Page} (h : mem.Dir pgdir loose pages) (hpages : pages.Nodup)
    (hkernel : mem.KernelOnly pgdir) : mem.Proper pgdir := by
  have hnodup := h.dir_nodup hpages
  have hplace : ∀ {va page}, mem.userPage pgdir va = some page → ∃ i < 512, ∃ j < NPDENTRIES,
      i = PDX (va % 2 ^ 32) ∧ j = PTX (va % 2 ^ 32) ∧ (mem.word pgdir i).present ∧
        (mem.word (mem.word pgdir i).page j).present ∧ (mem.word (mem.word pgdir i).page j).page = page := by
    intro va page hpage
    obtain ⟨hlt, hpage⟩ := hkernel.lt hpage
    obtain ⟨hpresent, hentry, -, hpage⟩ := userPage_eq_some_iff.mp hpage
    exact ⟨_, PDX_lt_user hlt, _, PTX_lt _, rfl, rfl, hpresent, hentry, hpage⟩
  refine ⟨?_, ?_, ?_⟩
  · intro va page hpage
    obtain ⟨i, hi, j, hj, -, -, hpresent, hentry, rfl⟩ := hplace hpage
    exact user_ne_dir hnodup hi hj hpresent hentry
  · intro va page hpage k hk hpresent'
    obtain ⟨i, hi, j, hj, -, -, hpresent, hentry, rfl⟩ := hplace hpage
    exact user_ne_any_table hnodup hi hj hpresent hentry hk hpresent'
  · intro va other page hva hother hpage hpage'
    obtain ⟨i, hi, j, hj, hpdx, hptx, hpresent, hentry, rfl⟩ := hplace hpage
    obtain ⟨k, hk, l, hl, hpdx', hptx', hpresent', hentry', heq⟩ := hplace hpage'
    obtain ⟨rfl, rfl⟩ := user_place_unique hnodup hk hl hpresent' hentry' hi hj hpresent hentry heq
    rw [Nat.mod_eq_of_lt hva] at hpdx hptx
    rw [Nat.mod_eq_of_lt hother] at hpdx' hptx'
    unfold PAGE
    unfold PDX at hpdx hpdx'
    unfold PTX at hptx hptx'
    omega

theorem Wrote.zero (mem : Kmem) (pgdir : Page) (va : Nat) (buf : List Byte) : Wrote mem mem pgdir va buf 0 :=
  ⟨rfl, fun _ _ => rfl, fun _ _ _ => rfl, fun _ _ hi => absurd hi (Nat.not_lt_zero _)⟩

section Wrote

variable (hproper : mem.Proper pgdir) (h : Wrote mem next pgdir va buf n)

include hproper h

theorem Wrote.word_dir : next.word pgdir = mem.word pgdir :=
  h.pages pgdir fun _ _ hpage => hproper.dir _ _ hpage rfl

theorem Wrote.word_table (hi : i < NPDENTRIES) (hpresent : (mem.word pgdir i).present) :
    next.word (mem.word pgdir i).page = mem.word (mem.word pgdir i).page :=
  h.pages _ fun _ _ hpage => hproper.table _ _ hpage i hi hpresent rfl

theorem Wrote.userPage (other : Nat) : next.userPage pgdir other = mem.userPage pgdir other := by
  unfold Kmem.userPage
  rw [lookup_congr (by rw [h.word_dir hproper]) fun hpresent => h.word_table hproper (PDX_lt other) hpresent]

theorem Wrote.proper : next.Proper pgdir where
  dir va page := by
    rw [h.userPage hproper]
    exact hproper.dir va page
  table va page hpage i hi hpresent := by
    rw [h.userPage hproper] at hpage
    rw [h.word_dir hproper] at hpresent ⊢
    exact hproper.table va page hpage i hi hpresent
  distinct va other page hva hother hpage hpage' := by
    rw [h.userPage hproper] at hpage hpage'
    exact hproper.distinct va other page hva hother hpage hpage'

end Wrote

-- Two addresses of a range that does not wrap around are different places.
theorem Proper.place_ne (h : mem.Proper pgdir) {other : Nat} (hva : va < 2 ^ 32) (hother : other < 2 ^ 32)
    (hne : va ≠ other) (hpage : mem.userPage pgdir va = some page) (hpage' : mem.userPage pgdir other = some page) :
    va % PAGE ≠ other % PAGE := by
  have hdiv := h.distinct va other page hva hother hpage hpage'
  have hva := Nat.div_add_mod va PAGE
  have hother := Nat.div_add_mod other PAGE
  intro hmod
  rw [← hva, hdiv, hmod, hother] at hne
  exact hne rfl

theorem Wrote.trans (hproper : mem.Proper pgdir) (hfirst : Wrote mem mid pgdir va buf n)
    (hsecond : Wrote mid next pgdir ((va + n) % 2 ^ 32) (buf.drop n) m) : Wrote mem next pgdir va buf (n + m) := by
  have huser : ∀ i, mid.userPage pgdir ((va + n) % 2 ^ 32 + i) = mem.userPage pgdir (va + (n + i)) := by
    intro i
    rw [hfirst.userPage hproper, userPage_mod, Nat.add_assoc]
  have hplace : ∀ i, ((va + n) % 2 ^ 32 + i) % PAGE = (va + (n + i)) % PAGE := by
    intro i
    unfold PAGE
    omega
  refine ⟨hsecond.freelist.trans hfirst.freelist, ?_, ?_, ?_⟩
  · intro page hpage
    refine (hsecond.pages page fun i hi => ?_).trans (hfirst.pages page fun i hi => hpage i (by omega))
    rw [huser]
    exact hpage (n + i) (by omega)
  · intro page k hk
    refine (hsecond.others page k fun i hi => ?_).trans (hfirst.others page k fun i hi => hk i (by omega))
    rw [huser, hplace]
    exact hk (n + i) (by omega)
  · intro hwraps i hi page hpage
    by_cases hin : i < n
    · rw [← hfirst.bytes (by omega) i hin page hpage]
      refine hsecond.others page _ fun j hj => ?_
      rw [huser, hplace]
      intro hpage'
      exact hproper.place_ne (by omega) (by omega) (by omega) hpage' hpage
    · obtain ⟨j, rfl⟩ : ∃ j, i = n + j := ⟨i - n, by omega⟩
      have hbyte := hsecond.bytes (by omega) j (by omega) page (by rw [huser]; exact hpage)
      rw [hplace] at hbyte
      rw [hbyte]
      simp [getD_eq_getElem?_getD]

-- One turn of the loop writes to one page.
theorem Wrote.chunk (hpage : mem.userPage pgdir va = some page) (hn : n ≤ PAGE - va % PAGE) (hlen : n ≤ buf.length)
    (hpos : 0 < n) : Wrote mem (memmove page (va % PAGE) (buf.take n) mem) pgdir va buf n := by
  have hsame : ∀ i < n, mem.userPage pgdir (va + i) = some page ∧ (va + i) % PAGE = va % PAGE + i := by
    intro i hi
    have hmod : va % PAGE < PAGE := Nat.mod_lt _ (by decide)
    rw [← hpage]
    refine ⟨userPage_page ?_, ?_⟩ <;> unfold PAGE at * <;> omega
  have hlength : (buf.take n).length = n := by rw [length_take, Nat.min_eq_left hlen]
  refine ⟨freelist_memmove .., ?_, ?_, ?_⟩
  · intro other hother
    refine word_memmove ?_ ..
    rintro rfl
    exact hother 0 hpos (hsame 0 hpos).1
  · intro other k hk
    rw [byte_memmove, hlength]
    refine if_neg ?_
    rintro ⟨rfl, hle, hlt⟩
    have hat := hsame (k - va % PAGE) (by omega)
    exact hk (k - va % PAGE) (by omega) hat.1 (by omega)
  · intro _ i hi other hother
    have hat := hsame i hi
    rw [hat.1] at hother
    rw [← some.inj hother, hat.2, byte_memmove, hlength,
      if_pos ⟨rfl, Nat.le_add_right _ _, Nat.add_lt_add_left hi _⟩, Nat.add_sub_cancel_left]
    simp [getD_eq_getElem?_getD, hi]

theorem uva2ka_wp {returns : Option Page → Kmem → Prop} (hnull : ¬(mem.word pgdir (PDX va)).present → stops .null)
    (hnone : (mem.word pgdir (PDX va)).present → mem.userPage pgdir va = none → returns none mem)
    (hsome : ∀ page, mem.userPage pgdir va = some page → returns (some page) mem) :
    wp (uva2ka pgdir va) mem returns stops := by
  unfold uva2ka
  rw [wp_bind]
  refine walkpgdir_find_wp hnull fun hpresent => ?_
  simp only [wp_bind, wp_get, wp_ite, wp_pure]
  unfold userPage lookup at hnone hsome
  simp only [hpresent, if_true, forall_const] at hnone hsome
  by_cases hentry : (mem.word (mem.word pgdir (PDX va)).page (PTX va)).present
  · simp only [hentry, if_true, bind_some] at hnone hsome
    by_cases huser : (mem.word (mem.word pgdir (PDX va)).page (PTX va)).user
    · simp only [huser, if_true] at hsome
      simpa [hentry, huser] using hsome _ rfl
    · simp only [huser, Bool.false_eq_true, if_false] at hnone
      simpa [hentry, huser] using hnone trivial
  · simp only [hentry, Bool.false_eq_true, if_false, bind_none] at hnone
    simpa [hentry] using hnone trivial

theorem copyoutLoop_wp {turns : Nat} (hproper : mem.Proper pgdir) (hva : va < 2 ^ 32) (hturns : buf.length ≤ turns)
    (hnull : ∀ i < buf.length, (∀ j < i, mem.userPage pgdir (va + j) ≠ none) →
      ¬(mem.word pgdir (PDX (va + i))).present → stops .null)
    (hbad : ∀ i < buf.length, (∀ j < i, mem.userPage pgdir (va + j) ≠ none) →
      (mem.word pgdir (PDX (va + i))).present → mem.userPage pgdir (va + i) = none →
      ∀ next, Wrote mem next pgdir va buf i → returns (-1) next)
    (hdone : (∀ i < buf.length, mem.userPage pgdir (va + i) ≠ none) →
      ∀ next, Wrote mem next pgdir va buf buf.length → returns 0 next) :
    wp (copyoutLoop pgdir turns va buf) mem returns stops := by
  induction turns generalizing mem va buf with
  | zero =>
    obtain rfl : buf = [] := eq_nil_of_length_eq_zero (by omega)
    exact hdone (fun i hi => absurd hi (Nat.not_lt_zero _)) mem (.zero ..)
  | succ turns ih =>
    simp only [copyoutLoop, wp_ite, wp_bind]
    split_ifs with hpos
    · have hdown : PGROUNDDOWN va / PAGE = va / PAGE := by
        unfold PGROUNDDOWN PAGE
        omega
      have hoffset : va - PGROUNDDOWN va = va % PAGE := by
        unfold PGROUNDDOWN PAGE
        omega
      have hpdx : PDX (PGROUNDDOWN va) = PDX va := by
        unfold PGROUNDDOWN PAGE PDX
        omega
      refine uva2ka_wp (fun habsent => ?_) (fun hpresent hnone => ?_) fun page hpage => ?_
      · rw [hpdx] at habsent
        exact hnull 0 hpos (fun j hj => absurd hj (Nat.not_lt_zero _)) habsent
      · rw [hpdx] at hpresent
        rw [userPage_page hdown] at hnone
        exact hbad 0 hpos (fun j hj => absurd hj (Nat.not_lt_zero _)) hpresent hnone mem (.zero ..)
      · rw [userPage_page hdown] at hpage
        rw [hoffset]
        have hmod : va % PAGE < PAGE := Nat.mod_lt _ (by decide)
        have hle := Nat.min_le_left (PAGE - va % PAGE) buf.length
        have hle' := Nat.min_le_right (PAGE - va % PAGE) buf.length
        have hn : min (PAGE - va % PAGE) buf.length = PAGE - va % PAGE ∨
            min (PAGE - va % PAGE) buf.length = buf.length := by omega
        have hmin : 0 < min (PAGE - va % PAGE) buf.length := by omega
        generalize min (PAGE - va % PAGE) buf.length = n at hle hle' hn hmin ⊢
        have hchunk := Wrote.chunk hpage hle hle' hmin
        have hhere : ∀ j < n, mem.userPage pgdir (va + j) ≠ none := by
          intro j hj
          have hsame : (va + j) / PAGE = va / PAGE := by
            unfold PAGE at *
            omega
          rw [userPage_page hsame, hpage]
          exact some_ne_none _
        dsimp only
        rw [wp_bind, wp_modify]
        generalize memmove page (va % PAGE) (buf.take n) mem = mid at hchunk ⊢
        rcases hn with hn | hn
        · -- The page is full.
          have hnext : PGROUNDDOWN va + PAGE = va + n := by
            unfold PGROUNDDOWN
            unfold PAGE at hn ⊢
            omega
          have huser : ∀ i, mid.userPage pgdir ((va + n) % 2 ^ 32 + i) = mem.userPage pgdir (va + (n + i)) := by
            intro i
            rw [hchunk.userPage hproper, userPage_mod, Nat.add_assoc]
          have hdir : ∀ i, (mid.word pgdir (PDX ((va + n) % 2 ^ 32 + i))).present =
              (mem.word pgdir (PDX (va + (n + i)))).present := by
            intro i
            rw [hchunk.word_dir hproper]
            congr 2
            unfold PDX
            omega
          have hall : ∀ {i}, (∀ j < i, mid.userPage pgdir ((va + n) % 2 ^ 32 + j) ≠ none) →
              ∀ j < n + i, mem.userPage pgdir (va + j) ≠ none := by
            intro i hi j hj
            by_cases hjn : j < n
            · exact hhere j hjn
            · obtain ⟨k, rfl⟩ : ∃ k, j = n + k := ⟨j - n, by omega⟩
              rw [← huser]
              exact hi k (by omega)
          rw [hnext]
          refine ih (hchunk.proper hproper) (Nat.mod_lt _ (by decide)) ?_ ?_ ?_ ?_
          · rw [length_drop]
            omega
          · intro i hi hbefore habsent
            rw [length_drop] at hi
            rw [hdir] at habsent
            exact hnull (n + i) (by omega) (hall hbefore) habsent
          · intro i hi hbefore hpresent hnone last hwrote
            rw [length_drop] at hi
            rw [hdir] at hpresent
            rw [huser] at hnone
            exact hbad (n + i) (by omega) (hall hbefore) hpresent hnone last (hchunk.trans hproper hwrote)
          · intro hbefore last hwrote
            have hlength : n + (buf.drop n).length = buf.length := by
              rw [length_drop]
              omega
            have hwrote := hchunk.trans hproper hwrote
            have hbefore := hall hbefore
            rw [hlength] at hwrote hbefore
            exact hdone hbefore last hwrote
        · -- These were the last bytes.
          subst hn
          have hend : ∀ va, wp (copyoutLoop pgdir turns va (buf.drop buf.length)) mid returns stops := by
            intro va
            rw [drop_length]
            have hreturns := hdone hhere mid hchunk
            cases turns with
            | zero => exact hreturns
            | succ turns => simpa [copyoutLoop] using hreturns
          exact hend _
    · obtain rfl : buf = [] := eq_nil_of_length_eq_zero (by omega)
      exact hdone (fun i hi => absurd hi (Nat.not_lt_zero _)) mem (.zero ..)

-- All of the range is in pages of the user, and it ends within the address space.
def Writable (mem : Kmem) (pgdir : Page) (va : BitVec 32) (len : Nat) : Prop :=
  va.toNat + len ≤ 2 ^ 32 ∧ ∀ i < len, mem.userPage pgdir (va.toNat + i) ≠ none

-- The first address of the range that the user cannot write to.
def Stuck (mem : Kmem) (pgdir : Page) (va : BitVec 32) (len i : Nat) : Prop :=
  i < len ∧ mem.userPage pgdir (va.toNat + i) = none ∧ ∀ j < i, mem.userPage pgdir (va.toNat + j) ≠ none

-- What a call of copyout is to do.
structure CopiedOut (mem : Kmem) (pgdir : Page) (va : BitVec 32) (p : List Byte) (result : Int) (next : Kmem) :
    Prop where
  returns : result = 0 ∨ result = -1
  zero_iff : result = 0 ↔ mem.Writable pgdir va p.length
  wrote : result = 0 → Wrote mem next pgdir va.toNat p p.length
  failed : result = -1 → ∃ i, mem.Stuck pgdir va p.length i ∧ Wrote mem next pgdir va.toNat p i

theorem Stuck.unique {va : BitVec 32} {len j : Nat} (hi : mem.Stuck pgdir va len i) (hj : mem.Stuck pgdir va len j) :
    i = j := by
  rcases Nat.lt_trichotomy i j with h | h | h
  · exact absurd hi.2.1 (hj.2.2 i h)
  · exact h
  · exact absurd hj.2.1 (hi.2.2 j h)

theorem userPage_of_absent (h : ¬(mem.word pgdir (PDX va)).present) : mem.userPage pgdir va = none := by
  unfold userPage
  rw [lookup_of_absent h]
  rfl

-- What it does.
theorem copyout_wp {va : BitVec 32} {p : List Byte} (hproper : mem.Proper pgdir)
    (hnull : ∀ i, mem.Stuck pgdir va p.length i → ¬(mem.word pgdir (PDX (va.toNat + i))).present → stops .null)
    (hbad : ∀ i, mem.Stuck pgdir va p.length i → (mem.word pgdir (PDX (va.toNat + i))).present →
      ∀ next, Wrote mem next pgdir va.toNat p i → returns (-1) next)
    (hdone : (∀ i < p.length, mem.userPage pgdir (va.toNat + i) ≠ none) →
      ∀ next, Wrote mem next pgdir va.toNat p p.length → returns 0 next) :
    wp (copyout pgdir va p) mem returns stops := by
  refine copyoutLoop_wp hproper va.isLt (Nat.le_refl _) ?_ ?_ hdone
  · intro i hi hbefore habsent
    exact hnull i ⟨hi, userPage_of_absent habsent, hbefore⟩ habsent
  · intro i hi hbefore hpresent hnone
    exact hbad i ⟨hi, hnone, hbefore⟩ hpresent

-- uva2ka does not look whether walkpgdir has found a page table, and the loop goes on at address 0
-- after the last page.
theorem copyout_copies_iff (va : BitVec 32) (p : List Byte) (hproper : mem.Proper pgdir) :
    wp (copyout pgdir va p) mem (mem.CopiedOut pgdir va p) (fun _ => False) ↔
      (∀ i, mem.Stuck pgdir va p.length i → (mem.word pgdir (PDX (va.toNat + i))).present) ∧
      (2 ^ 32 < va.toNat + p.length → ∃ i, mem.Stuck pgdir va p.length i) := by
  constructor
  · intro h
    have hdoes : wp (copyout pgdir va p) mem
        (fun result _ => result = 0 ∧ (∀ i < p.length, mem.userPage pgdir (va.toNat + i) ≠ none) ∨
          result = -1 ∧ ∃ i, mem.Stuck pgdir va p.length i ∧ (mem.word pgdir (PDX (va.toNat + i))).present)
        fun _ => True :=
      copyout_wp hproper (fun _ _ _ => trivial) (fun i hi hpresent _ _ => .inr ⟨rfl, i, hi, hpresent⟩)
        fun hall _ _ => .inl ⟨rfl, hall⟩
    rcases (h.and hdoes).run with ⟨_, _, _, hcopied, ⟨hzero, hall⟩ | ⟨_, i, hi, hpresent⟩⟩ | ⟨_, _, hfalse, _⟩
    · refine ⟨fun i hi => absurd hi.2.1 (hall i hi.1), fun hwraps => ?_⟩
      have hends := (hcopied.zero_iff.mp hzero).1
      omega
    · refine ⟨fun j hj => ?_, fun _ => ⟨i, hi⟩⟩
      rwa [hj.unique hi]
    · exact hfalse.elim
  · rintro ⟨htables, hwraps⟩
    refine copyout_wp hproper (fun i hi habsent => absurd (htables i hi) habsent) ?_ ?_
    · intro i hi _ next hwrote
      refine ⟨.inr rfl, iff_of_false (by decide) fun hall => ?_, fun h => absurd h (by decide),
        fun _ => ⟨i, hi, hwrote⟩⟩
      exact hall.2 i hi.1 hi.2.1
    · intro hall next hwrote
      have hends : va.toNat + p.length ≤ 2 ^ 32 := by
        by_contra hlt
        obtain ⟨i, hi⟩ := hwraps (by omega)
        exact hall i hi.1 hi.2.1
      exact ⟨.inl rfl, iff_of_true rfl ⟨hends, hall⟩, fun _ => hwrote, fun h => absurd h (by decide)⟩

-- One page for the user, at address 0.
def onePage : Kmem :=
  ⟨[], fun page index => if page = 1 ∧ index = 0 then ⟨2, 7⟩ else if page = 2 ∧ index = 0 then ⟨3, 7⟩ else .zero⟩

theorem onePage_userPage (va : Nat) : onePage.userPage 1 va = if PDX va = 0 ∧ PTX va = 0 then some 3 else none := by
  unfold userPage lookup onePage
  by_cases hpdx : PDX va = 0 <;> by_cases hptx : PTX va = 0 <;> simp [hpdx, hptx, Pte.present, Pte.user, Pte.zero]

theorem onePage_proper : onePage.Proper 1 := by
  refine ⟨?_, ?_, ?_⟩
  · intro va page hpage
    rw [onePage_userPage, ite_none_right_eq_some] at hpage
    rw [← some.inj hpage.2]
    decide
  · intro va page hpage i _ hpresent
    rw [onePage_userPage, ite_none_right_eq_some] at hpage
    rw [← some.inj hpage.2]
    by_cases hi : i = 0
    · subst hi
      decide
    · simp [onePage, hi, Pte.present, Pte.zero] at hpresent
  · intro va other page hva hother hpage hpage'
    rw [onePage_userPage, ite_none_right_eq_some] at hpage hpage'
    unfold PDX PTX at hpage hpage'
    unfold PAGE
    omega

theorem copyout_copies_bytes : onePage.Writable 1 4090 3 ∧
    wp (copyout 1 4090 [1, 2, 3]) onePage (onePage.CopiedOut 1 4090 [1, 2, 3]) fun _ => False := by
  have hall : ∀ i < 3, onePage.userPage 1 ((4090 : BitVec 32).toNat + i) ≠ none := by decide
  refine ⟨⟨by decide, hall⟩, (copyout_copies_iff 4090 [1, 2, 3] onePage_proper).mpr ⟨?_, fun h => absurd h (by decide)⟩⟩
  intro i hi
  exact absurd hi.2.1 (hall i hi.1)

-- There is no page table for the second 4 MB.
theorem copyout_null : onePage.Proper 1 ∧ (copyout 1 0x400000 [1]).run onePage = .error .null :=
  ⟨onePage_proper, rfl⟩

end Kmem

end Xv6

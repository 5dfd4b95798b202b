import Mathlib.Data.List.GetD
import Xv6.Exec.Theorems
import Xv6.Fs.Codec
import Xv6.Memory.Theorems
import Xv6.Vm.Copy

namespace Xv6

open BitVec List Multiset Option

variable {r : Nat}

namespace Kmem

variable {mem next : Kmem} {dir : Page} {sz : Nat}

variable {address va : Word} {sp : Nat} {pages : Multiset Page} {stops : VmHalt → Prop}

theorem memory_of_userPage {page : Page} (h : mem.userPage dir address.toNat = some page) :
    mem.memory dir address = mem.byte page (address.toNat % PAGE) := by
  obtain ⟨pte, hlookup, hpte⟩ := bind_eq_some_iff.mp h
  rw [ite_none_right_eq_some] at hpte
  unfold memory
  rw [hlookup]
  exact congrArg (fun page => mem.byte page _) (some.inj hpte.2)

-- What a program sees is on the pages of its page directory.
theorem memory_congr (h : ∀ page ∈ dirPages mem.word dir, next.word page = mem.word page)
    (haddress : address.toNat < KERNBASE) : next.memory dir address = mem.memory dir address := by
  have hlookup : lookup next.word dir address.toNat = lookup mem.word dir address.toNat :=
    lookup_congr (by rw [h dir (mem_dirPages_self _ _)]) fun hpresent => h _ (table_mem_dirPages (PDX_lt _) hpresent)
  unfold memory
  rw [hlookup]
  cases hpte : lookup mem.word dir address.toNat with
  | none => rfl
  | some pte =>
    dsimp only [byte]
    rw [h _ (lookup_mem_dirPages haddress hpte)]

-- What a program sees after bytes were copied to it.
theorem Wrote.memory (hproper : mem.Proper dir) {va : Nat} {buf : List Byte}
    (h : Wrote mem next dir va buf buf.length) (hend : va + buf.length ≤ 2 ^ 32)
    (haddress : mem.userPage dir address.toNat ≠ none) :
    next.memory dir address =
      if va ≤ address.toNat ∧ address.toNat < va + buf.length then buf.getD (address.toNat - va) 0
      else mem.memory dir address := by
  obtain ⟨page, hpage⟩ := ne_none_iff_exists'.mp haddress
  rw [memory_of_userPage ((h.userPage hproper _).trans hpage), memory_of_userPage hpage]
  split_ifs with hin
  · have hat : va + (address.toNat - va) = address.toNat := by omega
    have hbyte := h.bytes hend (address.toNat - va) (by omega) page (by rw [hat]; exact hpage)
    rwa [hat] at hbyte
  · refine h.others page _ fun i hi hother heq => hin ?_
    have hsame := hproper.distinct _ _ page (by omega) address.isLt hother hpage
    have hwhere : va + i = address.toNat := by
      unfold PAGE at hsame heq
      omega
    omega

-- A program of this size, which can access the last page but not the page below it.
structure Stack (mem : Kmem) (dir : Page) (sz : Nat) : Prop where
  aligned : sz % PAGE = 0
  low : 2 * PAGE ≤ sz
  high : sz ≤ KERNBASE
  guard (va : Nat) (hva : sz - 2 * PAGE ≤ va) (hlt : va < sz - PAGE) : mem.userPage dir va = none
  user (va : Nat) (hva : sz - PAGE ≤ va) (hlt : va < sz) : mem.userPage dir va ≠ none

-- Bytes that end up to three below the stack pointer and that the program can access all are on the stack
-- page: if there are too many of them, one is on the page below it.
theorem Stack.fits (h : Stack mem dir sz) {n : Nat} (hlow : sz - PAGE ≤ sp) (hhigh : sp ≤ sz) (hsp : sp % 4 = 0)
    (hn : 0 < n) (hr : r < 4) (hva : (va.toNat + n + r) % 2 ^ 32 = sp)
    (hall : ∀ i < n, mem.userPage dir (va.toNat + i) ≠ none) : sz - PAGE ≤ va.toNat ∧ va.toNat + n + r = sp := by
  obtain ⟨haligned, hsz, huser, hguard, -⟩ := h
  have hlt := va.isLt
  unfold PAGE at haligned hsz hlow hguard ⊢
  unfold KERNBASE at huser
  have hfalse : ∀ i < n, ¬(sz - 2 * 4096 ≤ (va.toNat + i) % 2 ^ 32 ∧ (va.toNat + i) % 2 ^ 32 < sz - 4096) := by
    rintro i hi ⟨hge, hbelow⟩
    refine hall i hi ?_
    have hnone := hguard _ hge hbelow
    have hmod := userPage_mod mem dir (va.toNat + i) 0
    rw [Nat.add_zero, Nat.add_zero] at hmod
    rwa [hmod] at hnone
  by_cases hroom : n + r ≤ sp - (sz - 4096)
  · omega
  · by_cases hempty : sp = sz - 4096
    · exact absurd (by omega) (hfalse (n - 1) (by omega))
    · exact absurd (by omega) (hfalse (n + r - (sp - (sz - 4096)) - 1) (by omega))

-- There is no such byte where the program cannot write if the page has room for them.
theorem Stack.tight (h : Stack mem dir sz) {n : Nat} (hhigh : sp ≤ sz) (hr : r < 4)
    (hva : (va.toNat + n + r) % 2 ^ 32 = sp) {i : Nat} (hstuck : mem.Stuck dir va n i) : sp < sz - PAGE + n + r := by
  by_contra hroom
  obtain ⟨hi, hnone, -⟩ := hstuck
  have hmax := h.high
  have hlt := va.isLt
  unfold KERNBASE at hmax
  exact h.user _ (by omega) (by omega) hnone

-- If copyout succeeds at such an address, the bytes are on the stack page and nothing else there has changed.
theorem Stack.copyout_wp {start : Kmem} (h : Stack mem dir sz) (hloading : Loading start mem dir pages sz)
    (hpages : pages.Nodup) (hlow : sz - PAGE ≤ sp) (hhigh : sp ≤ sz) (hsp : sp % 4 = 0) {p : List Byte}
    (hp : 0 < p.length) (hr : r < 4) (hva : (va.toNat + p.length + r) % 2 ^ 32 = sp) {returns : Int → Kmem → Prop}
    (hnull : sp < sz - PAGE + p.length + r → stops .null)
    (hbad : sp < sz - PAGE + p.length + r → ∀ next, returns (-1) next)
    (hdone : ∀ next, Loading start next dir pages sz → Stack next dir sz → sz - PAGE ≤ va.toNat →
      va.toNat + p.length + r = sp →
      (∀ address : Word, sz - PAGE ≤ address.toNat → address.toNat < sz → next.memory dir address =
        if va.toNat ≤ address.toNat ∧ address.toNat < va.toNat + p.length then p.getD (address.toNat - va.toNat) 0
        else mem.memory dir address) → returns 0 next) : Action.wp (copyout dir va p) mem returns stops := by
  have hproper := hloading.dir.proper hpages hloading.upper
  refine Kmem.copyout_wp hproper (fun i hi _ => hnull (h.tight hhigh hr hva hi)) ?_ fun hall next hwrote => ?_
  · exact fun i hi _ next _ => hbad (h.tight hhigh hr hva hi) next
  · obtain ⟨hstack, hends⟩ := h.fits hlow hhigh hsp hp hr hva hall
    have huser := hwrote.userPage hproper
    have hmax := h.high
    unfold KERNBASE at hmax
    refine hdone next (hloading.writes hpages (hloading.wrote hwrote)) ?_ hstack hends fun address hge hlt => ?_
    · refine ⟨h.aligned, h.low, h.high, fun other hge hlt => ?_, fun other hge hlt => ?_⟩
      · exact (huser other).trans (h.guard other hge hlt)
      · rw [huser other]
        exact h.user other hge hlt
    · exact hwrote.memory hproper (by omega) (h.user _ hge hlt)

-- The page at a page address is not for the program any more.
theorem clearpteu_guard_wp {start : Kmem} (h : Loading start mem dir pages sz) (hpages : pages.Nodup) {va : Nat}
    (hva : va < sz) (halign : va % PAGE = 0) {returns : Unit → Kmem → Prop}
    (hreturns : ∀ next, Loading start next dir pages sz →
      (∀ other < 2 ^ 32, next.userPage dir other =
        if va ≤ other ∧ other < va + PAGE then none else mem.userPage dir other) → returns () next) :
    Action.wp (clearpteu dir va) mem returns stops := by
  obtain ⟨pte, hpte⟩ := h.lookup hva
  obtain ⟨hpresent, hentry, -⟩ := lookup_eq_some_iff.mp hpte
  have huser : va < KERNBASE := hva.trans_le h.whole.fits
  unfold clearpteu
  rw [Action.wp_bind]
  refine walkpgdir_find_wp (fun habsent => absurd hpresent habsent) fun _ => ?_
  rw [Action.wp_modify]
  refine hreturns _ (h.clear hpages huser hpresent hentry) fun other hother => ?_
  have hcleared : (cleared (mem.word (mem.word dir (PDX va)).page (PTX va))).user = false := by
    simp [cleared, Pte.user, PTE_U]
  have hplace : (PDX other = PDX va ∧ PTX other = PTX va) ↔ va ≤ other ∧ other < va + PAGE := by
    rw [same_entry_iff (huser.trans (by decide)) hother]
    unfold PAGE at halign ⊢
    omega
  rw [userPage, h.dir.setWord_lookup hpages (PDX_lt va) hpresent]
  by_cases hsame : va ≤ other ∧ other < va + PAGE
  · rw [if_pos hsame, if_pos (hplace.mpr hsame)]
    split_ifs
    · exact if_neg (ne_true_of_eq_false hcleared)
    · rfl
  · rw [if_neg hsame, if_neg (mt hplace.mp hsame)]
    rfl

-- The pages that allocuvm has mapped are for the program.
theorem Grows.userPage {lo hi va : Nat} (h : Grows mem next dir lo hi) (hlt : va < 2 ^ 32) (hlo : lo ≤ va)
    (hhi : va < hi) : next.userPage dir va ≠ none := by
  have hva := h va hlt
  rw [if_pos ⟨hlo, hhi⟩] at hva
  obtain ⟨page, hpage⟩ := hva
  rw [Kmem.userPage, hpage, bind_some, if_pos (by simp [Pte.user, PTE_U, PTE_W, PTE_P])]
  exact some_ne_none page

end Kmem

namespace Execs

open Xv6.Action

-- Strings on the stack page above the stack pointer, one below the other.
structure Pushed (memory : Memory) (sz : Nat) (sp : Word) (strings : List (Word × List Byte)) : Prop where
  low : sz - PAGE ≤ sp.toNat
  high : sp.toNat ≤ sz
  aligned : sp.toNat % 4 = 0
  above (string : Word × List Byte) (hstring : string ∈ strings) :
    sp.toNat ≤ string.1.toNat ∧ string.1.toNat + string.2.length + 1 ≤ sz
  order : strings.Pairwise fun first second => second.1.toNat + second.2.length + 1 ≤ first.1.toNat
  bytes (string : Word × List Byte) (hstring : string ∈ strings) (k : Nat) (hk : k ≤ string.2.length) :
    memory (string.1 + BitVec.ofNat 32 k) = (string.2 ++ [0]).getD k 0

variable {memory next : Memory} {sz : Nat} {sp va : Word} {strings : List (Word × List Byte)}

-- What is below the stack pointer does not matter.
theorem Pushed.congr (h : Pushed memory sz sp strings) (hsz : sz ≤ KERNBASE)
    (hnext : ∀ address : Word, sp.toNat ≤ address.toNat → address.toNat < sz → next address = memory address)
    (string : Word × List Byte) (hstring : string ∈ strings) (k : Nat) (hk : k ≤ string.2.length) :
    next (string.1 + BitVec.ofNat 32 k) = (string.2 ++ [0]).getD k 0 := by
  obtain ⟨hlow, hhigh⟩ := h.above string hstring
  unfold KERNBASE at hsz
  have hplace : (string.1 + BitVec.ofNat 32 k).toNat = string.1.toNat + k := by
    rw [toNat_add, toNat_ofNat]
    omega
  rw [hnext _ (by omega) (by omega)]
  exact h.bytes string hstring k hk

theorem Pushed.push (h : Pushed memory sz sp strings) (hsz : sz ≤ KERNBASE) {arg : List Byte}
    (hlow : sz - PAGE ≤ va.toNat) (haligned : va.toNat % 4 = 0) (hends : va.toNat + (arg.length + 1) + r = sp.toNat)
    (hnext : ∀ address : Word, sz - PAGE ≤ address.toNat → address.toNat < sz → next address =
      if va.toNat ≤ address.toNat ∧ address.toNat < va.toNat + (arg.length + 1) then
        (arg ++ [0]).getD (address.toNat - va.toNat) 0
      else memory address) : Pushed next sz va (strings ++ [(va, arg)]) := by
  have hhigh := h.high
  have hlow' := h.low
  unfold KERNBASE at hsz
  refine ⟨hlow, by omega, haligned, ?_, ?_, ?_⟩
  · intro string hstring
    rcases List.mem_append.mp hstring with hstring | hstring
    · have habove := h.above string hstring
      omega
    · obtain rfl := List.mem_singleton.mp hstring
      exact ⟨Nat.le_refl _, by dsimp only; omega⟩
  · refine List.pairwise_append.mpr ⟨h.order, List.pairwise_singleton _ _, fun string hstring new hnew => ?_⟩
    obtain rfl := List.mem_singleton.mp hnew
    have habove := h.above string hstring
    dsimp only
    omega
  · intro string hstring
    rcases List.mem_append.mp hstring with hstring | hstring
    · refine h.congr hsz (fun address hge hlt => ?_) string hstring
      rw [hnext address (by omega) hlt, if_neg (by omega)]
    · obtain rfl := List.mem_singleton.mp hstring
      intro k hk
      dsimp only at hk ⊢
      have hplace : (va + BitVec.ofNat 32 k).toNat = va.toNat + k := by
        rw [BitVec.toNat_add, BitVec.toNat_ofNat]
        omega
      rw [hnext _ (by omega) (by omega), if_pos (by omega), hplace, Nat.add_sub_cancel_left]

variable {argv : List (List Byte)} {kernel : KernelImage} {start execs : Execs} {path : List Byte}

section Push

variable {kernel : KernelImage} {start execs : Execs} {dir : Page}

-- No more than this is taken from the stack page, as the stack pointer is rounded down after each string.
def stringBytes : List (List Byte) → Nat
  | [] => 0
  | arg :: rest => arg.length + 4 + stringBytes rest

-- What pushArgs returns if it succeeds: the stack pointer and the addresses of the strings. If the arguments are
-- not too large for this, there are so many bytes below the stack pointer.
def PushedAll (start : Execs) (dir : Page) (sz : Nat) (argv : List (List Byte)) (room : Nat) (large : Prop) :
    Option (Word × List Word) → Execs → Prop
  | none, _ => large
  | some (sp, ustack), next => Loads start next dir sz ∧ next.mem.Stack dir sz ∧ (sp.toNat < sz - PAGE + room → large) ∧
      ∃ strings, Pushed (next.mem.memory dir) sz sp strings ∧ strings.map Prod.fst = ustack ∧
        strings.map Prod.snd = argv

-- By induction on the arguments: each string goes below those before it, at a multiple of four.
theorem pushArgs_stack_wp (hhanded : Handed kernel start.mem.freelist) (h : Loads start execs dir sz)
    (hstack : execs.mem.Stack dir sz) (hpushed : Pushed (execs.mem.memory dir) sz sp strings) (room : Nat)
    (large : Prop) (hmany : MAXARG < strings.length + argv.length → large)
    (hlarge : sp.toNat < sz - PAGE + stringBytes argv + room → large) :
    wp (pushArgs dir argv sp (strings.map Prod.fst)) execs
      (PushedAll start dir sz (strings.map Prod.snd ++ argv) room large) fun _ => large := by
  induction argv generalizing execs sp strings with
  | nil =>
    rw [stringBytes, Nat.add_zero] at hlarge
    exact ⟨h, hstack, hlarge, strings, hpushed, rfl, (List.append_nil _).symm⟩
  | cons arg rest ih =>
    rw [List.length_cons] at hmany
    rw [stringBytes] at hlarge
    simp only [pushArgs, wp_ite, wp_pure, wp_bind, vm, wp_within]
    split_ifs with hcount
    · rw [List.length_map] at hcount
      exact hmany (by omega)
    · obtain ⟨x, hx⟩ : ∃ x, sp - BitVec.ofNat 32 (arg.length + 1) = x := ⟨_, rfl⟩
      have hround : (x &&& ~~~3).toNat = x.toNat / 2 ^ 2 * 2 ^ 2 := Memory.toNat_and_not_mask x 2
      have hlength : (arg ++ [0]).length = arg.length + 1 := List.length_append
      have hva : ((x &&& ~~~3).toNat + (arg ++ [0]).length + x.toNat % 4) % 2 ^ 32 = sp.toNat := by
        have hlt := sp.isLt
        rw [hlength, hround, ← hx, BitVec.toNat_sub, BitVec.toNat_ofNat]
        omega
      have hrest : x.toNat % 4 < 4 := Nat.mod_lt _ (by decide)
      have hlow := hpushed.low
      rw [hx]
      refine hstack.copyout_wp h.loading hhanded.nodup hpushed.low hpushed.high hpushed.aligned
        (by rw [hlength]; omega) hrest hva (fun htight => hlarge ?_) (fun htight mem => ?_)
        fun mem hmem hnext hlow hends hbytes => ?_
      · rw [hlength] at htight
        omega
      · rw [if_pos (by decide)]
        rw [hlength] at htight
        exact hlarge (by omega)
      · rw [if_neg (by decide)]
        rw [hlength] at hends
        have hpush := hpushed.push hstack.high hlow (by rw [hround]; omega) hends (by simpa only [hlength] using hbytes)
        have hlength' : (strings ++ [(x &&& ~~~3, arg)]).length = strings.length + 1 := by simp
        have hih := ih (h.setMem hmem) hnext hpush (fun hlt => hmany (by omega)) fun hlt => hlarge (by omega)
        simp only [List.map_append, List.map_cons, List.map_nil, List.append_assoc, List.singleton_append] at hih
        exact hih

end Push

-- The words of the frame, byte by byte.
theorem flatMap_getD (words : List Word) {j b : Nat} (hj : j < words.length) (hb : b < 4) :
    (words.flatMap fun word => (List.range 4).map (byteOf word)).getD (4 * j + b) 0 = byteOf (words.getD j 0) b := by
  induction words generalizing j with
  | nil => exact absurd hj (Nat.not_lt_zero j)
  | cons word rest ih =>
    have hlength : ((List.range 4).map (byteOf word)).length = 4 := by simp
    rw [flatMap_cons]
    cases j with
    | zero =>
      rw [getD_append _ _ _ _ (by omega)]
      simp [getD_eq_getElem?_getD, hb]
    | succ j =>
      have hrest : 4 * (j + 1) + b - 4 = 4 * j + b := by omega
      rw [getD_append_right _ _ _ _ (by omega), hlength, hrest, ih (by simpa using hj)]
      rfl

theorem flatMap_length (words : List Word) :
    (words.flatMap fun word => (List.range 4).map (byteOf word)).length = 4 * words.length := by
  induction words with
  | nil => rfl
  | cons word rest ih =>
    rw [flatMap_cons, length_append, ih, length_map, length_range, length_cons]
    omega

theorem readWord_flatMap {words : List Word}
    (h : ∀ k < 4 * words.length, memory (va + BitVec.ofNat 32 k) =
      (words.flatMap fun word => (List.range 4).map (byteOf word)).getD k 0) {j : Nat} (hj : j < words.length) :
    memory.readWord (va + BitVec.ofNat 32 (4 * j)) = words.getD j 0 := by
  have hbyte : ∀ b < 4, memory (va + BitVec.ofNat 32 (4 * j) + BitVec.ofNat 32 b) = byteOf (words.getD j 0) b := by
    intro b hb
    rw [BitVec.add_assoc, ← BitVec.ofNat_add, h _ (by omega)]
    exact flatMap_getD words hj hb
  have hzero := hbyte 0 (by decide)
  rw [BitVec.ofNat_eq_ofNat, BitVec.add_zero] at hzero
  unfold Memory.readWord
  rw [hzero]
  refine Eq.trans ?_ (word_byteOf _)
  rw [← hbyte 1 (by decide), ← hbyte 2 (by decide), ← hbyte 3 (by decide)]
  rfl

-- The i-th word of the array that the second argument points to.
def argvAt (memory : Memory) (esp : Word) (i : Nat) : Word :=
  memory.readWord (memory.readWord (esp + 8) + BitVec.ofNat 32 (4 * i))

-- What a program finds from its stack pointer on: a return address, argc and argv. The array and the strings
-- are one above the other on the stack page.
structure ArgsRead (memory : Memory) (sz : Nat) (esp : Word) (argv : List (List Byte)) : Prop where
  pc : memory.readWord esp = 0xffffffff
  argc : memory.readWord (esp + 4) = BitVec.ofNat 32 argv.length
  null : argvAt memory esp argv.length = 0
  text (i : Nat) (hi : i < argv.length) (k : Nat) (hk : k ≤ argv[i].length) :
    memory (argvAt memory esp i + BitVec.ofNat 32 k) = (argv[i] ++ [0]).getD k 0
  low : sz - PAGE ≤ esp.toNat
  array : (memory.readWord (esp + 8)).toNat = esp.toNat + 12
  high : esp.toNat + 12 + 4 * (argv.length + 1) ≤ sz
  above (i : Nat) (hi : i < argv.length) : esp.toNat + 12 + 4 * (argv.length + 1) ≤ (argvAt memory esp i).toNat ∧
    (argvAt memory esp i).toNat + argv[i].length + 1 ≤ sz
  order (i j : Nat) (hij : i < j) (hj : j < argv.length) :
    (argvAt memory esp j).toNat + argv[j].length + 1 ≤ (argvAt memory esp i).toNat

theorem frame_length (sp : Word) (pointers : List Word) :
    (frame sp pointers).length = (3 + pointers.length + 1) * 4 := by
  rw [frame, flatMap_length]
  simp only [length_append, length_cons, length_nil]
  omega

theorem Pushed.args (h : Pushed memory sz sp strings) (hsz : sz ≤ KERNBASE) (hlow : sz - PAGE ≤ va.toNat)
    (hends : va.toNat + (3 + strings.length + 1) * 4 = sp.toNat)
    (hnext : ∀ address : Word, sz - PAGE ≤ address.toNat → address.toNat < sz → next address =
      if va.toNat ≤ address.toNat ∧ address.toNat < va.toNat + (3 + strings.length + 1) * 4 then
        (frame sp (strings.map Prod.fst)).getD (address.toNat - va.toNat) 0
      else memory address) : ArgsRead next sz va (strings.map Prod.snd) := by
  have hhigh := h.high
  have hmax := hsz
  unfold KERNBASE at hmax
  generalize hwords : [0xffffffff, BitVec.ofNat 32 (strings.map Prod.fst).length,
    sp - (BitVec.ofNat 32 (strings.map Prod.fst).length + 1) * 4] ++ strings.map Prod.fst ++ [0] = words
  have hlength : words.length = 3 + strings.length + 1 := by
    rw [← hwords]
    simp only [List.length_append, List.length_cons, List.length_nil, List.length_map]
  have hword : ∀ j < words.length, next.readWord (va + BitVec.ofNat 32 (4 * j)) = words.getD j 0 := by
    intro j hj
    refine readWord_flatMap (fun k hk => ?_) hj
    have hplace : (va + BitVec.ofNat 32 k).toNat = va.toNat + k := by
      rw [BitVec.toNat_add, BitVec.toNat_ofNat]
      omega
    rw [hnext _ (by omega) (by omega), if_pos (by omega), hplace, Nat.add_sub_cancel_left, ← hwords]
    rfl
  have harray : next.readWord (va + 8) = va + 12 := by
    have hthird := hword 2 (by omega)
    rw [← hwords, List.length_map] at hthird
    have hvalue : sp - (BitVec.ofNat 32 strings.length + 1) * 4 = va + 12 := by
      refine BitVec.eq_of_toNat_eq ?_
      rw [BitVec.toNat_sub, BitVec.toNat_mul, BitVec.toNat_add, BitVec.toNat_add, BitVec.toNat_ofNat]
      simp only [BitVec.reduceToNat]
      omega
    exact hthird.trans hvalue
  have hpointer : ∀ i ≤ strings.length, argvAt next va i = words.getD (3 + i) 0 := by
    intro i hi
    rw [argvAt, harray, ← hword (3 + i) (by omega)]
    refine congrArg _ (BitVec.eq_of_toNat_eq ?_)
    simp only [BitVec.toNat_add, BitVec.toNat_ofNat, BitVec.reduceToNat]
    omega
  have hat : ∀ i (hi : i < strings.length), argvAt next va i = strings[i].1 := by
    intro i hi
    have hentry : words.getD (3 + i) 0 = strings[i].1 := by
      rw [← hwords, List.append_assoc, List.getD_append_right _ _ _ _ (by simp), List.getD_append _ _ _ _ (by simpa)]
      simp [List.getD_eq_getElem?_getD, hi]
    rw [hpointer i hi.le, hentry]
  refine ⟨?_, ?_, ?_, ?_, hlow, ?_, ?_, ?_, ?_⟩
  · have hfirst := hword 0 (by omega)
    rw [← hwords, Nat.mul_zero, BitVec.ofNat_eq_ofNat, BitVec.add_zero] at hfirst
    exact hfirst
  · have hsecond := hword 1 (by omega)
    rw [← hwords] at hsecond
    rw [List.length_map] at hsecond ⊢
    exact hsecond
  · have hsame : (3 + strings.length) - ([0xffffffff, BitVec.ofNat 32 (strings.map Prod.fst).length,
        sp - (BitVec.ofNat 32 (strings.map Prod.fst).length + 1) * 4] ++ strings.map Prod.fst).length = 0 := by
      simp only [List.length_append, List.length_cons, List.length_nil, List.length_map]
      omega
    rw [List.length_map, hpointer _ (Nat.le_refl _), ← hwords,
      List.getD_append_right _ _ _ _ (Nat.le_of_sub_eq_zero ?_),
      hsame]
    · rfl
    · simp only [List.length_append, List.length_cons, List.length_nil, List.length_map]
      omega
  · intro i hi k hk
    rw [List.length_map] at hi
    rw [List.getElem_map] at hk ⊢
    rw [hat i hi]
    refine h.congr hsz (fun address hge hlt => ?_) strings[i] (List.getElem_mem hi) k hk
    rw [hnext address (by omega) hlt, if_neg (by omega)]
  · rw [harray, BitVec.toNat_add]
    simp only [BitVec.reduceToNat]
    omega
  · rw [List.length_map]
    omega
  · intro i hi
    rw [List.length_map] at hi ⊢
    rw [List.getElem_map, hat i hi]
    have habove := h.above strings[i] (List.getElem_mem hi)
    omega
  · intro i j hij hj
    rw [List.length_map] at hj
    rw [List.getElem_map, hat j hj, hat i (by omega)]
    exact List.pairwise_iff_getElem.mp h.order i j (by omega) hj hij

-- The strings and what is below them are too large for one page, or there are too many of them.
def Large (argv : List (List Byte)) : Prop :=
  MAXARG < argv.length ∨ PAGE < stringBytes argv + (3 + argv.length + 1) * 4

-- What setupStack returns if it succeeds: the size and the stack pointer.
def StackMade (start : Execs) (dir : Page) (argv : List (List Byte)) (fails : Prop) : Option (Nat × Word) → Execs → Prop
  | none, _ => fails
  | some (sz, sp), next => Loads start next dir sz ∧ ArgsRead (next.mem.memory dir) sz sp argv

-- It fails only if there is not enough memory, or if the arguments are too large.
theorem setupStack_args_wp {dir : Page} (hhanded : Handed kernel start.mem.freelist) (argv : List (List Byte))
    (h : Loads start execs dir sz) {fails : Prop} (hsz : KERNBASE ≤ PGROUNDUP sz + 2 * PAGE → fails)
    (hroom : execs.mem.room dir < NPDENTRIES + 2 → fails) (hlarge : Large argv → fails) :
    wp (setupStack kernel dir argv sz) execs (StackMade start dir argv fails) fun _ => fails := by
  have h : Loads start execs dir (PGROUNDUP sz) := ⟨h.toUnchanged, h.loading.round⟩
  have haligned : PGROUNDUP sz % PAGE = 0 := Nat.mul_mod_left _ _
  unfold setupStack
  generalize PGROUNDUP sz = sz at h haligned hsz ⊢
  generalize hnewsz : sz + 2 * PAGE = newsz at hsz ⊢
  have hold : PGROUNDUP sz = sz := by
    unfold PAGE at haligned
    unfold PGROUNDUP PAGE
    omega
  have hnew : PGROUNDUP newsz = newsz := by
    unfold PAGE at haligned hnewsz
    unfold PGROUNDUP PAGE
    omega
  simp only [wp_bind, vm, wp_within, wp_ite, wp_pure]
  refine Kmem.allocuvm_wp hhanded h.loading.dir ?_ fun size mem hdir hframe halloced => ?_
  · rintro ⟨va, hva, hge, hmapped⟩
    have hlt : va < PGROUNDUP sz := (h.loading.whole.mapped va hva).mp hmapped
    omega
  split_ifs with hzero
  · cases halloced with
    | large hge => exact hsz hge
    | smaller hlt => omega
    | grown => unfold PAGE at hnewsz; omega
    | short _ _ hshort =>
      refine hroom ?_
      rw [hold, hnew, ← hnewsz, Nat.add_sub_cancel_left] at hshort
      exact hshort
  · have hloading := (h.loading.alloced halloced hdir hframe hzero).1
    obtain ⟨rfl, hmax, hgrows⟩ : size = newsz ∧ newsz < KERNBASE ∧
        Kmem.Grows execs.mem mem dir (PGROUNDUP sz) (PGROUNDUP newsz) := by
      cases halloced with
      | large | short => exact absurd rfl hzero
      | smaller hlt => omega
      | grown _ hlt hgrows => exact ⟨rfl, hlt, hgrows⟩
    rw [hold, hnew] at hgrows
    unfold PAGE at hnewsz haligned
    refine Kmem.clearpteu_guard_wp hloading hhanded.nodup (by unfold PAGE; omega) (by unfold PAGE; omega)
      fun mem hmem huser => ?_
    have hsmall := hmax
    unfold KERNBASE at hsmall
    have hstack : mem.Stack dir size := by
      refine ⟨by unfold PAGE; omega, by unfold PAGE; omega, hmax.le, fun va hva hlt => ?_, fun va hva hlt => ?_⟩
      · unfold PAGE at huser hva hlt
        rw [huser va (by omega), if_pos (by omega)]
      · unfold PAGE at huser hva
        rw [huser va (by omega), if_neg (by omega)]
        exact hgrows.userPage (by omega) (by omega) (by omega)
    have hto : (BitVec.ofNat 32 size).toNat = size := by
      rw [toNat_ofNat]
      omega
    have hnothing : Pushed (mem.memory dir) size (BitVec.ofNat 32 size) [] := by
      refine ⟨by rw [hto]; omega, by rw [hto], by rw [hto]; omega, ?_, .nil, ?_⟩
      · exact fun _ hstring => absurd hstring (by simp)
      · exact fun _ hstring => absurd hstring (by simp)
    refine (pushArgs_stack_wp hhanded (h.setMem hmem) hstack hnothing ((3 + argv.length + 1) * 4) (Large argv)
      (fun hmany => .inl ?_) fun hbytes => .inr ?_).mono ?_ fun _ => hlarge
    · simpa using hmany
    · rw [hto] at hbytes
      have hlow := hstack.low
      unfold PAGE at hbytes hlow ⊢
      omega
    intro pushed next hpushed
    cases pushed with
    | none => exact hlarge hpushed
    | some pushed =>
      obtain ⟨sp, pointers⟩ := pushed
      obtain ⟨hloads, hstack, htight, strings, hpushed, rfl, rfl⟩ := hpushed
      have hlength := frame_length sp (strings.map Prod.fst)
      rw [length_map] at hlength htight
      simp only [wp_bind, wp_within, length_map]
      refine hstack.copyout_wp hloads.loading hhanded.nodup hpushed.low hpushed.high hpushed.aligned
        (by rw [hlength]; omega) (by decide : 0 < 4) ?_ (fun hlt => hlarge ?_) (fun hlt mem => ?_)
        fun mem hmem hnext hlow hends hbytes => ?_
      · have hlt := sp.isLt
        rw [hlength, toNat_sub, toNat_ofNat]
        omega
      · rw [hlength, Nat.add_zero] at hlt
        exact htight hlt
      · rw [if_pos (by decide)]
        rw [hlength, Nat.add_zero] at hlt
        exact hlarge (htight hlt)
      · rw [if_neg (by decide)]
        rw [hlength] at hends
        simp only [hlength] at hbytes
        exact ⟨hloads.setMem hmem, hpushed.args hmax.le hlow hends hbytes⟩

-- The pages of the old directory are freed, and the new one does not have any of them.
theorem commit_args_wp {dir : Page} {entry : Word}
    (hhanded : Handed kernel ((start.mem.freelist : Multiset Page) + dirPages start.mem.word start.pgdir))
    (h : Loads start execs dir sz) (hargs : ArgsRead (execs.mem.memory dir) sz sp argv) :
    wp (commit kernel path dir entry sz sp) execs
      (fun result next => result = 0 ∧ ArgsRead next.proc.memory next.proc.sz.toNat next.proc.tf.esp argv ∧
        ∀ address : Word, address.toNat < KERNBASE →
          next.mem.memory next.pgdir address = next.proc.memory address) fun _ => False := by
  obtain ⟨hfree, -, hdisjoint⟩ := nodup_add.mp hhanded.nodup
  have hold : dirPages execs.mem.word start.pgdir = dirPages start.mem.word start.pgdir :=
    dirPages_congr fun page hpage => h.loading.frame page (disjoint_right.mp hdisjoint hpage)
  have hpages : (execs.mem.freelist : Multiset Page) + dirPages execs.mem.word dir = start.mem.freelist := by
    rw [← add_zero (_ + _)]
    exact h.loading.dir
  have hdir : execs.mem.Dir start.pgdir 0 (execs.mem.freelist + dirPages start.mem.word start.pgdir) := by
    rw [Kmem.Dir, hold, add_zero]
  have hle : (execs.mem.freelist : Multiset Page) + dirPages start.mem.word start.pgdir ≤
      start.mem.freelist + dirPages start.mem.word start.pgdir := by
    rw [← hpages]
    exact add_le_add_left (le_add_right _ _) _
  have hnew : ∀ page ∈ dirPages execs.mem.word dir,
      page ∉ (execs.mem.freelist : Multiset Page) + dirPages start.mem.word start.pgdir := by
    intro page hpage hmem
    rcases mem_add.mp hmem with hmem | hmem
    · rw [← hpages] at hfree
      exact disjoint_left.mp (nodup_add.mp hfree).2.2 hmem hpage
    · exact disjoint_left.mp hdisjoint (h.loading.dir.dir_mem hpage) hmem
  have hsz : (BitVec.ofNat 32 sz).toNat = sz := by
    have hfits : sz ≤ KERNBASE := h.loading.whole.fits
    unfold KERNBASE at hfits
    rw [toNat_ofNat]
    omega
  simp only [commit, wp_bind, wp_get, wp_modify, vm, wp_within, wp_pure]
  rw [h.pgdir]
  refine Kmem.freevm_wp (hhanded.mono hle) hdir fun mem _ hframe => ⟨trivial, ?_, fun address haddress => ?_⟩
  · dsimp only [Proc.exec]
    rw [hsz]
    exact hargs
  · exact Kmem.memory_congr (fun page hpage => hframe page (hnew page hpage)) haddress

theorem exec_args {kernel : KernelImage} {start : Execs} (cwd : Fin NINODE) (path : List Byte)
    (argv : List (List Byte)) (input : Nat → Nat → Option (List Byte))
    (hhanded : Handed kernel ((start.mem.freelist : Multiset Page) + dirPages start.mem.word start.pgdir)) :
    wp (exec kernel cwd path argv input) start
      (fun result next => result = 0 → ArgsRead next.proc.memory next.proc.sz.toNat next.proc.tf.esp argv ∧
        ∀ address : Word, address.toNat < KERNBASE →
          next.mem.memory next.pgdir address = next.proc.memory address) fun _ => True := by
  have hfree : Handed kernel start.mem.freelist := hhanded.mono (le_add_right _ _)
  refine exec_wp hfree (fun next _ hresult => absurd hresult (by decide)) fun execs dir sz h => ?_
  have hargs : wp (setupStack kernel dir argv sz) execs (StackMade start dir argv True) fun _ => True :=
    setupStack_args_wp hfree argv h (fun _ => trivial) (fun _ => trivial) fun _ => trivial
  refine ((setupStack_wp hfree h).and hargs).mono (fun made next hnext => ⟨fun _ => hnext.1, ?_⟩) fun _ _ => trivial
  rintro sz sp entry rfl
  obtain ⟨-, hloads, hread⟩ := hnext
  exact (commit_args_wp hhanded hloads hread).mono (fun _ _ hcommit _ => hcommit.2) fun _ hfalse => hfalse.elim

-- What exec does with the file of a program that has nothing to load.
def readProgram (cwd : Fin NINODE) (path header : List Byte) : Fs.M Unit := do
  match ← Fs.namei cwd path with
  | none => throw .ilock
  | some ip => do
      Fs.ilock ip
      if (← Fs.readi none ip 0 52) ≠ some header then throw .ilock
      Fs.iunlockput ip

-- Such a program runs if there are enough free pages.
theorem exec_succeeds {cwd : Fin NINODE} {header : List Byte}
    (hhanded : Handed kernel ((start.mem.freelist : Multiset Page) + dirPages start.mem.word start.pgdir))
    (hfile : wp (readProgram cwd path header) start.fs (fun _ _ => True) fun _ => False)
    (hlength : header.length = 52) (hmagic : Bytes.word (fun i => header.getD i 0) 0 = Fs.ELF_MAGIC)
    (hphnum : Bytes.half (fun i => header.getD i 0) 44 = 0) (hpages : NPDENTRIES + 2 < start.mem.freelist.length)
    (hlarge : ¬Large argv) : ∃ next, (exec kernel cwd path argv fun _ _ => none).run start = .ok (0, next) := by
  have hfree : Handed kernel start.mem.freelist := hhanded.mono (le_add_right _ _)
  have hexec : wp (exec kernel cwd path argv fun _ _ => none) start (fun result _ => result = 0) fun _ => False := by
    unfold exec
    unfold readProgram at hfile
    simp only [beginOp, wp_bind, wp_modify, fsCall, wp_within] at hfile ⊢
    refine hfile.imp fun found fs hfile => ?_
    cases found with
    | none => exact hfile.elim
    | some ip =>
      simp only [wp_bind, wp_within, readHeader, fsCall] at hfile ⊢
      refine hfile.imp fun _ fs hfile => ?_
      refine hfile.imp fun elf fs hfile => ?_
      rw [wp_ite] at hfile
      split_ifs at hfile with helf
      · exact hfile.elim
      · obtain rfl := not_not.mp helf
        simp only [hlength, hmagic, hphnum, ne_eq, not_true_eq_false, if_false, wp_pure, wp_bind, vm, wp_within]
        refine Kmem.setupkvm_maps_wp hfree (add_zero _) fun made mem hmade hframe hmaps hroom => ?_
        cases made with
        | none =>
          have hfew : start.mem.freelist.length ≤ NPDENTRIES := hroom
          omega
        | some dir =>
          have hroom : mem.room dir + 1 = start.mem.freelist.length := hroom
          have hload : List.range (0 : BitVec 16).toNat = [] := rfl
          simp only [hload, loadSegments, wp_bind, wp_pure, putInode, fsCall, wp_within, endOp, wp_modify]
          refine hfile.imp fun _ fs _ => ?_
          have hfresh : mem.Fresh dir := .of_maps (hmaps dir rfl)
          have hloads : Loads start { start with fs, outstanding := start.outstanding + 1 - 1, mem } dir 0 :=
            ⟨⟨rfl, rfl, rfl⟩, hfresh.loading hmade hframe⟩
          have hstack : wp (setupStack kernel dir argv 0) _ (StackMade start dir argv False) fun _ => False :=
            setupStack_args_wp hfree argv hloads (by decide) (fun hlt => ?_) hlarge
          · refine hstack.imp fun made next hmade => ?_
            cases made with
            | none => exact hmade.elim
            | some made => exact (commit_args_wp hhanded hmade.1 hmade.2).imp fun _ _ h => h.1
          · dsimp only at hlt
            omega
  rcases hexec.run with ⟨result, next, hrun, rfl⟩ | ⟨_, _, hfalse⟩
  · exact ⟨next, hrun⟩
  · exact hfalse.elim

-- The header of a program that has nothing to load.
def progHeader : List Byte := [0x7f, 0x45, 0x4c, 0x46] ++ List.replicate 48 0

-- The disk that mkfs makes if it is given such a program, with the name "a".
def progDisk (bno : Nat) : Bytes :=
  if bno = Fs.mkfsSuperblock.IBLOCK 2 then
    Bytes.setDinode (Fs.mkfsDisk bno) 2 ⟨T_FILE, 0, 0, 1, 52, Function.update (fun _ => 0) 0 60⟩
  else if bno = Fs.mkfsSuperblock.bmapstart then Bytes.setBit (Fs.mkfsDisk bno) 60
  else if bno = 59 then Bytes.setBytes (Fs.mkfsDisk bno) 32 (Fs.Dirent.encode 2 [97])
  else if bno = 60 then Bytes.setBytes (fun _ => 0) 0 progHeader
  else Fs.mkfsDisk bno

-- A process whose page directory is empty, and enough free pages.
def emptyDirectory : Execs :=
  ⟨{ Fs.mkfs with disk := progDisk }, 0, ⟨Kmem.manyPages.freelist, fun _ _ => .zero⟩, 0x700, .zero, []⟩

theorem emptyDirectory_handed : Handed Vm.smallKernel
    ((emptyDirectory.mem.freelist : Multiset Page) + dirPages emptyDirectory.mem.word emptyDirectory.pgdir) := by
  have hdir : dirPages emptyDirectory.mem.word emptyDirectory.pgdir = {0x700} := by
    rw [Kmem.dirPages_of_unmapped fun va _ => lookup_of_absent Pte.not_present_zero]
    refine congrArg _ (List.sum_eq_zero fun page hpage => ?_)
    obtain ⟨i, -, rfl⟩ := List.mem_map.mp hpage
    exact Pte.pages_of_not_present Pte.not_present_zero
  rw [hdir]
  refine ⟨Multiset.nodup_add.mpr ⟨Kmem.manyPages_handed.nodup, Multiset.nodup_singleton _, ?_⟩, fun page hpage => ?_⟩
  · rw [Multiset.disjoint_singleton]
    intro hmem
    exact absurd (Kmem.mem_manyPages.mp hmem).2 (by decide)
  · rcases Multiset.mem_add.mp hpage with hmem | hmem
    · exact Kmem.manyPages_handed.owns page hmem
    · rw [Multiset.mem_singleton.mp hmem]
      unfold KernelImage.Owns
      decide

theorem exec_args_program : ∃ next, (exec Vm.smallKernel 0 [97] [[97], [98, 99]] fun _ _ => none).run emptyDirectory =
      .ok (0, next) ∧ ArgsRead next.proc.memory next.proc.sz.toNat next.proc.tf.esp [[97], [98, 99]] ∧
    ∀ address : Word, address.toNat < KERNBASE → next.mem.memory next.pgdir address = next.proc.memory address := by
  have hfile : wp (readProgram 0 [97] progHeader) emptyDirectory.fs (fun _ _ => True) fun _ => False := by
    have hrun : ((readProgram 0 [97] progHeader).run emptyDirectory.fs).toOption.map (·.1) = some () := by
      decide +kernel
    obtain ⟨pair, hpair, -⟩ := map_eq_some_iff.mp hrun
    unfold wp
    rw [run_of_toOption hpair]
    trivial
  have hpages : NPDENTRIES + 2 < emptyDirectory.mem.freelist.length := by
    unfold emptyDirectory
    rw [Kmem.manyPages_freelist, length_range']
    decide
  have hlarge : ¬Large [[97], [98, 99]] := by
    unfold Large
    decide
  have hhanded := emptyDirectory_handed
  generalize emptyDirectory = start at hfile hpages hhanded ⊢
  obtain ⟨next, hrun⟩ := exec_succeeds hhanded hfile (by decide) (by decide) (by decide) hpages hlarge
  exact ⟨next, hrun, (exec_args 0 [97] _ _ hhanded).returned hrun rfl⟩

end Execs

end Xv6

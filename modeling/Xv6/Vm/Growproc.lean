import Xv6.Vm.Places

namespace Xv6

-- A process and the allocator.
structure Space where
  mem : Kmem
  pgdir : Page
  sz : Nat

namespace Space

open Xv6.Action

abbrev M := Action Space VmHalt

def vm {Value : Type} (action : Kmem.M Value) : M Value :=
  within Space.mem (fun mem space => { space with mem }) id action

def resize (sz : Nat) : M Int := do
  if sz = 0 then return -1
  modify fun space => { space with sz }
  return 0

def growproc (kernel : KernelImage) (n : BitVec 32) : M Int := do
  let curproc ← get
  let newsz := (curproc.sz + n.toNat) % 2 ^ 32
  if 0 < n.toInt then resize (← vm (Kmem.allocuvm kernel curproc.pgdir curproc.sz newsz))
  else if n.toInt < 0 then resize (← vm (Kmem.deallocuvm kernel curproc.pgdir curproc.sz newsz))
  else return 0

def lookup (space : Space) (va : Nat) : Option Pte := Xv6.lookup space.mem.word space.pgdir va

-- What is mapped in the user part are the pages of the process.
structure Whole (space : Space) : Prop where
  fits : space.sz ≤ KERNBASE
  mapped (va : Nat) (hva : va < KERNBASE) : space.lookup va ≠ none ↔ va < PGROUNDUP space.sz

-- A call that fails has changed nothing, and one that succeeds has made the process larger by `n`.
structure Grew (space : Space) (n : BitVec 32) (result : Int) (next : Space) : Prop where
  returns : result = -1 ∨ result = 0
  failed : result = -1 → next.sz = space.sz ∧ ∀ va < KERNBASE, next.lookup va = space.lookup va
  grown : result = 0 → (next.sz : Int) = space.sz + n.toInt ∧ next.Whole

variable {kernel : KernelImage} {pages loose : Multiset Page} {space : Space} {n : BitVec 32}

variable {returns : Int → Space → Prop} {stops : VmHalt → Prop} {sz newsz : Nat} {next : Kmem}

theorem resize_wp (hzero : sz = 0 → returns (-1) space) (h : sz ≠ 0 → returns 0 { space with sz }) :
    wp (resize sz) space returns stops := by
  unfold resize
  simp only [wp_ite, wp_bind, wp_pure, wp_modify]
  split_ifs with hsz
  · exact hzero hsz
  · exact h hsz

theorem Whole.round_le (h : space.Whole) : PGROUNDUP space.sz ≤ KERNBASE := by
  have hfits := h.fits
  unfold KERNBASE at hfits ⊢
  unfold PGROUNDUP PAGE
  omega

theorem round_mono (h : sz ≤ newsz) : PGROUNDUP sz ≤ PGROUNDUP newsz :=
  Nat.mul_le_mul_right _ (Nat.div_le_div_right (by omega))

-- Nothing was mapped where deallocuvm has cleared the page tables.
theorem Whole.unmaps (h : space.Whole)
    (hunmaps : Kmem.Unmaps space.mem next space.pgdir (PGROUNDUP space.sz) (PGROUNDUP newsz)) :
    ∀ va < KERNBASE, Space.lookup { space with mem := next } va = space.lookup va := by
  intro va hva
  refine (hunmaps va (hva.trans (by decide))).trans ?_
  split_ifs with hin
  · have hmapped := h.mapped va hva
    rw [← not_lt, ← hmapped, not_not] at hin
    exact hin.1.symm
  · rfl

theorem Whole.grows (h : space.Whole) (hle : space.sz ≤ newsz) (hlt : newsz < KERNBASE)
    (hgrows : Kmem.Grows space.mem next space.pgdir (PGROUNDUP space.sz) (PGROUNDUP newsz)) :
    Whole { space with mem := next, sz := newsz } := by
  refine ⟨hlt.le, fun va hva => ?_⟩
  have hround := round_mono hle
  have hgrow := hgrows va (hva.trans (by decide))
  split_ifs at hgrow with hin
  · obtain ⟨page, hpage⟩ := hgrow
    exact iff_of_true (ne_of_eq_of_ne hpage (Option.some_ne_none _)) hin.2
  · have hsame : Space.lookup { space with mem := next, sz := newsz } va = space.lookup va := hgrow
    rw [hsame, h.mapped va hva]
    show va < PGROUNDUP space.sz ↔ va < PGROUNDUP newsz
    omega

theorem Whole.shrinks (h : space.Whole) (hle : newsz ≤ space.sz)
    (hunmaps : Kmem.Unmaps space.mem next space.pgdir (PGROUNDUP newsz) (PGROUNDUP space.sz)) :
    Whole { space with mem := next, sz := newsz } := by
  refine ⟨hle.trans h.fits, fun va hva => ?_⟩
  have hround := round_mono hle
  have hlookup : Space.lookup { space with mem := next, sz := newsz } va =
      if PGROUNDUP newsz ≤ va ∧ va < PGROUNDUP space.sz then none else space.lookup va :=
        hunmaps va (hva.trans (by decide))
  show _ ↔ va < PGROUNDUP newsz
  rw [hlookup]
  split_ifs with hin
  · exact iff_of_false (fun hne => hne rfl) (by omega)
  · rw [h.mapped va hva]
    omega

theorem Grew.of_failed {next : Space} (hsz : next.sz = space.sz)
    (hlookup : ∀ va < KERNBASE, next.lookup va = space.lookup va) : space.Grew n (-1) next :=
  ⟨.inl rfl, fun _ => ⟨hsz, hlookup⟩, fun h => absurd h (by decide)⟩

theorem Grew.of_grown {next : Space} (hsz : (next.sz : Int) = space.sz + n.toInt) (hwhole : next.Whole) :
    space.Grew n 0 next :=
  ⟨.inr rfl, fun h => absurd h (by decide), fun _ => ⟨hsz, hwhole⟩⟩

theorem newsz_larger (hfits : sz ≤ KERNBASE) (hn : 0 < n.toInt) :
    (((sz + n.toNat) % 2 ^ 32 : Nat) : Int) = sz + n.toInt := by
  have hlt := n.isLt
  have hint := BitVec.toInt_eq_toNat_cond n
  unfold KERNBASE at hfits
  split_ifs at hint <;> omega

theorem newsz_smaller (hfits : sz ≤ KERNBASE) (hn : n.toInt < 0) (hle : -n.toInt ≤ sz) :
    (((sz + n.toNat) % 2 ^ 32 : Nat) : Int) = sz + n.toInt := by
  have hlt := n.isLt
  have hint := BitVec.toInt_eq_toNat_cond n
  unfold KERNBASE at hfits
  split_ifs at hint <;> omega

-- The new size has wrapped around.
theorem newsz_wrapped (hfits : sz ≤ KERNBASE) (hlt : sz < -n.toInt) : sz ≤ (sz + n.toNat) % 2 ^ 32 := by
  have hlt' := n.isLt
  have hint := BitVec.toInt_eq_toNat_cond n
  unfold KERNBASE at hfits
  split_ifs at hint <;> omega

section Growproc

variable (hhanded : Handed kernel pages) (hmem : space.mem.Dir space.pgdir loose pages) (hwhole : space.Whole)

include hhanded hmem hwhole

theorem growproc_larger (hn : 0 < n.toInt) : wp (growproc kernel n) space (space.Grew n) fun _ => False := by
  have hnewsz := newsz_larger hwhole.fits hn
  unfold growproc
  simp only [wp_bind, wp_get, if_pos hn, vm, wp_within]
  generalize (space.sz + n.toNat) % 2 ^ 32 = newsz at hnewsz ⊢
  refine Kmem.allocuvm_wp hhanded hmem ?_ fun size next _ _ halloced => ?_
  · rintro ⟨va, hva, hle, hsome⟩
    exact Nat.not_lt.mpr hle ((hwhole.mapped va hva).mp hsome)
  cases halloced with
  | large _ hmaps => exact resize_wp (fun _ => .of_failed rfl fun va _ => hmaps va) (absurd rfl)
  | smaller hlt => omega
  | grown hle hlt hgrows => exact resize_wp (by omega) fun _ => .of_grown hnewsz (hwhole.grows hle hlt hgrows)
  | short _ hunmaps => exact resize_wp (fun _ => .of_failed rfl (hwhole.unmaps hunmaps)) (absurd rfl)

theorem growproc_smaller (hn : n.toInt < 0) (h : ∀ newsz next, (space.sz + n.toNat) % 2 ^ 32 = newsz →
      Kmem.Unmaps space.mem next space.pgdir (PGROUNDUP newsz) (PGROUNDUP space.sz) →
      wp (resize (if space.sz ≤ newsz then space.sz else newsz)) { space with mem := next } returns stops) :
    wp (growproc kernel n) space returns stops := by
  unfold growproc
  simp only [wp_bind, wp_get, if_neg (Int.not_lt.mpr hn.le), if_pos hn, vm, wp_within]
  exact Kmem.deallocuvm_wp hhanded hwhole.fits hmem fun next _ _ hunmaps => h _ next rfl hunmaps

-- Nothing is done for a size that has wrapped around.
theorem growproc_wrapped (hn : n.toInt < 0) (hlt : space.sz < -n.toInt)
    (h : ∀ next, (∀ va < KERNBASE, Space.lookup { space with mem := next } va = space.lookup va) →
      returns (if space.sz = 0 then -1 else 0) { space with mem := next }) :
    wp (growproc kernel n) space returns stops := by
  refine growproc_smaller hhanded hmem hwhole hn fun newsz next hnewsz hunmaps => ?_
  have hle := newsz_wrapped hwhole.fits hlt
  rw [hnewsz] at hle
  rw [if_pos hle]
  have hsame : ∀ va < KERNBASE, Space.lookup { space with mem := next } va = space.lookup va := by
    intro va hva
    have hround := round_mono hle
    refine (hunmaps va (hva.trans (by decide))).trans (if_neg ?_)
    omega
  have hreturns := h next hsame
  refine resize_wp (fun hzero => ?_) fun hne => ?_
  · rwa [if_pos hzero] at hreturns
  · rwa [if_neg hne] at hreturns

theorem growproc_exact (hfits : 0 ≤ n.toInt ∨ space.sz = 0 ∨ -n.toInt < space.sz) :
    wp (growproc kernel n) space (space.Grew n) fun _ => False := by
  rcases lt_trichotomy n.toInt 0 with hn | hn | hn
  · by_cases hlt : -n.toInt < space.sz
    · refine growproc_smaller hhanded hmem hwhole hn fun newsz next hnewsz hunmaps => ?_
      have hsize := newsz_smaller hwhole.fits hn hlt.le
      rw [hnewsz] at hsize
      rw [if_neg (by omega)]
      exact resize_wp (by omega) fun _ => .of_grown hsize (hwhole.shrinks (by omega) hunmaps)
    · have hzero : space.sz = 0 := by omega
      refine growproc_wrapped hhanded hmem hwhole hn (by omega) fun next hsame => ?_
      rw [if_pos hzero]
      exact .of_failed rfl hsame
  · unfold growproc
    simp only [wp_bind, wp_get, hn, lt_irrefl, if_false, wp_pure]
    exact .of_grown (by rw [hn, add_zero]) hwhole
  · exact growproc_larger hhanded hmem hwhole hn

-- deallocuvm returns the new size, and 0 is the size of a process that gives back all its memory. A
-- size below that wraps around, and then it does nothing.
theorem growproc_not_exact (hn : n.toInt < 0) (hpos : space.sz ≠ 0) (hge : space.sz ≤ -n.toInt) :
    wp (growproc kernel n) space (fun result next => ¬space.Grew n result next) fun _ => False := by
  rcases hge.eq_or_lt with heq | hlt
  · refine growproc_smaller hhanded hmem hwhole hn fun newsz next hnewsz hunmaps => ?_
    have hsize := newsz_smaller hwhole.fits hn heq.ge
    rw [hnewsz, heq, neg_add_cancel] at hsize
    obtain rfl : newsz = 0 := by omega
    rw [if_neg (by omega)]
    refine resize_wp (fun _ hgrew => ?_) (absurd rfl)
    have hround : 0 < PGROUNDUP space.sz := by
      unfold PGROUNDUP PAGE
      omega
    have hmapped := (hwhole.mapped 0 (by decide)).mpr hround
    rw [← (hgrew.failed rfl).2 0 (by decide)] at hmapped
    exact hmapped ((hunmaps 0 (by decide)).trans (if_pos ⟨Nat.le_refl _, hround⟩))
  · refine growproc_wrapped hhanded hmem hwhole hn hlt fun next hsame => ?_
    rw [if_neg hpos]
    intro hgrew
    have hsize := (hgrew.grown rfl).1
    simp only at hsize
    omega

-- It does not panic in any case.
theorem growproc_exact_iff : wp (growproc kernel n) space (space.Grew n) (fun _ => False) ↔
    0 ≤ n.toInt ∨ space.sz = 0 ∨ -n.toInt < space.sz := by
  refine ⟨fun h => ?_, growproc_exact hhanded hmem hwhole⟩
  by_contra hnot
  have hbad := growproc_not_exact hhanded hmem hwhole (n := n) (by omega) (by omega) (by omega)
  rcases (h.and hbad).run with ⟨_, _, _, hgrew, hnot⟩ | ⟨_, _, hfalse, _⟩
  · exact hnot hgrew
  · exact hfalse

end Growproc

-- A process without memory, and two free pages.
def noMemory : Space := ⟨Kmem.setPage ⟨[0x103, 0x104], fun _ _ => .junk⟩ 0x102 fun _ => .zero, 0x102, 0⟩

theorem noMemory_handed : Handed Vm.smallKernel {0x102, 0x103, 0x104} where
  nodup := by decide
  owns := by
    simp only [Multiset.insert_eq_cons, Multiset.mem_cons, Multiset.mem_singleton]
    rintro page (rfl | rfl | rfl) <;> unfold KernelImage.Owns <;> decide

theorem noMemory_dir : noMemory.mem.Dir noMemory.pgdir 0 {0x102, 0x103, 0x104} :=
  Kmem.Dir.empty ⟨[], fun _ _ => .junk⟩ [0x103, 0x104] (by decide)

theorem noMemory_whole : noMemory.Whole where
  fits := by decide
  mapped va _ := by
    have hnone : noMemory.lookup va = none := lookup_of_absent (by simp [noMemory, Kmem.setPage, Pte.not_present_zero])
    have hround : PGROUNDUP noMemory.sz = 0 := by decide
    rw [hnone, hround]
    simp

theorem growproc_exact_iff_page : wp (growproc Vm.smallKernel 4096) noMemory (noMemory.Grew 4096) (fun _ => False) ∧
    (((growproc Vm.smallKernel 4096).run noMemory).toOption.map fun pair => (pair.1, pair.2.sz)) = some (0, 4096) := by
  refine ⟨(growproc_exact_iff noMemory_handed noMemory_dir noMemory_whole).mpr (.inl (by decide)), ?_⟩
  decide +kernel

-- The process gets a page, and gives it back.
theorem growproc_loses_memory : ∃ space, space.Whole ∧ space.sz = 4096 ∧ (space.lookup 0).isSome = true ∧ ∃ next,
    (growproc Vm.smallKernel (-4096)).run space = .ok (-1, next) ∧ next.sz = 4096 ∧ (next.lookup 0).isSome = false := by
  have hruns : (((growproc Vm.smallKernel 4096).run noMemory).toOption.bind fun one =>
      ((growproc Vm.smallKernel (-4096)).run one.2).toOption.map fun two =>
        (one.1, one.2.sz, (one.2.lookup 0).isSome, two.1, two.2.sz, (two.2.lookup 0).isSome)) =
      some (0, 4096, true, -1, 4096, false) := by
    decide +kernel
  obtain ⟨one, hone, htwo⟩ := Option.bind_eq_some_iff.mp hruns
  obtain ⟨two, htwo, hfields⟩ := Option.map_eq_some_iff.mp htwo
  simp only [Prod.mk.injEq] at hfields
  obtain ⟨hresult, hsz, hsome, hresult', hsz', hnone⟩ := hfields
  have hgrew : wp (growproc Vm.smallKernel 4096) noMemory (noMemory.Grew 4096) fun _ => False :=
    growproc_exact noMemory_handed noMemory_dir noMemory_whole (.inl (by decide))
  have hwhole := ((hgrew.returned (run_of_toOption hone)).grown hresult).2
  refine ⟨one.2, hwhole, hsz, hsome, two.2, ?_, hsz', hnone⟩
  rw [← hresult']
  exact run_of_toOption htwo

end Space

end Xv6

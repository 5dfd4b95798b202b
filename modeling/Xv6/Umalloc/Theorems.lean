import Xv6.Umalloc.Ring

namespace Xv6

open Function List Option

namespace Heap

variable {heap next : Heap} {nodes before after : List Nat} {p bp turns : Nat}

section

variable (h : heap.Ring nodes)

include h

theorem Ring.exists_cons : ∃ rest, nodes = 0 :: rest ∧ Circular heap.ptr 0 rest := by
  have hhead := h.head
  cases nodes with
  | nil => exact absurd hhead (by simp)
  | cons first rest =>
    obtain rfl := some.inj hhead
    exact ⟨rest, rfl, h.linked⟩

theorem Ring.ptr_mem (hp : p ∈ nodes) : heap.ptr p ∈ nodes := by
  obtain ⟨rest, rfl, hcircular⟩ := h.exists_cons
  exact hcircular.next_mem hp

-- Once around the list, from the block behind `p` back to `p`.
theorem Ring.circuit (hp : p ∈ nodes) : ∃ path, Linked heap.ptr (p :: path) ∧
    (∀ block, block ∈ path ↔ block ∈ nodes) ∧ p ∉ path.dropLast ∧ path.length = nodes.length := by
  obtain ⟨rest, rfl, hcircular⟩ := h.exists_cons
  obtain ⟨before, after, heq⟩ := append_of_mem hp
  have hring := h
  rw [heq] at hring
  refine ⟨after ++ before ++ [p], hcircular.around heq, fun block => ?_, ?_, ?_⟩
  · rw [heq]
    simp only [mem_append, mem_cons, not_mem_nil, or_false]
    tauto
  · rw [dropLast_concat, mem_append]
    rintro (hmem | hmem)
    · exact Nat.lt_irrefl _ (hring.above.lt p hmem)
    · exact Nat.lt_irrefl _ (hring.below.lt p hmem)
  · rw [heq]
    simp only [length_append, length_cons, length_nil]
    omega

-- Where the loop of free ends, the block has its place.
theorem Ring.fits (howned : heap.Owned (bp :: nodes)) (hpos : 0 < heap.size bp) (hp : p ∈ nodes)
    (hbetween : heap.between bp p = true) :
    ∃ before after, nodes = before ++ p :: after ∧ heap.Fits before p bp after := by
  obtain ⟨before, after, rfl⟩ := append_of_mem hp
  obtain ⟨hbp, -⟩ := howned.start_inside (by simp) hpos
  obtain ⟨hjoins, habove⟩ := Above.cons_iff.mp h.above
  have hptr := hjoins.ptr
  simp only [between, Bool.or_eq_true, Bool.and_eq_true, decide_eq_true_eq] at hbetween
  cases after with
  | nil =>
    rw [headD_nil] at hptr
    exact ⟨before, [], rfl, h, howned, hpos, by omega, by simp⟩
  | cons second after =>
    rw [headD_cons] at hptr
    have hsecond := h.above.lt second mem_cons_self
    refine ⟨before, second :: after, rfl, h, howned, hpos, by omega, fun block hblock => ?_⟩
    rcases mem_cons.mp hblock with rfl | hblock
    · omega
    · have := habove.lt block hblock
      omega

end

theorem Above.exists_between (h : heap.Above (p :: after)) (hlt : p < bp) (hbp : bp ∉ after) :
    ∃ block ∈ p :: after, heap.between bp block = true := by
  induction after generalizing p with
  | nil =>
    obtain ⟨hjoins, -⟩ := Above.cons_iff.mp h
    have hptr : heap.ptr p = 0 := hjoins.ptr
    refine ⟨p, mem_cons_self, ?_⟩
    simp [between, hptr, hlt]
  | cons second after ih =>
    obtain ⟨hjoins, habove⟩ := Above.cons_iff.mp h
    have hptr : heap.ptr p = second := hjoins.ptr
    obtain ⟨hne, hbp⟩ := not_or.mp (mt mem_cons.mpr hbp)
    by_cases hsecond : bp < second
    · refine ⟨p, mem_cons_self, ?_⟩
      simp [between, hptr, hlt, hsecond]
    · obtain ⟨block, hblock, hbetween⟩ := ih habove (by omega) hbp
      exact ⟨block, mem_cons_of_mem _ hblock, hbetween⟩

-- The list and the pointer into it.
structure Kept (heap : Heap) (nodes : List Nat) : Prop where
  freep : ∃ freep ∈ nodes, heap.freep = some freep
  ring : heap.Ring nodes
  owned : heap.Owned nodes

section Free

variable (hring : heap.Ring nodes) (howned : heap.Owned (bp :: nodes)) (hpos : 0 < heap.size bp) {freep : Nat}
variable (hfreep : heap.freep = some freep) (hmem : freep ∈ nodes)
include hring howned hpos hfreep hmem

theorem free_kept (hfree : heap.free turns bp = some next) :
    ∃ others, next.Kept others ∧ next.live = heap.live ∧ (∃ block ∈ others, heap.size bp ≤ next.size block) ∧
      others.length ≤ nodes.length + 1 := by
  unfold free at hfree
  rw [hfreep, map_eq_some_iff] at hfree
  obtain ⟨p, hfollow, rfl⟩ := hfree
  obtain ⟨hp, hbetween⟩ := follow_some hfollow (fun block hblock => hring.ptr_mem hblock) hmem
  obtain ⟨before, after, rfl, hfits⟩ := hring.fits howned hpos hp hbetween
  obtain ⟨others, hplaced, hsize, hlength⟩ := hfits.joinNext
  obtain ⟨nodes, hnodes, howns, hmem, ⟨block, hblock, hlarge⟩, hlength'⟩ := hplaced.joinPrev
  have hlive := (joinPrev_writes (heap.joinNext p bp) p bp).live.trans (joinNext_writes heap p bp).live
  refine ⟨nodes, ⟨⟨p, hmem, rfl⟩, hnodes.of_eq fun _ _ => ⟨rfl, rfl⟩,
    howns.change rfl rfl rfl (fun _ _ => rfl) fun _ => rfl⟩, hlive, ⟨block, hblock, hsize.trans hlarge⟩, ?_⟩
  simp only [length_append, length_cons]
  omega

theorem free_isSome (hturns : nodes.length < turns) : (heap.free turns bp).isSome := by
  unfold free
  rw [hfreep, isSome_map]
  obtain ⟨path, hpath, hall, -, hlength⟩ := hring.circuit hmem
  refine follow_isSome hpath ?_ (by omega)
  obtain ⟨hbp, -⟩ := howned.start_inside (by simp) hpos
  obtain ⟨rest, rfl, -⟩ := hring.exists_cons
  have hnot : bp ∉ rest := by
    intro hbp'
    have hle := howned.cover_le bp
    have hin := inBlock_le_covers heap.size bp hbp'
    simp only [cons_append, covers_cons, covers_append] at hle
    rw [inBlock_start hpos] at hin hle
    omega
  have habove : heap.Above (0 :: rest) := ⟨hring.linked, hring.spaced⟩
  obtain ⟨block, hblock, hbetween⟩ := habove.exists_between hbp hnot
  exact ⟨block, mem_cons_of_mem _ ((hall block).mpr hblock), hbetween⟩

end Free

theorem Kept.lt_brk (h : heap.Kept nodes) (hp : p ∈ nodes ++ heap.live.map Prod.fst) : p < heap.brk := by
  by_cases hzero : p = 0
  · rw [hzero]
    exact h.owned.brk_pos
  · refine (h.owned.start_inside hp ?_).2
    rcases mem_append.mp hp with hp | hp
    · exact h.ring.size_pos p hp hzero
    · exact h.owned.live_size_pos hp

theorem Kept.extend (h : heap.Kept nodes) (gap nu : Nat) :
    (heap.extend gap nu).Ring nodes ∧ (heap.extend gap nu).Owned ((heap.brk + gap) :: nodes) := by
  have hbrk := h.owned.brk_pos
  have hsize : ∀ block ∈ nodes ++ heap.live.map Prod.fst, (heap.extend gap nu).size block = heap.size block := by
    intro block hblock
    have := h.lt_brk hblock
    exact update_of_ne (by omega) _ _
  have hnew : (heap.extend gap nu).size (heap.brk + gap) = nu := update_self ..
  constructor
  · exact h.ring.of_eq fun block hblock => ⟨rfl, hsize block (mem_append_left _ hblock)⟩
  · refine ⟨fun unit => ?_, fun unit hunit => ?_, ?_, fun block hblock => ?_⟩
    · have hcover := (covers_congr hsize).trans (h.owned.cover unit)
      rw [cons_append, covers_cons, hnew]
      refine (congrArg (_ + ·) hcover).trans ?_
      have hinside := h.owned.inside unit
      simp only [Heap.extend, inBlock]
      cases hobtained : heap.obtained unit with
      | true =>
        have := hinside hobtained
        rw [if_neg (by omega)]
        simp
      | false =>
        split_ifs with hin
        · simp [hin]
        · simp only [Bool.false_or, Bool.toNat_false, Nat.add_zero]
          rw [eq_comm, Bool.toNat_eq_zero, Bool.and_eq_false_iff, decide_eq_false_iff_not, decide_eq_false_iff_not]
          omega
    · simp only [Heap.extend, Bool.or_eq_true, Bool.and_eq_true, decide_eq_true_eq] at hunit ⊢
      rcases hunit with hunit | hunit
      · have := h.owned.inside unit hunit
        omega
      · omega
    · exact Nat.lt_of_lt_of_le hbrk (by simp only [Heap.extend]; omega)
    · rw [hsize block.1 (mem_append_right _ (mem_map_of_mem hblock))]
      exact h.owned.fits block hblock

section Morecore

variable (h : heap.Kept nodes) (gap : Option Nat) (nu : Nat)
include h

theorem morecore_kept {result : Option Nat} (hmore : heap.morecore turns nu gap = some (next, result)) :
    next.live = heap.live ∧ ((next = heap ∧ result = none) ∨ ∃ others freep, result = some freep ∧ next.Kept others ∧
      next.freep = some freep ∧ (∃ block ∈ others, nu ≤ next.size block) ∧ others.length ≤ nodes.length + 1) := by
  unfold morecore at hmore
  cases gap with
  | none =>
    obtain ⟨rfl, rfl⟩ := Prod.mk.inj (some.inj hmore)
    exact ⟨rfl, .inl ⟨rfl, rfl⟩⟩
  | some gap =>
    obtain ⟨middle, hfree, hpair⟩ := map_eq_some_iff.mp hmore
    obtain ⟨rfl, rfl⟩ := Prod.mk.inj hpair
    obtain ⟨freep, hmem, hfreep⟩ := h.freep
    obtain ⟨hring, howned⟩ := h.extend gap (if nu < 4096 then 4096 else nu)
    have hnew : (heap.extend gap (if nu < 4096 then 4096 else nu)).size (heap.brk + gap) =
        if nu < 4096 then 4096 else nu := update_self ..
    have hnu : nu ≤ (if nu < 4096 then 4096 else nu) ∧ 0 < (if nu < 4096 then 4096 else nu) := by
      split_ifs <;> omega
    obtain ⟨others, hkept, hlive, ⟨block, hblock, hlarge⟩, hlength⟩ :=
      free_kept hring howned (by rw [hnew]; exact hnu.2) hfreep hmem hfree
    obtain ⟨last, -, hlast⟩ := hkept.freep
    rw [hnew] at hlarge
    exact ⟨hlive, .inr ⟨others, last, hlast, hkept, hlast, ⟨block, hblock, hnu.1.trans hlarge⟩, hlength⟩⟩

theorem morecore_isSome (hturns : nodes.length < turns) : (heap.morecore turns nu gap).isSome := by
  unfold morecore
  cases gap with
  | none => rfl
  | some gap =>
    rw [isSome_map]
    obtain ⟨freep, hmem, hfreep⟩ := h.freep
    obtain ⟨hring, howned⟩ := h.extend gap (if nu < 4096 then 4096 else nu)
    refine free_isSome hring howned ?_ hfreep hmem hturns
    have hnew : (heap.extend gap (if nu < 4096 then 4096 else nu)).size (heap.brk + gap) =
        if nu < 4096 then 4096 else nu := update_self ..
    rw [hnew]
    split_ifs <;> omega

end Morecore

section

variable (h : heap.Kept nodes) (hp : p ∈ nodes ++ heap.live.map Prod.fst)

include h hp

theorem Kept.size_pos (hne : p ≠ 0) : 0 < heap.size p := by
  rcases mem_append.mp hp with hp | hp
  · exact h.ring.size_pos p hp hne
  · exact h.owned.live_size_pos hp

-- No header is inside a block.
theorem Kept.not_header {unit : Nat} (hlt : p < unit)
    (hin : unit < p + heap.size p) : unit ∉ nodes ++ heap.live.map Prod.fst :=
  not_start (h.owned.cover_le unit) hp hlt hin fun hunit => h.size_pos hunit (by omega)

end

section Take

variable (h : heap.Kept nodes) {nbytes prevp : Nat} (hprevp : prevp ∈ nodes) (hp : heap.ptr prevp = p)
include h hprevp hp

theorem take_whole (hsize : heap.size p = nunits nbytes) :
    ∃ others, (heap.take nbytes (nunits nbytes) prevp p).1.Kept others := by
  obtain ⟨before, tail, rfl⟩ := append_of_mem hprevp
  obtain ⟨hjoins, habove⟩ := Above.cons_iff.mp h.ring.above
  have hpos := nunits_pos nbytes
  have htake : (heap.take nbytes (nunits nbytes) prevp p).1 =
      { heap.setPtr prevp (heap.ptr p) with freep := some prevp, live := (p, nbytes) :: heap.live } := by
    rw [take, if_pos hsize]
  have hfirst := hjoins.ptr
  cases tail with
  | nil =>
    -- The only block is `base`, which has no units.
    have hzero : p = 0 := hp.symm.trans hfirst
    rw [hzero, h.ring.base] at hsize
    omega
  | cons second after =>
    obtain rfl : p = second := hp.symm.trans hfirst
    obtain ⟨hnext, hafter⟩ := Above.cons_iff.mp habove
    have hwrites : heap.Writes (heap.setPtr prevp (heap.ptr p)) prevp :=
      ⟨fun _ hne => ⟨update_of_ne hne _ _, rfl⟩, rfl, rfl, rfl⟩
    have hring : (heap.setPtr prevp (heap.ptr p)).Ring (before ++ prevp :: after) := by
      refine hwrites.ring h.ring.below hafter (fun block hblock => ?_) ⟨?_, fun other hother => ?_⟩ h.ring.base ?_
      · exact h.ring.above.lt block (mem_cons_of_mem _ hblock)
      · exact (update_self ..).trans hnext.ptr
      · have hone := hjoins.apart p rfl
        have htwo := hnext.apart other hother
        simp only [setPtr]
        omega
      · intro block hblock
        refine h.ring.size_pos block ?_
        simp only [mem_append, mem_cons] at hblock ⊢
        tauto
    rw [htake]
    refine ⟨before ++ prevp :: after, ⟨prevp, by simp, rfl⟩,
      hring.of_eq fun _ _ => ⟨rfl, rfl⟩, fun unit => ?_, h.owned.inside, h.owned.brk_pos,
      fun block hblock => ?_⟩
    · have hcover := h.owned.cover unit
      simp only [map_cons, covers_append, covers_cons, setPtr] at hcover ⊢
      omega
    · rcases mem_cons.mp hblock with rfl | hblock
      · exact hsize
      · exact h.owned.fits block hblock

theorem take_part (hsize : nunits nbytes < heap.size p) : (heap.take nbytes (nunits nbytes) prevp p).1.Kept nodes := by
  have hmem : p ∈ nodes := hp ▸ h.ring.ptr_mem hprevp
  have hpos := nunits_pos nbytes
  obtain ⟨rest, hrest⟩ : ∃ rest, rest = heap.size p - nunits nbytes := ⟨_, rfl⟩
  have htake : (heap.take nbytes (nunits nbytes) prevp p).1 =
      { (heap.setSize p rest).setSize (p + rest) (nunits nbytes) with
        freep := some prevp
        live := (p + rest, nbytes) :: heap.live } := by
    rw [take, if_neg (by omega), hrest]
  have hnew := h.not_header (mem_append_left _ hmem) (show p < p + rest by omega) (by omega)
  have hzero : p ≠ 0 := by
    rintro rfl
    have := h.ring.base
    omega
  obtain ⟨size, hsizes⟩ : ∃ size, size = update (update heap.size p rest) (p + rest) (nunits nbytes) := ⟨_, rfl⟩
  have hother : ∀ block ∈ nodes ++ heap.live.map Prod.fst, block ≠ p → size block = heap.size block := by
    intro block hblock hne
    have hne' : block ≠ p + rest := fun heq => hnew (heq ▸ hblock)
    rw [hsizes, update_of_ne hne', update_of_ne hne]
  have hhere : size p = rest := by
    rw [hsizes, update_of_ne (by omega), update_self]
  have hthere : size (p + rest) = nunits nbytes := by
    rw [hsizes, update_self]
  have hle : ∀ block ∈ nodes, size block ≤ heap.size block := by
    intro block hblock
    by_cases heq : block = p
    · subst heq
      omega
    · exact Nat.le_of_eq (hother block (mem_append_left _ hblock) heq)
  have hlive : p ∉ heap.live.map Prod.fst := h.owned.not_live hmem
  rw [htake]
  simp only [setSize]
  rw [← hsizes]
  refine ⟨⟨prevp, hprevp, rfl⟩, ⟨h.ring.head, h.ring.linked, ?_, ?_, ?_⟩, fun unit => ?_, h.owned.inside,
    h.owned.brk_pos, fun block hblock => ?_⟩
  · refine isChain_of_dropLast h.ring.spaced fun block hblock other hlt => ?_
    exact Nat.lt_of_le_of_lt (Nat.add_le_add_left (hle block (dropLast_subset _ hblock)) _) hlt
  · have hbase := hle 0 (mem_of_mem_head? h.ring.head)
    rw [h.ring.base] at hbase
    exact Nat.le_zero.mp hbase
  · intro block hblock hne
    by_cases heq : block = p
    · subst heq
      simp only [hhere]
      omega
    · simp only [hother block (mem_append_left _ hblock) heq]
      exact h.ring.size_pos block hblock hne
  · have hcover := h.owned.cover unit
    have hsplit := inBlock_add p rest (nunits nbytes) unit
    rw [show rest + nunits nbytes = heap.size p by omega] at hsplit
    obtain ⟨before, after, rfl⟩ := append_of_mem hmem
    have hbefore : covers size before unit = covers heap.size before unit := by
      refine covers_congr fun block hblock => hother block (by simp [hblock]) ?_
      exact Nat.ne_of_lt (h.ring.below.lt block hblock)
    have hafter : covers size after unit = covers heap.size after unit := by
      refine covers_congr fun block hblock => hother block (by simp [hblock]) ?_
      exact Nat.ne_of_gt (h.ring.above.lt block hblock)
    have hused : covers size (heap.live.map Prod.fst) unit = covers heap.size (heap.live.map Prod.fst) unit := by
      refine covers_congr fun block hblock => hother block (mem_append_right _ hblock) ?_
      rintro rfl
      exact hlive hblock
    simp only [map_cons, covers_append, covers_cons] at hcover ⊢
    rw [hbefore, hafter, hused, hhere, hthere]
    omega
  · rcases mem_cons.mp hblock with rfl | hblock
    · exact hthere
    · have hmem : block.1 ∈ heap.live.map Prod.fst := mem_map_of_mem hblock
      refine (hother block.1 (mem_append_right _ hmem) ?_).trans (h.owned.fits block hblock)
      intro heq
      exact hlive (heq ▸ hmem)

end Take

section Search

variable {nbytes nunits prevp freep : Nat} {gap result : Option Nat} {path : List Nat}

theorem search_kept (h : heap.Kept nodes) (hprevp : prevp ∈ nodes) (hp : heap.ptr prevp = p)
    (hsearch : search nbytes (Heap.nunits nbytes) gap turns heap prevp p = some (next, result)) :
    ∃ others, next.Kept others := by
  induction turns generalizing heap nodes prevp p with
  | zero => exact absurd hsearch (by simp [search])
  | succ turns ih =>
    rw [search] at hsearch
    have hmem : p ∈ nodes := hp ▸ h.ring.ptr_mem hprevp
    split_ifs at hsearch with hfit hfreep
    · obtain ⟨rfl, -⟩ := Prod.mk.inj (some.inj hsearch)
      rcases Nat.eq_or_lt_of_le hfit with hsize | hsize
      · exact take_whole h hprevp hp hsize.symm
      · exact ⟨nodes, take_part h hprevp hp hsize⟩
    · split at hsearch
      · exact absurd hsearch (by simp)
      · rename_i other hmore
        obtain ⟨-, ⟨rfl, -⟩ | ⟨others, freep, hresult, -⟩⟩ := morecore_kept h gap _ hmore
        · obtain ⟨rfl, -⟩ := Prod.mk.inj (some.inj hsearch)
          exact ⟨nodes, h⟩
        · exact absurd hresult (by simp)
      · rename_i other block hmore
        obtain ⟨-, ⟨-, hresult⟩ | ⟨others, freep, hresult, hkept, hfreep, -⟩⟩ := morecore_kept h gap _ hmore
        · exact absurd hresult (by simp)
        · obtain rfl := some.inj hresult
          obtain ⟨freep, hmem, heq⟩ := hkept.freep
          obtain rfl := some.inj (hfreep.symm.trans heq)
          exact ih hkept hmem rfl hsearch
    · exact ih h hmem rfl hsearch

-- A block that is large enough is found before the search is back where it began.
theorem search_finds (hpath : Linked heap.ptr (p :: path)) (hfit : ∃ block ∈ p :: path, nunits ≤ heap.size block)
    (hfreep : heap.freep = some freep) (hnot : freep ∉ (p :: path).dropLast) (hturns : path.length < turns) :
    (search nbytes nunits gap turns heap prevp p).isSome := by
  induction path generalizing turns prevp p with
  | nil =>
    obtain ⟨turns, rfl⟩ := Nat.exists_eq_add_one_of_ne_zero (Nat.ne_of_gt hturns)
    obtain ⟨block, hblock, hsize⟩ := hfit
    obtain rfl := mem_singleton.mp hblock
    rw [search, if_pos hsize]
    rfl
  | cons second path ih =>
    obtain ⟨turns, rfl⟩ := Nat.exists_eq_add_one_of_ne_zero (Nat.ne_of_gt (Nat.zero_lt_of_lt hturns))
    rw [search]
    split_ifs with hsize hhere
    · rfl
    · rw [dropLast_cons_cons] at hnot
      obtain rfl := some.inj (hfreep.symm.trans hhere)
      exact absurd mem_cons_self hnot
    · obtain ⟨hsecond, hrest⟩ := isChain_cons_cons.mp hpath
      obtain ⟨block, hblock, hlarge⟩ := hfit
      rw [dropLast_cons_cons] at hnot
      rw [hsecond]
      refine ih hrest ⟨block, ?_, hlarge⟩ (fun hmem => hnot (mem_cons_of_mem _ hmem)) (by simpa using hturns)
      rcases mem_cons.mp hblock with rfl | hblock
      · exact absurd hlarge hsize
      · exact hblock

-- Otherwise the search comes back there, and morecore is called.
theorem search_asks (bound : Nat) (hpath : Linked heap.ptr (p :: path)) (hfreep : heap.freep = some freep)
    (hmem : freep ∈ p :: path) (hmore : ∀ turns, bound ≤ turns → (heap.morecore turns nunits gap).isSome)
    (hnext : ∀ turns next freep, bound ≤ turns → heap.morecore turns nunits gap = some (next, some freep) →
      (search nbytes nunits gap turns next freep (next.ptr freep)).isSome)
    (hturns : path.length + bound < turns) : (search nbytes nunits gap turns heap prevp p).isSome := by
  induction turns generalizing path prevp p with
  | zero => omega
  | succ turns ih =>
    rw [search]
    split_ifs with hsize hhere
    · rfl
    · obtain ⟨⟨middle, result⟩, hmiddle⟩ := isSome_iff_exists.mp (hmore turns (by omega))
      rw [hmiddle]
      cases result with
      | none => rfl
      | some block => exact hnext turns middle block (by omega) hmiddle
    · cases path with
      | nil =>
        obtain rfl := mem_singleton.mp hmem
        exact absurd hfreep hhere
      | cons second path =>
        obtain ⟨hsecond, hrest⟩ := isChain_cons_cons.mp hpath
        rw [length_cons] at hturns
        rw [hsecond]
        refine ih hrest ?_ (by omega)
        rcases mem_cons.mp hmem with rfl | hmem
        · exact absurd hfreep hhere
        · exact hmem

theorem Kept.search_isSome (h : heap.Kept nodes) (hfreep : heap.freep = some freep)
    (hturns : 2 * nodes.length < turns) : (search nbytes nunits gap turns heap freep (heap.ptr freep)).isSome := by
  obtain ⟨other, hmem, hother⟩ := h.freep
  obtain rfl := some.inj (hfreep.symm.trans hother)
  obtain ⟨path, hpath, hall, -, hlength⟩ := h.ring.circuit hmem
  have hback := (hall freep).mpr hmem
  cases path with
  | nil => exact absurd hback not_mem_nil
  | cons second path =>
    obtain ⟨hsecond, hpath⟩ := isChain_cons_cons.mp hpath
    rw [length_cons] at hlength
    rw [hsecond]
    refine search_asks (nodes.length + 1) hpath hfreep hback (fun turns hle => ?_)
      (fun turns next freep hle hmore => ?_) (by omega)
    · exact morecore_isSome h gap nunits (by omega)
    · -- The new memory is large enough, so the second time around ends there at the latest.
      obtain ⟨-, ⟨-, hresult⟩ | ⟨others, last, hresult, hkept, hlast, ⟨block, hblock, hlarge⟩, hle'⟩⟩ :=
        morecore_kept h gap nunits hmore
      · exact absurd hresult (by simp)
      · obtain rfl := some.inj hresult
        obtain ⟨other, hother, heq⟩ := hkept.freep
        obtain rfl := some.inj (hlast.symm.trans heq)
        obtain ⟨round, hround, hall, hnot, hlength'⟩ := hkept.ring.circuit hother
        have hblock := (hall block).mpr hblock
        cases round with
        | nil => exact absurd hblock not_mem_nil
        | cons third round =>
          obtain ⟨hthird, hround⟩ := isChain_cons_cons.mp hround
          rw [length_cons] at hlength'
          rw [hthird]
          exact search_finds hround ⟨block, hblock, hlarge⟩ hlast hnot (by omega)

end Search

theorem Fresh.firstList (h : heap.Fresh) : heap.firstList.Kept [0] where
  freep := ⟨0, List.mem_singleton_self _, rfl⟩
  ring := by
    refine ⟨rfl, ?_, isChain_singleton _, ?_, by simp⟩ <;> simp [Heap.firstList, setPtr, setSize]
  owned := by
    have hsize : heap.firstList.size 0 = 0 := by simp [Heap.firstList, setPtr, setSize]
    have hlive : heap.firstList.live = [] := h.live
    refine ⟨fun unit => ?_, fun unit hunit => ?_, h.brk_pos, ?_⟩
    · rw [hlive, map_nil, append_nil, covers_cons, covers_nil, hsize, inBlock_zero]
      exact (congrArg Bool.toNat (h.obtained unit)).symm
    · exact absurd ((h.obtained unit).symm.trans hunit) (by decide)
    · rw [hlive]
      simp

-- What holds between the calls.
def Sound (heap : Heap) : Prop := heap.Fresh ∨ ∃ nodes, heap.Kept nodes

theorem Sound.malloc_eq (h : heap.Sound) : ∃ first nodes freep, first.Kept nodes ∧ first.freep = some freep ∧
    ∀ turns nbytes gap, heap.malloc turns nbytes gap =
      search nbytes (nunits nbytes) gap turns first freep (first.ptr freep) := by
  rcases h with hfresh | ⟨nodes, hkept⟩
  · refine ⟨heap.firstList, [0], 0, hfresh.firstList, rfl, fun turns nbytes gap => ?_⟩
    unfold malloc
    rw [hfresh.freep]
    rfl
  · obtain ⟨freep, hmem, hfreep⟩ := hkept.freep
    refine ⟨heap, nodes, freep, hkept, hfreep, fun turns nbytes gap => ?_⟩
    unfold malloc
    simp only [hfreep]

theorem Sound.malloc (h : heap.Sound) {nbytes : Nat} {gap result : Option Nat}
    (hmalloc : heap.malloc turns nbytes gap = some (next, result)) : next.Sound := by
  obtain ⟨first, nodes, freep, hkept, hfreep, hsearch⟩ := h.malloc_eq
  rw [hsearch] at hmalloc
  obtain ⟨other, hmem, hother⟩ := hkept.freep
  obtain rfl := some.inj (hfreep.symm.trans hother)
  exact .inr (search_kept hkept hmem rfl hmalloc)

-- The block leaves those in use, and is in none for a moment.
theorem Kept.release (h : heap.Kept nodes) (hlive : heap.isLive bp = true) :
    (heap.release bp).Ring nodes ∧ (heap.release bp).Owned (bp :: nodes) ∧ 0 < (heap.release bp).size bp := by
  obtain ⟨block, hblock, heq⟩ := any_eq_true.mp hlive
  obtain rfl := beq_iff_eq.mp heq
  have hmem : block.1 ∈ heap.live.map Prod.fst := mem_map_of_mem hblock
  have herase : (heap.release block.1).live.map Prod.fst = (heap.live.map Prod.fst).erase block.1 := by
    rw [erase_eq_eraseP', eraseP_map]
    rfl
  refine ⟨h.ring.of_eq fun _ _ => ⟨rfl, rfl⟩,
    ⟨fun unit => ?_, h.owned.inside, h.owned.brk_pos, fun other hother => ?_⟩, h.owned.live_size_pos hmem⟩
  · have hcover := h.owned.cover unit
    have hone := covers_erase heap.size unit hmem
    rw [herase]
    simp only [cons_append, covers_cons, covers_append] at hcover ⊢
    simp only [Heap.release]
    omega
  · exact h.owned.fits other (mem_of_mem_eraseP hother)

theorem Sound.free (h : heap.Sound) (hlive : heap.isLive bp = true)
    (hfree : (heap.release bp).free turns bp = some next) : next.Sound := by
  rcases h with hfresh | ⟨nodes, hkept⟩
  · simp [isLive, hfresh.live] at hlive
  · obtain ⟨freep, hmem, hfreep⟩ := hkept.freep
    obtain ⟨hring, howned, hpos⟩ := hkept.release hlive
    obtain ⟨others, hothers, -⟩ := free_kept hring howned hpos hfreep hmem hfree
    exact .inr ⟨others, hothers⟩

theorem Sound.free_isSome (h : heap.Sound) :
    ∃ bound, ∀ turns > bound, ∀ bp, heap.isLive bp = true → ((heap.release bp).free turns bp).isSome := by
  rcases h with hfresh | ⟨nodes, hkept⟩
  · refine ⟨0, fun turns _ bp hlive => ?_⟩
    simp [isLive, hfresh.live] at hlive
  · obtain ⟨freep, hmem, hfreep⟩ := hkept.freep
    refine ⟨nodes.length, fun turns hturns bp hlive => ?_⟩
    obtain ⟨hring, howned, hpos⟩ := hkept.release hlive
    exact Heap.free_isSome hring howned hpos hfreep hmem hturns

theorem Sound.store (h : heap.Sound) {unit : Nat} (hunit : heap.usable unit = true) (ptr size : Nat) :
    ((heap.setPtr unit ptr).setSize unit size).Sound := by
  rcases h with hfresh | ⟨nodes, h⟩
  · simp [usable, hfresh.live] at hunit
  · obtain ⟨block, hblock, hinside⟩ := any_eq_true.mp hunit
    simp only [Bool.and_eq_true, decide_eq_true_eq] at hinside
    have hmem : block.1 ∈ heap.live.map Prod.fst := mem_map_of_mem hblock
    have hnot := h.not_header (mem_append_right _ hmem) hinside.1 hinside.2
    have hsame : ∀ other ∈ nodes ++ heap.live.map Prod.fst, update heap.ptr unit ptr other = heap.ptr other ∧
        update heap.size unit size other = heap.size other := by
      intro other hother
      have hne : other ≠ unit := by
        rintro rfl
        exact hnot hother
      exact ⟨update_of_ne hne _ _, update_of_ne hne _ _⟩
    have hnodes := fun other hother => hsame other (mem_append_left _ hother)
    refine .inr ⟨nodes, h.freep, h.ring.of_eq hnodes,
      h.owned.change rfl rfl rfl (fun other hother => ?_) fun unit => ?_⟩
    · exact (hsame other (mem_append_right _ hother)).2
    · exact covers_congr fun other hother => (hnodes other hother).2

theorem Reach.sound (h : Reach heap) : heap.Sound := by
  refine h.invariant Sound (fun _ hstart => .inl hstart) fun heap next call hsound _ hstep => ?_
  cases call with
  | malloc turns nbytes gap =>
    obtain ⟨pair, hmalloc, rfl⟩ := map_eq_some_iff.mp hstep
    exact hsound.malloc hmalloc
  | free turns bp =>
    obtain ⟨hlive, hfree⟩ := ite_none_right_eq_some.mp hstep
    exact hsound.free hlive hfree
  | store unit ptr size =>
    obtain ⟨hunit, hstore⟩ := ite_none_right_eq_some.mp hstep
    obtain rfl := some.inj hstore
    exact hsound.store hunit ptr size

-- The free list in a circle from `base` on, in the order of the addresses and with a gap between any
-- two, and the units of the memory in the blocks.
structure Tidy (heap : Heap) (freep : Nat) (rest : List Nat) : Prop where
  freep : heap.freep = some freep ∧ freep ∈ 0 :: rest
  circular : Circular heap.ptr 0 rest
  ordered : (0 :: rest).IsChain fun block next => block + heap.size block < next
  disjoint : (rest ++ heap.live.map Prod.fst).Pairwise fun one two =>
    ∀ unit, inBlock one (heap.size one) unit + inBlock two (heap.size two) unit ≤ 1
  once : ∀ unit, covers heap.size (rest ++ heap.live.map Prod.fst) unit = (heap.obtained unit).toNat
  large : ∀ block ∈ heap.live, block.2 ≤ 8 * (heap.size block.1 - 1)

theorem Kept.tidy (h : heap.Kept nodes) : ∃ freep rest, heap.Tidy freep rest := by
  obtain ⟨freep, hmem, hfreep⟩ := h.freep
  obtain ⟨rest, rfl, hcircular⟩ := h.ring.exists_cons
  have honce : ∀ unit, covers heap.size (rest ++ heap.live.map Prod.fst) unit = (heap.obtained unit).toNat := by
    intro unit
    have hcover := h.owned.cover unit
    rwa [cons_append, covers_cons, h.ring.base, inBlock_zero, Nat.zero_add] at hcover
  refine ⟨freep, rest, ⟨hfreep, hmem⟩, hcircular, h.ring.spaced, covers_pairwise fun unit => ?_, honce,
    fun block hblock => ?_⟩
  · rw [honce]
    exact Bool.toNat_le _
  · rw [h.owned.fits block hblock, nunits]
    omega

theorem reach_tidy (h : Reach heap) : (heap.Fresh ∨ ∃ freep rest, heap.Tidy freep rest) ∧
    ∃ bound, ∀ turns > bound, (∀ nbytes gap, (heap.malloc turns nbytes gap).isSome) ∧
      ∀ bp, heap.isLive bp = true → ((heap.release bp).free turns bp).isSome := by
  have hsound := h.sound
  refine ⟨hsound.imp_right fun hkept => hkept.elim fun _ hkept => hkept.tidy, ?_⟩
  obtain ⟨first, nodes, freep, hfirst, hfreep, hmalloc⟩ := hsound.malloc_eq
  obtain ⟨bound, hfree⟩ := hsound.free_isSome
  refine ⟨2 * nodes.length + bound, fun turns hturns => ⟨fun nbytes gap => ?_, hfree turns (by omega)⟩⟩
  rw [hmalloc]
  exact hfirst.search_isSome hfreep (by omega)

-- Two blocks from the upper end of the first memory, of which the first is free again.
theorem reach_tidy_pair : ∃ heap, Reach heap ∧ heap.live = [(4090, 20)] ∧ ∃ freep rest, heap.Tidy freep rest := by
  have hstart : Fresh ⟨fun _ => 0, fun _ => 0, none, 1, fun _ => false, []⟩ := ⟨rfl, by decide, fun _ => rfl, rfl⟩
  obtain ⟨heap, hreach, hlive⟩ : ∃ heap, Reach heap ∧ heap.live = [(4090, 20)] :=
    exists_reach hstart [.malloc 5 10 (some 0), .malloc 5 20 none, .store 4095 7 7, .free 5 4094] ⟨_, rfl, rfl⟩
  refine ⟨heap, hreach, hlive, (reach_tidy hreach).1.resolve_left fun hfresh => ?_⟩
  rw [hfresh.live] at hlive
  exact absurd hlive (by decide)

end Heap

end Xv6

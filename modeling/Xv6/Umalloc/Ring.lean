import Mathlib.Order.Basic
import Xv6.Cover
import Xv6.Umalloc

namespace Xv6

open Function List

namespace Heap

variable {heap : Heap} {nodes before after : List Nat} {p bp : Nat}

-- In the order of their addresses, and no block ends where the next begins.
abbrev Spaced (heap : Heap) (nodes : List Nat) : Prop :=
  nodes.IsChain fun block next => block + heap.size block < next

-- The blocks of the free list, from `base` on.
structure Ring (heap : Heap) (nodes : List Nat) : Prop where
  head : nodes.head? = some 0
  linked : Linked heap.ptr (nodes ++ [0])
  spaced : heap.Spaced nodes
  base : heap.size 0 = 0
  size_pos : ∀ block ∈ nodes, block ≠ 0 → 0 < heap.size block

-- Each unit that sbrk has returned is in one of these blocks or in one in use, and in one only.
structure Owned (heap : Heap) (nodes : List Nat) : Prop where
  cover : ∀ unit, covers heap.size (nodes ++ heap.live.map Prod.fst) unit = (heap.obtained unit).toNat
  inside : ∀ unit, heap.obtained unit = true → 0 < unit ∧ unit < heap.brk
  brk_pos : 0 < heap.brk
  fits : ∀ block ∈ heap.live, heap.size block.1 = nunits block.2

theorem Spaced.sorted (h : heap.Spaced nodes) : nodes.Pairwise (· < ·) := by
  refine isChain_iff_pairwise.mp (h.imp ?_)
  intro block next hlt
  omega

variable {next : Heap} {others : List Nat}

-- Headers of other blocks are written.
theorem linked_of_eq (h : Linked heap.ptr (nodes ++ [p])) (hptr : ∀ block ∈ nodes, next.ptr block = heap.ptr block) :
    Linked next.ptr (nodes ++ [p]) := by
  refine isChain_of_dropLast h fun block hblock _ heq => ?_
  rw [dropLast_concat] at hblock
  exact (hptr block hblock).trans heq

theorem spaced_of_eq (h : heap.Spaced nodes) (hsize : ∀ block ∈ nodes.dropLast, next.size block = heap.size block) :
    next.Spaced nodes := by
  refine isChain_of_dropLast h fun block hblock _ hlt => ?_
  rwa [hsize block hblock]

-- The list up to `p`, and what follows behind it.
structure Below (heap : Heap) (before : List Nat) (p : Nat) : Prop where
  head : (before ++ [p]).head? = some 0
  linked : Linked heap.ptr (before ++ [p])
  spaced : heap.Spaced (before ++ [p])

structure Above (heap : Heap) (after : List Nat) : Prop where
  linked : Linked heap.ptr (after ++ [0])
  spaced : heap.Spaced after

-- `p` points to the first of these, or to `base`, and does not touch it.
structure Joins (heap : Heap) (p : Nat) (after : List Nat) : Prop where
  ptr : heap.ptr p = after.headD 0
  apart : ∀ next ∈ after.head?, p + heap.size p < next

theorem Below.of_eq (h : heap.Below before p)
    (hsame : ∀ block ∈ before, next.ptr block = heap.ptr block ∧ next.size block = heap.size block) :
    next.Below before p where
  head := h.head
  linked := linked_of_eq h.linked fun block hblock => (hsame block hblock).1
  spaced := by
    refine spaced_of_eq h.spaced fun block hblock => (hsame block ?_).2
    rwa [dropLast_concat] at hblock

theorem Above.of_eq (h : heap.Above after)
    (hsame : ∀ block ∈ after, next.ptr block = heap.ptr block ∧ next.size block = heap.size block) :
    next.Above after where
  linked := linked_of_eq h.linked fun block hblock => (hsame block hblock).1
  spaced := spaced_of_eq h.spaced fun block hblock => (hsame block (List.dropLast_subset _ hblock)).2

theorem Above.cons_iff : heap.Above (p :: after) ↔ heap.Joins p after ∧ heap.Above after := by
  have hhead : (∀ next ∈ (after ++ [0]).head?, heap.ptr p = next) ↔ heap.ptr p = after.headD 0 := by
    cases after with
    | nil => simp
    | cons next after => simp
  constructor
  · intro h
    obtain ⟨hptr, hlinked⟩ := isChain_cons.mp h.linked
    obtain ⟨hapart, hspaced⟩ := isChain_cons.mp h.spaced
    exact ⟨⟨hhead.mp hptr, hapart⟩, hlinked, hspaced⟩
  · intro h
    exact ⟨isChain_cons.mpr ⟨hhead.mpr h.1.ptr, h.2.linked⟩, isChain_cons.mpr ⟨h.1.apart, h.2.spaced⟩⟩

theorem Ring.below (h : heap.Ring (before ++ p :: after)) : heap.Below before p := by
  have hlinked := h.linked
  rw [append_assoc, cons_append] at hlinked
  refine ⟨?_, (isChain_split.mp hlinked).1, (isChain_split.mp h.spaced).1⟩
  have hhead := h.head
  cases before with
  | nil => exact hhead
  | cons first before => exact hhead

theorem Ring.above (h : heap.Ring (before ++ p :: after)) : heap.Above (p :: after) := by
  have hlinked := h.linked
  rw [append_assoc, cons_append] at hlinked
  exact ⟨(isChain_split.mp hlinked).2, (isChain_split.mp h.spaced).2⟩

theorem Below.ring (h : heap.Below before p) (habove : heap.Above (p :: after)) (hbase : heap.size 0 = 0)
    (hpos : ∀ block ∈ before ++ p :: after, block ≠ 0 → 0 < heap.size block) : heap.Ring (before ++ p :: after) where
  head := by
    have hhead := h.head
    cases before with
    | nil => exact hhead
    | cons first before => exact hhead
  linked := by
    rw [append_assoc, cons_append]
    exact isChain_split.mpr ⟨h.linked, habove.linked⟩
  spaced := isChain_split.mpr ⟨h.spaced, habove.spaced⟩
  base := hbase
  size_pos := hpos

theorem Below.lt (h : heap.Below before p) : ∀ block ∈ before, block < p :=
  fun block hblock => (List.pairwise_append.mp h.spaced.sorted).2.2 block hblock p (List.mem_singleton_self _)

theorem Above.lt (h : heap.Above (p :: after)) : ∀ block ∈ after, p < block :=
  (List.pairwise_cons.mp h.spaced.sorted).1

theorem Ring.of_eq (h : heap.Ring nodes)
    (hsame : ∀ block ∈ nodes, next.ptr block = heap.ptr block ∧ next.size block = heap.size block) :
    next.Ring nodes where
  head := h.head
  linked := linked_of_eq h.linked fun block hblock => (hsame block hblock).1
  spaced := spaced_of_eq h.spaced fun block hblock => (hsame block (List.dropLast_subset _ hblock)).2
  base := (hsame 0 (List.mem_of_mem_head? h.head)).2.trans h.base
  size_pos := by
    intro block hblock hne
    rw [(hsame block hblock).2]
    exact h.size_pos block hblock hne

theorem nunits_pos (nbytes : Nat) : 0 < nunits nbytes := Nat.succ_pos _

section

variable (h : heap.Owned nodes)

include h

theorem Owned.cover_le (unit : Nat) : covers heap.size (nodes ++ heap.live.map Prod.fst) unit ≤ 1 := by
  rw [h.cover]
  exact Bool.toNat_le _

theorem Owned.start_inside (hp : p ∈ nodes ++ heap.live.map Prod.fst)
    (hpos : 0 < heap.size p) : 0 < p ∧ p < heap.brk := by
  have hle := inBlock_le_covers heap.size p hp
  rw [inBlock_start hpos, h.cover] at hle
  refine h.inside p ?_
  cases hobtained : heap.obtained p with
  | true => rfl
  | false =>
    rw [hobtained] at hle
    exact absurd hle (by decide)

theorem Owned.live_size_pos (hp : p ∈ heap.live.map Prod.fst) : 0 < heap.size p := by
  obtain ⟨block, hblock, rfl⟩ := mem_map.mp hp
  rw [h.fits block hblock]
  exact nunits_pos _

theorem Owned.not_live (hp : p ∈ nodes) : p ∉ heap.live.map Prod.fst := by
  intro hlive
  have hone := inBlock_le_covers heap.size p hp
  have htwo := inBlock_le_covers heap.size p hlive
  have hle := h.cover_le p
  rw [covers_append] at hle
  rw [inBlock_start (h.live_size_pos hlive)] at hone htwo
  omega

-- The same units in other blocks, where those in use stay as they are.
theorem Owned.change (hlive : next.live = heap.live)
    (hobtained : next.obtained = heap.obtained) (hbrk : next.brk = heap.brk)
    (hsize : ∀ block ∈ heap.live.map Prod.fst, next.size block = heap.size block)
    (hcover : ∀ unit, covers next.size others unit = covers heap.size nodes unit) : next.Owned others := by
  refine ⟨?_, ?_, hbrk ▸ h.brk_pos, ?_⟩
  · intro unit
    rw [covers_append, hlive, hobtained, hcover, covers_congr hsize, ← covers_append]
    exact h.cover unit
  · rw [hobtained, hbrk]
    exact h.inside
  · intro block hblock
    rw [hlive] at hblock
    rw [hsize block.1 (mem_map_of_mem hblock)]
    exact h.fits block hblock

end

theorem Owned.near (h : heap.Owned (bp :: (before ++ p :: after))) (hpos : 0 < heap.size bp) (hlt : p < bp) :
    p + heap.size p ≤ bp := by
  have hle := h.cover_le bp
  simp only [cons_append, covers_cons, covers_append] at hle
  refine inBlock_apart hlt hpos ?_
  omega

theorem Owned.near_next (h : heap.Owned (bp :: (before ++ p :: after))) {next : Nat} (hnext : next ∈ after)
    (hpos : 0 < heap.size next) (hlt : bp < next) : bp + heap.size bp ≤ next := by
  have hle := h.cover_le next
  have hin := inBlock_le_covers heap.size next hnext
  simp only [cons_append, covers_cons, covers_append] at hle
  refine inBlock_apart hlt hpos ?_
  omega

-- Only the header of this block has changed.
structure Writes (heap next : Heap) (block : Nat) : Prop where
  other : ∀ other ≠ block, next.ptr other = heap.ptr other ∧ next.size other = heap.size other
  live : next.live = heap.live
  obtained : next.obtained = heap.obtained
  brk : next.brk = heap.brk

theorem joinNext_writes (heap : Heap) (p bp : Nat) : heap.Writes (heap.joinNext p bp) bp := by
  unfold joinNext
  dsimp only
  split_ifs
  · exact ⟨fun _ hne => ⟨update_of_ne hne _ _, update_of_ne hne _ _⟩, rfl, rfl, rfl⟩
  · exact ⟨fun _ hne => ⟨update_of_ne hne _ _, rfl⟩, rfl, rfl, rfl⟩

theorem joinPrev_writes (heap : Heap) (p bp : Nat) : heap.Writes (heap.joinPrev p bp) p := by
  unfold joinPrev
  split_ifs
  · exact ⟨fun _ hne => ⟨update_of_ne hne _ _, update_of_ne hne _ _⟩, rfl, rfl, rfl⟩
  · exact ⟨fun _ hne => ⟨update_of_ne hne _ _, rfl⟩, rfl, rfl, rfl⟩

theorem Writes.owned (h : heap.Writes next bp) (howned : heap.Owned nodes) (hbp : bp ∈ nodes)
    (hcover : ∀ unit, covers next.size others unit = covers heap.size nodes unit) : next.Owned others := by
  refine howned.change h.live h.obtained h.brk (fun block hblock => (h.other block ?_).2) hcover
  rintro rfl
  exact howned.not_live hbp hblock

theorem Writes.covers_eq (h : heap.Writes next bp) (hbp : bp ∉ nodes) (unit : Nat) :
    covers next.size nodes unit = covers heap.size nodes unit := by
  refine covers_congr fun block hblock => (h.other block ?_).2
  rintro rfl
  exact hbp hblock

theorem Writes.ring (h : heap.Writes next p) (hbelow : heap.Below before p) (habove : heap.Above after)
    (hafter : ∀ block ∈ after, p < block) (hjoins : next.Joins p after) (hbase : next.size 0 = 0)
    (hpos : ∀ block ∈ before ++ p :: after, block ≠ 0 → 0 < next.size block) : next.Ring (before ++ p :: after) := by
  refine (hbelow.of_eq fun block hblock => h.other block ?_).ring
    (Above.cons_iff.mpr ⟨hjoins, habove.of_eq fun block hblock => h.other block ?_⟩) hbase hpos
  · exact Nat.ne_of_lt (hbelow.lt block hblock)
  · exact Nat.ne_of_gt (hafter block hblock)

-- A block goes between `p` and what follows. It may touch both.
structure Fits (heap : Heap) (before : List Nat) (p bp : Nat) (after : List Nat) : Prop where
  ring : heap.Ring (before ++ p :: after)
  owned : heap.Owned (bp :: (before ++ p :: after))
  size_pos : 0 < heap.size bp
  lt : p < bp
  after_lt : ∀ next ∈ after, bp < next

-- It points to the next, and does not touch it any more.
structure Placed (heap : Heap) (before : List Nat) (p bp : Nat) (after : List Nat) : Prop where
  below : heap.Below before p
  above : heap.Above (bp :: after)
  lt : p < bp
  near : p + heap.size p ≤ bp
  base : heap.size 0 = 0
  size_pos : ∀ block ∈ before ++ p :: bp :: after, block ≠ 0 → 0 < heap.size block
  owned : heap.Owned (before ++ p :: bp :: after)

theorem Fits.placed (rest : List Nat) (h : heap.Fits before p bp (rest ++ after)) (hwrites : heap.Writes next bp)
    (hjoins : next.Joins bp after) (hpos : 0 < next.size bp)
    (hcover : ∀ unit, inBlock bp (next.size bp) unit = inBlock bp (heap.size bp) unit + covers heap.size rest unit) :
    next.Placed before p bp after := by
  have hlow := h.ring.below.lt
  have hlt := h.lt
  have hbefore : ∀ block ∈ before, block ≠ bp := by
    intro block hblock
    have := hlow block hblock
    omega
  have hafter : ∀ block ∈ after, block ≠ bp := by
    intro block hblock
    have := h.after_lt block (mem_append_right _ hblock)
    omega
  have habove : heap.Above after := by
    obtain ⟨-, hall⟩ := Above.cons_iff.mp h.ring.above
    have hlinked := hall.linked
    rw [append_assoc] at hlinked
    exact ⟨hlinked.right_of_append, hall.spaced.right_of_append⟩
  refine ⟨h.ring.below.of_eq fun block hblock => hwrites.other block (hbefore block hblock),
    Above.cons_iff.mpr ⟨hjoins, habove.of_eq fun block hblock => hwrites.other block (hafter block hblock)⟩,
    hlt, ?_, ?_, ?_, ?_⟩
  · rw [(hwrites.other p (by omega)).2]
    exact h.owned.near h.size_pos hlt
  · rw [(hwrites.other 0 (by omega)).2]
    exact h.ring.base
  · intro block hblock hne
    by_cases heq : block = bp
    · rwa [heq]
    · rw [(hwrites.other block heq).2]
      refine h.ring.size_pos block ?_ hne
      simp only [mem_append, mem_cons, heq, false_or] at hblock ⊢
      tauto
  · refine hwrites.owned h.owned mem_cons_self fun unit => ?_
    have hone := hwrites.covers_eq (fun hmem => hbefore bp hmem rfl) unit
    have htwo := hwrites.covers_eq (fun hmem => hafter bp hmem rfl) unit
    have hunit := hcover unit
    simp only [covers_append, covers_cons]
    rw [hone, htwo, (hwrites.other p (by omega)).2]
    omega

theorem Fits.joinNext (h : heap.Fits before p bp after) :
    ∃ others, (heap.joinNext p bp).Placed before p bp others ∧ heap.size bp ≤ (heap.joinNext p bp).size bp ∧
      others.length ≤ after.length := by
  obtain ⟨hjoins, habove⟩ := Above.cons_iff.mp h.ring.above
  have hwrites := joinNext_writes heap p bp
  have hpos := h.size_pos
  by_cases htouch : bp + heap.size bp = heap.ptr p
  · have hjoin : heap.joinNext p bp =
        (heap.setSize bp (heap.size bp + heap.size (heap.ptr p))).setPtr bp (heap.ptr (heap.ptr p)) := if_pos htouch
    have hsize : (heap.joinNext p bp).size bp = heap.size bp + heap.size (heap.ptr p) := by
      rw [hjoin]
      exact update_self ..
    have hptr : (heap.joinNext p bp).ptr bp = heap.ptr (heap.ptr p) := by
      rw [hjoin]
      exact update_self ..
    have hfirst := hjoins.ptr
    cases after with
    | nil =>
      rw [headD_nil] at hfirst
      omega
    | cons next rest =>
      rw [headD_cons] at hfirst
      rw [hfirst] at htouch hsize hptr
      obtain ⟨hnext, -⟩ := Above.cons_iff.mp habove
      refine ⟨rest, Fits.placed [next] h hwrites ⟨hptr.trans hnext.ptr, fun other hother => ?_⟩ ?_ fun unit => ?_,
        ?_, ?_⟩
      · have := hnext.apart other hother
        omega
      · omega
      · rw [hsize, inBlock_add, htouch, covers_cons, covers_nil, Nat.add_zero]
      · omega
      · exact Nat.le_succ _
  · have hjoin : heap.joinNext p bp = heap.setPtr bp (heap.ptr p) := if_neg htouch
    have hsize : (heap.joinNext p bp).size = heap.size := by
      rw [hjoin]
      rfl
    have hptr : (heap.joinNext p bp).ptr bp = heap.ptr p := by
      rw [hjoin]
      exact update_self ..
    refine ⟨after, Fits.placed [] h hwrites ⟨hptr.trans hjoins.ptr, fun next hnext => ?_⟩ ?_ fun unit => ?_, ?_, le_rfl⟩
    · have hmem := mem_of_mem_head? hnext
      have hlt := h.after_lt next hmem
      have hle := h.owned.near_next hmem (h.ring.size_pos next (by simp [hmem]) (by omega)) hlt
      have hfirst := hjoins.ptr
      rw [headD_eq_head?_getD, Option.mem_def.mp hnext, Option.getD_some] at hfirst
      rw [hsize]
      omega
    · rwa [hsize]
    · rw [hsize, covers_nil, Nat.add_zero]
    · rw [hsize]

theorem Placed.joinPrev (h : heap.Placed before p bp after) :
    ∃ nodes, (heap.joinPrev p bp).Ring nodes ∧ (heap.joinPrev p bp).Owned nodes ∧ p ∈ nodes ∧
      (∃ block ∈ nodes, heap.size bp ≤ (heap.joinPrev p bp).size block) ∧
        nodes.length ≤ before.length + after.length + 2 := by
  obtain ⟨hjoins, habove⟩ := Above.cons_iff.mp h.above
  have hwrites := joinPrev_writes heap p bp
  have hlt := h.lt
  have hbp := h.size_pos bp (by simp) (by omega)
  have hafter := h.above.lt
  have hbefore := hwrites.covers_eq fun hmem => Nat.lt_irrefl _ (h.below.lt p hmem)
  have hrest := hwrites.covers_eq fun hmem => Nat.lt_asymm hlt (hafter p hmem)
  by_cases htouch : p + heap.size p = bp
  · have hjoin : heap.joinPrev p bp =
        (heap.setSize p (heap.size p + heap.size bp)).setPtr p (heap.ptr bp) := if_pos htouch
    have hsize : (heap.joinPrev p bp).size p = heap.size p + heap.size bp := by
      rw [hjoin]
      exact update_self ..
    have hptr : (heap.joinPrev p bp).ptr p = heap.ptr bp := by
      rw [hjoin]
      exact update_self ..
    -- `base` has no units, so that nothing but itself begins at its end.
    have hne : 0 ≠ p := by
      rintro rfl
      have := h.base
      omega
    refine ⟨before ++ p :: after, hwrites.ring h.below habove (fun block hblock => hlt.trans (hafter block hblock))
      ⟨hptr.trans hjoins.ptr, fun next hnext => ?_⟩ ?_ fun block hblock hzero => ?_, ?_, by simp,
      ⟨p, by simp, by omega⟩, by simp; omega⟩
    · have := hjoins.apart next hnext
      omega
    · rw [(hwrites.other 0 hne).2]
      exact h.base
    · by_cases heq : block = p
      · rw [heq, hsize]
        omega
      · rw [(hwrites.other block heq).2]
        refine h.size_pos block ?_ hzero
        simp only [mem_append, mem_cons] at hblock ⊢
        tauto
    · refine hwrites.owned h.owned (by simp) fun unit => ?_
      simp only [covers_append, covers_cons]
      rw [hbefore, hrest, hsize, inBlock_add, htouch]
      omega
  · have hjoin : heap.joinPrev p bp = heap.setPtr p bp := if_neg htouch
    have hsize : (heap.joinPrev p bp).size = heap.size := by
      rw [hjoin]
      rfl
    have hptr : (heap.joinPrev p bp).ptr p = bp := by
      rw [hjoin]
      exact update_self ..
    refine ⟨before ++ p :: bp :: after, hwrites.ring h.below h.above (fun block hblock => ?_)
      ⟨hptr, fun next hnext => ?_⟩ ?_ ?_, ?_, by simp, ⟨bp, by simp, by rw [hsize]⟩, by simp; omega⟩
    · rcases mem_cons.mp hblock with rfl | hblock
      · exact hlt
      · exact hlt.trans (hafter block hblock)
    · obtain rfl := Option.some.inj hnext
      have := h.near
      rw [hsize]
      omega
    · rw [hsize]
      exact h.base
    · rw [hsize]
      exact h.size_pos
    · refine hwrites.owned h.owned (by simp) fun unit => ?_
      rw [hsize]

end Heap

end Xv6

import Xv6.Memory
import Xv6.Umalloc.Theorems
import Xv6.Vm.Growproc

namespace Xv6

open BitVec

namespace Heap

-- The arithmetic of malloc and morecore on a uint. What sbrk gets is an int.
def units (nbytes : Word) : Word := (nbytes + 7) / 8 + 1

def coreUnits (nu : Word) : Word := if nu < 4096 then 4096 else nu

def coreBytes (nu : Word) : Word := coreUnits nu * 8

-- How many units a process is larger after sbrk(n) has returned its old size: growproc takes a count
-- that is not positive for one to make the process smaller.
def granted (n : Word) : Nat := if 0 < n.toInt then n.toNat / 8 else 0

-- The block gets the size that malloc has asked for, whatever sbrk has done.
def extendWord (heap : Heap) (gap : Nat) (nu : Word) : Heap :=
  let got := granted (coreBytes nu)
  { heap.setSize (heap.brk + gap) (coreUnits nu).toNat with
    brk := heap.brk + gap + got
    obtained := fun unit => heap.obtained unit || (heap.brk + gap ≤ unit && unit < heap.brk + gap + got) }

def morecoreWord (heap : Heap) (turns : Nat) (nu : Word) (gap : Option Nat) : Option (Heap × Option Nat) :=
  match gap with
  | none => some (heap, none)
  | some gap => ((heap.extendWord gap nu).free turns (heap.brk + gap)).map fun heap => (heap, heap.freep)

def searchWord (nbytes nunits : Word) (gap : Option Nat) : Nat → Heap → Nat → Nat → Option (Heap × Option Nat)
  | 0, _, _, _ => none
  | turns + 1, heap, prevp, p =>
    if nunits.toNat ≤ heap.size p then some (heap.take nbytes.toNat nunits.toNat prevp p)
    else if heap.freep = some p then
      match heap.morecoreWord turns nunits gap with
      | none => none
      | some (heap, none) => some (heap, none)
      | some (heap, some p) => searchWord nbytes nunits gap turns heap p (heap.ptr p)
    else searchWord nbytes nunits gap turns heap p (heap.ptr p)

def mallocWord (heap : Heap) (turns : Nat) (nbytes : Word) (gap : Option Nat) : Option (Heap × Option Nat) :=
  let heap :=
    match heap.freep with
    | none => heap.firstList
    | some _ => heap
  match heap.freep with
  | none => none
  | some prevp => searchWord nbytes (units nbytes) gap turns heap prevp (heap.ptr prevp)

-- The block has room for what was asked for, and all of it was obtained.
structure Serves (heap : Heap) (p : Nat) (nbytes : Word) : Prop where
  large : nbytes.toNat ≤ 8 * (heap.size p - 1)
  obtained (unit : Nat) (hle : p ≤ unit) (hlt : unit < p + heap.size p) : heap.obtained unit = true

variable {heap next : Heap} {turns p prevp : Nat} {nbytes : Word} {gap : Option Nat}

theorem units_pos (nbytes : Word) : 0 < (units nbytes).toNat := by
  have hlt : ((nbytes + 7) / 8).toNat < 2 ^ 29 := by
    rw [toNat_udiv]
    have := (nbytes + 7).isLt
    change (nbytes + 7).toNat / 8 < _
    omega
  unfold units
  generalize (nbytes + 7) / 8 = quotient at hlt
  bv_omega

theorem le_coreUnits (nu : Word) : nu.toNat ≤ (coreUnits nu).toNat := by
  unfold coreUnits
  split_ifs <;> bv_omega

section Small

variable (hsmall : nbytes.toNat ≤ 2 ^ 31 - 16)
include hsmall

theorem units_toNat : (units nbytes).toNat = nunits nbytes.toNat := by
  have hadd : (nbytes + 7).toNat = nbytes.toNat + 7 := by bv_omega
  have hdiv : ((nbytes + 7) / 8).toNat = (nbytes.toNat + 7) / 8 := by
    rw [toNat_udiv, hadd]
    rfl
  unfold units nunits
  bv_omega

theorem coreBytes_toInt : (coreBytes (units nbytes)).toInt = 8 * (coreUnits (units nbytes)).toNat := by
  have hunits := units_toNat hsmall
  unfold nunits at hunits
  have hcore : (coreUnits (units nbytes)).toNat < 2 ^ 28 := by
    unfold coreUnits
    split_ifs <;> bv_omega
  have hbytes : (coreBytes (units nbytes)).toNat = (coreUnits (units nbytes)).toNat * 8 := by
    unfold coreBytes
    bv_omega
  rw [toInt_eq_toNat_of_lt (by omega), hbytes]
  omega

theorem granted_eq : granted (coreBytes (units nbytes)) = (coreUnits (units nbytes)).toNat := by
  have hbytes := coreBytes_toInt hsmall
  have hpos := (units_pos nbytes).trans_le (le_coreUnits (units nbytes))
  rw [granted, if_pos (by omega)]
  rw [toInt_eq_toNat_cond] at hbytes
  split_ifs at hbytes <;> omega

theorem morecoreWord_eq :
    heap.morecoreWord turns (units nbytes) gap = heap.morecore turns (nunits nbytes.toNat) gap := by
  have hcore : (coreUnits (units nbytes)).toNat = if nunits nbytes.toNat < 4096 then 4096 else nunits nbytes.toNat := by
    rw [← units_toNat hsmall]
    unfold coreUnits
    split_ifs <;> bv_omega
  cases gap with
  | none => rfl
  | some gap => simp only [morecoreWord, morecore, extendWord, extend, granted_eq hsmall, hcore]

theorem searchWord_eq : searchWord nbytes (units nbytes) gap turns heap prevp p =
    search nbytes.toNat (nunits nbytes.toNat) gap turns heap prevp p := by
  induction turns generalizing heap prevp p with
  | zero => rfl
  | succ turns ih =>
    rw [searchWord, search, units_toNat hsmall, morecoreWord_eq hsmall, ih]
    congr 2
    rcases heap.morecore turns (nunits nbytes.toNat) gap with _ | ⟨next, _ | block⟩
    · rfl
    · rfl
    · exact ih

theorem mallocWord_eq : heap.mallocWord turns nbytes gap = heap.malloc turns nbytes.toNat gap := by
  cases hfreep : heap.freep with
  | none => simp only [mallocWord, malloc, hfreep, firstList, searchWord_eq hsmall]
  | some first => simp only [mallocWord, malloc, hfreep, searchWord_eq hsmall]

end Small

theorem search_live {nbytes nunits : Nat} (h : search nbytes nunits gap turns heap prevp p = some (next, some bp)) :
    (bp, nbytes) ∈ next.live := by
  induction turns generalizing heap prevp p with
  | zero => cases h
  | succ turns ih =>
    rw [search] at h
    split_ifs at h
    · unfold take at h
      split_ifs at h <;> cases h <;> exact List.mem_cons_self
    · split at h
      · cases h
      · cases h
      · exact ih h
    · exact ih h

theorem Kept.serves (h : heap.Kept nodes) (hlive : (p, nbytes.toNat) ∈ heap.live) : heap.Serves p nbytes := by
  have hsize := h.owned.fits _ hlive
  refine ⟨?_, fun unit hle hlt => ?_⟩
  · rw [hsize, nunits]
    omega
  · have hcover := h.owned.cover unit
    have hmem : p ∈ nodes ++ heap.live.map Prod.fst := List.mem_append_right _ (List.mem_map_of_mem hlive)
    have hone := covers_erase heap.size unit hmem
    have hin := inBlock_pos_iff.mpr ⟨hle, hlt⟩
    cases hobtained : heap.obtained unit with
    | true => rfl
    | false =>
      rw [hobtained, Bool.toNat_false] at hcover
      omega

theorem Sound.serves (h : heap.Sound) (hsmall : nbytes.toNat ≤ 2 ^ 31 - 16)
    (hmalloc : heap.mallocWord turns nbytes gap = some (next, some p)) : next.Serves p nbytes := by
  rw [mallocWord_eq hsmall] at hmalloc
  obtain ⟨first, nodes, freep, hkept, hfreep, hsearch⟩ := h.malloc_eq
  rw [hsearch] at hmalloc
  obtain ⟨other, hmem, hother⟩ := hkept.freep
  obtain rfl := Option.some.inj (hfreep.symm.trans hother)
  obtain ⟨others, hnext⟩ := search_kept hkept hmem rfl hmalloc
  exact hnext.serves (search_live hmalloc)

-- The memory after the first call of sbrk, which has returned the end of the memory.
def firstCore (heap : Heap) (nu : Word) : Heap :=
  { (((heap.firstList.extendWord 0 nu).setPtr heap.brk 0).setPtr 0 heap.brk) with freep := some 0 }

theorem mallocWord_of_fresh (h : heap.Fresh) (nbytes : Word) : heap.mallocWord 3 nbytes (some 0) =
    some ((heap.firstCore (units nbytes)).take nbytes.toNat (units nbytes).toNat 0 heap.brk) := by
  have hne : heap.brk ≠ 0 := by
    have := h.brk_pos
    omega
  have hpos := units_pos nbytes
  have hcore : heap.firstList.morecoreWord 2 (units nbytes) (some 0) =
      some (heap.firstCore (units nbytes), some 0) := by
    simp [morecoreWord, free, firstList, extendWord, setSize, setPtr, follow, between, insert, joinNext, joinPrev,
      firstCore, hne, hne.symm, h.brk_pos]
  have hsize : (heap.firstCore (units nbytes)).size heap.brk = (coreUnits (units nbytes)).toNat := by
    simp [firstCore, extendWord, setSize, setPtr, firstList]
  have hptr : (heap.firstCore (units nbytes)).ptr 0 = heap.brk := by simp [firstCore, setPtr]
  have hfirst : heap.firstList.ptr 0 = 0 ∧ heap.firstList.size 0 = 0 ∧ heap.firstList.freep = some 0 := by
    simp [firstList, setPtr, setSize]
  simp only [mallocWord, h.freep, hfirst, searchWord, hcore, hptr, hsize, if_pos (le_coreUnits _)]
  rw [if_neg (by omega)]
  simp

-- The number of units is 1 or it is 2^28 at least, in which case sbrk is asked for no more than 0 bytes.
theorem units_of_large (nbytes : Word) (hlarge : 2 ^ 31 - 16 < nbytes.toNat) : units nbytes = 1 ∨
    coreUnits (units nbytes) = units nbytes ∧ granted (coreBytes (units nbytes)) = 0 := by
  by_cases hwraps : 2 ^ 32 - 8 < nbytes.toNat
  · have hadd : (nbytes + 7).toNat = nbytes.toNat + 7 - 2 ^ 32 := by bv_omega
    have hdiv : (nbytes + 7) / 8 = 0 := by
      apply eq_of_toNat_eq
      rw [toNat_udiv, hadd]
      have := nbytes.isLt
      change _ / 8 = 0
      omega
    left
    rw [units, hdiv]
    rfl
  · have hadd : (nbytes + 7).toNat = nbytes.toNat + 7 := by bv_omega
    have hdiv : ((nbytes + 7) / 8).toNat = (nbytes.toNat + 7) / 8 := by
      rw [toNat_udiv, hadd]
      rfl
    have hunits : (units nbytes).toNat = (nbytes.toNat + 7) / 8 + 1 := by
      unfold units
      bv_omega
    have hcore : coreUnits (units nbytes) = units nbytes := by
      unfold coreUnits
      rw [if_neg (by bv_omega)]
    have hbytes : (coreBytes (units nbytes)).toNat = (units nbytes).toNat * 8 % 2 ^ 32 := by
      rw [coreBytes, hcore, toNat_mul]
      rfl
    refine .inr ⟨hcore, if_neg ?_⟩
    rw [toInt_eq_toNat_cond, hbytes]
    split_ifs <;> omega

theorem not_serves (h : heap.Fresh) (nbytes : Word) (hlarge : 2 ^ 31 - 16 < nbytes.toNat) :
    ∃ next p, heap.mallocWord 3 nbytes (some 0) = some (next, some p) ∧ ¬next.Serves p nbytes := by
  rw [mallocWord_of_fresh h]
  have hsize : (heap.firstCore (units nbytes)).size heap.brk = (coreUnits (units nbytes)).toNat := by
    simp [firstCore, extendWord, setSize, setPtr, firstList]
  unfold take
  obtain hone | ⟨hcore, hnothing⟩ := units_of_large nbytes hlarge
  · have hfour : coreUnits 1 = 4096 := rfl
    rw [hsize, hone, hfour, if_neg (by decide)]
    refine ⟨_, _, rfl, fun hserves => ?_⟩
    have hpayload := hserves.large
    simp [setSize] at hpayload
    omega
  · rw [hsize, hcore, if_pos rfl]
    refine ⟨_, _, rfl, fun hserves => ?_⟩
    have hpos := units_pos nbytes
    have hobtained := hserves.obtained heap.brk le_rfl
    simp [setPtr, firstCore, extendWord, setSize, firstList, hnothing, h.obtained, hcore] at hobtained
    omega

end Heap

namespace Space

open Xv6.Action

-- A count that is not positive does not make the process larger.
theorem growproc_not_larger {kernel : KernelImage} {space : Space} {n : Word} (hn : n.toInt ≤ 0) :
    wp (growproc kernel n) space (fun _ next => next.sz ≤ space.sz) fun _ => True := by
  have hdealloc (newsz : Nat) : wp (Kmem.deallocuvm kernel space.pgdir space.sz newsz) space.mem
      (fun sz _ => sz ≤ space.sz) fun _ => True := by
    unfold Kmem.deallocuvm
    rw [wp_ite]
    split_ifs with hle
    · exact le_rfl
    · rw [wp_bind]
      exact .of_forall (fun _ _ => (not_le.mp hle).le) fun _ => trivial
  unfold growproc
  simp only [wp_bind, wp_get, wp_ite, if_neg (not_lt.mpr hn), vm, wp_within]
  split_ifs
  · refine (hdealloc _).imp fun sz next hsz => ?_
    exact resize_wp (fun _ => le_rfl) fun _ => hsz
  · exact le_rfl

end Space

namespace Heap

theorem mallocWord_iff (nbytes : Word) :
    ((∀ heap, Reach heap → ∀ turns gap next p, heap.mallocWord turns nbytes gap = some (next, some p) →
        next.Serves p nbytes) ↔ nbytes.toNat ≤ 2 ^ 31 - 16) ∧
    (nbytes.toNat ≤ 2 ^ 31 - 16 ↔ (units nbytes).toNat = (nbytes.toNat + 7) / 8 + 1 ∧
      (coreBytes (units nbytes)).toInt = 8 * (coreUnits (units nbytes)).toNat) ∧
    ((coreBytes (units nbytes)).toInt ≤ 0 → ∀ kernel space,
      Action.wp (Space.growproc kernel (coreBytes (units nbytes))) space (fun _ next => next.sz ≤ space.sz)
        fun _ => True) := by
  refine ⟨⟨fun h => ?_, fun hsmall heap hreach _ _ _ _ => hreach.sound.serves hsmall⟩, ?_,
    fun hn _ _ => Space.growproc_not_larger hn⟩
  · by_contra hlarge
    have hfresh : Fresh ⟨fun _ => 0, fun _ => 0, none, 1, fun _ => false, []⟩ := ⟨rfl, by decide, fun _ => rfl, rfl⟩
    obtain ⟨next, p, hmalloc, hnot⟩ := not_serves hfresh nbytes (by omega)
    exact hnot (h _ (.start _ hfresh) _ _ _ _ hmalloc)
  · refine ⟨fun hsmall => ⟨units_toNat hsmall, coreBytes_toInt hsmall⟩, ?_⟩
    rintro ⟨hunits, hbytes⟩
    by_contra hlarge
    obtain hone | ⟨hcore, hnothing⟩ := units_of_large nbytes (by omega)
    · rw [hone] at hunits
      change 1 = _ at hunits
      omega
    · have hpos := units_pos nbytes
      rw [hcore] at hbytes
      rw [granted, if_pos (by omega)] at hnothing
      rw [toInt_eq_toNat_cond] at hbytes
      split_ifs at hbytes <;> omega

-- malloc(2^32 - 1) returns a header, with no room behind it.
theorem mallocWord_wraps : ∃ heap, Fresh heap ∧ (heap.mallocWord 3 0xFFFFFFFF (some 0)).map (fun pair =>
    (pair.2, pair.2.map pair.1.size)) = some (some 4096, some 1) :=
  ⟨⟨fun _ => 0, fun _ => 0, none, 1, fun _ => false, []⟩, ⟨rfl, by decide, fun _ => rfl, rfl⟩, by decide +kernel⟩

end Heap

end Xv6

import Xv6.Fs.Frame
import Xv6.Fs.Layout

namespace Xv6.Fs

open Function Xv6.Action Dinode

variable {fs fs' : Fs} {dirty : Option Nat} {ip : Fin NINODE} {inum b : Nat}

namespace Sound

section Cache

variable (h : Sound dirty fs) (hip : fs.Caches ip inum)

include h hip

theorem caches_unique (jp : Fin NINODE) (hjp : fs.Caches jp inum) : jp = ip :=
  h.unique jp ip hjp.1 hip.1 (hjp.2.2.trans hip.2.2.symm)

theorem current_eq : fs.current inum = (fs.icache ip).toDinode := current_of_caches (h.caches_unique hip) hip

theorem type_ne : (fs.current inum).type ≠ 0 := by
  rw [h.current_eq hip]
  exact h.type ip hip.1 hip.2.1

theorem owner_slotOf {n : Nat} (hn : n ≤ NDIRECT) :
    fs.owner (inum, Dinode.slotOf n) = ((fs.icache ip).addrs (Fin.ofNat (NDIRECT + 1) n)).toNat := by
  have htype := h.type_ne hip
  unfold owner
  by_cases hlow : n < NDIRECT
  · rw [slotOf, if_pos hlow, blockAt_direct htype hlow, h.current_eq hip]
  · have heq : n = NDIRECT := by omega
    subst heq
    rw [slotOf, if_neg hlow, blockAt_indirect htype, indirect, h.current_eq hip]

theorem inum_lt : inum < fs.sb.ninodes := by
  rw [← hip.2.2]
  exact h.inum ip hip.1 hip.2.1

end Cache

theorem weaken (h : Sound none fs) (dirty : Option Nat) : Sound dirty fs where
  __ := h
  clean inum _ := h.clean inum (by simp)
  size inum _ := h.size inum (by simp)
  full inum bn _ := h.full inum bn (by simp)

theorem size_lt (h : Sound dirty fs) (hb : b < fs.sb.size) : b < 2 ^ 32 := by
  have hsize := h.geometry.size
  have hbound : FSSIZE < 2 ^ 32 := by decide
  omega

end Sound

-- What balloc does to the disk when it takes this block.
def alloc (fs : Fs) (b : Nat) : Fs := (fs.mark b).write b fun _ => 0

variable {slot : Nat × Nat} {returns : Nat → Fs → Prop} {fails : FsHalt → Prop} {slots : Finset (Nat × Nat)}

section Alloc

variable (h : Sound dirty fs) (hb : b < fs.sb.size) (hfree : fs.bit b = false)

include h hb hfree

theorem datastart_le_of_free : fs.sb.datastart ≤ b := h.owned.low_le_of_free hb hfree

theorem alloc_stored : (fs.alloc b).stored = fs.stored := by
  have hmark : (fs.mark b).stored = fs.stored := stored_write_of_le h.geometry (le_BBLOCK _ _)
  have hle := datastart_le_of_free h hb hfree
  have hlt := bmapstart_lt h.geometry
  rw [← hmark]
  exact stored_write_of_le h.geometry (Nat.le_of_lt (Nat.lt_of_lt_of_le hlt hle))

theorem alloc_current : (fs.alloc b).current = fs.current :=
  current_of_icache rfl (alloc_stored h hb hfree)

theorem alloc_bit {c : Nat} (hc : c < fs.sb.size) : (fs.alloc b).bit c = (fs.bit c || c == b) := by
  have hle := datastart_le_of_free h hb hfree
  rw [← bit_write_setBit]
  exact bit_write_data h.geometry hc hle

omit hfree in
theorem alloc_disk {c : Nat} (hc : fs.sb.datastart ≤ c) (hne : c ≠ b) : (fs.alloc b).disk c = fs.disk c :=
  (disk_write_of_ne hne).trans (disk_mark h.geometry hb hc)

-- What is owned is not free.
theorem alloc_disk_owner (hslot : fs.owner slot ≠ 0) : (fs.alloc b).disk (fs.owner slot) = fs.disk (fs.owner slot) :=
  alloc_disk h hb (h.owned.range slot hslot).1 (h.owned.ne_of_free hb hfree slot)

theorem alloc_owner : (fs.alloc b).owner = fs.owner :=
  owner_congr (alloc_current h hb hfree) fun _ hslot => alloc_disk_owner h hb hfree hslot

end Alloc

-- A new block has zeros, like what is not there.
theorem data_take (howner : fs'.owner = update fs.owner slot b) (hslot : fs.owner slot = 0)
    (hzero : fs'.disk b = fun _ => 0) (hdisk : ∀ other : Nat × Nat, other.2 < MAXFILE → fs.owner other ≠ 0 →
      fs'.disk (fs.owner other) = fs.disk (fs.owner other)) : fs'.data = fs.data := by
  funext inum off
  unfold data
  rw [howner]
  by_cases hsame : (inum, off / BSIZE) = slot
  · subst hsame
    rw [update_self, hzero, hslot]
    simp
  · rw [update_of_ne hsame]
    by_cases hblock : off / BSIZE < MAXFILE ∧ fs.owner (inum, off / BSIZE) ≠ 0
    · rw [if_pos hblock, if_pos hblock, hdisk _ hblock.1 hblock.2]
    · rw [if_neg hblock, if_neg hblock]

-- The inodes but for the addresses of blocks.
theorem node_congr_addrs (hcurrent : ∀ inum, ∃ addrs, fs'.current inum = { fs.current inum with addrs })
    (hdata : fs'.data = fs.data) : fs'.node = fs.node := by
  funext inum
  obtain ⟨addrs, haddrs⟩ := hcurrent inum
  simp only [node, haddrs, hdata]

theorem setInode_part {Part : Type} (part : Inode → Part) {inode : Inode} (h : part inode = part (fs.icache ip))
    (jp : Fin NINODE) : part ((fs.setInode ip inode).icache jp) = part (fs.icache jp) := by
  by_cases hjp : jp = ip
  · subst hjp
    simp [setInode, Icache.set, h]
  · simp [setInode, Icache.set, hjp]

section SetInode

variable (h : Sound dirty fs) (hip : fs.Caches ip inum) {inode : Inode}
variable (href : inode.ref = (fs.icache ip).ref) (hinum : inode.inum = (fs.icache ip).inum) (hvalid : inode.valid)

include h hip href hinum hvalid

theorem Sound.current_setInode : (fs.setInode ip inode).current = update fs.current inum inode.toDinode :=
  Fs.current_setInode (h.caches_unique hip) hip href hinum hvalid

theorem Sound.owner_setInode (slot : Nat × Nat) :
    (fs.setInode ip inode).owner slot =
      if slot.1 = inum then inode.toDinode.blockAt fs.disk slot.2 else fs.owner slot := by
  unfold owner
  rw [h.current_setInode hip href hinum hvalid]
  by_cases hslot : slot.1 = inum
  · rw [if_pos hslot, hslot, update_self]
    rfl
  · rw [if_neg hslot, update_of_ne hslot]
    rfl

end SetInode

-- Nothing happens to the entries of the cache but that the copies change.
structure Steady (fs fs' : Fs) : Prop where
  sb : fs'.sb = fs.sb
  locked : fs'.locked = fs.locked
  ref (jp : Fin NINODE) : (fs'.icache jp).ref = (fs.icache jp).ref
  inum (jp : Fin NINODE) : (fs'.icache jp).inum = (fs.icache jp).inum
  valid (jp : Fin NINODE) : (fs'.icache jp).valid = (fs.icache jp).valid

theorem Steady.trans {last : Fs} (h : Steady fs fs') (hlast : Steady fs' last) : Steady fs last where
  sb := hlast.sb.trans h.sb
  locked := hlast.locked.trans h.locked
  ref jp := (hlast.ref jp).trans (h.ref jp)
  inum jp := (hlast.inum jp).trans (h.inum jp)
  valid jp := (hlast.valid jp).trans (h.valid jp)

-- Only this inode changes, or the blocks that it owns.
structure Touches (here : Nat) (fs fs' : Fs) : Prop extends Steady fs fs' where
  type (jp : Fin NINODE) : (fs'.icache jp).type = (fs.icache jp).type
  current (other : Nat) (hother : other ≠ here) : fs'.current other = fs.current other
  stored : fs'.stored = fs.stored
  owner (other k : Nat) (hother : other ≠ here) : fs'.owner (other, k) = fs.owner (other, k)

namespace Touches

theorem refl (inum : Nat) (fs : Fs) : Touches inum fs fs where
  sb := rfl
  locked := rfl
  ref _ := rfl
  inum _ := rfl
  valid _ := rfl
  type _ := rfl
  current _ _ := rfl
  stored := rfl
  owner _ _ _ := rfl

variable {last : Fs}

variable (h : Touches inum fs fs')

include h

theorem trans (hlast : Touches inum fs' last) : Touches inum fs last where
  toSteady := h.toSteady.trans hlast.toSteady
  type jp := (hlast.type jp).trans (h.type jp)
  current other hother := (hlast.current other hother).trans (h.current other hother)
  stored := hlast.stored.trans h.stored
  owner other k hother := (hlast.owner other k hother).trans (h.owner other k hother)

theorem caches_iff {other : Nat} : fs'.Caches ip other ↔ fs.Caches ip other := by
  unfold Caches
  rw [h.ref, h.valid, h.inum]

theorem caches {other : Nat} (hip : fs.Caches ip other) : fs'.Caches ip other :=
  h.caches_iff.mpr hip

theorem sound (hfs : Sound (some inum) fs)
    (howned : Owned fs'.owner fs'.bit fs'.sb.datastart fs'.sb.size) : Sound (some inum) fs' where
  geometry := by
    rw [h.sb]
    exact hfs.geometry
  unique ip jp hip hjp hsame := by
    rw [h.ref] at hip hjp
    rw [h.inum, h.inum] at hsame
    exact hfs.unique ip jp hip hjp hsame
  inum ip hip hvalid := by
    rw [h.ref] at hip
    rw [h.valid] at hvalid
    rw [h.inum, h.sb]
    exact hfs.inum ip hip hvalid
  type ip hip hvalid := by
    rw [h.ref] at hip
    rw [h.valid] at hvalid
    rw [h.type]
    exact hfs.type ip hip hvalid
  owned := howned
  clean other hother := by
    have hne : other ≠ inum := fun heq => hother (congrArg some heq)
    rw [h.current other hne, h.stored]
    exact hfs.clean other hother
  size other hother htype := by
    have hne : other ≠ inum := fun heq => hother (congrArg some heq)
    rw [h.current other hne] at htype ⊢
    exact hfs.size other hother htype
  full other bn hother htype hbn := by
    have hne : other ≠ inum := fun heq => hother (congrArg some heq)
    rw [h.current other hne] at htype hbn
    rw [h.owner other bn hne]
    exact hfs.full other bn hother htype hbn

end Touches

-- The two ways in which bmap hands out a new block.

section Take

variable (h : Sound (some inum) fs) (hb : b < fs.sb.size) (hfree : fs.bit b = false)

include h hb

theorem toNat_ofNat_of_lt : (BitVec.ofNat 32 b).toNat = b := by
  rw [BitVec.toNat_ofNat, Nat.mod_eq_of_lt (h.size_lt hb)]

include hfree

theorem ofNat_ne_zero : BitVec.ofNat 32 b ≠ 0 := by
  intro hzero
  have htoNat := congrArg BitVec.toNat hzero
  rw [toNat_ofNat_of_lt h hb] at htoNat
  have hle := datastart_le_of_free h hb hfree
  have hpos := h.owned.low_pos
  simp at htoNat
  omega

theorem owned_take (hslot : fs.owner slot = 0) (howner : fs'.owner = update fs.owner slot b) (hsb : fs'.sb = fs.sb)
    (hbit : ∀ c < fs.sb.size, fs'.bit c = (fs.alloc b).bit c) :
    Owned fs'.owner fs'.bit fs'.sb.datastart fs'.sb.size := by
  rw [howner, hsb]
  refine h.owned.take hb hfree hslot ?_
  intro c hc
  rw [hbit c hc, alloc_bit h hb hfree hc]

variable (hip : fs.Caches ip inum)

include hip

def takeAddr (fs : Fs) (ip : Fin NINODE) (n b : Nat) : Fs :=
  (fs.alloc b).setInode ip
    { fs.icache ip with
      addrs := update (fs.icache ip).addrs (Fin.ofNat (NDIRECT + 1) n) (BitVec.ofNat 32 b) }

theorem current_takeAddr (n : Nat) :
    (fs.takeAddr ip n b).current = update fs.current inum ((fs.current inum).setAddr n (BitVec.ofNat 32 b)) := by
  have hcopy : (fs.alloc b).Caches ip inum := hip
  rw [h.current_eq hip, ← alloc_current h hb hfree]
  exact Fs.current_setInode (h.caches_unique hip) hcopy rfl rfl hip.2.1

variable {n : Nat} (hn : n ≤ NDIRECT) (hzero : (fs.icache ip).addrs (Fin.ofNat (NDIRECT + 1) n) = 0)

include hn hzero

omit hb hfree in
theorem owner_slotOf_eq_zero : fs.owner (inum, Dinode.slotOf n) = 0 := by
  rw [h.owner_slotOf hip hn, hzero]
  rfl

theorem owner_takeAddr : (fs.takeAddr ip n b).owner = update fs.owner (inum, Dinode.slotOf n) b := by
  have hcurrent := current_takeAddr h hb hfree hip n
  have halloc := alloc_owner h hb hfree
  have hdisk : (fs.takeAddr ip n b).disk = (fs.alloc b).disk := rfl
  have hbefore : ∀ i k, (fs.current i).blockAt (fs.alloc b).disk k = fs.owner (i, k) := by
    intro i k
    have hslot := congrFun halloc (i, k)
    rw [← hslot, owner, alloc_current h hb hfree]
  funext place
  obtain ⟨i, k⟩ := place
  unfold owner
  rw [hcurrent, hdisk]
  by_cases hi : i = inum
  · subst hi
    rw [update_self, blockAt_setAddr (h.type_ne hip) hn, hbefore, toNat_ofNat_of_lt h hb]
    · by_cases hk : k = slotOf n
      · rw [if_pos hk, hk, update_self]
      · have hne : (i, k) ≠ (i, slotOf n) := fun heq => hk (Prod.mk.inj heq).2
        rw [if_neg hk, update_of_ne hne]
        rfl
    · intro hlast k hlow hhigh
      subst hlast
      have hindirect : (fs.current i).indirect = 0 := by
        rw [indirect, h.current_eq hip, hzero]
      have hnew : (fs.alloc b).disk b = fun _ => 0 := update_self _ _ _
      rw [if_neg (ofNat_ne_zero h hb hfree), toNat_ofNat_of_lt h hb, hnew, Bytes.entry_zero,
        blockAt_entry (h.type_ne hip) hlow hhigh, if_pos hindirect]
      rfl
  · have hne : (i, k) ≠ (inum, slotOf n) := fun heq => hi (Prod.mk.inj heq).1
    rw [update_of_ne hi, hbefore, update_of_ne hne]
    rfl

theorem touches_takeAddr : Touches inum fs (fs.takeAddr ip n b) where
  sb := rfl
  locked := rfl
  ref := setInode_part Inode.ref rfl
  inum := setInode_part Inode.inum rfl
  valid := setInode_part Inode.valid rfl
  type := setInode_part (fun inode => inode.type) rfl
  current other hother := by
    rw [current_takeAddr h hb hfree hip, update_of_ne hother]
  stored := by
    funext i
    exact congrFun (alloc_stored h hb hfree) i
  owner other k hother := by
    have hne : (other, k) ≠ (inum, slotOf n) := fun heq => hother (Prod.mk.inj heq).1
    rw [owner_takeAddr h hb hfree hip hn hzero, update_of_ne hne]

theorem sound_takeAddr : Sound (some inum) (fs.takeAddr ip n b) := by
  refine (touches_takeAddr h hb hfree hip hn hzero).sound h ?_
  refine owned_take h hb hfree (owner_slotOf_eq_zero h hip hn hzero) (owner_takeAddr h hb hfree hip hn hzero) rfl ?_
  intro c _
  rfl

theorem node_takeAddr : (fs.takeAddr ip n b).node = fs.node := by
  refine node_congr_addrs ?_ ?_
  · intro i
    rw [current_takeAddr h hb hfree hip]
    by_cases hi : i = inum
    · subst hi
      rw [update_self]
      exact ⟨_, rfl⟩
    · rw [update_of_ne hi]
      exact ⟨_, rfl⟩
  · refine data_take (owner_takeAddr h hb hfree hip hn hzero) (owner_slotOf_eq_zero h hip hn hzero) ?_ ?_
    · exact update_self _ _ _
    · intro other _ hother
      exact alloc_disk_owner h hb hfree hother

end Take

section TakeEntry

def takeEntry (fs : Fs) (indirect j b : Nat) : Fs :=
  (fs.alloc b).write indirect (((fs.alloc b).disk indirect).setEntry j (BitVec.ofNat 32 b))

variable (h : Sound (some inum) fs) (hb : b < fs.sb.size) (hfree : fs.bit b = false) (hip : fs.Caches ip inum) {j : Nat}
variable (hindirect : fs.owner (inum, MAXFILE) ≠ 0)

include h hb hfree hindirect

theorem stored_takeEntry : (fs.takeEntry (fs.owner (inum, MAXFILE)) j b).stored = fs.stored := by
  have hle := (h.owned.range _ hindirect).1
  have hlt := bmapstart_lt h.geometry
  rw [← alloc_stored h hb hfree]
  exact stored_write_of_le h.geometry (Nat.le_of_lt (Nat.lt_of_lt_of_le hlt hle))

theorem current_takeEntry : (fs.takeEntry (fs.owner (inum, MAXFILE)) j b).current = fs.current :=
  current_of_icache rfl (stored_takeEntry h hb hfree hindirect)

omit hindirect in
theorem disk_takeEntry (hslot : fs.owner slot ≠ 0) (hne : slot ≠ (inum, MAXFILE)) :
    (fs.takeEntry (fs.owner (inum, MAXFILE)) j b).disk (fs.owner slot) = fs.disk (fs.owner slot) := by
  rw [← alloc_disk_owner h hb hfree hslot]
  exact disk_write_of_ne fun heq => hne (h.owned.injective slot _ hslot heq)

include hip

variable (hj : j < NINDIRECT) (hzero : fs.owner (inum, NDIRECT + j) = 0)

include hj

theorem owner_takeEntry :
    (fs.takeEntry (fs.owner (inum, MAXFILE)) j b).owner = update fs.owner (inum, NDIRECT + j) b := by
  have hcurrent := current_takeEntry (j := j) h hb hfree hindirect
  have htype := h.type_ne hip
  have hown : fs.owner (inum, MAXFILE) = (fs.current inum).indirect.toNat := blockAt_indirect htype
  have hnonzero : (fs.current inum).indirect ≠ 0 := by
    intro heq
    rw [hown, heq] at hindirect
    exact hindirect rfl
  funext place
  obtain ⟨i, k⟩ := place
  change ((fs.takeEntry (fs.owner (inum, MAXFILE)) j b).current i).blockAt _ k = _
  rw [hcurrent]
  by_cases hi : i = inum
  · subst hi
    by_cases hmid : NDIRECT ≤ k ∧ k < MAXFILE
    · have hentry : (fs.takeEntry (fs.owner (i, MAXFILE)) j b).disk (fs.current i).indirect.toNat =
          (fs.disk (fs.current i).indirect.toNat).setEntry j (BitVec.ofNat 32 b) := by
        rw [← hown, ← alloc_disk_owner h hb hfree hindirect]
        exact update_self _ _ _
      rw [blockAt_entry htype hmid.1 hmid.2, if_neg hnonzero, hentry, Bytes.entry_setEntry]
      by_cases hk : k = NDIRECT + j
      · subst hk
        rw [update_self, if_pos (by omega), toNat_ofNat_of_lt h hb]
      · have hne : (i, k) ≠ (i, NDIRECT + j) := fun heq => hk (Prod.mk.inj heq).2
        rw [update_of_ne hne, if_neg (by omega)]
        change _ = (fs.current i).blockAt fs.disk k
        rw [blockAt_entry htype hmid.1 hmid.2, if_neg hnonzero]
    · have hne : (i, k) ≠ (i, NDIRECT + j) := by
        intro heq
        have hk := (Prod.mk.inj heq).2
        have hmax : MAXFILE = NDIRECT + NINDIRECT := rfl
        omega
      rw [update_of_ne hne]
      change _ = (fs.current i).blockAt fs.disk k
      simp only [blockAt]
      by_cases hlow : k < NDIRECT
      · simp only [hlow, if_true]
      · have hhigh : ¬ k < MAXFILE := fun hlt => hmid ⟨Nat.not_lt.mp hlow, hlt⟩
        simp only [hlow, hhigh, if_false]
  · have hne : (i, k) ≠ (inum, NDIRECT + j) := fun heq => hi (Prod.mk.inj heq).1
    rw [update_of_ne hne]
    refine blockAt_congr ?_
    intro htype' hother
    have howner : fs.owner (i, MAXFILE) = (fs.current i).indirect.toNat := blockAt_indirect htype'
    rw [← howner] at hother ⊢
    exact disk_takeEntry h hb hfree hother fun heq => hi (Prod.mk.inj heq).1

theorem touches_takeEntry : Touches inum fs (fs.takeEntry (fs.owner (inum, MAXFILE)) j b) where
  sb := rfl
  locked := rfl
  ref _ := rfl
  inum _ := rfl
  valid _ := rfl
  type _ := rfl
  current other _ := congrFun (current_takeEntry h hb hfree hindirect) other
  stored := stored_takeEntry h hb hfree hindirect
  owner other k hother := by
    have hne : (other, k) ≠ (inum, NDIRECT + j) := fun heq => hother (Prod.mk.inj heq).1
    rw [owner_takeEntry h hb hfree hip hindirect hj, update_of_ne hne]

include hzero

theorem sound_takeEntry : Sound (some inum) (fs.takeEntry (fs.owner (inum, MAXFILE)) j b) := by
  refine (touches_takeEntry h hb hfree hip hindirect hj).sound h ?_
  refine owned_take h hb hfree hzero (owner_takeEntry h hb hfree hip hindirect hj) rfl ?_
  intro c hc
  exact bit_write_data h.geometry hc (h.owned.range _ hindirect).1

theorem node_takeEntry : (fs.takeEntry (fs.owner (inum, MAXFILE)) j b).node = fs.node := by
  refine node_congr (current_takeEntry h hb hfree hindirect) ?_
  refine data_take (owner_takeEntry h hb hfree hip hindirect hj) hzero ?_ ?_
  · have hne : b ≠ fs.owner (inum, MAXFILE) := (h.owned.ne_of_free hb hfree _).symm
    exact (disk_write_of_ne hne).trans (update_self _ _ _)
  · intro other hlow hother
    refine disk_takeEntry h hb hfree hother ?_
    rintro rfl
    exact Nat.lt_irrefl _ hlow

end TakeEntry

theorem balloc_wp (hfails : (∀ b < fs.sb.size, fs.bit b) → fails .outOfBlocks)
    (hreturns : ∀ b < fs.sb.size, fs.bit b = false → returns b (fs.alloc b)) : wp balloc fs returns fails := by
  simp only [balloc, wp_bind, wp_get]
  split
  · rename_i hfind
    refine hfails fun b hb => ?_
    simpa using List.find?_eq_none.mp hfind b (List.mem_range.mpr hb)
  · rename_i b hfind
    have hfree := List.find?_some (p := fun b => !fs.bit b) hfind
    have hmem := List.mem_of_find?_eq_some hfind
    exact hreturns b (List.mem_range.mp hmem) (by simpa using hfree)

-- The inode has got more blocks.
structure Grows (here : Nat) (fs fs' : Fs) : Prop extends Touches here fs fs' where
  sound : Sound (some here) fs'
  keeps (slot : Nat × Nat) (hslot : fs.owner slot ≠ 0) : fs'.owner slot = fs.owner slot

theorem Grows.refl (h : Sound (some inum) fs) : Grows inum fs fs where
  toTouches := .refl inum fs
  sound := h
  keeps _ _ := rfl

theorem Grows.trans {last : Fs} (h : Grows inum fs fs') (hlast : Grows inum fs' last) : Grows inum fs last where
  toTouches := h.toTouches.trans hlast.toTouches
  sound := hlast.sound
  keeps slot hslot := by
    have hfirst := h.keeps slot hslot
    rw [← hfirst] at hslot
    rw [hlast.keeps slot hslot, hfirst]

theorem Grows.of_take (htouches : Touches inum fs fs') (hsound : Sound (some inum) fs')
    (howner : fs'.owner = update fs.owner slot b) (hzero : fs.owner slot = 0) : Grows inum fs fs' where
  toTouches := htouches
  sound := hsound
  keeps other hother := by
    have hne : other ≠ slot := by
      rintro rfl
      exact hother hzero
    rw [howner, update_of_ne hne]

-- There are enough free blocks for those of these places that have none.
def Room (fs : Fs) (slots : Finset (Nat × Nat)) : Prop := Enough fs.owner fs.bit fs.sb.size slots

theorem Room.exists_free (hslot : slot ∈ slots) (hzero : fs.owner slot = 0) (hused : ∀ b < fs.sb.size, fs.bit b) :
    ¬fs.Room slots := by
  intro hroom
  obtain ⟨b, hb, hfree⟩ := hroom.exists_spare hslot hzero
  exact absurd (hused b hb) (by simp [hfree])

theorem Room.take (h : Sound (some inum) fs) (hb : b < fs.sb.size) (hfree : fs.bit b = false) (hslot : slot ∈ slots)
    (hzero : fs.owner slot = 0) (howner : fs'.owner = update fs.owner slot b) (hsb : fs'.sb = fs.sb)
    (hbit : ∀ c < fs.sb.size, fs'.bit c = (fs.alloc b).bit c) : fs'.Room slots ↔ fs.Room slots := by
  have hle := datastart_le_of_free h hb hfree
  have hpos := h.owned.low_pos
  unfold Room
  rw [howner, hsb]
  refine enough_take hb hfree (by omega) hslot hzero fun c hc => ?_
  rw [hbit c hc, alloc_bit h hb hfree hc]

section Bmap

variable {fails : FsHalt → Prop} {slots : Finset (Nat × Nat)} (hfails : ¬fs.Room slots → fails .outOfBlocks)
variable (h : Sound (some inum) fs) (hip : fs.Caches ip inum)

include hfails h hip

theorem addrOrAlloc_spec {n : Nat} (hn : n ≤ NDIRECT) (hslot : (inum, Dinode.slotOf n) ∈ slots) :
    wp (addrOrAlloc ip n) fs (fun b fs' =>
      Grows inum fs fs' ∧ fs'.node = fs.node ∧ fs'.owner (inum, Dinode.slotOf n) = b ∧ b ≠ 0 ∧
        (fs.owner (inum, Dinode.slotOf n) ≠ 0 → fs' = fs) ∧ (fs'.Room slots ↔ fs.Room slots)) fails := by
  simp only [addrOrAlloc, inode, wp_bind, wp_get, wp_pure, wp_ite]
  split_ifs with haddr
  · refine ⟨.refl h, trivial, h.owner_slotOf hip hn, ?_, fun _ => trivial, trivial⟩
    intro hzero
    exact haddr (BitVec.eq_of_toNat_eq hzero)
  · have hzero := Decidable.not_not.mp haddr
    have hnone := owner_slotOf_eq_zero h hip hn hzero
    refine balloc_wp (fun hused => hfails (Room.exists_free hslot hnone hused)) fun b hb hfree => ?_
    have howner := owner_takeAddr h hb hfree hip hn hzero
    refine ⟨.of_take (touches_takeAddr h hb hfree hip hn hzero) (sound_takeAddr h hb hfree hip hn hzero) howner hnone,
      node_takeAddr h hb hfree hip hn hzero, ?_, ?_, ?_, ?_⟩
    · exact (congrFun howner _).trans (update_self _ _ _)
    · have hle := datastart_le_of_free h hb hfree
      have hpos := h.owned.low_pos
      omega
    · intro hne
      exact absurd hnone hne
    · exact Room.take h hb hfree hslot hnone howner rfl fun _ _ => rfl

theorem bmap_spec {bn : Nat} (hrange : MAXFILE ≤ bn → fails .bmapOutOfRange) (hslot : (inum, bn) ∈ slots)
    (hslots : NDIRECT ≤ bn → (inum, MAXFILE) ∈ slots) :
    wp (bmap ip bn) fs (fun b fs' =>
      bn < MAXFILE ∧ Grows inum fs fs' ∧ fs'.node = fs.node ∧ fs'.owner (inum, bn) = b ∧ b ≠ 0 ∧
        (fs.owner (inum, bn) ≠ 0 → fs' = fs) ∧ (fs'.Room slots ↔ fs.Room slots)) fails := by
  simp only [bmap, wp_bind, wp_ite, wp_throw]
  split_ifs with hdirect hentry
  · have hplace : slotOf bn = bn := if_pos hdirect
    refine (addrOrAlloc_spec hfails h hip (Nat.le_of_lt hdirect) (by rwa [hplace])).imp ?_
    rw [hplace]
    rintro b fs' ⟨hgrows, hnode, howner, hb, hsame, hroom⟩
    exact ⟨Nat.lt_of_lt_of_le hdirect (by decide), hgrows, hnode, howner, hb, hsame, hroom⟩
  · have hlow : NDIRECT ≤ bn := Nat.not_lt.mp hdirect
    have hbn : bn < MAXFILE := by
      have hmax : MAXFILE = NDIRECT + NINDIRECT := rfl
      omega
    have hmax : slotOf NDIRECT = MAXFILE := if_neg (Nat.lt_irrefl _)
    refine (addrOrAlloc_spec hfails h hip (Nat.le_refl _) (by rw [hmax]; exact hslots hlow)).imp ?_
    rw [hmax]
    rintro indirect fs' ⟨hgrows, hnode, rfl, hindirect, hsame, hroom⟩
    have hsound := hgrows.sound
    have hcaches := hgrows.caches hip
    have htype := hsound.type_ne hcaches
    have haddr : fs'.owner (inum, MAXFILE) = (fs'.current inum).indirect.toNat := blockAt_indirect htype
    have hnonzero : (fs'.current inum).indirect ≠ 0 := by
      intro hzero
      rw [haddr, hzero] at hindirect
      exact hindirect rfl
    have hblock : fs'.owner (inum, bn) = ((fs'.disk (fs'.owner (inum, MAXFILE))).entry (bn - NDIRECT)).toNat := by
      rw [haddr]
      exact (blockAt_entry htype hlow hbn).trans (if_neg hnonzero)
    -- An entry in the indirect block means that there has been an indirect block.
    have hsame' : fs.owner (inum, bn) ≠ 0 → fs' = fs := by
      intro hne
      refine hsame ?_
      intro hzero
      have hentry' : fs.owner (inum, bn) = if (fs.current inum).indirect = 0 then 0 else _ :=
        blockAt_entry (h.type_ne hip) hlow hbn
      have hnone : fs.owner (inum, MAXFILE) = (fs.current inum).indirect.toNat :=
        blockAt_indirect (h.type_ne hip)
      rw [hzero] at hnone
      rw [if_pos (BitVec.eq_of_toNat_eq hnone.symm)] at hentry'
      exact hne hentry'
    simp only [bread, wp_bind, wp_get, wp_pure]
    split_ifs with hfound
    · refine ⟨hbn, hgrows, hnode, hblock, ?_, hsame', hroom⟩
      intro hzero
      exact hfound (BitVec.eq_of_toNat_eq hzero)
    · have hzero : fs'.owner (inum, bn) = 0 := by
        rw [hblock, Decidable.not_not.mp hfound]
        rfl
      have hplace : NDIRECT + (bn - NDIRECT) = bn := by omega
      have hzero' : fs'.owner (inum, NDIRECT + (bn - NDIRECT)) = 0 := by rw [hplace, hzero]
      refine balloc_wp (fun hused => hfails fun hhas => ?_) fun b hb hfree => ?_
      · exact Room.exists_free hslot hzero hused (hroom.mpr hhas)
      have htake := owner_takeEntry hsound hb hfree hcaches hindirect hentry
      have hnew : Grows inum fs' (fs'.takeEntry (fs'.owner (inum, MAXFILE)) (bn - NDIRECT) b) :=
        .of_take (touches_takeEntry hsound hb hfree hcaches hindirect hentry)
          (sound_takeEntry hsound hb hfree hcaches hindirect hentry hzero') htake hzero'
      refine ⟨hbn, hgrows.trans hnew, ?_, ?_, ?_, ?_, ?_⟩
      · rw [← hnode]
        exact node_takeEntry hsound hb hfree hcaches hindirect hentry hzero'
      · rw [hplace] at htake
        exact (congrFun htake _).trans (update_self _ _ _)
      · have hle := datastart_le_of_free hsound hb hfree
        have hpos := hsound.owned.low_pos
        omega
      · intro hne
        rw [hsame' hne] at hzero
        exact absurd hzero hne
      · rw [hplace] at htake
        refine (Room.take hsound hb hfree hslot hzero htake rfl fun c hc => ?_).trans hroom
        exact bit_write_data hsound.geometry hc (hsound.owned.range _ hindirect).1
  · refine hrange ?_
    have hmax : MAXFILE = NDIRECT + NINDIRECT := rfl
    omega

end Bmap

-- Where there is a block, bmap changes nothing.
theorem bmap_wp {bn : Nat} (h : Sound dirty fs) (hip : fs.Caches ip inum) (hbn : bn < MAXFILE)
    (howner : fs.owner (inum, bn) ≠ 0) (hreturns : returns (fs.owner (inum, bn)) fs) :
    wp (bmap ip bn) fs returns fails := by
  have htype := h.type_ne hip
  simp only [bmap, addrOrAlloc, inode, bread, wp_bind, wp_ite, wp_get, wp_pure]
  by_cases hdirect : bn < NDIRECT
  · have haddr := h.owner_slotOf hip (Nat.le_of_lt hdirect)
    rw [slotOf, if_pos hdirect] at haddr
    have hne : (fs.icache ip).addrs (Fin.ofNat (NDIRECT + 1) bn) ≠ 0 := by
      intro hzero
      rw [haddr, hzero] at howner
      exact howner rfl
    rw [if_pos hdirect, if_pos hne, ← haddr]
    exact hreturns
  · have hlow : NDIRECT ≤ bn := Nat.not_lt.mp hdirect
    have hentry : bn - NDIRECT < NINDIRECT := by
      have hmax : MAXFILE = NDIRECT + NINDIRECT := rfl
      omega
    have hblock : fs.owner (inum, bn) =
        if (fs.current inum).indirect = 0 then 0
        else ((fs.disk (fs.current inum).indirect.toNat).entry (bn - NDIRECT)).toNat :=
      blockAt_entry htype hlow hbn
    have hindirect : (fs.current inum).indirect = (fs.icache ip).addrs (Fin.ofNat (NDIRECT + 1) NDIRECT) := by
      rw [indirect, h.current_eq hip]
    rw [hindirect] at hblock
    have hne : (fs.icache ip).addrs (Fin.ofNat (NDIRECT + 1) NDIRECT) ≠ 0 := by
      intro hzero
      rw [if_pos hzero] at hblock
      exact howner hblock
    rw [if_neg hne] at hblock
    rw [if_neg hdirect, if_pos hentry, if_pos hne]
    have hfound :
        (fs.disk ((fs.icache ip).addrs (Fin.ofNat (NDIRECT + 1) NDIRECT)).toNat).entry (bn - NDIRECT) ≠ 0 := by
      intro hzero
      rw [hzero] at hblock
      exact howner hblock
    rw [if_pos hfound, ← hblock]
    exact hreturns

end Xv6.Fs

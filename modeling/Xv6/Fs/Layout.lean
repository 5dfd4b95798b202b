import Xv6.Fs.Codec
import Xv6.Ide
import Xv6.Ownership
import Xv6.Volume

namespace Xv6

open Function Icache

namespace Superblock

def datastart (sb : Superblock) : Nat := sb.size - sb.nblocks

-- The inodes come before the bitmap, and the bitmap comes before the data.
structure Geometry (sb : Superblock) : Prop where
  inodes : sb.inodestart + sb.ninodes / IPB < sb.bmapstart
  bitmap : sb.bmapstart + sb.size / BPB < sb.datastart
  size : sb.size ≤ FSSIZE
  root : ROOTINO < sb.ninodes

end Superblock

variable {n : Nat}

namespace Fs

variable {fs : Fs}

-- What a write does to the inodes, the bitmap and the data, by the part of the disk in which it is.

section Areas

variable {bno b c inum : Nat} {block : Bytes}

theorem IBLOCK_lt (h : fs.sb.Geometry) (hinum : inum < fs.sb.ninodes) : fs.sb.IBLOCK inum < fs.sb.bmapstart := by
  have hinodes := h.inodes
  have hle : inum / IPB ≤ fs.sb.ninodes / IPB := Nat.div_le_div_right (Nat.le_of_lt hinum)
  unfold Superblock.IBLOCK
  omega

theorem BBLOCK_lt (h : fs.sb.Geometry) (hb : b < fs.sb.size) : fs.sb.BBLOCK b < fs.sb.datastart := by
  have hbitmap := h.bitmap
  have hle : b / BPB ≤ fs.sb.size / BPB := Nat.div_le_div_right (Nat.le_of_lt hb)
  unfold Superblock.BBLOCK
  omega

theorem mod_eq_iff (h : c / n = b / n) : c % n = b % n ↔ c = b := by
  constructor
  · intro hmod
    rw [← Nat.div_add_mod c n, ← Nat.div_add_mod b n, h, hmod]
  · rintro rfl
    rfl

theorem le_BBLOCK (sb : Superblock) (b : Nat) : sb.bmapstart ≤ sb.BBLOCK b := Nat.le_add_left _ _

theorem dinode_write_of_le (h : fs.sb.Geometry) (hinum : inum < fs.sb.ninodes) (hbno : fs.sb.bmapstart ≤ bno) :
    (fs.write bno block).dinode inum = fs.dinode inum := by
  have hlt := IBLOCK_lt h hinum
  have hne : fs.sb.IBLOCK inum ≠ bno := by omega
  simp [dinode, write, hne]

theorem bit_write_of_lt (hbno : bno < fs.sb.bmapstart) : (fs.write bno block).bit b = fs.bit b := by
  have hle := le_BBLOCK fs.sb b
  have hne : fs.sb.BBLOCK b ≠ bno := by omega
  simp [bit, write, hne]

theorem bit_write_data (h : fs.sb.Geometry) (hb : b < fs.sb.size) (hbno : fs.sb.datastart ≤ bno) :
    (fs.write bno block).bit b = fs.bit b := by
  have hlt := BBLOCK_lt h hb
  have hne : fs.sb.BBLOCK b ≠ bno := by omega
  simp [bit, write, hne]

theorem bit_write_bitmap (fs : Fs) (b c : Nat) (block : Bytes) :
    (fs.write (fs.sb.BBLOCK b) block).bit c = if c / BPB = b / BPB then block.bit (c % BPB) else fs.bit c := by
  by_cases hsame : c / BPB = b / BPB
  · simp [bit, write, Superblock.BBLOCK, hsame]
  · have hne : fs.sb.BBLOCK c ≠ fs.sb.BBLOCK b := by
      unfold Superblock.BBLOCK
      omega
    simp [bit, write, hne, hsame]

theorem bit_write_setBit (fs : Fs) (b c : Nat) :
    (fs.write (fs.sb.BBLOCK b) ((fs.disk (fs.sb.BBLOCK b)).setBit (b % BPB))).bit c = (fs.bit c || c == b) := by
  rw [bit_write_bitmap]
  split_ifs with hsame
  · have heq : (c % BPB == b % BPB) = (c == b) := by
      rw [Bool.eq_iff_iff, beq_iff_eq, beq_iff_eq]
      exact mod_eq_iff hsame
    rw [Bytes.bit_setBit, heq, bit, Superblock.BBLOCK, Superblock.BBLOCK, hsame]
  · have hne : c ≠ b := by
      rintro rfl
      exact hsame rfl
    simp [hne]

theorem dinode_write_setDinode (fs : Fs) (inum other : Nat) (dinode : Dinode) :
    (fs.write (fs.sb.IBLOCK inum) ((fs.disk (fs.sb.IBLOCK inum)).setDinode (inum % IPB) dinode)).dinode other =
      if other = inum then dinode else fs.dinode other := by
  by_cases hsame : other / IPB = inum / IPB
  · simp [Fs.dinode, write, Superblock.IBLOCK, hsame, Bytes.dinode_setDinode, mod_eq_iff hsame]
  · have hne : fs.sb.IBLOCK other ≠ fs.sb.IBLOCK inum := by
      unfold Superblock.IBLOCK
      omega
    have hother : other ≠ inum := by
      rintro rfl
      exact hsame rfl
    simp [Fs.dinode, write, hne, hother]

end Areas

-- The inodes on the disk.
def stored (fs : Fs) (inum : Nat) : Dinode := if inum < fs.sb.ninodes then fs.dinode inum else .fresh 0

-- The inode as it is now: the copy in the inode cache, if there is one, or the one on the disk.
def current (fs : Fs) (inum : Nat) : Dinode :=
  match fs.icache.find fun inode => inode.ref > 0 && inode.valid && inode.inum = inum with
  | some ip => (fs.icache ip).toDinode
  | none => fs.stored inum

end Fs

namespace Dinode

def indirect (dinode : Dinode) : Word := dinode.addrs (Fin.ofNat (NDIRECT + 1) NDIRECT)

-- The blocks of an inode: those that hold data by their place in the file, and the indirect block
-- after them.
def blockAt (dinode : Dinode) (disk : Nat → Bytes) (k : Nat) : Nat :=
  if dinode.type = 0 then 0
  else if k < NDIRECT then (dinode.addrs (Fin.ofNat (NDIRECT + 1) k)).toNat
  else if k < MAXFILE then
    if dinode.indirect = 0 then 0 else ((disk dinode.indirect.toNat).entry (k - NDIRECT)).toNat
  else if k = MAXFILE then dinode.indirect.toNat
  else 0

variable {dinode : Dinode} {disk : Nat → Bytes} {k : Nat}

theorem blockAt_free (h : dinode.type = 0) : dinode.blockAt disk k = 0 := if_pos h

theorem blockAt_direct (h : dinode.type ≠ 0) (hk : k < NDIRECT) :
    dinode.blockAt disk k = (dinode.addrs (Fin.ofNat (NDIRECT + 1) k)).toNat := by
  rw [blockAt, if_neg h, if_pos hk]

theorem blockAt_entry (h : dinode.type ≠ 0) (hlow : NDIRECT ≤ k) (hk : k < MAXFILE) :
    dinode.blockAt disk k =
      if dinode.indirect = 0 then 0 else ((disk dinode.indirect.toNat).entry (k - NDIRECT)).toNat := by
  rw [blockAt, if_neg h, if_neg (Nat.not_lt.mpr hlow), if_pos hk]

theorem blockAt_indirect (h : dinode.type ≠ 0) : dinode.blockAt disk MAXFILE = dinode.indirect.toNat := by
  have hlow : ¬ MAXFILE < NDIRECT := by decide
  rw [blockAt, if_neg h, if_neg hlow, if_neg (Nat.lt_irrefl _), if_pos rfl]

theorem blockAt_beyond (hk : MAXFILE < k) : dinode.blockAt disk k = 0 := by
  have hlow : ¬ k < NDIRECT := Nat.not_lt.mpr (Nat.le_trans (by decide) (Nat.le_of_lt hk))
  unfold blockAt
  rw [if_neg hlow, if_neg (Nat.lt_asymm hk), if_neg (Nat.ne_of_gt hk)]
  exact ite_self _

-- Of the disk, only the indirect block says what belongs to the inode.
theorem blockAt_congr {disk' : Nat → Bytes}
    (h : dinode.type ≠ 0 → dinode.indirect.toNat ≠ 0 → disk' dinode.indirect.toNat = disk dinode.indirect.toNat) :
    dinode.blockAt disk' k = dinode.blockAt disk k := by
  by_cases htype : dinode.type = 0
  · rw [blockAt_free htype, blockAt_free htype]
  · by_cases hindirect : dinode.indirect = 0
    · simp only [blockAt, hindirect, if_true]
    · have hne : dinode.indirect.toNat ≠ 0 := fun hzero => hindirect (BitVec.eq_of_toNat_eq hzero)
      simp only [blockAt, h htype hne]

theorem blockAt_eq {other : Dinode} (htype : other.type = dinode.type) (haddrs : other.addrs = dinode.addrs) :
    other.blockAt disk k = dinode.blockAt disk k := by
  unfold blockAt indirect
  rw [htype, haddrs]

-- The place of a block in the file, or the one of the indirect block, by its place in the inode.
def slotOf (n : Nat) : Nat := if n < NDIRECT then n else MAXFILE

def setAddr (dinode : Dinode) (n : Nat) (addr : Word) : Dinode :=
  { dinode with addrs := update dinode.addrs (Fin.ofNat (NDIRECT + 1) n) addr }

theorem ofNat_ne (hn : n ≤ NDIRECT) (hk : k ≤ NDIRECT) (hne : k ≠ n) :
    Fin.ofNat (NDIRECT + 1) k ≠ Fin.ofNat (NDIRECT + 1) n := by
  intro heq
  have hval := congrArg Fin.val heq
  simp only [Fin.val_ofNat, Nat.mod_eq_of_lt (Nat.lt_succ_of_le hn), Nat.mod_eq_of_lt (Nat.lt_succ_of_le hk)] at hval
  exact hne hval

theorem setAddr_of_ne {addr : Word} (hn : n ≤ NDIRECT) (hk : k ≤ NDIRECT) (hne : k ≠ n) :
    (dinode.setAddr n addr).addrs (Fin.ofNat (NDIRECT + 1) k) = dinode.addrs (Fin.ofNat (NDIRECT + 1) k) :=
  update_of_ne (ofNat_ne hn hk hne) _ _

-- The entries of the indirect block go with it.
theorem blockAt_setAddr {addr : Word} (h : dinode.type ≠ 0) (hn : n ≤ NDIRECT)
    (hentries : n = NDIRECT → ∀ k, NDIRECT ≤ k → k < MAXFILE →
      (if addr = 0 then 0 else ((disk addr.toNat).entry (k - NDIRECT)).toNat) = dinode.blockAt disk k) :
    (dinode.setAddr n addr).blockAt disk k = if k = slotOf n then addr.toNat else dinode.blockAt disk k := by
  have htype : (dinode.setAddr n addr).type ≠ 0 := h
  by_cases hlow : k < NDIRECT
  · rw [blockAt_direct htype hlow, blockAt_direct h hlow]
    by_cases hsame : k = n
    · subst hsame
      rw [slotOf, if_pos hlow, if_pos rfl]
      simp only [setAddr, update_self]
    · have hslot : k ≠ slotOf n := by
        unfold slotOf
        split_ifs
        · exact hsame
        · have hlt : NDIRECT < MAXFILE := by decide
          omega
      rw [if_neg hslot, setAddr_of_ne hn (Nat.le_of_lt hlow) hsame]
  · have hslot : k ≠ MAXFILE → k ≠ slotOf n := by
      intro hne
      unfold slotOf
      split_ifs
      · omega
      · exact hne
    by_cases hindirect : n = NDIRECT
    · have haddr : (dinode.setAddr n addr).indirect = addr := by
        subst hindirect
        simp only [indirect, setAddr, update_self]
      have hmax : slotOf n = MAXFILE := by
        rw [slotOf, if_neg (by omega)]
      by_cases hmid : k < MAXFILE
      · rw [if_neg (hslot (Nat.ne_of_lt hmid)), blockAt_entry htype (Nat.not_lt.mp hlow) hmid, haddr]
        exact hentries hindirect k (Nat.not_lt.mp hlow) hmid
      · by_cases hlast : k = MAXFILE
        · subst hlast
          rw [blockAt_indirect htype, haddr, if_pos hmax.symm]
        · have hbeyond : MAXFILE < k := by omega
          rw [if_neg (hslot hlast), blockAt_beyond hbeyond, blockAt_beyond hbeyond]
    · have haddr : (dinode.setAddr n addr).indirect = dinode.indirect :=
        setAddr_of_ne hn (Nat.le_refl _) (Ne.symm hindirect)
      have hslot' : k ≠ slotOf n := by
        rw [slotOf, if_pos (by omega)]
        omega
      rw [if_neg hslot']
      unfold blockAt
      rw [haddr, if_neg hlow, if_neg hlow, if_neg htype, if_neg h]

end Dinode

namespace Fs

def owner (fs : Fs) (slot : Nat × Nat) : Nat := (fs.current slot.1).blockAt fs.disk slot.2

-- There are zeros where there is no block.
def data (fs : Fs) (inum off : Nat) : Byte :=
  if off / BSIZE < MAXFILE ∧ fs.owner (inum, off / BSIZE) ≠ 0 then fs.disk (fs.owner (inum, off / BSIZE)) (off % BSIZE)
  else 0

def node (fs : Fs) (inum : Nat) : Node where
  type := (fs.current inum).type
  major := (fs.current inum).major
  minor := (fs.current inum).minor
  nlink := (fs.current inum).nlink
  size := (fs.current inum).size
  data := fs.data inum

-- Files have no holes, and the inodes on the disk are those in the cache, except perhaps for one
-- inode, the dirty one.
structure Sound (dirty : Option Nat) (fs : Fs) : Prop where
  geometry : fs.sb.Geometry
  unique (ip jp : Fin NINODE) (hip : 0 < (fs.icache ip).ref) (hjp : 0 < (fs.icache jp).ref)
    (hinum : (fs.icache ip).inum = (fs.icache jp).inum) : ip = jp
  inum (ip : Fin NINODE) (hip : 0 < (fs.icache ip).ref) (hvalid : (fs.icache ip).valid) :
    (fs.icache ip).inum < fs.sb.ninodes
  type (ip : Fin NINODE) (hip : 0 < (fs.icache ip).ref) (hvalid : (fs.icache ip).valid) : (fs.icache ip).type ≠ 0
  owned : Owned fs.owner fs.bit fs.sb.datastart fs.sb.size
  clean (inum : Nat) (hdirty : some inum ≠ dirty) : fs.current inum = fs.stored inum
  size (inum : Nat) (hdirty : some inum ≠ dirty) (htype : (fs.current inum).type ≠ 0) :
    (fs.current inum).size.toNat ≤ MAXFILE * BSIZE
  full (inum bn : Nat) (hdirty : some inum ≠ dirty) (htype : (fs.current inum).type ≠ 0)
    (hbn : bn * BSIZE < (fs.current inum).size.toNat) : fs.owner (inum, bn) ≠ 0

-- A file system that differs in the cache and on the disk, but not in the inodes, is the same file system.

section Views

variable {fs fs' : Fs} {inum : Nat} {ip : Fin NINODE}

-- This entry of the cache has a copy of the inode.
def Caches (fs : Fs) (ip : Fin NINODE) (inum : Nat) : Prop :=
  0 < (fs.icache ip).ref ∧ (fs.icache ip).valid ∧ (fs.icache ip).inum = inum

theorem current_of_caches (hunique : ∀ jp, fs.Caches jp inum → jp = ip) (h : fs.Caches ip inum) :
    fs.current inum = (fs.icache ip).toDinode := by
  obtain ⟨href, hvalid, hinum⟩ := h
  unfold current
  cases hfind : fs.icache.find fun inode => inode.ref > 0 && inode.valid && inode.inum = inum with
  | none =>
    have hnot := find_none hfind ip
    simp [href, hvalid, hinum] at hnot
  | some jp =>
    have hfound := find_some hfind
    simp only [gt_iff_lt, Bool.and_eq_true, decide_eq_true_eq] at hfound
    rw [hunique jp ⟨hfound.1.1, hfound.1.2, hfound.2⟩]

theorem current_of_uncached (h : ∀ ip, ¬ fs.Caches ip inum) : fs.current inum = fs.stored inum := by
  unfold current
  cases hfind : fs.icache.find fun inode => inode.ref > 0 && inode.valid && inode.inum = inum with
  | none => rfl
  | some ip =>
    have hfound := find_some hfind
    simp only [gt_iff_lt, Bool.and_eq_true, decide_eq_true_eq] at hfound
    exact absurd ⟨hfound.1.1, hfound.1.2, hfound.2⟩ (h ip)

theorem current_congr (hcaches : ∀ ip, fs'.Caches ip inum ↔ fs.Caches ip inum)
    (hcopy : ∀ ip, fs.Caches ip inum → (fs'.icache ip).toDinode = (fs.icache ip).toDinode)
    (hstored : fs'.stored inum = fs.stored inum) : fs'.current inum = fs.current inum := by
  have hfind : (fs'.icache.find fun inode => inode.ref > 0 && inode.valid && inode.inum = inum) =
      fs.icache.find fun inode => inode.ref > 0 && inode.valid && inode.inum = inum := by
    unfold find
    congr 1
    funext ip
    have hip := hcaches ip
    simp only [Caches] at hip
    rw [Bool.eq_iff_iff]
    simp only [gt_iff_lt, Bool.and_eq_true, decide_eq_true_eq, and_assoc]
    exact hip
  unfold current
  rw [hfind]
  split
  · rename_i ip hip
    have hfound := find_some hip
    simp only [gt_iff_lt, Bool.and_eq_true, decide_eq_true_eq] at hfound
    exact hcopy ip ⟨hfound.1.1, hfound.1.2, hfound.2⟩
  · exact hstored

theorem current_of_icache (hicache : fs'.icache = fs.icache) (hstored : fs'.stored = fs.stored) :
    fs'.current = fs.current := by
  funext inum
  refine current_congr ?_ ?_ (congrFun hstored inum)
  · intro ip
    simp only [Caches, hicache]
  · intro ip _
    rw [hicache]

theorem current_setInode {inode : Inode} (hunique : ∀ jp, fs.Caches jp inum → jp = ip) (h : fs.Caches ip inum)
    (href : inode.ref = (fs.icache ip).ref) (hinum : inode.inum = (fs.icache ip).inum) (hvalid : inode.valid) :
    (fs.setInode ip inode).current = update fs.current inum inode.toDinode := by
  obtain ⟨hpos, hcopy, hsame⟩ := h
  have hcaches : ∀ jp other, (fs.setInode ip inode).Caches jp other ↔ fs.Caches jp other := by
    intro jp other
    by_cases hjp : jp = ip
    · subst hjp
      simp [Caches, setInode, Icache.set, href, hinum, hvalid, hcopy]
    · simp [Caches, setInode, Icache.set, hjp]
  funext other
  by_cases hother : other = inum
  · subst hother
    have hhere : (fs.setInode ip inode).Caches ip other := (hcaches ip other).mpr ⟨hpos, hcopy, hsame⟩
    rw [update_self, current_of_caches (fun jp hjp => hunique jp ((hcaches jp other).mp hjp)) hhere]
    simp [setInode, Icache.set]
  · rw [update_of_ne hother]
    refine current_congr (fun jp => hcaches jp other) ?_ rfl
    intro jp hjp
    have hne : jp ≠ ip := by
      rintro rfl
      exact hother (hjp.2.2.symm.trans hsame)
    simp [setInode, Icache.set, hne]

theorem owner_congr (hcurrent : fs'.current = fs.current)
    (hdisk : ∀ inum, fs.owner (inum, MAXFILE) ≠ 0 →
      fs'.disk (fs.owner (inum, MAXFILE)) = fs.disk (fs.owner (inum, MAXFILE))) : fs'.owner = fs.owner := by
  funext place
  obtain ⟨inum, k⟩ := place
  have hsame := hdisk inum
  simp only [owner, hcurrent] at hsame ⊢
  refine Dinode.blockAt_congr ?_
  intro htype hindirect
  rw [Dinode.blockAt_indirect htype] at hsame
  exact hsame hindirect

theorem data_congr (howner : fs'.owner = fs.owner)
    (hdisk : ∀ inum bn, bn < MAXFILE → fs.owner (inum, bn) ≠ 0 →
      fs'.disk (fs.owner (inum, bn)) = fs.disk (fs.owner (inum, bn))) : fs'.data = fs.data := by
  funext inum off
  unfold data
  rw [howner]
  by_cases hblock : off / BSIZE < MAXFILE ∧ fs.owner (inum, off / BSIZE) ≠ 0
  · rw [if_pos hblock, if_pos hblock, hdisk inum _ hblock.1 hblock.2]
  · rw [if_neg hblock, if_neg hblock]

theorem node_congr (hcurrent : fs'.current = fs.current) (hdata : fs'.data = fs.data) : fs'.node = fs.node := by
  funext inum
  simp only [node, hcurrent, hdata]

end Views

section Stores

variable {fs : Fs} {bno b c inum : Nat} {block : Bytes}

def mark (fs : Fs) (b : Nat) : Fs := fs.write (fs.sb.BBLOCK b) ((fs.disk (fs.sb.BBLOCK b)).setBit (b % BPB))

def store (fs : Fs) (inum : Nat) (dinode : Dinode) : Fs :=
  fs.write (fs.sb.IBLOCK inum) ((fs.disk (fs.sb.IBLOCK inum)).setDinode (inum % IPB) dinode)

theorem stored_write_of_le (h : fs.sb.Geometry) (hbno : fs.sb.bmapstart ≤ bno) :
    (fs.write bno block).stored = fs.stored := by
  funext inum
  unfold stored
  change (if inum < fs.sb.ninodes then _ else _) = _
  split_ifs with hinum
  · exact dinode_write_of_le h hinum hbno
  · rfl

theorem stored_store (hinum : inum < fs.sb.ninodes) (dinode : Dinode) :
    (fs.store inum dinode).stored = update fs.stored inum dinode := by
  funext other
  unfold stored
  change (if other < fs.sb.ninodes then _ else _) = _
  rw [store, dinode_write_setDinode]
  by_cases hother : other = inum
  · subst hother
    rw [update_self, if_pos hinum, if_pos rfl]
  · rw [update_of_ne hother, if_neg hother]

theorem disk_write_of_ne (hc : c ≠ bno) : (fs.write bno block).disk c = fs.disk c := update_of_ne hc _ _

theorem bmapstart_lt (h : fs.sb.Geometry) : fs.sb.bmapstart < fs.sb.datastart :=
  Nat.lt_of_le_of_lt (Nat.le_add_right _ _) h.bitmap

theorem disk_store (h : fs.sb.Geometry) (hinum : inum < fs.sb.ninodes) (hc : fs.sb.datastart ≤ c) (dinode : Dinode) :
    (fs.store inum dinode).disk c = fs.disk c := by
  have hlt := IBLOCK_lt h hinum
  have hbitmap := bmapstart_lt h
  exact disk_write_of_ne (by omega)

theorem disk_mark (h : fs.sb.Geometry) (hb : b < fs.sb.size) (hc : fs.sb.datastart ≤ c) :
    (fs.mark b).disk c = fs.disk c := by
  have hlt := BBLOCK_lt h hb
  exact disk_write_of_ne (by omega)

end Stores

end Fs

end Xv6

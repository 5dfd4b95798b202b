import Xv6.Fs.Cache
import Xv6.Fs.Entries

namespace Xv6.Fs

open Xv6.Action

variable {fs fs' : Fs} {dp ip : Fin NINODE} {inum : Nat} {name : List Byte} {fails : FsHalt → Prop}

-- The loops over a directory read its entries and change nothing.

variable {returns : Option (Fin NINODE × Nat) → Fs → Prop}

section Loops

variable (h : Sound none fs) (hdp : fs.Caches dp inum) (htype : (fs.node inum).type ≠ T_DEV)

include h hdp htype

theorem readDirent_wp {off : Nat} {halt : FsHalt} {returns : Dirent → Fs → Prop}
    (hoff : off + 16 ≤ (fs.node inum).size.toNat) (hreturns : returns ((fs.node inum).dirent off) fs) :
    wp (readDirent dp off halt) fs returns fails := by
  have hsize := (fs.node inum).size.isLt
  have hsixteen : (16 : Word).toNat = 16 := rfl
  have htoNat : (BitVec.ofNat 32 off).toNat = off := by
    rw [BitVec.toNat_ofNat]
    omega
  simp only [readDirent, wp_bind]
  refine readi_wp h hdp htype ?_ ?_
  · rw [htoNat, hsixteen]
    omega
  · intro _ _
    have hcount : min (16 : Word).toNat ((fs.node inum).size.toNat - off) = 16 := by
      rw [hsixteen]
      omega
    have hlength : ((fs.node inum).read off 16).length = 16 := by simp [Node.read]
    rw [htoNat, hcount]
    simp only [wp_ite, wp_throw, wp_pure]
    rw [if_neg (not_not.mpr hlength)]
    exact hreturns

variable {offs : List Nat}

theorem lookup_wp (hoffs : ∀ off ∈ offs, off + 16 ≤ (fs.node inum).size.toNat)
    (hnone : offs.find? ((fs.node inum).hasName name) = none → returns none fs)
    (hsome : ∀ off, offs.find? ((fs.node inum).hasName name) = some off →
      wp (iget ((fs.node inum).dirent off).inum.toNat) fs (fun ip fs' => returns (some (ip, off)) fs') fails) :
    wp (lookup dp name offs) fs returns fails := by
  induction offs with
  | nil => exact hnone rfl
  | cons off rest ih =>
    simp only [lookup, wp_bind]
    refine readDirent_wp h hdp htype (hoffs off List.mem_cons_self) ?_
    rw [wp_ite]
    by_cases hname : (fs.node inum).hasName name off = true
    · rw [if_pos (decide_eq_true_iff.mp hname), wp_bind]
      exact hsome off (List.find?_cons_of_pos hname)
    · rw [if_neg (mt decide_eq_true_iff.mpr hname)]
      refine ih (fun off' hoff' => hoffs off' (List.mem_cons_of_mem _ hoff')) ?_ ?_
      · intro hrest
        exact hnone (by rwa [List.find?_cons_of_neg hname])
      · intro off' hrest
        exact hsome off' (by rwa [List.find?_cons_of_neg hname])

theorem emptyDirent_wp {last : Nat} {returns : Nat → Fs → Prop}
    (hoffs : ∀ off ∈ offs, off + 16 ≤ (fs.node inum).size.toNat)
    (hreturns : returns ((offs.find? fun off => ((fs.node inum).dirent off).inum = 0).getD last) fs) :
    wp (emptyDirent dp last offs) fs returns fails := by
  induction offs with
  | nil => exact hreturns
  | cons off rest ih =>
    simp only [emptyDirent, wp_bind]
    refine readDirent_wp h hdp htype (hoffs off List.mem_cons_self) ?_
    rw [wp_ite]
    by_cases hempty : ((fs.node inum).dirent off).inum = 0
    · rw [List.find?_cons_of_pos (by simpa using hempty)] at hreturns
      rw [if_pos hempty]
      exact hreturns
    · rw [List.find?_cons_of_neg (by simpa using hempty)] at hreturns
      rw [if_neg hempty]
      exact ih (fun off' hoff' => hoffs off' (List.mem_cons_of_mem _ hoff')) hreturns

end Loops

-- A directory that is cached, and that consists of whole entries.
structure Directory (dp : Fin NINODE) (inum : Nat) (fs : Fs) : Prop where
  sound : Sound none fs
  caches : fs.Caches dp inum
  type : (fs.node inum).type = T_DIR
  aligned : (fs.node inum).size.toNat % 16 = 0

namespace Directory

variable (h : Directory dp inum fs)

include h

theorem not_dev : (fs.node inum).type ≠ T_DEV := by
  rw [h.type]
  decide

theorem offsets_le (off : Nat) (hoff : off ∈ offsets (fs.node inum).size) : off + 16 ≤ (fs.node inum).size.toNat := by
  have haligned := h.aligned
  have hmem := mem_offsets.mp hoff
  omega

theorem dirlookup_wp (hnone : (fs.node inum).find name = none → returns none fs)
    (hsome : ∀ off, (fs.node inum).find name = some off →
      wp (iget ((fs.node inum).dirent off).inum.toNat) fs (fun ip fs' => returns (some (ip, off)) fs') fails) :
    wp (dirlookup dp name) fs returns fails := by
  have htype := h.sound.node_type h.caches
  have hsize := h.sound.node_size h.caches
  simp only [dirlookup, inode, wp_bind, wp_get, wp_pure, wp_ite, wp_throw]
  rw [← htype, ← hsize, if_neg (not_not.mpr h.type)]
  exact lookup_wp h.sound h.caches h.not_dev h.offsets_le hnone hsome

theorem dirlink_wp {target : Nat} {returns : Bool → Fs → Prop}
    (hbound : ∀ off, (fs.node inum).find name = some off →
      wp (do iput (← iget ((fs.node inum).dirent off).inum.toNat)) fs (fun _ fs' => returns false fs') fails)
    (hfree : (fs.node inum).find name = none →
      wp (writei dp (Dirent.encode target name) (BitVec.ofNat 32 (fs.node inum).vacant)) fs
        (fun written fs' => if written then returns true fs' else fails .dirlink) fails) :
    wp (dirlink dp name target) fs returns fails := by
  have hsize := h.sound.node_size h.caches
  simp only [dirlink, wp_bind]
  refine h.dirlookup_wp (fun hnone => ?_) fun off hsome => ?_
  · simp only [inode, wp_bind, wp_get, wp_pure]
    rw [← hsize]
    refine emptyDirent_wp h.sound h.caches h.not_dev h.offsets_le ((hfree hnone).mono ?_ fun _ hhalt => hhalt)
    intro written fs' hwritten
    cases written with
    | false => exact hwritten
    | true => exact hwritten
  · have hput := hbound off hsome
    rw [wp_bind] at hput
    refine hput.imp fun jp fs' hjp => ?_
    rw [wp_bind]
    exact hjp

end Directory

end Xv6.Fs

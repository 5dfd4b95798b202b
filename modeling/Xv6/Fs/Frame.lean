import Xv6.Fs

namespace Xv6.Fs

open Xv6.Action

-- The contents of the disk, the cached copies of inodes and the locks do not come into it.
structure Outer {Part : Type} (part : Fs → Part) : Prop where
  write (fs : Fs) (bno : Nat) (block : Bytes) : part (fs.write bno block) = part fs
  setInode (fs : Fs) (ip : Fin NINODE) (inode : Inode) (href : inode.ref = (fs.icache ip).ref)
    (hinum : inode.inum = (fs.icache ip).inum) : part (fs.setInode ip inode) = part fs
  setLocked (fs : Fs) (ip : Fin NINODE) (locked : Bool) : part (fs.setLocked ip locked) = part fs

def ref (fs : Fs) (ip : Fin NINODE) : Int := (fs.icache ip).ref

theorem outer_ref : Outer ref where
  write _ _ _ := rfl
  setInode fs ip inode href _ := by
    funext other
    by_cases hother : other = ip
    · subst hother
      simp [ref, setInode, Icache.set, href]
    · simp [ref, setInode, Icache.set, hother]
  setLocked _ _ _ := rfl

theorem keeps_inode {Part : Type} {part : Fs → Part} {ip : Fin NINODE} : Keeps part (inode ip) :=
  .bind .get fun _ => .pure _

theorem keeps_bread {Part : Type} {part : Fs → Part} (bno : Nat) : Keeps part (bread bno) :=
  .bind .get fun _ => .pure _

namespace Outer

variable {Part : Type} {part : Fs → Part} (h : Outer part) {ip : Fin NINODE}

include h

theorem modifyInode {change : Inode → Inode} (href : ∀ inode, (change inode).ref = inode.ref)
    (hinum : ∀ inode, (change inode).inum = inode.inum) : Keeps part (modifyInode ip change) :=
  .modify fun fs => h.setInode fs ip _ (href _) (hinum _)

theorem logWrite (bno : Nat) (block : Bytes) : Keeps part (logWrite bno block) := .modify fun fs => h.write fs bno block

theorem balloc : Keeps part balloc := by
  refine .bind .get fun fs => ?_
  split
  · exact .throw _
  · exact .bind (h.logWrite _ _) fun _ => .bind (h.logWrite _ _) fun _ => .pure _

theorem bfree (b : Nat) : Keeps part (bfree b) :=
  .bind .get fun _ => .ite (.throw _) (h.logWrite _ _)

theorem iupdate : Keeps part (iupdate ip) := .bind .get fun _ => h.logWrite _ _

theorem acquiresleep : Keeps part (acquiresleep ip) :=
  .bind .get fun _ => .ite (.throw _) (.modify fun fs => h.setLocked fs ip true)

theorem releasesleep : Keeps part (releasesleep ip) := .modify fun fs => h.setLocked fs ip false

theorem ilock : Keeps part (ilock ip) := by
  have hload : ∀ fs : Fs, Keeps part (Fs.modifyInode ip fun inode =>
      { inode with toDinode := fs.dinode inode.inum, valid := true }) :=
    fun fs => h.modifyInode (fun _ => rfl) (fun _ => rfl)
  have hrest : Keeps part (do
      Fs.acquiresleep ip
      if !(← Fs.inode ip).valid then
        let fs ← get
        Fs.modifyInode ip fun inode => { inode with toDinode := fs.dinode inode.inum, valid := true }
        if (← Fs.inode ip).type = 0 then throw FsHalt.noType) := by
    refine .bind h.acquiresleep fun _ => .bind keeps_inode fun _ => .ite ?_ (.pure _)
    exact .bind .get fun fs => .bind (hload fs) fun _ => .bind keeps_inode fun _ => .ite (.throw _) (.pure _)
  exact .bind keeps_inode fun _ => .ite (.bind (.throw _) fun _ => hrest) hrest

theorem iunlock : Keeps part (iunlock ip) :=
  .bind .get fun _ => .bind keeps_inode fun _ => .ite (.bind (.throw _) fun _ => h.releasesleep) h.releasesleep

theorem setAddr (n b : Nat) : Keeps part (setAddr ip n b) := h.modifyInode (fun _ => rfl) (fun _ => rfl)

theorem addrOrAlloc (n : Nat) : Keeps part (addrOrAlloc ip n) :=
  .bind keeps_inode fun _ => .ite (.pure _) (.bind h.balloc fun _ => .bind (h.setAddr _ _) fun _ => .pure _)

theorem bmap (bn : Nat) : Keeps part (bmap ip bn) := by
  refine .ite (h.addrOrAlloc bn) (.ite ?_ (.throw _))
  refine .bind (h.addrOrAlloc NDIRECT) fun _ => .bind (keeps_bread _) fun _ => .ite (.pure _) ?_
  exact .bind h.balloc fun _ => .bind (keeps_bread _) fun _ => .bind (h.logWrite _ _) fun _ => .pure _

theorem freeDirect (places : List Nat) : Keeps part (freeDirect ip places) := by
  induction places with
  | nil => exact .pure _
  | cons n rest ih =>
    exact .bind keeps_inode fun _ => .ite (.bind (h.bfree _) fun _ => .bind (h.setAddr _ _) fun _ => ih) ih

theorem freeEntries (block : Bytes) (entries : List Nat) : Keeps part (freeEntries block entries) := by
  induction entries with
  | nil => exact .pure _
  | cons n rest ih => exact .ite (.bind (h.bfree _) fun _ => ih) ih

theorem itrunc : Keeps part (itrunc ip) := by
  have hend : Keeps part (do
      Fs.modifyInode ip fun inode => { inode with size := 0 }
      Fs.iupdate ip) := .bind (h.modifyInode (fun _ => rfl) (fun _ => rfl)) fun _ => h.iupdate
  refine .bind (h.freeDirect _) fun _ => .bind keeps_inode fun _ => .ite ?_ hend
  exact .bind (keeps_bread _) fun _ => .bind (h.freeEntries _ _) fun _ => .bind (h.bfree _) fun _ =>
    .bind (h.setAddr _ _) fun _ => hend

theorem readBlocks (turns off n : Nat) : Keeps part (readBlocks ip turns off n) := by
  induction turns generalizing off n with
  | zero => exact .pure _
  | succ turns ih =>
    refine .ite (.pure _) (.bind (h.bmap _) fun _ => .bind (keeps_bread _) fun _ => .bind (ih _ _) fun _ => .pure _)

theorem readi (input : Option (List Byte)) (off n : Word) : Keeps part (readi input ip off n) := by
  refine .bind keeps_inode fun _ => .ite (.ite ?_ (.pure _))
    (.ite (.pure _) (.bind (h.readBlocks _ _ _) fun _ => .pure _))
  exact .bind h.iunlock fun _ => .bind h.ilock fun _ => .pure _

theorem writeBlocks (turns off : Nat) (src : List Byte) : Keeps part (writeBlocks ip turns off src) := by
  induction turns generalizing off src with
  | zero => exact .pure _
  | succ turns ih =>
    exact .ite (.pure _) (.bind (h.bmap _) fun _ => .bind (keeps_bread _) fun _ =>
      .bind (h.logWrite _ _) fun _ => ih _ _)

theorem writei (src : List Byte) (off : Word) : Keeps part (writei ip src off) := by
  refine .bind keeps_inode fun _ => .ite (.ite ?_ (.pure _)) (.ite (.pure _) (.ite (.pure _) ?_))
  · exact .bind h.iunlock fun _ => .bind h.ilock fun _ => .pure _
  · refine .bind (h.writeBlocks _ _ _) fun _ => .bind keeps_inode fun _ => .ite ?_ (.pure _)
    exact .bind (h.modifyInode (fun _ => rfl) (fun _ => rfl)) fun _ => .bind h.iupdate fun _ => .pure _

theorem readDirent (off : Nat) (fails : FsHalt) : Keeps part (readDirent ip off fails) := by
  refine .bind (h.readi _ _ _) fun bytes => ?_
  cases bytes with
  | none => exact .throw _
  | some bytes => exact .ite (.throw _) (.pure _)

theorem emptyDirent (last : Nat) (places : List Nat) : Keeps part (emptyDirent ip last places) := by
  induction places with
  | nil => exact .pure _
  | cons off rest ih => exact .bind (h.readDirent _ _) fun _ => .ite (.pure _) ih

theorem allEmpty (places : List Nat) : Keeps part (allEmpty ip places) := by
  induction places with
  | nil => exact .pure _
  | cons off rest ih => exact .bind (h.readDirent _ _) fun _ => .ite (.pure _) ih

theorem isdirempty : Keeps part (isdirempty ip) := .bind keeps_inode fun _ => h.allEmpty _

end Outer

end Xv6.Fs

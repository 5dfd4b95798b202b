import Xv6.Fs.Frame
import Xv6.Pointers

namespace Xv6.Fs

open Xv6.Action

variable {ip : Fin NINODE}

theorem iget_adds (inum : Nat) : Adds ref (iget inum) fun ip => Pi.single ip 1 := by
  intro fs
  simp only [iget, wp_bind, wp_get]
  cases higet : fs.icache.iget inum with
  | none => trivial
  | some found =>
    obtain ⟨icache, ip⟩ := found
    simp only [wp_bind, wp_set, wp_pure]
    funext other
    have href := Icache.iget_ref higet other
    simp [ref, href, Pi.single_apply]

theorem idup_adds : Adds ref (idup ip) fun ip => Pi.single ip 1 := by
  intro fs
  simp only [idup, wp_bind, wp_modify, wp_pure]
  funext other
  by_cases hother : other = ip
  · subst hother
    simp [ref, Icache.idup, Icache.set]
  · simp [ref, Icache.idup, Icache.set, hother]

theorem ialloc_adds (type : BitVec 16) : Adds ref (ialloc type) fun ip => Pi.single ip 1 := by
  refine .after .get fun fs => ?_
  split
  · exact .throw _
  · exact .after (outer_ref.logWrite _ _) fun _ => iget_adds _

theorem dropRef_adds : Adds ref (dropRef ip) fun _ => -Pi.single ip 1 := by
  intro fs
  simp only [dropRef, wp_modify]
  funext other
  by_cases hother : other = ip
  · subst hother
    simp [ref, Icache.drop, Icache.set]
    omega
  · simp [ref, Icache.drop, Icache.set, hother]

theorem iput_adds : Adds ref (iput ip) fun _ => -Pi.single ip 1 := by
  have hend : Adds ref (do
      releasesleep ip
      dropRef ip) fun _ => -Pi.single ip 1 := .after outer_ref.releasesleep fun _ => dropRef_adds
  refine .after outer_ref.acquiresleep fun _ => .after keeps_inode fun _ => .ite ?_ hend
  refine .after outer_ref.itrunc fun _ => .after (outer_ref.modifyInode (fun _ => rfl) (fun _ => rfl)) fun _ => ?_
  exact .after outer_ref.iupdate fun _ => .after (outer_ref.modifyInode (fun _ => rfl) (fun _ => rfl)) fun _ => hend

theorem iunlockput_adds : Adds ref (iunlockput ip) fun _ => -Pi.single ip 1 :=
  .after outer_ref.iunlock fun _ => iput_adds

theorem lookup_adds (name : List Byte) (places : List Nat) :
    Adds ref (lookup ip name places) fun found => reference (found.map (·.1)) := by
  induction places with
  | nil => exact .pure rfl
  | cons off rest ih =>
    refine .after (outer_ref.readDirent _ _) fun _ => .ite ((iget_adds _).bind fun found => .pure ?_) ih
    simp

theorem dirlookup_adds (name : List Byte) : Adds ref (dirlookup ip name) fun found => reference (found.map (·.1)) :=
  .after keeps_inode fun _ => .ite (.throw _) (lookup_adds _ _)

theorem dirlink_keeps (name : List Byte) (inum : Nat) : Keeps ref (dirlink ip name inum) := by
  refine Adds.keeps ((dirlookup_adds name).bind fun found => ?_)
  cases found with
  | some found =>
    refine iput_adds.bind fun _ => .pure ?_
    simp
  | none =>
    refine .after keeps_inode fun _ => .after (outer_ref.emptyDirent _ _) fun _ => ?_
    refine .after (outer_ref.writei _ _) fun _ => .ite (.after (.throw _) fun _ => .pure ?_) (.pure ?_)
    all_goals simp

theorem walk_adds (parent : Bool) (turns : Nat) (path : List Byte) :
    Adds ref (walk parent turns ip path) fun found => reference (found.map (·.1)) - Pi.single ip 1 := by
  have hend : ∀ ip : Fin NINODE, Adds ref (do
      if parent then
        iput ip
        return none
      else return some (ip, [])) fun found : Option (Fin NINODE × List Byte) =>
        reference (found.map (·.1)) - Pi.single ip 1 := by
    intro ip
    refine .ite (iput_adds.bind fun _ => .pure ?_) (.pure ?_)
    all_goals simp
  have hfail : ∀ ip : Fin NINODE, Adds ref (do
      iunlockput ip
      return none) fun found : Option (Fin NINODE × List Byte) => reference (found.map (·.1)) - Pi.single ip 1 := by
    intro ip
    refine iunlockput_adds.bind fun _ => .pure ?_
    simp
  induction turns generalizing ip path with
  | zero => exact hend ip
  | succ turns ih =>
    unfold walk
    cases skipelem path with
    | none => exact hend ip
    | some element =>
      refine .after outer_ref.ilock fun _ => .after keeps_inode fun _ => .ite (hfail ip) (.ite ?_ ?_)
      · refine .after outer_ref.iunlock fun _ => .pure ?_
        simp
      · refine (dirlookup_adds _).bind fun next => ?_
        cases next with
        | none =>
          refine (hfail ip).congr fun found => ?_
          simp
        | some next =>
          refine iunlockput_adds.bind fun _ => (ih _).congr fun found => ?_
          simp only [Option.map_some, reference_some]
          abel

theorem namex_adds (cwd : Fin NINODE) (path : List Byte) (parent : Bool) :
    Adds ref (namex cwd path parent) fun found => reference (found.map (·.1)) := by
  exact .ite ((iget_adds _).bind fun _ => walk_adds _ _ _) (idup_adds.bind fun _ => walk_adds _ _ _)

theorem namei_adds (cwd : Fin NINODE) (path : List Byte) : Adds ref (namei cwd path) reference := by
  refine (namex_adds cwd path false).bind fun found => .pure ?_
  simp

theorem mustLink_keeps (name : List Byte) (inum : Nat) (fails : FsHalt) : Keeps ref (mustLink ip name inum fails) :=
  .bind (dirlink_keeps _ _) fun _ => .ite (.throw _) (.pure _)

theorem createDots_keeps (dp : Fin NINODE) : Keeps ref (createDots dp ip) := by
  refine .bind (outer_ref.modifyInode (fun _ => rfl) (fun _ => rfl)) fun _ => .bind outer_ref.iupdate fun _ => ?_
  exact .bind keeps_inode fun _ => .bind (mustLink_keeps _ _ _) fun _ => .bind keeps_inode fun _ => mustLink_keeps _ _ _

theorem createNew_adds (dp : Fin NINODE) (name : List Byte) (type major minor : BitVec 16) :
    Adds ref (createNew dp name type major minor) fun ip => Pi.single ip 1 - Pi.single dp 1 := by
  have hend : ∀ ip : Fin NINODE, Adds ref (do
      mustLink dp name (← inode ip).inum .createDirlink
      iunlockput dp
      return ip) fun found => Pi.single found 1 - Pi.single dp 1 - Pi.single ip 1 := by
    intro ip
    refine .after keeps_inode fun _ => .after (mustLink_keeps _ _ _) fun _ => iunlockput_adds.bind fun _ => .pure ?_
    abel
  refine (ialloc_adds type).bind fun ip => .after outer_ref.ilock fun _ => ?_
  refine .after (outer_ref.modifyInode (fun _ => rfl) (fun _ => rfl)) fun _ => .after outer_ref.iupdate fun _ => ?_
  exact .ite (.after (createDots_keeps dp) fun _ => hend ip) (hend ip)

theorem create_adds (cwd : Fin NINODE) (path : List Byte) (type major minor : BitVec 16) :
    Adds ref (create cwd path type major minor) reference := by
  refine (namex_adds cwd path true).bind fun parent => ?_
  cases parent with
  | none => exact .pure (by simp)
  | some parent =>
    obtain ⟨dp, name⟩ := parent
    refine .after outer_ref.ilock fun _ => (dirlookup_adds name).bind fun found => ?_
    cases found with
    | some found =>
      obtain ⟨ip, off⟩ := found
      refine iunlockput_adds.bind fun _ => .after outer_ref.ilock fun _ =>
        .after keeps_inode fun _ => .ite (.pure ?_) ?_
      · simp
      · refine iunlockput_adds.bind fun _ => .pure ?_
        simp only [reference_none, reference_some, Option.map_some]
        abel
    | none =>
      refine (createNew_adds dp name type major minor).map fun ip => ?_
      simp

theorem linkTo_keeps (cwd : Fin NINODE) (new : List Byte) : Keeps ref (linkTo cwd ip new) := by
  refine Adds.keeps ((namex_adds cwd new true).bind fun parent => ?_)
  cases parent with
  | none => exact .pure (by simp)
  | some parent =>
    obtain ⟨dp, name⟩ := parent
    refine .after outer_ref.ilock fun _ => .after keeps_inode fun _ => .after (dirlink_keeps _ _) fun _ => ?_
    refine iunlockput_adds.bind fun _ => .pure ?_
    simp

theorem sysLink_keeps (cwd : Fin NINODE) (old new : List Byte) : Keeps ref (sysLink cwd old new) := by
  refine Adds.keeps ((namei_adds cwd old).bind fun found => ?_)
  cases found with
  | none => exact .pure (by simp)
  | some ip =>
    have hput : ∀ result : Bool, Adds ref (do
        iunlockput ip
        return result) fun _ => 0 - reference (some ip) := by
      intro result
      refine iunlockput_adds.bind fun _ => .pure ?_
      simp
    refine .after outer_ref.ilock fun _ => .after keeps_inode fun _ => .ite (hput false) ?_
    refine .after (outer_ref.modifyInode (fun _ => rfl) (fun _ => rfl)) fun _ => .after outer_ref.iupdate fun _ => ?_
    refine .after outer_ref.iunlock fun _ => .after (linkTo_keeps cwd new) fun _ => .ite ?_ ?_
    · refine iput_adds.bind fun _ => .pure ?_
      simp
    · refine .after outer_ref.ilock fun _ => .after (outer_ref.modifyInode (fun _ => rfl) (fun _ => rfl)) fun _ => ?_
      exact .after outer_ref.iupdate fun _ => hput false

theorem removeEntry_adds (dp : Fin NINODE) (off : Nat) :
    Adds ref (removeEntry dp ip off) fun _ => -Pi.single dp 1 - Pi.single ip 1 := by
  have hend : Adds ref (do
      iunlockput dp
      modifyInode ip fun inode => { inode with nlink := inode.nlink - 1 }
      iupdate ip
      iunlockput ip) fun _ => -Pi.single dp 1 - Pi.single ip 1 := by
    refine iunlockput_adds.bind fun _ => .after (outer_ref.modifyInode (fun _ => rfl) (fun _ => rfl)) fun _ => ?_
    refine .after outer_ref.iupdate fun _ => iunlockput_adds.congr fun _ => ?_
    abel
  have hwritten : Adds ref (do
      if (← inode ip).type = T_DIR then
        modifyInode dp fun inode => { inode with nlink := inode.nlink - 1 }
        iupdate dp
      iunlockput dp
      modifyInode ip fun inode => { inode with nlink := inode.nlink - 1 }
      iupdate ip
      iunlockput ip) fun _ => -Pi.single dp 1 - Pi.single ip 1 := by
    refine .after keeps_inode fun _ => .ite ?_ hend
    exact .after (outer_ref.modifyInode (fun _ => rfl) (fun _ => rfl)) fun _ => .after outer_ref.iupdate fun _ => hend
  exact .after (outer_ref.writei _ _) fun _ => .ite (.after (.throw _) fun _ => hwritten) hwritten

theorem isFullDir_keeps : Keeps ref (isFullDir ip) :=
  .bind keeps_inode fun _ => .ite (.map _ outer_ref.isdirempty) (.pure _)

theorem unlinkEntry_adds (dp : Fin NINODE) (off : Nat) :
    Adds ref (unlinkEntry dp ip off) fun _ => -Pi.single dp 1 - Pi.single ip 1 := by
  have hchecked : Adds ref (do
      if ← isFullDir ip then
        iunlockput ip
        iunlockput dp
        return false
      else
        removeEntry dp ip off
        return true) fun _ => -Pi.single dp 1 - Pi.single ip 1 := by
    refine .after isFullDir_keeps fun _ => .ite ?_ ?_
    · refine iunlockput_adds.bind fun _ => iunlockput_adds.bind fun _ => .pure ?_
      abel
    · refine (removeEntry_adds dp off).bind fun _ => .pure ?_
      abel
  refine .after outer_ref.ilock fun _ => .after keeps_inode fun _ => ?_
  exact .ite (.after (.throw _) fun _ => hchecked) hchecked

theorem sysUnlink_keeps (cwd : Fin NINODE) (path : List Byte) : Keeps ref (sysUnlink cwd path) := by
  refine Adds.keeps ((namex_adds cwd path true).bind fun parent => ?_)
  cases parent with
  | none => exact .pure (by simp)
  | some parent =>
    obtain ⟨dp, name⟩ := parent
    have hput : Adds ref (do
        iunlockput dp
        return false) fun _ => 0 - reference (some dp) := by
      refine iunlockput_adds.bind fun _ => .pure ?_
      simp
    refine .after outer_ref.ilock fun _ => .ite hput ((dirlookup_adds name).bind fun found => ?_)
    cases found with
    | none => exact hput.congr fun _ => by simp
    | some found =>
      refine (unlinkEntry_adds dp _).congr fun _ => ?_
      simp

end Xv6.Fs

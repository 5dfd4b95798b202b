import Xv6.Fs.Refs
import Xv6.Sysfile
import Xv6.Runs

namespace Xv6

open Function Xv6.Action

namespace Fs

variable {ip : Fin NINODE}

theorem loaduvm_keeps (input : Nat → Option (List Byte)) (offset sz : Word) (pages : List Nat) :
    Keeps ref (loaduvm input ip offset sz pages) := by
  induction pages with
  | nil => exact .pure _
  | cons i rest ih =>
    refine .bind (outer_ref.readi _ _ _) fun bytes => ?_
    cases bytes with
    | none => exact .pure _
    | some bytes => exact .ite (.pure _) ih

theorem loadSegments_keeps (input : Nat → Nat → Option (List Byte)) (memory : Nat → Bool) (phoff : Word)
    (headers : List Nat) : Keeps ref (loadSegments input memory ip phoff headers) := by
  induction headers with
  | nil => exact .pure _
  | cons i rest ih =>
    refine .bind (outer_ref.readi _ _ _) fun header => ?_
    cases header with
    | none => exact .pure _
    | some header =>
      refine .ite (.pure _) (.ite ih (.ite (.pure _) (.ite (.pure _) (.ite (.pure _) (.ite (.pure _) ?_)))))
      exact .bind (loaduvm_keeps _ _ _ _) fun _ => .ite ih (.pure _)

theorem loadElf_keeps (input : Nat → Nat → Option (List Byte)) (memory : Nat → Bool) :
    Keeps ref (loadElf input memory ip) := by
  refine .bind (outer_ref.readi _ _ _) fun elf => ?_
  cases elf with
  | none => exact .pure _
  | some elf => exact .ite (.pure _) (.ite (.pure _) (.ite (.pure _) (loadSegments_keeps _ _ _ _)))

theorem exec_keeps (cwd : Fin NINODE) (path : List Byte) (input : Nat → Nat → Option (List Byte))
    (memory : Nat → Bool) : Keeps ref (exec cwd path input memory) := by
  refine Adds.keeps ((namei_adds cwd path).bind fun found => ?_)
  cases found with
  | none => exact .pure (by simp)
  | some ip =>
    refine .after outer_ref.ilock fun _ => .after (loadElf_keeps _ _) fun _ => iunlockput_adds.bind fun _ => .pure ?_
    simp

end Fs

-- What a file object refers to.

variable {file : File} {writable : Bool}

namespace File

def inode (file : File) : Option (Fin NINODE) := if file.type = .FD_INODE then some file.ip else none

-- The page of the pipe, and whether it is the end for writing.
def pipeEnd (file : File) : Option (Nat × Bool) :=
  if file.type = .FD_PIPE then some (file.pipe, file.writable) else none

theorem inode_none (h : file.type = .FD_NONE) : file.inode = none := by
  simp [inode, h]

theorem pipeEnd_none (h : file.type = .FD_NONE) : file.pipeEnd = none := by
  simp [pipeEnd, h]

variable {place : Nat × Bool}

theorem type_of_pipeEnd (h : file.pipeEnd = some place) : file.type = .FD_PIPE := by
  by_contra hne
  simp [pipeEnd, hne] at h

theorem inode_of_pipeEnd (h : file.pipeEnd = some place) : file.inode = none := by
  simp [inode, type_of_pipeEnd h]

end File

namespace PipePage

theorem isOpen_close (pipe : PipePage) (one other : Bool) :
    (pipe.close one).isOpen other = (pipe.isOpen other && other != one) := by
  cases one <;> cases other <;> cases hread : pipe.readopen <;> cases hwrite : pipe.writeopen <;>
    simp [close, isOpen, hread, hwrite]

theorem frees_close {pipe : PipePage} (hopen : pipe.isOpen writable)
    (h : pipe.frees = if pipe.readopen || pipe.writeopen then 0 else 1) :
    (pipe.close writable).frees =
      if (pipe.close writable).readopen || (pipe.close writable).writeopen then 0 else 1 := by
  cases writable <;> cases hread : pipe.readopen <;> cases hwrite : pipe.writeopen <;> simp_all [close, isOpen]

end PipePage

namespace Sys

def slot (sys : Sys) (place : Fin NPROC × Fin NOFILE) : Option (Fin NFILE) := (sys.proc place.1).ofile place.2

def opened (sys : Sys) (place : Nat × Bool) : Int :=
  if place.1 < sys.pages ∧ (sys.pipes place.1).isOpen place.2 then 1 else 0

-- The counts are right if the call that is being made has these references in its hands.
structure Counted (sys : Sys) (inodes : Fin NINODE → Int) (files : Fin NFILE → Int) : Prop where
  inode : sys.fs.ref = references (fun f => (sys.ftable f).inode) + references (fun p => (sys.proc p).cwd) + inodes
  file : (fun f => (sys.ftable f).ref) = references sys.slot + files
  pipe : references (fun f => (sys.ftable f).pipeEnd) = sys.opened
  unused (f : Fin NFILE) (href : (sys.ftable f).ref = 0) : (sys.ftable f).type = .FD_NONE
  side (f : Fin NFILE) (hpipe : (sys.ftable f).type = .FD_PIPE) : (sys.ftable f).readable = !(sys.ftable f).writable
  frees (page : Nat) (hpage : page < sys.pages) :
    (sys.pipes page).frees = if (sys.pipes page).readopen || (sys.pipes page).writeopen then 0 else 1
  idle (p : Fin NPROC) (hidle : (sys.proc p).state = .UNUSED ∨ (sys.proc p).state = .ZOMBIE) :
    (sys.proc p).cwd = none ∧ ∀ fd, (sys.proc p).ofile fd = none

namespace Counted

variable {sys : Sys} {inodes : Fin NINODE → Int} {files : Fin NFILE → Int} (h : Counted sys inodes files)

include h

theorem congr {inodes' : Fin NINODE → Int} {files' : Fin NFILE → Int} (hinodes : inodes' = inodes)
    (hfiles : files' = files) : Counted sys inodes' files' := by
  rw [hinodes, hfiles]
  exact h

theorem setFs {fs : Fs} {amount : Fin NINODE → Int} (href : fs.ref = sys.fs.ref + amount) :
    Counted { sys with fs } (inodes + amount) files where
  __ := h
  inode := by
    refine href.trans ?_
    rw [h.inode, add_assoc]

-- The file object may become another end of a pipe, or none any more, when the pipes change with it.
theorem setEnd (f : Fin NFILE) (file : File) {pipes : Nat → PipePage} {pages : Nat}
    (hopened : opened { sys with pipes, pages } =
      sys.opened - reference (sys.ftable f).pipeEnd + reference file.pipeEnd)
    (hfrees : ∀ page < pages, (pipes page).frees = if (pipes page).readopen || (pipes page).writeopen then 0 else 1)
    (hunused : file.ref = 0 → file.type = .FD_NONE) (hside : file.type = .FD_PIPE → file.readable = !file.writable) :
    Counted { sys with ftable := update sys.ftable f file, pipes, pages }
      (inodes + reference (sys.ftable f).inode - reference file.inode)
      (files + Pi.single f (file.ref - (sys.ftable f).ref)) where
  inode := by
    have hinode := h.inode
    rw [references_update sys.ftable File.inode f file, hinode]
    abel
  file := by
    funext other
    have hfile := congrFun h.file other
    by_cases hother : other = f
    · subst hother
      simp only [update_self, Pi.add_apply, Pi.single_eq_same] at hfile ⊢
      change _ = references sys.slot other + _
      omega
    · simp only [update_of_ne hother, Pi.add_apply, Pi.single_eq_of_ne hother, add_zero] at hfile ⊢
      exact hfile
  pipe := by
    refine (references_update sys.ftable File.pipeEnd f file).trans ?_
    rw [h.pipe]
    exact hopened.symm
  unused other href := by
    by_cases hother : other = f
    · subst hother
      simp only [update_self] at href ⊢
      exact hunused href
    · simp only [update_of_ne hother] at href ⊢
      exact h.unused other href
  side other hpipe := by
    by_cases hother : other = f
    · subst hother
      simp only [update_self] at hpipe ⊢
      exact hside hpipe
    · simp only [update_of_ne hother] at hpipe ⊢
      exact h.side other hpipe
  frees := hfrees
  idle := h.idle

variable {f : Fin NFILE} {p : Fin NPROC}

theorem setFile (hend : file.pipeEnd = (sys.ftable f).pipeEnd) (hunused : file.ref = 0 → file.type = .FD_NONE)
    (hside : file.type = .FD_PIPE → file.readable = !file.writable) :
    Counted { sys with ftable := update sys.ftable f file }
      (inodes + reference (sys.ftable f).inode - reference file.inode)
      (files + Pi.single f (file.ref - (sys.ftable f).ref)) := by
  refine h.setEnd f file ?_ h.frees hunused hside
  rw [hend, sub_add_cancel]

theorem setTask {task : Task} (hofile : task.ofile = (sys.proc p).ofile)
    (hidle : task.state = .UNUSED ∨ task.state = .ZOMBIE → task.cwd = none ∧ ∀ fd, task.ofile fd = none) :
    Counted { sys with proc := update sys.proc p task }
      (inodes + reference (sys.proc p).cwd - reference task.cwd) files where
  inode := by
    have hinode := h.inode
    rw [references_update sys.proc Task.cwd p task, hinode]
    abel
  file := by
    refine h.file.trans ?_
    have hslot : slot { sys with proc := update sys.proc p task } = sys.slot := by
      funext place
      by_cases hplace : place.1 = p
      · simp [slot, hplace, hofile]
      · simp [slot, update_of_ne hplace]
    rw [hslot]
  pipe := h.pipe
  unused := h.unused
  side := h.side
  frees := h.frees
  idle other hother := by
    by_cases hp : other = p
    · subst hp
      simp only [update_self] at hother ⊢
      exact hidle hother
    · simp only [update_of_ne hp] at hother ⊢
      exact h.idle other hother

theorem setFd (fd : Fin NOFILE) (file : Option (Fin NFILE))
    (hidle : (sys.proc p).state = .UNUSED ∨ (sys.proc p).state = .ZOMBIE → file = none) :
    Counted
      { sys with
        proc := update sys.proc p { sys.proc p with ofile := update (sys.proc p).ofile fd file } }
      inodes (files + reference ((sys.proc p).ofile fd) - reference file) where
  inode := by
    refine h.inode.trans ?_
    rw [references_update sys.proc Task.cwd p, sub_add_cancel]
  file := by
    have hslot : slot { sys with
        proc := update sys.proc p { sys.proc p with ofile := update (sys.proc p).ofile fd file } } =
        update sys.slot (p, fd) file := by
      funext place
      obtain ⟨q, other⟩ := place
      by_cases hq : q = p
      · subst hq
        by_cases hother : other = fd
        · subst hother
          simp [slot]
        · simp [slot, hother]
      · simp [slot, hq]
    have hcount := references_update sys.slot id (p, fd) file
    simp only [id] at hcount
    rw [hslot]
    change _ = references (fun place => update sys.slot (p, fd) file place) + _
    rw [hcount]
    refine h.file.trans ?_
    have hold : sys.slot (p, fd) = (sys.proc p).ofile fd := rfl
    rw [hold]
    change references (fun place => sys.slot place) + _ = _
    abel
  pipe := h.pipe
  unused := h.unused
  side := h.side
  frees := h.frees
  idle other hother := by
    by_cases hp : other = p
    · subst hp
      simp only [update_self] at hother ⊢
      obtain ⟨hcwd, hofile⟩ := h.idle other hother
      refine ⟨hcwd, fun e => ?_⟩
      by_cases he : e = fd
      · subst he
        rw [update_self]
        exact hidle hother
      · rw [update_of_ne he]
        exact hofile e
    · simp only [update_of_ne hp] at hother ⊢
      exact h.idle other hother

-- The end of a pipe that a file has is open.
theorem isOpen {page : Nat} (hend : (sys.ftable f).pipeEnd = some (page, writable)) :
    page < sys.pages ∧ (sys.pipes page).isOpen writable := by
  have hpos : 0 < references (fun f => (sys.ftable f).pipeEnd) (page, writable) :=
    (references_pos_iff _ _).mpr ⟨f, hend⟩
  rw [h.pipe, opened] at hpos
  by_contra hclosed
  rw [if_neg hclosed] at hpos
  omega

theorem closePipe {page : Nat} (hend : (sys.ftable f).pipeEnd = some (page, writable)) (hfile : file.type = .FD_NONE) :
    Counted
      { sys with
        ftable := update sys.ftable f file
        pipes := update sys.pipes page ((sys.pipes page).close writable) }
      (inodes + reference (sys.ftable f).inode - reference file.inode)
      (files + Pi.single f (file.ref - (sys.ftable f).ref)) := by
  obtain ⟨hpage, hopen⟩ := h.isOpen hend
  have hnone := File.pipeEnd_none hfile
  refine h.setEnd f file ?_ ?_ (fun _ => hfile) (by simp [hfile])
  · funext place
    obtain ⟨other, end'⟩ := place
    rw [hend, hnone, reference_none, add_zero, Pi.sub_apply, reference_apply]
    by_cases hother : other = page
    · subst hother
      cases writable <;> cases end' <;> simp_all [opened, PipePage.isOpen_close]
    · simp [opened, update_of_ne hother, Ne.symm hother]
  · intro other hother
    by_cases hsame : other = page
    · subst hsame
      rw [update_self]
      exact PipePage.frees_close hopen (h.frees other hother)
    · rw [update_of_ne hsame]
      exact h.frees other hother

-- A new page for the pipe, with one file object for each end.
theorem openPipe {f0 f1 : Fin NFILE} {one two : File} (hne : f1 ≠ f0) (hf0 : (sys.ftable f0).type = .FD_NONE)
    (hf1 : (sys.ftable f1).type = .FD_NONE) (hone : one.pipeEnd = some (sys.pages, false))
    (htwo : two.pipeEnd = some (sys.pages, true)) (href0 : one.ref = (sys.ftable f0).ref)
    (href1 : two.ref = (sys.ftable f1).ref) (hpos0 : one.ref ≠ 0) (hpos1 : two.ref ≠ 0)
    (hside0 : one.readable = !one.writable) (hside1 : two.readable = !two.writable) :
    Counted
      { sys with
        ftable := update (update sys.ftable f0 one) f1 two
        pipes := update sys.pipes sys.pages ⟨true, true, 0⟩
        pages := sys.pages + 1 }
      inodes files := by
  have hnext : ∀ page, page ≠ sys.pages → (page < sys.pages + 1 ↔ page < sys.pages) := by omega
  -- As if the end for reading were opened before the other one.
  have hread : Counted
      { sys with
        ftable := update sys.ftable f0 one
        pipes := update sys.pipes sys.pages ⟨true, false, 0⟩
        pages := sys.pages + 1 }
      inodes files := by
    refine (h.setEnd f0 one ?_ ?_ (by simp [hpos0]) fun _ => hside0).congr ?_ ?_
    · funext place
      obtain ⟨page, writable⟩ := place
      rw [File.pipeEnd_none hf0, hone, reference_none, sub_zero, Pi.add_apply, reference_apply]
      by_cases hpage : page = sys.pages
      · subst hpage
        cases writable <;> simp [opened, PipePage.isOpen]
      · simp [opened, update_of_ne hpage, hnext page hpage, Ne.symm hpage]
    · intro page hlt
      by_cases hpage : page = sys.pages
      · subst hpage
        simp
      · rw [update_of_ne hpage]
        exact h.frees page ((hnext page hpage).mp hlt)
    · simp [File.inode_none hf0, File.inode_of_pipeEnd hone]
    · simp [href0]
  have hftable : update sys.ftable f0 one f1 = sys.ftable f1 := update_of_ne hne _ _
  refine (hread.setEnd f1 two ?_ ?_ (by simp [hpos1]) fun _ => hside1).congr ?_ ?_
  · funext place
    obtain ⟨page, writable⟩ := place
    simp only [hftable]
    rw [File.pipeEnd_none hf1, htwo, reference_none, sub_zero, Pi.add_apply, reference_apply]
    by_cases hpage : page = sys.pages
    · subst hpage
      cases writable <;> simp [opened, PipePage.isOpen]
    · simp [opened, update_of_ne hpage, Ne.symm hpage]
  · intro page hlt
    by_cases hpage : page = sys.pages
    · subst hpage
      simp
    · rw [update_of_ne hpage]
      exact h.frees page ((hnext page hpage).mp hlt)
  · simp [hftable, File.inode_none hf1, File.inode_of_pipeEnd htwo]
  · simp [hftable, href1]

end Counted

end Sys

end Xv6

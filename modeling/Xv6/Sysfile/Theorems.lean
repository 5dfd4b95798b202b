import Xv6.Mkfs
import Xv6.Sysfile.Counts

namespace Xv6.Sys

open Function Xv6.Action Fs

variable {sys : Sys} {inodes : Fin NINODE → Int} {files : Fin NFILE → Int} {me : Fin NPROC}

-- What the parts of a call do, whatever it goes on to do.

variable {Value : Type} {f : Fin NFILE} {fds : List (Fin NOFILE)}

section Rules

theorem wp_fsCall {action : Fs.M Value} {returns : Value → Sys → Prop} {stops : SysHalt → Prop}
    (h : wp action sys.fs (fun value fs => returns value { sys with fs }) fun halt => stops (.fs halt)) :
    wp (fsCall action) sys returns stops := by
  unfold wp at h ⊢
  cases haction : action.run sys.fs with
  | error halt =>
    have hrun : (fsCall action).run sys = .error (.fs halt) := by
      simp only [fsCall, StateT.run] at haction ⊢
      rw [haction]
    rw [haction] at h
    rw [hrun]
    exact h
  | ok pair =>
    have hrun : (fsCall action).run sys = .ok (pair.1, { sys with fs := pair.2 }) := by
      simp only [fsCall, StateT.run] at haction ⊢
      rw [haction]
    rw [haction] at h
    rw [hrun]
    exact h

theorem fsCall_wp {action : Fs.M Value} {amount : Value → Fin NINODE → Int} {returns : Value → Sys → Prop}
    (h : Adds Fs.ref action amount)
    (hreturns : ∀ value fs, fs.ref = sys.fs.ref + amount value → returns value { sys with fs }) :
    wp (fsCall action) sys returns fun _ => True :=
  wp_fsCall ((h sys.fs).mono hreturns fun _ _ => trivial)

theorem fsCall_keeps {action : Fs.M Value} {returns : Value → Sys → Prop} (h : Keeps Fs.ref action)
    (hreturns : ∀ value fs, fs.ref = sys.fs.ref → returns value { sys with fs }) :
    wp (fsCall action) sys returns fun _ => True := by
  refine fsCall_wp h.adds fun value fs href => hreturns value fs ?_
  rw [href, add_zero]

theorem cwd_wp {returns : Fin NINODE → Sys → Prop} (h : ∀ ip, (sys.proc me).cwd = some ip → returns ip sys) :
    wp (cwd me) sys returns fun _ => True := by
  simp only [cwd, wp_bind, wp_get]
  cases hcwd : (sys.proc me).cwd with
  | none => trivial
  | some ip => exact h ip hcwd

theorem argfd_wp {fd : Int} {returns : Option (Fin NOFILE × Fin NFILE) → Sys → Prop} (hnone : returns none sys)
    (hsome : ∀ fd f, (sys.proc me).ofile fd = some f → returns (some (fd, f)) sys) :
    wp (argfd me fd) sys returns fun _ => True := by
  unfold argfd
  split
  · rename_i hfd
    simp only [wp_bind, wp_get, wp_pure]
    cases hofile : (sys.proc me).ofile ⟨fd.toNat, hfd.2⟩ with
    | none => exact hnone
    | some f => exact hsome _ f hofile
  · exact hnone

theorem fdalloc_wp {returns : Option (Fin NOFILE) → Sys → Prop} (hnone : returns none sys)
    (hsome : ∀ fd, (sys.proc me).ofile fd = none → returns (some fd)
      { sys with
        proc := update sys.proc me { sys.proc me with ofile := update (sys.proc me).ofile fd (some f) } }) :
    wp (fdalloc me f) sys returns fun _ => True := by
  simp only [fdalloc, wp_bind, wp_get]
  split
  · exact hnone
  · rename_i fd hfind
    have hfd := List.find?_some (p := fun fd => ((sys.proc me).ofile fd).isNone) hfind
    exact hsome fd (Option.isNone_iff_eq_none.mp hfd)

end Rules

section Counts

variable (h : Counted sys inodes files)

include h

theorem Counted.setRef {ref count : Int} (hunused : ref = 0 → (sys.ftable f).type = .FD_NONE)
    (hcount : ref - (sys.ftable f).ref = count) :
    Counted { sys with ftable := update sys.ftable f { sys.ftable f with ref } } inodes
      (files + Pi.single f count) := by
  subst hcount
  refine (h.setFile ?_ hunused ?_).congr ?_ rfl
  · rfl
  · exact h.side f
  · exact (add_sub_cancel_right _ _).symm

theorem Counted.alloc (href : (sys.ftable f).ref = 0) :
    Counted { sys with ftable := update sys.ftable f { sys.ftable f with ref := 1 } } inodes
      (files + Pi.single f 1) := by
  refine h.setRef ?_ ?_
  · intro hzero
    omega
  · rw [href, sub_zero]

-- A file object between filealloc and the moment when it gets its type.
def Fresh (sys : Sys) (f : Fin NFILE) : Prop := (sys.ftable f).ref = 1 ∧ (sys.ftable f).type = .FD_NONE

theorem filealloc_wp {returns : Option (Fin NFILE) → Sys → Prop} (hnone : returns none sys)
    (hsome : ∀ f next, next.proc = sys.proc → Counted next inodes (files + Pi.single f 1) → Fresh next f →
      (∀ other, Fresh sys other → other ≠ f ∧ Fresh next other) → returns (some f) next) :
    wp filealloc sys returns fun _ => True := by
  simp only [filealloc, wp_bind, wp_get]
  split
  · exact hnone
  · rename_i f hfind
    have hf := List.find?_some (p := fun f => decide ((sys.ftable f).ref = 0)) hfind
    have href := of_decide_eq_true hf
    refine hsome f _ rfl (h.alloc href) ?_ ?_
    · simp [Fresh, h.unused f href]
    · rintro other ⟨hone, htype⟩
      have hne : other ≠ f := by
        rintro rfl
        omega
      simp [Fresh, hne, hone, htype]

theorem Counted.setOff {off : Word} :
    Counted { sys with ftable := update sys.ftable f { sys.ftable f with off } } inodes files := by
  refine (h.setFile ?_ ?_ ?_).congr ?_ ?_
  · rfl
  · exact h.unused f
  · exact h.side f
  · exact (add_sub_cancel_right _ _).symm
  · simp

theorem filedup_counted :
    wp (filedup f) sys (fun _ next => Counted next inodes (files + Pi.single f 1) ∧ next.proc = sys.proc)
      fun _ => True := by
  simp only [filedup, wp_bind, wp_get, wp_ite, wp_throw, modifyFile, wp_modify]
  split_ifs with hlow
  refine ⟨h.setRef ?_ ?_, trivial⟩
  · intro hzero
    omega
  · exact add_sub_cancel_left _ _

theorem fileclose_counted :
    wp (fileclose f) sys (fun _ next => Counted next inodes (files - Pi.single f 1) ∧ next.proc = sys.proc)
      fun _ => True := by
  have hfiles : files - Pi.single f 1 = files + Pi.single f (-1) := by rw [Pi.single_neg, sub_eq_add_neg]
  simp only [fileclose, wp_bind, wp_get, wp_ite, wp_throw, modifyFile, wp_modify]
  split_ifs with hlow hmore
  · rw [hfiles]
    refine ⟨h.setRef ?_ ?_, trivial⟩
    · intro hzero
      omega
    · exact sub_sub_cancel_left _ _
  · have hone : -1 = 0 - (sys.ftable f).ref := by omega
    rw [hfiles, hone]
    cases htype : (sys.ftable f).type with
    | FD_NONE =>
      refine ⟨(h.setFile ?_ (fun _ => rfl) (by simp)).congr ?_ rfl, rfl⟩
      · simp [File.pipeEnd, htype]
      · simp [File.inode, htype]
    | FD_PIPE =>
      have hend : (sys.ftable f).pipeEnd = some ((sys.ftable f).pipe, (sys.ftable f).writable) := by
        simp [File.pipeEnd, htype]
      refine ⟨(h.closePipe hend rfl).congr ?_ rfl, rfl⟩
      simp [File.inode, htype]
    | FD_INODE =>
      refine fsCall_wp iput_adds fun _ fs href => ⟨?_, rfl⟩
      refine ((h.setFile ?_ (fun _ => rfl) (by simp)).setFs href).congr ?_ rfl
      · simp [File.pipeEnd, htype]
      · simp [File.inode, htype]

theorem Counted.fsCall {fs : Fs} (href : fs.ref = sys.fs.ref) : Counted { sys with fs } inodes files := by
  have hsame : fs.ref = sys.fs.ref + 0 := by rw [href, add_zero]
  exact (h.setFs hsame).congr (add_zero _).symm rfl

theorem fileread_counted {n : Nat} {result : Option (List Byte)} :
    wp (fileread f n result) sys (fun _ next => Counted next inodes files ∧ next.proc = sys.proc) fun _ => True := by
  simp only [fileread, wp_bind, wp_get, wp_ite, wp_pure]
  split_ifs
  · exact ⟨h, trivial⟩
  · cases (sys.ftable f).type with
    | FD_NONE => trivial
    | FD_PIPE => exact ⟨h, rfl⟩
    | FD_INODE =>
      simp only [wp_bind]
      refine fsCall_keeps outer_ref.ilock fun _ fs hlocked => ?_
      refine fsCall_keeps (outer_ref.readi _ _ _) fun bytes fs hread => ?_
      have hcounted := (h.fsCall hlocked).fsCall hread
      cases bytes with
      | none =>
        exact fsCall_keeps outer_ref.iunlock fun _ fs hunlocked => ⟨hcounted.fsCall hunlocked, rfl⟩
      | some bytes =>
        simp only [wp_bind, modifyFile, wp_modify]
        exact fsCall_keeps outer_ref.iunlock fun _ fs hunlocked => ⟨hcounted.setOff.fsCall hunlocked, rfl⟩

variable {addr : List Byte}

theorem writeChunks_counted {ip : Fin NINODE} {turns : Nat} :
    wp (writeChunks f ip turns addr) sys (fun _ next => Counted next inodes files ∧ next.proc = sys.proc)
      fun _ => True := by
  induction turns generalizing sys addr with
  | zero => exact ⟨h, rfl⟩
  | succ turns ih =>
    simp only [writeChunks, wp_bind, wp_get, wp_ite, wp_pure, wp_throw]
    by_cases hempty : addr.isEmpty = true
    · rw [if_pos hempty]
      exact ⟨h, trivial⟩
    · rw [if_neg hempty]
      refine fsCall_keeps outer_ref.ilock fun _ fs hlocked => ?_
      refine fsCall_keeps (outer_ref.writei _ _) fun written fs hwritten => ?_
      have hcounted := (h.fsCall hlocked).fsCall hwritten
      generalize (if written = true then ((addr.take maxWrite).length : Int) else -1) = r
      have hrest : ∀ next : Sys, Counted next inodes files → next.proc = sys.proc →
          wp (fsCall (iunlock ip)) next (fun _ next =>
            if r < 0 then Counted next inodes files ∧ next.proc = sys.proc
            else if r ≠ (addr.take maxWrite).length then True
            else wp (writeChunks f ip turns (addr.drop r.toNat)) next
              (fun _ next => Counted next inodes files ∧ next.proc = sys.proc) fun _ => True) fun _ => True := by
        intro next hnext hproc
        refine fsCall_keeps outer_ref.iunlock fun _ fs hunlocked => ?_
        split_ifs
        · exact ⟨hnext.fsCall hunlocked, hproc⟩
        · refine (ih (hnext.fsCall hunlocked)).imp ?_
          rintro - last ⟨hlast, hsame⟩
          exact ⟨hlast, hsame.trans hproc⟩
      by_cases hr : r > 0
      · rw [if_pos hr]
        exact hrest _ hcounted.setOff rfl
      · rw [if_neg hr]
        exact hrest _ hcounted rfl

theorem filewrite_counted :
    wp (filewrite f addr) sys (fun _ next => Counted next inodes files ∧ next.proc = sys.proc) fun _ => True := by
  simp only [filewrite, wp_bind, wp_get, wp_ite, wp_pure]
  split_ifs
  · exact ⟨h, trivial⟩
  · cases (sys.ftable f).type with
    | FD_NONE => trivial
    | FD_PIPE => exact ⟨h, rfl⟩
    | FD_INODE =>
      simp only [wp_bind, wp_ite, wp_pure, ite_self]
      exact writeChunks_counted h

end Counts

section Calls

variable (h : Counted sys 0 0) (hme : (sys.proc me).state = .RUNNABLE)

-- A process that makes calls may have files.
theorem busy {file : Option (Fin NFILE)} (hme : (sys.proc me).state = .RUNNABLE)
    (hidle : (sys.proc me).state = .UNUSED ∨ (sys.proc me).state = .ZOMBIE) : file = none := by
  rw [hme] at hidle
  simp at hidle

include h hme in
theorem sysDup_counted (fd : Int) : wp (sysDup me fd) sys (fun _ next => Counted next 0 0) fun _ => True := by
  simp only [sysDup, wp_bind]
  refine argfd_wp h fun fd f _ => ?_
  simp only [wp_bind]
  refine fdalloc_wp h fun place hplace => ?_
  refine (filedup_counted (h.setFd _ _ (busy hme))).imp ?_
  rintro - next ⟨hnext, -⟩
  refine hnext.congr rfl ?_
  simp [hplace]

include h in
theorem sysRead_counted (fd : Int) (n : Nat) (result : Option (List Byte)) :
    wp (sysRead me fd n result) sys (fun _ next => Counted next 0 0) fun _ => True := by
  simp only [sysRead, wp_bind]
  refine argfd_wp h fun fd f _ => (fileread_counted h).imp ?_
  rintro - next ⟨hnext, -⟩
  exact hnext

include h in
theorem sysWrite_counted (fd : Int) (addr : List Byte) :
    wp (sysWrite me fd addr) sys (fun _ next => Counted next 0 0) fun _ => True := by
  simp only [sysWrite, wp_bind]
  refine argfd_wp h fun fd f _ => (filewrite_counted h).imp ?_
  rintro - next ⟨hnext, -⟩
  exact hnext

include h in
theorem sysClose_counted (fd : Int) : wp (sysClose me fd) sys (fun _ next => Counted next 0 0) fun _ => True := by
  simp only [sysClose, wp_bind]
  refine argfd_wp h fun fd f hfd => ?_
  simp only [setFd, modifyTask, wp_bind, wp_modify]
  refine (fileclose_counted (h.setFd _ _ fun _ => rfl)).imp ?_
  rintro - next ⟨hnext, -⟩
  refine hnext.congr rfl ?_
  simp [hfd]

-- The inode is in the hands of the call.
theorem openInode_wp {path : List Byte} {omode : Word} {returns : Option (Fin NINODE) → Sys → Prop}
    (hreturns : ∀ found fs, fs.ref = sys.fs.ref + reference found → returns found { sys with fs }) :
    wp (openInode me path omode) sys returns fun _ => True := by
  simp only [openInode, wp_bind]
  refine cwd_wp fun cwd _ => ?_
  simp only [wp_ite]
  split_ifs
  · exact fsCall_wp (create_adds _ _ _ _ _) hreturns
  · simp only [wp_bind]
    refine fsCall_wp (namei_adds _ _) fun found fs hfound => ?_
    cases found with
    | none => exact hreturns none fs hfound
    | some ip =>
      simp only [wp_bind, wp_ite, wp_pure]
      refine fsCall_keeps outer_ref.ilock fun _ fs hlocked => fsCall_keeps keeps_inode fun node fs hnode => ?_
      split_ifs
      · refine fsCall_wp iunlockput_adds fun _ fs hput => hreturns none fs ?_
        simp only at hput hnode hlocked hfound
        rw [hput, hnode, hlocked, hfound]
        simp
      · refine hreturns (some ip) fs ?_
        simp only at hnode hlocked hfound
        rw [hnode, hlocked, hfound]

include h hme in
theorem sysOpen_counted (path : List Byte) (omode : Word) :
    wp (sysOpen me path omode) sys (fun _ next => Counted next 0 0) fun _ => True := by
  simp only [sysOpen, wp_bind]
  refine openInode_wp fun found fs hfound => ?_
  have hheld := h.setFs hfound
  cases found with
  | none => exact hheld.congr (by simp) rfl
  | some ip =>
    simp only [wp_bind]
    refine filealloc_wp hheld ?_ fun f next hproc hnext hfresh _ => ?_
    · simp only [wp_bind, wp_pure]
      refine fsCall_wp iunlockput_adds fun _ fs hput => (hheld.setFs hput).congr ?_ rfl
      simp
    · simp only [wp_bind]
      refine fdalloc_wp ?_ fun fd hfd => ?_
      · simp only [wp_bind, wp_pure]
        refine (fileclose_counted hnext).imp ?_
        rintro - last ⟨hlast, -⟩
        refine fsCall_wp iunlockput_adds fun _ fs hput => (hlast.setFs hput).congr ?_ ?_
        · simp
        · simp
      · simp only [wp_bind, modifyFile, wp_modify, wp_pure]
        refine fsCall_keeps outer_ref.iunlock fun _ fs hunlocked => ?_
        have hrun : (next.proc me).state = .RUNNABLE := by rw [hproc, hme]
        have hslot := (hnext.setFd _ _ (busy hrun)).fsCall hunlocked
        refine (hslot.setFile ?_ ?_ ?_).congr ?_ ?_
        · simp [File.pipeEnd, hfresh.2]
        · simp [hfresh.1]
        · simp
        · simp [File.inode, hfresh.2]
        · simp [hfd]

include h in
theorem createNode_counted (path : List Byte) (type major minor : BitVec 16) :
    wp (createNode me path type major minor) sys (fun _ next => Counted next 0 0) fun _ => True := by
  simp only [createNode, wp_bind]
  refine cwd_wp fun cwd _ => fsCall_wp (create_adds _ _ _ _ _) fun found fs hfound => ?_
  have hheld := h.setFs hfound
  cases found with
  | none => exact hheld.congr (by simp) rfl
  | some ip =>
    simp only [wp_bind, wp_pure]
    refine fsCall_wp iunlockput_adds fun _ fs hput => (hheld.setFs hput).congr ?_ rfl
    simp

include h hme in
theorem sysChdir_counted (path : List Byte) :
    wp (sysChdir me path) sys (fun _ next => Counted next 0 0) fun _ => True := by
  simp only [sysChdir, wp_bind]
  refine cwd_wp fun old hold => fsCall_wp (namei_adds _ _) fun found fs hfound => ?_
  have hheld := h.setFs hfound
  cases found with
  | none => exact hheld.congr (by simp) rfl
  | some ip =>
    simp only [wp_bind, wp_ite]
    refine fsCall_keeps outer_ref.ilock fun _ fs hlocked => fsCall_keeps keeps_inode fun node fs hnode => ?_
    have hlock := (hheld.fsCall hlocked).fsCall hnode
    split_ifs
    · refine fsCall_wp iunlockput_adds fun _ fs hput => (hlock.setFs hput).congr ?_ rfl
      simp
    · simp only [modifyTask, wp_modify]
      refine fsCall_keeps outer_ref.iunlock fun _ fs hunlocked => fsCall_wp iput_adds fun _ fs hput => ?_
      have hput' := (hlock.fsCall hunlocked).setFs hput
      refine (hput'.setTask ?_ ?_).congr ?_ rfl
      · rfl
      · simp [hme]
      · simp [hold]

-- Calls that leave nothing in the hands of the process.
include h in
theorem fsCall_counted {action : Fin NINODE → Fs.M Value} (haction : ∀ cwd, Keeps Fs.ref (action cwd)) :
    wp (do fsCall (action (← cwd me))) sys (fun _ next => Counted next 0 0) fun _ => True := by
  rw [wp_bind]
  exact cwd_wp fun cwd _ => fsCall_keeps (haction cwd) fun _ fs href => h.fsCall href

include h in
theorem pipealloc_counted (memory : Bool) :
    wp (pipealloc memory) sys (fun found next =>
      next.proc = sys.proc ∧ Counted next 0 (match found with
        | none => 0
        | some (rf, wf) => Pi.single rf 1 + Pi.single wf 1)) fun _ => True := by
  simp only [pipealloc, wp_bind]
  refine filealloc_wp h ⟨rfl, h⟩ fun f0 one hprocone hone hfresh0 _ => ?_
  simp only [wp_bind]
  refine filealloc_wp hone ?_ fun f1 two hproctwo htwo hfresh1 hothers => ?_
  · simp only [wp_bind, wp_pure]
    refine (fileclose_counted hone).imp ?_
    rintro - next ⟨hnext, hproc⟩
    exact ⟨hproc.trans hprocone, hnext.congr rfl (by simp)⟩
  · obtain ⟨hne, hkept⟩ := hothers f0 hfresh0
    simp only [wp_bind, kalloc, wp_ite, wp_get, wp_modify, wp_pure]
    split_ifs
    · simp only [modifyFile, wp_modify]
      refine ⟨hproctwo.trans hprocone,
        (htwo.openPipe hne.symm hkept.2 hfresh1.2 ?_ ?_ ?_ ?_ ?_ ?_ rfl rfl).congr rfl ?_⟩
      · simp [File.pipeEnd]
      · simp [File.pipeEnd]
      · rfl
      · simp [update_of_ne hne.symm]
      · simp [hkept.1]
      · simp [update_of_ne hne.symm, hfresh1.1]
      · simp
    · refine (fileclose_counted htwo).imp ?_
      rintro - next ⟨hnext, hproc⟩
      refine (fileclose_counted hnext).imp ?_
      rintro - last ⟨hlast, hproc'⟩
      refine ⟨hproc'.trans (hproc.trans (hproctwo.trans hprocone)), hlast.congr rfl ?_⟩
      simp

include h hme in
theorem sysPipe_counted (memory : Bool) :
    wp (sysPipe me memory) sys (fun _ next => Counted next 0 0) fun _ => True := by
  simp only [sysPipe, wp_bind]
  refine (pipealloc_counted h memory).imp ?_
  rintro found next ⟨hproc, hnext⟩
  have hrun : (next.proc me).state = .RUNNABLE := by rw [hproc, hme]
  cases found with
  | none => exact hnext
  | some ends =>
    obtain ⟨rf, wf⟩ := ends
    simp only [wp_bind]
    refine fdalloc_wp ?_ fun fd0 hfd0 => ?_
    · simp only [wp_bind]
      refine (fileclose_counted hnext).imp ?_
      rintro - middle ⟨hmiddle, -⟩
      refine (fileclose_counted hmiddle).imp ?_
      rintro - last ⟨hlast, -⟩
      refine hlast.congr rfl ?_
      simp
    · have hread := hnext.setFd fd0 (some rf) (busy hrun)
      simp only [wp_bind]
      refine fdalloc_wp ?_ fun fd1 hfd1 => ?_
      · simp only [wp_bind, setFd, modifyTask, wp_modify]
        refine (fileclose_counted (hread.setFd _ _ fun _ => rfl)).imp ?_
        rintro - middle ⟨hmiddle, -⟩
        refine (fileclose_counted hmiddle).imp ?_
        rintro - last ⟨hlast, -⟩
        refine hlast.congr rfl ?_
        simp [hfd0]
      · simp only [wp_pure]
        refine (hread.setFd _ _ ?_).congr rfl ?_
        · exact busy (by simp [hrun])
        · have hempty : update (next.proc me).ofile fd0 (some rf) fd1 = none := by simpa using hfd1
          simp [hfd0, hempty]

end Calls

section Fork

variable {child : Fin NPROC}

-- The slots of the child are empty until the loop comes to them.
theorem forkFiles_counted (h : Counted sys 0 0) (hchild : (sys.proc child).state = .EMBRYO) (hfds : fds.Nodup)
    (hempty : ∀ fd ∈ fds, (sys.proc child).ofile fd = none) :
    wp (forkFiles me child fds) sys (fun _ next =>
      Counted next 0 0 ∧ (next.proc child).state = .EMBRYO ∧ (next.proc child).cwd = (sys.proc child).cwd)
      fun _ => True := by
  induction fds generalizing sys with
  | nil => exact ⟨h, hchild, rfl⟩
  | cons fd rest ih =>
    obtain ⟨hfd, hrest⟩ := List.nodup_cons.mp hfds
    simp only [forkFiles, wp_bind, wp_get]
    cases (sys.proc me).ofile fd with
    | none => exact ih h hchild hrest fun other hother => hempty other (List.mem_cons_of_mem _ hother)
    | some f =>
      simp only [wp_bind, setFd, modifyTask, wp_modify]
      refine (filedup_counted h).imp ?_
      rintro - next ⟨hnext, hproc⟩
      have hslot : (next.proc child).ofile fd = none := by
        rw [hproc]
        exact hempty fd List.mem_cons_self
      have hnew : Counted
          { next with
            proc := update next.proc child
              { next.proc child with ofile := update (next.proc child).ofile fd (some f) } } 0 0 := by
        refine (hnext.setFd fd (some f) ?_).congr rfl ?_
        · intro hidle
          rw [hproc, hchild] at hidle
          simp at hidle
        · simp [hslot]
      refine (ih hnew ?_ hrest ?_).imp ?_
      · simp [hproc, hchild]
      · intro other hother
        have hne : other ≠ fd := by
          rintro rfl
          exact hfd hother
        simpa [hne, hproc] using hempty other (List.mem_cons_of_mem _ hother)
      · rintro - last ⟨hlast, hstate, hcwd⟩
        exact ⟨hlast, hstate, by simpa [hproc] using hcwd⟩

theorem fork_counted (h : Counted sys 0 0) (memory : Bool) :
    wp (fork me memory) sys (fun _ next => Counted next 0 0) fun _ => True := by
  simp only [fork, wp_bind, wp_get]
  split
  · exact h
  · rename_i child hfind
    have hfound := List.find?_some (p := fun p => decide ((sys.proc p).state = .UNUSED)) hfind
    have hunused := of_decide_eq_true hfound
    obtain ⟨hcwd, hofile⟩ := h.idle child (.inl hunused)
    simp only [wp_ite, wp_pure, wp_bind, modifyTask, wp_modify]
    split_ifs
    · exact h
    · have hembryo : Counted
          { sys with proc := update sys.proc child { sys.proc child with state := .EMBRYO } } 0 0 := by
        refine (h.setTask ?_ ?_).congr ?_ rfl
        · rfl
        · simp
        · simp
      refine (forkFiles_counted hembryo ?_ (List.nodup_finRange _) ?_).imp ?_
      · simp
      · intro fd _
        simpa using hofile fd
      · rintro - next ⟨hnext, hstate, hsame⟩
        refine cwd_wp fun cwd _ => fsCall_wp idup_adds fun ip fs href => ?_
        refine ((hnext.setFs href).setTask ?_ ?_).congr ?_ rfl
        · rfl
        · simp
        · simp [hsame, hcwd]

end Fork

section Exit

-- A slot that has been empty stays so.
theorem exitFiles_counted (h : Counted sys 0 0) (hme : (sys.proc me).state = .RUNNABLE) :
    wp (exitFiles me fds) sys (fun _ next =>
      Counted next 0 0 ∧ (next.proc me).cwd = (sys.proc me).cwd ∧
        ∀ fd, fd ∈ fds ∨ (sys.proc me).ofile fd = none → (next.proc me).ofile fd = none) fun _ => True := by
  induction fds generalizing sys with
  | nil => exact ⟨h, rfl, fun fd hfd => hfd.resolve_left List.not_mem_nil⟩
  | cons fd rest ih =>
    simp only [exitFiles, wp_bind, wp_get]
    cases hofile : (sys.proc me).ofile fd with
    | none =>
      refine (ih h hme).imp ?_
      rintro - next ⟨hnext, hcwd, hempty⟩
      refine ⟨hnext, hcwd, fun other hother => hempty other ?_⟩
      rcases hother with hmem | hnone
      · rcases List.mem_cons.mp hmem with rfl | hmem
        · exact .inr hofile
        · exact .inl hmem
      · exact .inr hnone
    | some f =>
      simp only [wp_bind, setFd, modifyTask, wp_modify]
      refine (fileclose_counted h).imp ?_
      rintro - next ⟨hnext, hproc⟩
      have hnew : Counted
          { next with
            proc := update next.proc me { next.proc me with ofile := update (next.proc me).ofile fd none } } 0 0 := by
        refine (hnext.setFd fd none fun _ => rfl).congr rfl ?_
        simp [hproc, hofile]
      refine (ih hnew ?_).imp ?_
      · simp [hproc, hme]
      · rintro - last ⟨hlast, hcwd, hempty⟩
        refine ⟨hlast, by simpa [hproc] using hcwd, fun other hother => hempty other ?_⟩
        by_cases hsame : other = fd
        · subst hsame
          simp
        · simpa [hproc, hsame] using hother

theorem exit_counted (h : Counted sys 0 0) (hme : (sys.proc me).state = .RUNNABLE) :
    wp (exit me) sys (fun _ next => Counted next 0 0) fun _ => True := by
  simp only [exit, wp_bind, wp_ite, wp_throw]
  split_ifs
  refine (exitFiles_counted h hme).imp ?_
  rintro - next ⟨hnext, hcwd, hempty⟩
  refine cwd_wp fun cwd hold => fsCall_wp iput_adds fun _ fs href => ?_
  simp only [modifyTask, wp_modify]
  refine ((hnext.setFs href).setTask ?_ ?_).congr ?_ rfl
  · rfl
  · intro _
    exact ⟨rfl, fun fd => hempty fd (.inl (List.mem_finRange fd))⟩
  · simp [hold]

theorem wait_counted (h : Counted sys 0 0) (child : Fin NPROC) :
    wp (wait child) sys (fun _ next => Counted next 0 0) fun _ => True := by
  simp only [wait, wp_bind, wp_get, wp_ite, wp_pure, modifyTask, wp_modify]
  split_ifs with hzombie
  · refine (h.setTask ?_ ?_).congr ?_ rfl
    · rfl
    · intro _
      exact h.idle child (.inr hzombie)
    · simp
  · exact h

end Exit

theorem call_counted (h : Counted sys 0 0) (hme : (sys.proc me).state = .RUNNABLE) (call : FileCall) :
    wp (Sys.call me call) sys (fun _ next => Counted next 0 0) fun _ => True := by
  cases call with
  | bad => exact h
  | «open» path omode => exact (wp_bind _).mpr (sysOpen_counted h hme _ _)
  | close fd => exact sysClose_counted h fd
  | dup fd => exact sysDup_counted h hme fd
  | read fd n result => exact sysRead_counted h fd n result
  | write fd addr => exact (wp_bind _).mpr (sysWrite_counted h fd addr)
  | link old new => exact (wp_bind _).mpr (fsCall_counted h fun _ => sysLink_keeps _ _ _)
  | unlink path => exact (wp_bind _).mpr (fsCall_counted h fun _ => sysUnlink_keeps _ _)
  | mkdir path | mknod path major minor => exact (wp_bind _).mpr (createNode_counted h _ _ _ _)
  | chdir path => exact sysChdir_counted h hme _
  | exec path input memory => exact (wp_bind _).mpr (fsCall_counted h fun _ => exec_keeps _ _ _ _)
  | pipe memory => exact sysPipe_counted h hme memory
  | fork memory => exact fork_counted h memory
  | wait child => exact wait_counted h child
  | exit => exact exit_counted h hme

theorem Starts.counted (h : Starts sys) : Counted sys 0 0 where
  inode := by
    have hfiles : (fun f => (sys.ftable f).inode) = fun _ => none := by
      funext f
      exact File.inode_none (h.ftable f).2
    have hcwd : (fun p => (sys.proc p).cwd) = update (fun _ => none) 0 (some 0) := by
      funext p
      by_cases hp : p = 0
      · subst hp
        simp [h.init.2]
      · simp [hp, (h.proc p hp).2]
    have hcount := references_update (fun _ : Fin NPROC => (none : Option (Fin NINODE))) id 0 (some 0)
    simp only [id] at hcount
    rw [hfiles, hcwd, references_none]
    change _ = _ + references (fun p => update (fun _ => none) 0 (some 0) p) + _
    rw [hcount, references_none]
    funext ip
    by_cases hip : ip = 0
    · subst hip
      simp [ref, h.root.2]
    · simp [ref, (h.icache ip).2 hip, hip]
  file := by
    have hslot : sys.slot = fun _ => none := by
      funext place
      exact h.ofile place.1 place.2
    funext f
    rw [hslot, references_none]
    exact (h.ftable f).1
  pipe := by
    have hends : (fun f => (sys.ftable f).pipeEnd) = fun _ => none := by
      funext f
      exact File.pipeEnd_none (h.ftable f).2
    funext place
    rw [hends, references_none]
    simp [opened, h.pages]
  unused f _ := (h.ftable f).2
  side f hpipe := by simp [(h.ftable f).2] at hpipe
  frees page hpage := by
    rw [h.pages] at hpage
    omega
  idle p hidle := by
    by_cases hp : p = 0
    · subst hp
      simp [h.init.1] at hidle
    · exact ⟨(h.proc p hp).2, h.ofile p⟩

theorem reach_counted (h : Reach step (fun _ _ => True) Starts sys) : Counted sys 0 0 := by
  refine h.invariant (fun sys => Counted sys 0 0) (fun _ hstart => hstart.counted) ?_
  rintro sys next ⟨me, call⟩ hsys - hstep
  unfold step at hstep
  split_ifs at hstep with hme
  cases hrun : (Sys.call me call).run sys with
  | error halt => simp [hrun] at hstep
  | ok pair =>
    simp only [hrun, Option.some.injEq] at hstep
    subst hstep
    exact (call_counted hsys hme call).returned hrun

namespace Counted

variable (h : Counted sys 0 0)

include h

theorem ref_nonneg (f : Fin NFILE) : 0 ≤ (sys.ftable f).ref := by
  have hfile := congrFun h.file f
  have hnonneg := references_nonneg sys.slot f
  simp only [add_zero] at hfile
  omega

theorem ref_pos (htype : (sys.ftable f).type ≠ .FD_NONE) : 0 < (sys.ftable f).ref := by
  have hzero := mt (h.unused f) htype
  have hnonneg := h.ref_nonneg f
  omega

-- An end of a pipe is open as long as there is a file object for it.
theorem isOpen_iff {page : Nat} (hpage : page < sys.pages) (writable : Bool) :
    (sys.pipes page).isOpen writable ↔
      ∃ f, 0 < (sys.ftable f).ref ∧ (sys.ftable f).type = .FD_PIPE ∧ (sys.ftable f).pipe = page ∧
        (sys.ftable f).writable = writable := by
  have hpos := references_pos_iff (fun f => (sys.ftable f).pipeEnd) (page, writable)
  rw [h.pipe, opened] at hpos
  simp only [hpage, true_and] at hpos
  refine Iff.trans ?_ (hpos.trans ?_)
  · by_cases hopen : (sys.pipes page).isOpen writable <;> simp [hopen]
  · constructor
    · rintro ⟨f, hf⟩
      have htype := File.type_of_pipeEnd hf
      simp only [File.pipeEnd, htype, if_true, Option.some.injEq, Prod.mk.injEq] at hf
      exact ⟨f, h.ref_pos (by simp [htype]), htype, hf⟩
    · rintro ⟨f, -, htype, hpipe, hwritable⟩
      exact ⟨f, by simp [File.pipeEnd, htype, hpipe, hwritable]⟩

end Counted

-- Every call puts the references to inodes that it takes, except those that open files and
-- current directories keep.
theorem inode_ref_eq (h : Reach step (fun _ _ => True) Starts sys) (ip : Fin NINODE) :
    (sys.fs.icache ip).ref =
      (Finset.univ.filter fun f =>
          (sys.ftable f).type = .FD_INODE ∧ 0 < (sys.ftable f).ref ∧ (sys.ftable f).ip = ip).card +
        (Finset.univ.filter fun p => (sys.proc p).cwd = some ip).card := by
  have hsys := reach_counted h
  have href := congrFun hsys.inode ip
  have hfiles : (Finset.univ.filter fun f => (sys.ftable f).inode = some ip) =
      Finset.univ.filter fun f =>
        (sys.ftable f).type = .FD_INODE ∧ 0 < (sys.ftable f).ref ∧ (sys.ftable f).ip = ip := by
    refine Finset.filter_congr fun f _ => ?_
    by_cases htype : (sys.ftable f).type = .FD_INODE
    · have hpos := hsys.ref_pos (f := f) (by simp [htype])
      simp [File.inode, htype, hpos]
    · simp [File.inode, htype]
  rw [add_zero, Pi.add_apply, references_eq_card, references_eq_card, hfiles] at href
  exact href

-- open("/") and fork: one file and two current directories.
theorem inode_ref_eq_forked :
    ∃ sys, Reach step (fun _ _ => True) Starts sys ∧
      ((Finset.univ.filter fun f =>
          (sys.ftable f).type = .FD_INODE ∧ 0 < (sys.ftable f).ref ∧ (sys.ftable f).ip = 0).card : Int) +
        (Finset.univ.filter fun p => (sys.proc p).cwd = some 0).card = 3 := by
  have hrun : (run step (fun _ _ => True) (boot mkfs) [(0, .open [slash] O_RDONLY), (0, .fork true)]).map
      (fun sys => (sys.fs.icache 0).ref) = some 3 := by decide +kernel
  obtain ⟨sys, hreach, href⟩ := exists_reach_seen boot_starts hrun
  exact ⟨sys, hreach, (inode_ref_eq hreach 0).symm.trans href⟩

theorem file_ref_eq (h : Reach step (fun _ _ => True) Starts sys) :
    (∀ f, (sys.ftable f).ref =
      (Finset.univ.filter fun slot : Fin NPROC × Fin NOFILE => (sys.proc slot.1).ofile slot.2 = some f).card) ∧
    (∀ f, (sys.ftable f).ref = 0 → (sys.ftable f).type = .FD_NONE) ∧
    ∀ page < sys.pages,
      ((sys.pipes page).readopen ↔
        ∃ f, 0 < (sys.ftable f).ref ∧ (sys.ftable f).type = .FD_PIPE ∧ (sys.ftable f).pipe = page ∧
          (sys.ftable f).readable) ∧
      ((sys.pipes page).writeopen ↔
        ∃ f, 0 < (sys.ftable f).ref ∧ (sys.ftable f).type = .FD_PIPE ∧ (sys.ftable f).pipe = page ∧
          (sys.ftable f).writable) ∧
      (sys.pipes page).frees = if (sys.pipes page).readopen || (sys.pipes page).writeopen then 0 else 1 := by
  have hsys := reach_counted h
  refine ⟨?_, hsys.unused, ?_⟩
  · intro f
    have href := congrFun hsys.file f
    rw [add_zero, references_eq_card] at href
    exact href
  · intro page hpage
    refine ⟨?_, hsys.isOpen_iff hpage true, hsys.frees page hpage⟩
    refine (hsys.isOpen_iff hpage false).trans ?_
    refine exists_congr fun f => and_congr_right fun _ => and_congr_right fun htype => and_congr_right fun _ => ?_
    simp [hsys.side f htype]

-- The parent closes its end for reading and the child keeps its own.
theorem file_ref_eq_child :
    ∃ sys, Reach step (fun _ _ => True) Starts sys ∧ 0 < sys.pages ∧
      ∃ f, 0 < (sys.ftable f).ref ∧ (sys.ftable f).type = .FD_PIPE ∧ (sys.ftable f).pipe = 0 ∧
        (sys.ftable f).readable := by
  have hrun : (run step (fun _ _ => True) (boot mkfs) [(0, .pipe true), (0, .fork true), (0, .close 0)]).map
      (fun sys => (sys.pages, (sys.pipes 0).readopen)) = some (1, true) := by decide +kernel
  obtain ⟨sys, hreach, hsys⟩ := exists_reach_seen boot_starts hrun
  simp only [Prod.mk.injEq] at hsys
  have hpage : 0 < sys.pages := by omega
  exact ⟨sys, hreach, hpage, (((file_ref_eq hreach).2.2 0 hpage).1).mp hsys.2⟩

end Xv6.Sys

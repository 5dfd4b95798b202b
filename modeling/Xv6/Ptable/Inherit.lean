import Xv6.Psig.Twins
import Xv6.Ptable.Steps

namespace Xv6

namespace Proc

-- These signals are sent to the process, in this order.
def sent (proc : Proc) (signals : List Nat) : Proc := signals.foldl signalled proc

-- The process runs and traps into the kernel from this user state.
def traps (proc : Proc) (user : User) : Proc :=
  { proc with state := .RUNNING, tf := user.tf, memory := user.memory }

-- The components by which two processes may differ in how they deal with signals.
structure SameSignals (first second : Proc) : Prop where
  sigpending : first.sigpending = second.sigpending
  sigblocked : first.sigblocked = second.sigblocked
  userdefed : first.userdefed = second.userdefed
  allinfo : first.allinfo = second.allinfo
  addrSigreturn : first.addrSigreturn = second.addrSigreturn

theorem sigpending_cont (proc : Proc) : proc.cont.sigpending = proc.sigpending := by
  unfold cont
  split <;> rfl

variable {first second : Proc}

variable (h : first.SameSignals second)

include h

theorem SameSignals.sigpending_signalled (signum : Nat) :
    (first.signalled signum).sigpending = (second.signalled signum).sigpending := by
  have hdisposition : ∀ signum, first.disposition signum = second.disposition signum := by
    intro signum
    simp only [disposition, h.allinfo]
  simp only [signalled, receive, hdisposition]
  split_ifs <;> simp only [kill, setPending, sigpending_cont, h.sigpending]

theorem SameSignals.signalled (signum : Nat) : (first.signalled signum).SameSignals (second.signalled signum) := by
  obtain ⟨-, -, -, hblocked, huserdefed, hallinfo, haddr⟩ := (image_eq_iff _ _).mp (first.image_signalled signum)
  obtain ⟨-, -, -, hblocked', huserdefed', hallinfo', haddr'⟩ :=
    (image_eq_iff _ _).mp (second.image_signalled signum)
  exact ⟨h.sigpending_signalled signum, by rw [hblocked, hblocked', h.sigblocked],
    by rw [huserdefed, huserdefed', h.userdefed], by rw [hallinfo, hallinfo', h.allinfo],
    by rw [haddr, haddr', h.addrSigreturn]⟩

theorem SameSignals.sent (signals : List Nat) : (first.sent signals).SameSignals (second.sent signals) := by
  induction signals generalizing first second with
  | nil => exact h
  | cons signum rest ih => exact ih (h.signalled signum)

theorem SameSignals.traps (user : User) : (first.traps user).Twins (second.traps user) :=
  ⟨rfl, h.sigpending, h.sigblocked, h.userdefed, h.allinfo, h.addrSigreturn, rfl, rfl⟩

end Proc

-- The child has no pending signal and all else that psig looks at from its parent. Whatever
-- signals are sent to both, psig does the same for both, when they trap from the same user state.
structure InheritsSignals (child parent : Proc) : Prop where
  sigpending : child.sigpending = 0
  sigblocked : child.sigblocked = parent.sigblocked
  userdefed : child.userdefed = parent.userdefed
  allinfo : child.allinfo = parent.allinfo
  addrSigreturn : child.addrSigreturn = parent.addrSigreturn
  psig : ∀ signals caller user, Coop.Alike Cpu.Twins Exit.Alike Eq
    (psig caller (.user ((child.sent signals).traps user)))
    (psig caller (.user ((({ parent with sigpending := 0 } : Proc).sent signals).traps user)))

theorem fork_inherits_signals_iff (table : Ptable) (me np : Slot) (kalloc copyuvm : Bool)
    (hme : (table.proc me).Live) (hchild : table.child kalloc copyuvm = some np) :
    InheritsSignals ((table.fork me kalloc copyuvm).1.proc np) (table.proc me) ↔
      (table.proc np).addrSigreturn = (table.proc me).addrSigreturn := by
  have hproc : (table.fork me kalloc copyuvm).1.proc np =
      (((table.proc np).allocated table.nextpid).copyFrom (table.proc me) me).setState .RUNNABLE := by
    cases table.fork_forks hme kalloc copyuvm np with
    | child _ hproc => exact hproc
    | failed hnone => exact absurd (hnone.symm.trans hchild) (by simp)
    | other hother => exact absurd hchild hother
  rw [hproc]
  constructor
  · intro h
    exact h.addrSigreturn
  · intro haddr
    have hsame : ((((table.proc np).allocated table.nextpid).copyFrom (table.proc me) me).setState
        .RUNNABLE).SameSignals { table.proc me with sigpending := 0 } := ⟨rfl, rfl, rfl, rfl, haddr⟩
    refine ⟨rfl, rfl, rfl, rfl, haddr, ?_⟩
    intro signals caller user
    exact psig_twins caller _ _ ⟨(hsame.sent signals).traps user, rfl, rfl, rfl⟩

set_option maxRecDepth 2000 in
-- The parent has a handler, and the child gets the entry of a process that had one too.
theorem fork_inherits_signals_iff_recycled : ∃ machine, Machine.Reach (fun _ _ => True) machine ∧
    (machine.proc 0).Live ∧ machine.table.child true true = some 1 ∧ (machine.proc 0).addrSigreturn = 0x300 ∧
      (machine.proc 1).addrSigreturn = 0x200 ∧
      (InheritsSignals ((machine.table.fork 0 true true).1.proc 1) (machine.proc 0) ↔
        (machine.proc 1).addrSigreturn = (machine.proc 0).addrSigreturn) := by
  obtain ⟨machine, hreach, hlive, hchild, hparent, hstale⟩ : ∃ machine, Machine.Reach (fun _ _ => True) machine ∧
      (machine.proc 0).Live ∧ machine.table.child true true = some 1 ∧ (machine.proc 0).addrSigreturn = 0x300 ∧
      (machine.proc 1).addrSigreturn = 0x200 :=
    exists_reach_boot (fun _ => 0) Machine.recycle.dropLast ⟨_, rfl, _, rfl, by decide, rfl, rfl, rfl⟩
  exact ⟨machine, hreach, hlive, hchild, hparent, hstale,
    fork_inherits_signals_iff machine.table 0 1 true true hlive hchild⟩

-- The first process has a handler for SIGHUP and forks. The frame in the child has 0 for
-- the address to which the handler returns.
theorem fork_loses_trampoline : ∃ machine, Machine.Reach (fun _ _ => True) machine ∧
    machine.table.child true true = some 1 ∧
    (machine.proc 0).stores.getLast? = some (76, 0x200) ∧
    ((machine.table.fork 0 true true).1.proc 1).stores.getLast? = some (76, 0) ∧
    ¬InheritsSignals ((machine.table.fork 0 true true).1.proc 1) (machine.proc 0) := by
  obtain ⟨machine, hreach, hchild, hparent, hstores, haddr⟩ : ∃ machine, Machine.Reach (fun _ _ => True) machine ∧
      machine.table.child true true = some 1 ∧ (machine.proc 0).stores.getLast? = some (76, 0x200) ∧
      ((machine.table.fork 0 true true).1.proc 1).stores.getLast? = some (76, 0) ∧
      ((machine.table.fork 0 true true).1.proc 1).addrSigreturn ≠ (machine.proc 0).addrSigreturn :=
    exists_reach_boot (fun _ => 0) [.resume 0, .call 0 (.signal 0x200 SIGHUP 0x100)]
      ⟨_, rfl, _, rfl, rfl, rfl, rfl, by decide⟩
  exact ⟨machine, hreach, hchild, hparent, hstores, fun h => haddr h.addrSigreturn⟩

end Xv6

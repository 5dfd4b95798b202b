import Xv6.Coop.Relation
import Xv6.Psig

namespace Xv6

open Program

-- Two processes that psig cannot tell apart.
structure Proc.Twins (first second : Proc) : Prop where
  state : first.state = second.state
  sigpending : first.sigpending = second.sigpending
  sigblocked : first.sigblocked = second.sigblocked
  userdefed : first.userdefed = second.userdefed
  allinfo : first.allinfo = second.allinfo
  addrSigreturn : first.addrSigreturn = second.addrSigreturn
  tf : first.tf = second.tf
  memory : first.memory = second.memory

namespace Proc.Twins

variable {first second : Proc}

variable (h : first.Twins second)

include h

theorem defaultDue (signum : Nat) : first.defaultDue signum = second.defaultDue signum := by
  simp only [Proc.defaultDue, Proc.pending, Proc.blocked, Proc.disposition, h.sigpending, h.sigblocked, h.allinfo]

theorem setState (state : Procstate) : (first.setState state).Twins (second.setState state) :=
  { h with state := rfl }

theorem clearPending (signum : Nat) : (first.clearPending signum).Twins (second.clearPending signum) :=
  { h with sigpending := congrArg (Mask.clear · signum) h.sigpending }

theorem kill : first.kill.Twins second.kill :=
  { h with state := by simp only [Proc.kill, h.state] }

theorem cont : first.cont.Twins second.cont := by
  simp only [Proc.cont, h.state]
  split
  · exact { h with state := rfl }
  · exact h

theorem stores : first.stores = second.stores := by
  simp only [Proc.stores, h.tf, h.userdefed, h.addrSigreturn]

theorem deliver : first.deliver.Twins second.deliver where
  state := h.state
  sigpending := by simp only [Proc.deliver, h.sigpending, h.userdefed]
  sigblocked := h.sigblocked
  userdefed := h.userdefed
  allinfo := h.allinfo
  addrSigreturn := h.addrSigreturn
  tf := by simp only [Proc.deliver, h.tf]
  memory := by simp only [Proc.deliver, h.memory, h.tf, h.stores]

end Proc.Twins

-- The CPUs may differ in the process they run, as long as the two are twins.
structure Cpu.Twins (first second : Cpu) : Prop where
  proc : first.proc.Twins second.proc
  ncli : first.ncli = second.ncli
  holding : first.holding = second.holding
  console : first.console = second.console

-- The same handler is entered for the same signal with the same registers, and the same frame
-- has been written for it.
def Exit.Alike : Exit → Exit → Prop
  | .jmptohandler caller delivery, .jmptohandler caller' delivery' => caller = caller' ∧
      delivery.signum = delivery'.signum ∧ delivery.handler = delivery'.handler ∧ delivery.cs = delivery'.cs ∧
      delivery.eflags = delivery'.eflags ∧ delivery.esp = delivery'.esp ∧ delivery.ss = delivery'.ss ∧
      delivery.stores = delivery'.stores
  | first, second => first = second

theorem Proc.Twins.delivery {first second : Proc} (h : first.Twins second) (caller : Caller) :
    Exit.Alike (.jmptohandler caller first.delivery) (.jmptohandler caller second.delivery) := by
  have hdeliver := h.deliver.tf
  refine ⟨rfl, ?_, ?_, ?_, ?_, ?_, ?_, h.stores⟩
  · simp only [Proc.delivery, h.userdefed]
  · simp only [Proc.delivery, Proc.handler, h.userdefed, h.allinfo, h.addrSigreturn]
  · exact congrArg Trapframe.cs hdeliver
  · exact congrArg Trapframe.eflags hdeliver
  · exact congrArg Trapframe.esp hdeliver
  · exact congrArg Trapframe.ss hdeliver

section Psig

-- Both run the same code.
abbrev SameFor {Result : Type} (first second : Kernel Result) : Prop :=
  first.Alike Cpu.Twins Exit.Alike Eq second

theorem update_twins (change : Proc → Proc) (h : ∀ first second : Proc, first.Twins second →
      (change first).Twins (change second)) : SameFor (update change) (update change) :=
  .modify fun _ _ htwins => ⟨h _ _ htwins.proc, htwins.ncli, htwins.holding, htwins.console⟩

theorem clearPending_twins (signum : Nat) : SameFor (clearPending signum) (clearPending signum) :=
  update_twins _ fun _ _ htwins => htwins.clearPending signum

theorem acquire_twins (site : Site) : SameFor (acquire site) (acquire site) := by
  refine .bind (.pause _) fun _ _ _ => .bind .get fun cpu other htwins => ?_
  refine .ite (by rw [htwins.holding]) (.leave rfl) (.modify ?_)
  intro cpu other htwins
  exact ⟨htwins.proc, congrArg (· + 1) htwins.ncli, rfl, htwins.console⟩

theorem release_twins : SameFor release release := by
  refine .bind .get fun cpu other htwins => ?_
  refine .ite (by rw [htwins.holding]) (.leave rfl) (.ite (by rw [htwins.ncli]) (.leave rfl) (.modify ?_))
  intro cpu other htwins
  exact ⟨htwins.proc, congrArg (· - 1) htwins.ncli, rfl, htwins.console⟩

theorem setState_twins (state : Procstate) : SameFor (setState state) (setState state) :=
  update_twins _ fun _ _ htwins => htwins.setState state

theorem stop_twins (signum : Nat) : SameFor (stop signum) (stop signum) := by
  refine .bind (setState_twins _) fun _ _ _ => .bind .get fun cpu other htwins => ?_
  refine .ite (by rw [htwins.holding]) (.leave rfl) (.ite (by rw [htwins.ncli]) (.leave rfl) ?_)
  refine .ite (by rw [htwins.proc.state]) (.leave rfl) ?_
  exact .bind (.pause _) fun _ _ _ => setState_twins _

theorem default_twins (killSite site : Site) : SameFor (do
      release
      killSelf killSite
      modify fun cpu => cpu.setDefaulted true
      acquire site) (do
      release
      killSelf killSite
      modify fun cpu => cpu.setDefaulted true
      acquire site) := by
  have hkill : SameFor (killSelf killSite) (killSelf killSite) :=
    .bind (acquire_twins _) fun _ _ _ =>
      .bind (update_twins _ fun _ _ htwins => htwins.kill) fun _ _ _ => release_twins
  refine .bind release_twins fun _ _ _ => .bind hkill fun _ _ _ => .bind (.modify ?_) fun _ _ _ => acquire_twins _
  exact fun _ _ htwins => ⟨htwins.proc, htwins.ncli, htwins.holding, htwins.console⟩

theorem defaultLoop_twins {action : Kernel Unit} (h : SameFor action action) (signals : List Nat) :
    SameFor (defaultLoop action signals) (defaultLoop action signals) := by
  refine .foldlM (fun called signum => .bind .get fun cpu other htwins => ?_) signals false
  refine .ite (by rw [htwins.proc.defaultDue]) ?_ (.pure rfl)
  split
  · exact .bind (clearPending_twins signum) fun _ _ _ => .pure rfl
  · exact .bind h fun _ _ _ => .bind (clearPending_twins signum) fun _ _ _ => .pure rfl

theorem psigStopsigs_twins (called : Bool) : SameFor (psigStopsigs called) (psigStopsigs called) := by
  refine .foldlM (fun called signum => .bind .get fun cpu other htwins => ?_) stopsig called
  refine .ite (by rw [htwins.proc.defaultDue, htwins.proc.defaultDue]) ?_ ?_
  · exact .bind (clearPending_twins _) fun _ _ _ => .bind (clearPending_twins signum) fun _ _ _ => .pure rfl
  · refine .ite (by rw [htwins.proc.defaultDue]) ?_ (.pure rfl)
    split
    · exact .bind (clearPending_twins signum) fun _ _ _ => .pure rfl
    · exact .bind (stop_twins signum) fun _ _ _ => .bind (clearPending_twins signum) fun _ _ _ => .pure rfl

theorem psigSigstop_twins : SameFor psigSigstop psigSigstop := by
  refine .bind .get fun cpu other htwins => .ite ?_ ?_ (.pure rfl)
  · simp only [Proc.pending, htwins.proc.sigpending]
  · exact .bind (stop_twins _) fun _ _ _ => .bind (clearPending_twins _) fun _ _ _ => .pure rfl

theorem psigStops_twins : SameFor psigStops psigStops := by
  refine .bind psigSigstop_twins ?_
  rintro called _ rfl
  have hsigchld : SameFor psigSigchld psigSigchld :=
    .bind .get fun _ _ htwins => .ite (by rw [htwins.proc.defaultDue]) (clearPending_twins _) (.pure rfl)
  refine .bind hsigchld fun _ _ _ => .bind (psigStopsigs_twins called) fun _ _ _ => ?_
  refine .bind .get fun cpu other htwins => .ite (by rw [htwins.proc.defaultDue]) ?_ (.pure rfl)
  exact .bind (update_twins _ fun _ _ htwins => htwins.cont) fun _ _ _ => clearPending_twins _

theorem psigHandlers_twins (caller : Caller) : SameFor (psigHandlers caller) (psigHandlers caller) := by
  refine .bind .get fun cpu other htwins => .ite (by rw [htwins.proc.userdefed]) ?_ ?_
  · exact .bind release_twins fun _ _ _ => .pure rfl
  · refine .bind (update_twins _ fun _ _ htwins => htwins.deliver) fun _ _ _ => .bind release_twins fun _ _ _ => ?_
    exact .leave (htwins.proc.delivery caller)

-- psig does the same for twins, as long as the same happens to both.
theorem psig_twins (caller : Caller) : SameFor (psig caller) (psig caller) := by
  have hcoredump : SameFor coredump coredump :=
    .bind .get fun _ _ htwins => .ite (by rw [htwins.console]) (.leave rfl) (.pure rfl)
  have hcore : SameFor core core := .bind hcoredump fun _ _ _ => default_twins .coreKill .core
  refine .bind (acquire_twins _) fun _ _ _ => .bind (defaultLoop_twins (default_twins _ _) _) fun _ _ _ => ?_
  refine .bind (defaultLoop_twins hcore _) fun _ _ _ => .bind psigStops_twins fun _ _ _ => ?_
  exact psigHandlers_twins caller

end Psig

end Xv6

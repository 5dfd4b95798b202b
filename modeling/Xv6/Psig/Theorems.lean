import Xv6.Coop.Theorems
import Xv6.Psig

namespace Xv6

open Program

variable {contract : Contract Cpu Point Exit}

variable {other : Nat}

namespace Proc

theorem pending_clearPending (proc : Proc) (signum other : Nat) :
    (proc.clearPending signum).pending other = (proc.pending other && !decide (other % 32 = signum % 32)) :=
  Mask.has_clear proc.sigpending signum other

theorem defaultDue_clearPending (proc : Proc) (signum other : Nat) :
    (proc.clearPending signum).defaultDue other = (proc.defaultDue other && !decide (other % 32 = signum % 32)) := by
  simp only [defaultDue, pending_clearPending]
  cases proc.pending other <;> cases decide (other % 32 = signum % 32) <;> simp [clearPending, blocked, disposition]

theorem defaultDue_clearPending_of_false {proc : Proc} (signum : Nat) (h : proc.defaultDue other = false) :
    (proc.clearPending signum).defaultDue other = false := by
  rw [defaultDue_clearPending, h, Bool.false_and]

-- Whether the loop of psig over the stop signals would call `stop`, none having been called yet.
def stopDueIn (proc : Proc) : List Nat → Bool
  | [] => false
  | signum :: rest =>
    if proc.defaultDue signum && proc.defaultDue SIGCONT then
      ((proc.clearPending SIGCONT).clearPending signum).stopDueIn rest
    else if proc.defaultDue signum then true
    else proc.stopDueIn rest

-- Whether psig, having dealt with the term and core signals, would stop the process.
def stopDue (proc : Proc) : Bool := proc.pending SIGSTOP || proc.stopDueIn stopsig

theorem clearPending_comm (proc : Proc) (first second : Nat) :
    (proc.clearPending first).clearPending second = (proc.clearPending second).clearPending first := by
  simp only [clearPending, Mask.clear, BitVec.and_assoc, BitVec.and_comm (~~~bit first)]

theorem stopDueIn_clearPending (proc : Proc) (signum : Nat) (signals : List Nat)
    (hcont : SIGCONT % 32 ≠ signum % 32) (hsignals : ∀ other ∈ signals, other % 32 ≠ signum % 32) :
    (proc.clearPending signum).stopDueIn signals = proc.stopDueIn signals := by
  induction signals generalizing proc with
  | nil => rfl
  | cons other rest ih =>
    have ho := hsignals other (by simp)
    have hrest : ∀ other ∈ rest, other % 32 ≠ signum % 32 :=
      fun other hm => hsignals other (by simp [hm])
    simp only [stopDueIn, defaultDue_clearPending, ho, hcont, decide_false, Bool.not_false, Bool.and_true]
    rw [clearPending_comm proc signum SIGCONT, clearPending_comm _ signum other, ih _ hrest, ih _ hrest]

-- The term and core signals have no part in whether the process is stopped.
theorem stopDue_clearPending (proc : Proc) (signum : Nat) (hsignum : signum ∈ termsig ++ coresig) :
    (proc.clearPending signum).stopDue = proc.stopDue := by
  have hfar : ∀ signum ∈ termsig ++ coresig, ∀ other ∈ SIGCONT :: stopsig, other % 32 ≠ signum % 32 := by decide
  have hstop := hfar signum hsignum SIGSTOP (by decide)
  rw [stopDue, stopDue, stopDueIn_clearPending proc signum stopsig (hfar signum hsignum SIGCONT (by simp))
    (fun other hother => hfar signum hsignum other (by simp [hother])), pending_clearPending]
  simp [hstop]

end Proc

section Primitives

@[simp] theorem wp_update (change : Proc → Proc) (post : Unit → Cpu → Prop) (cpu : Cpu) :
    (update change).wp contract post cpu ↔ post () (cpu.update change) :=
  Iff.rfl

@[simp] theorem wp_clearPending (signum : Nat) (post : Unit → Cpu → Prop) (cpu : Cpu) :
    (clearPending signum).wp contract post cpu ↔ post () (cpu.clearPending signum) :=
  Iff.rfl

@[simp] theorem wp_setState (state : Procstate) (post : Unit → Cpu → Prop) (cpu : Cpu) :
    (setState state).wp contract post cpu ↔ post () (cpu.setState state) :=
  Iff.rfl

theorem wp_acquire (site : Site) (post : Unit → Cpu → Prop) (cpu : Cpu) :
    (acquire site).wp contract post cpu ↔ contract.paused (.lock site) cpu ∧
      ∀ next, contract.rely (.lock site) cpu next → contract.ready (.lock site) next →
        if next.holding then contract.leaves (.panic .acquire) next else post () next.lock := by
  simp only [acquire, wp_bind, wp_pause, wp_get, wp_ite, wp_leave, wp_modify]

theorem wp_release (post : Unit → Cpu → Prop) (cpu : Cpu) (hholding : cpu.holding = true)
    (hncli : cpu.ncli ≠ 0) : release.wp contract post cpu ↔ post () cpu.unlock := by
  simp only [release, wp_bind, wp_get, wp_ite, wp_leave, wp_modify, hholding, hncli, Bool.not_true,
    Bool.false_eq_true, ite_false]

theorem Cpu.update_lock_unlock (cpu : Cpu) (change : Proc → Proc) (hholding : cpu.holding = false) :
    (cpu.lock.update change).unlock = cpu.update change := by
  simp only [lock, update, unlock, hholding, Nat.add_sub_cancel]

theorem wp_killSelf (site : Site) (post : Unit → Cpu → Prop) (cpu : Cpu) :
    (killSelf site).wp contract post cpu ↔ contract.paused (.lock site) cpu ∧
      ∀ next, contract.rely (.lock site) cpu next → contract.ready (.lock site) next →
        if next.holding then contract.leaves (.panic .acquire) next
        else post () (next.update Proc.kill) := by
  simp only [killSelf, wp_bind, wp_acquire, wp_update]
  refine and_congr_right fun _ => forall_congr' fun next => forall_congr' fun _ => forall_congr' fun _ => ?_
  cases hholding : next.holding with
  | true => rfl
  | false =>
    simp only [Bool.false_eq_true, ite_false]
    rw [wp_release _ _ rfl (by simp [Cpu.update, Cpu.lock]), Cpu.update_lock_unlock next _ hholding]

theorem wp_sched (why : Why) (post : Unit → Cpu → Prop) (cpu : Cpu) (hholding : cpu.holding = true)
    (hstate : cpu.proc.state ≠ .RUNNING) :
    (sched why).wp contract post cpu ↔
      if cpu.ncli ≠ 1 then contract.leaves (.panic (.schedLocks why)) cpu
      else contract.paused (.sched why) cpu ∧
        ∀ next, contract.rely (.sched why) cpu next → contract.ready (.sched why) next →
          post () (next.setState .RUNNING) := by
  simp only [sched, wp_bind, wp_get, wp_ite, wp_leave, wp_pause, wp_setState, hholding, hstate,
    Bool.not_true, Bool.false_eq_true, ite_false]

theorem wp_stop (signum : Nat) (post : Unit → Cpu → Prop) (cpu : Cpu) (hholding : cpu.holding = true) :
    (stop signum).wp contract post cpu ↔
      if cpu.ncli ≠ 1 then contract.leaves (.panic (.schedLocks (.stop signum))) (cpu.setState .SLEEPING)
      else contract.paused (.sched (.stop signum)) (cpu.setState .SLEEPING) ∧
        ∀ next, contract.rely (.sched (.stop signum)) (cpu.setState .SLEEPING) next →
          contract.ready (.sched (.stop signum)) next → post () (next.setState .RUNNING) := by
  simp only [stop, wp_bind, wp_setState]
  have hstate : (cpu.setState .SLEEPING).proc.state ≠ .RUNNING := Procstate.noConfusion
  exact wp_sched (.stop signum) post (cpu.setState .SLEEPING) hholding hstate

end Primitives

-- What has to be shown for an invariant to survive the windows in which `term` and
-- `core` let go of `ptable.lock`: `inside` holds with the lock, `outside` without it.
structure Unlocks (contract : Contract Cpu Point Exit) (outside inside : Cpu → Prop) : Prop where
  locked : ∀ cpu, inside cpu → cpu.holding = true ∧ cpu.ncli ≠ 0
  unlocked : ∀ cpu, outside cpu → cpu.holding = false
  release : ∀ cpu, inside cpu → outside cpu.unlock
  acquire : ∀ cpu site, site = .term ∨ site = .core → outside cpu → contract.ready (.lock site) cpu →
    inside cpu.lock
  paused : ∀ cpu site, outside cpu → contract.paused (.lock site) cpu
  rely : ∀ cpu next site, outside cpu → contract.rely (.lock site) cpu next →
    contract.ready (.lock site) next → outside next
  kill : ∀ cpu, outside cpu → outside ((cpu.update Proc.kill).setDefaulted true)

-- And to survive what the loops around `term` and `core` clear.
structure Windows (contract : Contract Cpu Point Exit) (outside inside : Cpu → Prop) : Prop
    extends Unlocks contract outside inside where
  clear : ∀ before after signum, signum ∈ termsig ++ coresig → before.proc.defaultDue signum = true →
    inside before → inside after → inside (after.clearPending signum)

section Defaults

variable {outside inside : Cpu → Prop}

section

variable (h : Unlocks contract outside inside)

include h

theorem wp_relock (killSite site : Site) (hsite : site = .term ∨ site = .core) (cpu : Cpu) (hcpu : inside cpu) :
    (do release
        killSelf killSite
        modify fun cpu => cpu.setDefaulted true
        acquire site : Kernel Unit).wp contract (fun _ => inside) cpu := by
  obtain ⟨hholding, hncli⟩ := h.locked _ hcpu
  simp only [wp_bind, wp_modify]
  rw [wp_release _ _ hholding hncli, wp_killSelf]
  have hout := h.release _ hcpu
  refine ⟨h.paused _ killSite hout, ?_⟩
  intro next hrely hready
  have hnext := h.rely _ next killSite hout hrely hready
  rw [h.unlocked next hnext]
  simp only [Bool.false_eq_true, ite_false, wp_acquire]
  have hkill := h.kill next hnext
  refine ⟨h.paused _ site hkill, ?_⟩
  intro last hrely hready
  have hlast := h.rely _ last site hkill hrely hready
  rw [h.unlocked last hlast]
  simp only [Bool.false_eq_true, ite_false]
  exact h.acquire last site hsite hlast hready

theorem wp_term (cpu : Cpu) (hcpu : inside cpu) : term.wp contract (fun _ => inside) cpu :=
  wp_relock h .termKill .term (.inl rfl) cpu hcpu

theorem wp_core (cpu : Cpu) (hcpu : inside cpu)
    (hconsole : cpu.console = true → contract.leaves .deadlock cpu) : core.wp contract (fun _ => inside) cpu := by
  simp only [core, coredump, wp_bind, wp_get, wp_ite, wp_pure, wp_leave]
  split
  · exact hconsole ‹_›
  · have hrelock := wp_relock h .coreKill .core (.inr rfl) cpu hcpu
    simpa only [wp_bind] using hrelock

end

section

variable (h : Windows contract outside inside)

include h

-- Until the loop takes its action, nothing changes.
theorem wp_defaultLoop (action : Kernel Unit) (signals : List Nat)
    (hsignals : ∀ signum ∈ signals, signum ∈ termsig ++ coresig) (start : Cpu) (hstart : inside start)
    (haction : ∀ signum ∈ signals, start.proc.defaultDue signum = true → action.wp contract (fun _ => inside) start) :
    (defaultLoop action signals).wp contract (fun _ => inside) start := by
  refine wp_mono (wp_foldlM _ (fun called rest cpu => (∀ signum ∈ rest, signum ∈ signals) ∧ inside cpu ∧
    (called = false → cpu = start)) ?_ signals false start ⟨fun _ hm => hm, hstart, fun _ => rfl⟩)
    (fun _ _ hlast => hlast.2.1)
  rintro called signum rest cpu ⟨hsub, hcpu, huncalled⟩
  have hmem := hsub signum (by simp)
  have hrest : ∀ signum ∈ rest, signum ∈ signals := fun signum hm => hsub signum (by simp [hm])
  simp only [wp_bind, wp_get, wp_ite, wp_pure, wp_clearPending]
  split
  · rename_i hdue
    split
    · exact ⟨hrest, h.clear cpu cpu signum (hsignals signum hmem) hdue hcpu hcpu, by simp⟩
    · rename_i hcalled
      obtain rfl := huncalled (Bool.eq_false_iff.mpr hcalled)
      exact wp_mono (haction signum hmem hdue)
        (fun _ after hafter => ⟨hrest, h.clear cpu after signum (hsignals signum hmem) hdue hcpu hafter, by simp⟩)
  · exact ⟨hrest, hcpu, huncalled⟩

theorem wp_psigTerms (cpu : Cpu) (hcpu : inside cpu) : psigTerms.wp contract (fun _ => inside) cpu :=
  wp_defaultLoop h term termsig (fun _ hm => List.mem_append_left _ hm) cpu hcpu
    (fun _ _ _ => wp_term h.toUnlocks cpu hcpu)

theorem wp_psigCores (cpu : Cpu) (hcpu : inside cpu)
    (hconsole : ∀ signum ∈ coresig, cpu.proc.defaultDue signum = true → cpu.console = true →
      contract.leaves .deadlock cpu) : psigCores.wp contract (fun _ => inside) cpu :=
  wp_defaultLoop h core coresig (fun _ hm => List.mem_append_right _ hm) cpu hcpu
    (fun signum hm hdue => wp_core h.toUnlocks cpu hcpu (hconsole signum hm hdue))

end

theorem wp_defaultLoop_of_none (action : Kernel Unit) (signals : List Nat) (post : Bool → Cpu → Prop)
    (cpu : Cpu) (hnone : ∀ signum ∈ signals, cpu.proc.defaultDue signum = false) (hpost : post false cpu) :
    (defaultLoop action signals).wp contract post cpu := by
  refine wp_mono (wp_foldlM _ (fun called rest state => called = false ∧ state = cpu ∧
    ∀ signum ∈ rest, cpu.proc.defaultDue signum = false) ?_ signals false cpu ⟨rfl, rfl, hnone⟩) ?_
  · rintro called signum rest state ⟨rfl, rfl, hrest⟩
    have hdue := hrest signum (by simp)
    simp only [wp_bind, wp_get, wp_ite, wp_pure, hdue, Bool.false_eq_true, ite_false]
    exact ⟨trivial, trivial, fun other hm => hrest other (by simp [hm])⟩
  · rintro called state ⟨rfl, rfl, _⟩
    exact hpost

end Defaults

-- `stop` is called for this signal, with these signals of the loop still to come.
def Proc.stopsAt (proc : Proc) (signum : Nat) (rest : List Nat) : Prop :=
  (signum = SIGSTOP ∧ rest = stopsig ∧ proc.pending SIGSTOP = true) ∨
    (proc.pending SIGSTOP = false ∧ proc.defaultDue signum = true ∧
      ∃ passed, stopsig = passed ++ signum :: rest ∧ ∀ other ∈ passed, proc.defaultDue other = false)

-- What has to be shown of an invariant of the stop stage: `before` holds until
-- `stop` is called, `after` from then on, with the signals of the loop still to come.
structure Stops (contract : Contract Cpu Point Exit) (start : Cpu) (before : Cpu → Prop)
    (after : List Nat → Cpu → Prop) : Prop where
  clear : ∀ cpu signum, signum ∈ SIGCHLD :: SIGCONT :: stopsig → cpu.proc.defaultDue signum = true →
    before cpu → before (cpu.clearPending signum)
  cont : ∀ cpu, before cpu → before (cpu.update Proc.cont)
  stop : ∀ cpu signum rest, before cpu → start.proc.stopDue = true → cpu.proc.stopsAt signum rest →
    (stop signum).wp contract
      (fun _ cpu => after rest (cpu.clearPending signum)) cpu
  clearAfter : ∀ cpu signum rest, signum ∈ SIGCHLD :: SIGCONT :: stopsig →
    cpu.proc.defaultDue signum = true → after rest cpu →
    after rest (cpu.clearPending signum)
  contAfter : ∀ cpu, after [] cpu → after [] (cpu.update Proc.cont)
  pass : ∀ cpu signum rest, cpu.proc.defaultDue signum = false → after (signum :: rest) cpu → after rest cpu

section StopStage

variable {start : Cpu} {before : Cpu → Prop} {after : List Nat → Cpu → Prop}

theorem wp_psigSigstop (h : Stops contract start before after) (hstart : before start) :
    psigSigstop.wp contract (fun called cpu =>
      if called then start.proc.stopDue = true ∧ after stopsig cpu
      else start.proc.pending SIGSTOP = false ∧ cpu = start) start := by
  simp only [psigSigstop, wp_bind, wp_get, wp_ite, wp_pure, wp_clearPending]
  split
  · rename_i hpending
    have hdue : start.proc.stopDue = true := by simp [Proc.stopDue, hpending]
    refine wp_mono (h.stop start SIGSTOP stopsig hstart hdue (.inl ⟨rfl, rfl, hpending⟩)) ?_
    intro _ cpu hafter
    exact ⟨hdue, hafter⟩
  · rename_i hpending
    simpa using hpending

theorem wp_psigSigchld (post : Unit → Cpu → Prop) (cpu : Cpu) (hkeep : post () cpu)
    (hclear : cpu.proc.defaultDue SIGCHLD = true → post () (cpu.clearPending SIGCHLD)) :
    psigSigchld.wp contract post cpu := by
  simp only [psigSigchld, wp_bind, wp_get, wp_ite, wp_pure, wp_clearPending]
  split
  · rename_i hdue
    exact hclear hdue
  · exact hkeep

-- The invariant of the loop over the stop signals: as long as `stop` has not been
-- called, none of the signals passed is due and those to come decide whether it will be.
def StopLoop (start : Cpu) (before : Cpu → Prop) (after : List Nat → Cpu → Prop) (called : Bool)
    (rest : List Nat) (cpu : Cpu) : Prop :=
  if called then start.proc.stopDue = true ∧ after rest cpu
  else before cpu ∧ cpu.proc.pending SIGSTOP = false ∧ cpu.proc.stopDueIn rest = start.proc.stopDue ∧
    ∃ passed, stopsig = passed ++ rest ∧ ∀ other ∈ passed, cpu.proc.defaultDue other = false

variable {rest : List Nat} {cpu : Cpu} {signum : Nat} {called : Bool}

theorem StopLoop.passed (next : Cpu) (h : StopLoop start before after false (signum :: rest) cpu)
    (hbefore : before next) (hstopDue : next.proc.stopDueIn rest = cpu.proc.stopDueIn (signum :: rest))
    (hsignum : next.proc.defaultDue signum = false)
    (hsigstop : cpu.proc.pending SIGSTOP = false → next.proc.pending SIGSTOP = false)
    (hkeep : ∀ other, cpu.proc.defaultDue other = false → next.proc.defaultDue other = false) :
    StopLoop start before after false rest next := by
  obtain ⟨_, hpending, hstop, passed, hsplit, hpassed⟩ := h
  refine ⟨hbefore, hsigstop hpending, hstopDue.trans hstop, passed ++ [signum], by simp [hsplit], ?_⟩
  intro other hmem
  rcases List.mem_append.mp hmem with hmem | hmem
  · exact hkeep other (hpassed other hmem)
  · rw [List.mem_singleton.mp hmem]
    exact hsignum

theorem stopsig_mod_ne : ∀ signum ∈ stopsig, signum % 32 ≠ SIGCONT % 32 := by decide

theorem Cpu.defaultDue_cont (cpu : Cpu) (signum : Nat) :
    (cpu.update Proc.cont).proc.defaultDue signum = cpu.proc.defaultDue signum := by
  simp only [update, Proc.cont]
  split <;> rfl

theorem Cpu.defaultDue_clearPending_self (cpu : Cpu) (signum : Nat) :
    (cpu.clearPending signum).proc.defaultDue signum = false := by
  simp [clearPending, update, Proc.defaultDue_clearPending]

theorem Cpu.defaultDue_clearPending_of_false (signum : Nat) (h : cpu.proc.defaultDue other = false) :
    (cpu.clearPending signum).proc.defaultDue other = false :=
  Proc.defaultDue_clearPending_of_false signum h

theorem Cpu.pending_clearPending_of_false (signum : Nat) (h : cpu.proc.pending other = false) :
    (cpu.clearPending signum).proc.pending other = false := by
  simp [clearPending, update, Proc.pending_clearPending, h]

variable (h : Stops contract start before after)

include h

-- The three ways around the loop: the signal and SIGCONT cancel each other, the signal is
-- not due, or it is due and `stop` has been called before.
theorem StopLoop.cancel (hsignum : signum ∈ stopsig)
    (hboth : (cpu.proc.defaultDue signum && cpu.proc.defaultDue SIGCONT) = true)
    (hinv : StopLoop start before after called (signum :: rest) cpu) :
    StopLoop start before after called rest ((cpu.clearPending SIGCONT).clearPending signum) := by
  obtain ⟨hdue, hcont⟩ := Bool.and_eq_true_iff.mp hboth
  have hmem : signum ∈ SIGCHLD :: SIGCONT :: stopsig := by simp [hsignum]
  have hstill : (cpu.clearPending SIGCONT).proc.defaultDue signum = true := by
    simp [Cpu.clearPending, Cpu.update, Proc.defaultDue_clearPending, stopsig_mod_ne signum hsignum, hdue]
  have hgone := Cpu.defaultDue_clearPending_self (cpu.clearPending SIGCONT) signum
  cases called with
  | true =>
    have hfirst := h.clearAfter cpu SIGCONT _ (by simp) hcont hinv.2
    have hsecond := h.clearAfter _ signum _ hmem hstill hfirst
    exact ⟨hinv.1, h.pass _ signum rest hgone hsecond⟩
  | false =>
    refine StopLoop.passed _ hinv ?_ ?_ hgone ?_ ?_
    · exact h.clear _ signum hmem hstill (h.clear cpu SIGCONT (by simp) hcont hinv.1)
    · rw [Proc.stopDueIn, if_pos hboth]
      rfl
    · intro hpending
      exact Cpu.pending_clearPending_of_false _ (Cpu.pending_clearPending_of_false _ hpending)
    · intro other hother
      exact Cpu.defaultDue_clearPending_of_false _ (Cpu.defaultDue_clearPending_of_false _ hother)

theorem StopLoop.skip (hdue : cpu.proc.defaultDue signum = false)
    (hinv : StopLoop start before after called (signum :: rest) cpu) : StopLoop start before after called rest cpu := by
  cases called with
  | true => exact ⟨hinv.1, h.pass cpu signum rest hdue hinv.2⟩
  | false =>
    refine StopLoop.passed cpu hinv hinv.1 ?_ hdue id (fun _ hother => hother)
    simp [Proc.stopDueIn, hdue]

theorem StopLoop.again (hsignum : signum ∈ stopsig)
    (hdue : cpu.proc.defaultDue signum = true) (hinv : StopLoop start before after true (signum :: rest) cpu) :
    StopLoop start before after true rest (cpu.clearPending signum) := by
  have hclear := h.clearAfter cpu signum _ (by simp [hsignum]) hdue hinv.2
  exact ⟨hinv.1, h.pass _ signum rest (Cpu.defaultDue_clearPending_self cpu signum) hclear⟩

theorem wp_psigStopsigs (called : Bool) (cpu : Cpu) (hcpu : StopLoop start before after called stopsig cpu) :
    (psigStopsigs called).wp contract (fun called cpu => StopLoop start before after called [] cpu) cpu := by
  refine wp_mono (wp_foldlM _ (fun called rest cpu => (∀ signum ∈ rest, signum ∈ stopsig) ∧
    StopLoop start before after called rest cpu) ?_ stopsig called cpu ⟨fun _ hm => hm, hcpu⟩)
    (fun _ _ hlast => hlast.2)
  rintro called signum rest cpu ⟨hrest, hinv⟩
  have hsignum := hrest signum (by simp)
  have htail : ∀ other ∈ rest, other ∈ stopsig := fun other hm => hrest other (by simp [hm])
  simp only [wp_bind, wp_get, wp_ite, wp_pure, wp_clearPending]
  split
  · rename_i hboth
    exact ⟨htail, hinv.cancel h hsignum hboth⟩
  · rename_i hnot
    split
    · rename_i hdue
      cases called with
      | true => exact ⟨htail, hinv.again h hsignum hdue⟩
      | false =>
        obtain ⟨hbefore, hpending, hstopDue, passed, hsplit, hpassed⟩ := hinv
        have hstart : start.proc.stopDue = true := by
          rw [← hstopDue, Proc.stopDueIn, if_neg hnot, if_pos hdue]
        refine wp_mono (h.stop cpu signum rest hbefore hstart (.inr ⟨hpending, hdue, passed, hsplit, hpassed⟩)) ?_
        intro _ last hlast
        exact ⟨htail, hstart, hlast⟩
    · rename_i hdue
      exact ⟨htail, hinv.skip h (Bool.eq_false_iff.mpr hdue)⟩

theorem wp_psigStops (hstart : before start) :
    psigStops.wp contract (fun _ cpu => (start.proc.stopDue = false ∧ before cpu) ∨
      (start.proc.stopDue = true ∧ after [] cpu)) start := by
  simp only [psigStops, wp_bind]
  refine wp_mono (wp_psigSigstop h hstart) ?_
  intro called cpu hcpu
  have hloop : psigSigchld.wp contract (fun _ cpu => StopLoop start before after called stopsig cpu) cpu := by
    cases called with
    | true =>
      refine wp_psigSigchld _ cpu hcpu ?_
      intro hdue
      exact ⟨hcpu.1, h.clearAfter cpu SIGCHLD _ (by simp) hdue hcpu.2⟩
    | false =>
      obtain ⟨hpending, rfl⟩ := hcpu
      have hstopDue : cpu.proc.stopDueIn stopsig = cpu.proc.stopDue := by simp [Proc.stopDue, hpending]
      refine wp_psigSigchld _ cpu ⟨hstart, hpending, hstopDue, [], rfl, by simp⟩ ?_
      intro hdue
      refine ⟨h.clear cpu SIGCHLD (by simp) hdue hstart,
        Cpu.pending_clearPending_of_false _ hpending, ?_, [], rfl, by simp⟩
      rw [← hstopDue]
      exact Proc.stopDueIn_clearPending cpu.proc SIGCHLD stopsig (by decide) (by decide)
  refine wp_mono hloop ?_
  intro _ cpu hcpu
  refine wp_mono (wp_psigStopsigs h called cpu hcpu) ?_
  intro called cpu hcpu
  simp only [psigSigcont, wp_bind, wp_get, wp_ite, wp_pure, wp_update, wp_clearPending]
  cases called with
  | true =>
    split
    · rename_i hdue
      refine .inr ⟨hcpu.1, h.clearAfter _ SIGCONT _ (by simp) ?_ (h.contAfter cpu hcpu.2)⟩
      rwa [Cpu.defaultDue_cont]
    · exact .inr hcpu
  | false =>
    obtain ⟨hbefore, _, hstopDue, _⟩ := hcpu
    split
    · rename_i hdue
      refine .inl ⟨hstopDue.symm, h.clear _ SIGCONT (by simp) ?_ (h.cont cpu hbefore)⟩
      rwa [Cpu.defaultDue_cont]
    · exact .inl ⟨hstopDue.symm, hbefore⟩

end StopStage

theorem wp_psigHandlers (caller : Caller) (post : Int → Cpu → Prop) (cpu : Cpu)
    (hholding : cpu.holding = true) (hncli : cpu.ncli ≠ 0) :
    (psigHandlers caller).wp contract post cpu ↔
      if cpu.proc.userdefed = 0 then post 1 cpu.unlock
      else contract.leaves (.jmptohandler caller cpu.proc.delivery) (cpu.update Proc.deliver).unlock := by
  simp only [psigHandlers, wp_bind, wp_get, wp_ite]
  split
  · rw [wp_release _ _ hholding hncli, wp_pure]
  · rw [wp_update]
    exact wp_release _ (cpu.update Proc.deliver) hholding hncli

-- The whole of psig from what its windows keep and what the stages after them need.
theorem wp_psig {outside inside : Cpu → Prop} (h : Windows contract outside inside) (caller : Caller)
    (post : Int → Cpu → Prop) (cpu : Cpu) (hpaused : contract.paused (.lock (.psig caller)) cpu)
    (hacquire : ∀ next, contract.rely (.lock (.psig caller)) cpu next →
      contract.ready (.lock (.psig caller)) next → next.holding = false ∧ inside next.lock)
    (hconsole : ∀ cpu, inside cpu → cpu.console = true → contract.leaves .deadlock cpu)
    (hstages : ∀ start, inside start →
      psigStops.wp contract (fun _ cpu => (psigHandlers caller).wp contract post cpu) start) :
    (psig caller).wp contract post cpu := by
  simp only [psig, wp_bind]
  rw [wp_acquire]
  refine ⟨hpaused, ?_⟩
  intro next hrely hready
  obtain ⟨hholding, hinside⟩ := hacquire next hrely hready
  simp only [hholding, Bool.false_eq_true, ite_false]
  refine wp_mono (wp_psigTerms h _ hinside) ?_
  intro _ cpu hcpu
  refine wp_mono (wp_psigCores h cpu hcpu (fun _ _ _ => hconsole cpu hcpu)) ?_
  intro _ cpu hcpu
  exact hstages cpu hcpu

end Xv6

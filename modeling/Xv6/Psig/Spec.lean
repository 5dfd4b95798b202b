import Xv6.Psig.Theorems

namespace Xv6

open Program

-- What only the process itself changes, in its own system calls and in user mode.
structure Image where
  sz : Word
  memory : Memory
  tf : Trapframe
  sigblocked : Word
  userdefed : Word
  allinfo : Fin NUMSIG → Handlerinfo
  addrSigreturn : Word

variable {first second start before after : Proc} {holding : Bool}

namespace Proc

def image (proc : Proc) : Image where
  sz := proc.sz
  memory := proc.memory
  tf := proc.tf
  sigblocked := proc.sigblocked
  userdefed := proc.userdefed
  allinfo := proc.allinfo
  addrSigreturn := proc.addrSigreturn

theorem image_eq_iff (first second : Proc) : first.image = second.image ↔
    first.sz = second.sz ∧ first.memory = second.memory ∧ first.tf = second.tf ∧
      first.sigblocked = second.sigblocked ∧ first.userdefed = second.userdefed ∧
      first.allinfo = second.allinfo ∧ first.addrSigreturn = second.addrSigreturn := by
  simp only [image, Image.mk.injEq]

@[simp] theorem image_kill (proc : Proc) : proc.kill.image = proc.image := rfl

@[simp] theorem image_setPending (proc : Proc) (signum : Nat) : (proc.setPending signum).image = proc.image := rfl

@[simp] theorem image_wakeup (proc : Proc) (chan : Chan) : (proc.wakeup chan).image = proc.image := by
  unfold wakeup
  split <;> rfl

@[simp] theorem image_cont (proc : Proc) : proc.cont.image = proc.image := by
  unfold cont
  split <;> rfl

@[simp] theorem image_signalled (proc : Proc) (signum : Nat) : (proc.signalled signum).image = proc.image := by
  unfold signalled receive
  split_ifs <;> simp

-- What neither psig nor anything that happens to the process changes.
def standing (proc : Proc) : Bool × Int × Chan := (proc.kstack, proc.pid, proc.chan)

theorem standing_eq_iff (first second : Proc) : first.standing = second.standing ↔
    first.kstack = second.kstack ∧ first.pid = second.pid ∧ first.chan = second.chan := by
  simp only [standing, Prod.mk.injEq]

@[simp] theorem standing_wakeup (proc : Proc) (chan : Chan) : (proc.wakeup chan).standing = proc.standing := by
  unfold wakeup
  split <;> rfl

@[simp] theorem standing_cont (proc : Proc) : proc.cont.standing = proc.standing := by
  unfold cont
  split <;> rfl

@[simp] theorem standing_setPending (proc : Proc) (signum : Nat) :
    (proc.setPending signum).standing = proc.standing := rfl

theorem standing_env (proc : Proc) (event : Event) : (proc.env event).standing = proc.standing := by
  cases event with
  | Kill signum =>
    simp only [env, signalled, receive]
    split_ifs <;> first | rfl | simp
  | kill => rfl
  | wakeup chan => exact proc.standing_wakeup chan
  | reparent parent | tick | console waiting => rfl

section

variable (h : first.image = second.image)

include h

theorem blocked_congr (signum : Nat) : first.blocked signum = second.blocked signum := by
  rw [blocked, blocked, ((image_eq_iff first second).mp h).2.2.2.1]

theorem disposition_congr (signum : Nat) : first.disposition signum = second.disposition signum := by
  rw [disposition, disposition, ((image_eq_iff first second).mp h).2.2.2.2.2.1]

theorem userdefed_congr : first.userdefed = second.userdefed :=
  ((image_eq_iff first second).mp h).2.2.2.2.1

end

theorem killed_wakeup (proc : Proc) (chan : Chan) : (proc.wakeup chan).killed = proc.killed := by
  unfold wakeup
  split <;> rfl

theorem killed_cont (proc : Proc) : proc.cont.killed = proc.killed := by
  unfold cont
  split <;> rfl

@[simp] theorem pending_wakeup (proc : Proc) (chan : Chan) (signum : Nat) :
    (proc.wakeup chan).pending signum = proc.pending signum := by
  unfold wakeup
  split <;> rfl

@[simp] theorem pending_cont (proc : Proc) (signum : Nat) : proc.cont.pending signum = proc.pending signum := by
  unfold cont
  split <;> rfl

theorem pending_setPending (proc : Proc) (signum other : Nat) :
    (proc.setPending signum).pending other = (proc.pending other || decide (other % 32 = signum % 32)) :=
  Mask.has_set proc.sigpending signum other

variable {proc : Proc}

theorem pending_signalled_of_pending {other : Nat} (signum : Nat) (h : proc.pending other = true) :
    (proc.signalled signum).pending other = true := by
  unfold signalled receive
  split_ifs <;> first | exact h | simp [pending_setPending, h]

@[simp] theorem live_kill (proc : Proc) : proc.kill.Live ↔ proc.Live := by
  simp only [Live, kill]
  split <;> simp_all

@[simp] theorem live_wakeup (proc : Proc) (chan : Chan) : (proc.wakeup chan).Live ↔ proc.Live := by
  simp only [Live, wakeup]
  split <;> simp_all

@[simp] theorem live_cont (proc : Proc) : proc.cont.Live ↔ proc.Live := by
  simp only [Live, cont]
  split <;> simp_all

@[simp] theorem live_setPending (proc : Proc) (signum : Nat) : (proc.setPending signum).Live ↔ proc.Live := Iff.rfl

@[simp] theorem live_signalled (proc : Proc) (signum : Nat) : (proc.signalled signum).Live ↔ proc.Live := by
  unfold signalled receive
  split_ifs <;> simp

theorem live_env (proc : Proc) (event : Event) : (proc.env event).Live ↔ proc.Live := by
  cases event with
  | Kill signum => exact proc.live_signalled signum
  | kill => exact proc.live_kill
  | wakeup chan => exact proc.live_wakeup chan
  | reparent parent | tick | console waiting => exact Iff.rfl

-- Signals that psig does not deal with by default stay pending. SIGSTOP is the exception:
-- psig stops the process for it whatever the mask and the disposition say.
structure Keeps (start proc : Proc) : Prop where
  image : proc.image = start.image
  live : start.Live → proc.Live
  pending : ∀ signum, start.pending signum = true →
    start.blocked signum = true ∨ start.disposition signum ≠ .DFL → signum % 32 ≠ SIGSTOP →
    proc.pending signum = true

namespace Keeps

theorem refl (proc : Proc) : proc.Keeps proc := ⟨rfl, id, fun _ hpending _ _ => hpending⟩

variable (h : start.Keeps proc)

include h

theorem of_pending {next : Proc} (himage : next.image = proc.image)
    (hlive : proc.Live → next.Live) (hpending : ∀ signum, proc.pending signum = true → next.pending signum = true) :
    start.Keeps next where
  image := himage.trans h.image
  live hstart := hlive (h.live hstart)
  pending signum hsignum hkept hstop := hpending signum (h.pending signum hsignum hkept hstop)

theorem env (event : Event) : start.Keeps (proc.env event) := by
  have hlive := (proc.live_env event).mpr
  cases event with
  | Kill signum =>
    exact h.of_pending (proc.image_signalled signum) hlive (fun _ hother => pending_signalled_of_pending signum hother)
  | kill | reparent parent => exact h.of_pending rfl hlive (fun _ hpending => hpending)
  | wakeup chan => exact h.of_pending (proc.image_wakeup chan) hlive (fun signum => by simp [Proc.env])
  | tick | console waiting => exact h

theorem clearPending_sigstop : start.Keeps (proc.clearPending SIGSTOP) where
  image := h.image
  live := h.live
  pending other hpending hkept hstop := by
    have hne : other % 32 ≠ SIGSTOP % 32 := hstop
    rw [pending_clearPending, h.pending other hpending hkept hstop]
    simp [hne]

-- A signal whose default action was due is not among those that are kept.
theorem clearPending (before : Proc) (hbefore : before.image = start.image) (signum : Nat)
    (hdue : before.defaultDue signum = true) : start.Keeps (proc.clearPending signum) where
  image := h.image
  live := h.live
  pending other hpending hkept hstop := by
    simp only [defaultDue, Bool.and_eq_true, Bool.not_eq_true', beq_iff_eq] at hdue
    obtain ⟨⟨_, hblocked⟩, hdisposition⟩ := hdue
    rw [blocked_congr hbefore] at hblocked
    rw [disposition_congr hbefore] at hdisposition
    have hne : other % 32 ≠ signum % 32 := by
      intro heq
      have hsame : start.blocked other = start.blocked signum := Mask.has_congr _ heq
      have hsame' : start.disposition other = start.disposition signum := by
        simp only [disposition]
        congr 2
        exact Fin.ext heq
      rw [hsame, hsame', hblocked, hdisposition] at hkept
      simp at hkept
    rw [pending_clearPending, h.pending other hpending hkept hstop]
    simp [hne]

end Keeps

end Proc

theorem Cpu.proc_env (cpu : Cpu) (event : Event) : (cpu.env event).proc = cpu.proc.env event := by
  cases event <;> rfl

def Proc.Undergoes : Proc → Proc → Prop :=
  Relation.ReflTransGen fun before after => ∃ event, after = before.env event

theorem Proc.Keeps.undergoes (h : start.Keeps before) (hafter : before.Undergoes after) : start.Keeps after := by
  induction hafter with
  | refl => exact h
  | tail _ hstep ih =>
    obtain ⟨event, rfl⟩ := hstep
    exact ih.env event

namespace Proc.Undergoes

theorem refl (proc : Proc) : proc.Undergoes proc := Relation.ReflTransGen.refl

theorem single (proc : Proc) (event : Event) : proc.Undergoes (proc.env event) :=
  Relation.ReflTransGen.single ⟨event, rfl⟩

theorem trans {third : Proc} (hfirst : first.Undergoes second) (hsecond : second.Undergoes third) :
    first.Undergoes third :=
  Relation.ReflTransGen.trans hfirst hsecond

variable (h : before.Undergoes after)

include h

theorem live_iff : after.Live ↔ before.Live := by
  induction h with
  | refl => exact Iff.rfl
  | @tail middle _ _ hstep ih =>
    obtain ⟨event, rfl⟩ := hstep
    exact (middle.live_env event).trans ih

theorem image : after.image = before.image :=
  ((Proc.Keeps.refl before).undergoes h).image

theorem standing : after.standing = before.standing := by
  induction h with
  | refl => rfl
  | @tail middle _ _ hstep ih =>
    obtain ⟨event, rfl⟩ := hstep
    exact (middle.standing_env event).trans ih

end Proc.Undergoes

-- The same if only these events happen to the process.
def Proc.UndergoesOnly (allowed : Event → Prop) : Proc → Proc → Prop :=
  Relation.ReflTransGen fun before after => ∃ event, allowed event ∧ after = before.env event

namespace Proc.UndergoesOnly

variable {allowed : Event → Prop} {first second third : Proc}

theorem refl (proc : Proc) : proc.UndergoesOnly allowed proc := Relation.ReflTransGen.refl

theorem single (proc : Proc) {event : Event} (h : allowed event) : proc.UndergoesOnly allowed (proc.env event) :=
  Relation.ReflTransGen.single ⟨event, h, rfl⟩

theorem trans (hfirst : first.UndergoesOnly allowed second) (hsecond : second.UndergoesOnly allowed third) :
    first.UndergoesOnly allowed third :=
  Relation.ReflTransGen.trans hfirst hsecond

theorem undergoes (h : first.UndergoesOnly allowed second) : first.Undergoes second :=
  Relation.ReflTransGen.mono (fun _ _ ⟨event, _, heq⟩ => ⟨event, heq⟩) _ _ h

theorem invariant (h : first.UndergoesOnly allowed second) (holds : Proc → Prop)
    (hevent : ∀ proc event, allowed event → holds proc → holds (proc.env event)) (hfirst : holds first) :
    holds second := by
  induction h with
  | refl => exact hfirst
  | @tail middle _ _ hstep ih =>
    obtain ⟨event, hallowed, rfl⟩ := hstep
    exact hevent middle event hallowed ih

end Proc.UndergoesOnly

-- What others may have done before the process goes on. One that gave up the CPU is
-- picked by the scheduler once it is RUNNABLE.
structure Others (point : Point) (before after : Cpu) : Prop where
  undergoes : before.proc.Undergoes after.proc
  same : after = { before with proc := after.proc, console := after.console }
  runnable : ∀ why, point = .sched why → after.proc.state = .RUNNABLE

-- The lock state of psig and what it keeps of the process.
structure Psig (start : Proc) (ncli : Nat) (holding : Bool) (cpu : Cpu) : Prop where
  ncli : cpu.ncli = ncli
  holding : cpu.holding = holding
  keeps : start.Keeps cpu.proc

theorem Psig.others {ncli : Nat} {point : Point} {before after : Cpu} (h : Psig start ncli holding before)
    (hothers : Others point before after) : Psig start ncli holding after := by
  rw [hothers.same]
  exact ⟨h.ncli, h.holding, h.keeps.undergoes hothers.undergoes⟩

-- How psig ends when it does not return: through a handler, chosen in a state that
-- keeps what psig found, or by a panic if it has to stop with another lock held. It may also wait for ever.
def Psig.Leaves (caller : Caller) (start : Proc) (ncli : Nat) : Exit → Cpu → Prop
  | .jmptohandler from_ delivery, cpu => from_ = caller ∧ cpu.ncli = ncli ∧ cpu.holding = false ∧
      ∃ chosen, start.Keeps chosen ∧ chosen.userdefed ≠ 0 ∧ delivery = chosen.delivery ∧
        cpu.proc = chosen.deliver
  | .panic panic, cpu => ncli ≠ 0 ∧ (∃ signum, panic = .schedLocks (.stop signum)) ∧ start.Keeps cpu.proc
  | .deadlock, cpu => start.Keeps cpu.proc
  | _, _ => False

def psigContract (caller : Caller) (start : Proc) (ncli : Nat) : Contract Cpu Point Exit where
  rely := Others
  ready := fun _ _ => True
  paused := fun _ cpu => start.Keeps cpu.proc
  leaves := Psig.Leaves caller start ncli

section Spec

variable {caller : Caller} {start : Proc} {ncli : Nat}

theorem psig_windows : Windows (psigContract caller start ncli) (Psig start ncli false)
    (Psig start (ncli + 1) true) where
  locked cpu h := ⟨h.holding, by rw [h.ncli]; omega⟩
  unlocked cpu h := h.holding
  release cpu h := ⟨by simp [Cpu.unlock, h.ncli], rfl, h.keeps⟩
  acquire cpu _ _ h _ := ⟨by simp [Cpu.lock, h.ncli], rfl, h.keeps⟩
  paused _ _ h := h.keeps
  rely _ _ _ h hrely _ := h.others hrely
  kill cpu h := ⟨h.ncli, h.holding, h.keeps.env .kill⟩
  clear before after signum _ hdue hbefore hafter :=
    ⟨hafter.ncli, hafter.holding, hafter.keeps.clearPending before.proc hbefore.keeps.image signum hdue⟩

variable {cpu : Cpu}

section

variable (h : Psig start ncli holding cpu)

include h

theorem Psig.clearPending (signum : Nat)
    (hdue : cpu.proc.defaultDue signum = true) : Psig start ncli holding (cpu.clearPending signum) :=
  ⟨h.ncli, h.holding, h.keeps.clearPending cpu.proc h.keeps.image signum hdue⟩

theorem Psig.cont : Psig start ncli holding (cpu.update Proc.cont) :=
  ⟨h.ncli, h.holding,
    h.keeps.of_pending cpu.proc.image_cont cpu.proc.live_cont.mpr (fun signum => by simp [Cpu.update])⟩

theorem Psig.setState (state : Procstate)
    (hstate : state ∈ [.SLEEPING, .RUNNABLE, .RUNNING]) : Psig start ncli holding (cpu.setState state) :=
  ⟨h.ncli, h.holding, h.keeps.of_pending rfl (fun _ => hstate) (fun _ hpending => hpending)⟩

end

-- The signal for which psig stops is SIGSTOP or one whose default action is due, and
-- stays so while the process is stopped: the others change neither mask nor dispositions.
theorem Psig.clearPending_of_stopsAt {before : Cpu} {signum : Nat} {rest : List Nat}
    (hbefore : Psig start (ncli + 1) true before) (hstops : before.proc.stopsAt signum rest)
    (h : Psig start (ncli + 1) true cpu) : Psig start (ncli + 1) true (cpu.clearPending signum) := by
  refine ⟨h.ncli, h.holding, ?_⟩
  rcases hstops with ⟨rfl, -, -⟩ | ⟨-, hdue, -⟩
  · exact h.keeps.clearPending_sigstop
  · exact h.keeps.clearPending before.proc hbefore.keeps.image signum hdue

theorem psig_stops (cpu : Cpu) : Stops (psigContract caller start ncli) cpu (Psig start (ncli + 1) true)
    (fun _ => Psig start (ncli + 1) true) where
  clear cpu signum _ hdue h := h.clearPending signum hdue
  cont cpu h := h.cont
  stop cpu signum rest h _ hstops := by
    rw [wp_stop signum _ cpu h.holding]
    split
    · rename_i hncli
      refine ⟨?_, ⟨signum, rfl⟩, (h.setState .SLEEPING (by simp)).keeps⟩
      have := h.ncli
      omega
    · have hasleep := h.setState .SLEEPING (by simp)
      refine ⟨hasleep.keeps, ?_⟩
      intro next hrely _
      exact h.clearPending_of_stopsAt hstops ((hasleep.others hrely).setState .RUNNING (by simp))
  clearAfter cpu signum _ _ hdue h := h.clearPending signum hdue
  contAfter cpu h := h.cont
  pass _ _ _ _ h := h

theorem psigHandlers_spec (cpu : Cpu) (h : Psig start (ncli + 1) true cpu) :
    (psigHandlers caller).wp (psigContract caller start ncli)
      (fun result last => result = 1 ∧ Psig start ncli false last ∧ last.proc.userdefed = 0) cpu := by
  have hunlock : Psig start ncli false cpu.unlock := ⟨by simp [Cpu.unlock, h.ncli], rfl, h.keeps⟩
  rw [wp_psigHandlers caller _ cpu h.holding (by rw [h.ncli]; omega)]
  split
  · rename_i huserdefed
    exact ⟨rfl, hunlock, huserdefed⟩
  · rename_i huserdefed
    exact ⟨rfl, hunlock.ncli, rfl, cpu.proc, h.keeps, huserdefed, rfl, rfl⟩

end Spec

theorem psig_spec (caller : Caller) (cpu : Cpu) (hholding : cpu.holding = false) :
    (psig caller).wp (psigContract caller cpu.proc cpu.ncli)
      (fun result last => result = 1 ∧ Psig cpu.proc cpu.ncli false last ∧ last.proc.userdefed = 0) cpu := by
  refine wp_psig psig_windows caller _ cpu (.refl cpu.proc) ?_ (fun _ h _ => h.keeps) ?_
  · intro next hrely _
    have hnext := Psig.others ⟨rfl, hholding, .refl cpu.proc⟩ hrely
    exact ⟨hnext.holding, by simp [Cpu.lock, hnext.ncli], rfl, hnext.keeps⟩
  · intro start hstart
    refine wp_mono (wp_psigStops (psig_stops start) hstart) ?_
    intro _ last hlast
    exact psigHandlers_spec last (hlast.elim (fun h => h.2) (fun h => h.2))

section Fixes

-- What is fixed in psig, lock or no lock.
def fixed (cpu : Cpu) : (Bool × Int × Chan) × Option Slot × Word :=
  (cpu.proc.standing, cpu.proc.parent, cpu.proc.sigblocked)

theorem update_fixes (change : Proc → Proc) (h : ∀ proc, (change proc).standing = proc.standing ∧
      (change proc).parent = proc.parent ∧ (change proc).sigblocked = proc.sigblocked) : (update change).Fixes fixed :=
  .modify fun cpu => Prod.ext (h cpu.proc).1 (Prod.ext (h cpu.proc).2.1 (h cpu.proc).2.2)

theorem clearPending_fixes (signum : Nat) : (clearPending signum).Fixes fixed :=
  update_fixes _ fun _ => ⟨rfl, rfl, rfl⟩

theorem acquire_fixes (site : Site) : (acquire site).Fixes fixed :=
  .bind (.pause _) fun _ => .bind .get fun _ => .ite (.leave _) (.modify fun _ => rfl)

theorem release_fixes : release.Fixes fixed :=
  .bind .get fun _ => .ite (.leave _) (.ite (.leave _) (.modify fun _ => rfl))

theorem stop_fixes (signum : Nat) : (stop signum).Fixes fixed := by
  refine .bind (update_fixes _ fun _ => ⟨rfl, rfl, rfl⟩) fun _ => .bind .get fun _ => ?_
  refine .ite (.leave _) (.ite (.leave _) (.ite (.leave _) ?_))
  exact .bind (.pause _) fun _ => update_fixes _ fun _ => ⟨rfl, rfl, rfl⟩

-- The common body of `term` and `core`.
theorem default_fixes (killSite site : Site) : (do
      release
      killSelf killSite
      modify fun cpu => cpu.setDefaulted true
      acquire site : Kernel Unit).Fixes fixed := by
  have hkill : (killSelf killSite).Fixes fixed :=
    .bind (acquire_fixes _) fun _ => .bind (update_fixes _ fun _ => ⟨rfl, rfl, rfl⟩) fun _ => release_fixes
  exact .bind release_fixes fun _ => .bind hkill fun _ => .bind (.modify fun _ => rfl) fun _ => acquire_fixes _

theorem defaultLoop_fixes {action : Kernel Unit} (h : action.Fixes fixed) (signals : List Nat) :
    (defaultLoop action signals).Fixes fixed := by
  refine .foldlM (fun called signum => .bind .get fun _ => .ite ?_ (.pure _)) signals false
  split
  · exact .bind (clearPending_fixes signum) fun _ => .pure _
  · exact .bind h fun _ => .bind (clearPending_fixes signum) fun _ => .pure _

theorem psigStops_fixes : psigStops.Fixes fixed := by
  have hclear : ∀ first second (result : Bool), (do
      clearPending first
      clearPending second
      pure result : Kernel Bool).Fixes fixed :=
    fun first second result =>
      .bind (clearPending_fixes first) fun _ => .bind (clearPending_fixes second) fun _ => .pure _
  have hstop : ∀ signum, (do
      stop signum
      clearPending signum
      pure true : Kernel Bool).Fixes fixed :=
    fun signum => .bind (stop_fixes signum) fun _ => .bind (clearPending_fixes signum) fun _ => .pure _
  refine .bind ?_ fun called => .bind ?_ fun _ => .bind ?_ fun _ => ?_
  · refine .bind .get fun _ => .ite ?_ (.pure _)
    exact hstop SIGSTOP
  · exact .bind .get fun _ => .ite (clearPending_fixes _) (.pure _)
  · refine .foldlM (fun called signum => .bind .get fun _ => .ite (hclear _ _ _) (.ite ?_ (.pure _))) stopsig called
    split
    · exact .bind (clearPending_fixes signum) fun _ => .pure _
    · exact hstop signum
  · refine .bind .get fun _ => .ite ?_ (.pure _)
    refine .bind (update_fixes _ fun proc => ⟨proc.standing_cont, ?_⟩) fun _ => clearPending_fixes _
    unfold Proc.cont
    split <;> exact ⟨rfl, rfl⟩

theorem psig_fixes (caller : Caller) : (psig caller).Fixes fixed := by
  have hcore : core.Fixes fixed :=
    .bind (.bind .get fun _ => .ite (.leave _) (.pure _)) fun _ => default_fixes .coreKill .core
  refine .bind (acquire_fixes _) fun _ => .bind (defaultLoop_fixes (default_fixes _ _) _) fun _ =>
    .bind (defaultLoop_fixes hcore _) fun _ => .bind psigStops_fixes fun _ => ?_
  refine .bind .get fun _ => .ite (.bind release_fixes fun _ => .pure _) ?_
  exact .bind (update_fixes _ fun _ => ⟨rfl, rfl, rfl⟩) fun _ => .bind release_fixes fun _ => .leave _

end Fixes

end Xv6

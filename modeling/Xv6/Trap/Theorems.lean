import Xv6.Psig.Spec
import Xv6.Trap

namespace Xv6

open Program

variable {contract : Contract Cpu Point Exit}

-- The changes that kernel code outside psig and the system calls makes: locks, the
-- scheduling state, the clock, and `killed` if it is set.
structure Cpu.Alike (before after : Cpu) : Prop where
  image : after.proc.image = before.proc.image
  killed : before.proc.killed = true → after.proc.killed = true
  syscall : after.syscall = before.syscall
  interrupt : after.interrupt = before.interrupt
  leaving : after.leaving = before.leaving
  defaulted : after.defaulted = before.defaulted

-- An invariant of kernel code and the lock state in which it runs.
structure At (keep : Cpu → Prop) (ncli : Nat) (holding : Bool) (cpu : Cpu) : Prop where
  keep : keep cpu
  ncli : cpu.ncli = ncli
  holding : cpu.holding = holding

-- What has to be shown of an invariant for all kernel code but psig to keep it. Traps
-- are served with `base` locks held; a CPU that gives up the process with one panics.
structure Steady (contract : Contract Cpu Point Exit) (base : Nat) (keep : Cpu → Prop) : Prop where
  rely : ∀ point cpu next, keep cpu → contract.rely point cpu next → keep next
  locks : ∀ point cpu next, contract.rely point cpu next → next.ncli = cpu.ncli ∧ next.holding = cpu.holding
  paused : ∀ point cpu, point ∈ [.running, .spin, .lock .yield, .lock .sleep, .lock .wakeup] →
    keep cpu → cpu.holding = false → contract.paused point cpu
  gone : ∀ why cpu, why ∈ [.yield, .sleep] → keep cpu → cpu.holding = true → cpu.ncli = 1 →
    contract.paused (.sched why) cpu
  change : ∀ before after, before.Alike after → keep before → keep after
  exits : ∀ cpu, keep cpu → contract.leaves .exit cpu
  panics : base ≠ 0 → ∀ why cpu, keep cpu → contract.leaves (.panic (.schedLocks why)) cpu

-- The same while `ptable.lock` is held and across the switch to the scheduler in `stop`.
structure Holds (contract : Contract Cpu Point Exit) (keep : Cpu → Prop) : Prop where
  rely : ∀ signum cpu next, At keep 1 true cpu → contract.rely (.sched (.stop signum)) cpu next → keep next
  locks : ∀ point cpu next, contract.rely point cpu next → next.ncli = cpu.ncli ∧ next.holding = cpu.holding
  change : ∀ before after, before.Alike after → after.ncli = before.ncli → after.holding = before.holding →
    keep before → keep after

variable {holding : Bool}

namespace Steady

variable {base : Nat} {keep : Cpu → Prop} {ncli : Nat} {cpu : Cpu}

variable (h : Steady contract base keep)

include h

theorem resumed (point : Point) (hcpu : At keep ncli holding cpu) {next : Cpu}
    (hrely : contract.rely point cpu next) : At keep ncli holding next := by
  obtain ⟨hncli, hholding⟩ := h.locks point cpu next hrely
  exact ⟨h.rely point cpu next hcpu.keep hrely, hncli.trans hcpu.ncli, hholding.trans hcpu.holding⟩

theorem lock (hcpu : At keep ncli false cpu) : At keep (ncli + 1) true cpu.lock :=
  ⟨h.change cpu _ ⟨rfl, id, rfl, rfl, rfl, rfl⟩ hcpu.keep, by simp [Cpu.lock, hcpu.ncli], rfl⟩

theorem unlock (hcpu : At keep (ncli + 1) true cpu) : At keep ncli false cpu.unlock :=
  ⟨h.change cpu _ ⟨rfl, id, rfl, rfl, rfl, rfl⟩ hcpu.keep, by simp [Cpu.unlock, hcpu.ncli], rfl⟩

theorem wp_running (hcpu : At keep ncli false cpu) :
    (pause .running : Kernel Unit).wp contract (fun _ => At keep ncli false) cpu := by
  rw [wp_pause]
  exact ⟨h.paused _ cpu (by simp) hcpu.keep hcpu.holding, fun next hrely _ => h.resumed _ hcpu hrely⟩

theorem wp_spin (hcpu : At keep ncli false cpu) : spin.wp contract (fun _ => At keep (ncli + 1) false) cpu := by
  simp only [spin, wp_bind, wp_pause, wp_modify]
  refine ⟨h.paused _ cpu (by simp) hcpu.keep hcpu.holding, ?_⟩
  intro next hrely _
  have hnext := h.resumed _ hcpu hrely
  exact ⟨h.change next _ ⟨rfl, id, rfl, rfl, rfl, rfl⟩ hnext.keep, by simp [hnext.ncli], hnext.holding⟩

theorem wp_unspin (hcpu : At keep (ncli + 1) holding cpu) : unspin.wp contract (fun _ => At keep ncli holding) cpu := by
  have hncli : cpu.ncli ≠ 0 := by rw [hcpu.ncli]; omega
  simp only [unspin, wp_bind, wp_get, wp_ite, wp_modify, hncli, ite_false]
  exact ⟨h.change cpu _ ⟨rfl, id, rfl, rfl, rfl, rfl⟩ hcpu.keep, by simp [hcpu.ncli], hcpu.holding⟩

theorem wp_update (hcpu : At keep ncli holding cpu) (change : Proc → Proc)
    (himage : (change cpu.proc).image = cpu.proc.image)
    (hkilled : cpu.proc.killed = true → (change cpu.proc).killed = true) :
    (update change).wp contract (fun _ => At keep ncli holding) cpu := by
  rw [Xv6.wp_update]
  exact ⟨h.change cpu _ ⟨himage, hkilled, rfl, rfl, rfl, rfl⟩ hcpu.keep, hcpu.ncli, hcpu.holding⟩

theorem wp_acquire (site : Site) (hsite : site ∈ [.yield, .sleep, .wakeup]) (hcpu : At keep ncli false cpu) :
    (acquire site).wp contract (fun _ => At keep (ncli + 1) true) cpu := by
  rw [Xv6.wp_acquire]
  refine ⟨h.paused _ cpu ?_ hcpu.keep hcpu.holding, ?_⟩
  · simp only [List.mem_cons, List.not_mem_nil, or_false] at hsite
    rcases hsite with rfl | rfl | rfl <;> simp
  · intro next hrely _
    have hnext := h.resumed _ hcpu hrely
    simp only [hnext.holding, Bool.false_eq_true, ite_false]
    exact h.lock hnext

theorem wp_release (hcpu : At keep (ncli + 1) true cpu) : release.wp contract (fun _ => At keep ncli false) cpu := by
  rw [Xv6.wp_release _ cpu hcpu.holding (by rw [hcpu.ncli]; omega)]
  exact h.unlock hcpu

-- The scheduling state is set and `sched` is called with no other lock held.
theorem wp_sched (why : Why) (hwhy : why ∈ [.yield, .sleep])
    (state : Procstate) (hstate : state ≠ .RUNNING) (hcpu : At keep (base + 1) true cpu) :
    (sched why).wp contract (fun _ => At keep (base + 1) true) (cpu.setState state) := by
  rw [Xv6.wp_sched why _ (cpu.setState state) hcpu.holding hstate]
  have hset : ∀ (cpu : Cpu) state, keep cpu → keep (cpu.setState state) :=
    fun cpu _ hkeep => h.change cpu _ ⟨rfl, id, rfl, rfl, rfl, rfl⟩ hkeep
  have hasleep : At keep (base + 1) true (cpu.setState state) :=
    ⟨hset cpu state hcpu.keep, hcpu.ncli, hcpu.holding⟩
  by_cases hbase : base = 0
  · subst hbase
    rw [if_neg (by simp [hasleep.ncli])]
    refine ⟨h.gone why _ hwhy hasleep.keep hasleep.holding hasleep.ncli, ?_⟩
    intro next hrely _
    have hnext := h.resumed _ hasleep hrely
    exact ⟨hset next .RUNNING hnext.keep, hnext.ncli, hnext.holding⟩
  · have hncli := hasleep.ncli
    rw [if_pos (by omega)]
    exact h.panics hbase why _ hasleep.keep

theorem wp_exit (post : Unit → Cpu → Prop) (hcpu : At keep ncli false cpu) : exit.wp contract post cpu := by
  rw [exit, wp_bind]
  exact wp_mono (h.wp_running hcpu) (fun _ next hnext => h.exits next hnext.keep)

theorem wp_exitIfKilled (hcpu : At keep ncli false cpu) :
    exitIfKilled.wp contract (fun _ next => At keep ncli false next ∧ next.proc.killed = false) cpu := by
  simp only [exitIfKilled, wp_bind, wp_get, wp_ite, wp_pure]
  refine wp_mono (h.wp_running hcpu) ?_
  intro _ next hnext
  split
  · exact h.wp_exit _ hnext
  · rename_i hkilled
    exact ⟨hnext, Bool.eq_false_iff.mpr hkilled⟩

theorem wp_wakeup (chan : Chan) (hcpu : At keep ncli false cpu) :
    (wakeup chan).wp contract (fun _ => At keep ncli false) cpu := by
  simp only [wakeup, wp_bind]
  refine wp_mono (h.wp_acquire .wakeup (by simp) hcpu) ?_
  intro _ cpu hcpu
  refine wp_mono (h.wp_update hcpu _ (by simp) (by simp [Proc.killed_wakeup])) ?_
  intro _ cpu hcpu
  exact h.wp_release hcpu

theorem wp_yield (hcpu : At keep base false cpu) : yield.wp contract (fun _ => At keep base false) cpu := by
  simp only [yield, wp_bind, wp_setState]
  refine wp_mono (h.wp_acquire .yield (by simp) hcpu) ?_
  intro _ cpu hcpu
  refine wp_mono (h.wp_sched .yield (by simp) .RUNNABLE (by simp) hcpu) ?_
  intro _ cpu hcpu
  exact h.wp_release hcpu

theorem wp_sleep (chan : Chan) (hcpu : At keep (base + 1) false cpu) :
    (sleep chan).wp contract (fun _ => At keep (base + 1) false) cpu := by
  simp only [sleep, wp_bind, wp_setState]
  refine wp_mono (h.wp_acquire .sleep (by simp) hcpu) ?_
  intro _ cpu hcpu
  refine wp_mono (h.wp_unspin hcpu) ?_
  intro _ cpu hcpu
  refine wp_mono (h.wp_update hcpu _ rfl id) ?_
  intro _ cpu hcpu
  refine wp_mono (h.wp_sched .sleep (by simp) .SLEEPING (by simp) hcpu) ?_
  intro _ cpu hcpu
  refine wp_mono (h.wp_update hcpu _ rfl id) ?_
  intro _ cpu hcpu
  refine wp_mono (h.wp_release hcpu) ?_
  intro _ cpu hcpu
  exact h.wp_spin hcpu

theorem wp_checkSignals (caller : Caller)
    (hpsig : ∀ cpu, At keep ncli false cpu → (psig caller).wp contract (fun _ => At keep ncli false) cpu)
    (hcpu : At keep ncli false cpu) : (checkSignals caller).wp contract (fun _ => At keep ncli false) cpu := by
  simp only [checkSignals, wp_bind, wp_get, wp_ite, wp_pure]
  refine wp_mono (h.wp_running hcpu) ?_
  intro _ cpu hcpu
  split
  · exact hcpu
  · exact hpsig cpu hcpu

theorem wp_handleTrap (user : Bool) (trapno : Trapno)
    (huser : trapno = .fault → user = true) (hcpu : At keep ncli false cpu) :
    (handleTrap user trapno).wp contract (fun _ => At keep ncli false) cpu := by
  -- The interrupt handlers that wake up processes hold a lock of their own.
  have hwakeup : ∀ chan (cpu : Cpu), At keep (ncli + 1) false cpu →
      (do wakeup chan; unspin : Kernel Unit).wp contract (fun _ => At keep ncli false) cpu := by
    intro chan cpu hcpu
    rw [wp_bind]
    exact wp_mono (h.wp_wakeup chan hcpu) (fun _ _ hnext => h.wp_unspin hnext)
  cases trapno with
  | fault =>
    simp only [handleTrap, huser rfl, ite_true]
    exact h.wp_update hcpu _ rfl (fun _ => rfl)
  | irq irq =>
    cases irq with
    | spurious => exact hcpu
    | device chan =>
      simp only [handleTrap, wp_bind] at hwakeup ⊢
      exact wp_mono (h.wp_spin hcpu) (fun _ cpu hcpu => hwakeup chan cpu hcpu)
    | timer cpu0 =>
      cases cpu0 with
      | false => exact hcpu
      | true =>
        simp only [handleTrap, ite_true, wp_bind, wp_modify] at hwakeup ⊢
        refine wp_mono (h.wp_spin hcpu) ?_
        intro _ cpu hcpu
        exact hwakeup .ticks _ ⟨h.change cpu _ ⟨rfl, id, rfl, rfl, rfl, rfl⟩ hcpu.keep, hcpu.ncli, hcpu.holding⟩

theorem wp_yieldOnTick (trapno : Trapno) (hcpu : At keep base false cpu) :
    (yieldOnTick trapno).wp contract (fun _ => At keep base false) cpu := by
  unfold yieldOnTick
  split
  · simp only [wp_bind, wp_get, wp_ite, wp_pure]
    refine wp_mono (h.wp_running hcpu) ?_
    intro _ cpu hcpu
    split
    · exact h.wp_yield hcpu
    · exact hcpu
  · exact hcpu

theorem wp_trapOther (user : Bool) (trapno : Trapno) (huser : trapno = .fault → user = true)
    (hpsig : ∀ cpu, At keep base false cpu → (psig (.interrupt user)).wp contract (fun _ => At keep base false) cpu)
    (hcpu : At keep base false cpu) : (trapOther user trapno).wp contract (fun _ => At keep base false) cpu := by
  have htest : ∀ cpu : Cpu, At keep base false cpu →
      (exitFromUser user).wp contract (fun _ => At keep base false) cpu := by
    intro cpu hcpu
    rw [exitFromUser, wp_ite]
    split
    · exact wp_mono (h.wp_exitIfKilled hcpu) (fun _ _ hnext => hnext.1)
    · exact hcpu
  simp only [trapOther, wp_bind]
  refine wp_mono (h.wp_handleTrap user trapno huser hcpu) ?_
  intro _ cpu hcpu
  refine wp_mono (htest cpu hcpu) ?_
  intro _ cpu hcpu
  refine wp_mono (h.wp_yieldOnTick trapno hcpu) ?_
  intro _ cpu hcpu
  refine wp_mono (htest cpu hcpu) ?_
  intro _ cpu hcpu
  exact h.wp_checkSignals (.interrupt user) hpsig hcpu

-- `extra` is what psig learns whenever it has got the lock.
theorem windows (ncli : Nat) (extra : Cpu → Prop)
    (hpaused : ∀ site cpu, keep cpu → cpu.holding = false → contract.paused (.lock site) cpu)
    (hdefaulted : ∀ cpu, keep cpu → cpu.proc.killed = true → keep (cpu.setDefaulted true))
    (hready : ∀ cpu site, site = .term ∨ site = .core → At keep ncli false cpu →
      contract.ready (.lock site) cpu → extra cpu.lock)
    (hclear : ∀ cpu signum, signum ∈ termsig ++ coresig → extra cpu → extra (cpu.clearPending signum)) :
    Windows contract (At keep ncli false) (fun cpu => At keep (ncli + 1) true cpu ∧ extra cpu) where
  locked cpu hcpu := ⟨hcpu.1.holding, by rw [hcpu.1.ncli]; omega⟩
  unlocked cpu hcpu := hcpu.holding
  release cpu hcpu := h.unlock hcpu.1
  acquire cpu site hsite hcpu hlock := ⟨h.lock hcpu, hready cpu site hsite hcpu hlock⟩
  paused cpu site hcpu := hpaused site cpu hcpu.keep hcpu.holding
  rely cpu next site hcpu hrely _ := h.resumed _ hcpu hrely
  kill cpu hcpu :=
    ⟨hdefaulted _ (h.change cpu _ ⟨rfl, fun _ => rfl, rfl, rfl, rfl, rfl⟩ hcpu.keep) rfl, hcpu.ncli, hcpu.holding⟩
  clear before after signum hmem _ _ hafter :=
    ⟨⟨h.change after _ ⟨rfl, id, rfl, rfl, rfl, rfl⟩ hafter.1.keep, hafter.1.ncli, hafter.1.holding⟩,
      hclear after signum hmem hafter.2⟩

theorem holds : Holds contract keep where
  rely _ cpu next hcpu hrely := h.rely _ cpu next hcpu.keep hrely
  locks := h.locks
  change before after halike _ _ := h.change before after halike

end Steady

theorem Cpu.Alike.cont (cpu : Cpu) : cpu.Alike (cpu.update Proc.cont) :=
  ⟨cpu.proc.image_cont, by simp [Cpu.update, Proc.killed_cont], rfl, rfl, rfl, rfl⟩

namespace Holds

variable {keep : Cpu → Prop} {ncli : Nat} {cpu : Cpu}

variable (h : Holds contract keep)

include h

theorem alike {next : Cpu} (hcpu : At keep ncli holding cpu) (halike : cpu.Alike next)
    (hncli : next.ncli = cpu.ncli) (hholding : next.holding = cpu.holding) : At keep ncli holding next :=
  ⟨h.change cpu next halike hncli hholding hcpu.keep, hncli.trans hcpu.ncli, hholding.trans hcpu.holding⟩

theorem clearPending (hcpu : At keep ncli true cpu) (signum : Nat) : At keep ncli true (cpu.clearPending signum) :=
  h.alike hcpu ⟨rfl, id, rfl, rfl, rfl, rfl⟩ rfl rfl

-- With another lock held, `sched` panics.
theorem wp_stop (signum : Nat) (hcpu : At keep (ncli + 1) true cpu)
    (hpaused : At keep 1 true (cpu.setState .SLEEPING) →
      contract.paused (.sched (.stop signum)) (cpu.setState .SLEEPING))
    (hpanic : ncli ≠ 0 → keep (cpu.setState .SLEEPING) →
      contract.leaves (.panic (.schedLocks (.stop signum))) (cpu.setState .SLEEPING)) :
    (stop signum).wp contract (fun _ cpu => At keep (ncli + 1) true (cpu.clearPending signum)) cpu := by
  have hasleep : At keep (ncli + 1) true (cpu.setState .SLEEPING) := h.alike hcpu ⟨rfl, id, rfl, rfl, rfl, rfl⟩ rfl rfl
  rw [Xv6.wp_stop signum _ cpu hcpu.holding]
  by_cases hzero : ncli = 0
  · subst hzero
    rw [if_neg (by simp [hcpu.ncli])]
    refine ⟨hpaused hasleep, ?_⟩
    intro next hrely _
    obtain ⟨hncli, hholding⟩ := h.locks _ _ next hrely
    have hnext : At keep 1 true next :=
      ⟨h.rely signum _ next hasleep hrely, hncli.trans hasleep.ncli, hholding.trans hasleep.holding⟩
    exact h.alike hnext ⟨rfl, id, rfl, rfl, rfl, rfl⟩ rfl rfl
  · rw [if_pos (by rw [hcpu.ncli]; omega)]
    exact hpanic hzero hasleep.keep

-- Between the start of the stop stage and the call of `stop` nobody else gets in.
theorem wp_psigStops (start : Cpu) (hstart : At keep (ncli + 1) true start)
    (hpaused : start.proc.stopDue = true → ∀ cpu signum, At keep 1 true cpu →
      cpu.proc.killed = start.proc.killed → contract.paused (.sched (.stop signum)) cpu)
    (hpanic : start.proc.stopDue = true → ncli ≠ 0 → ∀ cpu signum, keep cpu →
      contract.leaves (.panic (.schedLocks (.stop signum))) cpu) :
    psigStops.wp contract (fun _ => At keep (ncli + 1) true) start := by
  have hstops : Stops contract start (fun cpu => At keep (ncli + 1) true cpu ∧
      cpu.proc.killed = start.proc.killed) (fun _ => At keep (ncli + 1) true) := by
    constructor
    case clear => exact fun cpu signum _ _ hcpu => ⟨h.clearPending hcpu.1 signum, hcpu.2⟩
    case cont =>
      intro cpu hcpu
      refine ⟨h.alike hcpu.1 (.cont cpu) rfl rfl, ?_⟩
      simpa [Cpu.update, Proc.killed_cont] using hcpu.2
    case stop =>
      intro cpu signum rest hcpu hdue _
      exact h.wp_stop signum hcpu.1 (fun hasleep => hpaused hdue _ signum hasleep hcpu.2)
        (fun hncli hkeep => hpanic hdue hncli _ signum hkeep)
    case clearAfter => exact fun cpu signum _ _ _ hcpu => h.clearPending hcpu signum
    case contAfter => exact fun cpu hcpu => h.alike hcpu (.cont cpu) rfl rfl
    case pass => exact fun _ _ _ _ hcpu => hcpu
  refine wp_mono (Xv6.wp_psigStops hstops ⟨hstart, rfl⟩) ?_
  intro _ cpu hcpu
  exact hcpu.elim (fun hcpu => hcpu.2.1) (fun hcpu => hcpu.2)

end Holds

-- The same for a system call: `outer` holds in the trap, `inner` while the call of this
-- number is in progress, and `last` on the way back to user mode.
structure Serves (contract : Contract Cpu Point Exit) (base : Nat) (outer : Cpu → Prop)
    (inner : Word → Cpu → Prop) (last : Cpu → Prop) : Prop where
  steady : Steady contract base outer
  steadyIn : ∀ num, Steady contract base (inner num)
  steadyLast : Steady contract base last
  call : ∀ cpu, outer cpu → cpu.proc.killed = false →
    inner cpu.proc.tf.eax { cpu with syscall := some cpu.proc.tf.eax }
  returns : ∀ num cpu (result : Word), inner num cpu → outer
    { cpu with proc := { cpu.proc with tf := { cpu.proc.tf with eax := result } }, syscall := none }
  tested : ∀ cpu, outer cpu → cpu.proc.killed = false → last { cpu with leaving := true }
  effect : ∀ num cpu (effect : Effect), inner num cpu → inner num (cpu.update effect.change)
  fuel : ∀ num cpu, inner num cpu → cpu.proc.killed = false → contract.leaves .fuel cpu
  restoreuser : ∀ cpu context, At (inner SYS_sigreturn) base false cpu → contract.leaves (.restoreuser context) cpu
  psigSleep : ∀ num cpu, At (inner num) (base + 1) false cpu →
    (psig .sleep).wp contract (fun _ => At (inner num) (base + 1) false) cpu
  psigSyscall : ∀ cpu, At outer base false cpu → (psig .syscall).wp contract (fun _ => At outer base false) cpu

namespace Serves

variable {base : Nat} {outer : Cpu → Prop} {inner : Word → Cpu → Prop} {last : Cpu → Prop} {num : Word} {cpu : Cpu}

variable (h : Serves contract base outer inner last)

include h

theorem wp_sleepTurn (ticks0 argument : Word) (again : Kernel Unit)
    (hagain : ∀ cpu, At (inner num) (base + 1) false cpu → cpu.proc.killed = false →
      again.wp contract (fun _ => At (inner num) base false) cpu) (hcpu : At (inner num) (base + 1) false cpu) :
    (sleepTurn ticks0 argument again).wp contract (fun _ => At (inner num) base false) cpu := by
  have hinner := h.steadyIn num
  simp only [sleepTurn, wp_bind, wp_get, wp_ite]
  refine wp_mono (hinner.wp_running hcpu) ?_
  intro _ cpu hcpu
  split
  · split
    · exact hinner.wp_unspin hcpu
    · rename_i hkilled
      exact hagain cpu hcpu (Bool.eq_false_iff.mpr hkilled)
  · refine wp_mono (hinner.wp_checkSignals .sleep (h.psigSleep num) hcpu) ?_
    intro _ cpu hcpu
    exact hinner.wp_unspin hcpu

theorem wp_sleepLoop (ticks0 argument : Word) (fuel : Nat) (hcpu : At (inner num) (base + 1) false cpu) :
    (sleepLoop ticks0 argument fuel).wp contract (fun _ => At (inner num) base false) cpu := by
  have hinner := h.steadyIn num
  induction fuel generalizing cpu with
  | zero => exact h.wp_sleepTurn ticks0 argument _ (fun cpu hcpu => h.fuel num cpu hcpu.keep) hcpu
  | succ fuel ih =>
    refine h.wp_sleepTurn ticks0 argument _ ?_ hcpu
    intro cpu hcpu _
    simp only [wp_bind]
    refine wp_mono (hinner.wp_checkSignals .sleep (h.psigSleep num) hcpu) ?_
    intro _ cpu hcpu
    refine wp_mono (hinner.wp_sleep .ticks hcpu) ?_
    intro _ cpu hcpu
    exact ih hcpu

theorem wp_effect {ncli : Nat} (effect : Effect) (hcpu : At (inner num) ncli false cpu) :
    (update effect.change).wp contract (fun _ => At (inner num) ncli false) cpu :=
  ⟨h.effect num cpu effect hcpu.keep, hcpu.ncli, hcpu.holding⟩

theorem wp_exec (op : Op) (hcpu : At (inner num) base false cpu) :
    op.exec.wp contract (fun _ => At (inner num) base false) cpu := by
  have hinner := h.steadyIn num
  cases op with
  | run effect =>
    simp only [Op.exec, wp_bind]
    exact wp_mono (hinner.wp_running hcpu) (fun _ _ hcpu => h.wp_effect effect hcpu)
  | locked effect =>
    simp only [Op.exec, wp_bind]
    refine wp_mono (hinner.wp_spin hcpu) ?_
    intro _ cpu hcpu
    exact wp_mono (h.wp_effect effect hcpu) (fun _ _ hcpu => hinner.wp_unspin hcpu)
  | sleep chan =>
    simp only [Op.exec, wp_bind]
    refine wp_mono (hinner.wp_spin hcpu) ?_
    intro _ cpu hcpu
    exact wp_mono (hinner.wp_sleep chan hcpu) (fun _ _ hcpu => hinner.wp_unspin hcpu)

theorem wp_execOps (ops : List Op) (hcpu : At (inner num) base false cpu) :
    (execOps ops).wp contract (fun _ => At (inner num) base false) cpu := by
  induction ops generalizing cpu with
  | nil => exact hcpu
  | cons op rest ih =>
    rw [execOps, wp_bind]
    exact wp_mono (h.wp_exec op hcpu) (fun _ _ hcpu => ih hcpu)

theorem wp_dispatch (call : Call) (hcpu : At (inner num) base false cpu) :
    (dispatch num call).wp contract (fun _ => At (inner num) base false) cpu := by
  have hinner := h.steadyIn num
  unfold dispatch
  split
  · simp only [sysSleep, wp_bind, wp_get]
    refine wp_mono (hinner.wp_spin hcpu) ?_
    intro _ cpu hcpu
    exact h.wp_sleepLoop cpu.ticks call.argument call.fuel hcpu
  · split
    · rename_i hnum
      simp only [sysSigreturnCall, wp_bind, wp_get, wp_leave]
      refine wp_mono (hinner.wp_running hcpu) ?_
      intro _ cpu hcpu
      exact h.restoreuser cpu _ (hnum ▸ hcpu)
    · split
      · exact hinner.wp_exit _ hcpu
      · exact h.wp_execOps call.ops hcpu

theorem wp_trapSyscall (call : Call) (hcpu : At outer base false cpu) :
    (trapSyscall call).wp contract (fun _ => At last base false) cpu := by
  simp only [trapSyscall, wp_bind]
  refine wp_mono (h.steady.wp_exitIfKilled hcpu) ?_
  rintro _ cpu ⟨hcpu, hkilled⟩
  simp only [syscall, wp_bind, wp_get, wp_modify]
  have hinner : At (inner cpu.proc.tf.eax) base false { cpu with syscall := some cpu.proc.tf.eax } :=
    ⟨h.call cpu hcpu.keep hkilled, hcpu.ncli, hcpu.holding⟩
  refine wp_mono (h.wp_dispatch call hinner) ?_
  intro _ next hnext
  have houter := h.returns _ next call.result hnext.keep
  refine wp_mono (h.steady.wp_checkSignals .syscall h.psigSyscall ⟨houter, hnext.ncli, hnext.holding⟩) ?_
  intro _ cpu hcpu
  refine wp_mono (h.steady.wp_exitIfKilled hcpu) ?_
  rintro _ cpu ⟨hcpu, hkilled⟩
  exact h.steadyLast.wp_running ⟨h.tested cpu hcpu.keep hkilled, hcpu.ncli, hcpu.holding⟩

end Serves

section Kernel

-- The state in which a trap from user mode begins.
def Cpu.entered (cpu : Cpu) (user : User) (interrupt : Bool) : Cpu :=
  { cpu with
    proc := { cpu.proc with tf := user.tf, memory := user.memory }
    syscall := none
    interrupt := interrupt
    leaving := false
    defaulted := false }

theorem wp_entry_syscall {base : Nat} {outer : Cpu → Prop} {inner : Word → Cpu → Prop} {last : Cpu → Prop}
    (h : Serves contract base outer inner last) (user : User) (call : Call) (cpu : Cpu)
    (hcpu : At outer base false (cpu.entered user false)) :
    (kernel.entry (.syscall user call)).wp contract (fun _ => At last base false) cpu := by
  simp only [kernel, enter, wp_bind, wp_modify]
  exact h.wp_trapSyscall call hcpu

variable {keep : Cpu → Prop} {point : Point}

theorem wp_entry_trap {base : Nat} (h : Steady contract base keep) (hpsig : ∀ cpu, At keep base false cpu →
      (psig (.interrupt true)).wp contract (fun _ => At keep base false) cpu) (user : User) (trapno : Trapno)
    (cpu : Cpu) (hcpu : At keep base false (cpu.entered user true)) :
    (kernel.entry (.trap user trapno)).wp contract
      (fun _ next => ∃ last, At keep base false last ∧ next = { last with interrupt := false }) cpu := by
  simp only [kernel, enter, setInterrupt, wp_bind, wp_modify]
  refine wp_mono (h.wp_trapOther true trapno (fun _ => rfl) hpsig hcpu) ?_
  intro _ last hlast
  exact ⟨last, hlast, rfl⟩

-- Both ways into the kernel, for whoever asks only about the locks afterwards.
theorem wp_entry {base : Nat} {outer : Cpu → Prop} {inner : Word → Cpu → Prop} {last : Cpu → Prop}
    (h : Serves contract base outer inner last)
    (hpsig : ∀ cpu, At outer base false cpu → (psig (.interrupt true)).wp contract (fun _ => At outer base false) cpu)
    (entry : Entry) (cpu : Cpu) (hcpu : ∀ user interrupt, At outer base false (cpu.entered user interrupt)) :
    (kernel.entry entry).wp contract (fun _ next => next.ncli = base ∧ next.holding = false) cpu := by
  cases entry with
  | syscall user call =>
    refine wp_mono (wp_entry_syscall h user call cpu (hcpu user false)) ?_
    exact fun _ next hnext => ⟨hnext.ncli, hnext.holding⟩
  | trap user trapno =>
    refine wp_mono (wp_entry_trap h.steady hpsig user trapno cpu (hcpu user true)) ?_
    rintro _ next ⟨last, hlast, rfl⟩
    exact ⟨hlast.ncli, hlast.holding⟩

theorem wp_interrupt (h : Steady contract 0 keep)
    (hpsig : ∀ cpu, At keep 0 false cpu → (psig (.interrupt false)).wp contract (fun _ => At keep 0 false) cpu)
    (irq : Irq) (cpu : Cpu) (hcpu : At keep 0 false { cpu with interrupt := true }) :
    (kernel.interrupt irq).wp contract
      (fun _ next => ∃ last, At keep 0 false last ∧ next = { last with interrupt := false }) cpu := by
  simp only [kernel, setInterrupt, wp_bind, wp_modify]
  refine wp_mono (h.wp_trapOther false (.irq irq) (by simp) hpsig hcpu) ?_
  intro _ last hlast
  exact ⟨last, hlast, rfl⟩

theorem kernel_enabled {cpu : Cpu} (h : kernel.enabled point cpu = true) :
    (∀ why, point ≠ .sched why) ∧ cpu.ncli = 0 ∧ cpu.interrupt = false := by
  cases point with
  | sched why => cases h
  | lock site | spin | running => simpa [kernel] using h

-- The two ways back to user mode other than a return.
theorem kernel_final {way : Exit} (h : kernel.final way = false) :
    (∃ caller delivery, way = .jmptohandler caller delivery) ∨ ∃ context, way = .restoreuser context := by
  cases way with
  | jmptohandler caller delivery => exact .inl ⟨caller, delivery, rfl⟩
  | restoreuser context => exact .inr ⟨context, rfl⟩
  | exit | panic panic | deadlock | fuel => cases h

-- What neither others nor an interrupt change.
structure Cpu.Undisturbed (before after : Cpu) : Prop where
  ncli : after.ncli = before.ncli
  holding : after.holding = before.holding
  syscall : after.syscall = before.syscall
  interrupt : after.interrupt = before.interrupt
  leaving : after.leaving = before.leaving
  userdefed : after.proc.userdefed = before.proc.userdefed

namespace Cpu.Undisturbed

theorem refl (cpu : Cpu) : cpu.Undisturbed cpu := ⟨rfl, rfl, rfl, rfl, rfl, rfl⟩

theorem trans {first second third : Cpu} (hfirst : first.Undisturbed second) (hsecond : second.Undisturbed third) :
    first.Undisturbed third where
  ncli := hsecond.ncli.trans hfirst.ncli
  holding := hsecond.holding.trans hfirst.holding
  syscall := hsecond.syscall.trans hfirst.syscall
  interrupt := hsecond.interrupt.trans hfirst.interrupt
  leaving := hsecond.leaving.trans hfirst.leaving
  userdefed := hsecond.userdefed.trans hfirst.userdefed

theorem env (cpu : Cpu) (event : Event) : cpu.Undisturbed (cpu.env event) := by
  have hkeeps := (Proc.Keeps.refl cpu.proc).env event
  rw [← cpu.proc_env event] at hkeeps
  cases event <;> exact ⟨rfl, rfl, rfl, rfl, rfl, Proc.userdefed_congr hkeeps.image⟩

end Cpu.Undisturbed

-- All that an interrupt has to know of the state from which it was called.
structure Called (start cpu : Cpu) : Prop where
  syscall : cpu.syscall = start.syscall
  interrupt : cpu.interrupt = start.interrupt
  leaving : cpu.leaving = start.leaving
  userdefed : cpu.proc.userdefed = start.proc.userdefed

namespace Called

variable {start cpu next : Cpu}

theorem refl (cpu : Cpu) : Called cpu cpu := ⟨rfl, rfl, rfl, rfl⟩

theorem undisturbed (h : Called start cpu) (hnext : cpu.Undisturbed next) : Called start next :=
  ⟨hnext.syscall.trans h.syscall, hnext.interrupt.trans h.interrupt, hnext.leaving.trans h.leaving,
    hnext.userdefed.trans h.userdefed⟩

theorem alike (h : Called start cpu) (halike : cpu.Alike next) : Called start next :=
  ⟨halike.syscall.trans h.syscall, halike.interrupt.trans h.interrupt, halike.leaving.trans h.leaving,
    (Proc.userdefed_congr halike.image).trans h.userdefed⟩

theorem setDefaulted (h : Called start cpu) (defaulted : Bool) : Called start (cpu.setDefaulted defaulted) :=
  ⟨h.syscall, h.interrupt, h.leaving, h.userdefed⟩

-- An interrupt that returns leaves the code it interrupted undisturbed.
theorem undisturbed_return {last : Cpu} (hinterrupt : cpu.interrupt = false) (hncli : cpu.ncli = 0)
    (hholding : cpu.holding = false) (h : At (Called { cpu with interrupt := true }) 0 false last) :
    cpu.Undisturbed { last with interrupt := false } :=
  ⟨h.ncli.trans hncli.symm, h.holding.trans hholding.symm, h.keep.syscall, hinterrupt.symm, h.keep.leaving,
    h.keep.userdefed⟩

end Called

-- An interrupt in the middle of a system call comes back to it as if only others had run.
theorem wp_interrupt_undisturbed {cpu : Cpu} (h : Steady contract 0 (Called { cpu with interrupt := true }))
    (hpsig : ∀ middle, At (Called { cpu with interrupt := true }) 0 false middle →
      (psig (.interrupt false)).wp contract (fun _ => At (Called { cpu with interrupt := true }) 0 false) middle)
    (henabled : kernel.enabled point cpu = true) (hholding : cpu.holding = false) (irq : Irq) :
    (kernel.interrupt irq).wp contract (fun _ next => cpu.Undisturbed next) cpu := by
  obtain ⟨-, hncli, hinterrupt⟩ := kernel_enabled henabled
  refine wp_mono (wp_interrupt h hpsig irq cpu ⟨.refl _, hncli, hholding⟩) ?_
  rintro _ next ⟨last, hlast, rfl⟩
  exact Called.undisturbed_return hinterrupt hncli hholding hlast

-- The runs in which the thread only goes on from a point in these states.
def Resumes (ready : Point → Cpu → Bool) : Option Point → Cpu → Label Event Entry Irq → Prop
  | some point, cpu, .resume => ready point cpu = true
  | _, _, _ => True

instance (ready : Point → Cpu → Bool) (point : Option Point) (cpu : Cpu) (label : Label Event Entry Irq) :
    Decidable (Resumes ready point cpu label) :=
  match point, label with
  | some point, .resume => inferInstanceAs (Decidable (ready point cpu = true))
  | some _, .env _ | some _, .enter _ | some _, .interrupt _ => inferInstanceAs (Decidable True)
  | none, .env _ | none, .enter _ | none, .interrupt _ | none, .resume => inferInstanceAs (Decidable True)

-- The process is in user mode and the CPU holds no lock.
def Idle (cpu : Cpu) : Prop := cpu.ncli = 0 ∧ cpu.holding = false

theorem Idle.undisturbed {cpu next : Cpu} (h : Idle cpu) (hnext : cpu.Undisturbed next) : Idle next :=
  ⟨hnext.ncli.trans h.1, hnext.holding.trans h.2⟩

end Kernel

-- Of the others it is known that they leave the process undisturbed, and `ptable.lock` is free where they run.
-- A process that has been stopped is as `stopped` says.
def kernelContract (ready : Point → Cpu → Bool) (stopped : Cpu → Prop) (leaves : Exit → Cpu → Prop) :
    Contract Cpu Point Exit where
  rely := fun _ => Cpu.Undisturbed
  ready := fun point cpu => ready point cpu = true
  paused
    | .sched (.stop _), cpu => stopped cpu
    | .sched _, _ => True
    | _, cpu => cpu.holding = false
  leaves := leaves

section KernelContract

variable {ready : Point → Cpu → Bool} {stopped : Cpu → Prop} {leaves : Exit → Cpu → Prop} {base : Nat}
  {start cpu : Cpu} {keep : Cpu → Prop}

theorem kernelContract_paused_iff {point : Point} (hpoint : ∀ why, point ≠ .sched why) :
    (kernelContract ready stopped leaves).paused point cpu ↔ cpu.holding = false := by
  cases point with
  | sched why => exact absurd rfl (hpoint why)
  | lock site | spin | running => exact Iff.rfl

variable (hexits : ∀ cpu, leaves .exit cpu)

include hexits

-- Any invariant that others and interrupts leave alone, and that does not look at locks.
theorem kernelContract_steady (hpanics : base ≠ 0 → ∀ why cpu, leaves (.panic (.schedLocks why)) cpu)
    (hrely : ∀ cpu next : Cpu, keep cpu → cpu.Undisturbed next → keep next)
    (hchange : ∀ before after : Cpu, before.Alike after → keep before → keep after) :
    Steady (kernelContract ready stopped leaves) base keep where
  rely _ cpu next := hrely cpu next
  locks _ _ _ hrely := ⟨hrely.ncli, hrely.holding⟩
  paused point _ hpoint _ hholding := by
    refine (kernelContract_paused_iff ?_).mpr hholding
    rintro why rfl
    simp at hpoint
  gone why _ hwhy _ _ _ := by
    simp only [List.mem_cons, List.not_mem_nil, or_false] at hwhy
    rcases hwhy with rfl | rfl <;> trivial
  change := hchange
  exits cpu _ := hexits cpu
  panics hbase why cpu _ := hpanics hbase why cpu

theorem kernelContract_called : Steady (kernelContract ready stopped leaves) 0 (Called start) :=
  kernelContract_steady hexits (absurd rfl) (fun _ _ => Called.undisturbed) fun _ _ halike h => h.alike halike

-- psig may know besides that there is no handler.
theorem kernelContract_userdefed (known : Prop) : Steady (kernelContract ready stopped leaves) 0
    fun cpu => Called start cpu ∧ (known → cpu.proc.userdefed = 0) := by
  refine kernelContract_steady hexits (absurd rfl) ?_ ?_
  · exact fun cpu next hcpu hnext =>
      ⟨hcpu.1.undisturbed hnext, fun hknown => hnext.userdefed.trans (hcpu.2 hknown)⟩
  · exact fun before after halike hbefore =>
      ⟨hbefore.1.alike halike, fun hknown => (Proc.userdefed_congr halike.image).trans (hbefore.2 hknown)⟩

theorem kernelContract_obeys {user : Cpu → Prop} (hstopped : ∀ cpu event, stopped cpu → stopped (cpu.env event))
    (huser : ∀ cpu next : Cpu, user cpu → cpu.Undisturbed next → user next)
    (hentry : ∀ entry cpu, user cpu → (kernel.entry entry).wp (kernelContract ready stopped leaves) (fun _ => user) cpu)
    (hpsig : ∀ start cpu, At (Called start) 0 false cpu →
      (psig (.interrupt false)).wp (kernelContract ready stopped leaves) (fun _ => At (Called start) 0 false) cpu)
    (hleaves : ∀ way cpu, leaves way cpu → kernel.final way = false → user cpu) :
    kernel.Obeys (kernelContract ready stopped leaves) user (Resumes ready) where
  refl _ cpu := .refl cpu
  trans _ _ _ _ hfirst hsecond := hfirst.trans hsecond
  env point cpu event hpaused _ := by
    have hnext := Cpu.Undisturbed.env cpu event
    refine ⟨hnext, ?_⟩
    cases point with
    | sched why =>
      cases why with
      | stop signum => exact hstopped cpu event hpaused
      | yield | sleep => trivial
    | lock site | spin | running => exact hnext.holding.trans hpaused
  envUser cpu event hcpu _ := huser _ _ hcpu (.env cpu event)
  entry cpu entry hcpu _ := hentry entry cpu hcpu
  interrupt point cpu irq hpaused henabled _ := by
    have hpoint := (kernel_enabled henabled).1
    have hholding := (kernelContract_paused_iff hpoint).mp hpaused
    refine wp_mono (wp_interrupt_undisturbed (kernelContract_called hexits) (hpsig _) henabled hholding irq) ?_
    exact fun _ next hnext =>
      ⟨hnext, (kernelContract_paused_iff hpoint).mpr (hnext.holding.trans hholding)⟩
  resume _ _ _ hgood := hgood
  leaves := hleaves

end KernelContract

end Xv6

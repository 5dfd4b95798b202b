import Xv6.Trap.Stopped

namespace Xv6

open Program

-- `sys_sleep` calls psig under `tickslock`: there psig finds no stop signal due and, as it
-- would leave with the lock, no handler. A CPU with `ncli` at 0 is not in that call.
def noSignalUnderTickslock : Point → Cpu → Bool
  | .lock (.psig .sleep), cpu => !cpu.proc.stopDue && cpu.proc.userdefed == 0
  | .lock .term, cpu | .lock .core, cpu => cpu.ncli == 0 || !cpu.proc.stopDue
  | _, _ => true

def Panic.inSched : Panic → Bool
  | .schedPtableLock _ | .schedLocks _ | .schedRunning _ => true
  | _ => false

def locksContract : Contract Cpu Point Exit :=
  kernelContract noSignalUnderTickslock (fun cpu => cpu.ncli = 1 ∧ cpu.holding = true) fun
    | .jmptohandler _ _, cpu | .restoreuser _, cpu => Idle cpu
    | .panic panic, _ => panic.inSched = false
    | _, _ => True

theorem locks_psig (caller : Caller) (start cpu : Cpu) (ncli : Nat) (hcaller : caller ≠ .sleep → ncli = 0)
    (hcpu : At (Called start) ncli false cpu) :
    (psig caller).wp locksContract (fun _ => At (Called start) ncli false) cpu := by
  -- With a lock held already, psig neither stops the process nor enters a handler.
  let keep : Cpu → Prop := fun cpu => Called start cpu ∧ (ncli ≠ 0 → cpu.proc.userdefed = 0)
  let extra : Cpu → Prop := fun cpu => ncli ≠ 0 → cpu.proc.stopDue = false
  have hsteady : Steady locksContract 0 keep := kernelContract_userdefed (fun _ => trivial) _
  have hwindows : Windows locksContract (At keep ncli false) (fun cpu => At keep (ncli + 1) true cpu ∧ extra cpu) := by
    refine hsteady.windows ncli extra (fun _ _ _ hholding => hholding) (fun _ h _ => ⟨h.1.setDefaulted true, h.2⟩) ?_ ?_
    · intro next site hsite hnext hready hncli
      have hdue : (next.ncli == 0 || !next.proc.stopDue) = true := by
        rcases hsite with rfl | rfl <;> exact hready
      simpa [Cpu.lock, hnext.ncli, hncli] using hdue
    · intro next signum hsignum hextra hncli
      exact (Proc.stopDue_clearPending next.proc signum hsignum).trans (hextra hncli)
  refine wp_psig hwindows caller _ cpu hcpu.holding ?_ (fun _ _ _ => trivial) ?_
  · intro next hrely hready
    have hquiet : ncli ≠ 0 → next.proc.stopDue = false ∧ next.proc.userdefed = 0 := by
      intro hncli
      have hsleep : caller = .sleep := by
        by_contra hne
        exact hncli (hcaller hne)
      subst hsleep
      simpa [locksContract, kernelContract, noSignalUnderTickslock] using hready
    have hnext : At keep ncli false next :=
      ⟨⟨hcpu.keep.undisturbed hrely, fun hncli => (hquiet hncli).2⟩, hrely.ncli.trans hcpu.ncli,
        hrely.holding.trans hcpu.holding⟩
    exact ⟨hnext.holding, hsteady.lock hnext, fun hncli => (hquiet hncli).1⟩
  · rintro middle ⟨hmiddle, hextra⟩
    refine wp_mono (hsteady.holds.wp_psigStops middle hmiddle (fun _ _ _ hat _ => ⟨hat.ncli, hat.holding⟩) ?_) ?_
    · intro hdue hncli
      exact absurd (hdue.symm.trans (hextra hncli)) (by simp)
    · intro _ last hlast
      have hunlock := hsteady.unlock hlast
      rw [wp_psigHandlers caller _ last hlast.holding (by rw [hlast.ncli]; omega)]
      split
      · exact ⟨hunlock.keep.1, hunlock.ncli, rfl⟩
      · rename_i huserdefed
        have hzero : ncli = 0 := by
          by_contra hncli
          exact huserdefed (hlast.keep.2 hncli)
        exact ⟨hunlock.ncli.trans hzero, rfl⟩

theorem locks_steady_true : Steady locksContract 0 (fun _ => True) :=
  kernelContract_steady (fun _ => trivial) (absurd rfl) (fun _ _ _ _ => trivial) (fun _ _ _ _ => trivial)

theorem locks_psig_true (caller : Caller) (ncli : Nat) (cpu : Cpu) (hcaller : caller ≠ .sleep → ncli = 0)
    (hcpu : At (fun _ => True) ncli false cpu) :
    (psig caller).wp locksContract (fun _ => At (fun _ => True) ncli false) cpu := by
  refine wp_mono (locks_psig caller cpu cpu ncli hcaller ⟨.refl cpu, hcpu.ncli, hcpu.holding⟩) ?_
  intro _ last hlast
  exact ⟨trivial, hlast.ncli, hlast.holding⟩

theorem locks_serve : Serves locksContract 0 (fun _ => True) (fun _ _ => True) (fun _ => True) where
  steady := locks_steady_true
  steadyIn _ := locks_steady_true
  steadyLast := locks_steady_true
  call _ _ _ := trivial
  returns _ _ _ _ := trivial
  tested _ _ _ := trivial
  effect _ _ _ _ := trivial
  fuel _ _ _ _ := trivial
  restoreuser _ _ hcpu := ⟨hcpu.ncli, hcpu.holding⟩
  psigSleep _ cpu hcpu := locks_psig_true .sleep 1 cpu (fun hne => absurd rfl hne) hcpu
  psigSyscall cpu hcpu := locks_psig_true .syscall 0 cpu (fun _ => rfl) hcpu

theorem locks_entry (entry : Entry) (cpu : Cpu) (hcpu : Idle cpu) :
    (kernel.entry entry).wp locksContract (fun _ => Idle) cpu := by
  refine wp_entry locks_serve (fun cpu hcpu => ?_) entry cpu fun _ _ => ⟨trivial, hcpu.1, hcpu.2⟩
  exact locks_psig_true (.interrupt true) 0 cpu (fun _ => rfl) hcpu

theorem locks_obey : kernel.Obeys locksContract Idle (Resumes noSignalUnderTickslock) := by
  refine kernelContract_obeys (fun _ => trivial) ?_ (fun _ _ => Idle.undisturbed) locks_entry ?_ ?_
  · intro cpu event hstopped
    have hnext := Cpu.Undisturbed.env cpu event
    exact ⟨hnext.ncli.trans hstopped.1, hnext.holding.trans hstopped.2⟩
  · exact fun start cpu hcpu => locks_psig (.interrupt false) start cpu 0 (fun _ => rfl) hcpu
  · intro way cpu hleaves hfinal
    rcases kernel_final hfinal with ⟨caller, delivery, rfl⟩ | ⟨context, rfl⟩ <;> exact hleaves

theorem stop_holds_one_lock (thread : Thread Cpu Point Exit)
    (hreach : kernel.Reach (Resumes noSignalUnderTickslock) Idle thread) :
    (∀ signum, thread.point = some (.sched (.stop signum)) →
      thread.state.ncli = 1 ∧ thread.state.holding = true) ∧
    ∀ panic cpu, thread.exit = some (.panic panic, cpu) → panic.inSched = false := by
  constructor
  · intro signum hpoint
    exact hreach.paused locks_obey (fun _ h => h) hpoint
  · intro panic cpu hexit
    exact hreach.leaves locks_obey (fun _ h => h) hexit

theorem stop_holds_one_lock_getpid : ∃ thread : Thread Cpu Point Exit,
    kernel.Reach (Resumes noSignalUnderTickslock) Idle thread ∧
      thread.point = some (.sched (.stop SIGSTOP)) ∧ thread.state.ncli = 1 := by
  obtain ⟨thread, hreach, hpoint⟩ : ∃ thread, kernel.Reach (Resumes noSignalUnderTickslock) Idle thread ∧
      thread.point = some (.sched (.stop SIGSTOP)) :=
    kernel.exists_reach (show Idle plain from ⟨rfl, rfl⟩)
      [.enter (.syscall (calling SYS_getpid) ⟨[], 3, 0, 0⟩), .resume, .env (.Kill SIGSTOP), .resume, .resume]
      ⟨_, rfl, rfl⟩
  exact ⟨thread, hreach, hpoint, ((stop_holds_one_lock thread hreach).1 SIGSTOP hpoint).1⟩

-- SIGSTOP arrives while the process is in sleep, which has taken `tickslock`.
theorem stop_under_tickslock : ∃ thread, kernel.Reach (fun _ _ _ => True) Idle thread ∧ ∃ cpu,
    thread.exit = some (.panic (.schedLocks (.stop SIGSTOP)), cpu) ∧ cpu.ncli = 2 :=
  kernel.exists_reach (show Idle plain from ⟨rfl, rfl⟩)
    [.enter (.syscall (calling SYS_sleep) ⟨[], 0, 5, 1⟩), .resume, .resume, .env (.Kill SIGSTOP), .resume,
      .resume, .resume] ⟨_, rfl, _, rfl, rfl⟩

end Xv6

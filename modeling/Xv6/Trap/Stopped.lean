import Xv6.Trap.Handlers

namespace Xv6

open Program

-- psig, whenever it has got the lock and may go on to its stop stage, does not find the
-- process killed with a stop signal due.
def notKilledAndStopping : Point → Cpu → Bool
  | .lock (.psig _), cpu | .lock .term, cpu | .lock .core, cpu => !(cpu.proc.killed && cpu.proc.stopDue)
  | _, _ => true

-- The process is asleep in `stop` although it was killed.
def StoppedAndKilled (cpu : Cpu) : Prop := cpu.proc.state = .SLEEPING ∧ cpu.proc.killed = true

def stoppedContract : Contract Cpu Point Exit :=
  kernelContract notKilledAndStopping (fun cpu => ¬StoppedAndKilled cpu) fun
    | .jmptohandler _ _, cpu | .restoreuser _, cpu => cpu.holding = false
    | _, _ => True

theorem stopped_psig (caller : Caller) (start cpu : Cpu) (ncli : Nat) (hcpu : At (Called start) ncli false cpu) :
    (psig caller).wp stoppedContract (fun _ => At (Called start) ncli false) cpu := by
  have hsteady : Steady stoppedContract 0 (Called start) := kernelContract_called (fun _ => trivial)
  refine wp_psig (hsteady.windows ncli (fun cpu => (!(cpu.proc.killed && cpu.proc.stopDue)) = true)
    (fun _ _ _ hholding => hholding) (fun _ h _ => h.setDefaulted true) ?_ ?_) caller _ cpu hcpu.holding ?_
    (fun _ _ _ => trivial) ?_
  · intro next site hsite _ hready
    rcases hsite with rfl | rfl <;> exact hready
  · intro next signum hsignum hextra
    have hsame := Proc.stopDue_clearPending next.proc signum hsignum
    exact (congrArg (fun due => !(next.proc.killed && due)) hsame).trans hextra
  · intro next hrely hready
    have hnext := hsteady.resumed (.lock (.psig caller)) hcpu hrely
    exact ⟨hnext.holding, hsteady.lock hnext, hready⟩
  · rintro middle ⟨hmiddle, hextra⟩
    refine wp_mono (hsteady.holds.wp_psigStops middle hmiddle ?_ (fun _ _ _ _ _ => trivial)) ?_
    · rintro hdue cpu signum _ hkilled ⟨-, hstopped⟩
      rw [hdue, ← hkilled, hstopped] at hextra
      cases hextra
    · intro _ last hlast
      rw [wp_psigHandlers caller _ last hlast.holding (by rw [hlast.ncli]; omega)]
      split
      · exact hsteady.unlock hlast
      · rfl

theorem stopped_steady_true (base : Nat) : Steady stoppedContract base (fun _ => True) :=
  kernelContract_steady (fun _ => trivial) (fun _ _ _ => trivial) (fun _ _ _ _ => trivial) (fun _ _ _ _ => trivial)

theorem stopped_psig_true (caller : Caller) (ncli : Nat) (cpu : Cpu) (hcpu : At (fun _ => True) ncli false cpu) :
    (psig caller).wp stoppedContract (fun _ => At (fun _ => True) ncli false) cpu := by
  refine wp_mono (stopped_psig caller cpu cpu ncli ⟨.refl cpu, hcpu.ncli, hcpu.holding⟩) ?_
  intro _ last hlast
  exact ⟨trivial, hlast.ncli, hlast.holding⟩

theorem stopped_serve (base : Nat) : Serves stoppedContract base (fun _ => True) (fun _ _ => True) (fun _ => True) where
  steady := stopped_steady_true base
  steadyIn _ := stopped_steady_true base
  steadyLast := stopped_steady_true base
  call _ _ _ := trivial
  returns _ _ _ _ := trivial
  tested _ _ _ := trivial
  effect _ _ _ _ := trivial
  fuel _ _ _ _ := trivial
  restoreuser _ _ hcpu := hcpu.holding
  psigSleep _ cpu hcpu := stopped_psig_true .sleep (base + 1) cpu hcpu
  psigSyscall cpu hcpu := stopped_psig_true .syscall base cpu hcpu

theorem stopped_entry (entry : Entry) (cpu : Cpu) (hcpu : cpu.holding = false) :
    (kernel.entry entry).wp stoppedContract (fun _ next => next.holding = false) cpu := by
  have hentry := wp_entry (stopped_serve cpu.ncli) (stopped_psig_true (.interrupt true) cpu.ncli) entry cpu
    fun _ _ => ⟨trivial, rfl, hcpu⟩
  exact wp_mono hentry fun _ _ hnext => hnext.2

-- Nothing that happens to a process puts it to sleep, and what sets `killed` wakes it up.
theorem Proc.signalled_sleeping {proc : Proc} {signum : Nat} (h : (proc.signalled signum).state = .SLEEPING) :
    proc.state = .SLEEPING ∧ (proc.signalled signum).killed = proc.killed := by
  revert h
  unfold signalled receive kill cont
  split_ifs <;> simp_all [setPending]

theorem Cpu.env_sleeping {cpu : Cpu} {event : Event} (h : (cpu.env event).proc.state = .SLEEPING) :
    cpu.proc.state = .SLEEPING ∧ (cpu.env event).proc.killed = cpu.proc.killed := by
  cases event with
  | Kill signum => exact Proc.signalled_sleeping h
  | kill =>
    simp only [env, update, Proc.kill] at h
    split at h <;> simp_all
  | wakeup chan =>
    simp only [env, update, Proc.killed_wakeup] at h ⊢
    unfold Proc.wakeup at h
    split at h <;> simp_all
  | reparent parent | tick | console waiting => exact ⟨h, rfl⟩

variable {point : Point}

theorem stopped_obey : kernel.Obeys stoppedContract (fun cpu => cpu.holding = false)
    (Resumes notKilledAndStopping) := by
  refine kernelContract_obeys (fun _ => trivial) ?_ (fun _ _ hcpu hnext => hnext.holding.trans hcpu) stopped_entry ?_ ?_
  · -- Being stopped and killed does not come about while the process is paused.
    rintro cpu event hstopped ⟨hsleeping, hkilled⟩
    obtain ⟨hbefore, hsame⟩ := Cpu.env_sleeping hsleeping
    exact hstopped ⟨hbefore, hsame ▸ hkilled⟩
  · exact fun start cpu hcpu => stopped_psig (.interrupt false) start cpu 0 hcpu
  · intro way cpu hleaves hfinal
    rcases kernel_final hfinal with ⟨caller, delivery, rfl⟩ | ⟨context, rfl⟩ <;> exact hleaves

theorem stopped_not_killed (thread : Thread Cpu Point Exit) (signum : Nat)
    (hreach : kernel.Reach (Resumes notKilledAndStopping) (fun cpu => cpu.holding = false) thread)
    (hpoint : thread.point = some (.sched (.stop signum))) : ¬StoppedAndKilled thread.state :=
  hreach.paused stopped_obey (fun _ h => h) hpoint

-- A process with no handlers.
def plain : Cpu := .user { Proc.zero with sz := 0x4000, state := .RUNNING, pid := 3 }

theorem stopped_not_killed_sigstop : ∃ thread : Thread Cpu Point Exit,
    kernel.Reach (Resumes notKilledAndStopping) (fun cpu => cpu.holding = false) thread ∧
      thread.point = some (.sched (.stop SIGSTOP)) ∧ ¬StoppedAndKilled thread.state := by
  obtain ⟨thread, hreach, hpoint⟩ : ∃ thread, kernel.Reach (Resumes notKilledAndStopping)
      (fun cpu => cpu.holding = false) thread ∧ thread.point = some (.sched (.stop SIGSTOP)) :=
    kernel.exists_reach (show plain.holding = false from rfl)
      [.enter (.syscall (calling SYS_getpid) ⟨[], 3, 0, 0⟩), .resume, .env (.Kill SIGSTOP), .resume, .resume]
      ⟨_, rfl, rfl⟩
  exact ⟨thread, hreach, hpoint, stopped_not_killed thread SIGSTOP hreach hpoint⟩

-- The kill comes after the trap has looked for it and before psig stops the process.
theorem stopped_and_killed : ∃ thread : Thread Cpu Point Exit,
    kernel.Reach (fun _ _ _ => True) (fun cpu => cpu.holding = false) thread ∧
      thread.point = some (.sched (.stop SIGSTOP)) ∧ StoppedAndKilled thread.state :=
  kernel.exists_reach (show plain.holding = false from rfl)
    [.enter (.syscall (calling SYS_getpid) ⟨[], 3, 0, 0⟩), .resume, .env (.Kill SIGSTOP), .resume,
      .env (.Kill SIGKILL), .resume] ⟨_, rfl, rfl, rfl, rfl⟩

end Xv6

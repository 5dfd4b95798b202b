import Xv6.Trap.Stopped

namespace Xv6

open Program

-- What is left of the trap does not look at `killed`.
def Cpu.Untested (cpu : Cpu) : Prop := cpu.syscall = some SYS_sigreturn ∨ cpu.leaving = true

-- Interrupts may take a default action in the middle of a system call, and then the
-- process is killed. There are none during the other traps, in sigreturn, on the way back
-- to user mode or in `sched`.
structure Cpu.Calm (point : Point) (before after : Cpu) : Prop extends before.Undisturbed after where
  killed : before.proc.killed = true → after.proc.killed = true
  defaulted : before.defaulted = true → after.defaulted = true
  cause : after.defaulted = true → before.defaulted = true ∨ after.proc.killed = true
  frozen : (∃ why, point = .sched why) ∨ before.interrupt = true ∨ before.Untested →
    after.defaulted = before.defaulted

-- How psig changes a state: a default action kills the process.
structure Led (start cpu : Cpu) : Prop where
  called : Called start cpu
  killed : start.proc.killed = true → cpu.proc.killed = true
  defaulted : start.defaulted = true → cpu.defaulted = true
  cause : cpu.defaulted = true → start.defaulted = true ∨ cpu.proc.killed = true
  frozen : start.Untested → cpu.defaulted = start.defaulted

variable {point : Point} {cpu start : Cpu}

namespace Led

variable {start cpu next : Cpu}

theorem refl (cpu : Cpu) : Led cpu cpu := ⟨.refl cpu, id, id, .inl, fun _ => rfl⟩

variable (h : Led start cpu)

include h

theorem untested : cpu.Untested ↔ start.Untested := by
  rw [Cpu.Untested, Cpu.Untested, h.called.syscall, h.called.leaving]

theorem calm (hnext : cpu.Calm point next) : Led start next where
  called := h.called.undisturbed hnext.toUndisturbed
  killed hkilled := hnext.killed (h.killed hkilled)
  defaulted hdefaulted := hnext.defaulted (h.defaulted hdefaulted)
  cause hdefaulted := by
    rcases hnext.cause hdefaulted with hbefore | hkilled
    · exact (h.cause hbefore).imp id hnext.killed
    · exact .inr hkilled
  frozen hstart := (hnext.frozen (.inr (.inr (h.untested.mpr hstart)))).trans (h.frozen hstart)

theorem alike (halike : cpu.Alike next) : Led start next where
  called := h.called.alike halike
  killed hkilled := halike.killed (h.killed hkilled)
  defaulted hdefaulted := halike.defaulted.trans (h.defaulted hdefaulted)
  cause hdefaulted := (h.cause (halike.defaulted.symm.trans hdefaulted)).imp id halike.killed
  frozen hstart := halike.defaulted.trans (h.frozen hstart)

theorem setDefaulted (hkilled : cpu.proc.killed = true)
    (hstart : ¬start.Untested) : Led start (cpu.setDefaulted true) where
  called := h.called.setDefaulted true
  killed := h.killed
  defaulted _ := rfl
  cause _ := .inr hkilled
  frozen huntested := absurd huntested hstart

end Led

theorem Cpu.env_defaulted (cpu : Cpu) (event : Event) : (cpu.env event).defaulted = cpu.defaulted := by
  cases event <;> rfl

theorem Proc.signalled_killed (proc : Proc) (signum : Nat) (h : proc.killed = true) :
    (proc.signalled signum).killed = true := by
  unfold signalled receive kill cont
  split_ifs <;> simp_all [setPending]

theorem Cpu.env_killed (cpu : Cpu) (event : Event) (h : cpu.proc.killed = true) :
    (cpu.env event).proc.killed = true := by
  cases event with
  | Kill signum => exact cpu.proc.signalled_killed signum h
  | kill => rfl
  | wakeup chan => simpa [env, update, Proc.killed_wakeup] using h
  | reparent parent | tick | console waiting => exact h

namespace Cpu.Calm

theorem refl (point : Point) (cpu : Cpu) : cpu.Calm point cpu := ⟨.refl cpu, id, id, .inl, fun _ => rfl⟩

theorem trans {first second third : Cpu} (hfirst : first.Calm point second) (hsecond : second.Calm point third) :
    first.Calm point third where
  toUndisturbed := hfirst.toUndisturbed.trans hsecond.toUndisturbed
  killed hkilled := hsecond.killed (hfirst.killed hkilled)
  defaulted hdefaulted := hsecond.defaulted (hfirst.defaulted hdefaulted)
  cause hdefaulted := by
    rcases hsecond.cause hdefaulted with hmiddle | hkilled
    · exact (hfirst.cause hmiddle).imp id hsecond.killed
    · exact .inr hkilled
  frozen hwhy := by
    have hmiddle := hfirst.frozen hwhy
    rw [Cpu.Untested, ← hfirst.interrupt, ← hfirst.syscall, ← hfirst.leaving] at hwhy
    exact (hsecond.frozen hwhy).trans hmiddle

theorem env (point : Point) (cpu : Cpu) (event : Event) : cpu.Calm point (cpu.env event) where
  toUndisturbed := .env cpu event
  killed := cpu.env_killed event
  defaulted hdefaulted := (cpu.env_defaulted event).trans hdefaulted
  cause hdefaulted := .inl ((cpu.env_defaulted event).symm.trans hdefaulted)
  frozen _ := cpu.env_defaulted event

end Cpu.Calm

end Xv6

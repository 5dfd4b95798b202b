import Xv6.Psig.Delivery
import Xv6.Ptable.Userdefed

namespace Xv6

-- Whatever the others do, psig enters the right handler and keeps the blocked signals, if
-- and only if it is called with the first signal that has a handler pending.
theorem psig_correct_iff_deliverable (caller : Caller) (cpu : Cpu) (hncli : cpu.ncli = 0)
    (hholding : cpu.holding = false) :
    (∀ last, Coop.Ends Others (psig caller cpu) last → PsigCorrect cpu.proc last) ↔ cpu.proc.Deliverable :=
  ⟨deliverable_of_correct hncli hholding, fun h _ hends => h.correct hncli hholding hends⟩

-- The process that has installed a handler for SIGINT raises that signal.
theorem psig_correct_sigint : ∃ machine, Machine.Reach (fun _ _ => True) machine ∧
    machine.runs 1 = true ∧ (machine.proc 1).issig = bit SIGINT ∧
      ∀ last, Coop.Ends Others (psig .syscall (.user (machine.proc 1))) last → PsigCorrect (machine.proc 1) last := by
  obtain ⟨machine, hreach, hruns, hissig, huserdefed, hpending, hblocked, hdisposition⟩ : ∃ machine,
      Machine.Reach (fun _ _ => True) machine ∧ machine.runs 1 = true ∧ (machine.proc 1).issig = bit SIGINT ∧
        (machine.proc 1).userdefed = bit SIGINT ∧ (machine.proc 1).pending SIGINT = true ∧
        (machine.proc 1).sigblocked = 0 ∧ (machine.proc 1).disposition SIGINT = .USERDEF :=
    exists_reach_boot (fun _ => 0) (forkAndSignal ++ [.call 1 (.raise (fun _ => 0) SIGINT)])
      ⟨_, rfl, _, rfl, rfl, rfl, rfl, rfl, rfl, rfl⟩
  have hfirst : firstUserdefed (bit SIGINT) = SIGINT := by decide
  have hunblocked : ∀ signum, (machine.proc 1).blocked signum = false := by
    intro signum
    rw [Proc.blocked, hblocked]
    exact Mask.has_zero signum
  refine ⟨machine, hreach, hruns, hissig, ?_⟩
  refine (psig_correct_iff_deliverable .syscall (.user (machine.proc 1)) rfl rfl).mpr ⟨?_, .inr ?_⟩
  · intro hstop
    exact absurd hstop (by simp [Cpu.user, hunblocked])
  · simp only [Cpu.user, huserdefed, hfirst]
    exact ⟨by decide, hpending, hunblocked _, hdisposition, by decide⟩

-- If it has also installed a handler for SIGHUP, that one is entered.
theorem psig_wrong_handler : ∃ machine, Machine.Reach (fun _ _ => True) machine ∧
    machine.runs 1 = true ∧ (machine.proc 1).issig = bit SIGINT ∧
      ∃ delivery after, Coop.Ends Others (psig .syscall (.user (machine.proc 1)))
        (.leave (.jmptohandler .syscall delivery) after) ∧
          ¬PsigCorrect (machine.proc 1) (.leave (.jmptohandler .syscall delivery) after) := by
  obtain ⟨machine, hreach, hruns, hissig, delivery, after, hends, hsignum, hpending⟩ : ∃ machine,
      Machine.Reach (fun _ _ => True) machine ∧ machine.runs 1 = true ∧ (machine.proc 1).issig = bit SIGINT ∧
        ∃ delivery after, Coop.Ends Others (psig .syscall (.user (machine.proc 1)))
          (.leave (.jmptohandler .syscall delivery) after) ∧
            delivery.signum = SIGHUP ∧ delivery.chosen.pending SIGHUP = false :=
    exists_reach_boot (fun _ => 0)
      (forkAndSignal ++ [.call 1 (.signal 0x200 SIGHUP 0x180), .call 1 (.raise (fun _ => 0) SIGINT)])
      ⟨_, rfl, _, rfl, rfl, rfl, _, _, .pause _ _ _ _ _ ⟨.refl _, rfl, nofun⟩ (.leave _ _), rfl, rfl⟩
  refine ⟨machine, hreach, hruns, hissig, delivery, after, hends, ?_⟩
  rintro ⟨hcorrect, -⟩
  have hpending' := (hcorrect .syscall delivery after rfl).2.1
  rw [hsignum, hpending] at hpending'
  cases hpending'

end Xv6

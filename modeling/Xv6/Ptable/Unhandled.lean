import Xv6.Psig.Pending
import Xv6.Ptable.Userdefed

namespace Xv6

-- A psig that returns leaves no signal to be delivered if and only if it was called with
-- none but those it takes out. It has no code for some of the numbers that `Kill` accepts,
-- and none for a signal that has become ignored since it was sent.
theorem psig_leaves_no_signal_iff (caller : Caller) (cpu after : Cpu) (result : Int) (hholding : cpu.holding = false)
    (hends : Coop.Ends Silent (psig caller cpu) (.done result after)) :
    after.proc.issig = 0 ↔ ∀ signum < NUMSIG, cpu.proc.pending signum = true → cpu.proc.blocked signum = false →
      cpu.proc.takes signum = true := by
  obtain ⟨himage, hpending⟩ := psig_pending hholding hends
  rw [Proc.issig_eq_zero_iff]
  refine forall_congr' fun signum => forall_congr' fun hlt => ?_
  rw [hpending signum hlt, Proc.blocked_congr himage]
  cases cpu.proc.pending signum <;> cases cpu.proc.takes signum <;> cases cpu.proc.blocked signum <;> simp

-- The first process forks and its child raises SIGINT, which has its default action.
theorem psig_leaves_no_signal_sigint : ∃ machine, Machine.Reach (fun _ _ => True) machine ∧
    machine.runs 1 = true ∧ (machine.proc 1).issig = bit SIGINT ∧ ∃ result after,
      Coop.Ends Silent (psig .syscall (.user (machine.proc 1))) (.done result after) ∧ after.proc.issig = 0 := by
  obtain ⟨machine, hreach, hruns, hissig, htakes, result, after, hends⟩ : ∃ machine,
      Machine.Reach (fun _ _ => True) machine ∧ machine.runs 1 = true ∧ (machine.proc 1).issig = bit SIGINT ∧
        (∀ signum < NUMSIG, (machine.proc 1).pending signum = true → (machine.proc 1).blocked signum = false →
          (machine.proc 1).takes signum = true) ∧
        ∃ result after, Coop.Ends Silent (psig .syscall (.user (machine.proc 1))) (.done result after) :=
    exists_reach_boot (fun _ => 0)
      [.resume 0, .call 0 (.fork true true), .resume 1, .call 1 (.raise (fun _ => 0) SIGINT)]
      ⟨_, rfl, _, rfl, rfl, rfl, by decide, _, _,
        .pause _ _ _ _ _ ⟨.refl _, rfl, by simp⟩ (.pause _ _ _ _ _ ⟨.refl _, rfl, by simp⟩
          (.pause _ _ _ _ _ ⟨.refl _, rfl, by simp⟩ (.done _ _)))⟩
  exact ⟨machine, hreach, hruns, hissig, result, after, hends,
    (psig_leaves_no_signal_iff .syscall (.user (machine.proc 1)) after result rfl hends).mpr htakes⟩

-- Its child raises signal 5 instead.
theorem psig_leaves_signal : ∃ machine, Machine.Reach (fun _ _ => True) machine ∧
    machine.runs 1 = true ∧ (machine.proc 1).issig = bit 5 ∧ ∃ result after,
      Coop.Ends Silent (psig .syscall (.user (machine.proc 1))) (.done result after) ∧ after.proc.issig = bit 5 :=
  exists_reach_boot (fun _ => 0)
    [.resume 0, .call 0 (.fork true true), .resume 1, .call 1 (.raise (fun _ => 0) 5)]
    ⟨_, rfl, _, rfl, rfl, rfl, _, _, .pause _ _ _ _ _ ⟨.refl _, rfl, by simp⟩ (.done _ _), rfl⟩

end Xv6

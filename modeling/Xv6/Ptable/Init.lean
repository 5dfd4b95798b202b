import Xv6.Ptable.Pids

namespace Xv6

-- Nobody makes the system call `kill` with the pid of the first process.
def sparesInit : Act → Bool
  | .call _ (.kill pid) => pid ≠ 1
  | _ => true

namespace Machine

variable {machine next : Machine} {act : Act} {slot : Slot}

-- The first process is woken up and gets a parent, and nothing else happens to it.
theorem Inflicts.init {event : Event} (hevent : machine.Inflicts slot act event)
    (hgood : sparesInit act = true) (hpid : (machine.proc slot).pid = 1) :
    (∃ chan, event = .wakeup chan) ∨ ∃ parent, event = .reparent parent := by
  cases hevent.cause with
  | exit me hact hdeparts =>
    rcases hdeparts with hevent | hevent | ⟨hevent, -⟩
    · exact .inl ⟨_, hevent⟩
    · exact .inl ⟨_, hevent⟩
    · exact .inr ⟨_, hevent⟩
  | kill me pid hact _ hsame =>
    subst hact
    simp only [sparesInit, decide_eq_true_eq] at hgood
    exact absurd (hsame.symm.trans hpid) hgood
  | sends me stale pid sig hact hsends =>
    obtain ⟨found, ⟨hinit, -⟩, ⟨-, -, hsame⟩ | ⟨-, -, -, -, rfl⟩⟩ := hsends
    · exact absurd (hsame.symm.trans hpid) hinit
    · exact absurd hpid hinit
  | wakeup chan hact hchan hevent => exact .inl ⟨chan, hevent⟩

-- The process is not killed, has no pending signal and is not in psig, so it is not stopped.
structure Calm (machine : Machine) (slot : Slot) : Prop where
  killed : (machine.proc slot).killed = false
  sigpending : (machine.proc slot).sigpending = 0
  doing : ∀ point cpu proceed, machine.doing slot ≠ .psig point cpu proceed

theorem Calm.of_doing (hkilled : (next.proc slot).killed = false) (hsigpending : (next.proc slot).sigpending = 0)
    (hdoing : next.doing slot = .user ∨ next.doing slot = .wait ∨ next.doing slot = .sleep) : next.Calm slot := by
  refine ⟨hkilled, hsigpending, ?_⟩
  intro point cpu proceed hpsig
  rw [hpsig] at hdoing
  rcases hdoing with hdoing | hdoing | hdoing <;> cases hdoing

theorem Inflicts.calm {after : Proc} (hcalm : machine.Calm slot) (hgood : sparesInit act = true)
    (hpid : (machine.proc slot).pid = 1) (h : (machine.proc slot).UndergoesOnly (machine.Inflicts slot act) after) :
    after.killed = false ∧ after.sigpending = 0 := by
  refine h.invariant (fun proc => proc.killed = false ∧ proc.sigpending = 0) ?_ ⟨hcalm.killed, hcalm.sigpending⟩
  intro proc event hevent hproc
  rcases hevent.init hgood hpid with ⟨chan, rfl⟩ | ⟨parent, rfl⟩
  · simp only [Proc.env, Proc.wakeup]
    split <;> exact hproc
  · exact hproc

theorem step_calm (hpids : machine.Pids) (hgood : sparesInit act = true)
    (hcalm : (machine.proc slot).pid = 1 → machine.Calm slot) (hmoves : Moves machine act next slot)
    (hpid : (next.proc slot).pid = 1) : next.Calm slot := by
  have hnext := hpids.next
  cases hmoves with
  | events hproc hdoing =>
    have hbefore := ((Proc.standing_eq_iff _ _).mp hproc.undergoes.standing).2.1.symm.trans hpid
    obtain ⟨hkilled, hsigpending⟩ := Inflicts.calm (hcalm hbefore) hgood hbefore hproc
    exact ⟨hkilled, hsigpending, by rw [hdoing]; exact (hcalm hbefore).doing⟩
  | created parent hact hruns hunused hproc =>
    have hfresh : (next.proc slot).pid = machine.table.nextpid := by rw [hproc]; rfl
    omega
  | failed parent kalloc copyuvm hact hunused sigpending justwoken hproc =>
    have hfresh : (next.proc slot).pid = machine.table.nextpid := by rw [hproc]
    omega
  | freed parent hact hzombie hparent hproc =>
    have hzero : (next.proc slot).pid = 0 := by rw [hproc]; rfl
    omega
  | exited hact hruns middle hmiddle hproc hdoing =>
    rw [hproc] at hpid
    have hbefore := ((Proc.standing_eq_iff _ _).mp hmiddle.undergoes.standing).2.1.symm.trans hpid
    obtain ⟨hkilled, hsigpending⟩ := Inflicts.calm (hcalm hbefore) hgood hbefore hmiddle
    exact .of_doing (by rw [hproc]; exact hkilled) (by rw [hproc]; exact hsigpending)
      (.inl (hdoing.trans (doing_of_runs hruns)))
  | own hown =>
    obtain ⟨hsame, -, -, hkilled, hsigpending⟩ := hown.status
    have hbefore := hcalm (hsame.symm.trans hpid)
    exact .of_doing (hkilled.trans hbefore.killed) (hsigpending.trans hbefore.sigpending) hown.doing
  | psig start caller cpu computation hstart hkeeps hcpu hcalled hmeets hfixes hafter =>
    subst hafter
    have hbefore := ((Proc.standing_eq_iff _ _).mp (after_fixed hcpu hfixes).1).2.1.symm.trans hpid
    rcases hcalled with ⟨-, hissig⟩ | ⟨point, cpu, proceed, hdoing, -⟩
    · exact absurd (by simp [Proc.issig, (hcalm hbefore).sigpending]) hissig
    · exact absurd hdoing ((hcalm hbefore).doing point cpu proceed)

end Machine

theorem init_not_signalled (machine : Machine) (slot : Slot)
    (hreach : Machine.Reach (fun _ act => sparesInit act = true) machine) (hpid : (machine.proc slot).pid = 1) :
    (machine.proc slot).killed = false ∧ (machine.proc slot).sigpending = 0 ∧
      ∀ point cpu proceed, machine.doing slot ≠ .psig point cpu proceed := by
  have hinvariant := hreach.entries (fun machine => machine.Pids ∧
      ∀ slot, (machine.proc slot).pid = 1 → machine.Calm slot) ?_ ?_
  · obtain ⟨hkilled, hsigpending, hdoing⟩ := hinvariant.2 slot hpid
    exact ⟨hkilled, hsigpending, hdoing⟩
  · intro memory machine hboot
    refine ⟨Machine.boot_pids hboot, ?_⟩
    intro slot _
    obtain ⟨hproc, -, -, hdoing, -⟩ := Machine.boot_eq hboot
    refine .of_doing ?_ ?_ (.inl (hdoing slot))
    · rw [hproc]
      split <;> rfl
    · rw [hproc]
      split <;> rfl
  · rintro machine act next - ⟨hpids, hcalm⟩ hgood hstep hmoves
    refine ⟨Machine.step_pids hpids hstep fun slot => (hmoves slot).seats, ?_⟩
    intro slot hpid
    exact Machine.step_calm hpids hgood (hcalm slot) (hmoves slot) hpid

-- Another process sends SIGSTOP to everybody and SIGKILL to itself.
theorem init_not_signalled_broadcast : ∃ machine, Machine.Reach (fun _ act => sparesInit act = true) machine ∧
    (machine.proc 0).pid = 1 ∧ (machine.proc 0).killed = false ∧ (machine.proc 0).sigpending = 0 := by
  obtain ⟨machine, hreach, hpid⟩ : ∃ machine, Machine.Reach (fun _ act => sparesInit act = true) machine ∧
      (machine.proc 0).pid = 1 :=
    exists_reach_boot (fun _ => 0)
      [.resume 0, .call 0 (.fork true true), .resume 1, .call 1 (.Kill (fun _ => 0) (-1) SIGSTOP),
        .call 1 (.raise (fun _ => 0) SIGKILL)]
      ⟨_, rfl, _, rfl, rfl⟩
  obtain ⟨hkilled, hsigpending, -⟩ := init_not_signalled machine 0 hreach hpid
  exact ⟨machine, hreach, hpid, hkilled, hsigpending⟩

-- The child of the first process kills it; when it exits, the kernel panics.
theorem init_killed : ∃ machine, Machine.Reach (fun _ _ => True) machine ∧ (machine.proc 0).pid = 1 ∧
    (machine.proc 0).killed = true ∧ machine.table.exit 0 = none :=
  exists_reach_boot (fun _ => 0) [.resume 0, .call 0 (.fork true true), .resume 1, .call 1 (.kill 1)]
    ⟨_, rfl, _, rfl, rfl, rfl, rfl⟩

end Xv6

import Xv6.Ptable.Pids

namespace Xv6

theorem Proc.killed_env (proc : Proc) {event : Event} (hkill : event ≠ .kill) (hsigkill : event ≠ .Kill SIGKILL) :
    (proc.env event).killed = proc.killed := by
  cases event with
  | Kill signum =>
    have hne : signum ≠ SIGKILL := fun heq => hsigkill (heq ▸ rfl)
    simp only [env, signalled, if_neg hne, receive]
    split_ifs <;> first | rfl | exact proc.killed_cont
  | kill => exact absurd rfl hkill
  | wakeup chan => exact proc.killed_wakeup chan
  | reparent parent | tick | console waiting => rfl

-- Neither `kill` nor `Kill` with SIGKILL comes to an entry that is free.
def sparesFree (machine : Machine) : Act → Bool
  | .call _ (.kill pid) =>
    Ptable.slots.all fun slot => (machine.proc slot).pid ≠ pid ∨ (machine.proc slot).state ≠ .UNUSED
  | .call me (.Kill stale pid sig) =>
    sig ≠ SIGKILL ∨ Ptable.slots.all fun slot =>
      ¬machine.table.Reaches stale me pid slot ∨ (machine.proc slot).state ≠ .UNUSED
  | _ => true

namespace Machine

variable {machine next : Machine} {act : Act} {slot : Slot}

-- Two entries with one pid are the same, or both are free.
theorem Pids.unused_of_pid (hpids : machine.Pids) {found : Slot}
    (hpid : (machine.proc slot).pid = (machine.proc found).pid) (hunused : (machine.proc slot).state = .UNUSED) :
    (machine.proc found).state = .UNUSED := by
  by_cases hzero : (machine.proc slot).pid = 0
  · by_contra hused
    exact hpids.used found hused (hpid.symm.trans hzero)
  · rwa [← hpids.distinct slot found hpid hzero]

theorem not_inflicts_kill (hpids : machine.Pids) (hgood : sparesFree machine act = true)
    (h : machine.step act = some next) (hunused : (machine.proc slot).state = .UNUSED) :
    ¬machine.Inflicts slot act .kill := by
  intro hkill
  cases hkill.cause with
  | exit me hact hdeparts => rcases hdeparts with hevent | hevent | ⟨hevent, -⟩ <;> cases hevent
  | kill me pid hact hevent hpid =>
    subst hact
    simp only [sparesFree, List.all_eq_true, decide_eq_true_eq] at hgood
    rcases hgood slot (List.mem_finRange slot) with hne | hused
    · exact hne hpid
    · exact hused hunused
  | sends me stale pid sig hact hsends =>
    obtain ⟨found, hreaches, ⟨hsig, -, hpid⟩ | ⟨-, -, -, hevent, -⟩⟩ := hsends
    · rcases hact with rfl | ⟨rfl, rfl⟩
      · simp only [sparesFree, List.all_eq_true, decide_eq_true_eq, hsig, ne_eq, not_true_eq_false, false_or] at hgood
        rcases hgood found (List.mem_finRange found) with hnot | hused
        · exact hnot hreaches
        · exact hused (hpids.unused_of_pid hpid hunused)
      · -- The sender is in use, and no other entry has its pid.
        have hlive := live_of_runs (runs_of_call h)
        have hbound := (hpids.bound me).1
        have hsame : (machine.proc me).pid = (machine.proc slot).pid := by
          rcases hreaches.2.1 with hall | ⟨-, hfound⟩
          · omega
          · exact hfound.symm.trans hpid.symm
        obtain rfl := hpids.distinct me slot hsame (hpids.used me hlive.not_unused)
        exact hlive.not_unused hunused
    · cases hevent
  | wakeup chan hact hchan hevent => cases hevent

-- A free entry is not marked as killed.
def Unkilled (machine : Machine) : Prop :=
  ∀ slot, (machine.proc slot).state = .UNUSED → (machine.proc slot).killed = false

theorem Inflicts.ne_sigkill (h : machine.Inflicts slot act (.Kill SIGKILL)) : False := by
  cases h.cause with
  | exit me hact hdeparts => rcases hdeparts with hevent | hevent | ⟨hevent, -⟩ <;> cases hevent
  | kill me pid hact hevent => cases hevent
  | sends me stale pid sig hact hsends =>
    obtain ⟨found, -, ⟨-, hevent, -⟩ | ⟨hsig, hpos, -, hevent, -⟩⟩ := hsends
    · cases hevent
    · have heq : SIGKILL = sig.toNat := by injection hevent
      omega
  | wakeup chan hact hchan hevent => cases hevent

theorem step_unkilled (hpids : machine.Pids) (hunkilled : machine.Unkilled) (hgood : sparesFree machine act = true)
    (h : machine.step act = some next) (hmoves : ∀ slot, Moves machine act next slot) : next.Unkilled := by
  intro slot hunused
  -- A process that is alive before its own step is in use after it.
  have hlive : (next.proc slot).Live → (next.proc slot).killed = false :=
    fun hlive => absurd hunused hlive.not_unused
  cases hmoves slot with
  | events hproc =>
    have hbefore := hproc.undergoes.unused_iff.mp hunused
    refine hproc.invariant (fun proc => proc.killed = false) ?_ (hunkilled slot hbefore)
    intro proc event hevent hkilled
    refine (proc.killed_env ?_ ?_).trans hkilled
    · rintro rfl
      exact not_inflicts_kill hpids hgood h hbefore hevent
    · rintro rfl
      exact hevent.ne_sigkill
  | created parent hact hruns hfirst hproc => exact hlive (by simp [hproc, Proc.Live, Proc.setState])
  | failed parent kalloc copyuvm hact hfirst sigpending justwoken hproc =>
    rw [hproc]
    exact hunkilled slot (Ptable.unused_state hfirst)
  | freed parent hact hzombie hparent hproc => rw [hproc]; rfl
  | exited hact hruns middle hmiddle hproc => simp [hproc, Proc.setState] at hunused
  | own hown => exact hlive hown.live_next
  | psig start caller cpu computation hstart hkeeps hcpu hcalled hmeets hfixes hnext =>
    subst hnext
    refine hlive ?_
    rw [proc_after_self]
    exact (after_keeps hstart hmeets).1

theorem Reach.unkilled (h : Reach (fun machine act => sparesFree machine act = true) machine) : machine.Unkilled := by
  refine (h.entries (fun machine => machine.Pids ∧ machine.Unkilled) ?_ ?_).2
  · intro memory machine hboot
    refine ⟨boot_pids hboot, ?_⟩
    intro slot _
    rw [(boot_eq hboot).1]
    split <;> rfl
  · rintro machine act next - ⟨hpids, hunkilled⟩ hgood hstep hmoves
    exact ⟨step_pids hpids hstep fun slot => (hmoves slot).seats, step_unkilled hpids hunkilled hgood hstep hmoves⟩

end Machine

-- What `fork` has just created has no pending signal, and nobody has killed it yet.
theorem fork_starts_clean (machine next : Machine) (me np : Slot) (kalloc copyuvm : Bool)
    (hreach : Machine.Reach (fun machine act => sparesFree machine act = true) machine)
    (hstep : machine.step (.call me (.fork kalloc copyuvm)) = some next)
    (hchild : machine.table.child kalloc copyuvm = some np) :
    (next.proc np).killed = false ∧ (next.proc np).sigpending = 0 := by
  obtain ⟨rfl, rfl, hunused⟩ := Ptable.child_eq_some hchild
  have hkilled := hreach.unkilled np (Ptable.unused_state hunused)
  simp only [Machine.step, Option.ite_none_right_eq_some, Machine.syscall, Option.some.injEq] at hstep
  obtain ⟨hruns, rfl⟩ := hstep
  cases machine.table.fork_forks (Machine.live_of_runs hruns) true true np with
  | child _ hproc =>
    simp only [Machine.proc, hproc]
    exact ⟨hkilled, rfl⟩
  | failed hnone => exact absurd (hnone.symm.trans hchild) (by simp)
  | other hother => exact absurd hchild hother

set_option maxRecDepth 2000 in
-- The entry was left behind by a `fork` that failed, and another child is killed.
theorem fork_starts_clean_recycled : ∃ machine next,
    Machine.Reach (fun machine act => sparesFree machine act = true) machine ∧
      machine.step (.call 0 (.fork true true)) = some next ∧ machine.table.child true true = some 3 ∧
      (next.proc 2).killed = true ∧ (next.proc 3).killed = false ∧ (next.proc 3).sigpending = 0 := by
  obtain ⟨machine, hreach, ⟨next, hstep, hkilled⟩, hchild⟩ : ∃ machine,
      Machine.Reach (fun machine act => sparesFree machine act = true) machine ∧
        (∃ next, machine.step (.call 0 (.fork true true)) = some next ∧ (next.proc 2).killed = true) ∧
        machine.table.child true true = some 3 :=
    exists_reach_boot (fun _ => 0) Machine.recycle ⟨_, rfl, _, rfl, ⟨_, rfl, rfl⟩, rfl⟩
  exact ⟨machine, next, hreach, hstep, hchild, hkilled,
    fork_starts_clean machine next 0 3 true true hreach hstep hchild⟩

-- The child is killed when it starts: `kill(0)` has come to a free entry, or a `kill` with the
-- pid that a `fork` has left behind when it failed.
theorem fork_starts_killed :
    (∃ machine, Machine.Reach (fun _ _ => True) machine ∧ (machine.proc 1).pid = 0 ∧ ∃ next,
      machine.step (.call 0 (.fork true true)) = some next ∧ machine.table.child true true = some 1 ∧
        (next.proc 1).killed = true) ∧
    ∃ machine, Machine.Reach (fun _ _ => True) machine ∧ (machine.proc 1).pid = 2 ∧ ∃ next,
      machine.step (.call 0 (.fork true true)) = some next ∧ machine.table.child true true = some 1 ∧
        (next.proc 1).killed = true := by
  constructor
  · exact exists_reach_boot (fun _ => 0) [.resume 0, .call 0 (.kill 0)] ⟨_, rfl, _, rfl, rfl, _, rfl, rfl, rfl⟩
  · exact exists_reach_boot (fun _ => 0) [.resume 0, .call 0 (.fork false true), .call 0 (.kill 2)]
      ⟨_, rfl, _, rfl, rfl, _, rfl, rfl, rfl⟩

end Xv6

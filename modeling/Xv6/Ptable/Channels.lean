import Xv6.Ptable.Pids

namespace Xv6

-- The process is in `stop`, called by psig, and has not been woken up.
def Machine.Stopped (machine : Machine) (slot : Slot) : Prop :=
  (machine.proc slot).state = .SLEEPING ∧
    ∃ signum cpu proceed, machine.doing slot = .psig (.sched (.stop signum)) cpu proceed

-- Somebody calls `Kill` with SIGCONT or SIGKILL or `kill`, and means this process.
inductive Act.Continues (pid : Int) : Act → Prop
  | kill (me : Slot) : Continues pid (.call me (.kill pid))
  | Kill (me : Slot) (stale : Slot → BitVec 16) (target sig : Int) (htarget : target = -1 ∨ target = pid)
      (hsig : sig = SIGCONT ∨ sig = SIGKILL) : Continues pid (.call me (.Kill stale target sig))

theorem Chan.ofProc_ne_null {parent : Option Slot} (h : parent ≠ none) : Chan.ofProc parent ≠ .null := by
  cases parent with
  | none => exact absurd rfl h
  | some slot => simp [ofProc]

theorem Proc.state_signalled (proc : Proc) {signum : Nat} (hcont : signum ≠ SIGCONT) (hkill : signum ≠ SIGKILL) :
    (proc.signalled signum).state = proc.state := by
  simp only [signalled, receive, if_neg hcont, if_neg hkill]
  split_ifs <;> rfl

theorem Proc.Undergoes.sleeping {before after : Proc} (h : before.Undergoes after)
    (hbefore : before.state = .SLEEPING) : after.state = .SLEEPING ∨ after.state = .RUNNABLE := by
  induction h with
  | refl => exact .inl hbefore
  | @tail middle _ _ hstep ih =>
    obtain ⟨event, rfl⟩ := hstep
    rcases middle.state_env event with hsame | ⟨-, hrunnable⟩
    · rwa [hsame]
    · exact .inr hrunnable

namespace Machine

variable {machine next : Machine} {act : Act} {slot : Slot}

-- A process that is not asleep in a system call waits for nothing.
def Chans (machine : Machine) : Prop :=
  ∀ slot, (machine.proc slot).chan = .null ∨ machine.doing slot = .wait ∨ machine.doing slot = .sleep

theorem Chans.null (h : machine.Chans) (hwait : machine.doing slot ≠ .wait) (hsleep : machine.doing slot ≠ .sleep) :
    (machine.proc slot).chan = .null :=
  (h slot).resolve_right fun hdoing => hdoing.elim hwait hsleep

theorem step_chans (hchans : machine.Chans) (hmoves : ∀ slot, Moves machine act next slot) : next.Chans := by
  intro slot
  have huser : machine.doing slot = .user → (machine.proc slot).chan = .null :=
    fun hdoing => hchans.null (by simp [hdoing]) (by simp [hdoing])
  have hsame : (next.proc slot).chan = (machine.proc slot).chan → next.doing slot = machine.doing slot →
      (next.proc slot).chan = .null ∨ next.doing slot = .wait ∨ next.doing slot = .sleep := by
    intro hchan hdoing
    rw [hchan, hdoing]
    exact hchans slot
  cases hmoves slot with
  | events hproc hdoing => exact hsame ((Proc.standing_eq_iff _ _).mp hproc.undergoes.standing).2.2 hdoing
  | created parent hact hruns hunused hproc hdoing
  | freed parent hact hzombie hparent hproc hdoing => exact hsame (by rw [hproc]; rfl) hdoing
  | failed parent kalloc copyuvm hact hunused sigpending justwoken hproc hdoing =>
    exact hsame (by rw [hproc]) hdoing
  | exited hact hruns middle hmiddle hproc hdoing =>
    refine hsame ?_ hdoing
    rw [hproc]
    exact ((Proc.standing_eq_iff _ _).mp hmiddle.undergoes.standing).2.2
  | own hown =>
    cases hown with
    | called syscall hact hruns hproc =>
      rw [syscall.own_withImage] at hproc
      exact .inl (by rw [hproc]; exact huser (doing_of_runs hruns))
    | ran user hact hruns hproc => exact .inl (by rw [hproc]; exact huser (doing_of_runs hruns))
    | placed state hstate hlive hbefore hproc => exact .inl (by rw [hproc]; exact huser hbefore)
    | awoken hstate hproc => exact .inl (by rw [hproc])
    | asleep chan hchan hlive hproc hdoing => exact .inr hdoing
  | psig start caller cpu computation hstart hkeeps hcpu hcalled hmeets hfixes hnext =>
    subst hnext
    have hchan := ((Proc.standing_eq_iff _ _).mp (after_fixed hcpu hfixes).1).2.2
    refine .inl (hchan.trans ?_)
    rcases hcalled with ⟨hruns, -⟩ | ⟨point, cpu, proceed, hdoing, -⟩
    · exact huser (doing_of_runs hruns)
    · exact hchans.null (by simp [hdoing]) (by simp [hdoing])

variable {good : Machine → Act → Prop}

theorem Reach.chans (h : Reach good machine) : machine.Chans := by
  refine h.entries Chans ?_ (fun _ _ _ _ hchans _ _ hmoves => step_chans hchans hmoves)
  intro memory machine hboot slot
  left
  rw [(boot_eq hboot).1]
  split <;> rfl

-- There is a first process, and all others in use have a parent.
structure Parents (machine : Machine) : Prop where
  init : machine.table.initproc ≠ none
  parent : ∀ slot, (machine.proc slot).state ≠ .UNUSED → machine.table.initproc ≠ some slot →
    (machine.proc slot).parent ≠ none

theorem step_initproc (h : machine.step act = some next) : next.table.initproc = machine.table.initproc := by
  rcases step_globals h with hsame | ⟨_, _, _, -, hinit, -⟩
  · exact congrArg Prod.snd hsame
  · exact hinit

-- What happens to an entry does not take its parent away.
theorem Inflicts.parent (hparents : machine.Parents) {after : Proc}
    (h : (machine.proc slot).UndergoesOnly (machine.Inflicts slot act) after)
    (hbefore : (machine.proc slot).parent ≠ none) : after.parent ≠ none := by
  have hsame : ∀ (proc : Proc) event, (∀ parent, event ≠ .reparent parent) → (proc.env event).parent = proc.parent := by
    intro proc event hevent
    cases event with
    | Kill signum =>
      simp only [Proc.env, Proc.signalled, Proc.receive, Proc.cont, Proc.kill]
      split_ifs <;> rfl
    | kill => rfl
    | wakeup chan =>
      simp only [Proc.env, Proc.wakeup]
      split <;> rfl
    | reparent parent => exact absurd rfl (hevent parent)
    | tick | console waiting => rfl
  refine h.invariant (fun proc => proc.parent ≠ none) ?_ hbefore
  intro proc event hevent hproc
  by_cases hreparent : ∃ parent, event = .reparent parent
  · obtain ⟨parent, rfl⟩ := hreparent
    cases hevent.cause with
    | exit me hact hdeparts =>
      rcases hdeparts with hevent | hevent | ⟨hevent, -⟩
      · cases hevent
      · cases hevent
      · injection hevent with heq
        rw [heq]
        exact hparents.init
    | kill me pid hact hevent => cases hevent
    | sends me stale pid sig hact hsends =>
      obtain ⟨found, -, ⟨-, hevent, -⟩ | ⟨-, -, -, hevent, -⟩⟩ := hsends <;> cases hevent
    | wakeup chan hact hchan hevent => cases hevent
  · rw [hsame proc event fun parent heq => hreparent ⟨parent, heq⟩]
    exact hproc

theorem step_parents (hparents : machine.Parents) (h : machine.step act = some next)
    (hmoves : ∀ slot, Moves machine act next slot) : next.Parents := by
  have hinit := step_initproc h
  refine ⟨hinit ▸ hparents.init, ?_⟩
  intro slot hused hnot
  rw [hinit] at hnot
  have hlive : (machine.proc slot).Live → (machine.proc slot).parent ≠ none :=
    fun hlive => hparents.parent slot hlive.not_unused hnot
  cases hmoves slot with
  | events hproc =>
    have hbefore : (machine.proc slot).state ≠ .UNUSED :=
      fun hunused => hused (hproc.undergoes.unused_iff.mpr hunused)
    exact Inflicts.parent hparents hproc (hparents.parent slot hbefore hnot)
  | created parent hact hruns hunused hproc => simp [hproc, Proc.setState, Proc.copyFrom]
  | failed parent kalloc copyuvm hact hunused sigpending justwoken hproc => simp [hproc] at hused
  | freed parent hact hzombie hparent hproc => simp [hproc, Proc.freed] at hused
  | exited hact hruns middle hmiddle hproc =>
    have hmiddle := Inflicts.parent hparents hmiddle (hlive (live_of_runs hruns))
    rw [hproc]
    exact hmiddle
  | own hown =>
    rw [hown.status.2.2.1]
    exact hlive hown.live
  | psig start caller cpu computation hstart hkeeps hcpu hcalled hmeets hfixes hnext =>
    subst hnext
    rw [(after_fixed hcpu hfixes).2.1]
    exact hlive (hkeeps.live hstart)

theorem Reach.parents (h : Reach good machine) : machine.Parents := by
  refine h.entries Parents ?_ (fun _ _ _ _ hparents _ hstep hmoves => step_parents hparents hstep hmoves)
  intro memory machine hboot
  obtain ⟨hproc, -, hinit, -⟩ := boot_eq hboot
  refine ⟨by simp [hinit], ?_⟩
  intro slot hused hnot
  rw [hinit] at hnot
  rw [hproc, if_neg fun heq => hnot (by rw [heq])] at hused
  exact absurd rfl hused

-- An event that does not come from one of these calls leaves a process asleep that waits
-- for nothing.
theorem Inflicts.sleeping {event : Event} {proc : Proc} (hparents : machine.Parents) (hpids : machine.Pids)
    (h : machine.step act = some next) (hasleep : (machine.proc slot).state = .SLEEPING)
    (hnot : ¬act.Continues (machine.proc slot).pid) (hevent : machine.Inflicts slot act event)
    (hproc : proc.state = .SLEEPING ∧ proc.chan = .null) :
    (proc.env event).state = .SLEEPING ∧ (proc.env event).chan = .null := by
  refine ⟨?_, ((Proc.standing_eq_iff _ _).mp (proc.standing_env event)).2.2.trans hproc.2⟩
  have hwakeup : ∀ chan, chan ≠ .null → (proc.wakeup chan).state = .SLEEPING := by
    intro chan hchan
    rw [Proc.wakeup, if_neg fun heq => hchan (heq.2.symm.trans hproc.2)]
    exact hproc.1
  cases hevent.cause with
  | exit me hact hdeparts =>
    subst hact
    have hruns := runs_of_call h
    simp only [step, Option.ite_none_right_eq_some, Machine.syscall, Option.map_eq_some_iff] at h
    obtain ⟨-, table, hexit, -⟩ := h
    have hinit : machine.table.initproc ≠ some me := by
      intro hinit
      simp [Ptable.exit, hinit] at hexit
    have hparent := hparents.parent me (live_of_runs hruns).not_unused hinit
    rcases hdeparts with rfl | rfl | ⟨rfl, -⟩
    · exact hwakeup _ (Chan.ofProc_ne_null hparent)
    · exact hwakeup _ (Chan.ofProc_ne_null hparents.init)
    · exact hproc.1
  | kill me pid hact _ hpid =>
    subst hact hpid
    exact absurd (.kill me) hnot
  | sends me stale target sig hact hsends =>
    -- The signal is for the process, and it is not one that continues it.
    have hother : ¬((target = -1 ∨ target = (machine.proc slot).pid) ∧ (sig = SIGCONT ∨ sig = SIGKILL)) := by
      rintro ⟨htarget, hsig⟩
      rcases hact with rfl | ⟨rfl, rfl⟩
      · exact hnot (.Kill me stale target sig htarget hsig)
      · -- The sender has another pid: it runs.
        have hruns := runs_of_call h
        rcases htarget with hall | hsame
        · have hbound := (hpids.bound me).1
          omega
        · have hme := hpids.distinct me slot hsame (hpids.used me (live_of_runs hruns).not_unused)
          rw [← hme, ((machine.runs_iff me).mp hruns).1] at hasleep
          cases hasleep
    obtain ⟨found, hreaches, ⟨rfl, rfl, hpid⟩ | ⟨hkill, hpos, -, rfl, rfl⟩⟩ := hsends
    · refine absurd ⟨?_, .inr rfl⟩ hother
      exact hreaches.2.1.imp_right fun hfound => (hfound.2.symm.trans hpid.symm)
    · have hcont : sig ≠ SIGCONT := by
        intro hcont
        exact hother ⟨hreaches.2.1.imp_right fun hfound => hfound.2.symm, .inl hcont⟩
      exact (proc.state_signalled (by omega) (by omega)).trans hproc.1
  | wakeup chan hact hchan hevent =>
    subst hevent
    exact hwakeup chan hchan

end Machine

-- A stopped process waits for nothing, and a step of another process either leaves it stopped
-- or makes it RUNNABLE by one of these calls.
theorem stopped_continues (machine : Machine) (slot : Slot) (hreach : Machine.Reach (fun _ _ => True) machine)
    (hstopped : machine.Stopped slot) :
    (machine.proc slot).chan = .null ∧ ∀ act next, machine.step act = some next →
      (next.proc slot).state = .SLEEPING ∨
        ((next.proc slot).state = .RUNNABLE ∧ act.Continues (machine.proc slot).pid) := by
  obtain ⟨hasleep, signum, cpu, proceed, hdoing⟩ := hstopped
  have hchan : (machine.proc slot).chan = .null := hreach.chans.null (by simp [hdoing]) (by simp [hdoing])
  refine ⟨hchan, ?_⟩
  intro act next hstep
  have hnotruns : machine.runs slot ≠ true := by
    intro hruns
    rw [((machine.runs_iff slot).mp hruns).1] at hasleep
    cases hasleep
  cases Machine.step_moves hreach.ok hstep slot with
  | events hproc =>
    by_cases hcontinues : act.Continues (machine.proc slot).pid
    · exact (hproc.undergoes.sleeping hasleep).imp_right fun hrunnable => ⟨hrunnable, hcontinues⟩
    · refine .inl (hproc.invariant (fun proc => proc.state = .SLEEPING ∧ proc.chan = .null) ?_ ⟨hasleep, hchan⟩).1
      intro proc event hevent
      exact hevent.sleeping hreach.parents hreach.pids hstep hasleep hcontinues
  | created parent hact hruns hunused | failed parent kalloc copyuvm hact hunused =>
    exact absurd (hasleep.symm.trans (Ptable.unused_state hunused)) (by simp)
  | freed parent hact hzombie => exact absurd (hasleep.symm.trans hzombie) (by simp)
  | exited hact hruns => exact absurd hruns hnotruns
  | own hown =>
    cases hown with
    | called syscall hact hruns | ran user hact hruns => exact absurd hruns hnotruns
    | placed state hstate hlive hbefore => exact absurd (hdoing.symm.trans hbefore) (by simp)
    | awoken hstate => exact absurd (hasleep.symm.trans hstate) (by simp)
    | asleep chan hchan hlive hproc => exact .inl (by rw [hproc])
  | psig start caller cpu computation hstart hkeeps hcpu hcalled =>
    rcases hcalled with ⟨hruns, -⟩ | ⟨point, other, rest, hpsig, hready⟩
    · exact absurd hruns hnotruns
    · cases hdoing.symm.trans hpsig
      simp [kernel, hasleep] at hready

theorem stopped_continues_sigstop : ∃ machine, Machine.Reach (fun _ _ => True) machine ∧ machine.Stopped 1 ∧
    (machine.proc 1).chan = .null ∧ ∃ next, machine.step (.call 0 (.Kill (fun _ => 0) 2 SIGCONT)) = some next ∧
      (next.proc 1).state = .RUNNABLE := by
  obtain ⟨machine, hreach, hstopped, next, hstep, hstate⟩ : ∃ machine, Machine.Reach (fun _ _ => True) machine ∧
      machine.Stopped 1 ∧ ∃ next, machine.step (.call 0 (.Kill (fun _ => 0) 2 SIGCONT)) = some next ∧
        (next.proc 1).state = .RUNNABLE :=
    exists_reach_boot (fun _ => 0)
      [.resume 0, .call 0 (.fork true true), .call 0 (.Kill (fun _ => 0) 2 SIGSTOP), .resume 1, .psig 1 .syscall,
        .resume 1]
      ⟨_, rfl, _, rfl, ⟨rfl, SIGSTOP, _, _, rfl⟩, _, rfl, rfl⟩
  exact ⟨machine, hreach, hstopped, (stopped_continues machine 1 hreach hstopped).1, next, hstep, hstate⟩

end Xv6

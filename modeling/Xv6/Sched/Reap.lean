import Xv6.Sched.Current

namespace Xv6.Smp

variable {Cpu : Type} {smp next : Smp Cpu} {cpu : Cpu} {me slot : Slot} {rest : List Slot}

-- The process sleeps in wait, or is just about to be switched away from there.
def Awaits (smp : Smp Cpu) (slot : Slot) : Prop :=
  (smp.proc slot).state = .SLEEPING ∧
    ((smp.thread slot).phase = .leaving .wait ∨ (smp.thread slot).phase = .away .wait)

-- It has slept in wait before this step, or it has just seen that none of its children has exited.
def StillAwaits (smp next : Smp Cpu) (slot : Slot) : Prop :=
  next.Awaits slot →
    (smp.Awaits slot ∧ (next.proc slot).chan = (smp.proc slot).chan) ∨
      ((next.proc slot).chan = .proc slot ∧
        ∀ child, (next.proc child).parent = some slot → (next.proc child).state ≠ .ZOMBIE)

theorem stillAwaits_of_rouses (hproc : (smp.proc slot).Rouses (next.proc slot))
    (hphase : (next.thread slot).phase = (smp.thread slot).phase) : StillAwaits smp next slot := by
  rintro ⟨hsleeping, hwait⟩
  obtain ⟨-, hchan, hsame | ⟨-, hrunnable⟩⟩ := hproc
  · exact .inl ⟨⟨hsame ▸ hsleeping, hphase ▸ hwait⟩, hchan⟩
  · rw [hsleeping] at hrunnable
    cases hrunnable

theorem stillAwaits_of_state (hstate : (next.proc slot).state ≠ .SLEEPING) : StillAwaits smp next slot :=
  fun hawaits => absurd hawaits.1 hstate

theorem stillAwaits_of_phase (hleaving : (next.thread slot).phase ≠ .leaving .wait)
    (haway : (next.thread slot).phase ≠ .away .wait) : StillAwaits smp next slot := by
  rintro ⟨-, hphase | hphase⟩
  · exact absurd hphase hleaving
  · exact absurd hphase haway

theorem Acts.awaits (hacts : Acts smp rest me next) (slot : Slot) : StillAwaits smp next slot := by
  have hothers : ∀ (table : Ptable) (phase : Phase), phase ≠ .leaving .wait → phase ≠ .away .wait →
      (∀ other ≠ me, (smp.proc other).Rouses (table.proc other)) →
      StillAwaits smp ({ smp with table }.setPhase me phase) slot := by
    intro table phase hleaving haway hproc
    by_cases hslot : slot = me
    · subst hslot
      exact stillAwaits_of_phase (by rwa [thread_setPhase_self]) (by rwa [thread_setPhase_self])
    · exact stillAwaits_of_rouses (hproc slot hslot) (by rw [thread_setPhase_of_ne _ _ _ _ hslot])
  cases hacts with
  | owns table phase hbusy hwait hfits hproc =>
    refine hothers table phase hwait ?_ hproc
    rintro rfl
    generalize (table.proc me).state = state at hfits
    cases hfits
  | takes np hunused =>
    by_cases hslot : slot = me
    · subst hslot
      exact stillAwaits_of_phase (by simp) (by simp)
    · by_cases hnp : slot = np
      · subst hnp
        have hembryo : ((smp.table.take slot).proc slot).state = .EMBRYO := by rw [Ptable.proc_take_self]
        exact stillAwaits_of_state (hembryo.trans_ne (by simp))
      · exact stillAwaits_of_rouses (.of_eq (smp.table.proc_take_of_ne hnp))
          (by rw [thread_setThread_of_ne _ _ _ _ hslot])
  | starts np hplace =>
    by_cases hslot : slot = me
    · subst hslot
      exact stillAwaits_of_phase (by simp) (by simp)
    · by_cases hnp : slot = np
      · subst hnp
        exact stillAwaits_of_state (by simp [Proc.setState])
      · refine stillAwaits_of_rouses (.of_eq ?_) ?_
        · rw [proc_setThread, proc_setThread, proc_update_of_ne _ _ _ _ hnp]
        · rw [thread_setThread_of_ne _ _ _ _ hslot, thread_setThread_of_ne _ _ _ _ hnp]
          rfl
  | exits table hexits => exact hothers table _ (by simp) (by simp) hexits.rouses
  | reaps child hphase hparent hzombie =>
    by_cases hchild : slot = child
    · subst hchild
      have hunused : ((smp.table.update slot Proc.freed).proc slot).state = .UNUSED := by
        rw [Ptable.proc_update_self]
        rfl
      exact stillAwaits_of_state (hunused.trans_ne (by simp))
    · by_cases hslot : slot = me
      · subst hslot
        exact stillAwaits_of_phase (by simp) (by simp)
      · exact stillAwaits_of_rouses (.of_eq (smp.table.proc_update_of_ne Proc.freed hchild))
          (by rw [thread_setPhase_of_ne _ _ _ _ hslot])
  | waits hchildren =>
    by_cases hslot : slot = me
    · subst hslot
      have hme : (smp.update slot fun proc => { proc with chan := .proc slot, state := .SLEEPING }).proc slot =
          { smp.proc slot with chan := .proc slot, state := .SLEEPING } := proc_update_self _ _ _
      refine fun _ => .inr ⟨congrArg Proc.chan hme, fun child => ?_⟩
      by_cases hchild : child = slot
      · subst hchild
        exact fun _ => (congrArg Proc.state hme).trans_ne (by simp)
      · rw [proc_setPhase, proc_update_of_ne _ _ _ _ hchild]
        exact hchildren child
    · refine stillAwaits_of_rouses (.of_eq ?_) ?_
      · rw [proc_setPhase, proc_update_of_ne _ _ _ _ hslot]
      · rw [thread_setPhase_of_ne _ _ _ _ hslot]
        rfl

-- A child that exits wakes its parent up, or the first process if that inherits it.
theorem Effect.not_zombie (h : Effect smp cpu next) (htree : Tree smp) (hsleeping : (next.proc slot).state = .SLEEPING)
    (hchan : (smp.proc slot).chan = .proc slot)
    (hchildren : ∀ child, (smp.proc child).parent = some slot → (smp.proc child).state ≠ .ZOMBIE) (child : Slot)
    (hparent : (next.proc child).parent = some slot) : (next.proc child).state ≠ .ZOMBIE := by
  intro hzombie
  cases h with
  | reaps me found hreaps =>
    by_cases hchild : child = found
    · rw [hchild, hreaps.proc_child] at hzombie
      cases hzombie
    · rw [hreaps.proc_of_ne hchild] at hparent hzombie
      exact hchildren child hparent hzombie
  | grows hgrows =>
    rcases hgrows.changes htree.creates with ⟨me, hrunning, hexits⟩ | ⟨-, hchanges⟩
    · have hslot : slot ≠ me := by
        rintro rfl
        rw [proc, hexits.self] at hsleeping
        cases hsleeping
      rw [proc, hexits.parent] at hparent
      by_cases hchild : child = me
      · subst hchild
        rw [if_neg (by exact htree.self child)] at hparent
        exact hexits.woken slot hslot hsleeping (by rw [hparent]; exact hchan)
      · have hbefore : (smp.proc child).state = .ZOMBIE := by
          obtain ⟨-, -, hsame | ⟨-, hrunnable⟩⟩ := hexits.rouses child hchild
          · exact hsame ▸ hzombie
          · cases hzombie.symm.trans hrunnable
        split at hparent
        · rename_i hme
          exact hexits.inherits slot hslot hsleeping (by rw [hparent]; exact hchan) child hme hbefore
        · exact hchildren child hparent hbefore
    · cases hchanges child with
      | agrees hagrees =>
        rw [hagrees.2.1] at hparent
        rcases hagrees.2.2 with hsame | ⟨-, hlive⟩
        · exact hchildren child hparent (hsame ▸ hzombie)
        · simp [Proc.Live, hzombie] at hlive
      | takes _ hembryo => cases hzombie.symm.trans hembryo
      | creates me hplace hpid hstate => exact hstate hzombie

-- A pid in use was in use before this step, or it is a new one.
theorem Effect.pid (h : Effect smp cpu next) (htree : Tree smp) :
    smp.table.nextpid ≤ next.table.nextpid ∧ ∀ slot, (next.proc slot).state ≠ .UNUSED →
      ((smp.proc slot).state ≠ .UNUSED ∧ (next.proc slot).pid = (smp.proc slot).pid) ∨
        smp.table.nextpid ≤ (next.proc slot).pid := by
  cases h with
  | reaps me found hreaps =>
    refine ⟨by rw [hreaps.table]; rfl, fun slot hslot => .inl ?_⟩
    by_cases hfound : slot = found
    · rw [hfound, hreaps.proc_child] at hslot
      exact absurd rfl hslot
    · rw [hreaps.proc_of_ne hfound] at hslot ⊢
      exact ⟨hslot, rfl⟩
  | grows hgrows =>
    rcases hgrows.changes htree.creates with ⟨me, hrunning, hexits⟩ | ⟨hnextpid, hchanges⟩
    · refine ⟨(congrArg Prod.fst hexits.globals).ge, fun slot hslot => .inl ⟨?_, hexits.pid slot⟩⟩
      by_cases hme : slot = me
      · simp [hme, hrunning]
      · obtain ⟨-, -, hsame | ⟨hsleeping, -⟩⟩ := hexits.rouses slot hme
        · exact hsame ▸ hslot
        · exact hsleeping.trans_ne (by simp)
    · refine ⟨hnextpid, fun slot hslot => ?_⟩
      cases hchanges slot with
      | agrees hagrees =>
        refine .inl ⟨?_, hagrees.1⟩
        rcases hagrees.2.2 with hsame | ⟨hlive, -⟩
        · exact hsame ▸ hslot
        · intro hunused
          simp [Proc.Live, hunused] at hlive
      | takes hunused hembryo hpid => exact .inr hpid.ge
      | creates me hplace hpid hstate =>
        exact .inl ⟨(htree.creates.embryo me slot hplace).trans_ne (by simp), hpid⟩

variable [DecidableEq Cpu]

theorem Turn.awaits (hcreates : Creates smp)
    (hrunning : (∀ switch, (smp.thread me).phase ≠ .leaving switch) → (smp.proc me).state = .RUNNING)
    (hturn : Turn smp cpu rest me next) (slot : Slot) : StillAwaits smp next slot := by
  have hmoved : ∀ (thread : Kthread) (lock : Option Cpu), thread.phase ≠ .leaving .wait → thread.phase ≠ .away .wait →
      StillAwaits smp { smp.setThread me thread with lock } slot := by
    intro thread lock hleaving haway
    by_cases hslot : slot = me
    · subst hslot
      have hself : ((smp.setThread slot thread).thread slot).phase = thread.phase := by rw [thread_setThread_self]
      exact stillAwaits_of_phase (hself.trans_ne hleaving) (hself.trans_ne haway)
    · exact stillAwaits_of_rouses (.refl _) (congrArg Kthread.phase (thread_setThread_of_ne _ _ _ _ hslot))
  -- An entry that fork fills in does not sleep.
  have hcreated : ∀ (np : Slot) (change : Proc → Proc) (place : Place), (change (smp.proc np)).state ≠ .SLEEPING →
      StillAwaits smp ((smp.update np change).setPlace me place) slot := by
    intro np change place hstate
    have hphase : (((smp.update np change).setPlace me place).thread slot).phase = (smp.thread slot).phase := by
      by_cases hslot : slot = me
      · rw [hslot, thread_setPlace_self]
        rfl
      · rw [thread_setPlace_of_ne _ _ _ _ hslot]
        rfl
    by_cases hnp : slot = np
    · subst hnp
      exact stillAwaits_of_state (by rwa [proc_setPlace, proc_update_self])
    · exact stillAwaits_of_rouses (.of_eq (smp.proc_update_of_ne np slot change hnp)) hphase
  cases hturn with
  | moves place hphase hplace => exact hmoved _ smp.lock (by simp [hphase]) (by simp [hphase])
  | acquires section_ place hphase hlock hplace | releases hphase => exact hmoved _ _ (by simp) (by simp)
  | stack np hphase hplace =>
    have hembryo := hcreates.embryo me np (by rw [hplace]; rfl)
    exact hcreated np _ _ (by simp [hembryo])
  | fails np hphase hplace => exact hcreated np _ _ (by simp)
  | copies np hphase hplace =>
    have hembryo := hcreates.embryo me np (by rw [hplace]; rfl)
    exact hcreated np _ _ (by simp [Proc.copyFrom, hembryo])
  | body section_ _ hphase hnext =>
    exact (body_acts (hrunning (by simp [hphase])) hphase hnext : Acts smp rest me next).awaits slot
  | switches switch hphase =>
    by_cases hslot : slot = me
    · subst hslot
      rintro ⟨hsleeping, hwait⟩
      have hself : ((smp.setPhase slot (.away switch)).thread slot).phase = .away switch := by
        rw [thread_setPhase_self]
      refine .inl ⟨⟨hsleeping, .inl ?_⟩, rfl⟩
      rcases hwait with hwait | hwait
      · cases hself.symm.trans hwait
      · cases hself.symm.trans hwait
        exact hphase
    · exact stillAwaits_of_rouses (.refl _) (congrArg Kthread.phase (thread_setPhase_of_ne _ _ _ _ hslot))
  | resumed switch _ hphase hnext =>
    exact (resumed_acts (hrunning (by simp [hphase])) hnext : Acts smp rest me next).awaits slot

theorem Steps.awaits (h : Scheduled smp) (hcreates : Creates smp) (hsteps : Steps smp cpu next) (slot : Slot) :
    StillAwaits smp next slot := by
  cases hsteps with
  | acquires | ends | skips | returns => exact stillAwaits_of_rouses (.refl _) rfl
  | wakes chan => exact stillAwaits_of_rouses (.wakeup _ chan) rfl
  | resumes found rest switch hmode hstate hphase =>
    by_cases hslot : slot = found
    · subst hslot
      have hrunning : ((smp.update slot (Proc.setState · .RUNNING)).proc slot).state = .RUNNING := by
        rw [proc_update_self]
        rfl
      exact stillAwaits_of_state (hrunning.trans_ne (by simp))
    · exact stillAwaits_of_rouses (.of_eq (smp.proc_update_of_ne found slot (Proc.setState · .RUNNING) hslot))
        (congrArg Kthread.phase (thread_setPhase_of_ne _ _ _ _ hslot))
  | turn rest me _ hmode hcurrent hturn => exact hturn.awaits hcreates (h.running hmode hcurrent) slot

-- No exited child is left to a process that sleeps in wait, and no pid is returned twice.
structure Heeded (smp : Smp Cpu) : Prop where
  waits (slot : Slot) (hawaits : smp.Awaits slot) : (smp.proc slot).chan = .proc slot ∧
    ∀ child, (smp.proc child).parent = some slot → (smp.proc child).state ≠ .ZOMBIE
  nodup : smp.waited.Nodup
  waited (pid : Int) (hpid : pid ∈ smp.waited) : pid < smp.table.nextpid ∧
    ∀ slot, (smp.proc slot).state ≠ .UNUSED → (smp.proc slot).pid ≠ pid

theorem Heeded.steps (h : Heeded smp) (hscheduled : Scheduled smp) (htree : Tree smp) (hsteps : Steps smp cpu next) :
    Heeded next := by
  have heffect := hsteps.effect hscheduled
  obtain ⟨hnextpid, hpids⟩ := heffect.pid htree
  have hwaits : ∀ slot, next.Awaits slot → (next.proc slot).chan = .proc slot ∧
      ∀ child, (next.proc child).parent = some slot → (next.proc child).state ≠ .ZOMBIE := by
    intro slot hawaits
    rcases hsteps.awaits hscheduled htree.creates slot hawaits with ⟨hbefore, hchan⟩ | hfresh
    · obtain ⟨hbeforechan, hchildren⟩ := h.waits slot hbefore
      exact ⟨hchan.trans hbeforechan, heffect.not_zombie htree hawaits.1 hbeforechan hchildren⟩
    · exact hfresh
  have hwaited : ∀ pid ∈ smp.waited, pid < next.table.nextpid ∧
      ∀ slot, (next.proc slot).state ≠ .UNUSED → (next.proc slot).pid ≠ pid := by
    intro pid hpid
    obtain ⟨hlt, hunused⟩ := h.waited pid hpid
    refine ⟨by omega, fun slot hslot => ?_⟩
    rcases hpids slot hslot with ⟨hbefore, hsame⟩ | hnew
    · rw [hsame]
      exact hunused slot hbefore
    · omega
  cases heffect with
  | grows hgrows hsame => exact ⟨hwaits, hsame ▸ h.nodup, hsame ▸ hwaited⟩
  | reaps me child hreaps =>
    have hused : (smp.proc child).state ≠ .UNUSED := hreaps.zombie.trans_ne (by simp)
    have hfresh : (smp.proc child).pid ∉ smp.waited := fun hmem => (h.waited _ hmem).2 child hused rfl
    refine ⟨hwaits, ?_, ?_⟩
    · rw [hreaps.waited]
      exact List.nodup_cons.mpr ⟨hfresh, h.nodup⟩
    · rw [hreaps.waited]
      intro pid hpid
      rcases List.mem_cons.mp hpid with rfl | hmem
      · have hlt := ((htree.entry child).pid hused).2
        refine ⟨by omega, fun slot hslot => ?_⟩
        rcases hpids slot hslot with ⟨hbefore, hsame⟩ | hnew
        · rw [hsame]
          intro heq
          obtain rfl := htree.distinct slot child hbefore hused heq
          rw [hreaps.proc_child] at hslot
          exact hslot rfl
        · omega
      · exact hwaited pid hmem

theorem reach_heeded {good : Smp Cpu → Cpu × Move → Prop} (h : Reach good smp) : Heeded smp := by
  have hall : (Scheduled smp ∧ Tree smp) ∧ Heeded smp := by
    refine h.invariant (fun smp => (Scheduled smp ∧ Tree smp) ∧ Heeded smp) ?_ ?_
    · rintro smp ⟨memory, hboot⟩
      obtain ⟨-, -, -, hthread, -, -, -, hwaited⟩ := boot_eq hboot
      refine ⟨⟨boot_scheduled hboot, boot_tree hboot⟩, fun slot => ?_, by simp [hwaited], by simp [hwaited]⟩
      rintro ⟨-, hphase | hphase⟩ <;> simp [hthread] at hphase
    · rintro smp next label ⟨⟨hscheduled, htree⟩, hheeded⟩ - hstep
      have hsteps := step_steps hstep
      exact ⟨⟨hscheduled.steps htree.creates hsteps, htree.effect (hsteps.effect hscheduled)⟩,
        hheeded.steps hscheduled htree hsteps⟩
  exact hall.2

theorem wait_finds {good : Smp Cpu → Cpu × Move → Prop} (h : Reach good smp) :
    smp.waited.Nodup ∧
      (∀ label next, smp.step label = some next → next.waited = smp.waited ∨
        ∃ me child, smp.current label.1 = some me ∧ (smp.proc child).state = .ZOMBIE ∧
          (smp.proc child).parent = some me ∧ next.waited = (smp.proc child).pid :: smp.waited) ∧
      (smp.lock = none → ∀ slot child, (smp.proc slot).state = .SLEEPING →
        (smp.thread slot).phase = .away .wait → (smp.proc child).parent = some slot →
        (smp.proc child).state ≠ .ZOMBIE) := by
  obtain ⟨hscheduled, htree⟩ := reach_invariant h
  have hheeded := reach_heeded h
  refine ⟨hheeded.nodup, fun label next hstep => ?_, fun hlock slot child hsleeping hphase => ?_⟩
  · cases (step_steps hstep).effect hscheduled with
    | grows hgrows hwaited => exact .inl hwaited
    | reaps me child hreaps =>
      exact .inr ⟨me, child, hreaps.current, hreaps.zombie, hreaps.parent, hreaps.waited⟩
  · exact (hheeded.waits slot ⟨hsleeping, .inr hphase⟩).2 child

-- The first process forks on one CPU and sleeps in wait. Its child exits there, and the first
-- process finds it on the other CPU.
theorem wait_finds_child : ∃ smp : Smp (Fin 2), Reach (fun _ _ => True) smp ∧ smp.waited = [2] ∧ smp.waited.Nodup := by
  obtain ⟨last, hreach, hwaited⟩ := exists_booted (·.waited) [2] (forks ++ (0, .call .wait) :: goon 0 6 ++
    (0, .call .exit) :: goon 0 66 ++ (1, .scan) :: goon 1 4) (by decide +kernel)
  exact ⟨last, hreach, hwaited, (wait_finds hreach).1⟩

end Xv6.Smp

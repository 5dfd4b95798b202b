import Xv6.Sched.Tree

namespace Xv6.Smp

variable {Cpu : Type} {smp next : Smp Cpu} {cpu : Cpu} {me slot : Slot}

namespace Scheduled

variable (h : Scheduled smp)

include h

theorem exists_current (hrunning : (smp.proc slot).state = .RUNNING) : ∃ cpu, smp.current cpu = some slot := by
  by_contra hnone
  rw [not_exists] at hnone
  exact (h.rests slot hnone).1 hrunning

-- A process that runs under the lock is on the CPU that has it.
theorem current_of_holds (hrunning : (smp.proc me).state = .RUNNING)
    (hphase : (smp.thread me).phase ≠ .free) : ∃ cpu, smp.current cpu = some me ∧ smp.lock = some cpu := by
  obtain ⟨cpu, hcurrent⟩ := h.exists_current hrunning
  refine ⟨cpu, hcurrent, ?_⟩
  by_contra hlock
  exact hphase (h.running_of_unlocked hlock hcurrent).2

-- A current process that does not run is on the CPU that has the lock.
theorem lock_of_current (hcurrent : smp.current cpu = some slot)
    (hrunning : (smp.proc slot).state ≠ .RUNNING) : smp.lock = some cpu := by
  by_contra hlock
  exact hrunning (h.running_of_unlocked hlock hcurrent).1

theorem not_embryo (hcurrent : smp.current cpu = some slot) : (smp.proc slot).state ≠ .EMBRYO := by
  have hfits := h.fits cpu slot hcurrent
  generalize smp.mode cpu = mode, (smp.proc slot).state = state, (smp.thread slot).phase = phase at hfits
  rintro rfl
  cases hfits with
  | leaving _ switch _ hstate | away _ switch _ hstate => cases switch <;> cases hstate

end Scheduled

-- What a step that is neither exit nor wait does to an entry.
inductive Changes (smp next : Smp Cpu) (slot : Slot) : Prop
  | agrees (hagrees : (smp.proc slot).Agrees (next.proc slot))
  | takes (hunused : (smp.proc slot).state = .UNUSED) (hembryo : (next.proc slot).state = .EMBRYO)
      (hpid : (next.proc slot).pid = smp.table.nextpid)
  | creates (me : Slot) (hplace : (smp.thread me).place.creating = some slot)
      (hpid : (next.proc slot).pid = (smp.proc slot).pid) (hstate : (next.proc slot).state ≠ .ZOMBIE)

theorem Grows.changes (h : Grows smp next) (hembryo : Creates smp) :
    (∃ me, (smp.proc me).state = .RUNNING ∧ smp.table.Exits next.table me) ∨
      (smp.table.nextpid ≤ next.table.nextpid ∧ ∀ slot, Changes smp next slot) := by
  -- The steps of fork after allocproc change the entry that fork has got, and no other.
  have hupdate : ∀ (np : Slot) (change : Proc → Proc), next.table = smp.table.update np change →
      Changes smp next np → smp.table.nextpid ≤ next.table.nextpid ∧ ∀ slot, Changes smp next slot := by
    intro np change htable hnp
    refine ⟨by rw [htable]; rfl, fun slot => ?_⟩
    by_cases hslot : slot = np
    · rwa [hslot]
    · have hsame : next.proc slot = smp.proc slot := by
        rw [proc, htable, Ptable.proc_update_of_ne _ _ hslot]
        rfl
      exact .agrees (by rw [hsame]; exact .refl _)
  have hnp : ∀ (np : Slot) (change : Proc → Proc), next.table = smp.table.update np change →
      next.proc np = change (smp.proc np) := by
    intro np change htable
    rw [proc, htable, Ptable.proc_update_self]
    rfl
  cases h with
  | agrees hproc hglobals hplace =>
    exact .inr ⟨(congrArg Prod.fst hglobals).ge, fun slot => .agrees (hproc slot)⟩
  | takes me np hunused htable hme hothers =>
    refine .inr ⟨by rw [htable]; exact Int.le_add_of_nonneg_right (by decide), fun slot => ?_⟩
    by_cases hslot : slot = np
    · subst hslot
      have htake : next.proc slot = { smp.proc slot with state := .EMBRYO, pid := smp.table.nextpid } := by
        rw [proc, htable, Ptable.proc_take_self]
        rfl
      exact .takes hunused (by rw [htake]) (by rw [htake])
    · have hsame : next.proc slot = smp.proc slot := by
        rw [proc, htable, Ptable.proc_take_of_ne _ hslot]
        rfl
      exact .agrees (by rw [hsame]; exact .refl _)
  | drops me np hplace htable hme hothers =>
    have hcreating : (smp.thread me).place.creating = some np := by
      rcases hplace with hplace | hplace <;> rw [hplace] <;> rfl
    refine .inr (hupdate np _ htable (.creates me hcreating ?_ ?_))
    · rw [hnp np _ htable]
    · simp [hnp np _ htable]
  | fills me np hrunning hplace htable hme hothers =>
    have hcreating : (smp.thread me).place.creating = some np := by rw [hplace]; rfl
    have hstate := hembryo.embryo me np hcreating
    refine .inr (hupdate np _ htable (.creates me hcreating ?_ ?_))
    · rw [hnp np _ htable]
      rfl
    · simp [hnp np _ htable, Proc.copyFrom, hstate]
  | starts me np hplace htable hme hthread hothers =>
    have hcreating : (smp.thread me).place.creating = some np := by rw [hplace]; rfl
    refine .inr (hupdate np _ htable (.creates me hcreating ?_ ?_))
    · rw [hnp np _ htable]
      rfl
    · simp [hnp np _ htable, Proc.setState]
  | exits me hrunning hexits hplace => exact .inl ⟨me, hrunning, hexits⟩

theorem unused_of_rouses {proc after : Proc} (h : proc.Rouses after) (hunused : after.state = .UNUSED) :
    proc.state = .UNUSED := by
  obtain ⟨-, -, hsame | ⟨-, hrunnable⟩⟩ := h
  · exact hsame ▸ hunused
  · rw [hunused] at hrunnable
    cases hrunnable

-- An entry is given back by the process that could not fill it in, or by wait.
theorem Effect.frees (h : Effect smp cpu next) (hcreates : Creates smp) (hused : (smp.proc slot).state ≠ .UNUSED)
    (hunused : (next.proc slot).state = .UNUSED) :
    (smp.proc slot).state = .EMBRYO ∨ ∃ me, Reaps smp cpu next me slot := by
  cases h with
  | reaps me child hreaps =>
    by_cases hslot : slot = child
    · exact .inr ⟨me, hslot ▸ hreaps⟩
    · rw [hreaps.proc_of_ne hslot] at hunused
      exact absurd hunused hused
  | grows hgrows =>
    rcases hgrows.changes hcreates with ⟨me, hrunning, hexits⟩ | ⟨-, hchanges⟩
    · by_cases hslot : slot = me
      · rw [hslot, proc, hexits.self] at hunused
        cases hunused
      · exact absurd (unused_of_rouses (hexits.rouses slot hslot) hunused) hused
    · cases hchanges slot with
      | agrees hagrees =>
        rcases hagrees.2.2 with hsame | ⟨-, hlive⟩
        · exact absurd (hsame ▸ hunused) hused
        · simp [Proc.Live, hunused] at hlive
      | takes hslot => exact absurd hslot hused
      | creates me hplace => exact .inl (hcreates.embryo me slot hplace)

variable [DecidableEq Cpu]

theorem running_iff_current {good : Smp Cpu → Cpu × Move → Prop} (h : Reach good smp) :
    (smp.lock = none → ∀ slot, (smp.proc slot).state = .RUNNING ↔ ∃! cpu, smp.current cpu = some slot) ∧
      ∀ label next slot, smp.step label = some next → (smp.proc slot).state ≠ .UNUSED →
        (next.proc slot).state = .UNUSED → ∀ cpu, smp.current cpu ≠ some slot := by
  obtain ⟨hscheduled, htree⟩ := reach_invariant h
  refine ⟨fun hlock slot => ⟨fun hrunning => ?_, ?_⟩, fun label next slot hstep hused hunused cpu hcurrent => ?_⟩
  · obtain ⟨cpu, hcurrent⟩ := hscheduled.exists_current hrunning
    exact ⟨cpu, hcurrent, fun other hother => hscheduled.one other cpu slot hother hcurrent⟩
  · rintro ⟨cpu, hcurrent, -⟩
    exact (hscheduled.running_of_unlocked (by simp [hlock]) hcurrent).1
  · rcases ((step_steps hstep).effect hscheduled).frees htree.creates hused hunused with hembryo | ⟨me, hreaps⟩
    · exact hscheduled.not_embryo hcurrent hembryo
    · -- Both this process and the one in wait would be on the CPU that has the lock.
      have hzombie := hreaps.zombie
      obtain ⟨other, hother, hlock⟩ := hscheduled.current_of_holds hreaps.running (by simp [hreaps.phase])
      have hheld := hscheduled.lock_of_current hcurrent (by simp [hzombie])
      obtain rfl : cpu = other := Option.some.inj (hheld.symm.trans hlock)
      obtain rfl : slot = me := Option.some.inj (hcurrent.symm.trans hother)
      cases hzombie.symm.trans hreaps.running

-- The first process has released the lock on one CPU, and the other has gone through the table.
theorem running_iff_current_init : ∃ smp : Smp (Fin 2), Reach (fun _ _ => True) smp ∧ smp.lock = none ∧
    (smp.proc 0).state = .RUNNING ∧ ∃! cpu, smp.current cpu = some 0 := by
  obtain ⟨last, hreach, hstate⟩ := exists_booted (fun smp => (smp.lock, (smp.proc 0).state)) (none, .RUNNING)
    ((0, .scan) :: goon 0 3 ++ (1, .scan) :: goon 1 65) (by decide +kernel)
  obtain ⟨hlock, hrunning⟩ := Prod.mk.inj hstate
  exact ⟨last, hreach, hlock, hrunning, ((running_iff_current hreach).1 hlock 0).mp hrunning⟩

-- Processes and schedulers hand the lock to each other, and it has one owner. sched is called with it and not in the
-- state RUNNING, and does not return to exit.
theorem sched_owns {good : Smp Cpu → Cpu × Move → Prop} (h : Reach good smp) (cpu : Cpu) :
    (∀ other, smp.Busy cpu → smp.Busy other → other = cpu) ∧
      ∀ me, smp.current cpu = some me → (smp.thread me).phase ≠ .back .exit ∧
        ∀ switch, (smp.thread me).phase = .leaving switch → smp.lock = some cpu ∧ (smp.proc me).state ≠ .RUNNING := by
  have hscheduled := (reach_invariant h).1
  refine ⟨fun other hcpu hother => ?_, fun me hcurrent => ?_⟩
  · have hlock := (hscheduled.held cpu).mpr hcpu
    exact Option.some.inj (((hscheduled.held other).mpr hother).symm.trans hlock)
  · have hfits := hscheduled.fits cpu me hcurrent
    generalize smp.mode cpu = mode, hstate : (smp.proc me).state = state, (smp.thread me).phase = phase at hfits ⊢
    cases hfits with
    | back rest switch hswitch => exact ⟨by simpa using hswitch, by simp⟩
    | leaving rest switch state hleaves =>
      have hstops := hleaves.ne_running
      exact ⟨by simp, fun _ _ => ⟨hscheduled.lock_of_current hcurrent (hstate.trans_ne hstops), hstops⟩⟩
    | free | holds | leaves | away => simp

-- The first process forks and sleeps in wait, and its child is about to call sched in exit.
theorem sched_owns_exit : ∃ smp : Smp (Fin 2), Reach (fun _ _ => True) smp ∧ smp.current 0 = some 1 ∧
    (smp.thread 1).phase = .leaving .exit ∧ smp.lock = some 0 ∧ (smp.proc 1).state ≠ .RUNNING := by
  obtain ⟨last, hreach, hstate⟩ := exists_booted (fun smp => (smp.current 0, (smp.thread 1).phase))
    (some 1, .leaving .exit) (forks ++ (0, .call .wait) :: goon 0 6 ++ (0, .call .exit) :: goon 0 1) (by decide +kernel)
  obtain ⟨hcurrent, hphase⟩ := Prod.mk.inj hstate
  exact ⟨last, hreach, hcurrent, hphase, ((sched_owns hreach 0).2 1 hcurrent).2 .exit hphase⟩

end Xv6.Smp

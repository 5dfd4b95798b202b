import Xv6.Ptable.Steps

namespace Xv6

open Option

namespace Proc

-- The process with other contents of what only it changes.
def withImage (proc : Proc) (image : Image) : Proc :=
  { proc with
    sz := image.sz
    memory := image.memory
    tf := image.tf
    sigblocked := image.sigblocked
    userdefed := image.userdefed
    allinfo := image.allinfo
    addrSigreturn := image.addrSigreturn }

theorem sigsetmask_withImage (proc : Proc) (mask : Word) :
    (proc.sigsetmask mask).1 = proc.withImage (proc.sigsetmask mask).1.image := by
  unfold sigsetmask
  split_ifs <;> rfl

-- What happens to a process does not change its state but for waking it up.
theorem state_env (proc : Proc) (event : Event) : (proc.env event).state = proc.state ∨
    (proc.state = .SLEEPING ∧ (proc.env event).state = .RUNNABLE) := by
  have hkill : proc.kill.state = proc.state ∨ (proc.state = .SLEEPING ∧ proc.kill.state = .RUNNABLE) := by
    simp only [kill]
    split <;> simp_all
  have hcont : proc.cont.state = proc.state ∨ (proc.state = .SLEEPING ∧ proc.cont.state = .RUNNABLE) := by
    simp only [cont]
    split <;> simp_all
  cases event with
  | Kill signum =>
    simp only [env, signalled, receive]
    split_ifs <;> first | exact .inl rfl | assumption
  | kill => exact hkill
  | wakeup chan =>
    simp only [env, wakeup]
    split
    · rename_i hasleep
      exact .inr ⟨hasleep.1, rfl⟩
    · exact .inl rfl
  | reparent parent | tick | console waiting => exact .inl rfl

theorem Undergoes.unused_iff {before after : Proc} (h : before.Undergoes after) :
    after.state = .UNUSED ↔ before.state = .UNUSED := by
  induction h with
  | refl => exact Iff.rfl
  | @tail middle _ _ hstep ih =>
    obtain ⟨event, rfl⟩ := hstep
    rcases middle.state_env event with hsame | ⟨hasleep, hrunnable⟩
    · rw [hsame, ih]
    · rw [hrunnable, ← ih, hasleep]
      simp

theorem Live.not_unused {proc : Proc} (h : proc.Live) : proc.state ≠ .UNUSED := by
  intro hunused
  simp [Live, hunused] at h

end Proc

theorem Syscall.own_withImage (syscall : Syscall) (proc : Proc) :
    syscall.own proc = proc.withImage (syscall.own proc).image := by
  cases syscall with
  | exec loaded => cases loaded <;> rfl
  | signal returnfn signum handler =>
    simp only [own, Proc.signal]
    split_ifs <;> rfl
  | sigsetmask mask => exact proc.sigsetmask_withImage mask
  | sigblock sig =>
    simp only [own, Proc.sigblock]
    split_ifs
    · rfl
    · rfl
    · exact proc.sigsetmask_withImage _
  | sigunblock sig =>
    simp only [own, Proc.sigunblock]
    split_ifs
    · rfl
    · rfl
    · exact proc.sigsetmask_withImage _
  | fork kalloc copyuvm => rfl
  | exit => rfl
  | wait => rfl
  | kill pid => rfl
  | Kill stale pid sig => rfl
  | raise stale sig => rfl

namespace Machine

variable {machine next : Machine} {act : Act} {slot : Slot}

namespace Own

variable (h : Own machine act next slot)

include h

theorem live : (machine.proc slot).Live := by
  cases h with
  | called syscall hact hruns | ran user hact hruns => exact live_of_runs hruns
  | placed state hstate hlive => exact hlive
  | awoken hstate => exact live_of_runnable hstate
  | asleep chan hchan hlive => exact hlive

theorem live_next : (next.proc slot).Live := by
  cases h with
  | called syscall hact hruns hproc =>
    rw [hproc, syscall.own_withImage]
    exact live_of_runs hruns
  | ran user hact hruns hproc =>
    rw [hproc]
    exact live_of_runs hruns
  | placed state hstate hlive hbefore hproc =>
    rcases hstate with rfl | rfl <;> simp [hproc, Proc.Live, Proc.setState]
  | awoken hstate hproc | asleep chan hchan hlive hproc => simp [hproc, Proc.Live]

-- What the others know of a process, it does not change.
theorem status :
    (next.proc slot).pid = (machine.proc slot).pid ∧ (next.proc slot).kstack = (machine.proc slot).kstack ∧
      (next.proc slot).parent = (machine.proc slot).parent ∧ (next.proc slot).killed = (machine.proc slot).killed ∧
      (next.proc slot).sigpending = (machine.proc slot).sigpending := by
  cases h with
  | called syscall hact hruns hproc =>
    rw [hproc, syscall.own_withImage]
    exact ⟨rfl, rfl, rfl, rfl, rfl⟩
  | ran _ _ _ hproc
  | placed _ _ _ _ hproc
  | awoken _ hproc
  | asleep _ _ _ hproc => rw [hproc]; exact ⟨rfl, rfl, rfl, rfl, rfl⟩

end Own

-- Only `fork` changes a variable next to the table, and it takes one pid.
theorem step_globals (h : machine.step act = some next) :
    next.table.globals = machine.table.globals ∨
      ∃ me kalloc copyuvm, act = .call me (.fork kalloc copyuvm) ∧
        next.table.initproc = machine.table.initproc ∧ next.table.nextpid =
          if machine.table.unused = none then machine.table.nextpid else machine.table.nextpid + 1 := by
  have hwait : ∀ (machine : Machine) me, (machine.wait me).table.globals = machine.table.globals := by
    intro machine me
    rw [(machine.wait_eq me).1]
    exact machine.table.globals_wait me
  cases act with
  | call me syscall =>
    simp only [step, ite_none_right_eq_some] at h
    obtain ⟨-, h⟩ := h
    cases syscall with
    | fork kalloc copyuvm =>
      cases h
      exact .inr ⟨me, kalloc, copyuvm, rfl, machine.table.fork_nextpid me kalloc copyuvm⟩
    | exit =>
      simp only [Machine.syscall, map_eq_some_iff] at h
      obtain ⟨table, hexit, rfl⟩ := h
      exact .inl (Ptable.globals_exit hexit)
    | wait =>
      simp only [Machine.syscall, some.injEq] at h
      exact .inl (h ▸ hwait machine me)
    | exec loaded =>
      cases loaded <;>
        (simp only [Machine.syscall, some.injEq] at h
         exact .inl (h ▸ rfl))
    | kill pid =>
      simp only [Machine.syscall, some.injEq] at h
      exact .inl (h ▸ machine.table.globals_kill pid)
    | Kill stale pid sig =>
      simp only [Machine.syscall, some.injEq] at h
      exact .inl (h ▸ machine.table.globals_Kill stale me pid sig)
    | raise stale sig =>
      simp only [Machine.syscall, some.injEq] at h
      exact .inl (h ▸ machine.table.globals_Kill stale me _ sig)
    | _ =>
      simp only [Machine.syscall, some.injEq] at h
      exact .inl (h ▸ rfl)
  | resume me =>
    simp only [step, resume] at h
    split at h
    · simp only [ite_none_right_eq_some, some.injEq] at h
      exact .inl (h.2 ▸ rfl)
    · simp only [ite_none_right_eq_some, some.injEq] at h
      exact .inl (h.2 ▸ hwait (machine.awake me) me)
    · simp only [ite_none_right_eq_some, some.injEq] at h
      exact .inl (h.2 ▸ rfl)
    · simp only [ite_none_right_eq_some, some.injEq] at h
      exact .inl (h.2 ▸ rfl)
  | _ =>
    simp only [step, ite_none_right_eq_some, some.injEq] at h
    exact .inl (h.2 ▸ rfl)

-- What a step does to the pid and the kernel stack of an entry: nothing, unless the entry
-- is the one that `fork` has got, or the one that `wait` frees.
inductive Seats (machine : Machine) (act : Act) (next : Machine) (slot : Slot) : Prop
  | kept (hpid : (next.proc slot).pid = (machine.proc slot).pid)
      (hkstack : (next.proc slot).kstack = (machine.proc slot).kstack)
      (hunused : (next.proc slot).state = .UNUSED ↔ (machine.proc slot).state = .UNUSED)
  | taken (me : Slot) (kalloc copyuvm : Bool) (hact : act = .call me (.fork kalloc copyuvm))
      (hfirst : machine.table.unused = some slot) (hpid : (next.proc slot).pid = machine.table.nextpid)
      (hkstack : (next.proc slot).kstack = true ↔ (next.proc slot).state ≠ .UNUSED)
  | freed (hpid : (next.proc slot).pid = 0) (hkstack : (next.proc slot).kstack = false)
      (hunused : (next.proc slot).state = .UNUSED)

theorem Seats.of_live (hbefore : (machine.proc slot).Live) (hafter : (next.proc slot).Live)
    (hpid : (next.proc slot).pid = (machine.proc slot).pid)
    (hkstack : (next.proc slot).kstack = (machine.proc slot).kstack) : Seats machine act next slot :=
  .kept hpid hkstack (iff_of_false hafter.not_unused hbefore.not_unused)

theorem Seats.of_standing (hstanding : (next.proc slot).standing = (machine.proc slot).standing)
    (hunused : (next.proc slot).state = .UNUSED ↔ (machine.proc slot).state = .UNUSED) :
    Seats machine act next slot := by
  obtain ⟨hkstack, hpid, -⟩ := (Proc.standing_eq_iff _ _).mp hstanding
  exact .kept hpid hkstack hunused

-- psig keeps what a process is known by.
theorem after_fixed {cpu : Cpu} {computation : Coop Cpu Point Exit Int} (hcpu : cpu.proc = machine.proc slot)
    (hfixes : computation.Fixes fixed cpu) :
    ((machine.after slot computation).proc slot).standing = (machine.proc slot).standing ∧
      ((machine.after slot computation).proc slot).parent = (machine.proc slot).parent ∧
      ((machine.after slot computation).proc slot).sigblocked = (machine.proc slot).sigblocked := by
  rw [proc_after_self, ← hcpu]
  simpa only [fixed, Prod.mk.injEq] using hfixes.state

theorem Moves.seats (h : Moves machine act next slot) : Seats machine act next slot := by
  cases h with
  | events hproc => exact .of_standing hproc.undergoes.standing hproc.undergoes.unused_iff
  | created parent hact hruns hunused hproc =>
    refine .taken parent true true hact hunused (by rw [hproc]; rfl) ?_
    rw [hproc]
    exact iff_of_true rfl (by simp [Proc.setState])
  | failed parent kalloc copyuvm hact hunused sigpending justwoken hproc =>
    exact .taken parent kalloc copyuvm hact hunused (by rw [hproc]) (by simp [hproc])
  | freed parent hact hzombie hparent hproc =>
    exact .freed (by rw [hproc]; rfl) (by rw [hproc]; rfl) (by rw [hproc]; rfl)
  | exited hact hruns middle hmiddle hproc =>
    have hbefore := (live_of_runs hruns).not_unused
    obtain ⟨hkstack, hpid, -⟩ := (Proc.standing_eq_iff _ _).mp hmiddle.undergoes.standing
    refine .kept (by rw [hproc]; exact hpid) (by rw [hproc]; exact hkstack) (iff_of_false ?_ hbefore)
    rw [hproc]
    simp [Proc.setState]
  | own hown =>
    obtain ⟨hpid, hkstack, -⟩ := hown.status
    exact .of_live hown.live hown.live_next hpid hkstack
  | psig start caller cpu computation hstart hkeeps hcpu hcalled hmeets hfixes hnext =>
    subst hnext
    have hafter := (after_keeps hstart hmeets).1
    rw [← proc_after_self machine slot] at hafter
    obtain ⟨hkstack, hpid, -⟩ := (Proc.standing_eq_iff _ _).mp (after_fixed hcpu hfixes).1
    exact .of_live (hkeeps.live hstart) hafter hpid hkstack

-- Every pid is used once, the entries in use are those with a pid and a kernel stack, and
-- a free entry may keep the pid of a `fork` that has failed.
structure Pids (machine : Machine) : Prop where
  next : 1 < machine.table.nextpid
  bound : ∀ slot, 0 ≤ (machine.proc slot).pid ∧ (machine.proc slot).pid < machine.table.nextpid
  distinct : ∀ first second, (machine.proc first).pid = (machine.proc second).pid →
    (machine.proc first).pid ≠ 0 → first = second
  used : ∀ slot, (machine.proc slot).state ≠ .UNUSED → (machine.proc slot).pid ≠ 0
  kstack : ∀ slot, (machine.proc slot).kstack = true ↔ (machine.proc slot).state ≠ .UNUSED

theorem boot_pids {memory : Memory} (h : boot memory = some machine) : machine.Pids := by
  obtain ⟨hproc, hnextpid, -⟩ := boot_eq h
  have hpid : ∀ slot, (machine.proc slot).pid = if slot = 0 then 1 else 0 := by
    intro slot
    rw [hproc]
    split <;> rfl
  constructor
  case next => omega
  case bound =>
    intro slot
    rw [hpid]
    split <;> omega
  case distinct =>
    intro first second heq hne
    rw [hpid, hpid] at heq
    rw [hpid] at hne
    split_ifs at heq hne with hfirst hsecond
    · rw [hfirst, hsecond]
    · simp at heq
    · simp at hne
    · simp at hne
  case used =>
    intro slot hused
    rw [hpid]
    rw [hproc] at hused
    split_ifs at hused ⊢ with heq
    · simp
    · simp [Proc.zero] at hused
  case kstack =>
    intro slot
    rw [hproc]
    split
    · simp [Proc.initcode, Proc.allocated]
    · simp [Proc.zero]

theorem step_nextpid (h : machine.step act = some next) : machine.table.nextpid ≤ next.table.nextpid := by
  rcases step_globals h with hsame | ⟨me, kalloc, copyuvm, -, -, hnextpid⟩
  · exact le_of_eq (congrArg Prod.fst hsame).symm
  · rw [hnextpid]
    split <;> omega

theorem step_pids (hpids : machine.Pids) (h : machine.step act = some next)
    (hseats : ∀ slot, Seats machine act next slot) : next.Pids := by
  have hmono := step_nextpid h
  have hnext := hpids.next
  -- The entry that `fork` has got is one, and no other has its pid.
  have htaken : ∀ me kalloc copyuvm slot, act = .call me (.fork kalloc copyuvm) →
      machine.table.unused = some slot → machine.table.nextpid < next.table.nextpid := by
    intro me kalloc copyuvm slot hact hfirst
    rcases step_globals h with hsame | ⟨_, _, _, -, -, hnextpid⟩
    · subst hact
      simp only [step, ite_none_right_eq_some, Machine.syscall, some.injEq] at h
      have hfork := (machine.table.fork_nextpid me kalloc copyuvm).2
      rw [← h.2, hfork, hfirst]
      simp
    · simp [hnextpid, hfirst]
  have hpid : ∀ slot, (next.proc slot).pid = (machine.proc slot).pid ∨ (next.proc slot).pid = 0 ∨
      (machine.table.unused = some slot ∧ (next.proc slot).pid = machine.table.nextpid) := by
    intro slot
    cases hseats slot with
    | kept hpid => exact .inl hpid
    | taken me kalloc copyuvm hact hfirst hpid => exact .inr (.inr ⟨hfirst, hpid⟩)
    | freed hpid => exact .inr (.inl hpid)
  constructor
  case next => omega
  case bound =>
    intro slot
    have hbound := hpids.bound slot
    cases hseats slot with
    | kept hpid => omega
    | taken me kalloc copyuvm hact hfirst hpid =>
      have hless := htaken me kalloc copyuvm slot hact hfirst
      omega
    | freed hpid => omega
  case distinct =>
    intro first second heq hne
    have hfirst := hpids.bound first
    have hsecond := hpids.bound second
    rcases hpid first with hone | hone | ⟨hslot, hone⟩ <;> rcases hpid second with htwo | htwo | ⟨hother, htwo⟩
    · exact hpids.distinct first second (by omega) (by omega)
    · omega
    · omega
    · omega
    · omega
    · omega
    · omega
    · omega
    · exact some.inj (hslot.symm.trans hother)
  case used =>
    intro slot hused
    cases hseats slot with
    | kept hpid _ hunused =>
      rw [hpid]
      exact hpids.used slot fun hbefore => hused (hunused.mpr hbefore)
    | taken me kalloc copyuvm hact hfirst hpid => omega
    | freed hpid _ hunused => exact absurd hunused hused
  case kstack =>
    intro slot
    cases hseats slot with
    | kept _ hkstack hunused => rw [hkstack, hpids.kstack slot, ne_eq, ne_eq, hunused]
    | taken me kalloc copyuvm hact hfirst hpid hkstack => exact hkstack
    | freed _ hkstack hunused => simp [hkstack, hunused]

theorem Reach.pids {good : Machine → Act → Prop} (h : Reach good machine) : machine.Pids :=
  h.entries Pids (fun _ _ => boot_pids)
    (fun _ _ _ _ hpids _ hstep hmoves => step_pids hpids hstep fun slot => (hmoves slot).seats)

end Machine

end Xv6

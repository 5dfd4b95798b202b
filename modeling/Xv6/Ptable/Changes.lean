import Xv6.Ptable.Steps

namespace Xv6

theorem Proc.handlers_sigsetmask (proc : Proc) (mask : Word) : (proc.sigsetmask mask).1.handlers = proc.handlers := by
  unfold sigsetmask
  split_ifs <;> rfl

theorem Proc.handlers_sigblock (proc : Proc) (sig : Int) : (proc.sigblock sig).1.handlers = proc.handlers := by
  unfold sigblock
  split_ifs
  · rfl
  · rfl
  · exact proc.handlers_sigsetmask _

theorem Proc.handlers_sigunblock (proc : Proc) (sig : Int) : (proc.sigunblock sig).1.handlers = proc.handlers := by
  unfold sigunblock
  split_ifs
  · rfl
  · rfl
  · exact proc.handlers_sigsetmask _

namespace Machine

variable {machine next : Machine} {act : Act} {slot : Slot}

-- All that a step can do to the handlers of a process that is alive after it.
inductive Changes (machine : Machine) (act : Act) (next : Machine) (slot : Slot) : Prop
  | kept (hlive : (machine.proc slot).Live) (hhandlers : (next.proc slot).handlers = (machine.proc slot).handlers)
      (hpassed : next.passed slot = machine.passed slot)
  | forked (parent : Slot) (hact : act = .call parent (.fork true true))
      (hlive : (machine.proc parent).Live)
      (hhandlers : (next.proc slot).handlers =
        ⟨(machine.proc parent).userdefed, (machine.proc parent).allinfo, (machine.proc slot).addrSigreturn⟩)
      (hpassed : next.passed slot = machine.passed parent)
  | signalled (returnfn : Word) (signum : Int) (handler : Word)
      (hact : act = .call slot (.signal returnfn signum handler)) (hlive : (machine.proc slot).Live)
      (hproc : next.proc slot = ((machine.proc slot).signal returnfn signum handler).1)
      (hpassed : next.passed slot = returnfn :: machine.passed slot)
  | execed (loaded : Loaded) (hact : act = .call slot (.exec (some loaded))) (hlive : (machine.proc slot).Live)
      (hproc : next.proc slot = (machine.proc slot).exec loaded) (hpassed : next.passed slot = [])

theorem called_changes (syscall : Syscall) (hlive : (machine.proc slot).Live)
    (hproc : next.proc slot = syscall.own (machine.proc slot))
    (hpassed : next.passed slot = syscall.passed (machine.passed slot)) :
    Changes machine (.call slot syscall) next slot := by
  cases syscall with
  | exec loaded =>
    cases loaded with
    | none => exact .kept hlive (by rw [hproc]; rfl) hpassed
    | some loaded => exact .execed loaded rfl hlive hproc hpassed
  | signal returnfn signum handler => exact .signalled returnfn signum handler rfl hlive hproc hpassed
  | sigsetmask mask => exact .kept hlive (by rw [hproc]; exact Proc.handlers_sigsetmask _ mask) hpassed
  | sigblock sig => exact .kept hlive (by rw [hproc]; exact Proc.handlers_sigblock _ sig) hpassed
  | sigunblock sig => exact .kept hlive (by rw [hproc]; exact Proc.handlers_sigunblock _ sig) hpassed
  | fork kalloc copyuvm
  | exit
  | wait
  | kill pid
  | Kill stale pid sig
  | raise stale sig => exact .kept hlive (by rw [hproc]; rfl) hpassed

theorem Moves.changes (h : Moves machine act next slot) (hlive : (next.proc slot).Live) :
    Changes machine act next slot := by
  cases h with
  | events hproc _ hpassed =>
    have hundergoes := hproc.undergoes
    exact .kept (hundergoes.live_iff.mp hlive) (Proc.handlers_congr hundergoes.image) hpassed
  | created parent hact hruns _ hproc _ hpassed =>
    exact .forked parent hact (live_of_runs hruns) (by rw [hproc]; rfl) hpassed
  | failed parent kalloc copyuvm hact hunused sigpending justwoken hproc => simp [hproc, Proc.Live] at hlive
  | freed parent hact hzombie hparent hproc => simp [hproc, Proc.Live, Proc.freed] at hlive
  | exited hact hruns middle hmiddle hproc => simp [hproc, Proc.Live, Proc.setState] at hlive
  | own hown =>
    cases hown with
    | called syscall hact hruns hproc _ hpassed =>
      exact hact ▸ called_changes syscall (live_of_runs hruns) hproc hpassed
    | ran user hact hruns hproc _ hpassed => exact .kept (live_of_runs hruns) (by rw [hproc]; rfl) hpassed
    | placed state hstate hbefore _ hproc _ hpassed
    | asleep chan hchan hbefore hproc _ hpassed => exact .kept hbefore (by rw [hproc]; rfl) hpassed
    | awoken hstate hproc _ hpassed => exact .kept (live_of_runnable hstate) (by rw [hproc]; rfl) hpassed
  | psig start caller cpu computation hstart hkeeps hcpu hcalled hmeets hfixes hnext =>
    subst hnext
    refine .kept (hkeeps.live hstart) ?_ rfl
    rw [proc_after_self, (after_keeps hstart hmeets).2, Proc.handlers_congr hkeeps.image]

-- The first process has all signals at their defaults, and it is the only one.
theorem boot_live {memory : Memory} (h : boot memory = some machine) (hlive : (machine.proc slot).Live) :
    (machine.proc slot).userdefed = 0 ∧ (∀ signum, (machine.proc slot).disposition signum = .DFL) ∧
      machine.passed slot = [] := by
  obtain ⟨hproc, -, -, -, hpassed⟩ := boot_eq h
  by_cases heq : slot = 0
  · rw [hproc, if_pos heq]
    exact ⟨rfl, fun _ => rfl, hpassed slot⟩
  · rw [hproc, if_neg heq] at hlive
    simp [Proc.Live, Proc.zero] at hlive

-- An invariant of the handlers of all that are alive has to be looked at where it can change.
theorem Reach.handlers {good : Machine → Act → Prop} (holds : Handlers → List Word → Prop)
    (hboot : ∀ proc : Proc, proc.userdefed = 0 → (∀ signum, proc.disposition signum = .DFL) → holds proc.handlers [])
    (hchanges : ∀ machine act next slot, good machine act →
      (∀ slot, (machine.proc slot).Live → holds (machine.proc slot).handlers (machine.passed slot)) →
      Changes machine act next slot → holds (next.proc slot).handlers (next.passed slot))
    (h : Reach good machine) (hlive : (machine.proc slot).Live) :
    holds (machine.proc slot).handlers (machine.passed slot) := by
  refine h.entries (fun machine => ∀ slot, (machine.proc slot).Live →
    holds (machine.proc slot).handlers (machine.passed slot)) ?_ ?_ slot hlive
  · intro memory machine hmachine slot hlive
    obtain ⟨huserdefed, hdisposition, hpassed⟩ := boot_live hmachine hlive
    rw [hpassed]
    exact hboot _ huserdefed hdisposition
  · intro machine act next _ hholds hgood _ hmoves slot hlive
    exact hchanges machine act next slot hgood hholds ((hmoves slot).changes hlive)

end Machine

end Xv6

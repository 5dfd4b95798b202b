import Xv6.Ptable.Changes

namespace Xv6

-- The two records of which signals have a handler agree, and no signal has one that
-- `signal` refuses.
structure Handlers.Agree (handlers : Handlers) : Prop where
  userdefed : ∀ signum < NUMSIG,
    (Mask.has handlers.userdefed signum = true ↔
      (handlers.allinfo (Fin.ofNat NUMSIG signum)).disposition = .USERDEF)
  accepted : ∀ signum < NUMSIG, Mask.has handlers.userdefed signum = true →
    Accepted signum

variable {handlers : Handlers} {proc : Proc}

theorem Handlers.agree_of_none (huserdefed : handlers.userdefed = 0)
    (hallinfo : ∀ index, (handlers.allinfo index).disposition ≠ .USERDEF) : handlers.Agree := by
  have hhas : ∀ signum, Mask.has handlers.userdefed signum = false := by
    intro signum
    rw [huserdefed]
    exact Mask.has_zero signum
  refine ⟨?_, ?_⟩
  · intro signum _
    simp [hhas, hallinfo]
  · intro signum _ hset
    rw [hhas] at hset
    cases hset

-- The agreement for one signal carries over to handlers that differ in another.
theorem Handlers.Agree.update {next : Handlers} (h : handlers.Agree) {changed : Nat}
    (huserdefed : ∀ signum < NUMSIG, signum ≠ changed →
      Mask.has next.userdefed signum = Mask.has handlers.userdefed signum)
    (hallinfo : ∀ signum < NUMSIG, signum ≠ changed →
      next.allinfo (Fin.ofNat NUMSIG signum) = handlers.allinfo (Fin.ofNat NUMSIG signum))
    (hself : Mask.has next.userdefed changed = true ↔
      (next.allinfo (Fin.ofNat NUMSIG changed)).disposition = .USERDEF) (haccepted : Accepted changed) :
    next.Agree := by
  refine ⟨?_, ?_⟩
  · intro signum hlt
    by_cases heq : signum = changed
    · exact heq ▸ hself
    · rw [huserdefed signum hlt heq, hallinfo signum hlt heq]
      exact h.userdefed signum hlt
  · intro signum hlt hset
    by_cases heq : signum = changed
    · exact heq ▸ haccepted
    · rw [huserdefed signum hlt heq] at hset
      exact h.accepted signum hlt hset

theorem Handlers.Agree.reset (h : proc.handlers.Agree) {signum : Nat} (haccepted : Accepted signum)
    {disposition : Disposition} (hdisposition : disposition ≠ .USERDEF) :
    (proc.reset signum disposition).handlers.Agree := by
  have hlt := haccepted.lt
  have hbefore := h.userdefed signum hlt
  refine h.update ?_ (Accepted.update_allinfo haccepted _ _) ?_ haccepted
  · intro other hother hne
    simp only [Proc.handlers, Proc.reset]
    split
    · exact Mask.has_clear_of_ne _ _ _ hlt hother hne
    · rfl
  · simp only [Proc.handlers, Proc.reset, Function.update_self]
    by_cases hinstalled : proc.disposition signum = .USERDEF
    · simp [hinstalled, hdisposition]
    · have hnot : Mask.has proc.userdefed signum = false :=
        Bool.eq_false_iff.mpr (fun hset => hinstalled (hbefore.mp hset))
      simp [hinstalled, hdisposition, hnot]

theorem Handlers.Agree.install (h : proc.handlers.Agree) {signum : Nat} (haccepted : Accepted signum)
    (returnfn handler : Word) : (proc.install returnfn signum handler).handlers.Agree := by
  refine h.update ?_ (Accepted.update_allinfo haccepted _ _) ?_ haccepted
  · intro other hother hne
    exact Mask.has_set_of_ne _ _ _ haccepted.lt hother hne
  · simp [Proc.handlers, Proc.install]

theorem Handlers.Agree.signal (h : proc.handlers.Agree) (returnfn : Word) (signum : Int) (handler : Word) :
    (proc.signal returnfn signum handler).1.handlers.Agree := by
  rcases proc.signal_cases returnfn signum handler with
    hrefused | ⟨index, -, haccepted, ⟨-, disposition, hdisposition, hreset⟩ | ⟨-, -, hinstall⟩⟩
  · rwa [hrefused]
  · rw [hreset]
    exact h.reset haccepted hdisposition
  · rw [hinstall]
    exact h.install haccepted returnfn handler

-- No process that has installed a handler replaces its program.
def execsWithoutHandlers (machine : Machine) : Act → Bool
  | .call slot (.exec (some _)) => (machine.proc slot).userdefed == 0
  | _ => true

theorem Machine.Changes.agree {machine next : Machine} {act : Act} {slot : Slot}
    (hgood : execsWithoutHandlers machine act = true)
    (hall : ∀ slot, (machine.proc slot).Live → (machine.proc slot).handlers.Agree)
    (h : Machine.Changes machine act next slot) : (next.proc slot).handlers.Agree := by
  cases h with
  | kept hlive hhandlers _ =>
    rw [hhandlers]
    exact hall slot hlive
  | forked parent _ hlive hhandlers _ =>
    have hparent := hall parent hlive
    rw [hhandlers]
    exact ⟨hparent.userdefed, hparent.accepted⟩
  | signalled returnfn signum handler _ hlive hproc _ =>
    rw [hproc]
    exact (hall slot hlive).signal returnfn signum handler
  | execed loaded hact hlive hproc _ =>
    subst hact
    have huserdefed : (machine.proc slot).userdefed = 0 := by simpa [execsWithoutHandlers] using hgood
    rw [hproc]
    refine Handlers.agree_of_none huserdefed ?_
    intro index
    simp only [Proc.handlers, Proc.exec]
    split
    · rename_i hignored
      simp [hignored]
    · simp

-- As long as this is so, the mask and the table of dispositions agree in every process.
theorem userdefed_agrees (machine : Machine) (slot : Slot)
    (hreach : Machine.Reach (fun machine act => execsWithoutHandlers machine act = true) machine)
    (hlive : (machine.proc slot).Live) : (machine.proc slot).handlers.Agree := by
  refine hreach.handlers (fun handlers _ => handlers.Agree) ?_ ?_ hlive
  · intro proc huserdefed hdisposition
    refine Handlers.agree_of_none huserdefed ?_
    intro index
    have hdefault := hdisposition index.val
    simp only [Proc.disposition, Fin.ofNat_val_eq_self] at hdefault
    simp [Proc.handlers, hdefault]
  · intro machine act next slot hgood hall hchanges
    exact hchanges.agree hgood hall

-- The first process forks, and its child installs a handler for SIGINT.
def forkAndSignal : List Act :=
  [.resume 0, .call 0 (.fork true true), .resume 1, .call 1 (.signal 0x200 SIGINT 0x100)]

theorem userdefed_agrees_sigint : ∃ machine,
    Machine.Reach (fun machine act => execsWithoutHandlers machine act = true) machine ∧
      Mask.has (machine.proc 1).userdefed SIGINT = true ∧ (machine.proc 1).handlers.Agree := by
  obtain ⟨machine, hreach, hlive, hset⟩ : ∃ machine,
      Machine.Reach (fun machine act => execsWithoutHandlers machine act = true) machine ∧
        (machine.proc 1).Live ∧ Mask.has (machine.proc 1).userdefed SIGINT = true :=
    exists_reach_boot (fun _ => 0) forkAndSignal ⟨_, rfl, _, rfl, by decide, rfl⟩
  exact ⟨machine, hreach, hset, userdefed_agrees machine 1 hreach hlive⟩

-- Then it executes another program. The disposition is reset and the bit is not.
theorem userdefed_disagrees : ∃ machine, Machine.Reach (fun _ _ => True) machine ∧ (machine.proc 1).Live ∧
    Mask.has (machine.proc 1).userdefed SIGINT = true ∧ (machine.proc 1).disposition SIGINT = .DFL :=
  exists_reach_boot (fun _ => 0)
    (forkAndSignal ++ [.call 1 (.exec (some ⟨0x4000, 0, 0x3ff0, fun _ => 0⟩))])
    ⟨_, rfl, _, rfl, by decide, rfl, rfl⟩

end Xv6

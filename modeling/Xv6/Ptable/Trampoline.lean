import Xv6.Ptable.Userdefed

namespace Xv6

namespace Handlers

def None (handlers : Handlers) : Prop := ∀ index, (handlers.allinfo index).disposition ≠ .USERDEF

-- No signal but this one has a handler.
def Only (handlers : Handlers) (signum : Nat) : Prop :=
  ∀ index, (handlers.allinfo index).disposition = .USERDEF → index = Fin.ofNat NUMSIG signum

instance (handlers : Handlers) : Decidable handlers.None :=
  inferInstanceAs (Decidable (∀ index, (handlers.allinfo index).disposition ≠ .USERDEF))

instance (handlers : Handlers) (signum : Nat) : Decidable (handlers.Only signum) :=
  inferInstanceAs (Decidable (∀ _, _ → _))

-- A handler returns through a trampoline that this program has passed to `signal`.
def Returns (handlers : Handlers) (passed : List Word) : Prop :=
  handlers.None ∨ (handlers.addrSigreturn ∈ passed ∧ handlers.addrSigreturn ≠ 0)

theorem Only.reset {proc : Proc} {signum : Nat} (h : proc.handlers.Only signum) {disposition : Disposition}
    (hdisposition : disposition ≠ .USERDEF) : (proc.reset signum disposition).handlers.None := by
  intro index
  by_cases heq : index = Fin.ofNat NUMSIG signum
  · subst heq
    simpa [Proc.handlers, Proc.reset] using hdisposition
  · simp only [Proc.handlers, Proc.reset, Function.update_of_ne heq]
    exact fun huserdef => heq (h index huserdef)

theorem None.exec (proc : Proc) (loaded : Loaded) : (proc.exec loaded).handlers.None := by
  intro index
  simp only [Proc.handlers, Proc.exec]
  split
  · rename_i hignored
    simp [hignored]
  · simp

end Handlers

instance (signum : Nat) : Decidable (Accepted signum) :=
  inferInstanceAs (Decidable (0 < signum ∧ signum ≤ CURRNUM ∧ signum ≠ SIGKILL ∧ signum ≠ SIGSTOP))

-- A process that forks has no handlers. One that takes a handler away has no other, and
-- one that installs a handler passes a trampoline.
def keepsTrampoline (machine : Machine) : Act → Bool
  | .call slot (.fork true true) => decide (machine.proc slot).handlers.None
  | .call slot (.signal returnfn signum handler) =>
    if ¬Accepted signum.toNat then true
    else if handler = SIG_IGN ∨ handler = SIG_DFL then decide ((machine.proc slot).handlers.Only signum.toNat)
    else returnfn != 0
  | _ => true

theorem Handlers.Returns.signal {machine : Machine} {slot : Slot} {returnfn : Word} {signum : Int} {handler : Word}
    {passed : List Word} (h : (machine.proc slot).handlers.Returns passed)
    (hgood : keepsTrampoline machine (.call slot (.signal returnfn signum handler)) = true) :
    ((machine.proc slot).signal returnfn signum handler).1.handlers.Returns (returnfn :: passed) := by
  rcases (machine.proc slot).signal_cases returnfn signum handler with
    hrefused | ⟨index, rfl, haccepted, ⟨hhandler, disposition, hdisposition, hreset⟩ | ⟨hign, hdfl, hinstall⟩⟩
  · rw [hrefused]
    exact h.imp id (fun hreturns => ⟨List.mem_cons_of_mem _ hreturns.1, hreturns.2⟩)
  · have honly : (machine.proc slot).handlers.Only index := by
      simpa [keepsTrampoline, haccepted, hhandler] using hgood
    rw [hreset]
    exact .inl (honly.reset hdisposition)
  · have hreturnfn : returnfn ≠ 0 := by
      simpa [keepsTrampoline, haccepted, hign, hdfl] using hgood
    rw [hinstall]
    exact .inr ⟨List.mem_cons_self, hreturnfn⟩

theorem Machine.Changes.returns {machine next : Machine} {act : Act} {slot : Slot}
    (hgood : keepsTrampoline machine act = true)
    (hall : ∀ slot, (machine.proc slot).Live → (machine.proc slot).handlers.Returns (machine.passed slot))
    (h : Machine.Changes machine act next slot) : (next.proc slot).handlers.Returns (next.passed slot) := by
  cases h with
  | kept hlive hhandlers hpassed =>
    rw [hhandlers, hpassed]
    exact hall slot hlive
  | forked parent hact _ hhandlers _ =>
    subst hact
    have hnone : (machine.proc parent).handlers.None := by simpa [keepsTrampoline] using hgood
    rw [hhandlers]
    exact .inl hnone
  | signalled returnfn signum handler hact hlive hproc hpassed =>
    subst hact
    rw [hproc, hpassed]
    exact (hall slot hlive).signal hgood
  | execed loaded _ _ hproc _ =>
    rw [hproc]
    exact .inl (.exec _ loaded)

end Xv6

import Xv6.Psig.Delivery

namespace Xv6

open Program

-- What may happen to a process to which nobody sends a signal.
def Event.silent : Event → Prop
  | .Kill _ => False
  | _ => True

structure Silent (point : Point) (before after : Cpu) : Prop where
  undergoes : before.proc.UndergoesOnly Event.silent after.proc
  same : after = { before with proc := after.proc }
  runnable : ∀ why, point = .sched why → after.proc.state = .RUNNABLE

variable {point : Point}

theorem Silent.sigpending {before after : Cpu} (h : Silent point before after) :
    after.proc.sigpending = before.proc.sigpending := by
  refine h.undergoes.invariant (fun proc => proc.sigpending = before.proc.sigpending) ?_ rfl
  intro proc event hevent hsame
  cases event with
  | Kill signum => exact hevent.elim
  | kill => exact hsame
  | wakeup chan =>
    simp only [Proc.env, Proc.wakeup]
    split <;> exact hsame
  | reparent parent | tick | console waiting => exact hsame

-- The signals that psig has code for.
def psigSignals : List Nat := termsig ++ coresig ++ SIGCHLD :: stopsig ++ [SIGCONT]

namespace Proc

-- Neither the mask nor the disposition keeps the default action from being taken.
def defaulted (proc : Proc) (signum : Nat) : Bool := !proc.blocked signum && proc.disposition signum == .DFL

-- Whether psig, finding the signal pending, takes it out.
def takes (proc : Proc) (signum : Nat) : Bool :=
  signum == SIGSTOP || (psigSignals.contains signum && proc.defaulted signum)

theorem defaulted_congr {first second : Proc} (h : first.image = second.image) (signum : Nat) :
    first.defaulted signum = second.defaulted signum := by
  rw [defaulted, defaulted, blocked_congr h, disposition_congr h]

end Proc

-- Of the signals pending at the start, those that are gone have been cleared, and none is new.
structure Cleared (start : Proc) (gone : Nat → Bool) (ncli : Nat) (holding : Bool) (cpu : Cpu) : Prop where
  ncli : cpu.ncli = ncli
  holding : cpu.holding = holding
  image : cpu.proc.image = start.image
  pending : ∀ signum < NUMSIG, cpu.proc.pending signum = (start.pending signum && !gone signum)

-- After a loop of psig over these signals.
def took (start : Proc) (gone : Nat → Bool) (signals : List Nat) (signum : Nat) : Bool :=
  gone signum || (signals.contains signum && start.defaulted signum)

theorem took_nil (start : Proc) (gone : Nat → Bool) : took start gone [] = gone := by
  funext signum
  simp [took]

theorem took_took (start : Proc) (gone : Nat → Bool) (first second : List Nat) :
    took start (took start gone first) second = took start gone (first ++ second) := by
  funext signum
  cases hdefaulted : start.defaulted signum <;> simp [took, hdefaulted, Bool.or_assoc]

def silentContract : Contract Cpu Point Exit where
  rely := Silent
  ready := fun _ _ => True
  paused := fun _ _ => True
  leaves := fun _ _ => True

namespace Cleared

variable {start : Proc} {gone : Nat → Bool} {ncli : Nat} {holding : Bool} {before cpu : Cpu} {signum : Nat}
  {passed : List Nat}

section

variable (h : Cleared start gone ncli holding cpu)

include h

theorem of_same {next : Cpu} {ncli' : Nat} {holding' : Bool}
    (hncli : next.ncli = ncli') (hholding : next.holding = holding') (himage : next.proc.image = cpu.proc.image)
    (hpending : next.proc.sigpending = cpu.proc.sigpending) : Cleared start gone ncli' holding' next where
  ncli := hncli
  holding := hholding
  image := himage.trans h.image
  pending signum hlt := by
    rw [Proc.pending, hpending]
    exact h.pending signum hlt

theorem silent {next : Cpu} (hsilent : Silent point cpu next) : Cleared start gone ncli holding next := by
  refine h.of_same ?_ ?_ hsilent.undergoes.undergoes.image hsilent.sigpending
  · rw [hsilent.same]
    exact h.ncli
  · rw [hsilent.same]
    exact h.holding

theorem congr {other : Nat → Bool}
    (hsame : ∀ signum < NUMSIG, start.pending signum = true → gone signum = other signum) :
    Cleared start other ncli holding cpu where
  ncli := h.ncli
  holding := h.holding
  image := h.image
  pending signum hlt := by
    rw [h.pending signum hlt]
    cases hpending : start.pending signum with
    | false => rfl
    | true => rw [hsame signum hlt hpending]

theorem clear (signum : Nat) (hsignum : signum < NUMSIG) :
    Cleared start (fun other => gone other || other == signum) ncli holding (cpu.clearPending signum) where
  ncli := h.ncli
  holding := h.holding
  image := h.image
  pending other hlt := by
    simp only [Cpu.clearPending, Cpu.update, Proc.pending_clearPending, h.pending other hlt,
      Nat.mod_eq_of_lt hlt, Nat.mod_eq_of_lt hsignum]
    cases start.pending other <;> cases gone other <;> simp [beq_eq_decide]

theorem defaultDue (signum : Nat) (hlt : signum < NUMSIG) :
    cpu.proc.defaultDue signum = (start.pending signum && !gone signum && start.defaulted signum) := by
  rw [← Proc.defaulted_congr h.image, ← h.pending signum hlt, Proc.defaultDue, Proc.defaulted, Bool.and_assoc]

end

theorem unlocks : Unlocks silentContract (Cleared start gone ncli false) (Cleared start gone (ncli + 1) true) where
  locked cpu h := ⟨h.holding, by rw [h.ncli]; omega⟩
  unlocked cpu h := h.holding
  release cpu h := h.of_same (by simp [Cpu.unlock, h.ncli]) rfl rfl rfl
  acquire cpu _ _ h _ := h.of_same (by simp [Cpu.lock, h.ncli]) rfl rfl rfl
  paused _ _ _ := trivial
  rely _ _ _ h hrely _ := h.silent hrely
  kill cpu h := h.of_same h.ncli h.holding rfl rfl

section

variable (h : Cleared start (took start gone passed) ncli holding cpu) (hlt : signum < NUMSIG)

include h hlt

-- A signal of a loop of psig is cleared if its default action is due.
theorem take (hdue : before.proc.defaultDue signum = true) (hbefore : before.proc.image = start.image) :
    Cleared start (took start gone (passed ++ [signum])) ncli holding (cpu.clearPending signum) := by
  have hdefaulted : start.defaulted signum = true := by
    rw [← Proc.defaulted_congr hbefore]
    simp only [Proc.defaultDue, Bool.and_assoc, Bool.and_eq_true] at hdue
    simpa only [Proc.defaulted, Bool.and_eq_true] using hdue.2
  refine (h.clear signum hlt).congr ?_
  intro other _ _
  by_cases hother : other = signum
  · simp [took, hother, hdefaulted]
  · simp [took, hother]

-- And is as good as cleared if it is not.
theorem leave (hdue : cpu.proc.defaultDue signum = false) :
    Cleared start (took start gone (passed ++ [signum])) ncli holding cpu := by
  refine h.congr ?_
  intro other _ hpending
  by_cases hother : other = signum
  · subst hother
    rw [h.defaultDue other hlt, hpending] at hdue
    simp only [took, Bool.true_and] at hdue ⊢
    cases hgone : gone other <;> cases hdefaulted : start.defaulted other <;> simp_all
  · simp [took, hother]

end

theorem defaultLoop {action : Kernel Unit} {signals : List Nat}
    (haction : ∀ gone cpu, Cleared start gone (ncli + 1) true cpu →
      action.wp silentContract (fun _ => Cleared start gone (ncli + 1) true) cpu)
    (hsignals : ∀ signum ∈ signals, signum < NUMSIG) (h : Cleared start gone (ncli + 1) true cpu) :
    (Xv6.defaultLoop action signals).wp silentContract
      (fun _ => Cleared start (took start gone signals) (ncli + 1) true) cpu := by
  refine wp_mono (wp_foldlM _ (fun _ rest cpu => ∃ passed, signals = passed ++ rest ∧
    Cleared start (took start gone passed) (ncli + 1) true cpu) ?_ signals false cpu ⟨[], rfl, ?_⟩) ?_
  · intro called signum rest cpu hinv
    obtain ⟨passed, hsplit, hcpu⟩ := hinv
    have hlt := hsignals signum (by simp [hsplit])
    have hrest : signals = passed ++ [signum] ++ rest := by simp [hsplit]
    simp only [wp_bind, wp_get, wp_ite, wp_pure, wp_clearPending]
    split
    · rename_i hdue
      split
      · exact ⟨_, hrest, hcpu.take hlt hdue hcpu.image⟩
      · exact wp_mono (haction _ cpu hcpu) fun _ after hafter => ⟨_, hrest, hafter.take hlt hdue hcpu.image⟩
    · rename_i hdue
      exact ⟨_, hrest, hcpu.leave hlt (Bool.eq_false_iff.mpr hdue)⟩
  · rwa [took_nil]
  · intro called cpu hinv
    obtain ⟨passed, hsplit, hcpu⟩ := hinv
    rw [List.append_nil] at hsplit
    rwa [hsplit]

variable (h : Cleared start gone (ncli + 1) true cpu)

include h

-- While the process is stopped nothing is sent to it.
theorem stop (signum : Nat) :
    (Xv6.stop signum).wp silentContract (fun _ => Cleared start gone (ncli + 1) true) cpu := by
  rw [wp_stop signum _ cpu h.holding]
  split
  · trivial
  · refine ⟨trivial, ?_⟩
    intro next hrely _
    have hasleep : Cleared start gone (ncli + 1) true (cpu.setState .SLEEPING) := h.of_same h.ncli h.holding rfl rfl
    have hnext := hasleep.silent hrely
    exact hnext.of_same hnext.ncli hnext.holding rfl rfl

theorem psigSigstop :
    Xv6.psigSigstop.wp silentContract
      (fun _ => Cleared start (fun other => gone other || other == SIGSTOP) (ncli + 1) true) cpu := by
  simp only [Xv6.psigSigstop, wp_bind, wp_get, wp_ite, wp_pure, wp_clearPending]
  split
  · exact wp_mono (h.stop SIGSTOP) fun _ after hafter => hafter.clear SIGSTOP (by decide)
  · rename_i hnot
    refine h.congr ?_
    intro other hlt hpending
    by_cases hother : other = SIGSTOP
    · subst hother
      rw [h.pending SIGSTOP hlt, hpending] at hnot
      simpa using hnot
    · simp [hother]

theorem psigSigchld :
    Xv6.psigSigchld.wp silentContract (fun _ => Cleared start (took start gone [SIGCHLD]) (ncli + 1) true) cpu := by
  have hnone : Cleared start (took start gone []) (ncli + 1) true cpu := by rwa [took_nil]
  simp only [Xv6.psigSigchld, wp_bind, wp_get, wp_ite, wp_pure, wp_clearPending]
  split
  · rename_i hdue
    exact hnone.take (by decide) hdue h.image
  · rename_i hdue
    exact hnone.leave (by decide) (Bool.eq_false_iff.mpr hdue)

-- SIGCONT goes with the first stop signal that is due, or after the loop.
theorem psigStopsigs (called : Bool) :
    (Xv6.psigStopsigs called).wp silentContract (fun _ cpu => ∃ cont : Bool,
      (cont = true → start.defaulted SIGCONT = true) ∧
      Cleared start (took start (fun other => gone other || (cont && other == SIGCONT)) stopsig) (ncli + 1) true cpu)
      cpu := by
  have hstopsig : ∀ signum ∈ stopsig, signum < NUMSIG := by decide
  refine wp_mono (wp_foldlM _ (fun _ rest cpu => ∃ passed, stopsig = passed ++ rest ∧ ∃ cont : Bool,
    (cont = true → start.defaulted SIGCONT = true) ∧
    Cleared start (took start (fun other => gone other || (cont && other == SIGCONT)) passed) (ncli + 1) true cpu)
    ?_ stopsig called cpu ⟨[], rfl, false, by simp, ?_⟩) ?_
  · intro called signum rest cpu hinv
    obtain ⟨passed, hsplit, cont, hcont, hcpu⟩ := hinv
    have hlt := hstopsig signum (by simp [hsplit])
    have hrest : stopsig = passed ++ [signum] ++ rest := by simp [hsplit]
    simp only [wp_bind, wp_get, wp_ite, wp_pure, wp_clearPending]
    split
    · rename_i hboth
      obtain ⟨hdue, hdueCont⟩ := Bool.and_eq_true_iff.mp hboth
      have hdefaulted : start.defaulted SIGCONT = true := by
        rw [hcpu.defaultDue SIGCONT (by decide)] at hdueCont
        exact (Bool.and_eq_true_iff.mp hdueCont).2
      have hcleared : Cleared start (took start (fun other => gone other || (true && other == SIGCONT)) passed)
          (ncli + 1) true (cpu.clearPending SIGCONT) := by
        refine (hcpu.clear SIGCONT (by decide)).congr ?_
        intro other _ _
        cases cont <;> cases hother : other == SIGCONT <;> simp [took, hother]
      exact ⟨_, hrest, true, fun _ => hdefaulted, hcleared.take hlt hdue hcpu.image⟩
    · split
      · rename_i hdue
        split
        · exact ⟨_, hrest, cont, hcont, hcpu.take hlt hdue hcpu.image⟩
        · exact wp_mono (hcpu.stop signum)
            fun _ after hafter => ⟨_, hrest, cont, hcont, hafter.take hlt hdue hcpu.image⟩
      · rename_i hdue
        exact ⟨_, hrest, cont, hcont, hcpu.leave hlt (Bool.eq_false_iff.mpr hdue)⟩
  · rw [took_nil]
    simpa using h
  · intro called cpu hinv
    obtain ⟨passed, hsplit, hcpu⟩ := hinv
    rw [List.append_nil] at hsplit
    rwa [hsplit]

theorem psigSigcont :
    Xv6.psigSigcont.wp silentContract (fun _ => Cleared start (took start gone [SIGCONT]) (ncli + 1) true) cpu := by
  have hnone : Cleared start (took start gone []) (ncli + 1) true cpu := by rwa [took_nil]
  simp only [Xv6.psigSigcont, wp_bind, wp_get, wp_ite, wp_pure, wp_update, wp_clearPending]
  split
  · rename_i hdue
    have hcont : Cleared start (took start gone []) (ncli + 1) true (cpu.update Proc.cont) := by
      refine hnone.of_same h.ncli h.holding (by simp [Cpu.update]) ?_
      simp only [Cpu.update, Proc.cont]
      split <;> rfl
    exact hcont.take (by decide) hdue h.image
  · rename_i hdue
    exact hnone.leave (by decide) (Bool.eq_false_iff.mpr hdue)

theorem psigStops :
    Xv6.psigStops.wp silentContract (fun _ => Cleared start
      (took start (fun other => gone other || other == SIGSTOP) (SIGCHLD :: stopsig ++ [SIGCONT])) (ncli + 1) true)
      cpu := by
  simp only [Xv6.psigStops, wp_bind]
  refine wp_mono h.psigSigstop ?_
  intro called cpu hcpu
  refine wp_mono hcpu.psigSigchld ?_
  intro _ cpu hcpu
  refine wp_mono (hcpu.psigStopsigs called) ?_
  intro _ cpu hcpu
  obtain ⟨cont, hcont, hcpu⟩ := hcpu
  refine wp_mono hcpu.psigSigcont ?_
  intro _ cpu hcpu
  have hsplit : SIGCHLD :: stopsig ++ [SIGCONT] = [SIGCHLD] ++ (stopsig ++ [SIGCONT]) := rfl
  rw [took_took] at hcpu
  rw [hsplit, ← took_took]
  refine hcpu.congr ?_
  intro other _ _
  by_cases hother : other = SIGCONT
  · subst hother
    cases cont with
    | true => simp [took, hcont]
    | false => simp [took]
  · have hne : (other == SIGCONT) = false := by simpa using hother
    simp only [took, hne, Bool.and_false, Bool.or_false]

end Cleared

-- What psig leaves pending if nothing is sent to the process meanwhile.
theorem psig_pending {caller : Caller} {cpu after : Cpu} {result : Int} (hholding : cpu.holding = false)
    (hends : Coop.Ends Silent (psig caller cpu) (.done result after)) :
    after.proc.image = cpu.proc.image ∧ ∀ signum < NUMSIG,
      after.proc.pending signum = (cpu.proc.pending signum && !cpu.proc.takes signum) := by
  have hwp : (psig caller).wp silentContract (fun _ => Cleared cpu.proc cpu.proc.takes cpu.ncli false) cpu := by
    simp only [psig, wp_bind]
    rw [wp_acquire]
    refine ⟨trivial, ?_⟩
    intro next hrely _
    have hnone : Cleared cpu.proc (fun _ => false) cpu.ncli false cpu := ⟨rfl, hholding, rfl, by simp⟩
    have hnext := hnone.silent hrely
    rw [hnext.holding]
    have hlocked : Cleared cpu.proc (fun _ => false) (cpu.ncli + 1) true next.lock :=
      hnext.of_same (by simp [Cpu.lock, hnext.ncli]) rfl rfl rfl
    simp only [Bool.false_eq_true, ite_false]
    refine wp_mono (hlocked.defaultLoop (fun _ => wp_term Cleared.unlocks) (by decide)) ?_
    intro _ afterTerms hterms
    refine wp_mono (hterms.defaultLoop
      (fun _ cpu hcpu => wp_core Cleared.unlocks cpu hcpu (fun _ => trivial)) (by decide)) ?_
    intro _ afterCores hcores
    refine wp_mono hcores.psigStops ?_
    intro _ last hlast
    rw [wp_psigHandlers caller _ last hlast.holding (by rw [hlast.ncli]; omega)]
    split
    · have hncli : last.unlock.ncli = cpu.ncli := by simp [Cpu.unlock, hlast.ncli]
      refine (hlast.of_same hncli rfl rfl rfl).congr ?_
      intro signum _ _
      cases hdefaulted : cpu.proc.defaulted signum with
      | false => simp [took, Proc.takes, hdefaulted]
      | true => simp [took, Proc.takes, hdefaulted, psigSignals, Bool.or_assoc, Bool.or_comm, Bool.or_left_comm]
    · trivial
  have hmeets := hwp.ends (fun _ _ _ hrely => ⟨hrely, trivial⟩) hends
  exact ⟨hmeets.image, hmeets.pending⟩

theorem Proc.issig_eq_zero_iff (proc : Proc) :
    proc.issig = 0 ↔ ∀ signum < NUMSIG, proc.pending signum = true → proc.blocked signum = true := by
  simp only [pending, blocked, Mask.has_eq_getLsbD, issig]
  constructor
  · intro h signum hlt hpending
    have hbit := congrArg (fun word : Word => word.getLsbD signum) h
    rw [Nat.mod_eq_of_lt hlt] at hpending ⊢
    simpa [hpending, show signum < 32 from hlt] using hbit
  · intro h
    apply BitVec.eq_of_getLsbD_eq
    intro signum hlt
    have hbit := h signum hlt
    rw [Nat.mod_eq_of_lt hlt] at hbit
    cases hpending : proc.sigpending.getLsbD signum with
    | false => simp [hpending]
    | true => simp [hpending, hbit hpending]

end Xv6

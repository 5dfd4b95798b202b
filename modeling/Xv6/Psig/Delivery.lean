import Xv6.Psig.Spec

namespace Xv6

open Program

-- The handler entered is the one the process has installed for a signal that is
-- pending and not blocked.
def Delivery.Correct (delivery : Delivery) : Prop :=
  delivery.signum < NUMSIG ∧ delivery.chosen.pending delivery.signum = true ∧
    delivery.chosen.blocked delivery.signum = false ∧
    delivery.chosen.disposition delivery.signum = .USERDEF ∧
    delivery.handler = (delivery.chosen.allinfo (Fin.ofNat NUMSIG delivery.signum)).handler

instance (delivery : Delivery) : Decidable delivery.Correct := inferInstanceAs (Decidable (_ ∧ _))

def PsigCorrect (start : Proc) (last : Coop Cpu Point Exit Int) : Prop :=
  (∀ caller delivery cpu, last = .leave (.jmptohandler caller delivery) cpu → delivery.Correct) ∧
    ∀ signum < NUMSIG, start.blocked signum = true → start.pending signum = true →
      last.state.proc.pending signum = true

-- The handler psig would enter is that of the lowest bit of `userdefed`.
structure Proc.Deliverable (proc : Proc) : Prop where
  sigstop : proc.blocked SIGSTOP = true → proc.pending SIGSTOP = false
  first : proc.userdefed = 0 ∨
    (firstUserdefed proc.userdefed < NUMSIG ∧ proc.pending (firstUserdefed proc.userdefed) = true ∧
      proc.blocked (firstUserdefed proc.userdefed) = false ∧
      proc.disposition (firstUserdefed proc.userdefed) = .USERDEF ∧
      firstUserdefed proc.userdefed ≠ SIGSTOP)

-- Others do nothing but leave the console, and a stopped process is killed, which lets it go on.
def Quiet (point : Point) (before after : Cpu) : Prop :=
  after = match point with
    | .sched _ => before.update Proc.kill
    | _ => { before with console := false }

structure Fewer (start : Proc) (ncli : Nat) (holding : Bool) (cpu : Cpu) : Prop where
  ncli : cpu.ncli = ncli
  holding : cpu.holding = holding
  console : cpu.console = false
  pending : ∀ signum, cpu.proc.pending signum = true → start.pending signum = true

def quietContract (start : Proc) : Contract Cpu Point Exit where
  rely := Quiet
  ready := fun _ _ => True
  paused := fun point cpu => ∀ why, point = .sched why → cpu.proc.state = .SLEEPING
  leaves := fun way _ => way ≠ .deadlock ∧ ∀ caller delivery, way = .jmptohandler caller delivery →
    delivery.chosen.pending SIGSTOP = false ∧
      ∀ signum, delivery.chosen.pending signum = true → start.pending signum = true

variable {cpu : Cpu} {last : Coop Cpu Point Exit Int} {caller : Caller}

section QuietRun

variable {start : Proc} (ncli : Nat)

variable {holding : Bool}

theorem Fewer.clearPending {ncli : Nat} (h : Fewer start ncli holding cpu) (signum : Nat) :
    Fewer start ncli holding (cpu.clearPending signum) := by
  refine ⟨h.ncli, h.holding, h.console, ?_⟩
  intro other hother
  apply h.pending
  simp only [Cpu.clearPending, Cpu.update, Proc.pending_clearPending, Bool.and_eq_true] at hother
  exact hother.1

theorem Fewer.cont {ncli : Nat} (h : Fewer start ncli holding cpu) : Fewer start ncli holding (cpu.update Proc.cont) :=
  ⟨h.ncli, h.holding, h.console, fun signum => by simpa [Cpu.update] using h.pending signum⟩

theorem quiet_windows : Windows (quietContract start) (Fewer start ncli false) (Fewer start (ncli + 1) true) where
  locked cpu h := ⟨h.holding, by rw [h.ncli]; omega⟩
  unlocked cpu h := h.holding
  release cpu h := ⟨by simp [Cpu.unlock, h.ncli], rfl, h.console, h.pending⟩
  acquire cpu _ _ h _ := ⟨by simp [Cpu.lock, h.ncli], rfl, h.console, h.pending⟩
  paused _ _ _ := nofun
  rely cpu next _ h hrely _ := by
    rw [show next = { cpu with console := false } from hrely]
    exact ⟨h.ncli, h.holding, rfl, h.pending⟩
  kill cpu h := ⟨h.ncli, h.holding, h.console, h.pending⟩
  clear _ _ signum _ _ _ h := h.clearPending signum

theorem quiet_stops (cpu : Cpu) : Stops (quietContract start) cpu (Fewer cpu.proc (ncli + 1) true)
    (fun _ last => Fewer cpu.proc (ncli + 1) true last ∧ last.proc.pending SIGSTOP = false) where
  clear _ signum _ _ h := h.clearPending signum
  cont _ h := h.cont
  stop before signum rest h _ hstops := by
    rw [wp_stop signum _ before h.holding]
    split
    · refine ⟨by simp, ?_⟩
      intro _ _ hexit
      cases hexit
    · refine ⟨fun _ _ => rfl, ?_⟩
      rintro next rfl -
      have hnext : Fewer cpu.proc (ncli + 1) true
          ((((before.setState .SLEEPING).update Proc.kill).setState .RUNNING)) :=
        ⟨h.ncli, h.holding, h.console, h.pending⟩
      refine ⟨hnext.clearPending signum, ?_⟩
      rcases hstops with ⟨rfl, -, -⟩ | ⟨hpending, -, -⟩
      · simp [Cpu.clearPending, Cpu.update, Proc.pending_clearPending]
      · exact Cpu.pending_clearPending_of_false _ hpending
  clearAfter _ signum _ _ _ h := ⟨h.1.clearPending signum, Cpu.pending_clearPending_of_false _ h.2⟩
  contAfter _ h := ⟨h.1.cont, by simpa [Cpu.update] using h.2⟩
  pass _ _ _ _ h := h

theorem psig_quiet (caller : Caller) (cpu : Cpu) (hholding : cpu.holding = false) :
    (psig caller).wp (quietContract cpu.proc) (fun _ last => last.proc.pending SIGSTOP = false) cpu := by
  refine wp_psig (quiet_windows cpu.ncli) caller _ cpu nofun ?_ ?_ ?_
  · rintro next rfl -
    exact ⟨hholding, rfl, rfl, rfl, fun _ hpending => hpending⟩
  · intro _ h hconsole
    rw [h.console] at hconsole
    cases hconsole
  · intro middle hmiddle
    refine wp_mono (wp_psigStops (quiet_stops cpu.ncli middle)
      ⟨hmiddle.ncli, hmiddle.holding, hmiddle.console, fun _ hpending => hpending⟩) ?_
    intro _ last hlast
    have hfewer : Fewer middle.proc (cpu.ncli + 1) true last := hlast.elim (fun h => h.2) (fun h => h.2.1)
    have hstop : last.proc.pending SIGSTOP = false := by
      rcases hlast with ⟨hdue, _⟩ | ⟨_, _, hpending⟩
      · simp only [Proc.stopDue, Bool.or_eq_false_iff] at hdue
        by_contra hpending
        rw [hfewer.pending SIGSTOP (Bool.eq_true_of_not_eq_false hpending)] at hdue
        exact absurd hdue.1 (by simp)
      · exact hpending
    rw [wp_psigHandlers caller _ last hfewer.holding (by rw [hfewer.ncli]; omega)]
    split
    · exact hstop
    · refine ⟨by simp, ?_⟩
      intro _ delivery hdelivery
      obtain ⟨rfl, rfl⟩ := Exit.jmptohandler.inj hdelivery
      exact ⟨hstop, fun signum hpending => hmiddle.pending signum (hfewer.pending signum hpending)⟩

end QuietRun

-- Every end of psig, with no other lock held on entry, returns or goes to a handler, unless it is stuck.
theorem psig_ends (hncli : cpu.ncli = 0) (hholding : cpu.holding = false)
    (hends : Coop.Ends Others (psig caller cpu) last) :
    (∃ after, last = .leave .deadlock after ∧ cpu.proc.Keeps after.proc) ∨
      (∃ result after, last = .done result after ∧ cpu.proc.Keeps after.proc ∧ after.proc.userdefed = 0) ∨
      ∃ chosen after, last = .leave (.jmptohandler caller chosen.delivery) after ∧
        cpu.proc.Keeps chosen ∧ chosen.userdefed ≠ 0 ∧ after.proc = chosen.deliver := by
  have hmeets := (psig_spec caller cpu hholding).ends (fun _ _ _ hothers => ⟨hothers, trivial⟩) hends
  rcases hends.final with ⟨result, after, rfl⟩ | ⟨way, after, rfl⟩
  · exact .inr (.inl ⟨result, after, rfl, hmeets.2.1.keeps, hmeets.2.2⟩)
  · cases way with
    | jmptohandler from_ delivery =>
      obtain ⟨rfl, _, _, chosen, hkeeps, huserdefed, rfl, hproc⟩ := hmeets
      exact .inr (.inr ⟨chosen, after, rfl, hkeeps, huserdefed, hproc⟩)
    | deadlock => exact .inl ⟨after, rfl, hmeets⟩
    | panic panic => exact absurd hncli hmeets.1
    | restoreuser context | exit | fuel => exact hmeets.elim

theorem exists_quiet_end (caller : Caller) (cpu : Cpu) (hholding : cpu.holding = false) :
    ∃ last, Coop.Ends Others (psig caller cpu) last ∧
      last.Meets (quietContract cpu.proc) (fun _ after => after.proc.pending SIGSTOP = false) := by
  have hquiet := psig_quiet caller cpu hholding
  have hrun : ∃ last, Coop.Ends (fun point before after => Quiet point before after ∧ Others point before after)
      (psig caller cpu) last := by
    refine Coop.exists_ends hquiet ?_
    intro point before hpaused
    cases point with
    | sched why =>
      refine ⟨before.update Proc.kill, ⟨rfl, .single _ .kill, rfl, ?_⟩, rfl, trivial⟩
      intro _ _
      simp [Cpu.update, Proc.kill, hpaused why rfl]
    | lock site | spin | running => exact ⟨_, ⟨rfl, .refl _, rfl, by simp⟩, rfl, trivial⟩
  obtain ⟨last, hends⟩ := hrun
  exact ⟨last, hends.mono (fun _ _ _ h => h.2), hquiet.ends (fun _ _ _ h => ⟨h.1, trivial⟩) hends⟩

-- With a handler installed, psig can always be run to the handler.
theorem exists_delivery (caller : Caller) (cpu : Cpu) (hncli : cpu.ncli = 0) (hholding : cpu.holding = false)
    (huserdefed : cpu.proc.userdefed ≠ 0) : ∃ delivery after,
    Coop.Ends Others (psig caller cpu) (.leave (.jmptohandler caller delivery) after) := by
  obtain ⟨last, hends, hquiet⟩ := exists_quiet_end caller cpu hholding
  rcases psig_ends hncli hholding hends with ⟨_, rfl, -⟩ | ⟨_, after, -, hkeeps, hnone⟩ | ⟨chosen, after, rfl, -⟩
  · exact absurd rfl hquiet.1
  · rw [Proc.userdefed_congr hkeeps.image] at hnone
    exact absurd hnone huserdefed
  · exact ⟨chosen.delivery, after, hends⟩

theorem Proc.pending_deliver (proc : Proc) (signum : Nat) : proc.deliver.pending signum =
    (proc.pending signum && !decide (signum % 32 = firstUserdefed proc.userdefed % 32)) :=
  Mask.has_clear proc.sigpending (firstUserdefed proc.userdefed) signum

theorem Proc.Deliverable.correct (h : cpu.proc.Deliverable) (hncli : cpu.ncli = 0) (hholding : cpu.holding = false)
    (hends : Coop.Ends Others (psig caller cpu) last) : PsigCorrect cpu.proc last := by
  -- A blocked signal is kept; SIGSTOP is not pending if it is blocked.
  have hkept : ∀ proc signum, cpu.proc.Keeps proc → signum < NUMSIG → cpu.proc.blocked signum = true →
      cpu.proc.pending signum = true → proc.pending signum = true := by
    intro proc signum hkeeps hlt hblocked hpending
    refine hkeeps.pending signum hpending (.inl hblocked) ?_
    intro heq
    rw [Nat.mod_eq_of_lt hlt] at heq
    subst heq
    rw [h.sigstop hblocked] at hpending
    cases hpending
  rcases psig_ends hncli hholding hends with ⟨after, rfl, hkeeps⟩ | ⟨result, after, rfl, hkeeps, _⟩ |
    ⟨chosen, after, rfl, hkeeps, huserdefed, hproc⟩
  · refine ⟨?_, fun signum hlt => hkept after.proc signum hkeeps hlt⟩
    intro _ _ _ hleave
    cases hleave
  · refine ⟨?_, fun signum hlt => hkept after.proc signum hkeeps hlt⟩
    intro _ _ _ hleave
    cases hleave
  · have hsame := Proc.userdefed_congr hkeeps.image
    rw [hsame] at huserdefed
    obtain ⟨hlt, hpending, hblocked, hdisposition, hstop⟩ := h.first.resolve_left huserdefed
    have hmod : firstUserdefed cpu.proc.userdefed % 32 = firstUserdefed cpu.proc.userdefed :=
      Nat.mod_eq_of_lt hlt
    constructor
    · intro _ delivery _ hleave
      cases hleave
      simp only [Delivery.Correct, Proc.delivery, Proc.handler, hsame]
      refine ⟨hlt, ?_, ?_, ?_, if_pos hlt⟩
      · exact hkeeps.pending _ hpending (.inr (by simp [hdisposition])) (by rwa [hmod])
      · rwa [Proc.blocked_congr hkeeps.image]
      · rwa [Proc.disposition_congr hkeeps.image]
    · intro signum hsignum hother hpending
      simp only [Coop.state, hproc, Proc.pending_deliver, hsame, hkept chosen signum hkeeps hsignum hother hpending,
        Bool.true_and, Bool.not_eq_true', decide_eq_false_iff_not]
      intro heq
      rw [Proc.blocked, Mask.has_congr _ heq] at hother
      exact absurd hblocked (by simp [Proc.blocked, hother])

-- The run in which the others leave psig alone already decides the converse.
theorem deliverable_of_correct (hncli : cpu.ncli = 0) (hholding : cpu.holding = false)
    (h : ∀ last, Coop.Ends Others (psig caller cpu) last → PsigCorrect cpu.proc last) : cpu.proc.Deliverable := by
  obtain ⟨last, hends, hquiet⟩ := exists_quiet_end caller cpu hholding
  obtain ⟨hcorrect, hkept⟩ := h last hends
  rcases psig_ends hncli hholding hends with ⟨after, rfl, -⟩ | ⟨result, after, rfl, hkeeps, huserdefed⟩ |
    ⟨chosen, after, rfl, hkeeps, huserdefed, hproc⟩
  · exact absurd rfl hquiet.1
  · refine ⟨?_, .inl (by rw [← Proc.userdefed_congr hkeeps.image, huserdefed])⟩
    intro hblocked
    by_contra hpending
    have hstill := hkept SIGSTOP (by decide) hblocked (Bool.eq_true_of_not_eq_false hpending)
    rw [Coop.state, hquiet] at hstill
    cases hstill
  · obtain ⟨hstop, hfewer⟩ := hquiet.2 caller chosen.delivery rfl
    obtain ⟨hlt, hpending, hblocked, hdisposition, _⟩ := hcorrect caller _ after rfl
    have hsame := Proc.userdefed_congr hkeeps.image
    simp only [Proc.delivery, hsame] at hlt hpending hblocked hdisposition hfewer hstop
    constructor
    · intro hsigstop
      by_contra hpending
      have hstill := hkept SIGSTOP (by decide) hsigstop (Bool.eq_true_of_not_eq_false hpending)
      rw [Coop.state, hproc, Proc.pending_deliver, hstop] at hstill
      cases hstill
    · refine .inr ⟨hlt, hfewer _ hpending, ?_, ?_, ?_⟩
      · rwa [← Proc.blocked_congr hkeeps.image]
      · rwa [← Proc.disposition_congr hkeeps.image]
      · intro heq
        rw [heq, hstop] at hpending
        cases hpending

end Xv6

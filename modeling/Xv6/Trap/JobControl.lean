import Xv6.Trap.Stopped

namespace Xv6

open Program List

-- The signals of job control, all with their default actions and none blocked.
structure Proc.Defaults (proc : Proc) : Prop where
  disposition : ∀ signum, proc.disposition signum = .DFL
  blocked : proc.sigblocked = 0
  userdefed : proc.userdefed = 0
  pending : ∀ signum < 32, proc.pending signum = true → signum ∈ stopsig

def Proc.stopPending (proc : Proc) : Bool := stopsig.any proc.pending

-- The last signal sent is one that stops the process.
def Cpu.lastStops (cpu : Cpu) : Prop := ∃ signum ∈ stopsig, cpu.sent = some signum

instance (cpu : Cpu) : Decidable cpu.lastStops :=
  inferInstanceAs (Decidable (∃ signum ∈ stopsig, cpu.sent = some signum))

-- A process that looks for signals over and over, and others that send it these signals.
def jobs : System Cpu Point Exit { signum : Nat // signum ∈ SIGCONT :: stopsig } Unit Empty where
  env signum cpu := cpu.env (.Kill signum)
  entry _ := do
    checkSignals .syscall
    modify fun cpu => { cpu with answered := true }
  interrupt irq := nomatch irq
  enabled _ _ := false
  ready := kernel.ready
  final _ := true

-- SIGCONT is sent to a process that is in `stop` or has no stop signal pending. A stop
-- signal is not sent to one that is about to leave `stop`, or that is stopped by a
-- signal of a higher number, past which the loop of psig has gone.
def sentInOrder : Option Point → Cpu → Label { signum : Nat // signum ∈ SIGCONT :: stopsig } Unit Empty → Bool
  | some (.sched (.stop signum)), cpu, .env sent =>
    sent.val == SIGCONT || (cpu.proc.state == .SLEEPING && decide (signum ≤ sent.val))
  | _, cpu, .env sent => sent.val != SIGCONT || !cpu.proc.stopPending
  | _, _, _ => true

structure Fresh (cpu : Cpu) : Prop where
  defaults : cpu.proc.Defaults
  sigpending : cpu.proc.sigpending = 0
  ncli : cpu.ncli = 0
  holding : cpu.holding = false
  sent : cpu.sent = none

-- The process has dealt with all signals sent, or it is stopped.
def Stopped (thread : Thread Cpu Point Exit) : Prop :=
  (∃ signum, thread.point = some (.sched (.stop signum))) ∧ thread.state.proc.state = .SLEEPING

def Settled (thread : Thread Cpu Point Exit) : Prop :=
  (thread.stack = [] ∧ thread.state.answered = true) ∨ Stopped thread

variable {proc : Proc} {signum : Nat} {cpu start : Cpu} {rest : List Nat}

namespace Proc

theorem Defaults.of_le {next : Proc} (h : proc.Defaults) (himage : next.image = proc.image)
    (hpending : ∀ signum, next.pending signum = true → proc.pending signum = true) : next.Defaults where
  disposition signum := (disposition_congr himage signum).trans (h.disposition signum)
  blocked := ((image_eq_iff _ _).mp himage).2.2.2.1.trans h.blocked
  userdefed := (userdefed_congr himage).trans h.userdefed
  pending signum hlt hnext := h.pending signum hlt (hpending signum hnext)

theorem Defaults.defaultDue (h : proc.Defaults) (signum : Nat) : proc.defaultDue signum = proc.pending signum := by
  simp [Proc.defaultDue, Proc.blocked, h.blocked, h.disposition]

theorem Defaults.pending_eq_false (h : proc.Defaults) (hlt : signum < 32) (hsignum : signum ∉ stopsig) :
    proc.pending signum = false := by
  by_contra hpending
  exact hsignum (h.pending signum hlt (Bool.eq_true_of_not_eq_false hpending))

theorem pending_of_clearPending {other : Nat} (h : (proc.clearPending signum).pending other = true) :
    proc.pending other = true :=
  Mask.has_of_has_clear h

theorem stopPending_eq_true_iff (proc : Proc) :
    proc.stopPending = true ↔ ∃ signum ∈ stopsig, proc.pending signum = true := by
  rw [stopPending, any_eq_true]

variable (h : proc.Defaults)

include h

theorem Defaults.stopDueIn (signals : List Nat) : proc.stopDueIn signals = signals.any proc.pending := by
  have hcont : proc.defaultDue SIGCONT = false := by
    rw [h.defaultDue]
    exact h.pending_eq_false (by decide) (by decide)
  induction signals with
  | nil => rfl
  | cons signum rest ih =>
    simp only [Proc.stopDueIn, hcont, Bool.and_false, Bool.false_eq_true, ite_false, h.defaultDue, any_cons, ih]
    cases proc.pending signum <;> rfl

theorem Defaults.stopDue : proc.stopDue = proc.stopPending := by
  rw [Proc.stopDue, h.stopDueIn, stopPending]
  simp [stopsig]

theorem Defaults.signalled_sigcont : proc.signalled SIGCONT = proc.cont := by
  have hrange : ¬(SIGCONT = 0 ∨ CURRNUM < SIGCONT) := by decide
  rw [signalled, if_neg hrange]
  simp [receive, h.disposition]

theorem Defaults.signalled_stop (hsignum : signum ∈ stopsig) : proc.signalled signum = proc.setPending signum := by
  have hrange : ∀ signum ∈ stopsig, signum ≠ 0 ∧ ¬CURRNUM < signum ∧ signum ≠ SIGKILL ∧ signum ≠ SIGCHLD ∧
      signum ≠ SIGCONT := by decide
  obtain ⟨hzero, hmax, hkill, hchld, hcont⟩ := hrange signum hsignum
  simp [signalled, receive, h.disposition, hzero, hkill, hchld, hcont, Nat.not_lt.mp hmax]

end Proc

abbrev Target (ncli : Nat) (holding : Bool) : Cpu → Prop := At (fun cpu => cpu.proc.Defaults) ncli holding

-- Outside `stop`, a stop signal is pending exactly if one was sent last.
def Outside (cpu : Cpu) : Prop := Target 0 false cpu ∧ (cpu.proc.stopPending = true ↔ cpu.lastStops)

-- In `stop`, only SIGCONT ends the sleep, and psig will clear all that is pending.
structure Suspended (signum : Nat) (cpu : Cpu) : Prop where
  target : Target 1 true cpu
  stops : signum ∈ stopsig
  later : ∀ other < 32, cpu.proc.pending other = true → signum ≤ other
  sent : if cpu.proc.state = .SLEEPING then cpu.lastStops else cpu.sent = some SIGCONT

def jobInvariant : Point → Cpu → Prop
  | .sched (.stop signum), cpu => Suspended signum cpu
  | .sched _, _ => False
  | _, cpu => Outside cpu

def jobContract : Contract Cpu Point Exit where
  rely point before after := jobInvariant point before → jobInvariant point after
  ready point cpu := jobs.ready point cpu = true
  paused := jobInvariant
  leaves _ _ := False

-- The stop stage before `stop` is called.
structure BeforeStop (start cpu : Cpu) : Prop where
  target : Target 1 true cpu
  sent : cpu.sent = start.sent
  pending : ∀ signum, cpu.proc.pending signum = true → start.proc.pending signum = true

-- And after: what is pending is cleared in the rest of the loop.
structure AfterStop (rest : List Nat) (cpu : Cpu) : Prop where
  target : Target 1 true cpu
  sent : cpu.sent = some SIGCONT
  pending : ∀ signum < 32, cpu.proc.pending signum = true → signum ∈ rest

theorem Target.update {ncli : Nat} {holding : Bool} (h : Target ncli holding cpu) (change : Proc → Proc)
    (himage : (change cpu.proc).image = cpu.proc.image)
    (hpending : ∀ signum, (change cpu.proc).pending signum = true → cpu.proc.pending signum = true) :
    Target ncli holding (cpu.update change) :=
  ⟨h.keep.of_le himage hpending, h.ncli, h.holding⟩

theorem BeforeStop.update (h : BeforeStop start cpu) (change : Proc → Proc)
    (himage : (change cpu.proc).image = cpu.proc.image)
    (hpending : ∀ signum, (change cpu.proc).pending signum = true → cpu.proc.pending signum = true) :
    BeforeStop start (cpu.update change) :=
  ⟨h.target.update change himage hpending, h.sent, fun signum hsignum => h.pending signum (hpending signum hsignum)⟩

theorem AfterStop.update (h : AfterStop rest cpu) (change : Proc → Proc)
    (himage : (change cpu.proc).image = cpu.proc.image)
    (hpending : ∀ signum, (change cpu.proc).pending signum = true → cpu.proc.pending signum = true) :
    AfterStop rest (cpu.update change) :=
  ⟨h.target.update change himage hpending, h.sent,
    fun signum hlt hsignum => h.pending signum hlt (hpending signum hsignum)⟩

theorem stopsig_sorted : stopsig.Pairwise (· < ·) := by decide

-- The loop comes to the stop signals in the order of their numbers.
theorem stopsig_split {passed : List Nat} (h : stopsig = passed ++ signum :: rest) :
    signum ∈ stopsig ∧ ∀ other ∈ stopsig, (other ∈ passed ↔ other < signum) ∧ (other ∈ rest ↔ signum < other) := by
  have hsorted := stopsig_sorted
  rw [h, pairwise_append, pairwise_cons] at hsorted
  obtain ⟨_, ⟨hrest, _⟩, hpassed⟩ := hsorted
  refine ⟨by simp [h], ?_⟩
  intro other hother
  rw [h, mem_append, mem_cons] at hother
  have hbelow : other ∈ passed → other < signum := fun hmem => hpassed other hmem signum (by simp)
  have habove : other ∈ rest → signum < other := hrest other
  rcases hother with hmem | rfl | hmem
  · have hlt := hbelow hmem
    exact ⟨⟨fun _ => hlt, fun _ => hmem⟩, habove, fun hgt => by omega⟩
  · exact ⟨⟨hbelow, fun hlt => by omega⟩, habove, fun hgt => by omega⟩
  · have hgt := habove hmem
    exact ⟨⟨hbelow, fun hlt => by omega⟩, habove, fun _ => hmem⟩

-- When psig stops the process for a signal, no other of a lower number is pending and
-- the loop has yet to come to all of a higher number.
theorem Proc.Defaults.stopsAt (h : proc.Defaults) (hat : proc.stopsAt signum rest) :
    signum ∈ stopsig ∧ (∀ other ∈ stopsig, proc.pending other = true → signum ≤ other) ∧
      ∀ other ∈ stopsig, signum < other → other ∈ rest := by
  rcases hat with ⟨rfl, rfl, _⟩ | ⟨_, _, passed, hsplit, hpassed⟩
  · have hfirst : ∀ other ∈ stopsig, SIGSTOP ≤ other := by decide
    exact ⟨by decide, fun other hother _ => hfirst other hother, fun other hother _ => hother⟩
  · obtain ⟨hsignum, horder⟩ := stopsig_split hsplit
    refine ⟨hsignum, ?_, fun other hother hlt => (horder other hother).2.mpr hlt⟩
    intro other hother hpending
    by_contra hlt
    have hdue := hpassed other ((horder other hother).1.mpr (by omega))
    rw [h.defaultDue, hpending] at hdue
    cases hdue

theorem job_stop (hstart : start.lastStops) (h : BeforeStop start cpu) (hat : cpu.proc.stopsAt signum rest) :
    (stop signum).wp jobContract (fun _ cpu => AfterStop rest (cpu.clearPending signum)) cpu := by
  obtain ⟨hsignum, hlater, hrest⟩ := h.target.keep.stopsAt hat
  rw [wp_stop signum _ cpu h.target.holding, if_neg (by simp [h.target.ncli])]
  have hasleep : Suspended signum (cpu.setState .SLEEPING) := by
    refine ⟨h.target.update _ rfl (fun _ => id), hsignum, ?_, ?_⟩
    · exact fun other hlt hother => hlater other (h.target.keep.pending other hlt hother) hother
    · have hlast : cpu.lastStops := by simpa only [Cpu.lastStops, h.sent] using hstart
      exact hlast
  refine ⟨hasleep, ?_⟩
  intro next hrely hready
  obtain ⟨htarget, _, hlater, hsent⟩ : Suspended signum next := hrely hasleep
  have hrunnable : next.proc.state = .RUNNABLE := by simpa [jobContract, jobs, kernel] using hready
  rw [hrunnable] at hsent
  have hcleared : ∀ other, ((next.setState .RUNNING).clearPending signum).proc.pending other =
      (next.proc.pending other && !decide (other % 32 = signum % 32)) :=
    fun other => Proc.pending_clearPending (next.setState .RUNNING).proc signum other
  refine ⟨(htarget.update _ rfl (fun _ => id)).update _ rfl (fun _ => Proc.pending_of_clearPending), hsent, ?_⟩
  intro other hlt hother
  rw [hcleared] at hother
  simp only [Bool.and_eq_true, Bool.not_eq_true', decide_eq_false_iff_not] at hother
  obtain ⟨hpending, hne⟩ := hother
  have hle := hlater other hlt hpending
  have hother : other ≠ signum := fun heq => hne (by rw [heq])
  exact hrest other (htarget.keep.pending other hlt hpending) (by omega)

section

variable (hstart : Target 1 true start) (hagree : start.proc.stopPending = true ↔ start.lastStops)

include hstart hagree

theorem job_stops : Stops jobContract start (BeforeStop start) AfterStop where
  clear _ _ _ _ hcpu := hcpu.update _ rfl (fun _ => Proc.pending_of_clearPending)
  cont cpu hcpu := hcpu.update _ cpu.proc.image_cont (fun signum h => cpu.proc.pending_cont signum ▸ h)
  stop _ _ _ hcpu hdue hat := job_stop (hagree.mp (hstart.keep.stopDue ▸ hdue)) hcpu hat
  clearAfter _ _ _ _ _ hcpu := hcpu.update _ rfl (fun _ => Proc.pending_of_clearPending)
  contAfter cpu hcpu := hcpu.update _ cpu.proc.image_cont (fun signum h => cpu.proc.pending_cont signum ▸ h)
  pass cpu signum rest hdue hcpu := by
    refine ⟨hcpu.target, hcpu.sent, ?_⟩
    intro other hlt hother
    refine (mem_cons.mp (hcpu.pending other hlt hother)).resolve_left ?_
    rintro rfl
    rw [hcpu.target.keep.defaultDue, hother] at hdue
    cases hdue

-- After the stop stage nothing is left, and the last signal was not one that stops.
theorem job_stop_stage :
    psigStops.wp jobContract
      (fun _ cpu => Target 1 true cpu ∧ cpu.proc.stopPending = false ∧ ¬cpu.lastStops) start := by
  have hnone : ∀ proc : Proc, (∀ signum ∈ stopsig, proc.pending signum = false) → proc.stopPending = false := by
    intro proc hproc
    rw [Proc.stopPending, any_eq_false]
    exact fun signum hsignum => by simp [hproc signum hsignum]
  refine wp_mono (wp_psigStops (job_stops hstart hagree) ⟨hstart, rfl, fun _ => id⟩) ?_
  rintro _ cpu (⟨hdue, hcpu⟩ | ⟨_, hcpu⟩)
  · rw [hstart.keep.stopDue] at hdue
    have hlast : ¬start.lastStops := by
      rw [← hagree, hdue]
      exact Bool.false_ne_true
    refine ⟨hcpu.target, hnone cpu.proc ?_, by simpa only [Cpu.lastStops, hcpu.sent] using hlast⟩
    intro signum hsignum
    by_contra hpending
    have hbefore := hcpu.pending signum (Bool.eq_true_of_not_eq_false hpending)
    exact (any_eq_false.mp hdue) signum hsignum hbefore
  · have hlt : ∀ signum ∈ stopsig, signum < 32 ∧ signum ≠ SIGCONT := by decide
    refine ⟨hcpu.target, hnone cpu.proc ?_, ?_⟩
    · intro signum hsignum
      by_contra hpending
      exact not_mem_nil (hcpu.pending signum (hlt signum hsignum).1 (Bool.eq_true_of_not_eq_false hpending))
    · rintro ⟨signum, hsignum, hsent⟩
      rw [hcpu.sent, Option.some.injEq] at hsent
      exact (hlt signum hsignum).2 hsent.symm

end

-- psig has nothing left to do.
def Answered (cpu : Cpu) : Prop := Outside cpu ∧ cpu.proc.stopPending = false

theorem job_psig (hcpu : Outside cpu) : (psig .syscall).wp jobContract (fun _ => Answered) cpu := by
  rw [psig, wp_bind, wp_acquire]
  refine ⟨hcpu, ?_⟩
  intro next hrely _
  obtain ⟨htarget, hagree⟩ : Outside next := hrely hcpu
  rw [if_neg (by simp [htarget.holding])]
  have hlock : Target 1 true next.lock := ⟨htarget.keep, by simp [Cpu.lock, htarget.ncli], rfl⟩
  have hdue : ∀ signum ∈ termsig ++ coresig, next.lock.proc.defaultDue signum = false := by
    have hother : ∀ signum ∈ termsig ++ coresig, signum < 32 ∧ signum ∉ stopsig := by decide
    intro signum hsignum
    obtain ⟨hlt, hstop⟩ := hother signum hsignum
    rw [hlock.keep.defaultDue]
    exact hlock.keep.pending_eq_false hlt hstop
  simp only [wp_bind]
  refine wp_defaultLoop_of_none term termsig _ _ (fun _ hm => hdue _ (mem_append_left _ hm)) ?_
  refine wp_defaultLoop_of_none core coresig _ _ (fun _ hm => hdue _ (mem_append_right _ hm)) ?_
  refine wp_mono (job_stop_stage hlock hagree) ?_
  rintro _ last ⟨hlast, hpending, hnot⟩
  rw [wp_psigHandlers .syscall _ last hlast.holding (by simp [hlast.ncli]), if_pos hlast.keep.userdefed]
  have hunlock : Target 0 false last.unlock := ⟨hlast.keep, by simp [Cpu.unlock, hlast.ncli], rfl⟩
  have hsame : last.unlock.proc.stopPending = false := hpending
  refine ⟨⟨hunlock, ?_⟩, hsame⟩
  rw [hsame]
  exact ⟨fun h => absurd h Bool.false_ne_true, fun h => absurd h hnot⟩

-- Between two calls of psig.
def Waiting (cpu : Cpu) : Prop := Outside cpu ∧ (cpu.answered = true → cpu.proc.stopPending = false)

theorem job_entry (hcpu : Waiting cpu) : (jobs.entry ()).wp jobContract (fun _ => Waiting) cpu := by
  have hcheck : (checkSignals .syscall).wp jobContract (fun _ => Answered) cpu := by
    simp only [checkSignals, wp_bind, wp_pause, wp_get, wp_ite, wp_pure]
    refine ⟨hcpu.1, ?_⟩
    intro next hrely _
    have hnext : Outside next := hrely hcpu.1
    split
    · rename_i hissig
      have hzero : next.proc.sigpending = 0 := by
        have hall : ~~~(0 : Word) = BitVec.allOnes 32 := by decide
        rwa [Proc.issig, hnext.1.keep.blocked, hall, BitVec.and_allOnes] at hissig
      refine ⟨hnext, ?_⟩
      simp [Proc.stopPending, Proc.pending, hzero]
    · exact job_psig hnext
  simp only [jobs, wp_bind, wp_modify]
  refine wp_mono hcheck ?_
  rintro _ last ⟨hlast, hpending⟩
  exact ⟨⟨⟨hlast.1.keep, hlast.1.ncli, hlast.1.holding⟩, hlast.2⟩, fun _ => hpending⟩

theorem Proc.Defaults.setPending (h : proc.Defaults) (hsignum : signum ∈ stopsig) :
    (proc.setPending signum).Defaults ∧
      ∀ other < 32, (proc.setPending signum).pending other = true → proc.pending other = true ∨ other = signum := by
  have hrange : ∀ signum ∈ stopsig, signum < 32 := by decide
  have hlt := hrange signum hsignum
  have hpending : ∀ other < 32, (proc.setPending signum).pending other = true →
      proc.pending other = true ∨ other = signum := by
    intro other hother hset
    rw [pending_setPending, Nat.mod_eq_of_lt hother, Nat.mod_eq_of_lt hlt] at hset
    simpa using hset
  refine ⟨⟨h.disposition, h.blocked, h.userdefed, ?_⟩, hpending⟩
  intro other hother hset
  rcases hpending other hother hset with hbefore | rfl
  · exact h.pending other hother hbefore
  · exact hsignum

-- What `Kill` does for each of the two kinds of signal.
theorem Proc.Defaults.env_sigcont (h : cpu.proc.Defaults) :
    cpu.env (.Kill SIGCONT) = { cpu with proc := cpu.proc.cont, sent := some SIGCONT, answered := false } := by
  simp only [Cpu.env, h.signalled_sigcont]

theorem Proc.Defaults.env_stop (h : cpu.proc.Defaults) (hsignum : signum ∈ stopsig) :
    cpu.env (.Kill signum) =
      { cpu with proc := cpu.proc.setPending signum, sent := some signum, answered := false } := by
  simp only [Cpu.env, h.signalled_stop hsignum]

theorem Outside.env (h : Outside cpu) (hsignum : signum ∈ SIGCONT :: stopsig)
    (hgood : signum ≠ SIGCONT ∨ cpu.proc.stopPending = false) : Outside (cpu.env (.Kill signum)) := by
  obtain ⟨htarget, _⟩ := h
  have hdefaults := htarget.keep
  rcases mem_cons.mp hsignum with rfl | hstop
  · have hnone : cpu.proc.stopPending = false := hgood.resolve_left (fun hne => hne rfl)
    rw [hdefaults.env_sigcont]
    refine ⟨⟨hdefaults.of_le cpu.proc.image_cont (fun other h => cpu.proc.pending_cont other ▸ h),
      htarget.ncli, htarget.holding⟩, ?_⟩
    have hpending : cpu.proc.cont.stopPending = false := by simpa [Proc.stopPending] using hnone
    have hlast : ∀ signum ∈ stopsig, signum ≠ SIGCONT := by decide
    simp only [hpending, Bool.false_eq_true, false_iff]
    rintro ⟨signum, hsignum, hsent⟩
    exact hlast signum hsignum (Option.some.inj hsent).symm
  · rw [hdefaults.env_stop hstop]
    refine ⟨⟨(hdefaults.setPending hstop).1, htarget.ncli, htarget.holding⟩, ?_⟩
    have hpending : (cpu.proc.setPending signum).stopPending = true := by
      rw [Proc.stopPending_eq_true_iff]
      exact ⟨signum, hstop, by simp [Proc.pending_setPending]⟩
    exact ⟨fun _ => ⟨signum, hstop, rfl⟩, fun _ => hpending⟩

theorem Suspended.env {on : Nat} (h : Suspended on cpu) (hsignum : signum ∈ SIGCONT :: stopsig)
    (hgood : signum = SIGCONT ∨ (cpu.proc.state = .SLEEPING ∧ on ≤ signum)) :
    Suspended on (cpu.env (.Kill signum)) := by
  obtain ⟨htarget, hon, hlater, _⟩ := h
  have hdefaults := htarget.keep
  rcases mem_cons.mp hsignum with rfl | hstop
  · rw [hdefaults.env_sigcont]
    refine ⟨⟨hdefaults.of_le cpu.proc.image_cont (fun other h => cpu.proc.pending_cont other ▸ h),
      htarget.ncli, htarget.holding⟩, hon, ?_, ?_⟩
    · exact fun other hlt hother => hlater other hlt (cpu.proc.pending_cont other ▸ hother)
    · have hawake : cpu.proc.cont.state ≠ .SLEEPING := by
        unfold Proc.cont
        split
        · simp
        · assumption
      rw [if_neg hawake]
  · have hlast : ∀ signum ∈ stopsig, signum ≠ SIGCONT := by decide
    obtain ⟨hsleeping, hle⟩ := hgood.resolve_left (hlast signum hstop)
    obtain ⟨hset, hpending⟩ := hdefaults.setPending hstop
    rw [hdefaults.env_stop hstop]
    refine ⟨⟨hset, htarget.ncli, htarget.holding⟩, hon, ?_, ?_⟩
    · intro other hlt hother
      rcases hpending other hlt hother with hbefore | rfl
      · exact hlater other hlt hbefore
      · exact hle
    · have hstill : (cpu.proc.setPending signum).state = .SLEEPING := hsleeping
      rw [if_pos hstill]
      exact ⟨signum, hstop, rfl⟩

theorem sentInOrder_env {point : Point} {sent : { signum : Nat // signum ∈ SIGCONT :: stopsig }}
    (hcpu : jobInvariant point cpu) (hgood : sentInOrder (some point) cpu (.env sent) = true) :
    jobInvariant point (cpu.env (.Kill sent)) := by
  have houtside : Outside cpu → (sent.val != SIGCONT || !cpu.proc.stopPending) = true →
      Outside (cpu.env (.Kill sent)) := fun hcpu hgood => hcpu.env sent.property (by simpa using hgood)
  cases point with
  | sched why =>
    cases why with
    | stop signum => exact Suspended.env hcpu sent.property (by simpa [sentInOrder] using hgood)
    | yield => exact hcpu
    | sleep => exact hcpu
  | lock site | spin | running => exact houtside hcpu hgood

theorem job_obey : jobs.Obeys jobContract Waiting (fun point cpu label => sentInOrder point cpu label = true) where
  refl _ _ := id
  trans _ _ _ _ hfirst hsecond := hsecond ∘ hfirst
  env _ _ _ hpaused hgood := ⟨fun _ => sentInOrder_env hpaused hgood, sentInOrder_env hpaused hgood⟩
  envUser _ sent hcpu hgood :=
    ⟨hcpu.1.env sent.property (by simpa [sentInOrder] using hgood), fun hanswered => by cases hanswered⟩
  entry _ _ hcpu _ := job_entry hcpu
  interrupt _ _ irq := nomatch irq
  resume _ _ hready _ := hready
  leaves _ _ hleaves _ := hleaves.elim

theorem Fresh.waiting (h : Fresh cpu) : Waiting cpu := by
  have hpending : cpu.proc.stopPending = false := by simp [Proc.stopPending, Proc.pending, h.sigpending]
  refine ⟨⟨⟨h.defaults, h.ncli, h.holding⟩, ?_⟩, fun _ => hpending⟩
  simp [hpending, Cpu.lastStops, h.sent]

-- Once the process has dealt with the last signal, it is stopped if that was a stop signal
-- and it goes on if it was SIGCONT.
theorem stopped_iff_last_stops (thread : Thread Cpu Point Exit)
    (hreach : jobs.Reach (fun point cpu label => sentInOrder point cpu label = true) Fresh thread)
    (hsettled : Settled thread) : Stopped thread ↔ thread.state.lastStops := by
  rcases hsettled with ⟨hstack, hanswered⟩ | hstopped
  · have hok := hreach.ok job_obey (fun _ => Fresh.waiting)
    have hwaiting : Waiting thread.state := by
      rcases hok.2 with hhalted | hsafe
      · unfold System.halted at hhalted
        split at hhalted
        · cases hhalted
        · rename_i way state hexit
          exact (hok.1 way state hexit).1.elim
      · rwa [hstack] at hsafe
    have hpoint : thread.point = none := by simp [Thread.point, hstack]
    have hpending := hwaiting.2 hanswered
    rw [← hwaiting.1.2, hpending]
    simp [Stopped, hpoint]
  · obtain ⟨⟨signum, hpoint⟩, hsleeping⟩ := hstopped
    have hsuspended : Suspended signum thread.state := hreach.paused job_obey (fun _ => Fresh.waiting) hpoint
    have hlast := hsuspended.sent
    rw [if_pos hsleeping] at hlast
    exact ⟨fun _ => hlast, fun _ => ⟨⟨signum, hpoint⟩, hsleeping⟩⟩

theorem fresh_plain : Fresh plain where
  defaults :=
    ⟨fun _ => rfl, rfl, rfl, fun _ _ hpending => by simp [plain, Cpu.user, Proc.zero, Proc.pending] at hpending⟩
  sigpending := rfl
  ncli := rfl
  holding := rfl
  sent := rfl

-- SIGTSTP stops the process and SIGCONT takes it out of `stop` again.
theorem stopped_iff_last_stops_sigtstp :
    (∃ thread, jobs.Reach (fun point cpu label => sentInOrder point cpu label = true) Fresh thread ∧
      Stopped thread ∧ thread.state.lastStops) ∧
    ∃ thread, jobs.Reach (fun point cpu label => sentInOrder point cpu label = true) Fresh thread ∧
      Settled thread ∧ ¬Stopped thread ∧ thread.state.sent = some SIGCONT := by
  constructor
  · obtain ⟨thread, hreach, hpoint, hsleeping⟩ : ∃ thread,
        jobs.Reach (fun point cpu label => sentInOrder point cpu label = true) Fresh thread ∧
          thread.point = some (.sched (.stop SIGTSTP)) ∧ thread.state.proc.state = .SLEEPING :=
      jobs.exists_reach fresh_plain [.env ⟨SIGTSTP, by decide⟩, .enter (), .resume, .resume] ⟨_, rfl, rfl, rfl⟩
    have hstopped : Stopped thread := ⟨⟨SIGTSTP, hpoint⟩, hsleeping⟩
    exact ⟨thread, hreach, hstopped, (stopped_iff_last_stops thread hreach (.inr hstopped)).mp hstopped⟩
  · obtain ⟨thread, hreach, hsettled, hsent⟩ : ∃ thread,
        jobs.Reach (fun point cpu label => sentInOrder point cpu label = true) Fresh thread ∧
          (thread.stack = [] ∧ thread.state.answered = true) ∧ thread.state.sent = some SIGCONT :=
      jobs.exists_reach fresh_plain
        [.env ⟨SIGTSTP, by decide⟩, .enter (), .resume, .resume, .env ⟨SIGCONT, by decide⟩, .resume]
        ⟨_, rfl, ⟨rfl, rfl⟩, rfl⟩
    refine ⟨thread, hreach, .inl hsettled, ?_, hsent⟩
    rw [stopped_iff_last_stops thread hreach (.inl hsettled), Cpu.lastStops, hsent]
    decide

-- SIGCONT has no effect on a SIGTSTP that is only pending, and a SIGTTIN that comes
-- after the SIGCONT but before the process has left `stop` is thrown away.
theorem stop_and_cont_lost :
    (∃ thread, jobs.Reach (fun _ _ _ => True) Fresh thread ∧ Stopped thread ∧ thread.state.sent = some SIGCONT) ∧
    ∃ thread, jobs.Reach (fun _ _ _ => True) Fresh thread ∧ Settled thread ∧ ¬Stopped thread ∧
      thread.state.sent = some SIGTTIN := by
  constructor
  · exact jobs.exists_reach fresh_plain
      [.env ⟨SIGTSTP, by decide⟩, .env ⟨SIGCONT, by decide⟩, .enter (), .resume, .resume]
      ⟨_, rfl, ⟨⟨SIGTSTP, rfl⟩, rfl⟩, rfl⟩
  · obtain ⟨thread, hreach, hsettled, hsent⟩ : ∃ thread, jobs.Reach (fun _ _ _ => True) Fresh thread ∧
        (thread.stack = [] ∧ thread.state.answered = true) ∧ thread.state.sent = some SIGTTIN :=
      jobs.exists_reach fresh_plain
        [.env ⟨SIGTSTP, by decide⟩, .enter (), .resume, .resume, .env ⟨SIGCONT, by decide⟩,
          .env ⟨SIGTTIN, by decide⟩, .resume] ⟨_, rfl, ⟨rfl, rfl⟩, rfl⟩
    refine ⟨thread, hreach, .inl hsettled, ?_, hsent⟩
    rintro ⟨⟨signum, hpoint⟩, _⟩
    simp [Thread.point, hsettled.1] at hpoint

end Xv6

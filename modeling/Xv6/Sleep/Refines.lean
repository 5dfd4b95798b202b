import Xv6.Sleep

namespace Xv6

open Function Option

namespace Sleep

variable {Process Data Place Chan Choice Event Panic : Type}

variable {point : Point Chan} {sleeps : Option Chan} {wakes : List Chan}

namespace Point

-- Between acquire(lk) and release(lk).
def inSection : Point Chan → Bool
  | .inside | .waking _ _ | .wakeup _ _ _ | .swapping _ => true
  | _ => false

def hasPtable (shared : Bool) : Point Chan → Bool
  | .inside | .waking _ _ => shared
  | .wakeup _ _ _ | .swapping _ | .marking _ | .awake _ => true
  | .out | .away _ => false

-- It has both locks.
def hasBoth : Point Chan → Bool
  | .wakeup _ _ _ | .swapping _ => true
  | _ => false

-- It has run its critical section and not released the lock yet.
def afterBody : Point Chan → Bool
  | .waking _ _ | .wakeup _ _ _ | .swapping _ => true
  | _ => false

-- The channels that the process has still to wake up.
def pending : Point Chan → List Chan
  | .waking wakes _ => wakes
  | .wakeup chan wakes _ => chan :: wakes
  | _ => []

theorem inSection_of_pending {chan : Chan} (h : chan ∈ point.pending) : point.inSection := by
  cases point with
  | waking | wakeup => rfl
  | out | inside | swapping | marking | away | awake => cases h

theorem inSection_of_afterBody (h : point.afterBody) : point.inSection := by
  cases point with
  | waking | wakeup | swapping => rfl
  | out | inside | marking | away | awake => cases h

end Point

-- The channel on which the process is asleep or about to fall asleep.
def State.awaits (state : State Process Data Place Chan Panic) (process : Process) : Option Chan :=
  match state.point process with
  | .waking _ sleeps | .wakeup _ _ sleeps => sleeps
  | .swapping chan => some chan
  | .marking chan => chan
  | .away chan => if state.status process = .SLEEPING then chan else none
  | _ => none

-- Who has the locks, and which processes are off their CPU.
structure Sound (shared : Bool) (state : State Process Data Place Chan Panic) : Prop where
  lk (process : Process) : state.lk = some process ↔ shared = false ∧ (state.point process).inSection
  ptable (process : Process) : state.ptable = some (some process) ↔ (state.point process).hasPtable shared
  both (process : Process) (h : (state.point process).hasBoth) : shared = false
  running (process : Process) (h : ∀ chan, state.point process ≠ .away chan) : state.status process = .RUNNING
  away (process : Process) (chan : Option Chan) (h : state.point process = .away chan) :
    state.status process = .RUNNABLE ∨ (state.status process = .SLEEPING ∧ chan.isSome ∧ state.chan process = chan)

namespace Sound

variable {shared : Bool} {state next : State Process Data Place Chan Panic} {process other : Process}

-- No two processes are in a critical section at once.
theorem exclusive (h : Sound shared state) (hprocess : (state.point process).inSection)
    (hother : (state.point other).inSection) : process = other := by
  cases shared with
  | false =>
    have hone := (h.lk process).mpr ⟨rfl, hprocess⟩
    have htwo := (h.lk other).mpr ⟨rfl, hother⟩
    rw [hone] at htwo
    exact some.inj htwo
  | true =>
    have hholds : ∀ point : Point Chan, point.inSection → point.hasPtable true := by
      intro point hpoint
      cases point with
      | inside | waking | wakeup | swapping => rfl
      | out | marking | away | awake => cases hpoint
    have hone := (h.ptable process).mpr (hholds _ hprocess)
    have htwo := (h.ptable other).mpr (hholds _ hother)
    rw [hone] at htwo
    exact some.inj (some.inj htwo)

theorem holder (h : Sound shared state) (hprocess : (state.point process).hasPtable shared)
    (hother : (state.point other).hasPtable shared) : process = other := by
  have hone := (h.ptable process).mpr hprocess
  have htwo := (h.ptable other).mpr hother
  rw [hone] at htwo
  exact some.inj (some.inj htwo)

variable [DecidableEq Process]

-- A step of one process: what the others hold stays, and they may only be woken up.
theorem go (h : Sound shared state) (hpoint : next.point = update state.point process point)
    (hlk : ∀ other ≠ process, next.lk = some other ↔ state.lk = some other)
    (hmine : next.lk = some process ↔ shared = false ∧ point.inSection)
    (hptable : ∀ other ≠ process, next.ptable = some (some other) ↔ state.ptable = some (some other))
    (htable : next.ptable = some (some process) ↔ point.hasPtable shared) (hboth : point.hasBoth → shared = false)
    (hstatus : ∀ other ≠ process, next.status other = state.status other ∨
      (state.status other = .SLEEPING ∧ next.status other = .RUNNABLE))
    (hchan : ∀ other ≠ process, next.chan other = state.chan other)
    (hrunning : (∀ chan, point ≠ .away chan) → next.status process = .RUNNING)
    (haway : ∀ chan, point = .away chan → next.status process = .RUNNABLE ∨
      (next.status process = .SLEEPING ∧ chan.isSome ∧ next.chan process = chan)) : Sound shared next := by
  have hother : ∀ other ≠ process, next.point other = state.point other := by
    intro other hne
    rw [hpoint, update_of_ne hne]
  have hself : next.point process = point := by rw [hpoint, update_self]
  refine ⟨?_, ?_, ?_, ?_, ?_⟩
  · intro other
    by_cases hne : other = process
    · rw [hne, hself, hmine]
    · rw [hother other hne, hlk other hne, h.lk]
  · intro other
    by_cases hne : other = process
    · rw [hne, hself, htable]
    · rw [hother other hne, hptable other hne, h.ptable]
  · intro other hholds
    by_cases hne : other = process
    · rw [hne, hself] at hholds
      exact hboth hholds
    · rw [hother other hne] at hholds
      exact h.both other hholds
  · intro other hpresent
    by_cases hne : other = process
    · subst hne
      rw [hself] at hpresent
      exact hrunning hpresent
    · rw [hother other hne] at hpresent
      have hruns := h.running other hpresent
      rcases hstatus other hne with hsame | ⟨hsleeping, -⟩
      · rw [hsame, hruns]
      · simp [hruns] at hsleeping
  · intro other chan hgone
    by_cases hne : other = process
    · subst hne
      rw [hself] at hgone
      exact haway chan hgone
    · rw [hother other hne] at hgone
      rw [hchan other hne]
      rcases hstatus other hne with hsame | ⟨-, hrunnable⟩
      · rw [hsame]
        exact h.away other chan hgone
      · exact .inl hrunnable

end Sound

-- The monitor has already done what a process has still to do before it releases the lock: its
-- sleepers are asleep, and those that it wakes up are awake.
structure Refines (state : State Process Data Place Chan Panic)
    (coarse : Monitor.State Process Data Place Chan Panic) : Prop where
  data : coarse.data = state.data
  place : coarse.place = state.place
  panic : coarse.panic = state.panic
  asleep (process : Process) (chan : Chan) (h : coarse.asleep process = some chan) :
    state.awaits process = some chan
  inSection (process : Process) (chan : Chan) (h : (state.point process).inSection)
    (hawaits : state.awaits process = some chan) : coarse.asleep process = some chan
  awaits (process : Process) (chan : Chan) (h : state.awaits process = some chan) :
    coarse.asleep process = some chan ∨ ∃ waker, chan ∈ (state.point waker).pending
  pending (waker : Process) (chan : Chan) (h : chan ∈ (state.point waker).pending) (process : Process)
    (hne : process ≠ waker) : coarse.asleep process ≠ some chan

namespace Refines

variable {shared : Bool} {state next : State Process Data Place Chan Panic} {process : Process}
variable {coarse : Monitor.State Process Data Place Chan Panic}

-- A step that the monitor does not see.
theorem keep (h : Refines state coarse) (hdata : next.data = state.data) (hplace : next.place = state.place)
    (hpanic : next.panic = state.panic) (hawaits : ∀ process, next.awaits process = state.awaits process)
    (hpending : ∀ process, (next.point process).pending = (state.point process).pending)
    (hsection : ∀ process chan, (next.point process).inSection → state.awaits process = some chan →
      (state.point process).inSection) : Refines next coarse where
  data := h.data.trans hdata.symm
  place := h.place.trans hplace.symm
  panic := h.panic.trans hpanic.symm
  asleep process chan hasleep := by rw [hawaits]; exact h.asleep process chan hasleep
  inSection process chan hin hchan := by
    rw [hawaits] at hchan
    exact h.inSection process chan (hsection process chan hin hchan) hchan
  awaits process chan hchan := by
    rw [hawaits] at hchan
    simp only [hpending]
    exact h.awaits process chan hchan
  pending waker chan hchan := by
    rw [hpending] at hchan
    exact h.pending waker chan hchan

variable [DecidableEq Process]

theorem awaits_of_ne (hpoint : next.point = update state.point process point) {other : Process}
    (hne : other ≠ process) (hstatus : next.status other = state.status other) :
    next.awaits other = state.awaits other := by
  simp only [State.awaits, hpoint, update_of_ne hne, hstatus]

-- The same for a step that changes the point of one process.
theorem go (h : Refines state coarse) (hpoint : next.point = update state.point process point)
    (hdata : next.data = state.data) (hplace : next.place = state.place) (hpanic : next.panic = state.panic)
    (hstatus : ∀ other ≠ process, next.status other = state.status other)
    (hawaits : next.awaits process = state.awaits process) (hpending : point.pending = (state.point process).pending)
    (hsection : point.inSection → (state.point process).inSection ∨ state.awaits process = none) :
    Refines next coarse := by
  refine h.keep hdata hplace hpanic ?_ ?_ ?_
  · intro other
    by_cases hne : other = process
    · rw [hne, hawaits]
    · exact awaits_of_ne hpoint hne (hstatus other hne)
  · intro other
    by_cases hne : other = process
    · rw [hne, hpoint, update_self, hpending]
    · rw [hpoint, update_of_ne hne]
  · intro other chan hin hchan
    by_cases hne : other = process
    · subst hne
      rw [hpoint, update_self] at hin
      rcases hsection hin with hbefore | hnone
      · exact hbefore
      · simp [hnone] at hchan
    · rwa [hpoint, update_of_ne hne] at hin

variable [DecidableEq Chan]

variable (hsound : Sound shared state) (h : Refines state coarse)

include hsound h

-- The critical section itself is one turn of the monitor.
theorem body (hpoint : state.point process = .inside) (turn : Turn Data Place Chan) (hpanic : state.panic = none) :
    Refines (state.body process (.turn turn)) (coarse.after process (.turn turn)) := by
  have hin : (state.point process).inSection := by rw [hpoint]; rfl
  -- Nobody else is in a critical section, so that nobody has channels left to wake up.
  have honly : ∀ other chan, chan ∉ (state.point other).pending := by
    intro other chan hchan
    obtain rfl := hsound.exclusive (Point.inSection_of_pending hchan) hin
    simp [hpoint, Point.pending] at hchan
  have hself : (state.body process (.turn turn)).point process = .waking turn.wakes turn.sleeps :=
    update_self ..
  have hothers : ∀ other ≠ process, (state.body process (.turn turn)).point other = state.point other :=
    fun other hne => update_of_ne hne ..
  have hawaits : ∀ other ≠ process, (state.body process (.turn turn)).awaits other = state.awaits other :=
    fun other hne => awaits_of_ne rfl hne rfl
  have hmine : (state.body process (.turn turn)).awaits process = turn.sleeps := by
    simp only [State.awaits, hself]
  have hasleep : (coarse.after process (.turn turn)).asleep process = turn.sleeps := update_self ..
  have hwake : ∀ other ≠ process, (coarse.after process (.turn turn)).asleep other =
      (coarse.asleep other).filter fun chan => chan ∉ turn.wakes := fun other hne => update_of_ne hne ..
  refine ⟨rfl, by simp [Monitor.State.after, State.body, State.go, h.place],
    by simp [Monitor.State.after, State.body, State.go, hpanic],
    ?_, ?_, ?_, ?_⟩
  · intro other chan hchan
    by_cases hne : other = process
    · subst hne
      rw [hmine, ← hasleep, hchan]
    · rw [hwake other hne, filter_eq_some_iff] at hchan
      rw [hawaits other hne]
      exact h.asleep other chan hchan.1
  · intro other chan hsection hchan
    by_cases hne : other = process
    · subst hne
      rw [hasleep, ← hmine, hchan]
    · rw [hothers other hne] at hsection
      exact absurd (hsound.exclusive hsection hin) hne
  · intro other chan hchan
    by_cases hne : other = process
    · subst hne
      rw [hasleep, ← hmine, hchan]
      exact .inl rfl
    · rw [hawaits other hne] at hchan
      rcases h.awaits other chan hchan with hbefore | ⟨waker, hwaker⟩
      · by_cases hwoken : chan ∈ turn.wakes
        · exact .inr ⟨process, by rw [hself]; exact hwoken⟩
        · refine .inl ?_
          rw [hwake other hne, hbefore]
          simp [hwoken]
      · exact absurd hwaker (honly waker chan)
  · intro waker chan hchan other hne
    by_cases hwaker : waker = process
    · subst hwaker
      rw [hself] at hchan
      rw [hwake other hne]
      intro hsome
      have hnot := (filter_eq_some_iff.mp hsome).2
      simp only [Point.pending] at hchan
      simp [hchan] at hnot
    · rw [hothers waker hwaker] at hchan
      exact absurd hchan (honly waker chan)

-- wakeup1 under ptable.lock: whoever is asleep on the channel is so no longer, and nobody can be
-- on the way to sleep without ptable.lock.
theorem wakeup1 {chan : Chan}
    (hpending : (state.point process).pending = chan :: wakes) (hptable : (state.point process).hasPtable shared)
    (hsleeps : state.awaits process = sleeps)
    (hpoint : next.point = update state.point process (.waking wakes sleeps)) (hdata : next.data = state.data)
    (hplace : next.place = state.place) (hpanic : next.panic = state.panic)
    (hstatus : next.status = (state.wakeup1 chan).status) : Refines next coarse := by
  have hmem : chan ∈ (state.point process).pending := by
    rw [hpending]
    exact List.mem_cons_self
  have hin : (state.point process).inSection := Point.inSection_of_pending hmem
  have hself : next.point process = .waking wakes sleeps := by rw [hpoint, update_self]
  have hothers : ∀ other ≠ process, next.point other = state.point other :=
    fun other hne => by rw [hpoint, update_of_ne hne]
  have hmine : next.awaits process = state.awaits process := by
    rw [hsleeps]
    simp only [State.awaits, hself]
  have hless : ∀ other ≠ process, ∀ waited, next.awaits other = some waited →
      state.awaits other = some waited ∧
        (waited = chan → (state.point other).inSection ∨ (state.point other).hasPtable shared) := by
    intro other hne waited hwaited
    simp only [State.awaits, hothers other hne, hstatus, State.wakeup1] at hwaited ⊢
    cases hother : state.point other with
    | out | inside | awake => simp [hother] at hwaited
    | waking | wakeup | swapping | marking =>
      simp only [hother] at hwaited ⊢
      exact ⟨hwaited, by simp [Point.inSection, Point.hasPtable]⟩
    | away gone =>
      simp only [hother] at hwaited ⊢
      by_cases hawake : state.status other = .SLEEPING ∧ state.chan other = some chan
      · simp [hawake] at hwaited
      · rw [if_neg hawake] at hwaited
        split_ifs at hwaited with hstill
        have hchan := ((hsound.away other gone hother).resolve_left (by simp [hstill])).2.2
        refine ⟨by rw [if_pos hstill, hwaited], ?_⟩
        rintro rfl
        exact absurd ⟨hstill, hchan.trans hwaited⟩ hawake
  have hmore : ∀ other ≠ process, ∀ waited, state.awaits other = some waited → waited ≠ chan →
      next.awaits other = some waited := by
    intro other hne waited hwaited hchan
    simp only [State.awaits, hothers other hne, hstatus, State.wakeup1] at hwaited ⊢
    cases hother : state.point other with
    | out | inside | awake => simp [hother] at hwaited
    | waking | wakeup | swapping | marking => simpa only [hother] using hwaited
    | away gone =>
      simp only [hother] at hwaited ⊢
      split_ifs at hwaited with hstill
      have hsame := ((hsound.away other gone hother).resolve_left (by simp [hstill])).2.2
      have hnot : ¬(state.status other = .SLEEPING ∧ state.chan other = some chan) := by
        rintro ⟨-, hawake⟩
        rw [hsame, hwaited] at hawake
        exact hchan (some.inj hawake)
      rw [if_neg hnot, if_pos hstill, hwaited]
  refine ⟨h.data.trans hdata.symm, h.place.trans hplace.symm, h.panic.trans hpanic.symm, ?_, ?_, ?_, ?_⟩
  · intro other waited hasleep
    by_cases hne : other = process
    · subst hne
      rw [hmine]
      exact h.asleep other waited hasleep
    · refine hmore other hne waited (h.asleep other waited hasleep) ?_
      rintro rfl
      exact h.pending process waited (by rw [hpending]; exact List.mem_cons_self) other hne hasleep
  · intro other waited hsection hwaited
    by_cases hne : other = process
    · subst hne
      rw [hmine] at hwaited
      exact h.inSection other waited hin hwaited
    · rw [hothers other hne] at hsection
      exact absurd (hsound.exclusive hsection hin) hne
  · intro other waited hwaited
    by_cases hne : other = process
    · subst hne
      rw [hmine] at hwaited
      exact .inl (h.inSection other waited hin hwaited)
    · obtain ⟨hbefore, hholds⟩ := hless other hne waited hwaited
      rcases h.awaits other waited hbefore with hasleep | ⟨waker, hwaker⟩
      · exact .inl hasleep
      · obtain rfl := hsound.exclusive (Point.inSection_of_pending hwaker) hin
        rw [hpending] at hwaker
        rcases List.mem_cons.mp hwaker with hchan | hlater
        · rcases hholds hchan with hsection | htable
          · exact absurd (hsound.exclusive hsection hin) hne
          · exact absurd (hsound.holder htable hptable) hne
        · exact .inr ⟨waker, by rw [hself]; exact hlater⟩
  · intro waker waited hwaited other hne
    by_cases hwaker : waker = process
    · subst hwaker
      rw [hself] at hwaited
      exact h.pending waker waited (by rw [hpending]; exact List.mem_cons_of_mem _ hwaited) other hne
    · rw [hothers waker hwaker] at hwaited
      exact h.pending waker waited hwaited other hne

end Refines

section Locks

variable [DecidableEq Process] {shared : Bool} {state next : State Process Data Place Chan Panic} {process : Process}
variable {coarse : Monitor.State Process Data Place Chan Panic}

omit [DecidableEq Process] in
theorem acquirePtable_eq (h : state.acquirePtable process = some next) :
    state.ptable = none ∧ next = { state with ptable := some (some process) } := by
  unfold State.acquirePtable at h
  split_ifs at h with hfree
  cases h
  exact ⟨isNone_iff_eq_none.mp hfree, rfl⟩

section

variable (h : Sound shared state)

include h

-- The process takes ptable.lock.
theorem Sound.lockPtable (hfree : state.ptable = none) (haway : ∀ chan, state.point process ≠ .away chan)
    (hsection : point.inSection = (state.point process).inSection) (hptable : point.hasPtable shared)
    (hboth : point.hasBoth → shared = false) (hpoint : ∀ chan, point ≠ .away chan) :
    Sound shared (({ state with ptable := some (some process) } : State _ _ _ _ _).go process point) := by
  refine h.go rfl (fun _ _ => Iff.rfl) ?_ ?_ ?_ hboth (fun _ _ => .inl rfl) (fun _ _ => rfl) ?_ ?_
  · rw [hsection]
    exact h.lk process
  · intro other hne
    simp [State.go, hfree, hne.symm]
  · simp [State.go, hptable]
  · exact fun _ => h.running process haway
  · intro chan hgone
    exact absurd hgone (hpoint chan)

-- The process gives ptable.lock away, and its CPU with it or not.
theorem Sound.unlockPtable (hheld : (state.point process).hasPtable shared)
    (hpoint : next.point = update state.point process point) (hlk : next.lk = state.lk)
    (hsection : (shared = false ∧ point.inSection) ↔ shared = false ∧ (state.point process).inSection)
    (hptable : point.hasPtable shared = false) (hboth : point.hasBoth → shared = false)
    (hfree : ∀ other, next.ptable ≠ some (some other))
    (hstatus : ∀ other ≠ process, next.status other = state.status other ∨
      (state.status other = .SLEEPING ∧ next.status other = .RUNNABLE))
    (hchan : ∀ other ≠ process, next.chan other = state.chan other)
    (hrunning : (∀ chan, point ≠ .away chan) → next.status process = .RUNNING)
    (haway : ∀ chan, point = .away chan → next.status process = .RUNNABLE ∨
      (next.status process = .SLEEPING ∧ chan.isSome ∧ next.chan process = chan)) : Sound shared next := by
  have hmine := (h.ptable process).mpr hheld
  refine h.go hpoint (fun _ _ => by rw [hlk]) ?_ ?_ ?_ hboth hstatus hchan hrunning haway
  · rw [hlk, hsection]
    exact h.lk process
  · intro other hne
    simp [hfree, hmine, hne.symm]
  · simp [hfree, hptable]

-- The process goes on with the locks that it has.
theorem Sound.move (hpoint : next.point = update state.point process point)
    (hlk : next.lk = state.lk) (hptable : next.ptable = state.ptable)
    (hsection : (shared = false ∧ point.inSection) ↔ shared = false ∧ (state.point process).inSection)
    (hholds : point.hasPtable shared = (state.point process).hasPtable shared)
    (hboth : point.hasBoth → shared = false) (hstatus : ∀ other, next.status other = state.status other ∨
      (state.status other = .SLEEPING ∧ next.status other = .RUNNABLE))
    (hchan : ∀ other ≠ process, next.chan other = state.chan other)
    (hhere : ∀ chan, state.point process ≠ .away chan) (hthere : ∀ chan, point ≠ .away chan) : Sound shared next := by
  refine h.go hpoint (fun _ _ => by rw [hlk]) ?_ (fun _ _ => by rw [hptable]) ?_ hboth (fun other _ => hstatus other)
    hchan ?_ ?_
  · rw [hlk, hsection]
    exact h.lk process
  · rw [hptable, hholds]
    exact h.ptable process
  · intro _
    have hruns := h.running process hhere
    rcases hstatus process with hsame | ⟨hsleeping, -⟩
    · rw [hsame, hruns]
    · simp [hruns] at hsleeping
  · intro chan hgone
    exact absurd hgone (hthere chan)

theorem Sound.release (hpoint : state.point process = .waking [] none) :
    Sound shared ((state.release shared).go process .out) := by
  have hruns := h.running process (by simp [hpoint])
  cases shared with
  | true =>
    exact h.unlockPtable (by rw [hpoint]; rfl) rfl rfl (by simp) rfl (by simp [Point.hasBoth])
      (by simp [State.release, State.releasePtable, State.go]) (fun _ _ => .inl rfl) (fun _ _ => rfl) (fun _ => hruns)
      (by simp)
  | false =>
    have hmine := (h.lk process).mpr ⟨rfl, by rw [hpoint]; rfl⟩
    refine h.go rfl ?_ ?_ (fun _ _ => Iff.rfl) ?_ (by simp [Point.hasBoth]) (fun _ _ => .inl rfl) (fun _ _ => rfl)
      (fun _ => hruns) (by simp)
    · intro other hne
      simp [State.release, State.go, hmine, hne.symm]
    · simp [State.release, State.go, Point.inSection]
    · simpa [hpoint, Point.hasPtable, State.release, State.go] using h.ptable process

theorem Sound.swap {chan : Chan} (hpoint : state.point process = .swapping chan) :
    Sound shared (({ state with lk := none } : State _ _ _ _ _).go process (.marking (some chan))) := by
  refine h.go rfl ?_ (by simp [State.go, Point.inSection]) (fun _ _ => Iff.rfl) ?_ (by simp [Point.hasBoth])
    (fun _ _ => .inl rfl) (fun _ _ => rfl) (fun _ => h.running process (by simp [hpoint])) (by simp)
  · intro other hne
    have hnot : state.lk ≠ some other := by
      intro hother
      exact hne (h.exclusive ((h.lk other).mp hother).2 (by rw [hpoint]; rfl))
    simp [State.go, hnot]
  · simpa [hpoint, Point.hasPtable, State.go] using h.ptable process

end

variable [DecidableEq Chan] {monitor : Monitor Process Data Place Chan Choice Event Panic} {choice : Choice}

omit [DecidableEq Process] in
theorem wakeup1_status (state : State Process Data Place Chan Panic) (chan : Chan) (other : Process) :
    (state.wakeup1 chan).status other = state.status other ∨
      (state.status other = .SLEEPING ∧ (state.wakeup1 chan).status other = .RUNNABLE) := by
  unfold State.wakeup1
  dsimp only
  split_ifs with hasleep
  · exact .inr ⟨hasleep.1, rfl⟩
  · exact .inl rfl

variable {fair : Process → Choice → Place → Data → Prop} {label : Label Process Choice Event}

open Point State

section Steps

variable (hsound : Sound shared state) (hrefines : Refines state coarse)

include hsound hrefines

variable {chan : Option Chan}

section Proceeds

variable (hstep : proceed monitor shared state process choice = some next)

include hstep

theorem waking_holds (hpoint : state.point process = .waking wakes sleeps) :
    Sound shared next ∧ Refines next coarse := by
  have haway : ∀ chan, state.point process ≠ .away chan := by simp [hpoint]
  cases wakes with
  | cons chan wakes =>
    simp only [proceed, hpoint] at hstep
    split_ifs at hstep with hshared
    · cases hstep
      subst hshared
      refine ⟨hsound.move rfl rfl rfl (by simp) (by rw [hpoint]; rfl) (by simp [hasBoth])
        (wakeup1_status state chan) (fun _ _ => rfl) haway (by simp), ?_⟩
      exact hrefines.wakeup1 hsound (by rw [hpoint]; rfl) (by rw [hpoint]; rfl)
        (by simp [awaits, hpoint]) rfl rfl rfl rfl rfl
    · obtain ⟨locked, hlocked, rfl⟩ := map_eq_some_iff.mp hstep
      obtain ⟨hfree, rfl⟩ := acquirePtable_eq hlocked
      refine ⟨hsound.lockPtable hfree haway (by rw [hpoint]; rfl) rfl (by simp [hshared]) (by simp), ?_⟩
      exact hrefines.go rfl rfl rfl rfl (fun _ _ => rfl) (by simp [awaits, go, hpoint])
        (by rw [hpoint]; rfl) (fun _ => .inl (by rw [hpoint]; rfl))
  | nil =>
    cases sleeps with
    | none =>
      simp only [proceed, hpoint, some.injEq] at hstep
      subst hstep
      refine ⟨hsound.release hpoint, ?_⟩
      cases shared <;>
        exact hrefines.go rfl rfl rfl rfl (fun _ _ => rfl)
          (by simp [awaits, release, releasePtable, go, hpoint])
          (by rw [hpoint]; rfl) (by simp [inSection])
    | some chan =>
      simp only [proceed, hpoint] at hstep
      split_ifs at hstep with hshared
      · cases hstep
        subst hshared
        refine ⟨hsound.move rfl rfl rfl (by simp) (by rw [hpoint]; rfl) (by simp [hasBoth])
          (fun _ => .inl rfl) (fun _ _ => rfl) haway (by simp), ?_⟩
        exact hrefines.go rfl rfl rfl rfl (fun _ _ => rfl) (by simp [awaits, go, hpoint])
          (by rw [hpoint]; rfl) (by simp [inSection])
      · obtain ⟨locked, hlocked, rfl⟩ := map_eq_some_iff.mp hstep
        obtain ⟨hfree, rfl⟩ := acquirePtable_eq hlocked
        refine ⟨hsound.lockPtable hfree haway (by rw [hpoint]; rfl) rfl (by simp [hshared]) (by simp), ?_⟩
        exact hrefines.go rfl rfl rfl rfl (fun _ _ => rfl) (by simp [awaits, go, hpoint])
          (by rw [hpoint]; rfl) (fun _ => .inl (by rw [hpoint]; rfl))

theorem wakeup_holds {chan : Chan} (hpoint : state.point process = .wakeup chan wakes sleeps) :
    Sound shared next ∧ Refines next coarse := by
  have hshared := hsound.both process (by rw [hpoint]; rfl)
  have hholds : (state.point process).hasPtable shared := by rw [hpoint]; rfl
  have hruns := hsound.running process (by simp [hpoint])
  simp only [proceed, hpoint, some.injEq] at hstep
  subst hstep hshared
  constructor
  · refine hsound.unlockPtable hholds rfl rfl (by rw [hpoint]; rfl) rfl (by simp)
      (by simp [releasePtable, go])
      (fun other _ => wakeup1_status state chan other) (fun _ _ => rfl) ?_ (by simp)
    intro _
    rcases wakeup1_status state chan process with hsame | ⟨hsleeping, -⟩
    · exact hsame.trans hruns
    · simp [hruns] at hsleeping
  · exact hrefines.wakeup1 hsound (by rw [hpoint]; rfl) hholds (by simp [awaits, hpoint]) rfl rfl rfl rfl rfl

theorem swapping_holds {chan : Chan} (hpoint : state.point process = .swapping chan) :
    Sound shared next ∧ Refines next coarse := by
  simp only [proceed, hpoint, some.injEq] at hstep
  subst hstep
  refine ⟨hsound.swap hpoint, ?_⟩
  exact hrefines.go rfl rfl rfl rfl (fun _ _ => rfl) (by simp [awaits, go, hpoint]) (by rw [hpoint]; rfl)
    (by simp [inSection])

-- The process leaves its CPU to the scheduler, with ptable.lock.
theorem marking_holds (hpoint : state.point process = .marking chan) : Sound shared next ∧ Refines next coarse := by
  have hothers : ∀ other ≠ process, (state.sched process chan).status other = state.status other :=
    fun other hne => update_of_ne hne ..
  simp only [proceed, hpoint, some.injEq] at hstep
  subst hstep
  constructor
  · refine hsound.unlockPtable (by rw [hpoint]; rfl) rfl rfl (by rw [hpoint]; rfl) rfl (by simp [hasBoth])
      (by simp [sched, go]) (fun other hne => .inl (hothers other hne))
      (fun other hne => update_of_ne hne ..) (by simp) ?_
    cases chan <;> simp [sched, go]
  · refine hrefines.go rfl rfl rfl rfl hothers ?_ (by rw [hpoint]; rfl) (by simp [inSection])
    cases chan <;> simp [awaits, sched, go, hpoint]

-- sleep returns with the lock if it is ptable.lock itself.
theorem awake_holds (hpoint : state.point process = .awake chan) : Sound shared next ∧ Refines next coarse := by
  have hruns := hsound.running process (by simp [hpoint])
  simp only [proceed, hpoint] at hstep
  split_ifs at hstep with hinside
  · cases hstep
    simp only [Bool.and_eq_true] at hinside
    constructor
    · exact hsound.move rfl rfl rfl (by simp [hinside.1]) (by rw [hpoint]; exact hinside.1) (by simp [hasBoth])
        (fun _ => .inl rfl) (fun other hne => update_of_ne hne ..) (by simp [hpoint]) (by simp)
    · exact hrefines.go rfl rfl rfl rfl (fun _ _ => rfl) (by simp [awaits, go, hpoint])
        (by rw [hpoint]; rfl) (fun _ => .inr (by simp [awaits, hpoint]))
  · cases hstep
    constructor
    · exact hsound.unlockPtable (by rw [hpoint]; rfl) rfl rfl (by rw [hpoint]; rfl) rfl (by simp [hasBoth])
        (by simp [releasePtable, go]) (fun _ _ => .inl rfl) (fun other hne => update_of_ne hne ..)
        (fun _ => hruns) (by simp)
    · exact hrefines.go rfl rfl rfl rfl (fun _ _ => rfl) (by simp [awaits, releasePtable, go, hpoint])
        (by rw [hpoint]; rfl) (by simp [inSection])

end Proceeds

omit [DecidableEq Chan] in
theorem acquire_holds (hpoint : state.point process = .out) {locked : State Process Data Place Chan Panic}
    (hlocked : state.acquire shared process = some locked) :
    Sound shared (locked.go process .inside) ∧ Refines (locked.go process .inside) coarse := by
  have hruns := hsound.running process (by simp [hpoint])
  unfold acquire at hlocked
  split_ifs at hlocked with hshared hfree
  · obtain ⟨hfree, rfl⟩ := acquirePtable_eq hlocked
    subst hshared
    constructor
    · refine hsound.go rfl (fun _ _ => Iff.rfl) ?_ ?_ (by simp [go, hasPtable]) (by simp [hasBoth])
        (fun _ _ => .inl rfl) (fun _ _ => rfl) (fun _ => hruns) (by simp)
      · simpa [go] using hsound.lk process
      · intro other hne
        simp [go, hfree, hne.symm]
    · exact hrefines.go rfl rfl rfl rfl (fun _ _ => rfl) (by simp [awaits, go, hpoint])
        (by rw [hpoint]; rfl) (fun _ => .inr (by simp [awaits, hpoint]))
  · cases hlocked
    have hnone := isNone_iff_eq_none.mp hfree
    constructor
    · refine hsound.go rfl ?_ (by simp [go, hshared, inSection]) (fun _ _ => Iff.rfl) ?_
        (by simp [hasBoth]) (fun _ _ => .inl rfl) (fun _ _ => rfl) (fun _ => hruns) (by simp)
      · intro other hne
        simp [go, hnone, hne.symm]
      · simpa [go, hpoint, hasPtable, hshared] using hsound.ptable process
    · exact hrefines.go rfl rfl rfl rfl (fun _ _ => rfl) (by simp [awaits, go, hpoint])
        (by rw [hpoint]; rfl) (fun _ => .inr (by simp [awaits, hpoint]))

omit [DecidableEq Chan] in
theorem dispatch_holds (hpoint : state.point process = .away chan) (hptable : state.ptable = some none)
    (hstatus : state.status process = .RUNNABLE) (hnext : next = ({ state with
      status := update state.status process .RUNNING
      ptable := some (some process) } : State _ _ _ _ _).go process (.awake chan)) :
    Sound shared next ∧ Refines next coarse := by
  subst hnext
  have hothers : ∀ other ≠ process, update state.status process .RUNNING other = state.status other :=
    fun other hne => update_of_ne hne ..
  constructor
  · refine hsound.go rfl (fun _ _ => Iff.rfl) ?_ ?_ (by simp [go, hasPtable]) (by simp [hasBoth])
      (fun other hne => .inl (hothers other hne)) (fun _ _ => rfl) (by simp [go]) (by simp)
    · simpa [go, hpoint, inSection] using hsound.lk process
    · intro other hne
      simp [go, hptable, hne.symm]
  · exact hrefines.go rfl rfl rfl rfl hothers (by simp [awaits, go, hpoint, hstatus])
      (by rw [hpoint]; rfl) (by simp [inSection])

omit [DecidableEq Chan] in
-- Whoever is roused here is roused in the monitor.
theorem rouse_holds (hstatus : state.status process = .SLEEPING)
    (hnext : next = { state with status := update state.status process .RUNNABLE }) :
    Sound shared next ∧ Refines next { coarse with asleep := update coarse.asleep process none } := by
  subst hnext
  obtain ⟨chan, hpoint⟩ : ∃ chan, state.point process = .away chan := by
    by_contra hnot
    have hruns := hsound.running process (fun chan hchan => hnot ⟨chan, hchan⟩)
    simp [hstatus] at hruns
  have hstays : ∀ other ≠ process, update state.status process .RUNNABLE other = state.status other :=
    fun other hne => update_of_ne hne ..
  have hawaits : ∀ other ≠ process,
      ({ state with status := update state.status process .RUNNABLE } : State _ _ _ _ _).awaits other =
        state.awaits other := by
    intro other hne
    simp only [awaits, hstays other hne]
  have hawake : ({ state with status := update state.status process .RUNNABLE } : State _ _ _ _ _).awaits
      process = none := by
    simp [awaits, hpoint]
  constructor
  · refine ⟨hsound.lk, hsound.ptable, hsound.both, ?_, ?_⟩
    · intro other hhere
      have hne : other ≠ process := by
        rintro rfl
        exact hhere chan hpoint
      exact (hstays other hne).trans (hsound.running other hhere)
    · intro other gone hgone
      by_cases hne : other = process
      · rw [hne]
        exact .inl (update_self ..)
      · simp only [hstays other hne]
        exact hsound.away other gone hgone
  · refine ⟨hrefines.data, hrefines.place, hrefines.panic, ?_, ?_, ?_, ?_⟩
    · intro other waited hasleep
      by_cases hne : other = process
      · simp [hne] at hasleep
      · rw [hawaits other hne]
        exact hrefines.asleep other waited (by simpa [update_of_ne hne] using hasleep)
    · intro other waited hin hwaited
      by_cases hne : other = process
      · rw [hne, hawake] at hwaited
        cases hwaited
      · rw [hawaits other hne] at hwaited
        simpa [update_of_ne hne] using hrefines.inSection other waited hin hwaited
    · intro other waited hwaited
      by_cases hne : other = process
      · rw [hne, hawake] at hwaited
        cases hwaited
      · rw [hawaits other hne] at hwaited
        simpa [update_of_ne hne] using hrefines.awaits other waited hwaited
    · intro waker waited hwaited other hne
      by_cases hother : other = process
      · simp [hother]
      · simpa [update_of_ne hother] using hrefines.pending waker waited hwaited other hne

theorem proceed_holds (hpanic : state.panic = none)
    (hgood : Good fair state (.proceed process choice : Label Process Choice Event))
    (hstep : proceed monitor shared state process choice = some next) :
    Sound shared next ∧ ∃ later, (later = coarse ∨ ∃ label, Monitor.Fairly fair coarse label ∧
      monitor.step coarse label = some later) ∧ Refines next later := by
  -- All steps but the critical section itself are invisible.
  have hsame : Sound shared next ∧ Refines next coarse → Sound shared next ∧ ∃ later, (later = coarse ∨ ∃ label,
      Monitor.Fairly fair coarse label ∧ monitor.step coarse label = some later) ∧ Refines next later :=
    fun h => ⟨h.1, coarse, .inl rfl, h.2⟩
  cases hpoint : state.point process with
  | out | away => simp [proceed, hpoint] at hstep
  | waking wakes sleeps => exact hsame (waking_holds hsound hrefines hstep hpoint)
  | wakeup chan wakes sleeps => exact hsame (wakeup_holds hsound hrefines hstep hpoint)
  | swapping chan => exact hsame (swapping_holds hsound hrefines hstep hpoint)
  | marking chan => exact hsame (marking_holds hsound hrefines hstep hpoint)
  | awake chan => exact hsame (awake_holds hsound hrefines hstep hpoint)
  | inside =>
    simp only [proceed, hpoint, map_eq_some_iff] at hstep
    obtain ⟨outcome, houtcome, rfl⟩ := hstep
    have hawake : coarse.asleep process = none := by
      cases hasleep : coarse.asleep process with
      | none => rfl
      | some chan =>
        have hawaits := hrefines.asleep process chan hasleep
        simp [awaits, hpoint] at hawaits
    have hfair : Monitor.Fairly fair coarse (.turn process choice : Monitor.Label Process Choice Event) := by
      simp only [Monitor.Fairly, hrefines.place, hrefines.data]
      simpa [Good, hpoint, atBody] using hgood
    have hturn : monitor.step coarse (.turn process choice) = some (coarse.after process outcome) := by
      simp [Monitor.step, hrefines.panic, hpanic, hawake, hrefines.place, hrefines.data, houtcome]
    cases outcome with
    | panic panic =>
      refine ⟨⟨hsound.lk, hsound.ptable, hsound.both, hsound.running, hsound.away⟩, _, .inr ⟨_, hfair, hturn⟩, ?_⟩
      exact ⟨hrefines.data, hrefines.place, rfl, hrefines.asleep, hrefines.inSection, hrefines.awaits, hrefines.pending⟩
    | turn turn =>
      have hlk := hsound.lk process
      have hptable := hsound.ptable process
      have hruns := hsound.running process (by simp [hpoint])
      rw [hpoint] at hlk hptable
      refine ⟨?_, _, .inr ⟨_, hfair, hturn⟩, hrefines.body hsound hpoint turn hpanic⟩
      exact hsound.go rfl (fun _ _ => Iff.rfl) hlk (fun _ _ => Iff.rfl) hptable (by simp [hasBoth])
        (fun _ _ => .inl rfl) (fun _ _ => rfl) (fun _ => hruns) (by simp)

theorem step_holds (hgood : Good fair state label) (hstep : step monitor shared state label = some next) :
    Sound shared next ∧ ∃ later, (later = coarse ∨ ∃ label, Monitor.Fairly fair coarse label ∧
      monitor.step coarse label = some later) ∧ Refines next later := by
  cases label with
  | acquire process =>
    simp only [step] at hstep
    split at hstep
    · rename_i hpanic hpoint
      obtain ⟨locked, hlocked, rfl⟩ := map_eq_some_iff.mp hstep
      obtain ⟨hnext, hcoarse⟩ := acquire_holds hsound hrefines hpoint hlocked
      exact ⟨hnext, coarse, .inl rfl, hcoarse⟩
    · cases hstep
  | proceed process choice =>
    simp only [step, ite_none_right_eq_some] at hstep
    exact proceed_holds hsound hrefines (isNone_iff_eq_none.mp hstep.1) hgood hstep.2
  | yield process =>
    simp only [step] at hstep
    split at hstep
    · rename_i hpanic hpoint
      obtain ⟨locked, hlocked, rfl⟩ := map_eq_some_iff.mp hstep
      obtain ⟨hfree, rfl⟩ := acquirePtable_eq hlocked
      refine ⟨hsound.lockPtable hfree (by simp [hpoint]) (by rw [hpoint]; rfl) rfl (by simp [hasBoth]) (by simp),
        coarse, .inl rfl, ?_⟩
      exact hrefines.go rfl rfl rfl rfl (fun _ _ => rfl) (by simp [awaits, go, hpoint])
        (by rw [hpoint]; rfl) (by simp [inSection])
    · cases hstep
  | take =>
    simp only [step, ite_none_right_eq_some, Bool.and_eq_true, isNone_iff_eq_none, some.injEq] at hstep
    obtain ⟨⟨-, hfree⟩, rfl⟩ := hstep
    have hptable := hsound.ptable
    simp only [hfree, reduceCtorEq, false_iff] at hptable
    exact ⟨⟨hsound.lk, by simpa using hptable, hsound.both, hsound.running, hsound.away⟩, coarse, .inl rfl,
      hrefines.keep rfl rfl rfl (fun _ => rfl) (fun _ => rfl) fun _ _ hin _ => hin⟩
  | drop =>
    simp only [step, ite_none_right_eq_some, Bool.and_eq_true, decide_eq_true_eq, some.injEq] at hstep
    obtain ⟨⟨-, hheld⟩, rfl⟩ := hstep
    have hptable := hsound.ptable
    simp only [hheld, some.injEq, reduceCtorEq, false_iff] at hptable
    exact ⟨⟨hsound.lk, by simpa [releasePtable] using hptable, hsound.both, hsound.running, hsound.away⟩,
      coarse, .inl rfl, hrefines.keep rfl rfl rfl (fun _ => rfl) (fun _ => rfl) fun _ _ hin _ => hin⟩
  | dispatch process =>
    simp only [step] at hstep
    split at hstep
    · rename_i hpanic hpoint
      simp only [ite_none_right_eq_some, some.injEq] at hstep
      obtain ⟨⟨hptable, hstatus⟩, hnext⟩ := hstep
      obtain ⟨hnow, hcoarse⟩ := dispatch_holds hsound hrefines hpoint hptable hstatus hnext.symm
      exact ⟨hnow, coarse, .inl rfl, hcoarse⟩
    · cases hstep
  | rouse process =>
    simp only [step, ite_none_right_eq_some, Bool.and_eq_true, isNone_iff_eq_none, decide_eq_true_eq,
      some.injEq] at hstep
    obtain ⟨⟨⟨hpanic, -⟩, hstatus⟩, hnext⟩ := hstep
    obtain ⟨hnow, hcoarse⟩ := rouse_holds hsound hrefines hstatus hnext.symm
    exact ⟨hnow, _, .inr ⟨.rouse process, trivial, by simp [Monitor.step, hrefines.panic, hpanic]⟩, hcoarse⟩
  | event event =>
    simp only [step, ite_none_right_eq_some, isNone_iff_eq_none] at hstep
    obtain ⟨hpanic, hstep⟩ := hstep
    split at hstep
    · rename_i data hevent
      cases hstep
      refine ⟨⟨hsound.lk, hsound.ptable, hsound.both, hsound.running, hsound.away⟩, { coarse with data }, .inr
        ⟨.event event, trivial, ?_⟩, rfl, hrefines.place, hrefines.panic, hrefines.asleep, hrefines.inSection,
        hrefines.awaits, hrefines.pending⟩
      have hwake : coarse.wake [] = coarse.asleep := by
        funext process
        cases hasleep : coarse.asleep process <;> simp [Monitor.State.wake, hasleep]
      simp [Monitor.step, hrefines.panic, hpanic, hrefines.data, hevent, Monitor.State.during, hwake]
    · cases hstep

end Steps

-- Whatever is shown of the monitor holds here as well: its critical sections need not be taken
-- apart, and no wakeup comes too early for a process that has not fallen asleep yet.
theorem refines {start : Data → (Process → Place) → Prop} (h : Reaches monitor shared fair start state) :
    Sound shared state ∧ ∃ coarse, Reach monitor.step (Monitor.Fairly fair) (Monitor.Begins start) coarse ∧
      Refines state coarse := by
  refine h.invariant (fun state => Sound shared state ∧ ∃ coarse,
    Reach monitor.step (Monitor.Fairly fair) (Monitor.Begins start) coarse ∧ Refines state coarse) ?_ ?_
  · rintro state ⟨hstart, hpoint, hstatus, hchan, hlk, hptable, hpanic⟩
    refine ⟨⟨?_, ?_, ?_, fun process _ => hstatus process, ?_⟩, ⟨state.data, state.place, fun _ => none, none⟩,
      .start _ ⟨hstart, fun _ => rfl, rfl⟩, rfl, rfl, hpanic.symm, ?_, ?_, ?_, ?_⟩
    · simp [hpoint, hlk, inSection]
    · simp [hpoint, hptable, hasPtable]
    · simp [hpoint, hasBoth]
    · simp [hpoint]
    · simp
    · simp [hpoint, inSection]
    · simp [awaits, hpoint]
    · simp [hpoint, pending]
  · rintro state next label ⟨hsound, coarse, hreach, hrefines⟩ hgood hstep
    obtain ⟨hnext, later, hlater, hcoarse⟩ := step_holds hsound hrefines hgood hstep
    refine ⟨hnext, later, ?_, hcoarse⟩
    rcases hlater with rfl | ⟨label, hfair, hstep⟩
    · exact hreach
    · exact .step coarse later label hreach hfair hstep

omit [DecidableEq Chan] in
theorem afterBody_go (hpoint : point.afterBody → (state.point process).afterBody)
    (hnext : next.point = update state.point process point) (other : Process) (h : (next.point other).afterBody) :
    (state.point other).afterBody := by
  rw [hnext] at h
  by_cases hne : other = process
  · subst hne
    rw [update_self] at h
    exact hpoint h
  · rwa [update_of_ne hne] at h

-- A process that is not in a critical section changes no data, and only the release of the lock takes it out.
theorem proceed_moves (hinside : state.point process ≠ .inside)
    (hstep : proceed monitor shared state process choice = some next) :
    next.data = state.data ∧ next.place = state.place ∧ ∃ point, next.point = update state.point process point ∧
      (point.afterBody → (state.point process).afterBody) ∧
      (point = .out → (state.point process).afterBody → next = (state.release shared).go process .out) := by
  cases hpoint : state.point process with
  | out | away => simp [proceed, hpoint] at hstep
  | inside => exact absurd hpoint hinside
  | waking wakes sleeps =>
    cases wakes with
    | cons chan wakes =>
      simp only [proceed, hpoint] at hstep
      split_ifs at hstep
      · cases hstep
        exact ⟨rfl, rfl, _, rfl, fun _ => rfl, by simp⟩
      · obtain ⟨locked, hlocked, rfl⟩ := map_eq_some_iff.mp hstep
        obtain ⟨-, rfl⟩ := acquirePtable_eq hlocked
        exact ⟨rfl, rfl, _, rfl, fun _ => rfl, by simp⟩
    | nil =>
      cases sleeps with
      | none =>
        simp only [proceed, hpoint, some.injEq] at hstep
        subst hstep
        cases shared <;> exact ⟨rfl, rfl, _, rfl, fun _ => rfl, fun _ _ => rfl⟩
      | some chan =>
        simp only [proceed, hpoint] at hstep
        split_ifs at hstep
        · cases hstep
          exact ⟨rfl, rfl, _, rfl, fun _ => rfl, by simp⟩
        · obtain ⟨locked, hlocked, rfl⟩ := map_eq_some_iff.mp hstep
          obtain ⟨-, rfl⟩ := acquirePtable_eq hlocked
          exact ⟨rfl, rfl, _, rfl, fun _ => rfl, by simp⟩
  | wakeup chan wakes sleeps =>
    simp only [proceed, hpoint, some.injEq] at hstep
    subst hstep
    exact ⟨rfl, rfl, _, rfl, fun _ => rfl, by simp⟩
  | swapping chan | marking chan =>
    simp only [proceed, hpoint, some.injEq] at hstep
    subst hstep
    exact ⟨rfl, rfl, _, rfl, by simp [afterBody], by simp⟩
  | awake chan =>
    simp only [proceed, hpoint] at hstep
    split_ifs at hstep <;> cases hstep
    · exact ⟨rfl, rfl, _, rfl, by simp [afterBody], by simp⟩
    · exact ⟨rfl, rfl, _, rfl, by simp [afterBody], by simp [afterBody]⟩

-- Only a critical section and an event change the data.
theorem step_data (hstep : step monitor shared state label = some next) :
    (next.data = state.data ∧ next.place = state.place ∧
      ∀ other, (next.point other).afterBody → (state.point other).afterBody) ∨
    (∃ process choice outcome, state.point process = .inside ∧
      monitor.turn process choice (state.place process) state.data = some outcome ∧ next = state.body process outcome) ∨
    ∃ event outcome, monitor.event event state.data = some outcome := by
  cases label with
  | acquire process =>
    simp only [step] at hstep
    split at hstep
    · obtain ⟨locked, hlocked, rfl⟩ := map_eq_some_iff.mp hstep
      have hlock : locked.data = state.data ∧ locked.place = state.place ∧ locked.point = state.point := by
        unfold acquire acquirePtable at hlocked
        split_ifs at hlocked <;> cases hlocked <;> exact ⟨rfl, rfl, rfl⟩
      have hpoint : (locked.go process .inside).point = update state.point process .inside := by
        rw [← hlock.2.2]
        rfl
      exact .inl ⟨hlock.1, hlock.2.1, afterBody_go (by simp [afterBody]) hpoint⟩
    · cases hstep
  | proceed process choice =>
    simp only [step, ite_none_right_eq_some] at hstep
    obtain ⟨-, hstep⟩ := hstep
    by_cases hinside : state.point process = .inside
    · simp only [proceed, hinside, map_eq_some_iff] at hstep
      obtain ⟨outcome, houtcome, rfl⟩ := hstep
      exact .inr (.inl ⟨process, choice, outcome, hinside, houtcome, rfl⟩)
    · obtain ⟨hdata, hplace, point, hnext, hafter, -⟩ := proceed_moves hinside hstep
      exact .inl ⟨hdata, hplace, afterBody_go hafter hnext⟩
  | yield process =>
    simp only [step] at hstep
    split at hstep
    · obtain ⟨locked, hlocked, rfl⟩ := map_eq_some_iff.mp hstep
      obtain ⟨-, rfl⟩ := acquirePtable_eq hlocked
      exact .inl ⟨rfl, rfl, afterBody_go (by simp [afterBody]) rfl⟩
    · cases hstep
  | take | drop | rouse =>
    simp only [step, ite_none_right_eq_some, some.injEq] at hstep
    obtain ⟨-, rfl⟩ := hstep
    exact .inl ⟨rfl, rfl, fun _ hother => hother⟩
  | dispatch process =>
    simp only [step] at hstep
    split at hstep
    · simp only [ite_none_right_eq_some, some.injEq] at hstep
      obtain ⟨-, rfl⟩ := hstep
      exact .inl ⟨rfl, rfl, afterBody_go (by simp [afterBody]) rfl⟩
    · cases hstep
  | event event =>
    simp only [step, ite_none_right_eq_some] at hstep
    obtain ⟨-, hstep⟩ := hstep
    split at hstep
    · rename_i hevent
      exact .inr (.inr ⟨event, _, hevent⟩)
    · cases hstep

theorem proceed_out (hafter : (state.point process).afterBody)
    (hstep : proceed monitor shared state process choice = some next) (hout : next.point process = .out) :
    next = (state.release shared).go process .out := by
  have hinside : state.point process ≠ .inside := by
    intro hinside
    simp [hinside, afterBody] at hafter
  obtain ⟨-, -, point, hpoint, -, hrelease⟩ := proceed_moves hinside hstep
  rw [hpoint, update_self] at hout
  exact hrelease hout hafter

omit [DecidableEq Process] [DecidableEq Chan] in
-- A process that is asleep while nobody is in a critical section is asleep in the monitor.
theorem Refines.sleeping (hrefines : Refines state coarse) (hsound : Sound shared state)
    (hfree : ∀ other, (state.point other).inSection = false) (hstatus : state.status process = .SLEEPING) :
    ∃ chan, state.chan process = some chan ∧ coarse.asleep process = some chan := by
  obtain ⟨gone, hpoint⟩ : ∃ gone, state.point process = .away gone := by
    by_contra hnot
    have hruns := hsound.running process (fun chan hchan => hnot ⟨chan, hchan⟩)
    simp [hstatus] at hruns
  obtain ⟨-, hsome, hchan⟩ := (hsound.away process gone hpoint).resolve_left (by simp [hstatus])
  obtain ⟨chan, rfl⟩ := isSome_iff_exists.mp hsome
  refine ⟨chan, hchan, ?_⟩
  rcases hrefines.awaits process chan (by simp [State.awaits, hpoint, hstatus]) with hasleep | ⟨waker, hwaker⟩
  · exact hasleep
  · have hin := Point.inSection_of_pending hwaker
    simp [hfree waker] at hin

end Locks

end Sleep

end Xv6

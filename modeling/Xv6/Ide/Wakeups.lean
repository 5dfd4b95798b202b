import Xv6.Ide
import Xv6.Log.Ops

namespace Xv6

open Function Sleeplock

namespace Disk

variable {Process Object Data : Type} [DecidableEq Process] [DecidableEq Object]
variable {disk next : Disk Process Object Data} {me process : Process} {object : Object}
variable {before after : IdePlace Object}
variable {turn : Turn (Disk Process Object Data) (IdePlace Object) (IdeChan Object)}

-- What a turn does to the locks. Whoever is about to release a lock has just been checked.
inductive Moves (disk : Disk Process Object Data) (me : Process) (before : IdePlace Object)
    (next : Disk Process Object Data) (after : IdePlace Object) : Prop
  | acquires (object : Object) (hfree : (disk.lock object).locked = false)
      (hlock : next.lock = update disk.lock object ⟨true, some me⟩)
      (hheld : after.held = update before.held object true) (hdoing : after.doing = .idle)
  | releases (object : Object) (hreleases : before.doing = .releasesleep object)
      (hlock : next.lock = update disk.lock object ⟨false, none⟩)
      (hheld : after.held = update before.held object false) (hdoing : after.doing = .idle)
  | keeps (hlock : next.lock = disk.lock) (hheld : after.held = before.held)
      (hdoing : ∀ object, after.doing = .releasesleep object → (disk.lock object).holdingsleep me)

theorem acquiresleep_moves (h : disk.acquiresleep me before object = some (.turn turn)) :
    Moves disk me before turn.data turn.place := by
  unfold acquiresleep Sleeplock.acquiresleep at h
  split_ifs at h with hlocked
  · cases h
    exact .keeps rfl rfl (by simp)
  · cases h
    exact .acquires object (by simpa using hlocked) rfl rfl rfl

omit [DecidableEq Object] in
theorem iderw_moves (h : disk.iderw me before object = some (.turn turn)) :
    turn.data = disk ∧ turn.place.held = before.held ∧ turn.place.doing = .iderw object := by
  unfold iderw at h
  split at h
  · cases h
  · cases h
    exact ⟨rfl, rfl, rfl⟩

omit [DecidableEq Process] [DecidableEq Object] in
-- The loop of iderw ends only when the buffer is in sync with the disk.
theorem await_moves (h : disk.await before object = some (.turn turn)) :
    turn.data = disk ∧ turn.place.held = before.held ∧
      (turn.place.doing = .waiting object ∨ (turn.place.doing = .idle ∧ (disk.buf object).synced)) := by
  unfold await at h
  split_ifs at h with hsynced
  · cases h
    exact ⟨rfl, rfl, .inr ⟨rfl, hsynced⟩⟩
  · cases h
    exact ⟨rfl, rfl, .inl rfl⟩

omit [DecidableEq Process] in
theorem enqueue_moves (h : disk.enqueue before object = some (.turn turn)) :
    turn.data = { disk with idequeue := disk.idequeue ++ [object] } ∧ turn.place.held = before.held ∧
      (turn.place.doing = .waiting object ∨ (turn.place.doing = .idle ∧ (disk.buf object).synced)) := by
  unfold enqueue at h
  dsimp only at h
  split at h
  · cases h
  · exact await_moves h

variable {choice : IdeChoice Object Data}

section

variable (h : disk.turn me before choice before.doing = some (.turn turn))

include h

theorem turn_moves : Moves disk me before turn.data turn.place := by
  unfold Disk.turn at h
  split at h
  · exact acquiresleep_moves h
  · exact acquiresleep_moves h
  · unfold brelse at h
    split_ifs at h with hholding
    · cases h
    · cases h
      refine .keeps rfl rfl ?_
      rintro other ⟨⟩
      simpa using hholding
  · rename_i hdoing
    cases h
    exact .releases _ hdoing rfl rfl rfl
  · obtain ⟨hdata, hheld, hdoing⟩ := iderw_moves h
    exact .keeps (by rw [hdata]) hheld (by simp [hdoing])
  · unfold bwrite at h
    split_ifs at h with hholding
    · cases h
    · obtain ⟨hdata, hheld, hdoing⟩ := iderw_moves h
      exact .keeps (by rw [hdata]; rfl) hheld (by simp [hdoing])
  · obtain ⟨hdata, hheld, hdoing⟩ := enqueue_moves h
    exact .keeps (by rw [hdata]) hheld (by rcases hdoing with hdoing | ⟨hdoing, -⟩ <;> simp [hdoing])
  · obtain ⟨hdata, hheld, hdoing⟩ := await_moves h
    exact .keeps (by rw [hdata]) hheld (by rcases hdoing with hdoing | ⟨hdoing, -⟩ <;> simp [hdoing])
  · unfold modify at h
    split_ifs at h
    cases h
    exact .keeps rfl rfl (by simp)
  · unfold recycle at h
    split_ifs at h
    cases h
    exact .keeps rfl rfl (by simp)
  · cases h

theorem turn_synced (hbefore : before.doing = .iderw object ∨ before.doing = .waiting object)
    (hafter : turn.place.doing ≠ .waiting object) : (turn.data.buf object).synced := by
  rcases hbefore with hbefore | hbefore
  · rw [hbefore] at h
    cases choice with
    | proceed =>
      obtain ⟨hdata, -, hdoing⟩ := enqueue_moves h
      rw [hdata]
      exact (hdoing.resolve_left hafter).2
    | acquiresleep | brelse | iderw | bwrite | modify | recycle => cases h
  · rw [hbefore] at h
    cases choice with
    | proceed =>
      obtain ⟨hdata, -, hdoing⟩ := await_moves h
      rw [hdata]
      exact (hdoing.resolve_left hafter).2
    | acquiresleep | brelse | iderw | bwrite | modify | recycle => cases h

end

omit [DecidableEq Process] in
theorem ideintr_lock {input : Option Data} {turn : Turn (Disk Process Object Data) Unit (IdeChan Object)}
    (h : disk.ideintr input = .turn turn) : turn.data.lock = disk.lock := by
  unfold ideintr at h
  split at h
  · cases h
    rfl
  · dsimp only at h
    split at h
    · cases h
    · cases h
      rfl

-- The locks that a process holds are those that carry its pid.
structure Holds (disk : Disk Process Object Data) (place : Process → IdePlace Object) : Prop where
  held (process : Process) (object : Object) : (place process).held object = (disk.lock object).holdingsleep process
  releasing (process : Process) (object : Object) (h : (place process).doing = .releasesleep object) :
    (place process).held object

namespace Holds

variable {place : Process → IdePlace Object}

omit [DecidableEq Object] in
theorem unique (h : disk.Holds place) {first second : Process} (hfirst : (place first).held object)
    (hsecond : (place second).held object) : first = second := by
  rw [h.held, holdingsleep, Bool.and_eq_true, decide_eq_true_eq] at hfirst hsecond
  exact Option.some.inj (hfirst.2.symm.trans hsecond.2)

-- One lock changes hands between the process that takes the turn and nobody.
theorem change (h : disk.Holds place) (lk : Sleeplock Process) (hlock : next.lock = update disk.lock object lk)
    (hheld : after.held = update (place me).held object (lk.holdingsleep me))
    (hothers : ∀ process, process ≠ me → lk.holdingsleep process = (disk.lock object).holdingsleep process)
    (hdoing : after.doing = .idle) : next.Holds (update place me after) := by
  refine ⟨fun process other => ?_, fun process other hreleasing => ?_⟩
  · rw [hlock]
    by_cases hme : process = me
    · subst hme
      rw [update_self, hheld]
      by_cases hobject : other = object
      · subst hobject
        rw [update_self, update_self]
      · rw [update_of_ne hobject, update_of_ne hobject, h.held]
    · rw [update_of_ne hme, h.held]
      by_cases hobject : other = object
      · subst hobject
        rw [update_self, hothers process hme]
      · rw [update_of_ne hobject]
  · by_cases hme : process = me
    · subst hme
      rw [update_self, hdoing] at hreleasing
      cases hreleasing
    · rw [update_of_ne hme] at hreleasing ⊢
      exact h.releasing process other hreleasing

theorem step (h : disk.Holds place) (hmoves : Moves disk me (place me) next after) :
    next.Holds (update place me after) := by
  cases hmoves with
  | acquires object hfree hlock hheld hdoing =>
    refine h.change ⟨true, some me⟩ hlock (by simp [hheld, holdingsleep]) ?_ hdoing
    intro process hne
    simp [holdingsleep, hfree, hne.symm]
  | releases object hreleases hlock hheld hdoing =>
    have hmine := h.releasing me object hreleases
    refine h.change ⟨false, none⟩ hlock (by simp [hheld, holdingsleep]) ?_ hdoing
    intro process hne
    have hnot : (place process).held object = false := by
      by_contra hother
      exact hne (h.unique (by simpa using hother) hmine)
    rw [← h.held, hnot, holdingsleep, Bool.false_and]
  | keeps hlock hheld hdoing =>
    refine ⟨fun process other => ?_, fun process other hreleasing => ?_⟩
    · rw [hlock]
      by_cases hme : process = me
      · rw [hme, update_self, hheld, h.held]
      · rw [update_of_ne hme, h.held]
    · by_cases hme : process = me
      · subst hme
        rw [update_self] at hreleasing ⊢
        rw [hheld, h.held]
        exact hdoing other hreleasing
      · rw [update_of_ne hme] at hreleasing ⊢
        exact h.releasing process other hreleasing

end Holds

theorem reaches_holds
    {state : Monitor.State Process (Disk Process Object Data) (IdePlace Object) (IdeChan Object) IdePanic}
    (h : (ide Process Object Data).Reaches Starts state) : state.data.Holds state.place := by
  refine h.invariant Holds ?_ ?_ ?_
  · intro disk place hstart
    refine ⟨fun process object => ?_, fun process object hreleasing => ?_⟩
    · rw [hstart.held, hstart.lock, holdingsleep, Bool.false_and]
    · rw [hstart.doing] at hreleasing
      cases hreleasing
  · intro disk place me choice turn hholds hturn
    exact hholds.step (turn_moves hturn)
  · intro disk place input turn hholds hturn
    have hlock := ideintr_lock (Option.some.inj hturn)
    exact ⟨fun process object => by rw [hlock, hholds.held], hholds.releasing⟩

end Disk

section Wakeups

variable {Process Object Data : Type} [DecidableEq Process] [DecidableEq Object]

-- In both systems a step may also rouse any process that sleeps, as `kill` and `Kill` with
-- SIGCONT do. The log is seen as begin_op finds it when it has taken the lock.
theorem wakeups_harmless
    {disk : Monitor.State Process (Disk Process Object Data) (IdePlace Object) (IdeChan Object) IdePanic}
    {log : Monitor.State Process Journal LogPlace Unit LogPanic}
    (hdisk : (ide Process Object Data).Reaches Disk.Starts disk) (hlog : (logging Process).Reaches Journal.Starts log) :
    (∀ object first second, (disk.place first).held object → (disk.place second).held object → first = second) ∧
      (∀ label next process object, (ide Process Object Data).step disk label = some next →
        ((disk.place process).doing = .iderw object ∨ (disk.place process).doing = .waiting object) →
          (next.place process).doing = .idle →
            (next.data.buf object).valid = true ∧ (next.data.buf object).dirty = false) ∧
      (∀ label next process, (logging Process).step log label = some next →
        (log.place process).inOp = none → (next.place process).inOp ≠ none →
          (∀ other, (log.place other).inCommit = false) ∧
            log.data.log.lh.n + (log.data.log.outstanding + 1) * MAXOPBLOCKS ≤ LOGSIZE ∧
            next.data.log.outstanding = log.data.log.outstanding + 1) := by
  refine ⟨?_, ?_, ?_⟩
  · intro object first second hfirst hsecond
    exact (Disk.reaches_holds hdisk).unique hfirst hsecond
  · intro label next process object hstep hbefore hafter
    have hmoved : next.place process ≠ disk.place process := by
      intro hsame
      rw [hsame] at hafter
      simp [hafter] at hbefore
    obtain ⟨choice, turn, hturn, hdata, hplace⟩ := Monitor.turn_of_place_ne hstep process hmoved
    have hsynced := Disk.turn_synced hturn hbefore (by rw [← hplace, hafter]; simp)
    rw [← hdata] at hsynced
    simpa [Buf.synced] using hsynced
  · intro label next process hstep hbefore hafter
    have hmoved : next.place process ≠ log.place process := by
      intro hsame
      rw [hsame] at hafter
      exact hafter hbefore
    obtain ⟨choice, turn, hturn, hdata, hplace⟩ := Monitor.turn_of_place_ne hstep process hmoved
    obtain ⟨hcommitting, hspace⟩ := (Journal.turn_moves hturn).enters hbefore (by rwa [← hplace])
    refine ⟨fun other => ?_, by rwa [hdata]⟩
    by_contra hother
    have hflag := (logging_invariant hlog).1.committing other (by simpa using hother)
    simp [hcommitting] at hflag

end Wakeups

-- The second process is roused while the first one has the lock and waits for the disk, and
-- while the first one commits.
theorem wakeups_harmless_roused :
    ∃ (disk : Monitor.State Bool (Disk Bool Unit Nat) (IdePlace Unit) (IdeChan Unit) IdePanic)
      (log : Monitor.State Bool Journal LogPlace Unit LogPanic),
      ((disk.place true).doing = .acquiresleep () ∧ disk.asleep true = none ∧ (disk.place false).held ()) ∧
        (log.place true = .beginOp ∧ log.asleep true = none ∧ log.place false = .committing .writeLog) ∧
        (∀ first second, (disk.place first).held () → (disk.place second).held () → first = second) := by
  obtain ⟨disk, hdisk, hroused⟩ : ∃ disk, (ide Bool Unit Nat).Reaches Disk.Starts disk ∧
      ((disk.place true).doing = .acquiresleep () ∧ disk.asleep true = none ∧ (disk.place false).held ()) :=
    Monitor.exists_reaches ⟨fun _ => ⟨false, none⟩, fun _ => ⟨false, false, 0, 7, 0⟩, [], false⟩
      (fun _ => ⟨.idle, fun _ => false⟩) ⟨fun _ => rfl, rfl, fun _ => rfl, fun _ _ => rfl⟩
      [.turn false (.acquiresleep ()), .turn false (.iderw ()), .turn false .proceed, .turn true (.acquiresleep ()),
        .rouse true]
      ⟨_, rfl, rfl, rfl, rfl⟩
  obtain ⟨log, hlog, hwaits⟩ : ∃ log, (logging Bool).Reaches Journal.Starts log ∧
      (log.place true = .beginOp ∧ log.asleep true = none ∧ log.place false = .committing .writeLog) :=
    Monitor.exists_reaches ⟨⟨2, 30, 0, false, .empty⟩, [], [], 0, []⟩ (fun _ => .idle)
      ⟨rfl, rfl, rfl, rfl, rfl, rfl, fun _ => rfl⟩
      [.turn false .beginOp, .turn false (.logWrite 5), .turn false .proceed, .turn false .endOp,
        .turn false .proceed, .turn true .beginOp, .rouse true]
      ⟨_, rfl, rfl, rfl, rfl⟩
  exact ⟨disk, log, hroused, hwaits, (wakeups_harmless hdisk hlog).1 ()⟩

end Xv6

import Xv6.Sched
import Xv6.Ptable.Theorems

namespace Xv6

-- The entry that a process is about to make a new process of.
def Place.creating : Place → Option Slot
  | .stack np | .copy np | .filled np => some np
  | _ => none

@[simp] theorem Ptable.proc_take_self (table : Ptable) (np : Slot) :
    (table.take np).proc np = { table.proc np with state := .EMBRYO, pid := table.nextpid } := by
  simp [take, update]

theorem Ptable.proc_take_of_ne (table : Ptable) {np slot : Slot} (h : slot ≠ np) :
    (table.take np).proc slot = table.proc slot := by
  simp [take, update, h]

variable {me : Slot}

-- The stages of fork, if nothing comes between them, are the fork of the process table.
theorem Ptable.fork_eq_stages (table : Ptable) {np : Slot} (hme : me ≠ np) (hnp : table.unused = some np) :
    (table.fork me true true).1 =
      ((((table.take np).update np fun proc => { proc with kstack := true, sigpending := 0, justwoken := false }).update
        np fun proc => proc.copyFrom (table.proc me) me).update np (Proc.setState · .RUNNABLE)) := by
  simp [fork, allocproc, hnp, take, update, hme, Proc.setState]

namespace Smp

variable {Cpu : Type} {smp : Smp Cpu} {cpu : Cpu}

section Threads

variable (smp) (me other : Slot) (thread : Kthread) (phase : Phase) (place : Place)

@[simp] theorem thread_setThread_self : (smp.setThread me thread).thread me = thread := by
  simp [setThread]

theorem thread_setThread_of_ne (h : other ≠ me) : (smp.setThread me thread).thread other = smp.thread other := by
  simp [setThread, h]

@[simp] theorem thread_setPhase_self : (smp.setPhase me phase).thread me = ⟨(smp.thread me).place, phase⟩ := by
  simp [setPhase]

theorem thread_setPhase_of_ne (h : other ≠ me) : (smp.setPhase me phase).thread other = smp.thread other := by
  simp [setPhase, thread_setThread_of_ne _ _ _ _ h]

@[simp] theorem thread_setPlace_self : (smp.setPlace me place).thread me = ⟨place, (smp.thread me).phase⟩ := by
  simp [setPlace]

theorem thread_setPlace_of_ne (h : other ≠ me) : (smp.setPlace me place).thread other = smp.thread other := by
  simp [setPlace, thread_setThread_of_ne _ _ _ _ h]

@[simp] theorem proc_setThread : (smp.setThread me thread).proc = smp.proc := rfl

@[simp] theorem proc_setPhase : (smp.setPhase me phase).proc = smp.proc := rfl

@[simp] theorem proc_setPlace : (smp.setPlace me place).proc = smp.proc := rfl

theorem setPlace_eq_self : smp.setPlace me (smp.thread me).place = smp := by
  simp [setPlace, setThread]

variable (change : Proc → Proc)

@[simp] theorem proc_update_self : (smp.update me change).proc me = change (smp.proc me) :=
  smp.table.proc_update_self me change

theorem proc_update_of_ne (h : other ≠ me) : (smp.update me change).proc other = smp.proc other :=
  smp.table.proc_update_of_ne change h

theorem update_id : smp.update me id = smp := by
  simp [update, Ptable.update]

end Threads

variable [DecidableEq Cpu]

-- What the process that runs on a CPU does in one step.
inductive Turn (smp : Smp Cpu) (cpu : Cpu) (rest : List Slot) (me : Slot) : Smp Cpu → Prop
  | moves (place : Place) (hphase : (smp.thread me).phase = .free)
      (hplace : place = (smp.thread me).place ∨ place.creating = none) : Turn smp cpu rest me (smp.setPlace me place)
  | acquires (section_ : Section) (place : Place) (hphase : (smp.thread me).phase = .free) (hlock : smp.lock = none)
      (hplace : place = (smp.thread me).place ∨ place.creating = none) :
      Turn smp cpu rest me { smp.setThread me ⟨place, .holds section_⟩ with lock := some cpu }
  | stack (np : Slot) (hphase : (smp.thread me).phase = .free) (hplace : (smp.thread me).place = .stack np) :
      Turn smp cpu rest me
        ((smp.update np fun proc => { proc with kstack := true, sigpending := 0, justwoken := false }).setPlace me
          (.copy np))
  | fails (np : Slot) (hphase : (smp.thread me).phase = .free)
      (hplace : (smp.thread me).place = .stack np ∨ (smp.thread me).place = .copy np) :
      Turn smp cpu rest me
        ((smp.update np fun proc => { proc with kstack := false, state := .UNUSED }).setPlace me .out)
  | copies (np : Slot) (hphase : (smp.thread me).phase = .free) (hplace : (smp.thread me).place = .copy np) :
      Turn smp cpu rest me
        ((smp.update np fun proc => proc.copyFrom (smp.proc me) me).setPlace me (.filled np))
  | body (section_ : Section) (next : Smp Cpu) (hphase : (smp.thread me).phase = .holds section_)
      (hnext : smp.body me section_ = some next) : Turn smp cpu rest me next
  | releases (hphase : (smp.thread me).phase = .leaves) :
      Turn smp cpu rest me { smp.setPhase me .free with lock := none }
  | switches (switch : Switch) (hphase : (smp.thread me).phase = .leaving switch) :
      Turn smp cpu rest me ((smp.setPhase me (.away switch)).setMode cpu (.returns rest))
  | resumed (switch : Switch) (next : Smp Cpu) (hphase : (smp.thread me).phase = .back switch)
      (hnext : smp.resumed me switch = some next) : Turn smp cpu rest me next

-- What a CPU does in one step.
inductive Steps (smp : Smp Cpu) (cpu : Cpu) : Smp Cpu → Prop
  | acquires (mode : Mode) (hmode : smp.mode cpu = .idle) (hlock : smp.lock = none)
      (hnext : (∃ chan, mode = .wakes chan) ∨ mode = .scan Ptable.slots) :
      Steps smp cpu { smp.setMode cpu mode with lock := some cpu }
  | wakes (chan : Chan) (hmode : smp.mode cpu = .wakes chan) :
      Steps smp cpu { smp.setMode cpu .idle with table := smp.table.wakeup1 chan, lock := none }
  | ends (hmode : smp.mode cpu = .scan []) : Steps smp cpu { smp.setMode cpu .idle with lock := none }
  | skips (slot : Slot) (rest : List Slot) (hmode : smp.mode cpu = .scan (slot :: rest)) :
      Steps smp cpu (smp.setMode cpu (.scan rest))
  | resumes (slot : Slot) (rest : List Slot) (switch : Switch) (hmode : smp.mode cpu = .scan (slot :: rest))
      (hstate : (smp.proc slot).state = .RUNNABLE) (hphase : (smp.thread slot).phase = .away switch) :
      Steps smp cpu
        { ((smp.update slot (Proc.setState · .RUNNING)).setPhase slot (.back switch)).setMode cpu (.runs rest) with
          current := Function.update smp.current cpu (some slot) }
  | returns (rest : List Slot) (hmode : smp.mode cpu = .returns rest) :
      Steps smp cpu { smp.setMode cpu (.scan rest) with current := Function.update smp.current cpu none }
  | turn (rest : List Slot) (me : Slot) (next : Smp Cpu) (hmode : smp.mode cpu = .runs rest)
      (hcurrent : smp.current cpu = some me) (hturn : Turn smp cpu rest me next) : Steps smp cpu next

theorem creating_afterEntry (pid : Int) (sig : Nat) (rest : List Slot) : (afterEntry pid sig rest).creating = none := by
  unfold afterEntry
  split <;> rfl

variable {next : Smp Cpu} {rest : List Slot}

theorem acquire_turn {section_ : Section} {place : Place} (hphase : (smp.thread me).phase = .free)
    (hplace : place = (smp.thread me).place ∨ place.creating = none)
    (h : smp.acquire cpu me section_ place = some next) : Turn smp cpu rest me next := by
  simp only [acquire, Option.ite_none_right_eq_some, Option.some.injEq] at h
  obtain ⟨hlock, rfl⟩ := h
  exact .acquires section_ place hphase hlock hplace

theorem advance_turn {ok : Bool} {stale : Slot → BitVec 16} (hphase : (smp.thread me).phase = .free)
    (h : smp.advance cpu me ok stale (smp.thread me).place = some next) : Turn smp cpu rest me next := by
  have hmoves : ∀ place : Place, place.creating = none → Turn smp cpu rest me (smp.setPlace me place) :=
    fun place hplace => .moves place hphase (.inr hplace)
  cases hplace : (smp.thread me).place with
  | out =>
    rw [hplace] at h
    cases h
  | stack np =>
    simp only [hplace, advance] at h
    split_ifs at h
    · cases h
      exact .stack np hphase hplace
    · cases h
      exact .fails np hphase (.inl hplace)
  | copy np =>
    simp only [hplace, advance] at h
    split_ifs at h
    · cases h
      exact .copies np hphase hplace
    · cases h
      exact .fails np hphase (.inr hplace)
  | filled np =>
    simp only [hplace, advance] at h
    exact acquire_turn hphase (.inl hplace.symm) h
  | Kill pid sig targets =>
    cases targets with
    | nil =>
      simp only [hplace, advance, Option.some.injEq] at h
      subst h
      exact hmoves _ rfl
    | cons slot targets =>
      simp only [hplace, advance] at h
      split_ifs at h <;> cases h
      · exact hmoves _ rfl
      · exact hmoves _ (creating_afterEntry pid sig targets)
      · exact hmoves _ rfl
      · exact hmoves _ rfl
  | found slot pid sig targets =>
    simp only [hplace, advance] at h
    refine acquire_turn hphase (.inr ?_) h
    split
    · rfl
    · exact creating_afterEntry pid sig targets
  | sigkill slot pid sig targets =>
    simp only [hplace, advance] at h
    exact acquire_turn hphase (.inr (creating_afterEntry pid sig targets)) h

theorem threadStep_turn {move : Move} (h : smp.threadStep cpu rest me move = some next) :
    Turn smp cpu rest me next := by
  unfold threadStep at h
  split at h
  · rename_i section_ hphase
    split at h
    · rename_i hplace
      split_ifs at h
      exact acquire_turn hphase (.inl hplace.symm) h
    · cases h
  · rename_i pid sig hphase
    split at h
    · split_ifs at h <;> cases h
      · have hturn : Turn smp cpu rest me (smp.setPlace me (smp.thread me).place) := .moves _ hphase (.inl rfl)
        rwa [setPlace_eq_self] at hturn
      · exact .moves _ hphase (.inr rfl)
    · cases h
  · rename_i section_ hphase
    split_ifs at h
    exact acquire_turn hphase (.inl rfl) h
  · rename_i hphase
    exact advance_turn hphase h
  · rename_i hphase
    cases h
    exact .moves _ hphase (.inr rfl)
  · rename_i section_ _ _ hphase
    exact .body section_ next hphase h
  · rename_i hphase
    cases h
    exact .releases hphase
  · rename_i switch _ _ hphase
    cases h
    exact .switches switch hphase
  · rename_i switch _ _ hphase
    exact .resumed switch next hphase h
  · cases h

theorem step_steps {label : Cpu × Move} (h : smp.step label = some next) : Steps smp label.1 next := by
  unfold step at h
  split at h
  · rename_i hmode hmove
    split_ifs at h with hlock
    cases h
    exact .acquires _ hmode hlock (.inr rfl)
  · rename_i chan hmode hmove
    split_ifs at h with hlock
    cases h
    exact .acquires _ hmode hlock (.inl ⟨chan, rfl⟩)
  · rename_i chan _ _ hmode hmove
    cases h
    exact .wakes chan hmode
  · rename_i hmode hmove
    cases h
    exact .ends hmode
  · rename_i slot rest _ _ hmode hmove
    split_ifs at h with hstate
    · split at h
      · rename_i switch hphase
        cases h
        exact .resumes slot rest switch hmode hstate hphase
      · cases h
    · cases h
      exact .skips slot rest hmode
  · rename_i rest hmode
    split at h
    · rename_i me hcurrent
      exact .turn rest me next hmode hcurrent (threadStep_turn h)
    · cases h
  · rename_i rest _ _ hmode hmove
    cases h
    exact .returns rest hmode
  · cases h

end Smp

end Xv6

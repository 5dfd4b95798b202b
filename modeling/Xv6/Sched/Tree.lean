import Xv6.Sched.Control

namespace Xv6

open Proc

namespace Smp

variable {Cpu : Type} {smp next : Smp Cpu} {cpu : Cpu} {me : Slot} {rest : List Slot}

-- A process creates the same new process as before, or none.
def Place.Stays (place after : Place) : Prop :=
  after.creating = none ∨
    (after.creating = place.creating ∧ ∀ np, after = .filled np ↔ place = .filled np)

-- What a step does to the tree of processes, apart from the call of wait that finds a child.
inductive Grows (smp next : Smp Cpu) : Prop
  | agrees (hproc : ∀ slot, (smp.proc slot).Agrees (next.proc slot)) (hglobals : next.table.globals = smp.table.globals)
      (hplace : ∀ slot, Place.Stays (smp.thread slot).place (next.thread slot).place)
  | takes (me np : Slot) (hunused : (smp.proc np).state = .UNUSED) (htable : next.table = smp.table.take np)
      (hme : (next.thread me).place = .stack np)
      (hothers : ∀ slot ≠ me, next.thread slot = smp.thread slot)
  | drops (me np : Slot) (hplace : (smp.thread me).place = .stack np ∨ (smp.thread me).place = .copy np)
      (htable : next.table = smp.table.update np fun proc => { proc with kstack := false, state := .UNUSED })
      (hme : (next.thread me).place = .out) (hothers : ∀ slot ≠ me, next.thread slot = smp.thread slot)
  | fills (me np : Slot) (hrunning : (smp.proc me).state = .RUNNING) (hplace : (smp.thread me).place = .copy np)
      (htable : next.table = smp.table.update np fun proc => proc.copyFrom (smp.proc me) me)
      (hme : (next.thread me).place = .filled np) (hothers : ∀ slot ≠ me, next.thread slot = smp.thread slot)
  | starts (me np : Slot) (hplace : (smp.thread me).place = .filled np)
      (htable : next.table = smp.table.update np (Proc.setState · .RUNNABLE)) (hme : (next.thread me).place = .out)
      (hnp : (next.thread np).place = .out)
      (hothers : ∀ slot ≠ me, slot ≠ np → next.thread slot = smp.thread slot)
  | exits (me : Slot) (hrunning : (smp.proc me).state = .RUNNING) (hexits : smp.table.Exits next.table me)
      (hplace : ∀ slot, (next.thread slot).place = (smp.thread slot).place)

-- The current process of this CPU finds a child in wait that has exited, and frees it.
structure Reaps (smp : Smp Cpu) (cpu : Cpu) (next : Smp Cpu) (me child : Slot) : Prop where
  current : smp.current cpu = some me
  running : (smp.proc me).state = .RUNNING
  phase : (smp.thread me).phase = .holds .wait
  parent : (smp.proc child).parent = some me
  zombie : (smp.proc child).state = .ZOMBIE
  table : next.table = smp.table.update child Proc.freed
  place (slot : Slot) : (next.thread slot).place = (smp.thread slot).place
  waited : next.waited = (smp.proc child).pid :: smp.waited

inductive Effect (smp : Smp Cpu) (cpu : Cpu) (next : Smp Cpu) : Prop
  | grows (hgrows : Grows smp next) (hwaited : next.waited = smp.waited)
  | reaps (me child : Slot) (hreaps : Reaps smp cpu next me child)

variable {child : Slot} {memory : Memory}

theorem Reaps.proc_child (h : Reaps smp cpu next me child) : next.proc child = (smp.proc child).freed := by
  rw [proc, h.table, Ptable.proc_update_self]
  rfl

theorem Reaps.proc_of_ne {slot : Slot} (h : Reaps smp cpu next me child) (hslot : slot ≠ child) :
    next.proc slot = smp.proc slot := by
  rw [proc, h.table, Ptable.proc_update_of_ne _ _ hslot]
  rfl

-- What holds of an entry: its pid has been given out, and it has a parent if it has to have one.
structure Entry (smp : Smp Cpu) (slot : Slot) : Prop where
  unused (hstate : (smp.proc slot).state = .UNUSED) : (smp.proc slot).parent = none
  pid (hstate : (smp.proc slot).state ≠ .UNUSED) :
    0 < (smp.proc slot).pid ∧ (smp.proc slot).pid < smp.table.nextpid
  parent (hstate : (smp.proc slot).Live ∨ (smp.proc slot).state = .ZOMBIE) (hinit : smp.table.initproc ≠ some slot) :
    (smp.proc slot).parent ≠ none

-- The processes form a tree: each of them has its own pid and, but for the first one, a parent that
-- is alive. An entry that fork still fills in is not in the tree yet.
structure Tree (smp : Smp Cpu) : Prop where
  entry (slot : Slot) : Entry smp slot
  distinct (slot other : Slot) (hslot : (smp.proc slot).state ≠ .UNUSED) (hother : (smp.proc other).state ≠ .UNUSED)
    (hpid : (smp.proc slot).pid = (smp.proc other).pid) : slot = other
  parent (slot parent : Slot) (hparent : (smp.proc slot).parent = some parent) : (smp.proc parent).Live
  self (slot : Slot) : (smp.proc slot).parent ≠ some slot
  init : ∃ slot, smp.table.initproc = some slot ∧ (smp.proc slot).Live ∧ (smp.proc slot).parent = none
  creating (slot np : Slot) (hplace : (smp.thread slot).place.creating = some np) :
    (smp.proc np).state = .EMBRYO ∧ ((smp.proc np).parent = none ↔ (smp.thread slot).place ≠ .filled np)
  apart (slot other np : Slot) (hslot : (smp.thread slot).place.creating = some np)
    (hother : (smp.thread other).place.creating = some np) : slot = other

namespace Tree

variable (h : Tree smp)

include h

theorem creates : Creates smp := ⟨fun slot np hplace => (h.creating slot np hplace).1, h.apart⟩

theorem nextpid_pos : 0 < smp.table.nextpid := by
  obtain ⟨slot, -, hlive, -⟩ := h.init
  have hpid := (h.entry slot).pid (by rintro hstate; simp [Proc.Live, hstate] at hlive)
  omega

theorem agrees (hproc : ∀ slot, (smp.proc slot).Agrees (next.proc slot))
    (hglobals : next.table.globals = smp.table.globals)
    (hplace : ∀ slot, Place.Stays (smp.thread slot).place (next.thread slot).place) : Tree next := by
  have hnextpid : next.table.nextpid = smp.table.nextpid := congrArg Prod.fst hglobals
  have hinitproc : next.table.initproc = smp.table.initproc := congrArg Prod.snd hglobals
  have hstate : ∀ slot state, state ∉ [Procstate.SLEEPING, .RUNNABLE, .RUNNING] →
      ((next.proc slot).state = state ↔ (smp.proc slot).state = state) := by
    intro slot state hdead
    rcases (hproc slot).2.2 with hsame | ⟨hlive, hlive'⟩
    · rw [hsame]
    · refine iff_of_false ?_ ?_
      · rintro rfl
        exact hdead hlive'
      · rintro rfl
        exact hdead hlive
  have hlive : ∀ slot, (next.proc slot).Live ↔ (smp.proc slot).Live := by
    intro slot
    rcases (hproc slot).2.2 with hsame | ⟨hlive, hlive'⟩
    · simp only [Proc.Live, hsame]
    · exact iff_of_true hlive' hlive
  have hcreating : ∀ slot np, (next.thread slot).place.creating = some np →
      (smp.thread slot).place.creating = some np ∧
        ((next.thread slot).place ≠ .filled np ↔ (smp.thread slot).place ≠ .filled np) := by
    intro slot np hnp
    rcases hplace slot with hnone | ⟨hsame, hfilled⟩
    · rw [hnone] at hnp
      cases hnp
    · exact ⟨hsame.symm.trans hnp, not_congr (hfilled np)⟩
  have hunused := fun slot => hstate slot .UNUSED (by simp)
  refine ⟨fun slot => ⟨?_, ?_, ?_⟩, fun slot other => ?_, fun slot parent => ?_, fun slot => ?_, ?_,
    fun slot np hnp => ?_, fun slot other np hslot hother => ?_⟩
  · rw [hunused, (hproc slot).2.1]
    exact (h.entry slot).unused
  · rw [ne_eq, hunused, (hproc slot).1, hnextpid]
    exact (h.entry slot).pid
  · rw [hlive, hstate slot .ZOMBIE (by simp), (hproc slot).2.1, hinitproc]
    exact (h.entry slot).parent
  · rw [ne_eq, ne_eq, hunused, hunused, (hproc slot).1, (hproc other).1]
    exact h.distinct slot other
  · rw [(hproc slot).2.1, hlive]
    exact h.parent slot parent
  · rw [(hproc slot).2.1]
    exact h.self slot
  · obtain ⟨init, hinit, hinitlive, hroot⟩ := h.init
    exact ⟨init, hinitproc.trans hinit, (hlive init).mpr hinitlive, (hproc init).2.1.trans hroot⟩
  · obtain ⟨hcreates, hfilled⟩ := hcreating slot np hnp
    rw [hstate np .EMBRYO (by simp), (hproc np).2.1, hfilled]
    exact h.creating slot np hcreates
  · exact h.apart slot other np (hcreating slot np hslot).1 (hcreating other np hother).1

-- A step that changes this entry only, which was not alive and is no one's but this process's.
theorem change (me np : Slot) (hdead : ¬(smp.proc np).Live)
    (hproc : ∀ slot ≠ np, next.proc slot = smp.proc slot) (hinitproc : next.table.initproc = smp.table.initproc)
    (hnextpid : smp.table.nextpid ≤ next.table.nextpid) (hentry : Entry next np)
    (hpid : (next.proc np).state ≠ .UNUSED →
      ((smp.proc np).state ≠ .UNUSED ∧ (next.proc np).pid = (smp.proc np).pid) ∨ smp.table.nextpid ≤ (next.proc np).pid)
    (hparent : ∀ parent, (next.proc np).parent = some parent → (smp.proc parent).Live)
    (howner : ∀ slot ≠ me, (smp.thread slot).place.creating ≠ some np)
    (hothers : ∀ slot ≠ me, (next.thread slot).place = (smp.thread slot).place ∨
      (next.thread slot).place.creating = none)
    (hme : ∀ other, (next.thread me).place.creating = some other →
      (other ≠ np ∧ (next.thread me).place = (smp.thread me).place) ∨
        (other = np ∧ (next.proc np).state = .EMBRYO ∧
          ((next.proc np).parent = none ↔ (next.thread me).place ≠ .filled np))) : Tree next := by
  have hplace : ∀ slot other, (next.thread slot).place.creating = some other →
      (other ≠ np ∧ (next.thread slot).place = (smp.thread slot).place) ∨
        (other = np ∧ slot = me ∧ (next.proc np).state = .EMBRYO ∧
          ((next.proc np).parent = none ↔ (next.thread me).place ≠ .filled np)) := by
    intro slot other hother
    by_cases hslot : slot = me
    · subst hslot
      rcases hme other hother with hsame | ⟨heq, hembryo⟩
      · exact .inl hsame
      · exact .inr ⟨heq, rfl, hembryo⟩
    · rcases hothers slot hslot with hsame | hnone
      · refine .inl ⟨?_, hsame⟩
        rintro rfl
        exact howner slot hslot (hsame ▸ hother)
      · rw [hnone] at hother
        cases hother
  have hlive : ∀ slot, (smp.proc slot).Live → (next.proc slot).Live := by
    intro slot hslot
    rw [hproc slot]
    · exact hslot
    · rintro rfl
      exact hdead hslot
  -- The pid of this entry is the pid it had, or it is a new one.
  have hfresh : ∀ slot ≠ np, (next.proc slot).state ≠ .UNUSED → (next.proc np).state ≠ .UNUSED →
      (next.proc slot).pid ≠ (next.proc np).pid := by
    intro slot hslot hstate hnp heq
    rw [hproc slot hslot] at hstate heq
    rcases hpid hnp with ⟨hstate', hsame⟩ | hnew
    · exact hslot (h.distinct slot np hstate hstate' (heq.trans hsame))
    · have := ((h.entry slot).pid hstate).2
      omega
  refine ⟨fun slot => ?_, fun slot other hslot hother heq => ?_, fun slot parent hslot => ?_, fun slot => ?_, ?_,
    fun slot other hother => ?_, fun slot other third hslot hother => ?_⟩
  · by_cases hslot : slot = np
    · rwa [hslot]
    · refine ⟨?_, ?_, ?_⟩
      · rw [hproc slot hslot]
        exact (h.entry slot).unused
      · rw [hproc slot hslot]
        intro hstate
        have := (h.entry slot).pid hstate
        omega
      · rw [hproc slot hslot, hinitproc]
        exact (h.entry slot).parent
  · by_cases hne : slot = np
    · by_contra hne'
      rw [hne] at hslot heq hne'
      exact hfresh other (Ne.symm hne') hother hslot heq.symm
    · by_cases hne' : other = np
      · rw [hne'] at hother heq
        exact absurd heq (hfresh slot hne hslot hother)
      · rw [hproc slot hne] at hslot heq
        rw [hproc other hne'] at hother heq
        exact h.distinct slot other hslot hother heq
  · by_cases hne : slot = np
    · rw [hne] at hslot
      exact hlive parent (hparent parent hslot)
    · rw [hproc slot hne] at hslot
      exact hlive parent (h.parent slot parent hslot)
  · by_cases hne : slot = np
    · rw [hne]
      exact fun hself => hdead (hparent np hself)
    · rw [hproc slot hne]
      exact h.self slot
  · obtain ⟨init, hinit, hinitlive, hroot⟩ := h.init
    refine ⟨init, hinitproc.trans hinit, hlive init hinitlive, ?_⟩
    rw [hproc init]
    · exact hroot
    · rintro rfl
      exact hdead hinitlive
  · rcases hplace slot other hother with ⟨hne, hsame⟩ | ⟨rfl, rfl, hembryo⟩
    · rw [hproc other hne, hsame]
      exact h.creating slot other (hsame ▸ hother)
    · exact hembryo
  · rcases hplace slot third hslot with ⟨hne, hsame⟩ | ⟨hthird, hme, -⟩
    · rcases hplace other third hother with ⟨-, hsame'⟩ | ⟨hthird, -⟩
      · exact h.apart slot other third (hsame ▸ hslot) (hsame' ▸ hother)
      · exact absurd hthird hne
    · rcases hplace other third hother with ⟨hne, -⟩ | ⟨-, hme', -⟩
      · exact absurd hthird hne
      · rw [hme, hme']

-- The process exits. Its children get the first process as their parent.
theorem exits (hrunning : (smp.proc me).state = .RUNNING) (hexits : smp.table.Exits next.table me)
    (hplace : ∀ slot, (next.thread slot).place = (smp.thread slot).place) : Tree next := by
  have hnextpid : next.table.nextpid = smp.table.nextpid := congrArg Prod.fst hexits.globals
  have hinitproc : next.table.initproc = smp.table.initproc := congrArg Prod.snd hexits.globals
  have hpid : ∀ slot, (next.proc slot).pid = (smp.proc slot).pid := hexits.pid
  have hparents : ∀ slot, (next.proc slot).parent =
      if (smp.proc slot).parent = some me then smp.table.initproc else (smp.proc slot).parent := hexits.parent
  have hself : (next.proc me).state = .ZOMBIE := hexits.self
  obtain ⟨init, hinit, hinitlive, hroot⟩ := h.init
  have hinitme : init ≠ me := fun heq => hexits.init (heq ▸ hinit)
  -- An entry is in use after this as before, and those that are alive stay alive.
  have hstate : ∀ slot state, state ∉ [Procstate.SLEEPING, .RUNNABLE, .RUNNING, .ZOMBIE] →
      ((next.proc slot).state = state ↔ (smp.proc slot).state = state) := by
    intro slot state hstate
    by_cases hslot : slot = me
    · rw [hslot, hself, hrunning]
      refine iff_of_false ?_ ?_ <;> rintro rfl <;> simp at hstate
    · obtain ⟨-, -, hsame | ⟨hsleeping, hrunnable⟩⟩ := hexits.rouses slot hslot
      · rw [proc, hsame]
        rfl
      · rw [proc, hrunnable, proc, hsleeping]
        refine iff_of_false ?_ ?_ <;> rintro rfl <;> simp at hstate
  have hunused := fun slot => hstate slot .UNUSED (by simp)
  have hlive : ∀ slot ≠ me, (smp.proc slot).Live → (next.proc slot).Live := by
    intro slot hslot hslotlive
    obtain ⟨-, -, hsame | ⟨-, hrunnable⟩⟩ := hexits.rouses slot hslot
    · rwa [Proc.Live, proc, hsame]
    · simp [Proc.Live, proc, hrunnable]
  have hnone : ∀ slot, (next.proc slot).parent = none ↔ (smp.proc slot).parent = none := by
    intro slot
    rw [hparents]
    split
    · rename_i hparent
      simp [hparent, hinit]
    · rfl
  refine ⟨fun slot => ⟨?_, ?_, ?_⟩, fun slot other => ?_, fun slot parent hparent => ?_, fun slot => ?_, ?_,
    fun slot np => ?_, fun slot other np => ?_⟩
  · rw [hunused, hnone]
    exact (h.entry slot).unused
  · rw [ne_eq, hunused, hpid, hnextpid]
    exact (h.entry slot).pid
  · intro hdone hne
    rw [ne_eq, hnone]
    rw [hinitproc] at hne
    refine (h.entry slot).parent ?_ hne
    by_cases hslot : slot = me
    · simp [Proc.Live, hslot, hrunning]
    · obtain ⟨-, -, hsame | ⟨hsleeping, -⟩⟩ := hexits.rouses slot hslot
      · rwa [Proc.Live, proc, hsame] at hdone
      · exact .inl (by simp [Proc.Live, proc, hsleeping])
  · rw [ne_eq, ne_eq, hunused, hunused, hpid, hpid]
    exact h.distinct slot other
  · rw [hparents] at hparent
    split at hparent
    · obtain rfl : init = parent := Option.some.inj (hinit.symm.trans hparent)
      exact hlive init hinitme hinitlive
    · rename_i hne
      refine hlive parent ?_ (h.parent slot parent hparent)
      rintro rfl
      exact hne hparent
  · rw [hparents]
    split
    · rename_i hparent
      rw [hinit]
      rintro ⟨⟩
      cases hroot.symm.trans hparent
    · exact h.self slot
  · exact ⟨init, hinitproc.trans hinit, hlive init hinitme hinitlive, (hnone init).mpr hroot⟩
  · rw [hplace, hstate np .EMBRYO (by simp), hnone]
    exact h.creating slot np
  · rw [hplace, hplace]
    exact h.apart slot other np

variable {np : Slot}

theorem takes (hunused : (smp.proc np).state = .UNUSED) (htable : next.table = smp.table.take np)
    (hme : (next.thread me).place = .stack np) (hothers : ∀ slot ≠ me, next.thread slot = smp.thread slot) :
    Tree next := by
  have hnp : next.proc np = { smp.proc np with state := .EMBRYO, pid := smp.table.nextpid } := by
    rw [proc, htable, Ptable.proc_take_self]
    rfl
  have hproc : ∀ slot ≠ np, next.proc slot = smp.proc slot := by
    intro slot hslot
    rw [proc, htable, Ptable.proc_take_of_ne _ hslot]
    rfl
  have hparent : (next.proc np).parent = none := by
    rw [hnp]
    exact (h.entry np).unused hunused
  have hnextpid : next.table.nextpid = smp.table.nextpid + 1 := by
    rw [htable]
    rfl
  have hpos := h.nextpid_pos
  refine h.change me np (by simp [Proc.Live, hunused]) hproc (by rw [htable]; rfl) (by omega)
    ⟨fun _ => hparent, ?_, by simp [hnp, Proc.Live]⟩ (fun _ => .inr (by rw [hnp])) (by simp [hparent]) ?_ ?_ ?_
  · rw [hnp, hnextpid]
    exact fun _ => ⟨hpos, by simp⟩
  · intro slot _ hslot
    have hembryo := (h.creating slot np hslot).1
    rw [hunused] at hembryo
    cases hembryo
  · exact fun slot hslot => .inl (by rw [hothers slot hslot])
  · intro other hother
    rw [hme] at hother ⊢
    cases hother
    exact .inr ⟨rfl, by rw [hnp], by simp [hparent]⟩

-- A step that changes this entry and neither takes it nor gives it a new pid.
theorem update (me np : Slot) {change : Proc → Proc} (htable : next.table = smp.table.update np change)
    (hdead : ¬(smp.proc np).Live)
    (hpid : (change (smp.proc np)).state ≠ .UNUSED →
      (smp.proc np).state ≠ .UNUSED ∧ (change (smp.proc np)).pid = (smp.proc np).pid)
    (hunused : (change (smp.proc np)).state = .UNUSED → (change (smp.proc np)).parent = none)
    (hchild : (change (smp.proc np)).Live ∨ (change (smp.proc np)).state = .ZOMBIE →
      (change (smp.proc np)).parent ≠ none)
    (hparent : ∀ parent, (change (smp.proc np)).parent = some parent → (smp.proc parent).Live)
    (howner : ∀ slot ≠ me, (smp.thread slot).place.creating ≠ some np)
    (hothers : ∀ slot ≠ me, (next.thread slot).place = (smp.thread slot).place ∨
      (next.thread slot).place.creating = none)
    (hme : ∀ other, (next.thread me).place.creating = some other →
      (other ≠ np ∧ (next.thread me).place = (smp.thread me).place) ∨
        (other = np ∧ (change (smp.proc np)).state = .EMBRYO ∧
          ((change (smp.proc np)).parent = none ↔ (next.thread me).place ≠ .filled np))) : Tree next := by
  have hnp : next.proc np = change (smp.proc np) := by
    rw [proc, htable, Ptable.proc_update_self]
    rfl
  have hproc : ∀ slot ≠ np, next.proc slot = smp.proc slot := by
    intro slot hslot
    rw [proc, htable, Ptable.proc_update_of_ne _ _ hslot]
    rfl
  have hnextpid : next.table.nextpid = smp.table.nextpid := by
    rw [htable]
    rfl
  rw [← hnp] at hpid hunused hchild hparent hme
  refine h.change me np hdead hproc (by rw [htable]; rfl) hnextpid.ge ⟨hunused, fun hstate => ?_, fun hstate _ => ?_⟩
    (fun hstate => .inl (hpid hstate)) hparent howner hothers hme
  · obtain ⟨hstate', hsame⟩ := hpid hstate
    rw [hsame, hnextpid]
    exact (h.entry np).pid hstate'
  · exact hchild hstate

theorem owner (hme : (smp.thread me).place.creating = some np) (slot : Slot) (hslot : slot ≠ me) :
    (smp.thread slot).place.creating ≠ some np :=
  fun hnp => hslot (h.apart slot me np hnp hme)

theorem drops (hplace : (smp.thread me).place = .stack np ∨ (smp.thread me).place = .copy np)
    (htable : next.table = smp.table.update np fun proc => { proc with kstack := false, state := .UNUSED })
    (hme : (next.thread me).place = .out) (hothers : ∀ slot ≠ me, next.thread slot = smp.thread slot) : Tree next := by
  have hcreating : (smp.thread me).place.creating = some np := by
    rcases hplace with hplace | hplace <;> rw [hplace] <;> rfl
  obtain ⟨hembryo, hparent⟩ := h.creating me np hcreating
  have hnone : (smp.proc np).parent = none := hparent.mpr (by rcases hplace with hplace | hplace <;> simp [hplace])
  refine h.update me np htable (by simp [Proc.Live, hembryo]) (by simp) (fun _ => hnone) (by simp [Proc.Live])
    (by simp [hnone]) (h.owner hcreating) (fun slot hslot => .inl (by rw [hothers slot hslot])) ?_
  rw [hme]
  rintro other ⟨⟩

theorem fills (hrunning : (smp.proc me).state = .RUNNING) (hplace : (smp.thread me).place = .copy np)
    (htable : next.table = smp.table.update np fun proc => proc.copyFrom (smp.proc me) me)
    (hme : (next.thread me).place = .filled np) (hothers : ∀ slot ≠ me, next.thread slot = smp.thread slot) :
    Tree next := by
  have hcreating : (smp.thread me).place.creating = some np := by rw [hplace]; rfl
  have hembryo := (h.creating me np hcreating).1
  refine h.update me np htable (by simp [Proc.Live, hembryo]) (by simp [copyFrom, hembryo])
    (by simp [copyFrom, hembryo]) (by simp [copyFrom]) (fun parent hparent => ?_) (h.owner hcreating)
    (fun slot hslot => .inl (by rw [hothers slot hslot])) fun other hother => ?_
  · cases hparent
    simp [Proc.Live, hrunning]
  · rw [hme] at hother ⊢
    cases hother
    exact .inr ⟨rfl, hembryo, by simp [copyFrom]⟩

theorem starts (hplace : (smp.thread me).place = .filled np)
    (htable : next.table = smp.table.update np (Proc.setState · .RUNNABLE)) (hme : (next.thread me).place = .out)
    (hnp : (next.thread np).place = .out) (hothers : ∀ slot ≠ me, slot ≠ np → next.thread slot = smp.thread slot) :
    Tree next := by
  have hcreating : (smp.thread me).place.creating = some np := by rw [hplace]; rfl
  obtain ⟨hembryo, hparent⟩ := h.creating me np hcreating
  have hsome : (smp.proc np).parent ≠ none := hparent.not.mpr (by simp [hplace])
  refine h.update me np htable (by simp [Proc.Live, hembryo]) (by simp [Proc.setState, hembryo])
    (by simp [Proc.setState]) (fun _ => hsome) (h.parent np) (h.owner hcreating) (fun slot hslot => ?_) ?_
  · by_cases heq : slot = np
    · rw [heq, hnp]
      exact .inr rfl
    · rw [hothers slot hslot heq]
      exact .inl rfl
  · rw [hme]
    rintro other ⟨⟩

theorem reaps (hreaps : Reaps smp cpu next me child) : Tree next := by
  have hzombie := hreaps.zombie
  have howner : ∀ slot, (smp.thread slot).place.creating ≠ some child := by
    intro slot hslot
    have hembryo := (h.creating slot child hslot).1
    rw [hzombie] at hembryo
    cases hembryo
  refine h.update child child hreaps.table (by simp [Proc.Live, hzombie]) (by simp [freed]) (fun _ => rfl)
    (by simp [freed, Proc.Live]) (by simp [freed]) (fun slot _ => howner slot)
    (fun slot _ => .inl (hreaps.place slot)) fun other hother => .inl ⟨?_, hreaps.place child⟩
  rintro rfl
  exact howner other (hreaps.place other ▸ hother)

theorem grows (hgrows : Grows smp next) : Tree next := by
  cases hgrows with
  | agrees hproc hglobals hplace => exact h.agrees hproc hglobals hplace
  | takes me np hunused htable hme hothers => exact h.takes hunused htable hme hothers
  | drops me np hplace htable hme hothers => exact h.drops hplace htable hme hothers
  | fills me np hrunning hplace htable hme hothers => exact h.fills hrunning hplace htable hme hothers
  | starts me np hplace htable hme hnp hothers => exact h.starts hplace htable hme hnp hothers
  | exits me hrunning hexits hplace => exact h.exits hrunning hexits hplace

theorem effect (heffect : Effect smp cpu next) : Tree next := by
  cases heffect with
  | grows hgrows => exact h.grows hgrows
  | reaps me child hreaps => exact h.reaps hreaps

end Tree

theorem Place.Stays.refl (place : Place) : Place.Stays place place := .inr ⟨rfl, fun _ => Iff.rfl⟩

theorem place_setPhase (smp : Smp Cpu) (me slot : Slot) (phase : Phase) :
    ((smp.setPhase me phase).thread slot).place = (smp.thread slot).place := by
  by_cases hslot : slot = me
  · rw [hslot, thread_setPhase_self]
  · rw [thread_setPhase_of_ne _ _ _ _ hslot]

theorem Acts.effect (hcurrent : smp.current cpu = some me) (hrunning : (smp.proc me).state = .RUNNING)
    (hacts : Acts smp rest me next) : Effect smp cpu next := by
  have hsame : ∀ (table : Ptable) (phase : Phase), (∀ slot, (smp.proc slot).Agrees (table.proc slot)) →
      table.globals = smp.table.globals → Effect smp cpu ({ smp with table }.setPhase me phase) := by
    intro table phase hproc hglobals
    refine .grows (.agrees hproc hglobals fun slot => ?_) rfl
    rw [place_setPhase]
    exact .refl _
  cases hacts with
  | owns table phase hbusy hwait hfits hothers hagrees hglobals => exact hsame table phase hagrees hglobals
  | takes np hunused =>
    exact .grows (.takes me np hunused rfl (by simp) fun slot hslot => thread_setThread_of_ne _ _ _ _ hslot) rfl
  | starts np hplace =>
    refine .grows (.starts me np hplace rfl (by simp) ?_ fun slot hslot hnp => ?_) rfl
    · by_cases hnp : np = me
      · rw [hnp, thread_setThread_self]
      · rw [thread_setThread_of_ne _ _ _ _ hnp, thread_setThread_self]
    · rw [thread_setThread_of_ne _ _ _ _ hslot, thread_setThread_of_ne _ _ _ _ hnp]
      rfl
  | exits table hexits => exact .grows (.exits me hrunning hexits fun slot => place_setPhase _ _ _ _) rfl
  | reaps child hphase hparent hzombie =>
    exact .reaps me child ⟨hcurrent, hrunning, hphase, hparent, hzombie, rfl, fun slot => place_setPhase _ _ _ _, rfl⟩
  | waits hchildren =>
    have hlive : (smp.proc me).Live := by simp [Proc.Live, hrunning]
    have hagrees : ∀ slot, (smp.proc slot).Agrees
        ((smp.update me fun proc => { proc with chan := .proc me, state := .SLEEPING }).proc slot) :=
      fun slot => smp.update_agrees me slot ⟨rfl, rfl, .inr ⟨hlive, by simp [Proc.Live]⟩⟩
    exact hsame _ _ hagrees rfl

section

variable (h : boot Cpu memory = some smp)

include h

theorem boot_eq :
    (∀ slot, smp.proc slot = if slot = 0 then (Proc.zero.allocated 1).initcode memory else .zero) ∧
      smp.table.nextpid = 2 ∧ smp.table.initproc = some 0 ∧ (∀ slot, smp.thread slot = ⟨.out, .away .forkret⟩) ∧
      smp.lock = none ∧ (∀ cpu, smp.mode cpu = .idle) ∧ (∀ cpu, smp.current cpu = none) ∧ smp.waited = [] := by
  simp only [boot, Option.map_eq_some_iff] at h
  obtain ⟨table, htable, rfl⟩ := h
  obtain ⟨hproc, hnextpid, hinitproc⟩ := Ptable.userinit_eq htable
  exact ⟨hproc, hnextpid, hinitproc, fun _ => rfl, rfl, fun _ => rfl, fun _ => rfl, rfl⟩

theorem boot_scheduled : Scheduled smp := by
  obtain ⟨hproc, -, -, hthread, hlock, hmode, hcurrent, -⟩ := boot_eq h
  refine ⟨fun cpu => by simp [Busy, hlock, hmode], ?_, ?_, fun slot _ => ⟨?_, ?_⟩⟩
  · simp [hcurrent]
  · simp [hcurrent]
  · rw [hproc]
    split <;> simp [initcode, zero]
  · exact fun _ => ⟨.forkret, by simp, by rw [hthread]⟩

theorem boot_tree : Tree smp := by
  obtain ⟨hproc, hnextpid, hinitproc, hthread, -⟩ := boot_eq h
  have hzero : smp.proc 0 = (zero.allocated 1).initcode memory := by rw [hproc, if_pos rfl]
  have hother : ∀ slot, slot ≠ 0 → smp.proc slot = .zero := fun slot hslot => by rw [hproc, if_neg hslot]
  have hparent : ∀ slot, (smp.proc slot).parent = none := by
    intro slot
    rw [hproc]
    split <;> rfl
  have hused : ∀ slot, (smp.proc slot).state ≠ .UNUSED → slot = 0 := by
    intro slot hslot
    by_contra hne
    exact hslot (by rw [hother slot hne]; rfl)
  refine ⟨fun slot => ⟨fun _ => hparent slot, fun hslot => ?_, fun hslot hinit => ?_⟩,
    fun slot other hslot hother _ => ?_,
    ?_, ?_, ⟨0, hinitproc, ?_, hparent 0⟩, ?_, ?_⟩
  · rw [hused slot hslot, hzero, hnextpid]
    simp [initcode, allocated]
  · refine absurd ?_ hinit
    rw [hinitproc, hused slot]
    intro hstate
    simp [Proc.Live, hstate] at hslot
  · rw [hused slot hslot, hused other hother]
  · simp [hparent]
  · simp [hparent]
  · rw [hzero]
    simp [Proc.Live, initcode]
  · simp [hthread, Place.creating]
  · simp [hthread, Place.creating]

end

variable [DecidableEq Cpu]

theorem Turn.effect (hcurrent : smp.current cpu = some me)
    (hrunning : (∀ switch, (smp.thread me).phase ≠ .leaving switch) → (smp.proc me).state = .RUNNING)
    (hturn : Turn smp cpu rest me next) : Effect smp cpu next := by
  have hmoved : ∀ (thread : Kthread) (lock : Option Cpu),
      thread.place = (smp.thread me).place ∨ thread.place.creating = none →
      Effect smp cpu { smp.setThread me thread with lock } := by
    intro thread lock hplace
    refine .grows (.agrees (fun slot => .refl _) rfl fun slot => ?_) rfl
    by_cases hslot : slot = me
    · subst hslot
      show Place.Stays _ ((smp.setThread slot thread).thread slot).place
      rw [thread_setThread_self]
      rcases hplace with hsame | hnone
      · rw [hsame]
        exact .refl _
      · exact .inl hnone
    · show Place.Stays _ ((smp.setThread me thread).thread slot).place
      rw [thread_setThread_of_ne _ _ _ _ hslot]
      exact .refl _
  cases hturn with
  | moves place hphase hplace => exact hmoved _ smp.lock hplace
  | acquires section_ place hphase hlock hplace => exact hmoved _ _ hplace
  | stack np hphase hplace =>
    refine .grows (.agrees (fun slot => ?_) rfl fun slot => ?_) rfl
    · rw [proc_setPlace]
      exact smp.update_agrees np slot ⟨rfl, rfl, .inl rfl⟩
    · by_cases hslot : slot = me
      · rw [hslot, thread_setPlace_self, hplace]
        exact .inr ⟨rfl, by simp⟩
      · rw [thread_setPlace_of_ne _ _ _ _ hslot]
        exact .refl _
  | fails np hphase hplace =>
    exact .grows (.drops me np hplace rfl (by simp) fun slot hslot => thread_setPlace_of_ne _ _ _ _ hslot) rfl
  | copies np hphase hplace =>
    exact .grows (.fills me np (hrunning (by simp [hphase])) hplace rfl (by simp) fun slot hslot =>
      thread_setPlace_of_ne _ _ _ _ hslot) rfl
  | body section_ _ hphase hnext =>
    have hrunning := hrunning (by simp [hphase])
    exact (body_acts hrunning hphase hnext : Acts smp rest me next).effect hcurrent hrunning
  | releases hphase => exact hmoved _ _ (.inl rfl)
  | switches switch hphase =>
    refine .grows (.agrees (fun slot => .refl _) rfl fun slot => ?_) rfl
    show Place.Stays _ ((smp.setPhase me (.away switch)).thread slot).place
    rw [place_setPhase]
    exact .refl _
  | resumed switch _ hphase hnext =>
    have hrunning := hrunning (by simp [hphase])
    exact (resumed_acts hrunning hnext : Acts smp rest me next).effect hcurrent hrunning

theorem Steps.effect (h : Scheduled smp) (hsteps : Steps smp cpu next) : Effect smp cpu next := by
  have hmodes : ∀ (mode : Mode) (lock : Option Cpu), Effect smp cpu { smp.setMode cpu mode with lock } :=
    fun mode lock => .grows (.agrees (fun slot => .refl _) rfl fun slot => .refl _) rfl
  cases hsteps with
  | acquires | ends | skips => exact hmodes _ _
  | wakes chan =>
    exact .grows (.agrees (fun slot => (Proc.Rouses.wakeup _ chan).agrees (smp.table.parent_wakeup1 chan slot)) rfl
      fun slot => .refl _) rfl
  | resumes slot rest switch hmode hstate hphase =>
    have hagrees : (smp.proc slot).Agrees ((smp.proc slot).setState .RUNNING) :=
      ⟨rfl, rfl, .inr ⟨by simp [Proc.Live, hstate], by simp [Proc.Live, Proc.setState]⟩⟩
    refine .grows (.agrees (fun other => ?_) rfl fun other => ?_) rfl
    · have hother : (smp.proc other).Agrees ((smp.update slot (Proc.setState · .RUNNING)).proc other) :=
        smp.update_agrees slot other hagrees
      exact hother
    · show Place.Stays _ (((smp.update slot _).setPhase slot (.back switch)).thread other).place
      rw [place_setPhase]
      exact .refl _
  | returns => exact .grows (.agrees (fun slot => .refl _) rfl fun slot => .refl _) rfl
  | turn rest me _ hmode hcurrent hturn => exact hturn.effect hcurrent (h.running hmode hcurrent)

-- Both hold in every state that is reached.
theorem reach_invariant {good : Smp Cpu → Cpu × Move → Prop} (h : Reach good smp) : Scheduled smp ∧ Tree smp := by
  refine h.invariant (fun smp => Scheduled smp ∧ Tree smp) ?_ ?_
  · rintro smp ⟨memory, hboot⟩
    exact ⟨boot_scheduled hboot, boot_tree hboot⟩
  · rintro smp next label ⟨hscheduled, htree⟩ - hstep
    have hsteps := step_steps hstep
    exact ⟨hscheduled.steps htree.creates hsteps, htree.effect (hsteps.effect hscheduled)⟩

theorem process_tree {good : Smp Cpu → Cpu × Move → Prop} (h : Reach good smp) :
    (∀ slot, (smp.proc slot).state ≠ .UNUSED → 0 < (smp.proc slot).pid) ∧
      (∀ slot other, (smp.proc slot).state ≠ .UNUSED → (smp.proc other).state ≠ .UNUSED →
        (smp.proc slot).pid = (smp.proc other).pid → slot = other) ∧
      (∀ slot, (smp.proc slot).state = .UNUSED → (smp.proc slot).parent = none) ∧
      (∀ slot, smp.table.initproc ≠ some slot →
        (smp.proc slot).state ∈ [.RUNNABLE, .RUNNING, .SLEEPING, .ZOMBIE] →
        ∃ parent, (smp.proc slot).parent = some parent ∧
          (smp.proc parent).state ≠ .UNUSED ∧ (smp.proc parent).state ≠ .ZOMBIE) ∧
      ∀ slot, (smp.proc slot).state = .ZOMBIE → ∀ child, (smp.proc child).parent ≠ some slot := by
  obtain ⟨-, htree⟩ := reach_invariant h
  have halive : ∀ slot parent, (smp.proc slot).parent = some parent →
      (smp.proc parent).state ≠ .UNUSED ∧ (smp.proc parent).state ≠ .ZOMBIE := by
    intro slot parent hparent
    have hlive := htree.parent slot parent hparent
    constructor <;> intro hstate <;> simp [Proc.Live, hstate] at hlive
  refine ⟨fun slot hslot => ((htree.entry slot).pid hslot).1, htree.distinct, fun slot => (htree.entry slot).unused,
    ?_, ?_⟩
  · intro slot hinit hslot
    have hparent : (smp.proc slot).parent ≠ none := by
      refine (htree.entry slot).parent ?_ hinit
      simp only [Proc.Live, List.mem_cons, List.not_mem_nil] at hslot ⊢
      tauto
    obtain ⟨parent, hparent⟩ := Option.ne_none_iff_exists'.mp hparent
    exact ⟨parent, hparent, halive slot parent hparent⟩
  · intro slot hzombie child hchild
    exact (halive child slot hchild).2 hzombie

-- A run on two CPUs, and what is seen in the end.
theorem exists_booted {Value : Type} (seen : Smp (Fin 2) → Value) (value : Value) (labels : List (Fin 2 × Move))
    (h : ((boot (Fin 2) fun _ => 0).bind fun smp => run step (fun _ _ => True) smp labels).map seen = some value) :
    ∃ smp, Reach (fun _ _ => True) smp ∧ seen smp = value := by
  obtain ⟨last, hlast, hseen⟩ := Option.map_eq_some_iff.mp h
  obtain ⟨first, hboot, hlabels⟩ := Option.bind_eq_some_iff.mp hlast
  exact ⟨last, (Xv6.Reach.start first ⟨_, hboot⟩).run labels hlabels, hseen⟩

def goon (cpu : Fin 2) (times : Nat) : List (Fin 2 × Move) := List.replicate times (cpu, .goon true fun _ => 0)

-- The first process forks.
def forks : List (Fin 2 × Move) := (0, .scan) :: goon 0 3 ++ (0, .call (.allocproc Ptable.slots)) :: goon 0 8

theorem process_tree_forked : ∃ smp : Smp (Fin 2), Reach (fun _ _ => True) smp ∧
    (smp.proc 1).state = .RUNNABLE ∧ 0 < (smp.proc 1).pid := by
  obtain ⟨last, hreach, hstate⟩ := exists_booted (fun smp => (smp.proc 1).state) .RUNNABLE forks (by decide +kernel)
  exact ⟨last, hreach, hstate, (process_tree hreach).1 1 (by simp [hstate])⟩

end Smp

end Xv6

import Xv6.Ptable.Effects
import Xv6.Sched.Steps

namespace Xv6

open Function

-- The state in which sched is called from here.
def Switch.Leaves : Switch → Procstate → Prop
  | .forkret, _ => False
  | .yield, state => state = .RUNNABLE
  | .sleep, state | .wait, state | .stop, state => state = .SLEEPING
  | .exit, state => state = .ZOMBIE

variable {switch : Switch} {phase : Phase} {proc after : Proc}

theorem Switch.Leaves.ne_running {state : Procstate} (h : switch.Leaves state) : state ≠ .RUNNING := by
  rintro rfl
  cases switch <;> simp [Leaves] at h

-- How the current process of a CPU fits to where the CPU is.
inductive Fits : Mode → Procstate → Phase → Prop
  | free (rest : List Slot) : Fits (.runs rest) .RUNNING .free
  | holds (rest : List Slot) (section_ : Section) : Fits (.runs rest) .RUNNING (.holds section_)
  | leaves (rest : List Slot) : Fits (.runs rest) .RUNNING .leaves
  | back (rest : List Slot) (switch : Switch) (hswitch : switch ≠ .exit) : Fits (.runs rest) .RUNNING (.back switch)
  | leaving (rest : List Slot) (switch : Switch) (state : Procstate) (hstate : switch.Leaves state) :
      Fits (.runs rest) state (.leaving switch)
  | away (rest : List Slot) (switch : Switch) (state : Procstate) (hstate : switch.Leaves state) :
      Fits (.returns rest) state (.away switch)

-- What holds of an entry that no CPU has as its current process.
def Proc.Rests (proc : Proc) (phase : Phase) : Prop :=
  proc.state ≠ .RUNNING ∧ (proc.Live → ∃ switch, switch ≠ .exit ∧ phase = .away switch)

theorem Proc.Rouses.rests (h : proc.Rouses after) (hrests : proc.Rests phase) : after.Rests phase := by
  obtain ⟨-, -, hstate | ⟨hsleeping, hrunnable⟩⟩ := h
  · simpa only [Rests, Live, hstate] using hrests
  · exact ⟨by simp [hrunnable], fun _ => hrests.2 (by simp [Live, hsleeping])⟩

theorem Proc.Rouses.running (h : proc.Rouses after) (hrunning : proc.state = .RUNNING) : after.state = .RUNNING := by
  obtain ⟨-, -, hstate | ⟨hsleeping, -⟩⟩ := h
  · exact hstate.trans hrunning
  · rw [hrunning] at hsleeping
    cases hsleeping

-- The process is the same, and it is alive as before or not.
def Proc.Agrees (proc after : Proc) : Prop :=
  after.pid = proc.pid ∧ after.parent = proc.parent ∧ (after.state = proc.state ∨ (proc.Live ∧ after.Live))

theorem Proc.Rouses.agrees (h : proc.Rouses after) (hparent : after.parent = proc.parent) : proc.Agrees after := by
  obtain ⟨hpid, -, hstate | ⟨hsleeping, hrunnable⟩⟩ := h
  · exact ⟨hpid, hparent, .inl hstate⟩
  · exact ⟨hpid, hparent, .inr ⟨by simp [Live, hsleeping], by simp [Live, hrunnable]⟩⟩

theorem Proc.Agrees.refl (proc : Proc) : proc.Agrees proc := ⟨rfl, rfl, .inl rfl⟩

namespace Smp

variable {Cpu : Type}

-- A CPU has the lock, or the process on it has.
def Busy (smp : Smp Cpu) (cpu : Cpu) : Prop :=
  match smp.mode cpu with
  | .idle => False
  | .runs _ => ∃ me, smp.current cpu = some me ∧ (smp.thread me).phase ≠ .free
  | _ => True

structure Scheduled (smp : Smp Cpu) : Prop where
  held (cpu : Cpu) : smp.lock = some cpu ↔ smp.Busy cpu
  fits (cpu : Cpu) (slot : Slot) (hcurrent : smp.current cpu = some slot) :
    Fits (smp.mode cpu) (smp.proc slot).state (smp.thread slot).phase
  one (cpu other : Cpu) (slot : Slot) (hcpu : smp.current cpu = some slot) (hother : smp.current other = some slot) :
    cpu = other
  rests (slot : Slot) (hslot : ∀ cpu, smp.current cpu ≠ some slot) : (smp.proc slot).Rests (smp.thread slot).phase

variable {smp next : Smp Cpu} {cpu : Cpu} {me : Slot} {rest : List Slot}

variable {change : Proc → Proc} {table : Ptable}

theorem update_agrees (smp : Smp Cpu) (target slot : Slot) (h : (smp.proc target).Agrees (change (smp.proc target))) :
    (smp.proc slot).Agrees ((smp.update target change).proc slot) := by
  by_cases hslot : slot = target
  · subst hslot
    rwa [proc_update_self]
  · rw [proc_update_of_ne _ _ _ _ hslot]
    exact .refl _

-- What the current process does under the lock, in a section or once sched has returned.
inductive Acts (smp : Smp Cpu) (rest : List Slot) (me : Slot) : Smp Cpu → Prop
  | owns (table : Ptable) (phase : Phase) (hbusy : phase ≠ .free) (hwait : phase ≠ .leaving .wait)
      (hfits : Fits (.runs rest) (table.proc me).state phase)
      (hothers : ∀ slot ≠ me, (smp.proc slot).Rouses (table.proc slot))
      (hagrees : ∀ slot, (smp.proc slot).Agrees (table.proc slot)) (hglobals : table.globals = smp.table.globals) :
      Acts smp rest me ({ smp with table }.setPhase me phase)
  | takes (np : Slot) (hunused : (smp.proc np).state = .UNUSED) :
      Acts smp rest me ({ smp with table := smp.table.take np }.setThread me ⟨.stack np, .leaves⟩)
  | starts (np : Slot) (hplace : (smp.thread me).place = .filled np) :
      Acts smp rest me
        (((smp.update np (Proc.setState · .RUNNABLE)).setThread np ⟨.out, .away .forkret⟩).setThread me
          ⟨.out, .leaves⟩)
  | exits (table : Ptable) (hexits : smp.table.Exits table me) :
      Acts smp rest me ({ smp with table }.setPhase me (.leaving .exit))
  | reaps (child : Slot) (hphase : (smp.thread me).phase = .holds .wait)
      (hparent : (smp.proc child).parent = some me) (hzombie : (smp.proc child).state = .ZOMBIE) :
      Acts smp rest me
        ({ smp with
            table := smp.table.update child Proc.freed
            waited := (smp.proc child).pid :: smp.waited }.setPhase me .leaves)
  | waits (hchildren : ∀ child, (smp.proc child).parent = some me → (smp.proc child).state ≠ .ZOMBIE) :
      Acts smp rest me
        ((smp.update me fun proc => { proc with chan := .proc me, state := .SLEEPING }).setPhase me (.leaving .wait))

theorem Acts.update (hbusy : phase ≠ .free) (hwait : phase ≠ .leaving .wait)
    (hfits : Fits (.runs rest) (change (smp.proc me)).state phase)
    (hagrees : (smp.proc me).Agrees (change (smp.proc me))) :
    Acts smp rest me ((smp.update me change).setPhase me phase) := by
  refine .owns _ phase hbusy hwait ?_ (fun slot hslot => .of_eq (smp.proc_update_of_ne _ _ _ hslot))
    (fun slot => smp.update_agrees me slot hagrees) rfl
  rwa [Ptable.proc_update_self]

section Acts

variable (hrunning : (smp.proc me).state = .RUNNING)

include hrunning

theorem Acts.rouses (hfits : Fits (.runs rest) .RUNNING phase) (hbusy : phase ≠ .free)
    (hwait : phase ≠ .leaving .wait) (hproc : ∀ slot, (smp.proc slot).Rouses (table.proc slot))
    (hparent : ∀ slot, (table.proc slot).parent = (smp.proc slot).parent)
    (hglobals : table.globals = smp.table.globals) : Acts smp rest me ({ smp with table }.setPhase me phase) := by
  refine .owns table phase hbusy hwait ?_ (fun slot _ => hproc slot)
    (fun slot => (hproc slot).agrees (hparent slot)) hglobals
  rwa [(hproc me).running hrunning]

theorem body_acts {section_ : Section} (hphase : (smp.thread me).phase = .holds section_)
    (hnext : smp.body me section_ = some next) : Acts smp rest me next := by
  have hleaves : Acts smp rest me (smp.setPhase me .leaves) :=
    .rouses hrunning (.leaves rest) (by simp) (by simp) (fun _ => .refl _) (fun _ => rfl) rfl
  have hlive : (smp.proc me).Live := by simp [Proc.Live, hrunning]
  cases section_ with
  | allocproc slots =>
    cases slots with
    | nil =>
      cases hnext
      exact hleaves
    | cons np slots =>
      simp only [body] at hnext
      split_ifs at hnext with hunused <;> cases hnext
      · exact .takes np hunused
      · exact .rouses hrunning (.holds rest _) (by simp) (by simp) (fun _ => .refl _) (fun _ => rfl) rfl
  | start =>
    simp only [body] at hnext
    split at hnext <;> cases hnext
    rename_i np hplace
    exact .starts np hplace
  | exit =>
    obtain ⟨table, hexit, rfl⟩ := Option.map_eq_some_iff.mp hnext
    exact .exits table (Ptable.exit_exits hexit)
  | wait =>
    have hwaits := smp.table.wait_waits me
    simp only [body] at hnext
    generalize smp.table.wait me = waited at hwaits hnext
    cases hwaits with
    | found child hparent hzombie =>
      cases hnext
      exact .reaps child hphase hparent hzombie
    | none =>
      cases hnext
      exact hleaves
    | sleeps hchildren =>
      cases hnext
      exact .waits hchildren
  | yield | sleep chan | stop =>
    cases hnext
    exact .update (by simp) (by simp) (.leaving rest _ _ rfl)
      ⟨rfl, rfl, .inr ⟨hlive, by simp [Proc.Live, Proc.setState]⟩⟩
  | wakeup chan =>
    cases hnext
    exact .rouses hrunning (.leaves rest) (by simp) (by simp) (fun _ => .wakeup _ _) (smp.table.parent_wakeup1 chan) rfl
  | kill pid =>
    cases hnext
    exact .rouses hrunning (.leaves rest) (by simp) (by simp) (smp.table.kill_rouses pid) (smp.table.parent_kill pid)
      (smp.table.globals_kill pid)
  | signal target sig =>
    simp only [body] at hnext
    split_ifs at hnext with hkill <;> cases hnext
    · exact hleaves
    · exact .rouses hrunning (.leaves rest) (by simp) (by simp)
        (fun slot => smp.table.update_rouses target slot (.receive _ sig))
        (fun slot => smp.table.parent_update target slot (Ptable.parent_receive _ sig)) rfl

theorem resumed_acts (hnext : smp.resumed me switch = some next) : Acts smp rest me next := by
  have hfits : ∀ phase, Fits (.runs rest) .RUNNING phase → Fits (.runs rest) (smp.proc me).state phase :=
    fun phase hphase => by rwa [hrunning]
  cases switch with
  | forkret | yield | stop =>
    cases hnext
    exact .rouses hrunning (.leaves rest) (by simp) (by simp) (fun _ => .refl _) (fun _ => rfl) rfl
  | sleep =>
    cases hnext
    exact .update (by simp) (by simp) (hfits _ (.leaves rest)) ⟨rfl, rfl, .inl rfl⟩
  | wait =>
    cases hnext
    exact .update (by simp) (by simp) (hfits _ (.holds rest .wait)) ⟨rfl, rfl, .inl rfl⟩
  | exit => cases hnext

end Acts

theorem busy_runs (hmode : smp.mode cpu = .runs rest) (hcurrent : smp.current cpu = some me) :
    smp.Busy cpu ↔ (smp.thread me).phase ≠ .free := by
  simp [Busy, hmode, hcurrent]

theorem busy_congr {before after : Smp Cpu} (hmode : after.mode cpu = before.mode cpu)
    (hcurrent : after.current cpu = before.current cpu)
    (hphase : ∀ slot, before.current cpu = some slot → (after.thread slot).phase = (before.thread slot).phase) :
    after.Busy cpu ↔ before.Busy cpu := by
  unfold Busy
  rw [hmode, hcurrent]
  split
  · rfl
  · refine exists_congr fun slot => and_congr_right fun hslot => ?_
    rw [hphase slot hslot]
  · rfl

-- The entries that processes are about to make new processes of.
structure Creates (smp : Smp Cpu) : Prop where
  embryo (slot np : Slot) (hplace : (smp.thread slot).place.creating = some np) : (smp.proc np).state = .EMBRYO
  apart (slot other np : Slot) (hslot : (smp.thread slot).place.creating = some np)
    (hother : (smp.thread other).place.creating = some np) : slot = other

namespace Scheduled

variable {slot : Slot} {lock : Option Cpu}

-- The current process of a CPU runs if it does not have the lock.
theorem running_of_unlocked (h : Scheduled smp) (hlock : smp.lock ≠ some cpu) (hcurrent : smp.current cpu = some slot) :
    (smp.proc slot).state = .RUNNING ∧ (smp.thread slot).phase = .free := by
  have hfits := h.fits cpu slot hcurrent
  have hidle : ¬smp.Busy cpu := (h.held cpu).not.mp hlock
  cases hmode : smp.mode cpu with
  | runs rest =>
    have hphase := not_not.mp ((busy_runs hmode hcurrent).not.mp hidle)
    rw [hmode, hphase] at hfits
    refine ⟨?_, hphase⟩
    generalize (smp.proc slot).state = state at hfits ⊢
    cases hfits
    rfl
  | returns rest => exact absurd trivial (by simpa only [Busy, hmode] using hidle)
  | idle | wakes | scan =>
    rw [hmode] at hfits
    cases hfits

theorem other_running (h : Scheduled smp) (hlock : smp.lock = some cpu) {other : Cpu} (hother : other ≠ cpu)
    (hcurrent : smp.current other = some slot) :
    (smp.proc slot).state = .RUNNING ∧ (smp.thread slot).phase = .free := by
  refine h.running_of_unlocked ?_ hcurrent
  rw [hlock, ne_eq, Option.some.injEq]
  exact fun heq => hother heq.symm

-- A step of one CPU. The current processes of the others go on as they are.
theorem frame_cpu (h : Scheduled smp) (hmodes : ∀ other ≠ cpu, next.mode other = smp.mode other)
    (hcurrents : ∀ other ≠ cpu, next.current other = smp.current other) (hlock : next.lock = some cpu ↔ next.Busy cpu)
    (hlocks : ∀ other ≠ cpu, next.lock = some other ↔ smp.lock = some other)
    (hself : ∀ slot, next.current cpu = some slot →
      Fits (next.mode cpu) (next.proc slot).state (next.thread slot).phase ∧
        ∀ other ≠ cpu, smp.current other ≠ some slot)
    (hothers : ∀ other ≠ cpu, ∀ slot, smp.current other = some slot →
      (next.proc slot).state = (smp.proc slot).state ∧ (next.thread slot).phase = (smp.thread slot).phase)
    (hrests : ∀ slot, (∀ other, next.current other ≠ some slot) → (next.proc slot).Rests (next.thread slot).phase) :
    Scheduled next := by
  refine ⟨fun other => ?_, fun other slot hslot => ?_, fun first second slot hfirst hsecond => ?_, hrests⟩
  · by_cases hother : other = cpu
    · rwa [hother]
    · rw [hlocks other hother, h.held]
      exact (busy_congr (hmodes other hother) (hcurrents other hother) fun slot hslot =>
        (hothers other hother slot hslot).2).symm
  · by_cases hother : other = cpu
    · subst hother
      exact (hself slot hslot).1
    · rw [hcurrents other hother] at hslot
      obtain ⟨hstate, hphase⟩ := hothers other hother slot hslot
      rw [hmodes other hother, hstate, hphase]
      exact h.fits other slot hslot
  · by_cases hone : first = cpu
    · subst hone
      by_contra hne
      rw [hcurrents second (Ne.symm hne)] at hsecond
      exact (hself slot hfirst).2 second (Ne.symm hne) hsecond
    · rw [hcurrents first hone] at hfirst
      by_cases htwo : second = cpu
      · subst htwo
        exact absurd hfirst ((hself slot hsecond).2 first hone)
      · rw [hcurrents second htwo] at hsecond
        exact h.one first second slot hfirst hsecond

section Current

variable (h : Scheduled smp) (hmode : smp.mode cpu = .runs rest) (hcurrent : smp.current cpu = some me)

include h hmode hcurrent

-- A step of the current process, which stays where it is.
theorem frame (hmodes : next.mode = smp.mode) (hcurrents : next.current = smp.current)
    (hlock : next.lock = some cpu ↔ (next.thread me).phase ≠ .free)
    (hlocks : ∀ other ≠ cpu, next.lock = some other ↔ smp.lock = some other)
    (hme : Fits (.runs rest) (next.proc me).state (next.thread me).phase)
    (hrunning : ∀ slot ≠ me, ∀ other, smp.current other = some slot →
      (next.proc slot).state = (smp.proc slot).state ∧ (next.thread slot).phase = (smp.thread slot).phase)
    (hrests : ∀ slot ≠ me, (smp.proc slot).Rests (smp.thread slot).phase →
      (next.proc slot).Rests (next.thread slot).phase) : Scheduled next := by
  have hone : ∀ other ≠ cpu, smp.current other ≠ some me :=
    fun other hother hslot => hother (h.one other cpu me hslot hcurrent)
  refine h.frame_cpu (fun other _ => by rw [hmodes]) (fun other _ => by rw [hcurrents]) ?_ hlocks ?_ ?_ ?_
  · rw [busy_runs (hmodes ▸ hmode) (hcurrents ▸ hcurrent)]
    exact hlock
  · intro slot hslot
    rw [hcurrents, hcurrent, Option.some.injEq] at hslot
    subst hslot
    rw [hmodes, hmode]
    exact ⟨hme, hone⟩
  · intro other hother slot hslot
    refine hrunning slot ?_ other hslot
    rintro rfl
    exact hone other hother hslot
  · intro slot hslot
    rw [hcurrents] at hslot
    refine hrests slot ?_ (h.rests slot hslot)
    rintro rfl
    exact hslot cpu hcurrent

-- A process that is not in sched runs.
theorem running (hphase : ∀ switch, (smp.thread me).phase ≠ .leaving switch) : (smp.proc me).state = .RUNNING := by
  have hfits := h.fits cpu me hcurrent
  rw [hmode] at hfits
  generalize hstate : (smp.proc me).state = state at hfits ⊢
  generalize hphase' : (smp.thread me).phase = phase at hfits
  cases hfits with
  | leaving switch => exact absurd hphase' (hphase _)
  | free | holds | leaves | back => rfl

section Locked

variable (hphase : (smp.thread me).phase ≠ .free)
    (hmodes : next.mode = smp.mode) (hcurrents : next.current = smp.current) (hlock : next.lock = smp.lock)
    (hbusy : (next.thread me).phase ≠ .free) (hme : Fits (.runs rest) (next.proc me).state (next.thread me).phase)

include hphase hmodes hcurrents hlock hbusy hme

-- A step that the current process makes under the lock.
theorem frame_locked (hrunning : ∀ slot ≠ me, (smp.proc slot).state = .RUNNING →
      (next.proc slot).state = .RUNNING ∧ (next.thread slot).phase = (smp.thread slot).phase)
    (hrests : ∀ slot ≠ me, (smp.proc slot).Rests (smp.thread slot).phase →
      (next.proc slot).Rests (next.thread slot).phase) : Scheduled next := by
  have hheld : smp.lock = some cpu := (h.held cpu).mpr ((busy_runs hmode hcurrent).mpr hphase)
  refine h.frame hmode hcurrent hmodes hcurrents ?_ (fun other _ => by rw [hlock]) hme ?_ hrests
  · rw [hlock, hheld]
    simp [hbusy]
  · intro slot hslot other hother
    have hne : other ≠ cpu := by
      rintro rfl
      exact hslot (Option.some.inj (hother.symm.trans hcurrent))
    obtain ⟨hstate, -⟩ := h.other_running hheld hne hother
    rw [hstate]
    exact hrunning slot hslot hstate

-- A step under the lock that changes this entry only, and not the one of the process.
theorem frame_update (target : Slot) (htarget : target ≠ me → (smp.proc target).state ≠ .RUNNING ∧
      (next.proc target).Rests (next.thread target).phase) (hproc : ∀ slot ≠ target, next.proc slot = smp.proc slot)
    (hthread : ∀ slot ≠ target, slot ≠ me → next.thread slot = smp.thread slot) : Scheduled next := by
  refine h.frame_locked hmode hcurrent hphase hmodes hcurrents hlock hbusy hme (fun slot hslot hrunning => ?_)
    fun slot hslot hrests => ?_
  · have hne : slot ≠ target := by
      rintro rfl
      exact (htarget hslot).1 hrunning
    rw [hproc slot hne, hthread slot hne hslot]
    exact ⟨hrunning, rfl⟩
  · by_cases hne : slot = target
    · subst hne
      exact (htarget hslot).2
    · rw [hproc slot hne, hthread slot hne hslot]
      exact hrests

-- A step under the lock in which other processes are roused at most.
theorem frame_rouses (hproc : ∀ slot ≠ me, (smp.proc slot).Rouses (next.proc slot))
    (hthread : ∀ slot ≠ me, next.thread slot = smp.thread slot) : Scheduled next := by
  refine h.frame_locked hmode hcurrent hphase hmodes hcurrents hlock hbusy hme (fun slot hslot hrunning => ?_)
    fun slot hslot hrests => ?_
  · rw [hthread slot hslot]
    exact ⟨(hproc slot hslot).running hrunning, rfl⟩
  · rw [hthread slot hslot]
    exact (hproc slot hslot).rests hrests

end Locked

theorem acts (hcreates : Creates smp) (hbusy : (smp.thread me).phase ≠ .free)
    (hrunning : (smp.proc me).state = .RUNNING) (hacts : Acts smp rest me next) : Scheduled next := by
  have hown : ∀ (table : Ptable) (phase : Phase), phase ≠ .free → Fits (.runs rest) (table.proc me).state phase →
      (∀ slot ≠ me, (smp.proc slot).Rouses (table.proc slot)) →
      Scheduled ({ smp with table }.setPhase me phase) := by
    intro table phase hfree hme hproc
    refine h.frame_rouses hmode hcurrent hbusy rfl rfl rfl ?_ ?_ hproc fun slot hslot => ?_
    · simpa using hfree
    · rw [thread_setPhase_self]
      exact hme
    · exact thread_setPhase_of_ne _ _ _ _ hslot
  have hrests : ∀ slot, (smp.proc slot).state ≠ .RUNNING → slot ≠ me := by
    rintro slot hslot rfl
    exact hslot hrunning
  cases hacts with
  | owns table phase hfree hwait hfits hothers => exact hown table phase hfree hfits hothers
  | takes np hunused =>
    have hnp := hrests np (by simp [hunused])
    refine h.frame_update hmode hcurrent hbusy rfl rfl rfl (by simp) ?_ np (fun _ => ⟨by simp [hunused], ?_⟩)
      (fun slot hslot => smp.table.proc_take_of_ne hslot)
      fun slot _ hslot => thread_setThread_of_ne _ _ _ _ hslot
    · have hme : (smp.table.take np).proc me = smp.proc me := smp.table.proc_take_of_ne hnp.symm
      rw [thread_setThread_self, proc_setThread, proc, hme, hrunning]
      exact .leaves rest
    · have hrests : ((smp.table.take np).proc np).Rests (smp.thread np).phase := by
        simp [Proc.Rests, Proc.Live]
      rwa [thread_setThread_of_ne _ _ _ _ hnp]
  | starts np hplace =>
    have hembryo : (smp.proc np).state = .EMBRYO := hcreates.embryo me np (by rw [hplace]; rfl)
    have hnp := hrests np (by simp [hembryo])
    refine h.frame_update hmode hcurrent hbusy rfl rfl rfl (by simp) ?_ np (fun _ => ⟨by simp [hembryo], ?_⟩)
      (fun slot hslot => ?_) fun slot hslot hme => ?_
    · rw [thread_setThread_self, proc_setThread, proc_setThread, proc_update_of_ne _ _ _ _ hnp.symm, hrunning]
      exact .leaves rest
    · rw [thread_setThread_of_ne _ _ _ _ hnp, thread_setThread_self, proc_setThread, proc_setThread, proc_update_self]
      exact ⟨by simp [Proc.setState], fun _ => ⟨.forkret, by simp, rfl⟩⟩
    · rw [proc_setThread, proc_setThread, proc_update_of_ne _ _ _ _ hslot]
    · rw [thread_setThread_of_ne _ _ _ _ hme, thread_setThread_of_ne _ _ _ _ hslot]
      rfl
  | exits table hexits => exact hown table _ (by simp) (.leaving rest .exit _ hexits.self) hexits.rouses
  | reaps child hphase hparent hzombie =>
    have hchild := hrests child (by simp [hzombie])
    refine h.frame_update hmode hcurrent hbusy rfl rfl rfl (by simp) ?_ child
      (fun _ => ⟨by simp [hzombie], ?_⟩) (fun slot hslot => smp.proc_update_of_ne _ _ _ hslot)
      fun slot _ hslot => thread_setPhase_of_ne _ _ _ _ hslot
    · have hme : (smp.table.update child Proc.freed).proc me = smp.proc me :=
        smp.proc_update_of_ne _ _ _ hchild.symm
      rw [thread_setPhase_self, proc_setPhase, proc, hme, hrunning]
      exact .leaves rest
    · have hrests : ((smp.table.update child Proc.freed).proc child).Rests (smp.thread child).phase := by
        simp [Proc.Rests, Proc.Live, Proc.freed]
      rwa [thread_setPhase_of_ne _ _ _ _ hchild]
  | waits hchildren =>
    refine hown _ _ (by simp) (.leaving rest .wait _ ?_) fun slot hslot => .of_eq (smp.table.proc_update_of_ne _ hslot)
    rw [Ptable.proc_update_self]
    rfl

-- A step without the lock, in which the process may change an entry that is not in use yet.
theorem unlocked (hphase : (smp.thread me).phase = .free) (place : Place) (np : Slot) (change : Proc → Proc)
    (hnp : change (smp.proc np) = smp.proc np ∨ (smp.proc np).state = .EMBRYO ∧ ¬(change (smp.proc np)).Live) :
    Scheduled ((smp.update np change).setPlace me place) := by
  have hrunning : (smp.proc me).state = .RUNNING := h.running hmode hcurrent (by simp [hphase])
  have hproc : ∀ slot, (smp.proc slot).state ≠ .EMBRYO → (smp.update np change).proc slot = smp.proc slot := by
    intro slot hslot
    by_cases heq : slot = np
    · subst heq
      rw [proc_update_self]
      exact hnp.resolve_right fun hboth => hslot hboth.1
    · exact proc_update_of_ne _ _ _ _ heq
  have hlock : smp.lock = some cpu ↔ (smp.thread me).phase ≠ .free := (h.held cpu).trans (busy_runs hmode hcurrent)
  refine h.frame hmode hcurrent rfl rfl ?_ (fun other _ => Iff.rfl) ?_ (fun slot hslot other hother => ?_)
    fun slot hslot hrests => ?_
  · rw [thread_setPlace_self]
    exact hlock
  · rw [thread_setPlace_self, proc_setPlace, hproc me (by simp [hrunning]), hrunning]
    rw [show ((smp.update np change).thread me).phase = .free from hphase]
    exact .free rest
  · rw [thread_setPlace_of_ne _ _ _ _ hslot, proc_setPlace, hproc slot]
    · exact ⟨rfl, rfl⟩
    · intro hembryo
      have hfits := h.fits other slot hother
      rw [hembryo] at hfits
      generalize smp.mode other = mode, (smp.thread slot).phase = phase at hfits
      cases hfits with
      | leaving rest switch _ hstate | away rest switch _ hstate => cases switch <;> cases hstate
  · rw [thread_setPlace_of_ne _ _ _ _ hslot, proc_setPlace]
    by_cases heq : slot = np
    · subst heq
      rw [proc_update_self]
      rcases hnp with hsame | ⟨-, hdead⟩
      · rwa [hsame]
      · exact ⟨fun hstate => hdead (by simp [Proc.Live, hstate]), fun hlive => absurd hlive hdead⟩
    · rwa [proc_update_of_ne _ _ _ _ heq]

-- The process takes the lock or releases it.
theorem relocked (hrunning : (smp.proc me).state = .RUNNING) {thread : Kthread}
    (hfits : Fits (.runs rest) .RUNNING thread.phase) (hlock : lock = some cpu ↔ thread.phase ≠ .free)
    (hlocks : ∀ other ≠ cpu, lock = some other ↔ smp.lock = some other) :
    Scheduled { smp.setThread me thread with lock } := by
  have hself : (smp.setThread me thread).thread me = thread := thread_setThread_self _ _ _
  have hothers : ∀ slot ≠ me, (smp.setThread me thread).thread slot = smp.thread slot :=
    fun slot hslot => thread_setThread_of_ne _ _ _ _ hslot
  refine h.frame hmode hcurrent rfl rfl ?_ hlocks ?_ (fun slot hslot other hother => ?_) fun slot hslot hrests => ?_
  · rwa [hself]
  · rw [hself]
    exact hrunning ▸ hfits
  · exact ⟨rfl, congrArg Kthread.phase (hothers slot hslot)⟩
  · rw [hothers slot hslot]
    exact hrests

-- The process calls swtch: it is away, and its CPU is back in the scheduler.
theorem switches [DecidableEq Cpu] (hphase : (smp.thread me).phase = .leaving switch) :
    Scheduled ((smp.setPhase me (.away switch)).setMode cpu (.returns rest)) := by
  have hleaves : switch.Leaves (smp.proc me).state := by
    have hfits := h.fits cpu me hcurrent
    rw [hmode, hphase] at hfits
    generalize (smp.proc me).state = state at hfits ⊢
    cases hfits with
    | leaving _ _ _ hstate => exact hstate
  have hself : ((smp.setPhase me (.away switch)).thread me).phase = .away switch := by rw [thread_setPhase_self]
  have hothers : ∀ slot ≠ me, (smp.setPhase me (.away switch)).thread slot = smp.thread slot :=
    fun slot hslot => thread_setPhase_of_ne _ _ _ _ hslot
  have hone : ∀ other ≠ cpu, smp.current other ≠ some me :=
    fun other hother hslot => hother (h.one other cpu me hslot hcurrent)
  have hheld : smp.lock = some cpu := (h.held cpu).mpr ((busy_runs hmode hcurrent).mpr (by simp [hphase]))
  refine h.frame_cpu (fun other hother => update_of_ne hother _ _) (fun _ _ => rfl) ?_
    (fun _ _ => Iff.rfl) (fun slot hslot => ?_) (fun other hother slot hslot => ?_) fun slot hslot => ?_
  · simp [Busy, setMode, setPhase, setThread, hheld]
  · obtain rfl : me = slot := Option.some.inj (hcurrent.symm.trans hslot)
    refine ⟨?_, hone⟩
    have hfits : Fits (.returns rest) (smp.proc me).state (.away switch) := .away rest switch _ hleaves
    have hmode' : (smp.setMode cpu (.returns rest)).mode cpu = .returns rest := update_self _ _ _
    rw [← hmode', ← hself] at hfits
    exact hfits
  · refine ⟨rfl, congrArg Kthread.phase (hothers slot ?_)⟩
    rintro rfl
    exact hone other hother hslot
  · have hne : slot ≠ me := by
      rintro rfl
      exact hslot cpu hcurrent
    have hrests := h.rests slot hslot
    rw [← hothers slot hne] at hrests
    exact hrests

end Current

variable [DecidableEq Cpu]

variable (h : Scheduled smp)

include h

-- A step of the scheduler in which its CPU has no current process before and after.
theorem scheduler (hnone : smp.current cpu = none) {mode : Mode}
    (hmode : lock = some cpu ↔ mode ≠ .idle) (hruns : ∀ rest, mode ≠ .runs rest)
    (hlocks : ∀ other ≠ cpu, lock = some other ↔ smp.lock = some other)
    (hrouses : ∀ slot, (smp.proc slot).Rouses (table.proc slot)) (htable : table = smp.table ∨ smp.lock = some cpu) :
    Scheduled { smp.setMode cpu mode with table, lock } := by
  refine h.frame_cpu (fun other hother => update_of_ne hother _ _) (fun _ _ => rfl) ?_ hlocks
    (fun slot hslot => ?_) (fun other hother slot hslot => ?_) fun slot hslot => ?_
  · rw [hmode]
    cases mode with
    | runs rest => exact absurd rfl (hruns rest)
    | idle | wakes | scan | returns => simp [Busy, setMode]
  · cases hnone.symm.trans hslot
  · refine ⟨?_, rfl⟩
    rcases htable with rfl | hheld
    · rfl
    · have hrunning := (h.other_running hheld hother hslot).1
      exact ((hrouses slot).running hrunning).trans hrunning.symm
  · exact (hrouses slot).rests (h.rests slot hslot)

theorem turn (hcreates : Creates smp) (hmode : smp.mode cpu = .runs rest)
    (hcurrent : smp.current cpu = some me) (hturn : Turn smp cpu rest me next) : Scheduled next := by
  have hlive : ∀ proc : Proc, proc.state = .EMBRYO ∨ proc.state = .UNUSED → ¬proc.Live := by
    rintro proc (hstate | hstate) <;> simp [Proc.Live, hstate]
  cases hturn with
  | moves place hphase hplace =>
    have hnext := h.unlocked hmode hcurrent hphase place me id (.inl rfl)
    rwa [update_id] at hnext
  | acquires section_ place hphase hlock hplace =>
    have hrunning : (smp.proc me).state = .RUNNING := h.running hmode hcurrent (by simp [hphase])
    exact h.relocked hmode hcurrent hrunning (.holds rest section_) (by simp) fun other hother => by
      simp [hlock, hother.symm]
  | stack np hphase hplace =>
    have hembryo := hcreates.embryo me np (by rw [hplace]; rfl)
    exact h.unlocked hmode hcurrent hphase (.copy np) np _ (.inr ⟨hembryo, hlive _ (.inl hembryo)⟩)
  | fails np hphase hplace =>
    have hembryo := hcreates.embryo me np (by rcases hplace with hplace | hplace <;> rw [hplace] <;> rfl)
    exact h.unlocked hmode hcurrent hphase .out np _ (.inr ⟨hembryo, hlive _ (.inr rfl)⟩)
  | copies np hphase hplace =>
    have hembryo := hcreates.embryo me np (by rw [hplace]; rfl)
    exact h.unlocked hmode hcurrent hphase (.filled np) np _ (.inr ⟨hembryo, hlive _ (.inl hembryo)⟩)
  | body section_ _ hphase hnext =>
    have hrunning := h.running hmode hcurrent (by simp [hphase])
    exact h.acts hmode hcurrent hcreates (by simp [hphase]) hrunning (body_acts hrunning hphase hnext)
  | releases hphase =>
    have hrunning : (smp.proc me).state = .RUNNING := h.running hmode hcurrent (by simp [hphase])
    have hheld : smp.lock = some cpu := (h.held cpu).mpr ((busy_runs hmode hcurrent).mpr (by simp [hphase]))
    exact h.relocked hmode hcurrent hrunning (.free rest) (by simp) fun other hother => by
      simp [hheld, hother.symm]
  | switches switch hphase => exact h.switches hmode hcurrent hphase
  | resumed switch _ hphase hnext =>
    have hrunning := h.running hmode hcurrent (by simp [hphase])
    exact h.acts hmode hcurrent hcreates (by simp [hphase]) hrunning (resumed_acts hrunning hnext)

-- The scheduler has found a process to run.
theorem resumes (hlock : smp.lock = some cpu) (hnone : smp.current cpu = none)
    (hstate : (smp.proc slot).state = .RUNNABLE) (hphase : (smp.thread slot).phase = .away switch) :
    Scheduled
      { ((smp.update slot (Proc.setState · .RUNNING)).setPhase slot (.back switch)).setMode cpu (.runs rest) with
        current := Function.update smp.current cpu (some slot) } := by
  have hfree : ∀ other, smp.current other ≠ some slot := by
    intro other hother
    have hne : other ≠ cpu := by
      rintro rfl
      cases hnone.symm.trans hother
    have hrunning := (h.other_running hlock hne hother).1
    rw [hstate] at hrunning
    cases hrunning
  have hswitch : switch ≠ .exit := by
    obtain ⟨switch', hne, haway⟩ := (h.rests slot hfree).2 (by simp [Proc.Live, hstate])
    rw [hphase, Phase.away.injEq] at haway
    rwa [haway]
  have hself : (((smp.update slot (Proc.setState · .RUNNING)).setPhase slot (.back switch)).thread slot).phase =
      .back switch := by rw [thread_setPhase_self]
  have hothers : ∀ other ≠ slot,
      ((smp.update slot (Proc.setState · .RUNNING)).setPhase slot (.back switch)).thread other = smp.thread other :=
    fun other hother => thread_setPhase_of_ne _ _ _ _ hother
  have hproc : ∀ other ≠ slot, (smp.update slot (Proc.setState · .RUNNING)).proc other = smp.proc other :=
    fun other hother => proc_update_of_ne _ _ _ _ hother
  refine h.frame_cpu (fun other hother => update_of_ne hother _ _)
    (fun other hother => update_of_ne hother _ _) ?_ (fun _ _ => Iff.rfl) (fun other hother => ?_)
    (fun other hother found hfound => ?_) fun other hother => ?_
  · simp [Busy, setMode, setPhase, setThread, update, hlock]
  · obtain rfl : slot = other := by simpa using hother
    refine ⟨?_, fun other _ => hfree other⟩
    have hfits : Fits (.runs rest) .RUNNING (.back switch) := .back rest switch hswitch
    have hmode : (smp.setMode cpu (.runs rest)).mode cpu = .runs rest := update_self _ _ _
    have hrunning : ((smp.update slot (Proc.setState · .RUNNING)).proc slot).state = .RUNNING := by
      rw [proc_update_self]
      rfl
    rw [← hmode, ← hrunning, ← hself] at hfits
    exact hfits
  · have hne : found ≠ slot := by
      rintro rfl
      exact hfree other hfound
    exact ⟨congrArg Proc.state (hproc found hne), congrArg Kthread.phase (hothers found hne)⟩
  · have hne : other ≠ slot := by
      rintro rfl
      exact hother cpu (update_self _ _ _)
    have hrests : (smp.proc other).Rests (smp.thread other).phase := by
      refine h.rests other fun third hthird => ?_
      have hthird' : third ≠ cpu := by
        rintro rfl
        cases hnone.symm.trans hthird
      exact hother third ((update_of_ne hthird' _ _).trans hthird)
    rw [← hothers other hne, ← hproc other hne] at hrests
    exact hrests

-- The scheduler forgets the process that has come back.
theorem returns (hlock : smp.lock = some cpu) (hmode : smp.mode cpu = .returns rest) :
    Scheduled { smp.setMode cpu (.scan rest) with current := Function.update smp.current cpu none } := by
  refine h.frame_cpu (fun other hother => update_of_ne hother _ _)
    (fun other hother => update_of_ne hother _ _) ?_ (fun _ _ => Iff.rfl) (fun slot hslot => ?_)
    (fun _ _ _ _ => ⟨rfl, rfl⟩) fun slot hslot => ?_
  · simp [Busy, setMode, hlock]
  · simp at hslot
  · by_cases hcurrent : smp.current cpu = some slot
    · have hfits := h.fits cpu slot hcurrent
      rw [hmode] at hfits
      show (smp.proc slot).Rests (smp.thread slot).phase
      unfold Proc.Rests Proc.Live
      generalize (smp.proc slot).state = state, (smp.thread slot).phase = phase at hfits ⊢
      cases hfits with
      | away _ switch _ hstate =>
        refine ⟨hstate.ne_running, fun hlive => ⟨switch, ?_, rfl⟩⟩
        rintro rfl
        cases hstate
        simp at hlive
    · refine h.rests slot fun other hother => ?_
      have hne : other ≠ cpu := by
        rintro rfl
        exact hcurrent hother
      exact hslot other ((update_of_ne hne _ _).trans hother)

theorem steps (hcreates : Creates smp) (hsteps : Steps smp cpu next) : Scheduled next := by
  have hnone : (∀ state phase, ¬Fits (smp.mode cpu) state phase) → smp.current cpu = none := by
    intro hmode
    cases hcurrent : smp.current cpu with
    | none => rfl
    | some slot => exact absurd (h.fits cpu slot hcurrent) (hmode _ _)
  have hheld : smp.Busy cpu → smp.lock = some cpu := (h.held cpu).mpr
  cases hsteps with
  | acquires mode hmode hlock hnext =>
    have hcurrent := hnone (by rw [hmode]; rintro state phase ⟨⟩)
    refine h.scheduler hcurrent ?_ ?_ (fun other hother => by simp [hlock, hother.symm]) (fun slot => .refl _)
      (.inl rfl)
    · rcases hnext with ⟨chan, rfl⟩ | rfl <;> simp
    · rcases hnext with ⟨chan, rfl⟩ | rfl <;> simp
  | wakes chan hmode =>
    have hcurrent := hnone (by rw [hmode]; rintro state phase ⟨⟩)
    have hlock := hheld (by simp [Busy, hmode])
    exact h.scheduler hcurrent (by simp) (by simp) (fun other hother => by simp [hlock, hother.symm])
      (fun slot => .wakeup _ chan) (.inr hlock)
  | ends hmode =>
    have hcurrent := hnone (by rw [hmode]; rintro state phase ⟨⟩)
    have hlock := hheld (by simp [Busy, hmode])
    exact h.scheduler hcurrent (by simp) (by simp) (fun other hother => by simp [hlock, hother.symm])
      (fun slot => .refl _) (.inl rfl)
  | skips slot rest hmode =>
    have hcurrent := hnone (by rw [hmode]; rintro state phase ⟨⟩)
    have hlock := hheld (by simp [Busy, hmode])
    exact h.scheduler hcurrent (by simp [hlock]) (by simp) (fun _ _ => Iff.rfl) (fun slot => .refl _) (.inl rfl)
  | resumes slot rest switch hmode hstate hphase =>
    exact h.resumes (hheld (by simp [Busy, hmode])) (hnone (by rw [hmode]; rintro state phase ⟨⟩)) hstate hphase
  | returns rest hmode => exact h.returns (hheld (by simp [Busy, hmode])) hmode
  | turn rest me _ hmode hcurrent hturn => exact h.turn hcreates hmode hcurrent hturn

end Scheduled

end Smp

end Xv6

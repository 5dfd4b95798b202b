import Xv6.Ptable.Theorems

namespace Xv6

open Function Option

-- What a system call does to the entry of its own process and to no other, and what the
-- program has passed to `signal` after it.
def Syscall.own : Syscall → Proc → Proc
  | .exec (some loaded), proc => proc.exec loaded
  | .signal returnfn signum handler, proc => (proc.signal returnfn signum handler).1
  | .sigsetmask mask, proc => (proc.sigsetmask mask).1
  | .sigblock sig, proc => (proc.sigblock sig).1
  | .sigunblock sig, proc => (proc.sigunblock sig).1
  | _, proc => proc

def Syscall.passed : Syscall → List Word → List Word
  | .exec (some _), _ => []
  | .signal returnfn _ _, passed => returnfn :: passed
  | _, passed => passed

namespace Machine

variable {machine next : Machine} {act : Act} {slot me : Slot}

@[simp] theorem proc_update_self (machine : Machine) (slot : Slot) (change : Proc → Proc) :
    (machine.update slot change).proc slot = change (machine.proc slot) :=
  machine.table.proc_update_self slot change

theorem proc_update_of_ne (machine : Machine) {slot other : Slot} (change : Proc → Proc) (h : other ≠ slot) :
    (machine.update slot change).proc other = machine.proc other :=
  machine.table.proc_update_of_ne change h

theorem runs_iff (machine : Machine) (slot : Slot) :
    machine.runs slot = true ↔ (machine.proc slot).state = .RUNNING ∧ machine.doing slot = .user := by
  unfold runs
  cases machine.doing slot <;> simp

theorem live_of_runs (h : machine.runs slot = true) : (machine.proc slot).Live := by
  simp [Proc.Live, ((machine.runs_iff slot).mp h).1]

theorem doing_of_runs (h : machine.runs slot = true) : machine.doing slot = .user :=
  ((machine.runs_iff slot).mp h).2

theorem live_of_runnable (h : (machine.proc me).state = .RUNNABLE) : (machine.proc me).Live := by
  simp [Proc.Live, h]

-- The events that a step brings about for an entry.
def Inflicts (machine : Machine) (slot : Slot) : Act → Event → Prop
  | .call me .exit, event => machine.table.Departs me slot event
  | .call _ (.kill pid), event => event = .kill ∧ (machine.proc slot).pid = pid
  | .call me (.Kill stale pid sig), event => machine.table.Sends stale me pid sig slot event
  | .call me (.raise stale sig), event => machine.table.Sends stale me (machine.proc me).pid sig slot event
  | .wakeup chan, event => chan ≠ .null ∧ event = .wakeup chan
  | _, _ => False

-- The same by its causes; `raise` is a `Kill` with the own pid.
inductive Cause (machine : Machine) (slot : Slot) (act : Act) (event : Event) : Prop
  | exit (me : Slot) (hact : act = .call me .exit) (hdeparts : machine.table.Departs me slot event)
  | kill (me : Slot) (pid : Int) (hact : act = .call me (.kill pid)) (hevent : event = .kill)
      (hpid : (machine.proc slot).pid = pid)
  | sends (me : Slot) (stale : Slot → BitVec 16) (pid sig : Int)
      (hact : act = .call me (.Kill stale pid sig) ∨
        (act = .call me (.raise stale sig) ∧ pid = (machine.proc me).pid))
      (hsends : machine.table.Sends stale me pid sig slot event)
  | wakeup (chan : Chan) (hact : act = .wakeup chan) (hchan : chan ≠ .null) (hevent : event = .wakeup chan)

theorem Inflicts.cause {event : Event} (h : machine.Inflicts slot act event) : Cause machine slot act event := by
  cases act with
  | call me syscall =>
    cases syscall with
    | exit => exact .exit me rfl h
    | kill pid => exact .kill me pid rfl h.1 h.2
    | Kill stale pid sig => exact .sends me stale pid sig (.inl rfl) h
    | raise stale sig => exact .sends me stale _ sig (.inr ⟨rfl, rfl⟩) h
    | _ => exact h.elim
  | wakeup chan => exact .wakeup chan rfl h.1 h.2
  | _ => exact h.elim

variable {syscall : Syscall} {proceed : Cpu → Coop Cpu Point Exit Int} {start now : Proc} {point : Point} {cpu : Cpu}
  {computation : Coop Cpu Point Exit Int} {caller : Caller} {good : Machine → Act → Prop}

theorem runs_of_call (h : machine.step (.call me syscall) = some next) : machine.runs me = true := by
  simp only [step, ite_none_right_eq_some] at h
  exact h.1

-- psig of a process that was alive when it was called, and what is left to do of it.
def Returns (start : Proc) (result : Int) (last : Cpu) : Prop :=
  result = 1 ∧ Psig start 0 false last ∧ last.proc.userdefed = 0

structure Waits (start : Proc) (point : Point) (cpu : Cpu) (proceed : Cpu → Coop Cpu Point Exit Int)
    (now : Proc) : Prop where
  live : start.Live
  keeps : start.Keeps now
  undergoes : cpu.proc.Undergoes now
  meets : ∃ caller, ∀ next, Others point cpu next →
    (proceed next).Meets (psigContract caller start 0) (Returns start)
  fixes : ∀ next, (proceed next).Fixes fixed next

-- In every machine that can be reached, what is left to do of psig can be relied on.
def Ok (machine : Machine) : Prop :=
  ∀ slot point cpu proceed, machine.doing slot = .psig point cpu proceed →
    ∃ start, Waits start point cpu proceed (machine.proc slot)

-- The steps that a process takes on its own, apart from psig.
inductive Own (machine : Machine) (act : Act) (next : Machine) (slot : Slot) : Prop
  | called (syscall : Syscall) (hact : act = .call slot syscall) (hruns : machine.runs slot = true)
      (hproc : next.proc slot = syscall.own (machine.proc slot)) (hdoing : next.doing slot = .user)
      (hpassed : next.passed slot = syscall.passed (machine.passed slot))
  | ran (user : User) (hact : act = .user slot user) (hruns : machine.runs slot = true)
      (hproc : next.proc slot = { machine.proc slot with tf := user.tf, memory := user.memory })
      (hdoing : next.doing slot = .user) (hpassed : next.passed slot = machine.passed slot)
  | placed (state : Procstate) (hstate : state = .RUNNABLE ∨ state = .RUNNING) (hlive : (machine.proc slot).Live)
      (hbefore : machine.doing slot = .user) (hproc : next.proc slot = (machine.proc slot).setState state)
      (hdoing : next.doing slot = .user) (hpassed : next.passed slot = machine.passed slot)
  | awoken (hstate : (machine.proc slot).state = .RUNNABLE)
      (hproc : next.proc slot = { machine.proc slot with chan := .null, state := .RUNNING })
      (hdoing : next.doing slot = .user) (hpassed : next.passed slot = machine.passed slot)
  | asleep (chan : Chan) (hchan : chan ≠ .null) (hlive : (machine.proc slot).Live)
      (hproc : next.proc slot = { machine.proc slot with chan, state := .SLEEPING })
      (hdoing : next.doing slot = .wait ∨ next.doing slot = .sleep)
      (hpassed : next.passed slot = machine.passed slot)

-- All that a step can do to an entry. The first four may happen to any entry, the others
-- are steps of the process itself.
inductive Moves (machine : Machine) (act : Act) (next : Machine) (slot : Slot) : Prop
  | events (hproc : (machine.proc slot).UndergoesOnly (machine.Inflicts slot act) (next.proc slot))
      (hdoing : next.doing slot = machine.doing slot) (hpassed : next.passed slot = machine.passed slot)
  | created (parent : Slot) (hact : act = .call parent (.fork true true)) (hruns : machine.runs parent = true)
      (hunused : machine.table.unused = some slot)
      (hproc : next.proc slot = (((machine.proc slot).allocated machine.table.nextpid).copyFrom
        (machine.proc parent) parent).setState .RUNNABLE)
      (hdoing : next.doing slot = machine.doing slot) (hpassed : next.passed slot = machine.passed parent)
  | failed (parent : Slot) (kalloc copyuvm : Bool) (hact : act = .call parent (.fork kalloc copyuvm))
      (hunused : machine.table.unused = some slot) (sigpending : Word) (justwoken : Bool)
      (hproc : next.proc slot =
        { machine.proc slot with
          pid := machine.table.nextpid
          kstack := false
          state := .UNUSED
          sigpending
          justwoken })
      (hdoing : next.doing slot = machine.doing slot)
  | freed (parent : Slot) (hact : act = .call parent .wait ∨ act = .resume parent)
      (hzombie : (machine.proc slot).state = .ZOMBIE) (hparent : (machine.proc slot).parent = some parent)
      (hproc : next.proc slot = (machine.proc slot).freed) (hdoing : next.doing slot = machine.doing slot)
  | exited (hact : act = .call slot .exit) (hruns : machine.runs slot = true) (middle : Proc)
      (hmiddle : (machine.proc slot).UndergoesOnly (machine.Inflicts slot act) middle)
      (hproc : next.proc slot = middle.setState .ZOMBIE) (hdoing : next.doing slot = machine.doing slot)
  | own (hown : Own machine act next slot)
  | psig (start : Proc) (caller : Caller) (cpu : Cpu) (computation : Coop Cpu Point Exit Int) (hstart : start.Live)
      (hkeeps : start.Keeps (machine.proc slot)) (hcpu : cpu.proc = machine.proc slot)
      (hcalled : (machine.runs slot = true ∧ (machine.proc slot).issig ≠ 0) ∨
        ∃ point cpu proceed, machine.doing slot = .psig point cpu proceed ∧
          kernel.ready point { cpu with proc := machine.proc slot } = true)
      (hmeets : computation.Meets (psigContract caller start 0) (Returns start))
      (hfixes : computation.Fixes fixed cpu) (hnext : next = machine.after slot computation)

theorem Moves.of_eq (hproc : next.proc slot = machine.proc slot) (hdoing : next.doing slot = machine.doing slot)
    (hpassed : next.passed slot = machine.passed slot) : Moves machine act next slot :=
  .events (hproc ▸ .refl _) hdoing hpassed

theorem wait_eq (machine : Machine) (me : Slot) : (machine.wait me).table = (machine.table.wait me).1 ∧
    (machine.wait me).passed = machine.passed ∧ (machine.wait me).doing = Function.update machine.doing me
      (if (machine.table.wait me).2 = .sleeps then .wait else .user) := by
  unfold wait
  split
  · rename_i hwait
    simp [hwait]
  · rename_i hsleeps hwait
    simp only [hwait, true_and]
    rw [if_neg]
    rintro rfl
    exact hsleeps rfl

theorem fork_moves (hruns : machine.runs me = true) (kalloc copyuvm : Bool)
    (h : machine.syscall me (.fork kalloc copyuvm) = some next) (slot : Slot) :
    Moves machine (.call me (.fork kalloc copyuvm)) next slot := by
  cases h
  cases machine.table.fork_forks (live_of_runs hruns) kalloc copyuvm slot with
  | child hchild hproc =>
    obtain ⟨rfl, rfl, hunused⟩ := Ptable.child_eq_some hchild
    exact .created me rfl hruns hunused hproc rfl (if_pos hchild)
  | failed hchild hunused sigpending justwoken hproc =>
    exact .failed me kalloc copyuvm rfl hunused sigpending justwoken hproc rfl
  | other hchild hproc => exact .of_eq hproc rfl (if_neg hchild)

theorem exit_moves (hruns : machine.runs me = true) (h : machine.syscall me .exit = some next) (slot : Slot) :
    Moves machine (.call me .exit) next slot := by
  simp only [syscall, map_eq_some_iff] at h
  obtain ⟨table, hexit, rfl⟩ := h
  obtain ⟨middle, hmiddle, hproc⟩ := Ptable.exit_events hexit slot
  by_cases heq : slot = me
  · subst heq
    rw [if_pos rfl] at hproc
    exact .exited rfl hruns middle hmiddle hproc rfl
  · rw [if_neg heq] at hproc
    subst hproc
    exact .events hmiddle rfl rfl

theorem wait_moves (hruns : machine.runs me = true) (slot : Slot) :
    Moves machine (.call me .wait) (machine.wait me) slot := by
  have hlive := live_of_runs hruns
  obtain ⟨htable, hpassed, hdoing⟩ := machine.wait_eq me
  cases machine.table.wait_waitsFor me slot with
  | freed hzombie hparent hproc hwaited =>
    have hne : slot ≠ me := by
      rintro rfl
      simp [proc, Proc.Live, hzombie] at hlive
    refine .freed me (.inl rfl) hzombie hparent (by rw [proc, htable, hproc]; rfl) ?_
    rw [hdoing, update_of_ne hne]
  | sleeps hself hproc hwaited =>
    subst hself
    refine .own (.asleep (.proc slot) (by simp) hlive (by rw [proc, htable, hproc]; rfl) (.inl ?_) (by rw [hpassed]))
    rw [hdoing, update_self, if_pos hwaited]
  | other hproc hwaited =>
    refine .of_eq (by rw [proc, htable, hproc]; rfl) ?_ (by rw [hpassed])
    rw [hdoing]
    by_cases heq : slot = me
    · rw [heq, update_self, if_neg (hwaited heq), doing_of_runs hruns]
    · rw [update_of_ne heq]

theorem called_moves (syscall : Syscall) (hruns : machine.runs me = true)
    (htable : next.table = (machine.update me syscall.own).table) (hdoing : next.doing = machine.doing)
    (hpassed : next.passed = Function.update machine.passed me (syscall.passed (machine.passed me))) (slot : Slot) :
    Moves machine (.call me syscall) next slot := by
  by_cases heq : slot = me
  · subst heq
    refine .own (.called syscall rfl hruns ?_ (by rw [hdoing, doing_of_runs hruns]) (by rw [hpassed, update_self]))
    rw [proc, htable]
    exact machine.proc_update_self slot syscall.own
  · refine .of_eq ?_ (by rw [hdoing]) (by rw [hpassed, update_of_ne heq])
    rw [proc, htable]
    exact machine.proc_update_of_ne syscall.own heq

theorem syscall_moves (hruns : machine.runs me = true) (h : machine.syscall me syscall = some next) (slot : Slot) :
    Moves machine (.call me syscall) next slot := by
  cases syscall with
  | fork kalloc copyuvm => exact fork_moves hruns kalloc copyuvm h slot
  | exit => exact exit_moves hruns h slot
  | wait =>
    simp only [Machine.syscall, some.injEq] at h
    exact h ▸ wait_moves hruns slot
  | exec loaded =>
    cases loaded with
    | none =>
      simp only [Machine.syscall, some.injEq] at h
      exact h ▸ .of_eq rfl rfl rfl
    | some loaded =>
      cases h
      refine called_moves (.exec (some loaded)) hruns ?_ ?_ ?_ slot <;> rfl
  | signal returnfn signum handler =>
    cases h
    refine called_moves (.signal returnfn signum handler) hruns ?_ ?_ ?_ slot <;> rfl
  | kill pid =>
    cases h
    exact .events (machine.table.kill_events pid slot fun hpid => ⟨rfl, hpid⟩) rfl rfl
  | Kill stale pid sig =>
    cases h
    exact .events (machine.table.Kill_events stale me pid sig slot) rfl rfl
  | raise stale sig =>
    cases h
    exact .events (machine.table.Kill_events stale me _ sig slot) rfl rfl
  | sigsetmask mask =>
    cases h
    exact called_moves (.sigsetmask mask) hruns rfl rfl (update_eq_self me machine.passed).symm slot
  | sigblock sig =>
    cases h
    exact called_moves (.sigblock sig) hruns rfl rfl (update_eq_self me machine.passed).symm slot
  | sigunblock sig =>
    cases h
    exact called_moves (.sigunblock sig) hruns rfl rfl (update_eq_self me machine.passed).symm slot

theorem proc_after_self (machine : Machine) (me : Slot) (computation : Coop Cpu Point Exit Int) :
    (machine.after me computation).proc me = computation.state.proc :=
  machine.proc_update_self me fun _ => computation.state.proc

theorem after_moves (machine : Machine) (computation : Coop Cpu Point Exit Int) (hne : slot ≠ me) :
    Moves machine act (machine.after me computation) slot :=
  .of_eq (machine.proc_update_of_ne (fun _ => computation.state.proc) hne) (Function.update_of_ne hne _ _) rfl

theorem proc_sleep_of_ne (machine : Machine) (chan : Chan) (hne : slot ≠ me) :
    (machine.sleep me chan).proc slot = machine.proc slot :=
  machine.proc_update_of_ne (fun proc => { proc with chan, state := .SLEEPING }) hne

theorem proc_sleep_self (machine : Machine) (me : Slot) (chan : Chan) :
    (machine.sleep me chan).proc me = { machine.proc me with chan, state := .SLEEPING } :=
  machine.proc_update_self me fun proc => { proc with chan, state := .SLEEPING }

theorem proc_awake_of_ne (machine : Machine) (hne : slot ≠ me) : (machine.awake me).proc slot = machine.proc slot :=
  machine.proc_update_of_ne (fun proc => { proc with chan := .null, state := .RUNNING }) hne

theorem proc_awake_self (machine : Machine) (me : Slot) :
    (machine.awake me).proc me = { machine.proc me with chan := .null, state := .RUNNING } :=
  machine.proc_update_self me fun proc => { proc with chan := .null, state := .RUNNING }

-- The process wakes up in `wait` and looks for a child once more.
theorem awake_wait_moves (hstate : (machine.proc me).state = .RUNNABLE) (slot : Slot) :
    Moves machine (.resume me) ((machine.awake me).wait me) slot := by
  obtain ⟨htable, hpassed, hdoing⟩ := (machine.awake me).wait_eq me
  have hself := machine.proc_awake_self me
  have hproc : ∀ after, ((machine.awake me).table.wait me).1.proc slot = after →
      ((machine.awake me).wait me).proc slot = after := fun _ hafter => by rw [proc, htable, hafter]
  cases (machine.awake me).table.wait_waitsFor me slot with
  | freed hzombie hparent hafter hwaited =>
    have hne : slot ≠ me := by
      rintro rfl
      have hrunning : ((machine.awake slot).proc slot).state = .RUNNING := by rw [hself]
      exact absurd (hzombie.symm.trans hrunning) (by simp)
    have hsame := machine.proc_awake_of_ne hne
    simp only [proc] at hsame
    rw [hsame] at hzombie hparent hafter
    refine .freed me (.inr rfl) hzombie hparent (hproc _ hafter) ?_
    rw [hdoing, update_of_ne hne]
    exact update_of_ne hne _ _
  | sleeps heq hafter hwaited =>
    subst heq
    refine .own (.asleep (.proc slot) (by simp) (live_of_runnable hstate) ?_ (.inl ?_) (by rw [hpassed]; rfl))
    · rw [hproc _ hafter]
      simp only [proc] at hself ⊢
      rw [hself]
    · rw [hdoing, update_self, if_pos hwaited]
  | other hafter hwaited =>
    by_cases heq : slot = me
    · subst heq
      refine .own (.awoken hstate ((hproc _ hafter).trans hself) ?_ (by rw [hpassed]; rfl))
      rw [hdoing, update_self, if_neg (hwaited rfl)]
    · refine .of_eq ((hproc _ hafter).trans (machine.proc_awake_of_ne heq)) ?_ (by rw [hpassed]; rfl)
      rw [hdoing, update_of_ne heq]
      exact update_of_ne heq _ _

theorem Waits.resume (h : Waits start point cpu proceed now)
    (hready : kernel.ready point { cpu with proc := now } = true) :
    ∃ caller, (proceed { cpu with proc := now }).Meets (psigContract caller start 0) (Returns start) := by
  obtain ⟨caller, hmeets⟩ := h.meets
  refine ⟨caller, hmeets _ ⟨h.undergoes, rfl, ?_⟩⟩
  rintro why rfl
  simpa [kernel] using hready

theorem resume_moves (hok : machine.Ok) (h : machine.resume me = some next) (slot : Slot) :
    Moves machine (.resume me) next slot := by
  unfold resume at h
  split at h
  · rename_i hdoing
    simp only [ite_none_right_eq_some, some.injEq] at h
    obtain ⟨hstate, rfl⟩ := h
    by_cases heq : slot = me
    · subst heq
      exact .own (.placed .RUNNING (.inr rfl) (live_of_runnable hstate) hdoing
        (machine.proc_update_self slot _) hdoing rfl)
    · exact .of_eq (machine.proc_update_of_ne _ heq) rfl rfl
  · simp only [ite_none_right_eq_some, some.injEq] at h
    exact h.2 ▸ awake_wait_moves h.1 slot
  · simp only [ite_none_right_eq_some, some.injEq] at h
    obtain ⟨hstate, rfl⟩ := h
    by_cases heq : slot = me
    · subst heq
      exact .own (.awoken hstate (machine.proc_awake_self slot) (update_self _ _ _) rfl)
    · exact .of_eq (machine.proc_awake_of_ne heq) (update_of_ne heq _ _) rfl
  · rename_i point cpu proceed hdoing
    dsimp only at h
    simp only [ite_none_right_eq_some, some.injEq] at h
    obtain ⟨hready, rfl⟩ := h
    by_cases heq : slot = me
    · subst heq
      obtain ⟨start, hwaits⟩ := hok slot point cpu proceed hdoing
      obtain ⟨caller, hmeets⟩ := hwaits.resume hready
      exact .psig start caller { cpu with proc := machine.proc slot } _ hwaits.live hwaits.keeps rfl
        (.inr ⟨point, cpu, proceed, hdoing, hready⟩) hmeets (hwaits.fixes _) rfl
    · exact machine.after_moves _ heq

theorem step_moves (hok : machine.Ok) (h : machine.step act = some next) (slot : Slot) :
    Moves machine act next slot := by
  cases act with
  | call me syscall =>
    simp only [step, ite_none_right_eq_some] at h
    exact syscall_moves h.1 h.2 slot
  | sleep me chan =>
    simp only [step, ite_none_right_eq_some, some.injEq] at h
    obtain ⟨⟨hruns, hchan⟩, rfl⟩ := h
    by_cases heq : slot = me
    · subst heq
      exact .own (.asleep chan hchan (live_of_runs hruns) (machine.proc_sleep_self slot chan)
        (.inr (update_self _ _ _)) rfl)
    · exact .of_eq (machine.proc_sleep_of_ne chan heq) (update_of_ne heq _ _) rfl
  | psig me caller =>
    simp only [step, ite_none_right_eq_some, some.injEq, Bool.and_eq_true, bne_iff_ne] at h
    obtain ⟨⟨hruns, hissig⟩, rfl⟩ := h
    by_cases heq : slot = me
    · subst heq
      exact .psig (machine.proc slot) caller (.user (machine.proc slot)) _ (live_of_runs hruns) (.refl _) rfl
        (.inl ⟨hruns, hissig⟩) (psig_spec caller (.user (machine.proc slot)) rfl) (psig_fixes caller _) rfl
    · exact machine.after_moves _ heq
  | resume me => exact resume_moves hok h slot
  | yield me =>
    simp only [step, ite_none_right_eq_some, some.injEq] at h
    obtain ⟨hruns, rfl⟩ := h
    have hdoing := doing_of_runs hruns
    by_cases heq : slot = me
    · subst heq
      exact .own (.placed .RUNNABLE (.inl rfl) (live_of_runs hruns) hdoing (machine.proc_update_self slot _) hdoing rfl)
    · exact .of_eq (machine.proc_update_of_ne _ heq) rfl rfl
  | user me user =>
    simp only [step, ite_none_right_eq_some, some.injEq] at h
    obtain ⟨hruns, rfl⟩ := h
    have hdoing := doing_of_runs hruns
    by_cases heq : slot = me
    · subst heq
      refine .own (.ran user rfl hruns ?_ hdoing rfl)
      exact machine.proc_update_self slot fun proc => { proc with tf := user.tf, memory := user.memory }
    · exact .of_eq (machine.proc_update_of_ne _ heq) rfl rfl
  | wakeup chan =>
    simp only [step, ite_none_right_eq_some, some.injEq] at h
    obtain ⟨hchan, rfl⟩ := h
    exact .events (machine.table.wakeup1_events chan slot ⟨hchan, rfl⟩) rfl rfl

section

variable (hlive : start.Live) (h : computation.Meets (psigContract caller start 0) (Returns start))

include hlive h

-- Where psig stops, for good or to wait, the process is alive and has the handlers it had.
theorem after_keeps : computation.state.proc.Live ∧ computation.state.proc.handlers = start.handlers := by
  have hkeeps : ∀ proc, start.Keeps proc → proc.Live ∧ proc.handlers = start.handlers :=
    fun proc hkeeps => ⟨hkeeps.live hlive, Proc.handlers_congr hkeeps.image⟩
  cases computation with
  | done result last => exact hkeeps _ h.2.1.keeps
  | pause point cpu proceed => exact hkeeps _ h.1
  | leave way cpu =>
    cases way with
    | jmptohandler from_ delivery =>
      obtain ⟨-, -, -, chosen, hchosen, -, -, hproc⟩ := h
      rw [Coop.state, hproc]
      exact hkeeps chosen hchosen
    | panic panic => exact absurd rfl h.1
    | deadlock => exact hkeeps _ h
    | restoreuser context | exit | fuel => exact h.elim

theorem after_waits (hfixes : computation.Fixes fixed cpu) {stopped : Cpu}
    (hdoing : (machine.after me computation).doing me = .psig point stopped proceed) :
    Waits start point stopped proceed ((machine.after me computation).proc me) := by
  rw [proc_after_self]
  simp only [after, update_self] at hdoing
  cases computation with
  | done result last => cases hdoing
  | leave way cpu => cases hdoing
  | pause point cpu proceed =>
    cases hdoing
    exact ⟨hlive, h.1, .refl _, ⟨caller, fun next hothers => h.2 next hothers trivial⟩, hfixes.2⟩

end

theorem Waits.undergo {later : Proc} (h : Waits start point cpu proceed now) (hlater : now.Undergoes later) :
    Waits start point cpu proceed later :=
  ⟨h.live, h.keeps.undergoes hlater, h.undergoes.trans hlater, h.meets, h.fixes⟩

theorem Waits.alive (h : Waits start point cpu proceed now) : now.Live :=
  h.keeps.live h.live

theorem Own.doing (h : Own machine act next slot) :
    next.doing slot = .user ∨ next.doing slot = .wait ∨ next.doing slot = .sleep := by
  cases h with
  | called _ _ _ _ hdoing
  | ran _ _ _ _ hdoing
  | placed _ _ _ _ _ hdoing
  | awoken _ _ hdoing => exact .inl hdoing
  | asleep _ _ _ _ hdoing => exact .inr hdoing

theorem step_ok (hok : machine.Ok) (h : machine.step act = some next) : next.Ok := by
  intro slot point cpu proceed hdoing
  -- A process that is not in psig before the step and does not enter it is not in it after.
  have hsame : next.doing slot = machine.doing slot → ∃ start, Waits start point cpu proceed (machine.proc slot) :=
    fun hsame => hok slot point cpu proceed (hsame ▸ hdoing)
  have huser : next.doing slot ≠ .user := fun huser => by
    rw [hdoing] at huser
    cases huser
  cases step_moves hok h slot with
  | events hproc hdoing =>
    obtain ⟨start, hwaits⟩ := hsame hdoing
    exact ⟨start, hwaits.undergo hproc.undergoes⟩
  | created parent hact hruns hunused hproc hdoing
  | failed parent kalloc copyuvm hact hunused sigpending justwoken hproc hdoing =>
    obtain ⟨start, hwaits⟩ := hsame hdoing
    have hlive := hwaits.alive
    simp [Proc.Live, proc, Ptable.unused_state hunused] at hlive
  | freed parent hact hzombie hparent hproc hdoing =>
    obtain ⟨start, hwaits⟩ := hsame hdoing
    have hlive := hwaits.alive
    simp [Proc.Live, hzombie] at hlive
  | exited hact hruns middle hmiddle hproc hdoing => exact absurd (hdoing.trans (doing_of_runs hruns)) huser
  | own hown =>
    have hout := hown.doing
    simp [hdoing] at hout
  | psig start caller cpu computation hstart hkeeps hcpu hcalled hmeets hfixes hnext =>
    subst hnext
    exact ⟨start, after_waits hstart hmeets hfixes hdoing⟩

theorem Reach.ok (h : Reach good machine) : machine.Ok := by
  refine h.invariant Ok ?_ ?_
  · rintro _ ⟨memory, hboot⟩ slot point cpu proceed hdoing
    simp only [boot, map_eq_some_iff] at hboot
    obtain ⟨table, -, rfl⟩ := hboot
    cases hdoing
  · exact fun machine next act hok _ hstep => step_ok hok hstep

-- The first process has all signals at their defaults, and it is the only one.
theorem boot_eq {memory : Memory} (h : boot memory = some machine) :
    (∀ slot, machine.proc slot = if slot = 0 then (Proc.zero.allocated 1).initcode memory else .zero) ∧
      machine.table.nextpid = 2 ∧ machine.table.initproc = some 0 ∧ (∀ slot, machine.doing slot = .user) ∧
      ∀ slot, machine.passed slot = [] := by
  simp only [boot, map_eq_some_iff] at h
  obtain ⟨table, htable, rfl⟩ := h
  obtain ⟨hproc, hnextpid, hinitproc⟩ := Ptable.userinit_eq htable
  exact ⟨hproc, hnextpid, hinitproc, fun _ => rfl, fun _ => rfl⟩

-- An invariant of single entries and what their processes are in the middle of.
theorem Reach.entries (holds : Machine → Prop) (hboot : ∀ memory machine, boot memory = some machine → holds machine)
    (hstep : ∀ machine act next, machine.Ok → holds machine → good machine act → machine.step act = some next →
      (∀ slot, Moves machine act next slot) → holds next) (h : Reach good machine) : holds machine := by
  have hall : machine.Ok ∧ holds machine := by
    refine h.invariant (fun machine => machine.Ok ∧ holds machine) ?_ ?_
    · rintro machine ⟨memory, hmachine⟩
      exact ⟨Reach.ok (.start machine ⟨memory, hmachine⟩ : Reach good machine), hboot memory machine hmachine⟩
    · rintro machine next act ⟨hok, hholds⟩ hgood hnext
      exact ⟨step_ok hok hnext, hstep machine act next hok hholds hgood hnext (step_moves hok hnext)⟩
  exact hall.2

end Machine

end Xv6

import Mathlib.Logic.Function.Basic
import Xv6.Runs

namespace Xv6

open Function Option

inductive CliPanic where
  | popcliInterruptible
  | popcli
  | schedLocks
  | schedInterruptible

-- Part of struct cpu, and FL_IF of its eflags.
structure CliCpu where
  ncli : Int
  intena : Bool
  enabled : Bool

namespace CliCpu

variable {cpu : CliCpu}

section

variable (cpu : CliCpu)

def pushcli : CliCpu where
  ncli := cpu.ncli + 1
  intena := if cpu.ncli = 0 then cpu.enabled else cpu.intena
  enabled := false

-- popcli where it does not panic.
def pop : CliCpu := { cpu with ncli := cpu.ncli - 1, enabled := cpu.ncli - 1 = 0 && cpu.intena }

def popcli : Except CliPanic CliCpu :=
  if cpu.enabled then .error .popcliInterruptible else if cpu.ncli - 1 < 0 then .error .popcli else .ok cpu.pop

-- What holding, acquire and release do to the CPU, whatever the lock is.
def holding : Except CliPanic CliCpu := cpu.pushcli.popcli

def acquire : Except CliPanic CliCpu := cpu.pushcli.holding

def release : Except CliPanic CliCpu := do
  let cpu ← cpu.holding
  cpu.popcli

-- sched until it calls swtch.
def sched : Except CliPanic CliCpu := do
  let cpu ← cpu.holding
  if cpu.ncli ≠ 1 then throw .schedLocks
  if cpu.enabled then throw .schedInterruptible
  return cpu

end

theorem popcli_eq (hncli : 0 < cpu.ncli) (hoff : cpu.enabled = false) : cpu.popcli = .ok cpu.pop := by
  unfold popcli
  rw [hoff, if_neg (by decide), if_neg (by omega)]

-- Inside of another pushcli a pair has no effect.
theorem holding_eq (hncli : 0 < cpu.ncli) (hoff : cpu.enabled = false) : cpu.holding = .ok cpu := by
  unfold holding
  rw [popcli_eq (by simp only [pushcli]; omega) rfl]
  have hne : cpu.ncli ≠ 0 := by omega
  obtain ⟨ncli, intena, enabled⟩ := cpu
  simp_all [pushcli, pop]

theorem acquire_eq (hncli : 0 ≤ cpu.ncli) : cpu.acquire = .ok cpu.pushcli :=
  holding_eq (by simp only [pushcli]; omega) rfl

theorem release_eq (hncli : 0 < cpu.ncli) (hoff : cpu.enabled = false) : cpu.release = cpu.popcli := by
  unfold release
  rw [holding_eq hncli hoff]
  rfl

theorem sched_eq (hone : cpu.ncli = 1) (hoff : cpu.enabled = false) : cpu.sched = .ok cpu := by
  unfold sched
  rw [holding_eq (by omega) hoff]
  simp [bind, Except.bind, pure, Except.pure, hone, hoff]

end CliCpu

-- A thread or the scheduler runs on each CPU. `intena` is the local variable of sched in a thread that is
-- switched out there. The last two fields are not in the source: how many pushcli of each of them there are
-- without their popcli, and the interrupt flag at the outermost one. A new process has no pushcli of its own, but
-- it begins in forkret with the one of the scheduler.
structure Cli (Cpu Thread : Type) where
  cpu : Cpu → CliCpu
  running : Cpu → Thread ⊕ Cpu
  intena : Thread → Option Bool
  nest : Thread ⊕ Cpu → Nat
  before : Thread ⊕ Cpu → Option Bool

-- `flag` is what sti, traps and returns from traps do to the interrupt flag.
inductive CliCall (Thread : Type) where
  | pushcli
  | popcli
  | acquire
  | release
  | flag (enabled : Bool)
  | sched
  | swtch (thread : Thread)
  | fork (thread : Thread)

namespace Cli

variable {Cpu Thread : Type} [DecidableEq Cpu] [DecidableEq Thread] {cli next : Cli Cpu Thread} {c : Cpu}

section

variable (cli : Cli Cpu Thread)

-- Something happens on a CPU that goes on with what it runs.
def turn (c : Cpu) (cpu : CliCpu) (nest : Nat) (before : Option Bool) : Cli Cpu Thread :=
  { cli with
    cpu := update cli.cpu c cpu
    nest := update cli.nest (cli.running c) nest
    before := update cli.before (cli.running c) before }

def enter (c : Cpu) (cpu : CliCpu) : Cli Cpu Thread :=
  let who := cli.running c
  cli.turn c cpu (cli.nest who + 1) (if cli.nest who = 0 then some (cli.cpu c).enabled else cli.before who)

def leave (c : Cpu) (cpu : CliCpu) : Cli Cpu Thread :=
  cli.turn c cpu (cli.nest (cli.running c) - 1) (cli.before (cli.running c))

-- It goes on with something else.
def hand (c : Cpu) (who : Thread ⊕ Cpu) (cpu : CliCpu) (intena : Thread → Option Bool) :
    Cli Cpu Thread :=
  { cli with cpu := update cli.cpu c cpu, running := update cli.running c who, intena }

def sched (c : Cpu) (thread : Thread) (cpu : CliCpu) : Cli Cpu Thread :=
  cli.hand c (.inr c) cpu (update cli.intena thread (some cpu.intena))

-- The thread returns from swtch in sched, or begins in forkret.
def swtch (c : Cpu) (thread : Thread) : Cli Cpu Thread :=
  cli.hand c (.inl thread) { cli.cpu c with intena := (cli.intena thread).getD (cli.cpu c).intena }
    (update cli.intena thread none)

def fork (thread : Thread) : Cli Cpu Thread :=
  { cli with
    intena := update cli.intena thread none
    nest := update cli.nest (.inl thread) 1
    before := update cli.before (.inl thread) none }

-- There is no next state where the kernel panics.
def step : Cpu × CliCall Thread → Option (Cli Cpu Thread)
  | (c, .pushcli) => some (cli.enter c (cli.cpu c).pushcli)
  | (c, .popcli) => (cli.cpu c).popcli.toOption.map (cli.leave c)
  | (c, .acquire) => (cli.cpu c).acquire.toOption.map (cli.enter c)
  | (c, .release) => (cli.cpu c).release.toOption.map (cli.leave c)
  | (c, .flag enabled) =>
    some (cli.turn c { cli.cpu c with enabled } (cli.nest (cli.running c)) (cli.before (cli.running c)))
  | (c, .sched) => (cli.running c).getLeft?.bind fun thread => (cli.cpu c).sched.toOption.map (cli.sched c thread)
  | (c, .swtch thread) => some (cli.swtch c thread)
  | (_, .fork thread) => some (cli.fork thread)

-- Calls are nested, sched is called with ncli equal to 1, the scheduler switches with ptable.lock only, to a
-- thread that runs nowhere, and nothing else changes the interrupt flag where ncli is positive.
def Proper : Cpu × CliCall Thread → Prop
  | (c, .popcli) | (c, .release) => 0 < cli.nest (cli.running c)
  | (c, .flag _) => (cli.cpu c).ncli = 0
  | (c, .sched) => (cli.cpu c).ncli = 1
  | (c, .swtch thread) =>
    cli.running c = .inr c ∧ cli.nest (.inr c) = 1 ∧ ∀ other, cli.running other ≠ .inl thread
  | (_, .fork thread) => ∀ other, cli.running other ≠ .inl thread
  | _ => True

end

structure Starts (cli : Cli Cpu Thread) : Prop where
  ncli (c : Cpu) : (cli.cpu c).ncli = 0
  running (c : Cpu) : cli.running c = .inr c
  nest (c : Cpu) : cli.nest (.inr c) = 0
  thread (thread : Thread) : cli.nest (.inl thread) = 1 ∧ cli.before (.inl thread) = none

structure Nested (cli : Cli Cpu Thread) : Prop where
  ncli (c : Cpu) : (cli.cpu c).ncli = cli.nest (cli.running c)
  off (c : Cpu) (h : 0 < cli.nest (cli.running c)) : (cli.cpu c).enabled = false
  apart (c other : Cpu) (h : cli.running c = cli.running other) : c = other
  own (c other : Cpu) (h : cli.running c = .inr other) : c = other
  mine (c : Cpu) (thread : Thread) (b : Bool) (h : cli.running c = .inl thread) (hpos : 0 < cli.nest (.inl thread))
    (hbefore : cli.before (.inl thread) = some b) : (cli.cpu c).intena = b
  out (who : Thread ⊕ Cpu) (h : ∀ c, cli.running c ≠ who) : cli.nest who = 1
  saved (thread : Thread) (b : Bool) (h : ∀ c, cli.running c ≠ .inl thread)
    (hbefore : cli.before (.inl thread) = some b) : cli.intena thread = some b

omit [DecidableEq Cpu] [DecidableEq Thread] in
theorem Starts.nested (h : Starts cli) : Nested cli := by
  obtain ⟨hncli, hrunning, hnest, hthread⟩ := h
  constructor
  case out =>
    intro who hnot
    cases who with
    | inl thread => exact (hthread thread).1
    | inr c => exact absurd (hrunning c) (hnot c)
  all_goals grind

namespace Nested

-- The others have their own counts, as nothing runs on two CPUs.
theorem turn (h : Nested cli) {cpu : CliCpu} {nest : Nat} {before : Option Bool} (hncli : cpu.ncli = nest)
    (hoff : 0 < nest → cpu.enabled = false)
    (hmine : ∀ thread b, cli.running c = .inl thread → 0 < nest → before = some b → cpu.intena = b) :
    Nested (cli.turn c cpu nest before) := by
  have hothers (other : Cpu) (hne : other ≠ c) : cli.running other ≠ cli.running c := fun hrun => hne (h.apart _ _ hrun)
  obtain ⟨hncli', hoff', hapart, hown, hmine', hout, hsaved⟩ := h
  constructor <;> simp only [Cli.turn] <;> grind [update_apply]

-- All others that run nowhere stay as they are.
theorem hand (h : Nested cli) {who : Thread ⊕ Cpu} {cpu : CliCpu} {intena : Thread → Option Bool}
    (hone : cli.nest (cli.running c) = 1) (hfree : ∀ other, cli.running other ≠ who)
    (hown : ∀ other, who = .inr other → c = other) (hncli : cpu.ncli = 1) (hoff : cpu.enabled = false)
    (hmine : ∀ thread b, who = .inl thread → cli.before (.inl thread) = some b → cpu.intena = b)
    (hleft : ∀ thread b, cli.running c = .inl thread → cli.before (.inl thread) = some b → intena thread = some b)
    (hkept : ∀ thread, who ≠ .inl thread → cli.running c ≠ .inl thread → intena thread = cli.intena thread) :
    Nested (cli.hand c who cpu intena) := by
  have hnone {one : Thread ⊕ Cpu} (hne : cli.running c ≠ one)
      (hone : ∀ other, update cli.running c who other ≠ one) (other : Cpu) : cli.running other ≠ one := by
    by_cases hother : other = c
    · exact hother ▸ hne
    · exact update_of_ne hother who cli.running ▸ hone other
  have hwho := h.out who hfree
  obtain ⟨hncli', hoff', hapart, hown', hmine', hout, hsaved⟩ := h
  constructor
  case out =>
    intro one hnot
    by_cases hsame : cli.running c = one
    · exact hsame ▸ hone
    · exact hout one (hnone hsame hnot)
  case saved =>
    intro thread b hnot hb
    by_cases hsame : cli.running c = .inl thread
    · exact hleft thread b hsame hb
    · have hne : who ≠ .inl thread := update_self c who cli.running ▸ hnot c
      rw [← hsaved thread b (hnone hsame hnot) hb]
      exact hkept thread hne hsame
  all_goals
    simp only [Cli.hand]
    grind [update_apply]

theorem enter (h : Nested cli) (c : Cpu) : Nested (cli.enter c (cli.cpu c).pushcli) := by
  have hncli := h.ncli c
  refine h.turn ?_ (fun _ => rfl) ?_
  · simp [CliCpu.pushcli, hncli]
  · intro thread b hrun _ hb
    have hmine := h.mine c thread b hrun
    rw [hrun] at hncli hb
    simp only [CliCpu.pushcli, hncli, Int.natCast_eq_zero]
    split
    · next hzero => simpa [hzero] using hb
    · next hne => exact hmine (by omega) (by simpa [hne] using hb)

theorem leave (h : Nested cli) (hpos : 0 < cli.nest (cli.running c)) : Nested (cli.leave c (cli.cpu c).pop) := by
  have hncli := h.ncli c
  refine h.turn (by simp only [CliCpu.pop]; omega) ?_ ?_
  · intro hmore
    have hne : (cli.cpu c).ncli - 1 ≠ 0 := by omega
    simp [CliCpu.pop, hne]
  · intro thread b hrun _ hb
    rw [hrun] at hpos hb
    exact h.mine c thread b hrun hpos hb

variable {thread : Thread}

theorem sched (h : Nested cli) (hrun : cli.running c = .inl thread) (hone : (cli.cpu c).ncli = 1) :
    Nested (cli.sched c thread (cli.cpu c)) := by
  have hncli := h.ncli c
  have hnest : cli.nest (cli.running c) = 1 := by omega
  refine h.hand hnest ?_ (by simp) hone (h.off c (by omega)) (by simp) ?_ ?_
  · intro other hother
    obtain rfl := h.own other c hother
    simp [hrun] at hother
  · intro one b hsame hb
    obtain rfl := Sum.inl.inj (hrun.symm.trans hsame)
    rw [update_self, h.mine c thread b hrun (hrun ▸ hnest ▸ Nat.one_pos) hb]
  · intro one _ hne
    refine update_of_ne ?_ ..
    rintro rfl
    exact hne hrun

theorem swtch (h : Nested cli) (hrun : cli.running c = .inr c) (hone : cli.nest (.inr c) = 1)
    (hfree : ∀ other, cli.running other ≠ .inl thread) : Nested (cli.swtch c thread) := by
  have hncli := h.ncli c
  have hnest : cli.nest (cli.running c) = 1 := by rw [hrun, hone]
  refine h.hand hnest hfree (by simp) (by simp only; omega) (h.off c (by omega)) ?_ (by simp [hrun]) ?_
  · intro one b hsame hb
    obtain rfl := Sum.inl.inj hsame
    rw [h.saved thread b hfree hb]
    rfl
  · intro one hne _
    refine update_of_ne ?_ ..
    rintro rfl
    exact hne rfl

theorem fork (h : Nested cli) (hfree : ∀ other, cli.running other ≠ .inl thread) : Nested (cli.fork thread) := by
  obtain ⟨hncli, hoff, hapart, hown, hmine, hout, hsaved⟩ := h
  constructor <;> simp only [Cli.fork] <;> grind [update_apply]

omit [DecidableEq Cpu] [DecidableEq Thread] in
theorem pops (h : Nested cli) (hpos : 0 < cli.nest (cli.running c)) :
    (cli.cpu c).popcli = .ok (cli.cpu c).pop ∧ (cli.cpu c).release = .ok (cli.cpu c).pop := by
  have hncli := h.ncli c
  have hpopcli := CliCpu.popcli_eq (by omega) (h.off c hpos)
  exact ⟨hpopcli, (CliCpu.release_eq (by omega) (h.off c hpos)).trans hpopcli⟩

theorem step {call : Cpu × CliCall Thread} (h : Nested cli) (hproper : cli.Proper call)
    (hstep : cli.step call = some next) : Nested next := by
  obtain ⟨c, call⟩ := call
  have hncli := h.ncli c
  cases call with
  | pushcli =>
    obtain rfl := some.inj hstep
    exact h.enter c
  | acquire =>
    have hacquire : (cli.cpu c).acquire = .ok (cli.cpu c).pushcli := CliCpu.acquire_eq (by omega)
    rw [Cli.step, hacquire] at hstep
    obtain rfl := some.inj hstep
    exact h.enter c
  | popcli =>
    obtain ⟨hpopcli, -⟩ := h.pops hproper
    rw [Cli.step, hpopcli] at hstep
    obtain rfl := some.inj hstep
    exact h.leave hproper
  | release =>
    obtain ⟨-, hrelease⟩ := h.pops hproper
    rw [Cli.step, hrelease] at hstep
    obtain rfl := some.inj hstep
    exact h.leave hproper
  | flag enabled =>
    obtain rfl := some.inj hstep
    have hzero : (cli.cpu c).ncli = 0 := hproper
    have hnest : cli.nest (cli.running c) = 0 := by omega
    exact h.turn hncli (by omega) (by omega)
  | sched =>
    have hone : (cli.cpu c).ncli = 1 := hproper
    obtain ⟨thread, hrun, hstep⟩ := bind_eq_some_iff.mp hstep
    obtain ⟨cpu, hsched, rfl⟩ := map_eq_some_iff.mp hstep
    rw [CliCpu.sched_eq hone (h.off c (by omega))] at hsched
    obtain rfl := some.inj hsched
    exact h.sched (Sum.getLeft?_eq_some_iff.mp hrun) hone
  | swtch thread =>
    obtain rfl := some.inj hstep
    exact h.swtch hproper.1 hproper.2.1 hproper.2.2
  | fork thread =>
    obtain rfl := some.inj hstep
    exact h.fork hproper

end Nested

theorem popcli_nested (h : Reach step Proper Starts cli) (c : Cpu) :
    (0 < (cli.cpu c).ncli → (cli.cpu c).enabled = false) ∧
      (0 < cli.nest (cli.running c) → ∃ cpu, (cli.cpu c).popcli = .ok cpu ∧ (cli.cpu c).release = .ok cpu ∧
        ∀ thread b, cli.running c = .inl thread → cli.nest (.inl thread) = 1 → cli.before (.inl thread) = some b →
          cpu.ncli = 0 ∧ cpu.enabled = b) := by
  have hnested : Nested cli := h.invariant Nested (fun _ => Starts.nested) fun _ _ _ => Nested.step
  have hncli := hnested.ncli c
  refine ⟨fun hpos => hnested.off c (by omega), fun hpos => ?_⟩
  obtain ⟨hpopcli, hrelease⟩ := hnested.pops hpos
  refine ⟨_, hpopcli, hrelease, ?_⟩
  intro thread b hrun hone hb
  have hmine := hnested.mine c thread b hrun (by omega) hb
  rw [hrun, hone] at hncli
  simp [CliCpu.pop, hncli, hmine]

-- A new process leaves forkret, comes to acquire a lock with interrupts enabled, gives up the CPU with it and gets
-- the CPU back.
theorem popcli_nested_forked :
    ∃ cli : Cli Unit Unit, Reach step Proper Starts cli ∧ cli.before (.inl ()) = some true ∧
      ∃ cpu, (cli.cpu ()).popcli = .ok cpu ∧ cpu.enabled = true := by
  let boot : Cli Unit Unit :=
    ⟨fun _ => ⟨0, false, true⟩, .inr, fun _ => none, Sum.elim (fun _ => 1) fun _ => 0, fun _ => none⟩
  have hstart : Reach step Proper Starts boot :=
    .start _ ⟨fun _ => rfl, fun _ => rfl, fun _ => rfl, fun _ => ⟨rfl, rfl⟩⟩
  have hsched := Reach.step _ _ ((), CliCall.acquire) hstart trivial rfl
  have hswtch := Reach.step _ _ ((), CliCall.swtch ()) hsched ⟨rfl, rfl, fun _ => Sum.inr_ne_inl⟩ rfl
  have hforkret := Reach.step _ _ ((), CliCall.release) hswtch Nat.one_pos rfl
  have hflag := Reach.step _ _ ((), CliCall.flag true) hforkret rfl rfl
  have hacquire := Reach.step _ _ ((), CliCall.acquire) hflag trivial rfl
  have hgone := Reach.step _ _ ((), CliCall.sched) hacquire rfl rfl
  have hback := Reach.step _ _ ((), CliCall.swtch ()) hgone ⟨rfl, rfl, fun _ => Sum.inr_ne_inl⟩ rfl
  refine ⟨_, hback, rfl, ?_⟩
  obtain ⟨cpu, hpopcli, -, houtermost⟩ := (popcli_nested hback ()).2 Nat.one_pos
  exact ⟨cpu, hpopcli, (houtermost () true rfl rfl rfl).2⟩

end Cli

end Xv6

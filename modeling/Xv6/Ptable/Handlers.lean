import Xv6.Ptable.Changes

namespace Xv6

open Machine Option

-- What a process has said about a signal.
inductive Established where
  | default
  | ignored
  | handler (address : Word)
  deriving DecidableEq, Repr

namespace Established

def ofWord (handler : Word) : Established :=
  if handler = SIG_IGN then .ignored else if handler = SIG_DFL then .default else .handler handler

def word : Established → Word
  | .default => SIG_DFL
  | .ignored => SIG_IGN
  | .handler address => address

end Established

-- The calls that say something about signals.
inductive HandlerCall where
  | signal (signum : Int) (handler : Word)
  | exec
  deriving DecidableEq, Repr

-- What was established last, with the latest call first. Of a new program only ignored
-- signals are known.
def established (signum : Nat) : List HandlerCall → Established
  | [] => .default
  | .signal number handler :: older => if number = signum then .ofWord handler else established signum older
  | .exec :: older => if established signum older = .ignored then .ignored else .default

def Proc.established (proc : Proc) (signum : Nat) : Established :=
  match proc.disposition signum with
  | .USERDEF => .handler (proc.handler signum)
  | .IGN => .ignored
  | .DFL => .default

variable {signum : Nat}

namespace Proc

theorem prev_eq (proc : Proc) (signum : Nat) : proc.prev signum = (proc.established signum).word := by
  unfold prev established
  cases proc.disposition signum <;> rfl

theorem established_congr {first second : Proc} (h : first.allinfo = second.allinfo) (hsignum : signum < NUMSIG) :
    first.established signum = second.established signum := by
  simp only [established, disposition, handler, h, hsignum, ite_true]

theorem disposition_exec (proc : Proc) (loaded : Loaded) (signum : Nat) :
    (proc.exec loaded).disposition signum = if proc.disposition signum = .IGN then .IGN else .DFL := by
  unfold disposition exec
  dsimp only
  generalize proc.allinfo (Fin.ofNat NUMSIG signum) = info
  obtain ⟨disposition, handler⟩ := info
  cases disposition <;> rfl

theorem established_exec (proc : Proc) (loaded : Loaded) (signum : Nat) :
    (proc.exec loaded).established signum = if proc.established signum = .ignored then .ignored else .default := by
  have hignored : proc.established signum = .ignored ↔ proc.disposition signum = .IGN := by
    unfold established
    split <;> simp_all
  simp only [hignored]
  unfold established
  rw [disposition_exec]
  split_ifs <;> rfl

-- A call about this signal establishes what it is given.
theorem established_signal_self (proc : Proc) (returnfn handler : Word) (h : Accepted signum) :
    (proc.signal returnfn signum handler).1.established signum = .ofWord handler := by
  obtain ⟨hpos, hle, hkill, hstop⟩ := h
  have hlt : signum < NUMSIG := Nat.lt_of_le_of_lt hle (by decide)
  unfold signal Established.ofWord
  rw [if_neg (by omega), if_neg (by omega), Int.toNat_natCast]
  split_ifs
  · simp [established, disposition, reset]
  · simp [established, disposition, reset]
  · simp [established, disposition, install, Proc.handler, hlt]

-- A call about another signal, accepted or not, leaves this one alone.
theorem established_signal_of_ne (proc : Proc) (returnfn handler : Word) {number : Int} (h : signum < NUMSIG)
    (hne : number ≠ signum) : (proc.signal returnfn number handler).1.established signum = proc.established signum := by
  rcases proc.signal_cases returnfn number handler with
    hrefused | ⟨index, rfl, haccepted, ⟨-, disposition, -, hreset⟩ | ⟨-, -, hinstall⟩⟩
  · rw [hrefused]
  · have hinfo := haccepted.update_allinfo proc.allinfo
      { proc.allinfo (Fin.ofNat NUMSIG index) with disposition } signum h (by omega)
    simp only [hreset, established, Proc.disposition, Proc.handler, reset, hinfo, h, ite_true]
  · have hinfo := haccepted.update_allinfo proc.allinfo ⟨.USERDEF, handler⟩ signum h (by omega)
    simp only [hinstall, established, Proc.disposition, Proc.handler, install, hinfo, h, ite_true]

end Proc

-- The machine together with these calls in the history of each process: those of its
-- parent up to the `fork`, then its own, the latest first.
structure Traced where
  machine : Machine
  history : Slot → List HandlerCall

namespace Traced

def log (traced : Traced) : Act → Slot → List HandlerCall
  | .call me (.fork kalloc copyuvm), slot =>
    if traced.machine.table.child kalloc copyuvm = some slot then traced.history me else traced.history slot
  | .call me (.signal _ signum handler), slot =>
    if slot = me then .signal signum handler :: traced.history slot else traced.history slot
  | .call me (.exec (some _)), slot => if slot = me then .exec :: traced.history slot else traced.history slot
  | _, slot => traced.history slot

def step (traced : Traced) (act : Act) : Option Traced :=
  (traced.machine.step act).map fun next => ⟨next, traced.log act⟩

def boot (memory : Memory) : Option Traced := (Machine.boot memory).map fun machine => ⟨machine, fun _ => []⟩

abbrev Reach : Traced → Prop :=
  Xv6.Reach step (fun _ _ => True) (fun traced => ∃ memory, boot memory = some traced)

-- Every process that is alive has established what its history says.
def Kept (traced : Traced) : Prop :=
  ∀ slot, (traced.machine.proc slot).Live → ∀ signum, Accepted signum →
    (traced.machine.proc slot).established signum = established signum (traced.history slot)

variable {traced : Traced} {act : Act} {slot : Slot} {machine : Machine}

theorem kept_boot {memory : Memory} (h : boot memory = some traced) : traced.Kept := by
  simp only [boot, map_eq_some_iff] at h
  obtain ⟨machine, hmachine, rfl⟩ := h
  intro slot hlive signum _
  simp only [Proc.established, (boot_live hmachine hlive).2.1 signum, established]

variable {next : Machine}

theorem kept_fork {me : Slot} {kalloc copyuvm : Bool} (hkept : traced.Kept)
    (hstep : traced.machine.step (.call me (.fork kalloc copyuvm)) = some next) (hlive : (next.proc slot).Live)
    (haccepted : Accepted signum) : (next.proc slot).established signum =
      established signum (traced.log (.call me (.fork kalloc copyuvm)) slot) := by
  have hparent := live_of_runs (runs_of_call hstep)
  simp only [Machine.step, ite_none_right_eq_some, Machine.syscall, some.injEq] at hstep
  obtain ⟨-, rfl⟩ := hstep
  cases traced.machine.table.fork_forks hparent kalloc copyuvm slot with
  | child hchild hproc =>
    simp only [log, hchild, ite_true, ← hkept me hparent signum haccepted]
    refine Proc.established_congr ?_ haccepted.lt
    simp only [proc, hproc]
    rfl
  | failed hchild hunused sigpending justwoken hproc => simp [proc, hproc, Proc.Live] at hlive
  | other hchild hproc =>
    simp only [proc, hproc] at hlive ⊢
    simp only [log, hchild, ite_false]
    exact hkept slot hlive signum haccepted

-- The calls that are traced, if they are this process's own.
theorem own_call {syscall : Syscall} (hstep : machine.step (.call slot syscall) = some next)
    (hcall : (∃ returnfn signum handler, syscall = .signal returnfn signum handler) ∨
      ∃ loaded, syscall = .exec (some loaded)) :
    (machine.proc slot).Live ∧ next.proc slot = syscall.own (machine.proc slot) := by
  refine ⟨live_of_runs (runs_of_call hstep), ?_⟩
  simp only [Machine.step, ite_none_right_eq_some] at hstep
  rcases hcall with ⟨returnfn, signum, handler, rfl⟩ | ⟨loaded, rfl⟩
  · simp only [Machine.syscall, some.injEq] at hstep
    rw [← hstep.2]
    exact machine.proc_update_self slot (Syscall.own (.signal returnfn signum handler))
  · simp only [Machine.syscall, some.injEq] at hstep
    rw [← hstep.2]
    exact machine.proc_update_self slot (Syscall.own (.exec (some loaded)))

theorem kept_signal {returnfn handler : Word} {number : Int} (hkept : traced.Kept)
    (hstep : traced.machine.step (.call slot (.signal returnfn number handler)) = some next)
    (haccepted : Accepted signum) : (next.proc slot).established signum =
      established signum (traced.log (.call slot (.signal returnfn number handler)) slot) := by
  obtain ⟨hbefore, hproc⟩ := own_call hstep (.inl ⟨returnfn, number, handler, rfl⟩)
  simp only [hproc, Syscall.own, log, ite_true, established]
  split_ifs with hnumber
  · subst hnumber
    exact Proc.established_signal_self _ returnfn handler haccepted
  · rw [Proc.established_signal_of_ne _ returnfn handler haccepted.lt hnumber]
    exact hkept slot hbefore signum haccepted

-- Nothing is traced for this process.
structure Unlogged (slot : Slot) (act : Act) : Prop where
  fork : ∀ me kalloc copyuvm, act ≠ .call me (.fork kalloc copyuvm)
  signal : ∀ returnfn signum handler, act ≠ .call slot (.signal returnfn signum handler)
  exec : ∀ loaded, act ≠ .call slot (.exec (some loaded))

theorem Unlogged.log (h : Unlogged slot act) : traced.log act slot = traced.history slot := by
  unfold Traced.log
  split
  · rename_i me kalloc copyuvm
    exact absurd rfl (h.fork me kalloc copyuvm)
  · rename_i me returnfn signum handler
    refine if_neg ?_
    rintro rfl
    exact h.signal returnfn signum handler rfl
  · rename_i me loaded
    refine if_neg ?_
    rintro rfl
    exact h.exec loaded rfl
  · rfl

theorem kept_step (hkept : traced.Kept) (hstep : traced.machine.step act = some next)
    (hmoves : ∀ slot, Machine.Moves traced.machine act next slot) : Kept ⟨next, traced.log act⟩ := by
  intro slot hlive signum haccepted
  by_cases hfork : ∃ me kalloc copyuvm, act = .call me (.fork kalloc copyuvm)
  · obtain ⟨me, kalloc, copyuvm, rfl⟩ := hfork
    exact kept_fork hkept hstep hlive haccepted
  by_cases hsignal : ∃ returnfn number handler, act = .call slot (.signal returnfn number handler)
  · obtain ⟨returnfn, number, handler, rfl⟩ := hsignal
    exact kept_signal hkept hstep haccepted
  by_cases hexec : ∃ loaded, act = .call slot (.exec (some loaded))
  · obtain ⟨loaded, rfl⟩ := hexec
    obtain ⟨hbefore, hproc⟩ := own_call hstep (.inr ⟨loaded, rfl⟩)
    simp only [hproc, Syscall.own, log, ite_true, established, Proc.established_exec,
      hkept slot hbefore signum haccepted]
  have hunlogged : Unlogged slot act :=
    ⟨fun me kalloc copyuvm heq => hfork ⟨me, kalloc, copyuvm, heq⟩,
      fun returnfn number handler heq => hsignal ⟨returnfn, number, handler, heq⟩,
      fun loaded heq => hexec ⟨loaded, heq⟩⟩
  cases (hmoves slot).changes hlive with
  | kept hbefore hhandlers _ =>
    simp only [hunlogged.log, ← hkept slot hbefore signum haccepted]
    exact Proc.established_congr (congrArg Handlers.allinfo hhandlers) haccepted.lt
  | forked parent hact _ _ _ => exact absurd hact (hunlogged.fork parent true true)
  | signalled returnfn number handler hact _ _ _ => exact absurd hact (hunlogged.signal returnfn number handler)
  | execed loaded hact _ _ _ => exact absurd hact (hunlogged.exec loaded)

theorem Reach.kept (h : Reach traced) : traced.Kept := by
  have hall : Machine.Reach (fun _ _ => True) traced.machine ∧ traced.Kept := by
    refine h.invariant (fun traced => Machine.Reach (fun _ _ => True) traced.machine ∧ traced.Kept) ?_ ?_
    · intro traced hstart
      obtain ⟨memory, hboot⟩ := hstart
      refine ⟨?_, kept_boot hboot⟩
      simp only [boot, map_eq_some_iff] at hboot
      obtain ⟨machine, hmachine, rfl⟩ := hboot
      exact .start machine ⟨memory, hmachine⟩
    · intro traced next act hbefore _ hstep
      obtain ⟨hreach, hkept⟩ := hbefore
      simp only [step, map_eq_some_iff] at hstep
      obtain ⟨machine, hmachine, rfl⟩ := hstep
      exact ⟨.step _ _ act hreach trivial hmachine, kept_step hkept hmachine (step_moves hreach.ok hmachine)⟩
  exact hall.2

end Traced

-- A call that is accepted returns what the history of the process has established last,
-- and one that is refused changes nothing.
theorem signal_returns_established (traced : Traced) (hreach : Traced.Reach traced) (slot : Slot)
    (hlive : (traced.machine.proc slot).Live) (returnfn : Word) (signum : Int) (handler : Word) :
    if 0 < signum ∧ signum ≤ CURRNUM ∧ signum ≠ SIGKILL ∧ signum ≠ SIGSTOP then
      ((traced.machine.proc slot).signal returnfn signum handler).2 =
        (established signum.toNat (traced.history slot)).word
    else (traced.machine.proc slot).signal returnfn signum handler = (traced.machine.proc slot, SIG_ERR) := by
  split_ifs with haccepted
  · have hindex : Accepted signum.toNat := by
      unfold Accepted
      omega
    rw [← hreach.kept slot hlive signum.toNat hindex, ← Proc.prev_eq]
    unfold Proc.signal
    rw [if_neg (by omega), if_neg (by omega)]
    split_ifs <;> rfl
  · unfold Proc.signal
    split_ifs
    · rfl
    · rfl
    · omega
    · omega
    · omega

-- The first process ignores SIGHUP and handles SIGINT, and forks. The child handles SIGTERM,
-- and executes a program: only SIGHUP is still known there.
theorem signal_returns_established_exec : ∃ traced, Traced.Reach traced ∧
    traced.history 1 =
      [.exec, .signal SIGTERM 0x180, .signal SIGINT 0x100, .signal SIGHUP SIG_IGN] ∧
    ((traced.machine.proc 1).signal 0x200 SIGHUP 0x100).2 = SIG_IGN ∧
    ((traced.machine.proc 1).signal 0x200 SIGINT 0x140).2 = SIG_DFL ∧
    (traced.machine.proc 1).signal 0x200 SIGKILL 0x100 = (traced.machine.proc 1, SIG_ERR) := by
  obtain ⟨traced, hreach, hlive, hhistory⟩ : ∃ traced, Traced.Reach traced ∧ (traced.machine.proc 1).Live ∧
      traced.history 1 = [.exec, .signal SIGTERM 0x180, .signal SIGINT 0x100, .signal SIGHUP SIG_IGN] :=
    exists_reach_boot (fun _ => 0)
      [.resume 0, .call 0 (.signal 0x200 SIGHUP SIG_IGN), .call 0 (.signal 0x200 SIGINT 0x100),
        .call 0 (.fork true true), .resume 1, .call 1 (.signal 0x200 SIGTERM 0x180),
        .call 1 (.exec (some ⟨0x4000, 0, 0x3ff0, fun _ => 0⟩))] ⟨_, rfl, _, rfl, by decide, by decide⟩
  refine ⟨traced, hreach, hhistory, ?_, ?_, ?_⟩
  · have hsighup := signal_returns_established traced hreach 1 hlive 0x200 SIGHUP 0x100
    rw [if_pos (by decide), hhistory] at hsighup
    exact hsighup
  · have hsigint := signal_returns_established traced hreach 1 hlive 0x200 SIGINT 0x140
    rw [if_pos (by decide), hhistory] at hsigint
    exact hsigint
  · have hsigkill := signal_returns_established traced hreach 1 hlive 0x200 SIGKILL 0x100
    rwa [if_neg (by decide)] at hsigkill

end Xv6

import Xv6.Psig.Spec
import Xv6.Ptable.Machine

namespace Xv6

open Function

-- How the handlers of a process are recorded.
structure Handlers where
  userdefed : Word
  allinfo : Fin NUMSIG → Handlerinfo
  addrSigreturn : Word

def Proc.handlers (proc : Proc) : Handlers where
  userdefed := proc.userdefed
  allinfo := proc.allinfo
  addrSigreturn := proc.addrSigreturn

theorem Proc.handlers_congr {first second : Proc} (h : first.image = second.image) :
    first.handlers = second.handlers := by
  obtain ⟨-, -, -, -, huserdefed, hallinfo, haddr⟩ := (image_eq_iff first second).mp h
  simp only [handlers, huserdefed, hallinfo, haddr]

-- The signals for which `signal` changes anything.
def Accepted (signum : Nat) : Prop := 0 < signum ∧ signum ≤ CURRNUM ∧ signum ≠ SIGKILL ∧ signum ≠ SIGSTOP

theorem Accepted.lt {signum : Nat} (h : Accepted signum) : signum < NUMSIG :=
  Nat.lt_of_le_of_lt h.2.1 (by decide)

theorem Accepted.update_allinfo {signum : Nat} (h : Accepted signum) (allinfo : Fin NUMSIG → Handlerinfo)
    (info : Handlerinfo) (other : Nat) (hother : other < NUMSIG) (hne : other ≠ signum) :
    Function.update allinfo (Fin.ofNat NUMSIG signum) info (Fin.ofNat NUMSIG other) =
      allinfo (Fin.ofNat NUMSIG other) := by
  refine update_of_ne ?_ _ _
  intro heq
  have hval := congrArg Fin.val heq
  simp only [Fin.val_ofNat, Nat.mod_eq_of_lt hother, Nat.mod_eq_of_lt h.lt] at hval
  exact hne hval

-- A call of `signal` is refused, or it takes a handler away, or it installs one.
theorem Proc.signal_cases (proc : Proc) (returnfn : Word) (signum : Int) (handler : Word) :
    (proc.signal returnfn signum handler).1 = proc ∨
      ∃ index : Nat, signum = index ∧ Accepted index ∧
        (((handler = SIG_IGN ∨ handler = SIG_DFL) ∧ ∃ disposition ≠ .USERDEF,
            (proc.signal returnfn signum handler).1 = proc.reset index disposition) ∨
          (handler ≠ SIG_IGN ∧ handler ≠ SIG_DFL ∧
            (proc.signal returnfn signum handler).1 = proc.install returnfn index handler)) := by
  unfold signal
  split
  · exact .inl rfl
  · split
    · exact .inl rfl
    · rename_i hrange hkill
      refine .inr ⟨signum.toNat, by omega, by unfold Accepted; omega, ?_⟩
      split
      · rename_i hign
        exact .inl ⟨.inl hign, .IGN, by simp, rfl⟩
      · split
        · rename_i hdfl
          exact .inl ⟨.inr hdfl, .DFL, by simp, rfl⟩
        · rename_i hign hdfl
          exact .inr ⟨hign, hdfl, rfl⟩

-- The entry that `allocproc` has found and filled in.
def Proc.allocated (proc : Proc) (pid : Int) : Proc :=
  { proc with state := .EMBRYO, pid, kstack := true, sigpending := 0, justwoken := false }

namespace Ptable

@[simp] theorem proc_update_self (table : Ptable) (slot : Slot) (change : Proc → Proc) :
    (table.update slot change).proc slot = change (table.proc slot) := by
  simp [update]

theorem proc_update_of_ne (table : Ptable) {slot other : Slot} (change : Proc → Proc) (h : other ≠ slot) :
    (table.update slot change).proc other = table.proc other := by
  simp [update, h]

variable {allowed : Event → Prop} {table base next : Ptable} {me np : Slot} {kalloc : Bool}

-- What happens to an entry in a system call is what a process in the kernel has to expect
-- while it is paused; `allowed` says which events they are.
theorem update_events (table : Ptable) (slot other : Slot) (event : Event) (h : other = slot → allowed event) :
    (table.proc other).UndergoesOnly allowed ((table.update slot (Proc.env · event)).proc other) := by
  by_cases heq : other = slot
  · subst heq
    rw [proc_update_self]
    exact .single _ (h rfl)
  · rw [proc_update_of_ne table _ heq]
    exact .refl _

theorem wakeup1_events (table : Ptable) (chan : Chan) (slot : Slot) (h : allowed (.wakeup chan)) :
    (table.proc slot).UndergoesOnly allowed ((table.wakeup1 chan).proc slot) :=
  .single _ h

theorem kill_events (table : Ptable) (pid : Int) (slot : Slot) (h : (table.proc slot).pid = pid → allowed .kill) :
    (table.proc slot).UndergoesOnly allowed ((table.kill pid).1.proc slot) := by
  unfold kill
  split
  · exact .refl _
  · rename_i found hfound
    refine table.update_events found slot .kill ?_
    rintro rfl
    exact h (by simpa using List.find?_some hfound)

-- The scan of `Kill` comes to this entry and sends the signal.
def Reaches (table : Ptable) (stale : Slot → BitVec 16) (me : Slot) (pid : Int) (found : Slot) : Prop :=
  (table.proc found).pid ≠ 1 ∧ (pid = -1 ∨ (1 < pid ∧ (table.proc found).pid = pid)) ∧
    ¬(table.privilege stale found ≠ 3 ∧ table.privilege stale me = 3)

instance (table : Ptable) (stale : Slot → BitVec 16) (me : Slot) (pid : Int) (found : Slot) :
    Decidable (table.Reaches stale me pid found) :=
  inferInstanceAs (Decidable (_ ∧ _ ∧ _))

-- `Kill` for SIGKILL marks the first entry with the pid of the one it has found.
def Sends (table : Ptable) (stale : Slot → BitVec 16) (me : Slot) (pid sig : Int) (slot : Slot) (event : Event) :
    Prop :=
  ∃ found, table.Reaches stale me pid found ∧
    ((sig = SIGKILL ∧ event = .kill ∧ (table.proc slot).pid = (table.proc found).pid) ∨
      (sig ≠ SIGKILL ∧ 0 < sig ∧ sig ≤ CURRNUM ∧ event = .Kill sig.toNat ∧ slot = found))

section

variable (h : ∀ slot, (base.proc slot).Undergoes (table.proc slot))

include h

-- The scan does not change what it looks at.
theorem privilege_congr (stale : Slot → BitVec 16)
    (slot : Slot) : table.privilege stale slot = base.privilege stale slot := by
  have hkstack := ((Proc.standing_eq_iff _ _).mp (h slot).standing).1
  have htf := ((Proc.image_eq_iff _ _).mp (h slot).image).2.2.1
  simp only [privilege, hkstack, htf]

theorem reaches_congr (stale : Slot → BitVec 16) (me : Slot) (pid : Int) (found : Slot) :
    table.Reaches stale me pid found ↔ base.Reaches stale me pid found := by
  have hpid := ((Proc.standing_eq_iff _ _).mp (h found).standing).2.1
  simp only [Reaches, hpid, privilege_congr h]

theorem signalOne_events {stale : Slot → BitVec 16}
    {pid sig : Int} (hsig : 0 < sig ∧ sig ≤ CURRNUM) {found : Slot} (hfound : base.Reaches stale me pid found)
    (slot : Slot) :
    (table.proc slot).UndergoesOnly (base.Sends stale me pid sig slot)
      ((table.signalOne found sig.toNat).proc slot) := by
  have hpid : ∀ slot, (table.proc slot).pid = (base.proc slot).pid :=
    fun slot => ((Proc.standing_eq_iff _ _).mp (h slot).standing).2.1
  unfold signalOne
  split
  · rename_i hkill
    refine table.kill_events _ slot ?_
    intro hsame
    rw [hpid, hpid] at hsame
    exact ⟨found, hfound, .inl ⟨by omega, rfl, hsame⟩⟩
  · rename_i hkill
    have hsame : (Proc.receive · sig.toNat) = (Proc.env · (.Kill sig.toNat)) := by
      funext proc
      have hrange : ¬(sig.toNat = 0 ∨ CURRNUM < sig.toNat) := by omega
      simp only [Proc.env, Proc.signalled, if_neg hrange, if_neg hkill]
    rw [hsame]
    refine table.update_events found slot (.Kill sig.toNat) ?_
    intro heq
    exact ⟨found, hfound, .inr ⟨by omega, hsig.1, hsig.2, rfl, heq⟩⟩

theorem killScan_events (stale : Slot → BitVec 16)
    (me : Slot) {pid sig : Int} (hguard : pid = -1 ∨ 1 < pid) (hsig : 0 < sig ∧ sig ≤ CURRNUM) (targets : List Slot)
    (slot : Slot) :
    (table.proc slot).UndergoesOnly (base.Sends stale me pid sig slot)
      ((table.killScan stale me pid sig.toNat targets).proc slot) := by
  induction targets generalizing table with
  | nil => exact .refl _
  | cons target rest ih =>
    have hone : table.Reaches stale me pid target →
        ∀ slot, (table.proc slot).UndergoesOnly (base.Sends stale me pid sig slot)
          ((table.signalOne target sig.toNat).proc slot) :=
      fun hreaches => signalOne_events h hsig ((reaches_congr h stale me pid target).mp hreaches)
    have hrest := fun hreaches => ih fun slot => (h slot).trans (hone hreaches slot).undergoes
    simp only [killScan]
    split_ifs with hinit hpid hprivilege hall hall
    · exact ih h
    · exact ih h
    · exact .refl _
    · have hreaches : table.Reaches stale me pid target := ⟨hinit, .inl hall, hprivilege⟩
      exact (hone hreaches slot).trans (hrest hreaches)
    · exact hone ⟨hinit, .inr ⟨hguard.resolve_left hall, hpid.resolve_left hall⟩, hprivilege⟩ slot
    · exact ih h

end

theorem Kill_events (table : Ptable) (stale : Slot → BitVec 16) (me : Slot) (pid sig : Int) (slot : Slot) :
    (table.proc slot).UndergoesOnly (table.Sends stale me pid sig slot)
      ((table.Kill stale me pid sig).1.proc slot) := by
  unfold Kill
  split_ifs
  · exact .refl _
  · exact .refl _
  · exact killScan_events (fun slot => .refl _) stale me (by omega) (by omega) slots slot

-- What happens to an entry when this process exits.
def Departs (table : Ptable) (me slot : Slot) (event : Event) : Prop :=
  event = .wakeup (.ofProc (table.proc me).parent) ∨ event = .wakeup (.ofProc table.initproc) ∨
    (event = .reparent table.initproc ∧ (table.proc slot).parent = some me)

theorem Departs.parent {slot : Slot} {proc : Proc} (h : (table.proc slot).UndergoesOnly (table.Departs me slot) proc) :
    proc.parent = (table.proc slot).parent ∨ proc.parent = table.initproc := by
  have hwakeup : ∀ (proc : Proc) chan, (proc.wakeup chan).parent = proc.parent := by
    intro proc chan
    unfold Proc.wakeup
    split <;> rfl
  refine h.invariant (fun proc => proc.parent = (table.proc slot).parent ∨ proc.parent = table.initproc) ?_ (.inl rfl)
  rintro proc event (rfl | rfl | ⟨rfl, -⟩) hproc
  · simpa only [Proc.env, hwakeup] using hproc
  · simpa only [Proc.env, hwakeup] using hproc
  · exact .inr rfl

theorem initproc_abandon (me : Slot) (table : Ptable) (child : Slot) :
    (abandon me table child).initproc = table.initproc := by
  unfold abandon
  dsimp only
  split_ifs <;> rfl

section

variable (hinit : base.initproc ≠ some me)
  (hsame : table.initproc = base.initproc)
  (h : ∀ slot, (base.proc slot).UndergoesOnly (base.Departs me slot) (table.proc slot))

include hinit hsame h

theorem abandon_events (child slot : Slot) :
    (table.proc slot).UndergoesOnly (base.Departs me slot) ((abandon me table child).proc slot) := by
  unfold abandon
  split
  · rename_i hchild
    -- An entry that has got its new parent is not a child of this process any more.
    have hparent : (base.proc child).parent = some me := by
      rcases Departs.parent (h child) with hbefore | hafter
      · exact hbefore.symm.trans hchild
      · exact absurd (hafter.symm.trans hchild) hinit
    have hreparent : (table.proc slot).UndergoesOnly (base.Departs me slot)
        ((table.update child fun proc => { proc with parent := table.initproc }).proc slot) := by
      refine table.update_events child slot (.reparent table.initproc) ?_
      rintro rfl
      exact .inr (.inr ⟨by rw [hsame], hparent⟩)
    dsimp only
    split
    · refine hreparent.trans (wakeup1_events _ _ slot ?_)
      exact .inr (.inl (congrArg (fun parent => Event.wakeup (.ofProc parent)) hsame))
    · exact hreparent
  · exact .refl _

theorem abandon_all_events (children : List Slot) (slot : Slot) :
    (base.proc slot).UndergoesOnly (base.Departs me slot) ((children.foldl (abandon me) table).proc slot) := by
  induction children generalizing table with
  | nil => exact h slot
  | cons child rest ih =>
    have hchild := abandon_events hinit hsame h child
    exact ih ((initproc_abandon me table child).trans hsame) (fun slot => (h slot).trans (hchild slot))

end

theorem exit_events (h : table.exit me = some next) (slot : Slot) :
    ∃ middle, (table.proc slot).UndergoesOnly (table.Departs me slot) middle ∧
      next.proc slot = if slot = me then middle.setState .ZOMBIE else middle := by
  unfold exit at h
  split at h
  · cases h
  · rename_i hinit
    cases h
    refine ⟨_, abandon_all_events hinit ?_ (fun slot => table.wakeup1_events _ slot (.inl rfl)) slots slot, ?_⟩
    · rfl
    · split
      · rename_i heq
        rw [heq, proc_update_self]
      · rename_i hne
        exact proc_update_of_ne _ _ hne

theorem unused_state (h : table.unused = some np) : (table.proc np).state = .UNUSED := by
  simpa using List.find?_some h

theorem allocproc_none (h : table.allocproc kalloc = (next, none)) :
    (table.unused = none ∧ next = table) ∨ ∃ np, table.unused = some np ∧ kalloc = false ∧
      next.proc = Function.update table.proc np
        { table.proc np with pid := table.nextpid, kstack := false, state := .UNUSED } ∧
      next.nextpid = table.nextpid + 1 ∧ next.initproc = table.initproc := by
  unfold allocproc at h
  split at h
  · rename_i hnone
    cases h
    exact .inl ⟨hnone, rfl⟩
  · rename_i np hnp
    dsimp only at h
    split at h
    · cases h
    · rename_i hkalloc
      cases h
      refine .inr ⟨np, hnp, Bool.eq_false_iff.mpr hkalloc, ?_, rfl, rfl⟩
      simp [update]

theorem allocproc_some (h : table.allocproc kalloc = (next, some np)) : kalloc = true ∧ table.unused = some np ∧
      next.proc = Function.update table.proc np ((table.proc np).allocated table.nextpid) ∧
      next.nextpid = table.nextpid + 1 ∧ next.initproc = table.initproc := by
  unfold allocproc at h
  split at h
  · cases h
  · rename_i slot hslot
    dsimp only at h
    split at h
    · rename_i hkalloc
      cases h
      refine ⟨hkalloc, hslot, ?_, rfl, rfl⟩
      simp [update, Proc.allocated]
    · cases h

-- The first process is the only one.
theorem userinit_eq {memory : Memory} (h : zero.userinit memory = some table) :
    (∀ slot, table.proc slot = if slot = 0 then (Proc.zero.allocated 1).initcode memory else .zero) ∧
      table.nextpid = 2 ∧ table.initproc = some 0 := by
  have hfirst : zero.unused = some 0 := by rfl
  unfold userinit at h
  split at h
  · cases h
  · rename_i next first halloc
    obtain ⟨-, hnp, hproc, hnextpid, -⟩ := allocproc_some halloc
    obtain rfl : 0 = first := Option.some.inj (hfirst.symm.trans hnp)
    cases h
    refine ⟨?_, hnextpid, rfl⟩
    intro slot
    split
    · rename_i heq
      subst heq
      simp only [proc_update_self, hproc, update_self]
      rfl
    · rename_i hne
      simp only [proc_update_of_ne _ _ hne, hproc, update_of_ne hne]
      rfl

-- The two variables next to the table. Only `allocproc` changes one of them.
def globals (table : Ptable) : Int × Option Slot := (table.nextpid, table.initproc)

theorem globals_update (table : Ptable) (slot : Slot) (change : Proc → Proc) :
    (table.update slot change).globals = table.globals := rfl

theorem globals_kill (table : Ptable) (pid : Int) : (table.kill pid).1.globals = table.globals := by
  unfold kill
  split <;> rfl

theorem globals_killScan (table : Ptable) (stale : Slot → BitVec 16) (me : Slot) (pid : Int) (sig : Nat)
    (targets : List Slot) : (table.killScan stale me pid sig targets).globals = table.globals := by
  have hone : ∀ table : Ptable, ∀ slot, (table.signalOne slot sig).globals = table.globals := by
    intro table slot
    unfold signalOne
    split
    · exact table.globals_kill _
    · rfl
  induction targets generalizing table with
  | nil => rfl
  | cons target rest ih =>
    simp only [killScan]
    split_ifs <;> simp only [ih, hone]

theorem globals_Kill (table : Ptable) (stale : Slot → BitVec 16) (me : Slot) (pid sig : Int) :
    (table.Kill stale me pid sig).1.globals = table.globals := by
  unfold Kill
  split_ifs
  · rfl
  · rfl
  · exact table.globals_killScan stale me pid _ slots

theorem globals_exit (h : table.exit me = some next) : next.globals = table.globals := by
  have habandon : ∀ (children : List Slot) (table : Ptable),
      (children.foldl (abandon me) table).globals = table.globals := by
    intro children
    induction children with
    | nil => exact fun _ => rfl
    | cons child rest ih =>
      intro table
      refine (ih _).trans ?_
      unfold abandon
      dsimp only
      split_ifs <;> rfl
  unfold exit at h
  split at h
  · cases h
  · cases h
    rw [globals_update, habandon]
    rfl

theorem globals_wait (table : Ptable) (me : Slot) : (table.wait me).1.globals = table.globals := by
  unfold wait
  split
  · rfl
  · split <;> rfl

theorem fork_nextpid (table : Ptable) (me : Slot) (kalloc copyuvm : Bool) :
    (table.fork me kalloc copyuvm).1.initproc = table.initproc ∧
      (table.fork me kalloc copyuvm).1.nextpid = if table.unused = none then table.nextpid else table.nextpid + 1 := by
  unfold fork
  split
  · rename_i next halloc
    rcases allocproc_none halloc with ⟨hnone, rfl⟩ | ⟨np, hnp, -, -, hnextpid, hinitproc⟩
    · simp [hnone]
    · simp [hnp, hnextpid, hinitproc]
  · rename_i next np halloc
    obtain ⟨-, hnp, -, hnextpid, hinitproc⟩ := allocproc_some halloc
    split <;> simp [update, hnp, hnextpid, hinitproc]

-- What `fork` does to an entry: it is the child, or it was to be, or nothing has happened to it.
inductive Forks (table : Ptable) (me : Slot) (kalloc copyuvm : Bool) (slot : Slot) (after : Proc) : Prop
  | child (hchild : table.child kalloc copyuvm = some slot)
      (hproc : after = (((table.proc slot).allocated table.nextpid).copyFrom (table.proc me) me).setState .RUNNABLE)
  | failed (hchild : table.child kalloc copyuvm = none) (hunused : table.unused = some slot) (sigpending : Word)
      (justwoken : Bool)
      (hproc : after =
        { table.proc slot with
          pid := table.nextpid
          kstack := false
          state := .UNUSED
          sigpending
          justwoken })
  | other (hchild : table.child kalloc copyuvm ≠ some slot) (hproc : after = table.proc slot)

theorem child_eq_some {copyuvm : Bool} (h : table.child kalloc copyuvm = some np) :
    kalloc = true ∧ copyuvm = true ∧ table.unused = some np := by
  obtain ⟨hboth, hnp⟩ : (kalloc && copyuvm) = true ∧ table.unused = some np := by
    simpa only [child, Option.ite_none_right_eq_some] using h
  obtain ⟨hkalloc, hcopyuvm⟩ := Bool.and_eq_true_iff.mp hboth
  exact ⟨hkalloc, hcopyuvm, hnp⟩

theorem fork_forks (table : Ptable) (hme : (table.proc me).Live) (kalloc copyuvm : Bool) (slot : Slot) :
    Forks table me kalloc copyuvm slot ((table.fork me kalloc copyuvm).1.proc slot) := by
  unfold fork
  split
  · rename_i next halloc
    rcases allocproc_none halloc with ⟨hnone, rfl⟩ | ⟨np, hnp, rfl, hproc, -, -⟩
    · exact .other (by simp [child, hnone]) rfl
    · simp only [hproc]
      by_cases heq : slot = np
      · subst heq
        rw [update_self]
        exact .failed (by simp [child]) hnp _ _ rfl
      · rw [update_of_ne heq]
        exact .other (by simp [child]) rfl
  · rename_i next np halloc
    obtain ⟨rfl, hnp, hproc, -, -⟩ := allocproc_some halloc
    have hne : me ≠ np := by
      rintro rfl
      simp [Proc.Live, unused_state hnp] at hme
    by_cases heq : slot = np
    · subst heq
      cases copyuvm with
      | true =>
        rw [if_pos rfl, proc_update_self, hproc, update_self, update_of_ne hne]
        exact .child (by simp [child, hnp]) rfl
      | false =>
        rw [if_neg (by simp), proc_update_self, hproc, update_self]
        exact .failed (by simp [child]) hnp _ _ rfl
    · have hother : next.proc slot = table.proc slot := by rw [hproc, update_of_ne heq]
      refine .other ?_ ?_
      · intro hchild
        exact heq (Option.some.inj ((child_eq_some hchild).2.2.symm.trans hnp))
      · split <;> rw [proc_update_of_ne _ _ heq, hother]

-- What `wait` does to an entry.
inductive WaitsFor (table : Ptable) (me slot : Slot) (after : Proc) (waited : Waited) : Prop
  | freed (hzombie : (table.proc slot).state = .ZOMBIE) (hparent : (table.proc slot).parent = some me)
      (hproc : after = (table.proc slot).freed) (hwaited : waited = .found (table.proc slot).pid)
  | sleeps (hself : slot = me) (hproc : after = { table.proc me with chan := .proc me, state := .SLEEPING })
      (hwaited : waited = .sleeps)
  | other (hproc : after = table.proc slot) (hwaited : slot = me → waited ≠ .sleeps)

theorem wait_waitsFor (table : Ptable) (me slot : Slot) :
    WaitsFor table me slot ((table.wait me).1.proc slot) (table.wait me).2 := by
  unfold wait
  split
  · rename_i child hchild
    by_cases heq : slot = child
    · subst heq
      have hfound := List.find?_some hchild
      simp only [decide_eq_true_eq] at hfound
      exact .freed hfound.2 hfound.1 (proc_update_self _ _ _) rfl
    · exact .other (proc_update_of_ne _ _ heq) (by simp)
  · split
    · exact .other rfl (by simp)
    · by_cases heq : slot = me
      · subst heq
        exact .sleeps rfl (by rw [proc_update_self]) rfl
      · exact .other (by rw [proc_update_of_ne _ _ heq]) (fun hself => absurd hself heq)

end Ptable

end Xv6

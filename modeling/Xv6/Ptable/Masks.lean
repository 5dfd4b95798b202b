import Xv6.Ptable.Pids

namespace Xv6

open List Machine Mask

-- The calls that may change a signal mask.
inductive MaskCall where
  | sigsetmask (mask : Word)
  | sigblock (sig : Int)
  | sigunblock (sig : Int)
  deriving DecidableEq, Repr

-- The bits that are never set in a mask.
def unblockable : List Nat := [0, SIGKILL, SIGCONT, SIGSTOP]

def Mask.Clear (mask : Word) : Prop := ∀ signum ∈ unblockable, Mask.has mask signum = false

instance (mask : Word) : Decidable (Mask.Clear mask) := inferInstanceAs (Decidable (∀ _ ∈ _, _))

-- What the calls are for: a mask that is accepted replaces the old one, a signal is blocked or
-- unblocked, and all else changes nothing.
def MaskCall.apply : MaskCall → Word → Word
  | .sigsetmask mask, old => if Mask.Clear mask then mask else old
  | .sigblock sig, old =>
    if 0 < sig ∧ sig ≤ CURRNUM ∧ sig ≠ SIGKILL ∧ sig ≠ SIGSTOP ∧ sig ≠ SIGCONT then Mask.set old sig.toNat
    else old
  | .sigunblock sig, old =>
    if 0 < sig ∧ sig ≤ CURRNUM ∧ sig ≠ SIGKILL ∧ sig ≠ SIGSTOP then Mask.clear old sig.toNat else old

def Syscall.mask : Syscall → List MaskCall
  | .sigsetmask mask => [.sigsetmask mask]
  | .sigblock sig => [.sigblock sig]
  | .sigunblock sig => [.sigunblock sig]
  | _ => []

theorem Mask.Clear.set {mask : Word} (h : Mask.Clear mask) {sig : Nat} (hrange : 0 < sig ∧ sig ≤ CURRNUM)
    (hsig : sig ≠ SIGKILL ∧ sig ≠ SIGSTOP ∧ sig ≠ SIGCONT) : Mask.Clear (Mask.set mask sig) := by
  intro signum hsignum
  have hlt : sig < 32 := Nat.lt_of_le_of_lt hrange.2 (by decide)
  have hne : signum % 32 ≠ sig % 32 := by
    simp only [unblockable, mem_cons, not_mem_nil, or_false] at hsignum
    rw [Nat.mod_eq_of_lt hlt]
    rcases hsignum with rfl | rfl | rfl | rfl
    · exact fun heq => absurd heq.symm (by omega)
    · exact fun heq => hsig.1 heq.symm
    · exact fun heq => hsig.2.2 heq.symm
    · exact fun heq => hsig.2.1 heq.symm
  simp [has_set, h signum hsignum, hne]

theorem Mask.Clear.clear {mask : Word} (h : Mask.Clear mask) (sig : Nat) : Mask.Clear (Mask.clear mask sig) := by
  intro signum hsignum
  simp [has_clear, h signum hsignum]

theorem MaskCall.apply_clear (call : MaskCall) {old : Word} (h : Mask.Clear old) : Mask.Clear (call.apply old) := by
  cases call with
  | sigsetmask mask =>
    simp only [apply]
    split
    · assumption
    · exact h
  | sigblock sig =>
    simp only [apply]
    split
    · exact h.set (by omega) (by omega)
    · exact h
  | sigunblock sig =>
    simp only [apply]
    split
    · exact h.clear _
    · exact h

variable {proc : Proc}

namespace Proc

theorem sigsetmask_eq (proc : Proc) (mask : Word) : proc.sigsetmask mask =
    if Mask.Clear mask then ({ proc with sigblocked := mask }, mask) else (proc, 0) := by
  have hclear : Mask.Clear mask ↔ ¬(has mask SIGKILL ∨ has mask SIGSTOP ∨ has mask SIGCONT) ∧ ¬has mask 0 := by
    simp only [Mask.Clear, unblockable, mem_cons, not_mem_nil, or_false, forall_eq_or_imp, forall_eq]
    simp only [Bool.not_eq_true, not_or]
    tauto
  unfold sigsetmask
  by_cases hthree : has mask SIGKILL ∨ has mask SIGSTOP ∨ has mask SIGCONT
  · rw [if_pos hthree, if_neg fun h => (hclear.mp h).1 hthree]
  · rw [if_neg hthree]
    by_cases hzero : has mask 0
    · rw [if_pos hzero, if_neg fun h => (hclear.mp h).2 hzero]
    · rw [if_neg hzero, if_pos (hclear.mpr ⟨hthree, hzero⟩)]

-- With the bits clear, the call of `sigsetmask` inside is not refused.
theorem sigblock_eq (h : Mask.Clear proc.sigblocked) {sig : Int} (hrange : 0 < sig ∧ sig ≤ CURRNUM)
    (hsig : sig ≠ SIGKILL ∧ sig ≠ SIGSTOP ∧ sig ≠ SIGCONT) : proc.sigblock sig =
      ({ proc with sigblocked := Mask.set proc.sigblocked sig.toNat }, Mask.set proc.sigblocked sig.toNat) := by
  have hset : Mask.Clear (Mask.set proc.sigblocked sig.toNat) := h.set (by omega) (by omega)
  unfold sigblock
  rw [if_neg (by omega), if_neg (by tauto), sigsetmask_eq, siggetmask, if_pos hset]

theorem sigunblock_eq (h : Mask.Clear proc.sigblocked) {sig : Int} (hrange : 0 < sig ∧ sig ≤ CURRNUM)
    (hsig : sig ≠ SIGKILL ∧ sig ≠ SIGSTOP) : proc.sigunblock sig =
      ({ proc with sigblocked := Mask.clear proc.sigblocked sig.toNat }, Mask.clear proc.sigblocked sig.toNat) := by
  have hclear : Mask.Clear (Mask.clear proc.sigblocked sig.toNat) := h.clear _
  unfold sigunblock
  rw [if_neg (by omega), if_neg (by tauto), sigsetmask_eq, siggetmask, if_pos hclear]

end Proc

theorem Syscall.own_sigblocked (syscall : Syscall) (h : Mask.Clear proc.sigblocked) :
    (syscall.own proc).sigblocked = syscall.mask.foldl (fun mask call => call.apply mask) proc.sigblocked := by
  cases syscall with
  | sigsetmask word =>
    simp only [own, mask, Proc.sigsetmask_eq, foldl_cons, foldl_nil, MaskCall.apply]
    split <;> rfl
  | sigblock sig =>
    simp only [own, mask, foldl_cons, foldl_nil, MaskCall.apply]
    split
    · rename_i hsig
      rw [Proc.sigblock_eq h ⟨hsig.1, hsig.2.1⟩ hsig.2.2]
    · unfold Proc.sigblock
      split_ifs
      · rfl
      · rfl
      · omega
  | sigunblock sig =>
    simp only [own, mask, foldl_cons, foldl_nil, MaskCall.apply]
    split
    · rename_i hsig
      rw [Proc.sigunblock_eq h ⟨hsig.1, hsig.2.1⟩ hsig.2.2]
    · unfold Proc.sigunblock
      split_ifs
      · rfl
      · rfl
      · omega
  | exec loaded => cases loaded <;> rfl
  | signal returnfn signum handler =>
    simp only [own, Proc.signal]
    split_ifs <;> rfl
  | fork kalloc copyuvm => rfl
  | exit => rfl
  | wait => rfl
  | kill pid => rfl
  | Kill stale pid sig => rfl
  | raise stale sig => rfl

-- The machine together with the mask calls in the history of each process: those of its
-- parent up to the `fork`, then its own.
structure Recorded where
  machine : Machine
  calls : Slot → List MaskCall

namespace Recorded

def record (recorded : Recorded) : Act → Slot → List MaskCall
  | .call me (.fork kalloc copyuvm), slot =>
    if recorded.machine.table.child kalloc copyuvm = some slot then recorded.calls me else recorded.calls slot
  | .call me syscall, slot =>
    if slot = me then recorded.calls slot ++ syscall.mask else recorded.calls slot
  | _, slot => recorded.calls slot

def step (recorded : Recorded) (act : Act) : Option Recorded :=
  (recorded.machine.step act).map fun next => ⟨next, recorded.record act⟩

def boot (memory : Memory) : Option Recorded := (Machine.boot memory).map fun machine => ⟨machine, fun _ => []⟩

abbrev Reach : Recorded → Prop :=
  Xv6.Reach step (fun _ _ => True) (fun recorded => ∃ memory, boot memory = some recorded)

variable {recorded : Recorded} {act : Act} {slot : Slot}

theorem Reach.machine (h : Reach recorded) : Machine.Reach (fun _ _ => True) recorded.machine := by
  refine h.invariant (fun recorded => Machine.Reach (fun _ _ => True) recorded.machine) ?_ ?_
  · rintro recorded ⟨memory, hboot⟩
    simp only [boot, Option.map_eq_some_iff] at hboot
    obtain ⟨machine, hmachine, rfl⟩ := hboot
    exact .start machine ⟨memory, hmachine⟩
  · intro recorded next act hreach _ hstep
    simp only [step, Option.map_eq_some_iff] at hstep
    obtain ⟨machine, hmachine, rfl⟩ := hstep
    exact .step _ _ act hreach trivial hmachine

def mask (recorded : Recorded) (slot : Slot) : Word :=
  (recorded.calls slot).foldl (fun mask call => call.apply mask) 0

structure Masked (recorded : Recorded) (slot : Slot) : Prop where
  clear : Mask.Clear (recorded.machine.proc slot).sigblocked
  exact : (recorded.machine.proc slot).Live → (recorded.machine.proc slot).sigblocked = recorded.mask slot

variable {next : Machine} {syscall : Syscall} {me : Slot}

-- A step that is not a mask call leaves the mask of a process alone, or the process is new and has
-- the mask of its parent, or its entry is free.
theorem moves_sigblocked {machine : Machine} (h : Machine.Moves machine act next slot)
    (hclear : Mask.Clear (machine.proc slot).sigblocked)
    (hcall : ∀ me syscall, act = .call me syscall → syscall.mask = []) :
    ((next.proc slot).sigblocked = (machine.proc slot).sigblocked ∧
        ((next.proc slot).Live → (machine.proc slot).Live)) ∨
      (∃ parent, act = .call parent (.fork true true) ∧ machine.runs parent = true ∧
        machine.table.unused = some slot ∧ (next.proc slot).sigblocked = (machine.proc parent).sigblocked) ∨
      ((next.proc slot).sigblocked = 0 ∧ ¬(next.proc slot).Live) := by
  cases h with
  | events hproc =>
    have hundergoes := hproc.undergoes
    exact .inl ⟨((Proc.image_eq_iff _ _).mp hundergoes.image).2.2.2.1, hundergoes.live_iff.mp⟩
  | created parent hact hruns hunused hproc => exact .inr (.inl ⟨parent, hact, hruns, hunused, by rw [hproc]; rfl⟩)
  | failed parent kalloc copyuvm hact hunused sigpending justwoken hproc =>
    exact .inl ⟨by rw [hproc], by simp [hproc, Proc.Live]⟩
  | freed parent hact hzombie hparent hproc =>
    exact .inr (.inr ⟨by rw [hproc]; rfl, by simp [hproc, Proc.Live, Proc.freed]⟩)
  | exited hact hruns middle hmiddle hproc =>
    refine .inl ⟨?_, fun _ => live_of_runs hruns⟩
    rw [hproc]
    exact ((Proc.image_eq_iff _ _).mp hmiddle.undergoes.image).2.2.2.1
  | own hown =>
    refine .inl ⟨?_, fun _ => hown.live⟩
    cases hown with
    | called syscall hact hruns hproc =>
      rw [hproc, syscall.own_sigblocked hclear, hcall slot syscall hact]
      rfl
    | ran user hact hruns hproc => rw [hproc]
    | placed state hstate hlive hbefore hproc => rw [hproc]; rfl
    | awoken hstate hproc => rw [hproc]
    | asleep chan hchan hlive hproc => rw [hproc]
  | psig start caller cpu computation hstart hkeeps hcpu hcalled hmeets hfixes hnext =>
    subst hnext
    exact .inl ⟨(after_fixed hcpu hfixes).2.2, fun _ => hkeeps.live hstart⟩

theorem mask_call {machine : Machine} (hmask : syscall.mask ≠ []) (h : machine.step (.call me syscall) = some next) :
    machine.runs me = true ∧ next = machine.update me syscall.own := by
  simp only [Machine.step, Option.ite_none_right_eq_some] at h
  cases syscall with
  | sigsetmask word | sigblock sig | sigunblock sig =>
    simp only [Machine.syscall, Option.some.injEq] at h
    exact ⟨h.1, h.2.symm⟩
  | _ => exact absurd rfl hmask

theorem record_call (hfork : ∀ kalloc copyuvm, syscall ≠ .fork kalloc copyuvm) :
    recorded.record (.call me syscall) slot =
      if slot = me then recorded.calls slot ++ syscall.mask else recorded.calls slot := by
  cases syscall with
  | fork kalloc copyuvm => exact absurd rfl (hfork kalloc copyuvm)
  | _ => rfl

theorem step_mask_call {machine : Machine} (hmask : syscall.mask ≠ []) (hmasked : ∀ slot, Masked recorded slot)
    (h : recorded.machine.step (.call me syscall) = some machine) (slot : Slot) :
    Masked ⟨machine, recorded.record (.call me syscall)⟩ slot := by
  have hfork : ∀ kalloc copyuvm, syscall ≠ .fork kalloc copyuvm := by
    rintro kalloc copyuvm rfl
    exact hmask rfl
  obtain ⟨hruns, rfl⟩ := mask_call hmask h
  have hbefore := hmasked slot
  by_cases heq : slot = me
  · subst heq
    have hproc : (recorded.machine.update slot syscall.own).proc slot = syscall.own (recorded.machine.proc slot) :=
      recorded.machine.proc_update_self slot syscall.own
    have hsigblocked := syscall.own_sigblocked hbefore.clear
    constructor
    · simp only [hproc, hsigblocked]
      refine List.foldlRecOn syscall.mask _ hbefore.clear ?_
      intro mask hmask call _
      exact call.apply_clear hmask
    · intro _
      simp only [hproc, hsigblocked, mask, record_call hfork, ite_true, foldl_append]
      rw [hbefore.exact (live_of_runs hruns)]
      rfl
  · have hproc : (recorded.machine.update me syscall.own).proc slot = recorded.machine.proc slot :=
      recorded.machine.proc_update_of_ne syscall.own heq
    constructor
    · simpa only [hproc] using hbefore.clear
    · simpa only [hproc, mask, record_call hfork, if_neg heq] using hbefore.exact

-- What is recorded in a step that is no mask call.
theorem record_of_ne (hcall : ∀ me syscall, act = .call me syscall → syscall.mask = [])
    (hchild : ∀ me kalloc copyuvm, act = .call me (.fork kalloc copyuvm) →
      recorded.machine.table.child kalloc copyuvm ≠ some slot) : recorded.record act slot = recorded.calls slot := by
  cases act with
  | call me syscall =>
    by_cases hfork : ∃ kalloc copyuvm, syscall = .fork kalloc copyuvm
    · obtain ⟨kalloc, copyuvm, rfl⟩ := hfork
      exact if_neg (hchild me kalloc copyuvm rfl)
    · rw [record_call fun kalloc copyuvm heq => hfork ⟨kalloc, copyuvm, heq⟩, hcall me syscall rfl,
        append_nil, ite_self]
  | _ => rfl

theorem step_other {machine : Machine} (hcall : ∀ me syscall, act = .call me syscall → syscall.mask = [])
    (hmasked : ∀ slot, Masked recorded slot) (hmoves : Machine.Moves recorded.machine act machine slot) :
    Masked ⟨machine, recorded.record act⟩ slot := by
  have hbefore := hmasked slot
  rcases moves_sigblocked hmoves hbefore.clear hcall with
    ⟨hsame, hlive⟩ | ⟨parent, rfl, hruns, hunused, hparent⟩ | ⟨hzero, hdead⟩
  · refine ⟨by simpa only [hsame] using hbefore.clear, ?_⟩
    intro hafter
    -- A process that was alive is not the child of a `fork`.
    have hchild : ∀ me kalloc copyuvm, act = .call me (.fork kalloc copyuvm) →
        recorded.machine.table.child kalloc copyuvm ≠ some slot := by
      intro me kalloc copyuvm _ hchild
      exact (hlive hafter).not_unused (Ptable.unused_state (Ptable.child_eq_some hchild).2.2)
    simp only [hsame, mask, record_of_ne hcall hchild]
    exact hbefore.exact (hlive hafter)
  · refine ⟨by simpa only [hparent] using (hmasked parent).clear, ?_⟩
    intro _
    have hchild : recorded.machine.table.child true true = some slot := by simp [Ptable.child, hunused]
    simp only [hparent, mask, record, hchild, ite_true]
    exact (hmasked parent).exact (live_of_runs hruns)
  · refine ⟨?_, fun hafter => absurd hafter hdead⟩
    simp only [hzero]
    intro signum _
    exact has_zero signum

theorem Reach.masked (h : Reach recorded) (slot : Slot) : Masked recorded slot := by
  have hall : Machine.Reach (fun _ _ => True) recorded.machine ∧ ∀ slot, Masked recorded slot := by
    refine h.invariant (fun recorded => Machine.Reach (fun _ _ => True) recorded.machine ∧
      ∀ slot, Masked recorded slot) ?_ ?_
    · rintro recorded hstart
      refine ⟨Reach.machine (.start recorded hstart), ?_⟩
      obtain ⟨memory, hboot⟩ := hstart
      simp only [boot, Option.map_eq_some_iff] at hboot
      obtain ⟨machine, hmachine, rfl⟩ := hboot
      have hzero : ∀ slot, (machine.proc slot).sigblocked = 0 := by
        intro slot
        rw [(boot_eq hmachine).1]
        split <;> rfl
      intro slot
      refine ⟨?_, fun _ => hzero slot⟩
      simp only [hzero]
      exact fun signum _ => has_zero signum
    · rintro recorded next act ⟨hreach, hmasked⟩ - hstep
      simp only [step, Option.map_eq_some_iff] at hstep
      obtain ⟨machine, hmachine, rfl⟩ := hstep
      refine ⟨.step _ _ act hreach trivial hmachine, ?_⟩
      intro slot
      by_cases hcall : ∀ me syscall, act = .call me syscall → syscall.mask = []
      · exact step_other hcall hmasked (step_moves hreach.ok hmachine slot)
      · push Not at hcall
        obtain ⟨me, syscall, rfl, hmask⟩ := hcall
        exact step_mask_call hmask hmasked hmachine slot
  exact hall.2 slot

end Recorded

-- In all entries the four bits are clear; what `siggetmask` returns is made up of the calls in the
-- history of the process; and no call of `sigsetmask` inside another call is refused.
theorem masks_exact (recorded : Recorded) (hreach : Recorded.Reach recorded) (slot : Slot) :
    (∀ signum ∈ unblockable, Mask.has (recorded.machine.proc slot).sigblocked signum = false) ∧
      ((recorded.machine.proc slot).Live → (recorded.machine.proc slot).siggetmask =
        (recorded.calls slot).foldl (fun mask call => call.apply mask) 0) ∧
      ∀ sig : Int, 0 < sig → sig ≤ CURRNUM → sig ≠ SIGKILL → sig ≠ SIGSTOP →
        (sig ≠ SIGCONT → (recorded.machine.proc slot).sigsetmask
            (Mask.set (recorded.machine.proc slot).siggetmask sig.toNat) =
          ({ recorded.machine.proc slot with
              sigblocked := Mask.set (recorded.machine.proc slot).sigblocked sig.toNat },
            Mask.set (recorded.machine.proc slot).sigblocked sig.toNat)) ∧
        (recorded.machine.proc slot).sigsetmask
            (Mask.clear (recorded.machine.proc slot).siggetmask sig.toNat) =
          ({ recorded.machine.proc slot with
              sigblocked := Mask.clear (recorded.machine.proc slot).sigblocked sig.toNat },
            Mask.clear (recorded.machine.proc slot).sigblocked sig.toNat) := by
  obtain ⟨hclear, hexact⟩ := hreach.masked slot
  refine ⟨hclear, hexact, ?_⟩
  intro sig hpos hle hkill hstop
  constructor
  · intro hcont
    rw [Proc.sigsetmask_eq, Proc.siggetmask, if_pos (hclear.set (by omega) (by omega))]
  · rw [Proc.sigsetmask_eq, Proc.siggetmask, if_pos (hclear.clear _)]

-- SIGKILL cannot be blocked; the child has the mask of its parent and unblocks SIGHUP.
theorem masks_exact_fork : ∃ recorded, Recorded.Reach recorded ∧
    recorded.calls 1 = [.sigblock SIGHUP, .sigblock SIGINT, .sigsetmask (bit SIGKILL), .sigunblock SIGHUP] ∧
      (recorded.machine.proc 1).siggetmask = (recorded.calls 1).foldl (fun mask call => call.apply mask) 0 := by
  obtain ⟨recorded, hreach, hlive, hcalls⟩ : ∃ recorded, Recorded.Reach recorded ∧
      (recorded.machine.proc 1).Live ∧ recorded.calls 1 =
        [.sigblock SIGHUP, .sigblock SIGINT, .sigsetmask (bit SIGKILL), .sigunblock SIGHUP] :=
    exists_reach_boot (fun _ => 0)
      [.resume 0, .call 0 (.sigblock SIGHUP), .call 0 (.sigblock SIGINT), .call 0 (.fork true true), .resume 1,
        .call 1 (.sigsetmask (bit SIGKILL)), .call 1 (.sigunblock SIGHUP)] ⟨_, rfl, _, rfl, by decide, by decide⟩
  exact ⟨recorded, hreach, hcalls, (masks_exact recorded hreach 1).2.1 hlive⟩

end Xv6

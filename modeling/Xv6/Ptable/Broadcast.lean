import Xv6.Ptable.Pids

namespace Xv6

open List

namespace Proc

-- What a signal does to the entry it is sent to, SIGKILL included.
def struck (proc : Proc) (sig : Nat) : Proc := if sig = SIGKILL then proc.kill else proc.receive sig

theorem struck_eq_env (sig : Nat) (hsig : 0 < sig ∧ sig ≤ CURRNUM) : (struck · sig) = (env · (.Kill sig)) := by
  funext proc
  have hrange : ¬(sig = 0 ∨ CURRNUM < sig) := by omega
  simp only [struck, env, signalled, if_neg hrange]

theorem kill_kill (proc : Proc) : proc.kill.kill = proc.kill := by
  simp only [kill]
  split_ifs <;> simp_all

theorem cont_of_state {proc : Proc} (h : proc.state ≠ .SLEEPING) : proc.cont = proc := by simp [cont, h]

theorem state_cont_ne (proc : Proc) : proc.cont.state ≠ .SLEEPING := by
  unfold cont
  split <;> simp_all

theorem setPending_setPending (proc : Proc) (signum : Nat) :
    (proc.setPending signum).setPending signum = proc.setPending signum := by
  simp [setPending, Mask.set, BitVec.or_assoc]

-- Sending a signal twice is the same as sending it once.
theorem struck_struck (proc : Proc) (sig : Nat) : (proc.struck sig).struck sig = proc.struck sig := by
  have hdisposition : ∀ signum, (proc.receive sig).disposition signum = proc.disposition signum := by
    intro signum
    refine disposition_congr ?_ signum
    unfold receive
    split_ifs <;> simp
  unfold struck
  split
  · exact proc.kill_kill
  · rw [receive.eq_def (proc.receive sig), hdisposition, hdisposition, hdisposition]
    unfold receive
    split_ifs
    · rfl
    · have hawake : (proc.cont.setPending sig).state ≠ .SLEEPING := proc.state_cont_ne
      rw [cont_of_state hawake, setPending_setPending]
    · rw [cont_of_state proc.state_cont_ne]
    · exact proc.setPending_setPending sig
    · rfl

-- The entry is already as the signal would leave it.
def Immune (proc : Proc) (sig : Nat) : Prop :=
  if sig = SIGKILL then proc.killed = true ∧ proc.state ≠ .SLEEPING
  else if sig = SIGCHLD ∧ proc.disposition SIGCHLD = .DFL then True
  else if sig = SIGCONT then
    proc.state ≠ .SLEEPING ∧ (proc.disposition SIGCONT = .USERDEF → proc.pending SIGCONT = true)
  else proc.disposition sig = .IGN ∨ proc.pending sig = true

theorem kill_eq_self_iff (proc : Proc) : proc.kill = proc ↔ proc.killed = true ∧ proc.state ≠ .SLEEPING := by
  rcases proc with ⟨⟩
  simp only [kill, Proc.mk.injEq]
  split_ifs <;> simp_all [eq_comm]

theorem cont_eq_self_iff (proc : Proc) : proc.cont = proc ↔ proc.state ≠ .SLEEPING :=
  ⟨fun h => h ▸ proc.state_cont_ne, cont_of_state⟩

theorem setPending_eq_self_iff (proc : Proc) (signum : Nat) :
    proc.setPending signum = proc ↔ proc.pending signum = true := by
  rw [pending, ← Mask.set_eq_self_iff]
  constructor
  · intro h
    exact congrArg sigpending h
  · intro h
    simp only [setPending, h]

theorem struck_eq_self_iff (proc : Proc) {sig : Nat} (hsig : 0 < sig) : proc.struck sig = proc ↔ proc.Immune sig := by
  unfold struck Immune receive
  split_ifs with hkill hchild hcont huser hignored
  · exact proc.kill_eq_self_iff
  · simp
  · have hdisposition : proc.disposition SIGCONT = .USERDEF := by
      cases hdisp : proc.disposition SIGCONT <;> simp_all
    have hstate : proc.cont.setPending sig = proc → proc.state ≠ .SLEEPING :=
      fun h => (congrArg state h) ▸ proc.state_cont_ne
    subst hcont
    constructor
    · intro h
      have hawake := hstate h
      rw [cont_of_state hawake, setPending_eq_self_iff] at h
      exact ⟨hawake, fun _ => h⟩
    · rintro ⟨hawake, hpending⟩
      rw [cont_of_state hawake, setPending_eq_self_iff]
      exact hpending hdisposition
  · have hdisposition : proc.disposition SIGCONT ≠ .USERDEF := fun h => huser (by simp [h])
    simp [cont_eq_self_iff, hdisposition]
  · rw [setPending_eq_self_iff, or_iff_right hignored.1]
  · have hdisposition : proc.disposition sig = .IGN := by
      by_contra hne
      exact hignored ⟨hne, hsig.ne'⟩
    simp [hdisposition]

end Proc

variable {slot : Slot}

namespace Ptable

-- The entry that `Kill` changes when its scan has come to this one.
def hit (table : Ptable) (sig : Nat) (slot : Slot) : Slot :=
  if sig = SIGKILL then (slots.find? fun other => (table.proc other).pid = (table.proc slot).pid).getD slot
  else slot

-- The signal is sent to these entries, one after the other.
def strike (table : Ptable) (sig : Nat) (targets : List Slot) : Ptable :=
  targets.foldl (fun table slot => table.update slot (Proc.struck · sig)) table

-- `Kill(q, sig)`, called for each process other than the first one that counts as live, in
-- the order of the table.
def KillEach (table : Ptable) (stale : Slot → BitVec 16) (me : Slot) (counts : Proc → Bool) (sig : Int) : Ptable :=
  (slots.filter fun slot => counts (table.proc slot) && (table.proc slot).pid != 1).foldl
    (fun current slot => (current.Kill stale me (table.proc slot).pid sig).1) table

-- The entries whose trapframe pointer the loop of `Kill` follows, for the privilege level.
def consulted (table : Ptable) (pid : Int) : List Slot → List Slot
  | [] => []
  | slot :: rest =>
    if (table.proc slot).pid = 1 then table.consulted pid rest
    else if pid = -1 ∨ (table.proc slot).pid = pid then slot :: if pid = -1 then table.consulted pid rest else []
    else table.consulted pid rest

theorem pid_hit (table : Ptable) (sig : Nat) (slot : Slot) :
    (table.proc (table.hit sig slot)).pid = (table.proc slot).pid := by
  unfold hit
  split
  · cases hfind : slots.find? fun other => (table.proc other).pid = (table.proc slot).pid with
    | none => rfl
    | some other => simpa using List.find?_some hfind
  · rfl

theorem signalOne_eq (table : Ptable) (slot : Slot) (sig : Nat) :
    table.signalOne slot sig = table.update (table.hit sig slot) (Proc.struck · sig) := by
  unfold signalOne hit Proc.struck
  split
  · unfold kill
    cases hfind : slots.find? fun other => (table.proc other).pid = (table.proc slot).pid with
    | none =>
      have hself := List.find?_eq_none.mp hfind slot (mem_finRange slot)
      simp at hself
    | some other => rfl
  · rfl

theorem strike_eq (table : Ptable) (sig : Nat) (targets : List Slot) :
    table.strike sig targets =
      { table with
        proc := fun slot => if slot ∈ targets then (table.proc slot).struck sig else table.proc slot } := by
  induction targets generalizing table with
  | nil => simp [strike]
  | cons target rest ih =>
    have hstep : table.strike sig (target :: rest) = (table.update target (Proc.struck · sig)).strike sig rest := rfl
    rw [hstep, ih]
    simp only [update, Ptable.mk.injEq, and_true]
    funext slot
    by_cases heq : slot = target
    · subst heq
      simp [Proc.struck_struck]
    · simp [heq]

section Scan

variable {base table : Ptable} {stale : Slot → BitVec 16} {me : Slot} {sig : Int}

section

variable (h : ∀ slot, (base.proc slot).Undergoes (table.proc slot))

include h

theorem hit_congr (sig : Nat) (slot : Slot) : table.hit sig slot = base.hit sig slot := by
  have hpid : ∀ slot, (table.proc slot).pid = (base.proc slot).pid :=
    fun slot => ((Proc.standing_eq_iff _ _).mp (h slot).standing).2.1
  simp only [hit, hpid]

theorem update_struck_undergoes (hsig : 0 < sig ∧ sig ≤ CURRNUM) (target slot : Slot) :
    (base.proc slot).Undergoes ((table.update target (Proc.struck · sig.toNat)).proc slot) := by
  have hevents : (table.proc slot).UndergoesOnly (fun _ => True)
      ((table.update target (Proc.env · (.Kill sig.toNat))).proc slot) :=
    table.update_events target slot _ fun _ => trivial
  rw [Proc.struck_eq_env _ (by omega)]
  exact (h slot).trans hevents.undergoes

-- The scan for -1 sends the signal to all entries it comes to.
theorem killScan_all (hsig : 0 < sig ∧ sig ≤ CURRNUM)
    (targets : List Slot) : table.killScan stale me (-1) sig.toNat targets =
      table.strike sig.toNat ((targets.filter (base.Reaches stale me (-1) ·)).map (base.hit sig.toNat)) := by
  induction targets generalizing table with
  | nil => rfl
  | cons target rest ih =>
    have hreaches := reaches_congr h stale me (-1) target
    by_cases hinit : (table.proc target).pid = 1
    · have hnot : ¬base.Reaches stale me (-1) target := fun hbase => (hreaches.mpr hbase).1 hinit
      simp only [killScan, if_pos hinit, filter_cons, hnot, decide_false, Bool.false_eq_true, ite_false]
      exact ih h
    · by_cases hprivilege : table.privilege stale target ≠ 3 ∧ table.privilege stale me = 3
      · have hnot : ¬base.Reaches stale me (-1) target := fun hbase => (hreaches.mpr hbase).2.2 hprivilege
        simp only [killScan, if_neg hinit, true_or, ite_true, if_pos hprivilege, filter_cons, hnot,
          decide_false, Bool.false_eq_true, ite_false]
        exact ih h
      · have hbase := hreaches.mp ⟨hinit, .inl rfl, hprivilege⟩
        simp only [killScan, if_neg hinit, true_or, ite_true, if_neg hprivilege, filter_cons, hbase,
          decide_true, map_cons]
        rw [signalOne_eq, hit_congr h]
        exact ih (update_struck_undergoes h hsig _)

end

-- What lies behind the other trapframe pointers makes no difference.
theorem killScan_congr {other : Slot → BitVec 16} {pid : Int} (hme : base.privilege stale me = base.privilege other me)
    (targets : List Slot) (hsame : ∀ slot ∈ base.consulted pid targets, stale slot = other slot)
    (h : ∀ slot, (base.proc slot).Undergoes (table.proc slot)) (hsig : 0 < sig ∧ sig ≤ CURRNUM) :
    table.killScan stale me pid sig.toNat targets = table.killScan other me pid sig.toNat targets := by
  induction targets generalizing table with
  | nil => rfl
  | cons target rest ih =>
    have hpid := ((Proc.standing_eq_iff _ _).mp (h target).standing).2.1
    have hsender : table.privilege stale me = table.privilege other me := by
      rw [privilege_congr h, privilege_congr h, hme]
    simp only [consulted] at hsame
    simp only [killScan, hpid, hsender]
    by_cases hinit : (base.proc target).pid = 1
    · rw [if_pos hinit] at hsame
      simp only [if_pos hinit, ih hsame h]
    · by_cases hfound : pid = -1 ∨ (base.proc target).pid = pid
      · rw [if_neg hinit, if_pos hfound] at hsame
        have hread : table.privilege stale target = table.privilege other target := by
          simp only [privilege, hsame target mem_cons_self]
        simp only [if_neg hinit, if_pos hfound, hread]
        by_cases hall : pid = -1
        · have hrest := fun slot hslot => hsame slot (mem_cons_of_mem _ (by rwa [if_pos hall]))
          have hnext := fun slot => update_struck_undergoes h hsig (table.hit sig.toNat target) slot
          simp only [if_pos hall, ih hrest h, signalOne_eq, ih hrest hnext]
        · simp only [if_neg hall]
      · rw [if_neg hinit, if_neg hfound] at hsame
        simp only [if_neg hinit, if_neg hfound, ih hsame h]

theorem mem_consulted_all (table : Ptable) (targets : List Slot) (slot : Slot) :
    slot ∈ table.consulted (-1) targets ↔ slot ∈ targets ∧ (table.proc slot).pid ≠ 1 := by
  induction targets with
  | nil => simp [consulted]
  | cons target rest ih =>
    by_cases hinit : (table.proc target).pid = 1
    · simp only [consulted, if_pos hinit, ih, mem_cons]
      grind
    · simp only [consulted, if_neg hinit, true_or, if_true, mem_cons, ih]
      grind

-- The scan for one pid ends at the one entry that has it.
theorem killScan_one {pid : Int} (hpid : (table.proc slot).pid = pid) (hguard : 1 < pid)
    (honly : ∀ other, (table.proc other).pid = pid → other = slot) (targets : List Slot) (hmem : slot ∈ targets)
    (sig : Nat) : table.killScan stale me pid sig targets =
      if table.Reaches stale me (-1) slot then table.signalOne slot sig else table := by
  induction targets with
  | nil => cases hmem
  | cons target rest ih =>
    have hall : pid ≠ -1 := by omega
    by_cases heq : target = slot
    · subst heq
      have hinit : pid ≠ 1 := by omega
      have hreaches : table.Reaches stale me (-1) target ↔
          ¬(table.privilege stale target ≠ 3 ∧ table.privilege stale me = 3) := by
        simp [Reaches, hpid, hinit]
      simp only [killScan, hpid, if_neg hinit, or_true, ite_true, if_neg hall, hreaches]
      split_ifs <;> rfl
    · have hne : (table.proc target).pid ≠ pid := fun hsame => heq (honly target hsame)
      have hrest := ih (mem_of_ne_of_mem (Ne.symm heq) hmem)
      simp only [killScan, hne, hall, or_self, ite_false, hrest, ite_self]

end Scan

end Ptable

namespace Machine

variable {machine : Machine} {me : Slot} {sig : Int} {counts : Proc → Bool} {stale : Slot → BitVec 16}

section

variable (hpids : machine.Pids)

include hpids

-- A process in use has a pid of its own.
theorem Pids.one_lt (hused : (machine.proc slot).state ≠ .UNUSED)
    (hinit : (machine.proc slot).pid ≠ 1) : 1 < (machine.proc slot).pid := by
  have hbound := (hpids.bound slot).1
  have hzero := hpids.used slot hused
  omega

theorem Pids.only (hpid : 1 < (machine.proc slot).pid) (other : Slot)
    (hsame : (machine.proc other).pid = (machine.proc slot).pid) : other = slot :=
  hpids.distinct other slot hsame (by omega)

theorem Pids.hit_eq (hpid : 1 < (machine.proc slot).pid) (sig : Nat) : machine.table.hit sig slot = slot :=
  hpids.only hpid _ (machine.table.pid_hit sig slot)

theorem Kill_one {table : Ptable}
    (h : ∀ slot, (machine.table.proc slot).Undergoes (table.proc slot)) (hsig : 0 < sig ∧ sig ≤ CURRNUM)
    (hpid : 1 < (machine.proc slot).pid) : (table.Kill stale me (machine.proc slot).pid sig).1 =
      if machine.table.Reaches stale me (-1) slot then table.update slot (Proc.struck · sig.toNat) else table := by
  have hsame : ∀ slot, (table.proc slot).pid = (machine.proc slot).pid :=
    fun slot => ((Proc.standing_eq_iff _ _).mp (h slot).standing).2.1
  have honly : ∀ other, (table.proc other).pid = (machine.proc slot).pid → other = slot :=
    fun other hother => hpids.only hpid other ((hsame other).symm.trans hother)
  unfold Ptable.Kill
  rw [if_neg (by omega), if_neg (by omega),
    Ptable.killScan_one (hsame slot) hpid honly Ptable.slots (mem_finRange slot), Ptable.signalOne_eq,
    Ptable.hit_congr h, hpids.hit_eq hpid]
  simp only [Ptable.reaches_congr h stale me (-1) slot]

theorem KillEach_eq (hsig : 0 < sig ∧ sig ≤ CURRNUM) (hcounts : ∀ proc, counts proc = true → proc.state ≠ .UNUSED) :
    machine.table.KillEach stale me counts sig = machine.table.strike sig.toNat
      ((Ptable.slots.filter fun slot => counts (machine.proc slot) && (machine.proc slot).pid != 1).filter
        (machine.table.Reaches stale me (-1) ·)) := by
  have hfold : ∀ (targets : List Slot) (table : Ptable),
      (∀ slot ∈ targets, 1 < (machine.proc slot).pid) →
      (∀ slot, (machine.table.proc slot).Undergoes (table.proc slot)) →
      targets.foldl (fun current slot => (current.Kill stale me (machine.proc slot).pid sig).1) table =
        table.strike sig.toNat (targets.filter (machine.table.Reaches stale me (-1) ·)) := by
    intro targets
    induction targets with
    | nil => exact fun _ _ _ => rfl
    | cons target rest ih =>
      intro table hpid h
      have hrest : ∀ slot ∈ rest, 1 < (machine.proc slot).pid := fun slot hmem => hpid slot (by simp [hmem])
      rw [foldl_cons, Kill_one hpids h hsig (hpid target (by simp)), filter_cons]
      by_cases hreaches : machine.table.Reaches stale me (-1) target
      · simp only [hreaches, ite_true, decide_true]
        rw [ih _ hrest (Ptable.update_struck_undergoes h hsig target)]
        rfl
      · simp only [hreaches, ite_false, decide_false, Bool.false_eq_true]
        exact ih table hrest h
  refine hfold _ machine.table ?_ (fun _ => .refl _)
  intro slot hmem
  simp only [mem_filter, Bool.and_eq_true, bne_iff_ne] at hmem
  exact hpids.one_lt (hcounts _ hmem.2.1) hmem.2.2

end

theorem Kill_all (hsig : 0 < sig ∧ sig ≤ CURRNUM) : (machine.table.Kill stale me (-1) sig).1 =
    machine.table.strike sig.toNat
      ((Ptable.slots.filter (machine.table.Reaches stale me (-1) ·)).map (machine.table.hit sig.toNat)) := by
  unfold Ptable.Kill
  rw [if_neg (by omega), if_neg (by omega)]
  exact Ptable.killScan_all (fun _ => .refl _) hsig Ptable.slots

-- What is read in place of the privilege of a free entry may let every signal pass.
theorem reaches_stale (hpids : machine.Pids) (hruns : machine.runs me = true)
    (h : machine.table.Reaches stale me (-1) slot) : machine.table.Reaches (fun _ => 3) me (-1) slot := by
  refine ⟨h.1, h.2.1, ?_⟩
  have hme : (machine.table.proc me).kstack = true := (hpids.kstack me).mpr (live_of_runs hruns).not_unused
  rintro ⟨hslot, hsender⟩
  refine h.2.2 ⟨?_, ?_⟩
  · cases hkstack : (machine.table.proc slot).kstack with
    | true => simpa only [Ptable.privilege, hkstack, ite_true] using hslot
    | false => exact absurd (by simp [Ptable.privilege, hkstack, DPL_USER]) hslot
  · simpa only [Ptable.privilege, hme, ite_true] using hsender

end Machine

-- No entry is free, but for that of the first process. Those that do not count and that the
-- scan comes to are as the signal would leave them.
structure Ptable.Spares (table : Ptable) (me : Slot) (counts : Proc → Bool) (sig : Nat) : Prop where
  full (slot : Slot) : (table.proc slot).pid ≠ 1 → (table.proc slot).state ≠ .UNUSED
  immune (slot : Slot) : counts (table.proc slot) = false → table.Reaches (fun _ => 3) me (-1) slot →
    (table.proc slot).Immune sig

-- `counts` is what is taken for a live process; a free entry is none.
theorem broadcast_eq_each_iff (machine : Machine) (me : Slot) (sig : Int) (counts : Proc → Bool)
    (hreach : Machine.Reach (fun _ _ => True) machine) (hruns : machine.runs me = true)
    (hsig : 0 < sig ∧ sig ≤ CURRNUM) (hcounts : ∀ proc, counts proc = true → proc.state ≠ .UNUSED) :
    ((∀ stale, (machine.table.Kill stale me (-1) sig).1 = machine.table.KillEach stale me counts sig ∧
        ∀ slot, (machine.proc slot).state = .UNUSED →
          (machine.table.Kill stale me (-1) sig).1.proc slot = machine.proc slot) ∧
      ∀ slot ∈ machine.table.consulted (-1) Ptable.slots, (machine.proc slot).state ≠ .UNUSED) ↔
      machine.table.Spares me counts sig.toNat := by
  have hpids := hreach.pids
  -- Where no entry is free, the signal hits the entry the scan has come to.
  have hhit : (∀ slot, (machine.proc slot).pid ≠ 1 → (machine.proc slot).state ≠ .UNUSED) → ∀ stale,
      (Ptable.slots.filter (machine.table.Reaches stale me (-1) ·)).map (machine.table.hit sig.toNat) =
        Ptable.slots.filter (machine.table.Reaches stale me (-1) ·) := by
    intro hfull stale
    refine map_congr_left (fun slot hslot => ?_) |>.trans (map_id _)
    have hpid : (machine.proc slot).pid ≠ 1 := by
      simp only [mem_filter, decide_eq_true_eq] at hslot
      exact hslot.2.1
    exact hpids.hit_eq (hpids.one_lt (hfull slot hpid) hpid) _
  simp only [Machine.Kill_all hsig, Machine.KillEach_eq hpids hsig hcounts, Ptable.mem_consulted_all]
  constructor
  · rintro ⟨heach, hconsulted⟩
    have hfull : ∀ slot, (machine.proc slot).pid ≠ 1 → (machine.proc slot).state ≠ .UNUSED :=
      fun slot hpid => hconsulted slot ⟨mem_finRange slot, hpid⟩
    refine ⟨hfull, fun slot hslot hreaches => (Proc.struck_eq_self_iff _ (by omega)).mp ?_⟩
    have hall := congrArg (fun table : Ptable => table.proc slot) (heach fun _ => 3).1
    simp only [hhit hfull, Ptable.strike_eq] at hall
    rw [if_pos (by simpa using ⟨mem_finRange slot, hreaches⟩), if_neg (by simp [Machine.proc, hslot])] at hall
    exact hall
  · intro h
    have heach : ∀ stale, machine.table.strike sig.toNat (Ptable.slots.filter (machine.table.Reaches stale me (-1) ·)) =
        machine.table.strike sig.toNat ((Ptable.slots.filter fun slot => counts (machine.proc slot) &&
          (machine.proc slot).pid != 1).filter (machine.table.Reaches stale me (-1) ·)) := by
      intro stale
      simp only [Ptable.strike_eq, Ptable.mk.injEq, and_true, mem_filter, decide_eq_true_eq]
      funext slot
      by_cases hreaches : machine.table.Reaches stale me (-1) slot
      · cases hslot : counts (machine.table.proc slot) with
        | true => simp [hslot, hreaches.1, Machine.proc]
        | false =>
          have himmune := h.immune slot hslot (Machine.reaches_stale hpids hruns hreaches)
          simp [(Proc.struck_eq_self_iff _ (by omega)).mpr himmune]
      · simp [hreaches]
    refine ⟨fun stale => ?_, fun slot hslot => h.full slot hslot.2⟩
    rw [hhit h.full, heach]
    refine ⟨rfl, fun slot hunused => ?_⟩
    have hslot : counts (machine.table.proc slot) = false := by
      by_contra hcount
      exact hcounts _ (Bool.eq_true_of_not_eq_false hcount) hunused
    simp [Ptable.strike_eq, hslot, Machine.proc]

set_option maxRecDepth 4000 in
-- Children of the first process fill the table.
theorem broadcast_eq_each_iff_full : ∃ machine, Machine.Reach (fun _ _ => True) machine ∧
    machine.runs 0 = true ∧ (machine.proc 2).killed = true ∧ (machine.proc 1).disposition SIGHUP = .USERDEF ∧
      (∀ stale, (machine.table.Kill stale 0 (-1) SIGSTOP).1 =
          machine.table.KillEach stale 0 (fun proc => proc.Live) SIGSTOP ∧
        ∀ slot, (machine.proc slot).state = .UNUSED →
          (machine.table.Kill stale 0 (-1) SIGSTOP).1.proc slot = machine.proc slot) ∧
      ∀ slot ∈ machine.table.consulted (-1) Ptable.slots, (machine.proc slot).state ≠ .UNUSED := by
  obtain ⟨machine, hreach, hruns, hkilled, hhandler, hlive⟩ : ∃ machine, Machine.Reach (fun _ _ => True) machine ∧
      machine.runs 0 = true ∧ (machine.proc 2).killed = true ∧ (machine.proc 1).disposition SIGHUP = .USERDEF ∧
      ∀ slot, (machine.table.proc slot).Live :=
    exists_reach_boot (fun _ => 0) (Machine.recycle ++ List.replicate 61 (.call 0 (.fork true true)))
      ⟨_, rfl, _, rfl, rfl, rfl, rfl, by decide +kernel⟩
  refine ⟨machine, hreach, hruns, hkilled, hhandler, (broadcast_eq_each_iff machine 0 SIGSTOP (fun proc => proc.Live)
    hreach hruns (by decide) ?_).mpr ⟨fun slot _ => (hlive slot).not_unused, fun slot hslot => ?_⟩⟩
  · intro proc hproc
    exact Proc.Live.not_unused (of_decide_eq_true hproc)
  · exact absurd (hlive slot) (of_decide_eq_false hslot)

set_option maxRecDepth 4000 in
-- The first process is alone. Its SIGSTOP for everybody comes to a free entry.
theorem broadcast_marks_unused : ∃ machine, Machine.Reach (fun _ _ => True) machine ∧ machine.runs 0 = true ∧
    (machine.proc 5).state = .UNUSED ∧ 5 ∈ machine.table.consulted (-1) Ptable.slots ∧
    ((machine.table.Kill (fun _ => 3) 0 (-1) SIGSTOP).1.proc 5).sigpending = bit SIGSTOP ∧
    ((machine.table.KillEach (fun _ => 3) 0 (fun proc => proc.state ≠ .UNUSED) SIGSTOP).proc 5).sigpending = 0 :=
  exists_reach_boot (fun _ => 0) [.resume 0] ⟨_, rfl, _, rfl, rfl, rfl, by decide, rfl, rfl⟩

end Xv6

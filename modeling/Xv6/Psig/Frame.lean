import Xv6.Psig.Delivery

namespace Xv6

open Memory List

-- psig wrote the words of this trapframe and they are still there.
def Saved (memory : Memory) (tf : Trapframe) : Prop :=
  ∀ store ∈ tf.saved, memory.readWord (tf.esp - BitVec.ofNat 32 store.1) = store.2

theorem frameStores_offsets (tf : Trapframe) (signum : Nat) (addrSigreturn : Word) :
    (frameStores tf signum addrSigreturn).map Prod.fst =
      [4, 8, 12, 16, 20, 24, 28, 32, 36, 40, 44, 48, 52, 56, 60, 64, 68, 72, 76] := rfl

variable {tf : Trapframe} {store : Nat × Word}

theorem frameStores_bound {signum : Nat} {addrSigreturn : Word} (h : store ∈ frameStores tf signum addrSigreturn) :
    4 ≤ store.1 ∧ store.1 ≤ 76 := by
  have hmem := mem_map_of_mem (f := Prod.fst) h
  rw [frameStores_offsets] at hmem
  revert hmem
  generalize store.1 = offset
  decide +revert

theorem frameStores_apart (tf : Trapframe) (signum : Nat) (addrSigreturn : Word) :
    (frameStores tf signum addrSigreturn).Pairwise Apart := by
  have hoffsets : ((frameStores tf signum addrSigreturn).map Prod.fst).Pairwise
      (fun first second => first + 4 ≤ second ∨ second + 4 ≤ first) := by
    rw [frameStores_offsets]
    decide
  rw [pairwise_map] at hoffsets
  exact hoffsets

-- The frame psig writes holds the trapframe it was written for.
theorem saved_storeBelow (memory : Memory) (tf : Trapframe) (signum : Nat) (addrSigreturn : Word) :
    Saved (memory.storeBelow tf.esp (frameStores tf signum addrSigreturn)) tf := by
  intro store hstore
  refine readWord_storeBelow memory tf.esp _ ?_ (frameStores_apart tf signum addrSigreturn) store.1 store.2
    (mem_append_left _ hstore)
  intro other hother
  have := frameStores_bound hother
  omega

theorem saved_offset (h : store ∈ tf.saved) : 4 ≤ store.1 ∧ store.1 ≤ 68 := by
  have hmem := mem_map_of_mem (f := Prod.fst) h
  have hoffsets : tf.saved.map Prod.fst = [4, 8, 12, 16, 20, 24, 28, 32, 36, 40, 44, 48, 52, 56, 60, 64, 68] := rfl
  rw [hoffsets] at hmem
  revert hmem
  generalize store.1 = offset
  decide +revert

theorem Saved.agree {before after : Memory} (h : Saved before tf) (hesp : 68 ≤ tf.esp.toNat)
    (hagree : Agree (tf.esp.toNat - 68) tf.esp.toNat before after) : Saved after tf := by
  intro store hstore
  obtain ⟨hlow, hhigh⟩ := saved_offset hstore
  have haddress : (tf.esp - BitVec.ofNat 32 store.1).toNat = tf.esp.toNat - store.1 := by bv_omega
  rw [← h store hstore]
  refine (hagree.readWord _ ?_ ?_ ?_).symm
  · omega
  · omega
  · omega

-- With the stack pointer at the argument of the handler, one word below the frame,
-- sigreturn restores what was saved.
theorem Saved.restoreuser {proc : Proc} (h : Saved proc.memory tf) (hesp : proc.tf.esp = tf.esp - 72) (retaddr : Word) :
    restoreuser ((sysSigreturn proc).2.stack retaddr) = some tf.registers := by
  have hword : ∀ store ∈ tf.saved, proc.memory.readWord (proc.tf.esp + BitVec.ofNat 32 (72 - store.1)) = store.2 := by
    intro store hstore
    obtain ⟨hlow, hhigh⟩ := saved_offset hstore
    have haddress : proc.tf.esp + BitVec.ofNat 32 (72 - store.1) = tf.esp - BitVec.ofNat 32 store.1 := by
      rw [hesp]
      bv_omega
    rw [haddress, h store hstore]
  simp only [Trapframe.saved, forall_mem_cons, not_mem_nil, false_implies, implies_true, and_true] at hword
  obtain ⟨hss, hesp, heflags, hcs, heip, hds, hes, hfs, hgs, heax, hecx, hedx, hebx, -, hebp, hesi, hedi⟩ := hword
  simp only [Xv6.restoreuser, Context.stack, sysSigreturn, kernelSigreturn, Trapframe.registers]
  simp [hss, hesp, heflags, hcs, heip, hds, hes, hfs, hgs, heax, hecx, hedx, hebx, hebp, hesi, hedi]

-- The user memory of a process and the trapframes that psig has saved and sigreturn has
-- not yet restored, newest first. User code leaves the words of live frames alone; a
-- handler that keeps to its stack is interrupted with its stack pointer below them.
inductive Nested : Memory → List Trapframe → Prop
  | start (memory : Memory) : Nested memory []
  | user (before after : Memory) (frames : List Trapframe) (hnested : Nested before frames)
      (hagree : ∀ tf ∈ frames, Agree (tf.esp.toNat - 68) tf.esp.toNat before after) : Nested after frames
  | deliver (caller : Caller) (cpu after : Cpu) (delivery : Delivery) (frames : List Trapframe)
      (hnested : Nested cpu.proc.memory frames) (hholding : cpu.holding = false)
      (hends : Coop.Ends Others (psig caller cpu) (.leave (.jmptohandler caller delivery) after))
      (hwrap : 76 ≤ cpu.proc.tf.esp.toNat)
      (hbelow : ∀ tf ∈ frames, cpu.proc.tf.esp.toNat + 68 ≤ tf.esp.toNat) :
      Nested after.proc.memory (cpu.proc.tf :: frames)
  | sigreturn (proc : Proc) (tf : Trapframe) (frames : List Trapframe)
      (hnested : Nested proc.memory (tf :: frames)) (hesp : proc.tf.esp = tf.esp - 72) :
      Nested proc.memory frames

theorem psig_memory {caller : Caller} {cpu after : Cpu} {delivery : Delivery} (hholding : cpu.holding = false)
    (hends : Coop.Ends Others (psig caller cpu) (.leave (.jmptohandler caller delivery) after)) :
    after.proc.memory = cpu.proc.memory.storeBelow cpu.proc.tf.esp
      (frameStores cpu.proc.tf (firstUserdefed cpu.proc.userdefed) cpu.proc.addrSigreturn) ∧
    delivery.chosen.sz = cpu.proc.sz ∧ delivery.chosen.tf = cpu.proc.tf ∧
    delivery.stores = frameStores cpu.proc.tf (firstUserdefed cpu.proc.userdefed) cpu.proc.addrSigreturn := by
  have hmeets := (psig_spec caller cpu hholding).ends (fun _ _ _ hothers => ⟨hothers, trivial⟩) hends
  obtain ⟨-, -, -, chosen, hkeeps, -, rfl, hproc⟩ := hmeets
  obtain ⟨hsz, hmemory, htf, -, huserdefed, -, haddr⟩ := (Proc.image_eq_iff _ _).mp hkeeps.image
  refine ⟨?_, hsz, htf, ?_⟩
  · rw [hproc]
    simp only [Proc.deliver, Proc.stores, hmemory, htf, huserdefed, haddr]
  · simp only [Proc.delivery, Proc.stores, htf, huserdefed, haddr]

-- Every live frame is intact: a new one is written below the older ones.
theorem Nested.saved {memory : Memory} {frames : List Trapframe} (h : Nested memory frames) :
    ∀ tf ∈ frames, 68 ≤ tf.esp.toNat ∧ Saved memory tf := by
  induction h with
  | start memory => simp
  | user before after frames _ hagree ih =>
    intro tf hmem
    obtain ⟨hesp, hsaved⟩ := ih tf hmem
    exact ⟨hesp, hsaved.agree hesp (hagree tf hmem)⟩
  | deliver caller cpu after delivery frames _ hholding hends hwrap hbelow ih =>
    have hmemory := (psig_memory hholding hends).1
    intro tf hmem
    rw [hmemory]
    rcases mem_cons.mp hmem with rfl | hmem
    · exact ⟨by omega, saved_storeBelow _ _ _ _⟩
    · obtain ⟨hesp, hsaved⟩ := ih tf hmem
      have hfar := hbelow tf hmem
      refine ⟨hesp, hsaved.agree hesp ?_⟩
      have hframe := storeBelow_agree cpu.proc.memory cpu.proc.tf.esp
        (frameStores cpu.proc.tf (firstUserdefed cpu.proc.userdefed) cpu.proc.addrSigreturn) 76
        (fun _ hstore => frameStores_bound hstore) hwrap (tf.esp.toNat - 68) tf.esp.toNat (.inr (by omega))
      exact fun byte hlow hhigh => (hframe byte hlow hhigh).symm
  | sigreturn proc tf frames _ _ ih => exact fun other hmem => ih other (mem_cons_of_mem _ hmem)

-- At any depth of nesting, sigreturn brings back the registers that psig interrupted.
theorem sigreturn_restores (proc : Proc) (tf : Trapframe) (frames : List Trapframe) (retaddr : Word)
    (hnested : Nested proc.memory (tf :: frames)) (hesp : proc.tf.esp = tf.esp - 72) :
    restoreuser ((sysSigreturn proc).2.stack retaddr) = some tf.registers :=
  (hnested.saved tf (by simp)).2.restoreuser hesp retaddr

-- A process with a handler for SIGHUP, about to call psig.
def handlerProc (esp : Word) : Proc :=
  { Proc.zero with
    sz := 0x4000
    state := .RUNNING
    tf := { Trapframe.zero with esp }
    sigpending := bit SIGHUP
    userdefed := bit SIGHUP
    allinfo := fun signum => if signum = 1 then ⟨.USERDEF, 0x100⟩ else ⟨.DFL, 0⟩
    addrSigreturn := 0x200 }

-- A second signal comes while the handler runs.
theorem sigreturn_restores_handler : ∃ memory : Memory,
    Nested memory [(handlerProc 0x2000).tf, (handlerProc 0x3000).tf] ∧
      ∀ esp : Word, esp = 0x2000 ∨ esp = 0x3000 →
        restoreuser ((sysSigreturn { handlerProc (esp - 72) with memory }).2.stack 0) =
          some (handlerProc esp).tf.registers := by
  obtain ⟨_, first, hfirst⟩ := exists_delivery .syscall (.user (handlerProc 0x3000)) rfl rfl (by decide)
  have houter : Nested first.proc.memory [(handlerProc 0x3000).tf] :=
    .deliver .syscall (.user (handlerProc 0x3000)) first _ [] (.start _) rfl hfirst (by decide) (by simp)
  let handler : Cpu := .user { handlerProc 0x2000 with memory := first.proc.memory }
  obtain ⟨_, second, hsecond⟩ := exists_delivery .syscall handler rfl rfl (show bit SIGHUP ≠ 0 by decide)
  have hnested : Nested second.proc.memory [(handlerProc 0x2000).tf, (handlerProc 0x3000).tf] :=
    .deliver .syscall handler second _ _ houter rfl hsecond (show 76 ≤ (0x2000 : Word).toNat by decide) (by
      intro tf htf
      rw [mem_singleton.mp htf]
      exact show (0x2000 : Word).toNat + 68 ≤ (0x3000 : Word).toNat by decide)
  refine ⟨second.proc.memory, hnested, ?_⟩
  rintro esp (rfl | rfl)
  · exact sigreturn_restores _ _ _ 0 hnested rfl
  · let proc : Proc := { handlerProc (0x2000 - 72) with memory := second.proc.memory }
    exact sigreturn_restores _ _ _ 0 (.sigreturn proc _ _ hnested rfl) rfl

-- Addresses wrap around, so a frame that starts too low reaches into the top of memory.
theorem frameStores_inside_iff (tf : Trapframe) (signum : Nat) (addrSigreturn sz : Word) :
    (∀ store ∈ frameStores tf signum addrSigreturn, Inside sz (tf.esp - BitVec.ofNat 32 store.1)) ↔
      76 ≤ tf.esp.toNat ∧ tf.esp.toNat ≤ sz.toNat := by
  constructor
  · intro h
    have hoffset : ∀ offset ∈ (frameStores tf signum addrSigreturn).map Prod.fst,
        Inside sz (tf.esp - BitVec.ofNat 32 offset) := by
      intro offset hmem
      obtain ⟨store, hstore, rfl⟩ := mem_map.mp hmem
      exact h store hstore
    rw [frameStores_offsets] at hoffset
    simp only [forall_mem_cons, Inside] at hoffset
    bv_omega
  · rintro ⟨hlow, hhigh⟩ store hstore
    obtain ⟨hstore, hbound⟩ := frameStores_bound hstore
    unfold Inside
    bv_omega

theorem sigreturnLoads_inside_iff (esp sz : Word) :
    (∀ offset ∈ sigreturnLoads, Inside sz (esp + BitVec.ofNat 32 offset)) ↔ (esp + 4).toNat + 68 ≤ sz.toNat := by
  constructor
  · intro h
    simp only [sigreturnLoads, forall_mem_cons, Inside] at h
    bv_omega
  · intro h offset hmem
    have hbound : 4 ≤ offset ∧ offset ≤ 68 := by
      revert hmem
      decide +revert
    unfold Inside
    bv_omega

-- Neither psig nor sigreturn checks an address, so only the stack pointer decides.
theorem accesses_inside_iff (caller : Caller) (cpu after : Cpu) (delivery : Delivery) (proc : Proc)
    (hholding : cpu.holding = false)
    (hends : Coop.Ends Others (psig caller cpu) (.leave (.jmptohandler caller delivery) after)) :
    ((∀ store ∈ delivery.stores, Inside cpu.proc.sz (cpu.proc.tf.esp - BitVec.ofNat 32 store.1)) ↔
      76 ≤ cpu.proc.tf.esp.toNat ∧ cpu.proc.tf.esp.toNat ≤ cpu.proc.sz.toNat) ∧
    ((∀ offset ∈ sigreturnLoads, Inside proc.sz (proc.tf.esp + BitVec.ofNat 32 offset)) ↔
      (proc.tf.esp + 4).toNat + 68 ≤ proc.sz.toNat) := by
  rw [(psig_memory hholding hends).2.2.2]
  exact ⟨frameStores_inside_iff _ _ _ _, sigreturnLoads_inside_iff _ _⟩

theorem accesses_inside_handler : ∃ (after : Cpu) (delivery : Delivery),
    Coop.Ends Others (psig .syscall (.user (handlerProc 0x3000))) (.leave (.jmptohandler .syscall delivery) after) ∧
      ∀ store ∈ delivery.stores, Inside 0x4000 (0x3000 - BitVec.ofNat 32 store.1) := by
  obtain ⟨delivery, after, hends⟩ := exists_delivery .syscall (.user (handlerProc 0x3000)) rfl rfl (by decide)
  exact ⟨after, delivery, hends,
    (accesses_inside_iff .syscall _ after delivery (handlerProc 0x3000) rfl hends).1.mpr (by decide)⟩

-- With the stack pointer at 16 psig writes at the top of the address space, and with
-- 0x3ff0 of 0x4000 bytes sigreturn reads beyond the process.
theorem accesses_outside : (∃ (after : Cpu) (delivery : Delivery),
    Coop.Ends Others (psig .syscall (.user (handlerProc 16))) (.leave (.jmptohandler .syscall delivery) after) ∧
      ¬∀ store ∈ delivery.stores, Inside (handlerProc 16).sz ((handlerProc 16).tf.esp - BitVec.ofNat 32 store.1)) ∧
    ¬∀ offset ∈ sigreturnLoads, Inside (handlerProc 0x3ff0).sz
      ((handlerProc 0x3ff0).tf.esp + BitVec.ofNat 32 offset) := by
  constructor
  · obtain ⟨delivery, after, hends⟩ := exists_delivery .syscall (.user (handlerProc 16)) rfl rfl (by decide)
    refine ⟨after, delivery, hends, ?_⟩
    rw [(psig_memory rfl hends).2.2.2]
    intro hinside
    exact absurd ((frameStores_inside_iff _ _ _ _).mp hinside) (by decide)
  · decide

end Xv6

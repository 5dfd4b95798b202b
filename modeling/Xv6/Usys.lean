import Xv6.Ptable
import Xv6.Sigreturn

namespace Xv6

open Memory

def SYS_signal : Word := 23
def T_SYSCALL : Word := 64

namespace Proc

variable (proc : Proc)

def argint (n : Nat) : Option Word := fetchint proc (proc.tf.esp + 4 + BitVec.ofNat 32 (4 * n))

def sysSignal : Proc × Word :=
  match proc.argint 0 with
  | none => (proc, SIG_ERR)
  | some sigretfn =>
    match proc.argint 1 with
    | none => (proc, SIG_ERR)
    | some signum =>
      match proc.argint 2 with
      | none => (proc, SIG_ERR)
      | some ptr => proc.signal sigretfn signum.toInt ptr

-- The process once its registers are saved on the kernel stack.
def enter (state : X86) : Proc :=
  { proc with
    memory := state.memory
    tf :=
      { proc.tf with
        edi := state.regs.edi
        esi := state.regs.esi
        ebp := state.regs.ebp
        ebx := state.regs.ebx
        edx := state.regs.edx
        ecx := state.regs.ecx
        eax := state.regs.eax
        gs := state.regs.gs
        fs := state.regs.fs
        es := state.regs.es
        ds := state.regs.ds
        trapno := T_SYSCALL
        err := 0
        eip := state.regs.eip
        cs := state.regs.cs
        eflags := state.regs.eflags
        esp := state.regs.esp
        ss := state.regs.ss } }

-- The system call from the `int` to the return to the program.
def signalTrap (state : X86) : X86 :=
  let (after, result) := (proc.enter state).sysSignal
  ⟨{ after.tf with eax := result }.registers, after.memory⟩

end Proc

-- The instructions of `signal` before its `int`.
def signalArgs (sigreturn : Word) : List Instr :=
  [.subl 4 .esp,
    .movl (.location (.mem .esp 4)) (.reg .eax),
    .movl (.location (.reg .eax)) (.mem .esp 0),
    .movl (.imm sigreturn) (.reg .eax),
    .movl (.location (.reg .eax)) (.mem .esp 4),
    .movl (.imm SYS_signal) (.reg .eax)]

def signalStub (sigreturn : Word) : List Instr := signalArgs sigreturn ++ [.int, .ret]

-- The return address is copied down one word and the address of `sigreturn` takes its place.
def signalMemory (caller : X86) (sigreturn retaddr : Word) : Memory :=
  caller.memory.push (caller.regs.esp - 8) [retaddr, sigreturn]

theorem signalArgs_run (processor : Processor) (caller : X86) (sigreturn retaddr : Word) :
    X86.run processor (signalArgs sigreturn) (caller.call retaddr) =
      ⟨{ caller.regs with eax := SYS_signal, esp := caller.regs.esp - 8 }, signalMemory caller sigreturn retaddr⟩ := by
  have hlow : caller.regs.esp - 4#32 - 4#32 = caller.regs.esp - 8#32 := by bv_omega
  have hhigh : caller.regs.esp - 8#32 + 4#32 = caller.regs.esp - 4#32 := by bv_omega
  simp only [X86.run, signalArgs, X86.exec, X86.call, X86.read, X86.write, Registers.get, Registers.set,
    List.foldl_cons, List.foldl_nil, BitVec.ofNat_eq_ofNat, BitVec.add_zero, hlow, hhigh, readWord_writeWord_self,
    signalMemory, push]
  rw [writeWord_comm _ _ _ _ _ (by bv_omega) (by bv_omega), writeWord_writeWord_self,
    writeWord_comm _ _ _ _ _ (by bv_omega) (by bv_omega)]

-- Neither a refused nor an accepted call touches the registers or the memory of the program.
theorem Proc.signal_user (proc : Proc) (returnfn : Word) (signum : Int) (handler : Word) :
    (proc.signal returnfn signum handler).1.tf = proc.tf ∧
      (proc.signal returnfn signum handler).1.memory = proc.memory := by
  unfold Proc.signal
  split_ifs <;> exact ⟨rfl, rfl⟩

theorem Proc.sysSignal_user (proc : Proc) : proc.sysSignal.1.tf = proc.tf ∧ proc.sysSignal.1.memory = proc.memory := by
  unfold Proc.sysSignal
  split
  · exact ⟨rfl, rfl⟩
  split
  · exact ⟨rfl, rfl⟩
  split
  · exact ⟨rfl, rfl⟩
  · exact proc.signal_user _ _ _

theorem Proc.signalTrap_eq (proc : Proc) (state : X86) :
    proc.signalTrap state = ⟨{ state.regs with eax := (proc.enter state).sysSignal.2 }, state.memory⟩ := by
  obtain ⟨htf, hmemory⟩ := (proc.enter state).sysSignal_user
  simp only [Proc.signalTrap, htf, hmemory]
  rfl

-- What a system call stub owes its caller: the kernel has seen these arguments, and the
-- program goes on after the call with its stack as it was.
structure StubMeets (caller : X86) (retaddr : Word) (arguments : List Word) (fetched : List (Option Word))
    (after : X86) : Prop where
  fetched : fetched = arguments.map some
  eip : after.regs.eip = retaddr
  esp : after.regs.esp = caller.regs.esp
  above : ∀ offset : Word, offset.toNat + 12 ≤ 2 ^ 32 →
    after.memory.readWord (caller.regs.esp + offset) = caller.memory.readWord (caller.regs.esp + offset)

section

variable (proc : Proc) (caller : X86) (sigreturn retaddr : Word)

-- The state at the `int`, what `sys_signal` fetches there, and the state after the `ret`.
def Proc.signalInt : Proc :=
  proc.enter (X86.run ⟨proc.signalTrap, id⟩ (signalArgs sigreturn) (caller.call retaddr))

def Proc.signalFetched : List (Option Word) :=
  (List.range 3).map (proc.signalInt caller sigreturn retaddr).argint

def Proc.signalReturn : X86 :=
  X86.run ⟨proc.signalTrap, id⟩ (signalStub sigreturn) (caller.call retaddr)

end

theorem Proc.signalReturn_eq (proc : Proc) (caller : X86) (sigreturn retaddr : Word) :
    proc.signalReturn caller sigreturn retaddr =
      ⟨{ caller.regs with
          eax := (proc.signalInt caller sigreturn retaddr).sysSignal.2
          eip := retaddr
          esp := caller.regs.esp - 4 },
        signalMemory caller sigreturn retaddr⟩ := by
  have hret : (signalMemory caller sigreturn retaddr).readWord (caller.regs.esp - 8) = retaddr :=
    readWord_writeWord_self _ _ _
  have hesp : caller.regs.esp - 8#32 + 4#32 = caller.regs.esp - 4#32 := by bv_omega
  simp only [Proc.signalReturn, Proc.signalInt, signalStub, X86.run_append, signalArgs_run]
  simp only [X86.run, List.foldl_cons, List.foldl_nil, X86.exec, Proc.signalTrap_eq, X86.peek, X86.pop, Nat.mul_zero,
    Nat.mul_one, BitVec.ofNat_eq_ofNat, BitVec.add_zero, hesp] at hret ⊢
  rw [hret]

-- The word that the stub takes for the copy of the return address is never given back.
theorem signal_stub_never_meets (proc : Proc) (caller : X86) (sigreturn retaddr : Word) :
    (proc.signalReturn caller sigreturn retaddr).regs.eip = retaddr ∧
    (proc.signalReturn caller sigreturn retaddr).regs.esp = caller.regs.esp - 4 ∧
    ¬ StubMeets caller retaddr
      [sigreturn, caller.memory.readWord caller.regs.esp, caller.memory.readWord (caller.regs.esp + 4)]
      (proc.signalFetched caller sigreturn retaddr) (proc.signalReturn caller sigreturn retaddr) := by
  have hreturn := proc.signalReturn_eq caller sigreturn retaddr
  refine ⟨by rw [hreturn], by rw [hreturn], ?_⟩
  intro h
  have hesp := h.esp
  rw [hreturn] at hesp
  bv_omega

-- A program calls `signal(SIGINT, 64)` with its stack pointer at 4088.
theorem signal_stub_leaves_word :
    ((Proc.initcode .zero fun _ => 0).signalReturn
      ⟨{ (Proc.initcode .zero fun _ => 0).tf.registers with esp := 4088 },
        (Memory.push (fun _ => 0) 4088 [BitVec.ofNat 32 SIGINT, 64])⟩ 16 32).regs.esp = 4084 ∧
    (Proc.initcode .zero fun _ => 0).signalFetched
      ⟨{ (Proc.initcode .zero fun _ => 0).tf.registers with esp := 4088 },
        (Memory.push (fun _ => 0) 4088 [BitVec.ofNat 32 SIGINT, 64])⟩ 16 32 =
      [some 16, some (BitVec.ofNat 32 SIGINT), some 64] := by
  decide +kernel

end Xv6

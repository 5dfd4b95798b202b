import Xv6.Sigreturn

namespace Xv6

open BitVec

-- Privilege level 3 in the two selectors, interrupts on and I/O privilege level 0.
def Context.UserMode (context : Context) : Prop :=
  context.cs &&& 3 = 3 ∧ context.ss &&& 3 = 3 ∧ context.eflag &&& FL_IF ≠ 0 ∧ context.eflag &&& 0x3000 = 0

instance (context : Context) : Decidable context.UserMode := inferInstanceAs (Decidable (_ ∧ _))

namespace Memory

-- Masks that lie in one byte of a word only look at that byte of memory.
theorem readWord_and_first (memory : Memory) (address : Word) (mask value : BitVec 8) :
    memory.readWord address &&& (0#8 ++ 0#8 ++ 0#8 ++ mask) = 0#8 ++ 0#8 ++ 0#8 ++ value ↔
      memory address &&& mask = value := by
  rw [readWord, and_append, and_append, and_append, and_zero, and_zero, and_zero, append_right_inj]

theorem readWord_and_second (memory : Memory) (address : Word) (mask value : BitVec 8) :
    memory.readWord address &&& (0#8 ++ 0#8 ++ mask ++ 0#8) = 0#8 ++ 0#8 ++ value ++ 0#8 ↔
      memory (address + 1) &&& mask = value := by
  rw [readWord, and_append, and_append, and_append, and_zero, and_zero, and_zero, append_left_inj, append_right_inj]

end Memory

-- What the context has in these places is whatever the program left on its stack. Three
-- bytes decide: the low ones of the words for cs and ss, and the second one of eflags.
theorem sysSigreturn_userMode_iff (proc : Proc) : (sysSigreturn proc).2.UserMode ↔
    proc.memory (proc.tf.esp + 56) &&& 3 = 3 ∧ proc.memory (proc.tf.esp + 68) &&& 3 = 3 ∧
      proc.memory (proc.tf.esp + 61) &&& 0x02 ≠ 0 ∧ proc.memory (proc.tf.esp + 61) &&& 0x30 = 0 := by
  have hcs := proc.memory.readWord_and_first (proc.tf.esp + 56) 3 3
  have hss := proc.memory.readWord_and_first (proc.tf.esp + 68) 3 3
  have hif := proc.memory.readWord_and_second (proc.tf.esp + 60) 0x02 0
  have hiopl := proc.memory.readWord_and_second (proc.tf.esp + 60) 0x30 0
  have hsecond : proc.tf.esp + 60 + 1 = proc.tf.esp + 61 := by bv_omega
  rw [hsecond] at hif hiopl
  exact and_congr hcs (and_congr hss (and_congr (not_congr hif) hiopl))

-- A process that calls sigreturn with 8, the selector of the kernel code segment, where
-- the word for cs is expected.
def sigreturnKernelCode : Proc :=
  { Proc.zero with
    sz := 0x4000
    memory := Memory.writeWord (fun _ => 0) 0x3038 8
    tf := { Trapframe.zero with esp := 0x3000 } }

theorem sysSigreturn_kernel_code : (sysSigreturn sigreturnKernelCode).2.cs = 8 ∧
    ¬(sysSigreturn sigreturnKernelCode).2.UserMode := by decide

end Xv6

import Xv6.Ptable
import Xv6.Psig

namespace Xv6

open Memory

def SEG_KCODE : BitVec 16 := 1
def SEG_KDATA : BitVec 16 := 2

-- The trapframe as it lies on the kernel stack, from its lowest address on.
def Trapframe.words (tf : Trapframe) : List Word :=
  [tf.edi, tf.esi, tf.ebp, tf.oesp, tf.ebx, tf.edx, tf.ecx, tf.eax, tf.gs.setWidth 32, tf.fs.setWidth 32,
    tf.es.setWidth 32, tf.ds.setWidth 32, tf.trapno, tf.err, tf.eip, tf.cs.setWidth 32, tf.eflags, tf.esp,
    tf.ss.setWidth 32]

-- The kernel stack on entry to `jmptohandler`: the return address, then the arguments.
def Delivery.stack (delivery : Delivery) (retaddr : Word) : List Word :=
  [retaddr, delivery.handler, delivery.cs.setWidth 32, delivery.eflags, delivery.esp, delivery.ss.setWidth 32]

-- `trapret` starts at the trapframe.
def trapret : List Instr :=
  [.popal, .popl .gs, .popl .fs, .popl .es, .popl .ds, .addl 8 .esp, .iret]

def jmptohandler : List Instr := [.addl 4 .esp, .iret]

theorem jmptohandler_regs (processor : Processor) (kernel : Registers) (memory : Memory) (delivery : Delivery)
    (retaddr : Word) (h : memory.Stacked kernel.esp (delivery.stack retaddr)) :
    (X86.run processor jmptohandler ⟨kernel, memory⟩).regs = if delivery.cs.setWidth 2 = 0#2 then
        { kernel with
          eip := delivery.handler
          cs := delivery.cs
          eflags := delivery.eflags
          esp := kernel.esp + 16 }
      else
        { kernel with
          eip := delivery.handler
          cs := delivery.cs
          eflags := delivery.eflags
          esp := delivery.esp
          ss := delivery.ss
          ds := processor.outward kernel.ds
          es := processor.outward kernel.es
          fs := processor.outward kernel.fs
          gs := processor.outward kernel.gs } := by
  simp only [Delivery.stack, Stacked, BitVec.add_assoc, BitVec.ofNat_eq_ofNat, BitVec.reduceAdd] at h
  obtain ⟨-, heip, hcs, heflags, hesp, hss, -⟩ := h
  by_cases hlevel : delivery.cs.setWidth 2 = 0#2
  all_goals
    simp [jmptohandler, X86.run, X86.exec, Registers.get, Registers.set, X86.iret, X86.peek, BitVec.add_assoc,
      heip, hcs, heflags, hesp, hss, hlevel]

theorem trapret_regs (processor : Processor) (kernel : Registers) (memory : Memory) (tf : Trapframe)
    (h : memory.Stacked kernel.esp tf.words) :
    (X86.run processor trapret ⟨kernel, memory⟩).regs = if tf.cs.setWidth 2 = 0#2 then
        { tf.registers with esp := kernel.esp + 68, ss := kernel.ss }
      else
        { tf.registers with
          ds := processor.outward tf.ds
          es := processor.outward tf.es
          fs := processor.outward tf.fs
          gs := processor.outward tf.gs } := by
  simp only [Trapframe.words, Stacked, BitVec.add_assoc, BitVec.ofNat_eq_ofNat, BitVec.reduceAdd] at h
  obtain ⟨hedi, hesi, hebp, -, hebx, hedx, hecx, heax, hgs, hfs, hes, hds, -, -, heip, hcs, heflags, hesp, hss, -⟩ := h
  by_cases hlevel : tf.cs.setWidth 2 = 0#2
  all_goals
    simp [trapret, X86.run, X86.exec, X86.popal, X86.pop, Registers.get, Registers.set, Registers.setSegment,
      X86.iret, X86.peek, BitVec.add_assoc, Trapframe.registers, hedi, hesi, hebp, hebx, hedx, hecx, heax, hgs, hfs,
      hes, hds, heip, hcs, heflags, hesp, hss, hlevel]

-- The trapframe that `trapret` would have to start from to enter the handler.
def Proc.handlerFrame (proc : Proc) : Trapframe :=
  { proc.tf with eip := proc.delivery.handler, esp := proc.delivery.esp }

section

variable (proc : Proc) (processor : Processor) (kernel : Registers) (memory : Memory)

-- The kernel stack and the two exits: `jmptohandler` called by psig, and `trapret` with
-- the stack pointer at a trapframe.
def Proc.viaJmptohandler (retaddr : Word) : Registers :=
  (X86.run processor jmptohandler ⟨kernel, memory.push kernel.esp (proc.delivery.stack retaddr)⟩).regs

def Proc.viaTrapret (frame : Word) : Registers :=
  (X86.run processor trapret ⟨{ kernel with esp := frame }, memory.push frame proc.handlerFrame.words⟩).regs

end

-- Where the kernel's registers do what the trapframe's would.
structure Registers.Matches (kernel : Registers) (tf : Trapframe) (outward : BitVec 16 → BitVec 16) : Prop where
  edi : kernel.edi = tf.edi
  esi : kernel.esi = tf.esi
  ebp : kernel.ebp = tf.ebp
  ebx : kernel.ebx = tf.ebx
  edx : kernel.edx = tf.edx
  ecx : kernel.ecx = tf.ecx
  eax : kernel.eax = tf.eax
  gs : outward kernel.gs = outward tf.gs
  fs : outward kernel.fs = outward tf.fs
  es : outward kernel.es = outward tf.es
  ds : outward kernel.ds = outward tf.ds

theorem jmptohandler_eq_trapret_iff (proc : Proc) (processor : Processor) (kernel : Registers) (memory : Memory)
    (retaddr frame : Word) :
    proc.viaJmptohandler processor kernel memory retaddr = proc.viaTrapret processor kernel memory frame ↔
      if proc.tf.cs.setWidth 2 = 0#2 then kernel.Matches proc.tf id ∧ kernel.esp + 16 = frame + 68
      else kernel.Matches proc.tf processor.outward := by
  have hcall := stacked_push memory kernel.esp (proc.delivery.stack retaddr) (by simp [Delivery.stack])
  have hframe := stacked_push memory frame proc.handlerFrame.words (by simp [Trapframe.words])
  have hcs : proc.delivery.cs = proc.tf.cs := rfl
  have hcs' : proc.handlerFrame.cs = proc.tf.cs := rfl
  unfold Proc.viaJmptohandler Proc.viaTrapret
  rw [jmptohandler_regs processor kernel _ proc.delivery retaddr hcall,
    trapret_regs processor { kernel with esp := frame } _ proc.handlerFrame hframe, hcs, hcs']
  split_ifs
  all_goals
    simp only [Registers.mk.injEq, Trapframe.registers, Proc.handlerFrame, Proc.delivery, Proc.deliver, true_and,
      and_true]
    constructor
  · rintro ⟨hedi, hesi, hebp, hebx, hedx, hecx, heax, hgs, hfs, hes, hds, hesp⟩
    exact ⟨⟨hedi, hesi, hebp, hebx, hedx, hecx, heax, hgs, hfs, hes, hds⟩, hesp⟩
  · rintro ⟨h, hesp⟩
    exact ⟨h.edi, h.esi, h.ebp, h.ebx, h.edx, h.ecx, h.eax, h.gs, h.fs, h.es, h.ds, hesp⟩
  · rintro ⟨hedi, hesi, hebp, hebx, hedx, hecx, heax, hgs, hfs, hes, hds⟩
    exact ⟨hedi, hesi, hebp, hebx, hedx, hecx, heax, hgs, hfs, hes, hds⟩
  · intro h
    exact ⟨h.edi, h.esi, h.ebp, h.ebx, h.edx, h.ecx, h.eax, h.gs, h.fs, h.es, h.ds⟩

-- The segments of the kernel are the first two in its table, and user mode may not use them.
def protect (selector : BitVec 16) : BitVec 16 := if selector >>> 3 ≤ SEG_KDATA then 0 else selector

-- The first process with its first handler, and the kernel with the data segments that
-- `alltraps` gives it.
def handled : Proc := (Proc.initcode .zero fun _ => 0).install 16 SIGINT 64

def kernelRegisters : Registers :=
  { handled.tf.registers with
    cs := SEG_KCODE <<< 3
    ds := SEG_KDATA <<< 3
    es := SEG_KDATA <<< 3
    ss := SEG_KDATA <<< 3
    esp := 0x8dfffe00 }

theorem jmptohandler_loses_segments :
    handled.viaJmptohandler ⟨id, protect⟩ kernelRegisters (fun _ => 0) 0x80104000 ≠
      handled.viaTrapret ⟨id, protect⟩ kernelRegisters (fun _ => 0) 0x8dffffb4 ∧
    (handled.viaTrapret ⟨id, protect⟩ kernelRegisters (fun _ => 0) 0x8dffffb4).ds = SEG_UDATA <<< 3 ||| DPL_USER ∧
    (handled.viaJmptohandler ⟨id, protect⟩ kernelRegisters (fun _ => 0) 0x80104000).ds = 0 ∧
    (handled.viaJmptohandler ⟨id, id⟩ kernelRegisters (fun _ => 0) 0x80104000).ds = SEG_KDATA <<< 3 := by
  decide +kernel

end Xv6

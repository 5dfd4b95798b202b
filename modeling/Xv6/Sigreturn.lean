import Xv6.Proc
import Xv6.X86

namespace Xv6

-- The arguments of `restoreuser`, in the order in which `kernel_sigreturn` passes them.
structure Context where
  edi : Word
  esi : Word
  ebp : Word
  oesp : Word
  ebx : Word
  edx : Word
  ecx : Word
  eax : Word
  gs : Word
  fs : Word
  es : Word
  ds : Word
  eip : Word
  cs : Word
  eflag : Word
  esp : Word
  ss : Word
  deriving DecidableEq, Repr

def Trapframe.registers (tf : Trapframe) : Registers where
  edi := tf.edi
  esi := tf.esi
  ebp := tf.ebp
  ebx := tf.ebx
  edx := tf.edx
  ecx := tf.ecx
  eax := tf.eax
  gs := tf.gs
  fs := tf.fs
  es := tf.es
  ds := tf.ds
  eip := tf.eip
  cs := tf.cs
  eflags := tf.eflags
  esp := tf.esp
  ss := tf.ss

-- The sum wraps around, as the unsigned sum in the source does.
def fetchint (proc : Proc) (address : Word) : Option Word :=
  if proc.sz ≤ address ∨ proc.sz < address + 4 then none else some (proc.memory.readWord address)

-- The user stack pointer points to the argument of the handler, one word below the frame.
def kernelSigreturn (proc : Proc) : Context :=
  let word := fun (offset : Nat) => proc.memory.readWord (proc.tf.esp + BitVec.ofNat 32 offset)
  { edi := word 4
    esi := word 8
    ebp := word 12
    oesp := word 16
    ebx := word 20
    edx := word 24
    ecx := word 28
    eax := word 32
    gs := word 36
    fs := word 40
    es := word 44
    ds := word 48
    eip := word 52
    cs := word 56
    eflag := word 60
    ss := word 68
    esp := word 64 }

-- The words `kernel_sigreturn` reads, in order.
def sigreturnLoads : List Nat :=
  [4, 8, 12, 16, 20, 24, 28, 32, 36, 40, 44, 48, 52, 56, 60, 68, 64]

-- The result of `fetchint` is not looked at, and `kernel_sigreturn` does not use its argument.
def sysSigreturn (proc : Proc) : Option Word × Context :=
  (fetchint proc proc.tf.esp, kernelSigreturn proc)

-- The kernel stack on entry to `restoreuser`: the return address, then the arguments.
def Context.stack (context : Context) (retaddr : Word) : List Word :=
  [retaddr, context.edi, context.esi, context.ebp, context.oesp, context.ebx, context.edx,
    context.ecx, context.eax, context.gs, context.fs, context.es, context.ds, context.eip,
    context.cs, context.eflag, context.esp, context.ss]

-- `addl $4, %esp`, `popal` (which drops the saved stack pointer), four segment registers
-- and `iret`, which on its way to user mode takes five words. Segment registers take the
-- low half of the word popped.
def restoreuser : List Word → Option Registers
  | _ :: edi :: esi :: ebp :: _ :: ebx :: edx :: ecx :: eax :: gs :: fs :: es :: ds ::
      eip :: cs :: eflags :: esp :: ss :: _ =>
      some
        { edi, esi, ebp, ebx, edx, ecx, eax
          gs := gs.setWidth 16
          fs := fs.setWidth 16
          es := es.setWidth 16
          ds := ds.setWidth 16
          eip
          cs := cs.setWidth 16
          eflags, esp
          ss := ss.setWidth 16 }
  | _ => none

end Xv6

import Xv6.Memory.Theorems

namespace Xv6

-- The registers of a program.
structure Registers where
  edi : Word
  esi : Word
  ebp : Word
  ebx : Word
  edx : Word
  ecx : Word
  eax : Word
  gs : BitVec 16
  fs : BitVec 16
  es : BitVec 16
  ds : BitVec 16
  eip : Word
  cs : BitVec 16
  eflags : Word
  esp : Word
  ss : BitVec 16
  deriving DecidableEq, Repr

inductive Reg where
  | eax | ecx | edx | ebx | esp | ebp | esi | edi
  deriving DecidableEq, Repr

inductive Seg where
  | ds | es | fs | gs
  deriving DecidableEq, Repr

namespace Registers

def get (regs : Registers) : Reg → Word
  | .eax => regs.eax
  | .ecx => regs.ecx
  | .edx => regs.edx
  | .ebx => regs.ebx
  | .esp => regs.esp
  | .ebp => regs.ebp
  | .esi => regs.esi
  | .edi => regs.edi

def set (regs : Registers) (value : Word) : Reg → Registers
  | .eax => { regs with eax := value }
  | .ecx => { regs with ecx := value }
  | .edx => { regs with edx := value }
  | .ebx => { regs with ebx := value }
  | .esp => { regs with esp := value }
  | .ebp => { regs with ebp := value }
  | .esi => { regs with esi := value }
  | .edi => { regs with edi := value }

def setSegment (regs : Registers) (selector : BitVec 16) : Seg → Registers
  | .ds => { regs with ds := selector }
  | .es => { regs with es := selector }
  | .fs => { regs with fs := selector }
  | .gs => { regs with gs := selector }

end Registers

inductive Location where
  | reg (reg : Reg)
  | mem (base : Reg) (displacement : Word)
  deriving DecidableEq, Repr

inductive Operand where
  | imm (value : Word)
  | location (location : Location)
  deriving DecidableEq, Repr

-- Instructions with the source before the target.
inductive Instr where
  | movl (source : Operand) (target : Location)
  | addl (amount : Word) (target : Reg)
  | subl (amount : Word) (target : Reg)
  | popl (target : Seg)
  | popal
  | int
  | ret
  | iret
  deriving DecidableEq, Repr

structure X86 where
  regs : Registers
  memory : Memory

-- `trap` is all that happens between an `int` and the next instruction. `outward` is what
-- an `iret` to an outer level leaves in a data segment register: processors take out the
-- selectors of segments that the outer level may not use, some emulators do not.
structure Processor where
  trap : X86 → X86
  outward : BitVec 16 → BitVec 16

namespace X86

section

variable (state : X86)

def pop (words : Nat) : X86 :=
  { state with regs := { state.regs with esp := state.regs.esp + BitVec.ofNat 32 (4 * words) } }

-- The word at this depth of the stack.
def peek (depth : Nat) : Word :=
  state.memory.readWord (state.regs.esp + BitVec.ofNat 32 (4 * depth))

def read : Operand → Word
  | .imm value => value
  | .location (.reg reg) => state.regs.get reg
  | .location (.mem base displacement) => state.memory.readWord (state.regs.get base + displacement)

def write (value : Word) : Location → X86
  | .reg reg => { state with regs := state.regs.set value reg }
  | .mem base displacement =>
    { state with memory := state.memory.writeWord (state.regs.get base + displacement) value }

-- The saved stack pointer is dropped.
def popal : X86 :=
  { state with
    regs :=
      { state.regs with
        edi := state.peek 0
        esi := state.peek 1
        ebp := state.peek 2
        ebx := state.peek 4
        edx := state.peek 5
        ecx := state.peek 6
        eax := state.peek 7
        esp := state.regs.esp + 32 } }

end

-- At level 0. Only on the way to another level is the stack switched, too.
def iret (outward : BitVec 16 → BitVec 16) (state : X86) : X86 :=
  let regs :=
    { state.regs with
      eip := state.peek 0
      cs := (state.peek 1).setWidth 16
      eflags := state.peek 2 }
  if (state.peek 1).setWidth 2 = 0#2 then { state with regs := { regs with esp := state.regs.esp + 12 } }
  else
    { state with
      regs :=
        { regs with
          esp := state.peek 3
          ss := (state.peek 4).setWidth 16
          ds := outward regs.ds
          es := outward regs.es
          fs := outward regs.fs
          gs := outward regs.gs } }

def exec (processor : Processor) (state : X86) : Instr → X86
  | .movl source target => state.write (state.read source) target
  | .addl amount target => { state with regs := state.regs.set (state.regs.get target + amount) target }
  | .subl amount target => { state with regs := state.regs.set (state.regs.get target - amount) target }
  | .popl target => ({ state with regs := state.regs.setSegment ((state.peek 0).setWidth 16) target } : X86).pop 1
  | .popal => state.popal
  | .int => processor.trap state
  | .ret => ({ state with regs := { state.regs with eip := state.peek 0 } } : X86).pop 1
  | .iret => state.iret processor.outward

-- Straight-line code, up to the jump at its end.
def run (processor : Processor) (code : List Instr) (state : X86) : X86 := code.foldl (exec processor) state

theorem run_append (processor : Processor) (first second : List Instr) (state : X86) :
    run processor (first ++ second) state = run processor second (run processor first state) :=
  List.foldl_append

-- `call`, at the start of the code called.
def call (state : X86) (retaddr : Word) : X86 :=
  let esp := state.regs.esp - 4
  ⟨{ state.regs with esp }, state.memory.writeWord esp retaddr⟩

end X86

namespace Memory

-- Words pushed one after the other, the first in the list last, up to this address.
def push (memory : Memory) (address : Word) : List Word → Memory
  | [] => memory
  | word :: rest => (memory.push (address + 4) rest).writeWord address word

-- These words lie at the address, the first one lowest.
def Stacked (memory : Memory) (address : Word) : List Word → Prop
  | [] => True
  | word :: rest => memory.readWord address = word ∧ memory.Stacked (address + 4) rest

theorem Stacked.writeWord {memory : Memory} {address : Word} {words : List Word} (h : memory.Stacked address words)
    (other value : Word) (habove : 4 ≤ (address - other).toNat)
    (hwrap : (address - other).toNat + 4 * words.length ≤ 2 ^ 32) :
    (memory.writeWord other value).Stacked address words := by
  induction words generalizing address with
  | nil => trivial
  | cons word rest ih =>
    obtain ⟨hword, hrest⟩ := h
    simp only [List.length_cons] at hwrap
    constructor
    · rw [readWord_writeWord_of_apart memory other address value habove (by bv_omega), hword]
    · cases rest with
      | nil => trivial
      | cons next rest =>
        simp only [List.length_cons] at hwrap
        have hnext : (address + 4 - other).toNat = (address - other).toNat + 4 := by bv_omega
        exact ih hrest (by omega) (by simp only [List.length_cons]; omega)

theorem stacked_push (memory : Memory) (address : Word) (words : List Word) (hfits : words.length ≤ 2 ^ 29) :
    (memory.push address words).Stacked address words := by
  induction words generalizing address with
  | nil => trivial
  | cons word rest ih =>
    simp only [List.length_cons] at hfits
    refine ⟨readWord_writeWord_self _ _ _, (ih (address + 4) (by omega)).writeWord _ _ ?_ ?_⟩
    · bv_omega
    · bv_omega

end Memory

end Xv6

import Xv6.Cycle
import Xv6.Runs

namespace Xv6

-- The memory of the allocator in units of a Header. `base` is at 0, below all that sbrk returns. The
-- fields of a header are there for every unit, as any unit may become one. The last three are not
-- read by the code: where the memory ends, which units sbrk has returned, and the headers of the
-- blocks in use with the number of bytes asked for.
structure Heap where
  ptr : Nat → Nat
  size : Nat → Nat
  freep : Option Nat
  brk : Nat
  obtained : Nat → Bool
  live : List (Nat × Nat)

namespace Heap

section

variable (heap : Heap)

def setPtr (unit ptr : Nat) : Heap := { heap with ptr := Function.update heap.ptr unit ptr }

def setSize (unit size : Nat) : Heap := { heap with size := Function.update heap.size unit size }

-- Where the loop of free ends: the block goes between this one and the next, or there is no such place.
def between (bp p : Nat) : Bool :=
  (p < bp && bp < heap.ptr p) || (heap.ptr p ≤ p && (p < bp || bp < heap.ptr p))

-- The block is joined with the one that will follow it, or points there.
def joinNext (p bp : Nat) : Heap :=
  let next := heap.ptr p
  if bp + heap.size bp = next then (heap.setSize bp (heap.size bp + heap.size next)).setPtr bp (heap.ptr next)
  else heap.setPtr bp next

-- The same with the one before it.
def joinPrev (p bp : Nat) : Heap :=
  if p + heap.size p = bp then (heap.setSize p (heap.size p + heap.size bp)).setPtr p (heap.ptr bp)
  else heap.setPtr p bp

-- The block is put behind `p`.
def insert (p bp : Nat) : Heap := { (heap.joinNext p bp).joinPrev p bp with freep := some p }

-- There is no result if the loop takes more turns than that. The pointer is null before the first malloc.
def free (turns bp : Nat) : Option Heap :=
  match heap.freep with
  | none => none
  | some freep => (follow heap.ptr (heap.between bp) turns freep).map fun p => heap.insert p bp

-- What sbrk returns lies this far above all memory up to now. It becomes a block of this size.
def extend (gap nu : Nat) : Heap :=
  { heap.setSize (heap.brk + gap) nu with
    brk := heap.brk + gap + nu
    obtained := fun unit => heap.obtained unit || (heap.brk + gap ≤ unit && unit < heap.brk + gap + nu) }

-- There is no gap if sbrk fails.
def morecore (turns nu : Nat) (gap : Option Nat) : Option (Heap × Option Nat) :=
  let nu := if nu < 4096 then 4096 else nu
  match gap with
  | none => some (heap, none)
  | some gap => ((heap.extend gap nu).free turns (heap.brk + gap)).map fun heap => (heap, heap.freep)

-- A block that is large enough is taken out of the list, or its upper part.
def take (nbytes nunits prevp p : Nat) : Heap × Option Nat :=
  if heap.size p = nunits then
    ({ heap.setPtr prevp (heap.ptr p) with freep := some prevp, live := (p, nbytes) :: heap.live }, some p)
  else
    let rest := heap.size p - nunits
    ({ (heap.setSize p rest).setSize (p + rest) nunits with
        freep := some prevp
        live := (p + rest, nbytes) :: heap.live }, some (p + rest))

end

-- The loop of malloc.
def search (nbytes nunits : Nat) (gap : Option Nat) : Nat → Heap → Nat → Nat → Option (Heap × Option Nat)
  | 0, _, _, _ => none
  | turns + 1, heap, prevp, p =>
    if nunits ≤ heap.size p then some (heap.take nbytes nunits prevp p)
    else if heap.freep = some p then
      match heap.morecore turns nunits gap with
      | none => none
      | some (heap, none) => some (heap, none)
      | some (heap, some p) => search nbytes nunits gap turns heap p (heap.ptr p)
    else search nbytes nunits gap turns heap p (heap.ptr p)

def nunits (nbytes : Nat) : Nat := (nbytes + 7) / 8 + 1

-- The list that malloc makes at first.
def firstList (heap : Heap) : Heap := { (heap.setPtr 0 0).setSize 0 0 with freep := some 0 }

-- The header of the new block, or null.
def malloc (heap : Heap) (turns nbytes : Nat) (gap : Option Nat) : Option (Heap × Option Nat) :=
  let heap :=
    match heap.freep with
    | none => heap.firstList
    | some _ => heap
  match heap.freep with
  | none => none
  | some prevp => search nbytes (nunits nbytes) gap turns heap prevp (heap.ptr prevp)

end Heap

-- A program uses the allocator, and its blocks for anything.
inductive HeapCall where
  | malloc (turns nbytes : Nat) (gap : Option Nat)
  | free (turns bp : Nat)
  | store (unit ptr size : Nat)

namespace Heap

def isLive (heap : Heap) (bp : Nat) : Bool := heap.live.any fun block => block.1 == bp

-- The unit is in a block in use, behind its header.
def usable (heap : Heap) (unit : Nat) : Bool :=
  heap.live.any fun block => block.1 < unit && unit < block.1 + heap.size block.1

def release (heap : Heap) (bp : Nat) : Heap := { heap with live := heap.live.eraseP fun block => block.1 == bp }

-- A call that returns.
def step (heap : Heap) : HeapCall → Option Heap
  | .malloc turns nbytes gap => (heap.malloc turns nbytes gap).map (·.1)
  | .free turns bp => if heap.isLive bp then (heap.release bp).free turns bp else none
  | .store unit ptr size => if heap.usable unit then some ((heap.setPtr unit ptr).setSize unit size) else none

-- Before the first call there is nothing.
structure Fresh (heap : Heap) : Prop where
  freep : heap.freep = none
  brk_pos : 0 < heap.brk
  obtained : ∀ unit, heap.obtained unit = false
  live : heap.live = []

abbrev Reach : Heap → Prop := Xv6.Reach step (fun _ _ => True) Fresh

end Heap

end Xv6

import Mathlib.Tactic

/-! The stack of an lthread and `_lthread_madvise`, which gives the pages below it back to
the kernel each time the lthread has yielded. -/

namespace Lthr

def maxStackSize : BitVec 64 := 128 * 1024

/-- The stack size of a scheduler that `lthread_init` or `sched_create` makes. -/
def schedStackSize (stackSize : BitVec 64) : BitVec 64 := if stackSize ≠ 0 then stackSize else maxStackSize

/-- A call `madvise(lt->stack, length, MADV_DONTNEED)`, with the depth of the stack then. -/
structure Madvise where
  length : BitVec 64
  currentStack : BitVec 64
  deriving DecidableEq, Repr

/-- `stack_size` and `last_stack_size` of an lthread, and `page_size` of its scheduler, an
`int`. -/
structure LtStack where
  stackSize : BitVec 64
  lastStackSize : BitVec 64
  pageSize : BitVec 32
  deriving DecidableEq, Repr

namespace LtStack

def create (stackSize : BitVec 64) (pageSize : BitVec 32) : LtStack :=
  { stackSize := stackSize, lastStackSize := 0, pageSize := pageSize }

def tmp (s : LtStack) (currentStack : BitVec 64) : BitVec 64 :=
  currentStack + (-currentStack &&& (s.pageSize - 1).signExtend 64)

def lthreadMadvise (s : LtStack) (currentStack : BitVec 64) : Option (LtStack × Option Madvise) :=
  if currentStack ≤ s.stackSize then
    let s' := { s with lastStackSize := currentStack }
    if currentStack < s.lastStackSize ∧ s.pageSize.signExtend 64 < s.lastStackSize then
      some (s', some ⟨s.stackSize - s.tmp currentStack, currentStack⟩)
    else some (s', none)
  else none

/-- The calls made when the lthread yields at one depth after the other. -/
def yields (s : LtStack) : List (BitVec 64) → Option (List Madvise)
  | [] => some []
  | currentStack :: depths => do
    let (s, m) ← s.lthreadMadvise currentStack
    let ms ← s.yields depths
    some (m.toList ++ ms)

end LtStack
end Lthr

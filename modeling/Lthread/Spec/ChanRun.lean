import Lthread.Lib.Machine
import Lthread.Spec.Chan

/-! Runs of channel operations in any cooperative interleaving. Between two
steps every lthread is in its own code (and may make its next call at any
time), or suspended in a channel call. The order in which ready lthreads are
resumed and the moment at which a sleeping one expires are left open, so every
schedule of `lthread_run` is among the runs. -/

namespace Lthr

inductive ChanOp
  | send (c : ChanId) (data : Ptr)
  | sendNoblock (c : ChanId) (data : Ptr)
  | recv (c : ChanId) (data : Ptr)
  | select (n : ℕ) (chans : ℕ → ChanId) (msgs : ℕ → Ptr) (w r timeout : ℕ)
  | close (c : ChanId)

inductive ChanLabel
  | clock (usecs : ℕ)
  | call (l : LtId) (op : ChanOp)
  -- the scheduler takes `l` from the ready queue and resumes it
  | resume (l : LtId)
  | expire (l : LtId)

namespace Sys

/-- What the caller owes: at most as many cases as a selector has entries, and
no selector that another lthread is blocked on. -/
def callable (x : Sys) : ChanOp → Prop
  | .select n _ _ w r _ => w + r ≤ LTHR_SEL_CHANS ∧ (x.ch.sel (.heap n)).user = none
  | _ => True

instance (x : Sys) : (op : ChanOp) → Decidable (x.callable op)
  | .select n _ _ w r _ =>
    inferInstanceAs (Decidable (w + r ≤ LTHR_SEL_CHANS ∧ (x.ch.sel (.heap n)).user = none))
  | .send _ _ | .sendNoblock _ _ | .recv _ _ | .close _ => inferInstanceAs (Decidable True)

def callOp (x : Sys) (l : LtId) : ChanOp → Option (Sys × Option ℤ)
  | .send c data => x.chanSend l c data
  | .sendNoblock c data => x.chanSendNoblock l c data
  | .recv c data => x.chanRecv l c data
  | .select n chans msgs w r timeout => x.chanSelect l (.heap n) chans msgs w r timeout
  | .close c => some ((x.chanClose c).1, some (x.chanClose c).2)

def returnFrom (x : Sys) (l : LtId) (s : SelId) (timeout : ℕ) : Sys :=
  let (x', r) := x.chanBlockSelectEnd l s timeout
  { x' with ch := x'.ch.finish s r }

def chanStep (x : Sys) : ChanLabel → Option Sys
  | .clock t => some { x with sched := { x.sched with usecNow := t } }
  | .call l op =>
    if (x.sched.lt l).ctx = .running ∧ x.callable op then
      match x.callOp l op with
      | none => none
      | some (x', some _) => some x'
      -- once the lthread has yielded, `_lthread_resume_expired` clears the bit it had set
      | some (x', none) => some { x' with sched := x'.sched.clearBit l .expired }
    else none
  | .resume l =>
    match (x.sched.lt l).ctx with
    | .selWait s t =>
      if l ∈ x.sched.ready then
        some (returnFrom { x with sched := { x.sched with ready := x.sched.ready.erase l } } l s t)
      else none
    | _ => none
  | .expire l =>
    match (x.sched.lt l).ctx with
    | .selWait s t =>
      if l ∈ x.sched.sleeping then
        some (returnFrom { x with
          sched := (x.sched.lthreadDeschedSleep l).setBit l .expired } l s t)
      else none
    | _ => none

def freshLt : Lt :=
  { state := fun b => decide (b = .ready), ctx := .running, fdWait := -1, ltJoin := none
    ltExitPtr := none, ops := 0, sleepUsecs := 0, computeSched := none, freed := false }

def freshSel : Sel :=
  { chans := fun _ => 0, msgs := fun _ => NULL, wchanCount := 0, rchanCount := 0, target := -1
    ticket := 0, given := fun _ => NULL, user := none }

def chanStart (capacity : ChanId → ℕ) : Sys :=
  { sched :=
      { lt := fun _ => freshLt, spawned := 0, birth := 0, usecNow := 0, ready := [], defer := []
        busy := [], sleeping := [], waiting := [], blocked := fun _ => [] }
    ch :=
      { chan := fun c => chanInit (capacity c), sel := fun _ => freshSel, tqeNext := fun _ => none
        hist := { accepted := fun _ => [], handed := fun _ => [], returns := [], calls := 0 } } }

end Sys

def chanMachine : Machine Sys ChanLabel where
  init x := ∃ capacity, x = Sys.chanStart capacity
  step x a x' := x.chanStep a = some x'

def anyStep (_ : Sys) (_ : ChanLabel) : Prop := True

end Lthr

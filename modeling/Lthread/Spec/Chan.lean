import Lthread.Lib.Tailq
import Lthread.Spec.Fifo
import Lthread.Spec.Sched

/-! `chan.c`: channels and selectors. The functions follow the source line by
line; a failing `assert` is `none`. Beside the state of the code the model keeps
a history (`hist`, the `ticket` and `user` of a selector): it records when a
message is accepted by a channel and when it is handed to a receiver, and no
function reads it. -/

namespace Lthr

abbrev ChanId := ℕ

structure Wait where
  sel : SelId
  idx : ℕ
  deriving DecidableEq, Repr

def LTHR_SEL_CHANS : ℕ := 8

def LTHREAD_FOREVER : ℕ := 0x01FFFFFF

structure Chan where
  queue : Option Queue
  closed : Bool
  sendCount : ℤ
  sendq : List Wait
  recvCount : ℤ
  recvq : List Wait

/-- The two wait queues of a channel, each with its count. -/
inductive Side
  | send
  | recv
  deriving DecidableEq, Repr

namespace Chan

def waitq (c : Chan) : Side → List Wait
  | .send => c.sendq
  | .recv => c.recvq

def waitCount (c : Chan) : Side → ℤ
  | .send => c.sendCount
  | .recv => c.recvCount

def setWaitq (c : Chan) (side : Side) (q : List Wait) (n : ℤ) : Chan :=
  match side with
  | .send => { c with sendq := q, sendCount := n }
  | .recv => { c with recvq := q, recvCount := n }

end Chan

def chanInit (capacity : ℕ) : Chan :=
  { queue := if 0 < capacity then queueInit capacity else none
    closed := false, sendCount := 0, sendq := [], recvCount := 0, recvq := [] }

def Chan.buffer (c : Chan) : List Ptr :=
  match c.queue with
  | some q => q.toList
  | none => []

/-- `struct lthread_sel`. The arrays of the caller are read at the indices below
`wchanCount + rchanCount` only. History: `ticket` numbers the calls by their
start, `given` is the content of `msgs` at the start of the call, `user` the
lthread suspended in a call with this selector. -/
structure Sel where
  chans : ℕ → ChanId
  msgs : ℕ → Ptr
  wchanCount : ℕ
  rchanCount : ℕ
  target : ℤ
  ticket : ℕ
  given : ℕ → Ptr
  user : Option LtId

/-- A message with the call and the case it came from, or went to. -/
structure Passed where
  ticket : ℕ
  idx : ℕ
  msg : Ptr
  deriving DecidableEq, Repr

/-- A call that has returned: the selector as the call leaves it, and the result. -/
structure Ret where
  call : Sel
  result : ℤ

structure Hist where
  accepted : ChanId → List Passed
  handed : ChanId → List Passed
  returns : List Ret
  calls : ℕ

structure Chans where
  chan : ChanId → Chan
  sel : SelId → Sel
  -- `entry.tqe_next` of the wait entries that are not linked
  tqeNext : Wait → Option Wait
  hist : Hist

namespace Chans

def modChan (st : Chans) (c : ChanId) (f : Chan → Chan) : Chans :=
  { st with chan := Function.update st.chan c (f (st.chan c)) }

def modSel (st : Chans) (s : SelId) (f : Sel → Sel) : Chans :=
  { st with sel := Function.update st.sel s (f (st.sel s)) }

def setTarget (st : Chans) (s : SelId) (t : ℤ) : Chans := st.modSel s ({ · with target := t })

def setMsg (st : Chans) (s : SelId) (idx : ℕ) (m : Ptr) : Chans :=
  st.modSel s fun x => { x with msgs := Function.update x.msgs idx m }

def setQueue (st : Chans) (c : ChanId) (q : Queue) : Chans :=
  st.modChan c ({ · with queue := some q })

/-- History: channel `c` takes `msgs[idx]` of the call that uses `s`. -/
def accept (st : Chans) (c : ChanId) (s : SelId) (idx : ℕ) : Chans :=
  let p : Passed := ⟨(st.sel s).ticket, idx, (st.sel s).msgs idx⟩
  { st with hist := { st.hist with
      accepted := Function.update st.hist.accepted c (st.hist.accepted c ++ [p]) } }

def hand (st : Chans) (c : ChanId) (s : SelId) (idx : ℕ) (m : Ptr) : Chans :=
  let p : Passed := ⟨(st.sel s).ticket, idx, m⟩
  { st with hist := { st.hist with
      handed := Function.update st.hist.handed c (st.hist.handed c ++ [p]) } }

/-- The indices of the send cases, and those of the receive cases after them. -/
def idxs (st : Chans) (s : SelId) : Side → List ℕ
  | .send => List.range (st.sel s).wchanCount
  | .recv => List.range' (st.sel s).wchanCount (st.sel s).rchanCount

/-- `TAILQ_REMOVE(&chan->sendq, &sel->waits[i], entry); --chan->send_count` with
`chan = sel->chans[i]`, or the same for `recvq`. -/
def removeWait (side : Side) (s : SelId) (st : Chans) (i : ℕ) : Chans :=
  let c := (st.sel s).chans i
  let q := (st.chan c).waitq side
  { st.modChan c fun x => x.setWaitq side (q.erase ⟨s, i⟩) (x.waitCount side - 1) with
    tqeNext := Tailq.unlink q st.tqeNext ⟨s, i⟩ }

def selRemoveAllChans (st : Chans) (s : SelId) : Chans :=
  let st' := (st.idxs s .send).foldl (removeWait .send s) st
  (st.idxs s .recv).foldl (removeWait .recv s) st'

/-- `chan_try_send`. The walk over `recvq` stops at the first selector whose
target is still -1; if there is none, `other_sel` is NULL or has another target. -/
def chanTrySend (st : Chans) (s : SelId) (c : ChanId) (idx : ℕ) (pwait : Option Wait) :
    Option (Chans × Option Wait × Bool) :=
  if (st.chan c).closed then none
  else
    let msg := (st.sel s).msgs idx
    let room := match (st.chan c).queue with
      | some q => if q.size < q.capacity then some q else none
      | none => none
    let st := match room with
      | some q => ((st.accept c s idx).setQueue c (q.add msg).1).setTarget s idx
      | none => st
    let (st, pwait) :=
      match (st.chan c).recvq.find? fun w => decide ((st.sel w.sel).target = -1) with
      | none => (st, pwait)
      | some w =>
        let st := match room, (st.chan c).queue with
          | some _, some q =>
            ((st.setQueue c q.remove.2).setMsg w.sel w.idx q.remove.1).hand c w.sel w.idx q.remove.1
          | _, _ =>
            (((st.accept c s idx).setMsg w.sel w.idx msg).hand c w.sel w.idx msg).setTarget s idx
        if (st.sel w.sel).target = -1 then
          ((st.selRemoveAllChans w.sel).setTarget w.sel w.idx, some w)
        else (st, pwait)
    some (st, pwait, decide ((st.sel s).target ≠ -1))

/-- `chan_try_recv`. The walk over `sendq` always stops at the first entry. -/
def chanTryRecv (st : Chans) (s : SelId) (c : ChanId) (idx : ℕ) (pwait : Option Wait) :
    Chans × Option Wait × Bool :=
  let buffered := match (st.chan c).queue with
    | some q => if 0 < q.size then some q else none
    | none => none
  let st := match buffered with
    | some q =>
      (((st.setQueue c q.remove.2).setMsg s idx q.remove.1).hand c s idx q.remove.1).setTarget s idx
    | none => st
  let (st, pwait) :=
    match (st.chan c).sendq.head? with
    | none => (st, pwait)
    | some w =>
      let st :=
        if (st.sel w.sel).target = -1 then
          let msg := (st.sel w.sel).msgs w.idx
          match buffered, (st.chan c).queue with
          | some _, some q => (st.accept c w.sel w.idx).setQueue c (q.add msg).1
          | _, _ =>
            (((st.accept c w.sel w.idx).setMsg s idx msg).hand c s idx msg).setTarget s idx
        else st
      if (st.sel w.sel).target = -1 then
        ((st.selRemoveAllChans w.sel).setTarget w.sel w.idx, some w)
      else (st, pwait)
  if (st.sel s).target ≠ -1 then (st, pwait, true)
  else if (st.chan c).closed then ((st.setMsg s idx NULL).setTarget s idx, pwait, true)
  else (st, pwait, false)

def trySends (s : SelId) : List ℕ → Chans → Option Wait → Option (Chans × Option Wait)
  | [], st, wait => some (st, wait)
  | i :: is, st, wait =>
    match st.chanTrySend s ((st.sel s).chans i) i wait with
    | none => none
    | some (st, wait, found) => if found then some (st, wait) else trySends s is st wait

def tryRecvs (s : SelId) : List ℕ → Chans → Option Wait → Chans × Option Wait
  | [], st, wait => (st, wait)
  | i :: is, st, wait =>
    match st.chanTryRecv s ((st.sel s).chans i) i wait with
    | (st, wait, found) => if found then (st, wait) else tryRecvs s is st wait

/-- Both loops; the second one runs only if the first found nothing. -/
def tryAll (st : Chans) (s : SelId) : Option (Chans × Option Wait) :=
  match trySends s (st.idxs s .send) st none with
  | none => none
  | some (st, wait) =>
    if (st.sel s).target = -1 then some (tryRecvs s (st.idxs s .recv) st wait) else some (st, wait)

/-- `++chan->send_count; TAILQ_INSERT_TAIL(&chan->sendq, &sel->waits[i], entry)`,
or the same for `recvq`. -/
def insertWait (side : Side) (s : SelId) (st : Chans) (i : ℕ) : Chans :=
  st.modChan ((st.sel s).chans i) fun x =>
    x.setWaitq side (x.waitq side ++ [⟨s, i⟩]) (x.waitCount side + 1)

/-- The two loops of `chan_block_select_` that link the wait entries. -/
def register (st : Chans) (s : SelId) : Chans :=
  let st' := (st.idxs s .send).foldl (insertWait .send s) st
  (st.idxs s .recv).foldl (insertWait .recv s) st'

def prepare (st : Chans) (s : SelId) (chans : ℕ → ChanId) (msgs : ℕ → Ptr) (w r : ℕ) : Chans :=
  { st.modSel s fun x =>
      { x with chans := chans, msgs := msgs, wchanCount := w, rchanCount := r
               ticket := st.hist.calls, given := msgs } with
    hist := { st.hist with calls := st.hist.calls + 1 } }

def park (st : Chans) (s : SelId) (l : LtId) : Chans := st.modSel s ({ · with user := some l })

def finish (st : Chans) (s : SelId) (r : ℤ) : Chans :=
  { st.modSel s ({ · with user := none }) with
    hist := { st.hist with returns := st.hist.returns ++ [⟨st.sel s, r⟩] } }

/-- History: a send on a closed channel, refused before it has a selector. -/
def refuse (st : Chans) (c : ChanId) (m : Ptr) : Chans :=
  let call : Sel :=
    { chans := fun _ => c, msgs := fun _ => m, wchanCount := 1, rchanCount := 0, target := -1
      ticket := st.hist.calls, given := fun _ => m, user := none }
  { st with hist := { st.hist with
      returns := st.hist.returns ++ [⟨call, -1⟩], calls := st.hist.calls + 1 } }

end Chans

/-- The channels together with the scheduler their lthreads run on. -/
structure Sys where
  sched : Sched
  ch : Chans

namespace Sys

/-- `lthread_sel_init` of a selector on the stack: its condition is empty, its
target -1. -/
def lthreadSelInit (x : Sys) (s : SelId) : Sys :=
  { sched := { x.sched with blocked := Function.update x.sched.blocked (.sel s) [] }
    ch := x.ch.setTarget s (-1) }

/-- `chan_block_select_` up to the yield of its `lthread_cond_wait`. The result
is the value it returns at once, or `none` if the lthread is now blocked. -/
def chanBlockSelect (x : Sys) (l : LtId) (s : SelId) (timeout : ℕ) : Option (Sys × Option ℤ) :=
  match x.ch.tryAll s with
  | none => none
  | some (ch, wait) =>
    if (ch.sel s).target ≠ -1 then
      let sched := match wait with
        | some w => x.sched.lthreadCondSignal (.sel w.sel)
        | none => x.sched
      some (⟨sched, ch.setTarget s (-1)⟩, some (ch.sel s).target)
    else if timeout = 0 then some (⟨x.sched, ch⟩, some (-1))
    else
      some (⟨(x.sched.lthreadCondWait l (.sel s) timeout).setCtx l (.selWait s timeout),
        (ch.register s).park s l⟩, none)

def chanBlockSelectEnd (x : Sys) (l : LtId) (s : SelId) (timeout : ℕ) : Sys × ℤ :=
  let (sched, ret) := x.sched.lthreadCondWaitEnd l (.sel s) timeout
  let sched := sched.setCtx l .running
  if ret ≠ 0 ∧ (x.ch.sel s).target < 0 then (⟨sched, x.ch.selRemoveAllChans s⟩, -2)
  else (⟨sched, x.ch.setTarget s (-1)⟩, (x.ch.sel s).target)

def closeWait (x : Sys) (w : Wait) : Sys :=
  if (x.ch.sel w.sel).target = -1 then
    { ch := ((x.ch.setMsg w.sel w.idx NULL).setTarget w.sel w.idx).selRemoveAllChans w.sel
      sched := x.sched.lthreadCondSignal (.sel w.sel) }
  else x

/-- `chan_close`. The loop runs at most once for each entry that `recvq` has at
its start (`closeLoop_eq` in the proofs), which is the bound given here. -/
def chanClose (x : Sys) (c : ChanId) : Sys × ℤ :=
  if (x.ch.chan c).closed then (x, -1)
  else
    let x := { x with ch := x.ch.modChan c ({ · with closed := true }) }
    let q := (x.ch.chan c).recvq
    (Tailq.foreachSafe (fun x w => Tailq.next (x.ch.chan c).recvq x.ch.tqeNext w) closeWait
      q.length q.head? x, 0)

/-- Runs `chan_block_select_` for a prepared selector and records the return. -/
def select (x : Sys) (l : LtId) (s : SelId) (timeout : ℕ) : Option (Sys × Option ℤ) :=
  match x.chanBlockSelect l s timeout with
  | none => none
  | some (x, none) => some (x, none)
  | some (x, some r) => some ({ x with ch := x.ch.finish s r }, some r)

def chanSendWith (timeout : ℕ) (x : Sys) (l : LtId) (c : ChanId) (data : Ptr) :
    Option (Sys × Option ℤ) :=
  if (x.ch.chan c).closed then some ({ x with ch := x.ch.refuse c data }, some (-1))
  else
    let x := x.lthreadSelInit (.stack l)
    select { x with ch := x.ch.prepare (.stack l) (fun _ => c) (fun _ => data) 1 0 } l (.stack l)
      timeout

def chanSend : Sys → LtId → ChanId → Ptr → Option (Sys × Option ℤ) := chanSendWith LTHREAD_FOREVER

def chanSendNoblock : Sys → LtId → ChanId → Ptr → Option (Sys × Option ℤ) := chanSendWith 0

def chanRecv (x : Sys) (l : LtId) (c : ChanId) (data : Ptr) : Option (Sys × Option ℤ) :=
  let x := x.lthreadSelInit (.stack l)
  select { x with ch := x.ch.prepare (.stack l) (fun _ => c) (fun _ => data) 0 1 } l (.stack l)
    LTHREAD_FOREVER

def chanSelect (x : Sys) (l : LtId) (s : SelId) (chans : ℕ → ChanId) (msgs : ℕ → Ptr) (w r : ℕ)
    (timeout : ℕ) : Option (Sys × Option ℤ) :=
  select { x with ch := x.ch.prepare s chans msgs w r } l s timeout

end Sys
end Lthr

import Lthread.Lib.LinkQueue

/-! The tail queues of `queue.h`, macro by macro, on the pointers. All heads that link their entries
through one field share one memory. The tracing of `QUEUE_MACRO_DEBUG` is off. -/

namespace Lthr

variable {ι α : Type} [DecidableEq ι] [DecidableEq α]

namespace LinkMem

variable (m : LinkMem ι α)

def tailqInit : Prop := ∀ i, m.next (.head i) = none ∧ m.back (.head i) = .head i

def tailqEmpty (i : ι) : Bool := (m.next (.head i)).isNone

def tailqFirst (i : ι) : Option α := m.next (.head i)

def tailqLast (i : ι) : Option α := m.next (m.back (m.back (.head i)))

def tailqNext (x : α) : Option α := m.next (.elem x)

def tailqInsertTail (i : ι) (x : α) : LinkMem ι α :=
  let m := m.setNext (.elem x) none
  let m := m.setBack (.elem x) (m.back (.head i))
  let m := m.setNext (m.back (.head i)) (some x)
  m.setBack (.head i) (.elem x)

def tailqRemove (i : ι) (x : α) : LinkMem ι α :=
  let m := match m.next (.elem x) with
    | some y => m.setBack (.elem y) (m.back (.elem x))
    | none => m.setBack (.head i) (m.back (.elem x))
  m.setNext (m.back (.elem x)) (m.next (.elem x))

/-- `TAILQ_FOREACH`: the entries it visits, if it ends within `limit` rounds. -/
def foreach (limit : ℕ) (v : Option α) : Option (List α) :=
  match limit, v with
  | _, none => some []
  | 0, some _ => none
  | n + 1, some x => (foreach n (m.next (.elem x))).map (x :: ·)

end LinkMem

/-- The uses of tail queues. `TAILQ_NEXT` does not name a queue; `i` is the one that the entry
is in, if it is in one. -/
inductive TailqCall (ι α : Type)
  | insertTail (i : ι) (x : α)
  | remove (i : ι) (x : α)
  | empty (i : ι)
  | first (i : ι)
  | last (i : ι)
  | next (i : ι) (x : α)
  | foreach (i : ι) (limit : ℕ)

inductive QueueAnswer (α : Type)
  | done
  | empty (b : Bool)
  | entry (x : Option α)
  | entries (l : Option (List α))
  deriving DecidableEq, Repr

def LinkMem.tailq (m : LinkMem ι α) : TailqCall ι α → LinkMem ι α × QueueAnswer α
  | .insertTail i x => (m.tailqInsertTail i x, .done)
  | .remove i x => (m.tailqRemove i x, .done)
  | .empty i => (m, .empty (m.tailqEmpty i))
  | .first i => (m, .entry (m.tailqFirst i))
  | .last i => (m, .entry (m.tailqLast i))
  | .next _ x => (m, .entry (m.tailqNext x))
  | .foreach i limit => (m, .entries (m.foreach limit (m.tailqFirst i)))

/-- What the queues are for: each of them is a list. The pointer that an entry keeps after it has
been linked out is part of this, as walks may follow it. -/
structure Queues (ι α : Type) where
  queue : ι → List α
  stale : α → Option α

namespace Queues

def Linked (q : Queues ι α) (x : α) : Prop := ∃ i, x ∈ q.queue i

def call (q : Queues ι α) : TailqCall ι α → Queues ι α × QueueAnswer α
  | .insertTail i x => (⟨Function.update q.queue i (q.queue i ++ [x]), q.stale⟩, .done)
  | .remove i x => (⟨Function.update q.queue i ((q.queue i).erase x), Tailq.unlink (q.queue i) q.stale x⟩, .done)
  | .empty i => (q, .empty (q.queue i).isEmpty)
  | .first i => (q, .entry (q.queue i).head?)
  | .last i => (q, .entry (q.queue i).getLast?)
  | .next i x => (q, .entry (Tailq.next (q.queue i) q.stale x))
  | .foreach i _ => (q, .entries (some (q.queue i)))

/-- What is asked of a use: an entry that is linked in is in no queue, one that is linked out is in
the queue, and a walk has a round for each entry. -/
def Legal (q : Queues ι α) : TailqCall ι α → Prop
  | .insertTail _ x => ¬ q.Linked x
  | .remove i x => x ∈ q.queue i
  | .next i x => x ∈ q.queue i ∨ ¬ q.Linked x
  | .foreach i limit => (q.queue i).length ≤ limit
  | .empty _ | .first _ | .last _ => True

def AllLegal : Queues ι α → List (TailqCall ι α) → Prop
  | _, [] => True
  | q, c :: cs => q.Legal c ∧ AllLegal (q.call c).1 cs

end Queues

def useAll {σ : Type} (use : σ → TailqCall ι α → σ × QueueAnswer α) :
    σ → List (TailqCall ι α) → σ × List (QueueAnswer α)
  | s, [] => (s, [])
  | s, c :: cs =>
    let (s, a) := use s c
    let (s, as) := useAll use s cs
    (s, a :: as)

end Lthr

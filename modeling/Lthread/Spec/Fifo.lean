import Mathlib.Tactic

/-! `fifo.c`: the circular buffer of a buffered channel. The structure carries
the bounds that `queue_init` establishes and every operation keeps, so a queue
whose indices leave the array cannot be built. -/

namespace Lthr

/-- A `void *`. Channels pass it on and never look at what it points to. -/
abbrev Ptr := ℕ

def NULL : Ptr := 0

/-- `INT_MAX / sizeof(void*)`, the largest capacity `queue_init` accepts. -/
def queueCapacityMax : ℕ := 2147483647 / 8

structure Queue where
  size : ℕ
  next : ℕ
  capacity : ℕ
  data : List Ptr
  capacity_pos : 0 < capacity
  capacity_le : capacity ≤ queueCapacityMax
  size_le : size ≤ capacity
  next_lt : next < capacity
  data_length : data.length = capacity

/-- `queue_init` refuses a capacity above the bound. It is only called with a
positive one (`chan_init` leaves the queue NULL for 0). The array comes from
`malloc`; its first content is never read. -/
def queueInit (capacity : ℕ) : Option Queue :=
  if h : 0 < capacity ∧ capacity ≤ queueCapacityMax then
    some
      { size := 0, next := 0, capacity := capacity, data := List.replicate capacity NULL
        capacity_pos := h.1, capacity_le := h.2, size_le := Nat.zero_le _, next_lt := h.1
        data_length := List.length_replicate }
  else none

namespace Queue

def atCapacity (q : Queue) : Bool := decide (q.capacity ≤ q.size)

@[simp] theorem atCapacity_iff (q : Queue) : q.atCapacity = true ↔ q.capacity ≤ q.size := decide_eq_true_iff

def addPos (q : Queue) : ℕ :=
  let pos := q.next + q.size
  if q.capacity ≤ pos then pos - q.capacity else pos

/-- `queue_add`: 0 and the item stored, or -1 (`ENOBUFS`) and nothing changed. -/
def add (q : Queue) (value : Ptr) : Queue × ℤ :=
  if h : q.atCapacity then (q, -1)
  else
    ({ q with
        data := q.data.set q.addPos value, size := q.size + 1
        size_le := Nat.lt_of_not_le fun h0 => h (q.atCapacity_iff.mpr h0)
        data_length := by rw [List.length_set]; exact q.data_length }, 0)

def remove (q : Queue) : Ptr × Queue :=
  if 0 < q.size then
    (q.data.getD q.next NULL,
      { q with
        next := if q.capacity ≤ q.next + 1 then q.next + 1 - q.capacity else q.next + 1
        size := q.size - 1
        size_le := (Nat.sub_le _ _).trans q.size_le
        next_lt := by
          have := q.next_lt
          split_ifs <;> omega })
  else (NULL, q)

def peek (q : Queue) : Ptr := if q.size = 0 then NULL else q.data.getD q.next NULL

def toList (q : Queue) : List Ptr :=
  (List.range q.size).map fun i => q.data.getD ((q.next + i) % q.capacity) NULL

end Queue

inductive QueueOp
  | add (value : Ptr)
  | remove
  | peek
  deriving DecidableEq, Repr

inductive QueueRet
  | code (r : ℤ)
  | item (p : Ptr)
  deriving DecidableEq, Repr

def Queue.call (q : Queue) : QueueOp → Queue × QueueRet
  | .add v => ((q.add v).1, .code (q.add v).2)
  | .remove => (q.remove.2, .item q.remove.1)
  | .peek => (q, .item q.peek)

def Queue.run (q : Queue) : List QueueOp → Queue × List QueueRet
  | [] => (q, [])
  | op :: ops => (((q.call op).1.run ops).1, (q.call op).2 :: ((q.call op).1.run ops).2)

/-! What the buffer is for: a list of at most `capacity` items. -/

def Bounded.call (capacity : ℕ) (items : List Ptr) : QueueOp → List Ptr × QueueRet
  | .add v => if items.length < capacity then (items ++ [v], .code 0) else (items, .code (-1))
  | .remove =>
    match items with
    | [] => ([], .item NULL)
    | x :: rest => (rest, .item x)
  | .peek => (items, .item (items.headD NULL))

def Bounded.run (capacity : ℕ) (items : List Ptr) : List QueueOp → List Ptr × List QueueRet
  | [] => (items, [])
  | op :: ops =>
    let next := Bounded.call capacity items op
    ((Bounded.run capacity next.1 ops).1, next.2 :: (Bounded.run capacity next.1 ops).2)

end Lthr

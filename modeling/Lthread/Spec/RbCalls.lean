import Lthread.Spec.RbTree

/-! What the callers of `tree.h` ask of a tree, for elements compared by a key, and what each
call means for the sorted list of the elements. -/

namespace Lthr

inductive TreeCall (α κ : Type)
  | insert (x : α)
  | remove (x : α)
  | find (k : κ)
  | minmax (d : Dir)
  deriving DecidableEq, Repr

section Calls

variable {α κ : Type} [DecidableEq α] [LinearOrder κ] (key : α → κ)

/-- A call of the generated functions; the loops get `rounds` rounds. -/
def RbHead.call (rounds : ℕ) (h : RbHead α) : TreeCall α κ → Except TreeFault (RbHead α × Option α)
  | .insert x => do
    let (h, tmp) ← h.insert (fun a b => compare (key a) (key b)) rounds x
    .ok (h, tmp)
  | .remove x => do
    let h ← h.remove rounds x
    .ok (h, some x)
  | .find k => do
    let x ← h.find (fun a => compare k (key a)) rounds
    .ok (h, x)
  | .minmax d => do
    let x ← h.minmax d rounds
    .ok (h, x)

def RbHead.calls (rounds : ℕ) :
    RbHead α → List (TreeCall α κ) → Except TreeFault (RbHead α × List (Option α))
  | h, [] => .ok (h, [])
  | h, c :: cs => do
    let (h, a) ← h.call key rounds c
    let (h, as) ← calls rounds h cs
    .ok (h, a :: as)

namespace TreeCall

def onList (l : List α) : TreeCall α κ → List α × Option α
  | .insert x =>
    match l.find? fun y => key y = key x with
    | some y => (l, some y)
    | none => (l.orderedInsert (fun a b => key a ≤ key b) x, none)
  | .remove x => (l.erase x, some x)
  | .find k => (l, l.find? fun y => key y = k)
  | .minmax d => (l, endOf d l)

def Legal (l : List α) : TreeCall α κ → Prop
  | .remove x => x ∈ l
  | _ => True

def allOnList : List α → List (TreeCall α κ) → List α × List (Option α)
  | l, [] => (l, [])
  | l, c :: cs =>
    let (l, a) := c.onList key l
    let (l, as) := allOnList l cs
    (l, a :: as)

def AllLegal : List α → List (TreeCall α κ) → Prop
  | _, [] => True
  | l, c :: cs => c.Legal l ∧ AllLegal (c.onList key l).1 cs

end TreeCall
end Calls
end Lthr

import Lthread.Lib.RbTree

/-! `tree.h`: the red-black trees that `RB_GENERATE` makes of a type with an `RB_ENTRY` and
a comparison. The entries of all elements are one function, and a pointer is an element or
`NULL`. An access through a null pointer is a fault; so is a loop that has used up the
rounds it was given. `RB_AUGMENT` is empty. What the source writes out for the left and
again for the right has the side as a parameter. -/

namespace Lthr

inductive TreeFault
  | null
  | rounds
  deriving DecidableEq, Repr

structure RbEntry (α : Type) where
  left : Option α
  right : Option α
  parent : Option α
  color : Color
  deriving DecidableEq, Repr

namespace RbEntry

variable {α : Type}

def child (e : RbEntry α) : Dir → Option α
  | .left => e.left
  | .right => e.right

def setChild (e : RbEntry α) (d : Dir) (p : Option α) : RbEntry α :=
  match d with
  | .left => { e with left := p }
  | .right => { e with right := p }

end RbEntry

structure RbHead (α : Type) where
  root : Option α
  entry : α → RbEntry α

namespace RbHead

variable {α : Type} [DecidableEq α]

def init (h : RbHead α) : RbHead α := { h with root := none }

def modify (h : RbHead α) (a : α) (f : RbEntry α → RbEntry α) : RbHead α :=
  { h with entry := Function.update h.entry a (f (h.entry a)) }

def child (h : RbHead α) (a : α) (d : Dir) : Option α := (h.entry a).child d
def parent (h : RbHead α) (a : α) : Option α := (h.entry a).parent
def color (h : RbHead α) (a : α) : Color := (h.entry a).color

def setChild (h : RbHead α) (a : α) (d : Dir) (p : Option α) : RbHead α := h.modify a (·.setChild d p)
def setParent (h : RbHead α) (a : α) (p : Option α) : RbHead α := h.modify a ({ · with parent := p })
def setColor (h : RbHead α) (a : α) (c : Color) : RbHead α := h.modify a ({ · with color := c })

def setBlackred (h : RbHead α) (black red : α) : RbHead α := (h.setColor black .black).setColor red .red

def deref : Option α → Except TreeFault α
  | some a => .ok a
  | none => .error .null

def isRed (h : RbHead α) : Option α → Bool
  | some a => decide (h.color a = .red)
  | none => false

def adopt (h : RbHead α) (child parent : Option α) : RbHead α :=
  match child with
  | some a => h.setParent a parent
  | none => h

/-- What has pointed at `old`, its parent or the head, points at `new`. -/
def relink (h : RbHead α) (parent : Option α) (old : α) (new : Option α) : RbHead α :=
  match parent with
  | some p => if h.child p .left = some old then h.setChild p .left new else h.setChild p .right new
  | none => { h with root := new }

/-- `RB_ROTATE_LEFT` and, for the other side, `RB_ROTATE_RIGHT`. -/
def rotate (d : Dir) (h : RbHead α) (elm : α) : Except TreeFault (RbHead α) := do
  let tmp ← deref (h.child elm d.flip)
  let inner := h.child tmp d
  let h := (h.setChild elm d.flip inner).adopt inner (some elm)
  let h := h.setParent tmp (h.parent elm)
  let h := h.relink (h.parent elm) elm (some tmp)
  .ok ((h.setChild tmp d (some elm)).setParent elm (some tmp))

/-- The side on which `p` is below `a`; the source asks for the left one. -/
def sideOf (h : RbHead α) (a : α) (p : Option α) : Dir := if h.child a .left = p then .left else .right

/-- The end of a round of `RB_INSERT_COLOR` that does not go on with the grandparent: the
new `elm` is the lower one of the two red nodes. -/
def insertRotate (d : Dir) (h : RbHead α) (gparent parent elm : α) : Except TreeFault (RbHead α × α) := do
  if h.child parent d.flip = some elm then do
    let h ← rotate d h parent
    let h ← rotate d.flip (h.setBlackred elm gparent) gparent
    .ok (h, parent)
  else do
    let h ← rotate d.flip (h.setBlackred parent gparent) gparent
    .ok (h, elm)

def insertColorLoop : ℕ → RbHead α → α → Except TreeFault (RbHead α)
  | 0, _, _ => .error .rounds
  | rounds + 1, h, elm =>
    match h.parent elm with
    | none => .ok h
    | some parent =>
      if h.color parent = .red then do
        let gparent ← deref (h.parent parent)
        let d := h.sideOf gparent (some parent)
        let tmp := h.child gparent d.flip
        if h.isRed tmp then do
          let tmp ← deref tmp
          insertColorLoop rounds ((h.setColor tmp .black).setBlackred parent gparent) gparent
        else do
          let (h, elm) ← insertRotate d h gparent parent elm
          insertColorLoop rounds h elm
      else .ok h

def insertColor (rounds : ℕ) (h : RbHead α) (elm : α) : Except TreeFault (RbHead α) := do
  let h ← insertColorLoop rounds h elm
  let root ← deref h.root
  .ok (h.setColor root .black)

inductive Spot (α : Type)
  | found (a : α)
  | free (last : Option (α × Dir))

/-- The way down of `RB_INSERT`; `comp` is the comparison of the new element with another. -/
def insertLoop (h : RbHead α) (comp : α → Ordering) :
    ℕ → Option α → Option (α × Dir) → Except TreeFault (Spot α)
  | _, none, last => .ok (.free last)
  | 0, some _, _ => .error .rounds
  | rounds + 1, some tmp, _ =>
    match comp tmp with
    | .lt => insertLoop h comp rounds (h.child tmp .left) (some (tmp, .left))
    | .gt => insertLoop h comp rounds (h.child tmp .right) (some (tmp, .right))
    | .eq => .ok (.found tmp)

def attach (h : RbHead α) (elm : α) (last : Option (α × Dir)) : RbHead α :=
  let h := h.modify elm fun _ => { left := none, right := none, parent := last.map Prod.fst, color := .red }
  match last with
  | some (p, d) => h.setChild p d (some elm)
  | none => { h with root := some elm }

/-- `RB_INSERT`, with the element it returns if there is one with the same key. -/
def insert (cmp : α → α → Ordering) (rounds : ℕ) (h : RbHead α) (elm : α) :
    Except TreeFault (RbHead α × Option α) := do
  match ← insertLoop h (cmp elm) rounds h.root none with
  | .found tmp => .ok (h, some tmp)
  | .free last =>
    let h ← insertColor rounds (h.attach elm last) elm
    .ok (h, none)

/-- The end of a round of `RB_REMOVE_COLOR` whose sibling has a red child. -/
def removeRotate (d : Dir) (h : RbHead α) (parent tmp : α) : Except TreeFault (RbHead α) := do
  let (h, tmp) ← (
    if h.isRed (h.child tmp d.flip) then .ok (h, tmp)
    else do
      let h := match h.child tmp d with
        | some near => h.setColor near .black
        | none => h
      let h ← rotate d.flip (h.setColor tmp .red) tmp
      let tmp ← deref (h.child parent d.flip)
      .ok (h, tmp))
  let h := (h.setColor tmp (h.color parent)).setColor parent .black
  let h := match h.child tmp d.flip with
    | some far => h.setColor far .black
    | none => h
  rotate d h parent

def removeSibling (d : Dir) (h : RbHead α) (parent : α) : Except TreeFault (RbHead α × α) := do
  let tmp ← deref (h.child parent d.flip)
  if h.color tmp = .red then do
    let h ← rotate d (h.setBlackred tmp parent) parent
    let tmp ← deref (h.child parent d.flip)
    .ok (h, tmp)
  else .ok (h, tmp)

/-- The loop of `RB_REMOVE_COLOR`, up to the element that is coloured at its end. -/
def removeColorLoop : ℕ → RbHead α → Option α → Option α → Except TreeFault (RbHead α × Option α)
  | 0, _, _, _ => .error .rounds
  | rounds + 1, h, parent, elm =>
    if h.isRed elm = false ∧ elm ≠ h.root then do
      let parent ← deref parent
      let d := h.sideOf parent elm
      let (h, tmp) ← removeSibling d h parent
      if h.isRed (h.child tmp .left) = false ∧ h.isRed (h.child tmp .right) = false then
        removeColorLoop rounds (h.setColor tmp .red) (h.parent parent) (some parent)
      else do
        let h ← removeRotate d h parent tmp
        .ok (h, h.root)
    else .ok (h, elm)

def removeColor (rounds : ℕ) (h : RbHead α) (parent elm : Option α) : Except TreeFault (RbHead α) := do
  let (h, elm) ← removeColorLoop rounds h parent elm
  match elm with
  | some a => .ok (h.setColor a .black)
  | none => .ok h

def spine (h : RbHead α) (d : Dir) : ℕ → α → Except TreeFault α
  | 0, _ => .error .rounds
  | rounds + 1, elm =>
    match h.child elm d with
    | some a => spine h d rounds a
    | none => .ok elm

def unlink (h : RbHead α) (elm : α) (child : Option α) : RbHead α :=
  (h.adopt child (h.parent elm)).relink (h.parent elm) elm child

def replace (h : RbHead α) (old elm : α) : Except TreeFault (RbHead α) := do
  let h := h.modify elm fun _ => h.entry old
  let h := h.relink (h.parent old) old (some elm)
  let left ← deref (h.child old .left)
  let h := h.setParent left (some elm)
  .ok (h.adopt (h.child old .right) (some elm))

/-- `RB_REMOVE` up to its label `color`: the tree without `old`, and the arguments that
`RB_REMOVE_COLOR` is called with if the colour is black. -/
def removeNode (rounds : ℕ) (h : RbHead α) (old : α) :
    Except TreeFault (RbHead α × Option α × Option α × Color) := do
  match h.child old .left, h.child old .right with
  | none, child => .ok (h.unlink old child, h.parent old, child, h.color old)
  | some left, none => .ok (h.unlink old (some left), h.parent old, some left, h.color old)
  | some _, some right => do
    let elm ← h.spine .left rounds right
    let child := h.child elm .right
    let parent := if h.parent elm = some old then some elm else h.parent elm
    let h' ← (h.unlink elm child).replace old elm
    .ok (h', parent, child, h.color elm)

def remove (rounds : ℕ) (h : RbHead α) (old : α) : Except TreeFault (RbHead α) := do
  let (h, parent, child, color) ← h.removeNode rounds old
  if color = .black then removeColor rounds h parent child else .ok h

def findLoop (h : RbHead α) (comp : α → Ordering) : ℕ → Option α → Except TreeFault (Option α)
  | _, none => .ok none
  | 0, some _ => .error .rounds
  | rounds + 1, some tmp =>
    match comp tmp with
    | .lt => findLoop h comp rounds (h.child tmp .left)
    | .gt => findLoop h comp rounds (h.child tmp .right)
    | .eq => .ok (some tmp)

/-- `RB_FIND`; `comp` is the comparison of the key with an element. -/
def find (comp : α → Ordering) (rounds : ℕ) (h : RbHead α) : Except TreeFault (Option α) :=
  h.findLoop comp rounds h.root

def minmax (d : Dir) (rounds : ℕ) (h : RbHead α) : Except TreeFault (Option α) :=
  match h.root with
  | none => .ok none
  | some a => do
    let a ← h.spine d rounds a
    .ok (some a)

end RbHead
end Lthr

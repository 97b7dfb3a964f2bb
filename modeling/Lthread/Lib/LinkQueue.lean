import Lthread.Lib.Tailq

/-! Queues of entries that are linked by pointers in the entries themselves. A link is a place
where the pointer to an entry is stored, in a head or in the entry before it. Next to it stands
the address of another link: in an entry that of the link which points to it, in a head that of
the last link of its queue. -/

namespace Lthr

inductive Link (ι α : Type)
  | head (i : ι)
  | elem (x : α)
  deriving DecidableEq, Repr

structure LinkMem (ι α : Type) where
  next : Link ι α → Option α
  back : Link ι α → Link ι α

variable {ι α : Type}

namespace Link

def endOf : Link ι α → List α → Link ι α
  | a, [] => a
  | _, x :: l => endOf (.elem x) l

/-- The place with the way back to the link that points to `v`: that entry, or the head. -/
def toward (i : ι) : Option α → Link ι α
  | some y => .elem y
  | none => .head i

def row (a : Link ι α) (l : List α) : List (Link ι α) := a :: l.map .elem

theorem endOf_append (a : Link ι α) (l₁ l₂ : List α) : endOf a (l₁ ++ l₂) = endOf (endOf a l₁) l₂ := by
  induction l₁ generalizing a with
  | nil => rfl
  | cons x l₁ ih => exact ih _

theorem endOf_mem (a : Link ι α) (l : List α) : endOf a l ∈ a.row l := by
  induction l generalizing a with
  | nil => exact List.mem_cons_self
  | cons x l ih => exact List.mem_cons_of_mem _ (ih (.elem x))

theorem mem_row {a c : Link ι α} {l : List α} : c ∈ a.row l ↔ c = a ∨ ∃ x ∈ l, c = .elem x := by
  simp [row, eq_comm]

theorem endOf_mem_append (a : Link ι α) (l₁ l₂ : List α) : endOf a l₁ ∈ a.row (l₁ ++ l₂) :=
  List.cons_subset_cons _ (List.map_subset _ (List.subset_append_left l₁ l₂)) (endOf_mem a l₁)

theorem row_nodup {i : ι} {l : List α} (hl : l.Nodup) : ((head i).row l).Nodup :=
  List.nodup_cons.mpr ⟨by simp, hl.map fun _ _ => Link.elem.inj⟩

theorem endOf_ne {i : ι} {l : List α} {y : α} (hy : y ∉ l) : endOf (.head i) l ≠ .elem y := by
  intro h
  rcases mem_row.mp (endOf_mem (.head i) l) with h0 | ⟨x, hx, h0⟩
  · cases h0.symm.trans h
  · exact hy (Link.elem.inj (h0.symm.trans h) ▸ hx)

end Link

namespace LinkMem

variable {m m' : LinkMem ι α} {i : ι} {a : Link ι α} {l l₁ l₂ : List α} {x : α}

/-- From `a` on, the pointers lead through the entries of `l`, and back again. -/
def Row (m : LinkMem ι α) : Link ι α → List α → Prop
  | _, [] => True
  | a, x :: l => m.next a = some x ∧ m.back (.elem x) = a ∧ Row m (.elem x) l

theorem row_append : m.Row a (l₁ ++ l₂) ↔ m.Row a l₁ ∧ m.Row (a.endOf l₁) l₂ := by
  induction l₁ generalizing a with
  | nil => simp [Row, Link.endOf]
  | cons x l₁ ih => simp [Row, Link.endOf, ih, and_assoc]

/-- A row depends on what its links point to, the last one apart, and on the ways back. -/
theorem Row.congr (h : m.Row a l) (hn : (a.row l).Nodup)
    (hnext : ∀ c ∈ a.row l, c ≠ a.endOf l → m'.next c = m.next c)
    (hback : ∀ x ∈ l, m'.back (.elem x) = m.back (.elem x)) : m'.Row a l := by
  induction l generalizing a with
  | nil => trivial
  | cons x l ih =>
    obtain ⟨hx, hbx, hrow⟩ := h
    obtain ⟨ha, hn⟩ := List.nodup_cons.mp hn
    have hend : a ≠ a.endOf (x :: l) := fun h0 => ha (h0 ▸ Link.endOf_mem (.elem x) l)
    refine ⟨by rw [hnext a List.mem_cons_self hend, hx], by rw [hback x List.mem_cons_self, hbx], ?_⟩
    exact ih hrow hn (fun c hc => hnext c (List.mem_cons_of_mem _ hc)) fun y hy => hback y (List.mem_cons_of_mem _ hy)

/-- The pointers lead to one list only: that of the old memory as far as it is the same, and there
to the end. -/
theorem Row.walk (h : m.Row a (l₁ ++ [x])) (hsame : ∀ c ∈ a.row l₁, m'.next c = m.next c)
    (hx : m'.next (.elem x) = none) (h' : m'.Row a l) (hend : m'.next (a.endOf l) = none) : l = l₁ ++ [x] := by
  induction l₁ generalizing a l with
  | nil =>
    have ha : m'.next a = some x := (hsame a List.mem_cons_self).trans h.1
    cases l with
    | nil => exact absurd (ha.symm.trans hend) (by simp)
    | cons z l =>
      obtain rfl := Option.some_inj.mp (h'.1.symm.trans ha)
      cases l with
      | nil => rfl
      | cons y l => exact absurd (h'.2.2.1.symm.trans hx) (by simp)
  | cons z l₁ ih =>
    have ha : m'.next a = some z := (hsame a List.mem_cons_self).trans h.1
    cases l with
    | nil => exact absurd (ha.symm.trans hend) (by simp)
    | cons w l =>
      obtain rfl := Option.some_inj.mp (h'.1.symm.trans ha)
      exact congrArg _ (ih h.2.2 (fun c hc => hsame c (List.mem_cons_of_mem _ hc)) h'.2.2 hend)

/-- The pointers of queue `i` lead through the entries of `l`, each of them once. -/
structure Queue (m : LinkMem ι α) (i : ι) (l : List α) : Prop where
  nodup : l.Nodup
  row : m.Row (.head i) l
  last : m.next (Link.endOf (.head i) l) = none
  tail : m.back (.head i) = Link.endOf (.head i) l

namespace Queue

theorem congr (h : m.Queue i l)
    (hsame : ∀ c ∈ (Link.head i).row l, m'.next c = m.next c ∧ m'.back c = m.back c) : m'.Queue i l := by
  refine ⟨h.nodup, h.row.congr (Link.row_nodup h.nodup) (fun c hc _ => (hsame c hc).1) fun x hx => ?_, ?_, ?_⟩
  · exact (hsame _ (Link.mem_row.mpr (Or.inr ⟨x, hx, rfl⟩))).2
  · rw [(hsame _ (Link.endOf_mem _ l)).1, h.last]
  · rw [(hsame _ List.mem_cons_self).2, h.tail]

theorem next_endOf (h : m.Queue i (l₁ ++ l₂)) : m.next (Link.endOf (.head i) l₁) = l₂.head? := by
  cases l₂ with
  | nil => simpa using h.last
  | cons y l₂ => exact (row_append.mp h.row).2.1

theorem next_elem (h : m.Queue i (l₁ ++ x :: l₂)) : m.next (.elem x) = l₂.head? := by
  have h' : m.Queue i ((l₁ ++ [x]) ++ l₂) := by rwa [List.append_assoc]
  have hnext := h'.next_endOf
  rwa [Link.endOf_append] at hnext

theorem back_elem (h : m.Queue i (l₁ ++ x :: l₂)) : m.back (.elem x) = Link.endOf (.head i) l₁ :=
  (row_append.mp h.row).2.2.1

end Queue

section Writes

variable [DecidableEq ι] [DecidableEq α] (m : LinkMem ι α) (a b c : Link ι α) (v : Option α)

def setNext : LinkMem ι α := { m with next := Function.update m.next a v }
def setBack : LinkMem ι α := { m with back := Function.update m.back a b }

@[simp] theorem setNext_next : (m.setNext a v).next c = if c = a then v else m.next c := Function.update_apply ..
@[simp] theorem setNext_back : (m.setNext a v).back = m.back := rfl
@[simp] theorem setBack_back : (m.setBack a b).back c = if c = a then b else m.back c := Function.update_apply ..
@[simp] theorem setBack_next : (m.setBack a b).next = m.next := rfl

end Writes

end LinkMem
end Lthr

import Lthread.Proofs.RbShape

/-! The ways down of `tree.h`, by comparison (`RB_FIND`, the first half of `RB_INSERT`) and on one
side (`RB_MINMAX`), against the elements in order. -/

namespace Lthr

open RbTree Trail

variable {α : Type} {h : RbHead α} {π : Trail α} {t l r : RbTree α} {a x : α} {c : Color} {comp : α → Ordering}

/-! Down by comparison -/

/-- Along the list the key is first greater than the elements and then less than them, with
at most one equal to it in between. -/
def Orders (comp : α → Ordering) (l : List α) : Prop := l.Pairwise fun a b => comp a ≠ .gt → comp b = .lt

/-- On the way down the key is greater than what is left behind on the left and less than
what is left behind on the right. -/
structure Descends (comp : α → Ordering) (π : Trail α) (t : RbTree α) : Prop where
  orders : Orders comp (fill π t).toList
  before : ∀ x ∈ π.before, comp x = .gt
  after : ∀ x ∈ π.after, comp x = .lt

theorem Orders.lt_of_lt {A B : List α} (h : Orders comp (A ++ a :: B)) (ha : comp a ≠ .gt) : ∀ x ∈ B, comp x = .lt := by
  have := (List.pairwise_append.mp h).2.1
  exact fun x hx => (List.pairwise_cons.mp this).1 x hx ha

theorem Orders.gt_of_gt {A B : List α} (h : Orders comp (A ++ a :: B)) (ha : comp a ≠ .lt) : ∀ x ∈ A, comp x = .gt := by
  intro x hx
  by_contra hne
  exact ha ((List.pairwise_append.mp h).2.2 x hx a List.mem_cons_self hne)

theorem fill_node_toList : (fill π (node c l a r)).toList = (π.before ++ l.toList) ++ a :: (r.toList ++ π.after) := by
  simp [fill_toList, toList]

namespace Descends

theorem left (hd : Descends comp π (node c l a r)) (ha : comp a = .lt) : Descends comp (⟨.left, c, a, r⟩ :: π) l := by
  have ho := hd.orders
  refine ⟨ho, hd.before, ?_⟩
  rw [fill_node_toList] at ho
  rintro x (_ | ⟨_, hx⟩)
  · exact ha
  · exact ho.lt_of_lt (by simp [ha]) x hx

theorem right (hd : Descends comp π (node c l a r)) (ha : comp a = .gt) : Descends comp (⟨.right, c, a, l⟩ :: π) r := by
  have ho := hd.orders
  refine ⟨ho, ?_, hd.after⟩
  rw [fill_node_toList] at ho
  intro x hx
  change x ∈ π.before ++ (l.toList ++ [a]) at hx
  rw [← List.append_assoc, List.mem_append, List.mem_singleton] at hx
  rcases hx with hx | rfl
  · exact ho.gt_of_gt (by simp [ha]) x hx
  · exact ha

theorem root (ho : Orders comp t.toList) : Descends comp [] t := ⟨ho, by simp [Trail.before], by simp [Trail.after]⟩

end Descends

/-- The way down from a subtree: it ends in an empty place or at an element with the key, and
goes on in one of the two subtrees otherwise. -/
theorem descent {motive : ℕ → Trail α → RbTree α → Prop}
    (empty : ∀ {rounds π}, Holds h π nil → Descends comp π nil → motive rounds π nil)
    (found : ∀ {rounds π c l a r}, Descends comp π (node c l a r) → comp a = .eq → motive (rounds + 1) π (node c l a r))
    (left : ∀ {rounds π c l a r}, comp a = .lt → h.child a .left = l.root → motive rounds (⟨.left, c, a, r⟩ :: π) l →
      motive (rounds + 1) π (node c l a r))
    (right : ∀ {rounds π c l a r}, comp a = .gt → h.child a .right = r.root →
      motive rounds (⟨.right, c, a, l⟩ :: π) r → motive (rounds + 1) π (node c l a r)) :
    ∀ {rounds π t}, Holds h π t → Descends comp π t → t.height ≤ rounds → motive rounds π t := by
  intro rounds π t hh hd hr
  induction t generalizing rounds π with
  | nil => exact empty hh hd
  | node c l a r ihl ihr =>
    simp only [height] at hr
    obtain ⟨k, rfl⟩ : ∃ k, rounds = k + 1 := ⟨rounds - 1, by omega⟩
    cases ha : comp a with
    | lt =>
      exact left ha (Holds.child (d := .left) hh)
        (ihl (holds_branch (d := .left).mpr hh) (hd.left ha) (by omega))
    | eq => exact found hd ha
    | gt =>
      exact right ha (Holds.child (d := .right) hh)
        (ihr (holds_branch (d := .right).mpr hh) (hd.right ha) (by omega))

/-- The way down of `RB_INSERT` ends at the element with the same key, or in the empty
place where the new one belongs. -/
theorem insertLoop_ok {rounds : ℕ} (hh : Holds h π t) (hd : Descends comp π t) (hr : t.height ≤ rounds) :
    (∃ x ∈ (fill π t).toList, comp x = .eq ∧ h.insertLoop comp rounds t.root π.last = .ok (.found x)) ∨
    ∃ ρ : Trail α, Holds h ρ nil ∧ Descends comp ρ nil ∧ fill ρ nil = fill π t ∧
      h.insertLoop comp rounds t.root π.last = .ok (.free ρ.last) := by
  refine descent (motive := fun rounds π t =>
    (∃ x ∈ (fill π t).toList, comp x = .eq ∧ h.insertLoop comp rounds t.root π.last = .ok (.found x)) ∨
    ∃ ρ : Trail α, Holds h ρ nil ∧ Descends comp ρ nil ∧ fill ρ nil = fill π t ∧
      h.insertLoop comp rounds t.root π.last = .ok (.free ρ.last)) ?_ ?_ ?_ ?_ hh hd hr
  · intro rounds π hh hd
    refine Or.inr ⟨π, hh, hd, rfl, ?_⟩
    cases rounds <;> rfl
  · intro rounds π c l a r hd ha
    exact Or.inl ⟨a, by simp [fill_node_toList], ha, by simp [RbTree.root, RbHead.insertLoop, ha]⟩
  · intro rounds π c l a r ha hc ih
    simp only [RbTree.root, RbHead.insertLoop, ha, hc]
    exact ih
  · intro rounds π c l a r ha hc ih
    simp only [RbTree.root, RbHead.insertLoop, ha, hc]
    exact ih

theorem findLoop_ok {rounds : ℕ} (hh : Holds h π t) (hd : Descends comp π t) (hr : t.height ≤ rounds) :
    h.findLoop comp rounds t.root = .ok ((fill π t).toList.find? fun x => comp x == .eq) := by
  refine descent (motive := fun rounds π t =>
    h.findLoop comp rounds t.root = .ok ((fill π t).toList.find? fun x => comp x == .eq)) ?_ ?_ ?_ ?_ hh hd hr
  · intro rounds π _ hd
    have hnone : (fill π nil).toList.find? (fun x => comp x == .eq) = none := by
      rw [fill_toList, List.find?_eq_none]
      intro x hx
      simp only [toList, List.nil_append, List.mem_append] at hx
      rcases hx with hx | hx
      · simp [hd.before x hx]
      · simp [hd.after x hx]
    rw [hnone]
    cases rounds <;> rfl
  · intro rounds π c l a r hd ha
    have ho := hd.orders
    rw [fill_node_toList] at ho ⊢
    have hgt := fun x hx => ho.gt_of_gt (a := a) (by simp [ha]) x hx
    rw [List.find?_append, List.find?_eq_none.mpr fun x hx => by simp [hgt x hx], List.find?_cons_of_pos (by simp [ha])]
    simp [RbTree.root, RbHead.findLoop, ha]
  · intro rounds π c l a r ha hc ih
    simp only [RbTree.root, RbHead.findLoop, ha, hc]
    exact ih
  · intro rounds π c l a r ha hc ih
    simp only [RbTree.root, RbHead.findLoop, ha, hc]
    exact ih

/-! Down on one side -/

theorem endOf_fill {ρ : Trail α} {u : RbTree α} {d : Dir} (hρ : ∀ f ∈ ρ, f.dir = d) :
    endOf d (fill ρ (branch d c nil x u)).toList = some x := by
  cases d with
  | left => simp [endOf, fill_toList, before_of_left hρ, branch, toList]
  | right => simp [endOf, fill_toList, after_of_right hρ, branch, toList]

/-- The way down on one side leads to the end of the elements on that side. -/
theorem minmax_ok {rounds : ℕ} {d : Dir} (hh : Holds h [] t) (hr : t.height ≤ rounds) :
    h.minmax d rounds = .ok (endOf d t.toList) := by
  rw [RbHead.minmax, hh.root_eq]
  cases ht : t.root with
  | none =>
    obtain rfl : t = nil := by
      cases t with
      | nil => rfl
      | node => cases ht
    cases d <;> rfl
  | some a =>
    obtain ⟨ρ, c, x, u, rfl, hρ, hsp⟩ := hh.spine (d := d) rounds ht hr
    simp [hsp, endOf_fill hρ]

end Lthr

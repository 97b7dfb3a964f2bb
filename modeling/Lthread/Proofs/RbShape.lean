import Lthread.Lib.Machine
import Lthread.Spec.RbTree

/-! The entries of `tree.h` against a tree: what it means that the pointers make up a given
tree, seen from any of its subtrees, and what the writes of the source do to it. -/

namespace Lthr

open RbTree Trail

variable {α : Type}

namespace RbEntry

variable {d : Dir} {x y p q : Option α} {c c' : Color}

/-- The entry with `x` on side `d` and `y` on the other. -/
def make (d : Dir) (x y p : Option α) (c : Color) : RbEntry α :=
  match d with
  | .left => ⟨x, y, p, c⟩
  | .right => ⟨y, x, p, c⟩

@[simp] theorem make_child : (make d x y p c).child d = x := by cases d <;> rfl
@[simp] theorem make_child_flip : (make d x y p c).child d.flip = y := by cases d <;> rfl
@[simp] theorem make_parent : (make d x y p c).parent = p := by cases d <;> rfl
@[simp] theorem make_color : (make d x y p c).color = c := by cases d <;> rfl
@[simp] theorem make_setChild : (make d x y p c).setChild d q = make d q y p c := by cases d <;> rfl
@[simp] theorem make_setChild_flip : (make d x y p c).setChild d.flip q = make d x q p c := by cases d <;> rfl
@[simp] theorem make_setParent : { make d x y p c with parent := q } = make d x y q c := by cases d <;> rfl
@[simp] theorem make_setColor : { make d x y p c with color := c' } = make d x y p c' := by cases d <;> rfl

end RbEntry

namespace RbHead

variable [DecidableEq α] {h : RbHead α} {a x : α} {d : Dir} {p q : Option α} {c : Color}

/-! Reading after writing -/

@[simp] theorem modify_root (f : RbEntry α → RbEntry α) : (h.modify a f).root = h.root := rfl

@[simp] theorem modify_self (f : RbEntry α → RbEntry α) : (h.modify a f).entry a = f (h.entry a) :=
  Function.update_self ..

theorem modify_of_ne (f : RbEntry α → RbEntry α) (hx : x ≠ a) : (h.modify a f).entry x = h.entry x :=
  Function.update_of_ne hx ..

@[simp] theorem setChild_root : (h.setChild a d p).root = h.root := rfl
@[simp] theorem setParent_root : (h.setParent a p).root = h.root := rfl
@[simp] theorem setColor_root : (h.setColor a c).root = h.root := rfl

@[simp] theorem setChild_self : (h.setChild a d p).entry a = (h.entry a).setChild d p := modify_self _
@[simp] theorem setParent_self : (h.setParent a p).entry a = { h.entry a with parent := p } := modify_self _
@[simp] theorem setColor_self : (h.setColor a c).entry a = { h.entry a with color := c } := modify_self _

theorem setChild_of_ne (hx : x ≠ a) : (h.setChild a d p).entry x = h.entry x := modify_of_ne _ hx
theorem setParent_of_ne (hx : x ≠ a) : (h.setParent a p).entry x = h.entry x := modify_of_ne _ hx
theorem setColor_of_ne (hx : x ≠ a) : (h.setColor a c).entry x = h.entry x := modify_of_ne _ hx

@[simp] theorem adopt_root : (h.adopt p q).root = h.root := by cases p <;> rfl

theorem adopt_of_ne (hx : p ≠ some x) : (h.adopt p q).entry x = h.entry x := by
  cases p with
  | none => rfl
  | some a => exact setParent_of_ne fun e => hx (congrArg some e.symm)

def setHole (h : RbHead α) (π : Trail α) (p : Option α) : RbHead α :=
  match π with
  | [] => { h with root := p }
  | f :: _ => h.setChild f.elem f.dir p

theorem setHole_of_ne {π : Trail α} (hx : π.parent ≠ some x) : (h.setHole π p).entry x = h.entry x := by
  cases π with
  | nil => rfl
  | cons f π => exact setChild_of_ne fun e => hx (congrArg some e.symm)

end RbHead

/-! Pointers that make up a tree -/

/-- The entries make up the tree, whose root has the parent `p`. -/
def RbTree.Shape (e : α → RbEntry α) : RbTree α → Option α → Prop
  | nil, _ => True
  | node c l a r, p => e a = ⟨l.root, r.root, p, c⟩ ∧ l.Shape e (some a) ∧ r.Shape e (some a)

/-- The entries make up what is around a subtree to which `p` points. -/
def Trail.Shape (h : RbHead α) : Trail α → Option α → Prop
  | [], p => h.root = p
  | f :: π, p => h.entry f.elem = .make f.dir p f.other.root (parent π) f.color ∧
      f.other.Shape h.entry (some f.elem) ∧ Trail.Shape h π (some f.elem)

section Shape

variable {e e' : α → RbEntry α} {h h' : RbHead α} {t u : RbTree α} {π : Trail α} {a : α} {p q : Option α}
  {d : Dir} {c : Color}

theorem RbTree.shape_branch :
    (branch d c t a u).Shape e p ↔
      e a = .make d t.root u.root p c ∧ t.Shape e (some a) ∧ u.Shape e (some a) := by
  cases d with
  | left => rfl
  | right => exact and_congr_right fun _ => and_comm

theorem RbTree.Shape.frame (ht : t.Shape e p) (he : ∀ x ∈ t.toList, e' x = e x) : t.Shape e' p := by
  induction t generalizing p with
  | nil => trivial
  | node c l a r ihl ihr =>
    obtain ⟨ha, hl, hr⟩ := ht
    simp only [toList, List.mem_append, List.mem_cons] at he
    refine ⟨(he a (by simp)).trans ha, ihl hl fun x hx => he x (by simp [hx]), ihr hr fun x hx => he x (by simp [hx])⟩

theorem Trail.Shape.frame (hπ : Trail.Shape h π p) (hroot : h'.root = h.root)
    (he : ∀ x ∈ π.elems, h'.entry x = h.entry x) : Trail.Shape h' π p := by
  induction π generalizing p with
  | nil => exact hroot.trans hπ
  | cons f π ih =>
    obtain ⟨ha, hu, hπ⟩ := hπ
    simp only [elems, List.mem_append, List.mem_cons] at he
    refine ⟨(he f.elem (by simp)).trans ha, hu.frame fun x hx => he x (by simp [hx]), ?_⟩
    exact ih hπ fun x hx => he x (by simp [hx])

theorem RbTree.root_mem (ht : t.root = some a) : a ∈ t.toList := by
  cases t with
  | nil => cases ht
  | node c l b r =>
    obtain rfl := Option.some_inj.mp ht
    simp [toList]

theorem RbTree.root_ne (ha : a ∉ t.toList) : t.root ≠ some a := fun h => ha (root_mem h)

theorem Trail.parent_mem (hp : π.parent = some a) : a ∈ π.elems := by
  cases π with
  | nil => cases hp
  | cons f π =>
    obtain rfl := Option.some_inj.mp hp
    simp [elems]

theorem Trail.parent_ne (ha : a ∉ π.elems) : π.parent ≠ some a := fun h => ha (parent_mem h)

variable [DecidableEq α]

theorem RbTree.Shape.adopt (ht : t.Shape h.entry p) (hn : t.toList.Nodup) :
    t.Shape (h.adopt t.root q).entry q := by
  cases t with
  | nil => trivial
  | node c l a r =>
    obtain ⟨ha, hl, hr⟩ := ht
    simp only [toList, List.nodup_middle, List.nodup_cons, List.mem_append, not_or] at hn
    refine ⟨?_, hl.frame fun x hx => ?_, hr.frame fun x hx => ?_⟩
    · change (h.setParent a q).entry a = _
      rw [RbHead.setParent_self, ha]
    · exact RbHead.setParent_of_ne fun e => hn.1.1 (e ▸ hx)
    · exact RbHead.setParent_of_ne fun e => hn.1.2 (e ▸ hx)

theorem Trail.Shape.setHole (hπ : Trail.Shape h π p) (hn : π.elems.Nodup) : Trail.Shape (h.setHole π q) π q := by
  cases π with
  | nil => rfl
  | cons f π =>
    obtain ⟨ha, hu, hπ⟩ := hπ
    simp only [elems, List.nodup_cons, List.mem_append, not_or] at hn
    refine ⟨?_, hu.frame fun x hx => ?_, hπ.frame rfl fun x hx => ?_⟩
    · change (h.setChild f.elem f.dir q).entry f.elem = _
      rw [RbHead.setChild_self, ha, RbEntry.make_setChild]
    · exact RbHead.setChild_of_ne fun e => hn.1.1 (e ▸ hx)
    · exact RbHead.setChild_of_ne fun e => hn.1.2 (e ▸ hx)

/-- The source finds the pointer to `old` by a comparison with the left child. -/
theorem Trail.Shape.relink (hπ : Trail.Shape h π (some a)) (ha : a ∉ π.elems) :
    h.relink π.parent a q = h.setHole π q := by
  cases π with
  | nil => rfl
  | cons f π =>
    obtain ⟨d, c, b, u⟩ := f
    obtain ⟨hb, -, -⟩ := hπ
    simp only [elems, List.mem_cons, List.mem_append, not_or] at ha
    change (if (h.entry b).child .left = some a then _ else _) = _
    rw [hb]
    cases d with
    | left => exact if_pos rfl
    | right => exact if_neg (root_ne ha.2.1)

end Shape

/-! The whole tree, with a subtree in focus -/

/-- The tree is in the entries; the subtree `t` of it is in focus, with `π` around it. -/
structure Holds (h : RbHead α) (π : Trail α) (t : RbTree α) : Prop where
  tree : t.Shape h.entry π.parent
  trail : Trail.Shape h π t.root
  nodup : (t.toList ++ π.elems).Nodup

section Holds

variable {h : RbHead α} {π ρ : Trail α} {t u v w : RbTree α} {a b x : α} {d : Dir} {c c' : Color}

theorem holds_branch : Holds h (⟨d, c, a, u⟩ :: π) t ↔ Holds h π (branch d c t a u) := by
  have hperm : (t.toList ++ elems (⟨d, c, a, u⟩ :: π)).Perm ((branch d c t a u).toList ++ π.elems) := by
    refine List.perm_middle.trans (List.Perm.trans ?_ (branch_perm.symm.append_right _))
    simp
  constructor
  · rintro ⟨ht, ⟨ha, hu, hπ⟩, hn⟩
    exact ⟨shape_branch.mpr ⟨ha, ht, hu⟩, by rw [branch_root]; exact hπ, hperm.nodup_iff.mp hn⟩
  · rintro ⟨ht, hπ, hn⟩
    obtain ⟨ha, ht, hu⟩ := shape_branch.mp ht
    rw [branch_root] at hπ
    exact ⟨ht, ⟨ha, hu, hπ⟩, hperm.nodup_iff.mpr hn⟩

theorem holds_other : Holds h (⟨d.flip, c, a, t⟩ :: π) u ↔ Holds h π (branch d c t a u) := by
  rw [holds_branch, branch_flip]

theorem holds_fill (ρ : Trail α) : Holds h (ρ ++ π) t ↔ Holds h π (fill ρ t) := by
  induction ρ generalizing t with
  | nil => rfl
  | cons f ρ ih => exact holds_branch.trans ih

theorem holds_nil : Holds h π t ↔ Holds h [] (fill π t) := by
  rw [← holds_fill π, List.append_nil]

namespace Holds

theorem tree_nodup (hh : Holds h π t) : t.toList.Nodup := (List.nodup_append.mp hh.nodup).1
theorem trail_nodup (hh : Holds h π t) : π.elems.Nodup := (List.nodup_append.mp hh.nodup).2.1

theorem notMem (hh : Holds h π t) (hx : x ∈ t.toList) : x ∉ π.elems :=
  fun hx' => (List.nodup_append.mp hh.nodup).2.2 x hx x hx' rfl

theorem entry (hh : Holds h π (branch d c t a u)) : h.entry a = .make d t.root u.root π.parent c :=
  (shape_branch.mp hh.tree).1

theorem child (hh : Holds h π (branch d c t a u)) : h.child a d = t.root := by
  rw [RbHead.child, hh.entry, RbEntry.make_child]

theorem child_flip (hh : Holds h π (branch d c t a u)) : h.child a d.flip = u.root := by
  rw [RbHead.child, hh.entry, RbEntry.make_child_flip]

theorem parent_eq (hh : Holds h π (branch d c t a u)) : h.parent a = π.parent := by
  rw [RbHead.parent, hh.entry, RbEntry.make_parent]

theorem color_eq (hh : Holds h π (branch d c t a u)) : h.color a = c := by
  rw [RbHead.color, hh.entry, RbEntry.make_color]

theorem parent_of_root (hh : Holds h π t) (hx : t.root = some x) : h.parent x = π.parent := by
  obtain ⟨c, l, y, r, rfl⟩ := exists_branch .left (t := t) (by rintro rfl; cases hx)
  rw [branch_root, Option.some_inj] at hx
  exact hx ▸ hh.parent_eq

theorem root_eq (hh : Holds h [] t) : h.root = t.root := hh.trail

theorem root_ne_focus {f : Frame α} (hh : Holds h (f :: π) t) : t.root ≠ h.root := by
  have hroot : ∀ {π : Trail α} {f : Frame α} {q : Option α}, Trail.Shape h (f :: π) q →
      ∃ r ∈ elems (f :: π), h.root = some r := by
    intro π
    induction π with
    | nil =>
      rintro f q ⟨-, -, hr⟩
      exact ⟨f.elem, by simp [elems], hr⟩
    | cons g π ih =>
      rintro f q ⟨-, -, hπ⟩
      obtain ⟨r, hr, hroot⟩ := ih hπ
      exact ⟨r, by simp [elems] at hr ⊢; tauto, hroot⟩
  obtain ⟨r, hr, heq⟩ := hroot hh.trail
  rw [heq]
  exact root_ne fun hmem => hh.notMem hmem hr

theorem isRed_iff [DecidableEq α] (hh : Holds h π t) : h.isRed t.root = true ↔ t.color = .red := by
  cases t with
  | nil => simp [root, RbHead.isRed, RbTree.color]
  | node c l a r =>
    have := color_eq (d := .left) hh
    simp [root, RbHead.isRed, RbTree.color, this]

theorem isRed_eq_false [DecidableEq α] (hh : Holds h π t) : h.isRed t.root = false ↔ t.color = .black := by
  rw [← Bool.not_eq_true, hh.isRed_iff]
  cases t.color <;> simp

theorem children_black [DecidableEq α] (hh : Holds h π (branch d c t a u)) :
    (h.isRed (h.child a .left) = false ∧ h.isRed (h.child a .right) = false) ↔
      t.color = .black ∧ u.color = .black := by
  have ht := hh.child ▸ (holds_branch.mpr hh).isRed_eq_false
  have hu := hh.child_flip ▸ (holds_other.mpr hh).isRed_eq_false
  cases d with
  | left => exact and_congr ht hu
  | right => exact (and_congr hu ht).trans and_comm

theorem elem_notMem (hh : Holds h π (branch d c t a u)) : a ∉ t.toList ∧ a ∉ u.toList ∧ a ∉ π.elems := by
  have hn := branch_perm.nodup_iff.mp hh.tree_nodup
  simp only [List.nodup_cons, List.mem_append, not_or] at hn
  exact ⟨hn.1.1, hn.1.2, hh.notMem (by simp)⟩

/-- The source knows the side of a subtree by a comparison with the left child; the
empty subtree of a node counts as its left one if both are empty. -/
theorem sideOf [DecidableEq α] (hh : Holds h (⟨d, c, a, u⟩ :: π) t) (hne : t ≠ nil ∨ u ≠ nil) :
    h.sideOf a t.root = d := by
  have hb := holds_branch.mp hh
  have hu : u.root ≠ t.root := by
    intro heq
    cases t with
    | nil =>
      obtain ⟨c', l, x, r, rfl⟩ := exists_branch .left (hne.resolve_left (by simp))
      rw [branch_root] at heq
      cases heq
    | node c' l x r =>
      refine hh.notMem (root_mem (t := node c' l x r) rfl) ?_
      simp [elems, root_mem heq]
  cases d with
  | left => exact if_pos hb.child
  | right => exact if_neg (by rw [show h.child a .left = u.root from hb.child_flip]; exact hu)

theorem spine (rounds : ℕ) :
    ∀ {π : Trail α} {t : RbTree α} {a : α}, Holds h π t → t.root = some a → t.height ≤ rounds →
      ∃ ρ c x u, t = fill ρ (branch d c nil x u) ∧ (∀ f ∈ ρ, f.dir = d) ∧ h.spine d rounds a = .ok x := by
  induction rounds with
  | zero =>
    intro π t a _ ha hr
    cases t with
    | nil => cases ha
    | node c l b r => simp [height] at hr
  | succ rounds ih =>
    intro π t a hh ha hr
    obtain ⟨c, t₁, b, t₂, rfl⟩ := exists_branch d (t := t) (by rintro rfl; cases ha)
    rw [branch_root, Option.some_inj] at ha
    subst ha
    cases ht₁ : t₁.root with
    | none =>
      obtain rfl : t₁ = nil := by
        cases t₁ with
        | nil => rfl
        | node => cases ht₁
      exact ⟨[], c, b, t₂, rfl, by simp, by simp [RbHead.spine, hh.child, root]⟩
    | some a' =>
      rw [branch_height] at hr
      obtain ⟨ρ, c', x, u, rfl, hρ, hsp⟩ := ih (holds_branch.mpr hh) ht₁ (by omega)
      refine ⟨ρ ++ [⟨d, c, b, t₂⟩], c', x, u, by rw [fill_append]; rfl, ?_, ?_⟩
      · simp only [List.mem_append, List.mem_singleton]
        rintro f (hf | rfl)
        · exact hρ f hf
        · rfl
      · simp [RbHead.spine, hh.child, ht₁, hsp]

end Holds

variable [DecidableEq α]

theorem Holds.setColor (hh : Holds h π (branch d c t a u)) (c' : Color) :
    Holds (h.setColor a c') π (branch d c' t a u) := by
  obtain ⟨ht, hu, hπ⟩ := hh.elem_notMem
  obtain ⟨-, ht', hu'⟩ := shape_branch.mp hh.tree
  refine ⟨shape_branch.mpr ⟨?_, ?_, ?_⟩, ?_, ?_⟩
  · rw [RbHead.setColor_self, hh.entry, RbEntry.make_setColor]
  · exact ht'.frame fun x hx => RbHead.setColor_of_ne fun e => ht (e ▸ hx)
  · exact hu'.frame fun x hx => RbHead.setColor_of_ne fun e => hu (e ▸ hx)
  · rw [branch_root]
    have := hh.trail
    rw [branch_root] at this
    exact this.frame rfl fun x hx => RbHead.setColor_of_ne fun e => hπ (e ▸ hx)
  · refine ((branch_perm.trans branch_perm.symm).append_right _).nodup_iff.mp hh.nodup

theorem Holds.blacken (hh : Holds h π t) :
    Holds (match t.root with | some a => h.setColor a .black | none => h) π t.blacken := by
  cases t with
  | nil => exact hh
  | node c l a r => exact Holds.setColor (d := .left) hh .black

theorem Holds.rotate (hh : Holds h π (branch d c t a (branch d c' u b v))) :
    ∃ h', RbHead.rotate d h a = .ok h' ∧ Holds h' π (branch d c' (branch d c t a u) b v) := by
  have hb : Holds h (⟨d.flip, c, a, t⟩ :: π) (branch d c' u b v) := holds_other.mpr hh
  have hu : Holds h (⟨d, c', b, v⟩ :: ⟨d.flip, c, a, t⟩ :: π) u := holds_branch.mpr hb
  have hv : Holds h (⟨d.flip, c', b, u⟩ :: ⟨d.flip, c, a, t⟩ :: π) v := holds_other.mpr hb
  have ht : Holds h (⟨d, c, a, branch d c' u b v⟩ :: π) t := holds_branch.mpr hh
  have hbt := hb.elem_notMem
  have hau := hh.elem_notMem
  have hut := fun x hx => hu.notMem (x := x) hx
  have hvt := fun x hx => hv.notMem (x := x) hx
  have htt := fun x hx => ht.notMem (x := x) hx
  simp only [elems, List.mem_cons, List.mem_append, mem_branch, not_or] at hbt hau hut hvt htt
  have hne : a ≠ b := hau.2.1.1
  have hua : u.root ≠ some a := root_ne hau.2.1.2.1
  have hub : u.root ≠ some b := root_ne hbt.1
  -- the writes of the source, one after the other
  set h₁ := (h.setChild a d.flip u.root).adopt u.root (some a) with h₁_def
  set h₂ := h₁.setParent b π.parent with h₂_def
  set h₃ := h₂.setHole π (some b) with h₃_def
  set h₄ := (h₃.setChild b d (some a)).setParent a (some b) with h₄_def
  have h₁_a : h₁.entry a = .make d t.root u.root π.parent c := by
    rw [h₁_def, RbHead.adopt_of_ne hua, RbHead.setChild_self, hh.entry, RbEntry.make_setChild_flip]
  have h₁_b : h₁.entry b = .make d u.root v.root (some a) c' := by
    rw [h₁_def, RbHead.adopt_of_ne hub, RbHead.setChild_of_ne hne.symm, hb.entry]
    rfl
  have h₁_u : u.Shape h₁.entry (some a) := by
    refine Shape.adopt (p := some b) ?_ hu.tree_nodup
    exact hu.tree.frame fun x hx => RbHead.setChild_of_ne (hut x hx).2.2.1
  have h₂_π : Trail.Shape h₂ π (some a) := by
    have hπ := hh.trail
    rw [branch_root] at hπ
    refine hπ.frame (by simp [h₂_def, h₁_def]) fun x hx => ?_
    rw [h₂_def, RbHead.setParent_of_ne, h₁_def, RbHead.adopt_of_ne, RbHead.setChild_of_ne]
    · rintro rfl; exact hau.2.2 hx
    · intro hr; exact (hut x (root_mem hr)).2.2.2.2 hx
    · rintro rfl; exact hbt.2.2.2.2 hx
  have h₃_π : Trail.Shape h₃ π (some b) := h₂_π.setHole hh.trail_nodup
  have hrot : RbHead.rotate d h a = .ok h₄ := by
    have h₂_a : h₂.parent a = π.parent := by
      rw [RbHead.parent, h₂_def, RbHead.setParent_of_ne hne, h₁_a, RbEntry.make_parent]
    have h₁_p : h₁.parent a = π.parent := by rw [RbHead.parent, h₁_a, RbEntry.make_parent]
    simp only [RbHead.rotate, hh.child_flip, branch_root, RbHead.deref, except_ok_bind, hb.child, ← h₁_def, h₁_p,
      ← h₂_def, h₂_a, h₂_π.relink hau.2.2, ← h₃_def, ← h₄_def]
  have hout : ∀ x, x ≠ a → x ≠ b → x ∉ π.elems → h₄.entry x = h₁.entry x := by
    intro x hxa hxb hxπ
    rw [h₄_def, RbHead.setParent_of_ne hxa, RbHead.setChild_of_ne hxb, h₃_def, RbHead.setHole_of_ne (parent_ne hxπ),
      h₂_def, RbHead.setParent_of_ne hxb]
  have hout' : ∀ x, x ≠ a → x ≠ b → x ∉ u.toList → x ∉ π.elems → h₄.entry x = h.entry x := by
    intro x hxa hxb hxu hxπ
    rw [hout x hxa hxb hxπ, h₁_def, RbHead.adopt_of_ne (root_ne hxu), RbHead.setChild_of_ne hxa]
  refine ⟨h₄, hrot, ⟨shape_branch.mpr ⟨?_, shape_branch.mpr ⟨?_, ?_, ?_⟩, ?_⟩, ?_, ?_⟩⟩
  · rw [branch_root, h₄_def, RbHead.setParent_of_ne hne.symm, RbHead.setChild_self, h₃_def,
      RbHead.setHole_of_ne (parent_ne hbt.2.2.2.2), h₂_def, RbHead.setParent_self, h₁_b, RbEntry.make_setParent,
      RbEntry.make_setChild]
  · rw [h₄_def, RbHead.setParent_self, RbHead.setChild_of_ne hne, h₃_def, RbHead.setHole_of_ne (parent_ne hau.2.2),
      h₂_def, RbHead.setParent_of_ne hne, h₁_a, RbEntry.make_setParent]
  · exact ht.tree.frame fun x hx => hout' x (htt x hx).1 (htt x hx).2.1.1 (htt x hx).2.1.2.1 (htt x hx).2.2
  · exact h₁_u.frame fun x hx => hout x (hut x hx).2.2.1 (hut x hx).1 (hut x hx).2.2.2.2
  · exact hv.tree.frame fun x hx => hout' x (hvt x hx).2.2.1 (hvt x hx).1 (hvt x hx).2.1 (hvt x hx).2.2.2.2
  · rw [branch_root]
    refine h₃_π.frame rfl fun x hx => ?_
    rw [h₄_def, RbHead.setParent_of_ne, RbHead.setChild_of_ne]
    · rintro rfl; exact hbt.2.2.2.2 hx
    · rintro rfl; exact hau.2.2 hx
  · rw [branch_rotate]
    exact hh.nodup

theorem Holds.setBlackred {d' : Dir} (hh : Holds h π (branch d c (branch d' c' t b u) a v)) :
    Holds (h.setBlackred b a) π (branch d .red (branch d' .black t b u) a v) :=
  (holds_branch.mp ((holds_branch.mpr hh).setColor .black)).setColor .red

end Holds
end Lthr

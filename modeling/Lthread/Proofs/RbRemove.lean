import Lthread.Proofs.RbShape

/-! `RB_REMOVE`: an element with at most one child goes out of the tree, in the place of the
one to be removed if that has two, and the loop of `RB_REMOVE_COLOR` takes the black node
that is missing up the tree until it is made good. -/

namespace Lthr

open RbTree Trail

variable {α : Type} [DecidableEq α] {h : RbHead α} {π : Trail α} {t u v w : RbTree α} {x y p s : α} {d : Dir}
  {c c' : Color} {n : ℕ}

/-! `RB_REMOVE_COLOR` -/

theorem Holds.turn (hh : Holds h (⟨d, c, p, branch d .black v s w⟩ :: π) t) :
    let h₁ := (h.setColor s (h.color p)).setColor p .black
    ∃ h', RbHead.rotate d (match h₁.child s d.flip with | some far => h₁.setColor far .black | none => h₁) p = .ok h' ∧
      Holds h' π (branch d c (branch d .black t p v) s w.blacken) := by
  intro h₁
  have hp := holds_branch.mp hh
  have hs := (holds_other.mpr hp).setColor (h.color p)
  have hp₁ := (holds_other.mp hs).setColor .black
  have hs₁ := holds_other.mpr hp₁
  have hw := (holds_other.mpr hs₁).blacken
  obtain ⟨h', hrot, hh'⟩ := (holds_other.mp (holds_other.mp hw)).rotate
  rw [hp.color_eq] at hh'
  exact ⟨h', by rw [hs₁.child_flip]; exact hrot, hh'⟩

theorem removeRotate_ok (hh : Holds h (⟨d, c, p, branch d .black v s w⟩ :: π) t) (ht : t.Balanced n)
    (hv : v.Balanced n) (hw : w.Balanced n) (hred : v.color = .red ∨ w.color = .red)
    (hπ : Trail.Balanced (n + 1) (⟨d, c, p, branch d .black v s w⟩ :: π)) :
    ∃ h' t', h.removeRotate d p s = .ok h' ∧ Holds h' [] t' ∧ t'.Valid ∧
      t'.toList = (fill (⟨d, c, p, branch d .black v s w⟩ :: π) t).toList := by
  have hs := holds_other.mpr (holds_branch.mp hh)
  have hfar : h.isRed (h.child s d.flip) = true ↔ w.color = .red := by
    rw [hs.child_flip]
    exact (holds_other.mpr hs).isRed_iff
  by_cases hwc : w.color = .red
  · obtain ⟨h', hrot, hh'⟩ := hh.turn
    refine ⟨h', _, ?_, holds_nil.mp hh', Trail.valid_turn ht hv (hw.blacken hwc) hπ, ?_⟩
    · simp only [RbHead.removeRotate, if_pos (hfar.mpr hwc), except_ok_bind]
      exact hrot
    · rw [fill]
      apply fill_congr
      rw [branch_rotate]
      cases d <;> simp [branch, toList]
  · -- the near nephew is red: it takes the place of the sibling first
    have hvc : v.color = .red := hred.resolve_right hwc
    obtain ⟨v₁, y, v₂, rfl, hc₁, hc₂, hv₁, hv₂⟩ := exists_red d hvc hv
    have hy := (holds_branch.mpr hs).setColor .black
    have hs₁ := (holds_branch.mp hy).setColor .red
    rw [← branch_flip, ← branch_flip (d := d) (c := .black)] at hs₁
    obtain ⟨h₁, hrot₁, hs₂⟩ := hs₁.rotate
    rw [branch_flip, branch_flip] at hs₂
    have hp₁ := holds_other.mp hs₂
    obtain ⟨h', hrot, hh'⟩ := (holds_branch.mpr hp₁).turn
    have hwb : (branch d .red v₂ s w).blacken.Balanced (n + 1) := by
      rw [branch_blacken]
      exact RbTree.balanced_black.mpr ⟨hv₂, hw⟩
    refine ⟨h', _, ?_, holds_nil.mp hh', Trail.valid_turn ht hv₁ hwb hπ, ?_⟩
    · have hnear : h.child s d = some y := by rw [hs.child, branch_root]
      simp only [RbHead.removeRotate, if_neg (hfar.not.mpr hwc), hnear, hrot₁, except_ok_bind, hp₁.child_flip,
        branch_root, RbHead.deref]
      exact hrot
    · rw [fill]
      apply fill_congr
      cases d <;> simp [branch, toList]

/-- A round of `RB_REMOVE_COLOR` starts with a black sibling. If it had to be rotated there,
the parent is red now. -/
theorem removeSibling_ok (hh : Holds h (⟨d, c, p, v⟩ :: π) t) (hπ : Trail.Balanced (n + 1) (⟨d, c, p, v⟩ :: π)) :
    ∃ h' c' v₁ s v₂ π', h.removeSibling d p = .ok (h', s) ∧
      Holds h' (⟨d, c', p, branch d .black v₁ s v₂⟩ :: π') t ∧
      Trail.Balanced (n + 1) (⟨d, c', p, branch d .black v₁ s v₂⟩ :: π') ∧
      (fill (⟨d, c', p, branch d .black v₁ s v₂⟩ :: π') t).toList = (fill (⟨d, c, p, v⟩ :: π) t).toList ∧
      (c' = .red ∨ π' = π) := by
  obtain ⟨c₁, v₁, s, v₂, rfl⟩ := exists_branch d (ne_nil_of_balanced hπ.other)
  have hp := holds_branch.mp hh
  have hs := holds_other.mpr hp
  have hchild : h.child p d.flip = some s := by rw [hp.child_flip, branch_root]
  cases c₁ with
  | black =>
    refine ⟨h, c, v₁, s, v₂, π, ?_, hh, hπ, rfl, Or.inr rfl⟩
    simp [RbHead.removeSibling, hchild, RbHead.deref, hs.color_eq]
  | red =>
    cases c with
    | red =>
      obtain ⟨-, hc, -⟩ := hπ
      rw [branch_color] at hc
      cases hc
    | black =>
      obtain ⟨hv, hπ⟩ := hπ
      obtain ⟨hc₁, hc₂, hv₁, hv₂⟩ := RbTree.balanced_red.mp hv
      rw [← branch_flip] at hp
      have hcol := hp.setBlackred
      rw [branch_flip] at hcol
      obtain ⟨h', hrot, hh'⟩ := hcol.rotate
      have hp' := holds_branch.mpr hh'
      obtain ⟨w₁, y, w₂, rfl, -, -⟩ := exists_black d hc₁ hv₁
      refine ⟨h', .red, w₁, y, w₂, ⟨d, .black, s, v₂⟩ :: π, ?_, holds_branch.mpr hp', ?_, ?_, Or.inl rfl⟩
      · simp [RbHead.removeSibling, hchild, RbHead.deref, hs.color_eq, hrot, hp'.child_flip]
      · exact ⟨hv₁, branch_color, rfl, hv₂, hπ⟩
      · rw [fill, fill, fill]
        apply fill_congr
        rw [branch_rotate]
        cases d <;> simp [branch, toList]

/-- The loop of `RB_REMOVE_COLOR`, from a subtree with one black node too few on every way
down. -/
theorem removeColorLoop_ok (rounds : ℕ) :
    ∀ {h : RbHead α} {π : Trail α} {t : RbTree α} {n : ℕ}, Holds h π t → (t.color = .black → t.Balanced n) →
      (t.color = .red → t.blacken.Balanced (n + 1)) → Trail.Balanced (n + 1) π →
      1 ≤ rounds → (t.color = .black → π.length + 1 ≤ rounds) →
      ∃ h' π' t' m, h.removeColorLoop rounds π.parent t.root = .ok (h', t'.root) ∧ Holds h' π' t' ∧
        Trail.Balanced m π' ∧ t'.blacken.Balanced m ∧ (fill π' t').toList = (fill π t).toList := by
  induction rounds with
  | zero =>
    intro h π t n _ _ _ _ hr _
    omega
  | succ rounds ih =>
    intro h π t n hh hblack hred hπ _ hr
    cases htc : t.color with
    | red =>
      refine ⟨h, π, t, n + 1, ?_, hh, hπ, hred htc, rfl⟩
      have hir := hh.isRed_iff.mpr htc
      simp [RbHead.removeColorLoop, hir]
    | black =>
      have ht := hblack htc
      cases π with
      | nil =>
        refine ⟨h, [], t, n, ?_, hh, trivial, by rwa [blacken_of_black htc], rfl⟩
        simp [RbHead.removeColorLoop, hh.root_eq]
      | cons f π =>
        obtain ⟨d, c, p, v⟩ := f
        have hside := hh.sideOf (Or.inr (ne_nil_of_balanced hπ.other))
        have hgo : h.isRed t.root = false ∧ t.root ≠ h.root :=
          ⟨hh.isRed_eq_false.mpr htc, hh.root_ne_focus⟩
        obtain ⟨h₁, c₁, v₁, s, v₂, π₁, hsib, hh₁, hπ₁, hlist, hc₁⟩ := removeSibling_ok hh hπ
        have hp₁ := holds_branch.mp hh₁
        have hs₁ := holds_other.mpr hp₁
        have hstep : h.removeColorLoop (rounds + 1) (some p) t.root =
            (if h₁.isRed (h₁.child s .left) = false ∧ h₁.isRed (h₁.child s .right) = false then
              RbHead.removeColorLoop rounds (h₁.setColor s .red) (parent π₁) (some p)
            else do
              let h' ← h₁.removeRotate d p s
              .ok (h', h'.root)) := by
          simp only [RbHead.removeColorLoop, if_pos hgo, RbHead.deref, except_ok_bind, hside, hsib, hp₁.parent_eq]
        obtain ⟨hv₁, hv₂⟩ := RbTree.balanced_black.mp hπ₁.other
        rw [parent, hstep]
        by_cases hnb : v₁.color = .black ∧ v₂.color = .black
        · rw [if_pos (hs₁.children_black.mpr hnb)]
          -- the sibling turns red, and the parent is short of a black node instead
          have hp₂ := holds_other.mp (hs₁.setColor .red)
          have hv : (branch d .red v₁ s v₂).Balanced n := RbTree.balanced_red.mpr ⟨hnb.1, hnb.2, hv₁, hv₂⟩
          have hb : (branch d .black t p (branch d .red v₁ s v₂)).Balanced (n + 1) :=
            RbTree.balanced_black.mpr ⟨ht, hv⟩
          have hlist₂ : (fill π₁ (branch d c₁ t p (branch d .red v₁ s v₂))).toList = (fill (⟨d, c, p, v⟩ :: π) t).toList := by
            rw [← hlist, fill]
            apply fill_congr
            cases d <;> simp [branch, toList]
          have hr₂ := hr htc
          rw [List.length_cons] at hr₂
          rw [← hlist₂, ← branch_root (d := d) (c := c₁) (t := t) (a := p) (u := branch d .red v₁ s v₂)]
          cases c₁ with
          | red =>
            obtain ⟨-, -, -, hπ₂⟩ := hπ₁
            exact ih hp₂ (by simp) (fun _ => by rwa [branch_blacken]) hπ₂ (by omega) (by simp)
          | black =>
            obtain rfl := hc₁.resolve_left (by simp)
            exact ih hp₂ (fun _ => hb) (by simp) hπ₁.2 (by omega) (fun _ => by omega)
        · rw [if_neg (hs₁.children_black.not.mpr hnb)]
          have hred₁ : v₁.color = .red ∨ v₂.color = .red := by
            cases h1 : v₁.color <;> cases h2 : v₂.color <;> simp_all
          obtain ⟨h', t', hrot, hh', hval, hlist'⟩ := removeRotate_ok hh₁ ht hv₁ hv₂ hred₁ hπ₁
          obtain ⟨hc', m, hm⟩ := hval
          refine ⟨h', [], t', m, ?_, hh', trivial, by rwa [blacken_of_black hc'], hlist'.trans hlist⟩
          rw [hrot, except_ok_bind, hh'.root_eq]

theorem removeColor_ok {rounds : ℕ} (hh : Holds h π t) (ht : t.Balanced n) (hπ : Trail.Balanced (n + 1) π)
    (hr : π.length + 1 ≤ rounds) :
    ∃ h' t', h.removeColor rounds π.parent t.root = .ok h' ∧ Holds h' [] t' ∧ t'.Valid ∧
      t'.toList = (fill π t).toList := by
  obtain ⟨h₁, π₁, t₁, m, hloop, hh₁, hπ₁, ht₁, hlist⟩ :=
    removeColorLoop_ok rounds hh (fun _ => ht) ht.blacken hπ (by omega) fun _ => hr
  refine ⟨_, fill π₁ t₁.blacken, ?_, holds_nil.mp hh₁.blacken, ?_, ?_⟩
  · rw [RbHead.removeColor, hloop, except_ok_bind]
    cases t₁.root <;> rfl
  · exact (valid_fill_iff _ _).mpr ⟨m, hπ₁, ht₁, by simp⟩
  · rw [← hlist]
    exact fill_congr blacken_toList

/-! Taking an element out -/

theorem Holds.unlink (hh : Holds h π (branch d c nil x u)) : Holds (h.unlink x u.root) π u := by
  have hu := holds_other.mpr hh
  obtain ⟨-, hxu, hxπ⟩ := hh.elem_notMem
  have hdis : ∀ y ∈ u.toList, y ∉ π.elems := fun y hy => hh.notMem (by simp [hy])
  set h₁ := h.adopt u.root π.parent with h₁_def
  have hπ : Trail.Shape h₁ π (some x) := by
    have := hh.trail
    rw [branch_root] at this
    exact this.frame (by simp [h₁_def]) fun y hy => RbHead.adopt_of_ne (root_ne fun hyu => hdis y hyu hy)
  have hunl : h.unlink x u.root = h₁.setHole π u.root := by
    rw [RbHead.unlink, hh.parent_eq, ← h₁_def, hπ.relink hxπ]
  rw [hunl]
  refine ⟨?_, hπ.setHole hh.trail_nodup, List.nodup_append.mpr ⟨hu.tree_nodup, hh.trail_nodup, ?_⟩⟩
  · have := hu.tree.adopt (q := π.parent) hu.tree_nodup
    exact this.frame fun y hy => RbHead.setHole_of_ne (parent_ne (hdis y hy))
  · rintro y hy z hz rfl
    exact hdis y hy hz

theorem Holds.replace (hh : Holds h π (branch .left c t x u)) (ht : t ≠ nil)
    (hy : y ∉ (branch .left c t x u).toList ++ π.elems) :
    ∃ h', h.replace x y = .ok h' ∧ Holds h' π (branch .left c t y u) := by
  simp only [List.mem_append, mem_branch, not_or] at hy
  obtain ⟨⟨hyx, hyt, hyu⟩, hyπ⟩ := hy
  obtain ⟨hxt, hxu, hxπ⟩ := hh.elem_notMem
  have htt := holds_branch.mpr hh
  have huu := holds_other.mpr hh
  have htu : ∀ z ∈ t.toList, z ∉ u.toList ∧ z ∉ π.elems := by
    intro z hz
    have := htt.notMem hz
    simp only [elems, List.mem_cons, List.mem_append, not_or] at this
    exact this.2
  have huπ : ∀ z ∈ u.toList, z ∉ π.elems := fun z hz => hh.notMem (by simp [hz])
  set h₁ := h.modify y fun _ => h.entry x with h₁_def
  set h₂ := h₁.setHole π (some y) with h₂_def
  set h₃ := h₂.adopt t.root (some y) with h₃_def
  set h₄ := h₃.adopt u.root (some y) with h₄_def
  have h₁_other : ∀ {z}, z ≠ y → h₁.entry z = h.entry z := fun hz => RbHead.modify_of_ne _ hz
  have h₁_π : Trail.Shape h₁ π (some x) := by
    have := hh.trail
    rw [branch_root] at this
    exact this.frame rfl fun z hz => h₁_other fun e => hyπ (e ▸ hz)
  have h₂_π : Trail.Shape h₂ π (some y) := h₁_π.setHole hh.trail_nodup
  have h₂_other : ∀ {z}, z ≠ y → z ∉ π.elems → h₂.entry z = h.entry z := fun hz hzπ =>
    (RbHead.setHole_of_ne (parent_ne hzπ)).trans (h₁_other hz)
  have h₂_x : h₂.entry x = .make .left t.root u.root π.parent c := (h₂_other (Ne.symm hyx) hxπ).trans hh.entry
  have hrep : h.replace x y = .ok h₄ := by
    obtain ⟨c', l, b, r, rfl⟩ := exists_branch .left ht
    have hpar : h₁.parent x = π.parent := by
      rw [RbHead.parent, h₁_other (Ne.symm hyx), hh.entry, RbEntry.make_parent]
    have hleft : h₂.child x .left = some b := by rw [RbHead.child, h₂_x, RbEntry.make_child, branch_root]
    have hright : h₃.child x .right = u.root := by
      rw [RbHead.child, h₃_def, RbHead.adopt_of_ne (root_ne hxt), h₂_x]
      rfl
    have h₃_eq : h₂.setParent b (some y) = h₃ := by rw [h₃_def, branch_root]; rfl
    simp only [RbHead.replace, ← h₁_def, hpar, h₁_π.relink hxπ, ← h₂_def, hleft, RbHead.deref, except_ok_bind, h₃_eq,
      hright, ← h₄_def]
  refine ⟨h₄, hrep, ⟨shape_branch.mpr ⟨?_, ?_, ?_⟩, ?_, ?_⟩⟩
  · rw [h₄_def, RbHead.adopt_of_ne (root_ne hyu), h₃_def, RbHead.adopt_of_ne (root_ne hyt), h₂_def,
      RbHead.setHole_of_ne (parent_ne hyπ), h₁_def, RbHead.modify_self, hh.entry]
  · have h₂_t : t.Shape h₂.entry (some x) :=
      htt.tree.frame fun z hz => h₂_other (fun e => hyt (e ▸ hz)) (htu z hz).2
    exact (h₂_t.adopt htt.tree_nodup).frame fun z hz => RbHead.adopt_of_ne (root_ne (htu z hz).1)
  · have h₃_u : u.Shape h₃.entry (some x) := by
      refine huu.tree.frame fun z hz => ?_
      rw [h₃_def, RbHead.adopt_of_ne (root_ne fun hzt => (htu z hzt).1 hz), h₂_other (fun e => hyu (e ▸ hz)) (huπ z hz)]
    exact h₃_u.adopt huu.tree_nodup
  · rw [branch_root]
    refine h₂_π.frame (by simp [h₄_def, h₃_def]) fun z hz => ?_
    rw [h₄_def, RbHead.adopt_of_ne (root_ne fun hzu => huπ z hzu hz), h₃_def,
      RbHead.adopt_of_ne (root_ne fun hzt => (htu z hzt).2 hz)]
  · have hn := (branch_perm.append_right π.elems).nodup_iff.mp hh.nodup
    refine (branch_perm.append_right π.elems).nodup_iff.mpr ?_
    rw [List.cons_append, List.nodup_cons] at hn ⊢
    exact ⟨by simp [hyt, hyu, hyπ], hn.2⟩

/-- The element after `x` in order leaves its place at the bottom and takes that of `x`. -/
theorem removeNode_two {rounds : ℕ} (hh : Holds h π (branch .left c t x u)) (ht : t ≠ nil) (hu : u ≠ nil)
    (hr : u.height ≤ rounds) :
    ∃ h' ρ c' y v, u = fill ρ (branch .left c' nil y v) ∧ (∀ f ∈ ρ, f.dir = .left) ∧
      h.removeNode rounds x = .ok (h', parent (ρ ++ ⟨.right, c, y, t⟩ :: π), v.root, c') ∧
      Holds h' (ρ ++ ⟨.right, c, y, t⟩ :: π) v := by
  obtain ⟨a, ha⟩ : ∃ a, u.root = some a := by
    obtain ⟨cu, u₁, a, u₂, rfl⟩ := exists_branch .left hu
    exact ⟨a, branch_root⟩
  obtain ⟨b, hb⟩ : ∃ b, t.root = some b := by
    obtain ⟨ct, t₁, b, t₂, rfl⟩ := exists_branch .left ht
    exact ⟨b, branch_root⟩
  have hxu := hh.elem_notMem.2.1
  have hu' : Holds h (⟨.right, c, x, t⟩ :: π) u := holds_other.mpr hh
  obtain ⟨ρ, c', y, v, hfill, hρ, hsp⟩ := hu'.spine (d := .left) rounds ha hr
  have hy : Holds h (ρ ++ ⟨.right, c, x, t⟩ :: π) (branch .left c' nil y v) := (holds_fill ρ).mpr (hfill ▸ hu')
  have hx₁ : Holds (h.unlink y v.root) π (branch .left c t x (fill ρ v)) :=
    holds_other.mp ((holds_fill ρ).mp hy.unlink)
  have hfresh : y ∉ (branch .left c t x (fill ρ v)).toList ++ π.elems := by
    obtain ⟨-, hyv, hyρ⟩ := hy.elem_notMem
    rw [elems_append] at hyρ
    simp only [elems, List.mem_append, List.mem_cons, not_or, mem_branch, (fill_perm ρ v).mem_iff] at hyρ ⊢
    tauto
  obtain ⟨h', hrep, hh'⟩ := hx₁.replace ht hfresh
  refine ⟨h', ρ, c', y, v, hfill, hρ, ?_, (holds_fill ρ).mpr (holds_other.mpr hh')⟩
  have hpar : (if h.parent y = some x then some y else h.parent y) = parent (ρ ++ ⟨.right, c, y, t⟩ :: π) := by
    rw [hy.parent_eq]
    cases ρ with
    | nil => exact if_pos rfl
    | cons f ρ =>
      refine if_neg fun heq => hxu ?_
      obtain rfl := Option.some_inj.mp heq
      rw [hfill, (fill_perm _ _).mem_iff]
      simp [elems]
  have hleft : h.child x .left = some b := by rw [hh.child, hb]
  have hright : h.child x .right = some a := by rw [show h.child x .right = u.root from hh.child_flip, ha]
  have hchild : h.child y .right = v.root := hy.child_flip
  simp only [RbHead.removeNode, hleft, hright, hsp, except_ok_bind, hchild, hpar, hrep, hy.color_eq]

theorem removeNode_one (rounds : ℕ) (hh : Holds h π (branch .left c t x u)) (hne : t = nil ∨ u = nil) :
    ∃ d v, branch .left c t x u = branch d c nil x v ∧ t.toList ++ u.toList = v.toList ∧
      h.removeNode rounds x = .ok (h.unlink x v.root, π.parent, v.root, c) := by
  have hleft : h.child x .left = t.root := hh.child
  have hright : h.child x .right = u.root := hh.child_flip
  cases t with
  | nil =>
    refine ⟨.left, u, rfl, rfl, ?_⟩
    simp [RbHead.removeNode, hleft, hright, root, hh.parent_eq, hh.color_eq]
  | node c' l a r =>
    obtain rfl := hne.resolve_left (by simp)
    refine ⟨.right, node c' l a r, rfl, List.append_nil _, ?_⟩
    simp [RbHead.removeNode, hleft, hright, root, hh.parent_eq, hh.color_eq]

/-- `RB_REMOVE` up to its label `color`: the place where a node went out, with the tree around it. -/
theorem removeNode_ok {rounds : ℕ} (hh : Holds h π (branch .left c t x u)) (hr : u.height ≤ rounds)
    (hval : (fill π (branch .left c t x u)).Valid) :
    ∃ h' ρ v c' n, h.removeNode rounds x = .ok (h', parent ρ, v.root, c') ∧ Holds h' ρ v ∧
      (fill ρ v).toList = before π ++ (t.toList ++ (u.toList ++ after π)) ∧
      ρ.length ≤ (fill π (branch .left c t x u)).height ∧
      v.Balanced n ∧ (if c' = .black then Trail.Balanced (n + 1) ρ else (fill ρ v).Valid) := by
  by_cases hne : t = nil ∨ u = nil
  · obtain ⟨d, v, heq, hlist, hrem⟩ := removeNode_one rounds hh hne
    rw [heq] at hh hval ⊢
    obtain ⟨n, hv, hc⟩ := valid_drop hval
    refine ⟨_, π, v, c, n, hrem, hh.unlink, ?_, ?_, hv, hc⟩
    · rw [fill_toList, ← hlist, List.append_assoc]
    · have := length_le_height π (branch d c nil x v)
      omega
  · rw [not_or] at hne
    obtain ⟨h', ρ, c', y, v, rfl, hρ, hrem, hh'⟩ := removeNode_two hh hne.1 hne.2 hr
    have hfill : fill π (branch .left c t x (fill ρ (branch .left c' nil y v)))
        = fill (ρ ++ ⟨.right, c, x, t⟩ :: π) (branch .left c' nil y v) := by
      rw [fill_append]
      rfl
    rw [hfill] at hval ⊢
    obtain ⟨n, hv, hc⟩ := valid_drop ((valid_elem y).mp hval)
    refine ⟨h', _, v, c', n, hrem, hh', ?_, ?_, hv, hc⟩
    · rw [fill_append, fill, fill_toList]
      simp [branch, toList, fill_toList, before_of_left hρ]
    · have := length_le_height (ρ ++ ⟨.right, c, x, t⟩ :: π) (branch .left c' nil y v)
      rw [List.length_append, List.length_cons] at this ⊢
      omega

/-- `RB_REMOVE` takes out the element in focus and leaves a red-black tree. -/
theorem Holds.remove {rounds : ℕ} (hh : Holds h π (branch .left c t x u))
    (hval : (fill π (branch .left c t x u)).Valid)
    (hr : (fill π (branch .left c t x u)).height + 1 ≤ rounds) :
    ∃ h' t', h.remove rounds x = .ok h' ∧ Holds h' [] t' ∧ t'.Valid ∧
      t'.toList = before π ++ (t.toList ++ (u.toList ++ after π)) := by
  have hu : u.height ≤ rounds := by
    have := length_le_height π (branch .left c t x u)
    rw [branch_height] at this
    omega
  obtain ⟨h₁, ρ, v, c', n, hrem, hh₁, hlist, hlen, hv, hc⟩ := removeNode_ok hh hu hval
  rw [← hlist]
  simp only [RbHead.remove, hrem, except_ok_bind]
  split_ifs at hc ⊢ with hblack
  · exact removeColor_ok hh₁ hv hc (by omega)
  · exact ⟨h₁, fill ρ v, rfl, holds_nil.mp hh₁, hc, rfl⟩

end Lthr

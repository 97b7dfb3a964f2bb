import Lthread.Proofs.RbShape

/-! `RB_INSERT`: the new element becomes a red leaf, and the loop of `RB_INSERT_COLOR` takes
a red node with a red parent up the tree until there is none. -/

namespace Lthr

open RbTree Trail

variable {α : Type} {h : RbHead α} {π : Trail α} {t u v : RbTree α} {x p g : α} {d d' : Dir} {c c' : Color} {n : ℕ}

/-- The tree is in the entries, and balanced but for a root that may be red. -/
def Settled (h : RbHead α) (l : List α) : Prop := ∃ t n, Holds h [] t ∧ t.Balanced n ∧ t.toList = l

theorem Holds.settled (hh : Holds h π t) (hπ : Trail.Balanced n π) (ht : t.Balanced n)
    (htop : t.color = .red → topColor π ≠ some .red) : Settled h (fill π t).toList := by
  cases π with
  | nil => exact ⟨t, n, hh, ht, rfl⟩
  | cons f π =>
    have hv : (fill (f :: π) t).Valid := by
      refine (valid_fill_iff _ _).mpr ⟨n, hπ, ht, fun hr => ?_⟩
      have := htop hr
      cases hc : f.color with
      | red => exact absurd (congrArg some hc) this
      | black => exact congrArg some hc
    obtain ⟨-, m, hm⟩ := hv
    exact ⟨_, m, holds_nil.mp hh, hm, rfl⟩

variable [DecidableEq α]

theorem Holds.raise (hh : Holds h π (branch d c (branch d c' t p u) g v)) :
    ∃ h', RbHead.rotate d.flip (h.setBlackred p g) g = .ok h' ∧
      Holds h' π (branch d .black t p (branch d .red u g v)) := by
  have hcol := hh.setBlackred
  rw [← branch_flip, ← branch_flip (d := d) (c := .black)] at hcol
  obtain ⟨h', hrot, hh'⟩ := hcol.rotate
  rw [branch_flip, branch_flip] at hh'
  exact ⟨h', hrot, hh'⟩

/-- The last round of `RB_INSERT_COLOR`: a black node with two red ones below it. -/
theorem insertRotate_ok (hh : Holds h (⟨d', .red, p, u⟩ :: ⟨d, .black, g, v⟩ :: π) t) (hx : t.root = some x)
    (hc : t.color = .red) (ht : t.Balanced n) (hu : u.Balanced n) (huc : u.color = .black)
    (hv : v.Balanced n) (hvc : v.color = .black) :
    ∃ h' x' s y r, h.insertRotate d g p x = .ok (h', x') ∧ Holds h' π (branch d .black s y r) ∧
      s.root = some x' ∧ s.Balanced n ∧ r.Balanced n ∧
      (branch d .black s y r).toList = (branch d .black (branch d' .red t p u) g v).toList := by
  by_cases hd : d = d'
  · -- the two red nodes are on one line
    subst hd
    have hp := holds_branch.mp hh
    have hout : ¬ h.child p d.flip = some x := by
      rw [hp.child_flip]
      refine root_ne fun hmem => hh.notMem (root_mem hx) ?_
      simp [elems, hmem]
    obtain ⟨h', hrot, hh'⟩ := (holds_branch.mp hp).raise
    refine ⟨h', x, t, p, branch d .red u g v, ?_, hh', hx, ht, ?_, ?_⟩
    · simp only [RbHead.insertRotate, if_neg hout, hrot, except_ok_bind]
    · exact RbTree.balanced_red.mpr ⟨huc, hvc, hu, hv⟩
    · cases d <;> simp [branch, toList]
  · -- the lower one is brought onto the line first
    obtain rfl := Dir.eq_flip hd
    obtain ⟨a, y, b, rfl, hac, hbc, ha, hb⟩ := exists_red d hc ht
    rw [branch_root, Option.some_inj] at hx
    subst hx
    have hp := holds_other.mp hh
    have hin : h.child p d.flip = some y := by rw [hp.child_flip, branch_root]
    obtain ⟨h₁, hrot₁, hh₁⟩ := hp.rotate
    obtain ⟨h', hrot, hh'⟩ := (holds_branch.mp hh₁).raise
    refine ⟨h', p, branch d .red u p a, y, branch d .red b g v, ?_, hh', branch_root, ?_, ?_, ?_⟩
    · simp only [RbHead.insertRotate, if_pos hin, hrot₁, hrot, except_ok_bind]
    · exact RbTree.balanced_red.mpr ⟨huc, hac, hu, ha⟩
    · exact RbTree.balanced_red.mpr ⟨hbc, hvc, hb, hv⟩
    · cases d <;> simp [branch, toList, Dir.flip]

/-- The loop of `RB_INSERT_COLOR`, from a red node whose parent may be red. -/
theorem insertColorLoop_ok (rounds : ℕ) :
    ∀ {h : RbHead α} {π : Trail α} {t : RbTree α} {x : α} {n : ℕ}, Holds h π t → t.root = some x →
      t.color = .red → t.Balanced n → Trail.Balanced n π → π.length + 2 ≤ 2 * rounds →
      ∃ h', h.insertColorLoop rounds x = .ok h' ∧ Settled h' (fill π t).toList := by
  induction rounds with
  | zero =>
    intro h π t x n _ _ _ _ _ hr
    omega
  | succ rounds ih =>
    intro h π t x n hh hx hc ht hπ hr
    obtain ⟨a, y, b, rfl, -, -, ha, hb⟩ := exists_red .left hc ht
    rw [branch_root, Option.some_inj] at hx
    subst hx
    match π with
    | [] =>
      refine ⟨h, ?_, hh.settled hπ ht (by simp [topColor])⟩
      simp [RbHead.insertColorLoop, hh.parent_eq, parent]
    | ⟨d₁, .black, p, u⟩ :: π =>
      refine ⟨h, ?_, hh.settled hπ ht (by simp [topColor])⟩
      have hp := holds_branch.mp hh
      simp [RbHead.insertColorLoop, hh.parent_eq, parent, hp.color_eq]
    | [⟨d₁, .red, p, u⟩] => simp [topColor] at hπ
    | ⟨d₁, .red, p, u⟩ :: ⟨d, .red, g, v⟩ :: π => simp [topColor] at hπ
    | ⟨d₁, .red, p, u⟩ :: ⟨d, .black, g, v⟩ :: π =>
      obtain ⟨hu, huc, -, hv, hπ⟩ := hπ
      have hp := holds_branch.mp hh
      have hg := holds_branch.mp hp
      have hside : h.sideOf g (some p) = d := by
        have := hp.sideOf (Or.inl (by cases d₁ <;> simp [branch]))
        rwa [branch_root] at this
      have hstep : h.insertColorLoop (rounds + 1) y =
          (if h.isRed v.root then do
            let tmp ← RbHead.deref v.root
            RbHead.insertColorLoop rounds ((h.setColor tmp .black).setBlackred p g) g
          else h.insertRotate d g p y >>= fun q => q.1.insertColorLoop rounds q.2) := by
        simp only [RbHead.insertColorLoop, hh.parent_eq, parent, hp.color_eq, hp.parent_eq, RbHead.deref,
          except_ok_bind, hside, hg.child_flip, if_true]
      rw [hstep]
      cases hvc : v.color with
      | red =>
        -- the uncle is red: the two redden their parent, and that goes on
        rw [if_pos ((holds_other.mpr hg).isRed_iff.mpr hvc)]
        obtain ⟨v₁, w, v₂, rfl, -, -, hv₁, hv₂⟩ := exists_red .left hvc hv
        have hw := (holds_other.mpr hg).setColor .black
        have hg' := (holds_other.mp hw).setBlackred
        rw [branch_root, RbHead.deref, except_ok_bind]
        obtain ⟨h', hloop, hs⟩ := ih hg' branch_root branch_color (n := n + 1)
          (RbTree.balanced_red.mpr ⟨branch_color, branch_color, RbTree.balanced_black.mpr ⟨ht, hu⟩,
            RbTree.balanced_black.mpr ⟨hv₁, hv₂⟩⟩) hπ (by simp only [List.length_cons] at hr; omega)
        have hlist : (branch d .red (branch d₁ .black (branch .left .red a y b) p u) g (branch .left .black v₁ w v₂)).toList
            = (branch d .black (branch d₁ .red (branch .left .red a y b) p u) g (branch .left .red v₁ w v₂)).toList := by
          cases d <;> cases d₁ <;> simp [branch, toList]
        refine ⟨h', hloop, ?_⟩
        rw [fill, fill, ← fill_congr hlist]
        exact hs
      | black =>
        have hnr : ¬ h.isRed v.root = true := by rw [(holds_other.mpr hg).isRed_iff, hvc]; simp
        rw [if_neg hnr]
        obtain ⟨h', x', s, q, r, hrot, hh', hx', hs, hr', hlist⟩ := insertRotate_ok hh branch_root hc ht hu huc hv hvc
        have hs' := holds_branch.mpr hh'
        obtain ⟨k, rfl⟩ : ∃ k, rounds = k + 1 := ⟨rounds - 1, by simp only [List.length_cons] at hr; omega⟩
        refine ⟨h', ?_, ?_⟩
        · rw [hrot, except_ok_bind]
          simp [RbHead.insertColorLoop, hs'.parent_of_root hx', parent, hh'.color_eq]
        · rw [fill, fill, ← fill_congr hlist]
          exact hs'.settled ⟨hr', hπ⟩ hs (by simp [topColor])

theorem insertColor_ok {rounds : ℕ} (hh : Holds h π t) (hx : t.root = some x) (hc : t.color = .red) (ht : t.Balanced n)
    (hπ : Trail.Balanced n π) (hr : π.length + 2 ≤ 2 * rounds) :
    ∃ h' t', h.insertColor rounds x = .ok h' ∧ Holds h' [] t' ∧ t'.Valid ∧ t'.toList = (fill π t).toList := by
  obtain ⟨h₁, hloop, t₁, m, hh₁, hb, hlist⟩ := insertColorLoop_ok rounds hh hx hc ht hπ hr
  have hne : t₁ ≠ nil := by
    rintro rfl
    have hmem : x ∈ (fill π t).toList := by simp [fill_toList, root_mem hx]
    rw [← hlist] at hmem
    cases hmem
  obtain ⟨c₁, l, y, r, rfl⟩ := exists_branch .left hne
  refine ⟨h₁.setColor y .black, branch .left .black l y r, ?_, hh₁.setColor .black, ⟨branch_color, ?_⟩, hlist⟩
  · simp [RbHead.insertColor, hloop, hh₁.root_eq, RbHead.deref]
  · cases c₁ with
    | red =>
      obtain ⟨-, -, hl, hr⟩ := RbTree.balanced_red.mp hb
      exact ⟨m + 1, RbTree.balanced_black.mpr ⟨hl, hr⟩⟩
    | black => exact ⟨m, hb⟩

theorem Holds.attach (hh : Holds h π nil) (hx : x ∉ π.elems) :
    Holds (h.attach x π.last) π (node .red nil x nil) := by
  set h₁ := h.modify x fun _ => { left := none, right := none, parent := π.last.map Prod.fst, color := .red }
    with h₁_def
  have hatt : h.attach x π.last = h₁.setHole π (some x) := by cases π <;> rfl
  have hpar : π.last.map Prod.fst = π.parent := by cases π <;> rfl
  have hπ : Trail.Shape h₁ π none := hh.trail.frame rfl fun y hy => RbHead.modify_of_ne _ fun e => hx (e ▸ hy)
  refine ⟨⟨?_, trivial, trivial⟩, ?_, ?_⟩
  · rw [hatt, RbHead.setHole_of_ne (parent_ne hx), h₁_def, RbHead.modify_self, hpar]
    rfl
  · rw [hatt]
    exact hπ.setHole hh.trail_nodup
  · exact List.nodup_cons.mpr ⟨hx, hh.trail_nodup⟩

end Lthr

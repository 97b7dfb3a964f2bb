import Mathlib.Tactic

/-! Red-black trees, and trees with a hole. A tree is taken apart at a subtree: the
subtree is in focus, and the trail from it up to the root says what is around it. The
two sides are a parameter, so that what is done on the left and its mirror image on
the right are one. -/

namespace Lthr

inductive Color
  | red
  | black
  deriving DecidableEq, Repr

inductive Dir
  | left
  | right
  deriving DecidableEq, Repr

def Dir.flip : Dir → Dir
  | .left => .right
  | .right => .left

theorem Dir.eq_flip {d e : Dir} (h : e ≠ d) : d = e.flip := by
  cases d <;> cases e <;> first | rfl | exact absurd rfl h

def endOf {α : Type} (d : Dir) (l : List α) : Option α :=
  match d with
  | .left => l.head?
  | .right => l.getLast?

inductive RbTree (α : Type)
  | nil
  | node (c : Color) (l : RbTree α) (a : α) (r : RbTree α)

namespace RbTree

variable {α : Type}

def toList : RbTree α → List α
  | nil => []
  | node _ l a r => l.toList ++ a :: r.toList

def root : RbTree α → Option α
  | nil => none
  | node _ _ a _ => some a

def color : RbTree α → Color
  | nil => .black
  | node c _ _ _ => c

def height : RbTree α → ℕ
  | nil => 0
  | node _ l _ r => max l.height r.height + 1

/-- The node with `t` on side `d` and `u` on the other. -/
def branch (d : Dir) (c : Color) (t : RbTree α) (a : α) (u : RbTree α) : RbTree α :=
  match d with
  | .left => node c t a u
  | .right => node c u a t

def blacken : RbTree α → RbTree α
  | nil => nil
  | node _ l a r => node .black l a r

/-- No red node has a red child, and there are `n` black nodes on every way down. -/
def Balanced : ℕ → RbTree α → Prop
  | n, nil => n = 0
  | n, node .red l _ r => l.color = .black ∧ r.color = .black ∧ l.Balanced n ∧ r.Balanced n
  | 0, node .black _ _ _ => False
  | n + 1, node .black l _ r => l.Balanced n ∧ r.Balanced n

def Valid (t : RbTree α) : Prop := t.color = .black ∧ ∃ n, t.Balanced n

section Branch

variable {d : Dir} {c : Color} {t u : RbTree α} {a : α} {n : ℕ}

@[simp] theorem branch_root : (branch d c t a u).root = some a := by cases d <;> rfl
@[simp] theorem branch_color : (branch d c t a u).color = c := by cases d <;> rfl

@[simp] theorem branch_height : (branch d c t a u).height = max t.height u.height + 1 := by
  cases d with
  | left => rfl
  | right => exact congrArg (· + 1) (max_comm _ _)

theorem branch_flip : branch d.flip c t a u = branch d c u a t := by cases d <;> rfl

theorem branch_perm : (branch d c t a u).toList.Perm (a :: (t.toList ++ u.toList)) := by
  cases d with
  | left => exact List.perm_middle
  | right => exact List.perm_middle.trans (List.perm_append_comm.cons a)

@[simp] theorem mem_branch {x : α} : x ∈ (branch d c t a u).toList ↔ x = a ∨ x ∈ t.toList ∨ x ∈ u.toList := by
  rw [branch_perm.mem_iff, List.mem_cons, List.mem_append]

theorem branch_rotate {c' : Color} {b : α} {v : RbTree α} :
    (branch d c' (branch d c t a u) b v).toList = (branch d c t a (branch d c' u b v)).toList := by
  cases d <;> simp [branch, toList]

@[simp] theorem balanced_red :
    (branch d .red t a u).Balanced n ↔ t.color = .black ∧ u.color = .black ∧ t.Balanced n ∧ u.Balanced n := by
  cases d with
  | left => rfl
  | right =>
    change u.color = .black ∧ t.color = .black ∧ u.Balanced n ∧ t.Balanced n ↔ _
    tauto

@[simp] theorem balanced_black : (branch d .black t a u).Balanced (n + 1) ↔ t.Balanced n ∧ u.Balanced n := by
  cases d with
  | left => rfl
  | right => exact and_comm

theorem balanced_black_iff :
    (branch d .black t a u).Balanced n ↔ ∃ m, n = m + 1 ∧ t.Balanced m ∧ u.Balanced m := by
  cases n with
  | zero =>
    refine iff_of_false ?_ (by simp)
    cases d <;> exact id
  | succ n =>
    rw [balanced_black]
    constructor
    · intro h
      exact ⟨n, rfl, h⟩
    · rintro ⟨m, hm, h⟩
      obtain rfl := Nat.succ.inj hm
      exact h

@[simp] theorem branch_blacken : (branch d c t a u).blacken = branch d .black t a u := by cases d <;> rfl
@[simp] theorem blacken_color : t.blacken.color = .black := by cases t <;> rfl
@[simp] theorem blacken_toList : t.blacken.toList = t.toList := by cases t <;> rfl

theorem blacken_of_black (h : t.color = .black) : t.blacken = t := by
  cases t with
  | nil => rfl
  | node c l a r =>
    obtain rfl : c = .black := h
    rfl

theorem balanced_elem (b : α) : (branch d c t a u).Balanced n ↔ (branch d c t b u).Balanced n := by
  cases c with
  | red => rw [balanced_red, balanced_red]
  | black => rw [balanced_black_iff, balanced_black_iff]

theorem exists_branch (d : Dir) {t : RbTree α} (h : t ≠ nil) : ∃ c t₁ a t₂, t = branch d c t₁ a t₂ := by
  cases t with
  | nil => exact absurd rfl h
  | node c l a r =>
    cases d with
    | left => exact ⟨c, l, a, r, rfl⟩
    | right => exact ⟨c, r, a, l, rfl⟩

theorem ne_nil_of_balanced (h : t.Balanced (n + 1)) : t ≠ nil := by
  rintro rfl
  cases h

theorem ne_nil_of_red (h : t.color = .red) : t ≠ nil := by
  rintro rfl
  cases h

theorem exists_red (d : Dir) (hc : t.color = .red) (h : t.Balanced n) :
    ∃ t₁ a t₂, t = branch d .red t₁ a t₂ ∧ t₁.color = .black ∧ t₂.color = .black ∧
      t₁.Balanced n ∧ t₂.Balanced n := by
  obtain ⟨c, t₁, a, t₂, rfl⟩ := exists_branch d (ne_nil_of_red hc)
  rw [branch_color] at hc
  subst hc
  exact ⟨t₁, a, t₂, rfl, balanced_red.mp h⟩

theorem exists_black (d : Dir) (hc : t.color = .black) (h : t.Balanced (n + 1)) :
    ∃ t₁ a t₂, t = branch d .black t₁ a t₂ ∧ t₁.Balanced n ∧ t₂.Balanced n := by
  obtain ⟨c, t₁, a, t₂, rfl⟩ := exists_branch d (ne_nil_of_balanced h)
  rw [branch_color] at hc
  subst hc
  exact ⟨t₁, a, t₂, rfl, balanced_black.mp h⟩

theorem Balanced.blacken (ht : t.Balanced n) (hc : t.color = .red) : t.blacken.Balanced (n + 1) := by
  obtain ⟨t₁, a, t₂, rfl, -, -, h₁, h₂⟩ := exists_red .left hc ht
  rw [branch_blacken]
  exact balanced_black.mpr ⟨h₁, h₂⟩

end Branch

section Height

theorem Balanced.pow_le {n : ℕ} {t : RbTree α} (h : t.Balanced n) : 2 ^ n ≤ t.toList.length + 1 := by
  induction t generalizing n with
  | nil =>
    obtain rfl : n = 0 := h
    simp
  | node c l a r ihl ihr =>
    have hlen : (node c l a r).toList.length = l.toList.length + (r.toList.length + 1) := by
      simp [toList]
    cases c with
    | red =>
      obtain ⟨-, -, hl, -⟩ := h
      have := ihl hl
      omega
    | black =>
      cases n with
      | zero => exact h.elim
      | succ n =>
        have h1 := ihl h.1
        have h2 := ihr h.2
        rw [pow_succ]
        omega

theorem Balanced.height_le {n : ℕ} {t : RbTree α} (h : t.Balanced n) :
    t.height ≤ 2 * n + if t.color = .red then 1 else 0 := by
  induction t generalizing n with
  | nil => simp [height]
  | node c l a r ihl ihr =>
    cases c with
    | red =>
      obtain ⟨hcl, hcr, hl, hr⟩ := h
      have h1 := ihl hl
      have h2 := ihr hr
      rw [if_neg (by simp [hcl])] at h1
      rw [if_neg (by simp [hcr])] at h2
      change max l.height r.height + 1 ≤ 2 * n + 1
      omega
    | black =>
      cases n with
      | zero => exact h.elim
      | succ n =>
        have h1 := ihl h.1
        have h2 := ihr h.2
        have h3 : (if l.color = .red then 1 else 0) ≤ 1 := by split_ifs <;> omega
        have h4 : (if r.color = .red then 1 else 0) ≤ 1 := by split_ifs <;> omega
        change max l.height r.height + 1 ≤ 2 * (n + 1) + 0
        omega

theorem Valid.height_le {t : RbTree α} (h : t.Valid) : t.height ≤ 2 * Nat.log 2 (t.toList.length + 1) := by
  obtain ⟨hc, n, hn⟩ := h
  have h1 := hn.height_le
  rw [if_neg (by simp [hc])] at h1
  have h2 : n ≤ Nat.log 2 (t.toList.length + 1) := Nat.le_log_of_pow_le (by norm_num) hn.pow_le
  omega

end Height

end RbTree

/-! Trees with a hole -/

/-- One step up from a subtree: the node above it, and the other subtree of that. -/
structure Frame (α : Type) where
  dir : Dir
  color : Color
  elem : α
  other : RbTree α

abbrev Trail (α : Type) := List (Frame α)

namespace Trail

open RbTree

variable {α : Type}

def fill : Trail α → RbTree α → RbTree α
  | [], t => t
  | f :: π, t => fill π (branch f.dir f.color t f.elem f.other)

def parent : Trail α → Option α
  | [] => none
  | f :: _ => some f.elem

/-- The node right above the hole, and the side the hole is on. -/
def last : Trail α → Option (α × Dir)
  | [] => none
  | f :: _ => some (f.elem, f.dir)

def topColor : Trail α → Option Color
  | [] => none
  | f :: _ => some f.color

def elems : Trail α → List α
  | [] => []
  | f :: π => f.elem :: (f.other.toList ++ elems π)

def before : Trail α → List α
  | [] => []
  | ⟨.left, _, _, _⟩ :: π => before π
  | ⟨.right, _, a, u⟩ :: π => before π ++ (u.toList ++ [a])

def after : Trail α → List α
  | [] => []
  | ⟨.left, _, a, u⟩ :: π => a :: (u.toList ++ after π)
  | ⟨.right, _, _, _⟩ :: π => after π

/-- What is around a subtree of black height `n` in a red-black tree. -/
def Balanced : ℕ → Trail α → Prop
  | _, [] => True
  | n, ⟨_, .red, _, u⟩ :: π => u.Balanced n ∧ u.color = .black ∧ topColor π = some .black ∧ Balanced n π
  | n, ⟨_, .black, _, u⟩ :: π => u.Balanced n ∧ Balanced (n + 1) π

variable {π ρ : Trail α} {t : RbTree α} {n : ℕ} {d : Dir} {a : α} {u : RbTree α}

@[simp] theorem balanced_red :
    Balanced n (⟨d, .red, a, u⟩ :: π) ↔
      u.Balanced n ∧ u.color = .black ∧ topColor π = some .black ∧ Balanced n π := Iff.rfl

@[simp] theorem balanced_black : Balanced n (⟨d, .black, a, u⟩ :: π) ↔ u.Balanced n ∧ Balanced (n + 1) π := Iff.rfl

theorem Balanced.other {c : Color} (h : Balanced n (⟨d, c, a, u⟩ :: π)) : u.Balanced n := by
  cases c with
  | red => exact h.1
  | black => exact h.1

theorem fill_append (ρ π : Trail α) (t : RbTree α) : fill (ρ ++ π) t = fill π (fill ρ t) := by
  induction ρ generalizing t with
  | nil => rfl
  | cons f ρ ih => exact ih _

theorem elems_append (ρ π : Trail α) : elems (ρ ++ π) = elems ρ ++ elems π := by
  induction ρ with
  | nil => rfl
  | cons f ρ ih => simp [elems, ih]

theorem fill_toList (π : Trail α) (t : RbTree α) : (fill π t).toList = before π ++ (t.toList ++ after π) := by
  induction π generalizing t with
  | nil => simp [fill, before, after]
  | cons f π ih =>
    obtain ⟨d, c, a, u⟩ := f
    rw [fill, ih]
    cases d with
    | left => simp [branch, toList, before, after]
    | right => simp [branch, toList, before, after]

theorem beyond_nil {d : Dir} (h : ∀ f ∈ π, f.dir = d) : (match d with | .left => before π | .right => after π) = [] := by
  induction π with
  | nil => cases d <;> rfl
  | cons f π ih =>
    obtain ⟨e, c, a, u⟩ := f
    obtain rfl : e = d := h _ List.mem_cons_self
    have hπ := ih fun g hg => h g (List.mem_cons_of_mem _ hg)
    cases e <;> exact hπ

theorem before_of_left (h : ∀ f ∈ π, f.dir = .left) : before π = [] := beyond_nil h
theorem after_of_right (h : ∀ f ∈ π, f.dir = .right) : after π = [] := beyond_nil h

theorem fill_perm (π : Trail α) (t : RbTree α) : (fill π t).toList.Perm (t.toList ++ elems π) := by
  induction π generalizing t with
  | nil => simp [fill, elems]
  | cons f π ih =>
    refine (ih _).trans ?_
    refine (branch_perm.append_right _).trans ?_
    simp only [elems, List.cons_append, List.append_assoc]
    exact List.perm_middle.symm

/-- What becomes of the whole tree shows in the elements of the subtree. -/
theorem fill_congr {t t' : RbTree α} (h : t'.toList = t.toList) : (fill π t').toList = (fill π t).toList := by
  rw [fill_toList, fill_toList, h]

theorem length_le_height (π : Trail α) (t : RbTree α) : π.length + t.height ≤ (fill π t).height := by
  induction π generalizing t with
  | nil => simp [fill]
  | cons f π ih =>
    have h := ih (branch f.dir f.color t f.elem f.other)
    rw [branch_height] at h
    rw [fill, List.length_cons]
    omega

/-- A tree with a subtree in focus is a red-black tree if the subtree and what is around it are balanced. -/
theorem valid_fill_iff (π : Trail α) (t : RbTree α) :
    (fill π t).Valid ↔ ∃ n, Balanced n π ∧ t.Balanced n ∧ (t.color = .red → topColor π = some .black) := by
  induction π generalizing t with
  | nil =>
    constructor
    · rintro ⟨hc, n, hn⟩
      refine ⟨n, trivial, hn, fun hr => ?_⟩
      rw [show t.color = .black from hc] at hr
      cases hr
    · rintro ⟨n, -, hn, hr⟩
      refine ⟨?_, n, hn⟩
      cases hc : t.color with
      | black => exact hc
      | red => cases hr hc
  | cons f π ih =>
    obtain ⟨d, c, a, u⟩ := f
    rw [fill, ih]
    simp only [branch_color, topColor, Option.some_inj]
    cases c with
    | red =>
      constructor
      · rintro ⟨n, hπ, hb, htop⟩
        obtain ⟨ht, hu, hbt, hbu⟩ := RbTree.balanced_red.mp hb
        exact ⟨n, ⟨hbu, hu, htop rfl, hπ⟩, hbt, by simp [ht]⟩
      · rintro ⟨n, ⟨hbu, hu, htop, hπ⟩, hbt, hr⟩
        have ht : t.color = .black := by
          cases hc : t.color with
          | black => rfl
          | red => cases hr hc
        exact ⟨n, hπ, RbTree.balanced_red.mpr ⟨ht, hu, hbt, hbu⟩, fun _ => htop⟩
    | black =>
      constructor
      · rintro ⟨n, hπ, hb, -⟩
        obtain ⟨m, rfl, hbt, hbu⟩ := RbTree.balanced_black_iff.mp hb
        exact ⟨m, ⟨hbu, hπ⟩, hbt, fun _ => rfl⟩
      · rintro ⟨n, ⟨hbu, hπ⟩, hbt, -⟩
        exact ⟨n + 1, hπ, RbTree.balanced_black.mpr ⟨hbt, hbu⟩, by simp⟩

theorem valid_elem {c : Color} {x : α} (y : α) :
    (fill (ρ ++ ⟨d, c, x, u⟩ :: π) t).Valid ↔ (fill (ρ ++ ⟨d, c, y, u⟩ :: π) t).Valid := by
  simp only [fill_append, fill, valid_fill_iff, branch_color, balanced_elem (a := x) y]

theorem valid_drop {c : Color} {x : α} {v : RbTree α} (h : (fill π (branch d c nil x v)).Valid) :
    ∃ n, v.Balanced n ∧ if c = .black then Balanced (n + 1) π else (fill π v).Valid := by
  obtain ⟨n, hπ, hb, -⟩ := (valid_fill_iff _ _).mp h
  cases c with
  | red =>
    obtain ⟨-, hvc, -, hv⟩ := RbTree.balanced_red.mp hb
    refine ⟨n, hv, ?_⟩
    rw [if_neg (by simp), valid_fill_iff]
    exact ⟨n, hπ, hv, by simp [hvc]⟩
  | black =>
    obtain ⟨m, rfl, -, hv⟩ := RbTree.balanced_black_iff.mp hb
    exact ⟨m, hv, by rwa [if_pos rfl]⟩

/-- A black node is missing below `p`; its sibling `s` has a red child to make it good with. -/
theorem valid_turn {c : Color} {p s : α} {v w : RbTree α} (ht : t.Balanced n) (hv : v.Balanced n)
    (hw : w.blacken.Balanced (n + 1)) (hπ : Balanced (n + 1) (⟨d, c, p, u⟩ :: π)) :
    (fill π (branch d c (branch d .black t p v) s w.blacken)).Valid := by
  have hp : (branch d .black t p v).Balanced (n + 1) := RbTree.balanced_black.mpr ⟨ht, hv⟩
  refine (valid_fill_iff _ _).mpr ?_
  cases c with
  | red =>
    obtain ⟨-, -, htop, hπ⟩ := hπ
    exact ⟨n + 1, hπ, RbTree.balanced_red.mpr ⟨branch_color, blacken_color, hp, hw⟩, fun _ => htop⟩
  | black =>
    obtain ⟨-, hπ⟩ := hπ
    exact ⟨n + 2, hπ, RbTree.balanced_black.mpr ⟨hp, hw⟩, by simp⟩

theorem exists_focus {t : RbTree α} {x : α} (h : x ∈ t.toList) : ∃ π c l r, t = fill π (node c l x r) := by
  induction t with
  | nil => cases h
  | node c l a r ihl ihr =>
    rcases List.mem_append.mp h with hl | hr
    · obtain ⟨π, c', l', r', rfl⟩ := ihl hl
      exact ⟨π ++ [⟨.left, c, a, r⟩], c', l', r', by rw [fill_append]; rfl⟩
    · rcases List.mem_cons.mp hr with rfl | hr
      · exact ⟨[], c, l, r, rfl⟩
      · obtain ⟨π, c', l', r', rfl⟩ := ihr hr
        exact ⟨π ++ [⟨.right, c, a, l⟩], c', l', r', by rw [fill_append]; rfl⟩

end Trail
end Lthr

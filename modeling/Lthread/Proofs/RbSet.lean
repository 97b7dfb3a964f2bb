import Lthread.Proofs.RbInsert
import Lthread.Proofs.RbLookup
import Lthread.Proofs.RbRemove
import Lthread.Spec.RbCalls

/-! The trees of `tree.h` as sorted lists: what the pointers hold is a red-black tree of the
elements in the order of their keys, every call keeps it so, and its answers are those of the
list. -/

namespace Lthr

open RbTree Trail

variable {α κ : Type} [LinearOrder κ] {key : α → κ}

/-- The pointers hold a red-black tree of the elements of `l`, which is sorted by key. -/
structure RbHead.Represents (key : α → κ) (h : RbHead α) (l : List α) : Prop where
  sorted : l.Pairwise fun a b => key a < key b
  tree : ∃ t, Holds h [] t ∧ t.Valid ∧ t.toList = l

/-- Rounds enough for every loop over a tree of `n` elements. -/
def enoughRounds (n : ℕ) : ℕ := 2 * Nat.log 2 (n + 1) + 1

theorem enoughRounds_mono {m n : ℕ} (h : m ≤ n) : enoughRounds m ≤ enoughRounds n := by
  have : Nat.log 2 (m + 1) ≤ Nat.log 2 (n + 1) := Nat.log_mono_right (by omega)
  simp only [enoughRounds]
  omega

section Sorted

variable {l A B : List α} {x : α}

theorem orders_of_sorted (hs : l.Pairwise fun a b => key a < key b) (k : κ) : Orders (fun a => compare k (key a)) l := by
  refine hs.imp fun {a b} hab ha => ?_
  rw [Ne, compare_gt_iff_gt, not_lt] at ha
  exact compare_lt_iff_lt.mpr (lt_of_le_of_lt ha hab)

theorem orderedInsert_middle (hA : ∀ a ∈ A, key a < key x) (hB : ∀ b ∈ B, key x < key b) :
    (A ++ B).orderedInsert (fun a b => key a ≤ key b) x = A ++ x :: B := by
  induction A with
  | nil =>
    cases B with
    | nil => rfl
    | cons b B => exact List.orderedInsert_cons_of_le _ _ (le_of_lt (hB b List.mem_cons_self))
  | cons a A ih =>
    have ha : ¬ key x ≤ key a := not_le.mpr (hA a List.mem_cons_self)
    rw [List.cons_append, List.orderedInsert_cons, if_neg ha, ih fun y hy => hA y (List.mem_cons_of_mem _ hy)]
    rfl

theorem sorted_middle (hs : (A ++ B).Pairwise fun a b => key a < key b) (hA : ∀ a ∈ A, key a < key x)
    (hB : ∀ b ∈ B, key x < key b) : (A ++ x :: B).Pairwise fun a b => key a < key b := by
  obtain ⟨h1, h2, h3⟩ := List.pairwise_append.mp hs
  refine List.pairwise_append.mpr ⟨h1, List.pairwise_cons.mpr ⟨hB, h2⟩, ?_⟩
  rintro a ha b (_ | ⟨_, hb⟩)
  · exact hA a ha
  · exact h3 a ha b hb

end Sorted

theorem TreeCall.onList_length [DecidableEq α] (key : α → κ) (l : List α) (c : TreeCall α κ) :
    (c.onList key l).1.length ≤ l.length + 1 := by
  cases c with
  | insert x =>
    simp only [TreeCall.onList]
    split
    · exact Nat.le_succ _
    · exact le_of_eq (List.orderedInsert_length _ _ _)
  | remove x => exact (List.length_erase_le ..).trans (Nat.le_succ _)
  | _ => exact Nat.le_succ _

namespace RbHead.Represents

variable {h : RbHead α} {l : List α} {rounds : ℕ} {x : α}

theorem nodup (hr : h.Represents key l) : l.Nodup := by
  refine hr.sorted.imp fun {a b} hab hne => ?_
  rw [hne] at hab
  exact lt_irrefl _ hab

theorem key_inj {y z : α} (hr : h.Represents key l) (hy : y ∈ l) (hz : z ∈ l) (hkey : key y = key z) : y = z := by
  have hn : (l.map key).Nodup := List.pairwise_map.mpr (hr.sorted.imp ne_of_lt)
  exact List.inj_on_of_nodup_map hn hy hz hkey

theorem height {t : RbTree α} (hv : t.Valid) (hl : t.toList = l) (hr : enoughRounds l.length ≤ rounds) :
    t.height + 1 ≤ rounds := by
  have := hv.height_le
  rw [hl] at this
  simp only [enoughRounds] at hr
  omega

theorem init (h : RbHead α) : h.init.Represents key [] :=
  ⟨List.Pairwise.nil, nil, ⟨trivial, rfl, List.nodup_nil⟩, ⟨rfl, 0, rfl⟩, rfl⟩

theorem find (hr : h.Represents key l) (k : κ) (hn : enoughRounds l.length ≤ rounds) :
    h.find (fun a => compare k (key a)) rounds = .ok (l.find? fun y => key y = k) := by
  obtain ⟨t, hh, hv, rfl⟩ := hr.tree
  have hheight := height hv rfl hn
  have hd := Descends.root (orders_of_sorted hr.sorted k)
  rw [RbHead.find, hh.root_eq, findLoop_ok hh hd (by omega), fill]
  congr 3
  funext y
  by_cases hy : key y = k
  · simp [hy]
  · simp [hy, Ne.symm hy]

theorem minmax (hr : h.Represents key l) (d : Dir) (hn : enoughRounds l.length ≤ rounds) :
    h.minmax d rounds = .ok (endOf d l) := by
  obtain ⟨t, hh, hv, rfl⟩ := hr.tree
  have hheight := height hv rfl hn
  exact minmax_ok hh (by omega)

variable [DecidableEq α]

theorem insert_new (hr : h.Represents key l) (hx : ∀ y ∈ l, key y ≠ key x) (hn : enoughRounds l.length ≤ rounds) :
    ∃ h', h.insert (fun a b => compare (key a) (key b)) rounds x = .ok (h', none) ∧
      h'.Represents key (l.orderedInsert (fun a b => key a ≤ key b) x) := by
  obtain ⟨t, hh, hv, rfl⟩ := hr.tree
  have hheight := height hv rfl hn
  have hdown : t.height ≤ rounds := by omega
  have hd := Descends.root (orders_of_sorted hr.sorted (key x))
  rcases insertLoop_ok hh hd hdown with ⟨y, hy, heq, -⟩ | ⟨π, hπ, hdπ, hfill, hloop⟩
  · exact absurd (compare_eq_iff_eq.mp heq).symm (hx y hy)
  · obtain rfl : fill π nil = t := hfill
    have hfresh : x ∉ π.elems := fun hmem => hx x ((fill_perm π nil).mem_iff.mpr hmem) rfl
    obtain ⟨n, hb, hnil, -⟩ := (valid_fill_iff _ _).mp hv
    have hleaf : (node .red nil x nil).Balanced n := ⟨rfl, rfl, hnil, hnil⟩
    have hup : List.length π + 2 ≤ 2 * rounds := by
      have := length_le_height π nil
      omega
    obtain ⟨h', t', hcol, hh', hv', hlist⟩ := insertColor_ok (hπ.attach hfresh) rfl rfl hleaf hb hup
    have hA : ∀ a ∈ π.before, key a < key x := fun a ha => compare_gt_iff_gt.mp (hdπ.before a ha)
    have hB : ∀ b ∈ π.after, key x < key b := fun b hb => compare_lt_iff_lt.mp (hdπ.after b hb)
    have hs := hr.sorted
    rw [fill_toList, toList, List.nil_append] at hs
    rw [fill_toList, toList, List.nil_append, orderedInsert_middle hA hB]
    refine ⟨h', ?_, sorted_middle hs hA hB, t', hh', hv', ?_⟩
    · rw [RbHead.insert, hh.root_eq, show (none : Option (α × Dir)) = last ([] : Trail α) from rfl, hloop]
      simp only [except_ok_bind, hcol]
    · rw [hlist, fill_toList]
      rfl

/-- `RB_INSERT` of a key that is there gives the element that has it, and changes nothing. -/
theorem insert_old {y : α} (hr : h.Represents key l) (hy : y ∈ l) (hkey : key y = key x)
    (hn : enoughRounds l.length ≤ rounds) :
    h.insert (fun a b => compare (key a) (key b)) rounds x = .ok (h, some y) := by
  obtain ⟨t, hh, hv, rfl⟩ := hr.tree
  have hheight := height hv rfl hn
  have hdown : t.height ≤ rounds := by omega
  have hd := Descends.root (orders_of_sorted hr.sorted (key x))
  rcases insertLoop_ok hh hd hdown with ⟨z, hz, heq, hloop⟩ | ⟨π, hπ, hdπ, hfill, -⟩
  · obtain rfl := hr.key_inj hz hy ((compare_eq_iff_eq.mp heq).symm.trans hkey.symm)
    rw [RbHead.insert, hh.root_eq, show (none : Option (α × Dir)) = last ([] : Trail α) from rfl, hloop]
    rfl
  · obtain rfl : fill π nil = t := hfill
    rw [fill_toList, toList, List.nil_append, List.mem_append] at hy
    have hcmp : compare (key x) (key y) = .eq := compare_eq_iff_eq.mpr hkey.symm
    rcases hy with hy | hy
    · cases hcmp.symm.trans (hdπ.before y hy)
    · cases hcmp.symm.trans (hdπ.after y hy)

theorem remove (hr : h.Represents key l) (hx : x ∈ l) (hn : enoughRounds l.length ≤ rounds) :
    ∃ h', h.remove rounds x = .ok h' ∧ h'.Represents key (l.erase x) := by
  obtain ⟨t, hh, hv, rfl⟩ := hr.tree
  have hheight := height hv rfl hn
  have hnd := hr.nodup
  obtain ⟨π, c, u, v, rfl⟩ := exists_focus hx
  obtain ⟨h', t', hrem, hh', hv', hlist⟩ := Holds.remove (holds_nil.mpr hh) hv hheight
  have herase : (fill π (node c u x v)).toList.erase x = t'.toList := by
    rw [fill_node_toList] at hnd ⊢
    have hnot : x ∉ π.before ++ u.toList := by
      rw [List.nodup_middle, List.nodup_cons, List.mem_append, not_or] at hnd
      exact hnd.1.1
    rw [List.erase_append_right _ hnot, List.erase_cons_head, hlist]
    simp
  refine ⟨h', hrem, hr.sorted.sublist (List.erase_sublist ..), t', hh', hv', herase.symm⟩

/-- Every call answers as it does for the list, and leaves a tree of the list it leaves. -/
theorem call {c : TreeCall α κ} (hr : h.Represents key l) (hc : c.Legal l)
    (hn : enoughRounds l.length ≤ rounds) :
    ∃ h', h.call key rounds c = .ok (h', (c.onList key l).2) ∧ h'.Represents key (c.onList key l).1 := by
  cases c with
  | insert x =>
    cases hf : l.find? fun y => key y = key x with
    | none =>
      obtain ⟨h', hins, hr'⟩ := hr.insert_new (x := x) (fun y hy => by simpa using List.find?_eq_none.mp hf y hy) hn
      simp only [TreeCall.onList, hf]
      exact ⟨h', by simp [RbHead.call, hins], hr'⟩
    | some y =>
      have hins := hr.insert_old (x := x) (List.mem_of_find?_eq_some hf) (by simpa using List.find?_some hf) hn
      simp only [TreeCall.onList, hf]
      exact ⟨h, by simp [RbHead.call, hins], hr⟩
  | remove x =>
    obtain ⟨h', hrem, hr'⟩ := hr.remove hc hn
    exact ⟨h', by simp [RbHead.call, hrem, TreeCall.onList], hr'⟩
  | find k => exact ⟨h, by simp [RbHead.call, hr.find k hn, TreeCall.onList], hr⟩
  | minmax d => exact ⟨h, by simp [RbHead.call, hr.minmax d hn, TreeCall.onList], hr⟩

theorem calls {cs : List (TreeCall α κ)} (hr : h.Represents key l) (hc : TreeCall.AllLegal key l cs)
    (hn : enoughRounds (l.length + cs.length) ≤ rounds) :
    ∃ h', h.calls key rounds cs = .ok (h', (TreeCall.allOnList key l cs).2) ∧
      h'.Represents key (TreeCall.allOnList key l cs).1 := by
  induction cs generalizing h l with
  | nil => exact ⟨h, rfl, hr⟩
  | cons c cs ih =>
    obtain ⟨hc, hcs⟩ := hc
    rw [List.length_cons] at hn
    have hlen := c.onList_length key l
    have hn₁ : enoughRounds l.length ≤ rounds := (enoughRounds_mono (by omega)).trans hn
    have hn₂ : enoughRounds ((c.onList key l).1.length + cs.length) ≤ rounds :=
      (enoughRounds_mono (by omega)).trans hn
    obtain ⟨h₁, hcall, hr₁⟩ := hr.call hc hn₁
    obtain ⟨h', hcalls, hr'⟩ := ih hr₁ hcs hn₂
    exact ⟨h', by simp [RbHead.calls, hcall, hcalls, TreeCall.allOnList], hr'⟩

end RbHead.Represents

/-- Whatever is asked of a tree from `RB_INIT` on, in any order, no null pointer is followed, no
loop takes more than `enoughRounds` rounds, which is logarithmic in the calls, and every answer
is that of the sorted list of the elements inserted and not removed since; what the pointers
hold in the end is a red-black tree of that list. -/
theorem tree_calls_refine_list [DecidableEq α] (key : α → κ) (h : RbHead α) (cs : List (TreeCall α κ))
    (rounds : ℕ) (hlegal : TreeCall.AllLegal key [] cs) (hrounds : enoughRounds cs.length ≤ rounds) :
    ∃ h', h.init.calls key rounds cs = .ok (h', (TreeCall.allOnList key [] cs).2) ∧
      h'.Represents key (TreeCall.allOnList key [] cs).1 :=
  (RbHead.Represents.init h).calls hlegal (by simpa using hrounds)

/-- Keys in and out of order, one of them twice, and a root with two children taken out. -/
theorem tree_calls_refine_list_seven : ∃ h' : RbHead ℕ,
    (RbHead.init ⟨none, fun _ => ⟨none, none, none, .black⟩⟩).calls (id : ℕ → ℕ) 7
      [.insert 2, .insert 1, .insert 3, .insert 2, .remove 2, .minmax .left, .find 3] =
    .ok (h', [none, none, none, some 2, some 2, some 1, some 3]) := by
  obtain ⟨h', hcalls, -⟩ := tree_calls_refine_list (id : ℕ → ℕ) ⟨none, fun _ => ⟨none, none, none, .black⟩⟩
    [.insert 2, .insert 1, .insert 3, .insert 2, .remove 2, .minmax .left, .find 3] 7
    (by simp [TreeCall.AllLegal, TreeCall.Legal, TreeCall.onList]) (by decide)
  exact ⟨h', hcalls⟩

end Lthr

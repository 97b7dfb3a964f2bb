import Lthread.Proofs.Deadlines
import Lthread.Proofs.ExpiryPass
import Lthread.Proofs.RbSet
import Lthread.Proofs.Waits
import Lthread.Spec.SchedTrees

/-! The trees of the scheduler against the lists of their members in the model: every operation
of the scheduler on the pointers does to the tree what the model does to the list. -/

namespace Lthr

open Sched

theorem fieldCmp_eq {κ : Type} [LinearOrder κ] (k1 k2 : κ) : fieldCmp k1 k2 = compare k1 k2 := by
  unfold fieldCmp
  split_ifs with h1 h2
  · exact (compare_lt_iff_lt.mpr h1).symm
  · exact (compare_eq_iff_eq.mpr h2).symm
  · exact (compare_gt_iff_gt.mpr (lt_of_le_of_ne (not_lt.mp h1) (Ne.symm h2))).symm

theorem lthreadSleepCmp_eq (u1 u2 : ℕ) : lthreadSleepCmp u1 u2 = compare u1 u2 := fieldCmp_eq u1 u2

theorem lthreadWaitCmp_eq (k1 k2 : ℤ) : lthreadWaitCmp k1 k2 = compare k1 k2 := fieldCmp_eq k1 k2

/-! A tree of the members of a list, in any order -/

section Members

variable {α κ : Type} [LinearOrder κ] {key key' : α → κ} {h : RbHead α} {m : List α} {rounds : ℕ} {x : α}

/-- The pointers hold a red-black tree of the members of `m`. -/
def RbHead.HasMembers (key : α → κ) (h : RbHead α) (m : List α) : Prop := ∃ l, h.Represents key l ∧ l.Perm m

namespace RbHead.HasMembers

theorem congr (hh : h.HasMembers key m) (hk : ∀ x ∈ m, key' x = key x) : h.HasMembers key' m := by
  obtain ⟨l, hr, hp⟩ := hh
  refine ⟨l, ⟨hr.sorted.imp_of_mem fun {a b} ha hb hab => ?_, hr.tree⟩, hp⟩
  rw [hk a (hp.subset ha), hk b (hp.subset hb)]
  exact hab

/-- The element with a given key, if there is one, does not depend on the order. -/
theorem find (hh : h.HasMembers key m) (k : κ) (hn : enoughRounds m.length ≤ rounds) :
    h.find (fun a => compare k (key a)) rounds = .ok (m.find? fun y => key y = k) := by
  obtain ⟨l, hr, hp⟩ := hh
  rw [hr.find k (hp.length_eq ▸ hn)]
  congr 1
  cases hm : m.find? fun y => key y = k with
  | none =>
    rw [List.find?_eq_none] at hm ⊢
    exact fun y hy => hm y (hp.subset hy)
  | some y =>
    have hmem := hp.symm.subset (List.mem_of_find?_eq_some hm)
    have hkey := List.find?_some hm
    cases hl : l.find? fun y => key y = k with
    | none => exact absurd hkey (List.find?_eq_none.mp hl y hmem)
    | some z =>
      have hz := List.find?_some hl
      simp only [decide_eq_true_eq] at hkey hz
      rw [hr.key_inj (List.mem_of_find?_eq_some hl) hmem (hz.trans hkey.symm)]

theorem min (hh : h.HasMembers key m) (hn : enoughRounds m.length ≤ rounds) : h.minmax .left rounds = .ok (m.argmin key) := by
  obtain ⟨l, hr, hp⟩ := hh
  rw [hr.minmax .left (hp.length_eq ▸ hn)]
  congr 1
  cases hm : m.argmin key with
  | none =>
    rw [List.argmin_eq_none] at hm
    rw [hm, List.perm_nil] at hp
    rw [hp]
    rfl
  | some b =>
    have hb : b ∈ l := hp.symm.subset (List.argmin_mem hm)
    cases l with
    | nil => cases hb
    | cons a l =>
      have hle : key b ≤ key a := List.le_of_mem_argmin (hp.subset List.mem_cons_self) hm
      rcases List.mem_cons.mp hb with rfl | hbl
      · rfl
      · exact absurd hle (not_le.mpr ((List.pairwise_cons.mp hr.sorted).1 b hbl))

variable [DecidableEq α]

theorem insert_new (hh : h.HasMembers key m) (hx : ∀ y ∈ m, key y ≠ key x) (hn : enoughRounds m.length ≤ rounds) :
    ∃ h', h.insert (fun a b => compare (key a) (key b)) rounds x = .ok (h', none) ∧ h'.HasMembers key (x :: m) := by
  obtain ⟨l, hr, hp⟩ := hh
  obtain ⟨h', hins, hr'⟩ := hr.insert_new (fun y hy => hx y (hp.subset hy)) (hp.length_eq ▸ hn)
  exact ⟨h', hins, _, hr', (List.perm_orderedInsert _ x l).trans (hp.cons x)⟩

theorem insert {v : κ} (hh : h.HasMembers key m) (hx : x ∉ m) (hn : enoughRounds m.length ≤ rounds) :
    let ins := h.insert (fun a b => compare (Function.update key x v a) (Function.update key x v b)) rounds x
    (∃ y ∈ m, key y = v ∧ ins = .ok (h, some y)) ∨
    (∀ y ∈ m, key y ≠ v) ∧ ∃ h', ins = .ok (h', none) ∧ h'.HasMembers (Function.update key x v) (x :: m) := by
  have hkey : ∀ y ∈ m, Function.update key x v y = key y := fun y hy =>
    Function.update_of_ne (ne_of_mem_of_not_mem hy hx) ..
  have hself : Function.update key x v x = v := Function.update_self ..
  have hh' := hh.congr hkey
  by_cases hex : ∃ y ∈ m, key y = v
  · obtain ⟨y, hy, rfl⟩ := hex
    obtain ⟨l, hr, hp⟩ := hh'
    have hold := hr.insert_old (hp.symm.subset hy) ((hkey y hy).trans hself.symm) (hp.length_eq ▸ hn)
    exact Or.inl ⟨y, hy, rfl, hold⟩
  · have hfresh : ∀ y ∈ m, key y ≠ v := fun y hy hk => hex ⟨y, hy, hk⟩
    exact Or.inr ⟨hfresh, hh'.insert_new (fun y hy => by rw [hself, hkey y hy]; exact hfresh y hy) hn⟩

theorem remove (hh : h.HasMembers key m) (hx : x ∈ m) (hn : enoughRounds m.length ≤ rounds) :
    ∃ h', h.remove rounds x = .ok h' ∧ h'.HasMembers key (m.erase x) := by
  obtain ⟨l, hr, hp⟩ := hh
  obtain ⟨h', hrem, hr'⟩ := hr.remove (hp.symm.subset hx) (hp.length_eq ▸ hn)
  exact ⟨h', hrem, _, hr', hp.erase x⟩

theorem exists_of_nodup (hm : (m.map key).Nodup) : ∃ h : RbHead α, h.HasMembers key m := by
  induction m with
  | nil =>
    let empty : RbHead α := ⟨none, fun _ => ⟨none, none, none, .black⟩⟩
    exact ⟨empty.init, [], Represents.init empty, List.Perm.refl _⟩
  | cons x m ih =>
    obtain ⟨hx, hm⟩ := List.nodup_cons.mp hm
    obtain ⟨h, hh⟩ := ih hm
    obtain ⟨h', -, hh'⟩ := hh.insert_new (x := x) (fun y hy hk => hx (List.mem_map.mpr ⟨y, hy, hk⟩)) le_rfl
    exact ⟨h', hh'⟩

end RbHead.HasMembers
end Members

/-! The operations of the scheduler -/

/-- The two trees have the sleeping and the waiting lthreads of `s`. -/
structure SchedTrees.Hold (T : SchedTrees) (s : Sched) : Prop where
  sleeping : T.sleeping.HasMembers s.sleepKey s.sleeping
  waiting : T.waiting.HasMembers s.waitKey s.waiting

def Sched.treeRounds (s : Sched) : ℕ := max (enoughRounds s.sleeping.length) (enoughRounds s.waiting.length)

namespace SchedTrees.Hold

variable {T : SchedTrees} {s : Sched} {l : LtId} {rounds : ℕ}

theorem sleepMin (hT : T.Hold s) (hr : s.treeRounds ≤ rounds) : T.sleepMin rounds = .ok s.sleepMin :=
  hT.sleeping.min ((le_max_left _ _).trans hr)

theorem deschedSleep_keys (s : Sched) (l m : LtId) :
    (s.lthreadDeschedSleep l).sleepKey m = s.sleepKey m ∧ (s.lthreadDeschedSleep l).waitKey m = s.waitKey m := by
  refine ⟨?_, (lthreadDeschedSleep_keeps s l).fdWait m⟩
  unfold Sched.lthreadDeschedSleep Sched.sleepKey
  split_ifs
  · simp only [modify_lt]
    split_ifs with hm
    · rw [hm]
      rfl
    · rfl
  · rfl

/-- `_lthread_desched_sleep`, if the bit it asks for says whether the lthread is in the tree. -/
theorem lthreadDeschedSleep (hT : T.Hold s) (hbit : s.has l .sleeping = true → l ∈ s.sleeping)
    (hr : s.treeRounds ≤ rounds) :
    ∃ T', T.lthreadDeschedSleep rounds s l = .ok T' ∧ T'.Hold (s.lthreadDeschedSleep l) := by
  have hkeys := deschedSleep_keys s l
  have hwait : T.waiting.HasMembers (s.lthreadDeschedSleep l).waitKey (s.lthreadDeschedSleep l).waiting := by
    rw [lthreadDeschedSleep_waiting]
    exact hT.waiting.congr fun m _ => (hkeys m).2
  unfold SchedTrees.lthreadDeschedSleep
  split_ifs with hb
  · obtain ⟨h', hrem, hmem⟩ := hT.sleeping.remove (hbit hb) ((le_max_left _ _).trans hr)
    refine ⟨{ T with sleeping := h' }, by simp [hrem], ?_, hwait⟩
    rw [lthreadDeschedSleep_sleeping, if_pos hb]
    exact hmem.congr fun m _ => (hkeys m).1
  · refine ⟨T, rfl, ?_, hwait⟩
    rw [lthreadDeschedSleep_sleeping, if_neg hb]
    exact hT.sleeping.congr fun m _ => (hkeys m).1

theorem lthreadDeschedEvent (hT : T.Hold s) (hbit : ∀ l, s.has l .sleeping = true → l ∈ s.sleeping)
    (hr : s.treeRounds ≤ rounds) (fd : Fd) (e : LtEvent) :
    ∃ T', T.lthreadDeschedEvent rounds s fd e = .ok (T', (s.lthreadDeschedEvent fd e).2) ∧
      T'.Hold (s.lthreadDeschedEvent fd e).1 := by
  have hrw := (le_max_right _ _).trans hr
  have hfind : T.waiting.find (fun a => lthreadWaitCmp (fdKey fd e) (s.waitKey a)) rounds =
      .ok (s.waiting.find? fun l => decide ((s.lt l).fdWait = fdKey fd e)) := by
    simp only [lthreadWaitCmp_eq]
    exact hT.waiting.find (fdKey fd e) hrw
  unfold SchedTrees.lthreadDeschedEvent Sched.lthreadDeschedEvent
  rw [hfind, except_ok_bind]
  cases hf : s.waiting.find? fun l => decide ((s.lt l).fdWait = fdKey fd e) with
  | none => exact ⟨T, rfl, hT⟩
  | some l =>
    obtain ⟨h', hrem, hmem⟩ := hT.waiting.remove (List.mem_of_find?_eq_some hf) hrw
    have hT' : Hold { T with waiting := h' } { s with waiting := s.waiting.erase l } := ⟨hT.sleeping, hmem⟩
    have hr' : Sched.treeRounds { s with waiting := s.waiting.erase l } ≤ rounds :=
      (max_le_max le_rfl (enoughRounds_mono (List.length_erase_le ..))).trans hr
    obtain ⟨T', hdes, hhold⟩ := lthreadDeschedSleep hT' (hbit l) hr'
    refine ⟨T', ?_, hhold⟩
    simp only [hrem, except_ok_bind]
    rw [show SchedTrees.lthreadDeschedSleep rounds { T with waiting := h' } s l = .ok T' from hdes]
    rfl

/-- The insertion of `_lthread_sched_event` finds out whether another lthread has the key. -/
theorem lthreadSchedEvent (hT : T.Hold s) (hl : l ∉ s.waiting) (hr : s.treeRounds ≤ rounds) (fd : Fd) (e : LtEvent) :
    (∃ m ∈ s.waiting, (s.lt m).fdWait = fdKey fd e ∧ T.lthreadSchedEvent rounds s l fd e = .ok (T, some m)) ∨
    (∀ m ∈ s.waiting, (s.lt m).fdWait ≠ fdKey fd e) ∧
      ∃ T', T.lthreadSchedEvent rounds s l fd e = .ok (T', none) ∧ T'.Hold (World.eventStored l fd e s) := by
  have hkey : (s.modify l ({ · with fdWait := fdKey fd e })).waitKey = Function.update s.waitKey l (fdKey fd e) :=
    Function.comp_update Lt.fdWait s.lt l _
  unfold SchedTrees.lthreadSchedEvent
  simp only [hkey, lthreadWaitCmp_eq]
  rcases hT.waiting.insert hl ((le_max_right _ _).trans hr) with ⟨m, hm, hmk, hins⟩ | ⟨hno, h', hins, hmem⟩
  · exact Or.inl ⟨m, hm, hmk, by rw [hins]; rfl⟩
  · refine Or.inr ⟨hno, { T with waiting := h' }, by rw [hins]; rfl, ?_, ?_⟩
    · refine hT.sleeping.congr fun m _ => ?_
      simp only [World.eventStored, sleepKey, Sched.setBit, modify_lt]
      split_ifs with hm
      · subst hm
        rfl
      · rfl
    · refine hmem.congr fun m _ => ?_
      rw [← hkey]
      simp only [World.eventStored, waitKey, Sched.setBit, modify_lt]
      split_ifs <;> rfl

theorem tried_le {used : List ℕ} {w k : ℕ} (hk : k ≤ u64) (hused : ∀ i < k, (w + i) % u64 ∈ used) : k ≤ used.length := by
  have hnodup : ((List.range k).map fun i => (w + i) % u64).Nodup := by
    refine List.Nodup.map_on (fun i hi j hj hij => ?_) List.nodup_range
    rw [List.mem_range] at hi hj
    have hmod : i ≡ j [MOD u64] := Nat.ModEq.add_left_cancel' w hij
    exact hmod.eq_of_lt_of_lt (hi.trans_le hk) (hj.trans_le hk)
  have hsub : ((List.range k).map fun i => (w + i) % u64) ⊆ used := by
    intro d hd
    obtain ⟨i, hi, rfl⟩ := List.mem_map.mp hd
    exact hused i (List.mem_range.mp hi)
  have hle := (List.subperm_of_subset hnodup hsub).length_le
  rwa [List.length_map, List.length_range] at hle

/-- One round of the loop of `_lthread_sched_sleep`, for a deadline that somebody has or not. -/
theorem sleepLoop_step {h : RbHead LtId} {w n : ℕ} (hm : h.HasMembers s.sleepKey s.sleeping) (hl : l ∉ s.sleeping)
    (hr : enoughRounds s.sleeping.length ≤ rounds) :
    (w ∈ s.sleeping.map s.sleepKey →
      SchedTrees.sleepLoop rounds s l (n + 1) h w = SchedTrees.sleepLoop rounds s l n h ((w + 1) % u64)) ∧
    (w ∉ s.sleeping.map s.sleepKey → ∃ h', SchedTrees.sleepLoop rounds s l (n + 1) h w = .ok (h', w) ∧
      h'.HasMembers (Function.update s.sleepKey l w) (l :: s.sleeping)) := by
  have hkey : (s.modify l ({ · with sleepUsecs := w })).sleepKey = Function.update s.sleepKey l w :=
    Function.comp_update Lt.sleepUsecs s.lt l _
  simp only [SchedTrees.sleepLoop, hkey, lthreadSleepCmp_eq]
  rcases hm.insert hl hr with ⟨m, hms, hmk, hins⟩ | ⟨hno, h', hins, hmem⟩
  · exact ⟨fun _ => by rw [hins]; rfl, fun hw => absurd (List.mem_map.mpr ⟨m, hms, hmk⟩) hw⟩
  · refine ⟨fun hw => ?_, fun _ => ⟨h', by rw [hins]; rfl, hmem⟩⟩
    obtain ⟨m, hms, hmw⟩ := List.mem_map.mp hw
    exact absurd hmw (hno m hms)

/-- The loop of `_lthread_sched_sleep` stores the first deadline that nobody has. -/
theorem sleepLoop_ok {h : RbHead LtId} {w n k : ℕ} (hm : h.HasMembers s.sleepKey s.sleeping) (hl : l ∉ s.sleeping)
    (hr : enoughRounds s.sleeping.length ≤ rounds) (hused : ∀ i < k, (w + i) % u64 ∈ s.sleeping.map s.sleepKey)
    (hfree : (w + k) % u64 ∉ s.sleeping.map s.sleepKey) (hn : k ≤ n) (hw : w < u64) :
    ∃ h', SchedTrees.sleepLoop rounds s l (n + 1) h w = .ok (h', (w + k) % u64) ∧
      h'.HasMembers (Function.update s.sleepKey l ((w + k) % u64)) (l :: s.sleeping) := by
  induction k generalizing w n with
  | zero =>
    have h0 : (w + 0) % u64 = w := by rw [Nat.add_zero, Nat.mod_eq_of_lt hw]
    rw [h0] at hfree ⊢
    exact (sleepLoop_step hm hl hr).2 hfree
  | succ k ih =>
    obtain ⟨n, rfl⟩ : ∃ n', n = n' + 1 := ⟨n - 1, by omega⟩
    have hshift (i : ℕ) : ((w + 1) % u64 + i) % u64 = (w + (i + 1)) % u64 := by
      rw [Nat.mod_add_mod, Nat.add_assoc, Nat.add_comm 1 i]
    have hhead : w ∈ s.sleeping.map s.sleepKey := by
      have h0 := hused 0 (Nat.succ_pos k)
      rwa [Nat.add_zero, Nat.mod_eq_of_lt hw] at h0
    rw [(sleepLoop_step hm hl hr).1 hhead, ← hshift k]
    exact ih (fun i hi => by rw [hshift]; exact hused (i + 1) (by omega)) (by rwa [hshift]) (by omega)
      (Nat.mod_lt _ (by decide))

/-- `_lthread_sched_sleep` stores the same deadline on the tree as in the model, after at most
one round more than there are sleepers. -/
theorem lthreadSchedSleep (hT : T.Hold s) (hl : l ∉ s.sleeping)
    (hfree : ∃ f < u64, f ∉ s.sleeping.map s.sleepKey) (hr : s.treeRounds ≤ rounds) (msecs : ℕ) :
    ∃ T', T.lthreadSchedSleep rounds (s.sleeping.length + 1) s l msecs = .ok (T', s.sleepDeadline msecs) ∧
      T'.Hold (s.lthreadSchedSleep l msecs) := by
  set w := (lthreadDiffUsecs s.birth s.usecNow + msecs * 1000 % u64) % u64 with w_def
  have hw : w < u64 := Nat.mod_lt _ (by decide)
  have hwait : T.waiting.HasMembers (s.lthreadSchedSleep l msecs).waitKey (s.lthreadSchedSleep l msecs).waiting := by
    rw [lthreadSchedSleep_waiting]
    exact hT.waiting.congr fun m _ => (lthreadSchedSleep_keeps s l msecs).fdWait m
  by_cases hmsecs : msecs = 0
  · subst hmsecs
    refine ⟨T, by simp [SchedTrees.lthreadSchedSleep, sleepDeadline], ?_, hwait⟩
    refine hT.sleeping.congr fun m hm => ?_
    have hne : m ≠ l := fun h0 => hl (h0 ▸ hm)
    simp [Sched.lthreadSchedSleep, sleepKey, modify_lt, hne]
  · have henter := Enters.schedSleep (s := s) (l := l) hmsecs
    have hlen : (s.sleeping.map s.sleepKey).length ≤ s.sleeping.length := by rw [List.length_map]
    obtain ⟨k, hk, hslot, hno, hused⟩ := sleepSlot_first hlen hw hfree
    have htries : k ≤ s.sleeping.length := (tried_le hk.le hused).trans hlen
    obtain ⟨h', hloop, hmem⟩ := sleepLoop_ok hT.sleeping hl ((le_max_left _ _).trans hr) hused hno htries hw
    have hdead : s.sleepDeadline msecs = (w + k) % u64 := by
      rw [← hslot, sleepDeadline, if_neg hmsecs]
      rfl
    refine ⟨{ T with sleeping := h' }, ?_, ?_, hwait⟩
    · simp only [SchedTrees.lthreadSchedSleep, if_neg hmsecs, ← w_def, hloop, except_ok_bind, hdead]
    · rw [henter.sleeping]
      refine hmem.congr fun m hm => ?_
      by_cases hml : m = l
      · subst hml
        rw [sleepKey, henter.deadline, hdead, Function.update_self]
      · rw [sleepKey, henter.others m hml, Function.update_of_ne hml, sleepKey]

end SchedTrees.Hold

namespace World

variable {k : Bool} {x x' : World} {l : LtId} {T : SchedTrees} {rounds : ℕ}

/-- The steps keep to the calls that the board has turns for, and to the clock. -/
def keepsTime (x : World) (a : Label) : Prop := stepOk true x a ∧ x.timely a

instance (x : World) (a : Label) : Decidable (x.keepsTime a) := inferInstanceAs (Decidable (_ ∧ _))

theorem Inv.sleeping_nodup (h : x.Inv k) : x.sched.sleeping.Nodup :=
  List.nodup_iff_count_eq_one.mpr fun l hl => ((h.row l).of_sleeping (count_ne_zero hl)).2.1

theorem Inv.waiting_nodup (h : x.Inv k) : x.sched.waiting.Nodup := by
  refine List.nodup_iff_count_eq_one.mpr fun l hl => ?_
  obtain ⟨-, _, _, _, -, hn⟩ := (h.row l).of_waiting (count_ne_zero hl)
  exact congrArg Counts.waiting hn

theorem Inv.exists_trees (h : x.Inv k) (ht : x.Timed) : ∃ T : SchedTrees, T.Hold x.sched := by
  have hs : (x.sched.sleeping.map x.sched.sleepKey).Nodup :=
    h.sleeping_nodup.map_on fun l hl m hm heq => ht.distinct l hl m hm heq
  have hw : (x.sched.waiting.map x.sched.waitKey).Nodup := by
    refine h.waiting_nodup.map_on fun l hl m hm heq => ?_
    exact h.seated.links.keys l m (count_ne_zero hl) (count_ne_zero hm) heq
  obtain ⟨h₁, h₁'⟩ := RbHead.HasMembers.exists_of_nodup hs
  obtain ⟨h₂, h₂'⟩ := RbHead.HasMembers.exists_of_nodup hw
  exact ⟨⟨h₁, h₂⟩, h₁', h₂'⟩

theorem Inv.keys_kept (h : x.Inv k) {a : Label} (hok : stepOk k x a) (hx : x.step a = .ok x') :
    (∀ l ∈ x.sched.sleeping, l ∈ x'.sched.sleeping → x'.sched.sleepKey l = x.sched.sleepKey l) ∧
    ∀ l ∈ x.sched.waiting, l ∈ x'.sched.waiting → x'.sched.waitKey l = x.sched.waitKey l := by
  have h' := h.step hok hx
  constructor
  · intro l hl hl'
    rcases h.sleeper_step h' hx hl' with ⟨-, hkey⟩ | ⟨_, -, hcpu, -⟩
    · exact hkey
    · exact absurd hl (h.not_asleep hcpu)
  · intro l hl hl'
    obtain ⟨fd, e, hw⟩ := h.waits_of_mem hl
    obtain ⟨fd', e', hw'⟩ := h'.waits_of_mem hl'
    rcases h.waits_old hok hx hw' with hold | ⟨hcpu, -⟩
    · exact hw'.2.trans hold.2.symm
    · exact absurd hcpu (h.waits_not_run hw)

theorem exists_free_deadline {used : List ℕ} (h : used.length < u64) : ∃ f < u64, f ∉ used := by
  by_contra hall
  have hused : ∀ i < u64, (0 + i) % u64 ∈ used := fun i _ =>
    by_contra fun hno => hall ⟨_, Nat.mod_lt _ (by decide), hno⟩
  exact absurd h (not_lt.mpr (SchedTrees.Hold.tried_le le_rfl hused))

/-- In every state of a timely run there are pointer trees of its sleepers and of its waiting
lthreads, a step changes no key of a member that stays, and on any such trees the
scheduler's operations follow no null pointer and do what they do to the lists: `RB_MIN` is
the first sleeper, `_lthread_desched_sleep` and `_lthread_desched_event` take out whom they
take out of the lists, and for the running lthread the insertion of `_lthread_sched_event`
reports another lthread with its key if there is one, and the loop of
`_lthread_sched_sleep` ends with the deadline of the model. -/
theorem sched_trees_refine_lists (h : worldMachine.Reachable keepsTime x) :
    (∃ T : SchedTrees, T.Hold x.sched) ∧
    (∀ a x', x.keepsTime a → x.step a = .ok x' →
      (∀ l ∈ x.sched.sleeping, l ∈ x'.sched.sleeping → x'.sched.sleepKey l = x.sched.sleepKey l) ∧
      ∀ l ∈ x.sched.waiting, l ∈ x'.sched.waiting → x'.sched.waitKey l = x.sched.waitKey l) ∧
    ∀ (T : SchedTrees) (rounds : ℕ), T.Hold x.sched → x.sched.treeRounds ≤ rounds →
      T.sleepMin rounds = .ok x.sched.sleepMin ∧
      (∀ l, ∃ T', T.lthreadDeschedSleep rounds x.sched l = .ok T' ∧ T'.Hold (x.sched.lthreadDeschedSleep l)) ∧
      (∀ fd e, ∃ T', T.lthreadDeschedEvent rounds x.sched fd e = .ok (T', (x.sched.lthreadDeschedEvent fd e).2) ∧
        T'.Hold (x.sched.lthreadDeschedEvent fd e).1) ∧
      ∀ l, x.cpu = .run l →
        (∀ fd e, (∃ m ∈ x.sched.waiting, (x.sched.lt m).fdWait = fdKey fd e ∧
            T.lthreadSchedEvent rounds x.sched l fd e = .ok (T, some m)) ∨
          (∀ m ∈ x.sched.waiting, (x.sched.lt m).fdWait ≠ fdKey fd e) ∧
            ∃ T', T.lthreadSchedEvent rounds x.sched l fd e = .ok (T', none) ∧ T'.Hold (eventStored l fd e x.sched)) ∧
        (x.sched.sleeping.length < u64 → ∀ msecs,
          ∃ T', T.lthreadSchedSleep rounds (x.sched.sleeping.length + 1) x.sched l msecs =
              .ok (T', ((x.sched.lthreadSchedSleep l msecs).lt l).sleepUsecs) ∧
            T'.Hold (x.sched.lthreadSchedSleep l msecs)) := by
  have hi : x.Inv true := Inv.reachable (h.mono fun _ _ h0 => h0.1)
  have ht : x.Timed := Timed.reachable (k := true) (fun _ _ h0 => h0) h
  have hbit (l : LtId) (hb : x.sched.has l .sleeping = true) : l ∈ x.sched.sleeping :=
    mem_of_count ((hi.ok l).sleeping.mp hb)
  refine ⟨hi.exists_trees ht, fun a x' hok hx => hi.keys_kept hok.1 hx, fun T rounds hT hr => ?_⟩
  refine ⟨hT.sleepMin hr, fun l => hT.lthreadDeschedSleep (hbit l) hr, hT.lthreadDeschedEvent hbit hr,
    fun l hcpu => ⟨?_, fun hlen msecs => ?_⟩⟩
  · have hl : l ∉ x.sched.waiting := by
      intro hw
      obtain ⟨fd, e, hw⟩ := hi.waits_of_mem hw
      exact hi.waits_not_run hw hcpu
    exact hT.lthreadSchedEvent hl hr
  · have hfree : ∃ f < u64, f ∉ x.sched.sleeping.map x.sched.sleepKey :=
      exists_free_deadline (by rwa [List.length_map])
    have hdead : ((x.sched.lthreadSchedSleep l msecs).lt l).sleepUsecs = x.sched.sleepDeadline msecs := by
      by_cases hm : msecs = 0
      · subst hm
        simp [Sched.lthreadSchedSleep, sleepDeadline, modify_lt]
      · exact (Enters.schedSleep hm).deadline
    rw [hdead]
    exact hT.lthreadSchedSleep (hi.not_asleep hcpu) hfree hr msecs

set_option maxRecDepth 20000 in
/-- Lthread 0 sleeps, lthread 1 waits for a descriptor with a timeout, and lthread 2 runs: it
finds lthread 1 in the waiting tree, and lthread 0 first among the sleepers. -/
theorem sched_trees_refine_lists_threeLthreads : ∃ x, worldMachine.Reachable keepsTime x ∧ x.cpu = .run 2 ∧
    x.sched.sleeping = [1, 0] ∧ x.sched.waiting = [1] ∧ ∃ T : SchedTrees, T.Hold x.sched ∧
      T.sleepMin x.sched.treeRounds = .ok (some 0) ∧
      T.lthreadSchedEvent x.sched.treeRounds x.sched 2 5 .read = .ok (T, some 1) := by
  obtain ⟨x, hx, hsee⟩ := exists_after keepsTime
    [.main, .main, .main, .run, .sched, .sched, .sched, .call (.sleep 10), .sched, .sched,
      .call (.schedEvent 5 .read 20), .sched, .sched]
    (fun x => (x.cpu, x.sched.sleeping, x.sched.waiting, x.sched.sleepMin, (x.sched.lt 1).fdWait))
    (t := (.run 2, [1, 0], [1], some 0, fdKey 5 .read)) (by decide)
  simp only [Prod.mk.injEq] at hsee
  obtain ⟨hcpu, hsleep, hwait, hmin, hkey⟩ := hsee
  obtain ⟨⟨T, hT⟩, -, hops⟩ := sched_trees_refine_lists hx
  obtain ⟨h1, -, -, h4⟩ := hops T x.sched.treeRounds hT le_rfl
  refine ⟨x, hx, hcpu, hsleep, hwait, T, hT, by rw [h1, hmin], ?_⟩
  rcases (h4 2 hcpu).1 5 .read with ⟨m, hm, -, hins⟩ | ⟨hno, -⟩
  · rw [hwait, List.mem_singleton] at hm
    rw [hins, hm]
  · exact absurd hkey (hno 1 (by simp [hwait]))

end World
end Lthr

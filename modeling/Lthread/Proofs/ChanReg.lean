import Lthread.Proofs.ChanOps

/-! The registration of selectors in the wait queues. `Registered` says for
every channel, side and selector which entries are linked there, and in which
order: all cases of a selector whose lthread is suspended with target -1, none
of any other. -/

namespace Lthr

theorem diff_filter_append {α : Type} [DecidableEq α] (p : α → Bool) (l t : List α) :
    (l ++ t).diff (l.filter p) = (l.filter fun a => !p a) ++ t := by
  induction l with
  | nil => rfl
  | cons a l ih =>
    cases h : p a with
    | false =>
      have hmem : a ∉ l.filter p := by
        intro hm
        simpa [h] using (List.mem_filter.mp hm).2
      rw [List.filter_cons_of_neg (by simp [h]), List.filter_cons_of_pos (by simp [h]),
        List.cons_append, List.cons_diff_of_not_mem hmem, ih, List.cons_append]
    | true =>
      rw [List.filter_cons_of_pos h, List.filter_cons_of_neg (by simp [h]), List.cons_append,
        List.cons_diff, if_pos (List.mem_cons_self ..), List.erase_cons_head, ih]

namespace Chans

/-- The lthread using `s` is suspended and nobody has served it. -/
def parked (st : Chans) (s : SelId) : Prop := (st.sel s).user ≠ none ∧ (st.sel s).target = -1

instance (st : Chans) (s : SelId) : Decidable (st.parked s) :=
  inferInstanceAs (Decidable (_ ∧ _))

structure Registered (st : Chans) : Prop where
  queue : ∀ c s side, (((st.chan c).waitq side).filter fun w => decide (w.sel = s)) =
    if st.parked s then st.entries s (st.idxs s side) c else []
  count : ∀ c side, (st.chan c).waitCount side = ((st.chan c).waitq side).length
  idle : ∀ s, (st.sel s).user = none → (st.sel s).target = -1
  range : ∀ s, (st.sel s).target ≠ -1 →
    ∃ i : ℕ, (st.sel s).target = i ∧ i < (st.sel s).wchanCount + (st.sel s).rchanCount

theorem caseEntries_congr {a b : Chans} {s : SelId} (hc : (b.sel s).chans = (a.sel s).chans)
    (hw : (b.sel s).wchanCount = (a.sel s).wchanCount)
    (hr : (b.sel s).rchanCount = (a.sel s).rchanCount) (side : Side) (c : ChanId) :
    b.entries s (b.idxs s side) c = a.entries s (a.idxs s side) c := by
  have hidx : b.idxs s side = a.idxs s side := by cases side <;> simp only [idxs, hw, hr]
  rw [hidx, entries_congr hc]

theorem mem_idxs {st : Chans} {s : SelId} {side : Side} {i : ℕ} (h : i ∈ st.idxs s side) :
    i < (st.sel s).wchanCount + (st.sel s).rchanCount := by
  cases side with
  | send => simp only [idxs, List.mem_range] at h; omega
  | recv => simp only [idxs, List.mem_range'_1] at h; omega

theorem idxs_nodup (st : Chans) (s : SelId) (side : Side) : (st.idxs s side).Nodup := by
  cases side with
  | send => exact List.nodup_range
  | recv => exact List.nodup_range'

namespace Registered

variable {st : Chans}

theorem mem (h : st.Registered) (side : Side) {c : ChanId} {w : Wait}
    (hw : w ∈ (st.chan c).waitq side) :
    st.parked w.sel ∧ w.idx ∈ st.idxs w.sel side ∧ (st.sel w.sel).chans w.idx = c := by
  have hmem : w ∈ ((st.chan c).waitq side).filter fun v => decide (v.sel = w.sel) :=
    List.mem_filter.mpr ⟨hw, by simp⟩
  rw [h.queue] at hmem
  by_cases hp : st.parked w.sel
  · rw [if_pos hp] at hmem
    exact ⟨hp, (st.mem_entries.mp hmem).2⟩
  · rw [if_neg hp] at hmem
    exact absurd hmem (by simp)

theorem mem_iff (h : st.Registered) (side : Side) {c : ChanId} {w : Wait} :
    w ∈ (st.chan c).waitq side ↔
      st.parked w.sel ∧ w.idx ∈ st.idxs w.sel side ∧ (st.sel w.sel).chans w.idx = c := by
  refine ⟨h.mem side, fun ⟨hp, hi, hc⟩ => ?_⟩
  have hmem : w ∈ ((st.chan c).waitq side).filter fun v => decide (v.sel = w.sel) := by
    rw [h.queue, if_pos hp]
    exact st.mem_entries.mpr ⟨rfl, hi, hc⟩
  exact (List.mem_filter.mp hmem).1

theorem nodup (h : st.Registered) (c : ChanId) (side : Side) :
    ((st.chan c).waitq side).Nodup := by
  rw [List.nodup_iff_count_le_one]
  intro w
  by_cases hw : w ∈ (st.chan c).waitq side
  · have hcount : ((st.chan c).waitq side).count w =
        (((st.chan c).waitq side).filter fun v => decide (v.sel = w.sel)).count w :=
      (List.count_filter (by simp)).symm
    rw [hcount, h.queue, if_pos (h.mem side hw).1]
    exact List.nodup_iff_count_le_one.mp (st.entries_nodup (st.idxs_nodup _ _) c) w
  · rw [List.count_eq_zero_of_not_mem hw]
    exact Nat.zero_le _

theorem count_entry (h : st.Registered) (side : Side) (c : ChanId) (w : Wait) :
    ((st.chan c).waitq side).count w =
      if st.parked w.sel ∧ w.idx ∈ st.idxs w.sel side ∧ (st.sel w.sel).chans w.idx = c then 1
      else 0 := by
  split_ifs with hw
  · exact List.count_eq_one_of_mem (h.nodup c side) ((h.mem_iff side).mpr hw)
  · exact List.count_eq_zero_of_not_mem fun hm => hw ((h.mem_iff side).mp hm)

/-- `sel_remove_all_chans` unlinks every entry of the selector and no other. -/
theorem removeAll_waitq (h : st.Registered) {s : SelId} (hp : st.parked s) (c : ChanId)
    (side : Side) : ((st.selRemoveAllChans s).chan c).waitq side =
      ((st.chan c).waitq side).filter fun w => !decide (some w.sel = some s) := by
  have hq := h.queue c s side
  rw [if_pos hp] at hq
  rw [selRemoveAllChans_waitq, ← hq]
  simp only [Option.some.injEq]
  simpa using diff_filter_append (fun w : Wait => decide (w.sel = s)) ((st.chan c).waitq side) []

theorem removeAll_count (h : st.Registered) {s : SelId} (hp : st.parked s) (c : ChanId)
    (side : Side) : ((st.selRemoveAllChans s).chan c).waitCount side =
      (((st.selRemoveAllChans s).chan c).waitq side).length := by
  have hq := h.queue c s side
  rw [if_pos hp] at hq
  rw [h.removeAll_waitq hp, selRemoveAllChans_waitCount, h.count, ← hq]
  simp only [Option.some.injEq]
  have hlen := List.length_eq_length_filter_add (l := (st.chan c).waitq side)
    fun w => decide (w.sel = s)
  omega

/-- The selector `gone`, if any, leaves the queues and is served or idle from then
on; the other parked selectors stay as they are. -/
theorem leave {st' : Chans} (h : st.Registered) (gone : Option SelId)
    (hq : ∀ c side, (st'.chan c).waitq side =
      ((st.chan c).waitq side).filter fun w => !decide (some w.sel = gone))
    (hc : ∀ c side, (st'.chan c).waitCount side = ((st'.chan c).waitq side).length)
    (hp : ∀ s, st'.parked s ↔ st.parked s ∧ some s ≠ gone)
    (hcall : ∀ s, st.parked s → (st.sel s).SameCall (st'.sel s) ∨ some s = gone)
    (hidle : ∀ s, (st'.sel s).user = none → (st'.sel s).target = -1)
    (hrange : ∀ s, (st'.sel s).target ≠ -1 → ∃ i : ℕ, (st'.sel s).target = i ∧
      i < (st'.sel s).wchanCount + (st'.sel s).rchanCount) : st'.Registered := by
  refine ⟨fun c s side => ?_, hc, hidle, hrange⟩
  rw [hq, List.filter_filter]
  by_cases he : some s = gone
  · rw [if_neg fun hs => ((hp s).mp hs).2 he]
    refine List.filter_eq_nil_iff.mpr fun w _ => ?_
    by_cases hw : w.sel = s <;> simp [hw, he]
  · have hfil : (((st.chan c).waitq side).filter fun w =>
        decide (w.sel = s) && !decide (some w.sel = gone)) =
        ((st.chan c).waitq side).filter fun w => decide (w.sel = s) := by
      refine List.filter_congr fun w _ => ?_
      by_cases hw : w.sel = s
      · simp [hw, he]
      · simp [hw]
    rw [hfil, h.queue]
    by_cases hs : st.parked s
    · rcases hcall s hs with hsame | hgone
      · rw [if_pos hs, if_pos ((hp s).mpr ⟨hs, he⟩),
          caseEntries_congr hsame.chans hsame.wcount hsame.rcount]
      · exact absurd hgone he
    · rw [if_neg hs, if_neg fun hs' => hs ((hp s).mp hs').1]

theorem filter_none (q : List Wait) :
    (q.filter fun w => !decide (some w.sel = (none : Option SelId))) = q :=
  List.filter_eq_self.mpr fun _ _ => by simp

theorem prepare (h : st.Registered) {s : SelId} (hu : (st.sel s).user = none)
    (chans : ℕ → ChanId) (msgs : ℕ → Ptr) (w r : ℕ) : (st.prepare s chans msgs w r).Registered := by
  have hne {s' : SelId} (he : s' ≠ s) : (st.prepare s chans msgs w r).sel s' = st.sel s' := by
    simp [Chans.prepare, modSel, he]
  have hself : (st.prepare s chans msgs w r).sel s = { st.sel s with
      chans := chans, msgs := msgs, wchanCount := w, rchanCount := r
      ticket := st.hist.calls, given := msgs } := by
    simp [Chans.prepare, modSel]
  have ht := h.idle s hu
  refine h.leave none (fun c side => ?_) (fun c side => h.count c side) (fun s' => ?_)
    (fun s' hp => ?_) (fun s' => ?_) (fun s' => ?_)
  · rw [filter_none]; rfl
  · unfold parked
    by_cases he : s' = s
    · subst he; rw [hself]; simp [hu]
    · rw [hne he]; simp
  · have he : s' ≠ s := fun he => hp.1 (he ▸ hu)
    rw [hne he]
    exact Or.inl (Sel.SameCall.refl _)
  · by_cases he : s' = s
    · subst he; rw [hself]; exact fun _ => ht
    · rw [hne he]; exact h.idle s'
  · by_cases he : s' = s
    · subst he; rw [hself]; exact fun hn => absurd ht hn
    · rw [hne he]; exact h.range s'

theorem finish_sel_ne {s s' : SelId} (he : s' ≠ s) (t r : ℤ) :
    ((st.setTarget s t).finish s r).sel s' = st.sel s' := by
  simp [Chans.finish, modSel, setTarget_sel, he]

theorem finish_sel_self (s : SelId) (t r : ℤ) :
    ((st.setTarget s t).finish s r).sel s = { st.sel s with target := t, user := none } := by
  simp [Chans.finish, modSel, setTarget_sel]

/-- A call returns: `gone` has left the queues in `st'`, the caller has reset its
target, and the other selectors are as they were. -/
theorem returned {st' : Chans} (h : st.Registered) {s : SelId} (gone : Option SelId)
    (hs : ¬ st.parked s ∨ some s = gone)
    (hq : ∀ c side, (st'.chan c).waitq side =
      ((st.chan c).waitq side).filter fun w => !decide (some w.sel = gone))
    (hc : ∀ c side, (st'.chan c).waitCount side = ((st'.chan c).waitq side).length)
    (hcall : ∀ s', (st.sel s').SameCall (st'.sel s'))
    (htarget : ∀ s' ≠ s, some s' ≠ gone → (st'.sel s').target = (st.sel s').target)
    (hgone : ∀ s' ≠ s, some s' = gone → st.parked s' ∧ ∃ i : ℕ, (st'.sel s').target = i ∧
      i < (st.sel s').wchanCount + (st.sel s').rchanCount) (r : ℤ) :
    ((st'.setTarget s (-1)).finish s r).Registered := by
  refine h.leave gone hq hc (fun s' => ?_) (fun s' hp => ?_) (fun s' => ?_) (fun s' => ?_)
  · unfold parked
    by_cases he : s' = s
    · subst he
      rw [finish_sel_self]
      simp only [ne_eq, not_true_eq_false, false_and, false_iff, not_and, not_not]
      exact fun hp => hs.resolve_left fun hn => hn hp
    · rw [finish_sel_ne he, (hcall s').user]
      by_cases hg : some s' = gone
      · obtain ⟨-, i, hi, -⟩ := hgone s' he hg
        simp only [hi, hg, ne_eq, not_true_eq_false, and_false, iff_false, not_and]
        intro _
        omega
      · rw [htarget s' he hg]
        simp [hg]
  · by_cases he : s' = s
    · subst he; exact Or.inr (hs.resolve_left fun hn => hn hp)
    · rw [finish_sel_ne he]; exact Or.inl (hcall s')
  · by_cases he : s' = s
    · subst he; rw [finish_sel_self]; exact fun _ => rfl
    · rw [finish_sel_ne he, (hcall s').user]
      intro hu
      by_cases hg : some s' = gone
      · exact absurd hu (hgone s' he hg).1.1
      · rw [htarget s' he hg]; exact h.idle s' hu
  · by_cases he : s' = s
    · subst he; rw [finish_sel_self]; exact fun hn => absurd rfl hn
    · rw [finish_sel_ne he, (hcall s').wcount, (hcall s').rcount]
      by_cases hg : some s' = gone
      · exact fun _ => (hgone s' he hg).2
      · rw [htarget s' he hg]; exact h.range s'

/-- A peer outside of any call of its own (`chan_close`) serves the parked `s`. -/
theorem served {st' : Chans} (h : st.Registered) {s : SelId} (hs : st.parked s) {j : ℕ}
    (hj : j < (st.sel s).wchanCount + (st.sel s).rchanCount)
    (hq : ∀ c side, (st'.chan c).waitq side =
      ((st.chan c).waitq side).filter fun w => !decide (some w.sel = some s))
    (hc : ∀ c side, (st'.chan c).waitCount side = ((st'.chan c).waitq side).length)
    (hcall : ∀ s', (st.sel s').SameCall (st'.sel s')) (hself : (st'.sel s).target = j)
    (htarget : ∀ s' ≠ s, (st'.sel s').target = (st.sel s').target) : st'.Registered := by
  refine h.leave (some s) hq hc (fun s' => ?_) (fun s' _ => Or.inl (hcall s')) (fun s' hu => ?_)
    (fun s' => ?_)
  · unfold parked
    rw [(hcall s').user]
    by_cases he : s' = s
    · subst he
      simp only [hself, ne_eq, not_true_eq_false, and_false, iff_false, not_and]
      intro _
      omega
    · rw [htarget s' he]; simp [he]
  · rw [(hcall s').user] at hu
    by_cases he : s' = s
    · subst he; exact absurd hu hs.1
    · rw [htarget s' he]; exact h.idle s' hu
  · rw [(hcall s').wcount, (hcall s').rcount]
    by_cases he : s' = s
    · subst he; exact fun _ => ⟨j, hself, hj⟩
    · rw [htarget s' he]; exact h.range s'

theorem register (h : st.Registered) {s : SelId} (hu : (st.sel s).user = none) (l : LtId) :
    ((st.register s).park s l).Registered := by
  have hself : ((st.register s).park s l).sel s = { st.sel s with user := some l } := by
    rw [park_sel, Function.update_self, register_sel]
  have hother {s' : SelId} (hne : s' ≠ s) : ((st.register s).park s l).sel s' = st.sel s' := by
    rw [park_sel, Function.update_of_ne hne, register_sel]
  have hnp : ¬ st.parked s := fun hp => hp.1 hu
  have hcase (s' : SelId) (side : Side) (c : ChanId) : ((st.register s).park s l).entries s'
      (((st.register s).park s l).idxs s' side) c = st.entries s' (st.idxs s' side) c := by
    by_cases he : s' = s
    · subst he
      exact caseEntries_congr (by rw [hself]) (by rw [hself]) (by rw [hself]) side c
    · exact caseEntries_congr (by rw [hother he]) (by rw [hother he]) (by rw [hother he]) side c
  refine ⟨fun c s' side => ?_, fun c side => ?_, fun s' => ?_, fun s' => ?_⟩
  · rw [hcase, park_chan, register_waitq, List.filter_append, h.queue]
    by_cases he : s' = s
    · subst he
      have hp' : ((st.register s').park s' l).parked s' := by
        unfold parked
        rw [hself]
        exact ⟨by simp, h.idle s' hu⟩
      rw [if_neg hnp, if_pos hp', List.nil_append]
      refine List.filter_eq_self.mpr fun w hw => ?_
      simp [(st.mem_entries.mp hw).1]
    · have hpar : ((st.register s).park s l).parked s' ↔ st.parked s' := by
        unfold parked; rw [hother he]
      have hnil : ((st.entries s (st.idxs s side) c).filter fun w => decide (w.sel = s')) = [] := by
        refine List.filter_eq_nil_iff.mpr fun w hw => ?_
        have := (st.mem_entries.mp hw).1
        simp only [this, decide_eq_true_eq]
        exact fun h => he h.symm
      rw [hnil, List.append_nil]
      simp only [hpar]
  · rw [park_chan, register_waitCount, register_waitq, h.count, List.length_append]
    push_cast
    rfl
  · by_cases he : s' = s
    · subst he
      rw [hself]
      exact fun hn => absurd hn (by simp)
    · rw [hother he]; exact h.idle s'
  · by_cases he : s' = s
    · subst he
      rw [hself]
      exact fun ht => absurd (h.idle s' hu) ht
    · rw [hother he]; exact h.range s'

end Registered
end Chans
end Lthr

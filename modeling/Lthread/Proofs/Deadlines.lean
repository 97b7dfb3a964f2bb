import Lthread.Proofs.Queues
import Lthread.Spec.Multi

/-! The deadline that `_lthread_sched_sleep` stores, in 64-bit arithmetic: when it is not
before the time that was asked for. -/

namespace Lthr

namespace Sched

variable {s : Sched} {l : LtId} {used : List ℕ} {n w k msecs : ℕ}

theorem sleepSlot_eq (hused : ∀ i < k, (w + i) % u64 ∈ used) (hfree : (w + k) % u64 ∉ used) (hn : k ≤ n) (hw : w < u64) :
    sleepSlot used n w = (w + k) % u64 := by
  induction k generalizing w n with
  | zero =>
    rw [Nat.add_zero, Nat.mod_eq_of_lt hw] at hfree ⊢
    cases n with
    | zero => rfl
    | succ n => rw [sleepSlot, if_neg hfree]
  | succ k ih =>
    obtain ⟨n, rfl⟩ : ∃ n', n = n' + 1 := ⟨n - 1, by omega⟩
    have hstep (i : ℕ) : ((w + 1) % u64 + i) % u64 = (w + (i + 1)) % u64 := by
      rw [Nat.mod_add_mod, Nat.add_assoc, Nat.add_comm 1 i]
    have hhead : w ∈ used := by
      have h0 := hused 0 (Nat.succ_pos k)
      rwa [Nat.add_zero, Nat.mod_eq_of_lt hw] at h0
    rw [sleepSlot, if_pos hhead]
    rw [ih (fun i hi => by rw [hstep]; exact hused (i + 1) (by omega)) (by rwa [hstep]) (by omega)
      (Nat.mod_lt _ (by decide))]
    exact hstep k

/-- If some deadline is not used, it stops, after a round for each sleeper at most: the
deadlines that it tries are different. -/
theorem sleepSlot_first (hn : used.length ≤ n) (hw : w < u64) (hfree : ∃ f < u64, f ∉ used) :
    ∃ k < u64, sleepSlot used n w = (w + k) % u64 ∧ (w + k) % u64 ∉ used ∧ ∀ i < k, (w + i) % u64 ∈ used := by
  have hex : ∃ k, k < u64 ∧ (w + k) % u64 ∉ used := by
    obtain ⟨f, hf, hno⟩ := hfree
    refine ⟨(f + (u64 - w)) % u64, Nat.mod_lt _ (by decide), ?_⟩
    rw [Nat.add_mod_mod, show w + (f + (u64 - w)) = f + u64 by omega, Nat.add_mod_right, Nat.mod_eq_of_lt hf]
    exact hno
  obtain ⟨hlt, hno⟩ := Nat.find_spec hex
  have hused : ∀ i < Nat.find hex, (w + i) % u64 ∈ used := by
    intro i hi
    by_contra hi'
    exact Nat.find_min hex hi ⟨hi.trans hlt, hi'⟩
  refine ⟨Nat.find hex, hlt, sleepSlot_eq hused hno ?_ hw, hno, hused⟩
  have hnodup : ((List.range (Nat.find hex)).map fun i => (w + i) % u64).Nodup := by
    refine List.Nodup.map_on (fun i hi j hj hij => ?_) List.nodup_range
    rw [List.mem_range] at hi hj
    have hmod : i ≡ j [MOD u64] := Nat.ModEq.add_left_cancel' w hij
    exact hmod.eq_of_lt_of_lt (hi.trans hlt) (hj.trans hlt)
  have hsub : ((List.range (Nat.find hex)).map fun i => (w + i) % u64) ⊆ used := by
    intro d hd
    obtain ⟨i, hi, rfl⟩ := List.mem_map.mp hd
    exact hused i (List.mem_range.mp hi)
  have hle := (List.subperm_of_subset hnodup hsub).length_le
  rw [List.length_map, List.length_range] at hle
  exact hle.trans hn

/-- The deadline stored is not before the time asked for, or it is the largest there is, and
so the lthread does not expire at a clock reading before that time. -/
def KeepsDeadline (s : Sched) (l : LtId) (msecs : ℕ) : Prop :=
  let now := lthreadDiffUsecs s.birth s.usecNow
  let stored := ((s.lthreadSchedSleep l msecs).lt l).sleepUsecs
  (now + 1000 * msecs ≤ stored ∨ stored = u64 - 1) ∧
    ∀ t < u64, stored ≤ t → now + 1000 * msecs ≤ t ∨ t = u64 - 1

/-- The time asked for can be represented and not every deadline from there on is a
sleeper's; or it cannot, and the largest deadline is the first from the wrapped sum on that
no sleeper has. -/
def Representable (used : List ℕ) (wanted : ℕ) : Prop :=
  (∃ d, wanted ≤ d ∧ d < u64 ∧ d ∉ used) ∨
    u64 ≤ wanted ∧ u64 - 1 ∉ used ∧ ∀ d, wanted % u64 ≤ d → d < u64 - 1 → d ∈ used

theorem sleepSlot_keeps (hn : used.length ≤ n) (hfree : ∃ f < u64, f ∉ used) (wanted : ℕ) :
    (wanted ≤ sleepSlot used n (wanted % u64) ∨ sleepSlot used n (wanted % u64) = u64 - 1) ↔
      Representable used wanted := by
  have hw : wanted % u64 < u64 := Nat.mod_lt _ (by decide)
  obtain ⟨k, hk, hslot, hno, hused⟩ := sleepSlot_first hn hw hfree
  rw [hslot]
  have hlt : (wanted % u64 + k) % u64 < u64 := Nat.mod_lt _ (by decide)
  by_cases hT : wanted < u64
  · -- the search begins at the time asked for
    rw [Nat.mod_eq_of_lt hT] at hno hused hlt ⊢
    constructor
    · intro h
      refine Or.inl ⟨(wanted + k) % u64, ?_, hlt, hno⟩
      rcases h with h | h
      · exact h
      · omega
    · rintro (⟨d, hd, hd', hfree⟩ | ⟨hge, -⟩)
      · have hkd : k ≤ d - wanted := by
          by_contra hgt
          have hmem := hused (d - wanted) (by omega)
          rw [show wanted + (d - wanted) = d by omega, Nat.mod_eq_of_lt hd'] at hmem
          exact hfree hmem
        rw [Nat.mod_eq_of_lt (by omega)]
        exact Or.inl (by omega)
      · omega
  · constructor
    · intro h
      have hlast : (wanted % u64 + k) % u64 = u64 - 1 := by
        rcases h with h | h
        · omega
        · exact h
      -- no room for a second wrap
      have hsum : wanted % u64 + k = u64 - 1 := by
        rcases Nat.lt_or_ge (wanted % u64 + k) u64 with hs | hs
        · rwa [Nat.mod_eq_of_lt hs] at hlast
        · rw [Nat.mod_eq_sub_mod hs, Nat.mod_eq_of_lt (by omega)] at hlast
          omega
      refine Or.inr ⟨not_lt.mp hT, hlast ▸ hno, fun d hd hd' => ?_⟩
      have hmem := hused (d - wanted % u64) (by omega)
      rwa [show wanted % u64 + (d - wanted % u64) = d by omega, Nat.mod_eq_of_lt (by omega)] at hmem
    · rintro (⟨d, hd, hd', -⟩ | ⟨-, hlast, hall⟩)
      · omega
      · right
        have hle : wanted % u64 + k ≤ u64 - 1 := by
          by_contra hgt
          have hmem := hused (u64 - 1 - wanted % u64) (by omega)
          rw [show wanted % u64 + (u64 - 1 - wanted % u64) = u64 - 1 by omega,
            Nat.mod_eq_of_lt (by omega)] at hmem
          exact hlast hmem
        rw [Nat.mod_eq_of_lt (by omega)] at hno ⊢
        by_contra hne
        exact hno (hall _ (by omega) (by omega))

theorem stored_eq_sleepSlot (hmsecs : msecs ≠ 0) : ((s.lthreadSchedSleep l msecs).lt l).sleepUsecs =
    sleepSlot (s.sleeping.map fun m => (s.lt m).sleepUsecs) s.sleeping.length
      ((lthreadDiffUsecs s.birth s.usecNow + 1000 * msecs) % u64) := by
  rw [(Enters.schedSleep hmsecs).deadline, sleepDeadline, if_neg hmsecs, Nat.add_mod_mod, Nat.mul_comm]

/-- The deadline is kept if and only if it can be: for every number of msecs and every age
of the scheduler, as long as some deadline is left for the insertion loop to find. -/
theorem sleep_keeps_deadline (hmsecs : msecs ≠ 0) (hfree : ∃ f < u64, f ∉ s.sleeping.map fun m => (s.lt m).sleepUsecs) :
    s.KeepsDeadline l msecs ↔
      Representable (s.sleeping.map fun m => (s.lt m).sleepUsecs)
        (lthreadDiffUsecs s.birth s.usecNow + 1000 * msecs) := by
  rw [← sleepSlot_keeps (n := s.sleeping.length) (List.length_map _).le hfree, ← stored_eq_sleepSlot hmsecs]
  refine ⟨fun h => h.1, fun h => ⟨h, fun t ht hle => ?_⟩⟩
  rcases h with h | h
  · exact Or.inl (h.trans hle)
  · right
    omega

/-- A timeout of -1 at scheduler age 2000 us: the deadline is 1000 us, in the past. -/
theorem sleep_deadline_wraps : ∃ s : Sched, s.sleeping = [] ∧ lthreadDiffUsecs s.birth s.usecNow = 2000 ∧
    ((s.lthreadSchedSleep 0 (timeoutMsecs (-1))).lt 0).sleepUsecs = 1000 ∧ ¬ s.KeepsDeadline 0 (timeoutMsecs (-1)) := by
  have hstored : (((({ (World.start 0 (fun _ => 0) IO_WORKERS).sched with usecNow := 2000 } : Sched)).lthreadSchedSleep 0
      (timeoutMsecs (-1))).lt 0).sleepUsecs = 1000 := by decide
  refine ⟨{ (World.start 0 (fun _ => 0) IO_WORKERS).sched with usecNow := 2000 }, rfl, rfl, hstored, fun h => ?_⟩
  rcases h.1 with h | h
  · exact absurd (hstored ▸ h) (by decide)
  · exact absurd (hstored ▸ h) (by decide)

/-- An hour, in a new scheduler. -/
theorem sleep_keeps_deadline_hour :
    (World.start 0 (fun _ => 0) IO_WORKERS).sched.KeepsDeadline 0 3600000 :=
  (sleep_keeps_deadline (by decide) ⟨0, by decide, List.not_mem_nil⟩).mpr
    (Or.inl ⟨3600000000, by decide, by decide, List.not_mem_nil⟩)

/-! Without a wrap -/

/-- Among as many deadlines as there are sleepers and one more, one is not used. -/
theorem exists_first_free (used : List ℕ) (w : ℕ) :
    ∃ k ≤ used.length, w + k ∉ used ∧ ∀ i < k, w + i ∈ used := by
  have hex : ∃ k, w + k ∉ used := by
    obtain ⟨f, hf⟩ := Infinite.exists_notMem_finset (used.toFinset ∪ Finset.range w)
    rw [Finset.mem_union, not_or, List.mem_toFinset, Finset.mem_range, not_lt] at hf
    exact ⟨f - w, by rw [Nat.add_sub_cancel' hf.2]; exact hf.1⟩
  have hused : ∀ i < Nat.find hex, w + i ∈ used := fun i hi => not_not.mp (Nat.find_min hex hi)
  refine ⟨Nat.find hex, ?_, Nat.find_spec hex, hused⟩
  have hnodup : ((List.range (Nat.find hex)).map (w + ·)).Nodup :=
    List.nodup_range.map (add_right_injective w)
  have hsub : (List.range (Nat.find hex)).map (w + ·) ⊆ used := by
    intro d hd
    obtain ⟨i, hi, rfl⟩ := List.mem_map.mp hd
    exact hused i (List.mem_range.mp hi)
  have hle := (List.subperm_of_subset hnodup hsub).length_le
  rwa [List.length_map, List.length_range] at hle

/-- The insertion loop of `_lthread_sched_sleep` tries `rounds` deadlines that are held, from
the time asked for on, and then stores the next one: the least that is not used, and so
at most one microsecond later for each sleeper. The deadlines stay distinct, and those of the
other sleepers as they were. -/
theorem sleep_takes_first_slot (hmsecs : 0 < msecs) (hl : l ∉ s.sleeping)
    (hdistinct : (s.sleeping.map fun m => (s.lt m).sleepUsecs).Nodup)
    (hfit : lthreadDiffUsecs s.birth s.usecNow + 1000 * msecs + s.sleeping.length < u64) :
    let used := s.sleeping.map fun m => (s.lt m).sleepUsecs
    let base := lthreadDiffUsecs s.birth s.usecNow + 1000 * msecs
    let s' := s.lthreadSchedSleep l msecs
    let stored := (s'.lt l).sleepUsecs
    (∃ rounds ≤ s.sleeping.length, stored = base + rounds ∧ ∀ i < rounds, base + i ∈ used) ∧
      base ≤ stored ∧ stored ∉ used ∧ (∀ d, base ≤ d → d ∉ used → stored ≤ d) ∧
      stored ≤ base + s.sleeping.length ∧ s'.sleeping = l :: s.sleeping ∧
      (s'.sleeping.map fun m => (s'.lt m).sleepUsecs).Nodup ∧
      ∀ m ∈ s.sleeping, (s'.lt m).sleepUsecs = (s.lt m).sleepUsecs := by
  intro used base s' stored
  have henter := Enters.schedSleep (s := s) (l := l) hmsecs.ne'
  have hbase : base < u64 := by omega
  obtain ⟨k, hk, hfree, hused⟩ := exists_first_free used base
  rw [List.length_map] at hk
  have hstored : stored = base + k := by
    have hmod (i : ℕ) (hi : i ≤ k) : (base + i) % u64 = base + i := Nat.mod_eq_of_lt (by omega)
    have hslot : sleepSlot used s.sleeping.length base = (base + k) % u64 := by
      refine sleepSlot_eq (fun i hi => ?_) ?_ hk hbase
      · rw [hmod i hi.le]
        exact hused i hi
      · rwa [hmod k le_rfl]
    have hdead : stored = sleepSlot used s.sleeping.length (base % u64) := stored_eq_sleepSlot hmsecs.ne'
    rw [hdead, Nat.mod_eq_of_lt hbase, hslot, hmod k le_rfl]
  have hothers (m : LtId) (hm : m ∈ s.sleeping) : (s'.lt m).sleepUsecs = (s.lt m).sleepUsecs := by
    apply henter.others
    rintro rfl
    exact hl hm
  have hkeys : s'.sleeping.map (fun m => (s'.lt m).sleepUsecs) = stored :: used := by
    rw [henter.sleeping, List.map_cons, List.map_congr_left hothers]
  refine ⟨⟨k, hk, hstored, hused⟩, by omega, hstored ▸ hfree, fun d hd hno => ?_, by omega, henter.sleeping, ?_,
    hothers⟩
  · by_contra hlt
    have hmem := hused (d - base) (by omega)
    rw [Nat.add_sub_cancel' hd] at hmem
    exact hno hmem
  · rw [hkeys]
    exact List.nodup_cons.mpr ⟨hstored ▸ hfree, hdistinct⟩

def crowded : Sched :=
  { (World.start 0 (fun _ => 0) IO_WORKERS).sched with
    lt := fun l => { newLt with sleepUsecs := 5000 + l }
    sleeping := [1, 0] }

theorem sleep_takes_first_slot_crowded :
    ((crowded.lthreadSchedSleep 2 5).lt 2).sleepUsecs ∉ [5001, 5000] ∧
      ((crowded.lthreadSchedSleep 2 5).lt 2).sleepUsecs ≤ 5002 := by
  have h := @sleep_takes_first_slot crowded 2 5 (by decide) (by decide) (by decide) (by decide)
  exact ⟨h.2.2.1, h.2.2.2.2.1⟩

end Sched
end Lthr

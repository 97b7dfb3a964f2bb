import Lthread.Proofs.CondStep

/-! Condition variables. The calls on them are numbered in the order in which they are made;
the record of a run says which of them took an lthread off the list it waits on. -/

namespace Lthr

open Sched

structure CondLog where
  calls : ℕ := 0
  -- the number of the `lthread_cond_wait` that an lthread made last, and its deadline
  since : LtId → ℕ := fun _ => 0
  due : LtId → ℕ := fun _ => 0
  -- the number of the signal or broadcast that has taken it off the list since
  takenBy : LtId → Option ℕ := fun _ => none
  signals : List ℕ := []
  -- the numbers of the signals and broadcasts for which a wait has returned 0
  consumed : List ℕ := []

namespace CondLog

variable (log : CondLog) {l m : ℕ} (d : ℕ)

def wait (log : CondLog) (l : LtId) (deadline : ℕ) : CondLog :=
  { log with
    calls := log.calls + 1
    since := Function.update log.since l log.calls
    due := Function.update log.due l deadline
    takenBy := Function.update log.takenBy l none }

theorem wait_self (l : LtId) :
    (log.wait l d).since l = log.calls ∧ (log.wait l d).due l = d ∧ (log.wait l d).takenBy l = none := by
  simp [wait]

theorem wait_other (h : m ≠ l) : (log.wait l d).since m = log.since m ∧ (log.wait l d).due m = log.due m ∧
    (log.wait l d).takenBy m = log.takenBy m := by
  simp [wait, h]

/-- A signal or broadcast takes some lthreads off the list. -/
def take (log : CondLog) (taken : LtId → Bool) : CondLog :=
  { log with
    calls := log.calls + 1
    takenBy := fun l => if taken l then some log.calls else log.takenBy l }

end CondLog

/-- In `lthread_cond_wait` on a condition variable of the program. -/
def Ctx.waitsUser : Ctx → Bool
  | .condWait (.user _) _ => true
  | _ => false

theorem Ctx.waitsUser_iff {c : Ctx} : c.waitsUser = true ↔ ∃ i t, c = .condWait (.user i) t := by
  constructor
  · intro h
    cases c with
    | condWait i t =>
      cases i with
      | user i => exact ⟨i, t, rfl⟩
      | sel s => cases h
    | _ => cases h
  · rintro ⟨i, t, rfl⟩
    rfl

theorem Ctx.eq_of_cond {c : Ctx} {i t : ℕ} (h : c.cond = some (.user i, t)) : c = .condWait (.user i) t := by
  cases c with
  | condWait j u =>
    obtain ⟨rfl, rfl⟩ := Prod.mk.inj (Option.some_inj.mp h)
    rfl
  | _ => cases h

namespace World

variable {k : Bool} {x x' : World} {l m : LtId} {a : Label} {log : CondLog}

def taken (x x' : World) (c : ℕ) (l : LtId) : Bool :=
  decide (l ∈ x.sched.blocked (.user c) ∧ l ∉ x'.sched.blocked (.user c))

def noteCond (x : World) (a : Label) (x' : World) (log : CondLog) : CondLog :=
  match a, x.cpu, x'.cpu with
  | .call (.condWait _ t), .run l, _ => log.wait l (x.sched.sleepDeadline t)
  | .call (.condSignal c), _, _ => { log.take (taken x x' c) with signals := log.calls :: log.signals }
  | .call (.condBroadcast c), _, _ => log.take (taken x x' c)
  | .sched, .loop, .run l =>
    if (x.sched.lt l).ctx.waitsUser = true ∧ x'.ret l = 0 then
      { log with consumed := log.consumed ++ (log.takenBy l).toList }
    else log
  | _, _, _ => log

def condMachine : Machine (World × CondLog) Label := worldMachine.observe {} noteCond

/-- What the record says about the lists, and about the lthreads that wait. -/
structure Conds (x : World) (log : CondLog) : Prop where
  mem : ∀ l c t, (x.sched.lt l).ctx = .condWait (.user c) t →
    (l ∈ x.sched.blocked (.user c) ↔ log.takenBy l = none)
  order : ∀ c, (x.sched.blocked (.user c)).Pairwise (log.since · < log.since ·)
  past : ∀ c, ∀ l ∈ x.sched.blocked (.user c), log.since l < log.calls
  due : ∀ l c t, (x.sched.lt l).ctx = .condWait (.user c) t → l ∈ x.sched.sleeping →
    (x.sched.lt l).sleepUsecs = log.due l
  known : (∀ n ∈ log.signals, n < log.calls) ∧ (∀ n ∈ log.consumed, n < log.calls) ∧
    ∀ l n, log.takenBy l = some n → n < log.calls
  one : ∀ n ∈ log.signals, ∀ l m, (x.sched.lt l).ctx.waitsUser = true → (x.sched.lt m).ctx.waitsUser = true →
    log.takenBy l = some n → log.takenBy m = some n → l = m
  spent : ∀ n ∈ log.signals, n ∈ log.consumed → ∀ l, (x.sched.lt l).ctx.waitsUser = true → log.takenBy l ≠ some n
  once : ∀ n ∈ log.signals, log.consumed.count n ≤ 1

theorem WaitKept.waitsUser (h : WaitKept x x' m) : (x'.sched.lt m).ctx.waitsUser = (x.sched.lt m).ctx.waitsUser := by
  rw [Bool.eq_iff_iff, Ctx.waitsUser_iff, Ctx.waitsUser_iff]
  exact exists_congr fun c => exists_congr fun t => h c t

namespace Conds

theorem start (birth : ℕ) (capacity : ChanId → ℕ) (n : ℕ) : Conds (start birth capacity n) {} where
  mem l c t h := by cases h
  order c := List.Pairwise.nil
  past c l h := by cases h
  due l c t h := by cases h
  known := ⟨nofun, nofun, nofun⟩
  one := nofun
  spent := nofun
  once := nofun

theorem waits_of_mem (hi : x.Inv false) {c : ℕ} (hl : l ∈ x.sched.blocked (.user c)) :
    ∃ t, (x.sched.lt l).ctx = .condWait (.user c) t := by
  have hb : (x.seat l).cnt.blocked (.user c) ≠ 0 := count_ne_zero hl
  obtain ⟨t, ht, -⟩ := (hi.plain_row l).of_blocked hb
  exact ⟨t, Ctx.eq_of_cond ht⟩

theorem running_notMem (hi : x.Inv false) (hcpu : x.cpu = .run l) (c : ℕ) : l ∉ x.sched.blocked (.user c) := by
  intro hl
  obtain ⟨t, ht⟩ := waits_of_mem hi hl
  rw [hi.ctx_of_run hcpu] at ht; cases ht

theorem due_kept (h : Conds x log) (hi : x.Inv false) (hi' : x'.Inv false) (hx : x.step a = .ok x')
    (hm : WaitKept x x' m) (c t : ℕ) (hctx : (x'.sched.lt m).ctx = .condWait (.user c) t)
    (hs : m ∈ x'.sched.sleeping) : (x'.sched.lt m).sleepUsecs = log.due m := by
  have hold := (hm c t).mp hctx
  rcases hi.sleeper_step hi' hx hs with ⟨h1, h2⟩ | ⟨op, -, hcpu, -⟩
  · rw [h2]
    exact h.due m c t hold h1
  · rw [hi.ctx_of_run hcpu] at hold; cases hold

theorem wait (h : Conds x log) (hi : x.Inv false) (hi' : x'.Inv false) {c t : ℕ}
    (hs : x.step (.call (.condWait c t)) = .ok x') (hcpu : x.cpu = .run l)
    (hx : x' = x.suspend l fun s => (s.lthreadCondWait l (.user c) t).setCtx l (.condWait (.user c) t))
    (others : ∀ m ≠ l, WaitKept x x' m) : Conds x' (log.wait l (x.sched.sleepDeadline t)) := by
  have hctx : (x'.sched.lt l).ctx = .condWait (.user c) t := by
    rw [hx, suspend_sched, Sched.setCtx, modify_lt, if_pos rfl]
  have hc : x'.sched.blocked (.user c) = x.sched.blocked (.user c) ++ [l] := by
    rw [hx, suspend_sched, setCtx_blocked, lthreadCondWait_blocked, Function.update_self]
  have hne {i : ℕ} (hi : i ≠ c) : x'.sched.blocked (.user i) = x.sched.blocked (.user i) := by
    rw [hx, suspend_sched, setCtx_blocked, lthreadCondWait_blocked, Function.update_of_ne (by simpa using hi)]
  have hout {m : LtId} {i : ℕ} (hm : m ∈ x.sched.blocked (.user i)) : m ≠ l := by
    rintro rfl
    exact running_notMem hi hcpu i hm
  have hold {m : LtId} {i : ℕ} (hm : m ∈ x'.sched.blocked (.user i)) (hml : m ≠ l) : m ∈ x.sched.blocked (.user i) := by
    by_cases hic : i = c
    · rw [hic, hc] at hm
      rw [hic]
      simpa [hml] using hm
    · rwa [hne hic] at hm
  have hself := log.wait_self (x.sched.sleepDeadline t) l
  have hother {m : LtId} (hm : m ≠ l) := log.wait_other (x.sched.sleepDeadline t) hm
  -- one of the two is not `l`, as `l` has not been taken off
  have htaken {m n : ℕ} (hm : (log.wait l (x.sched.sleepDeadline t)).takenBy m = some n) :
      m ≠ l ∧ log.takenBy m = some n := by
    have hml : m ≠ l := by
      rintro rfl
      rw [hself.2.2] at hm; cases hm
    rw [(hother hml).2.2] at hm
    exact ⟨hml, hm⟩
  refine ⟨fun m i u hm => ?_, fun i => ?_, fun i m hm => ?_, fun m i u hm hsl => ?_,
    ⟨fun n hn => Nat.lt_succ_of_lt (h.known.1 n hn), fun n hn => Nat.lt_succ_of_lt (h.known.2.1 n hn),
      fun m n hn => Nat.lt_succ_of_lt (h.known.2.2 m n (htaken hn).2)⟩,
    fun n hn m m' hw hw' hm hm' => ?_, fun n hn hsp m hw hm => ?_, h.once⟩
  · by_cases hml : m = l
    · subst hml
      rw [hctx] at hm
      obtain ⟨rfl, -⟩ : c = i ∧ t = u := by simpa using hm
      simp [hc, hself]
    · rw [(hother hml).2.2, ← h.mem m i u ((others m hml i u).mp hm)]
      refine ⟨fun h0 => hold h0 hml, fun h0 => ?_⟩
      by_cases hic : i = c
      · rw [hic] at h0 ⊢
        simp [hc, h0]
      · rwa [hne hic]
  · have hpair : (x.sched.blocked (.user i)).Pairwise
        ((log.wait l (x.sched.sleepDeadline t)).since · < (log.wait l (x.sched.sleepDeadline t)).since ·) := by
      refine (h.order i).imp_of_mem fun {a b} ha hb hab => ?_
      rw [(hother (hout ha)).1, (hother (hout hb)).1]
      exact hab
    by_cases hic : i = c
    · subst hic
      rw [hc]
      refine List.pairwise_append.mpr ⟨hpair, List.pairwise_singleton _ _, fun m hm b hb => ?_⟩
      rw [List.mem_singleton.mp hb, hself.1, (hother (hout hm)).1]
      exact h.past i m hm
    · rwa [hne hic]
  · by_cases hml : m = l
    · rw [hml, hself.1]
      exact Nat.lt_succ_self _
    · rw [(hother hml).1]
      exact Nat.lt_succ_of_lt (h.past i m (hold hm hml))
  · by_cases hml : m = l
    · subst hml
      rw [hself.2.1]
      rcases hi.sleeper_step hi' hs hsl with ⟨h1, -⟩ | ⟨op, hop, -, -, hd⟩
      · exact absurd h1 (hi.not_asleep hcpu)
      · rw [hd, ← Label.call.inj hop]
        rfl
    · rw [(hother hml).2.1]
      exact h.due_kept hi hi' hs (others m hml) i u hm hsl
  · obtain ⟨hml, hold⟩ := htaken hm
    obtain ⟨hml', hold'⟩ := htaken hm'
    exact h.one n hn m m' ((others m hml).waitsUser ▸ hw) ((others m' hml').waitsUser ▸ hw') hold hold'
  · obtain ⟨hml, hold⟩ := htaken hm
    exact h.spent n hn hsp m ((others m hml).waitsUser ▸ hw) hold

theorem take (h : Conds x log) (hi : x.Inv false) (hi' : x'.Inv false) (hs : x.step a = .ok x') {c : ℕ}
    {q rest : List LtId} (hq : x.sched.blocked (.user c) = q ++ rest) (hc : x'.sched.blocked (.user c) = rest)
    (hne : ∀ i ≠ c, x'.sched.blocked (.user i) = x.sched.blocked (.user i)) (others : ∀ m, WaitKept x x' m) :
    Conds x' (log.take (taken x x' c)) := by
  have hsub {i : ℕ} : (x'.sched.blocked (.user i)).Sublist (x.sched.blocked (.user i)) := by
    by_cases hic : i = c
    · rw [hic, hc, hq]
      exact List.sublist_append_right _ _
    · rw [hne i hic]
  have htake (m : LtId) : (log.take (taken x x' c)).takenBy m =
      if m ∈ x.sched.blocked (.user c) ∧ m ∉ x'.sched.blocked (.user c) then some log.calls else log.takenBy m := by
    simp [CondLog.take, taken]
  have hold {m n : ℕ} (hn : n < log.calls) (hm : (log.take (taken x x' c)).takenBy m = some n) :
      log.takenBy m = some n := by
    rw [htake] at hm
    split_ifs at hm
    · exact absurd (Option.some_inj.mp hm) (Nat.ne_of_gt hn)
    · exact hm
  refine ⟨fun m i u hm => ?_, fun i => (h.order i).sublist hsub,
    fun i m hm => Nat.lt_succ_of_lt (h.past i m (hsub.subset hm)),
    fun m i u hm hsl => h.due_kept hi hi' hs (others m) i u hm hsl,
    ⟨fun n hn => Nat.lt_succ_of_lt (h.known.1 n hn), fun n hn => Nat.lt_succ_of_lt (h.known.2.1 n hn), fun m n hn => ?_⟩,
    fun n hn m m' hw hw' hm hm' => ?_, fun n hn hsp m hw hm => ?_, h.once⟩
  · have hmem := h.mem m i u ((others m i u).mp hm)
    rw [htake]
    by_cases hic : i = c
    · subst hic
      split_ifs with htk
      · simp [htk.2]
      · rw [← hmem]
        exact ⟨fun h0 => hsub.subset h0, fun h0 => by_contra fun h1 => htk ⟨h0, h1⟩⟩
    · rw [hne i hic, hmem, if_neg]
      rintro ⟨h0, -⟩
      obtain ⟨t, ht⟩ := waits_of_mem hi h0
      rw [(others m i u).mp hm] at ht
      simp only [Ctx.condWait.injEq, CondId.user.injEq] at ht
      exact hic ht.1
  · rw [htake] at hn
    split_ifs at hn
    · rw [← Option.some_inj.mp hn]
      exact Nat.lt_succ_self _
    · exact Nat.lt_succ_of_lt (h.known.2.2 m n hn)
  · have hlt := h.known.1 n hn
    exact h.one n hn m m' ((others m).waitsUser ▸ hw) ((others m').waitsUser ▸ hw') (hold hlt hm) (hold hlt hm')
  · exact h.spent n hn hsp m ((others m).waitsUser ▸ hw) (hold (h.known.1 n hn) hm)

theorem signals {n : ℕ} (h : Conds x log) (hn : n < log.calls) (hnew : n ∉ log.consumed)
    (hone : ∀ l m, log.takenBy l = some n → log.takenBy m = some n → l = m) :
    Conds x { log with signals := n :: log.signals } := by
  refine ⟨h.mem, h.order, h.past, h.due, ⟨fun i hi => ?_, h.known.2⟩, fun i hi l m hl hm => ?_,
    fun i hi hsp l hl => ?_, fun i hi => ?_⟩
  · rcases List.mem_cons.mp hi with rfl | hi
    · exact hn
    · exact h.known.1 i hi
  · rcases List.mem_cons.mp hi with rfl | hi
    · exact hone l m
    · exact h.one i hi l m hl hm
  · rcases List.mem_cons.mp hi with rfl | hi
    · exact absurd hsp hnew
    · exact h.spent i hi hsp l hl
  · rcases List.mem_cons.mp hi with rfl | hi
    · exact (List.count_eq_zero.mpr hnew).le.trans (Nat.zero_le 1)
    · exact h.once i hi

theorem signal_list {c : ℕ} (heq : x' = x.onSched (·.lthreadCondSignal (.user c))) :
    ∃ q rest, q.length ≤ 1 ∧ x.sched.blocked (.user c) = q ++ rest ∧ x'.sched.blocked (.user c) = rest ∧
      x'.sched.ready = x.sched.ready ++ q ∧
      ∀ i ≠ c, x'.sched.blocked (.user i) = x.sched.blocked (.user i) := by
  subst heq
  rw [onSched_sched]
  cases hb : x.sched.blocked (.user c) with
  | nil =>
    rw [lthreadCondSignal_nil _ _ hb]
    exact ⟨[], [], Nat.zero_le 1, rfl, hb, (List.append_nil _).symm, fun _ _ => rfl⟩
  | cons l rest =>
    have hs := lthreadCondSignal_cons _ _ _ hb
    refine ⟨[l], rest, le_rfl, rfl, ?_, hs.ready, fun i hic => ?_⟩
    · rw [hs.blocked, Function.update_self]
    · rw [hs.blocked, Function.update_of_ne (by simpa using hic)]

theorem signal (h : Conds x log) (hi : x.Inv false) (hi' : x'.Inv false) {c : ℕ}
    (hs : x.step (.call (.condSignal c)) = .ok x') (heq : x' = x.onSched (·.lthreadCondSignal (.user c)))
    (others : ∀ m, WaitKept x x' m) : Conds x' (noteCond x (.call (.condSignal c)) x' log) := by
  obtain ⟨q, rest, hlen, hq, hc, -, hne⟩ := signal_list heq
  have htake := h.take hi hi' hs hq hc hne others
  have hmem {m : LtId} (hm : (log.take (taken x x' c)).takenBy m = some log.calls) : m ∈ q := by
    by_cases htk : m ∈ x.sched.blocked (.user c) ∧ m ∉ x'.sched.blocked (.user c)
    · rw [hq, hc] at htk
      exact (List.mem_append.mp htk.1).resolve_right htk.2
    · have hm' : log.takenBy m = some log.calls := by simpa [CondLog.take, taken, htk] using hm
      exact absurd (h.known.2.2 m _ hm') (lt_irrefl _)
  refine htake.signals (Nat.lt_succ_self _) (fun h0 => absurd (h.known.2.1 _ h0) (lt_irrefl _)) fun l m hl hm => ?_
  obtain ⟨i, rfl⟩ | rfl : (∃ i, q = [i]) ∨ q = [] := by
    rcases q with _ | ⟨i, _ | ⟨j, q⟩⟩
    · exact Or.inr rfl
    · exact Or.inl ⟨i, rfl⟩
    · simp at hlen
  · rw [List.mem_singleton.mp (hmem hl), List.mem_singleton.mp (hmem hm)]
  · cases hmem hl

theorem ne_of_waits (hi' : x'.Inv false) (hcpu' : x'.cpu = .run l) (hm : (x'.sched.lt m).ctx.waitsUser = true) :
    m ≠ l := by
  rintro rfl
  rw [hi'.ctx_of_run hcpu'] at hm; cases hm

/-- What a step keeps that takes nobody off a list for good: the others wait on. -/
theorem stay (h : Conds x log) (hi : x.Inv false) (hi' : x'.Inv false) (hs : x.step a = .ok x')
    (hw : ∀ m, (x'.sched.lt m).ctx.waitsUser = true → WaitKept x x' m)
    (hsub : ∀ i, (x'.sched.blocked (.user i)).Sublist (x.sched.blocked (.user i)))
    (hmem : ∀ m i u, (x'.sched.lt m).ctx = .condWait (.user i) u → m ∈ x.sched.blocked (.user i) →
      m ∈ x'.sched.blocked (.user i)) : Conds x' log := by
  have hwu {m : LtId} (hm : (x'.sched.lt m).ctx.waitsUser = true) : (x.sched.lt m).ctx.waitsUser = true :=
    (hw m hm).waitsUser ▸ hm
  refine ⟨fun m i u hm => ?_, fun i => (h.order i).sublist (hsub i), fun i m hm => h.past i m ((hsub i).subset hm),
    fun m i u hm hsl => h.due_kept hi hi' hs (hw m (Ctx.waitsUser_iff.mpr ⟨i, u, hm⟩)) i u hm hsl, h.known,
    fun n hn m m' hm hm' => h.one n hn m m' (hwu hm) (hwu hm'), fun n hn hsp m hm => h.spent n hn hsp m (hwu hm),
    h.once⟩
  have hold := (hw m (Ctx.waitsUser_iff.mpr ⟨i, u, hm⟩) i u).mp hm
  rw [← h.mem m i u hold]
  exact ⟨fun h0 => (hsub i).subset h0, hmem m i u hm⟩

theorem back (h : Conds x log) (hi : x.Inv false) (hi' : x'.Inv false) {c t : ℕ} (hs : x.step .sched = .ok x')
    (hcpu : x.cpu = .loop) (hcpu' : x'.cpu = .run l) (hctx : (x.sched.lt l).ctx = .condWait (.user c) t)
    (hback : Expires x x' l c ∨ Wakes x x' l c) (others : ∀ m ≠ l, WaitKept x x' m) :
    Conds x' (noteCond x .sched x' log) := by
  have hwaits : (x.sched.lt l).ctx.waitsUser = true := Ctx.waitsUser_iff.mpr ⟨c, t, hctx⟩
  have hne {m : LtId} (hm : (x'.sched.lt m).ctx.waitsUser = true) : m ≠ l := ne_of_waits hi' hcpu' hm
  have hnote : noteCond x .sched x' log = if x'.ret l = 0 then
      { log with consumed := log.consumed ++ (log.takenBy l).toList } else log := by
    simp only [noteCond, hcpu, hcpu', hwaits, true_and]
  have hw (m : LtId) (hm : (x'.sched.lt m).ctx.waitsUser = true) : WaitKept x x' m := others m (hne hm)
  rcases hback with he | hk
  · rw [hnote, he.ret, if_neg (by simp)]
    refine h.stay hi hi' hs hw (fun i => ?_) fun m i u hm hold => ?_
    · by_cases hic : i = c
      · rw [hic, he.list]
        exact List.erase_sublist
      · rw [he.lists i hic]
    · by_cases hic : i = c
      · rw [hic] at hold ⊢
        rw [he.list]
        exact (List.mem_erase_of_ne (hne (Ctx.waitsUser_iff.mpr ⟨i, u, hm⟩))).mpr hold
      · rwa [he.lists i hic]
  · have hstay : Conds x' log := h.stay hi hi' hs hw (fun i => by rw [hk.lists i]) fun m i u _ hold => by
      rwa [hk.lists i]
    rw [hnote, hk.ret, if_pos rfl]
    -- the wait returns for the call that took its lthread off the list
    have hsome : log.takenBy l ≠ none := fun h0 => hk.mem ((h.mem l c t hctx).mpr h0)
    obtain ⟨n, hn⟩ := Option.ne_none_iff_exists'.mp hsome
    rw [hn, Option.toList_some]
    refine ⟨hstay.mem, hstay.order, hstay.past, hstay.due, ⟨hstay.known.1, fun i hi => ?_, hstay.known.2.2⟩, hstay.one,
      fun i hi hsp m hm hmi => ?_, fun i hi => ?_⟩
    · rcases List.mem_append.mp hi with hi | hi
      · exact hstay.known.2.1 i hi
      · rw [List.mem_singleton.mp hi]
        exact h.known.2.2 l n hn
    · rcases List.mem_append.mp hsp with hsp | hsp
      · exact hstay.spent i hi hsp m hm hmi
      · rw [List.mem_singleton.mp hsp] at hi hmi
        exact hne hm (h.one n hi m l ((hw m hm).waitsUser ▸ hm) hwaits hmi hn)
    · rw [List.count_append]
      by_cases hin : i = n
      · subst hin
        have hzero : log.consumed.count i = 0 :=
          List.count_eq_zero.mpr fun hsp => h.spent i hi hsp l hwaits hn
        simp [hzero]
      · rw [List.count_singleton, if_neg (by simpa using Ne.symm hin)]
        exact h.once i hi

theorem other (h : Conds x log) (hi : x.Inv false) (hi' : x'.Inv false) (hs : x.step a = .ok x')
    (ha : ∀ op, a = .call op → op.onCond = none) (lists : ListsKept x.sched x'.sched)
    (others : ∀ m, WaitKept x x' m) : Conds x' (noteCond x a x' log) := by
  have hnote : noteCond x a x' log = log := by
    unfold noteCond
    split
    · cases ha _ rfl
    · cases ha _ rfl
    · cases ha _ rfl
    · next l _ hcpu' =>
      rw [if_neg]
      rintro ⟨hw, -⟩
      rw [← (others l).waitsUser] at hw
      exact ne_of_waits hi' hcpu' hw rfl
    · rfl
  rw [hnote]
  exact h.stay hi hi' hs (fun m _ => others m) (fun i => by rw [lists i]) fun m i u _ hold => by rwa [lists i]

theorem step (h : Conds x log) (hi : x.Inv false) (hok : stepOk false x a) (hx : x.step a = .ok x') :
    Conds x' (noteCond x a x' log) := by
  have hi' : x'.Inv false := hi.step hok hx
  cases hi.cond_step hok hx with
  | @wait l c t ha hcpu heq others =>
    subst ha
    have hnote : noteCond x (.call (.condWait c t)) x' log = log.wait l (x.sched.sleepDeadline t) := by
      simp only [noteCond, hcpu]
    rw [hnote]
    exact h.wait hi hi' hx hcpu heq others
  | @signal c ha heq others =>
    subst ha
    exact h.signal hi hi' hx heq others
  | @broadcast c ha heq others =>
    subst ha
    obtain ⟨-, hb⟩ := lthreadCondBroadcast_eq x.sched (.user c)
    have hb' : x'.sched.blocked = Function.update x.sched.blocked (.user c) [] := by rw [heq]; exact hb
    exact h.take hi hi' hx (List.append_nil _).symm (by rw [hb', Function.update_self])
      (fun i hic => by rw [hb', Function.update_of_ne (by simpa using hic)]) others
  | @back l c t ha hcpu hcpu' hctx hback others =>
    subst ha
    exact h.back hi hi' hx hcpu hcpu' hctx hback others
  | other ha lists others => exact h.other hi hi' hx ha lists others

theorem reachable {p : World × CondLog} (h : condMachine.Reachable (fun q a => q.1.undisturbed a) p) :
    Conds p.1 p.2 := by
  refine Machine.Reachable.invariant_of (P := fun p => Conds p.1 p.2) ?_ ?_ h
  · rintro ⟨x, log⟩ ⟨⟨birth, capacity, n, hx⟩, hlog⟩
    obtain rfl : log = {} := hlog
    obtain rfl : x = World.start birth capacity n := hx
    exact start birth capacity n
  · rintro q a q' hr hq hok ⟨hs, hlog⟩
    rw [hlog]
    exact hq.step (Inv.of_undisturbed (Machine.Reachable.of_observe hr)) (undisturbed_stepOk q.1 a hok) hs

theorem returns (h : Conds x log) (hi : x.Inv false) (hok : stepOk false x a) (hx : x.step a = .ok x') {c t : ℕ}
    (hctx : (x.sched.lt l).ctx = .condWait (.user c) t) (hctx' : (x'.sched.lt l).ctx ≠ .condWait (.user c) t) :
    x'.cpu = .run l ∧ (x'.ret l = 0 ∨ x'.ret l = -2) ∧ (x'.ret l = 0 ↔ log.takenBy l ≠ none) ∧
      (x'.ret l = -2 ↔ log.takenBy l = none ∧ t ≠ 0 ∧ ∃ τ, x.phase = .expired τ ∧ log.due l ≤ τ) := by
  have hmoved : ¬ WaitKept x x' l := fun hk => hctx' ((hk c t).mpr hctx)
  cases hi.cond_step hok hx with
  | @wait m c' t' ha hcpu heq others =>
    by_cases hlm : l = m
    · rw [hlm, hi.ctx_of_run hcpu] at hctx; cases hctx
    · exact absurd (others l hlm) hmoved
  | signal ha heq others => exact absurd (others l) hmoved
  | broadcast ha heq others => exact absurd (others l) hmoved
  | other ha lists others => exact absurd (others l) hmoved
  | @back m c' t' ha hcpu hcpu' hctxm hback others =>
    obtain rfl : l = m := by_contra fun hlm => hmoved (others l hlm)
    obtain ⟨rfl, rfl⟩ : c' = c ∧ t' = t := by
      rw [hctxm] at hctx
      simpa using hctx
    refine ⟨hcpu', ?_⟩
    rcases hback with he | hk
    · have hnone := (h.mem l c' t' hctx).mp he.mem
      have ht : t' ≠ 0 := by
        rintro rfl
        obtain ⟨u, hu, hcnt⟩ := (hi.plain_row l).of_blocked (count_ne_zero he.mem)
        have hs : (x.seat l).cnt.sleeping ≠ 0 := count_ne_zero he.asleep
        rw [hctx] at hu
        obtain ⟨-, rfl⟩ := Prod.mk.inj (Option.some_inj.mp hu)
        rw [hcnt rfl] at hs
        exact hs rfl
      obtain ⟨τ, hτ, hd⟩ := he.phase
      rw [h.due l c' t' hctx he.asleep] at hd
      rw [he.ret]
      exact ⟨Or.inr rfl, by simp [hnone], by simpa using ⟨hnone, ht, τ, hτ, hd⟩⟩
    · have hsome : log.takenBy l ≠ none := fun h0 => hk.mem ((h.mem l c' t' hctx).mpr h0)
      rw [hk.ret]
      exact ⟨Or.inl rfl, by simp [hsome], by simp [hsome]⟩

end Conds

end World
end Lthr

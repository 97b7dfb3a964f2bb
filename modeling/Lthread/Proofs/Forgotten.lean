import Lthread.Proofs.CancelClean
import Lthread.Proofs.ChanWorld

/-! Nothing refers to an lthread that has been dropped, nor to one that has been freed: no blocked list,
no entry in the queue of a channel, no `lt_join`, none of the queues and trees of the
scheduler. A signal, a hand-over or an exit therefore never reaches it. -/

namespace Lthr
namespace World

open Seat

variable {k : Bool} {x x' z : World} {a : Label} {l m : LtId}

structure Forgotten (x : World) (l : LtId) : Prop where
  blocked : ∀ c, l ∉ x.sched.blocked c
  -- an entry belongs to a call of another lthread, which it will wake
  entry : ∀ c side, ∀ w ∈ (x.sys.ch.chan c).waitq side,
    ∃ m t, m ≠ l ∧ (x.sched.lt m).ctx = .selWait w.sel t ∧ x.sched.blocked (.sel w.sel) = [m]
  ltJoin : ∀ m, (x.sched.lt m).freed = false → (x.sched.lt m).ltJoin ≠ some l
  queues : l ∉ x.sched.ready ∧ l ∉ x.sched.sleeping ∧ l ∉ x.sched.waiting ∧ l ∉ x.sched.busy

/-- Such an lthread is in no queue, and in no call that registers it with somebody else. -/
theorem Forgotten.of_counts (h : worldMachine.Reachable (stepOk k) x) (hn : (x.seat l).cnt = {})
    (hx : (x.sched.lt l).ctx = .exited ∨ (x.sched.lt l).ctx.severable = true) : x.Forgotten l := by
  have hi : x.Inv k := Inv.reachable h
  refine ⟨fun c hc => ?_, fun c side w hw => ?_, fun m hf hj => ?_, fun hr => ?_, fun hr => ?_, fun hr => ?_, fun hr => ?_⟩
  · exact count_ne_zero hc (congrFun (congrArg Counts.blocked hn) c)
  · obtain ⟨m, t, hm, hb⟩ := entry_user h hw
    refine ⟨m, t, ?_, hm, hb⟩
    rintro rfl
    rcases hx with hx | hx <;> rw [hm] at hx <;> cases hx
  · obtain ⟨⟨t, ht⟩, -⟩ := hi.seated.links.join m l hj hf
    replace ht : (x.sched.lt l).ctx = .joining m t := ht
    rcases hx with hx | hx <;> rw [ht] at hx <;> cases hx
  · exact count_ne_zero hr (congrArg Counts.ready hn)
  · exact count_ne_zero hr (congrArg Counts.sleeping hn)
  · exact count_ne_zero hr (congrArg Counts.waiting hn)
  · exact count_ne_zero hr (congrArg Counts.busy hn)

/-! The runs -/

theorem clean_live (h : worldMachine.Reachable cancelsClean x) : worldMachine.Reachable cancelsLive x := by
  refine Machine.Reachable.invariant_of (P := fun y => worldMachine.Reachable cancelsLive y)
    (fun y hy => Machine.Reachable.start hy) (fun y a y' hy hP hok hs => hP.next ⟨hok.1, ?_⟩ hs) h
  split
  · next target =>
    refine Bool.eq_false_iff.mpr fun hd => ?_
    have hc : y.sched.has target .cancelled = true := (cancelledOnce_reachable hy target).dropped hd
    rw [(hok.2.2.1 target rfl).2.2.1] at hc; cases hc
  · trivial

theorem dropped_counts (h : worldMachine.Reachable cancelsClean x) (hd : x.dropped l = true) :
    (x.seat l).cnt = {} ∧ (x.sched.lt l).ctx.severable = true := by
  have hT := cancelledOnce_reachable h l
  have hc := hT.dropped hd
  have hcome := droppedUnserved_reachable (clean_live h) l
  obtain ⟨-, hio, hcomp, htak, hdef⟩ := hcome.dropped hd
  refine ⟨?_, hT.severable hc⟩
  have hi : x.Inv true := Inv.reachable (h.mono fun _ _ h => h.1)
  have hrow := hi.row l
  rw [show x.sched.has l .cancelled = true from hc] at hrow
  rcases hrow.of_cancelled hio hcomp htak hdef with ⟨-, hn⟩ | ⟨⟨j, hx⟩, hn⟩ | ⟨hidle, -⟩
  · exact hn
  · rw [hn, hcome.ready j hx]
  · rw [hT.cnt hc hidle, hd]
    rfl

theorem freed_counts (h : worldMachine.Reachable cancelsClean x) (hf : (x.sched.lt l).freed = true) :
    (x.seat l).cnt = {} ∧
      ((x.sched.lt l).ctx = .exited ∧ x.sched.has l .cancelled = false ∨ x.dropped l = true) := by
  have hs := h.mono fun _ _ h => h.1
  have hi : x.Inv true := Inv.reachable hs
  have hexit (hx : (x.sched.lt l).ctx = .exited) : (x.seat l).cnt = {} ∧ x.sched.has l .cancelled = false := by
    have hc : x.sched.has l .cancelled = false := (cancelledOnce_reachable h l).not_cancelled (by
      rw [show (x.seat l).lt.ctx = .exited from hx]
      rfl)
    have hrow := hi.row l
    rw [hc, hx] at hrow
    exact ⟨hrow.of_exited, hc⟩
  by_cases hl : l < x.sched.spawned
  · rcases (woken_reachable hs).freed l hl hf with hd | ⟨hx, -⟩
    · exact ⟨(dropped_counts h hd).1, Or.inr hd⟩
    · exact ⟨(hexit hx).1, Or.inl ⟨hx, (hexit hx).2⟩⟩
  · obtain ⟨hx, -⟩ := hi.seated.links.fresh l (not_lt.mp hl)
    exact ⟨(hexit hx).1, Or.inl ⟨hx, (hexit hx).2⟩⟩

theorem forgotten_reachable (h : worldMachine.Reachable cancelsClean x)
    (hl : x.dropped l = true ∨ (x.sched.lt l).freed = true) : x.Forgotten l := by
  have hs := h.mono fun _ _ h => h.1
  rcases hl with hd | hf
  · obtain ⟨hn, hsev⟩ := dropped_counts h hd
    exact Forgotten.of_counts hs hn (Or.inr hsev)
  · obtain ⟨hn, ⟨hx, -⟩ | hd⟩ := freed_counts h hf
    · exact Forgotten.of_counts hs hn (Or.inl hx)
    · exact Forgotten.of_counts hs hn (Or.inr (dropped_counts h hd).2)

theorem clean_claimed (h : worldMachine.Reachable cancelsClean x) : x.board.Claimed := by
  refine claimed_reachable (k := true) (fun _ _ h => ⟨h.1, h.2.1⟩) (fun y hy j l t hx => ?_) h
  refine (cancelledOnce_reachable hy j).not_cancelled ?_
  rw [show (y.seat j).lt.ctx = .joining l t from hx]
  rfl

theorem dropped_not_handed (h : worldMachine.Reachable cancelsClean x) (hd : x.dropped l = true) : ¬ x.Handed l := by
  refine Machine.Reachable.invariant_of (P := fun y : World => ∀ l, y.dropped l = true → ¬ y.Handed l) ?_ ?_ h l hd
  · rintro y ⟨birth, capacity, n, rfl⟩ l hd
    cases hd
  · intro y a y' hy hP hok hs l hd' hh'
    by_cases hd : y.dropped l = true
    · exact hP l hd (hh'.before hs ((droppedUnserved_reachable (clean_live hy) l).dropped hd).2)
    · have hdrops := (Inv.reachable (hy.mono fun _ _ h => h.1)).step_drops hs (Bool.eq_false_iff.mpr hd) hd'
      refine hok.2.2.2.2 l hdrops ?_
      -- the step is one of the scheduler
      rcases step_hands hs hh' with h0 | ⟨w, rfl, -⟩ | ⟨j, rfl, -⟩
      · exact h0
      · cases hdrops
      · cases hdrops

theorem cpu_spawned (h : worldMachine.Reachable (stepOk k) x) (hon : x.cpu.on = some l) : l < x.sched.spawned := by
  refine board_invariant (P := fun b => ∀ m, b.cpu.on = some m → m < b.spawned) (fun _ _ h => h)
    (fun _ _ _ => nofun) ?_ h l hon
  intro y a b b' hok ht hb hb' hP
  exact ht.on_spawned hb hP

theorem on_not_dropped (h : worldMachine.Reachable cancelsClean x) (hon : x.cpu.on = some l) : x.dropped l = false := by
  refine Machine.Reachable.invariant_of (P := fun y : World => ∀ l, y.cpu.on = some l → y.dropped l = false) ?_ ?_ h l hon
  · rintro y ⟨birth, capacity, n, rfl⟩ l hon
    cases hon
  · intro y a y' hy hP hok hs
    have hi : y.Inv true := Inv.reachable (hy.mono fun _ _ h => h.1)
    refine (Turns.preserves (P := fun b => (∀ m, a.cancels ≠ some m → (b.seat m).CancelledOnce (b.dropped m)) ∧
      ∀ l, b.cpu.on = some l → b.dropped l = false) (made_cancel hok.1) ?_ (step_turns hi hok.1 hs) hi.seated
      ⟨fun m _ => cancelledOnce_reachable hy m, hP⟩).2
    rintro b b' ht hb hb' ⟨hT, hP⟩
    refine ⟨ht.keeps_cancelledOnce (fun m hr => made_clean hok hr) (fun m hr => made_uncancelled hok hr) hb hb' hT, fun l hon => ?_⟩
    refine ht.on_live (c := a.cancels) (fun m hr => ?_) hT hP hon
    obtain ⟨rfl, -⟩ := made_resume hr
    rfl

/-! Faults -/

theorem finds_counts {t : Take} {v : Seat} (h : t.Finds v) : v.cnt ≠ {} := by
  intro hn
  cases t with
  | ready => exact h (congrArg Counts.ready hn)
  | defer => exact h (congrArg Counts.defer hn)
  | event eof => exact h (congrArg Counts.waiting hn)
  | expired w => exact h.1 (congrArg Counts.sleeping hn)

theorem Taken.keeps (h : x.Inv k) (ht : Taken x l z) (m : LtId) :
    (z.sched.lt m).freed = (x.sched.lt m).freed ∧ (z.sched.lt m).ltJoin = (x.sched.lt m).ltJoin ∧
      (z.sched.lt m).ctx = (x.sched.lt m).ctx := by
  obtain ⟨t, hfind, hacts⟩ := ht.acts h.seated
  refine hacts.all (P := fun i v => v.lt.freed = (x.sched.lt i).freed ∧ v.lt.ltJoin = (x.sched.lt i).ltJoin ∧
    v.lt.ctx = (x.sched.lt i).ctx) (fun _ _ => ⟨rfl, rfl, rfl⟩) ?_ m
  obtain ⟨hk, hctx⟩ := take_keeps hfind
  exact ⟨hk.freed, hk.ltJoin, hctx⟩

theorem joiner_lives (h : worldMachine.Reachable cancelsClean x) (hf : (x.sched.lt l).freed = false)
    (hj : (x.sched.lt l).ltJoin = some m) : (x.sched.lt m).freed = false := by
  refine Bool.eq_false_iff.mpr fun hfm => ?_
  exact (forgotten_reachable h (Or.inr hfm)).ltJoin l hf hj

theorem freed_fault (h : worldMachine.Reachable cancelsClean x) (hx : x.step a = .error (.freed m)) :
    (∃ op, a = .call op ∧ op.argument = some m) ∨ x.sched.has m .cancelled = false ∧ x.Handed m := by
  have hs := h.mono fun _ _ h => h.1
  have hi : x.Inv true := Inv.reachable hs
  -- a worker that has not handed the lthread back counts
  have hworker (hf : (x.sched.lt m).freed = true) (hh : x.Handed m) : x.sched.has m .cancelled = false := by
    obtain ⟨-, ⟨-, hc⟩ | hd⟩ := freed_counts h hf
    · exact hc
    · exact absurd hh (dropped_not_handed h hd)
  have hserved (hf : (x.sched.lt m).freed = true) : (x.seat m).Unserved := by
    unfold Unserved
    rw [(freed_counts h hf).1]
    exact ⟨rfl, rfl, rfl, rfl⟩
  cases step_error rfl hx with
  | @loop l z _ hcpu ht hz =>
    cases hz with
    | freed hf =>
      rw [(ht.keeps hi m).1] at hf
      obtain ⟨t, hfind, -⟩ := ht.acts hi.seated
      exact absurd (freed_counts h hf).1 (finds_counts hfind)
    | joiner hf hc hj hfj =>
      rw [(ht.keeps hi l).1] at hf
      rw [(ht.keeps hi l).2.1] at hj
      rw [(ht.keeps hi m).1, joiner_lives h hf hj] at hfj
      cases hfj
    | target hc hctx hf =>
      rw [(ht.keeps hi l).2.2] at hctx
      have hlive : (x.sched.lt m).freed = false := (clean_claimed h).freed l m _ hctx
      rw [(ht.keeps hi m).1, hlive] at hf
      cases hf
  | back hcpu hf =>
    have hon : x.cpu.on = some m := by rw [hcpu]; rfl
    rcases (woken_reachable hs).freed m (cpu_spawned hs hon) hf with hd | ⟨-, hback⟩
    · rw [board_dropped, on_not_dropped h hon] at hd; cases hd
    · exact absurd hcpu hback
  | @joiner l _ hcpu hf hj hfj =>
    rw [joiner_lives h hf hj] at hfj; cases hfj
  | argument hcpu hm hf => exact Or.inl ⟨_, rfl, hm⟩
  | @exit l _ _ hcpu hj hfj =>
    have hf : (x.sched.lt l).freed = false := by
      refine Bool.eq_false_iff.mpr fun hf => ?_
      obtain ⟨-, ⟨hx, -⟩ | hd⟩ := freed_counts h hf
      · rw [show (x.sched.lt l).ctx = .running from hi.ctx_of_run hcpu] at hx; cases hx
      · rw [on_not_dropped h (by rw [hcpu]; rfl)] at hd; cases hd
    rw [joiner_lives h hf hj] at hfj; cases hfj
  | close hcpu hm hf => exact absurd hm (forgotten_reachable h (Or.inr hf)).queues.2.2.1
  | @io _ w _ hw hpc hf =>
    rcases hpc with hpc | hpc
    · refine absurd ?_ ((unserved_iff.mp (hserved hf)).1 w)
      simp [IoWorker.jobs, hpc]
    · exact Or.inr ⟨hworker hf (Or.inl ⟨w, hw, hpc⟩), Or.inl ⟨w, hw, hpc⟩⟩
  | @compute _ j _ hj hpc hf =>
    rcases hpc with hpc | hpc
    · refine absurd ?_ ((unserved_iff.mp (hserved hf)).2.1 j).2
      simp [ComputePc.owned, hpc]
    · exact Or.inr ⟨hworker hf (Or.inr ⟨j, hj, hpc⟩), Or.inr ⟨j, hj, hpc⟩⟩

theorem drops_loop (h : x.drops a = some l) : a = .sched ∧ x.cpu = .loop := by
  cases a with
  | sched =>
    unfold drops at h
    simp only at h
    split at h
    · exact ⟨rfl, by assumption⟩
    · exact ⟨rfl, by assumption⟩
    · cases h
  | _ => cases h

theorem drop_frees_nobody (h : worldMachine.Reachable cancelsClean x) (hok : x.cancelsClean a)
    (hx : x.step a = .ok x') (hd : x.dropped l = false) (hd' : x'.dropped l = true) :
    (x'.sched.lt l).freed = false := by
  have hi : x.Inv true := Inv.reachable (h.mono fun _ _ h => h.1)
  obtain ⟨rfl, hcpu⟩ : a = .sched ∧ x.cpu = .loop := drops_loop (hi.step_drops hx hd hd')
  replace hx := step_loop hcpu hx
  have ht : Turn (fun _ _ => True) x.board x'.board := lthreadRun_turn hi.seated hcpu (fun _ => trivial) hx
  have hc : x.sched.has l .cancelled = true := (ht.drop_cases hd hd').1
  rcases ht.freed_cases l with h1 | ⟨-, h1⟩ | ⟨-, -, hfree⟩
  · refine h1.trans (Bool.eq_false_iff.mpr fun hf => ?_)
    obtain ⟨-, ⟨-, hc'⟩ | hd0⟩ := freed_counts h hf
    · rw [hc] at hc'; cases hc'
    · rw [hd] at hd0; cases hd0
  · exact h1
  · cases hfree with
    | join j hr hrun => rw [board_cpu, hcpu] at hrun; cases hrun
    | joined j t hr hx hc hcpu' => rw [(ht.drop_cpu hd hd')] at hcpu'; cases hcpu'
    | ended hback => rw [board_cpu, hcpu] at hback; cases hback
    | dropped _ _ hdet =>
      rw [show (x.board.seat l).lt.state .detach = false from (cancelledOnce_reachable h l).detach hc] at hdet
      cases hdet

theorem freed_final (h : worldMachine.Reachable cancelsClean x) (hok : x.cancelsClean a) (hx : x.step a = .ok x')
    (hl : l < x.sched.spawned) (hf : (x.sched.lt l).freed = true) : (x'.sched.lt l).freed = true := by
  have hi : x.Inv true := Inv.reachable (h.mono fun _ _ h => h.1)
  refine (Turns.preserves (P := fun b => l < b.spawned ∧ (b.seat l).lt.freed = true) (made_cancel hok.1) ?_
    (step_turns hi hok.1 hx) hi.seated ⟨hl, hf⟩).2
  rintro b b' ht - - ⟨hl, hf⟩
  exact ⟨hl.trans_le ht.spawned_le, Board.freed_stays ht hl hf⟩

/-- In runs in which `lthread_cancel` is called for lthreads that sleep, wait for a descriptor or are with
a worker, that are not detached and not on the ready queue. Nothing refers to an lthread that has
been dropped, or to one that has been freed. A freed lthread is used only where the program passes it to
a call, or by a worker whose lthread has exited before its trigger. The drop itself frees nobody,
and who has been freed is not freed again. -/
theorem cancellation_cleans_up (h : worldMachine.Reachable cancelsClean x) :
    (∀ l, x.dropped l = true ∨ (x.sched.lt l).freed = true → x.Forgotten l) ∧
    (∀ a m, x.step a = .error (.freed m) →
      (∃ op, a = .call op ∧ op.argument = some m) ∨ x.sched.has m .cancelled = false ∧ x.Handed m) ∧
    ∀ a x' l, x.cancelsClean a → x.step a = .ok x' →
      (x.dropped l = false → x'.dropped l = true → (x'.sched.lt l).freed = false) ∧
      (l < x.sched.spawned → (x.sched.lt l).freed = true → (x'.sched.lt l).freed = true) :=
  ⟨fun _ hl => forgotten_reachable h hl, fun _ _ hx => freed_fault h hx, fun _ _ _ hok hx =>
    ⟨drop_frees_nobody h hok hx, freed_final h hok hx⟩⟩

set_option maxRecDepth 20000 in
/-- Lthread 2 cancels lthread 1, which sleeps and is joined by lthread 0. Lthread 1 is dropped, and freed
by the join. -/
theorem cancellation_cleans_up_joined : ∃ x, worldMachine.Reachable cancelsClean x ∧ x.dropped 1 = true ∧
    (x.sched.lt 1).freed = true ∧ x.cpu = .run 0 ∧ x.Forgotten 1 := by
  obtain ⟨x, hx, hsee⟩ := exists_after cancelsClean
    [.main, .main, .main, .run, .sched, .sched, .sched, .call (.join 1 none 0), .sched, .sched, .call (.sleep 100),
      .sched, .sched, .call (.cancel 1), .call .finish, .sched, .sched, .sched, .sched, .sched, .sched, .sched, .sched,
      .sched, .sched, .sched]
    (fun x => decide (x.dropped 1 = true ∧ (x.sched.lt 1).freed = true ∧ x.cpu = .run 0)) (t := true) (by decide)
  obtain ⟨hd, hf, hcpu⟩ := of_decide_eq_true hsee
  exact ⟨x, hx, hd, hf, hcpu, (cancellation_cleans_up hx).1 1 (Or.inl hd)⟩

set_option maxRecDepth 20000 in
/-- Lthread 0 waits on a condition variable when lthread 1 cancels it. It has been dropped, and is still
on the blocked list. -/
theorem dropped_stays_blocked : ∃ x, worldMachine.Reachable joinsAlone x ∧ x.dropped 0 = true ∧
    0 ∈ x.sched.blocked (.user 0) := by
  obtain ⟨x, hx, hsee⟩ := exists_after joinsAlone
    [.main, .main, .run, .sched, .sched, .sched, .call (.condWait 0 0), .sched, .sched, .call (.cancel 0),
      .call (.sleep 50), .sched, .sched, .sched, .sched, .sched, .sched]
    (fun x => decide (x.dropped 0 = true ∧ 0 ∈ x.sched.blocked (.user 0))) (t := true) (by decide)
  exact ⟨x, hx, of_decide_eq_true hsee⟩

end World
end Lthr

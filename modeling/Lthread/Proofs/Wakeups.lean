import Lthread.Proofs.ChanWorld
import Lthread.Proofs.Faults
import Lthread.Proofs.Joins

/-! What a call that has been waited in leaves behind. `lthread_wakeup` looks at
LT_ST_SLEEPING only, which every wait with a timeout sets, and puts the lthread on the ready queue
without a word to the list, the channels, the target or the tree that it is registered
with. Where it finds its targets in `lthread_sleep`, or not asleep, an lthread that returns
from a call is registered nowhere. -/

namespace Lthr
namespace World

variable {x x' : World} {a : Label} {l : LtId}

theorem take_waiting {k : Bool} {v : Seat} {t : Take} (h : v.Ok k l) (ht : t.Finds v) :
    (t.act v).cnt.waiting = 0 := by
  cases t with
  | ready =>
    by_contra hw
    obtain ⟨-, fd, e, u, -, hn⟩ := h.row.of_waiting (n := v.cnt) hw
    exact ht (congrArg Counts.ready hn)
  | defer =>
    by_contra hw
    obtain ⟨-, fd, e, u, -, hn⟩ := h.row.of_waiting (n := v.cnt) hw
    exact ht (congrArg Counts.defer hn)
  | event eof =>
    obtain ⟨-, fd, e, u, -, hn⟩ := h.row.of_waiting ht
    have hdrop : (Seat.deschedSleep (Seat.dropWaiting v)).cnt.waiting = 0 := by
      unfold Seat.deschedSleep
      split_ifs <;> simp [Seat.dropWaiting, hn]
    cases eof <;> exact hdrop
  | expired w => exact congrArg Counts.waiting ht.2.cnt

theorem tree_keeps_keys (h : worldMachine.Reachable (stepOk true) x) (m : LtId) :
    x.step a ≠ .error (.treeKey m) := by
  intro hx
  have hi : x.Inv true := Inv.reachable h
  cases step_error rfl hx with
  | loop hcpu ht hz =>
    cases hz with
    | tree hctx hw =>
      obtain ⟨t, hfind, hacts⟩ := ht.acts hi.seated
      have hcount := count_ne_zero hw
      refine hcount ?_
      have hzero := take_waiting (hi.ok m) hfind
      rw [← hacts.self] at hzero
      exact hzero

theorem Inv.spawned_le (h : x.Inv true) (hok : stepOk true x a) (hx : x.step a = .ok x') :
    x.sched.spawned ≤ x'.sched.spawned := by
  refine Turns.preserves (P := fun b => x.sched.spawned ≤ b.spawned) (made_cancel hok) ?_ (step_turns h hok hx)
    h.seated le_rfl
  intro b b' ht _ _ hb
  exact hb.trans ht.spawned_le

theorem selector_alone (h : worldMachine.Reachable (stepOk true) x) {m : LtId} {s : SelId} {t u : ℕ}
    (hl : (x.sched.lt l).ctx = .selWait s t) (hm : (x.sched.lt m).ctx = .selWait s u) : l = m := by
  obtain ⟨y, hy, -, hmir⟩ := exists_mirror h
  obtain ⟨-, hlink⟩ := ChanOk.reachable hy
  have hl' := (hlink.user s l).mpr ⟨t, (hmir.ctx l s t).mpr hl⟩
  have hm' := (hlink.user s m).mpr ⟨u, (hmir.ctx m s u).mpr hm⟩
  exact Option.some_inj.mp (hl'.symm.trans hm')

theorem returned_has_no_entry (h : worldMachine.Reachable (stepOk true) x) (hok : stepOk true x a)
    (hx : x.step a = .ok x') (hcpu' : x'.cpu = .run l) {s : SelId} {t : ℕ}
    (hctx : (x.sched.lt l).ctx = .selWait s t) {c : ChanId} {side : Side} {w : Wait}
    (hw : w ∈ (x'.sys.ch.chan c).waitq side) : w.sel ≠ s := by
  rintro rfl
  have hi : x.Inv true := Inv.reachable h
  have hi' : x'.Inv true := hi.step hok hx
  have hrun : (x'.sched.lt l).ctx = .running := hi'.ctx_of_run hcpu'
  obtain ⟨m, u, hm, -⟩ := entry_user (h.next hok hx) hw
  -- the call that the entry belongs to is as old as the one that returns
  have hold : (x.sched.lt m).ctx = .selWait w.sel u := by
    obtain ⟨rfl, hcpu, -⟩ := (hi.suspended_stays hok hx hctx (by simp) (by simp)).resolve_left fun h0 => by
      rw [hrun] at h0; cases h0
    replace hx := step_loop hcpu hx
    rcases hi.loop_ctx hcpu hx m with h1 | h1 | ⟨-, h1⟩
    · exact h1.symm.trans hm
    · rw [hm] at h1; cases h1
    · rw [hm] at h1; cases h1
  obtain rfl := selector_alone h hctx hold
  rw [hrun] at hm; cases hm

/-- In runs in which `lthread_wakeup` finds its targets in `lthread_sleep`, or not asleep. The
lthread whose call returns is on no blocked list, has no entry in the queue of a channel and is not
in the waiting tree, and if it was in `lthread_join` its target has been freed only if it has
finished. Nobody leaves a wait for a descriptor while it is in the tree. -/
theorem returned_is_unregistered (h : worldMachine.Reachable (stepOk true) x) (hok : stepOk true x a) :
    (∀ m, x.step a ≠ .error (.treeKey m)) ∧
    ∀ x' l, x.step a = .ok x' → x'.cpu = .run l → (x.sched.lt l).ctx ≠ .running →
      (∀ c, l ∉ x'.sched.blocked c) ∧
      (∀ s t, (x.sched.lt l).ctx = .selWait s t → ∀ c side, ∀ w ∈ (x'.sys.ch.chan c).waitq side, w.sel ≠ s) ∧
      l ∉ x'.sched.waiting ∧
      ∀ target t, (x.sched.lt l).ctx = .joining target t → (x'.sched.lt target).freed = true →
        (x'.sched.lt target).ctx = .exited ∨ x'.dropped target = true := by
  refine ⟨tree_keeps_keys h, fun x' l hx hcpu' _ => ?_⟩
  have hi : x.Inv true := Inv.reachable h
  have hi' : x'.Inv true := hi.step hok hx
  have hcnt := hi'.runs hcpu'
  refine ⟨fun c hc => ?_, fun s t hctx c side w hw => ?_, fun hw => ?_, fun target t hctx hf => ?_⟩
  · exact count_ne_zero hc (congrFun (congrArg Counts.blocked hcnt) c)
  · exact returned_has_no_entry h hok hx hcpu' hctx hw
  · exact count_ne_zero hw (congrArg Counts.waiting hcnt)
  · have hlt : target < x'.sched.spawned :=
      (hi.seated.links.joined l target t hctx).1.trans_le (hi.spawned_le hok hx)
    rcases (woken_reachable (h.next hok hx)).freed target hlt hf with hd | ⟨he, -⟩
    · exact Or.inr hd
    · exact Or.inl he

set_option maxRecDepth 20000 in
/-- Lthread 1 signals the condition that lthread 0 waits on, and then calls `lthread_wakeup`. -/
theorem returned_is_unregistered_signalled : ∃ x x', worldMachine.Reachable (stepOk true) x ∧
    (x.sched.lt 0).ctx = .condWait (.user 0) 30 ∧ x.step .sched = .ok x' ∧ x'.cpu = .run 0 ∧
      (∀ c, 0 ∉ x'.sched.blocked c) ∧ 0 ∉ x'.sched.waiting := by
  obtain ⟨x, x', h, hx, hsee⟩ := exists_step_after (stepOk true)
    [.main, .main, .run, .sched, .sched, .sched, .call (.condWait 0 30), .sched, .sched, .call (.condSignal 0),
      .call (.wakeup 0), .call (.sleep 50), .sched, .sched, .sched, .sched, .sched] .sched
    (fun x x' => decide ((x.sched.lt 0).ctx = .condWait (.user 0) 30 ∧ x'.cpu = .run 0)) (t := true) (by decide)
  obtain ⟨hctx, hcpu'⟩ := of_decide_eq_true hsee
  obtain ⟨-, hall⟩ := returned_is_unregistered (a := .sched) h trivial
  obtain ⟨hblocked, -, hwait, -⟩ := hall x' 0 hx hcpu' (by rw [hctx]; exact nofun)
  exact ⟨x, x', h, hctx, hx, hcpu', hblocked, hwait⟩

set_option maxRecDepth 20000 in
/-- Lthread 1 calls `lthread_wakeup` on lthread 0, which is in `lthread_cond_wait` with a timeout. The wait
returns 0, and lthread 0 is still on the list of the condition. -/
theorem woken_up_stays_blocked : ∃ x x', worldMachine.Reachable (fun _ _ => True) x ∧
    (x.sched.lt 0).ctx = .condWait (.user 0) 30 ∧ x.step .sched = .ok x' ∧ x'.cpu = .run 0 ∧ x'.ret 0 = 0 ∧
      0 ∈ x'.sched.blocked (.user 0) := by
  obtain ⟨x, x', h, hx, hsee⟩ := exists_step_after (fun _ _ => True)
    [.main, .main, .run, .sched, .sched, .sched, .call (.condWait 0 30), .sched, .sched, .call (.wakeup 0),
      .call (.sleep 50), .sched, .sched, .sched, .sched, .sched] .sched
    (fun x x' => decide ((x.sched.lt 0).ctx = .condWait (.user 0) 30 ∧ x'.cpu = .run 0 ∧ x'.ret 0 = 0 ∧
      0 ∈ x'.sched.blocked (.user 0))) (t := true) (by decide)
  obtain ⟨hctx, hcpu', hret, hb⟩ := of_decide_eq_true hsee
  exact ⟨x, x', h, hctx, hx, hcpu', hret, hb⟩

end World
end Lthr

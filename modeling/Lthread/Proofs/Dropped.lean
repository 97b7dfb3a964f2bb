import Lthread.Proofs.Placement

/-! Cancelled lthreads on their way back from a worker. `lthread_cancel` leaves an
lthread to the worker that has it, and the defer queue drops it later; every other
lthread it puts on the ready queue. -/

namespace Lthr
namespace Seat

/-- No worker has the lthread, and it is not on the defer queue. -/
def Unserved (v : Seat) : Prop := v.cnt.io = 0 ∧ v.cnt.compute = 0 ∧ v.cnt.taken = 0 ∧ v.cnt.defer = 0

structure DroppedUnserved (d : Bool) (v : Seat) : Prop where
  ready : ∀ j, v.lt.ctx = .compute j → v.cnt.ready = 0
  dropped : d = true → v.lt.state .cancelled = true ∧ v.Unserved
  served : v.lt.ctx.served → v.lt.state .cancelled = true → v.Unserved → d = true

namespace DroppedUnserved

variable {k d : Bool} {v w : Seat}

theorem not_dropped (h : DroppedUnserved d v) (hc : v.lt.state .cancelled = false) : d = false := by
  refine Bool.eq_false_iff.mpr fun hd => ?_
  rw [(h.dropped hd).1] at hc
  cases hc

theorem plain (h : DroppedUnserved d v) (hc : v.lt.state .cancelled = false) (hc' : w.lt.state .cancelled = false)
    (hr : ∀ j, w.lt.ctx = .compute j → w.cnt.ready = 0) : DroppedUnserved d w := by
  refine ⟨hr, fun hd => ?_, fun _ h1 => ?_⟩
  · rw [h.not_dropped hc] at hd; cases hd
  · rw [hc'] at h1; cases h1

theorem keep (h : DroppedUnserved d v) (hctx : w.lt.ctx = v.lt.ctx)
    (hc : w.lt.state .cancelled = v.lt.state .cancelled)
    (hr : ∀ j, v.lt.ctx = .compute j → w.cnt.ready = v.cnt.ready)
    (hn : w.cnt.io = v.cnt.io ∧ w.cnt.compute = v.cnt.compute ∧ w.cnt.taken = v.cnt.taken ∧
      w.cnt.defer = v.cnt.defer) : DroppedUnserved d w := by
  have hu : w.Unserved ↔ v.Unserved := by
    unfold Unserved
    rw [hn.1, hn.2.1, hn.2.2.1, hn.2.2.2]
  refine ⟨fun j hj => ?_, fun hd => ?_, fun hs h1 h2 => ?_⟩
  · rw [hctx] at hj
    rw [hr j hj]
    exact h.ready j hj
  · rw [hc, hu]; exact h.dropped hd
  · exact h.served (hctx ▸ hs) (hc ▸ h1) (hu.mp h2)

theorem onLt (h : DroppedUnserved d v) {f : Lt → Lt} (hctx : (f v.lt).ctx = v.lt.ctx)
    (hc : (f v.lt).state .cancelled = v.lt.state .cancelled) : DroppedUnserved d (onLt f v) :=
  h.keep (w := Seat.onLt f v) hctx hc (fun _ _ => rfl) ⟨rfl, rfl, rfl, rfl⟩

theorem freeDetached (h : DroppedUnserved d v) : DroppedUnserved d v.freeDetached := by
  unfold Seat.freeDetached
  split_ifs
  · exact h.onLt rfl rfl
  · exact h

theorem unbusy_freeDetached (h : DroppedUnserved d v) : DroppedUnserved d v.freeDetached.unbusy := by
  unfold Seat.unbusy
  split_ifs
  · exact h.freeDetached.keep rfl rfl (fun _ _ => rfl) ⟨rfl, rfl, rfl, rfl⟩
  · exact h.freeDetached

theorem serve (h : DroppedUnserved d v) (hctx : w.lt.ctx = v.lt.ctx) (hr : w.cnt.ready = v.cnt.ready)
    (hv : ¬ v.Unserved) (hw : ¬ w.Unserved) : DroppedUnserved d w :=
  ⟨fun j hj => hr.trans (h.ready j (hctx ▸ hj)), fun hd => absurd (h.dropped hd).2 hv,
    fun _ _ hu => absurd hu hw⟩

theorem woken (h : DroppedUnserved d v) (hx : ∀ j, v.lt.ctx ≠ .compute j) :
    DroppedUnserved d (addReady (deschedSleep v)) := by
  refine h.keep ?_ ?_ (fun j hj => absurd hj (hx j)) ?_
  all_goals
    simp only [addReady_lt, addReady_cnt, deschedSleep]
    split_ifs
  · rfl
  · rfl
  · simp [Lt.clearBit, Lt.setBit]
  · rfl
  · exact ⟨rfl, rfl, rfl, rfl⟩
  · exact ⟨rfl, rfl, rfl, rfl⟩

end DroppedUnserved
end Seat

theorem Entry.act_cancelled (e : Entry) (v : Seat) :
    (e.act v).lt.state .cancelled = v.lt.state .cancelled := by
  cases e with
  | event fd ev n u =>
    cases ev <;> by_cases hn : n = 0 <;> simp [Entry.act, Seat.schedSleep, hn, Lt.setBit, waitBit]
  | io ev w => cases ev <;> simp [Entry.act, Lt.setBit, waitIoBit]
  | sleep n u => by_cases hn : n = 0 <;> simp [Entry.act, Seat.schedSleep, hn, Lt.setBit]
  | block c i n u => by_cases hn : n = 0 <;> simp [Entry.act, Seat.schedSleep, hn, Lt.setBit]
  | _ => simp [Entry.act, Lt.setBit]

theorem joinAct_cancelled {target : LtId} {ptr : Option ℕ} {n u : ℕ} (v : Seat) :
    (joinAct target ptr n u v).lt.state .cancelled = v.lt.state .cancelled := by
  by_cases hn : n = 0 <;> simp [joinAct, Seat.schedSleep, hn, Lt.setBit]

namespace Turn

open Seat

variable {k : Bool} {R : Rules} {b b' : Board}

/-- The lthread waits for a descriptor, and its registration is taken away. -/
theorem droppedUnserved_stray {d : Bool} {l : LtId} {v : Seat} (h : v.DroppedUnserved d) (hok : v.Ok k l) (hw : v.cnt.waiting ≠ 0) :
    (deschedSleep (dropWaiting v)).DroppedUnserved d := by
  obtain ⟨hc, fd, e, t, hx, -⟩ := hok.row.of_waiting hw
  refine h.plain hc ?_ fun j hj => ?_
  · rw [← hc]
    unfold deschedSleep
    split_ifs
    · simp [Lt.clearBit, Lt.setBit, dropWaiting]
    · rfl
  · have hctx : (deschedSleep (dropWaiting v)).lt.ctx = v.lt.ctx := by
      unfold deschedSleep
      split_ifs <;> rfl
    rw [hctx, hx] at hj; cases hj

theorem droppedUnserved_wakes {σ σ' : LtId → Seat} {l : LtId} {d : LtId → Bool} (hc : ∀ m, (σ m).DroppedUnserved (d m))
    (hjoin : ∀ j, (σ l).lt.ltJoin = some j → ∀ i, (σ j).lt.ctx ≠ .compute i) (h : WakesJoiner σ σ' l) :
    ∀ m, (σ' m).DroppedUnserved (d m) :=
  h.all (P := fun m v => v.DroppedUnserved (d m)) hc (fun j hj => (hc j).woken (hjoin j hj)) fun _ hv => hv.onLt rfl rfl

theorem droppedUnserved_cancel {l : LtId} {d : ℕ} {v w : Seat} (h : v.DroppedUnserved false) (hok : v.Ok k l) (hc : v.Cancels d w)
    (hins : d ≠ 0 → v.lt.state .pendingRuncompute = false ∧ (∀ e, v.lt.state (waitIoBit e) = false) ∧
      v.lt.state .runcompute = false ∧ (v.cnt.defer ≠ 0 → ∀ j, v.lt.ctx ≠ .compute j)) : w.DroppedUnserved false := by
  have hu : w.Unserved ↔ v.Unserved := by
    unfold Unserved
    rw [hc.cnt]
  -- in a compute section the lthread is served, and its bits or the defer queue tell
  have hserved (j : ℕ) (hj : v.lt.ctx = .compute j) : ¬ v.Unserved ∧ d = 0 := by
    have hrow := hok.row
    rw [hj] at hrow
    have hbits (hn : v.cnt.compute ≠ 0 ∨ v.cnt.taken ≠ 0) : d = 0 := by
      by_contra hd
      obtain ⟨hp, -, hrc, -⟩ := hins hd
      rcases (hok.with_compute hn).1 with hb | hb
      · rw [hp] at hb; cases hb
      · rw [hrc] at hb; cases hb
    rcases hrow.of_section with hn | hn | hn | hn | ⟨hcv, hn⟩
    · exact ⟨fun hu => by simpa [hn] using hu.2.1, hbits (Or.inl (by simp [hn]))⟩
    · exact ⟨fun hu => by simpa [hn] using hu.2.1, hbits (Or.inl (by simp [hn]))⟩
    · exact ⟨fun hu => by simpa [hn] using hu.2.2.1, hbits (Or.inr (by simp [hn]))⟩
    · refine ⟨fun hu => by simpa [hn] using hu.2.2.2, ?_⟩
      by_contra hd
      exact (hins hd).2.2.2 (by simp [hn]) j hj
    · have hu : v.Unserved := by
        unfold Unserved
        rw [hn]
        exact ⟨rfl, rfl, rfl, rfl⟩
      cases h.served (by rw [hj]; trivial) hcv hu
  refine ⟨fun j hj => ?_, (fun h0 => by cases h0), fun hs _ h2 => ?_⟩
  · rw [hc.ctx] at hj
    rw [hc.cnt, (hserved j hj).2]
    exact h.ready j hj
  · rw [hc.ctx] at hs
    cases hx : v.lt.ctx with
    | compute j => exact absurd (hu.mp h2) (hserved j hx).1
    | ioWait e w =>
      have hv := hu.mp h2
      have hrow := hok.row
      rw [hx] at hrow
      rcases hrow.of_ioWait with hn | hn | ⟨hcv, -⟩
      · have h0 := hv.1
        simp [hn] at h0
      · have h0 := hv.2.2.2
        simp [hn] at h0
      · exact h.served (by rw [hx]; trivial) hcv hv
    | _ => rw [hx] at hs; exact hs.elim

theorem droppedUnserved_taken {l : LtId} {d : Bool} {v : Seat} {t : Take} (h : v.DroppedUnserved d) (hok : v.Ok k l)
    (hc : v.lt.state .cancelled = true) (hq : t = .ready ∨ t = .defer) (ht : t.Finds v) :
    (t.act v).DroppedUnserved true := by
  rcases hq with rfl | rfl
  · refine ⟨fun j hj => absurd (h.ready j hj) ht, fun _ => ⟨hc, (ok_dropReady hok hc ht).2⟩, fun _ _ _ => rfl⟩
  · have hn : (Take.act .defer v).cnt = {} := (ok_dropDefer hok hc ht).2
    refine ⟨fun j _ => ?_, fun _ => ⟨hc, ?_⟩, fun _ _ _ => rfl⟩
    · rw [hn]
    · unfold Unserved
      rw [hn]
      exact ⟨rfl, rfl, rfl, rfl⟩

theorem keeps_droppedUnserved (hR : ∀ b l, R b (.cancel l) → b.dropped l = false) (ht : Turn R b b') (h : b.Seated k)
    (h' : b'.Seated k) (hc : ∀ l, (b.seat l).DroppedUnserved (b.dropped l)) :
    ∀ l, (b'.seat l).DroppedUnserved (b'.dropped l) := by
  have hseats := h.seats
  have hone {σ τ : LtId → Seat} {l : LtId} {F : Seat → Seat} (hσ : ∀ m, (σ m).DroppedUnserved (b.dropped m))
      (hm : ActsAt σ τ l F) (h0 : (F (σ l)).DroppedUnserved (b.dropped l)) : ∀ m, (τ m).DroppedUnserved (b.dropped m) :=
    hm.all (P := fun m v => v.DroppedUnserved (b.dropped m)) (fun m _ => hσ m) h0
  have hrunning (l : LtId) (hcpu : b.cpu = .run l) : Ok.Runs (b.seat l) :=
    (h.current hcpu).1
  cases ht with
  | @note σ l f hf hm =>
    have ha := hf (b.seat l).lt
    exact hone hc hm ((hc l).onLt ha.ctx (ha.state _ rfl))
  | @detach σ l hr hm => exact hone hc hm ((hc l).onLt rfl (by simp [Lt.setBit]))
  | @create σ hm =>
    obtain ⟨hx, hcanc⟩ := h.links.fresh b.spawned le_rfl
    exact hone hc hm ((hc b.spawned).plain hcanc rfl fun j hj => by cases hj)
  | @signal σ l i hb hm =>
    obtain ⟨t, hx, -⟩ := (hseats l).row.of_blocked hb
    have hblock : (dropBlocked i (b.seat l)).DroppedUnserved (b.dropped l) :=
      (hc l).keep rfl rfl (fun _ _ => rfl) ⟨rfl, rfl, rfl, rfl⟩
    refine hone hc hm (hblock.woken fun j hj => ?_)
    rw [show (b.seat l).lt.ctx = .compute j from hj] at hx
    cases hx
  | @close σ l fd e hr hw hkey hm =>
    obtain ⟨-, fd, e, t, hx, -⟩ := (hseats l).row.of_waiting hw
    have hdrop : (dropWaiting (b.seat l)).DroppedUnserved (b.dropped l) :=
      (hc l).keep rfl rfl (fun _ _ => rfl) ⟨rfl, rfl, rfl, rfl⟩
    refine hone hc hm (hdrop.woken fun j hj => ?_)
    rw [show (b.seat l).lt.ctx = .compute j from hj] at hx
    cases hx
  | @wakeup σ l t hx hs hm =>
    have hswap : deschedSleep (addReady (b.seat l)) = addReady (deschedSleep (b.seat l)) := by
      simp [deschedSleep, addReady, hs]
    refine hone hc hm ?_
    rw [Function.comp_apply, hswap]
    exact (hc l).woken fun j hj => by rw [hx] at hj; cases hj
  | @enter σ l e hcpu hv hr hm =>
    have hruns := hrunning l hcpu
    refine hone hc hm ((hc l).plain (hruns.bits _ rfl) ((e.act_cancelled _).trans (hruns.bits _ rfl)) fun j hj => ?_)
    cases e with
    | compute i => exact congrArg Counts.ready hruns.cnt
    | block c i n u => exact absurd hj (hv.block_ne rfl)
    | _ => cases hj
  | @join σ₁ σ l target ptr n u hr hcpu hlt hf hx h1 hm =>
    have hc₁ := hone hc h1 ((hc target).onLt rfl rfl)
    have hcanc : (σ₁ l).lt.state .cancelled = false := by
      rw [← (hrunning l hcpu).bits .cancelled rfl]
      exact h1.keeps (·.lt.state .cancelled) rfl l
    refine hone hc₁ hm ((hc₁ l).plain hcanc ?_ fun j hj => by cases hj)
    rw [← hcanc]
    exact joinAct_cancelled _
  | @joinExited σ₁ σ l target ptr hr hcpu hf hx h1 hm =>
    have hc₁ := hone hc h1 ((hc l).onLt rfl rfl)
    exact hone hc₁ hm ((hc₁ target).onLt rfl rfl)
  | @cancel σ₁ σ l d w hr hl hf hrun hcan hins h1 hm =>
    have hd := hR b l hr
    have hw : w.DroppedUnserved (b.dropped l) := by
      rw [hd]
      exact droppedUnserved_cancel (hd ▸ hc l) (hseats l) hcan hins
    rcases h1 with rfl | ⟨m, hml, hmw, -, h1⟩
    · exact hone hc hm hw
    · exact hone (hone hc h1 (droppedUnserved_stray (hc m) (hseats m) hmw)) hm hw
  | @resume σ₁ σ₂ σ l t hr hcpu hf hcanc ht he h1 h2 hm =>
    intro m
    by_cases hml : m = l
    · subst hml
      have hruns := (h'.current (l := m) rfl).1
      refine (hc m).plain hcanc (hruns.bits _ rfl) fun j hj => ?_
      exact congrArg Counts.ready hruns.cnt
    · obtain ⟨j, f, h3⟩ := h2.onLt m
      change (σ m).DroppedUnserved (b.dropped m)
      rw [hm.other hml, h3, h1.other hml]
      exact (hc m).onLt rfl rfl
  | @drop σ₁ σ₂ σ l t hcpu hf hcanc hq ht h1 h2 hm =>
    have hc₁ : ∀ m, (σ₁ m).DroppedUnserved (Function.update b.dropped l true m) := by
      refine h1.all (P := fun m v => v.DroppedUnserved (Function.update b.dropped l true m)) (fun m hml => ?_) ?_
      · rw [Function.update_of_ne hml]; exact hc m
      · rw [Function.update_self]
        exact droppedUnserved_taken (hc l) (hseats l) hcanc hq ht
    have hc₂ := droppedUnserved_wakes hc₁ (fun j hj i => by
      obtain ⟨u, hx⟩ := h.joiner_taken hf ht h1 hj
      rw [hx]; simp) h2
    refine hm.all (P := fun m v => v.DroppedUnserved (Function.update b.dropped l true m)) (fun m _ => hc₂ m) ?_
    exact (hc₂ l).unbusy_freeDetached
  | @finish σ₁ σ l hcpu hf hx h1 hm =>
    have hc₁ := droppedUnserved_wakes hc (fun j hj i => by
      obtain ⟨⟨t, hx⟩, -⟩ := h.links.join l j hj hf
      rw [hx]; simp) h1
    exact hone hc₁ hm (hc₁ l).freeDetached
  | @computeAdd σ l hcpu hp hm =>
    refine hone hc hm ((hc l).keep rfl ?_ (fun _ _ => rfl) ⟨rfl, rfl, rfl, rfl⟩)
    simp [Lt.clearBit, Lt.setBit]
  | switch hcpu | back hcpu he | phase hcpu => exact hc
  | @ioDone σ l w hw hm =>
    refine hone hc hm ((hc l).serve rfl rfl (fun hu => hw (by rw [hu.1]; rfl)) fun hu => ?_)
    exact absurd hu.2.2.2 (Nat.succ_ne_zero _)
  | @taken σ l j hj hp hm =>
    refine hone hc hm ((hc l).serve rfl rfl (fun hu => hj (by rw [hu.2.1]; rfl)) fun hu => ?_)
    have h0 := congrFun hu.2.2.1 j
    simp [bump] at h0
  | @computed σ l j hj hm =>
    refine hone hc hm ((hc l).serve rfl rfl (fun hu => hj (by rw [hu.2.2.1]; rfl)) fun hu => ?_)
    exact absurd hu.2.2.2 (Nat.succ_ne_zero _)

end Turn

namespace World

open Seat

variable {x x' : World} {l : LtId}

theorem droppedUnserved_reachable (h : worldMachine.Reachable cancelsLive x) (l : LtId) :
    (x.seat l).DroppedUnserved (x.dropped l) := by
  refine board_invariant (P := fun b => ∀ l, (b.seat l).DroppedUnserved (b.dropped l)) (k := true) (fun _ _ h => h.1)
    (fun birth capacity n l => ?_) (fun x a b b' hok ht hs hs' hP => ?_) h l
  · rw [board_seat, start_seat]
    exact ⟨(fun j hj => by cases hj), (fun hd => by cases hd), fun hs => hs.elim⟩
  · refine ht.keeps_droppedUnserved ?_ hs hs' hP
    intro b target hr
    obtain ⟨rfl, rfl⟩ := made_of_cancel hr
    exact hok.2

theorem Inv.ready_unserved (h : x.Inv true) (hl : l ∈ x.sched.ready) : (x.seat l).Unserved := by
  have hrow := h.row l
  have hr : (x.seat l).cnt.ready ≠ 0 := count_ne_zero hl
  cases hc : x.sched.has l .cancelled with
  | true => exact (ok_dropReady (h.ok l) hc hr).2
  | false =>
    rw [hc] at hrow
    unfold Unserved
    rcases hrow.of_ready hr with ⟨-, hn⟩ | ⟨-, hn⟩ <;> rw [hn] <;> exact ⟨rfl, rfl, rfl, rfl⟩

theorem unserved_iff : (x.seat l).Unserved ↔ (∀ w, l ∉ (x.io w).jobs) ∧
    (∀ j, l ∉ (x.compute j).lthreads ∧ l ∉ (x.compute j).pc.owned) ∧ l ∉ x.sched.defer := by
  unfold Unserved
  simp only [World.seat, seatOf, funext_iff, Pi.zero_apply, List.count_eq_zero]
  constructor
  · rintro ⟨h1, h2, h3, h4⟩
    exact ⟨h1, fun j => ⟨h2 j, h3 j⟩, h4⟩
  · rintro ⟨h1, h2, h3⟩
    exact ⟨h1, fun j => (h2 j).1, fun j => (h2 j).2, h3⟩

/-- An lthread on the ready queue is with no worker and not on the defer queue. A
cancelled lthread is dropped by one of the two queues: by the defer queue, if it was
in a call that a worker serves, and then it is not on the ready queue; by the ready
queue otherwise, and then it is not on the defer queue. -/
theorem cancel_never_double_queues (h : worldMachine.Reachable cancelsLive x) :
    (∀ l ∈ x.sched.ready, (∀ w, l ∉ (x.io w).jobs) ∧
      (∀ j, l ∉ (x.compute j).lthreads ∧ l ∉ (x.compute j).pc.owned) ∧ l ∉ x.sched.defer) ∧
    (∀ l, x.dropped l = true → (∀ w, l ∉ (x.io w).jobs) ∧
      (∀ j, l ∉ (x.compute j).lthreads ∧ l ∉ (x.compute j).pc.owned) ∧ l ∉ x.sched.defer) ∧
    ∀ l, x.sched.has l .cancelled = true →
      ((∃ e w, (x.sched.lt l).ctx = .ioWait e w) ∨ ∃ j, (x.sched.lt l).ctx = .compute j) ∧ l ∉ x.sched.ready ∨
      (x.sched.lt l).ctx.idle ∧ l ∉ x.sched.defer := by
  have hi : x.Inv true := Inv.reachable (h.mono fun _ _ h => h.1)
  refine ⟨fun l hl => unserved_iff.mp (hi.ready_unserved hl),
    fun l hl => unserved_iff.mp ((droppedUnserved_reachable h l).dropped hl).2, fun l hl => ?_⟩
  have hrow := hi.row l
  rw [hl] at hrow
  cases hx : (x.sched.lt l).ctx with
  | running =>
    rw [hx] at hrow
    cases hrow.of_running.1
  | ioWait e w =>
    rw [hx] at hrow
    exact Or.inl ⟨Or.inl ⟨e, w, rfl⟩, fun hr => count_ne_zero hr hrow.io_not_ready⟩
  | compute j =>
    exact Or.inl ⟨Or.inr ⟨j, rfl⟩, fun hr => count_ne_zero hr ((droppedUnserved_reachable h l).ready j hx)⟩
  | _ =>
    refine Or.inr ⟨trivial, fun hd => ?_⟩
    rcases (hrow.of_defer (count_ne_zero hd)).1 with ⟨e, w, h1⟩ | ⟨j, h1⟩ <;> rw [hx] at h1 <;> cases h1

set_option maxRecDepth 20000 in
/-- An lthread that its compute thread has just put on the defer queue is cancelled: it
is on both queues. -/
theorem cancel_double_queues : ∃ x l, worldMachine.Reachable (fun _ _ => True) x ∧
    l ∈ x.sched.ready ∧ l ∈ x.sched.defer := by
  obtain ⟨x, hx, hsee⟩ := exists_after (fun _ _ => True)
    [.main, .main, .run, .sched, .sched, .sched, .call (.computeBegin true), .sched, .sched, .sched,
      .compute 0 .pop, .compute 0 .start, .compute 0 .stop, .compute 0 .finish, .sched, .call (.cancel 0)]
    (fun x => (x.sched.ready, x.sched.defer)) (t := ([0], [0])) (by decide)
  simp only [Prod.mk.injEq] at hsee
  exact ⟨x, 0, hx, by simp [hsee.1], by simp [hsee.2]⟩

set_option maxRecDepth 20000 in
/-- Lthread 0 is cancelled while its compute thread works for it. -/
theorem cancel_never_double_queues_computing : ∃ x, worldMachine.Reachable cancelsLive x ∧
    x.sched.has 0 .cancelled = true ∧ x.sched.defer = [0] ∧ x.sched.ready = [] ∧ 0 ∉ x.sched.ready := by
  obtain ⟨x, hx, hsee⟩ := exists_after cancelsLive
    [.main, .main, .run, .sched, .sched, .sched, .call (.computeBegin true), .sched, .sched, .sched,
      .compute 0 .pop, .compute 0 .start, .sched, .call (.cancel 0), .compute 0 .stop, .compute 0 .finish]
    (fun x => (x.sched.has 0 .cancelled, x.sched.defer, x.sched.ready, (x.sched.lt 0).ctx))
    (t := (true, [0], [], .compute 0)) (by decide)
  simp only [Prod.mk.injEq] at hsee
  obtain ⟨hc, hd, hr, hx0⟩ := hsee
  rcases (cancel_never_double_queues hx).2.2 0 hc with ⟨-, hone⟩ | ⟨hidle, -⟩
  · exact ⟨x, hx, hc, hd, hr, hone⟩
  · rw [hx0] at hidle
    exact hidle.elim

end World

end Lthr

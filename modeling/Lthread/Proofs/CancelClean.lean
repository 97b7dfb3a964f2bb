import Lthread.Proofs.Drops
import Lthread.Proofs.Faults
import Lthread.Proofs.JoinsAlone

/-! Cancelled lthreads that leave nothing behind. `lthread_cancel` undoes a sleep and a wait
for a descriptor, and leaves an lthread that a worker serves to the worker. What else an lthread has
registered, with a condition variable, a channel or the target of a join, stays. -/

namespace Lthr

theorem Ctx.cond_not_severable {c : Ctx} {i : CondId} {t : ℕ} (h : c.cond = some (i, t)) : c.severable = false := by
  cases c with
  | condWait | selWait => rfl
  | _ => cases h

namespace Seat

/-- A cancelled lthread is on the ready queue once, until it is dropped, or comes to the
defer queue; `d` says whether it has been dropped. -/
structure CancelledOnce (d : Bool) (v : Seat) : Prop where
  dropped : d = true → v.lt.state .cancelled = true
  severable : v.lt.state .cancelled = true → v.lt.ctx.severable = true
  detach : v.lt.state .cancelled = true → v.lt.state .detach = false
  cnt : v.lt.state .cancelled = true → v.lt.ctx.idle → v.cnt = { ready := if d then 0 else 1 }

namespace CancelledOnce

variable {d : Bool} {v w : Seat}

theorem plain (h : CancelledOnce d v) (hc : v.lt.state .cancelled = false) (hc' : w.lt.state .cancelled = false) :
    CancelledOnce d w := by
  have hno {p : Prop} (h0 : w.lt.state .cancelled = true) : p := by
    rw [hc'] at h0; cases h0
  refine ⟨fun hd => ?_, hno, hno, hno⟩
  rw [h.dropped hd] at hc; cases hc

theorem keep (h : CancelledOnce d v) (hctx : w.lt.ctx = v.lt.ctx) (hc : w.lt.state .cancelled = v.lt.state .cancelled)
    (hd : w.lt.state .detach = v.lt.state .detach) (hn : v.lt.ctx.idle → w.cnt = v.cnt) : CancelledOnce d w := by
  refine ⟨fun h0 => hc.trans (h.dropped h0), fun h0 => ?_, fun h0 => ?_, fun h0 h1 => ?_⟩
  · rw [hctx]
    exact h.severable (hc.symm.trans h0)
  · rw [hd]
    exact h.detach (hc.symm.trans h0)
  · rw [hctx] at h1
    rw [hn h1]
    exact h.cnt (hc.symm.trans h0) h1

theorem onLt (h : CancelledOnce d v) {f : Lt → Lt} (hctx : (f v.lt).ctx = v.lt.ctx) (hs : (f v.lt).state = v.lt.state) :
    CancelledOnce d (onLt f v) :=
  h.keep (w := Seat.onLt f v) hctx (congrFun hs _) (congrFun hs _) fun _ => rfl

theorem not_cancelled (h : CancelledOnce d v) (hx : v.lt.ctx.severable = false) : v.lt.state .cancelled = false := by
  refine Bool.eq_false_iff.mpr fun hc => ?_
  rw [h.severable hc] at hx; cases hx

theorem woken (h : CancelledOnce d v) (hx : v.lt.ctx.severable = false) : CancelledOnce d (addReady (deschedSleep v)) := by
  have hc := h.not_cancelled hx
  refine h.plain hc ?_
  rw [addReady_lt, deschedSleep_lt, woken_state _ (by simp) rfl]
  exact hc

theorem unregistered {k : Bool} {l : LtId} (h : CancelledOnce d v) (hok : v.Ok k l) (hw : v.cnt.waiting ≠ 0) :
    CancelledOnce d (deschedSleep (dropWaiting v)) := by
  obtain ⟨hc, -⟩ := hok.row.of_waiting hw
  refine h.plain hc ?_
  rw [deschedSleep_lt, woken_state _ (by simp) rfl]
  exact hc

theorem freeDetached (h : CancelledOnce d v) : CancelledOnce d v.freeDetached := by
  unfold Seat.freeDetached
  split_ifs
  · exact h.keep rfl rfl rfl fun _ => rfl
  · exact h

end CancelledOnce
end Seat

namespace Turn

open Seat

variable {k : Bool} {R : Rules} {b b' : Board} {c : Option LtId}

theorem cancelledOnce_wakes {σ σ' : LtId → Seat} {l : LtId} {d : LtId → Bool} (hc : ∀ m, c ≠ some m → (σ m).CancelledOnce (d m))
    (hjoin : ∀ j, (σ l).lt.ltJoin = some j → (σ j).lt.ctx.severable = false) (h : WakesJoiner σ σ' l) :
    ∀ m, c ≠ some m → (σ' m).CancelledOnce (d m) :=
  h.all (P := fun m v => c ≠ some m → v.CancelledOnce (d m)) hc (fun j hj hjc => (hc j hjc).woken (hjoin j hj))
    fun _ hv hl => (hv hl).onLt rfl rfl

theorem cancelledOnce_dropped {l : LtId} {v : Seat} {d : Bool} {t : Take} (h : v.CancelledOnce d) (hok : v.Ok k l)
    (hc : v.lt.state .cancelled = true) (hq : t = .ready ∨ t = .defer) (ht : t.Finds v) : (t.act v).CancelledOnce true := by
  refine ⟨fun _ => ?_, fun _ => ?_, fun _ => ?_, fun _ hidle => ?_⟩
  · rcases hq with rfl | rfl <;> exact hc
  · rw [(take_keeps ht).2]
    exact h.severable hc
  · rw [take_detach ht]
    exact h.detach hc
  · rw [(take_keeps ht).2] at hidle
    rcases hq with rfl | rfl
    · have hn := h.cnt hc hidle
      have hd : d = false := by
        refine Bool.eq_false_iff.mpr fun hd => ht ?_
        rw [hn, hd]
        rfl
      change (dropReady v).cnt = _
      rw [dropReady_cnt, hn, hd]
      rfl
    · obtain ⟨⟨e, w, hx⟩ | ⟨j, hx⟩, -⟩ := hok.row.of_defer ht <;> rw [hx] at hidle <;> exact hidle.elim

/-- Nobody is cancelled by the turn but `c`, and nobody is detached who has been cancelled. -/
theorem keeps_cancelledOnce (hR : ∀ l, R b (.cancel l) → c = some l) (hD : ∀ l, R b (.detach l) → (b.seat l).lt.state .cancelled = false)
    (ht : Turn R b b') (h : b.Seated k) (h' : b'.Seated k) (hc : ∀ l, c ≠ some l → (b.seat l).CancelledOnce (b.dropped l)) :
    ∀ l, c ≠ some l → (b'.seat l).CancelledOnce (b'.dropped l) := by
  have hseats := h.seats
  have hone {σ τ : LtId → Seat} {l : LtId} {F : Seat → Seat} (hσ : ∀ m, c ≠ some m → (σ m).CancelledOnce (b.dropped m))
      (hm : ActsAt σ τ l F) (h0 : c ≠ some l → (F (σ l)).CancelledOnce (b.dropped l)) :
      ∀ m, c ≠ some m → (τ m).CancelledOnce (b.dropped m) :=
    hm.all (P := fun m v => c ≠ some m → v.CancelledOnce (b.dropped m)) (fun m _ => hσ m) h0
  have hrunning (l : LtId) (hcpu : b.cpu = .run l) : (b.seat l).lt.state .cancelled = false :=
    (h.current hcpu).1.bits _ rfl
  cases ht with
  | @note σ l f hf hm =>
    have ha := hf (b.seat l).lt
    exact hone hc hm fun hl => (hc l hl).keep ha.ctx (ha.state _ rfl) ha.detach fun _ => rfl
  | @detach σ l hr hm =>
    refine hone hc hm fun hl => (hc l hl).plain (hD l hr) ?_
    rw [← hD l hr]
    simp [Lt.setBit]
  | @create σ hm =>
    obtain ⟨-, hcanc⟩ := h.links.fresh b.spawned le_rfl
    exact hone hc hm fun hl => (hc _ hl).plain hcanc rfl
  | @signal σ l i hb hm =>
    obtain ⟨t, hx, -⟩ := (hseats l).row.of_blocked hb
    refine hone hc hm fun hl => ?_
    have hsev := Ctx.cond_not_severable hx
    have hplain : (dropBlocked i (b.seat l)).CancelledOnce (b.dropped l) :=
      (hc l hl).plain ((hc l hl).not_cancelled hsev) ((hc l hl).not_cancelled hsev)
    exact hplain.woken hsev
  | @close σ l fd e hr hw hkey hm =>
    refine hone hc hm fun hl => ?_
    have hcanc := ((hseats l).row.of_waiting hw).1
    refine (hc l hl).plain hcanc ?_
    rw [Function.comp_apply, Function.comp_apply, addReady_lt, deschedSleep_lt, woken_state _ (by simp) rfl]
    exact hcanc
  | @wakeup σ l t hx hs hm =>
    refine hone hc hm fun hl => ?_
    have hcanc := ((hseats l).row.of_sleeping ((hseats l).sleeping.mp hs)).1
    refine (hc l hl).plain hcanc ?_
    rw [Function.comp_apply, deschedSleep_lt, woken_state _ (by simp) rfl]
    exact hcanc
  | @enter σ l e hcpu hv hr hm =>
    exact hone hc hm fun hl => (hc l hl).plain (hrunning l hcpu) ((e.act_cancelled _).trans (hrunning l hcpu))
  | @join σ₁ σ l target ptr n u hr hcpu hlt hf hx h1 hm =>
    have hc₁ := hone hc h1 fun hl => (hc target hl).onLt rfl rfl
    have hcanc : (σ₁ l).lt.state .cancelled = false := by
      rw [← hrunning l hcpu]
      exact h1.keeps (·.lt.state .cancelled) rfl l
    exact hone hc₁ hm fun hl => (hc₁ l hl).plain hcanc ((joinAct_cancelled _).trans hcanc)
  | @joinExited σ₁ σ l target ptr hr hcpu hf hx h1 hm =>
    have hc₁ := hone hc h1 fun hl => (hc l hl).onLt rfl rfl
    exact hone hc₁ hm fun hl => (hc₁ target hl).onLt rfl rfl
  | @cancel σ₁ σ l d w hr hl hf hrun hcan hins h1 hm =>
    have hl' : ¬ c ≠ some l := not_not.mpr (hR l hr)
    rcases h1 with rfl | ⟨m, hml, hmw, -, h1⟩
    · exact hone hc hm fun h0 => absurd h0 hl'
    · exact hone (hone hc h1 fun h0 => (hc m h0).unregistered (hseats m) hmw) hm fun h0 => absurd h0 hl'
  | @resume σ₁ σ₂ σ l t hr hcpu hf hcanc ht he h1 h2 hm =>
    intro m hmc
    by_cases hml : m = l
    · subst hml
      exact (hc m hmc).plain hcanc ((h'.current (l := m) rfl).1.bits _ rfl)
    · obtain ⟨j, f, h3⟩ := h2.onLt m
      change (σ m).CancelledOnce (b.dropped m)
      rw [hm.other hml, h3, h1.other hml]
      exact (hc m hmc).onLt rfl rfl
  | @drop σ₁ σ₂ σ l t hcpu hf hcanc hq ht h1 h2 hm =>
    have hc₁ : ∀ m, c ≠ some m → (σ₁ m).CancelledOnce (Function.update b.dropped l true m) := by
      refine h1.all (P := fun m v => c ≠ some m → v.CancelledOnce (Function.update b.dropped l true m))
        (fun m hml hmc => ?_) fun hlc => ?_
      · rw [Function.update_of_ne hml]; exact hc m hmc
      · rw [Function.update_self]
        exact cancelledOnce_dropped (hc l hlc) (hseats l) hcanc hq ht
    have hc₂ := cancelledOnce_wakes hc₁ (fun j hj => by
      obtain ⟨u, hx⟩ := h.joiner_taken hf ht h1 hj
      rw [hx]
      rfl) h2
    refine hm.all (P := fun m v => c ≠ some m → v.CancelledOnce (Function.update b.dropped l true m)) (fun m _ => hc₂ m)
      fun hlc => ?_
    have hlast := (hc₂ l hlc).freeDetached
    rw [Function.update_self] at hlast ⊢
    refine hlast.keep (by rw [Function.comp_apply, unbusy_lt]) (by rw [Function.comp_apply, unbusy_lt])
      (by rw [Function.comp_apply, unbusy_lt]) fun hidle => ?_
    -- an lthread that has not been in a call of the busy list is not on it
    have hn := hlast.cnt (hlast.dropped rfl) hidle
    rw [Function.comp_apply, unbusy]
    split_ifs
    · rw [dropBusy_cnt, hn]
      rfl
    · rfl
  | @finish σ₁ σ l hcpu hf hx h1 hm =>
    have hc₁ := cancelledOnce_wakes hc (fun j hj => by
      obtain ⟨⟨t, hx⟩, -⟩ := h.links.join l j hj hf
      rw [hx]
      rfl) h1
    exact hone hc₁ hm fun hl => (hc₁ l hl).freeDetached
  | @computeAdd σ l hcpu hp hm =>
    obtain ⟨j, hx, -⟩ := (hseats l).pending.mp hp
    refine hone hc hm fun hl => (hc l hl).keep rfl ?_ ?_ fun hidle => ?_
    · simp [Lt.clearBit, Lt.setBit]
    · simp [Lt.clearBit, Lt.setBit]
    · rw [hx] at hidle; exact hidle.elim
  | switch hcpu | back hcpu he | phase hcpu => exact hc
  | @ioDone σ l w hw hm =>
    obtain ⟨e, hx, -⟩ := (hseats l).row.of_io hw
    refine hone hc hm fun hl => (hc l hl).keep rfl rfl rfl fun hidle => ?_
    rw [hx] at hidle; exact hidle.elim
  | @taken σ l j hj hp hm =>
    obtain ⟨hx, -⟩ := (hseats l).row.of_compute hj
    refine hone hc hm fun hl => (hc l hl).keep rfl rfl rfl fun hidle => ?_
    rw [hx] at hidle; exact hidle.elim
  | @computed σ l j hj hm =>
    obtain ⟨hx, -⟩ := (hseats l).row.of_taken hj
    refine hone hc hm fun hl => (hc l hl).keep rfl ?_ ?_ fun hidle => ?_
    · simp [Lt.clearBit]
    · simp [Lt.clearBit]
    · rw [hx] at hidle; exact hidle.elim

theorem drop_cpu {l : LtId} (ht : Turn R b b') (hd : b.dropped l = false) (hd' : b'.dropped l = true) :
    b'.cpu = .loop := by
  cases ht with
  | drop t hcpu hf hcanc hq ht h1 h2 hm => exact hcpu
  | _ => exact absurd (show b.dropped l = true from hd') (Bool.eq_false_iff.mp hd)

theorem on_live {l : LtId} (hres : ∀ l, R b (.resume l) → c = none) (ht : Turn R b b')
    (hc : ∀ l, c ≠ some l → (b.seat l).CancelledOnce (b.dropped l)) (hP : ∀ l, b.cpu.on = some l → b.dropped l = false)
    (hon : b'.cpu.on = some l) : b'.dropped l = false := by
  cases ht with
  | @resume σ₁ σ₂ σ m t hr hcpu hf hcanc ht he h1 h2 hm =>
    obtain rfl := Option.some_inj.mp hon
    refine Bool.eq_false_iff.mpr fun hd => ?_
    rw [(hc m (by rw [hres m hr]; exact nofun)).dropped hd] at hcanc
    cases hcanc
  | drop t hcpu hf hcanc hq ht h1 h2 hm =>
    change b.cpu.on = some l at hon
    rw [hcpu] at hon; cases hon
  | @enter σ m e hcpu hv hr hm =>
    refine hP l ?_
    rw [hcpu]
    cases e <;> exact hon
  | join hr hcpu hlt hf hx h1 hm => exact hP l (by rw [hcpu]; exact hon)
  | finish hcpu hf hx h1 hm => cases hon
  | computeAdd hcpu hp hm => exact hP l (by rw [hcpu]; exact hon)
  | switch hcpu =>
    refine hP l ?_
    rcases hcpu with hcpu | ⟨w, hcpu⟩ <;> rw [hcpu] <;> exact hon
  | back hcpu he => cases hon
  | _ => exact hP l hon

end Turn

theorem Row.of_severable {k : Bool} {x : Ctx} {n : Counts} (h : Row k false x n) (hs : x.severable = true) (hi : x.idle)
    (hr : n.ready = 0) : n = { sleeping := n.sleeping, waiting := n.waiting } := by
  cases h with
  | slept | polled | stray => rfl
  | awoken | closed => exact absurd hr one_ne_zero
  | blocked h | signalled h => rw [Ctx.cond_not_severable h] at hs; cases hs
  | ioQueued | ioDone | pending | computing | taken | computed => exact hi.elim
  | _ => cases hs

namespace World

open Seat

variable {x x' : World} {a : Label} {l m : LtId}

theorem made_clean (hok : x.cancelsClean a) {b : Board} (hr : made x a b (.cancel l)) : a.cancels = some l := by
  obtain ⟨-, rfl⟩ := made_of_cancel hr
  rfl

theorem made_uncancelled (hok : x.cancelsClean a) {b : Board} (hr : made x a b (.detach l)) :
    (b.seat l).lt.state .cancelled = false := by
  obtain rfl := made_board hr (by simp)
  exact hok.2.2.2.1 l (made_detach hr)

theorem cancelledOnce_target (hi : x.Inv true) (hok : x.cancelsClean (.call (.cancel l))) (hx : x.lthreadCancel l = .ok x')
    (hd : x'.dropped = x.dropped) (hT : (x.seat l).CancelledOnce (x.dropped l)) : (x'.seat l).CancelledOnce (x'.dropped l) := by
  obtain ⟨hsev, hready, hcanc, hdetach⟩ := hok.2.2.1 l rfl
  obtain ⟨d, hc, hone⟩ := lthreadCancel_cancels hi hx
  have hdrop : x.dropped l = false := Bool.eq_false_iff.mpr fun h0 => by
    rw [show x.sched.has l .cancelled = true from hT.dropped h0] at hcanc; cases hcanc
  rw [hd, hdrop]
  refine ⟨nofun, fun _ => ?_, fun _ => hc.detach.trans hdetach, fun _ hidle => ?_⟩
  · rw [hc.ctx]
    exact hsev
  · rw [hc.ctx] at hidle
    have hrow := hi.row l
    rw [hcanc] at hrow
    have hn := hrow.of_severable hsev hidle (List.count_eq_zero.mpr hready)
    have hns : ¬ (x.sched.lt l).ctx.served := by
      intro h0
      change (x.sched.lt l).ctx.idle at hidle
      cases hctx : (x.sched.lt l).ctx <;> rw [hctx] at h0 hidle <;> first | exact h0.elim | exact hidle.elim
    rw [hc.cnt, hone hns, hn]
    rfl

theorem cancelledOnce_step (hi : x.Inv true) (hok : x.cancelsClean a) (hx : x.step a = .ok x')
    (hT : ∀ l, (x.seat l).CancelledOnce (x.dropped l)) (l : LtId) : (x'.seat l).CancelledOnce (x'.dropped l) := by
  by_cases hl : a.cancels = some l
  · cases a with
    | call op =>
      cases op with
      | cancel target =>
        obtain rfl := Option.some_inj.mp hl
        obtain ⟨m, -, hcall⟩ := step_call hx
        exact cancelledOnce_target hi hok hcall (call_frame hcall).2.2.2 (hT target)
      | _ => cases hl
    | _ => cases hl
  · refine Turns.preserves (P := fun b => ∀ m, a.cancels ≠ some m → (b.seat m).CancelledOnce (b.dropped m))
      (made_cancel hok.1) ?_ (step_turns hi hok.1 hx) hi.seated (fun m _ => hT m) l hl
    intro b b' ht hb hb' hP
    exact ht.keeps_cancelledOnce (fun m hr => made_clean hok hr) (fun m hr => made_uncancelled hok hr) hb hb' hP

theorem cancelledOnce_reachable (h : worldMachine.Reachable cancelsClean x) (l : LtId) : (x.seat l).CancelledOnce (x.dropped l) := by
  refine Machine.Reachable.invariant_of (P := fun y : World => ∀ l, (y.seat l).CancelledOnce (y.dropped l)) ?_ ?_ h l
  · rintro y ⟨birth, capacity, n, rfl⟩ l
    rw [start_seat]
    exact ⟨nofun, nofun, nofun, nofun⟩
  · intro y a y' hy hP hok hs
    exact cancelledOnce_step (Inv.reachable (hy.mono fun _ _ h => h.1)) hok hs hP

end World
end Lthr

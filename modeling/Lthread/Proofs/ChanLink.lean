import Lthread.Proofs.ChanReg
import Lthread.Proofs.SchedOps
import Lthread.Spec.ChanRun

/-! The lthreads behind the selectors. `Linked` ties the place where an lthread
stands to the selector it uses, to the blocked list of that selector's
condition, to the ready queue and to the sleeping tree. A step touches one
lthread and its selector; `Linked.of_local` reduces every case to what happens
to these two. -/

namespace Lthr

open Sched

/-- Where the scheduler holds lthread `l`: nowhere while it runs; asleep while
its selector has target -1; on the ready queue, once, from the moment it has
been served until it is resumed. -/
def Placed (x : Sys) (l : LtId) : Prop :=
  match (x.sched.lt l).ctx with
  | .running => x.sched.ready.count l = 0 ∧ x.sched.sleeping.count l = 0 ∧
      x.sched.has l .sleeping = false
  | .selWait s t => t ≠ 0 ∧ x.sched.has l .expired = false ∧
      if (x.ch.sel s).target = -1 then
        x.sched.ready.count l = 0 ∧ x.sched.sleeping.count l = 1 ∧ x.sched.has l .sleeping = true
      else x.sched.ready.count l = 1 ∧ x.sched.sleeping.count l = 0 ∧
        x.sched.has l .sleeping = false
  | _ => False

structure Linked (x : Sys) : Prop where
  placed : ∀ l, Placed x l
  user : ∀ s l, (x.ch.sel s).user = some l ↔ ∃ t, (x.sched.lt l).ctx = .selWait s t
  stack : ∀ l l', (x.ch.sel (.stack l)).user = some l' → l' = l
  blocked : ∀ s, x.sched.blocked (.sel s) =
    if (x.ch.sel s).target = -1 then (x.ch.sel s).user.toList else []

/-- Nothing that `Placed` reads of lthread `l` is different. -/
structure SameView (a b : Sched) (l : LtId) : Prop where
  ctx : (b.lt l).ctx = (a.lt l).ctx
  ready : b.ready.count l = a.ready.count l
  sleeping : b.sleeping.count l = a.sleeping.count l
  sleepingBit : b.has l .sleeping = a.has l .sleeping
  expiredBit : b.has l .expired = a.has l .expired

namespace Linked

variable {x : Sys}

theorem user_inj (h : Linked x) {s s' : SelId} {l : LtId} (hs : (x.ch.sel s).user = some l)
    (hs' : (x.ch.sel s').user = some l) : s = s' := by
  obtain ⟨t, ht⟩ := (h.user s l).mp hs
  obtain ⟨t', ht'⟩ := (h.user s' l).mp hs'
  rw [ht] at ht'
  exact (Ctx.selWait.injEq .. ▸ ht').1

theorem placed_running (h : Linked x) {l : LtId} (hr : (x.sched.lt l).ctx = .running) :
    x.sched.ready.count l = 0 ∧ x.sched.sleeping.count l = 0 ∧
      x.sched.has l .sleeping = false := by
  have := h.placed l
  unfold Placed at this
  rwa [hr] at this

theorem placed_parked (h : Linked x) {s : SelId} {l : LtId} (hu : (x.ch.sel s).user = some l)
    (ht : (x.ch.sel s).target = -1) :
    ∃ t, t ≠ 0 ∧ (x.sched.lt l).ctx = .selWait s t ∧ x.sched.has l .expired = false ∧
      x.sched.ready.count l = 0 ∧ x.sched.sleeping.count l = 1 ∧
        x.sched.has l .sleeping = true := by
  obtain ⟨t, hc⟩ := (h.user s l).mp hu
  have := h.placed l
  unfold Placed at this
  simp only [hc, if_pos ht] at this
  exact ⟨t, this.1, hc, this.2.1, this.2.2⟩

theorem placed_woken (h : Linked x) {s : SelId} {l : LtId} (hu : (x.ch.sel s).user = some l)
    (ht : (x.ch.sel s).target ≠ -1) :
    ∃ t, t ≠ 0 ∧ (x.sched.lt l).ctx = .selWait s t ∧ x.sched.has l .expired = false ∧
      x.sched.ready.count l = 1 ∧ x.sched.sleeping.count l = 0 ∧
        x.sched.has l .sleeping = false := by
  obtain ⟨t, hc⟩ := (h.user s l).mp hu
  have := h.placed l
  unfold Placed at this
  simp only [hc, if_neg ht] at this
  exact ⟨t, this.1, hc, this.2.1, this.2.2⟩

theorem of_local {x' : Sys} (h : Linked x) (l : LtId) (s : SelId)
    (hother : ∀ l' ≠ l, SameView x.sched x'.sched l')
    (hsel : ∀ s' ≠ s, (x'.ch.sel s').user = (x.ch.sel s').user ∧
      (x'.ch.sel s').target = (x.ch.sel s').target ∧
        x'.sched.blocked (.sel s') = x.sched.blocked (.sel s'))
    (hbefore : ∀ l', (x.ch.sel s).user = some l' → l' = l)
    (hat : ∀ s' t, (x.sched.lt l).ctx = .selWait s' t → s' = s)
    (hstack : ∀ l', s = .stack l' → l' = l)
    (hplaced : Placed x' l)
    (hafter : ∀ l', (x'.ch.sel s).user = some l' ↔ l' = l ∧ ∃ t, (x'.sched.lt l).ctx = .selWait s t)
    (hat' : ∀ s' t, (x'.sched.lt l).ctx = .selWait s' t → s' = s)
    (hblocked : x'.sched.blocked (.sel s) =
      if (x'.ch.sel s).target = -1 then (x'.ch.sel s).user.toList else []) : Linked x' := by
  refine ⟨fun l' => ?_, fun s' l' => ?_, fun a b hab => ?_, fun s' => ?_⟩
  · by_cases hl : l' = l
    · exact hl ▸ hplaced
    · have hv := hother l' hl
      have hp := h.placed l'
      unfold Placed at hp ⊢
      rw [hv.ctx, hv.ready, hv.sleeping, hv.sleepingBit, hv.expiredBit]
      cases hc : (x.sched.lt l').ctx with
      | selWait s' t =>
        have hs' : s' ≠ s := by
          intro he
          exact hl (hbefore l' ((h.user s l').mpr ⟨t, he ▸ hc⟩))
        simp only [hc, (hsel s' hs').2.1] at hp ⊢
        exact hp
      | running => simpa only [hc] using hp
      | _ => simp only [hc] at hp
  · by_cases hs' : s' = s
    · subst hs'
      rw [hafter]
      by_cases hl : l' = l
      · subst hl; simp
      · simp only [hl, false_and, false_iff, (hother l' hl).ctx]
        exact fun hex => hl (hbefore l' ((h.user s' l').mpr hex))
    · rw [(hsel s' hs').1, h.user]
      by_cases hl : l' = l
      · subst hl
        constructor
        · rintro ⟨t, hc⟩; exact absurd (hat s' t hc) hs'
        · rintro ⟨t, hc⟩; exact absurd (hat' s' t hc) hs'
      · rw [(hother l' hl).ctx]
  · by_cases hs' : SelId.stack a = s
    · rw [hs', hafter] at hab
      rw [hab.1]
      exact (hstack a hs'.symm).symm
    · rw [(hsel _ hs').1] at hab
      exact h.stack a b hab
  · by_cases hs' : s' = s
    · subst hs'; exact hblocked
    · rw [(hsel s' hs').2.2, (hsel s' hs').2.1, (hsel s' hs').1]
      exact h.blocked s'

theorem congr {ch : Chans} (h : Linked x) (hu : ∀ s, (ch.sel s).user = (x.ch.sel s).user)
    (ht : ∀ s, (ch.sel s).target = (x.ch.sel s).target) : Linked ⟨x.sched, ch⟩ := by
  refine ⟨fun l => ?_, fun s l => ?_, fun l l' => ?_, fun s => ?_⟩
  · have hp := h.placed l
    unfold Placed at hp ⊢
    simp only [ht]
    exact hp
  · rw [hu]; exact h.user s l
  · rw [hu]; exact h.stack l l'
  · rw [ht, hu]; exact h.blocked s

theorem wake {ch : Chans} (h : Linked x) {s : SelId} (hp : x.ch.parked s)
    (hu : ∀ s', (ch.sel s').user = (x.ch.sel s').user)
    (ht : ∀ s' ≠ s, (ch.sel s').target = (x.ch.sel s').target)
    (hs : (ch.sel s).target ≠ -1) : Linked ⟨x.sched.lthreadCondSignal (.sel s), ch⟩ := by
  obtain ⟨l, hl⟩ := Option.ne_none_iff_exists'.mp hp.1
  have hbl : x.sched.blocked (.sel s) = l :: [] := by
    rw [h.blocked, if_pos hp.2, hl]; rfl
  obtain ⟨t, ht0, hc, -, hr0, hs1, hbit⟩ := h.placed_parked hl hp.2
  have hsig := x.sched.lthreadCondSignal_cons l (.sel s) hbl
  have hsleep := hsig.sleeping
  rw [if_pos hbit] at hsleep
  have hself (s' : SelId) (t' : ℕ) (hc' : (x.sched.lt l).ctx = .selWait s' t') : s' = s :=
    h.user_inj ((h.user s' l).mpr ⟨t', hc'⟩) hl
  refine h.of_local l s (fun l' hne => ⟨hsig.keeps.ctx l', ?_, ?_, ?_, ?_⟩)
    (fun s' hne => ⟨hu s', ht s' hne, ?_⟩) (fun l' hl' => ?_) hself (fun l' he => ?_) ?_
    (fun l' => ?_) (fun s' t' hc' => hself s' t' ?_) ?_
  · simp only [hsig.ready, List.count_append]
    simp [Ne.symm hne]
  · simp only [hsleep]
    exact List.count_erase_of_ne hne
  · simp only [hsig.has, lthreadDeschedSleep_has, hne, false_and, if_false]
  · simp only [hsig.has, lthreadDeschedSleep_has, hne, false_and, if_false]
  · simp only [hsig.blocked]
    exact Function.update_of_ne (by simpa using hne) _ _
  · exact Option.some_inj.mp (hl'.symm.trans hl)
  · exact (h.stack l' l (he ▸ hl)).symm
  · unfold Placed
    simp only [hsig.keeps.ctx, hc, if_neg hs, hsig.has, lthreadDeschedSleep_has, hbit, and_true,
      if_true, hsig.ready, hsleep, List.count_append, hr0, List.count_erase_self, hs1]
    simp [ht0]
  · simp only [hu, hl, hsig.keeps.ctx]
    constructor
    · intro he
      exact ⟨(Option.some_inj.mp he).symm, t, hc⟩
    · rintro ⟨rfl, -⟩; rfl
  · rw [← hsig.keeps.ctx]; exact hc'
  · simp only [hsig.blocked, Function.update_self, if_neg hs]

theorem block {ch : Chans} (h : Linked x) {l : LtId} (hr : (x.sched.lt l).ctx = .running)
    {s : SelId} (hn : (x.ch.sel s).user = none) (ht : (x.ch.sel s).target = -1)
    (hstack : ∀ l', s = .stack l' → l' = l) {t : ℕ} (ht0 : t ≠ 0)
    (hself : (ch.sel s).user = some l)
    (hu : ∀ s' ≠ s, (ch.sel s').user = (x.ch.sel s').user)
    (htgt : ∀ s', (ch.sel s').target = (x.ch.sel s').target) :
    Linked ⟨((x.sched.lthreadCondWait l (.sel s) t).setCtx l (.selWait s t)).clearBit l .expired,
      ch⟩ := by
  set y := ((x.sched.lthreadCondWait l (.sel s) t).setCtx l (.selWait s t)).clearBit l .expired
    with hy
  obtain ⟨hr0, hs0, -⟩ := h.placed_running hr
  have hctx (l' : LtId) : (y.lt l').ctx = if l' = l then .selWait s t else (x.sched.lt l').ctx := by
    rw [hy, (clearBit_keeps _ l .expired).ctx, setCtx, modify_lt]
    split_ifs with he
    · rfl
    · exact (lthreadCondWait_keeps x.sched l (.sel s) t).ctx l'
  have hready : y.ready = x.sched.ready := by simp [hy]
  have hsleep : y.sleeping = l :: x.sched.sleeping := by
    simp [hy, lthreadCondWait_sleeping, ht0]
  have hblocked : y.blocked = Function.update x.sched.blocked (.sel s) [l] := by
    have hnil : x.sched.blocked (.sel s) = [] := by rw [h.blocked, hn]; simp
    simp [hy, lthreadCondWait_blocked, hnil]
  have hhas (l' : LtId) (b : LtSt) (hb : b = .sleeping ∨ b = .expired) :
      y.has l' b = if l' = l then decide (b = .sleeping) else x.sched.has l' b := by
    simp only [hy, clearBit_has, setCtx_has, lthreadCondWait_has]
    rcases hb with rfl | rfl <;> by_cases he : l' = l <;> simp [he, ht0]
  refine h.of_local l s (fun l' hne => ⟨?_, ?_, ?_, ?_, ?_⟩)
    (fun s' hne => ⟨hu s' hne, htgt s', ?_⟩) (fun l' hl' => ?_) (fun s' t' hc => ?_) hstack ?_
    (fun l' => ?_) (fun s' t' hc => ?_) ?_
  · simp only [hctx, if_neg hne]
  · simp only [hready]
  · simp only [hsleep]
    exact List.count_cons_of_ne (Ne.symm hne)
  · simp only [hhas l' .sleeping (Or.inl rfl), if_neg hne]
  · simp only [hhas l' .expired (Or.inr rfl), if_neg hne]
  · simp only [hblocked]
    exact Function.update_of_ne (by simpa using hne) _ _
  · rw [hn] at hl'; cases hl'
  · rw [hr] at hc; cases hc
  · unfold Placed
    simp only [hctx, if_true, hhas l .sleeping (Or.inl rfl), hhas l .expired (Or.inr rfl), htgt,
      if_pos ht, hready, hr0, hsleep, List.count_cons_self, hs0]
    simp [ht0]
  · simp only [hself, hctx, if_true]
    constructor
    · intro he
      exact ⟨(Option.some_inj.mp he).symm, t, rfl⟩
    · rintro ⟨rfl, -⟩; rfl
  · simp only [hctx, if_true] at hc
    exact (Ctx.selWait.injEq .. ▸ hc).1.symm
  · simp only [hblocked, Function.update_self, htgt, if_pos ht, hself]
    rfl

/-- The scheduler of an lthread that comes back from its wait on selector `s`. -/
theorem back {sched : Sched} {ch : Chans} (h : Linked x) {l : LtId} {s : SelId}
    (hl : (x.ch.sel s).user = some l)
    (hother : ∀ l' ≠ l, SameView x.sched sched l')
    (hctx : (sched.lt l).ctx = .running)
    (hfree : sched.ready.count l = 0 ∧ sched.sleeping.count l = 0 ∧ sched.has l .sleeping = false)
    (hblocked : sched.blocked = Function.update x.sched.blocked (.sel s) [])
    (hself : (ch.sel s).user = none) (hsel : ∀ s' ≠ s, ch.sel s' = x.ch.sel s') :
    Linked ⟨sched, ch⟩ := by
  have hat (s' : SelId) (t' : ℕ) (hc' : (x.sched.lt l).ctx = .selWait s' t') : s' = s :=
    h.user_inj ((h.user s' l).mpr ⟨t', hc'⟩) hl
  refine h.of_local l s hother (fun s' hne => ?_) (fun l' hl' => ?_) hat (fun l' he => ?_) ?_
    (fun l' => ?_) (fun s' t' hc' => ?_) ?_
  · rw [hsel s' hne]
    refine ⟨rfl, rfl, ?_⟩
    simp only [hblocked]
    exact Function.update_of_ne (by simpa using hne) _ _
  · exact Option.some_inj.mp (hl'.symm.trans hl)
  · exact (h.stack l' l (he ▸ hl)).symm
  · unfold Placed
    simp only [hctx]
    exact hfree
  · simp [hself, hctx]
  · simp only [hctx] at hc'
    cases hc'
  · simp only [hblocked, Function.update_self, hself]
    split_ifs <;> rfl

end Linked

namespace Sys

variable {x : Sys} {l : LtId} {s : SelId} {t : ℕ}

/-- The scheduler once `l`, taken from the ready queue, has left its wait. -/
def resumed (x : Sys) (l : LtId) (t : ℕ) : Sched :=
  (({ x.sched with ready := x.sched.ready.erase l } : Sched).lthreadSchedBusySleepEnd l t).setCtx l
    .running

/-- The scheduler once `l`, found expired, has left its wait. -/
def timedOut (x : Sys) (l : LtId) (s : SelId) (t : ℕ) : Sched :=
  ({ ((x.sched.lthreadDeschedSleep l).setBit l .expired).lthreadSchedBusySleepEnd l t with
    blocked := Function.update x.sched.blocked (.sel s) ((x.sched.blocked (.sel s)).erase l) } :
      Sched).setCtx l .running

theorem step_resume (h : Linked x) {x' : Sys} (hstep : x.chanStep (.resume l) = some x') :
    ∃ s t, (x.ch.sel s).user = some l ∧ (x.ch.sel s).target ≠ -1 ∧
      x' = ⟨x.resumed l t, (x.ch.setTarget s (-1)).finish s (x.ch.sel s).target⟩ := by
  unfold chanStep at hstep
  cases hc : (x.sched.lt l).ctx with
  | selWait s t =>
    simp only [hc] at hstep
    split_ifs at hstep with hmem
    have hu := (h.user s l).mpr ⟨t, hc⟩
    have ht : (x.ch.sel s).target ≠ -1 := by
      intro ht
      obtain ⟨_, -, -, -, hr, -⟩ := h.placed_parked hu ht
      exact absurd hmem (List.count_eq_zero.mp hr)
    obtain ⟨_, -, -, hexp, -⟩ := h.placed_woken hu ht
    refine ⟨s, t, hu, ht, ?_⟩
    have hret : ({ x.sched with ready := x.sched.ready.erase l } : Sched).lthreadCondWaitEnd l
        (.sel s) t = (({ x.sched with ready := x.sched.ready.erase l } :
          Sched).lthreadSchedBusySleepEnd l t, 0) := by
      rw [lthreadCondWaitEnd_eq, lthreadSchedBusySleepEnd_expired, if_neg]
      change ¬ x.sched.has l .expired = true
      rw [hexp]
      exact Bool.false_ne_true
    rw [← Option.some_inj.mp hstep]
    simp only [returnFrom, chanBlockSelectEnd, hret, ne_eq, not_true_eq_false, false_and, if_false]
    rfl
  | _ => simp [hc] at hstep

theorem step_expire (h : Linked x) {x' : Sys} (hstep : x.chanStep (.expire l) = some x') :
    ∃ s t, (x.ch.sel s).user = some l ∧ (x.ch.sel s).target = -1 ∧ t ≠ 0 ∧
      x' = ⟨x.timedOut l s t, (x.ch.selRemoveAllChans s).finish s (-2)⟩ := by
  unfold chanStep at hstep
  cases hc : (x.sched.lt l).ctx with
  | selWait s t =>
    simp only [hc] at hstep
    split_ifs at hstep with hmem
    have hu := (h.user s l).mpr ⟨t, hc⟩
    have ht : (x.ch.sel s).target = -1 := by
      by_contra ht
      obtain ⟨_, -, -, -, -, hs, -⟩ := h.placed_woken hu ht
      exact absurd hmem (List.count_eq_zero.mp hs)
    obtain ⟨t', ht', hc', -⟩ := h.placed_parked hu ht
    obtain rfl : t = t' := by
      rw [hc] at hc'
      exact (Ctx.selWait.injEq .. ▸ hc').2
    refine ⟨s, t, hu, ht, ht', ?_⟩
    have hret : ((x.sched.lthreadDeschedSleep l).setBit l .expired).lthreadCondWaitEnd l (.sel s) t =
        ({ ((x.sched.lthreadDeschedSleep l).setBit l .expired).lthreadSchedBusySleepEnd l t with
          blocked := Function.update x.sched.blocked (.sel s)
            ((x.sched.blocked (.sel s)).erase l) }, -2) := by
      have hbit : ((x.sched.lthreadDeschedSleep l).setBit l .expired).has l .expired = true := by
        rw [setBit_has, if_pos ⟨rfl, rfl⟩]
      rw [lthreadCondWaitEnd_eq, lthreadSchedBusySleepEnd_expired, if_pos hbit, setBit_blocked,
        lthreadDeschedSleep_blocked]
    rw [← Option.some_inj.mp hstep]
    simp only [returnFrom, chanBlockSelectEnd, hret, ht]
    rfl
  | _ => simp [hc] at hstep

theorem resumed_linked (h : Linked x) (hu : (x.ch.sel s).user = some l)
    (ht : (x.ch.sel s).target ≠ -1) (r : ℤ) :
    Linked ⟨x.resumed l t, (x.ch.setTarget s (-1)).finish s r⟩ := by
  obtain ⟨_, -, hc, -, hr1, hs0, hbit⟩ := h.placed_woken hu ht
  have hk := lthreadSchedBusySleepEnd_keeps
    ({ x.sched with ready := x.sched.ready.erase l } : Sched) l t
  have hhas (l' : LtId) (b : LtSt) (hb : l' ≠ l ∨ b = .sleeping) :
      (x.resumed l t).has l' b = if l' = l then false else x.sched.has l' b := by
    simp only [resumed, setCtx_has, lthreadSchedBusySleepEnd_has]
    by_cases he : l' = l
    · rcases hb with hb | rfl
      · exact absurd he hb
      · rw [if_pos he, he]
        exact ite_eq_left_iff.mpr fun _ => hbit
    · simp only [he, false_and, if_false]
      rfl
  refine h.back hu (fun l' hne => ⟨?_, ?_, ?_, ?_, ?_⟩) ?_ ⟨?_, ?_, ?_⟩ ?_ ?_ fun s' hne => ?_
  · rw [resumed, setCtx, modify_lt, if_neg hne]; exact hk.ctx l'
  · simp only [resumed, setCtx_ready, lthreadSchedBusySleepEnd_ready]
    exact List.count_erase_of_ne hne
  · simp [resumed]
  · rw [hhas l' .sleeping (Or.inl hne), if_neg hne]
  · rw [hhas l' .expired (Or.inl hne), if_neg hne]
  · rw [resumed, setCtx, modify_lt, if_pos rfl]
  · simp only [resumed, setCtx_ready, lthreadSchedBusySleepEnd_ready]
    rw [List.count_erase_self, hr1]
  · simpa [resumed] using hs0
  · rw [hhas l .sleeping (Or.inr rfl), if_pos rfl]
  · have hnil : x.sched.blocked (.sel s) = [] := by rw [h.blocked, if_neg ht]
    simp only [resumed, setCtx_blocked, lthreadSchedBusySleepEnd_blocked]
    rw [← hnil, Function.update_eq_self]
  · rw [Chans.Registered.finish_sel_self]
  · exact Chans.Registered.finish_sel_ne hne _ _

theorem timedOut_linked (h : Linked x) (hu : (x.ch.sel s).user = some l)
    (ht : (x.ch.sel s).target = -1) (ht0 : t ≠ 0) (r : ℤ) :
    Linked ⟨x.timedOut l s t, (x.ch.selRemoveAllChans s).finish s r⟩ := by
  obtain ⟨_, -, hc, -, hr0, hs1, hbit⟩ := h.placed_parked hu ht
  have hk := (lthreadDeschedSleep_keeps x.sched l).trans ((setBit_keeps _ l .expired).trans
    (lthreadSchedBusySleepEnd_keeps _ l t))
  have hsleep : (x.timedOut l s t).sleeping = x.sched.sleeping.erase l := by
    simp [timedOut, lthreadDeschedSleep_sleeping, hbit]
  have hready : (x.timedOut l s t).ready = x.sched.ready := by simp [timedOut]
  have hhas (l' : LtId) (b : LtSt) : (x.timedOut l s t).has l' b =
      (((x.sched.lthreadDeschedSleep l).setBit l .expired).lthreadSchedBusySleepEnd l t).has l' b := by
    rw [timedOut, setCtx_has]; rfl
  have hhas' (l' : LtId) (b : LtSt) (hne : l' ≠ l) :
      (x.timedOut l s t).has l' b = x.sched.has l' b := by
    rw [hhas, lthreadSchedBusySleepEnd_has, if_neg (by simp [hne]), setBit_has,
      if_neg (by simp [hne]), lthreadDeschedSleep_has, if_neg (by simp [hne])]
  refine h.back hu (fun l' hne => ⟨?_, ?_, ?_, hhas' l' _ hne, hhas' l' _ hne⟩) ?_ ⟨?_, ?_, ?_⟩ ?_ ?_
    fun s' hne => ?_
  · rw [timedOut, setCtx, modify_lt, if_neg hne]; exact hk.ctx l'
  · rw [hready]
  · rw [hsleep]; exact List.count_erase_of_ne hne
  · rw [timedOut, setCtx, modify_lt, if_pos rfl]
  · rw [hready, hr0]
  · rw [hsleep, List.count_erase_self, hs1]
  · rw [hhas, lthreadSchedBusySleepEnd_has, if_pos ⟨rfl, Or.inr ⟨rfl, ht0⟩⟩]
  · have hone : x.sched.blocked (.sel s) = [l] := by rw [h.blocked, if_pos ht, hu]; rfl
    simp only [timedOut, setCtx_blocked, hone, List.erase_cons_head]
  · simp [Chans.finish, Chans.modSel]
  · simp [Chans.finish, Chans.modSel, hne]

end Sys
end Lthr

import Lthread.Proofs.ChanClose

/-! Runs of channel operations. `ChanCase` lists everything one step can do, with
the state it leads to; `ChanOk` is the invariant of all runs. -/

namespace Lthr

open Chans

structure ChanOk (x : Sys) : Prop where
  inv : x.ch.Inv x.ch.live
  linked : Linked x

/-- The scheduler after the peer of an exchange, if there is one, is signalled. -/
def Sched.signalled (s : Sched) : Option Wait → Sched
  | some w => s.lthreadCondSignal (.sel w.sel)
  | none => s

/-- What one step does. In the cases with a call, `s` is its selector and `st` the
state with the arguments of the call in it. -/
inductive ChanCase (x : Sys) : Sys → Prop
  | clock (t : ℕ) : ChanCase x { x with sched := { x.sched with usecNow := t } }
  | refused (c : ChanId) (m : Ptr) (hc : (x.ch.chan c).closed = true) :
      ChanCase x { x with ch := x.ch.refuse c m }
  | closedTwice : ChanCase x x
  | closed (c : ChanId) (hc : (x.ch.chan c).closed = false) : ChanCase x (x.chanClose c).1
  | served {s : SelId} {chans : ℕ → ChanId} {msgs : ℕ → Ptr} {w r : ℕ} {st' : Chans}
      {wait : Option Wait} (hu : (x.ch.sel s).user = none)
      (ht : Tried (x.ch.prepare s chans msgs w r) s st' wait) (hs : (st'.sel s).target ≠ -1) :
      ChanCase x ⟨x.sched.signalled wait, (st'.setTarget s (-1)).finish s (st'.sel s).target⟩
  | unserved {s : SelId} {chans : ℕ → ChanId} {msgs : ℕ → Ptr} {w r : ℕ}
      (hu : (x.ch.sel s).user = none)
      (hn : Unready (x.ch.prepare s chans msgs w r) s) :
      ChanCase x ⟨x.sched, (x.ch.prepare s chans msgs w r).finish s (-1)⟩
  | blocked {l : LtId} {s : SelId} {chans : ℕ → ChanId} {msgs : ℕ → Ptr} {w r t : ℕ}
      (hl : (x.sched.lt l).ctx = .running) (hu : (x.ch.sel s).user = none)
      (hstack : ∀ l', s = .stack l' → l' = l) (ht0 : t ≠ 0)
      (hn : Unready (x.ch.prepare s chans msgs w r) s) :
      ChanCase x
        ⟨((x.sched.lthreadCondWait l (.sel s) t).setCtx l (.selWait s t)).clearBit l .expired,
          ((x.ch.prepare s chans msgs w r).register s).park s l⟩
  | resumed {l : LtId} {s : SelId} (t : ℕ) (hu : (x.ch.sel s).user = some l)
      (ht : (x.ch.sel s).target ≠ -1) :
      ChanCase x ⟨x.resumed l t, (x.ch.setTarget s (-1)).finish s (x.ch.sel s).target⟩
  | expired {l : LtId} {s : SelId} {t : ℕ} (hu : (x.ch.sel s).user = some l)
      (ht : (x.ch.sel s).target = -1) (ht0 : t ≠ 0) :
      ChanCase x ⟨x.timedOut l s t, (x.ch.selRemoveAllChans s).finish s (-2)⟩

namespace Sys

variable {x : Sys} {l : LtId} {s : SelId} {st st' : Chans} {wait : Option Wait} {t : ℕ}

/-- The three outcomes of `chan_block_select_`, up to its yield, from a state in which `st` has
the arguments of the call. -/
inductive Selected (x : Sys) (st : Chans) (l : LtId) (s : SelId) : ℕ → Sys → Option ℤ → Prop
  | served {st' : Chans} {wait : Option Wait} {t : ℕ} (ht : Tried st s st' wait) (hs : (st'.sel s).target ≠ -1) :
      Selected x st l s t ⟨x.sched.signalled wait, (st'.setTarget s (-1)).finish s (st'.sel s).target⟩
        (some (st'.sel s).target)
  | unserved (hn : Unready st s) : Selected x st l s 0 ⟨x.sched, st.finish s (-1)⟩ (some (-1))
  | blocked {t : ℕ} (ht0 : t ≠ 0) (hn : Unready st s) :
      Selected x st l s t
        ⟨(x.sched.lthreadCondWait l (.sel s) t).setCtx l (.selWait s t), (st.register s).park s l⟩ none

theorem select_served (hall : st.tryAll s = some (st', wait)) (ht : (st'.sel s).target ≠ -1) :
    select { x with ch := st } l s t =
      some (⟨x.sched.signalled wait, (st'.setTarget s (-1)).finish s (st'.sel s).target⟩,
        some (st'.sel s).target) := by
  unfold select chanBlockSelect
  simp only [hall, if_pos ht]
  cases wait <;> rfl

theorem select_unserved (hall : st.tryAll s = some (st', wait)) (ht : (st'.sel s).target = -1) :
    select { x with ch := st } l s 0 = some (⟨x.sched, st'.finish s (-1)⟩, some (-1)) := by
  unfold select chanBlockSelect
  simp only [hall, ht, ne_eq, not_true_eq_false, if_false, if_true]

theorem select_blocks (hall : st.tryAll s = some (st', wait)) (ht : (st'.sel s).target = -1) (ht0 : t ≠ 0) :
    select { x with ch := st } l s t =
      some (⟨(x.sched.lthreadCondWait l (.sel s) t).setCtx l (.selWait s t), (st'.register s).park s l⟩, none) := by
  unfold select chanBlockSelect
  simp only [hall, ht, ne_eq, not_true_eq_false, if_false, if_neg ht0]

end Sys

namespace ChanOk

variable {x : Sys} {l : LtId} {s : SelId}

theorem idle_stack (h : ChanOk x) (hr : (x.sched.lt l).ctx = .running) :
    (x.ch.sel (.stack l)).user = none := by
  cases hu : (x.ch.sel (.stack l)).user with
  | none => rfl
  | some l' =>
    obtain rfl := h.linked.stack l l' hu
    obtain ⟨t, ht⟩ := (h.linked.user (.stack l') l').mp hu
    rw [hr] at ht
    cases ht

theorem lthreadSelInit_eq (h : ChanOk x) (hu : (x.ch.sel s).user = none) :
    x.lthreadSelInit s = x := by
  have ht := h.inv.registered.idle s hu
  have hb := h.linked.blocked s
  rw [hu, if_pos ht] at hb
  unfold Sys.lthreadSelInit
  rw [setTarget_self ht, show ([] : List LtId) = x.sched.blocked (.sel s) from hb.symm,
    Function.update_eq_self]

theorem tried_target {st st' : Chans} {wait : Option Wait} (ht : Tried st s st' wait)
    (h : (st'.sel s).target = -1) : st' = st ∧ wait = none ∧ Unready st s := by
  rcases Called.tried_serves ht with h1 | ⟨i, written, hs⟩
  · exact h1
  · have := hs.target ⟨s, i⟩ (by simp)
    rw [h] at this
    omega

theorem selected (h : ChanOk x) (hu : (x.ch.sel s).user = none) {chans : ℕ → ChanId}
    {msgs : ℕ → Ptr} {w r t : ℕ} {x' : Sys} {res : Option ℤ}
    (heq : Sys.select { x with ch := x.ch.prepare s chans msgs w r } l s t = some (x', res)) :
    Sys.Selected x (x.ch.prepare s chans msgs w r) l s t x' res := by
  have hcalled : (x.ch.prepare s chans msgs w r).Called s := h.inv.called hu chans msgs w r
  cases hall : (x.ch.prepare s chans msgs w r).tryAll s with
  | none =>
    unfold Sys.select Sys.chanBlockSelect at heq
    simp only [hall] at heq
    cases heq
  | some q =>
    obtain ⟨st', wait⟩ := q
    have ht := tryAll_spec hcalled.inv.registered hcalled.idle
      (fun c hc => (hcalled.inv.meeting.recv c hc).2) hall
    by_cases htgt : (st'.sel s).target = -1
    · obtain ⟨rfl, rfl, hn⟩ := tried_target ht htgt
      by_cases ht0 : t = 0
      · subst ht0
        rw [Sys.select_unserved hall htgt, Option.some_inj, Prod.mk.injEq] at heq
        obtain ⟨rfl, rfl⟩ := heq
        exact Sys.Selected.unserved hn
      · rw [Sys.select_blocks hall htgt ht0, Option.some_inj, Prod.mk.injEq] at heq
        obtain ⟨rfl, rfl⟩ := heq
        exact Sys.Selected.blocked ht0 hn
    · rw [Sys.select_served hall htgt, Option.some_inj, Prod.mk.injEq] at heq
      obtain ⟨rfl, rfl⟩ := heq
      exact Sys.Selected.served ht htgt

theorem select_case (h : ChanOk x) (hr : (x.sched.lt l).ctx = .running)
    (hu : (x.ch.sel s).user = none) (hstack : ∀ l', s = .stack l' → l' = l) {chans : ℕ → ChanId}
    {msgs : ℕ → Ptr} {w r t : ℕ} {x' : Sys} {res : Option ℤ}
    (heq : Sys.select { x with ch := x.ch.prepare s chans msgs w r } l s t = some (x', res)) :
    ChanCase x (if res = none then { x' with sched := x'.sched.clearBit l .expired } else x') := by
  cases h.selected hu heq with
  | served ht htgt => exact ChanCase.served hu ht htgt
  | unserved hn => exact ChanCase.unserved hu hn
  | blocked ht0 hn => exact ChanCase.blocked hr hu hstack ht0 hn

theorem send_case (h : ChanOk x) (hr : (x.sched.lt l).ctx = .running) {t : ℕ} {c : ChanId}
    {data : Ptr} {x' : Sys} {res : Option ℤ}
    (heq : Sys.chanSendWith t x l c data = some (x', res)) :
    ChanCase x (if res = none then { x' with sched := x'.sched.clearBit l .expired } else x') := by
  unfold Sys.chanSendWith at heq
  have hu := h.idle_stack hr
  split_ifs at heq with hc
  · rw [Option.some_inj, Prod.mk.injEq] at heq
    obtain ⟨rfl, rfl⟩ := heq
    exact ChanCase.refused c data hc
  · rw [h.lthreadSelInit_eq hu] at heq
    exact h.select_case hr hu (fun l' hl => (SelId.stack.inj hl).symm) heq

theorem step_case (h : ChanOk x) {a : ChanLabel} {x' : Sys} (hs : x.chanStep a = some x') :
    ChanCase x x' := by
  cases a with
  | clock t =>
    obtain rfl := Option.some_inj.mp hs
    exact ChanCase.clock t
  | resume l =>
    obtain ⟨s, t, hu, ht, rfl⟩ := Sys.step_resume h.linked hs
    exact ChanCase.resumed t hu ht
  | expire l =>
    obtain ⟨s, t, hu, ht, ht0, rfl⟩ := Sys.step_expire h.linked hs
    exact ChanCase.expired hu ht ht0
  | call l op =>
    unfold Sys.chanStep at hs
    simp only at hs
    split_ifs at hs with hc
    obtain ⟨hr, hcall⟩ := hc
    cases hop : x.callOp l op with
    | none => rw [hop] at hs; cases hs
    | some p =>
      obtain ⟨y, res⟩ := p
      have hx' : x' = if res = none then { y with sched := y.sched.clearBit l .expired } else y := by
        rw [hop] at hs
        cases res with
        | none => exact (Option.some_inj.mp hs).symm
        | some r => exact (Option.some_inj.mp hs).symm
      rw [hx']
      cases op with
      | send c data => exact h.send_case hr hop
      | sendNoblock c data => exact h.send_case hr hop
      | recv c data =>
        have hu := h.idle_stack hr
        simp only [Sys.callOp, Sys.chanRecv, h.lthreadSelInit_eq hu] at hop
        exact h.select_case hr hu (fun l' hl => (SelId.stack.inj hl).symm) hop
      | select n chans msgs w r t =>
        exact h.select_case hr hcall.2 (fun l' hl => by cases hl) hop
      | close c =>
        simp only [Sys.callOp, Option.some.injEq, Prod.mk.injEq] at hop
        obtain ⟨rfl, rfl⟩ := hop
        rw [if_neg (by simp)]
        cases hc : (x.ch.chan c).closed with
        | false => exact ChanCase.closed c hc
        | true =>
          have : (x.chanClose c).1 = x := by unfold Sys.chanClose; rw [if_pos hc]
          rw [this]
          exact ChanCase.closedTwice

theorem linked_served (h : ChanOk x) (hu : (x.ch.sel s).user = none) {chans : ℕ → ChanId}
    {msgs : ℕ → Ptr} {w r : ℕ} {st' : Chans} {wait : Option Wait}
    (ht : Tried (x.ch.prepare s chans msgs w r) s st' wait) (res : ℤ) :
    Linked ⟨x.sched.signalled wait, (st'.setTarget s (-1)).finish s res⟩ := by
  set st := x.ch.prepare s chans msgs w r with hst
  have hcalled : st.Called s := h.inv.called hu chans msgs w r
  have hsel {s' : SelId} (hne : s' ≠ s) : st.sel s' = x.ch.sel s' := by
    simp [hst, prepare, modSel, hne]
  obtain ⟨hcall, htarget, hpeer, -⟩ := Called.tried_frame ht
  have huser (s' : SelId) :
      (((st'.setTarget s (-1)).finish s res).sel s').user = (x.ch.sel s').user := by
    by_cases he : s' = s
    · subst he; rw [Registered.finish_sel_self, hu]
    · rw [Registered.finish_sel_ne he, (hcall s').user, hsel he]
  have htgt (s' : SelId) (hs' : some s' ≠ wait.map Wait.sel) :
      (((st'.setTarget s (-1)).finish s res).sel s').target = (x.ch.sel s').target := by
    by_cases he : s' = s
    · subst he; rw [Registered.finish_sel_self, h.inv.registered.idle s' hu]
    · rw [Registered.finish_sel_ne he, htarget s' he hs', hsel he]
  cases wait with
  | none => exact h.linked.congr huser fun s' => htgt s' (by simp)
  | some v =>
    have hp := (hcalled.tried_peer ht rfl).1
    have hne : v.sel ≠ s := hcalled.peer_ne hp
    unfold parked at hp
    rw [hsel hne] at hp
    refine h.linked.wake hp huser (fun s' hs' => htgt s' fun he => hs' (Option.some_inj.mp he)) ?_
    rw [Registered.finish_sel_ne hne, hpeer v rfl]
    omega

theorem step (h : ChanOk x) {x' : Sys} (hc : ChanCase x x') : ChanOk x' := by
  cases hc with
  | clock t =>
    have hL := h.linked
    exact ⟨h.inv, ⟨hL.placed, hL.user, hL.stack, hL.blocked⟩⟩
  | refused c m hc => exact ⟨h.inv.refuse c m, h.linked.congr (fun _ => rfl) (fun _ => rfl)⟩
  | closedTwice => exact h
  | closed c hc =>
    obtain ⟨hI, hL, -⟩ := Sys.chanClose_spec h.inv h.linked hc
    exact ⟨hI, hL⟩
  | @served s chans msgs w r st' wait hu ht hs =>
    have hcalled := h.inv.called hu chans msgs w r
    exact ⟨hcalled.finish ht ((hcalled.tried_accounts ht).outcome s (Or.inr rfl)),
      h.linked_served hu ht _⟩
  | @unserved s chans msgs w r hu hn =>
    have hcalled := h.inv.called hu chans msgs w r
    have hidle := hcalled.inv.registered.idle s hcalled.idle
    have ho := hcalled.inv.accounts.outcome s (Or.inr rfl)
    rw [hidle] at ho
    have hI := hcalled.finish (Tried.nothing hn) ho
    have hL := h.linked_served hu (Tried.nothing hn) (-1)
    rw [setTarget_self hidle] at hI hL
    exact ⟨hI, hL⟩
  | @blocked l s chans msgs w r t hl hu hstack ht0 hn =>
    refine ⟨(h.inv.called hu chans msgs w r).block hn l, h.linked.block hl hu
      (h.inv.registered.idle s hu) hstack ht0 ?_ (fun s' hne => ?_) (fun s' => ?_)⟩
    · simp [park_sel]
    · simp [park_sel, hne, prepare, modSel]
    · by_cases he : s' = s
      · subst he; simp [park_sel, prepare, modSel]
      · simp [park_sel, he, prepare, modSel]
  | resumed t hu ht =>
    exact ⟨h.inv.resume (by unfold live; rw [hu]; simp) ht, Sys.resumed_linked h.linked hu ht _⟩
  | expired hu ht ht0 =>
    exact ⟨h.inv.expire ⟨by rw [hu]; simp, ht⟩, Sys.timedOut_linked h.linked hu ht ht0 _⟩

theorem start (capacity : ChanId → ℕ) : ChanOk (Sys.chanStart capacity) := by
  have hq (c : ChanId) (side : Side) : (((Sys.chanStart capacity).ch.chan c).waitq side) = [] := by
    cases side <;> rfl
  have hbuf (c : ChanId) : ((Sys.chanStart capacity).ch.chan c).buffer = [] := by
    change (chanInit (capacity c)).buffer = []
    cases hb : (chanInit (capacity c)).queue with
    | none => exact Chan.buffer_none _ hb
    | some q =>
      rw [Chan.buffer_some _ hb, q.toList_eq_nil]
      simp only [chanInit, queueInit] at hb
      split_ifs at hb
      rw [← Option.some_inj.mp hb]
  refine ⟨⟨⟨fun c s side => ?_, fun c side => ?_, fun _ _ => rfl, fun s hs => absurd rfl hs⟩,
    ⟨fun c hn => absurd (hq c .recv) hn, fun c hn => absurd (hq c .send) hn,
      fun c w hw => absurd hw (by simp [Sys.chanStart, chanInit])⟩, ?_,
    ⟨fun c => hbuf c, fun c => List.Pairwise.nil, fun c => List.Pairwise.nil,
      fun c p hp => absurd hp (by simp [Sys.chanStart])⟩⟩,
    ⟨fun l => ⟨rfl, rfl, rfl⟩, fun s l => ?_, fun l l' hu => absurd hu (by
      simp [Sys.chanStart, Sys.freshSel]), fun s => rfl⟩⟩
  · rw [hq, if_neg fun hp => hp.1 rfl]
    rfl
  · cases side <;> rfl
  · exact ⟨fun s hs => absurd rfl hs, fun s _ hs => absurd rfl hs, fun s hs => absurd rfl hs,
      fun s hs => absurd rfl hs, fun r hr => absurd hr (by simp [Sys.chanStart]),
      fun c p hp => absurd hp (by simp [Sys.chanStart]), List.Pairwise.nil⟩
  · simp [Sys.chanStart, Sys.freshSel, Sys.freshLt]

theorem reachable {ok : Sys → ChanLabel → Prop} {x : Sys} (h : chanMachine.Reachable ok x) :
    ChanOk x := by
  refine h.invariant (fun x h0 => ?_) (fun x a x' hx _ hs => hx.step (hx.step_case hs))
  obtain ⟨capacity, rfl⟩ := h0
  exact start capacity

end ChanOk
end Lthr

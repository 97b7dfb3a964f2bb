import Lthread.Proofs.ChanSelect

/-! Receives that come back with a message. `chan_recv` has no result of its own for a closed
channel: `chan_try_recv` and `chan_close` store NULL for the receiver and its call succeeds.
Where neither happens, a receive that succeeds has got a message that was sent. -/

namespace Lthr

open Chans

/-- A receive from `c` does not find it closed and empty. -/
def Chans.Fruitful (st : Chans) (c : ChanId) : Prop := (st.chan c).closed = true → st.pending c ≠ []

instance (st : Chans) (c : ChanId) : Decidable (st.Fruitful c) :=
  inferInstanceAs (Decidable (_ → _ ≠ ([] : List Ptr)))

/-- No channel is closed while a receiver waits on it, and no receive starts on a channel that
is closed and has nothing left. -/
def feedsReceivers (x : Sys) : ChanLabel → Prop
  | .call _ (.close c) => (x.ch.chan c).recvq = []
  | .call _ (.recv c _) => x.ch.Fruitful c
  | .call _ (.select _ chans _ w r _) => ∀ i < w + r, w ≤ i → x.ch.Fruitful (chans i)
  | _ => True

instance (x : Sys) : (a : ChanLabel) → Decidable (feedsReceivers x a)
  | .call _ (.close c) => inferInstanceAs (Decidable ((x.ch.chan c).recvq = []))
  | .call _ (.recv c _) => inferInstanceAs (Decidable (x.ch.Fruitful c))
  | .call _ (.select _ chans _ w r _) => inferInstanceAs (Decidable (∀ i < w + r, w ≤ i → x.ch.Fruitful (chans i)))
  | .call _ (.send ..) | .call _ (.sendNoblock ..) => inferInstanceAs (Decidable True)
  | .clock _ | .resume _ | .expire _ => inferInstanceAs (Decidable True)

/-- If `r` is a receive case of `call`, the channel of that case has handed it a message. -/
def Chans.Got (st : Chans) (call : Sel) (r : ℤ) : Prop :=
  (call.wchanCount : ℤ) ≤ r → ofCall call.ticket (st.hist.handed (call.chans r.toNat)) ≠ []

/-- Every receive that was served, and every one that has returned, got a message. -/
structure Chans.Fed (st : Chans) : Prop where
  served : ∀ s, st.live s → st.Got (st.sel s) (st.sel s).target
  returned : ∀ r ∈ st.hist.returns, st.Got r.call r.result

namespace Chans.Got

variable {st st' : Chans} {a b : Sel} {r : ℤ}

theorem mono (h : st.Got a r) (hab : a.SameArgs b)
    (hh : ∀ c, st.hist.handed c <+: st'.hist.handed c) : st'.Got b r := by
  intro hr
  rw [hab.wcount] at hr
  rw [hab.ticket, hab.chans]
  have hpre := (hh (a.chans r.toNat)).filter fun p => decide (p.ticket = a.ticket)
  exact fun hnil => h hr (List.prefix_nil.mp (hnil ▸ hpre))

theorem of_neg (hr : r < 0) : st.Got a r := fun h => absurd h (by omega)

theorem of_send {i : ℕ} (hi : i < a.wchanCount) : st.Got a i := fun h => absurd h (by omega)

theorem of_dst {c : ChanId} {caller w : Wait} {peer src : Option Wait}
    (hx : Exchange st st' c caller peer src (some w)) (hc : (st.sel w.sel).chans w.idx = c) :
    st'.Got (st'.sel w.sel) w.idx := by
  intro _ hnil
  rw [Int.toNat_natCast, (hx.call w.sel).chans, hc, hx.handed, Function.update_self] at hnil
  have hmem : st'.passed w ∈ ofCall (st'.sel w.sel).ticket (st.hist.handed c ++ [st'.passed w]) :=
    List.mem_filter.mpr ⟨by simp, by simp [passed]⟩
  exact List.not_mem_nil (hnil ▸ hmem)

end Chans.Got

theorem Chans.Exchange.handed_prefix {st st' : Chans} {c : ChanId} {caller : Wait} {peer src dst : Option Wait}
    (h : Exchange st st' c caller peer src dst) (c' : ChanId) : st.hist.handed c' <+: st'.hist.handed c' := by
  rw [h.handed]
  by_cases hc : c' = c
  · subst hc
    rw [Function.update_self]
    exact List.prefix_append _ _
  · rw [Function.update_of_ne hc]

namespace Chans.Fed

variable {st st' : Chans} {s : SelId}

theorem finish (r t : ℤ) (hserved : ∀ s' ≠ s, st.live s' → st.Got (st.sel s') (st.sel s').target)
    (hreturned : ∀ r ∈ st.hist.returns, st.Got r.call r.result) (hs : st.Got (st.sel s) r) :
    ((st.setTarget s t).finish s r).Fed := by
  refine ⟨fun s' hl => ?_, fun q hq => ?_⟩
  · by_cases he : s' = s
    · subst he
      unfold live at hl
      rw [Registered.finish_sel_self] at hl
      exact absurd rfl hl
    · unfold live at hl
      rw [Registered.finish_sel_ne he] at hl ⊢
      exact hserved s' he hl
  · rcases List.mem_append.mp hq with h0 | h0
    · exact hreturned q h0
    · obtain rfl := List.mem_singleton.mp h0
      intro hr
      simp only [setTarget_sel, Function.update_self] at hr ⊢
      exact hs hr

theorem exchange {c : ChanId} {i : ℕ} {peer src dst : Option Wait}
    (hx : Exchange st st' c ⟨s, i⟩ peer src dst)
    (hserved : ∀ s' ≠ s, st.live s' → st.Got (st.sel s') (st.sel s').target)
    (hreturned : ∀ r ∈ st.hist.returns, st.Got r.call r.result)
    (hpeer : ∀ w, peer = some w → st'.Got (st'.sel w.sel) w.idx) (hs : st'.Got (st'.sel s) i) :
    ((st'.setTarget s (-1)).finish s (st'.sel s).target).Fed := by
  refine finish _ _ (fun s' hne hl => ?_) (fun r hr => ?_) ?_
  · have hlive : st.live s' := by
      unfold live at hl ⊢
      rwa [(hx.call s').user] at hl
    by_cases hp : ∃ w, peer = some w ∧ w.sel = s'
    · obtain ⟨w, hw, rfl⟩ := hp
      rw [hx.target w (by rw [hw]; simp)]
      exact hpeer w hw
    · have hother : (st'.sel s').target = (st.sel s').target := by
        refine hx.others s' fun v hv he => ?_
        rcases List.mem_cons.mp hv with rfl | hv
        · exact hne he.symm
        · exact hp ⟨v, Option.mem_toList.mp hv, he⟩
      rw [hother]
      exact (hserved s' hne hlive).mono (hx.call s').toSameArgs hx.handed_prefix
  · rw [hx.returns] at hr
    exact (hreturned r hr).mono ⟨rfl, rfl, rfl, rfl, rfl⟩ hx.handed_prefix
  · rw [hx.target ⟨s, i⟩ (by simp)]
    exact hs

variable {x x' : Sys} {l : LtId} {chans : ℕ → ChanId} {msgs : ℕ → Ptr} {w r t : ℕ} {res : Option ℤ}

theorem selected (h : x.ch.Fed) (hok : ChanOk x) (hu : (x.ch.sel s).user = none)
    (hfruit : ∀ i < w + r, w ≤ i → x.ch.Fruitful (chans i))
    (hsel : Sys.Selected x (x.ch.prepare s chans msgs w r) l s t x' res) : x'.ch.Fed := by
  have hcalled := hok.inv.called hu chans msgs w r
  have hserved (s' : SelId) (hne : s' ≠ s) (hl : (x.ch.prepare s chans msgs w r).live s') :
      (x.ch.prepare s chans msgs w r).Got ((x.ch.prepare s chans msgs w r).sel s')
        ((x.ch.prepare s chans msgs w r).sel s').target := by
    unfold live at hl
    rw [ChanOk.prepare_sel hne] at hl ⊢
    exact h.served s' hl
  have hreturned : ∀ r' ∈ (x.ch.prepare s chans msgs w r).hist.returns,
      (x.ch.prepare s chans msgs w r).Got r'.call r'.result := h.returned
  cases hsel with
  | served ht _ =>
    cases ht with
    | nothing hn => exact finish _ _ hserved hreturned (Got.of_neg (by
        rw [hcalled.inv.registered.idle s hcalled.idle]; omega))
    | @sent i _ _ hi hopen hpeer hroom hx hfirst =>
      refine exchange hx hserved hreturned (fun v hv => ?_) ?_
      · subst hv
        have hmem := hcalled.inv.registered.mem .recv (List.mem_of_head? hpeer)
        exact Got.of_dst hx hmem.2.2
      · refine Got.of_send ?_
        rw [(hx.call s).wcount]
        exact List.mem_range.mp hi
    | @received i _ _ hi hpeer hfull hx hfirst =>
      refine exchange hx hserved hreturned (fun v hv => ?_) (Got.of_dst hx rfl)
      subst hv
      have hmem := hcalled.inv.registered.mem .send (List.mem_of_head? hpeer)
      refine Got.of_send ?_
      rw [(hx.call v.sel).wcount]
      exact List.mem_range.mp hmem.2.1
    | @drained i _ hi hclosed hempty hn hfirst =>
      -- the condition of the run excludes this case
      rw [ChanOk.prepare_chans] at hclosed hempty
      obtain ⟨hle, hlt⟩ := ChanOk.mem_recvs.mp hi
      refine absurd ?_ (hfruit i hlt hle hclosed)
      unfold Chans.pending
      rw [show (x.ch.chan (chans i)).buffer = [] from hempty.2, show (x.ch.chan (chans i)).sendq = [] from hempty.1]
      rfl
  | unserved hn =>
    have hidle := hcalled.inv.registered.idle s hcalled.idle
    have hfed := finish (-1) (-1) hserved hreturned (Got.of_neg (by omega))
    rwa [setTarget_self hidle] at hfed
  | blocked ht0 hn =>
    refine ⟨fun s' hl => ?_, fun q hq => ?_⟩
    · unfold live at hl
      rw [park_sel, register_sel] at hl ⊢
      by_cases he : s' = s
      · subst he
        rw [Function.update_self, hcalled.inv.registered.idle s' hcalled.idle]
        exact Got.of_neg (by omega)
      · rw [Function.update_of_ne he] at hl ⊢
        refine (hserved s' he hl).mono ⟨rfl, rfl, rfl, rfl, rfl⟩ fun c => ?_
        rw [park_hist, register_hist]
    · rw [park_hist, register_hist] at hq
      refine (hreturned q hq).mono ⟨rfl, rfl, rfl, rfl, rfl⟩ fun c => ?_
      rw [park_hist, register_hist]

theorem refuse (h : x.ch.Fed) (c : ChanId) (m : Ptr) : (x.ch.refuse c m).Fed := by
  refine ⟨h.served, fun q hq => ?_⟩
  rcases List.mem_append.mp hq with h0 | h0
  · exact h.returned q h0
  · obtain rfl := List.mem_singleton.mp h0
    exact Got.of_neg (show (-1 : ℤ) < 0 by omega)

theorem send (h : x.ch.Fed) (hok : ChanOk x) (hr : (x.sched.lt l).ctx = .running) {c : ChanId} {data : Ptr}
    (heq : Sys.chanSendWith t x l c data = some (x', res)) : x'.ch.Fed := by
  unfold Sys.chanSendWith at heq
  have hu := hok.idle_stack hr
  split_ifs at heq
  · rw [Option.some_inj, Prod.mk.injEq] at heq
    rw [← heq.1]
    exact h.refuse c data
  · rw [hok.lthreadSelInit_eq hu] at heq
    exact h.selected hok hu (fun i hi hle => absurd hi (by omega)) (hok.selected hu heq)

theorem close (h : x.ch.Fed) {c : ChanId} (hq : (x.ch.chan c).recvq = []) : (x.chanClose c).1.ch.Fed := by
  unfold Sys.chanClose
  split_ifs
  · exact h
  · have hq' : ((x.ch.modChan c ({ · with closed := true })).chan c).recvq = [] := by
      simpa [modChan] using hq
    simp only [hq']
    exact ⟨h.served, h.returned⟩

theorem call (h : x.ch.Fed) (hok : ChanOk x) {op : ChanOp} (hr : (x.sched.lt l).ctx = .running)
    (hcall : x.callable op) (ha : feedsReceivers x (.call l op)) (hop : x.callOp l op = some (x', res)) :
    x'.ch.Fed := by
  cases op with
  | send c data => exact h.send hok hr hop
  | sendNoblock c data => exact h.send hok hr hop
  | recv c data =>
    have hu := hok.idle_stack hr
    simp only [Sys.callOp, Sys.chanRecv, hok.lthreadSelInit_eq hu] at hop
    exact h.selected hok hu (fun _ _ _ => ha) (hok.selected hu hop)
  | select n chans msgs w r t => exact h.selected hok hcall.2 ha (hok.selected hcall.2 hop)
  | close c =>
    simp only [Sys.callOp, Option.some.injEq, Prod.mk.injEq] at hop
    rw [← hop.1]
    exact h.close ha

theorem step (h : x.ch.Fed) (hok : ChanOk x) {a : ChanLabel} (ha : feedsReceivers x a)
    (hs : x.chanStep a = some x') : x'.ch.Fed := by
  cases a with
  | clock t =>
    obtain rfl := Option.some_inj.mp hs
    exact h
  | resume l =>
    obtain ⟨s, t, hu, -, rfl⟩ := Sys.step_resume hok.linked hs
    exact finish _ _ (fun s' _ hl => h.served s' hl) h.returned (h.served s (by unfold live; rw [hu]; simp))
  | expire l =>
    obtain ⟨s, t, -, ht, -, rfl⟩ := Sys.step_expire hok.linked hs
    have hfed : ((x.ch.selRemoveAllChans s).setTarget s (-1)).finish s (-2) |>.Fed := by
      refine finish _ _ (fun s' _ hl => ?_) (fun q hq => ?_) (Got.of_neg (by omega))
      · unfold live at hl
        rw [selRemoveAllChans_sel] at hl ⊢
        refine (h.served s' hl).mono ⟨rfl, rfl, rfl, rfl, rfl⟩ fun c => ?_
        rw [selRemoveAllChans_hist]
      · rw [selRemoveAllChans_hist] at hq
        refine (h.returned q hq).mono ⟨rfl, rfl, rfl, rfl, rfl⟩ fun c => ?_
        rw [selRemoveAllChans_hist]
    rwa [setTarget_self (by rw [selRemoveAllChans_sel]; exact ht)] at hfed
  | call l op =>
    unfold Sys.chanStep at hs
    simp only at hs
    split_ifs at hs with hc
    cases hop : x.callOp l op with
    | none => rw [hop] at hs; cases hs
    | some p =>
      obtain ⟨y, res⟩ := p
      have hfed := h.call hok hc.1 hc.2 ha hop
      rw [hop] at hs
      cases res with
      | none =>
        rw [← Option.some_inj.mp hs]
        exact hfed
      | some r =>
        rw [← Option.some_inj.mp hs]
        exact hfed

theorem reachable (h : chanMachine.Reachable feedsReceivers x) : x.ch.Fed := by
  refine h.invariant_of (P := fun x => x.ch.Fed) (fun x h0 => ?_)
    fun x a x' hrun hx ha hs => hx.step (ChanOk.reachable hrun) ha hs
  obtain ⟨capacity, rfl⟩ := h0
  exact ⟨fun s hs => absurd rfl hs, fun r hr => absurd hr List.not_mem_nil⟩

end Chans.Fed

/-- If nobody closes a channel under a waiting receiver and nobody receives from a channel that
is closed and has nothing left, a receive that succeeds has a message that was sent: the
channel handed out what is now in the cell of the receive, once and for this call, and a
send had put it into that channel. -/
theorem recv_gets_message {x : Sys} (h : chanMachine.Reachable feedsReceivers x) :
    ∀ r ∈ x.ch.hist.returns, ∀ i : ℕ, r.result = i → r.call.wchanCount ≤ i →
      ofCall r.call.ticket (x.ch.hist.handed (r.call.chans i)) = [⟨r.call.ticket, i, r.call.msgs i⟩] ∧
        r.call.msgs i ∈ (x.ch.hist.accepted (r.call.chans i)).map Passed.msg := by
  intro r hr i hi hle
  have hI := (ChanOk.reachable h).inv
  have hgot := (Fed.reachable h).returned r hr
  obtain ⟨-, -, ho⟩ := hI.accounts.returned r hr
  unfold Chans.Got at hgot
  rw [hi, Int.toNat_natCast] at hgot
  rcases ho.handed with hh | ⟨hh, -⟩
  · have hone := hh (r.call.chans i)
    rw [hi, Int.toNat_natCast, if_pos ⟨by omega, rfl⟩] at hone
    refine ⟨hone, ?_⟩
    have hmem : (⟨r.call.ticket, i, r.call.msgs i⟩ : Passed) ∈ x.ch.hist.handed (r.call.chans i) :=
      List.mem_of_mem_filter (hone ▸ List.mem_singleton_self _)
    rw [← hI.ordered.flow]
    exact List.mem_append_left _ (List.mem_map_of_mem (f := Passed.msg) hmem)
  · exact absurd (hh _) (hgot (by omega))

/-- Lthread 1 receives from channel 0, which is closed and empty; lthread 2 waits on channel 1
when it is closed. Both calls return 0 with NULL, and no message was ever sent. -/
theorem recv_gets_message_closed :
    ∃ x, chanMachine.Reachable anyStep x ∧ x.ch.hist.accepted 0 = [] ∧ x.ch.hist.accepted 1 = [] ∧
      x.ch.hist.returns.map (fun r => (r.call.wchanCount, r.call.chans 0, r.result, r.call.msgs 0)) =
        [(0, 0, 0, NULL), (0, 1, 0, NULL)] := by
  refine ⟨_, reachable_replay (fun _ => 1)
    [.call 3 (.close 0), .call 1 (.recv 0 5), .call 2 (.recv 1 5), .call 3 (.close 1), .resume 2] (by decide), ?_⟩
  decide

/-- Lthread 2 drains a channel that was closed with a message in it. -/
theorem recv_gets_message_drains :
    ∃ x, chanMachine.Reachable feedsReceivers x ∧ (x.ch.chan 0).closed = true ∧
      ∃ r ∈ x.ch.hist.returns, r.call.wchanCount = 0 ∧ r.result = 0 ∧
        r.call.msgs 0 ∈ (x.ch.hist.accepted (r.call.chans 0)).map Passed.msg := by
  obtain ⟨x, hrun, hc, r, hr, hw, hres⟩ : ∃ x, chanMachine.Reachable feedsReceivers x ∧
      (x.ch.chan 0).closed = true ∧ ∃ r ∈ x.ch.hist.returns, r.call.wchanCount = 0 ∧ r.result = 0 :=
    ⟨_, Machine.Reachable.of_replay (checked_step feedsReceivers) ⟨fun _ => 1, rfl⟩
      [.call 1 (.send 0 7), .call 1 (.close 0), .call 2 (.recv 0 5)] (by decide), by decide, by decide⟩
  exact ⟨x, hrun, hc, r, hr, hw, hres, (recv_gets_message hrun r hr 0 hres (by omega)).2⟩

end Lthr

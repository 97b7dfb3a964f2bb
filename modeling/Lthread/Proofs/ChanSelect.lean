import Lthread.Proofs.ChanSafety

/-! Which case `chan_select` serves: the first send case that is ready, or else the first
receive case that is. -/

namespace Lthr

open Chans

/-- The messages that a receive from `c` can get: those in the buffer and those of the
senders that wait, oldest first. -/
def Chans.pending (st : Chans) (c : ChanId) : List Ptr :=
  (st.chan c).buffer ++ (st.chan c).sendq.map fun w => (st.sel w.sel).msgs w.idx

/-- A call with selector `s` is served on channel `c`. Beside `s` at most the selector
`peer` changes: it leaves the wait queues and is signalled. -/
structure Sys.Affects (x x' : Sys) (s : SelId) (c : ChanId) (peer : Option SelId) : Prop where
  buffer : ∀ c' ≠ c, (x'.ch.chan c').buffer = (x.ch.chan c').buffer
  cap : ∀ c', (x'.ch.chan c').cap = (x.ch.chan c').cap
  closed : ∀ c', (x'.ch.chan c').closed = (x.ch.chan c').closed
  waitq : ∀ c' side, (x'.ch.chan c').waitq side =
    ((x.ch.chan c').waitq side).filter fun w => decide (some w.sel ≠ peer)
  sel : ∀ s' ≠ s, some s' ≠ peer → x'.ch.sel s' = x.ch.sel s'
  sched : x'.sched = match peer with
    | some p => x.sched.lthreadCondSignal (.sel p)
    | none => x.sched

theorem Sel.SameCall.eq {a b : Sel} (h : a.SameCall b) (hm : b.msgs = a.msgs) (ht : b.target = a.target) : b = a := by
  obtain ⟨⟨h1, h2, h3, h4, h5⟩, h6⟩ := h
  cases a
  cases b
  simp only at h1 h2 h3 h4 h5 h6 hm ht
  rw [h1, h2, h3, h4, h5, h6, hm, ht]

namespace ChanOk

variable {x : Sys} {s : SelId} {chans : ℕ → ChanId} {msgs : ℕ → Ptr} {w r : ℕ}

theorem prepare_sel {s' : SelId} (hne : s' ≠ s) : (x.ch.prepare s chans msgs w r).sel s' = x.ch.sel s' := by
  simp [prepare, modSel, hne]

theorem prepare_self : (x.ch.prepare s chans msgs w r).sel s =
    { x.ch.sel s with chans := chans, msgs := msgs, wchanCount := w, rchanCount := r
                      ticket := x.ch.hist.calls, given := msgs } := by
  simp [prepare, modSel]

theorem prepare_chans : ((x.ch.prepare s chans msgs w r).sel s).chans = chans := by rw [prepare_self]

theorem mem_sends {i : ℕ} : i ∈ (x.ch.prepare s chans msgs w r).idxs s .send ↔ i < w := by
  unfold idxs
  rw [prepare_self, List.mem_range]

theorem mem_recvs {i : ℕ} : i ∈ (x.ch.prepare s chans msgs w r).idxs s .recv ↔ w ≤ i ∧ i < w + r := by
  unfold idxs
  rw [prepare_self, List.mem_range'_1]

theorem prepare_pending (h : ChanOk x) (hu : (x.ch.sel s).user = none) (c : ChanId) :
    (x.ch.prepare s chans msgs w r).pending c = x.ch.pending c := by
  unfold Chans.pending
  refine congrArg _ (List.map_congr_left fun v hv => ?_)
  have hpar := (h.inv.registered.mem .send (c := c) hv).1
  rw [prepare_sel]
  rintro rfl
  exact hpar.1 hu

theorem ends {i : ℕ} {wait : Option Wait} {v : Wait} (hv : v = ⟨s, i⟩ ∨ wait = some v) :
    v.sel = s ∨ some v.sel = wait.map Wait.sel := by
  rcases hv with rfl | rfl
  · exact Or.inl rfl
  · exact Or.inr rfl

theorem affects {st' : Chans} {i : ℕ} {written wait : Option Wait} {c : ChanId} (res : ℤ)
    (hs : Serves (x.ch.prepare s chans msgs w r) st' (⟨s, i⟩ :: wait.toList) written wait)
    (hwritten : ∀ v, written = some v → v = ⟨s, i⟩ ∨ wait = some v)
    (hbuf : ∀ c' ≠ c, (st'.chan c').buffer = (x.ch.chan c').buffer) :
    x.Affects ⟨x.sched.signalled wait, (st'.setTarget s (-1)).finish s res⟩ s c (wait.map Wait.sel) := by
  refine ⟨hbuf, hs.cap, hs.closed, fun c' side => ?_, fun s' hne hpeer => ?_, ?_⟩
  · refine (hs.waitq c' side).trans (List.filter_congr fun v _ => ?_)
    exact decide_not.symm
  · rw [Registered.finish_sel_ne hne]
    have hcall := hs.call s'
    have htarget : (st'.sel s').target = ((x.ch.prepare s chans msgs w r).sel s').target := by
      refine hs.others s' fun v hv he => ?_
      rcases ends ((List.mem_cons.mp hv).imp_right Option.mem_toList.mp) with h0 | h0
      · exact hne (he.symm.trans h0)
      · exact hpeer (he ▸ h0)
    have hmsgs : (st'.sel s').msgs = ((x.ch.prepare s chans msgs w r).sel s').msgs := by
      funext j
      refine hs.msgs ⟨s', j⟩ fun he => ?_
      rcases ends (hwritten _ he) with h0 | h0
      · exact hne h0
      · exact hpeer h0
    exact (hcall.eq hmsgs htarget).trans (prepare_sel hne)
  · cases wait <;> rfl

theorem received_msg {st st' : Chans} {i : ℕ} {peer : Option Wait}
    (hpeer : (st.chan ((st.sel s).chans i)).sendq.head? = peer)
    (h : Exchange st st' ((st.sel s).chans i) ⟨s, i⟩ peer peer (some ⟨s, i⟩)) :
    (st.pending ((st.sel s).chans i)).head? = some ((st'.sel s).msgs i) := by
  have hflow := h.flow
  unfold Chans.pending
  cases hb : (st.chan ((st.sel s).chans i)).buffer with
  | cons m rest =>
    rw [hb] at hflow
    exact congrArg some (List.cons.inj hflow).1
  | nil =>
    rw [hb] at hflow
    cases hq : (st.chan ((st.sel s).chans i)).sendq with
    | nil =>
      rw [hq] at hpeer
      rw [← hpeer] at hflow
      cases hflow
    | cons v rest =>
      rw [hq] at hpeer
      rw [← hpeer] at hflow
      exact congrArg some (List.cons.inj hflow).1

theorem first_send {i : ℕ} (hi : i < w) (hready : x.ch.SendReady (chans i))
    (hfirst : (x.ch.prepare s chans msgs w r).First s i) : IsLeast { i | i < w ∧ x.ch.SendReady (chans i) } i := by
  refine ⟨⟨hi, hready⟩, fun j hj => ?_⟩
  by_contra hlt
  have hnot := hfirst.send j (mem_sends.mpr hj.1) (not_le.mp hlt)
  rw [prepare_chans] at hnot
  exact hnot hj.2

theorem first_recv {i : ℕ} (hi : w ≤ i ∧ i < w + r) (hready : x.ch.RecvReady (chans i))
    (hfirst : (x.ch.prepare s chans msgs w r).First s i) : (∀ i < w, ¬ x.ch.SendReady (chans i)) ∧
      IsLeast { i | w ≤ i ∧ i < w + r ∧ x.ch.RecvReady (chans i) } i := by
  refine ⟨fun j hj => ?_, ⟨hi.1, hi.2, hready⟩, fun j hj => ?_⟩
  · have hnot := hfirst.send j (mem_sends.mpr hj) (lt_of_lt_of_le hj hi.1)
    rwa [prepare_chans] at hnot
  · by_contra hlt
    have hnot := hfirst.recv j (mem_recvs.mpr ⟨hj.1, hj.2.1⟩) (not_le.mp hlt)
    rw [prepare_chans] at hnot
    exact hnot hj.2.2

theorem unready (hn : Unready (x.ch.prepare s chans msgs w r) s) : (∀ i < w, ¬ x.ch.SendReady (chans i)) ∧
    ∀ i, w ≤ i → i < w + r → ¬ x.ch.RecvReady (chans i) := by
  refine ⟨fun i hi => ?_, fun i hle hi => ?_⟩
  · have hno := hn.send i (mem_sends.mpr hi)
    rw [prepare_chans] at hno
    rintro (hroom | hq)
    · exact absurd hroom hno.2.2.not_lt
    · exact hq hno.2.1
  · have hno := hn.recv i (mem_recvs.mpr ⟨hle, hi⟩)
    rw [prepare_chans] at hno
    rintro (hb | hq | hc)
    · exact hb hno.2.2
    · exact hq hno.2.1
    · exact Bool.eq_false_iff.mp hno.1 hc

end ChanOk

/-- `chan_select` serves the first send case whose channel has room or a receiver, at once;
if there is none, the first receive case whose channel has a message, a sender or is closed,
with the oldest message that is pending there, or NULL. With timeout 0 it returns -1 exactly
if no case is ready, and then nothing has changed. Beside the channel that is served, and
the selector of the call, at most the registrations of one other selector change. -/
theorem select_first_ready {x : Sys} {l : LtId} {n w r timeout : ℕ} {chans : ℕ → ChanId} {msgs : ℕ → Ptr}
    (h : chanMachine.Reachable anyStep x) (hcall : x.callable (.select n chans msgs w r timeout))
    (hopen : ∀ i < w, (x.ch.chan (chans i)).closed = false) :
    ∃ x' res, x.chanSelect l (.heap n) chans msgs w r timeout = some (x', res) ∧
      ((∃ i, IsLeast { i | i < w ∧ x.ch.SendReady (chans i) } i ∧ res = some (i : ℤ) ∧
          ∃ peer, x.Affects x' (.heap n) (chans i) peer) ∨
        (∀ i < w, ¬ x.ch.SendReady (chans i)) ∧
          (∃ i, IsLeast { i | w ≤ i ∧ i < w + r ∧ x.ch.RecvReady (chans i) } i ∧ res = some (i : ℤ) ∧
            (x'.ch.sel (.heap n)).msgs i = (x.ch.pending (chans i)).headD NULL ∧
            ((x.ch.pending (chans i)) = [] → (x.ch.chan (chans i)).closed = true) ∧
            ∃ peer, x.Affects x' (.heap n) (chans i) peer) ∨
        (∀ i < w, ¬ x.ch.SendReady (chans i)) ∧ (∀ i, w ≤ i → i < w + r → ¬ x.ch.RecvReady (chans i)) ∧
          (timeout ≠ 0 → res = none) ∧
          (timeout = 0 → res = some (-1) ∧ x'.ch.chan = x.ch.chan ∧ x'.sched = x.sched ∧
            (x'.ch.sel (.heap n)).target = (x.ch.sel (.heap n)).target ∧
            ∀ s, s ≠ .heap n → x'.ch.sel s = x.ch.sel s)) := by
  have hok := ChanOk.reachable h
  obtain ⟨-, hu⟩ := hcall
  have hcalled : (x.ch.prepare (.heap n) chans msgs w r).Called (.heap n) := hok.inv.called hu chans msgs w r
  have hmeet (c : ChanId) (hc : ((x.ch.prepare (.heap n) chans msgs w r).chan c).recvq ≠ []) :=
    (hcalled.inv.meeting.recv c hc).2
  obtain ⟨st', wait, hall⟩ := tryAll_ok hcalled.inv.registered hcalled.idle hmeet fun i hi => by
    rw [ChanOk.prepare_chans]
    exact hopen i (ChanOk.mem_sends.mp hi)
  have hmsgs (t res : ℤ) (i : ℕ) : (((st'.setTarget (.heap n) t).finish (.heap n) res).sel (.heap n)).msgs i =
      (st'.sel (.heap n)).msgs i := by
    rw [Registered.finish_sel_self]
  unfold Sys.chanSelect
  cases tryAll_spec hcalled.inv.registered hcalled.idle hmeet hall with
  | nothing hn =>
    obtain ⟨hnosend, hnorecv⟩ := ChanOk.unready hn
    have hidle := hcalled.inv.registered.idle _ hcalled.idle
    by_cases ht0 : timeout = 0
    · subst ht0
      refine ⟨_, _, Sys.select_unserved hall hidle,
        Or.inr (Or.inr ⟨hnosend, hnorecv, fun h0 => absurd rfl h0, fun _ => ⟨rfl, rfl, rfl, ?_, fun s hs => ?_⟩⟩)⟩
      · simp [Chans.finish, Chans.prepare, modSel]
      · simp [Chans.finish, Chans.prepare, modSel, hs]
    · exact ⟨_, _, Sys.select_blocks hall hidle ht0,
        Or.inr (Or.inr ⟨hnosend, hnorecv, fun _ => rfl, fun h0 => absurd h0 ht0⟩)⟩
  | @sent i _ _ hi hop hpeer hroom hx hfirst =>
    have htgt : (st'.sel (.heap n)).target = i := hx.target ⟨.heap n, i⟩ (by simp)
    rw [ChanOk.prepare_chans] at hpeer hroom hx
    have hready : x.ch.SendReady (chans i) := by
      cases hq : (x.ch.chan (chans i)).recvq with
      | nil => exact Or.inl (hroom (hpeer.symm.trans (congrArg List.head? hq)))
      | cons v rest => exact Or.inr (by rw [hq]; simp)
    refine ⟨_, _, Sys.select_served hall (by omega),
      Or.inl ⟨i, ChanOk.first_send (ChanOk.mem_sends.mp hi) hready hfirst, by rw [htgt], wait.map Wait.sel, ?_⟩⟩
    exact ChanOk.affects _ hx.toServes (fun v hv => Or.inr hv) hx.buffer
  | @received i _ _ hi hpeer hfull hx hfirst =>
    have htgt : (st'.sel (.heap n)).target = i := hx.target ⟨.heap n, i⟩ (by simp)
    have hhead := ChanOk.received_msg hpeer hx
    rw [hok.prepare_pending hu, ChanOk.prepare_chans] at hhead
    rw [ChanOk.prepare_chans] at hpeer hfull hx
    have hready : x.ch.RecvReady (chans i) := by
      cases hq : (x.ch.chan (chans i)).sendq with
      | nil => exact Or.inl (hfull (hpeer.symm.trans (congrArg List.head? hq)))
      | cons v rest => exact Or.inr (Or.inl (by rw [hq]; simp))
    obtain ⟨hnosend, hleast⟩ := ChanOk.first_recv (ChanOk.mem_recvs.mp hi) hready hfirst
    refine ⟨_, _, Sys.select_served hall (by omega),
      Or.inr (Or.inl ⟨hnosend, i, hleast, by rw [htgt], ?_, fun hnil => ?_, wait.map Wait.sel, ?_⟩)⟩
    · rw [hmsgs, List.headD_eq_head?_getD, hhead]
      rfl
    · rw [hnil] at hhead
      cases hhead
    · exact ChanOk.affects _ hx.toServes (fun v hv => Or.inl (Option.some_inj.mp hv).symm) hx.buffer
  | @drained i _ hi hclosed hempty hn hfirst =>
    have htgt : (st'.sel (.heap n)).target = i := hn.target ⟨.heap n, i⟩ (by simp)
    rw [ChanOk.prepare_chans] at hclosed hempty
    obtain ⟨hnosend, hleast⟩ := ChanOk.first_recv (ChanOk.mem_recvs.mp hi) (Or.inr (Or.inr hclosed)) hfirst
    have hpending : x.ch.pending (chans i) = [] := by
      unfold Chans.pending
      rw [show (x.ch.chan (chans i)).buffer = [] from hempty.2, show (x.ch.chan (chans i)).sendq = [] from hempty.1]
      rfl
    refine ⟨_, _, Sys.select_served hall (by omega),
      Or.inr (Or.inl ⟨hnosend, i, hleast, by rw [htgt], ?_, fun _ => hclosed, none, ?_⟩)⟩
    · rw [hmsgs, hpending]
      exact hn.null
    · exact ChanOk.affects _ hn.toServes (fun v hv => Or.inl (Option.some_inj.mp hv).symm) fun c _ => hn.buffer c

/-- Lthread 1 waits to send 7 on channel 0. Lthread 2 offers 5 on channel 1 and would receive
from channels 2 and 0. -/
theorem select_first_ready_third :
    ∃ x, chanMachine.Reachable anyStep x ∧ (x.ch.chan 0).sendq = [⟨.stack 1, 0⟩] ∧
      ∃ x' res, x.chanSelect 2 (.heap 3) (fun i => (i + 1) % 3) (fun _ => 5) 1 2 0 = some (x', res) ∧
        res = some 2 ∧ (x'.ch.sel (.heap 3)).msgs 2 = 7 := by
  obtain ⟨x, hrun, hq, hcall, hopen, hsee⟩ : ∃ x, chanMachine.Reachable anyStep x ∧
      (x.ch.chan 0).sendq = [⟨.stack 1, 0⟩] ∧ x.callable (.select 3 (fun i => (i + 1) % 3) (fun _ => 5) 1 2 0) ∧
      (∀ i < 1, (x.ch.chan ((i + 1) % 3)).closed = false) ∧
      (x.chanSelect 2 (.heap 3) (fun i => (i + 1) % 3) (fun _ => 5) 1 2 0).map
        (fun p => (p.2, (p.1.ch.sel (.heap 3)).msgs 2)) = some (some 2, 7) :=
    ⟨_, reachable_replay (fun _ => 0) [.call 1 (.send 0 7)] (by decide), by decide, by decide, by decide, by decide⟩
  obtain ⟨x', res, heq, -⟩ := select_first_ready (l := 2) hrun hcall hopen
  rw [heq] at hsee
  obtain ⟨h1, h2⟩ := Prod.mk.inj (Option.some_inj.mp hsee)
  exact ⟨x, hrun, hq, x', res, heq, h1, h2⟩

end Lthr

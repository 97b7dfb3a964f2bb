import Lthread.Proofs.ChanSafety

/-! What a channel does after `chan_close`. The loop of `chan_close` looks at the
waiting receivers only; a sender that was blocked before stays in `sendq`, and a
later receive still takes its message. If no sender waits at the close, a closed
channel accepts nothing any more. -/

namespace Lthr

open Chans

/-- `chan_close` is called only on a channel on which no sender waits. -/
def closesIdle (x : Sys) : ChanLabel → Prop
  | .call _ (.close c) => (x.ch.chan c).sendq = []
  | _ => True

instance (x : Sys) : (a : ChanLabel) → Decidable (closesIdle x a)
  | .call _ (.close c) => inferInstanceAs (Decidable ((x.ch.chan c).sendq = []))
  | .call _ (.send ..) | .call _ (.sendNoblock ..) | .call _ (.recv ..) | .call _ (.select ..) =>
    inferInstanceAs (Decidable True)
  | .clock _ | .resume _ | .expire _ => inferInstanceAs (Decidable True)

def Dead (x : Sys) (c : ChanId) : Prop :=
  (x.ch.chan c).closed = true ∧ (x.ch.chan c).sendq = []

structure Drains (x x' : Sys) (c : ChanId) : Prop where
  accepted : x'.ch.hist.accepted c = x.ch.hist.accepted c
  handed : x.ch.hist.handed c <+: x'.ch.hist.handed c

theorem Drains.refl (x : Sys) (c : ChanId) : Drains x x c := ⟨rfl, List.prefix_refl _⟩

theorem Drains.trans {a b d : Sys} {c : ChanId} (h1 : Drains a b c) (h2 : Drains b d c) :
    Drains a d c := ⟨h2.accepted.trans h1.accepted, h1.handed.trans h2.handed⟩

variable {x x' : Sys} {c : ChanId}

theorem Chans.Serves.sendq_nil {st st' : Chans} {served : List Wait} {written peer : Option Wait}
    (h : Serves st st' served written peer) (hq : (st.chan c).sendq = []) :
    (st'.chan c).sendq = [] := by
  refine List.eq_nil_iff_forall_not_mem.mpr fun w hw => ?_
  have := (h.mem_waitq .send hw).1
  rw [Chan.waitq, hq] at this
  exact absurd this (by simp)

theorem tried_dead {st st' : Chans} {s : SelId} {wait : Option Wait} (ht : Tried st s st' wait)
    (hc : (st.chan c).closed = true) (hq : (st.chan c).sendq = []) :
    (st'.chan c).closed = true ∧ (st'.chan c).sendq = [] ∧
      st'.hist.accepted c = st.hist.accepted c ∧ st.hist.handed c <+: st'.hist.handed c := by
  cases ht with
  | nothing => exact ⟨hc, hq, rfl, List.prefix_refl _⟩
  | @sent i _ _ hi hopen hpeer hroom hx =>
    have hne : c ≠ (st.sel s).chans i := by
      rintro rfl
      rw [hc] at hopen
      cases hopen
    refine ⟨by rw [hx.closed]; exact hc, hx.sendq_nil hq, ?_, ?_⟩
    · rw [hx.accepted, Function.update_of_ne hne]
    · rw [hx.handed, Function.update_of_ne hne]
  | @received i _ _ hi hpeer hfull hx =>
    refine ⟨by rw [hx.closed]; exact hc, hx.sendq_nil hq, ?_, ?_⟩
    · rw [hx.accepted]
      by_cases he : c = (st.sel s).chans i
      · subst he
        rw [hq] at hpeer
        rw [Function.update_self, ← hpeer]
        simp
      · rw [Function.update_of_ne he]
    · rw [hx.handed]
      by_cases he : c = (st.sel s).chans i
      · subst he; rw [Function.update_self]; exact List.prefix_append _ _
      · rw [Function.update_of_ne he]
  | drained hi hcl _ hn _ =>
    refine ⟨by rw [hn.closed]; exact hc, hn.sendq_nil hq, by rw [hn.accepted], by rw [hn.handed]⟩

theorem dead_step (h : ChanOk x) (hd : Dead x c) (hs : ChanCase x x') :
    Dead x' c ∧ Drains x x' c := by
  obtain ⟨hc, hq⟩ := hd
  cases hs with
  | clock t => exact ⟨⟨hc, hq⟩, rfl, List.prefix_refl _⟩
  | refused c' m _ => exact ⟨⟨hc, hq⟩, rfl, List.prefix_refl _⟩
  | closedTwice => exact ⟨⟨hc, hq⟩, Drains.refl x c⟩
  | closed c' hopen =>
    obtain ⟨-, -, -, hcl⟩ := Sys.chanClose_spec h.inv h.linked hopen
    have hne : c ≠ c' := by
      rintro rfl
      rw [hc] at hopen
      cases hopen
    have hchan : (x.ch.modChan c' ({ · with closed := true })).chan c = x.ch.chan c := by
      simp [modChan, hne]
    refine ⟨⟨?_, ?_⟩, ⟨?_, ?_⟩⟩
    · rw [hcl.closed, hchan]; exact hc
    · have := hcl.waitq c .send
      rw [hchan, Chan.waitq, Chan.waitq, hq] at this
      exact List.sublist_nil.mp this
    · rw [hcl.accepted]; rfl
    · rw [hcl.handed]; exact List.prefix_refl _
  | @served s chans msgs w r st' wait hu ht hs =>
    obtain ⟨h1, h2, h3, h4⟩ := tried_dead (c := c) ht hc hq
    exact ⟨⟨h1, h2⟩, h3, h4⟩
  | unserved hu hn => exact ⟨⟨hc, hq⟩, rfl, List.prefix_refl _⟩
  | @blocked l s chans msgs w r t hl hu hstack ht0 hn =>
    set st := x.ch.prepare s chans msgs w r with hst
    refine ⟨⟨?_, ?_⟩, ⟨?_, ?_⟩⟩
    · rw [park_chan, register_closed]; exact hc
    · rw [park_chan]
      have hwaitq : ((st.register s).chan c).sendq =
          (st.chan c).sendq ++ st.entries s (st.idxs s .send) c := register_waitq st s c .send
      have hnil : st.entries s (st.idxs s .send) c = [] := by
        refine List.eq_nil_iff_forall_not_mem.mpr fun v hv => ?_
        obtain ⟨-, hi, rfl⟩ := st.mem_entries.mp hv
        have hopen := (hn.send v.idx hi).1
        have hc' : (st.chan ((st.sel s).chans v.idx)).closed = true := hc
        rw [hc'] at hopen
        cases hopen
      rw [hwaitq, hnil, List.append_nil]
      exact hq
    · rw [park_hist, register_hist]; rfl
    · rw [park_hist, register_hist]; exact List.prefix_refl _
  | resumed t hu ht => exact ⟨⟨hc, hq⟩, rfl, List.prefix_refl _⟩
  | @expired l s t hu ht ht0 =>
    refine ⟨⟨?_, ?_⟩, ⟨?_, ?_⟩⟩
    · exact (selRemoveAllChans_closed x.ch s c).trans hc
    · have := selRemoveAllChans_waitq x.ch s c .send
      rw [Chan.waitq, Chan.waitq, hq, List.nil_diff] at this
      exact this
    · exact congrFun (congrArg Hist.accepted (selRemoveAllChans_hist x.ch s)) c
    · have := congrFun (congrArg Hist.handed (selRemoveAllChans_hist x.ch s)) c
      exact (List.prefix_refl _).trans (by rw [← this]; exact List.prefix_refl _)

theorem dead_steps {ok : Sys → ChanLabel → Prop} (h : ChanOk x) (hd : Dead x c)
    (hrun : chanMachine.Steps ok x x') : ChanOk x' ∧ Dead x' c ∧ Drains x x' c := by
  induction hrun with
  | refl => exact ⟨h, hd, Drains.refl x c⟩
  | snoc _ _ hs ih =>
    obtain ⟨hok, hdead, hdr⟩ := ih
    have hcase := hok.step_case hs
    obtain ⟨hdead', hdr'⟩ := dead_step hok hdead hcase
    exact ⟨hok.step hcase, hdead', hdr.trans hdr'⟩

/-- Lthread 1 blocks in `chan_send`, lthread 2 closes the channel, lthread 3
receives the message of lthread 1, whose send then reports success. -/
theorem send_completes_after_close :
    ∃ x1 x2 x3, chanMachine.Reachable anyStep x1 ∧ (x1.chanClose 0).2 = 0 ∧
      chanMachine.step x1 (.call 2 (.close 0)) x2 ∧ chanMachine.Steps anyStep x2 x3 ∧
      x2.ch.hist.accepted 0 = [] ∧ x3.ch.hist.accepted 0 = [⟨0, 0, 7⟩] ∧
      x3.ch.hist.handed 0 = [⟨1, 0, 7⟩] ∧
      x3.ch.hist.returns.map (fun r => (r.call.ticket, r.result)) = [(1, 0), (0, 0)] := by
  have h1 := reachable_replay (fun _ => 0) [.call 1 (.send 0 7)] (by decide)
  refine ⟨_, _, _, h1, rfl, rfl, Machine.Steps.of_replay (M := chanMachine)
    (fun _ _ _ hs => ⟨trivial, hs⟩) [.call 3 (.recv 0 0), .resume 1] rfl, rfl, rfl, rfl, rfl⟩

/-- In a run in which no close meets a waiting sender: once `chan_close(c)` has
returned 0, `c` accepts no message; the messages delivered from then on are those
buffered at the close, in order; and a send on `c` that returns success had its
message accepted before the close. -/
theorem closed_accepts_nothing {x1 x2 x3 : Sys} {l : LtId} {c : ChanId}
    (h : chanMachine.Reachable closesIdle x1) (h0 : (x1.chanClose c).2 = 0)
    (hidle : closesIdle x1 (.call l (.close c)))
    (hclose : chanMachine.step x1 (.call l (.close c)) x2)
    (hrun : chanMachine.Steps closesIdle x2 x3) :
    x3.ch.hist.accepted c = x1.ch.hist.accepted c ∧
    x1.ch.hist.handed c <+: x3.ch.hist.handed c ∧
    (x3.ch.hist.handed c).map Passed.msg ++ (x3.ch.chan c).buffer =
      (x1.ch.hist.handed c).map Passed.msg ++ (x1.ch.chan c).buffer ∧
    ∀ r ∈ x3.ch.hist.returns, ∀ i : ℕ, r.result = i → i < r.call.wchanCount → r.call.chans i = c →
      ⟨r.call.ticket, i, r.call.given i⟩ ∈ x1.ch.hist.accepted c := by
  have hok := ChanOk.reachable h
  have hopen : (x1.ch.chan c).closed = false := by
    cases hc : (x1.ch.chan c).closed with
    | false => rfl
    | true =>
      unfold Sys.chanClose at h0
      rw [if_pos hc] at h0
      cases h0
  obtain ⟨-, -, hcl, hcloses⟩ := Sys.chanClose_spec hok.inv hok.linked hopen
  have hx2 : x2 = (x1.chanClose c).1 := by
    change x1.chanStep _ = some x2 at hclose
    unfold Sys.chanStep at hclose
    simp only at hclose
    split_ifs at hclose
    exact (Option.some_inj.mp hclose).symm
  rw [← hx2] at hcl hcloses
  have hdead : Dead x2 c := by
    refine ⟨hcl, ?_⟩
    have := hcloses.waitq c .send
    have hq : (x1.ch.chan c).sendq = [] := hidle
    have hnil : ((x1.ch.modChan c ({ · with closed := true })).chan c).waitq .send = [] := by
      simp [modChan, Chan.waitq, hq]
    rw [hnil] at this
    exact List.sublist_nil.mp this
  have hok2 := hok.step (hok.step_case hclose)
  obtain ⟨hok3, -, hdr⟩ := dead_steps hok2 hdead hrun
  have hacc : x3.ch.hist.accepted c = x1.ch.hist.accepted c := by
    rw [hdr.accepted, hcloses.accepted]; rfl
  refine ⟨hacc, ?_, ?_, fun r hr i hi hlt hcc => ?_⟩
  · have := hdr.handed
    rw [hcloses.handed] at this
    exact this
  · rw [hok3.inv.ordered.flow, hacc, hok.inv.ordered.flow]
  · obtain ⟨-, -, ho⟩ := hok3.inv.accounts.returned r hr
    have ha := ho.accepted c
    rw [hi, Int.toNat_natCast, if_pos ⟨by omega, by omega, hcc⟩] at ha
    have hmem : (⟨r.call.ticket, i, r.call.given i⟩ : Passed) ∈
        ofCall r.call.ticket (x3.ch.hist.accepted c) := by rw [ha]; simp
    rw [← hacc]
    exact (List.mem_filter.mp hmem).1

theorem closed_accepts_nothing_drained :
    ∃ x1 x2 x3, chanMachine.Reachable closesIdle x1 ∧ (x1.chanClose 0).2 = 0 ∧
      closesIdle x1 (.call 2 (.close 0)) ∧ chanMachine.step x1 (.call 2 (.close 0)) x2 ∧
      chanMachine.Steps closesIdle x2 x3 ∧ (x1.ch.chan 0).buffer = [7, 8] ∧
      (x3.ch.hist.handed 0).map Passed.msg = [7] ∧ (x3.ch.chan 0).buffer = [8] ∧
      x3.ch.hist.accepted 0 = x1.ch.hist.accepted 0 := by
  have hstep := checked_step closesIdle
  have h1 := Machine.Reachable.of_replay (M := chanMachine) hstep ⟨fun _ => 2, rfl⟩
    [.call 1 (.send 0 7), .call 1 (.send 0 8)] (by decide)
  refine ⟨_, _, _, h1, rfl, rfl, rfl, Machine.Steps.of_replay (M := chanMachine) hstep
    [.call 3 (.recv 0 0)] rfl, rfl, rfl, rfl, ?_⟩
  exact (closed_accepts_nothing (l := 2) (c := 0) h1 rfl rfl rfl (Machine.Steps.of_replay (M := chanMachine)
    hstep [.call 3 (.recv 0 0)] rfl)).1

end Lthr

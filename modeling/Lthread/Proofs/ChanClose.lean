import Lthread.Proofs.ChanInv
import Lthread.Proofs.ChanLink

/-! `chan_close`. Its loop walks over `recvq` while its own body unlinks entries
from it: the entry it stands on together with every other entry of the same
selector. The walk goes on along the links these entries keep, and still serves
each waiting selector exactly once. -/

namespace Lthr
namespace Chans

variable {st : Chans} {s : SelId}

theorem removeWait_tqeNext_ne (side : Side) {i j : ℕ} (h : j ≠ i) :
    (removeWait side s st i).tqeNext ⟨s, j⟩ = st.tqeNext ⟨s, j⟩ := by
  simp only [removeWait, Tailq.unlink]
  exact Function.update_of_ne (by simpa using h) _ _

theorem foldl_removeWait_tqeNext_ne (side : Side) {j : ℕ} :
    ∀ (is : List ℕ) (st : Chans), j ∉ is →
      (is.foldl (removeWait side s) st).tqeNext ⟨s, j⟩ = st.tqeNext ⟨s, j⟩ := by
  intro is
  induction is with
  | nil => intro st _; rfl
  | cons i is ih =>
    intro st hj
    simp only [List.mem_cons, not_or] at hj
    rw [List.foldl_cons, ih _ hj.2, removeWait_tqeNext_ne side hj.1]

/-- The link an entry keeps is to the entry after it at the moment it is taken out. -/
theorem foldl_removeWait_tqeNext (side : Side) (is js : List ℕ) (i : ℕ) (hi : i ∉ js) (st : Chans) :
    ((is ++ i :: js).foldl (removeWait side s) st).tqeNext ⟨s, i⟩ =
      Tailq.succ (((st.chan ((st.sel s).chans i)).waitq side).diff
        (st.entries s is ((st.sel s).chans i))) ⟨s, i⟩ := by
  have hchan := foldl_removeWait_chan side s is ((st.sel s).chans i) st
  have hsel := (foldl_removeWait_frame side s is st).1
  rw [List.foldl_append, List.foldl_cons, foldl_removeWait_tqeNext_ne side js _ hi]
  simp only [removeWait, Tailq.unlink, Function.update_self]
  rw [hsel, hchan, Chan.waitq_setWaitq_self]

/-- `sel_remove_all_chans` takes the entries of a queue out from front to back, so
each keeps its link to the entry that was after it at the start. -/
theorem Registered.removeAll_tqeNext (h : st.Registered) (hp : st.parked s) {c : ChanId}
    {a b : List Wait} {w : Wait} (hw : w.sel = s) (hq : (st.chan c).recvq = a ++ w :: b) :
    (st.selRemoveAllChans s).tqeNext w = b.head? := by
  obtain ⟨-, hidx, hc⟩ := h.mem .recv (c := c) (w := w) (by simp [Chan.waitq, hq])
  have hnodup := h.nodup c .recv
  have hfil := h.queue c s .recv
  obtain ⟨ws, i⟩ := w
  obtain rfl : ws = s := hw
  simp only [Chan.waitq, hq, if_pos hp] at hnodup hfil
  obtain ⟨is, js, his⟩ := List.append_of_mem hidx
  have hnd := st.idxs_nodup ws .recv
  rw [his] at hnd hfil
  have hjs : i ∉ js := by
    have := (List.nodup_append.mp hnd).2.1
    exact (List.nodup_cons.mp this).1
  have hea : (⟨ws, i⟩ : Wait) ∉ a := fun hm =>
    (List.nodup_append.mp hnodup).2.2 _ hm _ (List.mem_cons_self ..) rfl
  have heb : (⟨ws, i⟩ : Wait) ∉ b := (List.nodup_cons.mp (List.nodup_append.mp hnodup).2.1).1
  have hpre : a.filter (fun v => decide (v.sel = ws)) = st.entries ws is c := by
    have hent : st.entries ws (is ++ i :: js) c =
        st.entries ws is c ++ ⟨ws, i⟩ :: st.entries ws js c := by
      have hc' : (st.sel ws).chans i = c := hc
      simp [entries, hc']
    rw [hent, List.filter_append, List.filter_cons_of_pos (by simp)] at hfil
    refine ((List.append_cons_inj_of_notMem (fun hm => ?_) fun hm => ?_).mp hfil).1
    · exact hea (List.mem_filter.mp hm).1
    · exact heb (List.mem_filter.mp hm).1
  unfold selRemoveAllChans
  simp only
  set st1 := (st.idxs ws .send).foldl (removeWait .send ws) st with hst1
  have hsel1 : st1.sel = st.sel := (foldl_removeWait_frame .send ws _ st).1
  have hchan1 : (st1.chan c).waitq .recv = a ++ ⟨ws, i⟩ :: b := by
    rw [hst1, foldl_removeWait_chan]
    exact hq
  have hc1 : (st1.sel ws).chans i = c := by rw [hsel1]; exact hc
  rw [his, foldl_removeWait_tqeNext .recv is js i hjs, hc1, hchan1,
    entries_congr (a := st) (by rw [hsel1]), ← hpre, diff_filter_append]
  exact Tailq.succ_append_cons _ _ _ fun hm => hea (List.mem_filter.mp hm).1

/-- The links depend on the channels and on the arguments of the call only. -/
theorem foldl_removeWait_congr (side : Side) : ∀ (is : List ℕ) {a b : Chans}, b.chan = a.chan →
    b.tqeNext = a.tqeNext → (b.sel s).chans = (a.sel s).chans →
      (is.foldl (removeWait side s) b).chan = (is.foldl (removeWait side s) a).chan ∧
        (is.foldl (removeWait side s) b).tqeNext = (is.foldl (removeWait side s) a).tqeNext := by
  intro is
  induction is with
  | nil => intro a b hc hn _; exact ⟨hc, hn⟩
  | cons i is ih =>
    intro a b hc hn hs
    refine ih ?_ ?_ hs
    · simp only [removeWait, modChan, hc, hs]
    · simp only [removeWait, hc, hn, hs]

theorem selRemoveAllChans_tqeNext_congr {a b : Chans} (hc : b.chan = a.chan)
    (hn : b.tqeNext = a.tqeNext) (hs : (a.sel s).SameArgs (b.sel s)) :
    (b.selRemoveAllChans s).tqeNext = (a.selRemoveAllChans s).tqeNext := by
  have hidx (side : Side) : b.idxs s side = a.idxs s side := by
    cases side <;> simp only [idxs, hs.wcount, hs.rcount]
  obtain ⟨h1, h2⟩ := foldl_removeWait_congr .send (a.idxs s .send) hc hn hs.chans
  unfold selRemoveAllChans
  rw [hidx, hidx]
  refine (foldl_removeWait_congr .recv _ h1 h2 ?_).2
  rw [(foldl_removeWait_frame ..).1, (foldl_removeWait_frame ..).1, hs.chans]

structure Closes (st st' : Chans) : Prop where
  call : ∀ s, (st.sel s).SameCall (st'.sel s)
  target : ∀ s, (st.sel s).target ≠ -1 → (st'.sel s).target ≠ -1
  waitq : ∀ c side, List.Sublist ((st'.chan c).waitq side) ((st.chan c).waitq side)
  buffer : ∀ c, (st'.chan c).buffer = (st.chan c).buffer
  cap : ∀ c, (st'.chan c).cap = (st.chan c).cap
  closed : ∀ c, (st'.chan c).closed = (st.chan c).closed
  accepted : st'.hist.accepted = st.hist.accepted
  handed : st'.hist.handed = st.hist.handed
  returns : st'.hist.returns = st.hist.returns

namespace Closes

theorem refl (st : Chans) : Closes st st :=
  ⟨fun _ => Sel.SameCall.refl _, fun _ h => h, fun _ _ => List.Sublist.refl _, fun _ => rfl,
    fun _ => rfl, fun _ => rfl, rfl, rfl, rfl⟩

theorem trans {a b c : Chans} (h1 : Closes a b) (h2 : Closes b c) : Closes a c :=
  ⟨fun s => (h1.call s).trans (h2.call s), fun s h => h2.target s (h1.target s h),
    fun x side => (h2.waitq x side).trans (h1.waitq x side),
    fun x => (h2.buffer x).trans (h1.buffer x), fun x => (h2.cap x).trans (h1.cap x),
    fun x => (h2.closed x).trans (h1.closed x), h2.accepted.trans h1.accepted,
    h2.handed.trans h1.handed, h2.returns.trans h1.returns⟩

theorem of_nulled {st' : Chans} {w : Wait} {peer : Option Wait} (h : Nulled st st' w peer) :
    Closes st st' := by
  refine ⟨h.call, fun s hs => ?_, fun c side => ?_, h.buffer, h.cap, h.closed, h.accepted, h.handed,
    h.returns⟩
  · by_cases hw : w.sel = s
    · rw [← hw, h.target w (by simp)]
      omega
    · rw [h.others s fun v hv => by obtain rfl := List.mem_singleton.mp hv; exact hw]
      exact hs
  · rw [h.waitq]
    exact List.filter_sublist

end Closes
end Chans

namespace Sys

open Chans

variable {x : Sys} {w : Wait}

theorem closeWait_of_served (h : (x.ch.sel w.sel).target ≠ -1) : x.closeWait w = x := by
  unfold closeWait; rw [if_neg h]

theorem closeWait_nulled (hR : x.ch.Registered) (hp : x.ch.parked w.sel) :
    Nulled x.ch (x.closeWait w).ch w (some w) := by
  have hs : Serves x.ch ((x.ch.setMsg w.sel w.idx NULL).setTarget w.sel w.idx) [w] (some w) none := by
    refine Serves.of_quiet hR (fun s' => (setMsg_call ..).trans (setTarget_call ..))
      (fun v hv => ?_) (fun s' hs => ?_) (fun v hv => ?_) (fun _ _ => rfl) (fun _ _ => rfl)
      (fun _ => rfl) (fun _ => rfl) rfl rfl
    · obtain rfl := List.mem_singleton.mp hv
      rw [setTarget_target, if_pos rfl]
    · rw [setTarget_target, if_neg (Ne.symm (hs w (by simp))), setMsg_target]
    · rw [setTarget_msgs, setMsg_msgs, if_neg]
      rintro ⟨h1, h2⟩
      exact hv (by cases v; cases w; simp_all)
  have heq : (x.closeWait w).ch =
      ((x.ch.setMsg w.sel w.idx NULL).setTarget w.sel w.idx).selRemoveAllChans w.sel := by
    unfold closeWait; rw [if_pos hp.2]
  rw [heq]
  refine ⟨hs.remove hR hp, ?_, ?_, ?_, fun c => ?_⟩
  · rw [selRemoveAllChans_sel, setTarget_msgs, setMsg_msgs, if_pos ⟨rfl, rfl⟩]
  · rw [selRemoveAllChans_hist]; rfl
  · rw [selRemoveAllChans_hist]; rfl
  · unfold Chan.buffer; rw [selRemoveAllChans_queue]; rfl

theorem closeWait_registered (hR : x.ch.Registered) {c : ChanId} (hw : w ∈ (x.ch.chan c).recvq) :
    (x.closeWait w).ch.Registered := by
  obtain ⟨hp, hidx, -⟩ := hR.mem .recv hw
  have hn := closeWait_nulled hR hp
  refine hR.served hp (mem_idxs hidx) hn.waitq hn.count hn.call (hn.target w (by simp)) ?_
  intro s' hne
  exact hn.others s' fun v hv => by obtain rfl := List.mem_singleton.mp hv; exact Ne.symm hne

theorem closeLoop_eq (hR : x.ch.Registered) (c : ChanId) :
    Tailq.foreachSafe (fun y w => Tailq.next (y.ch.chan c).recvq y.ch.tqeNext w) closeWait
        (x.ch.chan c).recvq.length (x.ch.chan c).recvq.head? x =
      (x.ch.chan c).recvq.foldl closeWait x := by
  refine Tailq.foreachSafe_eq_foldl (fun y : Sys => (y.ch.chan c).recvq)
    (fun y => y.ch.tqeNext) (fun y w => (y.ch.sel w.sel).target ≠ -1)
    (I := fun y => y.ch.Registered) (fun y w hd => closeWait_of_served hd) (fun y v w hd => ?_)
    (fun y w post hI hq => ?_) hR (le_refl _)
  · by_cases hv : (y.ch.sel v.sel).target = -1
    · unfold closeWait
      rw [if_pos hv, selRemoveAllChans_sel, setTarget_target]
      split_ifs
      · omega
      · rw [setMsg_target]; exact hd
    · rw [closeWait_of_served hv]; exact hd
  · have hw : w ∈ (y.ch.chan c).recvq := by rw [hq]; simp
    have hp : y.ch.parked w.sel := (hI.mem .recv hw).1
    have hn := closeWait_nulled hI hp
    refine ⟨closeWait_registered hI hw, fun v => decide (v.sel = w.sel), ?_, ?_, ?_⟩
    · have := hn.waitq c .recv
      simp only [Chan.waitq, hq] at this
      rw [this, List.filter_cons_of_neg (by simp)]
      simp
    · intro v hv hvw
      have hvw : v.sel = w.sel := by simpa using hvw
      rw [hvw, hn.target w (by simp)]
      omega
    · intro a v b hpost hvw
      have hvw : v.sel = w.sel := by simpa using hvw
      have heq : (y.closeWait w).ch.tqeNext =
          (y.ch.selRemoveAllChans w.sel).tqeNext := by
        unfold closeWait
        rw [if_pos hp.2]
        exact selRemoveAllChans_tqeNext_congr rfl rfl
          ((setMsg_call ..).trans (setTarget_call ..)).toSameArgs
      rw [heq]
      exact hI.removeAll_tqeNext hp hvw (a := w :: a) (c := c) (by rw [hq, hpost]; rfl)

/-- An entry of the queue that is being walked: a receive case of a suspended call. -/
structure Waits (st : Chans) (c : ChanId) (w : Wait) : Prop where
  user : (st.sel w.sel).user ≠ none
  chans : (st.sel w.sel).chans w.idx = c
  recv : (st.sel w.sel).wchanCount ≤ w.idx
  range : w.idx < (st.sel w.sel).wchanCount + (st.sel w.sel).rchanCount

theorem Waits.of_call {st st' : Chans} {c : ChanId} (h : Waits st c w)
    (hc : (st.sel w.sel).SameCall (st'.sel w.sel)) : Waits st' c w :=
  ⟨by rw [hc.user]; exact h.user, by rw [hc.chans]; exact h.chans,
    by rw [hc.wcount]; exact h.recv, by rw [hc.wcount, hc.rcount]; exact h.range⟩

/-- What holds while `chan_close(c)` walks over the receivers. -/
structure Closing (x : Sys) (c : ChanId) : Prop where
  registered : x.ch.Registered
  linked : Linked x
  accounts : x.ch.Accounts x.ch.live
  ordered : x.ch.Ordered
  closed : (x.ch.chan c).closed = true

theorem Closing.closeWait {c : ChanId} (h : Closing x c) (hw : Waits x.ch c w) :
    Closing (x.closeWait w) c ∧ Closes x.ch (x.closeWait w).ch ∧
      ((x.closeWait w).ch.sel w.sel).target ≠ -1 := by
  by_cases ht : (x.ch.sel w.sel).target = -1
  · have hp : x.ch.parked w.sel := ⟨hw.user, ht⟩
    have hn := closeWait_nulled h.registered hp
    have hself : ((x.closeWait w).ch.sel w.sel).target = w.idx := hn.target w (by simp)
    have hothers (s' : SelId) (hne : s' ≠ w.sel) :
        ((x.closeWait w).ch.sel s').target = (x.ch.sel s').target :=
      hn.others s' fun v hv => by obtain rfl := List.mem_singleton.mp hv; exact Ne.symm hne
    refine ⟨⟨?_, ?_, ?_, ?_, ?_⟩, Closes.of_nulled hn, by rw [hself]; omega⟩
    · exact h.registered.served hp hw.range hn.waitq hn.count hn.call hself hothers
    · have hsched : x.closeWait w = ⟨x.sched.lthreadCondSignal (.sel w.sel), (x.closeWait w).ch⟩ := by
        unfold Sys.closeWait; rw [if_pos ht]
      rw [hsched]
      exact h.linked.wake hp (fun s' => (hn.call s').user) hothers (by rw [hself]; omega)
    · refine (hn.accounts h.accounts hw.user ht hw.recv (by rw [hw.chans]; exact h.closed)).congr
        (fun s hl => ?_) (fun _ _ => ⟨rfl, rfl, rfl, rfl, rfl⟩) (fun _ _ => rfl) (fun _ _ => rfl) rfl
        fun _ hc => hc
      unfold live at hl ⊢
      rwa [(hn.call s).user] at hl
    · exact h.ordered.congr (Ordered.serves_sublist hn.toServes) hn.buffer
        (fun c w _ => (hn.call w.sel).ticket) hn.accepted hn.handed
    · rw [hn.closed]; exact h.closed
  · rw [closeWait_of_served ht]
    exact ⟨h, Closes.refl _, ht⟩

theorem Closing.foldl {c : ChanId} : ∀ (ws : List Wait) {x : Sys}, Closing x c →
    (∀ w ∈ ws, Waits x.ch c w) → Closing (ws.foldl Sys.closeWait x) c ∧
      Closes x.ch (ws.foldl Sys.closeWait x).ch ∧
      ∀ w ∈ ws, ((ws.foldl Sys.closeWait x).ch.sel w.sel).target ≠ -1 := by
  intro ws
  induction ws with
  | nil => intro x h _; exact ⟨h, Closes.refl _, fun w hw => absurd hw (by simp)⟩
  | cons w ws ih =>
    intro x h hws
    obtain ⟨h1, hc1, ht1⟩ := h.closeWait (hws w (by simp))
    obtain ⟨h2, hc2, ht2⟩ := ih h1 fun v hv =>
      (hws v (List.mem_cons_of_mem _ hv)).of_call (hc1.call v.sel)
    refine ⟨h2, hc1.trans hc2, fun v hv => ?_⟩
    rcases List.mem_cons.mp hv with rfl | hv
    · exact hc2.target _ ht1
    · exact ht2 v hv

/-- `chan_close` on an open channel: it is closed, nobody waits to receive from it
any more, and nothing but waiting entries and wakeups is different. -/
theorem chanClose_spec (hI : x.ch.Inv x.ch.live) (hL : Linked x) {c : ChanId}
    (hopen : (x.ch.chan c).closed = false) :
    (x.chanClose c).1.ch.Inv (x.chanClose c).1.ch.live ∧ Linked (x.chanClose c).1 ∧
      ((x.chanClose c).1.ch.chan c).closed = true ∧
      Closes (x.ch.modChan c ({ · with closed := true })) (x.chanClose c).1.ch := by
  set st1 := x.ch.modChan c ({ · with closed := true }) with hst1
  have hself : st1.chan c = { x.ch.chan c with closed := true } := by simp [hst1, modChan]
  have hother {c' : ChanId} (hne : c' ≠ c) : st1.chan c' = x.ch.chan c' := by
    simp [hst1, modChan, hne]
  have hwaitq (c' : ChanId) (side : Side) : (st1.chan c').waitq side = (x.ch.chan c').waitq side := by
    by_cases he : c' = c
    · subst he; rw [hself]; cases side <;> rfl
    · rw [hother he]
  have hcount (c' : ChanId) (side : Side) :
      (st1.chan c').waitCount side = (x.ch.chan c').waitCount side := by
    by_cases he : c' = c
    · subst he; rw [hself]; cases side <;> rfl
    · rw [hother he]
  have hqueue (c' : ChanId) : (st1.chan c').queue = (x.ch.chan c').queue := by
    by_cases he : c' = c
    · subst he; rw [hself]
    · rw [hother he]
  have hbuf (c' : ChanId) : (st1.chan c').buffer = (x.ch.chan c').buffer := by
    unfold Chan.buffer; rw [hqueue]
  have hR1 : st1.Registered := ⟨fun c' s side => by rw [hwaitq]; exact hI.registered.queue c' s side,
    fun c' side => by rw [hcount, hwaitq]; exact hI.registered.count c' side,
    hI.registered.idle, hI.registered.range⟩
  have hclosing : Closing ⟨x.sched, st1⟩ c := by
    refine ⟨hR1, hL.congr (fun _ => rfl) (fun _ => rfl), ?_, ?_, by rw [hself]⟩
    · refine hI.accounts.congr (fun _ hl => hl) (fun _ _ => ⟨rfl, rfl, rfl, rfl, rfl⟩)
        (fun _ _ => rfl) (fun _ _ => rfl) rfl fun c' hc => ?_
      by_cases he : c' = c
      · subst he; rw [hself]
      · rw [hother he]; exact hc
    · refine hI.ordered.congr (fun c' => ?_) hbuf (fun _ _ _ => rfl) rfl rfl
      have := hwaitq c' .send
      simp only [Chan.waitq] at this
      rw [this]
  have hws : ∀ w ∈ (st1.chan c).recvq, Waits st1 c w := by
    intro w hw
    obtain ⟨hp, hidx, hc⟩ := hR1.mem .recv hw
    exact ⟨hp.1, hc, (List.mem_range'_1.mp hidx).1, mem_idxs hidx⟩
  have heq : (x.chanClose c).1 = (st1.chan c).recvq.foldl Sys.closeWait ⟨x.sched, st1⟩ := by
    unfold chanClose
    rw [if_neg (by simp [hopen])]
    exact closeLoop_eq (x := ⟨x.sched, st1⟩) hR1 c
  obtain ⟨hfin, hcl, hdone⟩ := Closing.foldl _ hclosing hws
  rw [← heq] at hfin hcl hdone
  refine ⟨⟨hfin.registered, ?_, hfin.accounts, hfin.ordered⟩, hfin.linked, hfin.closed, hcl⟩
  have hnil : ((x.chanClose c).1.ch.chan c).recvq = [] := by
    refine List.eq_nil_iff_forall_not_mem.mpr fun w hw => ?_
    have hp := (hfin.registered.mem .recv hw).1
    exact hdone w ((hcl.waitq c .recv).subset hw) hp.2
  refine hI.meeting.shrink (fun c' side w hw => ?_) (fun c' => (hcl.buffer c').trans (hbuf c'))
    (fun c' => (hcl.cap c').trans (by unfold Chan.cap; rw [hqueue])) fun c' hne => ?_
  · rw [← hwaitq]
    exact (hcl.waitq c' side).subset hw
  · have hc' : c' ≠ c := fun he => hne (he ▸ hnil)
    rw [hcl.closed, hother hc']

end Sys
end Lthr

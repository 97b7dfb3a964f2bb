import Lthread.Proofs.ChanHist

/-! The invariant of the channels and the parts of a call that keep it: the start
of the call, a case that is served, the return, the registration of a call that
blocks, its return after it was served or has timed out. -/

namespace Lthr
namespace Chans

/-- Between two steps the calls in progress are those with a suspended lthread. -/
def live (st : Chans) (s : SelId) : Prop := (st.sel s).user ≠ none

structure Inv (st : Chans) (live : SelId → Prop) : Prop where
  registered : st.Registered
  meeting : Meeting st.chan
  accounts : st.Accounts live
  ordered : st.Ordered

/-- Selector `s` has just been prepared for a new call. -/
structure Called (st : Chans) (s : SelId) : Prop where
  inv : st.Inv fun s' => st.live s' ∨ s' = s
  idle : (st.sel s).user = none
  newest : (st.sel s).ticket + 1 = st.hist.calls

variable {st st' : Chans} {s : SelId}

theorem setTarget_self {t : ℤ} (h : (st.sel s).target = t) : st.setTarget s t = st := by
  subst h
  unfold setTarget modSel
  simp only [Function.update_eq_self]

/-- The call with selector `s` returns `r`, once no entry of `s` is linked. -/
theorem finish_inv {live0 : SelId → Prop} {r : ℤ}
    (hR : ((st.setTarget s (-1)).finish s r).Registered) (hM : Meeting st.chan)
    (hA : st.Accounts live0) (hO : st.Ordered) (hs : live0 s)
    (hlive : ∀ s' ≠ s, st.live s' → live0 s') (hq : ∀ c, ∀ w ∈ (st.chan c).sendq, w.sel ≠ s)
    (ho : Outcome st (st.sel s) r) :
    ((st.setTarget s (-1)).finish s r).Inv ((st.setTarget s (-1)).finish s r).live := by
  have hfin : ((st.setTarget s (-1)).finish s r).Accounts fun s' => live0 s' ∧ s' ≠ s :=
    hA.finish hs (setTarget_call st s (-1) s).toSameArgs (setTarget_msgs ..) ho
      (fun s' hne => Registered.finish_sel_ne hne _ _) rfl (fun c => rfl)
  refine ⟨hR, hM, hfin.congr (fun s' hl => ?_) (fun _ _ => ⟨rfl, rfl, rfl, rfl, rfl⟩)
    (fun _ _ => rfl) (fun _ _ => rfl) rfl fun _ hc => hc, ?_⟩
  · have hne : s' ≠ s := by
      rintro rfl
      exact hl (by rw [Registered.finish_sel_self])
    unfold live at hl
    rw [Registered.finish_sel_ne hne] at hl
    exact ⟨hlive s' hne hl, hne⟩
  · refine hO.congr (fun c => List.Sublist.refl _) (fun c => rfl) (fun c w hw => ?_) rfl rfl
    rw [Registered.finish_sel_ne (hq c w hw)]

namespace Inv

theorem called (h : st.Inv st.live) (hu : (st.sel s).user = none) (chans : ℕ → ChanId)
    (msgs : ℕ → Ptr) (w r : ℕ) : (st.prepare s chans msgs w r).Called s := by
  have hne {s' : SelId} (he : s' ≠ s) : (st.prepare s chans msgs w r).sel s' = st.sel s' := by
    simp [prepare, modSel, he]
  have hself : ((st.prepare s chans msgs w r).sel s).user = none ∧
      ((st.prepare s chans msgs w r).sel s).ticket = st.hist.calls := by
    simp [prepare, modSel, hu]
  have hlive : ¬ st.live s := fun hl => hl hu
  refine ⟨⟨h.registered.prepare hu chans msgs w r, h.meeting, ?_, ?_⟩, hself.1, by rw [hself.2]; rfl⟩
  · refine (h.accounts.prepare hlive (h.registered.idle s hu) chans msgs w r).congr
      (fun s' hs' => ?_) (fun _ _ => ⟨rfl, rfl, rfl, rfl, rfl⟩) (fun _ _ => rfl) (fun _ _ => rfl) rfl
      fun _ hc => hc
    rcases hs' with hs' | rfl
    · by_cases he : s' = s
      · exact Or.inr he
      · refine Or.inl ?_
        unfold live at hs' ⊢
        rwa [hne he] at hs'
    · exact Or.inr rfl
  · refine h.ordered.congr (fun c => List.Sublist.refl _) (fun c => rfl) (fun c w hw => ?_) rfl rfl
    have hw' : w.sel ≠ s := fun he => (h.registered.mem .send hw).1.1 (he ▸ hu)
    rw [hne hw']

theorem resume (h : st.Inv st.live) (hl : st.live s) (ht : (st.sel s).target ≠ -1) :
    ((st.setTarget s (-1)).finish s (st.sel s).target).Inv
      ((st.setTarget s (-1)).finish s (st.sel s).target).live := by
  have hnp : ¬ st.parked s := fun hp => ht hp.2
  have hR : ((st.setTarget s (-1)).finish s (st.sel s).target).Registered :=
    h.registered.returned none (Or.inl hnp) (fun c side => (Registered.filter_none _).symm)
      h.registered.count (fun s' => Sel.SameCall.refl _) (fun _ _ _ => rfl)
      (fun s' _ hs' => absurd hs' (by simp)) _
  refine finish_inv hR h.meeting h.accounts h.ordered hl (fun _ _ hl' => hl') (fun c w hw he => ?_)
    (h.accounts.outcome s hl)
  exact hnp (he ▸ (h.registered.mem .send hw).1)

theorem expire (h : st.Inv st.live) (hp : st.parked s) :
    ((st.selRemoveAllChans s).finish s (-2)).Inv ((st.selRemoveAllChans s).finish s (-2)).live := by
  set st1 := st.selRemoveAllChans s with hst1
  have hsel : st1.sel = st.sel := selRemoveAllChans_sel st s
  have hq (c : ChanId) (side : Side) := h.registered.removeAll_waitq hp c side
  have hmem (side : Side) {c : ChanId} {w : Wait} (hw : w ∈ (st1.chan c).waitq side) :
      w ∈ (st.chan c).waitq side ∧ w.sel ≠ s := by
    rw [hst1, hq] at hw
    obtain ⟨hmem, hne⟩ := List.mem_filter.mp hw
    exact ⟨hmem, by simpa using hne⟩
  have hbuf (c : ChanId) : (st1.chan c).buffer = (st.chan c).buffer := by
    unfold Chan.buffer; rw [hst1, selRemoveAllChans_queue]
  have hcap (c : ChanId) : (st1.chan c).cap = (st.chan c).cap := by
    unfold Chan.cap; rw [hst1, selRemoveAllChans_queue]
  have hhist : st1.hist = st.hist := selRemoveAllChans_hist st s
  have hclosed (c : ChanId) : (st1.chan c).closed = (st.chan c).closed :=
    selRemoveAllChans_closed st s c
  have hR : ((st1.setTarget s (-1)).finish s (-2)).Registered :=
    h.registered.returned (some s) (Or.inr rfl) hq (h.registered.removeAll_count hp)
      (fun s' => by rw [hsel]; exact Sel.SameCall.refl _) (fun s' _ _ => by rw [hsel])
      (fun s' hne hs' => absurd (Option.some_inj.mp hs') hne) (-2)
  have hself : st1.setTarget s (-1) = st1 := setTarget_self (by rw [hsel]; exact hp.2)
  have hA : st1.Accounts st.live := h.accounts.congr (fun _ hl => hl)
    (fun _ _ => by rw [hsel]; exact ⟨rfl, rfl, rfl, rfl, rfl⟩) (fun _ _ => by rw [hsel])
    (fun _ _ => by rw [hsel]) hhist (fun c hc => by rw [hclosed]; exact hc)
  have hres := finish_inv hR
    (h.meeting.shrink (fun c side w hw => (hmem side hw).1) hbuf hcap (fun c _ => hclosed c)) hA
    (h.ordered.congr (fun c => ?_) hbuf (fun c w _ => by rw [hsel]) (by rw [hhist]) (by rw [hhist]))
    hp.1 (fun s' _ hl => by unfold live at hl; rwa [hsel] at hl)
    (fun c w hw => (hmem .send hw).2) ?_
  · rwa [hself] at hres
  · have := hq c .send
    simp only [Chan.waitq] at this
    rw [hst1, this]
    exact List.filter_sublist
  · obtain ⟨hacc, hhand⟩ := (hA.outcome s hp.1).nothing (by rw [hsel, hp.2]; decide)
    exact Outcome.of_nothing hacc hhand (by decide)

theorem refuse (h : st.Inv st.live) (c : ChanId) (m : Ptr) :
    (st.refuse c m).Inv (st.refuse c m).live := by
  refine ⟨?_, h.meeting, h.accounts.refuse c m, ?_⟩
  · exact ⟨h.registered.queue, h.registered.count, h.registered.idle, h.registered.range⟩
  · exact ⟨h.ordered.flow, h.ordered.sorted, h.ordered.queued, h.ordered.before⟩

end Inv

namespace Called

/-- The message of the newest call comes after all that were accepted so far. -/
theorem accepted_lt (h : st.Called s) (c : ChanId) {p : Passed} (hp : p ∈ st.hist.accepted c) :
    p.ticket < (st.sel s).ticket := by
  have hnone := (h.inv.accounts.waiting (Or.inr rfl) (h.inv.registered.idle s h.idle)).1 c
  have hne := not_mem_of_ofCall hnone hp
  have hlt := h.inv.accounts.used c p (List.mem_append_left _ hp)
  have := h.newest
  omega

theorem not_parked (h : st.Called s) : ¬ st.parked s := fun hp => hp.1 h.idle

theorem peer_ne (h : st.Called s) {w : Wait} (hp : st.parked w.sel) : w.sel ≠ s :=
  fun he => h.not_parked (he ▸ hp)

/-- The ends of an exchange between the caller and the first entry of the other side. -/
theorem sent_ends (h : st.Called s) {i : ℕ} {peer : Option Wait} (hi : i ∈ st.idxs s .send)
    (hpeer : (st.chan ((st.sel s).chans i)).recvq.head? = peer) :
    Ends st (fun s' => st.live s' ∨ s' = s) ((st.sel s).chans i) ⟨s, i⟩ peer (some ⟨s, i⟩) peer := by
  have hpar {w : Wait} (hw : peer = some w) :=
    h.inv.registered.mem .recv (List.mem_of_mem_head? (hpeer.trans hw))
  refine ⟨fun w => ?_, fun w hw => ?_, fun w hw => ?_, fun w hw => ?_, fun w v hw hv => ?_⟩
  · rw [List.mem_cons, Option.mem_toList, Option.some_inj, eq_comm]
  · rcases List.mem_cons.mp hw with rfl | hw
    · exact ⟨Or.inr rfl, h.inv.registered.idle s h.idle, rfl⟩
    · obtain ⟨hp, -, hc⟩ := hpar (Option.mem_toList.mp hw)
      exact ⟨Or.inl hp.1, hp.2, hc⟩
  · obtain rfl := Option.some_inj.mp hw
    exact List.mem_range.mp hi
  · obtain ⟨-, hidx, -⟩ := hpar hw
    exact (List.mem_range'_1.mp hidx).1
  · obtain rfl := Option.some_inj.mp hw
    exact Ne.symm (h.peer_ne (hpar hv).1)

theorem received_ends (h : st.Called s) {i : ℕ} {peer : Option Wait} (hi : i ∈ st.idxs s .recv)
    (hpeer : (st.chan ((st.sel s).chans i)).sendq.head? = peer) :
    Ends st (fun s' => st.live s' ∨ s' = s) ((st.sel s).chans i) ⟨s, i⟩ peer peer (some ⟨s, i⟩) := by
  have hpar {w : Wait} (hw : peer = some w) :=
    h.inv.registered.mem .send (List.mem_of_mem_head? (hpeer.trans hw))
  refine ⟨fun w => ?_, fun w hw => ?_, fun w hw => ?_, fun w hw => ?_, fun w v hw hv => ?_⟩
  · rw [List.mem_cons, Option.mem_toList, Option.some_inj, eq_comm, or_comm]
  · rcases List.mem_cons.mp hw with rfl | hw
    · exact ⟨Or.inr rfl, h.inv.registered.idle s h.idle, rfl⟩
    · obtain ⟨hp, -, hc⟩ := hpar (Option.mem_toList.mp hw)
      exact ⟨Or.inl hp.1, hp.2, hc⟩
  · obtain ⟨-, hidx, -⟩ := hpar hw
    exact List.mem_range.mp hidx
  · obtain rfl := Option.some_inj.mp hw
    exact (List.mem_range'_1.mp hi).1
  · obtain rfl := Option.some_inj.mp hv
    exact h.peer_ne (hpar hw).1

theorem tried_accounts (h : st.Called s) {wait : Option Wait} (ht : Tried st s st' wait) :
    st'.Accounts fun s' => st.live s' ∨ s' = s := by
  cases ht with
  | nothing => exact h.inv.accounts
  | sent hi _ hpeer _ hx _ => exact hx.accounts h.inv.accounts (h.sent_ends hi hpeer)
  | received hi hpeer _ hx _ => exact hx.accounts h.inv.accounts (h.received_ends hi hpeer)
  | drained hi hc _ hn _ =>
    exact hn.accounts h.inv.accounts (Or.inr rfl) (h.inv.registered.idle s h.idle)
      (List.mem_range'_1.mp hi).1 hc

theorem tried_ordered (h : st.Called s) {wait : Option Wait} (ht : Tried st s st' wait) :
    st'.Ordered := by
  have hM := h.inv.meeting
  cases ht with
  | nothing => exact h.inv.ordered
  | @sent i _ _ hi _ hpeer hroom hx =>
    -- nobody waits to send: there was room, or the receiver was alone on the channel
    have hnone : ((st'.chan ((st.sel s).chans i)).sendq) = [] := by
      refine List.eq_nil_iff_forall_not_mem.mpr fun v hv => ?_
      obtain ⟨hv, hne⟩ := hx.mem_waitq .send hv
      cases wait with
      | none =>
        have := hM.send _ (List.ne_nil_of_mem hv)
        have := hroom rfl
        omega
      | some w =>
        exact hne (congrArg some (hM.same _ v hv w (List.mem_of_mem_head? hpeer)))
    refine h.inv.ordered.exchange hx fun w hw => ⟨fun p hp => ?_, fun v hv => ?_⟩
    · obtain rfl := Option.some_inj.mp hw
      exact h.accepted_lt _ hp
    · rw [hnone] at hv
      exact absurd hv (by simp)
  | @received i _ _ hi hpeer _ hx =>
    refine h.inv.ordered.exchange hx fun w hw => ⟨fun p hp => ?_, fun v hv => ?_⟩
    · exact h.inv.ordered.before _ p hp w (List.mem_of_mem_head? (hpeer.trans hw))
    · obtain ⟨hv, hne⟩ := hx.mem_waitq .send hv
      rw [hw] at hne hpeer
      obtain ⟨rest, hrest⟩ : ∃ rest, (st.chan ((st.sel s).chans i)).sendq = w :: rest :=
        List.head?_eq_some_iff.mp hpeer
      have hpar {u : Wait} (hu : u ∈ (st.chan ((st.sel s).chans i)).sendq) :=
        (h.inv.registered.mem .send hu).1
      have hsel : v.sel ≠ w.sel := fun he => hne (congrArg some he)
      have hmem : v ∈ rest := by
        rw [Chan.waitq, hrest] at hv
        exact (List.mem_cons.mp hv).resolve_left fun he => hsel (he ▸ rfl)
      have hle := h.inv.ordered.queued ((st.sel s).chans i)
      rw [hrest] at hle
      refine lt_of_le_of_ne ((List.pairwise_cons.mp hle).1 v hmem) fun he => hsel ?_
      exact h.inv.accounts.inj _ _ (Or.inl (hpar hv).1) (Or.inl (hpar (by simp [hrest])).1) he.symm
  | drained hi hc _ hn _ =>
    exact h.inv.ordered.congr (Ordered.serves_sublist hn.toServes) hn.buffer
      (fun c w _ => (hn.call w.sel).ticket) hn.accepted hn.handed

theorem tried_peer (h : st.Called s) {wait : Option Wait} (ht : Tried st s st' wait) {w : Wait}
    (hw : wait = some w) :
    st.parked w.sel ∧ w.idx < (st.sel w.sel).wchanCount + (st.sel w.sel).rchanCount := by
  subst hw
  cases ht with
  | sent hi _ hpeer _ hx _ =>
    obtain ⟨hp, hidx, -⟩ := h.inv.registered.mem .recv (List.mem_of_mem_head? hpeer)
    exact ⟨hp, mem_idxs hidx⟩
  | received hi hpeer _ hx _ =>
    obtain ⟨hp, hidx, -⟩ := h.inv.registered.mem .send (List.mem_of_mem_head? hpeer)
    exact ⟨hp, mem_idxs hidx⟩

theorem tried_serves {wait : Option Wait} (ht : Tried st s st' wait) :
    (st' = st ∧ wait = none ∧ Unready st s) ∨
      ∃ i written, Serves st st' (⟨s, i⟩ :: wait.toList) written wait := by
  cases ht with
  | nothing hn => exact Or.inl ⟨rfl, rfl, hn⟩
  | sent hi _ hpeer _ hx _ => exact Or.inr ⟨_, _, hx.toServes⟩
  | received hi hpeer _ hx _ => exact Or.inr ⟨_, _, hx.toServes⟩
  | drained hi hc _ hn _ => exact Or.inr ⟨_, _, hn.toServes⟩

/-- What the caller does not touch: users, and the targets of all but the peer. -/
theorem tried_frame {wait : Option Wait} (ht : Tried st s st' wait) :
    (∀ s', (st.sel s').SameCall (st'.sel s')) ∧
      (∀ s' ≠ s, some s' ≠ wait.map Wait.sel → (st'.sel s').target = (st.sel s').target) ∧
      (∀ w, wait = some w → (st'.sel w.sel).target = w.idx) ∧
      (∀ c side, (st'.chan c).waitq side =
        ((st.chan c).waitq side).filter fun w => !decide (some w.sel = wait.map Wait.sel)) := by
  rcases tried_serves ht with ⟨rfl, rfl, -⟩ | ⟨i, written, hs⟩
  · exact ⟨fun s' => Sel.SameCall.refl _, fun _ _ _ => rfl, fun w hw => absurd hw (by simp),
      fun c side => (Registered.filter_none _).symm⟩
  · refine ⟨hs.call, fun s' hne hn => hs.others s' fun w hw => ?_, fun w hw => ?_, hs.waitq⟩
    · rcases List.mem_cons.mp hw with rfl | hw
      · exact Ne.symm hne
      · rw [Option.mem_toList.mp hw] at hn
        exact fun he => hn (congrArg some he.symm)
    · exact hs.target w (List.mem_cons_of_mem _ (Option.mem_toList.mpr hw))

/-- The call returns at once, with what the first case that was served gives. -/
theorem finish (h : st.Called s) {wait : Option Wait} (ht : Tried st s st' wait) {r : ℤ}
    (ho : Outcome st' (st'.sel s) r) :
    ((st'.setTarget s (-1)).finish s r).Inv ((st'.setTarget s (-1)).finish s r).live := by
  obtain ⟨hcall, htarget, hpeer, hq⟩ := tried_frame ht
  have hcount (c : ChanId) (side : Side) :
      (st'.chan c).waitCount side = ((st'.chan c).waitq side).length := by
    rcases tried_serves ht with ⟨rfl, -⟩ | ⟨i, written, hs⟩
    · exact h.inv.registered.count c side
    · exact hs.count c side
  have hR := h.inv.registered.returned (wait.map Wait.sel) (Or.inl h.not_parked) hq hcount hcall
    htarget (fun s' _ hs' => ?_) r
  · refine finish_inv hR (h.inv.meeting.tried ht) (h.tried_accounts ht) (h.tried_ordered ht)
      (Or.inr rfl) (fun s' _ hl => ?_) (fun c w hw he => ?_) ho
    · unfold live at hl
      rw [(hcall s').user] at hl
      exact Or.inl hl
    · have hw' : w ∈ (st'.chan c).waitq .send := hw
      rw [hq] at hw'
      exact h.not_parked (he ▸ (h.inv.registered.mem .send (List.mem_filter.mp hw').1).1)
  · obtain ⟨w, hw, rfl⟩ := Option.map_eq_some_iff.mp hs'.symm
    obtain ⟨hp, hidx⟩ := h.tried_peer ht hw
    exact ⟨hp, w.idx, hpeer w hw, hidx⟩

theorem block (h : st.Called s) (hn : Unready st s) (l : LtId) :
    ((st.register s).park s l).Inv ((st.register s).park s l).live := by
  set st1 := (st.register s).park s l with hst1
  have hself : st1.sel s = { st.sel s with user := some l } := by
    rw [hst1, park_sel, Function.update_self, register_sel]
  have hother {s' : SelId} (hne : s' ≠ s) : st1.sel s' = st.sel s' := by
    rw [hst1, park_sel, Function.update_of_ne hne, register_sel]
  have hargs (s' : SelId) : (st.sel s').SameArgs (st1.sel s') ∧
      (st1.sel s').msgs = (st.sel s').msgs ∧ (st1.sel s').target = (st.sel s').target := by
    by_cases he : s' = s
    · subst he; rw [hself]; exact ⟨⟨rfl, rfl, rfl, rfl, rfl⟩, rfl, rfl⟩
    · rw [hother he]; exact ⟨⟨rfl, rfl, rfl, rfl, rfl⟩, rfl, rfl⟩
  have hhist : st1.hist = st.hist := register_hist st s
  refine ⟨h.inv.registered.register h.idle l, h.inv.meeting.register hn, ?_, ?_⟩
  · refine h.inv.accounts.congr (fun s' hl => ?_) (fun s' _ => (hargs s').1)
      (fun s' _ => (hargs s').2.1) (fun s' _ => (hargs s').2.2) hhist fun c hc => ?_
    · by_cases he : s' = s
      · exact Or.inr he
      · unfold live at hl
        rw [hother he] at hl
        exact Or.inl hl
    · rw [hst1, park_chan, register_closed]; exact hc
  · have hbuf (c : ChanId) : (st1.chan c).buffer = (st.chan c).buffer := by
      unfold Chan.buffer; rw [hst1, park_chan, register_queue]
    have hq (c : ChanId) : (st1.chan c).sendq =
        (st.chan c).sendq ++ st.entries s (st.idxs s .send) c := register_waitq st s c .send
    have hnew {w : Wait} {c : ChanId} (hw : w ∈ st.entries s (st.idxs s .send) c) : w.sel = s :=
      (st.mem_entries.mp hw).1
    refine ⟨fun c => ?_, fun c => ?_, fun c => ?_, fun c p hp w hw => ?_⟩
    · rw [hhist, hbuf]; exact h.inv.ordered.flow c
    · rw [hhist]; exact h.inv.ordered.sorted c
    · rw [hq]
      refine List.pairwise_append.mpr ⟨?_, ?_, fun w hw v hv => ?_⟩
      · refine (h.inv.ordered.queued c).imp fun {w v} hle => ?_
        rw [(hargs w.sel).1.ticket, (hargs v.sel).1.ticket]
        exact hle
      · refine List.pairwise_iff_forall_sublist.mpr fun {w v} hsub => ?_
        rw [hnew (hsub.subset (by simp)), hnew (hsub.subset (by simp))]
      · have hp := (h.inv.registered.mem .send hw).1
        have hlt := h.inv.accounts.fresh w.sel (Or.inl hp.1)
        have := h.newest
        rw [(hargs w.sel).1.ticket, hnew hv, (hargs s).1.ticket]
        omega
    · rw [hhist] at hp
      rw [hq] at hw
      rw [(hargs w.sel).1.ticket]
      rcases List.mem_append.mp hw with hw | hw
      · exact h.inv.ordered.before c p hp w hw
      · rw [hnew hw]
        exact h.accepted_lt c hp

end Called
end Chans
end Lthr

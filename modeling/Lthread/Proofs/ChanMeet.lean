import Lthread.Proofs.ChanServe

/-! No missed rendezvous: lthreads that could exchange a message on a channel are
never both left in its wait queues. -/

namespace Lthr
namespace Chans

structure Meeting (chan : ChanId → Chan) : Prop where
  recv : ∀ c, (chan c).recvq ≠ [] → (chan c).closed = false ∧ (chan c).buffer = []
  send : ∀ c, (chan c).sendq ≠ [] → (chan c).buffer.length = (chan c).cap
  same : ∀ c, ∀ w ∈ (chan c).sendq, ∀ v ∈ (chan c).recvq, w.sel = v.sel

theorem Serves.mem_waitq {st st' : Chans} {served : List Wait} {written peer : Option Wait}
    (h : Serves st st' served written peer) (side : Side) {c : ChanId} {w : Wait}
    (hw : w ∈ (st'.chan c).waitq side) :
    w ∈ (st.chan c).waitq side ∧ some w.sel ≠ peer.map Wait.sel := by
  rw [h.waitq] at hw
  obtain ⟨hmem, hne⟩ := List.mem_filter.mp hw
  exact ⟨hmem, by simpa using hne⟩

namespace Meeting

variable {chan chan' : ChanId → Chan}

theorem shrink (h : Meeting chan)
    (hmem : ∀ c side, ∀ w ∈ (chan' c).waitq side, w ∈ (chan c).waitq side)
    (hbuf : ∀ c, (chan' c).buffer = (chan c).buffer) (hcap : ∀ c, (chan' c).cap = (chan c).cap)
    (hclosed : ∀ c, (chan' c).recvq ≠ [] → (chan' c).closed = (chan c).closed) :
    Meeting chan' := by
  have hne (side : Side) {c : ChanId} (hn : (chan' c).waitq side ≠ []) :
      (chan c).waitq side ≠ [] := by
    obtain ⟨w, hw⟩ := List.exists_mem_of_ne_nil _ hn
    exact List.ne_nil_of_mem (hmem c side w hw)
  refine ⟨fun c hn => ?_, fun c hn => ?_, fun c w hw v hv => ?_⟩
  · rw [hclosed c hn, hbuf]
    exact h.recv c (hne .recv hn)
  · rw [hbuf, hcap]
    exact h.send c (hne .send hn)
  · exact h.same c w (hmem c .send w hw) v (hmem c .recv v hv)

variable {st st' : Chans} {s : SelId} {c : ChanId} {caller : Wait} {peer src dst : Option Wait}

theorem exchange_length (h : Exchange st st' c caller peer src dst) :
    (st.chan c).buffer.length + src.toList.length =
      dst.toList.length + (st'.chan c).buffer.length := by
  have := congrArg List.length h.flow
  simp only [List.length_append] at this
  cases src <;> cases dst <;> simpa using this

theorem exchange (hM : Meeting st.chan) (h : Exchange st st' c caller peer src dst)
    (hrecv : (st'.chan c).recvq ≠ [] → (st'.chan c).buffer = [])
    (hsend : (st'.chan c).sendq ≠ [] → (st'.chan c).buffer.length = (st.chan c).cap) :
    Meeting st'.chan := by
  have hne (side : Side) {c : ChanId} (hn : (st'.chan c).waitq side ≠ []) :
      (st.chan c).waitq side ≠ [] := by
    obtain ⟨w, hw⟩ := List.exists_mem_of_ne_nil _ hn
    exact List.ne_nil_of_mem (h.mem_waitq side hw).1
  refine ⟨fun c' hn => ?_, fun c' hn => ?_, fun c' w hw v hv => ?_⟩
  · obtain ⟨hopen, hbuf⟩ := hM.recv c' (hne .recv hn)
    rw [h.closed]
    by_cases hc : c' = c
    · subst hc; exact ⟨hopen, hrecv hn⟩
    · rw [h.buffer c' hc]; exact ⟨hopen, hbuf⟩
  · rw [h.cap]
    by_cases hc : c' = c
    · subst hc; exact hsend hn
    · rw [h.buffer c' hc]; exact hM.send c' (hne .send hn)
  · exact hM.same c' w (h.mem_waitq .send hw).1 v (h.mem_waitq .recv hv).1

theorem tried (hM : Meeting st.chan) {wait : Option Wait} (h : Tried st s st' wait) :
    Meeting st'.chan := by
  cases h with
  | nothing => exact hM
  | @sent i _ _ hi hopen hpeer hroom h =>
    set c := (st.sel s).chans i
    have hlen := exchange_length h
    cases wait with
    | none =>
      have hnr : (st.chan c).recvq = [] := List.head?_eq_none_iff.mp hpeer
      refine hM.exchange h (fun hn => ?_) (fun hn => ?_)
      · obtain ⟨v, hv⟩ := List.exists_mem_of_ne_nil _ hn
        have := (h.mem_waitq .recv hv).1
        simp only [Chan.waitq, hnr] at this
        exact absurd this (by simp)
      · obtain ⟨v, hv⟩ := List.exists_mem_of_ne_nil _ hn
        have hfull := hM.send c (List.ne_nil_of_mem (h.mem_waitq .send hv).1)
        have := hroom rfl
        omega
    | some w =>
      have hnr : (st.chan c).recvq ≠ [] := fun hn => by rw [hn] at hpeer; cases hpeer
      have hbuf := (hM.recv c hnr).2
      simp only [hbuf, Option.toList_some, List.length_nil, List.length_singleton] at hlen
      refine hM.exchange h (fun _ => ?_) (fun hn => ?_)
      · exact List.length_eq_zero_iff.mp (by omega)
      · obtain ⟨v, hv⟩ := List.exists_mem_of_ne_nil _ hn
        have hfull := hM.send c (List.ne_nil_of_mem (h.mem_waitq .send hv).1)
        simp only [hbuf, List.length_nil] at hfull
        omega
  | @received i _ _ hi hpeer hfull h =>
    set c := (st.sel s).chans i
    have hlen := exchange_length h
    cases wait with
    | none =>
      have hns : (st.chan c).sendq = [] := List.head?_eq_none_iff.mp hpeer
      refine hM.exchange h (fun hn => ?_) (fun hn => ?_)
      · obtain ⟨v, hv⟩ := List.exists_mem_of_ne_nil _ hn
        have := (hM.recv c (List.ne_nil_of_mem (h.mem_waitq .recv hv).1)).2
        exact absurd this (hfull rfl)
      · obtain ⟨v, hv⟩ := List.exists_mem_of_ne_nil _ hn
        have := (h.mem_waitq .send hv).1
        simp only [Chan.waitq, hns] at this
        exact absurd this (by simp)
    | some w =>
      have hw : w ∈ (st.chan c).sendq := List.mem_of_mem_head? hpeer
      have hfull := hM.send c (List.ne_nil_of_mem hw)
      simp only [Option.toList_some, List.length_singleton] at hlen
      refine hM.exchange h (fun hn => ?_) (fun hn => ?_)
      · -- a receiver that waits beside the sender belongs to it, and has left with it
        obtain ⟨v, hv⟩ := List.exists_mem_of_ne_nil _ hn
        obtain ⟨hv, hne⟩ := h.mem_waitq .recv hv
        have hsame := hM.same c w hw v hv
        exact absurd (congrArg some hsame.symm) hne
      · omega
  | drained hi hc _ h _ =>
    exact hM.shrink (fun c side w hw => (h.mem_waitq side hw).1) h.buffer h.cap fun c _ => h.closed c

theorem register (hM : Meeting st.chan) (hn : Unready st s) : Meeting (st.register s).chan := by
  obtain ⟨hsend, hrecv⟩ := hn
  have hmem (side : Side) {c : ChanId} {w : Wait} (hw : w ∈ ((st.register s).chan c).waitq side) :
      w ∈ (st.chan c).waitq side ∨
        w.sel = s ∧ w.idx ∈ st.idxs s side ∧ (st.sel s).chans w.idx = c := by
    rw [register_waitq] at hw
    rcases List.mem_append.mp hw with hw | hw
    · exact Or.inl hw
    · exact Or.inr (st.mem_entries.mp hw)
  have hbuf (c : ChanId) : ((st.register s).chan c).buffer = (st.chan c).buffer := by
    unfold Chan.buffer; rw [register_queue]
  have hcap (c : ChanId) : ((st.register s).chan c).cap = (st.chan c).cap := by
    unfold Chan.cap; rw [register_queue]
  refine ⟨fun c hn => ?_, fun c hn => ?_, fun c w hw v hv => ?_⟩
  · rw [register_closed, hbuf]
    obtain ⟨w, hw⟩ := List.exists_mem_of_ne_nil _ hn
    rcases hmem .recv hw with hw | ⟨-, hi, rfl⟩
    · exact hM.recv c (List.ne_nil_of_mem hw)
    · exact ⟨(hrecv _ hi).1, (hrecv _ hi).2.2⟩
  · rw [hbuf, hcap]
    obtain ⟨w, hw⟩ := List.exists_mem_of_ne_nil _ hn
    rcases hmem .send hw with hw | ⟨-, hi, rfl⟩
    · exact hM.send c (List.ne_nil_of_mem hw)
    · exact (hsend _ hi).2.2
  · rcases hmem .send hw with hw | ⟨hws, hi, rfl⟩
    · rcases hmem .recv hv with hv | ⟨hvs, hj, rfl⟩
      · exact hM.same c w hw v hv
      · simp only [Chan.waitq, (hrecv _ hj).2.1] at hw
        exact absurd hw (by simp)
    · rcases hmem .recv hv with hv | ⟨hvs, -, -⟩
      · simp only [Chan.waitq, (hsend _ hi).2.1] at hv
        exact absurd hv (by simp)
      · rw [hws, hvs]

end Meeting
end Chans
end Lthr

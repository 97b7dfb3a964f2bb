import Lthread.Proofs.ChanReg

/-! What one call of `chan_block_select_` does before it would block. Each case
it tries either leaves the state alone or is the one that is served. A case that
is served moves at most one message into the channel and at most one out of it:
`Exchange` names the case each of them comes from and goes to, for all of the
routes a message can take. -/

namespace Lthr
namespace Chans

def passed (st : Chans) (w : Wait) : Passed :=
  ⟨(st.sel w.sel).ticket, w.idx, (st.sel w.sel).msgs w.idx⟩

/-- The cases `served` get their targets, and `peer` leaves every wait queue. No
message cell but `written` changes. -/
structure Serves (st st' : Chans) (served : List Wait) (written peer : Option Wait) : Prop where
  call : ∀ s, (st.sel s).SameCall (st'.sel s)
  target : ∀ w ∈ served, (st'.sel w.sel).target = w.idx
  others : ∀ s, (∀ w ∈ served, w.sel ≠ s) → (st'.sel s).target = (st.sel s).target
  msgs : ∀ w : Wait, written ≠ some w → (st'.sel w.sel).msgs w.idx = (st.sel w.sel).msgs w.idx
  waitq : ∀ c side, (st'.chan c).waitq side =
    ((st.chan c).waitq side).filter fun w => !decide (some w.sel = peer.map Wait.sel)
  count : ∀ c side, (st'.chan c).waitCount side = ((st'.chan c).waitq side).length
  cap : ∀ c, (st'.chan c).cap = (st.chan c).cap
  closed : ∀ c, (st'.chan c).closed = (st.chan c).closed
  returns : st'.hist.returns = st.hist.returns
  calls : st'.hist.calls = st.hist.calls

/-- Channel `c` takes the message of `src` behind its buffer and gives the first
message it then has to `dst`. -/
structure Exchange (st st' : Chans) (c : ChanId) (caller : Wait) (peer src dst : Option Wait) : Prop
    extends Serves st st' (caller :: peer.toList) dst peer where
  accepted : st'.hist.accepted = Function.update st.hist.accepted c
    (st.hist.accepted c ++ (src.map st.passed).toList)
  handed : st'.hist.handed = Function.update st.hist.handed c
    (st.hist.handed c ++ (dst.map st'.passed).toList)
  flow : (st.chan c).buffer ++ (src.map fun w => (st.passed w).msg).toList =
    (dst.map fun w => (st'.passed w).msg).toList ++ (st'.chan c).buffer
  buffer : ∀ c' ≠ c, (st'.chan c').buffer = (st.chan c').buffer

/-- The receive case `w` gets NULL from a closed channel. -/
structure Nulled (st st' : Chans) (w : Wait) (peer : Option Wait) : Prop
    extends Serves st st' [w] (some w) peer where
  null : (st'.sel w.sel).msgs w.idx = NULL
  accepted : st'.hist.accepted = st.hist.accepted
  handed : st'.hist.handed = st.hist.handed
  buffer : ∀ c, (st'.chan c).buffer = (st.chan c).buffer

/-- A send on channel `c` finds room in its buffer or a receiver that waits. -/
def SendReady (st : Chans) (c : ChanId) : Prop :=
  (st.chan c).buffer.length < (st.chan c).cap ∨ (st.chan c).recvq ≠ []

/-- A receive from channel `c` finds a message or a sender that waits, or `c` is closed. -/
def RecvReady (st : Chans) (c : ChanId) : Prop :=
  (st.chan c).buffer ≠ [] ∨ (st.chan c).sendq ≠ [] ∨ (st.chan c).closed = true

instance (st : Chans) (c : ChanId) : Decidable (st.SendReady c) := inferInstanceAs (Decidable (_ ∨ _))

instance (st : Chans) (c : ChanId) : Decidable (st.RecvReady c) := inferInstanceAs (Decidable (_ ∨ _ ∨ _))

structure First (st : Chans) (s : SelId) (i : ℕ) : Prop where
  send : ∀ j ∈ st.idxs s .send, j < i → ¬ st.SendReady ((st.sel s).chans j)
  recv : ∀ j ∈ st.idxs s .recv, j < i → ¬ st.RecvReady ((st.sel s).chans j)

structure Unready (st : Chans) (s : SelId) : Prop where
  send : ∀ i ∈ st.idxs s .send, (st.chan ((st.sel s).chans i)).closed = false ∧
    (st.chan ((st.sel s).chans i)).recvq = [] ∧
    (st.chan ((st.sel s).chans i)).buffer.length = (st.chan ((st.sel s).chans i)).cap
  recv : ∀ i ∈ st.idxs s .recv, (st.chan ((st.sel s).chans i)).closed = false ∧
    (st.chan ((st.sel s).chans i)).sendq = [] ∧ (st.chan ((st.sel s).chans i)).buffer = []

inductive Tried (st : Chans) (s : SelId) : Chans → Option Wait → Prop
  | nothing (h : Unready st s) : Tried st s st none
  | sent {i : ℕ} {st' : Chans} {peer : Option Wait} (hi : i ∈ st.idxs s .send)
      (hopen : (st.chan ((st.sel s).chans i)).closed = false)
      (hpeer : (st.chan ((st.sel s).chans i)).recvq.head? = peer)
      (hroom : peer = none → (st.chan ((st.sel s).chans i)).buffer.length <
        (st.chan ((st.sel s).chans i)).cap)
      (h : Exchange st st' ((st.sel s).chans i) ⟨s, i⟩ peer (some ⟨s, i⟩) peer) (hfirst : st.First s i) :
      Tried st s st' peer
  | received {i : ℕ} {st' : Chans} {peer : Option Wait} (hi : i ∈ st.idxs s .recv)
      (hpeer : (st.chan ((st.sel s).chans i)).sendq.head? = peer)
      (hfull : peer = none → (st.chan ((st.sel s).chans i)).buffer ≠ [])
      (h : Exchange st st' ((st.sel s).chans i) ⟨s, i⟩ peer peer (some ⟨s, i⟩)) (hfirst : st.First s i) :
      Tried st s st' peer
  | drained {i : ℕ} {st' : Chans} (hi : i ∈ st.idxs s .recv)
      (hclosed : (st.chan ((st.sel s).chans i)).closed = true)
      (hempty : (st.chan ((st.sel s).chans i)).sendq = [] ∧ (st.chan ((st.sel s).chans i)).buffer = [])
      (h : Nulled st st' ⟨s, i⟩ none) (hfirst : st.First s i) : Tried st s st' none

namespace Serves

variable {st st1 : Chans} {served : List Wait} {written peer : Option Wait}

theorem remove (hR : st.Registered) (h : Serves st st1 served written none) {w : Wait}
    (hp : st.parked w.sel) : Serves st (st1.selRemoveAllChans w.sel) served written (some w) := by
  have hwaitq (c : ChanId) (side : Side) : (st1.chan c).waitq side = (st.chan c).waitq side := by
    rw [h.waitq]; exact Registered.filter_none _
  have hent (c : ChanId) (side : Side) : st1.entries w.sel (st1.idxs w.sel side) c =
      st.entries w.sel (st.idxs w.sel side) c :=
    caseEntries_congr (h.call w.sel).chans (h.call w.sel).wcount (h.call w.sel).rcount side c
  have hq (c : ChanId) (side : Side) : ((st1.selRemoveAllChans w.sel).chan c).waitq side =
      ((st.selRemoveAllChans w.sel).chan c).waitq side := by
    rw [selRemoveAllChans_waitq, selRemoveAllChans_waitq, hwaitq, hent]
  refine ⟨fun s => ?_, fun v hv => ?_, fun s hs => ?_, fun v hv => ?_, fun c side => ?_,
    fun c side => ?_, fun c => ?_, fun c => ?_, ?_, ?_⟩
  · rw [selRemoveAllChans_sel]; exact h.call s
  · rw [selRemoveAllChans_sel]; exact h.target v hv
  · rw [selRemoveAllChans_sel]; exact h.others s hs
  · rw [selRemoveAllChans_sel]; exact h.msgs v hv
  · rw [hq, hR.removeAll_waitq hp]; rfl
  · rw [hq, ← hR.removeAll_count hp, selRemoveAllChans_waitCount, selRemoveAllChans_waitCount, hent,
      h.count, hwaitq, hR.count]
  · unfold Chan.cap; rw [selRemoveAllChans_queue]; exact h.cap c
  · rw [selRemoveAllChans_closed]; exact h.closed c
  · rw [selRemoveAllChans_hist]; exact h.returns
  · rw [selRemoveAllChans_hist]; exact h.calls

theorem setTarget (h : Serves st st1 served written peer) {w : Wait}
    (hw : ∀ v ∈ served, v.sel ≠ w.sel) :
    Serves st (st1.setTarget w.sel w.idx) (served ++ [w]) written peer := by
  refine ⟨fun s => (h.call s).trans (setTarget_call ..), fun v hv => ?_, fun s hs => ?_,
    fun v hv => ?_, h.waitq, h.count, h.cap, h.closed, h.returns, h.calls⟩
  · rw [setTarget_target]
    rcases List.mem_append.mp hv with hv | hv
    · rw [if_neg (hw v hv)]; exact h.target v hv
    · obtain rfl := List.mem_singleton.mp hv
      rw [if_pos rfl]
  · rw [setTarget_target, if_neg fun he => hs w (by simp) he.symm]
    exact h.others s fun v hv => hs v (List.mem_append_left _ hv)
  · rw [setTarget_msgs]; exact h.msgs v hv

/-- A state that differs from `st` in message cells, targets and buffers only. -/
theorem of_quiet (hR : st.Registered) (hcall : ∀ s, (st.sel s).SameCall (st1.sel s))
    (htarget : ∀ w ∈ served, (st1.sel w.sel).target = w.idx)
    (hothers : ∀ s, (∀ w ∈ served, w.sel ≠ s) → (st1.sel s).target = (st.sel s).target)
    (hmsgs : ∀ w : Wait, written ≠ some w →
      (st1.sel w.sel).msgs w.idx = (st.sel w.sel).msgs w.idx)
    (hq : ∀ c side, (st1.chan c).waitq side = (st.chan c).waitq side)
    (hc : ∀ c side, (st1.chan c).waitCount side = (st.chan c).waitCount side)
    (hcap : ∀ c, (st1.chan c).cap = (st.chan c).cap)
    (hclosed : ∀ c, (st1.chan c).closed = (st.chan c).closed)
    (hret : st1.hist.returns = st.hist.returns) (hcalls : st1.hist.calls = st.hist.calls) :
    Serves st st1 served written none := by
  refine ⟨hcall, htarget, hothers, hmsgs, fun c side => ?_, fun c side => ?_, hcap, hclosed, hret,
    hcalls⟩
  · rw [hq]; exact (Registered.filter_none _).symm
  · rw [hc, hq, hR.count]

end Serves

namespace Exchange

variable {st st1 : Chans} {c : ChanId} {caller : Wait} {src dst : Option Wait}

/-- An exchange before the peer, if there is one, is told about it: the message
cell of `dst`, the target of the caller, the buffer and the history change. -/
theorem of_core (hR : st.Registered) {m : Ptr} {q : Option Queue}
    (hsel : st1.sel =
      ((dst.elim st fun w => st.setMsg w.sel w.idx m).setTarget caller.sel caller.idx).sel)
    (hchan : st1.chan = Function.update st.chan c { st.chan c with queue := q })
    (hcap : ({ st.chan c with queue := q } : Chan).cap = (st.chan c).cap)
    (hacc : st1.hist.accepted = Function.update st.hist.accepted c
      (st.hist.accepted c ++ (src.map st.passed).toList))
    (hhand : st1.hist.handed = Function.update st.hist.handed c
      (st.hist.handed c ++ (dst.map fun w => ⟨(st.sel w.sel).ticket, w.idx, m⟩).toList))
    (hflow : (st.chan c).buffer ++ (src.map fun w => (st.passed w).msg).toList =
      (dst.map fun _ => m).toList ++ ({ st.chan c with queue := q } : Chan).buffer)
    (hret : st1.hist.returns = st.hist.returns) (hcalls : st1.hist.calls = st.hist.calls) :
    Exchange st st1 c caller none src dst := by
  set st0 := dst.elim st fun w => st.setMsg w.sel w.idx m with hst0
  have hcall0 (s : SelId) : (st.sel s).SameCall (st0.sel s) := by
    cases dst with
    | none => exact Sel.SameCall.refl _
    | some w => exact setMsg_call ..
  have htarget0 (s : SelId) : (st0.sel s).target = (st.sel s).target := by
    cases dst with
    | none => rfl
    | some w => exact setMsg_target ..
  have hcall (s : SelId) : (st.sel s).SameCall (st1.sel s) := by
    rw [hsel]
    exact (hcall0 s).trans (setTarget_call ..)
  have hself : st1.chan c = { st.chan c with queue := q } := by rw [hchan, Function.update_self]
  have hother {c' : ChanId} (h : c' ≠ c) : st1.chan c' = st.chan c' := by
    rw [hchan, Function.update_of_ne h]
  have hmsg (w : Wait) (hw : dst = some w) : (st1.sel w.sel).msgs w.idx = m := by
    subst hw
    rw [hsel, setTarget_msgs, hst0, Option.elim_some, setMsg_msgs, if_pos ⟨rfl, rfl⟩]
  refine ⟨Serves.of_quiet hR hcall (fun w hw => ?_) (fun s hs => ?_) (fun w hw => ?_)
    (fun c' side => ?_) (fun c' side => ?_) (fun c' => ?_) (fun c' => ?_) hret hcalls, hacc, ?_, ?_,
    fun c' h => by rw [hother h]⟩
  · obtain rfl := List.mem_singleton.mp hw
    rw [hsel, setTarget_target, if_pos rfl]
  · rw [hsel, setTarget_target, if_neg (Ne.symm (hs caller (by simp))), htarget0]
  · rw [hsel, setTarget_msgs]
    cases dst with
    | none => rfl
    | some v =>
      rw [hst0, Option.elim_some, setMsg_msgs, if_neg]
      rintro ⟨h1, h2⟩
      exact hw (by rw [Option.some_inj]; cases v; cases w; simp_all)
  · by_cases h : c' = c
    · subst h; rw [hself]; cases side <;> rfl
    · rw [hother h]
  · by_cases h : c' = c
    · subst h; rw [hself]; cases side <;> rfl
    · rw [hother h]
  · by_cases h : c' = c
    · subst h; rw [hself]; exact hcap
    · rw [hother h]
  · by_cases h : c' = c
    · subst h; rw [hself]
    · rw [hother h]
  · rw [hhand]
    cases hd : dst with
    | none => rfl
    | some w =>
      simp only [Option.map_some, passed, (hcall w.sel).ticket, hmsg w hd]
  · rw [hflow, hself]
    cases hd : dst with
    | none => rfl
    | some w => simp only [Option.map_some, passed, hmsg w hd]

theorem and_peer (hR : st.Registered) (h : Exchange st st1 c caller none src dst) {w : Wait}
    (hp : st.parked w.sel) (hne : caller.sel ≠ w.sel) :
    Exchange st ((st1.selRemoveAllChans w.sel).setTarget w.sel w.idx) c caller (some w) src dst := by
  have hs := (h.toServes.remove hR hp).setTarget (w := w)
    (fun v hv => by obtain rfl := List.mem_singleton.mp hv; exact hne)
  have hpassed (v : Wait) : ((st1.selRemoveAllChans w.sel).setTarget w.sel w.idx).passed v =
      st1.passed v := by
    unfold passed
    rw [setTarget_msgs, (setTarget_call ..).ticket, selRemoveAllChans_sel]
  have hbuf (c' : ChanId) : (((st1.selRemoveAllChans w.sel).setTarget w.sel w.idx).chan c').buffer =
      (st1.chan c').buffer := by
    unfold Chan.buffer
    rw [setTarget_chan, selRemoveAllChans_queue]
  refine ⟨hs, ?_, ?_, ?_, fun c' hc => ?_⟩
  · rw [setTarget_hist, selRemoveAllChans_hist]; exact h.accepted
  · rw [setTarget_hist, selRemoveAllChans_hist, funext hpassed]; exact h.handed
  · simp only [hpassed, hbuf]; exact h.flow
  · rw [hbuf]; exact h.buffer c' hc

end Exchange

/-! ### `chan_try_send` -/

section TrySend

variable {st : Chans} {s : SelId} {c : ChanId} {i : ℕ} (pwait : Option Wait)

theorem find_waiting (st1 : Chans) {q : List Wait} (h : ∀ w ∈ q, (st1.sel w.sel).target = -1) :
    (q.find? fun w => decide ((st1.sel w.sel).target = -1)) = q.head? := by
  cases q with
  | nil => rfl
  | cons w q => rw [List.find?_cons_of_pos (by simp [h w (by simp)])]; rfl

theorem chanTrySend_closed (h : (st.chan c).closed = true) :
    st.chanTrySend s c i pwait = none := by
  unfold chanTrySend; rw [if_pos h]

theorem chanTrySend_full (hopen : (st.chan c).closed = false) (hq : (st.chan c).recvq = [])
    (hfull : (st.chan c).buffer.length = (st.chan c).cap) (ht : (st.sel s).target = -1) :
    st.chanTrySend s c i pwait = some (st, pwait, false) := by
  unfold chanTrySend
  cases hb : (st.chan c).queue with
  | none => simp [hopen, hq, ht]
  | some q =>
    rw [Chan.buffer_some _ hb, Chan.cap_some _ hb, Queue.length_toList] at hfull
    simp [hopen, hq, ht, hfull]

theorem chanTrySend_put (hopen : (st.chan c).closed = false) (hq : (st.chan c).recvq = [])
    {q : Queue} (hb : (st.chan c).queue = some q) (hroom : q.size < q.capacity) :
    st.chanTrySend s c i pwait =
      some (((st.accept c s i).setQueue c (q.add ((st.sel s).msgs i)).1).setTarget s i, pwait, true) := by
  have hq' : (((st.accept c s i).setQueue c (q.add ((st.sel s).msgs i)).1).setTarget s i |>.chan
      c).recvq = [] := by
    have := setQueue_waitq (st.accept c s i) c (q.add ((st.sel s).msgs i)).1 c .recv
    exact this.trans hq
  unfold chanTrySend
  simp only [hopen, hb, if_pos hroom, hq', List.find?_nil, setTarget_target, if_true]
  simp

variable (hR : st.Registered)

include hR

theorem put_exchange {q : Queue} (hb : (st.chan c).queue = some q) (hroom : q.size < q.capacity) :
    Exchange st (((st.accept c s i).setQueue c (q.add ((st.sel s).msgs i)).1).setTarget s i) c
      ⟨s, i⟩ none (some ⟨s, i⟩) none := by
  refine Exchange.of_core hR (m := NULL) rfl rfl ?_ rfl ?_ ?_ rfl rfl
  · rw [Chan.cap_some _ hb, Chan.cap_some _ rfl, Queue.add_capacity]
  · simp
  · rw [Chan.buffer_some _ hb, Chan.buffer_some _ rfl, q.toList_add _ hroom]
    rfl

/-- A receiver waits: the message goes to the first one, through the buffer if
there is one. -/
theorem chanTrySend_give (hopen : (st.chan c).closed = false) (hbuf : (st.chan c).buffer = [])
    (hu : (st.sel s).user = none) {w : Wait} {rest : List Wait}
    (hw : (st.chan c).recvq = w :: rest) :
    ∃ st1, st.chanTrySend s c i pwait =
        some ((st1.selRemoveAllChans w.sel).setTarget w.sel w.idx, some w, true) ∧
      Exchange st st1 c ⟨s, i⟩ none (some ⟨s, i⟩) (some w) := by
  have hpar : ∀ v ∈ (st.chan c).recvq, st.parked v.sel := fun v hv => (hR.mem .recv hv).1
  have hne : ∀ v ∈ (st.chan c).recvq, v.sel ≠ s := fun v hv he => (hpar v hv).1 (he ▸ hu)
  have hws : w.sel ≠ s := hne w (by simp [hw])
  have hwt : (st.sel w.sel).target = -1 := (hpar w (by simp [hw])).2
  have hdone (st1 : Chans) (h1 : (st1.sel s).target = i) :
      (((st1.selRemoveAllChans w.sel).setTarget w.sel w.idx).sel s).target ≠ -1 := by
    rw [setTarget_target, if_neg (Ne.symm hws), selRemoveAllChans_sel, h1]
    omega
  cases hb : (st.chan c).queue with
  | none =>
    refine ⟨(((st.accept c s i).setMsg w.sel w.idx ((st.sel s).msgs i)).hand c w.sel w.idx
      ((st.sel s).msgs i)).setTarget s i, ?_, ?_⟩
    · have hfind := find_waiting st fun v hv => (hpar v hv).2
      rw [hw, List.head?_cons] at hfind
      unfold chanTrySend
      simp only [hopen, hb, hw, hfind, setTarget_target, hws, if_false, hand_sel, setMsg_target,
        accept_sel, hwt, if_true]
      simp [setTarget_target, Ne.symm hws]
    · refine Exchange.of_core hR (m := (st.sel s).msgs i) (q := none) rfl ?_ ?_ rfl ?_ ?_ rfl rfl
      · rw [show ({ st.chan c with queue := none } : Chan) = st.chan c by rw [← hb]]
        exact (Function.update_eq_self c st.chan).symm
      · rw [Chan.cap_none _ hb, Chan.cap_none _ rfl]
      · simp only [setTarget_hist, hand_handed, setMsg_hist, accept_handed,
          (setMsg_call ..).ticket]
        rfl
      · rw [hbuf, Chan.buffer_none _ rfl]
        rfl
  | some q =>
    have hsize : q.size = 0 := by
      rw [Chan.buffer_some _ hb] at hbuf
      exact q.toList_eq_nil.mp hbuf
    have hroom : q.size < q.capacity := by
      have := q.capacity_pos
      omega
    set st0 := ((st.accept c s i).setQueue c (q.add ((st.sel s).msgs i)).1).setTarget s i with hst0
    have hq0 : (st0.chan c).queue = some (q.add ((st.sel s).msgs i)).1 := by
      simp [hst0, setQueue_queue]
    have hrq0 : (st0.chan c).recvq = w :: rest := by
      rw [← hw]
      exact setQueue_waitq (st.accept c s i) c _ c .recv
    have ht0 (v : Wait) (hv : v.sel ≠ s) : (st0.sel v.sel).target = (st.sel v.sel).target := by
      rw [hst0, setTarget_target, if_neg hv]; rfl
    set q1 := (q.add ((st.sel s).msgs i)).1 with hq1
    have hlist : q1.toList = (st.sel s).msgs i :: [] := by
      rw [hq1, q.toList_add _ hroom, q.toList_eq_nil.mpr hsize]; rfl
    have hpos : 0 < q1.size := by rw [← q1.length_toList, hlist]; simp
    have hrem : q1.remove.1 = (st.sel s).msgs i ∧ q1.remove.2.toList = [] := by
      have := q1.toList_remove hpos
      rw [hlist] at this
      exact ⟨(List.cons.inj this).1.symm, (List.cons.inj this).2.symm⟩
    refine ⟨((st0.setQueue c q1.remove.2).setMsg w.sel w.idx q1.remove.1).hand c w.sel w.idx
      q1.remove.1, ?_, ?_⟩
    · have hfind : ((st0.chan c).recvq.find? fun v => decide ((st0.sel v.sel).target = -1)) =
          some w := by
        have hall : ∀ v ∈ (st0.chan c).recvq, (st0.sel v.sel).target = -1 := by
          rw [hrq0, ← hw]
          intro v hv
          rw [ht0 v (hne v hv)]
          exact (hpar v hv).2
        rw [find_waiting st0 hall, hrq0]
        rfl
      unfold chanTrySend
      simp only [hopen, hb, if_pos hroom, ← hq1, ← hst0, hfind, hq0, hand_sel, setMsg_target,
        setQueue_sel, ht0 w hws, hwt, if_true]
      simp [setTarget_target, Ne.symm hws, hst0]
    · refine Exchange.of_core hR (m := q1.remove.1) (q := some q1.remove.2) ?_ ?_ ?_ rfl ?_ ?_ rfl rfl
      · have hcomm := congrArg Chans.sel (setTarget_setMsg st s w.idx q1.remove.1 i w.sel hws)
        exact hcomm
      · simp only [hand_chan, setMsg_chan, setQueue_chan, hst0, setTarget_chan, accept_chan,
          Function.update_self, Function.update_idem]
      · rw [Chan.cap_some _ hb, Chan.cap_some _ rfl, Queue.remove_capacity, hq1, Queue.add_capacity]
      · rw [hand_handed, (setMsg_call ..).ticket, setQueue_sel, (setTarget_call ..).ticket]
        rfl
      · rw [hbuf, Chan.buffer_some _ rfl, hrem.1, hrem.2]
        rfl

end TrySend

/-! ### `chan_try_recv` -/

section TryRecv

variable {st : Chans} {s : SelId} {c : ChanId} {i : ℕ} (pwait : Option Wait)

/-- No message and no sender: NULL if the channel is closed, nothing otherwise. -/
theorem chanTryRecv_none (hbuf : (st.chan c).buffer = []) (hq : (st.chan c).sendq = [])
    (ht : (st.sel s).target = -1) : st.chanTryRecv s c i pwait =
      if (st.chan c).closed then ((st.setMsg s i NULL).setTarget s i, pwait, true)
      else (st, pwait, false) := by
  unfold chanTryRecv
  cases hb : (st.chan c).queue with
  | none => simp [hq, ht]
  | some q =>
    rw [Chan.buffer_some _ hb, q.toList_eq_nil] at hbuf
    simp [hq, ht, hbuf]

variable (hR : st.Registered)

include hR

theorem chanTryRecv_take (hbuf : (st.chan c).buffer ≠ []) (hq : (st.chan c).sendq = []) :
    ∃ st1, st.chanTryRecv s c i pwait = (st1, pwait, true) ∧
      Exchange st st1 c ⟨s, i⟩ none none (some ⟨s, i⟩) := by
  cases hb : (st.chan c).queue with
  | none => exact absurd (Chan.buffer_none _ hb) hbuf
  | some q =>
    have hpos : 0 < q.size := by
      rw [Chan.buffer_some _ hb, ne_eq, q.toList_eq_nil] at hbuf
      omega
    refine ⟨(((st.setQueue c q.remove.2).setMsg s i q.remove.1).hand c s i q.remove.1).setTarget s i,
      ?_, Exchange.of_core hR (m := q.remove.1) (q := some q.remove.2) rfl rfl ?_ ?_ ?_ ?_ rfl rfl⟩
    · have hq' : ((st.setQueue c q.remove.2).chan c).sendq = [] :=
        (setQueue_waitq st c q.remove.2 c .send).trans hq
      unfold chanTryRecv
      simp only [hb, if_pos hpos, setTarget_chan, hand_chan, setMsg_chan, hq', List.head?_nil,
        setTarget_target, if_true]
      rw [if_pos (by omega)]
    · rw [Chan.cap_some _ hb, Chan.cap_some _ rfl, Queue.remove_capacity]
    · simp
    · rw [setTarget_hist, hand_handed, (setMsg_call ..).ticket]
      rfl
    · rw [Chan.buffer_some _ hb, Chan.buffer_some _ rfl, q.toList_remove hpos]
      simp

/-- A sender waits: its message takes the place that is freed, or is handed over
directly if nothing is buffered. -/
theorem chanTryRecv_pull (hu : (st.sel s).user = none) {w : Wait} {rest : List Wait}
    (hw : (st.chan c).sendq = w :: rest) :
    ∃ st1, st.chanTryRecv s c i pwait =
        ((st1.selRemoveAllChans w.sel).setTarget w.sel w.idx, some w, true) ∧
      Exchange st st1 c ⟨s, i⟩ none (some w) (some ⟨s, i⟩) := by
  have hpar : st.parked w.sel := (hR.mem .send (c := c) (by simp [Chan.waitq, hw])).1
  have hws : w.sel ≠ s := fun he => hpar.1 (he ▸ hu)
  have hdone (st1 : Chans) (h1 : (st1.sel s).target = i) :
      (((st1.selRemoveAllChans w.sel).setTarget w.sel w.idx).sel s).target ≠ -1 := by
    rw [setTarget_target, if_neg (Ne.symm hws), selRemoveAllChans_sel, h1]
    omega
  by_cases hbuf : (st.chan c).buffer = []
  · set m := (st.sel w.sel).msgs w.idx with hm
    set st1 := (((st.accept c w.sel w.idx).setMsg s i m).hand c s i m).setTarget s i with hst1
    have htarget : (st1.sel w.sel).target = -1 := by
      rw [hst1, setTarget_target, if_neg hws, hand_sel, setMsg_target]
      exact hpar.2
    have hself := hdone st1 (by rw [hst1, setTarget_target, if_pos rfl])
    refine ⟨st1, ?_,
      Exchange.of_core hR (m := m) (q := (st.chan c).queue) rfl ?_ rfl rfl ?_ ?_ rfl rfl⟩
    · unfold chanTryRecv
      cases hb : (st.chan c).queue with
      | none =>
        simp only [hw, List.head?_cons, hpar.2, if_true, ← hm, ← hst1, htarget]
        rw [if_pos hself]
      | some q =>
        have hempty : ¬ 0 < q.size := by
          rw [Chan.buffer_some _ hb, q.toList_eq_nil] at hbuf
          omega
        simp only [hempty, if_false, hw, List.head?_cons, hpar.2, if_true, ← hm, ← hst1, htarget]
        rw [if_pos hself]
    · exact (Function.update_eq_self c st.chan).symm
    · rw [setTarget_hist, hand_handed, (setMsg_call ..).ticket]
      rfl
    · rw [hbuf]
      rfl
  · cases hb : (st.chan c).queue with
    | none => exact absurd (Chan.buffer_none _ hb) hbuf
    | some q =>
      have hpos : 0 < q.size := by
        rw [Chan.buffer_some _ hb, q.toList_eq_nil] at hbuf
        omega
      set q1 := q.remove.2 with hq1
      have hroom : q1.size < q1.capacity := by
        have h1 := q.remove_size hpos
        have h2 := q.size_le
        rw [← hq1] at h1
        rw [hq1, q.remove_capacity, ← hq1]
        omega
      set st0 := (((st.setQueue c q1).setMsg s i q.remove.1).hand c s i q.remove.1).setTarget s i
        with hst0
      have hmsg : (st0.sel w.sel).msgs w.idx = (st.sel w.sel).msgs w.idx := by
        simp only [hst0, setTarget_msgs, hand_sel, setMsg_msgs, hws, false_and, if_false,
          setQueue_sel]
      have hticket : (st0.sel w.sel).ticket = (st.sel w.sel).ticket := by
        rw [hst0, (setTarget_call ..).ticket, hand_sel, (setMsg_call ..).ticket, setQueue_sel]
      have htarget : (st0.sel w.sel).target = -1 := by
        rw [hst0, setTarget_target, if_neg hws, hand_sel, setMsg_target]
        exact hpar.2
      have hsq : (st0.chan c).sendq = w :: rest := by
        rw [← hw]
        exact setQueue_waitq st c q1 c .send
      have hq0 : (st0.chan c).queue = some q1 := by simp [hst0, setQueue_queue]
      refine ⟨(st0.accept c w.sel w.idx).setQueue c (q1.add ((st.sel w.sel).msgs w.idx)).1, ?_,
        Exchange.of_core hR (m := q.remove.1) (q := some (q1.add ((st.sel w.sel).msgs w.idx)).1)
          rfl ?_ ?_ ?_ ?_ ?_ rfl rfl⟩
      · unfold chanTryRecv
        simp only [hb, if_pos hpos, ← hq1, ← hst0, hsq, List.head?_cons, htarget, if_true, hq0, hmsg,
          setQueue_sel, accept_sel]
        rw [if_pos (hdone _ (by rw [setQueue_sel, accept_sel, hst0, setTarget_target, if_pos rfl]))]
      · simp only [setQueue_chan, hst0, accept_chan, setTarget_chan, hand_chan, setMsg_chan,
          Function.update_self, Function.update_idem]
      · rw [Chan.cap_some _ hb, Chan.cap_some _ rfl, Queue.add_capacity, hq1, Queue.remove_capacity]
      · rw [setQueue_hist, accept_accepted, hmsg, hticket]
        rfl
      · rw [setQueue_hist, accept_handed, hst0, setTarget_hist, hand_handed, (setMsg_call ..).ticket]
        rfl
      · rw [Chan.buffer_some _ hb, Chan.buffer_some _ rfl, q1.toList_add _ hroom,
          q.toList_remove hpos]
        rfl

end TryRecv

/-! ### `chan_block_select_` before it blocks -/

section TryAll

variable {st : Chans} {s : SelId}

theorem chanTrySend_spec (hR : st.Registered) (hu : (st.sel s).user = none) {c : ChanId} (i : ℕ)
    (hopen : (st.chan c).closed = false)
    (hmeet : (st.chan c).recvq ≠ [] → (st.chan c).buffer = []) :
    (st.chanTrySend s c i none = some (st, none, false) ∧ (st.chan c).recvq = [] ∧
        (st.chan c).buffer.length = (st.chan c).cap) ∨
      ∃ st' peer, st.chanTrySend s c i none = some (st', peer, true) ∧
        (st.chan c).recvq.head? = peer ∧
        (peer = none → (st.chan c).buffer.length < (st.chan c).cap) ∧
        Exchange st st' c ⟨s, i⟩ peer (some ⟨s, i⟩) peer := by
  cases hw : (st.chan c).recvq with
  | nil =>
    by_cases hfull : (st.chan c).buffer.length = (st.chan c).cap
    · exact Or.inl ⟨chanTrySend_full none hopen hw hfull (hR.idle s hu), rfl, hfull⟩
    · have hlt : (st.chan c).buffer.length < (st.chan c).cap := by
        have := (st.chan c).buffer_length_le
        omega
      cases hb : (st.chan c).queue with
      | none => rw [Chan.cap_none _ hb] at hlt; omega
      | some q =>
        have hroom : q.size < q.capacity := by
          rwa [Chan.buffer_some _ hb, Chan.cap_some _ hb, q.length_toList] at hlt
        exact Or.inr ⟨_, none, chanTrySend_put none hopen hw hb hroom, rfl, fun _ => hlt,
          put_exchange hR hb hroom⟩
  | cons w rest =>
    have hpar : st.parked w.sel := (hR.mem .recv (c := c) (by simp [Chan.waitq, hw])).1
    obtain ⟨st1, heq, hex⟩ :=
      chanTrySend_give (i := i) none hR hopen (hmeet (by simp [hw])) hu hw
    exact Or.inr ⟨_, some w, heq, rfl, fun h => absurd h (by simp),
      hex.and_peer hR hpar fun he => hpar.1 (he ▸ hu)⟩

theorem chanTryRecv_spec (hR : st.Registered) (hu : (st.sel s).user = none) (c : ChanId) (i : ℕ) :
    (st.chanTryRecv s c i none = (st, none, false) ∧ (st.chan c).closed = false ∧
        (st.chan c).sendq = [] ∧ (st.chan c).buffer = []) ∨
      (∃ st' peer, st.chanTryRecv s c i none = (st', peer, true) ∧
        (st.chan c).sendq.head? = peer ∧ (peer = none → (st.chan c).buffer ≠ []) ∧
        Exchange st st' c ⟨s, i⟩ peer peer (some ⟨s, i⟩)) ∨
      ∃ st', st.chanTryRecv s c i none = (st', none, true) ∧ (st.chan c).closed = true ∧
        ((st.chan c).sendq = [] ∧ (st.chan c).buffer = []) ∧ Nulled st st' ⟨s, i⟩ none := by
  cases hw : (st.chan c).sendq with
  | nil =>
    by_cases hbuf : (st.chan c).buffer = []
    · have heq := chanTryRecv_none (i := i) none hbuf hw (hR.idle s hu)
      cases hc : (st.chan c).closed with
      | false => exact Or.inl ⟨by rw [heq]; simp [hc], rfl, rfl, hbuf⟩
      | true =>
        refine Or.inr (Or.inr ⟨_, by rw [heq, if_pos hc], rfl, ⟨rfl, hbuf⟩, ?_⟩)
        refine ⟨Serves.of_quiet hR (fun s' => (setMsg_call ..).trans (setTarget_call ..))
          (fun w hw => ?_) (fun s' hs => ?_) (fun w hw => ?_) (fun _ _ => rfl) (fun _ _ => rfl)
          (fun _ => rfl) (fun _ => rfl) rfl rfl, ?_, rfl, rfl, fun _ => rfl⟩
        · obtain rfl := List.mem_singleton.mp hw
          rw [setTarget_target, if_pos rfl]
        · rw [setTarget_target, if_neg (Ne.symm (hs ⟨s, i⟩ (by simp))), setMsg_target]
        · rw [setTarget_msgs, setMsg_msgs, if_neg]
          rintro ⟨h1, h2⟩
          exact hw (by rw [← h1, ← h2])
        · rw [setTarget_msgs, setMsg_msgs, if_pos ⟨rfl, rfl⟩]
    · obtain ⟨st1, heq, hex⟩ := chanTryRecv_take (s := s) (i := i) none hR hbuf hw
      exact Or.inr (Or.inl ⟨st1, none, heq, rfl, fun _ => hbuf, hex⟩)
  | cons w rest =>
    have hpar : st.parked w.sel := (hR.mem .send (c := c) (by simp [Chan.waitq, hw])).1
    obtain ⟨st1, heq, hex⟩ := chanTryRecv_pull (i := i) none hR hu hw
    exact Or.inr (Or.inl ⟨_, some w, heq, rfl, fun h => absurd h (by simp),
      hex.and_peer hR hpar fun he => hpar.1 (he ▸ hu)⟩)

theorem trySends_spec (hR : st.Registered) (hu : (st.sel s).user = none)
    (hmeet : ∀ c, (st.chan c).recvq ≠ [] → (st.chan c).buffer = []) :
    ∀ is : List ℕ, (trySends s is st none = none ∧ ∃ i ∈ is, (st.chan ((st.sel s).chans i)).closed = true) ∨
      (trySends s is st none = some (st, none) ∧
        ∀ i ∈ is, (st.chan ((st.sel s).chans i)).closed = false ∧
          (st.chan ((st.sel s).chans i)).recvq = [] ∧
          (st.chan ((st.sel s).chans i)).buffer.length = (st.chan ((st.sel s).chans i)).cap) ∨
      ∃ i, is.find? (fun i => st.SendReady ((st.sel s).chans i)) = some i ∧
        ∃ st' peer, trySends s is st none = some (st', peer) ∧
        (st.chan ((st.sel s).chans i)).closed = false ∧
        (st.chan ((st.sel s).chans i)).recvq.head? = peer ∧
        (peer = none → (st.chan ((st.sel s).chans i)).buffer.length <
          (st.chan ((st.sel s).chans i)).cap) ∧
        Exchange st st' ((st.sel s).chans i) ⟨s, i⟩ peer (some ⟨s, i⟩) peer := by
  intro is
  induction is with
  | nil => exact Or.inr (Or.inl ⟨rfl, fun i hi => absurd hi (by simp)⟩)
  | cons i is ih =>
    cases hc : (st.chan ((st.sel s).chans i)).closed with
    | true => exact Or.inl ⟨by simp only [trySends, chanTrySend_closed none hc], i, by simp, hc⟩
    | false =>
      rcases chanTrySend_spec hR hu i hc (hmeet _) with ⟨heq, hrq, hfull⟩ | ⟨st', peer, heq, hpeer, hroom, hex⟩
      · have hstep : trySends s (i :: is) st none = trySends s is st none := by
          simp only [trySends, heq]; rfl
        have hnot : ¬ st.SendReady ((st.sel s).chans i) := by
          rintro (h | h)
          · omega
          · exact h hrq
        rw [hstep, List.find?_cons_of_neg (by simpa using hnot)]
        rcases ih with ⟨h, j, hj, hcj⟩ | ⟨h, hall⟩ | h
        · exact Or.inl ⟨h, j, List.mem_cons_of_mem _ hj, hcj⟩
        · refine Or.inr (Or.inl ⟨h, fun j hj => ?_⟩)
          rcases List.mem_cons.mp hj with rfl | hj
          · exact ⟨hc, hrq, hfull⟩
          · exact hall j hj
        · exact Or.inr (Or.inr h)
      · have hready : st.SendReady ((st.sel s).chans i) := by
          cases hq : (st.chan ((st.sel s).chans i)).recvq with
          | nil =>
            rw [hq] at hpeer
            exact Or.inl (hroom hpeer.symm)
          | cons w rest => exact Or.inr (by rw [hq]; simp)
        refine Or.inr (Or.inr ⟨i, List.find?_cons_of_pos (by simpa using hready), st', peer, ?_, hc, hpeer, hroom, hex⟩)
        simp only [trySends, heq, if_true]

theorem tryRecvs_spec (hR : st.Registered) (hu : (st.sel s).user = none) :
    ∀ is : List ℕ, (tryRecvs s is st none = (st, none) ∧
        ∀ i ∈ is, (st.chan ((st.sel s).chans i)).closed = false ∧
          (st.chan ((st.sel s).chans i)).sendq = [] ∧
          (st.chan ((st.sel s).chans i)).buffer = []) ∨
      ∃ i, is.find? (fun i => st.RecvReady ((st.sel s).chans i)) = some i ∧
        ((∃ st' peer, tryRecvs s is st none = (st', peer) ∧
          (st.chan ((st.sel s).chans i)).sendq.head? = peer ∧
          (peer = none → (st.chan ((st.sel s).chans i)).buffer ≠ []) ∧
          Exchange st st' ((st.sel s).chans i) ⟨s, i⟩ peer peer (some ⟨s, i⟩)) ∨
        ∃ st', tryRecvs s is st none = (st', none) ∧
          (st.chan ((st.sel s).chans i)).closed = true ∧
          ((st.chan ((st.sel s).chans i)).sendq = [] ∧ (st.chan ((st.sel s).chans i)).buffer = []) ∧
          Nulled st st' ⟨s, i⟩ none) := by
  intro is
  induction is with
  | nil => exact Or.inl ⟨rfl, fun i hi => absurd hi (by simp)⟩
  | cons i is ih =>
    rcases chanTryRecv_spec hR hu ((st.sel s).chans i) i with
      ⟨heq, hfacts⟩ | ⟨st', peer, heq, hpeer, hfull, hex⟩ | ⟨st', heq, hclosed, hrest⟩
    · have hstep : tryRecvs s (i :: is) st none = tryRecvs s is st none := by
        simp only [tryRecvs, heq]; rfl
      have hnot : ¬ st.RecvReady ((st.sel s).chans i) := by
        rintro (h | h | h)
        · exact h hfacts.2.2
        · exact h hfacts.2.1
        · rw [hfacts.1] at h
          cases h
      rw [hstep, List.find?_cons_of_neg (by simpa using hnot)]
      rcases ih with ⟨h, hall⟩ | h
      · refine Or.inl ⟨h, fun j hj => ?_⟩
        rcases List.mem_cons.mp hj with rfl | hj
        · exact hfacts
        · exact hall j hj
      · exact Or.inr h
    · have hready : st.RecvReady ((st.sel s).chans i) := by
        cases hq : (st.chan ((st.sel s).chans i)).sendq with
        | nil =>
          rw [hq] at hpeer
          exact Or.inl (hfull hpeer.symm)
        | cons w rest => exact Or.inr (Or.inl (by rw [hq]; simp))
      refine Or.inr ⟨i, List.find?_cons_of_pos (by simpa using hready), Or.inl ⟨st', peer, ?_, hpeer, hfull, hex⟩⟩
      simp only [tryRecvs, heq, if_true]
    · have hready : st.RecvReady ((st.sel s).chans i) := Or.inr (Or.inr hclosed)
      refine Or.inr ⟨i, List.find?_cons_of_pos (by simpa using hready), Or.inr ⟨st', ?_, hclosed, hrest⟩⟩
      simp only [tryRecvs, heq, if_true]

/-- What is found first among the send cases, or among the receive cases once no send case
is ready. -/
theorem First.of_send {i : ℕ} (h : (st.idxs s .send).find? (fun i => st.SendReady ((st.sel s).chans i)) = some i) :
    i ∈ st.idxs s .send ∧ st.First s i := by
  have hi := List.mem_of_find?_eq_some h
  have hw : i < (st.sel s).wchanCount := List.mem_range.mp hi
  refine ⟨hi, ⟨fun j hj hlt => ?_, fun j hj hlt => ?_⟩⟩
  · simpa using (List.find?_range_eq_some.mp h).2.2 j hlt
  · have := (List.mem_range'_1.mp hj).1
    omega

theorem First.of_recv {i : ℕ} (hsend : ∀ j ∈ st.idxs s .send, ¬ st.SendReady ((st.sel s).chans j))
    (h : (st.idxs s .recv).find? (fun i => st.RecvReady ((st.sel s).chans i)) = some i) :
    i ∈ st.idxs s .recv ∧ st.First s i := by
  refine ⟨List.mem_of_find?_eq_some h, ⟨fun j hj _ => hsend j hj, fun j hj hlt => ?_⟩⟩
  simpa using (List.find?_range'_eq_some.mp h).2.2 j (List.mem_range'_1.mp hj).1 hlt

theorem tryAll_spec (hR : st.Registered) (hu : (st.sel s).user = none)
    (hmeet : ∀ c, (st.chan c).recvq ≠ [] → (st.chan c).buffer = []) {st' : Chans}
    {wait : Option Wait} (h : st.tryAll s = some (st', wait)) : Tried st s st' wait := by
  unfold tryAll at h
  rcases trySends_spec hR hu hmeet (st.idxs s .send) with
    ⟨heq, -⟩ | ⟨heq, hsend⟩ | ⟨i, hi, st1, peer, heq, hopen, hpeer, hroom, hex⟩
  · rw [heq] at h
    exact absurd h (by simp)
  · simp only [heq, hR.idle s hu, if_true, Option.some.injEq] at h
    have hnot (j : ℕ) (hj : j ∈ st.idxs s .send) : ¬ st.SendReady ((st.sel s).chans j) := by
      rintro (h0 | h0)
      · have := (hsend j hj).2.2
        omega
      · exact h0 (hsend j hj).2.1
    rcases tryRecvs_spec hR hu (st.idxs s .recv) with ⟨heq', hrecv⟩ | ⟨i, hi, hserved⟩
    · rw [heq', Prod.mk.injEq] at h
      rw [← h.1, ← h.2]
      exact Tried.nothing ⟨hsend, hrecv⟩
    · obtain ⟨hmem, hfirst⟩ := First.of_recv hnot hi
      rcases hserved with ⟨st1, peer, heq', hpeer, hfull, hex⟩ | ⟨st1, heq', hc, hempty, hn⟩
      · rw [heq', Prod.mk.injEq] at h
        rw [← h.1, ← h.2]
        exact Tried.received hmem hpeer hfull hex hfirst
      · rw [heq', Prod.mk.injEq] at h
        rw [← h.1, ← h.2]
        exact Tried.drained hmem hc hempty hn hfirst
  · obtain ⟨hmem, hfirst⟩ := First.of_send hi
    have ht : (st1.sel s).target = i := hex.target ⟨s, i⟩ (by simp)
    rw [heq] at h
    simp only [ht] at h
    rw [if_neg (by omega), Option.some.injEq, Prod.mk.injEq] at h
    rw [← h.1, ← h.2]
    exact Tried.sent hmem hopen hpeer hroom hex hfirst

theorem tryAll_ok (hR : st.Registered) (hu : (st.sel s).user = none)
    (hmeet : ∀ c, (st.chan c).recvq ≠ [] → (st.chan c).buffer = [])
    (hopen : ∀ i ∈ st.idxs s .send, (st.chan ((st.sel s).chans i)).closed = false) :
    ∃ st' wait, st.tryAll s = some (st', wait) := by
  unfold tryAll
  rcases trySends_spec hR hu hmeet (st.idxs s .send) with
    ⟨-, i, hi, hc⟩ | ⟨heq, -⟩ | ⟨i, -, st1, peer, heq, -⟩
  · rw [hopen i hi] at hc
    cases hc
  · simp only [heq]
    split_ifs
    · exact ⟨_, _, rfl⟩
    · exact ⟨_, _, rfl⟩
  · simp only [heq]
    split_ifs
    · exact ⟨_, _, rfl⟩
    · exact ⟨_, _, rfl⟩

end TryAll

end Chans
end Lthr

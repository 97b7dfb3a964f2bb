import Lthread.Proofs.Fifo
import Lthread.Spec.Chan

/-! What the building blocks of `chan.c` do to each part of the state. Later
proofs read the state through these lemmas and unfold no update. -/

namespace Lthr

namespace Chan

variable (x : Chan) (side : Side) (q q' : List Wait) (n n' : ℤ)

@[simp] theorem waitq_setWaitq_self : (x.setWaitq side q n).waitq side = q := by cases side <;> rfl

@[simp] theorem waitCount_setWaitq_self : (x.setWaitq side q n).waitCount side = n := by
  cases side <;> rfl

@[simp] theorem setWaitq_setWaitq :
    (x.setWaitq side q n).setWaitq side q' n' = x.setWaitq side q' n' := by cases side <;> rfl

@[simp] theorem setWaitq_waitq : x.setWaitq side (x.waitq side) (x.waitCount side) = x := by
  cases side <;> rfl

/-- The number of messages the channel can hold, 0 without a buffer. -/
def cap : ℕ :=
  match x.queue with
  | some q => q.capacity
  | none => 0

theorem buffer_some {q : Queue} (h : x.queue = some q) : x.buffer = q.toList := by
  unfold buffer; rw [h]

theorem buffer_none (h : x.queue = none) : x.buffer = [] := by unfold buffer; rw [h]

theorem cap_some {q : Queue} (h : x.queue = some q) : x.cap = q.capacity := by unfold cap; rw [h]

theorem cap_none (h : x.queue = none) : x.cap = 0 := by unfold cap; rw [h]

theorem buffer_length_le : x.buffer.length ≤ x.cap := by
  cases hq : x.queue with
  | none => rw [x.buffer_none hq]; exact Nat.zero_le _
  | some q =>
    rw [x.buffer_some hq, x.cap_some hq, q.length_toList]
    exact q.size_le

end Chan

/-- Two states of one selector within one call: the arguments are the same. -/
structure Sel.SameArgs (a b : Sel) : Prop where
  chans : b.chans = a.chans
  wcount : b.wchanCount = a.wchanCount
  rcount : b.rchanCount = a.rchanCount
  ticket : b.ticket = a.ticket
  given : b.given = a.given

/-- The call goes on with the same lthread suspended in it, or none. -/
structure Sel.SameCall (a b : Sel) : Prop extends Sel.SameArgs a b where
  user : b.user = a.user

theorem Sel.SameCall.refl (a : Sel) : a.SameCall a := ⟨⟨rfl, rfl, rfl, rfl, rfl⟩, rfl⟩

theorem Sel.SameCall.trans {a b c : Sel} (h1 : a.SameCall b) (h2 : b.SameCall c) : a.SameCall c :=
  ⟨⟨h2.chans.trans h1.chans, h2.wcount.trans h1.wcount, h2.rcount.trans h1.rcount,
    h2.ticket.trans h1.ticket, h2.given.trans h1.given⟩, h2.user.trans h1.user⟩

namespace Chans

variable (st : Chans)

section Fields

variable (c : ChanId) (s : SelId) (i : ℕ) (m : Ptr) (t : ℤ) (q : Queue) (l : LtId)

@[simp] theorem setTarget_chan : (st.setTarget s t).chan = st.chan := rfl
@[simp] theorem setTarget_hist : (st.setTarget s t).hist = st.hist := rfl
@[simp] theorem setTarget_tqeNext : (st.setTarget s t).tqeNext = st.tqeNext := rfl
theorem setTarget_sel : (st.setTarget s t).sel =
    Function.update st.sel s { st.sel s with target := t } := rfl

@[simp] theorem setMsg_chan : (st.setMsg s i m).chan = st.chan := rfl
@[simp] theorem setMsg_hist : (st.setMsg s i m).hist = st.hist := rfl
@[simp] theorem setMsg_tqeNext : (st.setMsg s i m).tqeNext = st.tqeNext := rfl
theorem setMsg_sel : (st.setMsg s i m).sel =
    Function.update st.sel s { st.sel s with msgs := Function.update (st.sel s).msgs i m } := rfl

@[simp] theorem setQueue_sel : (st.setQueue c q).sel = st.sel := rfl
@[simp] theorem setQueue_hist : (st.setQueue c q).hist = st.hist := rfl
@[simp] theorem setQueue_tqeNext : (st.setQueue c q).tqeNext = st.tqeNext := rfl
theorem setQueue_chan : (st.setQueue c q).chan =
    Function.update st.chan c { st.chan c with queue := some q } := rfl

@[simp] theorem accept_chan : (st.accept c s i).chan = st.chan := rfl
@[simp] theorem accept_sel : (st.accept c s i).sel = st.sel := rfl
@[simp] theorem accept_tqeNext : (st.accept c s i).tqeNext = st.tqeNext := rfl
@[simp] theorem accept_handed : (st.accept c s i).hist.handed = st.hist.handed := rfl
@[simp] theorem accept_returns : (st.accept c s i).hist.returns = st.hist.returns := rfl
@[simp] theorem accept_calls : (st.accept c s i).hist.calls = st.hist.calls := rfl
theorem accept_accepted : (st.accept c s i).hist.accepted = Function.update st.hist.accepted c
    (st.hist.accepted c ++ [⟨(st.sel s).ticket, i, (st.sel s).msgs i⟩]) := rfl

@[simp] theorem hand_chan : (st.hand c s i m).chan = st.chan := rfl
@[simp] theorem hand_sel : (st.hand c s i m).sel = st.sel := rfl
@[simp] theorem hand_tqeNext : (st.hand c s i m).tqeNext = st.tqeNext := rfl
@[simp] theorem hand_accepted : (st.hand c s i m).hist.accepted = st.hist.accepted := rfl
@[simp] theorem hand_returns : (st.hand c s i m).hist.returns = st.hist.returns := rfl
@[simp] theorem hand_calls : (st.hand c s i m).hist.calls = st.hist.calls := rfl
theorem hand_handed : (st.hand c s i m).hist.handed = Function.update st.hist.handed c
    (st.hist.handed c ++ [⟨(st.sel s).ticket, i, m⟩]) := rfl

variable (s' : SelId) (c' : ChanId) (side : Side)

theorem setTarget_call : (st.sel s').SameCall ((st.setTarget s t).sel s') := by
  rw [setTarget_sel]
  by_cases h : s' = s
  · subst h; rw [Function.update_self]; exact ⟨⟨rfl, rfl, rfl, rfl, rfl⟩, rfl⟩
  · rw [Function.update_of_ne h]; exact Sel.SameCall.refl _

theorem setTarget_target :
    ((st.setTarget s t).sel s').target = if s' = s then t else (st.sel s').target := by
  rw [setTarget_sel]
  by_cases h : s' = s
  · subst h; simp
  · simp [h]

@[simp] theorem setTarget_msgs : ((st.setTarget s t).sel s').msgs = (st.sel s').msgs := by
  rw [setTarget_sel]
  by_cases h : s' = s
  · subst h; simp
  · simp [h]

theorem setMsg_call : (st.sel s').SameCall ((st.setMsg s i m).sel s') := by
  rw [setMsg_sel]
  by_cases h : s' = s
  · subst h; rw [Function.update_self]; exact ⟨⟨rfl, rfl, rfl, rfl, rfl⟩, rfl⟩
  · rw [Function.update_of_ne h]; exact Sel.SameCall.refl _

@[simp] theorem setMsg_target : ((st.setMsg s i m).sel s').target = (st.sel s').target := by
  rw [setMsg_sel]
  by_cases h : s' = s
  · subst h; simp
  · simp [h]

theorem setMsg_msgs (j : ℕ) : ((st.setMsg s i m).sel s').msgs j =
    if s' = s ∧ j = i then m else (st.sel s').msgs j := by
  rw [setMsg_sel]
  by_cases h : s' = s
  · subst h; simp [Function.update_apply]
  · simp [h]

theorem setTarget_setMsg (h : s' ≠ s) :
    (st.setTarget s t).setMsg s' i m = (st.setMsg s' i m).setTarget s t := by
  simp only [setTarget, setMsg, modSel, Function.update_of_ne h, Function.update_of_ne (Ne.symm h)]
  rw [Function.update_comm h]

theorem setQueue_queue : ((st.setQueue c q).chan c').queue =
    if c' = c then some q else (st.chan c').queue := by
  rw [setQueue_chan]
  by_cases h : c' = c
  · subst h; simp
  · simp [h]

@[simp] theorem setQueue_waitq :
    ((st.setQueue c q).chan c').waitq side = (st.chan c').waitq side := by
  rw [setQueue_chan]
  by_cases h : c' = c
  · subst h; rw [Function.update_self]; cases side <;> rfl
  · rw [Function.update_of_ne h]

@[simp] theorem setQueue_waitCount :
    ((st.setQueue c q).chan c').waitCount side = (st.chan c').waitCount side := by
  rw [setQueue_chan]
  by_cases h : c' = c
  · subst h; rw [Function.update_self]; cases side <;> rfl
  · rw [Function.update_of_ne h]

@[simp] theorem setQueue_closed : ((st.setQueue c q).chan c').closed = (st.chan c').closed := by
  rw [setQueue_chan]
  by_cases h : c' = c
  · subst h; rw [Function.update_self]
  · rw [Function.update_of_ne h]

@[simp] theorem park_chan : (st.park s l).chan = st.chan := rfl
@[simp] theorem park_hist : (st.park s l).hist = st.hist := rfl
theorem park_sel : (st.park s l).sel =
    Function.update st.sel s { st.sel s with user := some l } := rfl

end Fields

/-- The wait entries of `s` for channel `c` among the cases `is`, in order. -/
def entries (s : SelId) (is : List ℕ) (c : ChanId) : List Wait :=
  (is.filter fun i => decide ((st.sel s).chans i = c)).map fun i => ⟨s, i⟩

theorem entries_cons (s : SelId) (i : ℕ) (is : List ℕ) (c : ChanId) :
    st.entries s (i :: is) c =
      if (st.sel s).chans i = c then ⟨s, i⟩ :: st.entries s is c else st.entries s is c := by
  unfold entries
  by_cases h : (st.sel s).chans i = c <;> simp [h]

theorem mem_entries {s : SelId} {is : List ℕ} {c : ChanId} {w : Wait} :
    w ∈ st.entries s is c ↔ w.sel = s ∧ w.idx ∈ is ∧ (st.sel s).chans w.idx = c := by
  unfold entries
  simp only [List.mem_map, List.mem_filter, decide_eq_true_eq]
  constructor
  · rintro ⟨i, ⟨hi, hc⟩, rfl⟩
    exact ⟨rfl, hi, hc⟩
  · rintro ⟨rfl, hi, hc⟩
    exact ⟨w.idx, ⟨hi, hc⟩, rfl⟩

theorem entries_nodup {s : SelId} {is : List ℕ} (h : is.Nodup) (c : ChanId) :
    (st.entries s is c).Nodup := by
  unfold entries
  refine List.Nodup.map ?_ (h.filter _)
  intro i j hij
  exact (Wait.mk.injEq .. ▸ hij).2

/-! The loops that unlink and link the entries of a selector change one wait
queue and its count, on every channel by the entries for that channel. -/

theorem foldl_removeWait_frame (side : Side) (s : SelId) (is : List ℕ) :
    ∀ st : Chans, (is.foldl (removeWait side s) st).sel = st.sel ∧
      (is.foldl (removeWait side s) st).hist = st.hist := by
  induction is with
  | nil => intro st; exact ⟨rfl, rfl⟩
  | cons i is ih => intro st; exact ih (removeWait side s st i)

theorem foldl_removeWait_chan (side : Side) (s : SelId) (is : List ℕ) (c : ChanId) :
    ∀ st : Chans, (is.foldl (removeWait side s) st).chan c =
      (st.chan c).setWaitq side (((st.chan c).waitq side).diff (st.entries s is c))
        ((st.chan c).waitCount side - (st.entries s is c).length) := by
  induction is with
  | nil => intro st; simp [entries]
  | cons i is ih =>
    intro st
    have hent : (removeWait side s st i).entries s is c = st.entries s is c := rfl
    rw [List.foldl_cons, ih, hent, entries_cons]
    by_cases h : (st.sel s).chans i = c
    · subst h
      simp only [removeWait, modChan, Function.update_self, if_true, List.diff_cons,
        List.length_cons, Nat.cast_add, Nat.cast_one, Chan.waitq_setWaitq_self,
        Chan.waitCount_setWaitq_self, Chan.setWaitq_setWaitq]
      congr 1
      omega
    · simp only [removeWait, modChan, Function.update_of_ne (Ne.symm h), if_neg h]

theorem foldl_insertWait_frame (side : Side) (s : SelId) (is : List ℕ) :
    ∀ st : Chans, (is.foldl (insertWait side s) st).sel = st.sel ∧
      (is.foldl (insertWait side s) st).hist = st.hist := by
  induction is with
  | nil => intro st; exact ⟨rfl, rfl⟩
  | cons i is ih => intro st; exact ih (insertWait side s st i)

theorem foldl_insertWait_chan (side : Side) (s : SelId) (is : List ℕ) (c : ChanId) :
    ∀ st : Chans, (is.foldl (insertWait side s) st).chan c =
      (st.chan c).setWaitq side ((st.chan c).waitq side ++ st.entries s is c)
        ((st.chan c).waitCount side + (st.entries s is c).length) := by
  induction is with
  | nil => intro st; simp [entries]
  | cons i is ih =>
    intro st
    have hent : (insertWait side s st i).entries s is c = st.entries s is c := rfl
    rw [List.foldl_cons, ih, hent, entries_cons]
    by_cases h : (st.sel s).chans i = c
    · subst h
      simp only [insertWait, modChan, Function.update_self, if_true, List.append_assoc,
        List.singleton_append, List.length_cons, Nat.cast_add, Nat.cast_one,
        Chan.waitq_setWaitq_self, Chan.waitCount_setWaitq_self, Chan.setWaitq_setWaitq]
      congr 1
      omega
    · simp only [insertWait, modChan, Function.update_of_ne (Ne.symm h), if_neg h]

@[simp] theorem selRemoveAllChans_sel (s : SelId) : (st.selRemoveAllChans s).sel = st.sel := by
  unfold selRemoveAllChans
  rw [(foldl_removeWait_frame .recv s _ _).1, (foldl_removeWait_frame .send s _ _).1]

@[simp] theorem selRemoveAllChans_hist (s : SelId) : (st.selRemoveAllChans s).hist = st.hist := by
  unfold selRemoveAllChans
  rw [(foldl_removeWait_frame .recv s _ _).2, (foldl_removeWait_frame .send s _ _).2]

@[simp] theorem register_sel (s : SelId) : (st.register s).sel = st.sel := by
  unfold register
  rw [(foldl_insertWait_frame .recv s _ _).1, (foldl_insertWait_frame .send s _ _).1]

@[simp] theorem register_hist (s : SelId) : (st.register s).hist = st.hist := by
  unfold register
  rw [(foldl_insertWait_frame .recv s _ _).2, (foldl_insertWait_frame .send s _ _).2]

theorem entries_congr {a b : Chans} {s : SelId} (h : (b.sel s).chans = (a.sel s).chans)
    (is : List ℕ) (c : ChanId) : b.entries s is c = a.entries s is c := by
  simp only [entries, h]

theorem selRemoveAllChans_waitq (s : SelId) (c : ChanId) (side : Side) :
    ((st.selRemoveAllChans s).chan c).waitq side =
      ((st.chan c).waitq side).diff (st.entries s (st.idxs s side) c) := by
  unfold selRemoveAllChans
  simp only
  rw [foldl_removeWait_chan, foldl_removeWait_chan,
    entries_congr (congrArg Sel.chans (congrFun (foldl_removeWait_frame .send s _ st).1 s))]
  cases side <;> rfl

theorem selRemoveAllChans_waitCount (s : SelId) (c : ChanId) (side : Side) :
    ((st.selRemoveAllChans s).chan c).waitCount side =
      (st.chan c).waitCount side - (st.entries s (st.idxs s side) c).length := by
  unfold selRemoveAllChans
  simp only
  rw [foldl_removeWait_chan, foldl_removeWait_chan,
    entries_congr (congrArg Sel.chans (congrFun (foldl_removeWait_frame .send s _ st).1 s))]
  cases side <;> rfl

@[simp] theorem selRemoveAllChans_queue (s : SelId) (c : ChanId) :
    ((st.selRemoveAllChans s).chan c).queue = (st.chan c).queue := by
  unfold selRemoveAllChans
  simp only
  rw [foldl_removeWait_chan, foldl_removeWait_chan]
  rfl

@[simp] theorem selRemoveAllChans_closed (s : SelId) (c : ChanId) :
    ((st.selRemoveAllChans s).chan c).closed = (st.chan c).closed := by
  unfold selRemoveAllChans
  simp only
  rw [foldl_removeWait_chan, foldl_removeWait_chan]
  rfl

theorem register_waitq (s : SelId) (c : ChanId) (side : Side) :
    ((st.register s).chan c).waitq side =
      (st.chan c).waitq side ++ st.entries s (st.idxs s side) c := by
  unfold register
  simp only
  rw [foldl_insertWait_chan, foldl_insertWait_chan,
    entries_congr (congrArg Sel.chans (congrFun (foldl_insertWait_frame .send s _ st).1 s))]
  cases side <;> rfl

theorem register_waitCount (s : SelId) (c : ChanId) (side : Side) :
    ((st.register s).chan c).waitCount side =
      (st.chan c).waitCount side + (st.entries s (st.idxs s side) c).length := by
  unfold register
  simp only
  rw [foldl_insertWait_chan, foldl_insertWait_chan,
    entries_congr (congrArg Sel.chans (congrFun (foldl_insertWait_frame .send s _ st).1 s))]
  cases side <;> rfl

@[simp] theorem register_queue (s : SelId) (c : ChanId) :
    ((st.register s).chan c).queue = (st.chan c).queue := by
  unfold register
  simp only
  rw [foldl_insertWait_chan, foldl_insertWait_chan]
  rfl

@[simp] theorem register_closed (s : SelId) (c : ChanId) :
    ((st.register s).chan c).closed = (st.chan c).closed := by
  unfold register
  simp only
  rw [foldl_insertWait_chan, foldl_insertWait_chan]
  rfl

end Chans
end Lthr

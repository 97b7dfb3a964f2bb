import Lthread.Proofs.SeatOk

/-! Switching to an lthread. `Leaves` says what an lthread may have left in the
structures of the scheduler when `_lthread_resume` finds it, whichever of the four
loops of `lthread_run` it comes from; the rest of its call clears it all. -/

namespace Lthr
namespace Seat

/-- What an lthread that is about to be switched to may have left in the
structures: the busy list, and the blocked list of its condition if it expired. -/
structure Leaves (v : Seat) : Prop where
  cancelled : v.lt.state .cancelled = false
  suspended : v.lt.ctx ≠ .running ∧ v.lt.ctx ≠ .exited
  new : v.lt.state .new = true ↔ v.lt.ctx = .start
  sleeping : v.lt.state .sleeping = false
  key : v.lt.fdWait = -1 ∨ ∃ fd e t, v.lt.ctx = .schedEvent fd e t
  wait : ∀ e, v.lt.state (waitBit e) = true → ∃ fd t, v.lt.ctx = .schedEvent fd e t
  io : ∀ e, v.lt.state (waitIoBit e) = true → ∃ w, v.lt.ctx = .ioWait e w
  pending : v.lt.state .pendingRuncompute = false
  runcompute : v.lt.state .runcompute = false
  exited : v.lt.state .exited = false
  cnt : v.cnt = {} ∧ v.lt.ctx.cond = none ∧ (∀ target t, v.lt.ctx ≠ .joining target t) ∨
    v.cnt = { busy := 1 } ∧ ((∃ i, v.lt.ctx.cond = some i) ∨ ∃ target t, v.lt.ctx = .joining target t) ∨
    v.lt.state .expired = true ∧
      ∃ i t, v.lt.ctx.cond = some (i, t) ∧ v.cnt = { busy := 1, blocked := Pi.single i 1 }

namespace Leaves

variable {k : Bool} {l : LtId} {v : Seat}

theorem no_compute_bits (h : Ok k l v) (hc : v.cnt.compute = 0) (ht : v.cnt.taken = 0) :
    v.lt.state .pendingRuncompute = false ∧ v.lt.state .runcompute = false := by
  constructor
  · rw [Bool.eq_false_iff, ne_eq, h.pending]
    rintro ⟨j, -, hj⟩
    exact no_compute hc j 0 hj
  · rw [Bool.eq_false_iff, ne_eq, h.computing]
    rintro ⟨j, -, hj | hj⟩
    · exact no_compute hc j 1 hj
    · exact no_taken ht j 1 hj

theorem of_ready (h : Ok k l v) (hc : v.lt.state .cancelled = false) (hr : v.cnt.ready ≠ 0) :
    Leaves (dropReady v) := by
  have hrow := hc ▸ h.row
  have hshape := hrow.of_ready hr
  have hn : v.cnt.sleeping = 0 ∧ v.cnt.compute = 0 ∧ v.cnt.taken = 0 := by
    rcases hshape with ⟨-, hn⟩ | ⟨-, hn⟩ <;> simp [hn]
  have hx : v.lt.ctx ≠ .running ∧ v.lt.ctx ≠ .exited := by
    constructor <;> intro hx <;> rw [hx] at hrow
    · exact hr (by rw [hrow.of_running.2])
    · exact hr (by rw [hrow.of_exited])
  obtain ⟨hp, hrc⟩ := no_compute_bits h hn.2.1 hn.2.2
  refine ⟨hc, hx, h.new, ?_, ?_, h.wait, fun e => (h.io e).mp, hp, hrc, ?_, ?_⟩
  · rw [dropReady_lt, Bool.eq_false_iff, ne_eq, h.sleeping]; simp [hn.1]
  · rcases h.key with hk | ⟨fd, e, t, hk, -⟩
    · exact Or.inl hk
    · exact Or.inr ⟨fd, e, t, hk⟩
  · rw [dropReady_lt, Bool.eq_false_iff]
    exact fun he => hx.2 (h.exited.mp he)
  · rcases hshape with ⟨hctx, hn⟩ | ⟨hctx, hn⟩
    · refine Or.inl ⟨by simp [hn], ?_, ?_⟩ <;>
        rcases hctx with hctx | hctx | ⟨t, hctx⟩ | ⟨fd, e, t, hctx⟩ <;> simp [hctx, Ctx.cond]
    · exact Or.inr (Or.inl ⟨by simp [hn], hctx⟩)

theorem of_defer (h : Ok k l v) (hc : v.lt.state .cancelled = false) (hd : v.cnt.defer ≠ 0) :
    Leaves (dropBusy (dropDefer v)) := by
  obtain ⟨hctx, hn⟩ := h.row.of_defer hd
  have hx : v.lt.ctx ≠ .running ∧ v.lt.ctx ≠ .exited ∧ v.lt.ctx.cond = none ∧
      ∀ target t, v.lt.ctx ≠ .joining target t := by
    rcases hctx with ⟨e, w, hctx⟩ | ⟨j, hctx⟩ <;> simp [hctx, Ctx.cond]
  obtain ⟨hp, hrc⟩ := no_compute_bits h (by simp [hn]) (by simp [hn])
  refine ⟨hc, ⟨hx.1, hx.2.1⟩, h.new, ?_, ?_, h.wait, fun e => (h.io e).mp, hp, hrc, ?_, Or.inl ⟨?_, hx.2.2⟩⟩
  · simp only [dropBusy_lt, dropDefer_lt]
    rw [Bool.eq_false_iff, ne_eq, h.sleeping]; simp [hn]
  · rcases h.key with hk | ⟨fd, e, t, hk, -⟩
    · exact Or.inl hk
    · exact Or.inr ⟨fd, e, t, hk⟩
  · simp only [dropBusy_lt, dropDefer_lt]
    rw [Bool.eq_false_iff]
    exact fun he => hx.2.1 (h.exited.mp he)
  · simp [hn]

theorem same (h : Leaves v) {lt : Lt} (hs : Lt.Same v.lt lt)
    (he : lt.state .expired = v.lt.state .expired) : Leaves { v with lt := lt } := by
  have hb (b : LtSt) (hf : b.free = false) : lt.state b = v.lt.state b := hs.state b hf
  refine ⟨?_, ?_, ?_, ?_, ?_, fun e => ?_, fun e => ?_, ?_, ?_, ?_, ?_⟩
  · rw [hb _ rfl]; exact h.cancelled
  · rw [hs.ctx]; exact h.suspended
  · rw [hb _ rfl, hs.ctx]; exact h.new
  · rw [hb _ rfl]; exact h.sleeping
  · rw [hs.fdWait, hs.ctx]; exact h.key
  · rw [hb _ (by cases e <;> rfl), hs.ctx]; exact h.wait e
  · rw [hb _ (by cases e <;> rfl), hs.ctx]; exact h.io e
  · rw [hb _ rfl]; exact h.pending
  · rw [hb _ rfl]; exact h.runcompute
  · rw [hb _ rfl]; exact h.exited
  · rw [hs.ctx, he]; exact h.cnt

theorem of_event (h : Ok k l v) (hw : v.cnt.waiting ≠ 0) (eof : Bool) : Leaves (Take.act (.event eof) v) := by
  obtain ⟨hc, fd, e, t, hctx, hn⟩ := h.row.of_waiting hw
  have hb (b : LtSt) (hb : b ≠ .sleeping) (hf : b.free = false) := woken_state v.lt hb hf
  have hio (e' : LtEvent) : v.lt.state (waitIoBit e') = false := by
    rw [Bool.eq_false_iff, ne_eq, h.io, hctx]; simp
  obtain ⟨hp, hrc⟩ := no_compute_bits h (by simp [hn]) (by simp [hn])
  have hleaves : Leaves (deschedSleep (dropWaiting v)) := by
    rw [deschedEvent_eq h hw]
    refine ⟨?_, ?_, ?_, ?_, ?_, fun e' => ?_, fun e' => ?_, ?_, ?_, ?_, Or.inl ⟨rfl, ?_, ?_⟩⟩
    · rw [hb _ (by simp) rfl, hc]
    · simp [hctx]
    · rw [hb _ (by simp) rfl, woken_ctx]; exact h.new
    · simp
    · exact Or.inr ⟨fd, e, t, by simp [hctx]⟩
    · rw [hb _ (by cases e' <;> simp [waitBit]) (by cases e' <;> rfl), woken_ctx]; exact h.wait e'
    · rw [hb _ (by cases e' <;> simp [waitIoBit]) (by cases e' <;> rfl), hio e']; simp
    · rw [hb _ (by simp) rfl, hp]
    · rw [hb _ (by simp) rfl, hrc]
    · rw [hb _ (by simp) rfl, Bool.eq_false_iff]
      intro he
      rw [h.exited.mp he] at hctx; cases hctx
    · simp [hctx, Ctx.cond]
    · simp [hctx]
  cases eof with
  | false => exact hleaves
  | true =>
    refine hleaves.same ⟨fun b hf => ?_, rfl, rfl, rfl⟩ ?_
    · have hne : b ≠ .fdeof := by rintro rfl; cases hf
      simp [Lt.setBit, hne]
    · simp [Lt.setBit]

theorem of_expired (h : Ok k l v) (hs : v.cnt.sleeping ≠ 0) {w : Seat} (he : v.Expires w) : Leaves w := by
  obtain ⟨hc, -, hshape⟩ := h.row.of_sleeping hs
  have hbit (b : LtSt) (h1 : b ≠ .sleeping) (hf : b.free = false) (h2 : b ≠ .waitRead)
      (h3 : b ≠ .waitWrite) : w.lt.state b = v.lt.state b :=
    he.bits b h1 hf fun e => by cases e <;> simpa [waitBit]
  have hn : v.cnt.compute = 0 ∧ v.cnt.taken = 0 := by
    rcases hshape with ⟨-, hn⟩ | ⟨i, t, -, hn⟩ | ⟨-, hn⟩ | ⟨-, hn⟩ <;> simp [hn]
  have hx : v.lt.ctx ≠ .running ∧ v.lt.ctx ≠ .exited := by
    rcases hshape with ⟨⟨t, hx⟩, -⟩ | ⟨i, t, hx, -⟩ | ⟨⟨T, t, hx⟩, -⟩ | ⟨⟨fd, e, t, hx⟩, -⟩
    · simp [hx]
    · constructor <;> intro h' <;> rw [h'] at hx <;> cases hx
    · simp [hx]
    · simp [hx]
  obtain ⟨hp, hrc⟩ := no_compute_bits h hn.1 hn.2
  refine ⟨?_, ?_, ?_, he.sleeping, Or.inl he.fdWait, fun e hb => ?_, fun e hb => ?_, ?_, ?_, ?_, ?_⟩
  · rw [hbit _ (by simp) rfl (by simp) (by simp), hc]
  · rwa [he.ctx]
  · rw [hbit _ (by simp) rfl (by simp) (by simp), he.ctx]; exact h.new
  · rw [he.ctx]; exact h.wait e (he.wait e hb)
  · rw [he.ctx, ← h.io e, ← hb, hbit]
    all_goals cases e <;> simp [waitIoBit, LtSt.free]
  · rw [hbit _ (by simp) rfl (by simp) (by simp), hp]
  · rw [hbit _ (by simp) rfl (by simp) (by simp), hrc]
  · rw [hbit _ (by simp) rfl (by simp) (by simp), Bool.eq_false_iff]
    exact fun h1 => hx.2 (h.exited.mp h1)
  · rw [he.ctx, he.cnt]
    rcases hshape with ⟨⟨t, hx⟩, hn⟩ | ⟨i, t, hx, hn⟩ | ⟨⟨T, t, hx⟩, hn⟩ | ⟨⟨fd, e, t, hx⟩, hn⟩
    · exact Or.inl ⟨by simp [hn], by simp [hx, Ctx.cond], by simp [hx]⟩
    · exact Or.inr (Or.inr ⟨he.expired, i, t, hx, by simp [hn]⟩)
    · exact Or.inr (Or.inl ⟨by simp [hn], Or.inr ⟨T, t, hx⟩⟩)
    · exact Or.inl ⟨by simp [hn], by simp [hx, Ctx.cond], by simp [hx]⟩

theorem of_take (h : Ok k l v) (hc : v.lt.state .cancelled = false) {t : Take} (ht : t.Finds v) :
    Leaves (t.act v) := by
  cases t with
  | ready => exact of_ready h hc ht
  | defer => exact of_defer h hc ht
  | event eof => exact of_event h ht eof
  | expired w => exact of_expired h ht.1 ht.2

end Leaves

structure Keeps (v w : Seat) : Prop where
  ltJoin : w.lt.ltJoin = v.lt.ltJoin
  ltExitPtr : w.lt.ltExitPtr = v.lt.ltExitPtr
  freed : w.lt.freed = v.lt.freed

theorem Keeps.of_eq {v w : Seat} (h : w = v) : v.Keeps w := by
  subst h
  exact ⟨rfl, rfl, rfl⟩

theorem Keeps.of_lt {v v' w w' : Seat} (h : v.Keeps w) (hv : v'.lt = v.lt) (hw : w'.lt = w.lt) : v'.Keeps w' := by
  obtain ⟨hj, hp, hf⟩ := h
  exact ⟨by rw [hv, hw, hj], by rw [hv, hw, hp], by rw [hv, hw, hf]⟩

theorem Keeps.trans {v w z : Seat} (h : v.Keeps w) (h' : w.Keeps z) : v.Keeps z :=
  ⟨h'.1.trans h.1, h'.2.trans h.2, h'.3.trans h.3⟩

theorem deschedSleep_keeps (v : Seat) : v.Keeps (deschedSleep v) ∧ (deschedSleep v).lt.ctx = v.lt.ctx := by
  unfold deschedSleep
  split_ifs <;> exact ⟨⟨rfl, rfl, rfl⟩, rfl⟩

theorem schedSleep_keeps (n u : ℕ) (v : Seat) : v.Keeps (schedSleep n u v) := by
  unfold schedSleep
  split_ifs <;> exact ⟨rfl, rfl, rfl⟩

theorem schedSleepEnd_keeps (t : ℕ) (v : Seat) : v.Keeps (schedSleepEnd t v) := by
  unfold schedSleepEnd
  split_ifs <;> exact ⟨rfl, rfl, rfl⟩

theorem take_keeps {v : Seat} {t : Take} (ht : t.Finds v) :
    v.Keeps (t.act v) ∧ (t.act v).lt.ctx = v.lt.ctx := by
  cases t with
  | expired w => exact ⟨⟨ht.2.ltJoin, ht.2.ltExitPtr, ht.2.freed⟩, ht.2.ctx⟩
  | event eof =>
    obtain ⟨hk, hx⟩ := deschedSleep_keeps (dropWaiting v)
    cases eof <;> exact ⟨⟨hk.1, hk.2, hk.3⟩, hx⟩
  | _ => exact ⟨⟨rfl, rfl, rfl⟩, rfl⟩

theorem afterYield_keeps (v : Seat) : v.Keeps (afterYield v) := by
  have hcond (c : CondId) (t : ℕ) : v.Keeps (condWaitEnd c t v) := by
    obtain ⟨h1, h2, h3⟩ := schedSleepEnd_keeps t v
    unfold condWaitEnd
    simp only
    split_ifs <;> exact ⟨h1, h2, h3⟩
  unfold afterYield
  split
  · exact schedSleepEnd_keeps _ v
  · exact hcond _ _
  · exact hcond _ _
  · obtain ⟨h1, h2, h3⟩ := schedSleepEnd_keeps _ v
    exact ⟨h1, h2, h3⟩
  · obtain ⟨h1, h2, h3⟩ := schedSleepEnd_keeps _ v
    exact ⟨h1, h2, h3⟩
  · exact ⟨rfl, rfl, rfl⟩
  · exact ⟨rfl, rfl, rfl⟩

theorem switched_keeps (v : Seat) : v.Keeps (switched v) := by
  have hinit : v.Keeps (init v) := by
    unfold init
    split_ifs <;> exact ⟨rfl, rfl, rfl⟩
  obtain ⟨h1, h2, h3⟩ := hinit.trans (afterYield_keeps (init v))
  exact ⟨h1, h2, h3⟩

theorem afterYield_expired (v : Seat) : (afterYield v).lt.state .expired = v.lt.state .expired := by
  have hend (t : ℕ) : (schedSleepEnd t v).lt.state .expired = v.lt.state .expired := by
    simp [schedSleepEnd_state]
  have hcond (c : CondId) (t : ℕ) : (condWaitEnd c t v).lt.state .expired = v.lt.state .expired := by
    rw [← hend t]
    unfold condWaitEnd
    simp only
    split_ifs <;> simp [Lt.clearBit]
  unfold afterYield
  split
  · exact hend _
  · exact hcond _ _
  · exact hcond _ _
  · next t _ => rw [← hend t]; simp [Lt.clearBit]
  · next e t _ => rw [← hend t]; cases e <;> simp [Lt.clearBit, waitBit]
  · next e _ _ => cases e <;> simp [Lt.clearBit, waitIoBit]
  · rfl

theorem switched_expired {v : Seat} (he : (switched v).lt.state .expired = true) :
    v.lt.state .expired = true := by
  replace he : (afterYield (init v)).lt.state .expired = true := he
  rw [afterYield_expired] at he
  unfold init at he
  split_ifs at he
  · simp at he
  · exact he

theorem take_expired {v : Seat} {t : Take} (ht : ∀ w, t ≠ .expired w)
    (he : (t.act v).lt.state .expired = true) : v.lt.state .expired = true := by
  cases t with
  | expired w => exact absurd rfl (ht w)
  | event eof =>
    have hd : (deschedSleep (dropWaiting v)).lt.state .expired = true := by
      cases eof
      · exact he
      · simpa [Take.act, Lt.setBit] using he
    unfold deschedSleep at hd
    split_ifs at hd
    · simp [Lt.clearBit] at hd
    · exact hd
  | _ => exact he

namespace Leaves

variable {v : Seat}

theorem runs_of (h : Leaves v) {w : Seat} (hcnt : w.cnt = {}) (hfd : w.lt.fdWait = -1)
    (hnew : w.lt.state .new = false)
    (hb : ∀ b, b ≠ .new → b.free = false → w.lt.state b = true → v.lt.state b = true)
    (hwait : ∀ fd e t, v.lt.ctx = .schedEvent fd e t → w.lt.state (waitBit e) = false)
    (hio : ∀ e i, v.lt.ctx = .ioWait e i → w.lt.state (waitIoBit e) = false) :
    Ok.Runs (onLt ({ · with ctx := .running }) w) := by
  have hfalse {b : LtSt} (hn : b ≠ .new) (hf : b.free = false) (hv : v.lt.state b = false) :
      w.lt.state b = false := by
    rw [Bool.eq_false_iff]
    intro h'
    rw [hb b hn hf h'] at hv; cases hv
  have hwait' (e : LtEvent) : w.lt.state (waitBit e) = false := by
    rw [Bool.eq_false_iff]
    intro he
    obtain ⟨fd, t, hx⟩ := h.wait e (hb _ (by cases e <;> simp [waitBit]) (by cases e <;> rfl) he)
    rw [hwait fd e t hx] at he; cases he
  have hio' (e : LtEvent) : w.lt.state (waitIoBit e) = false := by
    rw [Bool.eq_false_iff]
    intro he
    obtain ⟨i, hx⟩ := h.io e (hb _ (by cases e <;> simp [waitIoBit]) (by cases e <;> rfl) he)
    rw [hio e i hx] at he; cases he
  refine ⟨hcnt, hfd, fun b hf => ?_⟩
  cases b with
  | new => exact hnew
  | cancelled => exact hfalse (by simp) rfl h.cancelled
  | sleeping => exact hfalse (by simp) rfl h.sleeping
  | pendingRuncompute => exact hfalse (by simp) rfl h.pending
  | runcompute => exact hfalse (by simp) rfl h.runcompute
  | exited => exact hfalse (by simp) rfl h.exited
  | waitRead => exact hwait' .read
  | waitWrite => exact hwait' .write
  | waitIoRead => exact hio' .read
  | waitIoWrite => exact hio' .write
  | _ => cases hf

theorem fdWait_of (h : Leaves v) (hctx : ∀ fd e t, v.lt.ctx ≠ .schedEvent fd e t) : v.lt.fdWait = -1 := by
  rcases h.key with hk | ⟨fd, e, t, hk⟩
  · exact hk
  · exact absurd hk (hctx fd e t)

theorem cnt_nil (h : Leaves v) (hc : v.lt.ctx.cond = none)
    (hj : ∀ target t, v.lt.ctx ≠ .joining target t) : v.cnt = {} := by
  rcases h.cnt with ⟨hn, -⟩ | ⟨-, ⟨i, hi⟩ | ⟨target, t, hx⟩⟩ | ⟨-, i, t, hi, -⟩
  · exact hn
  · rw [hc] at hi; cases hi
  · exact absurd hx (hj target t)
  · rw [hc] at hi; cases hi

theorem schedSleepEnd_bit {t : ℕ} {b : LtSt} (hb : (schedSleepEnd t v).lt.state b = true) :
    v.lt.state b = true := by
  rw [schedSleepEnd_state] at hb
  split_ifs at hb
  exact hb

theorem runs_cond (h : Leaves v) (hnew : v.lt.state .new = false) {c : CondId} {t : ℕ}
    (hc : v.lt.ctx.cond = some (c, t)) :
    Ok.Runs (onLt ({ · with ctx := .running }) (condWaitEnd c t v)) := by
  have hctx : (∀ fd e t, v.lt.ctx ≠ .schedEvent fd e t) ∧ ∀ e i, v.lt.ctx ≠ .ioWait e i := by
    constructor <;> intros <;> intro hx <;> rw [hx] at hc <;> cases hc
  have hlt : (condWaitEnd c t v).lt =
      (dropBusy (onLt (·.clearBit .busy) (schedSleepEnd t v))).lt := by
    unfold condWaitEnd
    simp only
    split_ifs <;> rfl
  refine h.runs_of ?_ ?_ ?_ (fun b _ hf hb => ?_) (fun fd e t hx => absurd hx (hctx.1 fd e t))
    fun e i hx => absurd hx (hctx.2 e i)
  · -- an expired lthread takes itself off the blocked list, a signalled one is not in it
    have hexp : (dropBusy (onLt (·.clearBit .busy) (schedSleepEnd t v))).lt.state .expired =
        v.lt.state .expired := by simp [Lt.clearBit, schedSleepEnd_state]
    unfold condWaitEnd
    simp only [hexp]
    rcases h.cnt with ⟨-, hx, -⟩ | ⟨hn, -⟩ | ⟨he, i, t', hx, hn⟩
    · rw [hc] at hx; cases hx
    · split_ifs <;> simp [hn, lower_of_zero]
    · rw [hc] at hx
      obtain ⟨rfl, rfl⟩ : c = i ∧ t = t' := by simpa using hx
      simp [he, hn]
  · rw [hlt]
    simpa [Lt.clearBit] using h.fdWait_of hctx.1
  · rw [hlt]
    simp [Lt.clearBit, schedSleepEnd_state, hnew]
  · rw [hlt] at hb
    have hbusy : b ≠ .busy := by rintro rfl; cases hf
    simp only [dropBusy_lt, onLt_lt, Lt.clearBit, Function.update_of_ne hbusy] at hb
    exact schedSleepEnd_bit hb

/-- Whatever call it was in, the lthread runs and has left every structure. -/
theorem switched (h : Leaves v) : Ok.Runs v.switched := by
  by_cases hn : v.lt.state .new = true
  · have hx := h.new.mp hn
    have hinit : v.init = onLt ({ · with state := fun b => decide (b = .ready) }) v := if_pos hn
    have hw : v.switched = onLt ({ · with ctx := .running }) v.init := by
      simp [Seat.switched, hinit, Seat.afterYield, hx]
    rw [hw, hinit]
    refine h.runs_of (h.cnt_nil (by rw [hx]; rfl) (by simp [hx])) (h.fdWait_of (by simp [hx])) rfl
      (fun b _ hf hb => ?_) (by simp [hx]) (by simp [hx])
    obtain rfl : b = .ready := by simpa using hb
    cases hf
  · have hnew : v.lt.state .new = false := by simpa using hn
    have hinit : v.init = v := if_neg hn
    rw [Seat.switched, hinit]
    cases hx : v.lt.ctx with
    | start => exact absurd (h.new.mpr hx) hn
    | running => exact absurd hx h.suspended.1
    | exited => exact absurd hx h.suspended.2
    | condWait c t =>
      simp only [Seat.afterYield, hx]
      exact h.runs_cond hnew (by rw [hx]; rfl)
    | selWait s t =>
      simp only [Seat.afterYield, hx]
      exact h.runs_cond hnew (by rw [hx]; rfl)
    | yielded =>
      simp only [Seat.afterYield, hx]
      exact h.runs_of (h.cnt_nil (by rw [hx]; rfl) (by simp [hx])) (h.fdWait_of (by simp [hx])) hnew
        (fun b _ _ hb => hb) (by simp [hx]) (by simp [hx])
    | compute j =>
      simp only [Seat.afterYield, hx]
      exact h.runs_of (h.cnt_nil (by rw [hx]; rfl) (by simp [hx])) (h.fdWait_of (by simp [hx])) hnew
        (fun b _ _ hb => hb) (by simp [hx]) (by simp [hx])
    | slept t =>
      simp only [Seat.afterYield, hx]
      refine h.runs_of (h.cnt_nil (by rw [hx]; rfl) (by simp [hx])) ?_ ?_ (fun b _ _ => schedSleepEnd_bit)
        (by simp [hx]) (by simp [hx])
      · simpa using h.fdWait_of (by simp [hx])
      · simp [schedSleepEnd_state, hnew]
    | joining target t =>
      simp only [Seat.afterYield, hx]
      refine h.runs_of ?_ ?_ ?_ (fun b _ hf hb => ?_) (by simp [hx]) (by simp [hx])
      · rcases h.cnt with ⟨-, -, hj⟩ | ⟨hn, -⟩ | ⟨-, i, t', hc, -⟩
        · exact absurd hx (hj target t)
        · simp [hn]
        · rw [hx] at hc; cases hc
      · simpa [Lt.clearBit] using h.fdWait_of (by simp [hx])
      · simp [Lt.clearBit, schedSleepEnd_state, hnew]
      · have hbusy : b ≠ .busy := by rintro rfl; cases hf
        simp only [dropBusy_lt, onLt_lt, Lt.clearBit, Function.update_of_ne hbusy] at hb
        exact schedSleepEnd_bit hb
    | schedEvent fd e t =>
      -- both the key and the bit go
      simp only [Seat.afterYield, hx]
      refine h.runs_of (h.cnt_nil (by rw [hx]; rfl) (by simp [hx])) rfl ?_ (fun b _ _ hb => ?_)
        (fun fd' e' t' hx' => ?_) (by simp [hx])
      · cases e <;> simp [Lt.clearBit, waitBit, schedSleepEnd_state, hnew]
      · by_cases hbe : b = waitBit e
        · simp [Lt.clearBit, hbe] at hb
        · simp only [onLt_lt, Lt.clearBit, Function.update_of_ne hbe] at hb
          exact schedSleepEnd_bit hb
      · obtain ⟨-, rfl, -⟩ := Ctx.schedEvent.inj (hx.symm.trans hx')
        simp [Lt.clearBit]
    | ioWait e w =>
      simp only [Seat.afterYield, hx]
      refine h.runs_of (h.cnt_nil (by rw [hx]; rfl) (by simp [hx])) (h.fdWait_of (by simp [hx])) ?_
        (fun b _ _ hb => ?_) (by simp [hx]) fun e' i hx' => ?_
      · cases e <;> simp [Lt.clearBit, waitIoBit, hnew]
      · by_cases hbe : b = waitIoBit e
        · simp [Lt.clearBit, hbe] at hb
        · simpa [Lt.clearBit, hbe] using hb
      · obtain ⟨rfl, -⟩ := Ctx.ioWait.inj (hx.symm.trans hx')
        simp [Lt.clearBit]

end Leaves
end Seat
end Lthr

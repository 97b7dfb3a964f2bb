import Lthread.Proofs.Seated

/-! Every turn keeps the invariant of the board. -/

namespace Lthr

def Board.Seated (k : Bool) (b : Board) : Prop := Lthr.Seated k b.seat b.cpu b.spawned b.expiring

@[simp] theorem World.board_seat (x : World) : x.board.seat = x.seat := rfl
@[simp] theorem World.board_cpu (x : World) : x.board.cpu = x.cpu := rfl
@[simp] theorem World.board_spawned (x : World) : x.board.spawned = x.sched.spawned := rfl
@[simp] theorem World.board_dropped (x : World) : x.board.dropped = x.dropped := rfl

theorem Board.Seated.current {k : Bool} {b : Board} {l : LtId} (h : b.Seated k) (hcpu : b.cpu = .run l) :
    Seat.Ok.Runs (b.seat l) ∧ (b.seat l).lt.ctx = .running ∧ l < b.spawned ∧ ¬ (b.seat l).Finished := by
  rw [Board.Seated, hcpu] at h
  exact Lthr.Seated.current h

/-- The joiner of an lthread that has been taken from its queue is in its join. -/
theorem Board.Seated.joiner_taken {k : Bool} {b : Board} {σ : LtId → Seat} {l j : LtId} {t : Take} (h : b.Seated k)
    (hf : (b.seat l).lt.freed = false) (ht : t.Finds (b.seat l)) (hm : ActsAt b.seat σ l t.act)
    (hj : (σ l).lt.ltJoin = some j) : ∃ u, (σ j).lt.ctx = .joining l u := by
  have hj' : (b.seat l).lt.ltJoin = some j :=
    (hm.keeps (·.lt.ltJoin) (Seat.take_keeps ht).1.ltJoin l).symm.trans hj
  obtain ⟨⟨u, hx⟩, -⟩ := h.links.join l j hj' hf
  exact ⟨u, (hm.keeps (·.lt.ctx) (Seat.take_keeps ht).2 j).trans hx⟩

def Rules.Cancel (R : Rules) (k : Bool) : Prop := ∀ b l, R b (.cancel l) → k = true

/-! The end of an lthread -/

/-- What an lthread has kept when its joiner has been woken. -/
structure Seat.Ending (v w : Seat) : Prop where
  ltJoin : w.lt.ltJoin = none
  freed : w.lt.freed = v.lt.freed
  ctx : w.lt.ctx = v.lt.ctx
  bits : ∀ b, b ≠ .sleeping → b ≠ .ready → b ≠ .expired → w.lt.state b = v.lt.state b
  workers : w.cnt.io = v.cnt.io ∧ w.cnt.compute = v.cnt.compute ∧ w.cnt.taken = v.cnt.taken ∧
    w.cnt.defer = v.cnt.defer

theorem WakesJoiner.ending {σ σ' : LtId → Seat} {l : LtId} (h : WakesJoiner σ σ' l) :
    (σ l).Ending (σ' l) := by
  unfold WakesJoiner at h
  cases hj : (σ l).lt.ltJoin with
  | none =>
    rw [hj] at h
    subst h
    exact ⟨hj, rfl, rfl, fun _ _ _ _ => rfl, rfl, rfl, rfl, rfl⟩
  | some j =>
    rw [hj] at h
    obtain ⟨σ₁, h1, h2⟩ := h
    rw [h2.self]
    by_cases hlj : l = j
    · -- it has joined itself
      subst hlj
      rw [h1.self, Function.comp_apply]
      refine ⟨rfl, ?_, ?_, fun b hb1 hb2 hb3 => ?_, ?_⟩
      all_goals simp only [Seat.onLt_lt, Seat.onLt_cnt, Seat.addReady_lt, Seat.addReady_cnt, Seat.deschedSleep]
      · split_ifs <;> rfl
      · split_ifs <;> rfl
      · split_ifs
        · simp [Lt.clearBit, Lt.setBit, hb1, hb2, hb3]
        · rfl
      · split_ifs <;> exact ⟨rfl, rfl, rfl, rfl⟩
    · rw [h1.other hlj]
      exact ⟨rfl, rfl, rfl, fun _ _ _ _ => rfl, rfl, rfl, rfl, rfl⟩

/-- What holds of every seat holds of every seat when the joiner of `l`, if there is one, has been woken. -/
theorem WakesJoiner.all {σ σ' : LtId → Seat} {l : LtId} {P : LtId → Seat → Prop} (h : WakesJoiner σ σ' l)
    (hσ : ∀ m, P m (σ m))
    (hwake : ∀ j, (σ l).lt.ltJoin = some j → P j (Seat.addReady (Seat.deschedSleep (σ j))))
    (hnone : ∀ v, P l v → P l (Seat.onLt ({ · with ltJoin := none }) v)) : ∀ m, P m (σ' m) := by
  unfold WakesJoiner at h
  cases hj : (σ l).lt.ltJoin with
  | none =>
    rw [hj] at h
    rwa [h]
  | some j =>
    rw [hj] at h
    obtain ⟨σ₁, h1, h2⟩ := h
    have h₁ : ∀ m, P m (σ₁ m) := h1.all (fun m _ => hσ m) (hwake j hj)
    exact h2.all (fun m _ => h₁ m) (hnone _ (h₁ l))

theorem WakesJoiner.keeps {σ σ' : LtId → Seat} {l : LtId} {β : Type} (f : Seat → β) (h : WakesJoiner σ σ' l)
    (hwake : ∀ v, f (Seat.addReady (Seat.deschedSleep v)) = f v)
    (hnone : ∀ v, f (Seat.onLt ({ · with ltJoin := none }) v) = f v) (m : LtId) : f (σ' m) = f (σ m) :=
  h.all (P := fun m v => f v = f (σ m)) (fun _ => rfl) (fun _ _ => hwake _) (fun v hv => (hnone v).trans hv) m

theorem WakesJoiner.ctx {σ σ' : LtId → Seat} {l : LtId} (h : WakesJoiner σ σ' l) (m : LtId) :
    (σ' m).lt.ctx = (σ m).lt.ctx :=
  h.keeps (·.lt.ctx) (fun v => (Seat.deschedSleep_keeps v).2) (fun _ => rfl) m

theorem JoinEnds.onLt {σ σ' : LtId → Seat} {l : LtId} (h : JoinEnds σ σ' l) (m : LtId) :
    ∃ j f, σ' m = Seat.onLt ({ · with ltJoin := j, freed := f }) (σ m) := by
  have hsame : σ m = Seat.onLt ({ · with ltJoin := (σ m).lt.ltJoin, freed := (σ m).lt.freed }) (σ m) := rfl
  unfold JoinEnds at h
  split at h
  · next target t hx =>
    obtain ⟨-, h⟩ := h
    split_ifs at h
    · by_cases hm : m = target
      · subst hm; exact ⟨none, (σ m).lt.freed, h.self⟩
      · exact ⟨_, _, (h.other hm).trans hsame⟩
    · by_cases hm : m = target
      · subst hm; exact ⟨(σ m).lt.ltJoin, true, h.self⟩
      · exact ⟨_, _, (h.other hm).trans hsame⟩
  · rw [h]; exact ⟨_, _, hsame⟩

namespace Seated

variable {k ex : Bool} {σ σ' : LtId → Seat} {cpu : Cpu} {n : ℕ} {l : LtId}

theorem wakesJoiner (h : Seated k σ cpu n ex) (hl : (σ l).Finished) (hf : (σ l).lt.freed = false)
    (hw : WakesJoiner σ σ' l) : Seated k σ' cpu n ex := by
  unfold WakesJoiner at hw
  cases hj : (σ l).lt.ltJoin with
  | none => rw [hj] at hw; rwa [hw]
  | some j =>
    rw [hj] at hw
    obtain ⟨σ₁, h1, h2⟩ := hw
    exact h.wakeJoiner hl hj hf h1 h2

theorem freeDetached (h : Seated k σ cpu n ex) (hl : (σ l).Finished)
    (hm : ActsAt σ σ' l Seat.freeDetached) : Seated k σ' cpu n ex := by
  by_cases hd : (σ l).lt.state .detach = true
  · have hm' : ActsAt σ σ' l (Seat.onLt ({ · with freed := true })) := hm.congr (if_pos hd)
    exact h.same hm' ⟨fun _ _ => rfl, rfl, rfl, rfl⟩ (fun _ _ h2 => by cases h2) (fun _ => Or.inr hl) id
  · rwa [hm.eq_of_fixed (if_neg hd)]

end Seated

namespace Turn

variable {k : Bool} {R : Rules} {b b' : Board}

theorem take_joining {l m : LtId} {n : ℕ} {v : Seat} {t : Take} (h : v.Ok k l) (ht : t.Finds v)
    (hx : v.lt.ctx = .joining m n) : (t.act v).lt.state .expired = true ∨ v.cnt.ready ≠ 0 := by
  cases t with
  | ready => exact Or.inr ht
  | defer =>
    obtain ⟨⟨e, w, hw⟩ | ⟨j, hw⟩, -⟩ := h.row.of_defer ht
    all_goals rw [hx] at hw; cases hw
  | event eof =>
    obtain ⟨-, fd, e, u, hw, -⟩ := h.row.of_waiting ht
    rw [hx] at hw; cases hw
  | expired w => exact Or.inl ht.2.expired

theorem poised {l : LtId} {σ : LtId → Seat} {t : Take} (h : b.Seated k) (hcpu : b.cpu = .loop)
    (hc : (b.seat l).lt.state .cancelled = false) (ht : t.Finds (b.seat l))
    (he : ∀ w, t = .expired w → b.expiring = true) (h1 : ActsAt b.seat σ l t.act) :
    Poised k σ l b.spawned b.expiring := by
  rw [Board.Seated, hcpu] at h
  obtain ⟨hkeeps, hctx⟩ := Seat.take_keeps ht
  have hleaves := Seat.Leaves.of_take (h.seats l) hc ht
  refine h.poise h1 hleaves hctx hkeeps hc (fun hexp => ?_) fun m n hx => take_joining (h.seats l) ht hx
  by_contra hne
  have hold := Seat.take_expired (fun w hw => hne (he w hw)) hexp
  rw [h.not_expired (hctx ▸ hleaves.suspended.2)] at hold
  cases hold

theorem dropped {σ₁ σ₂ σ : LtId → Seat} {l : LtId} {t : Take} (h : b.Seated k)
    (hf : (b.seat l).lt.freed = false) (hc : (b.seat l).lt.state .cancelled = true)
    (hq : t = .ready ∨ t = .defer) (ht : t.Finds (b.seat l)) (h1 : ActsAt b.seat σ₁ l t.act)
    (h2 : WakesJoiner σ₁ σ₂ l) (hm : ActsAt σ₂ σ l (Seat.unbusy ∘ Seat.freeDetached)) :
    Lthr.Seated k σ b.cpu b.spawned b.expiring := by
  have hok := h.seats l
  -- taken out of its queue it is with no worker
  have htaken : Lthr.Seated k σ₁ b.cpu b.spawned b.expiring ∧ (σ₁ l).cnt.io = 0 ∧ (σ₁ l).cnt.compute = 0 ∧
      (σ₁ l).cnt.taken = 0 ∧ (σ₁ l).cnt.defer = 0 := by
    rw [h1.self]
    rcases hq with rfl | rfl
    · obtain ⟨hok', hn⟩ := Seat.ok_dropReady hok hc ht
      exact ⟨Lthr.Seated.recount h h1 hok' (fun _ _ => rfl) ⟨rfl, rfl, rfl, rfl⟩ rfl fun _ => ht, hn⟩
    · obtain ⟨hok', hn⟩ := Seat.ok_dropDefer hok hc ht
      refine ⟨Lthr.Seated.recount h h1 hok' (fun _ _ => rfl) ⟨rfl, rfl, rfl, rfl⟩ rfl id, ?_⟩
      change (Seat.dropBusy (Seat.dropDefer (b.seat l))).cnt.io = 0 ∧ _
      rw [show (Take.act .defer (b.seat l)).cnt = {} from hn, hn]
      exact ⟨rfl, rfl, rfl, rfl⟩
  obtain ⟨hs₁, hn⟩ := htaken
  have hc₁ : (σ₁ l).lt.state .cancelled = true := by
    rw [h1.self]
    rcases hq with rfl | rfl <;> exact hc
  have hf₁ : (σ₁ l).lt.freed = false := by
    rw [h1.self]
    rcases hq with rfl | rfl <;> exact hf
  have hend := h2.ending
  have hc₂ : (σ₂ l).lt.state .cancelled = true := (hend.bits _ (by simp) (by simp) (by simp)).trans hc₁
  have hs₂ := hs₁.wakesJoiner (Or.inr hc₁) hf₁ h2
  obtain ⟨σ₃, hfree, hbusy⟩ := hm.split
  have hs₃ := hs₂.freeDetached (Or.inr hc₂) hfree
  by_cases hb : (σ₃ l).lt.state .busy = true
  · have hbusy' : ActsAt σ₃ σ l Seat.dropBusy := hbusy.congr (if_pos hb)
    have h₃ : (σ₃ l).cnt = (σ₂ l).cnt ∧ (σ₃ l).lt.state = (σ₂ l).lt.state := by
      rw [hfree.self, Seat.freeDetached]
      split_ifs <;> exact ⟨rfl, rfl⟩
    obtain ⟨hio, hcomp, htk, hd⟩ := hend.workers
    refine hs₃.recount hbusy' (Seat.ok_dropBusy (hs₃.seats l) ?_ ?_ ?_ ?_ ?_) (fun _ _ => rfl)
      ⟨rfl, rfl, rfl, rfl⟩ rfl id
    · rw [h₃.2]; exact hc₂
    · rw [h₃.1, hio]; exact hn.1
    · rw [h₃.1, hcomp]; exact hn.2.1
    · rw [h₃.1, htk]; exact hn.2.2.1
    · rw [h₃.1, hd]; exact hn.2.2.2
  · rwa [hbusy.eq_of_fixed (if_neg hb)]

theorem finished {σ₁ σ : LtId → Seat} {l : LtId} (h : b.Seated k) (hcpu : b.cpu = .back l)
    (hf : (b.seat l).lt.freed = false) (hx : (b.seat l).lt.state .exited = true)
    (h1 : WakesJoiner b.seat σ₁ l) (hm : ActsAt σ₁ σ l Seat.freeDetached) :
    Lthr.Seated k σ .loop b.spawned b.expiring := by
  have hctx : (b.seat l).lt.ctx = .exited := (h.seats l).exited.mp hx
  have hctx₁ : (σ₁ l).lt.ctx = .exited := h1.ending.ctx.trans hctx
  have hs₁ := Lthr.Seated.wakesJoiner h (Or.inl hctx) hf h1
  have hs := hs₁.freeDetached (Or.inl hctx₁) hm
  have hctx' : (σ l).lt.ctx = .exited := by
    rw [hm.self, Seat.freeDetached]
    split_ifs <;> exact hctx₁
  refine hs.back (l := l) (Or.inr ⟨hcpu, ?_⟩) (Or.inr hctx')
  rw [Bool.eq_false_iff, ne_eq, (hs.seats l).pending, hctx']
  simp

theorem seated (hR : R.Cancel k) (ht : Turn R b b') (h : b.Seated k) : b'.Seated k := by
  unfold Board.Seated at h ⊢
  cases ht with
  | note hf hm => exact h.note hf hm
  | detach hr hm =>
    refine h.same hm ⟨fun s hs => ?_, rfl, rfl, rfl⟩ (fun _ h1 h2 => ⟨h1, h2⟩) Or.inl fun he => ?_
    · have hne : s ≠ .detach := by rintro rfl; cases hs
      simp [Lt.setBit, hne]
    · simpa [Lt.setBit] using he
  | create hm => exact h.create hm
  | signal hb hm => exact h.signal hb hm
  | close hr hw hkey hm => exact h.close hw hm
  | wakeup hx hs hm => exact h.wakeup hx hs hm
  | enter e hcpu hv hr hm => exact (hcpu ▸ h).enter e hv hm
  | join hr hcpu hlt hf hx h1 hm => exact (hcpu ▸ h).join hlt h1 hm
  | @joinExited σ₁ σ l target ptr hr hcpu hf hx h1 hm =>
    have hl : l ≠ target := by
      rintro rfl
      obtain ⟨hr, -⟩ := (hcpu ▸ h).current
      rw [hr.bits _ rfl] at hx; cases hx
    have hs : Seated k σ₁ b.cpu b.spawned b.expiring := h.same h1 ⟨fun _ _ => rfl, rfl, rfl, rfl⟩
      (fun _ h1 h2 => ⟨h1, h2⟩) Or.inl id
    refine hs.same hm ⟨fun _ _ => rfl, rfl, rfl, rfl⟩ (fun j _ h2 => by cases h2) (fun _ => Or.inr ?_) id
    rw [h1.other hl.symm]
    exact Or.inl ((h.seats target).exited.mp hx)
  | @cancel σ₁ σ l d w hr hl hf hrun hc hins h1 hm =>
    have hk := hR b l hr
    rcases h1 with rfl | ⟨m, hml, hw, -, h1⟩
    · exact h.cancel hk hl hrun hc hins hm
    · have hs := h.stray hk hw h1
      rw [← h1.other (Ne.symm hml)] at hrun hc hins
      exact hs.cancel hk hl hrun hc hins hm
  | resume t hr hcpu hf hc ht he h1 h2 hm => exact (poised h hcpu hc ht he h1).resume h2 hm
  | drop t hcpu hf hc hq ht h1 h2 hm => exact dropped (b := b) h hf hc hq ht h1 h2 hm
  | finish hcpu hf hx h1 hm => exact finished (b := b) h hcpu hf hx h1 hm
  | computeAdd hcpu hp hm => exact (hcpu ▸ h).computeAdd hp hm
  | switch hcpu => exact h.switch hcpu
  | back hcpu he => exact h.back (hcpu.imp id fun hb => ⟨hb.1, hb.2.1⟩) he
  | phase hcpu =>
    rw [hcpu] at h ⊢
    exact h.phase
  | ioDone hw hm =>
    exact h.recount hm (Seat.ok_ioDone (h.seats _) hw) (fun _ _ => rfl) ⟨rfl, rfl, rfl, rfl⟩ rfl id
  | taken hj hp hm =>
    exact h.recount hm (Seat.ok_taken (h.seats _) hj hp) (fun _ _ => rfl) ⟨rfl, rfl, rfl, rfl⟩ rfl id
  | computed hj hm =>
    refine h.recount hm (Seat.ok_computed (h.seats _) hj) (fun b hb => ?_) ⟨rfl, rfl, rfl, rfl⟩ rfl id
    simp [Lt.clearBit, hb]

/-! Where the lthreads stand -/

theorem ctx_cases (ht : Turn R b b') (l : LtId) :
    (b'.seat l).lt.ctx = (b.seat l).lt.ctx ∨
    l = b.spawned ∧ (b'.seat l).lt.ctx = .start ∨
    b.cpu = .run l ∧ (∃ e : Entry, e.Valid b.seat l ∧ (∀ c, e.toCall l = some c → R b c) ∧
      (b'.seat l).lt.ctx = e.ctx) ∨
    b.cpu = .run l ∧ (∃ target t, R b (.join l target) ∧ (b'.seat l).lt.ctx = .joining target t) ∨
    R b (.resume l) ∧ b'.cpu = .run l ∧ (b'.seat l).lt.ctx = .running := by
  have hkeep {σ τ : LtId → Seat} {m : LtId} {F : Seat → Seat} (hm : ActsAt σ τ m F)
      (hF : (F (σ m)).lt.ctx = (σ m).lt.ctx) : (τ l).lt.ctx = (σ l).lt.ctx := hm.keeps (·.lt.ctx) hF l
  have hwake (v : Seat) : (Seat.deschedSleep v).lt.ctx = v.lt.ctx := (Seat.deschedSleep_keeps v).2
  have hfree (v : Seat) : (Seat.freeDetached v).lt.ctx = v.lt.ctx := by
    unfold Seat.freeDetached
    split_ifs <;> rfl
  cases ht with
  | note hf hm => exact Or.inl (hkeep hm (hf _).ctx)
  | detach hr hm => exact Or.inl (hkeep hm rfl)
  | @create σ hm =>
    by_cases hl : l = b.spawned
    · refine Or.inr (Or.inl ⟨hl, ?_⟩)
      change (σ l).lt.ctx = .start
      rw [hl, hm.self]
      rfl
    · exact Or.inl (congrArg (fun v => v.lt.ctx) (hm.other hl))
  | signal hb hm => exact Or.inl (hkeep hm (hwake _))
  | close hr hw hkey hm => exact Or.inl (hkeep hm (hwake _))
  | wakeup hx hs hm => exact Or.inl (hkeep hm (hwake _))
  | @enter σ m e hcpu hv hr hm =>
    by_cases hl : l = m
    · subst hl
      refine Or.inr (Or.inr (Or.inl ⟨hcpu, e, hv, hr, ?_⟩))
      change (σ l).lt.ctx = e.ctx
      rw [hm.self, Entry.act_ctx]
    · exact Or.inl (congrArg (fun v => v.lt.ctx) (hm.other hl))
  | @join σ₁ σ m target ptr n u hr hcpu hlt hf hx h1 hm =>
    by_cases hl : l = m
    · subst hl
      refine Or.inr (Or.inr (Or.inr (Or.inl ⟨hcpu, target, n, hr, ?_⟩)))
      change (σ l).lt.ctx = .joining target n
      rw [hm.self]
      rfl
    · refine Or.inl ?_
      change (σ l).lt.ctx = _
      rw [hm.other hl]
      exact hkeep h1 rfl
  | joinExited hr hcpu hf hx h1 hm => exact Or.inl ((hkeep hm rfl).trans (hkeep h1 rfl))
  | cancel hr hl hf hrun hc hins h1 hm =>
    rcases h1 with rfl | ⟨m, hml, hw, -, h1⟩
    · exact Or.inl (hkeep hm hc.ctx)
    · refine Or.inl ((hkeep hm ?_).trans (hkeep h1 (hwake _)))
      rw [hc.ctx, h1.other (Ne.symm hml)]
  | @resume σ₁ σ₂ σ m t hr hcpu hf hc ht he h1 h2 hm =>
    by_cases hl : l = m
    · subst hl
      refine Or.inr (Or.inr (Or.inr (Or.inr ⟨hr, rfl, ?_⟩)))
      change (σ l).lt.ctx = .running
      rw [hm.self]
      rfl
    · refine Or.inl ?_
      obtain ⟨j, f, h3⟩ := h2.onLt l
      change (σ l).lt.ctx = _
      rw [hm.other hl, h3, h1.other hl]
      rfl
  | @drop σ₁ σ₂ σ m t hcpu hf hc hq ht h1 h2 hm =>
    refine Or.inl ((hkeep hm ?_).trans ((h2.ctx l).trans (hkeep h1 (Seat.take_keeps ht).2)))
    rw [Function.comp_apply, Seat.unbusy]
    split_ifs <;> exact hfree _
  | finish hcpu hf hx h1 hm => exact Or.inl ((hkeep hm (hfree _)).trans (h1.ctx l))
  | computeAdd hcpu hp hm => exact Or.inl (hkeep hm rfl)
  | switch hcpu | back hcpu he | phase hcpu => exact Or.inl rfl
  | ioDone hw hm => exact Or.inl (hkeep hm rfl)
  | taken hj hp hm => exact Or.inl (hkeep hm rfl)
  | computed hj hm => exact Or.inl (hkeep hm rfl)

theorem not_exited {l : LtId} (ht : Turn R b b') (hR : ¬ R b (.exit l)) (hx : (b.seat l).lt.ctx ≠ .exited) :
    (b'.seat l).lt.ctx ≠ .exited := by
  rcases ht.ctx_cases l with h | ⟨-, h⟩ | ⟨-, e, hv, he, h⟩ | ⟨-, target, t, -, h⟩ | ⟨-, -, h⟩
  · rwa [h]
  · simp [h]
  · rw [h]
    cases e with
    | exit => exact absurd (he _ rfl) hR
    | block c i n u => exact hv.block_ne rfl
    | _ => simp [Entry.ctx]
  · simp [h]
  · simp [h]

end Turn

theorem Turns.seated {k : Bool} {R : Rules} {b b' : Board} (hR : R.Cancel k) (ht : Turns R b b')
    (h : b.Seated k) : b'.Seated k := by
  induction ht with
  | refl => exact h
  | tail _ hs ih => exact hs.seated hR ih

theorem Turns.preserves {k : Bool} {R : Rules} {P : Board → Prop} {b b' : Board} (hR : R.Cancel k)
    (hturn : ∀ b b', Turn R b b' → b.Seated k → b'.Seated k → P b → P b') (ht : Turns R b b') (h : b.Seated k)
    (hP : P b) : P b' := by
  induction ht with
  | refl => exact hP
  | tail hs ht ih =>
    have h1 := Turns.seated hR hs h
    exact hturn _ _ ht h1 (ht.seated hR h1) ih

end Lthr

import Lthread.Proofs.HandBack

/-! Who waits for a descriptor: what one step does to the waiting tree, and which steps
write the epoll set. -/

namespace Lthr

open Sched Seat

/-- The place of an lthread in the waiting tree: how often it is there, and its key. -/
def Seat.reg (v : Seat) : ℕ × ℤ := (v.cnt.waiting, v.lt.fdWait)

/-- `l` is in the waiting tree for event `e` of `fd`. -/
def Board.Waits (b : Board) (l : LtId) (fd : Fd) (e : LtEvent) : Prop :=
  (b.seat l).cnt.waiting ≠ 0 ∧ (b.seat l).lt.fdWait = fdKey fd e

theorem Board.Waits.congr {b b' : Board} {l : LtId} {fd : Fd} {e : LtEvent}
    (h : (b'.seat l).reg = (b.seat l).reg) : b'.Waits l fd e ↔ b.Waits l fd e := by
  obtain ⟨h1, h2⟩ := Prod.mk.inj h
  rw [Board.Waits, Board.Waits, h1, h2]

@[simp] theorem Seat.deschedSleep_reg (v : Seat) : (deschedSleep v).reg = v.reg := by
  unfold Seat.deschedSleep Seat.reg
  split_ifs <;> rfl

@[simp] theorem Seat.schedSleep_reg (n u : ℕ) (v : Seat) : (schedSleep n u v).reg = v.reg := by
  unfold Seat.schedSleep Seat.reg
  split_ifs <;> rfl

theorem Seat.freeDetached_reg (v : Seat) : (freeDetached v).reg = v.reg := by
  unfold Seat.freeDetached Seat.reg
  split_ifs <;> rfl

theorem Seat.unbusy_reg (v : Seat) : (unbusy v).reg = v.reg := by
  unfold Seat.unbusy Seat.reg
  split_ifs <;> rfl

theorem WakesJoiner.reg {σ σ' : LtId → Seat} {l : LtId} (h : WakesJoiner σ σ' l) (m : LtId) :
    (σ' m).reg = (σ m).reg := h.keeps Seat.reg deschedSleep_reg (fun _ => rfl) m

namespace Turn

variable {k : Bool} {R : Rules} {b b' : Board}

theorem reg_cases (ht : Turn R b b') (h : b.Seated k) (h' : b'.Seated k) (m : LtId) :
    (b'.seat m).reg = (b.seat m).reg ∨
    (∃ fd e, R b (.wait m fd e) ∧ (b'.seat m).lt.fdWait = fdKey fd e) ∨
    (b'.seat m).cnt.waiting = 0 ∧ ((b.seat m).cnt.waiting = 0 ∨
      (∃ fd e, R b (.close fd) ∧ (b.seat m).lt.fdWait = fdKey fd e) ∨
      (∃ l, R b (.cancel l) ∧ (m = l ∨ (b.seat m).lt.fdWait = (b.seat l).lt.fdWait)) ∨
      R b (.resume m) ∧ b'.cpu = .run m) := by
  have hkeep {σ τ : LtId → Seat} {l : LtId} {F : Seat → Seat} (hm : ActsAt σ τ l F)
      (hF : (F (σ l)).reg = (σ l).reg) : (τ m).reg = (σ m).reg := hm.keeps reg hF m
  have hone {l : LtId} (hw : (b.seat l).cnt.waiting ≠ 0) : (b.seat l).cnt.waiting = 1 := by
    obtain ⟨-, _, _, _, -, hn⟩ := (h.seats l).row.of_waiting hw
    rw [hn]
  cases ht with
  | note hf hm => exact Or.inl (hkeep hm (Prod.ext rfl (hf _).fdWait))
  | detach hr hm => exact Or.inl (hkeep hm rfl)
  | @create σ hm =>
    by_cases hl : m = b.spawned
    · -- nobody waits under a number that has not been given out
      have hw : (b.seat m).cnt.waiting = 0 := by
        by_contra hw
        obtain ⟨-, fd, e, t, hx, -⟩ := (h.seats m).row.of_waiting hw
        rw [(h.links.fresh m hl.ge).1] at hx
        cases hx
      refine Or.inr (Or.inr ⟨?_, Or.inl hw⟩)
      change (σ m).cnt.waiting = 0
      rw [hl] at hw ⊢
      rw [hm.self]
      exact hw
    · exact Or.inl (congrArg reg (hm.other hl))
  | signal hb hm => exact Or.inl (hkeep hm (deschedSleep_reg _))
  | @close σ l fd e hr hw hkey hm =>
    by_cases hl : m = l
    · subst hl
      refine Or.inr (Or.inr ⟨?_, Or.inr (Or.inl ⟨fd, e, hr, hkey⟩)⟩)
      change (σ m).cnt.waiting = 0
      rw [hm.self]
      change (deschedSleep (dropWaiting (b.seat m))).reg.1 = 0
      rw [deschedSleep_reg]
      change (b.seat m).cnt.waiting - 1 = 0
      rw [hone hw]
    · exact Or.inl (congrArg reg (hm.other hl))
  | wakeup hx hs hm => exact Or.inl (hkeep hm (deschedSleep_reg _))
  | @enter σ l en hcpu hv hr hm =>
    by_cases hl : m = l
    · subst hl
      cases en with
      | event fd e n u =>
        refine Or.inr (Or.inl ⟨fd, e, hr _ rfl, ?_⟩)
        change (σ m).lt.fdWait = _
        rw [hm.self]
        change (schedSleep n u (addWaiting (onLt _ (b.seat m)))).reg.2 = _
        rw [schedSleep_reg]
        rfl
      | sleep n u | block c i n u => exact Or.inl (hkeep hm (schedSleep_reg n u _))
      | yield | io e w | compute j | exit => exact Or.inl (hkeep hm rfl)
    · exact Or.inl (congrArg reg (hm.other hl))
  | join hr hcpu hlt hf hx h1 hm =>
    exact Or.inl ((hkeep hm (schedSleep_reg _ _ _)).trans (hkeep h1 rfl))
  | joinExited hr hcpu hf hx h1 hm => exact Or.inl ((hkeep hm rfl).trans (hkeep h1 rfl))
  | @cancel σ₁ σ l d w hr hl hf hrun hc hins h1 hm =>
    by_cases hml : m = l
    · subst hml
      refine Or.inr (Or.inr ⟨?_, Or.inr (Or.inr (Or.inl ⟨m, hr, Or.inl rfl⟩))⟩)
      change (σ m).cnt.waiting = 0
      rw [hm.self, hc.cnt]
    · have hσ : σ m = σ₁ m := hm.other hml
      rcases h1 with rfl | ⟨i, hil, hw, hkey, h1⟩
      · exact Or.inl (congrArg reg hσ)
      · by_cases hmi : m = i
        · subst hmi
          refine Or.inr (Or.inr ⟨?_, Or.inr (Or.inr (Or.inl ⟨l, hr, Or.inr hkey⟩))⟩)
          change (σ m).cnt.waiting = 0
          rw [hσ, h1.self]
          change (deschedSleep (dropWaiting (b.seat m))).reg.1 = 0
          rw [deschedSleep_reg]
          change (b.seat m).cnt.waiting - 1 = 0
          rw [hone hw]
        · exact Or.inl (congrArg reg (hσ.trans (h1.other hmi)))
  | @resume σ₁ σ₂ σ l t hr hcpu hf hc ht he h1 h2 hm =>
    by_cases hl : m = l
    · subst hl
      refine Or.inr (Or.inr ⟨?_, Or.inr (Or.inr (Or.inr ⟨hr, rfl⟩))⟩)
      obtain ⟨hruns, -⟩ := h'.current rfl
      rw [hruns.cnt]
    · refine Or.inl ?_
      obtain ⟨j, f, h3⟩ := h2.onLt m
      change (σ m).reg = _
      rw [hm.other hl, h3, h1.other hl]
      rfl
  | @drop σ₁ σ₂ σ l t hcpu hf hc hq ht h1 h2 hm =>
    have htake : (t.act (b.seat l)).reg = (b.seat l).reg := by
      rcases hq with rfl | rfl <;> rfl
    refine Or.inl ((hkeep hm ?_).trans ((h2.reg m).trans (hkeep h1 htake)))
    rw [Function.comp_apply, unbusy_reg, freeDetached_reg]
  | finish hcpu hf hx h1 hm => exact Or.inl ((hkeep hm (freeDetached_reg _)).trans (h1.reg m))
  | computeAdd hcpu hp hm => exact Or.inl (hkeep hm rfl)
  | switch hcpu | back hcpu he | phase hcpu => exact Or.inl rfl
  | ioDone hw hm => exact Or.inl (hkeep hm rfl)
  | taken hj hp hm => exact Or.inl (hkeep hm rfl)
  | computed hj hm => exact Or.inl (hkeep hm rfl)

theorem waits_old {l : LtId} {fd : Fd} {e : LtEvent} (ht : Turn R b b') (h : b.Seated k) (h' : b'.Seated k)
    (hw : b'.Waits l fd e) : b.Waits l fd e ∨ R b (.wait l fd e) := by
  rcases ht.reg_cases h h' l with hreg | ⟨fd', e', hr, hkey⟩ | ⟨h0, -⟩
  · exact Or.inl ((Board.Waits.congr hreg).mp hw)
  · obtain ⟨rfl, rfl⟩ := fdKey_inj (hw.2.symm.trans hkey)
    exact Or.inr hr
  · exact absurd h0 hw.1

/-- Who waits before a turn goes on waiting, unless one of four things happens. -/
theorem waits_kept {l : LtId} {fd : Fd} {e : LtEvent} (ht : Turn R b b') (h : b.Seated k) (h' : b'.Seated k)
    (hw : b.Waits l fd e) : b'.Waits l fd e ∨ (∃ fd' e', R b (.wait l fd' e')) ∨ R b (.close fd) ∨
      (∃ target, R b (.cancel target) ∧ (l = target ∨ (b.seat target).lt.fdWait = fdKey fd e)) ∨
      R b (.resume l) ∧ b'.cpu = .run l := by
  rcases ht.reg_cases h h' l with hreg | ⟨fd', e', hr, -⟩ | ⟨-, h0 | ⟨fd', e', hr, hkey⟩ | ⟨m, hr, hm⟩ | hr⟩
  · exact Or.inl ((Board.Waits.congr hreg).mpr hw)
  · exact Or.inr (Or.inl ⟨fd', e', hr⟩)
  · exact absurd h0 hw.1
  · obtain ⟨rfl, rfl⟩ := fdKey_inj (hw.2.symm.trans hkey)
    exact Or.inr (Or.inr (Or.inl hr))
  · exact Or.inr (Or.inr (Or.inr (Or.inl ⟨m, hr, hm.imp id fun hm => hm.symm.trans hw.2⟩)))
  · exact Or.inr (Or.inr (Or.inr (Or.inr hr)))

end Turn

namespace World

variable {k : Bool} {x x' : World} {l : LtId} {fd : Fd} {e : LtEvent} {a : Label}

def Waits (x : World) (l : LtId) (fd : Fd) (e : LtEvent) : Prop :=
  l ∈ x.sched.waiting ∧ (x.sched.lt l).fdWait = fdKey fd e

theorem waits_board : x.board.Waits l fd e ↔ x.Waits l fd e := by
  unfold Board.Waits Waits
  rw [← List.count_pos_iff, Nat.pos_iff_ne_zero]
  rfl

theorem Inv.waits_old (h : x.Inv k) (hok : stepOk k x a) (hx : x.step a = .ok x') (hw : x'.Waits l fd e) :
    x.Waits l fd e ∨ x.cpu = .run l ∧ ∃ t, a = .call (.schedEvent fd e t) := by
  rw [← waits_board] at hw ⊢
  revert hw
  refine Turns.preserves (P := fun b => b.Waits l fd e → _) (made_cancel hok) (fun b b' ht hb hb' hP hw => ?_)
    (step_turns h hok hx) h.seated Or.inl
  rcases ht.waits_old hb hb' hw with hold | hr
  · exact hP hold
  · exact Or.inr (made_of_wait hr)

theorem Inv.waits_of_mem (h : x.Inv k) (hl : l ∈ x.sched.waiting) : ∃ fd e, x.Waits l fd e := by
  obtain ⟨fd, e, t, -, hkey⟩ := (h.ok l).key.resolve_left ((h.ok l).waiting (count_ne_zero hl))
  exact ⟨fd, e, hl, hkey⟩

theorem Inv.waits_not_run (h : x.Inv k) (hw : x.Waits l fd e) : x.cpu ≠ .run l := by
  intro hcpu
  have hcnt := (h.seated.current hcpu).1.cnt
  exact (waits_board.mpr hw).1 (by rw [hcnt])

theorem Inv.waits_unique {m : LtId} (h : x.Inv k) (hl : x.Waits l fd e) (hm : x.Waits m fd e) : l = m := by
  rw [← waits_board] at hl hm
  exact h.seated.links.keys l m hl.1 hm.1 (hl.2.trans hm.2.symm)

/-- Who waits before a step goes on waiting, unless the descriptor is closed, it is
cancelled or an lthread with its key is, or the loop resumes it. -/
theorem Inv.waits_kept (h : x.Inv k) (hok : stepOk k x a) (hx : x.step a = .ok x') (hw : x.Waits l fd e) :
    x'.Waits l fd e ∨ a = .call (.close fd) ∨
      (∃ target, a = .call (.cancel target) ∧ (l = target ∨ (x.sched.lt target).fdWait = fdKey fd e)) ∨
      a = .sched ∧ x.cpu = .loop ∧ x'.cpu = .run l := by
  -- the loop makes one turn, every other step keeps the lthread suspended
  by_cases hloop : a = .sched ∧ x.cpu = .loop
  · obtain ⟨rfl, hcpu⟩ := hloop
    have hx' : x.lthreadRun = .ok x' := step_loop hcpu hx
    have ht := lthreadRun_turn (R := made x .sched) h.seated hcpu
      (fun m => ⟨Or.inl rfl, Or.inr ⟨rfl, hcpu, m, rfl⟩⟩) hx'
    rcases ht.waits_kept h.seated (h.step hok hx).seated (waits_board.mpr hw) with
      hk | ⟨_, _, hr⟩ | hr | ⟨_, hr, -⟩ | ⟨-, hr⟩
    · exact Or.inl (waits_board.mp hk)
    · obtain ⟨_, _, ha, -⟩ := made_call hr (by simp); cases ha
    · obtain ⟨_, _, ha, -⟩ := made_call hr (by simp); cases ha
    · obtain ⟨_, _, ha, -⟩ := made_call hr (by simp); cases ha
    · exact Or.inr (Or.inr (Or.inr ⟨rfl, hcpu, hr⟩))
  · rw [← waits_board] at hw ⊢
    refine Turns.preserves (P := fun b => b.Waits l fd e ∨ _) (made_cancel hok) (fun b b' ht hb hb' hP => ?_)
      (step_turns h hok hx) h.seated (Or.inl hw)
    rcases hP with hP | hP
    swap
    · exact Or.inr hP
    rcases ht.waits_kept hb hb' hP with hk | ⟨_, _, hr⟩ | hr | ⟨m, hr, hm⟩ | ⟨hr, -⟩
    · exact Or.inl hk
    · -- it would have to run
      exact absurd (made_of_wait hr).1 (h.waits_not_run (waits_board.mp hw))
    · exact Or.inr (Or.inl (made_of_close hr))
    · obtain ⟨rfl, ha⟩ := made_of_cancel hr
      exact Or.inr (Or.inr (Or.inl ⟨m, ha, hm⟩))
    · exact absurd (made_resume hr) hloop

/-- If its descriptor is spared by closing and cancelling, only the loop ends its wait. -/
theorem Inv.waits_spared (h : x.Inv k) (hok : stepOk k x a) (hx : x.step a = .ok x') (hclose : fd ∉ a.closes)
    (hcancel : ∀ m ∈ a.cancels, 0 ≤ (x.sched.lt m).fdWait → fdOnly (x.sched.lt m).fdWait ≠ fd)
    (hw : x.Waits l fd e) : x'.Waits l fd e ∨ a = .sched ∧ x.cpu = .loop ∧ x'.cpu = .run l := by
  rcases h.waits_kept hok hx hw with hk | rfl | ⟨target, rfl, ht⟩ | hrun
  · exact Or.inl hk
  · exact absurd rfl hclose
  · have hkey : (x.sched.lt target).fdWait = fdKey fd e := by
      rcases ht with rfl | ht
      · exact hw.2
      · exact ht
    have hne := hcancel target rfl
    rw [hkey, fdOnly_fdKey] at hne
    exact absurd rfl (hne (fdKey_nonneg fd e))
  · exact Or.inr hrun

/-! Events -/

/-- `HANDLE_EV` resumes the lthread that waits for the event, if there is one. -/
theorem Inv.handleEv_run {eof : Bool} {next : Bool → Except Fault Phase} (h : x.Inv k)
    (hx : x.handleEv fd e eof next = .ok x') :
    (next false = .ok x'.phase ∧ (∀ m, ¬ x.Waits m fd e) ∧ x'.cpu = x.cpu ∧ x'.sched = x.sched) ∨
    ∃ m, next true = .ok x'.phase ∧ x.Waits m fd e ∧ x'.cpu = .run m := by
  rcases handleEv_cases hx with ⟨ph, hph, hnone, rfl⟩ | ⟨ph, m, s, hph, -, hmem, hkey, hm, -, hx⟩
  · exact Or.inl ⟨hph, fun m hm => hnone m hm.1 hm.2, rfl, rfl⟩
  · refine Or.inr ⟨m, ?_⟩
    have hc : ({ x.onSched (fun _ => if eof then s.setBit m .fdeof else s) with phase := ph } : World).sched.has
        m .cancelled = false := by
      have hlt : s.lt m = woken (x.sched.lt m) := by
        have hself := (hm x.io x.compute).self
        exact (congrArg Seat.lt hself).trans (deschedSleep_lt _)
      have hold : (x.sched.lt m).state .cancelled = false := ((h.row m).of_waiting (count_ne_zero hmem)).1
      have hs : s.has m .cancelled = false := by
        rw [Sched.has, hlt, woken_state _ (by simp) rfl]
        exact hold
      cases eof with
      | false => exact hs
      | true =>
        change (s.setBit m .fdeof).has m .cancelled = false
        rw [setBit_has]
        simpa using hs
    obtain ⟨-, hcases⟩ := lthreadResume_rest hx
    obtain ⟨-, ⟨hc', -⟩ | ⟨-, y, -, rfl⟩⟩ := lthreadResume_cases hx
    · rw [hc] at hc'; cases hc'
    · rcases hcases with ⟨hrun, hp⟩ | ⟨hloop, -⟩
      · exact ⟨by rw [hp]; exact hph, ⟨hmem, hkey⟩, rfl⟩
      · cases hloop

end World
end Lthr

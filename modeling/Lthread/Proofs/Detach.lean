import Lthread.Proofs.Lifetimes

/-! A detached lthread that nobody joins is freed by its own end. The bit that
`lthread_detach2` sets for an lthread that has not run yet is lost when it is first
resumed, as `_lthread_init` assigns the state anew. -/

namespace Lthr

namespace Board

variable {k : Bool} {R : Rules} {b b' : Board} {l : LtId}

structure Alone (l : LtId) (b : Board) : Prop where
  ltJoin : (b.seat l).lt.ltJoin = none
  joining : ∀ j t, (b.seat j).lt.ctx ≠ .joining l t
  fresh : (b.seat l).lt.freed = true → l < b.spawned
  on : ∀ m, b.cpu.on = some m → m < b.spawned
  ioAdd : ∀ m w, b.cpu = .ioAdd m w → ∃ e, (b.seat m).lt.ctx = .ioWait e w

/-- `l` is detached for good; once it has exited, it is freed as soon as its
`_lthread_resume` ends. -/
structure Detached (l : LtId) (b : Board) : Prop where
  spawned : l < b.spawned
  started : (b.seat l).lt.ctx ≠ .start
  detach : (b.seat l).lt.state .detach = true
  exited : (b.seat l).lt.ctx = .exited → ((b.seat l).lt.freed = true ↔ b.cpu ≠ .back l)

theorem Alone.turn (h : b.Alone l) (hb : b.Seated k) (hR : ∀ j, ¬ R b (.join j l)) (ht : Turn R b b') :
    b'.Alone l := by
  refine ⟨?_, fun j t hx => ?_, fun hf => ?_, ht.on_spawned hb h.on, ht.ioAdd hb h.ioAdd⟩
  · rcases ht.ltJoin_cases l with h1 | ⟨-, h1⟩ | ⟨j, -, hr, -⟩ | ⟨h1, -⟩
    · exact h1.trans h.ltJoin
    · exact h1
    · exact absurd hr (hR j)
    · exact h1
  · rcases ht.ctx_cases j with h1 | ⟨-, h1⟩ | ⟨-, e, hv, -, h1⟩ | ⟨-, target, u, hr, h1⟩ | ⟨-, -, h1⟩
    · exact h.joining j t (h1.symm.trans hx)
    · rw [hx] at h1; cases h1
    · exact absurd (h1.symm.trans hx) hv.not_joining
    · obtain ⟨rfl, rfl⟩ := Ctx.joining.inj (hx.symm.trans h1)
      exact hR j hr
    · rw [hx] at h1; cases h1
  · rcases ht.freed_cases l with h1 | ⟨-, h1⟩ | ⟨-, -, h1⟩
    · exact lt_of_lt_of_le (h.fresh (h1 ▸ hf)) ht.spawned_le
    · rw [hf] at h1; cases h1
    · refine lt_of_lt_of_le ?_ ht.spawned_le
      cases h1 with
      | join j hr => exact absurd hr (hR j)
      | joined j t hr hx => exact absurd hx (h.joining j t)
      | ended hcpu hx hd => exact h.on l (by rw [hcpu]; rfl)
      | dropped hcpu hc =>
        by_contra hle
        rw [(hb.links.fresh l (not_lt.mp hle)).2] at hc
        cases hc

theorem Alone.freed_kept (h : b.Alone l) (hR : ∀ j, ¬ R b (.join j l)) (ht : Turn R b b') (hl : l < b.spawned)
    (hcpu : b.cpu ≠ .loop) (hcpu' : b'.cpu ≠ .loop) : (b'.seat l).lt.freed = (b.seat l).lt.freed := by
  rcases ht.freed_cases l with h1 | ⟨rfl, -⟩ | ⟨-, -, h1⟩
  · exact h1
  · exact absurd hl (lt_irrefl _)
  · cases h1 with
    | join j hr => exact absurd hr (hR j)
    | joined j t hr hx => exact absurd hx (h.joining j t)
    | ended _ _ _ hc => exact absurd hc hcpu'
    | dropped hc => exact absurd hc hcpu

theorem freed_stays (ht : Turn R b b') (hl : l < b.spawned) (hf : (b.seat l).lt.freed = true) :
    (b'.seat l).lt.freed = true := by
  rcases ht.freed_cases l with h1 | ⟨rfl, -⟩ | ⟨h1, -⟩
  · exact h1.trans hf
  · exact absurd hl (lt_irrefl _)
  · rw [hf] at h1; cases h1

theorem Detached.turn (h : b.Detached l) (ha : b.Alone l) (hb : b.Seated k) (hb' : b'.Seated k)
    (hR : ∀ j, ¬ R b (.join j l)) (ht : Turn R b b') : b'.Detached l := by
  have ha' := ha.turn hb hR ht
  refine ⟨lt_of_lt_of_le h.spawned ht.spawned_le, ?_, ht.detach_kept hb h.spawned h.started h.detach, fun hx' => ?_⟩
  · rcases ht.ctx_cases l with h1 | ⟨rfl, -⟩ | ⟨-, e, hv, -, h1⟩ | ⟨-, target, t, -, h1⟩ | ⟨-, -, h1⟩
    · rw [h1]; exact h.started
    · exact absurd h.spawned (lt_irrefl _)
    · rw [h1]
      cases e with
      | block c i n u => exact hv.block_ne rfl
      | _ => exact nofun
    · simp [h1]
    · simp [h1]
  · by_cases hx : (b.seat l).lt.ctx = .exited
    · constructor
      · intro hf' hcpu'
        have hcpu := ht.back_of_exited hb ha.ioAdd hx hcpu'
        have hf := ha.freed_kept hR ht h.spawned (by rw [hcpu]; exact nofun) (by rw [hcpu']; exact nofun)
        exact (h.exited hx).mp (hf.symm.trans hf') hcpu
      · intro hcpu'
        by_cases hcpu : b.cpu = .back l
        · exact ht.freed_of_back hb hcpu hcpu' hx h.detach
        · exact freed_stays ht h.spawned ((h.exited hx).mpr hcpu)
    · -- it exits with this turn
      have hcpu : b.cpu = .run l := by
        rcases ht.ctx_cases l with h1 | ⟨rfl, -⟩ | ⟨hc, -⟩ | ⟨hc, -⟩ | ⟨-, -, h1⟩
        · exact absurd (h1.symm.trans hx') hx
        · exact absurd h.spawned (lt_irrefl _)
        · exact hc
        · exact hc
        · rw [hx'] at h1; cases h1
      have hcpu' := ht.exits_back hb' ha'.ioAdd hcpu hx'
      have hf := ha.freed_kept hR ht h.spawned (by rw [hcpu]; exact nofun) (by rw [hcpu']; exact nofun)
      constructor
      · intro hf'
        exact absurd (hb.links.freed l (hf.symm.trans hf')) (hb.current hcpu).2.2.2
      · intro hne
        exact absurd hcpu' hne

end Board

/-- What a run did to one lthread: whether it was detached before it exited, and how
often it was freed. -/
structure DetachLog where
  detached : Bool := false
  frees : ℕ := 0

namespace World

variable {x x' : World} {l : LtId} {a : Label}

/-- `lthread_detach` by `l`, or `lthread_detach2` of `l` by anybody. -/
def detaches (l : LtId) (x : World) : Label → Bool
  | .call .detach => decide (x.cpu = .run l)
  | .call (.detach2 target) => decide (target = l)
  | _ => false

def noteDetach (l : LtId) (x : World) (a : Label) (x' : World) (log : DetachLog) : DetachLog :=
  { detached := log.detached || (x.detaches l a && !x.sched.has l .exited)
    frees := log.frees + if !(x.sched.lt l).freed && (x'.sched.lt l).freed then 1 else 0 }

/-- The runs of the program with what they do to `l`. -/
def detachMachine (l : LtId) : Machine (World × DetachLog) Label := worldMachine.observe {} (noteDetach l)

theorem made_not_join (h : x.detachesStarted l a) (b : Board) (j : LtId) : ¬ made x a b (.join j l) := by
  intro hr
  obtain ⟨-, -, ptr, t, rfl⟩ := made_of_join hr
  exact h.2.1 rfl

theorem alone_reachable (h : worldMachine.Reachable (detachesStarted l) x) : x.board.Alone l := by
  refine board_invariant (k := true) (fun y a hy => hy.1) (fun birth capacity n => ?_) ?_ h
  · exact ⟨rfl, fun _ _ => nofun, nofun, nofun, nofun⟩
  · intro y a b b' hy ht hb _ hP
    exact hP.turn hb (made_not_join hy b) ht

theorem detached_step (hr : worldMachine.Reachable (detachesStarted l) x) (hok : x.detachesStarted l a)
    (hs : x.step a = .ok x') (h : x.board.Detached l) : x'.board.Detached l := by
  have hinv : x.Inv true := Inv.reachable (hr.mono fun _ _ hy => hy.1)
  refine (Turns.preserves (P := fun b => b.Alone l ∧ b.Detached l) (made_cancel hok.1) ?_
    (step_turns hinv hok.1 hs) hinv.seated ⟨alone_reachable hr, h⟩).2
  intro b b' ht hb hb' hP
  exact ⟨hP.1.turn hb (made_not_join hok b) ht, hP.2.turn hP.1 hb hb' (made_not_join hok b) ht⟩

theorem freed_step (hr : worldMachine.Reachable (detachesStarted l) x) (hok : x.detachesStarted l a)
    (hs : x.step a = .ok x') (h : (x.sched.lt l).freed = true) : (x'.sched.lt l).freed = true := by
  have hinv : x.Inv true := Inv.reachable (hr.mono fun _ _ hy => hy.1)
  refine (Turns.preserves (P := fun b => l < b.spawned ∧ (b.seat l).lt.freed = true) (made_cancel hok.1) ?_
    (step_turns hinv hok.1 hs) hinv.seated ⟨(alone_reachable hr).fresh h, h⟩).2
  intro b b' ht _ _ hP
  exact ⟨lt_of_lt_of_le hP.1 ht.spawned_le, Board.freed_stays ht hP.1 hP.2⟩

theorem detached_call (hinv : x.Inv true) (hok : x.detachesStarted l a) (hs : x.step a = .ok x')
    (hd : x.detaches l a = true) (hx : x.sched.has l .exited = false) : x'.board.Detached l := by
  have hset : ∀ (y : World), y = x.onSched (·.setBit l .detach) → l < x.sched.spawned →
      (x.sched.lt l).ctx ≠ .start → y.board.Detached l := by
    rintro y rfl hl hstart
    have hctx : ((x.onSched (·.setBit l .detach)).sched.lt l).ctx = (x.sched.lt l).ctx := by
      simp [onSched, sched, Sched.setBit, Sched.modify, Lt.setBit]
    have hne : (x.sched.lt l).ctx ≠ .exited := by
      intro he
      have hbit : x.sched.has l .exited = true := (hinv.ok l).exited.mpr he
      rw [hx] at hbit
      cases hbit
    refine ⟨hl, fun he => hstart (hctx.symm.trans he), ?_, fun he => absurd (hctx.symm.trans he) hne⟩
    change ((x.onSched (·.setBit l .detach)).sched.lt l).state .detach = true
    simp [onSched, sched, Sched.setBit, Sched.modify, Lt.setBit]
  unfold detaches at hd
  split at hd
  · -- it detaches itself
    have hcpu : x.cpu = .run l := of_decide_eq_true hd
    obtain ⟨m, hm, hs⟩ := step_call hs
    obtain rfl := Cpu.run.inj (hcpu.symm.trans hm)
    obtain ⟨-, hrun, hl, -⟩ := hinv.seated.current hcpu
    exact hset x' (Except.ok.inj hs).symm hl (by simp [show (x.sched.lt l).ctx = .running from hrun])
  · next target =>
    obtain rfl : target = l := of_decide_eq_true hd
    have hstart := hok.2.2 rfl
    obtain ⟨m, -, hs⟩ := step_call hs
    obtain ⟨u, hu, hs⟩ := except_bind_ok hs
    exact hset x' (Except.ok.inj hs).symm (usable_ok hu).1 hstart
  · cases hd

/-- The end of `_lthread_resume` of a detached lthread that has exited frees it. -/
theorem end_frees (hn : x.sched.ready.Nodup) (hcpu : x.cpu = .back l) (hf : (x.sched.lt l).freed = false) (hx : x.sched.has l .exited = true)
    (hj : (x.sched.lt l).ltJoin = none) (hd : x.sched.has l .detach = true) :
    ∃ x', x.step .sched = .ok x' ∧ (x'.sched.lt l).freed = true := by
  have hwake : x.wakeJoiner l = .ok x := by
    unfold wakeJoiner
    rw [hj]
  refine ⟨(x.freeDetached l).resumed l (-1), step_ok.mpr ⟨?_, ?_⟩, ?_⟩
  · unfold World.advance
    simp only [hcpu]
    unfold lthreadResumeEnd
    rw [if_neg (by simp [hf]), if_pos hx, hwake]
    rfl
  · obtain ⟨ph, -, heq⟩ := resumed_eq (x.freeDetached l) l (-1)
    rw [heq]
    unfold freeDetached
    split_ifs <;> exact hn
  · have hfree : ((x.freeDetached l).sched.lt l).freed = true := by
      unfold freeDetached
      rw [if_pos hd]
      simp [onSched, sched, Sched.lthreadFree, Sched.modify]
    unfold resumed
    split
    · rw [if_neg (by simp)]
      exact hfree
    · exact hfree
    · exact hfree

/-- Once the detached lthread has exited its bit is still set, and the scheduler frees it
when its `_lthread_resume` ends, and never again. -/
theorem detached_freed_once {p : World × DetachLog}
    (h : (detachMachine l).Reachable (fun q a => q.1.detachesStarted l a) p) (hd : p.2.detached = true)
    (hx : p.1.sched.has l .exited = true) :
    p.1.sched.has l .detach = true ∧
      (p.1.cpu = .back l ∧ p.2.frees = 0 ∧ (∃ x', p.1.step .sched = .ok x' ∧ (x'.sched.lt l).freed = true) ∨
        p.1.cpu ≠ .back l ∧ p.2.frees = 1 ∧ (p.1.sched.lt l).freed = true) := by
  have hr : worldMachine.Reachable (detachesStarted l) p.1 := Machine.Reachable.of_observe h
  have hinv : p.1.Inv true := Inv.reachable (hr.mono fun _ _ hy => hy.1)
  -- the record agrees with the state
  have hlog : (p.2.detached = true → p.1.board.Detached l) ∧
      p.2.frees = if (p.1.sched.lt l).freed then 1 else 0 := by
    refine Machine.Reachable.invariant_of
      (P := fun q => (q.2.detached = true → q.1.board.Detached l) ∧
        q.2.frees = if (q.1.sched.lt l).freed then 1 else 0) ?_ ?_ h
    · rintro q ⟨⟨birth, capacity, n, hq⟩, hlog⟩
      rw [hlog, hq]
      exact ⟨nofun, rfl⟩
    · rintro q a q' hq ⟨ih, hfrees⟩ hok ⟨hs, hnote⟩
      have hqr : worldMachine.Reachable (detachesStarted l) q.1 := Machine.Reachable.of_observe hq
      rw [hnote]
      constructor
      · intro hdet
        rcases Bool.or_eq_true_iff.mp hdet with hold | hnew
        · exact detached_step hqr hok hs (ih hold)
        · obtain ⟨hcall, hne⟩ := Bool.and_eq_true_iff.mp hnew
          exact detached_call (Inv.reachable (hqr.mono fun _ _ hy => hy.1)) hok hs hcall (by simpa using hne)
      · have hmono := freed_step hqr hok hs
        unfold noteDetach
        rw [hfrees]
        cases hf : (q.1.sched.lt l).freed with
        | true => simp [hmono hf]
        | false => simp
  have hdet := hlog.1 hd
  have hexit := hdet.exited ((hinv.ok l).exited.mp hx)
  refine ⟨hdet.detach, ?_⟩
  by_cases hcpu : p.1.cpu = .back l
  · have hf : (p.1.sched.lt l).freed = false := by
      refine Bool.eq_false_iff.mpr fun hf => ?_
      exact hexit.mp hf hcpu
    refine Or.inl ⟨hcpu, ?_, end_frees (ready_nodup hr) hcpu hf hx (alone_reachable hr).ltJoin hdet.detach⟩
    rw [hlog.2, hf]
    rfl
  · have hf : (p.1.sched.lt l).freed = true := hexit.mpr hcpu
    refine Or.inr ⟨hcpu, ?_, hf⟩
    rw [hlog.2, hf]
    rfl

set_option maxRecDepth 20000 in
/-- Lthread 0 detaches lthread 1, which has not run yet. When lthread 1 has exited it is
not detached, and it is not freed. -/
theorem detach_lost : ∃ p, (detachMachine 1).Reachable (fun _ a => a.joins = none) p ∧ p.2.detached = true ∧
    p.1.sched.has 1 .exited = true ∧ p.1.cpu = .loop ∧ p.1.sched.has 1 .detach = false ∧ p.2.frees = 0 := by
  obtain ⟨p, hp, hsee⟩ := exists_noted (fun _ a => a.joins = none)
    [.main, .main, .run, .sched, .sched, .sched, .call (.detach2 1), .call .finish, .sched, .sched, .call .finish, .sched]
    {} (noteDetach 1)
    (fun p => decide (p.2.detached = true ∧ p.1.sched.has 1 .exited = true ∧ p.1.cpu = .loop ∧
      p.1.sched.has 1 .detach = false ∧ p.2.frees = 0)) (t := true) (by decide)
  exact ⟨p, hp, of_decide_eq_true hsee⟩

set_option maxRecDepth 20000 in
/-- Lthread 0 detaches lthread 1 when that has yielded; it is freed by its exit. -/
theorem detached_freed_once_yielded : ∃ p,
    (detachMachine 1).Reachable (fun q a => q.1.detachesStarted 1 a) p ∧
      p.1.cpu ≠ .back 1 ∧ p.2.frees = 1 ∧ (p.1.sched.lt 1).freed = true := by
  obtain ⟨p, hp, hsee⟩ := exists_noted (fun x a => x.detachesStarted 1 a)
    [.main, .main, .run, .sched, .sched, .sched, .call (.sleep 0), .sched, .sched, .call (.sleep 0), .sched,
      .sched, .sched, .sched, .sched, .sched, .call (.detach2 1), .call .finish, .sched, .sched, .call .finish, .sched]
    {} (noteDetach 1)
    (fun p => decide (p.2.detached = true ∧ p.1.sched.has 1 .exited = true ∧ p.1.cpu = .loop)) (t := true)
    (by decide)
  obtain ⟨hd, hx, hcpu⟩ := of_decide_eq_true hsee
  obtain ⟨-, hback | hfreed⟩ := detached_freed_once hp hd hx
  · rw [hcpu] at hback
    cases hback.1
  · exact ⟨p, hp, hfreed⟩

end World
end Lthr

import Lthread.Proofs.Detach
import Lthread.Proofs.Dropped
import Lthread.Proofs.Waits

/-! Who waits in `lthread_join`, and for whom. As long as its target has not finished the
joiner is on record there, and the end of the target puts it on the ready queue. A join
that is called once its target has been dropped finds the bit of an exited lthread not
set, and nobody is left to wake it. -/

namespace Lthr

open Seat

theorem WakesJoiner.seen {σ σ' : LtId → Seat} {l j : LtId} (h : WakesJoiner σ σ' l) (hj : j ≠ l) :
    (σ l).lt.ltJoin = some j ∧ σ' j = addReady (deschedSleep (σ j)) ∨
      (σ l).lt.ltJoin ≠ some j ∧ σ' j = σ j := by
  unfold WakesJoiner at h
  cases hl : (σ l).lt.ltJoin with
  | none =>
    rw [hl] at h
    exact Or.inr ⟨nofun, congrFun h j⟩
  | some i =>
    rw [hl] at h
    obtain ⟨σ₁, h1, h2⟩ := h
    rw [h2.other hj]
    by_cases hi : j = i
    · subst hi
      exact Or.inl ⟨rfl, h1.self⟩
    · exact Or.inr ⟨fun he => hi (Option.some_inj.mp he).symm, h1.other hi⟩

namespace Turn

variable {k : Bool} {R : Rules} {b b' : Board} {l j : LtId} {t : ℕ}

/-- The joiner of an lthread that exits is woken by the end of its `_lthread_resume`. -/
theorem finish_wakes (ht : Turn R b b') (h : b.Seated k) (hcpu : b.cpu = .back l) (hcpu' : b'.cpu ≠ .back l)
    (hx : (b.seat l).lt.ctx = .exited) (hj : (b.seat l).lt.ltJoin = some j) (hne : j ≠ l) :
    (b'.seat j).cnt.ready ≠ 0 := by
  obtain ⟨σ, hw, hm⟩ := ht.finish_of_back h hcpu hcpu' hx
  rw [hm.other hne]
  rcases hw.seen hne with ⟨-, h2⟩ | ⟨h2, -⟩
  · rw [h2]
    exact Nat.succ_ne_zero _
  · exact absurd hj h2

/-- An lthread that is dropped has been cancelled, and its joiner is woken. -/
theorem drop_cases (ht : Turn R b b') (hd : b.dropped l = false) (hd' : b'.dropped l = true) :
    (b.seat l).lt.state .cancelled = true ∧
      ∀ j ≠ l, (b.seat l).lt.ltJoin = some j → (b'.seat j).cnt.ready ≠ 0 := by
  cases ht with
  | @drop σ₁ σ₂ σ m t hcpu hf hc hq ht h1 h2 hm =>
    by_cases hl : l = m
    · subst hl
      refine ⟨hc, fun j hne hj => ?_⟩
      have hj₁ : (σ₁ l).lt.ltJoin = some j := by
        rw [h1.self, (take_keeps ht).1.ltJoin]
        exact hj
      change (σ j).cnt.ready ≠ 0
      rw [hm.other hne]
      rcases h2.seen hne with ⟨-, h3⟩ | ⟨h3, -⟩
      · rw [h3]
        exact Nat.succ_ne_zero _
      · exact absurd hj₁ h3
    · change Function.update b.dropped m true l = true at hd'
      rw [Function.update_of_ne hl, hd] at hd'
      cases hd'
  | _ =>
    rw [show b.dropped l = true from hd'] at hd
    cases hd

theorem dropped_stays (ht : Turn R b b') (hd : b.dropped l = true) : b'.dropped l = true := by
  cases ht with
  | @drop σ₁ σ₂ σ m t hcpu hf hc hq ht h1 h2 hm =>
    by_cases hl : l = m
    · subst hl
      exact Function.update_self ..
    · exact (Function.update_of_ne hl ..).trans hd
  | _ => exact hd

def Ends (b b' : Board) (l : LtId) : Prop :=
  b.cpu = .back l ∧ (b.seat l).lt.ctx = .exited ∧ b'.cpu = .loop ∨ b'.dropped l = true

/-- What a turn does to a suspended lthread that stays in its call, and how it comes to the
ready queue. -/
inductive Stays (R : Rules) (b b' : Board) (j : LtId) : Prop
  | same (hc : (b'.seat j).lt.state .cancelled = (b.seat j).lt.state .cancelled)
      (hr : (b'.seat j).cnt.ready = (b.seat j).cnt.ready)
  | woken {l : LtId} {t : ℕ} (hx : (b.seat j).lt.ctx = .joining l t)
      (hc : (b'.seat j).lt.state .cancelled = (b.seat j).lt.state .cancelled)
      (hr : (b'.seat j).cnt.ready ≠ 0) (hend : Ends b b' l)
  | signalled {i : CondId} (hb : (b.seat j).cnt.blocked i ≠ 0)
  | closed {fd : Fd} {e : LtEvent} (hr : R b (.close fd)) (hw : b.Waits j fd e)
  | awoken {t : ℕ} (hx : (b.seat j).lt.ctx = .slept t)
  | cancelled (hc : (b'.seat j).lt.state .cancelled = true) (hr : R b (.cancel j))
  | dropped (hc : (b'.seat j).lt.state .cancelled = true) (hd : b'.dropped j = true)

theorem suspended_cases (ht : Turn R b b') (h : b.Seated k) (hx' : (b'.seat j).lt.ctx = (b.seat j).lt.ctx)
    (hne : (b.seat j).lt.ctx ≠ .running) (hnx : (b.seat j).lt.ctx ≠ .exited) : Stays R b b' j := by
  have hsame {v : Seat} (hv : b'.seat j = v) (hr : v.cnt.ready = (b.seat j).cnt.ready)
      (hc : v.lt.state .cancelled = (b.seat j).lt.state .cancelled) : Stays R b b' j := by
    rw [← hv] at hr hc
    exact .same hc hr
  have hother {σ : LtId → Seat} {m : LtId} {F : Seat → Seat} (hσ : b'.seat = σ) (hm : ActsAt b.seat σ m F)
      (hne : j ≠ m) := hsame ((congrFun hσ j).trans (hm.other hne)) rfl rfl
  have hkeep {σ : LtId → Seat} {m : LtId} {F : Seat → Seat} (hσ : b'.seat = σ) (hm : ActsAt b.seat σ m F)
      (hr : ∀ v, (F v).cnt.ready = v.cnt.ready) (hc : ∀ v, (F v).lt.state .cancelled = v.lt.state .cancelled) := by
    by_cases hjm : j = m
    · subst hjm
      exact hsame ((congrFun hσ j).trans hm.self) (hr _) (hc _)
    · exact hother hσ hm hjm
  have hrun {m : LtId} (hcpu : b.cpu = .run m) : j ≠ m := by
    rintro rfl
    exact hne (h.current hcpu).2.1
  -- the joiner of `m` is woken
  have hwake {σ₁ σ₂ : LtId → Seat} {m : LtId} (hjm : j ≠ m) (hσ₁ : σ₁ j = b.seat j)
      (hj₁ : (σ₁ m).lt.ltJoin = (b.seat m).lt.ltJoin) (hf : (b.seat m).lt.freed = false) (hw : WakesJoiner σ₁ σ₂ m)
      (hσ : b'.seat j = σ₂ j) (hend : Ends b b' m) : Stays R b b' j := by
    rcases hw.seen hjm with ⟨hj, h2⟩ | ⟨-, h2⟩
    · rw [hj₁] at hj
      obtain ⟨⟨u, hu⟩, -⟩ := h.links.join m j hj hf
      refine .woken hu ?_ ?_ hend
      · rw [hσ, h2, addReady_lt, deschedSleep_lt, hσ₁, woken_state _ (by simp) rfl]
      · rw [hσ, h2]
        exact Nat.succ_ne_zero _
    · exact hsame (hσ.trans (h2.trans hσ₁)) rfl rfl
  cases ht with
  | note hf hm => exact hkeep rfl hm (fun _ => rfl) fun v => (hf v.lt).state _ rfl
  | detach hr hm => exact hkeep rfl hm (fun _ => rfl) fun v => by simp [Lt.setBit]
  | create hm =>
    refine hother rfl hm ?_
    rintro rfl
    exact hnx (h.links.fresh _ le_rfl).1
  | @signal σ m i hb hm =>
    by_cases hjm : j = m
    · subst hjm
      exact .signalled hb
    · exact hother rfl hm hjm
  | @close σ m fd e hr hw hkey hm =>
    by_cases hjm : j = m
    · subst hjm
      exact .closed hr ⟨hw, hkey⟩
    · exact hother rfl hm hjm
  | @wakeup σ m t hu hs hm =>
    by_cases hjm : j = m
    · subst hjm
      exact .awoken hu
    · exact hother rfl hm hjm
  | enter e hcpu hv hr hm => exact hother rfl hm (hrun hcpu)
  | @join σ₁ σ m target ptr n u hr hcpu hlt hf hex h1 hm =>
    have hj : σ j = σ₁ j := hm.other (hrun hcpu)
    by_cases hjt : j = target
    · subst hjt
      exact hsame (hj.trans h1.self) rfl rfl
    · exact hsame (hj.trans (h1.other hjt)) rfl rfl
  | @joinExited σ₁ σ m target ptr hr hcpu hf hex h1 hm =>
    have hj : σ₁ j = b.seat j := h1.other (hrun hcpu)
    by_cases hjt : j = target
    · subst hjt
      exact hsame hm.self (by rw [hj]; rfl) (by rw [hj]; rfl)
    · exact hsame ((hm.other hjt).trans hj) rfl rfl
  | @cancel σ₁ σ m d w hr hl hf hrun' hc hins h1 hm =>
    by_cases hjm : j = m
    · subst hjm
      refine .cancelled ?_ hr
      change (σ j).lt.state .cancelled = true
      rw [hm.self]
      exact hc.cancelled
    · have hj : σ j = σ₁ j := hm.other hjm
      rcases h1 with rfl | ⟨i, him, hw, -, h1⟩
      · exact hsame hj rfl rfl
      · by_cases hji : j = i
        · -- its registration is taken, and nobody puts it on a queue
          subst hji
          refine hsame (hj.trans h1.self) ?_ ?_
          · rw [Function.comp_apply, deschedSleep]
            split_ifs <;> rfl
          · rw [Function.comp_apply, deschedSleep_lt, woken_state _ (by simp) rfl]
            rfl
        · exact hsame (hj.trans (h1.other hji)) rfl rfl
  | @resume σ₁ σ₂ σ m tk hr hcpu hf hc htk he h1 h2 hm =>
    have hjm : j ≠ m := by
      rintro rfl
      have hrun' : (σ j).lt.ctx = (b.seat j).lt.ctx := hx'
      rw [hm.self] at hrun'
      exact hne hrun'.symm
    obtain ⟨i, f, h3⟩ := h2.onLt j
    refine hsame ((hm.other hjm).trans h3) ?_ ?_
    · rw [h1.other hjm]; rfl
    · rw [h1.other hjm]; rfl
  | @drop σ₁ σ₂ σ m tk hcpu hf hc hq htk h1 h2 hm =>
    have hlt : (σ₁ m).lt = (b.seat m).lt := by
      rw [h1.self]
      rcases hq with rfl | rfl <;> rfl
    by_cases hjm : j = m
    · subst hjm
      refine .dropped ?_ (Function.update_self ..)
      have hlast : (σ j).lt.state .cancelled = (σ₂ j).lt.state .cancelled := by
        rw [hm.self, Function.comp_apply, unbusy_lt, freeDetached]
        split_ifs <;> rfl
      change (σ j).lt.state .cancelled = true
      rw [hlast, h2.ending.bits _ (by simp) (by simp) (by simp), hlt]
      exact hc
    · exact hwake hjm (h1.other hjm) (congrArg Lt.ltJoin hlt) hf h2 (hm.other hjm) (Or.inr (Function.update_self ..))
  | @finish σ₁ σ m hcpu hf hex h1 hm =>
    have hxm : (b.seat m).lt.ctx = .exited := (h.seats m).exited.mp hex
    have hjm : j ≠ m := by
      rintro rfl
      exact hnx hxm
    exact hwake hjm rfl rfl hf h1 (hm.other hjm) (Or.inl ⟨hcpu, hxm, rfl⟩)
  | computeAdd hcpu hp hm => exact hkeep rfl hm (fun _ => rfl) fun v => by simp [Lt.setBit, Lt.clearBit]
  | switch hcpu | back hcpu he | phase hcpu => exact hsame rfl rfl rfl
  | ioDone hw hm => exact hkeep rfl hm (fun _ => rfl) fun _ => rfl
  | taken hj hp hm => exact hkeep rfl hm (fun _ => rfl) fun _ => rfl
  | computed hj hm => exact hkeep rfl hm (fun _ => rfl) fun v => by simp [Lt.clearBit]

/-- A joiner comes to the ready queue by the end of its target only, unless it is cancelled. -/
theorem joiner_cases (ht : Turn R b b') (h : b.Seated k) (hx : (b.seat j).lt.ctx = .joining l t)
    (hx' : (b'.seat j).lt.ctx = .joining l t) :
    ((b'.seat j).lt.state .cancelled = (b.seat j).lt.state .cancelled ∧
      ((b'.seat j).cnt.ready = (b.seat j).cnt.ready ∨ (b'.seat j).cnt.ready ≠ 0 ∧ Ends b b' l)) ∨
    (b'.seat j).lt.state .cancelled = true ∧ (R b (.cancel j) ∨ b'.dropped j = true) := by
  cases ht.suspended_cases h (hx'.trans hx.symm) (by simp [hx]) (by simp [hx]) with
  | same hc hr => exact Or.inl ⟨hc, Or.inl hr⟩
  | woken hu hc hr hend =>
    obtain ⟨rfl, -⟩ := Ctx.joining.inj (hx.symm.trans hu)
    exact Or.inl ⟨hc, Or.inr ⟨hr, hend⟩⟩
  | signalled hb =>
    obtain ⟨u, hu, -⟩ := (h.seats j).row.of_blocked hb
    rw [hx] at hu; cases hu
  | closed hr hw =>
    obtain ⟨-, fd, e, u, hu, -⟩ := (h.seats j).row.of_waiting hw.1
    rw [hx] at hu; cases hu
  | awoken hu => rw [hx] at hu; cases hu
  | cancelled hc hr => exact Or.inr ⟨hc, Or.inl hr⟩
  | dropped hc hd => exact Or.inr ⟨hc, Or.inr hd⟩

theorem joiner_plain (ht : Turn R b b') (h : b.Seated k) (hx : (b.seat j).lt.ctx = .joining l t)
    (hx' : (b'.seat j).lt.ctx = .joining l t) (hc' : (b'.seat j).lt.state .cancelled = false) :
    (b.seat j).lt.state .cancelled = false ∧
      ((b'.seat j).cnt.ready = (b.seat j).cnt.ready ∨ (b'.seat j).cnt.ready ≠ 0 ∧ Ends b b' l) := by
  rcases ht.joiner_cases h hx hx' with ⟨hc, hr⟩ | ⟨hc, -⟩
  · exact ⟨hc.symm.trans hc', hr⟩
  · rw [hc'] at hc; cases hc

theorem run_cases (ht : Turn R b b') (hcpu' : b'.cpu = .run l) :
    b.cpu = .run l ∨ b.cpu = .loop ∧ (b.seat l).lt.state .cancelled = false ∧ ∃ t : Take, t.Finds (b.seat l) := by
  cases ht with
  | resume t hr hcpu hf hc ht he h1 h2 hm =>
    obtain rfl := Cpu.run.inj hcpu'
    exact Or.inr ⟨hcpu, hc, t, ht⟩
  | enter e hcpu hv hr hm => cases e <;> cases hcpu'
  | join | finish | computeAdd | switch | back => cases hcpu'
  | _ => exact Or.inl hcpu'

theorem exited_stays (ht : Turn R b b') (h : b.Seated k) (hl : l < b.spawned) (hx : (b.seat l).lt.ctx = .exited) :
    (b'.seat l).lt.ctx = .exited := by
  have hrun : b.cpu ≠ .run l := by
    intro hcpu
    rw [(h.current hcpu).2.1] at hx; cases hx
  rcases ht.ctx_cases l with h1 | ⟨rfl, -⟩ | ⟨hcpu, -⟩ | ⟨hcpu, -⟩ | ⟨-, hcpu', -⟩
  · exact h1.trans hx
  · exact absurd hl (lt_irrefl _)
  · exact absurd hcpu hrun
  · exact absurd hcpu hrun
  · rcases ht.run_cases hcpu' with hcpu | ⟨-, hc, t, htk⟩
    · exact absurd hcpu hrun
    · exact absurd ((take_keeps htk).2.trans hx) (Leaves.of_take (h.seats l) hc htk).suspended.2

structure Enters (R : Rules) (b b' : Board) (j l : LtId) : Prop where
  allowed : R b (.join j l)
  exited : (b.seat l).lt.ctx ≠ .exited
  ltJoin : (b'.seat l).lt.ltJoin = some j
  freed : (b'.seat l).lt.freed = false
  ready : (b'.seat j).cnt.ready = 0
  cancelled : (b'.seat j).lt.state .cancelled = false
  dropped : b'.dropped = b.dropped
  ctx : (b'.seat l).lt.ctx ≠ .exited

theorem join_cases (ht : Turn R b b') (h : b.Seated k) (h' : b'.Seated k) (hcpu : b.cpu = .run j)
    (hx' : (b'.seat j).lt.ctx = .joining l t) : Enters R b b' j l := by
  cases ht with
  | @join σ₁ σ m target ptr n u hr hc hlt hf hex h1 hm =>
    obtain rfl := Cpu.run.inj (hcpu.symm.trans hc)
    have hctx : (σ j).lt.ctx = .joining target n := by
      rw [hm.self]
      rfl
    obtain ⟨rfl, rfl⟩ := Ctx.joining.inj (hctx.symm.trans hx')
    have hexit : (b.seat target).lt.ctx ≠ .exited := by
      intro he
      rw [(h.seats target).exited.mpr he] at hex; cases hex
    -- the target may be the joiner itself
    have hkeep (v : Seat) : (joinAct target ptr n u v).lt.ltJoin = v.lt.ltJoin ∧
        (joinAct target ptr n u v).lt.freed = v.lt.freed ∧ (joinAct target ptr n u v).cnt.ready = v.cnt.ready := by
      unfold joinAct schedSleep
      split_ifs <;> exact ⟨rfl, rfl, rfl⟩
    have htarget : (σ target).lt.ltJoin = some j ∧ (σ target).lt.freed = false ∧ (σ target).lt.ctx ≠ .exited := by
      by_cases hjt : target = j
      · subst hjt
        rw [hctx, hm.self, (hkeep _).1, (hkeep _).2.1, h1.self]
        exact ⟨rfl, hf, nofun⟩
      · rw [hm.other hjt, h1.self]
        exact ⟨rfl, hf, hexit⟩
    have hready : (σ j).cnt.ready = 0 := by
      have hcnt : (σ₁ j).cnt = (b.seat j).cnt :=
        h1.keeps (·.cnt) rfl j
      rw [hm.self, (hkeep _).2.2, hcnt, (h.current hcpu).1.cnt]
    have hcanc : (σ j).lt.state .cancelled = false := by
      have hc₁ : (σ₁ j).lt.state .cancelled = (b.seat j).lt.state .cancelled :=
        h1.keeps (·.lt.state .cancelled) rfl j
      rw [hm.self, joinAct_cancelled, hc₁]
      exact (h.current hcpu).1.bits _ rfl
    exact ⟨hr, hexit, htarget.1, htarget.2.1, hready, hcanc, rfl, htarget.2.2⟩
  | @enter σ m e hc hv hr hm =>
    obtain rfl := Cpu.run.inj (hcpu.symm.trans hc)
    have hctx : (σ j).lt.ctx = e.ctx := by rw [hm.self, e.act_ctx]
    exact absurd (hctx.symm.trans hx') hv.not_joining
  | resume t hr hc hf hcan ht he h1 h2 hm => rw [hcpu] at hc; cases hc
  | finish hc hf hx h1 hm => rw [hcpu] at hc; cases hc
  | computeAdd hc hp hm => rw [hcpu] at hc; cases hc
  | switch hc =>
    rw [hcpu] at hc
    rcases hc with hc | ⟨w, hc⟩ <;> cases hc
  | back hc he =>
    rw [hcpu] at hc
    rcases hc with hc | ⟨hc, -⟩ <;> cases hc
  | _ =>
    have hrun := (h'.running j).mpr hcpu
    rw [hx'] at hrun; cases hrun

theorem joined_ready (ht : Turn R b b') (h : b.Seated k) (hcpu : b.cpu = .loop) (hcpu' : b'.cpu = .run j)
    (hx : (b.seat j).lt.ctx = .joining l t) (hf : (b.seat l).lt.freed = false) (hf' : (b'.seat l).lt.freed = true) :
    (b.seat j).cnt.ready ≠ 0 := by
  cases ht with
  | @resume σ₁ σ₂ σ m tk hr hc hfm hcan htk he h1 h2 hm =>
    obtain rfl := Cpu.run.inj hcpu'
    refine (take_joining (h.seats m) htk hx).resolve_left fun hexp => ?_
    have hctx : (σ₁ m).lt.ctx = .joining l t := by
      rw [h1.self, (take_keeps htk).2]
      exact hx
    have hexp₁ : (σ₁ m).lt.state .expired = true := by
      rw [h1.self]
      exact hexp
    rw [JoinEnds, hctx] at h2
    simp only [if_pos hexp₁] at h2
    have h₁ : (σ₁ l).lt.freed = (b.seat l).lt.freed :=
      h1.keeps (·.lt.freed) (take_keeps htk).1.freed l
    have h₃ : (σ l).lt.freed = (σ₂ l).lt.freed :=
      hm.keeps (·.lt.freed) (switched_keeps _).freed l
    have hend : (σ l).lt.freed = false := by
      rw [h₃, h2.2.self]
      exact h₁.trans hf
    rw [show (σ l).lt.freed = true from hf'] at hend
    cases hend
  | enter e hc hv hr hm => rw [hcpu] at hc; cases hc
  | join hr hc hlt hf hx h1 hm => rw [hcpu] at hc; cases hc
  | finish hc hf hx h1 hm => rw [hcpu] at hc; cases hc
  | computeAdd hc hp hm => rw [hcpu] at hc; cases hc
  | switch hc =>
    rw [hcpu] at hc
    rcases hc with hc | ⟨w, hc⟩ <;> cases hc
  | back hc he => cases hcpu'
  | _ => rw [show b.cpu = .run j from hcpu'] at hcpu; cases hcpu

theorem spawned_cases (ht : Turn R b b') (hl : l < b'.spawned) :
    l < b.spawned ∨ (b'.seat l).lt.freed = false := by
  cases ht with
  | @create σ hm =>
    rcases Nat.lt_succ_iff_lt_or_eq.mp hl with h | rfl
    · exact Or.inl h
    · refine Or.inr ?_
      change (σ b.spawned).lt.freed = false
      rw [hm.self]
      rfl
  | _ => exact Or.inl hl

end Turn

namespace Board

variable {k : Bool} {R : Rules} {b b' : Board} {l j : LtId} {t : ℕ}

/-- `l` has finished: its `_lthread_resume` has ended after its exit, or it has been dropped. -/
def Ended (b : Board) (l : LtId) : Prop :=
  b.dropped l = true ∨ (b.seat l).lt.ctx = .exited ∧ b.cpu ≠ .back l

/-- A join on `l` may be called: it has not been dropped, and nobody waits for it. -/
def Joinable (b : Board) (l : LtId) : Prop :=
  b.dropped l = false ∧ ∀ j t, (b.seat j).lt.ctx = .joining l t → (b.seat j).lt.state .cancelled = true

/-- What ends a join: a joiner is on the ready queue only if its target has finished, and
only an lthread that has finished is freed. -/
structure Woken (b : Board) : Prop where
  woken : ∀ j l t, (b.seat j).lt.ctx = .joining l t → (b.seat j).lt.state .cancelled = false →
    (b.seat j).cnt.ready ≠ 0 → b.Ended l
  freed : ∀ l < b.spawned, (b.seat l).lt.freed = true → b.Ended l
  ioAdd : ∀ m w, b.cpu = .ioAdd m w → ∃ e, (b.seat m).lt.ctx = .ioWait e w

structure Joins (b : Board) : Prop where
  pending : ∀ j l t, (b.seat j).lt.ctx = .joining l t → (b.seat j).lt.state .cancelled = false →
    (b.seat j).cnt.ready = 0 → (b.seat l).lt.ltJoin = some j ∧ (b.seat l).lt.freed = false ∧ ¬ b.Ended l
  woken : ∀ j l t, (b.seat j).lt.ctx = .joining l t → (b.seat j).lt.state .cancelled = false →
    (b.seat j).cnt.ready ≠ 0 → b.Ended l
  ioAdd : ∀ m w, b.cpu = .ioAdd m w → ∃ e, (b.seat m).lt.ctx = .ioWait e w

theorem Ended.stays (he : b.Ended l) (hb : b.Seated k) (ht : Turn R b b') (hl : l < b.spawned)
    (hio : ∀ m w, b.cpu = .ioAdd m w → ∃ e, (b.seat m).lt.ctx = .ioWait e w) : b'.Ended l := by
  rcases he with hd | ⟨hx, hcpu⟩
  · exact Or.inl (ht.dropped_stays hd)
  · refine Or.inr ⟨ht.exited_stays hb hl hx, fun hcpu' => hcpu ?_⟩
    exact ht.back_of_exited hb hio hx hcpu'

/-- An lthread that has exited has finished as soon as the processor has left it. -/
theorem Ended.of_exited (hb : b.Seated k) (ht : Turn R b b') (hl : l < b.spawned)
    (hio : ∀ m w, b.cpu = .ioAdd m w → ∃ e, (b.seat m).lt.ctx = .ioWait e w)
    (hx : (b.seat l).lt.ctx = .exited) (hcpu' : b.cpu ≠ .back l ∨ b'.cpu ≠ .back l) : b'.Ended l := by
  refine Or.inr ⟨ht.exited_stays hb hl hx, fun hback => ?_⟩
  rcases hcpu' with h | h
  · exact h (ht.back_of_exited hb hio hx hback)
  · exact h hback

namespace Woken

theorem turn (h : b.Woken) (hb : b.Seated k) (hb' : b'.Seated k) (ht : Turn R b b') : b'.Woken := by
  refine ⟨fun j l t hx' hc' hr' => ?_, fun l hl' hf' => ?_, ht.ioAdd hb h.ioAdd⟩
  · rcases ht.ctx_cases j with h1 | ⟨-, h1⟩ | ⟨-, e, hv, -, h1⟩ | ⟨hcpu, -⟩ | ⟨-, -, h1⟩
    · have hx := h1.symm.trans hx'
      have hlt := (hb.links.joined j l t hx).1
      obtain ⟨hc, hr | ⟨-, ⟨hcpu, hxl, hcpu'⟩ | hd'⟩⟩ := ht.joiner_plain hb hx hx' hc'
      · exact (h.woken j l t hx hc (hr ▸ hr')).stays hb ht hlt h.ioAdd
      · refine Ended.of_exited hb ht hlt h.ioAdd hxl (Or.inr ?_)
        rw [hcpu']
        exact nofun
      · exact Or.inl hd'
    · rw [hx'] at h1; cases h1
    · exact absurd (h1.symm.trans hx') hv.not_joining
    · exact absurd (ht.join_cases hb hb' hcpu hx').ready hr'
    · rw [hx'] at h1; cases h1
  · have hl : l < b.spawned := by
      refine (ht.spawned_cases hl').resolve_right fun h0 => ?_
      rw [hf'] at h0; cases h0
    rcases ht.freed_cases l with h1 | ⟨-, h1⟩ | ⟨hf, -, hfree⟩
    · exact (h.freed l hl (h1.symm.trans hf')).stays hb ht hl h.ioAdd
    · rw [hf'] at h1; cases h1
    · cases hfree with
      | join j hr hcpu hx =>
        refine Ended.of_exited hb ht hl h.ioAdd ((hb.seats l).exited.mp hx) (Or.inl ?_)
        rw [hcpu]
        exact nofun
      | joined j t hr hx hcpu hcpu' =>
        have hc : (b.seat j).lt.state .cancelled = false := by
          rcases ht.run_cases hcpu' with h0 | ⟨-, hc, -⟩
          · rw [hcpu] at h0; cases h0
          · exact hc
        exact (h.woken j l t hx hc (ht.joined_ready hb hcpu hcpu' hx hf hf')).stays hb ht hl h.ioAdd
      | ended hcpu hx hd hcpu' =>
        refine Ended.of_exited hb ht hl h.ioAdd ((hb.seats l).exited.mp hx) (Or.inr ?_)
        rw [hcpu']
        exact nofun
      | dropped hcpu hc hd hcpu' hd' => exact Or.inl hd'

end Woken

namespace Joins

/-- While a joiner waits, nobody else comes back from a join on its target. -/
theorem no_return (h : b.Joins) (hb : b.Seated k) (hb' : b'.Seated k) (ht : Turn R b b')
    (hj : (b.seat l).lt.ltJoin = some j) (hl : ¬ b.Ended l) (hx' : (b'.seat j).lt.ctx = .joining l t) {i : LtId}
    {u : ℕ} (hi : (b.seat i).lt.ctx = .joining l u) : b'.cpu ≠ .run i := by
  intro hcpu'
  have hc : (b.seat i).lt.state .cancelled = false := by
    rcases ht.run_cases hcpu' with hcpu | ⟨-, hc, -⟩
    · rw [(hb.current hcpu).2.1] at hi; cases hi
    · exact hc
  by_cases hr : (b.seat i).cnt.ready = 0
  · obtain ⟨hi', -, -⟩ := h.pending i l u hi hc hr
    obtain rfl := Option.some_inj.mp (hj.symm.trans hi')
    rw [(hb'.current hcpu').2.1] at hx'; cases hx'
  · exact hl (h.woken i l u hi hc hr)

theorem not_ended (h : b.Joins) (hb : b.Seated k) (hb' : b'.Seated k) (ht : Turn R b b')
    (hx : (b.seat j).lt.ctx = .joining l t) (hc : (b.seat j).lt.state .cancelled = false)
    (hj : (b.seat l).lt.ltJoin = some j) (hl : ¬ b.Ended l) (hr' : (b'.seat j).cnt.ready = 0) : ¬ b'.Ended l := by
  rintro (hd' | ⟨hx', hcpu'⟩)
  · have hd : b.dropped l = false := Bool.eq_false_iff.mpr fun hd => hl (Or.inl hd)
    obtain ⟨hcl, hwake⟩ := ht.drop_cases hd hd'
    refine hwake j ?_ hj hr'
    rintro rfl
    rw [hc] at hcl; cases hcl
  · by_cases hxl : (b.seat l).lt.ctx = .exited
    · have hcpu : b.cpu = .back l := by
        by_contra hne
        exact hl (Or.inr ⟨hxl, hne⟩)
      refine ht.finish_wakes hb hcpu hcpu' hxl hj ?_ hr'
      rintro rfl
      rw [hx] at hxl; cases hxl
    · -- it exits with this turn, and its resume has not ended
      have hcpu : b.cpu = .run l := by
        rcases ht.ctx_cases l with h1 | ⟨rfl, h1⟩ | ⟨hcpu, -⟩ | ⟨hcpu, -⟩ | ⟨-, -, h1⟩
        · exact absurd (h1.symm.trans hx') hxl
        · rw [hx'] at h1; cases h1
        · exact hcpu
        · exact hcpu
        · rw [hx'] at h1; cases h1
      exact hcpu' (ht.exits_back hb' (ht.ioAdd hb h.ioAdd) hcpu hx')

theorem turn (h : b.Joins) (hw : b'.Woken) (hb : b.Seated k) (hb' : b'.Seated k) (hR : ∀ j l, R b (.join j l) → b.Joinable l)
    (ht : Turn R b b') : b'.Joins := by
  refine ⟨fun j l t hx' hc' hr' => ?_, hw.woken, hw.ioAdd⟩
  rcases ht.ctx_cases j with h1 | ⟨-, h1⟩ | ⟨-, e, hv, -, h1⟩ | ⟨hcpu, -⟩ | ⟨-, -, h1⟩
  · -- it stays in its join
    have hx := h1.symm.trans hx'
    obtain ⟨hc, hr | ⟨hr, -⟩⟩ := ht.joiner_plain hb hx hx' hc'
    · obtain ⟨hj, hf, hl⟩ := h.pending j l t hx hc (hr.symm.trans hr')
      have hlt := (hb.links.joined j l t hx).1
      have hl' := h.not_ended hb hb' ht hx hc hj hl hr'
      have hjoin (i : LtId) : ¬ R b (.join i l) := by
        intro hri
        rw [(hR i l hri).2 j t hx] at hc; cases hc
      have hback (hcpu : b.cpu = .back l) (hxl : (b.seat l).lt.state .exited = true) (hcpu' : b'.cpu = .loop) :
          False := by
        refine hl' (Or.inr ⟨ht.exited_stays hb hlt ((hb.seats l).exited.mp hxl), ?_⟩)
        rw [hcpu']
        exact nofun
      refine ⟨?_, ?_, hl'⟩
      · rcases ht.ltJoin_cases l with h2 | ⟨rfl, -⟩ | ⟨i, -, hri, -⟩ |
          ⟨-, ⟨i, u, hi, -, hcpu'⟩ | ⟨hcpu, hxl, hcpu'⟩ | ⟨-, -, -, hd'⟩⟩
        · exact h2.trans hj
        · exact absurd hlt (lt_irrefl _)
        · exact absurd hri (hjoin i)
        · exact absurd hcpu' (h.no_return hb hb' ht hj hl hx' hi)
        · exact (hback hcpu hxl hcpu').elim
        · exact absurd (Or.inl hd') hl'
      · rcases ht.freed_cases l with h2 | ⟨rfl, -⟩ | ⟨-, -, hfree⟩
        · exact h2.trans hf
        · exact absurd hlt (lt_irrefl _)
        · cases hfree with
          | join i hri => exact absurd hri (hjoin i)
          | joined i u hri hi hcpu hcpu' => exact absurd hcpu' (h.no_return hb hb' ht hj hl hx' hi)
          | ended hcpu hxl hd hcpu' => exact (hback hcpu hxl hcpu').elim
          | dropped hcpu hcl hd hcpu' hd' => exact absurd (Or.inl hd') hl'
    · exact absurd hr' hr
  · rw [hx'] at h1; cases h1
  · exact absurd (h1.symm.trans hx') hv.not_joining
  · -- it enters it
    have hent := ht.join_cases hb hb' hcpu hx'
    refine ⟨hent.ltJoin, hent.freed, ?_⟩
    rintro (hd | ⟨hxl, -⟩)
    · rw [hent.dropped, (hR j l hent.allowed).1] at hd; cases hd
    · exact hent.ctx hxl
  · rw [hx'] at h1; cases h1

end Joins
end Board

namespace World

variable {x x' : World} {j l : LtId} {t : ℕ} {a : Label}

/-- `lthread_cancel` puts its target on the ready queue, unless a worker serves it. -/
theorem lthreadCancel_cancels (h : x.Inv true) (hs : x.lthreadCancel j = .ok x') :
    ∃ d, (x.seat j).Cancels d (x'.seat j) ∧ (¬ (x.sched.lt j).ctx.served → d = 1) := by
  unfold lthreadCancel at hs
  obtain ⟨-, -, hs⟩ := except_bind_ok hs
  obtain ⟨x₂, h₂, hs⟩ := except_bind_ok hs
  obtain ⟨τ, w, -, hc, hm⟩ := lthreadCancel_acts h.seated h₂
  have hw : x₂.seat j = w := hm.self
  rw [← hw] at hc
  split_ifs at hs with hbits
  · obtain rfl := Except.ok.inj hs
    refine ⟨0, hc, fun hns => absurd ?_ hns⟩
    -- one of the four bits is set, and says who serves it
    have hok := h.ok j
    have hbit {b : LtSt} (hb : b ≠ .sleeping) (hb' : b ≠ .cancelled) (hf : b.free = false) (hn : ∀ e, b ≠ waitBit e)
        (hset : x₂.sched.has j b = true) : (x.seat j).lt.state b = true :=
      (hc.bits b hb hb' hf hn).symm.trans hset
    have hio (e : LtEvent) (hset : x₂.sched.has j (waitIoBit e) = true) : (x.sched.lt j).ctx.served := by
      obtain ⟨v, hv⟩ := (hok.io e).mp (hbit (by cases e <;> simp [waitIoBit]) (by cases e <;> simp [waitIoBit])
        (by cases e <;> rfl) (fun e' => by cases e <;> cases e' <;> simp [waitIoBit, waitBit]) hset)
      rw [show (x.sched.lt j).ctx = _ from hv]
      trivial
    rcases hbits with hb | hb | hb | hb
    · obtain ⟨i, hi, -⟩ := hok.pending.mp
        (hbit (by simp) (by simp) rfl (fun e => by cases e <;> simp [waitBit]) hb)
      rw [show (x.sched.lt j).ctx = _ from hi]
      trivial
    · exact hio .read hb
    · exact hio .write hb
    · obtain ⟨i, hi, -⟩ := hok.computing.mp
        (hbit (by simp) (by simp) rfl (fun e => by cases e <;> simp [waitBit]) hb)
      rw [show (x.sched.lt j).ctx = _ from hi]
      trivial
  · obtain rfl := Except.ok.inj hs
    refine ⟨1, ?_, fun _ => rfl⟩
    have hr : ActsAt x₂.seat (x₂.onSched (·.readyInsert j)).seat j addReady :=
      Sched.readyInsert_moves x₂.sched j x₂.io x₂.compute
    rw [hr.self]
    exact hc.addReady

theorem lthreadCancel_joiner (h : x.Inv true) (hs : x.lthreadCancel j = .ok x')
    (hx' : (x'.sched.lt j).ctx = .joining l t) : j ∈ x'.sched.ready := by
  obtain ⟨d, hc, hd⟩ := lthreadCancel_cancels h hs
  have hx : (x.sched.lt j).ctx = .joining l t := hc.ctx.symm.trans hx'
  have hr : (x'.seat j).cnt.ready = (x.seat j).cnt.ready + d := congrArg Counts.ready hc.cnt
  rw [hd (by rw [hx]; exact id)] at hr
  exact mem_of_count (hr.trans_ne (Nat.succ_ne_zero _))

theorem cancelled_joiner_step (h : x.Inv true) (hok : stepOk true x a) (hs : x.step a = .ok x')
    (hP : ∀ j l t, (x.sched.lt j).ctx = .joining l t → x.sched.has j .cancelled = true → x.dropped j = false →
      j ∈ x.sched.ready)
    (hx' : (x'.sched.lt j).ctx = .joining l t) (hc' : x'.sched.has j .cancelled = true)
    (hd' : x'.dropped j = false) : j ∈ x'.sched.ready := by
  by_cases hcan : a = .call (.cancel j)
  · subst hcan
    obtain ⟨m, -, hs⟩ := step_call hs
    exact lthreadCancel_joiner h hs hx'
  · refine mem_of_count ?_
    refine Turns.preserves (P := fun b => ∀ l t, (b.seat j).lt.ctx = .joining l t →
      (b.seat j).lt.state .cancelled = true → b.dropped j = false → (b.seat j).cnt.ready ≠ 0)
      (made_cancel hok) ?_ (step_turns h hok hs) h.seated ?_ l t hx' hc' hd'
    · intro b b' ht hb hb' hQ l t hx' hc' hd'
      have hd : b.dropped j = false := Bool.eq_false_iff.mpr fun hd => by
        rw [ht.dropped_stays hd] at hd'; cases hd'
      rcases ht.ctx_cases j with h1 | ⟨-, h1⟩ | ⟨-, e, hv, -, h1⟩ | ⟨hcpu, -⟩ | ⟨-, -, h1⟩
      · rcases ht.joiner_cases hb (h1.symm.trans hx') hx' with ⟨hc, hr | ⟨hr, -⟩⟩ | ⟨-, hr | hd⟩
        · rw [hr]
          exact hQ l t (h1.symm.trans hx') (hc.symm.trans hc') hd
        · exact hr
        · exact absurd (made_of_cancel hr).2 hcan
        · rw [hd'] at hd; cases hd
      · rw [hx'] at h1; cases h1
      · exact absurd (h1.symm.trans hx') hv.not_joining
      · rw [(ht.join_cases hb hb' hcpu hx').cancelled] at hc'; cases hc'
      · rw [hx'] at h1; cases h1
    · intro l t hx hc hd
      exact count_ne_zero (hP j l t hx hc hd)

theorem cancelled_joiner_ready (h : worldMachine.Reachable (stepOk true) x) (hx : (x.sched.lt j).ctx = .joining l t)
    (hc : x.sched.has j .cancelled = true) (hd : x.dropped j = false) : j ∈ x.sched.ready := by
  refine Machine.Reachable.invariant_of (P := fun y : World => ∀ j l t, (y.sched.lt j).ctx = .joining l t →
    y.sched.has j .cancelled = true → y.dropped j = false → j ∈ y.sched.ready) ?_ ?_ h j l t hx hc hd
  · rintro y ⟨birth, capacity, n, rfl⟩ j l t hx
    cases hx
  · intro y a y' hr hP hok hs j l t hx' hc' hd'
    exact cancelled_joiner_step (Inv.reachable hr) hok hs hP hx' hc' hd'

theorem Inv.joiner_busy {k : Bool} (h : x.Inv k) (hx : (x.sched.lt j).ctx = .joining l t)
    (hc : x.sched.has j .cancelled = false) : j ∈ x.sched.busy := by
  have hrow := h.row j
  rw [hc, hx] at hrow
  refine mem_of_count ?_
  rcases hrow.of_joining with hn | hn <;> exact (congrArg Counts.busy hn).trans_ne one_ne_zero

theorem made_joinable (h : x.Inv true) (hok : x.joinsLive a) {b : Board} (hr : made x a b (.join j l)) :
    b.Joinable l := by
  obtain ⟨rfl, -, ptr, n, rfl⟩ := made_of_join hr
  obtain ⟨hd, hbusy⟩ := hok.2 l rfl
  refine ⟨hd, fun i t hx => ?_⟩
  by_contra hc
  have hc : x.sched.has i .cancelled = false := Bool.eq_false_iff.mpr hc
  refine absurd (hbusy i (h.joiner_busy hx hc) ?_) (by rw [hc]; simp)
  rw [show (x.sched.lt i).ctx = .joining l t from hx]
  rfl

theorem woken_reachable (h : worldMachine.Reachable (stepOk true) x) : x.board.Woken := by
  refine board_invariant (k := true) (fun _ _ h => h) (fun birth capacity n => ⟨nofun, nofun, nofun⟩) ?_ h
  intro x a b b' hok ht hb hb' hP
  exact hP.turn hb hb' ht

theorem joins_reachable (h : worldMachine.Reachable joinsLive x) : x.board.Joins := by
  refine Machine.Reachable.invariant_of (P := fun y : World => y.board.Joins) ?_ ?_ h
  · rintro y ⟨birth, capacity, n, rfl⟩
    exact ⟨nofun, nofun, nofun⟩
  · intro y a y' hy hj hok hs
    have hreach := hy.mono fun _ _ h => h.1
    have hinv : y.Inv true := Inv.reachable hreach
    refine (Turns.preserves (P := fun b => b.Woken ∧ b.Joins) (made_cancel hok.1) (fun b b' ht hb hb' hP => ?_)
      (step_turns hinv hok.1 hs) hinv.seated ⟨woken_reachable hreach, hj⟩).2
    have hw := hP.1.turn hb hb' ht
    exact ⟨hw, hP.2.turn hw hb hb' (fun i m hr => made_joinable hinv hok hr) ht⟩

/-- The end of `_lthread_resume` of an lthread that has exited wakes its joiner. -/
theorem end_wakes (hn : x.sched.ready.Nodup) (hr : j ∉ x.sched.ready) (hcpu : x.cpu = .back l)
    (hf : (x.sched.lt l).freed = false) (hx : x.sched.has l .exited = true) (hj : (x.sched.lt l).ltJoin = some j)
    (hfj : (x.sched.lt j).freed = false) : ∃ x', x.step .sched = .ok x' ∧ j ∈ x'.sched.ready := by
  have hwake : x.wakeJoiner l = .ok (x.onSched fun s =>
      ((s.lthreadDeschedSleep j).readyInsert j).modify l ({ · with ltJoin := none })) := by
    unfold wakeJoiner
    simp only [hj]
    rw [if_neg (by simp [hfj])]
  have hready : (x.onSched fun s => ((s.lthreadDeschedSleep j).readyInsert j).modify l
      ({ · with ltJoin := none })).sched.ready = x.sched.ready ++ [j] := by
    simp [onSched, sched, Sched.modify, Sched.readyInsert]
  generalize (x.onSched fun s =>
    ((s.lthreadDeschedSleep j).readyInsert j).modify l ({ · with ltJoin := none })) = y at hwake hready
  have hend : ((y.freeDetached l).resumed l (-1)).sched.ready = x.sched.ready ++ [j] := by
    have hfree : (y.freeDetached l).sched.ready = y.sched.ready := by
      unfold freeDetached
      split_ifs <;> rfl
    have hres : ((y.freeDetached l).resumed l (-1)).sched.ready = (y.freeDetached l).sched.ready := by
      unfold resumed
      split <;> rfl
    rw [hres, hfree, hready]
  refine ⟨(y.freeDetached l).resumed l (-1), step_ok.mpr ⟨?_, ?_⟩, ?_⟩
  · unfold World.advance
    simp only [hcpu]
    unfold lthreadResumeEnd
    rw [if_neg (by simp [hf]), if_pos hx, hwake]
    rfl
  · rw [hend, ← List.concat_eq_append, List.nodup_concat]
    exact ⟨hr, hn⟩
  · rw [hend]
    exact List.mem_append_right _ (List.mem_singleton.mpr rfl)

end World
end Lthr

import Lthread.Proofs.ChanRun
import Lthread.Proofs.CondStep

/-! The channels of the whole program. Whatever else the lthreads and the workers do, the
channels, the lthreads suspended in channel calls and the blocked lists of selectors
change as in a run of channel operations alone, so what holds of those runs holds of
the whole program. -/

namespace Lthr

open Sched

namespace Sys

variable {x x' y : Sys} {l : LtId} {r : Option ℤ}

/-- The same channels, the same lthreads in channel calls, the same blocked lists of selectors. -/
structure Mirrors (x y : Sys) : Prop where
  ch : y.ch = x.ch
  ctx : ∀ l s t, (y.sched.lt l).ctx = .selWait s t ↔ (x.sched.lt l).ctx = .selWait s t
  blocked : ∀ s, y.sched.blocked (.sel s) = x.sched.blocked (.sel s)

namespace Mirrors

theorem withCh (h : Mirrors x y) (ch : Chans) : Mirrors ⟨x.sched, ch⟩ ⟨y.sched, ch⟩ := ⟨rfl, h.ctx, h.blocked⟩

theorem write {a b : Sched} (h : Mirrors x y) {s : SelId} {q : List LtId}
    (ha : a.blocked = Function.update x.sched.blocked (.sel s) q)
    (hb : b.blocked = Function.update y.sched.blocked (.sel s) q) (i : SelId) :
    b.blocked (.sel i) = a.blocked (.sel i) := by
  rw [ha, hb]
  by_cases hi : i = s
  · subst hi; rw [Function.update_self, Function.update_self]
  · rw [Function.update_of_ne (by simpa using hi), Function.update_of_ne (by simpa using hi)]
    exact h.blocked i

theorem signal (h : Mirrors x y) (s : SelId) (ch : Chans) :
    Mirrors ⟨x.sched.lthreadCondSignal (.sel s), ch⟩ ⟨y.sched.lthreadCondSignal (.sel s), ch⟩ := by
  have hb := h.blocked s
  cases hx : x.sched.blocked (.sel s) with
  | nil =>
    rw [hx] at hb
    rw [lthreadCondSignal_nil _ _ hx, lthreadCondSignal_nil _ _ hb]
    exact h.withCh ch
  | cons m rest =>
    rw [hx] at hb
    have hsx := lthreadCondSignal_cons x.sched m (.sel s) hx
    have hsy := lthreadCondSignal_cons y.sched m (.sel s) hb
    refine ⟨rfl, fun l i t => ?_, h.write hsx.blocked hsy.blocked⟩
    simp only [hsx.keeps.ctx, hsy.keeps.ctx]
    exact h.ctx l i t

theorem block (h : Mirrors x y) (l : LtId) (s : SelId) (t : ℕ) (ch : Chans) :
    Mirrors ⟨(x.sched.lthreadCondWait l (.sel s) t).setCtx l (.selWait s t), ch⟩
      ⟨(y.sched.lthreadCondWait l (.sel s) t).setCtx l (.selWait s t), ch⟩ := by
  have hx : ((x.sched.lthreadCondWait l (.sel s) t).setCtx l (.selWait s t)).blocked = _ :=
    lthreadCondWait_blocked x.sched l (.sel s) t
  have hy : ((y.sched.lthreadCondWait l (.sel s) t).setCtx l (.selWait s t)).blocked = _ :=
    lthreadCondWait_blocked y.sched l (.sel s) t
  rw [h.blocked s] at hy
  refine ⟨rfl, fun m i u => ?_, h.write hx hy⟩
  simp only [setCtx, modify_lt]
  split_ifs
  · exact Iff.rfl
  · rw [(lthreadCondWait_keeps x.sched l (.sel s) t).ctx m, (lthreadCondWait_keeps y.sched l (.sel s) t).ctx m]
    exact h.ctx m i u

theorem selInit (h : Mirrors x y) (s : SelId) : Mirrors (x.lthreadSelInit s) (y.lthreadSelInit s) := by
  refine ⟨?_, h.ctx, h.write rfl rfl⟩
  change y.ch.setTarget s (-1) = x.ch.setTarget s (-1)
  rw [h.ch]

theorem chanBlockSelect (h : Mirrors x y) {s : SelId} {t : ℕ} (hx : x.chanBlockSelect l s t = some (x', r)) :
    ∃ y', y.chanBlockSelect l s t = some (y', r) ∧ Mirrors x' y' := by
  unfold Sys.chanBlockSelect at hx ⊢
  rw [h.ch]
  cases hall : x.ch.tryAll s with
  | none => rw [hall] at hx; cases hx
  | some p =>
    obtain ⟨ch, wait⟩ := p
    simp only [hall] at hx ⊢
    split_ifs at hx ⊢ with htarget ht
    · obtain ⟨rfl, rfl⟩ := Prod.mk.inj (Option.some_inj.mp hx)
      refine ⟨_, rfl, ?_⟩
      cases wait with
      | none => exact h.withCh _
      | some w => exact h.signal w.sel _
    · obtain ⟨rfl, rfl⟩ := Prod.mk.inj (Option.some_inj.mp hx)
      exact ⟨_, rfl, h.withCh _⟩
    · obtain ⟨rfl, rfl⟩ := Prod.mk.inj (Option.some_inj.mp hx)
      exact ⟨_, rfl, h.block l s t _⟩

theorem select (h : Mirrors x y) {s : SelId} {t : ℕ} (hx : x.select l s t = some (x', r)) :
    ∃ y', y.select l s t = some (y', r) ∧ Mirrors x' y' := by
  unfold Sys.select at hx ⊢
  cases hb : x.chanBlockSelect l s t with
  | none => rw [hb] at hx; cases hx
  | some p =>
    obtain ⟨z, q⟩ := p
    obtain ⟨w, hw, hm⟩ := h.chanBlockSelect hb
    rw [hb] at hx
    rw [hw]
    cases q with
    | none =>
      obtain ⟨rfl, rfl⟩ := Prod.mk.inj (Option.some_inj.mp hx)
      exact ⟨w, rfl, hm⟩
    | some v =>
      obtain ⟨rfl, rfl⟩ := Prod.mk.inj (Option.some_inj.mp hx)
      refine ⟨_, rfl, ?_⟩
      rw [hm.ch]
      exact hm.withCh _

theorem closeWait (h : Mirrors x y) (w : Wait) : Mirrors (x.closeWait w) (y.closeWait w) := by
  unfold Sys.closeWait
  rw [h.ch]
  split_ifs
  · exact h.signal w.sel _
  · exact h

theorem foreachSafe {nextOf : Sys → Wait → Option Wait} (hnext : ∀ a b : Sys, b.ch = a.ch → nextOf b = nextOf a)
    (n : ℕ) (w : Option Wait) (h : Mirrors x y) :
    Mirrors (Tailq.foreachSafe nextOf Sys.closeWait n w x) (Tailq.foreachSafe nextOf Sys.closeWait n w y) := by
  induction n generalizing w x y with
  | zero => exact h
  | succ n ih =>
    cases w with
    | none => exact h
    | some w =>
      unfold Tailq.foreachSafe
      rw [hnext x y h.ch]
      exact ih _ (h.closeWait w)

theorem chanClose (h : Mirrors x y) (c : ChanId) :
    Mirrors (x.chanClose c).1 (y.chanClose c).1 ∧ (y.chanClose c).2 = (x.chanClose c).2 := by
  unfold Sys.chanClose
  rw [h.ch]
  split_ifs
  · exact ⟨h, rfl⟩
  · refine ⟨?_, rfl⟩
    refine foreachSafe (fun a b hab => ?_) _ _ (h.withCh _)
    rw [hab]

/-- A channel call reads nothing of the scheduler but the list of its own selector. -/
theorem callOp (h : Mirrors x y) {op : ChanOp} (hx : x.callOp l op = some (x', r)) :
    ∃ y', y.callOp l op = some (y', r) ∧ Mirrors x' y' := by
  have hprep {a b : Sys} (hab : Mirrors a b) (s : SelId) (chans : ℕ → ChanId) (msgs : ℕ → Ptr) (n m : ℕ) :
      Mirrors { a with ch := a.ch.prepare s chans msgs n m } { b with ch := b.ch.prepare s chans msgs n m } := by
    rw [hab.ch]
    exact hab.withCh _
  have hsend (t : ℕ) (c : ChanId) (data : Ptr) (hx : x.chanSendWith t l c data = some (x', r)) :
      ∃ y', y.chanSendWith t l c data = some (y', r) ∧ Mirrors x' y' := by
    unfold chanSendWith at hx ⊢
    rw [h.ch]
    split_ifs at hx ⊢
    · obtain ⟨rfl, rfl⟩ := Prod.mk.inj (Option.some_inj.mp hx)
      exact ⟨_, rfl, h.withCh _⟩
    · exact (hprep (h.selInit (.stack l)) _ _ _ _ _).select hx
  cases op with
  | send c data => exact hsend _ c data hx
  | sendNoblock c data => exact hsend _ c data hx
  | recv c data => exact (hprep (h.selInit (.stack l)) _ _ _ _ _).select hx
  | select n chans msgs w r timeout => exact (hprep h _ _ _ _ _).select hx
  | close c =>
    obtain ⟨hm, hr⟩ := h.chanClose c
    obtain ⟨rfl, rfl⟩ := Prod.mk.inj (Option.some_inj.mp hx)
    refine ⟨(y.chanClose c).1, ?_, hm⟩
    simp only [Sys.callOp, hr]

theorem returnFrom (h : Mirrors x y) {s : SelId} {t : ℕ} (he : y.sched.has l .expired = x.sched.has l .expired) :
    Mirrors (x.returnFrom l s t) (y.returnFrom l s t) := by
  have hret : (y.sched.lthreadCondWaitEnd l (.sel s) t).2 = (x.sched.lthreadCondWaitEnd l (.sel s) t).2 := by
    rw [lthreadCondWaitEnd_ret, lthreadCondWaitEnd_ret, he]
  have hctx (z : Sched) (m : LtId) : ((z.lthreadCondWaitEnd l (.sel s) t).1.lt m).ctx = (z.lt m).ctx := by
    have hk := (lthreadSchedBusySleepEnd_keeps z l t).ctx m
    rw [lthreadCondWaitEnd_eq]
    split_ifs <;> exact hk
  refine ⟨?_, fun m i u => ?_, fun i => ?_⟩
  · unfold Sys.returnFrom Sys.chanBlockSelectEnd
    simp only [hret, h.ch]
    split_ifs <;> rfl
  · rw [returnFrom_sched, returnFrom_sched]
    simp only [setCtx, modify_lt]
    split_ifs
    · exact Iff.rfl
    · rw [hctx, hctx]
      exact h.ctx m i u
  · have hx := lthreadCondWaitEnd_blocked x.sched l (.sel s) t
    have hy := lthreadCondWaitEnd_blocked y.sched l (.sel s) t
    rw [he, h.blocked s] at hy
    rw [returnFrom_sched, returnFrom_sched, setCtx_blocked, setCtx_blocked]
    split_ifs at hx hy
    · exact h.write hx hy i
    · rw [hx, hy]
      exact h.blocked i

end Mirrors
end Sys

namespace World

variable {k : Bool} {x x' : World} {l : LtId} {a : Label}

/-- `lthread_cond_wait` is called by the program for condition variables of its own. -/
def OwnConds (x : World) : Prop := ∀ l c t, (x.sched.lt l).ctx = .condWait c t → ∃ i, c = .user i

theorem OwnConds.of_waits (h : x.OwnConds) (hw : ∀ m c t, (x'.sched.lt m).ctx = .condWait c t →
    (x.sched.lt m).ctx = .condWait c t ∨ ∃ i, c = .user i) : x'.OwnConds := by
  intro l c t hl
  rcases hw l c t hl with h0 | h0
  · exact h l c t h0
  · exact h0

theorem Inv.own_step (h : x.Inv k) (ho : x.OwnConds) (hx : x.step a = .ok x') : x'.OwnConds := by
  refine ho.of_waits fun m c t hm => ?_
  have hsame (hu : Untouched x x') : (x.sched.lt m).ctx = .condWait c t := by
    rw [hu.lists.waits (by simp [hm, Ctx.cond])]
    exact hm
  by_cases hloop : a = .sched ∧ x.cpu = .loop
  · obtain ⟨rfl, hcpu⟩ := hloop
    replace hx := step_loop hcpu hx
    rcases h.loop_ctx hcpu hx m with h1 | h1 | ⟨-, h1⟩
    · exact Or.inl (h1.symm.trans hm)
    · rw [hm] at h1; cases h1
    · rw [hm] at h1; cases h1
  by_cases hop : ∀ op, a = .call op → op.waitsOn = false
  · exact Or.inl (hsame (step_untouched hop (fun h1 h2 => hloop ⟨h1, h2⟩) hx))
  · push Not at hop
    obtain ⟨op, rfl, hop⟩ := hop
    obtain ⟨l, hcpu, hcall⟩ := step_call hx
    cases op with
    | condWait i u =>
      obtain rfl := Except.ok.inj hcall
      rw [suspend_sched, Sched.setCtx, modify_lt] at hm
      split_ifs at hm with he
      · exact Or.inr ⟨i, ((Ctx.condWait.injEq .. ▸ hm).1).symm⟩
      · rw [(lthreadCondWait_keeps _ _ _ _).ctx m] at hm
        exact Or.inl hm
    | condSignal i =>
      obtain rfl := Except.ok.inj hcall
      rw [onSched_sched, ((Signals.refl _).tail _).ctx m] at hm
      exact Or.inl hm
    | condBroadcast i =>
      obtain rfl := Except.ok.inj hcall
      rw [onSched_sched, (lthreadCondBroadcast_signals _ _).ctx m] at hm
      exact Or.inl hm
    | chan op =>
      obtain ⟨-, r, hcop⟩ := chan_call hcall
      change ((x'.sys.sched).lt m).ctx = _ at hm
      obtain ⟨b, -, ⟨-, hs⟩ | ⟨-, s, u, -, heq⟩⟩ := Sys.callOp_calls hcop
      · rw [hs.ctx m] at hm
        exact Or.inl hm
      · rw [heq, Sched.setCtx, modify_lt] at hm
        split_ifs at hm
        rw [(lthreadCondWait_keeps _ _ _ _).ctx m] at hm
        exact Or.inl hm
    | _ => exact absurd rfl hop

/-- Nothing of the channels or of the lists of selectors is different, and nobody has got
into a channel call. -/
def SelsSame (x x' : World) : Prop :=
  x'.sys.ch = x.sys.ch ∧ (∀ s, x'.sched.blocked (.sel s) = x.sched.blocked (.sel s)) ∧
    ∀ m s t, (x'.sched.lt m).ctx = .selWait s t → (x.sched.lt m).ctx = .selWait s t

theorem Untouched.sels (h : Untouched x x') : SelsSame x x' := by
  refine ⟨h.ch, fun s => by rw [h.lists.blocked], fun m s t hm => ?_⟩
  rw [h.lists.waits (by simp [hm, Ctx.cond])]
  exact hm

inductive ChanStep (x : World) (a : Label) (x' : World) : Prop
  | call {l : LtId} {op : ChanOp} {r : Option ℤ} (ha : a = .call (.chan op)) (hcpu : x.cpu = .run l)
      (hc : x.sys.callable op) (hop : x.sys.callOp l op = some (x'.sys, r))
  | back {l : LtId} {s : SelId} {t : ℕ} {z : World} (ha : a = .sched) (hcpu : x.cpu = .loop) (hcpu' : x'.cpu = .run l)
      (hctx : (x.sched.lt l).ctx = .selWait s t) (hz : x.Resumes z l (.sel s))
      (hx : x'.sys = z.sys.returnFrom l s t)
  | other (same : SelsSame x x')
      (hnone : a = .sched → x.cpu = .loop → ∀ m s t, x'.cpu = .run m → (x.sched.lt m).ctx ≠ .selWait s t)

theorem setCtx_setCtx (s : Sched) (l : LtId) (c : Ctx) : (s.setCtx l c).setCtx l c = s.setCtx l c := by
  simp [Sched.setCtx, Sched.modify, Function.update_idem]

theorem Inv.loop_chans (h : x.Inv k) (ho : x.OwnConds) (hcpu : x.cpu = .loop) (hx : x.lthreadRun = .ok x') :
    ChanStep x .sched x' := by
  rcases h.loop_returns hcpu hx with ⟨hsame, hnone⟩ | ⟨l, i, t, z, hcond, hz, hresume⟩
  · refine .other hsame.sels fun _ _ m s t hm h0 => ?_
    have hl := hnone m hm
    rw [h0] at hl; cases hl
  · obtain ⟨-, ⟨hc, -⟩ | ⟨-, y, hy, rfl⟩⟩ := lthreadResume_cases hresume
    · exact absurd hc (Bool.eq_false_iff.mp hz.cancelled)
    rw [initNew, if_neg (by simp [hz.new])] at hy
    unfold World.afterYield at hy
    rw [hz.ctx] at hy
    cases hctx : (x.sched.lt l).ctx with
    | selWait s u =>
      rw [hctx] at hy hcond
      obtain rfl := Except.ok.inj hy
      obtain ⟨rfl, rfl⟩ := Prod.mk.inj (Option.some_inj.mp hcond)
      refine .back rfl hcpu rfl hctx hz ?_
      change (⟨(z.sys.returnFrom l s u).sched.setCtx l .running, (z.sys.returnFrom l s u).ch⟩ : Sys) = _
      rw [show (z.sys.returnFrom l s u).sched.setCtx l .running = (z.sys.returnFrom l s u).sched by
        rw [Sys.returnFrom_sched, setCtx_setCtx]]
    | condWait c u =>
      obtain ⟨i, rfl⟩ := ho l c u hctx
      rw [hctx] at hy
      obtain rfl := Except.ok.inj hy
      have hsels := hz.same.sels
      refine .other ⟨hsels.1, fun s => ?_, fun m s v hm => ?_⟩ fun _ _ m s v hm h0 => ?_
      · rw [← hsels.2.1 s]
        change ((z.sched.lthreadCondWaitEnd l (.user i) u).1.setCtx l .running).blocked (.sel s) = _
        rw [setCtx_blocked, lthreadCondWaitEnd_blocked]
        split_ifs
        · exact Function.update_of_ne (by simp) _ _
        · rfl
      · rcases h.loop_ctx hcpu hx m with h1 | h1 | ⟨-, h1⟩
        · exact h1.symm.trans hm
        · rw [hm] at h1; cases h1
        · rw [hm] at h1; cases h1
      · obtain rfl := Cpu.run.inj hm
        rw [hctx] at h0; cases h0
    | _ => rw [hctx] at hcond; cases hcond

theorem Inv.chan_step (h : x.Inv k) (ho : x.OwnConds) (hx : x.step a = .ok x') : ChanStep x a x' := by
  by_cases hloop : a = .sched ∧ x.cpu = .loop
  · obtain ⟨rfl, hcpu⟩ := hloop
    replace hx := step_loop hcpu hx
    exact h.loop_chans ho hcpu hx
  have hother (hsame : SelsSame x x') : ChanStep x a x' := .other hsame fun h1 h2 => absurd ⟨h1, h2⟩ hloop
  by_cases hop : ∀ op, a = .call op → op.waitsOn = false
  · exact hother (step_untouched hop (fun h1 h2 => hloop ⟨h1, h2⟩) hx).sels
  · push Not at hop
    obtain ⟨op, rfl, hop⟩ := hop
    obtain ⟨l, hcpu, hcall⟩ := step_call hx
    cases op with
    | condWait i u =>
      obtain rfl := Except.ok.inj hcall
      refine hother ⟨rfl, fun s => ?_, fun m s t hm => ?_⟩
      · rw [suspend_sched, setCtx_blocked, lthreadCondWait_blocked]
        exact Function.update_of_ne (by simp) _ _
      · rw [suspend_sched, Sched.setCtx, modify_lt] at hm
        split_ifs at hm
        rwa [(lthreadCondWait_keeps _ _ _ _).ctx m] at hm
    | condSignal i =>
      obtain rfl := Except.ok.inj hcall
      refine hother ⟨rfl, fun s => ?_, fun m s t hm => ?_⟩
      · rw [onSched_sched]
        cases hb : x.sched.blocked (.user i) with
        | nil => rw [lthreadCondSignal_nil _ _ hb]
        | cons m rest =>
          rw [(lthreadCondSignal_cons _ _ _ hb).blocked]
          exact Function.update_of_ne (by simp) _ _
      · rwa [onSched_sched, ((Signals.refl _).tail _).ctx m] at hm
    | condBroadcast i =>
      obtain rfl := Except.ok.inj hcall
      refine hother ⟨rfl, fun s => ?_, fun m s t hm => ?_⟩
      · rw [onSched_sched, (lthreadCondBroadcast_eq _ _).2]
        exact Function.update_of_ne (by simp) _ _
      · rwa [onSched_sched, (lthreadCondBroadcast_signals _ _).ctx m] at hm
    | chan op =>
      obtain ⟨hc, r, hcop⟩ := chan_call hcall
      exact .call rfl hcpu hc hcop
    | _ => exact absurd rfl hop

theorem Inv.mirrors_step (h : x.Inv k) (ho : x.OwnConds) (hok : stepOk k x a) (hx : x.step a = .ok x') {y : Sys}
    (hy : ChanOk y) (hm : x.sys.Mirrors y) : ∃ y', chanMachine.Steps anyStep y y' ∧ x'.sys.Mirrors y' := by
  have hL := hy.linked
  have huser {l : LtId} {s : SelId} {t : ℕ} (hctx : (x.sched.lt l).ctx = .selWait s t) :
      (y.sched.lt l).ctx = .selWait s t ∧ (y.ch.sel s).user = some l := by
    have hc := (hm.ctx l s t).mpr hctx
    exact ⟨hc, (hL.user s l).mpr ⟨t, hc⟩⟩
  cases h.chan_step ho hx with
  | @call l op r ha hcpu hc hop =>
    obtain ⟨y', hop', hm'⟩ := hm.callOp hop
    have hrun : (y.sched.lt l).ctx = .running := by
      have hx0 : (x.sched.lt l).ctx = .running := h.ctx_of_run hcpu
      have hp := hL.placed l
      unfold Placed at hp
      cases hctx : (y.sched.lt l).ctx with
      | running => rfl
      | selWait s t =>
        have h0 : (x.sched.lt l).ctx = .selWait s t := (hm.ctx l s t).mp hctx
        rw [hx0] at h0; cases h0
      | _ => simp [hctx] at hp
    have hcall : y.callable op := by
      cases op with
      | select n chans msgs w r t =>
        unfold Sys.callable
        rw [hm.ch]
        exact hc
      | _ => trivial
    refine ⟨if r = none then { y' with sched := y'.sched.clearBit l .expired } else y',
      Machine.Steps.single (a := .call l op) trivial ?_, ?_⟩
    · change y.chanStep (.call l op) = _
      unfold Sys.chanStep
      simp only
      rw [if_pos ⟨hrun, hcall⟩, hop']
      cases r <;> rfl
    · split_ifs
      · refine ⟨hm'.ch, fun m s t => ?_, hm'.blocked⟩
        rw [← hm'.ctx m s t, (clearBit_keeps y'.sched l .expired).ctx m]
      · exact hm'
  | @back l s t z ha hcpu hcpu' hctx hz hx' =>
    obtain ⟨hcy, hu⟩ := huser hctx
    have hsels := hz.same.sels
    have hzm {b : Sched} (hc : ∀ m, (b.lt m).ctx = (y.sched.lt m).ctx)
        (hb : b.blocked = y.sched.blocked) : z.sys.Mirrors ⟨b, y.ch⟩ := by
      refine ⟨hm.ch.trans hsels.1.symm, fun m i u => ?_, fun i => ?_⟩
      · change (b.lt m).ctx = _ ↔ (z.sched.lt m).ctx = _
        rw [hc, hz.ctx, hm.ctx]
        rfl
      · change b.blocked _ = z.sched.blocked _
        rw [hb, hsels.2.1, hm.blocked]
        rfl
    -- the list of the selector tells whether the lthread has been served
    have hblocked := hL.blocked s
    rw [hm.blocked s, hu] at hblocked
    rw [hx']
    rcases hz.cause with ⟨-, -, hmem, he⟩ | ⟨-, hmem, he⟩
    · have ht : (y.ch.sel s).target = -1 := by
        by_contra ht
        rw [if_neg ht] at hblocked
        rw [show x.sched.blocked (.sel s) = [] from hblocked] at hmem
        cases hmem
      obtain ⟨u, -, -, -, -, hs1, -⟩ := hL.placed_parked hu ht
      have hsleep : l ∈ y.sched.sleeping := List.count_pos_iff.mp (by omega)
      have hexp : ((y.sched.lthreadDeschedSleep l).setBit l .expired).has l .expired = true := by
        rw [setBit_has, if_pos ⟨rfl, rfl⟩]
      refine ⟨_, Machine.Steps.single (a := .expire l) trivial ?_,
        Sys.Mirrors.returnFrom (hzm (b := (y.sched.lthreadDeschedSleep l).setBit l .expired) (fun m => ?_) ?_)
          (hexp.trans he.symm)⟩
      · change y.chanStep (.expire l) = some _
        unfold Sys.chanStep
        simp only [hcy, if_pos hsleep]
      · rw [(setBit_keeps _ l .expired).ctx m, (lthreadDeschedSleep_keeps y.sched l).ctx m]
      · simp
    · have ht : (y.ch.sel s).target ≠ -1 := by
        intro ht
        rw [if_pos ht] at hblocked
        rw [show x.sched.blocked (.sel s) = [l] from hblocked] at hmem
        exact hmem (List.mem_singleton_self l)
      obtain ⟨u, -, -, hexp, hr1, -⟩ := hL.placed_woken hu ht
      have hready : l ∈ y.sched.ready := List.count_pos_iff.mp (by omega)
      refine ⟨_, Machine.Steps.single (a := .resume l) trivial ?_,
        Sys.Mirrors.returnFrom (hzm (b := { y.sched with ready := y.sched.ready.erase l }) (fun _ => rfl) rfl)
          (hexp.trans he.symm)⟩
      change y.chanStep (.resume l) = some _
      unfold Sys.chanStep
      simp only [hcy, if_pos hready]
  | other same hnone =>
    refine ⟨y, Machine.Steps.refl y, ⟨hm.ch.trans same.1.symm, fun m s t => ?_, fun s => ?_⟩⟩
    · rw [hm.ctx]
      refine ⟨fun hctx => ?_, same.2.2 m s t⟩
      rcases h.suspended_stays hok hx hctx (by simp) (by simp) with h1 | ⟨h1, h2, h3⟩
      · exact h1
      · exact absurd hctx (hnone h1 h2 m s t h3)
    · rw [hm.blocked]
      exact (same.2.1 s).symm

theorem exists_mirror (h : worldMachine.Reachable (stepOk k) x) :
    ∃ y, chanMachine.Reachable anyStep y ∧ x.OwnConds ∧ x.sys.Mirrors y := by
  refine h.simulated (R := fun x y => x.OwnConds ∧ x.sys.Mirrors y) (fun x hx => ?_) ?_
  · obtain ⟨birth, capacity, n, rfl⟩ := hx
    refine ⟨Sys.chanStart capacity, ⟨capacity, rfl⟩, ?_, rfl, fun l s t => ?_, fun _ => rfl⟩
    · intro l c t hc
      cases hc
    · constructor
      · intro hc; cases hc
      · intro hc; cases hc
  · rintro x a x' y hx hy ⟨ho, hm⟩ hok hs
    have hi : x.Inv k := Inv.reachable hx
    obtain ⟨y', hsteps, hm'⟩ := hi.mirrors_step ho hok hs (ChanOk.reachable hy) hm
    exact ⟨y', hsteps, hi.own_step ho hs, hm'⟩

/-- Who has an entry in the queue of a channel is suspended in a call with its selector, and
on the list of that selector's condition. -/
theorem entry_user (h : worldMachine.Reachable (stepOk k) x) {c : ChanId} {side : Side} {w : Wait}
    (hw : w ∈ (x.sys.ch.chan c).waitq side) :
    ∃ l t, (x.sched.lt l).ctx = .selWait w.sel t ∧ x.sched.blocked (.sel w.sel) = [l] := by
  obtain ⟨y, hy, -, hm⟩ := exists_mirror h
  obtain ⟨hinv, hlink⟩ := ChanOk.reachable hy
  rw [← hm.ch] at hw
  obtain ⟨⟨huser, htarget⟩, -⟩ := hinv.registered.mem side hw
  obtain ⟨l, hl⟩ := Option.ne_none_iff_exists'.mp huser
  obtain ⟨t, ht⟩ := (hlink.user w.sel l).mp hl
  have hb := hlink.blocked w.sel
  rw [hm.blocked, if_pos htarget, hl] at hb
  exact ⟨l, t, (hm.ctx l w.sel t).mp ht, hb⟩

end World
end Lthr

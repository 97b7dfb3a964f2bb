import Lthread.Proofs.Eof
import Lthread.Proofs.Untouched

/-! What a step does to the blocked lists of the condition variables of the program, and
to the lthreads that are suspended in `lthread_cond_wait` on one of them. The conditions
of selectors are not among them. -/

namespace Lthr

open Sched

namespace Sched

/-- The blocked lists of the program's own condition variables are as before. -/
def ListsKept (s s' : Sched) : Prop := ∀ c, s'.blocked (.user c) = s.blocked (.user c)

namespace ListsKept

variable {s s' : Sched}

theorem of_eq (h : s'.blocked = s.blocked) : ListsKept s s' := fun _ => by rw [h]

theorem trans {a b c : Sched} (h1 : ListsKept a b) (h2 : ListsKept b c) : ListsKept a c :=
  fun i => (h2 i).trans (h1 i)

theorem update_sel (i : SelId) (q : List LtId) (h : s'.blocked = Function.update s.blocked (.sel i) q) :
    ListsKept s s' := by
  intro c
  rw [h, Function.update_of_ne (by simp)]

theorem signal_sel (i : SelId) : ListsKept s (s.lthreadCondSignal (.sel i)) := by
  cases hb : s.blocked (.sel i) with
  | nil => exact of_eq (by rw [lthreadCondSignal_nil s _ hb])
  | cons l rest => exact update_sel i rest (lthreadCondSignal_cons s l _ hb).blocked

end ListsKept

theorem Signals.ctx {s s' : Sched} (h : Signals s s') (m : LtId) : (s'.lt m).ctx = (s.lt m).ctx := by
  induction h with
  | refl => rfl
  | @tail s' c _ ih =>
    rw [← ih]
    cases hb : s'.blocked c with
    | nil => rw [lthreadCondSignal_nil s' c hb]
    | cons l rest => exact (lthreadCondSignal_cons s' l c hb).keeps.ctx m

/-- Nobody starts to wait on one of these condition variables, and their lists are as before. -/
def CondKept (s s' : Sched) : Prop :=
  ListsKept s s' ∧ ∀ m c t, (s'.lt m).ctx = .condWait (.user c) t → (s.lt m).ctx = .condWait (.user c) t

namespace CondKept

variable {s s' : Sched}

theorem lists (h : CondKept s s') : ListsKept s s' := h.1

theorem waits (h : CondKept s s') (m : LtId) (c t : ℕ) (hm : (s'.lt m).ctx = .condWait (.user c) t) :
    (s.lt m).ctx = .condWait (.user c) t := h.2 m c t hm

theorem of_same (h : ListsSame s s') : CondKept s s' := by
  refine ⟨ListsKept.of_eq h.blocked, fun m c t hm => ?_⟩
  rw [h.waits (by simp [hm, Ctx.cond])]
  exact hm

end CondKept

/-- The lthread whose list a broadcast empties gets ready with all the others on it. -/
theorem lthreadCondBroadcast_eq (s : Sched) (c : CondId) :
    (s.lthreadCondBroadcast c).ready = s.ready ++ s.blocked c ∧
      (s.lthreadCondBroadcast c).blocked = Function.update s.blocked c [] := by
  unfold lthreadCondBroadcast
  generalize hq : s.blocked c = q
  induction q generalizing s with
  | nil => exact ⟨(List.append_nil _).symm, by rw [List.foldl_nil, ← hq, Function.update_eq_self]⟩
  | cons l rest ih =>
    have hsig : (({ s with blocked := Function.update s.blocked c ((s.blocked c).erase l) } :
        Sched).lthreadDeschedSleep l).readyInsert l = s.lthreadCondSignal c := by
      rw [hq, List.erase_cons_head, lthreadCondSignal, hq]
    have hs := lthreadCondSignal_cons s l c hq
    obtain ⟨hr, hb⟩ := ih (s.lthreadCondSignal c) (by rw [hs.blocked, Function.update_self])
    rw [List.foldl_cons, hsig, hr, hb, hs.ready, hs.blocked]
    exact ⟨by simp, by simp⟩

end Sched

namespace Sys

variable {x x' : Sys} {l : LtId} {r : Option ℤ}

theorem chanBlockSelect_lists {s : SelId} {t : ℕ} (h : x.chanBlockSelect l s t = some (x', r)) :
    ListsKept x.sched x'.sched := by
  unfold chanBlockSelect at h
  cases hall : x.ch.tryAll s with
  | none => rw [hall] at h; cases h
  | some p =>
    obtain ⟨ch, wait⟩ := p
    simp only [hall] at h
    split_ifs at h with htarget ht
    · obtain ⟨rfl, rfl⟩ := Prod.mk.inj (Option.some_inj.mp h)
      cases wait with
      | none => exact ListsKept.of_eq rfl
      | some w => exact ListsKept.signal_sel w.sel
    · obtain ⟨rfl, rfl⟩ := Prod.mk.inj (Option.some_inj.mp h)
      exact ListsKept.of_eq rfl
    · obtain ⟨rfl, rfl⟩ := Prod.mk.inj (Option.some_inj.mp h)
      exact ListsKept.update_sel s _ (lthreadCondWait_blocked x.sched l (.sel s) t)

theorem select_lists {s : SelId} {t : ℕ} (h : x.select l s t = some (x', r)) : ListsKept x.sched x'.sched := by
  unfold select at h
  cases hb : x.chanBlockSelect l s t with
  | none => rw [hb] at h; cases h
  | some p =>
    obtain ⟨y, r'⟩ := p
    have hy := chanBlockSelect_lists hb
    rw [hb] at h
    cases r' with
    | none | some =>
      obtain ⟨rfl, rfl⟩ := Prod.mk.inj (Option.some_inj.mp h)
      exact hy

theorem foreachSafe_lists (nextOf : Sys → Wait → Option Wait) (n : ℕ) (w : Option Wait) :
    ListsKept x.sched (Tailq.foreachSafe nextOf closeWait n w x).sched := by
  induction n generalizing w x with
  | zero => exact ListsKept.of_eq rfl
  | succ n ih =>
    cases w with
    | none => exact ListsKept.of_eq rfl
    | some w =>
      refine ListsKept.trans ?_ (ih _)
      unfold closeWait
      split_ifs
      · exact ListsKept.signal_sel w.sel
      · exact ListsKept.of_eq rfl

theorem callOp_lists {op : ChanOp} (h : x.callOp l op = some (x', r)) : ListsKept x.sched x'.sched := by
  have hinit : ListsKept x.sched (x.lthreadSelInit (.stack l)).sched := ListsKept.update_sel (.stack l) [] rfl
  have hsend (t : ℕ) (c : ChanId) (data : Ptr) (h : x.chanSendWith t l c data = some (x', r)) :
      ListsKept x.sched x'.sched := by
    unfold chanSendWith at h
    split_ifs at h
    · obtain ⟨rfl, rfl⟩ := Prod.mk.inj (Option.some_inj.mp h)
      exact ListsKept.of_eq rfl
    · have hs := select_lists h
      exact hinit.trans hs
  cases op with
  | send c data => exact hsend _ c data h
  | sendNoblock c data => exact hsend _ c data h
  | recv c data =>
    have hs := select_lists (x := { x.lthreadSelInit (.stack l) with
      ch := (x.lthreadSelInit (.stack l)).ch.prepare (.stack l) (fun _ => c) (fun _ => data) 0 1 }) h
    exact hinit.trans hs
  | select n chans msgs w r timeout =>
    exact select_lists (x := { x with ch := x.ch.prepare (.heap n) chans msgs w r }) h
  | close c =>
    obtain ⟨rfl, rfl⟩ := Prod.mk.inj (Option.some_inj.mp h)
    unfold chanClose
    split_ifs
    · exact ListsKept.of_eq rfl
    · exact foreachSafe_lists (x := { x with ch := x.ch.modChan c ({ · with closed := true }) }) _ _ _

end Sys

def Op.onCond : Op → Option ℕ
  | .condWait c _ | .condSignal c | .condBroadcast c => some c
  | _ => none

namespace World

variable {k : Bool} {x x' : World} {l : LtId} {a : Label}

theorem call_conds {op : Op} (hop : op.onCond = none) (hx : x.call l op = .ok x') : x.sched.CondKept x'.sched := by
  cases op with
  | condWait | condSignal | condBroadcast => cases hop
  | chan op =>
    obtain ⟨-, r, hop⟩ := chan_call hx
    refine ⟨Sys.callOp_lists hop, fun m c t hm => ?_⟩
    change (x'.sys.sched.lt m).ctx = _ at hm
    obtain ⟨b, -, ⟨-, hs⟩ | ⟨-, s, t, -, heq⟩⟩ := Sys.callOp_calls hop
    · rwa [hs.ctx m] at hm
    · rw [heq, Sched.setCtx, modify_lt] at hm
      split_ifs at hm
      rwa [(lthreadCondWait_keeps _ _ _ _).ctx m] at hm
  | _ => exact CondKept.of_same (call_untouched rfl hx).lists

/-- A step that is not one of the loop, nor a call on a condition variable. -/
theorem step_conds (hop : ∀ op, a = .call op → op.onCond = none) (hloop : a = .sched → x.cpu ≠ .loop)
    (hx : x.step a = .ok x') : x.sched.CondKept x'.sched := by
  cases a with
  | call op =>
    obtain ⟨l, -, hcall⟩ := step_call hx
    exact call_conds (hop op rfl) hcall
  | _ =>
    have hstep := step_untouched (by exact fun _ h => by cases h) hloop hx
    exact CondKept.of_same hstep.lists

/-! The loop -/

theorem lthreadResume_lists {i : SelId} {t : ℕ} (hctx : (x.sched.lt l).ctx.cond = some (.sel i, t))
    (hx : x.lthreadResume l = .ok x') : ListsKept x.sched x'.sched := by
  obtain ⟨-, ⟨-, hx⟩ | ⟨-, y, hy, rfl⟩⟩ := lthreadResume_cases hx
  · exact ListsKept.of_eq (dropCancelled_untouched hx).lists.blocked
  · have hend (s : Sched) : ListsKept s (s.lthreadCondWaitEnd l (.sel i) t).1 := by
      have hb := lthreadCondWaitEnd_blocked s l (.sel i) t
      split_ifs at hb
      · exact ListsKept.update_sel i _ hb
      · exact ListsKept.of_eq hb
    refine (ListsKept.of_eq (initNew_untouched x l).lists.blocked).trans ?_
    unfold World.afterYield at hy
    rw [initNew_ctx] at hy
    cases hc : (x.sched.lt l).ctx with
    | condWait j u =>
      rw [hc] at hy hctx
      obtain ⟨rfl, rfl⟩ := Prod.mk.inj (Option.some_inj.mp hctx)
      obtain rfl := Except.ok.inj hy
      exact hend _
    | selWait j u =>
      rw [hc] at hy hctx
      obtain ⟨hj, rfl⟩ := Prod.mk.inj (Option.some_inj.mp hctx)
      obtain rfl := CondId.sel.inj hj
      obtain rfl := Except.ok.inj hy
      change ListsKept (x.initNew l).sched ((x.initNew l).sys.returnFrom l j u).sched
      rw [Sys.returnFrom_sched]
      exact hend _
    | _ => rw [hc] at hctx; cases hctx

/-- `lthread_cond_wait` returns -2 for an lthread that expired, which it takes off the list. -/
theorem lthreadResume_condWait {c t : ℕ} (hctx : (x.sched.lt l).ctx = .condWait (.user c) t)
    (hnew : x.sched.has l .new = false) (hcancel : x.sched.has l .cancelled = false) (hx : x.lthreadResume l = .ok x') :
    x'.cpu = .run l ∧
      (x.sched.has l .expired = true ∧ x'.ret l = -2 ∧
        x'.sched.blocked = Function.update x.sched.blocked (.user c) ((x.sched.blocked (.user c)).erase l) ∨
       x.sched.has l .expired = false ∧ x'.ret l = 0 ∧ x'.sched.blocked = x.sched.blocked) := by
  obtain ⟨-, ⟨hc, -⟩ | ⟨-, y, hy, rfl⟩⟩ := lthreadResume_cases hx
  · rw [hcancel] at hc; cases hc
  · refine ⟨rfl, ?_⟩
    rw [initNew, if_neg (by simp [hnew]), World.afterYield, hctx] at hy
    obtain rfl := Except.ok.inj hy
    have hret := lthreadCondWaitEnd_ret x.sched l (.user c) t
    have hblocked := lthreadCondWaitEnd_blocked x.sched l (.user c) t
    cases he : x.sched.has l .expired with
    | true =>
      rw [he] at hret hblocked
      exact Or.inl ⟨rfl, (Function.update_self l _ x.ret).trans hret, hblocked⟩
    | false =>
      rw [he] at hret hblocked
      exact Or.inr ⟨rfl, (Function.update_self l _ x.ret).trans hret, hblocked⟩

/-- Lthread `l` returns from `lthread_cond_wait` on `c` as its deadline has passed: nobody has
taken it off the list. -/
structure Expires (x x' : World) (l : LtId) (c : ℕ) : Prop where
  phase : ∃ τ, x.phase = .expired τ ∧ (x.sched.lt l).sleepUsecs ≤ τ
  asleep : l ∈ x.sched.sleeping
  mem : l ∈ x.sched.blocked (.user c)
  list : x'.sched.blocked (.user c) = (x.sched.blocked (.user c)).erase l
  lists : ∀ i ≠ c, x'.sched.blocked (.user i) = x.sched.blocked (.user i)
  ret : x'.ret l = -2

/-- Lthread `l` returns from `lthread_cond_wait` on `c` as somebody has put it on the ready
queue. -/
structure Wakes (x x' : World) (l : LtId) (c : ℕ) : Prop where
  ready : l ∈ x.sched.ready
  mem : l ∉ x.sched.blocked (.user c)
  lists : ListsKept x.sched x'.sched
  ret : x'.ret l = 0

/-- One round of the loop resumes at most one lthread out of `lthread_cond_wait`. -/
theorem Inv.loop_conds (h : x.Inv k) (hcpu : x.cpu = .loop) (hx : x.lthreadRun = .ok x') :
    (ListsKept x.sched x'.sched ∧ ∀ l c t, x'.cpu = .run l → (x.sched.lt l).ctx ≠ .condWait (.user c) t) ∨
    ∃ l c t, (x.sched.lt l).ctx = .condWait (.user c) t ∧ x'.cpu = .run l ∧
      (Expires x x' l c ∨ Wakes x x' l c) := by
  rcases h.loop_returns hcpu hx with ⟨hsame, hnone⟩ | ⟨l, i, t, z, hcond, hz, hx⟩
  · refine Or.inl ⟨ListsKept.of_eq hsame.lists.blocked, fun l c t hl h0 => ?_⟩
    have hl0 := hnone l hl
    rw [h0] at hl0; cases hl0
  · have hb := hz.same.lists.blocked
    have hkept : ListsKept x.sched z.sched := ListsKept.of_eq hb
    by_cases hw : ∃ c, (x.sched.lt l).ctx = .condWait (.user c) t
    · obtain ⟨c, hctx⟩ := hw
      rw [hctx] at hcond
      obtain ⟨rfl, -⟩ := Prod.mk.inj (Option.some_inj.mp hcond)
      obtain ⟨hrun, hret⟩ := lthreadResume_condWait ((hz.ctx l).trans hctx) hz.new hz.cancelled hx
      refine Or.inr ⟨l, c, t, hctx, hrun, ?_⟩
      rcases hz.cause with ⟨hp, hl, hm, he⟩ | ⟨hl, hm, he⟩
      · rcases hret with ⟨-, hr, hbl⟩ | ⟨he', -⟩
        · refine Or.inl ⟨hp, hl, hm, ?_, fun j hj => ?_, hr⟩
          · rw [hbl, Function.update_self, hb]
          · rw [hbl, Function.update_of_ne (by simpa using hj), hb]
        · rw [he] at he'; cases he'
      · rcases hret with ⟨he', -⟩ | ⟨-, hr, hbl⟩
        · rw [he] at he'; cases he'
        · exact Or.inr ⟨hl, hm, hkept.trans (ListsKept.of_eq hbl), hr⟩
    · have hsel : ∃ j, i = .sel j := by
        cases i with
        | sel j => exact ⟨j, rfl⟩
        | user c =>
          refine absurd ⟨c, ?_⟩ hw
          cases hc : (x.sched.lt l).ctx with
          | condWait j u =>
            rw [hc] at hcond
            obtain ⟨rfl, rfl⟩ := Prod.mk.inj (Option.some_inj.mp hcond)
            rfl
          | _ => rw [hc] at hcond; cases hcond
      obtain ⟨j, rfl⟩ := hsel
      refine Or.inl ⟨hkept.trans (lthreadResume_lists (by rw [hz.ctx]; exact hcond) hx), fun m c u hm h0 => hw ⟨c, ?_⟩⟩
      rcases (lthreadResume_rest hx).2 with ⟨hc, -⟩ | ⟨hc, -⟩
      · rw [hc] at hm
        obtain rfl := Cpu.run.inj hm
        rw [h0] at hcond; cases hcond
      · rw [hc] at hm; cases hm

/-! Whole steps -/

theorem Inv.ctx_of_run (h : x.Inv k) (hcpu : x.cpu = .run l) : (x.sched.lt l).ctx = .running :=
  (h.seated.running l).mpr hcpu

/-- Lthread `m` waits on the condition variables it waited on before. -/
def WaitKept (x x' : World) (m : LtId) : Prop :=
  ∀ c t, (x'.sched.lt m).ctx = .condWait (.user c) t ↔ (x.sched.lt m).ctx = .condWait (.user c) t

/-- What a step does to the condition variables, and to the lthreads that wait on them. -/
inductive CondStep (x : World) (a : Label) (x' : World) : Prop
  | wait {l : LtId} {c t : ℕ} (ha : a = .call (.condWait c t)) (hcpu : x.cpu = .run l)
      (hx : x' = x.suspend l fun s => (s.lthreadCondWait l (.user c) t).setCtx l (.condWait (.user c) t))
      (others : ∀ m ≠ l, WaitKept x x' m)
  | signal {c : ℕ} (ha : a = .call (.condSignal c)) (hx : x' = x.onSched (·.lthreadCondSignal (.user c)))
      (others : ∀ m, WaitKept x x' m)
  | broadcast {c : ℕ} (ha : a = .call (.condBroadcast c)) (hx : x' = x.onSched (·.lthreadCondBroadcast (.user c)))
      (others : ∀ m, WaitKept x x' m)
  | back {l : LtId} {c t : ℕ} (ha : a = .sched) (hcpu : x.cpu = .loop) (hcpu' : x'.cpu = .run l)
      (hctx : (x.sched.lt l).ctx = .condWait (.user c) t) (hx : Expires x x' l c ∨ Wakes x x' l c)
      (others : ∀ m ≠ l, WaitKept x x' m)
  | other (ha : ∀ op, a = .call op → op.onCond = none) (lists : ListsKept x.sched x'.sched)
      (others : ∀ m, WaitKept x x' m)

theorem Inv.cond_step (h : x.Inv k) (hok : stepOk k x a) (hx : x.step a = .ok x') : CondStep x a x' := by
  -- who is not resumed waits on, so that only new waits are to be looked at
  have hkept (m : LtId) (hm : a = .sched → x.cpu = .loop → x'.cpu ≠ .run m)
      (hnew : ∀ c t, (x'.sched.lt m).ctx = .condWait (.user c) t → (x.sched.lt m).ctx = .condWait (.user c) t) :
      WaitKept x x' m := by
    refine fun c t => ⟨hnew c t, fun hctx => ?_⟩
    rcases h.suspended_stays hok hx hctx (by simp) (by simp) with h1 | ⟨h1, h2, h3⟩
    · exact h1
    · exact absurd h3 (hm h1 h2)
  by_cases hloop : a = .sched ∧ x.cpu = .loop
  · obtain ⟨rfl, hcpu⟩ := hloop
    have hrun := hx
    replace hrun := step_loop hcpu hrun
    have hnew (m : LtId) (c t : ℕ) (hm : (x'.sched.lt m).ctx = .condWait (.user c) t) :
        (x.sched.lt m).ctx = .condWait (.user c) t := by
      rcases h.loop_ctx hcpu hrun m with h1 | h1 | ⟨-, h1⟩
      · exact h1.symm.trans hm
      · rw [hm] at h1; cases h1
      · rw [hm] at h1; cases h1
    rcases h.loop_conds hcpu hrun with ⟨hlists, hnone⟩ | ⟨l, c, t, hctx, hcpu', hback⟩
    · refine .other nofun hlists fun m c t => ⟨hnew m c t, fun hctx => ?_⟩
      rcases h.suspended_stays hok hx hctx (by simp) (by simp) with h1 | ⟨-, -, h3⟩
      · exact h1
      · exact absurd hctx (hnone m c t h3)
    · refine .back rfl hcpu hcpu' hctx hback fun m hm => hkept m (fun _ _ h3 => hm ?_) (hnew m)
      rw [hcpu'] at h3
      exact (Cpu.run.inj h3).symm
  · by_cases hop : ∀ op, a = .call op → op.onCond = none
    · have hk := step_conds hop (fun h1 h2 => hloop ⟨h1, h2⟩) hx
      exact .other hop hk.lists fun m => hkept m (fun h1 h2 => absurd ⟨h1, h2⟩ hloop) (hk.waits m)
    · push Not at hop
      obtain ⟨op, rfl, hop⟩ := hop
      obtain ⟨l, hcpu, hcall⟩ := step_call hx
      cases op with
      | condWait c t =>
        obtain rfl := Except.ok.inj hcall
        refine .wait rfl hcpu rfl fun m hm => hkept m nofun fun c' t' hctx => ?_
        rw [suspend_sched, Sched.setCtx, modify_lt, if_neg hm, (lthreadCondWait_keeps _ _ _ _).ctx m] at hctx
        exact hctx
      | condSignal c =>
        obtain rfl := Except.ok.inj hcall
        refine .signal rfl rfl fun m => hkept m nofun fun c' t' hctx => ?_
        rwa [onSched_sched, ((Signals.refl _).tail _).ctx m] at hctx
      | condBroadcast c =>
        obtain rfl := Except.ok.inj hcall
        refine .broadcast rfl rfl fun m => hkept m nofun fun c' t' hctx => ?_
        rwa [onSched_sched, (lthreadCondBroadcast_signals _ _).ctx m] at hctx
      | _ => exact absurd rfl hop

end World
end Lthr

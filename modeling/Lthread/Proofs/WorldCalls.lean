import Lthread.Lib.Machine
import Lthread.Proofs.Turns

/-! The calls of lthreads, up to the switch to the scheduler: each of them is a turn
or two on the board. -/

namespace Lthr

open Sched Seat

theorem count_ne_zero {l : LtId} {q : List LtId} (h : l ∈ q) : q.count l ≠ 0 :=
  Nat.ne_of_gt (List.count_pos_iff.mpr h)

theorem mem_of_count {l : LtId} {q : List LtId} (h : q.count l ≠ 0) : l ∈ q :=
  List.count_pos_iff.mp (Nat.pos_of_ne_zero h)

/-! Signals -/

inductive Sched.Signals : Sched → Sched → Prop
  | refl (s : Sched) : Signals s s
  | tail {s s' : Sched} (c : CondId) : Signals s s' → Signals s (s'.lthreadCondSignal c)

namespace Sched.Signals

theorem spawned {s s' : Sched} (h : Signals s s') : s'.spawned = s.spawned := by
  induction h with
  | refl => rfl
  | @tail s' c _ ih =>
    rw [← ih]
    cases hb : s'.blocked c with
    | nil => rw [lthreadCondSignal_nil s' c hb]
    | cons l rest => exact (lthreadCondSignal_cons s' l c hb).spawned

theorem trans {a b c : Sched} (h1 : Signals a b) (h2 : Signals b c) : Signals a c := by
  induction h2 with
  | refl => exact h1
  | tail i _ ih => exact Signals.tail i ih

theorem turns {R : Rules} {ex : Bool} {s s' : Sched} {io : ℕ → IoWorker} {compute : ℕ → ComputeSched}
    {cpu : Cpu} {n : ℕ} {dr : LtId → Bool} (h : Signals s s') :
    Turns R ⟨seatOf s io compute, cpu, n, ex, dr⟩ ⟨seatOf s' io compute, cpu, n, ex, dr⟩ := by
  induction h with
  | refl => exact Relation.ReflTransGen.refl
  | @tail s' c _ ih =>
    cases hb : s'.blocked c with
    | nil => rwa [lthreadCondSignal_nil s' c hb]
    | cons l rest =>
      exact ih.tail (Turn.signal (l := l) (count_ne_zero (by simp [hb]))
        (lthreadCondSignal_moves s' l hb io compute))

end Sched.Signals

/-- The walk of `lthread_cond_broadcast` always stands at the head of the list. -/
theorem lthreadCondBroadcast_signals (s : Sched) (c : CondId) :
    Signals s (s.lthreadCondBroadcast c) := by
  unfold lthreadCondBroadcast
  generalize hq : s.blocked c = q
  induction q generalizing s with
  | nil => exact Signals.refl s
  | cons l rest ih =>
    have hsig : (({ s with blocked := Function.update s.blocked c ((s.blocked c).erase l) } :
        Sched).lthreadDeschedSleep l).readyInsert l = s.lthreadCondSignal c := by
      have hrest : (s.blocked c).erase l = rest := by rw [hq, List.erase_cons_head]
      rw [hrest]
      unfold lthreadCondSignal
      rw [hq]
    rw [List.foldl_cons, hsig]
    refine ((Signals.refl s).tail c).trans (ih _ ?_)
    rw [(lthreadCondSignal_cons s l c hq).blocked, Function.update_self]

/-! Channel calls -/

/-- How long the call sleeps at most; 0 if it does not. -/
def ChanOp.msecs : ChanOp → ℕ
  | .send _ _ | .recv _ _ => LTHREAD_FOREVER
  | .select _ _ _ _ _ timeout => timeout
  | .sendNoblock _ _ | .close _ => 0

namespace Sys

variable {x x' : Sys} {l : LtId} {r : Option ℤ}

/-- What a channel call does to the scheduler: it signals and returns, or it blocks on
the condition of its selector, for `t` msecs at most. -/
def Calls (a b : Sched) (l : LtId) (t : ℕ) (r : Option ℤ) : Prop :=
  r ≠ none ∧ Signals a b ∨
  r = none ∧ t ≠ 0 ∧ ∃ s, (∀ m, s = .stack m → m = l) ∧
    b = (a.lthreadCondWait l (.sel s) t).setCtx l (.selWait s t)

theorem chanBlockSelect_calls {s : SelId} {t : ℕ} (hs : ∀ m, s = .stack m → m = l)
    (h : x.chanBlockSelect l s t = some (x', r)) : Calls x.sched x'.sched l t r := by
  unfold chanBlockSelect at h
  cases hall : x.ch.tryAll s with
  | none => rw [hall] at h; cases h
  | some p =>
    obtain ⟨ch, wait⟩ := p
    simp only [hall] at h
    split_ifs at h with htarget ht
    · obtain ⟨rfl, rfl⟩ := Prod.mk.inj (Option.some_inj.mp h)
      refine Or.inl ⟨by simp, ?_⟩
      cases wait with
      | none => exact Signals.refl _
      | some w => exact (Signals.refl _).tail _
    · obtain ⟨rfl, rfl⟩ := Prod.mk.inj (Option.some_inj.mp h)
      exact Or.inl ⟨by simp, Signals.refl _⟩
    · obtain ⟨rfl, rfl⟩ := Prod.mk.inj (Option.some_inj.mp h)
      exact Or.inr ⟨rfl, ht, s, hs, rfl⟩

theorem select_calls {s : SelId} {t : ℕ} (hs : ∀ m, s = .stack m → m = l)
    (h : x.select l s t = some (x', r)) : Calls x.sched x'.sched l t r := by
  unfold select at h
  cases hb : x.chanBlockSelect l s t with
  | none => rw [hb] at h; cases h
  | some p =>
    obtain ⟨y, r'⟩ := p
    have hy := chanBlockSelect_calls hs hb
    rw [hb] at h
    cases r' with
    | none =>
      obtain ⟨rfl, rfl⟩ := Prod.mk.inj (Option.some_inj.mp h)
      exact hy
    | some v =>
      obtain ⟨rfl, rfl⟩ := Prod.mk.inj (Option.some_inj.mp h)
      exact hy

theorem closeWait_signals (w : Wait) : Signals x.sched (x.closeWait w).sched := by
  unfold closeWait
  split_ifs
  · exact (Signals.refl _).tail _
  · exact Signals.refl _

theorem foreachSafe_signals (nextOf : Sys → Wait → Option Wait) (n : ℕ) (w : Option Wait) :
    Signals x.sched (Tailq.foreachSafe nextOf closeWait n w x).sched := by
  induction n generalizing w x with
  | zero => exact Signals.refl _
  | succ n ih =>
    cases w with
    | none => exact Signals.refl _
    | some w => exact (closeWait_signals w).trans (ih _)

/-- A call that uses the selector on the stack of its lthread initialises it first. -/
theorem callOp_calls {op : ChanOp} (h : x.callOp l op = some (x', r)) :
    ∃ b, (x.sched.blocked (.sel (.stack l)) = [] → b = x.sched.blocked) ∧
      Calls { x.sched with blocked := b } x'.sched l op.msecs r := by
  have hinit : x.sched.blocked (.sel (.stack l)) = [] →
      Function.update x.sched.blocked (.sel (.stack l)) [] = x.sched.blocked := fun hb => by
    rw [← hb, Function.update_eq_self]
  have hstack (m : LtId) (hm : SelId.stack l = .stack m) : m = l := (SelId.stack.inj hm).symm
  have hsend (t : ℕ) (c : ChanId) (data : Ptr) (h : x.chanSendWith t l c data = some (x', r)) :
      ∃ b, (x.sched.blocked (.sel (.stack l)) = [] → b = x.sched.blocked) ∧
        Calls { x.sched with blocked := b } x'.sched l t r := by
    unfold chanSendWith at h
    split_ifs at h
    · obtain ⟨rfl, rfl⟩ := Prod.mk.inj (Option.some_inj.mp h)
      exact ⟨x.sched.blocked, fun _ => rfl, Or.inl ⟨by simp, Signals.refl _⟩⟩
    · exact ⟨_, hinit, select_calls (l := l) hstack h⟩
  cases op with
  | send c data => exact hsend _ c data h
  | sendNoblock c data => exact hsend _ c data h
  | recv c data => exact ⟨_, hinit, select_calls hstack h⟩
  | select n chans msgs w r timeout =>
    have hs (m : LtId) (hm : SelId.heap n = .stack m) : m = l := by cases hm
    exact ⟨x.sched.blocked, fun _ => rfl,
      select_calls (x := { x with ch := x.ch.prepare (.heap n) chans msgs w r }) hs h⟩
  | close c =>
    obtain ⟨rfl, rfl⟩ := Prod.mk.inj (Option.some_inj.mp h)
    refine ⟨x.sched.blocked, fun _ => rfl, Or.inl ⟨by simp, ?_⟩⟩
    unfold chanClose
    split_ifs
    · exact Signals.refl _
    · exact foreachSafe_signals (x := { x with ch := x.ch.modChan c ({ · with closed := true }) }) _ _ _

end Sys

/-! The queues of the workers -/

section Workers

variable {s : Sched} {io : ℕ → IoWorker} {compute : ℕ → ComputeSched} {l : LtId} {w : ℕ}

theorem io_acts {y : IoWorker} (hy : ∀ m ≠ l, y.jobs.count m = (io w).jobs.count m) :
    ActsAt (seatOf s io compute) (seatOf s (Function.update io w y) compute) l
      fun v => { v with cnt := { v.cnt with io := Function.update v.cnt.io w (y.jobs.count l) } } := by
  have hcount (m : LtId) : (fun i => (Function.update io w y i).jobs.count m) =
      Function.update (fun i => (io i).jobs.count m) w (y.jobs.count m) := by
    funext i
    by_cases hi : i = w
    · subst hi; simp
    · simp [hi]
  refine ActsAt.of_apply ?_ fun m hm => ?_
  · simp [seatOf, hcount]
  · simp [seatOf, hcount, hy m hm]

theorem jobs_insert (y : IoWorker) (m : LtId) :
    (y.insert l).jobs.count m = y.jobs.count m + [l].count m := by
  unfold IoWorker.jobs IoWorker.insert
  cases hpc : y.pc
  case working l' =>
    simp only [List.count_cons, List.count_append]
    omega
  all_goals simp [List.count_append]

theorem jobs_signal (y : IoWorker) : (y.signal l).jobs = y.jobs := by
  unfold IoWorker.jobs IoWorker.signal
  cases hpc : y.pc <;> simp

theorem ioInsert_acts (w : ℕ) :
    ActsAt (seatOf s io compute) (seatOf s (Function.update io w ((io w).insert l)) compute) l
      fun v => { v with cnt := { v.cnt with io := bump v.cnt.io w } } := by
  refine (io_acts fun m hm => ?_).congr ?_
  · rw [jobs_insert, List.count_eq_zero (l := [l]).mpr (by simpa using hm), Nat.add_zero]
  · rw [jobs_insert, List.count_singleton_self]
    rfl

theorem seatOf_io {y : IoWorker} (hy : ∀ m, y.jobs.count m = (io w).jobs.count m) :
    seatOf s (Function.update io w y) compute = seatOf s io compute := by
  have h : ActsAt (seatOf s io compute) (seatOf s (Function.update io w y) compute) 0 _ :=
    io_acts fun m _ => hy m
  rw [hy 0] at h
  exact Eq.trans h (by simp [seatOf])

theorem compute_acts {y : ComputeSched}
    (hq : ∀ m ≠ l, y.lthreads.count m = (compute w).lthreads.count m)
    (ho : ∀ m ≠ l, y.pc.owned.count m = (compute w).pc.owned.count m) :
    ActsAt (seatOf s io compute) (seatOf s io (Function.update compute w y)) l
      fun v => { v with cnt := { v.cnt with
        compute := Function.update v.cnt.compute w (y.lthreads.count l)
        taken := Function.update v.cnt.taken w (y.pc.owned.count l) } } := by
  have hcount {f : ComputeSched → ℕ} : (fun i => f (Function.update compute w y i)) =
      Function.update (fun i => f (compute i)) w (f y) := by
    funext i
    by_cases hi : i = w
    · subst hi; simp
    · simp [hi]
  refine ActsAt.of_apply ?_ fun m hm => ?_
  · simp only [seatOf]
    rw [hcount (f := fun z => z.lthreads.count l), hcount (f := fun z => z.pc.owned.count l)]
  · simp only [seatOf]
    rw [hcount (f := fun z => z.lthreads.count m), hcount (f := fun z => z.pc.owned.count m), hq m hm, ho m hm]
    simp

theorem computeInsert_acts (w : ℕ) :
    ActsAt (seatOf s io compute) (seatOf s io (Function.update compute w
      { compute w with lthreads := (compute w).lthreads ++ [l] })) l
      fun v => { v with cnt := { v.cnt with compute := bump v.cnt.compute w } } := by
  refine (compute_acts (y := { compute w with lthreads := (compute w).lthreads ++ [l] })
    (fun m hm => ?_) fun m _ => rfl).congr ?_
  · rw [List.count_append, List.count_eq_zero (l := [l]).mpr (by simpa using hm), Nat.add_zero]
  · simp only [List.count_append, List.count_singleton_self]
    simp [seatOf, bump]

theorem seatOf_compute {y : ComputeSched} (hq : y.lthreads = (compute w).lthreads)
    (ho : y.pc.owned = (compute w).pc.owned) :
    seatOf s io (Function.update compute w y) = seatOf s io compute := by
  have h : ActsAt (seatOf s io compute) (seatOf s io (Function.update compute w y)) 0 _ :=
    compute_acts (fun m _ => by rw [hq]) fun m _ => by rw [ho]
  rw [hq, ho] at h
  exact Eq.trans h (by simp [seatOf])

end Workers

namespace World

variable {k : Bool} {R : Rules} {x x' : World} {l : LtId} {f : Sched → Sched} {F : Seat → Seat}

/-- The compute schedulers: those in use are listed, and those that have exited are
empty. -/
structure Computes (x : World) : Prop where
  unused : ∀ j, x.computeCount ≤ j → x.compute j = ComputeSched.init
  listed : ∀ j, j ∈ x.computeScheds ↔ j < x.computeCount ∧ (x.compute j).pc ≠ .exited
  nodup : x.computeScheds.Nodup
  idle : ∀ j, (x.compute j).pc = .exited → (x.compute j).lthreads = []

/-- What is invariant of a scheduler together with its workers. -/
structure Inv (k : Bool) (x : World) : Prop where
  seated : x.board.Seated k
  computes : x.Computes

/-! Turns that change no more than the scheduler's records -/

theorem modify_turn {g : Lt → Lt} (hg : ∀ lt, Lt.Alike lt (g lt)) :
    Turn R x.board (x.onSched (·.modify l g)).board :=
  Turn.note hg (modify_moves x.sched l g x.io x.compute)

theorem setBit_turn {b : LtSt} (hb : b.free = true) (he : b ≠ .expired) (hd : b ≠ .detach) :
    Turn R x.board (x.onSched (·.setBit l b)).board := by
  refine modify_turn fun lt => ⟨⟨fun b' hb' => ?_, rfl, rfl, rfl⟩, rfl, rfl, rfl, ?_, fun h => ?_⟩
  · have hne : b' ≠ b := by rintro rfl; rw [hb] at hb'; cases hb'
    simp [Lt.setBit, hne]
  · simp [Lt.setBit, hd.symm]
  · simpa [Lt.setBit, he.symm] using h

theorem clearBit_turn {b : LtSt} (hb : b.free = true) (hd : b ≠ .detach) :
    Turn R x.board (x.onSched (·.clearBit l b)).board := by
  refine modify_turn fun lt => ⟨⟨fun b' hb' => ?_, rfl, rfl, rfl⟩, rfl, rfl, rfl, ?_, fun h => ?_⟩
  · have hne : b' ≠ b := by rintro rfl; rw [hb] at hb'; cases hb'
    simp [Lt.clearBit, hne]
  · simp [Lt.clearBit, hd.symm]
  · by_cases hbe : b = .expired
    · simp [Lt.clearBit, hbe] at h
    · simpa [Lt.clearBit, Ne.symm hbe] using h

theorem detach_turn (hr : R x.board (.detach l)) : Turn R x.board (x.onSched (·.setBit l .detach)).board :=
  Turn.detach hr (setBit_moves x.sched l .detach x.io x.compute)

theorem signals_turns (hs : Signals x.sched (f x.sched)) : Turns R x.board (x.onSched f).board := by
  have heq : (x.onSched f).board =
      ⟨seatOf (f x.sched) x.io x.compute, x.cpu, x.sched.spawned, x.phase.expiring, x.dropped⟩ := by
    change (⟨_, _, (f x.sched).spawned, _, _⟩ : Board) = _
    rw [hs.spawned]
    rfl
  rw [heq]
  exact hs.turns

/-- The running lthread switches to the scheduler, from a call other than a join. -/
theorem suspend_turn (e : Entry) (hcpu : x.cpu = .run l) (hv : e.Valid x.seat l)
    (hr : ∀ c, e.toCall l = some c → R x.board c) (hm : Moves x.sched (f x.sched) l e.act)
    (hn : (f x.sched).spawned = x.sched.spawned) (hc : e.cpu l = .back l) : Turn R x.board (x.suspend l f).board := by
  have heq : (x.suspend l f).board =
      { x.board with seat := seatOf (f x.sched) x.io x.compute, cpu := e.cpu l } := by
    rw [hc]
    change (⟨_, _, (f x.sched).spawned, _, _⟩ : Board) = _
    rw [hn]
    rfl
  rw [heq]
  exact Turn.enter e hcpu hv hr (hm x.io x.compute)

theorem yielded_turn (hcpu : x.cpu = .run l) :
    Turn R x.board (x.suspend l fun s => (s.readyInsert l).lthreadYield l .yielded).board :=
  suspend_turn .yield hcpu trivial (fun c h => by cases h) ((readyInsert_moves _ l).trans (lthreadYield_moves _ l _)) rfl rfl

theorem lthreadSleep_turn (hcpu : x.cpu = .run l) (msecs : ℕ) :
    Turn R x.board (x.lthreadSleep l msecs).board := by
  unfold World.lthreadSleep
  split_ifs with hms
  · exact yielded_turn hcpu
  · exact suspend_turn (.sleep msecs _) hcpu hms (fun c h => by cases h)
      ((lthreadSchedSleep_moves _ l msecs).trans (setCtx_moves _ l _)) (by simp) rfl

theorem lthreadRenice_turns (hcpu : x.cpu = .run l) : Turns R x.board (x.lthreadRenice l).board := by
  have h1 : Turn R x.board (x.onSched (·.modify l fun lt => { lt with ops := lt.ops + 1 })).board :=
    modify_turn fun lt => ⟨⟨fun _ _ => rfl, rfl, rfl, rfl⟩, rfl, rfl, rfl, rfl, id⟩
  unfold World.lthreadRenice
  simp only
  split_ifs
  · exact Relation.ReflTransGen.single h1
  · exact (Relation.ReflTransGen.single h1).tail (yielded_turn hcpu)

theorem condWait_turn (hcpu : x.cpu = .run l) {c : Ctx} {i : CondId} {t : ℕ}
    (hc : c.cond = some (i, t)) (hstack : ∀ m t, c.cond = some (.sel (.stack m), t) → m = l) :
    Turn R x.board (x.suspend l fun s => (s.lthreadCondWait l i t).setCtx l c).board := by
  obtain ⟨u, hu⟩ := lthreadCondWait_moves x.sched l i t
  exact suspend_turn (.block c i t u) hcpu ⟨hc, hstack⟩ (fun c h => by cases h) (hu.trans (setCtx_moves _ l c)) (by simp) rfl

/-- The condition of a selector on the stack of the running lthread is empty. -/
theorem stack_blocked (h : x.board.Seated k) (hcpu : x.cpu = .run l) :
    x.sys.sched.blocked (.sel (.stack l)) = [] := by
  have hx : (x.seat l).lt.ctx = .running := (h.running l).mpr hcpu
  refine List.eq_nil_iff_forall_not_mem.mpr fun m hm => ?_
  obtain ⟨t, ht, -⟩ := (h.seats m).row.of_blocked (i := .sel (.stack l)) (count_ne_zero hm)
  obtain rfl := (h.seats m).stack l t ht
  replace hx : (x.board.seat l).lt.ctx = .running := hx
  rw [hx] at ht; cases ht

theorem call_chan {op : ChanOp} (hx : x.call l (.chan op) = .ok x') :
    x.sys.callable op ∧ ∃ sys r, x.sys.callOp l op = some (sys, r) ∧
      (r = none ∧ x' = { x with sys := sys, cpu := .back l } ∨ r ≠ none ∧ x' = { x with sys := sys }) := by
  unfold World.call at hx
  simp only at hx
  split_ifs at hx with hc
  refine ⟨hc, ?_⟩
  cases hop : x.sys.callOp l op with
  | none => rw [hop] at hx; cases hx
  | some p =>
    obtain ⟨sys, r⟩ := p
    rw [hop] at hx
    cases r with
    | none => exact ⟨sys, none, rfl, Or.inl ⟨rfl, (Except.ok.inj hx).symm⟩⟩
    | some v => exact ⟨sys, some v, rfl, Or.inr ⟨by simp, (Except.ok.inj hx).symm⟩⟩

theorem chan_call {op : ChanOp} (hx : x.call l (.chan op) = .ok x') :
    x.sys.callable op ∧ ∃ r, x.sys.callOp l op = some (x'.sys, r) := by
  obtain ⟨hc, sys, r, hop, ⟨-, rfl⟩ | ⟨-, rfl⟩⟩ := call_chan hx
  · exact ⟨hc, r, hop⟩
  · exact ⟨hc, r, hop⟩

theorem chan_turns (h : x.board.Seated k) (hcpu : x.cpu = .run l) {op : ChanOp} {sys : Sys} {r : Option ℤ}
    (hop : x.sys.callOp l op = some (sys, r)) :
    (r ≠ none → Turns R x.board { x with sys := sys }.board) ∧
      (r = none → Turns R x.board { x with sys := sys, cpu := .back l }.board) := by
  obtain ⟨b, hb, hcalls⟩ := Sys.callOp_calls hop
  rw [hb (stack_blocked h hcpu)] at hcalls
  rcases hcalls with ⟨hne, hs⟩ | ⟨rfl, -, s, hst, hs⟩
  · exact ⟨fun _ => signals_turns (f := fun _ => sys.sched) hs, fun h0 => absurd h0 hne⟩
  · refine ⟨fun h0 => absurd rfl h0, fun _ => ?_⟩
    have hstack (m t' : ℕ) (hm : (Ctx.selWait s op.msecs).cond = some (.sel (.stack m), t')) : m = l :=
      hst m (CondId.sel.inj (Prod.mk.inj (Option.some_inj.mp hm)).1)
    have hwait := condWait_turn (R := R) hcpu (c := .selWait s op.msecs) rfl hstack
    obtain ⟨sched, ch⟩ := sys
    obtain rfl : sched = _ := hs
    exact Relation.ReflTransGen.single hwait

theorem exec_turn (hcpu : x.cpu = .run l) (hr : R x.board (.exit l)) : Turn R x.board (x.exec l).board :=
  suspend_turn .exit hcpu trivial (fun _ h => Option.some_inj.mp h ▸ hr) ((setBit_moves _ l .exited).trans (lthreadYield_moves _ l .exited)) rfl rfl

theorem lthreadExit_cases {ptr : ℕ} (hx : x.lthreadExit l ptr = .ok x') :
    ∃ mem, x' = { x with exitValue := Function.update x.exitValue l ptr, mem := mem }.exec l ∧
      (mem = x.mem ∧ (ptr = 0 ∨ ∀ j, (x.sched.lt l).ltJoin = some j → (x.sched.lt j).ltExitPtr = none) ∨
        ptr ≠ 0 ∧ ∃ j a, (x.sched.lt l).ltJoin = some j ∧ (x.sched.lt j).freed = false ∧
          (x.sched.lt j).ltExitPtr = some a ∧ mem = Function.update x.mem a ptr) := by
  unfold World.lthreadExit at hx
  simp only at hx
  cases hj : (x.sched.lt l).ltJoin with
  | none =>
    rw [show ({ x with exitValue := Function.update x.exitValue l ptr } : World).sched = x.sched from rfl, hj] at hx
    exact ⟨_, (Except.ok.inj hx).symm, Or.inl ⟨rfl, Or.inr fun j h0 => by cases h0⟩⟩
  | some j =>
    rw [show ({ x with exitValue := Function.update x.exitValue l ptr } : World).sched = x.sched from rfl, hj] at hx
    simp only at hx
    by_cases hf : (x.sched.lt j).freed = true
    · rw [if_pos hf] at hx; cases hx
    · rw [if_neg hf] at hx
      cases hp : (x.sched.lt j).ltExitPtr with
      | none =>
        rw [hp] at hx
        refine ⟨_, (Except.ok.inj hx).symm, Or.inl ⟨rfl, Or.inr fun j' h0 => ?_⟩⟩
        rw [← Option.some_inj.mp h0, hp]
      | some a =>
        rw [hp] at hx
        refine ⟨_, (Except.ok.inj hx).symm, ?_⟩
        by_cases h0 : ptr = 0
        · exact Or.inl ⟨if_pos h0, Or.inl h0⟩
        · exact Or.inr ⟨h0, j, a, rfl, Bool.eq_false_iff.mpr hf, hp, if_neg h0⟩

theorem lthreadExit_turn (hcpu : x.cpu = .run l) (hr : R x.board (.exit l)) {ptr : ℕ} (hx : x.lthreadExit l ptr = .ok x') :
    Turn R x.board x'.board := by
  obtain ⟨mem, rfl, -⟩ := lthreadExit_cases hx
  exact exec_turn (x := { x with exitValue := Function.update x.exitValue l ptr, mem := mem }) hcpu hr

theorem usable_ok {m : LtId} {u : Unit} (h : x.usable m = .ok u) :
    m < x.sched.spawned ∧ (x.sched.lt m).freed = false := by
  unfold usable at h
  split_ifs at h with h1 h2
  exact ⟨not_le.mp h1, Bool.eq_false_iff.mpr h2⟩

/-- What `lthread_join` stores before it looks at the state of its target. -/
def joinStored (l target : LtId) (ptr : Option ℕ) (s : Sched) : Sched :=
  (s.modify target ({ · with ltJoin := some l })).modify l ({ · with ltExitPtr := ptr })

theorem joinStored_exited (s : Sched) (l target : LtId) (ptr : Option ℕ) :
    (joinStored l target ptr s).has target .exited = s.has target .exited := by
  simp only [joinStored, Sched.has, modify_lt]
  split_ifs <;> simp_all

theorem lthreadJoin_cases {target : LtId} {ptr : Option ℕ} {t : ℕ}
    (h : x.lthreadJoin l target ptr t = .ok x') :
    target < x.sched.spawned ∧ (x.sched.lt target).freed = false ∧
    (x.sched.has target .exited = true ∧
      x' = (x.onSched fun s => (joinStored l target ptr s).lthreadFree target).returnValue l (-1) ∨
     x.sched.has target .exited = false ∧ x' = x.suspend l fun s =>
      ((joinStored l target ptr s).lthreadSchedBusySleep l t).setCtx l (.joining target t)) := by
  obtain ⟨u, hu, h⟩ := except_bind_ok h
  refine ⟨(usable_ok hu).1, (usable_ok hu).2, ?_⟩
  have hhas : (x.onSched (joinStored l target ptr)).sched.has target .exited =
      x.sched.has target .exited := joinStored_exited x.sched l target ptr
  change (if (x.onSched (joinStored l target ptr)).sched.has target .exited = true then _ else _) = _ at h
  rw [hhas] at h
  split_ifs at h with hexit
  · exact Or.inl ⟨hexit, (Except.ok.inj h).symm⟩
  · exact Or.inr ⟨Bool.eq_false_iff.mpr hexit, (Except.ok.inj h).symm⟩

/-- A join stores a pointer to the joiner in its target, and switches to the scheduler
unless the target has exited. -/
theorem lthreadJoin_turn (h : x.board.Seated k) (hcpu : x.cpu = .run l) {target : LtId} {ptr : Option ℕ}
    {t : ℕ} (hr : R x.board (.join l target)) (hx : x.lthreadJoin l target ptr t = .ok x') : Turn R x.board x'.board := by
  have hm₁ := modify_moves x.sched target ({ · with ltJoin := some l }) x.io x.compute
  have hm₂ := modify_moves (x.sched.modify target ({ · with ltJoin := some l })) l
    ({ · with ltExitPtr := ptr }) x.io x.compute
  obtain ⟨hlt, hf, ⟨hexit, rfl⟩ | ⟨hexit, rfl⟩⟩ := lthreadJoin_cases hx
  · -- the target is freed at once
    have hne : target ≠ l := by
      rintro rfl
      have hctx := (h.seats target).exited.mp hexit
      rw [(h.running target).mpr hcpu] at hctx; cases hctx
    obtain ⟨τ, hτ, hm⟩ := hm₁.swap hne hm₂
    exact Turn.joinExited hr hcpu hf hexit hτ
      ((hm.trans (lthreadFree_moves _ target x.io x.compute)).congr rfl)
  · obtain ⟨u, hu⟩ := lthreadSchedBusySleep_moves (joinStored l target ptr x.sched) l t
    have hm := hm₂.trans (hu.trans (setCtx_moves _ l (.joining target t)) x.io x.compute)
    have hn : (((joinStored l target ptr x.sched).lthreadSchedBusySleep l t).setCtx l
        (.joining target t)).spawned = x.sched.spawned := by simp [lthreadSchedBusySleep, joinStored]
    have heq : (x.suspend l fun s => ((joinStored l target ptr s).lthreadSchedBusySleep l t).setCtx l
        (.joining target t)).board = { x.board with
          seat := seatOf (((joinStored l target ptr x.sched).lthreadSchedBusySleep l t).setCtx l
            (.joining target t)) x.io x.compute, cpu := .back l } := by
      change (⟨_, _, (((joinStored l target ptr x.sched).lthreadSchedBusySleep l t).setCtx l
        (.joining target t)).spawned, _, _⟩ : Board) = _
      rw [hn]
      rfl
    rw [heq]
    exact Turn.join hr hcpu hlt hf hexit hm₁ hm

theorem lthreadCreate_turn : Turn R x.board (x.onSched (·.lthreadCreate)).board :=
  Turn.create (lthreadCreate_moves x.sched x.io x.compute)

/-- `_lthread_sched_event` up to its `_lthread_sched_sleep`. -/
def eventStored (l : LtId) (fd : Fd) (e : LtEvent) (s : Sched) : Sched :=
  { (s.setBit l (waitBit e)).modify l ({ · with fdWait := fdKey fd e }) with waiting := l :: s.waiting }

theorem lthreadSchedEvent_cases {fd : Fd} {e : LtEvent} {t : ℕ}
    (h : x.lthreadSchedEvent l fd e t = .ok x') :
    (∀ e, x.sched.has l (waitBit e) = false) ∧
    (∀ m ∈ x.sched.waiting, (x.sched.lt m).fdWait ≠ fdKey fd e) ∧
    (t = u64 - 1 ∧ x' = { x.onSched (eventStored l fd e) with poller := x.poller.register fd e } ∨
     t ≠ u64 - 1 ∧ x' =
      { x.suspend l fun s => ((eventStored l fd e s).lthreadSchedSleep l t).setCtx l (.schedEvent fd e t) with
        poller := x.poller.register fd e }) := by
  unfold lthreadSchedEvent at h
  split_ifs at h with h1 h2 h3
  all_goals
    simp only [Bool.or_eq_true, not_or, Bool.not_eq_true] at h1
    refine ⟨fun e => by cases e <;> simp [waitBit, h1], fun m hm hk => h2 ⟨m, hm, hk⟩, ?_⟩
  · exact Or.inl ⟨h3, (Except.ok.inj h).symm⟩
  · exact Or.inr ⟨h3, (Except.ok.inj h).symm⟩

theorem eventStored_moves (s : Sched) (l : LtId) (fd : Fd) (e : LtEvent) :
    Moves s (eventStored l fd e s) l fun v =>
      addWaiting (onLt (fun lt => { lt.setBit (waitBit e) with fdWait := fdKey fd e }) v) :=
  ((setBit_moves s l (waitBit e)).trans (modify_moves _ l ({ · with fdWait := fdKey fd e }))).trans
    (waitingInsert_moves _ l)

theorem lthreadSchedEvent_turn (hcpu : x.cpu = .run l) {fd : Fd} {e : LtEvent} {t : ℕ}
    (hr : R x.board (.wait l fd e)) (ht : t ≠ u64 - 1) (hx : x.lthreadSchedEvent l fd e t = .ok x') : Turn R x.board x'.board := by
  obtain ⟨-, hkey, ⟨h1, -⟩ | ⟨-, rfl⟩⟩ := lthreadSchedEvent_cases hx
  · exact absurd h1 ht
  · have hm := ((eventStored_moves x.sched l fd e).trans (lthreadSchedSleep_moves _ l t)).trans
      (setCtx_moves _ l (.schedEvent fd e t))
    exact suspend_turn (f := fun s => ((eventStored l fd e s).lthreadSchedSleep l t).setCtx l
      (.schedEvent fd e t)) (.event fd e t _) hcpu (fun m hm => hkey m (mem_of_count hm))
      (fun _ h => Option.some_inj.mp h ▸ hr) hm
      (by simp [eventStored]) rfl

theorem lthreadDeschedEvent_spawned (s : Sched) (fd : Fd) (e : LtEvent) :
    (s.lthreadDeschedEvent fd e).1.spawned = s.spawned := by
  unfold lthreadDeschedEvent
  split <;> simp

/-- A half of `lthread_close` finds nobody, or makes the lthread it finds ready. -/
theorem closeEvent_cases {fd : Fd} {e : LtEvent} (h : x.closeEvent fd e = .ok x') :
    x' = x ∧ (∀ m ∈ x.sched.waiting, (x.sched.lt m).fdWait ≠ fdKey fd e) ∨
    ∃ m s', x.sched.lthreadDeschedEvent fd e = (s', some m) ∧ m ∈ x.sched.waiting ∧
      (x.sched.lt m).fdWait = fdKey fd e ∧ Moves x.sched s' m (deschedSleep ∘ dropWaiting) ∧
      s'.spawned = x.sched.spawned ∧
      x' = (x.onSched fun _ => s'.readyInsert m).onSched (·.setBit m .fdeof) := by
  unfold closeEvent at h
  rcases lthreadDeschedEvent_cases x.sched fd e with ⟨hd, hnone⟩ | ⟨m, s', hd, hmem, hkey, hm⟩
  · rw [hd] at h
    exact Or.inl ⟨(Except.ok.inj h).symm, hnone⟩
  · simp only [hd] at h
    split_ifs at h
    have hn := lthreadDeschedEvent_spawned x.sched fd e
    rw [hd] at hn
    exact Or.inr ⟨m, s', hd, hmem, hkey, hm, hn, (Except.ok.inj h).symm⟩

theorem closeEvent_turns {fd : Fd} {e : LtEvent} (hr : R x.board (.close fd)) (hx : x.closeEvent fd e = .ok x') :
    Turns R x.board x'.board := by
  rcases closeEvent_cases hx with ⟨rfl, -⟩ | ⟨m, s', hd, hmem, hkey, hm, hn, rfl⟩
  · exact Relation.ReflTransGen.refl
  · have heq : (x.onSched fun _ => s'.readyInsert m).board =
        { x.board with seat := seatOf (s'.readyInsert m) x.io x.compute } := by
      change (⟨_, _, s'.spawned, _, _⟩ : Board) = _
      rw [hn]
      rfl
    have h1 : Turn R x.board (x.onSched fun _ => s'.readyInsert m).board := by
      rw [heq]
      exact Turn.close hr (count_ne_zero hmem) hkey (hm.trans (readyInsert_moves s' m) x.io x.compute)
    exact (Relation.ReflTransGen.single h1).tail (setBit_turn rfl (by simp) (by simp))

theorem lthreadClose_turns {fd : Fd} (hr : ∀ b, R b (.close fd)) (hx : x.lthreadClose l fd = .ok x') :
    Turns R x.board x'.board := by
  obtain ⟨x₁, h₁, hx⟩ := except_bind_ok hx
  obtain ⟨x₂, h₂, hx⟩ := except_bind_ok hx
  obtain rfl := Except.ok.inj hx
  exact ((closeEvent_turns (hr _) h₁).trans (closeEvent_turns (hr _) h₂)).tail
    (clearBit_turn (x := x₂) (l := l) (b := .fdeof) rfl (by simp))

theorem lthreadWakeup_cases {target : LtId} (hx : x.lthreadWakeup target = .ok x') :
    target < x.sched.spawned ∧ (x.sched.lt target).freed = false ∧
      (x.sched.has target .sleeping = false ∧ x' = x ∨
        x.sched.has target .sleeping = true ∧
          x' = x.onSched fun s => (s.readyInsert target).lthreadDeschedSleep target) := by
  unfold lthreadWakeup at hx
  obtain ⟨u, hu, hx⟩ := except_bind_ok hx
  refine ⟨(usable_ok hu).1, (usable_ok hu).2, ?_⟩
  split_ifs at hx with hs
  · exact Or.inr ⟨hs, (Except.ok.inj hx).symm⟩
  · exact Or.inl ⟨Bool.eq_false_iff.mpr hs, (Except.ok.inj hx).symm⟩

theorem lthreadWakeup_turns {target : LtId}
    (hok : x.sched.has target .sleeping = true → ∃ t, (x.sched.lt target).ctx = .slept t)
    (hx : x.lthreadWakeup target = .ok x') : Turns R x.board x'.board := by
  obtain ⟨-, -, ⟨-, rfl⟩ | ⟨hs, rfl⟩⟩ := lthreadWakeup_cases hx
  · exact Relation.ReflTransGen.refl
  · obtain ⟨t, ht⟩ := hok hs
    have hm := (readyInsert_moves x.sched target).trans (lthreadDeschedSleep_moves _ target) x.io x.compute
    have heq : (x.onSched fun s => (s.readyInsert target).lthreadDeschedSleep target).board =
        { x.board with seat := seatOf ((x.sched.readyInsert target).lthreadDeschedSleep target) x.io x.compute } := by
      change (⟨_, _, ((x.sched.readyInsert target).lthreadDeschedSleep target).spawned, _, _⟩ : Board) = _
      rw [lthreadDeschedSleep_spawned]
      rfl
    rw [heq]
    exact Relation.ReflTransGen.single (Turn.wakeup ht hs hm)

theorem lthreadIo_turn (hcpu : x.cpu = .run l) (e : LtEvent) : Turn R x.board (x.lthreadIo l e).board := by
  have hm := ((setBit_moves x.sched l (waitIoBit e)).trans (busyInsert_moves _ l)).trans
    (setCtx_moves _ l (.ioWait e x.ioSelector)) x.io x.compute
  exact Turn.enter (.io e x.ioSelector) hcpu trivial (fun c h => by cases h) (hm.trans (ioInsert_acts _))

theorem computeEnqueue_turn (hcpu : x.cpu = .run l) (j : ℕ) : Turn R x.board (x.computeEnqueue l j).board := by
  have hm := (setBit_moves x.sched l .pendingRuncompute).trans
    (modify_moves _ l ({ · with computeSched := some j, ctx := .compute j })) x.io x.compute
  exact Turn.enter (.compute j) hcpu trivial (fun c h => by cases h) (hm.trans (computeInsert_acts _))

/-- `lthread_compute_begin` returns at once, or enqueues the lthread at a compute
scheduler, which may be a new one. -/
theorem lthreadComputeBegin_cases (x : World) (l : LtId) (created : Bool) :
    x.lthreadComputeBegin l created = x.returnValue l (-1) ∨
    (∃ j ∈ x.computeScheds, x.lthreadComputeBegin l created = x.computeEnqueue l j) ∨
    x.lthreadComputeBegin l created = { x with
      compute := Function.update x.compute x.computeCount ComputeSched.init
      computeScheds := x.computeCount :: x.computeScheds
      computeCount := x.computeCount + 1 }.computeEnqueue l x.computeCount := by
  unfold World.lthreadComputeBegin
  split
  case h_1 j hj => exact Or.inr (Or.inl ⟨j, List.mem_of_find?_eq_some hj, rfl⟩)
  case h_2 =>
    split_ifs
    · exact Or.inr (Or.inr rfl)
    · split
      case h_1 => exact Or.inl rfl
      case h_2 j rest heq => exact Or.inr (Or.inl ⟨j, by rw [heq]; exact List.mem_cons_self, rfl⟩)

theorem lthreadComputeBegin_turns (h : x.Inv k) (hcpu : x.cpu = .run l) (created : Bool) :
    Turns R x.board (x.lthreadComputeBegin l created).board := by
  rcases lthreadComputeBegin_cases x l created with heq | ⟨j, -, heq⟩ | heq
  · rw [heq]; exact Relation.ReflTransGen.refl
  · rw [heq]; exact Relation.ReflTransGen.single (computeEnqueue_turn hcpu j)
  · -- the new compute scheduler was empty before, too
    have hself : Function.update x.compute x.computeCount ComputeSched.init = x.compute := by
      rw [← h.computes.unused x.computeCount le_rfl, Function.update_eq_self]
    rw [heq, hself]
    exact Relation.ReflTransGen.single (computeEnqueue_turn
      (x := { x with computeScheds := x.computeCount :: x.computeScheds, computeCount := x.computeCount + 1 })
      hcpu x.computeCount)

end World

end Lthr

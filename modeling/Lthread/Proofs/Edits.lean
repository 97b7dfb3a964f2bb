import Lthread.Proofs.WorldCancel

/-! What the calls of an lthread write. A call is a chain of writes of a few kinds, after which
it returns or puts its lthread to sleep; what a call leaves alone is read off these kinds. -/

namespace Lthr

open Sched

/-- The calls on condition variables and on channels. -/
def Op.waitsOn : Op → Bool
  | .condWait _ _ | .condSignal _ | .condBroadcast _ | .chan _ => true
  | _ => false

/-- How long the call sleeps at most; 0 if it does not. -/
def Op.msecs : Op → ℕ
  | .sleep n => n
  | .condWait _ t | .join _ _ t | .schedEvent _ _ t => t
  | .chan op => op.msecs
  | _ => 0

/-- The calls that register or give up a descriptor. -/
def Op.registers : Op → Bool
  | .schedEvent _ _ _ | .close _ | .cancel _ => true
  | _ => false

namespace World

variable {x x' : World} {l : LtId} {op : Op} {b : Bool}

/-- A write to the record of `m` by a call of `l`. -/
structure Writes (l : LtId) (op : Op) (m : LtId) (v w : Lt) : Prop where
  sleepUsecs : w.sleepUsecs = v.sleepUsecs
  new : w.state .new = v.state .new
  eof : (∀ fd, op ≠ .close fd) → w.state .fdeof = v.state .fdeof
  ctx : w.ctx = v.ctx ∨ m = l ∧ (op.waitsOn = false → w.ctx.cond = none)

/-- One write of a call of `l`; the Boolean says whether it may wake lthreads. -/
inductive Edit (l : LtId) (op : Op) (x : World) : Bool → World → Prop
  | lt {b : Bool} (m : LtId) (f : Lt → Lt) (hf : ∀ v, Writes l op m v (f v)) : Edit l op x b (x.onSched (·.modify m f))
  | lists {b : Bool} (blocked : CondId → List LtId) (ch : Chans) (hop : op.waitsOn = true) :
      Edit l op x b { x with sys := { x.sys with sched := { x.sys.sched with blocked := blocked }, ch := ch } }
  | wait {b : Bool} : Edit l op x b (x.onSched fun s => { s with waiting := l :: s.waiting })
  | unwait {b : Bool} (m : LtId) : Edit l op x b (x.onSched fun s => { s with waiting := s.waiting.erase m })
  | busy {b : Bool} : Edit l op x b (x.onSched fun s => { s with busy := l :: s.busy })
  | poller {b : Bool} (p : Poller) (hop : op.registers = true) : Edit l op x b { x with poller := p }
  | exit {b : Bool} (values : LtId → ℕ) (mem : ℕ → ℕ) (hop : ∃ ptr, op = .exit ptr) :
      Edit l op x b { x with exitValue := values, mem := mem }
  | ret {b : Bool} (r : ℤ) : Edit l op x b (x.returnValue l r)
  | io {b : Bool} (io : ℕ → IoWorker) (w : ℕ) (hop : ∃ e, op = .io e) : Edit l op x b { x with io := io, ioSelector := w }
  | compute {b : Bool} (compute : ℕ → ComputeSched) (scheds : List ℕ) (n : ℕ) (hop : ∃ c, op = .computeBegin c) :
      Edit l op x b { x with compute := compute, computeScheds := scheds, computeCount := n }
  | switch {b : Bool} (c : Cpu) (hc : c.on = some l) : Edit l op x b { x with cpu := c }
  | ready (m : LtId) : Edit l op x true (x.onSched (·.readyInsert m))
  | desched (m : LtId) : Edit l op x true (x.onSched (·.lthreadDeschedSleep m))

def Edits (l : LtId) (op : Op) (b : Bool) : World → World → Prop := Relation.ReflTransGen (Edit l op · b ·)

/-- What every write keeps, a chain of them keeps. -/
theorem Edits.keeps {P : World → World → Prop} (hrefl : ∀ x, P x x) (htrans : ∀ {a b c}, P a b → P b c → P a c)
    (hedit : ∀ {x y}, Edit l op x b y → P x y) (h : Edits l op b x x') : P x x' := by
  change Relation.ReflTransGen _ x x' at h
  induction h with
  | refl => exact hrefl x
  | tail _ he ih => exact htrans ih (hedit he)

/-- A call makes a new lthread, or some writes, or it goes to sleep after some. -/
inductive Calls (l : LtId) (op : Op) (x : World) : World → Prop
  | create (hop : op = .create) : Calls l op x (x.onSched (·.lthreadCreate))
  | writes {x' : World} (h : Edits l op true x x') : Calls l op x x'
  | sleeps {y : World} (c : Ctx) (h : Edits l op false x y) (hc : op.waitsOn = false → c.cond = none) :
      Calls l op x (y.suspend l fun s => (s.lthreadSchedSleep l op.msecs).setCtx l c)

theorem Writes.setBit {m : LtId} {c : LtSt} (hnew : c ≠ .new) (heof : c ≠ .fdeof) (v : Lt) :
    Writes l op m v (v.setBit c) :=
  ⟨rfl, Function.update_of_ne hnew.symm .., fun _ => Function.update_of_ne heof.symm .., Or.inl rfl⟩

theorem Writes.clearBit {m : LtId} {c : LtSt} (hnew : c ≠ .new) (heof : c ≠ .fdeof) (v : Lt) :
    Writes l op m v (v.clearBit c) :=
  ⟨rfl, Function.update_of_ne hnew.symm .., fun _ => Function.update_of_ne heof.symm .., Or.inl rfl⟩

theorem yield_edits (h : Edits l op true x x') {c : Ctx} (hc : c.cond = none) :
    Edits l op true x (x'.suspend l (·.lthreadYield l c)) :=
  (h.tail (.lt l ({ · with ops := 0, ctx := c }) fun _ => ⟨rfl, rfl, fun _ => rfl, Or.inr ⟨rfl, fun _ => hc⟩⟩)).tail
    (.switch (.back l) rfl)

theorem exec_edits (h : Edits l op true x x') : Edits l op true x (x'.exec l) :=
  yield_edits (h.tail (.lt l (·.setBit .exited) (Writes.setBit (by simp) (by simp)))) rfl

theorem signals_edits (hop : op.waitsOn = true) {s : Sched} (h : Signals x.sched s) :
    Edits l op true x (x.onSched fun _ => s) := by
  induction h with
  | refl => exact Relation.ReflTransGen.refl
  | @tail s c _ ih =>
    unfold lthreadCondSignal
    split
    · exact ih
    · next m rest _ =>
      exact ((ih.tail (.lists (Function.update s.blocked c rest) x.sys.ch hop)).tail (.desched m)).tail (.ready m)

theorem busySleep_edits (h : Edits l op false x x') :
    Edits l op false x (x'.onSched fun s => ({ s with busy := l :: s.busy } : Sched).setBit l .busy) :=
  (h.tail .busy).tail (.lt l (·.setBit .busy) (Writes.setBit (by simp) (by simp)))

theorem deschedEvent_edits (h : Edits l op true x x') (fd : Fd) (e : LtEvent) :
    Edits l op true x (x'.onSched fun _ => (x'.sched.lthreadDeschedEvent fd e).1) := by
  unfold lthreadDeschedEvent
  split
  · exact h
  · next m _ => exact (h.tail (.unwait m)).tail (.desched m)

theorem cancelEvent_edits {target : LtId} (h : Edits l (.cancel target) true x x') {m : LtId} {y : World}
    (hy : x'.lthreadCancelEvent m = .ok y) : Edits l (.cancel target) true x y := by
  obtain ⟨C, p, hC, -, rfl⟩ := lthreadCancelEvent_cases hy
  have hclear : Edits l (.cancel target) true x (x'.onSched (·.modify m C)) := by
    refine h.tail (.lt m C fun v => ?_)
    rcases hC with rfl | ⟨e, rfl⟩
    · exact ⟨rfl, rfl, fun _ => rfl, Or.inl rfl⟩
    · exact Writes.clearBit (by cases e <;> simp [waitBit]) (by cases e <;> simp [waitBit]) v
  have hfd {z : World} (hz : Edits l (.cancel target) true x z) :
      Edits l (.cancel target) true x { z.onSched (·.modify m ({ · with fdWait := -1 })) with poller := p } :=
    (hz.tail (.lt m ({ · with fdWait := -1 }) fun _ => ⟨rfl, rfl, fun _ => rfl, Or.inl rfl⟩)).tail
      (.poller p rfl)
  by_cases hk : 0 ≤ (x'.sched.lt m).fdWait
  · have heq : eventCancelled m C (x'.sched.lt m).fdWait x'.sched =
        ((x'.sched.modify m C).lthreadDeschedEvent (fdOnly (x'.sched.lt m).fdWait)
          (fdEvent (x'.sched.lt m).fdWait)).1.modify m ({ · with fdWait := -1 }) := by rw [eventCancelled, if_pos hk]
    change Edits _ _ _ x { x'.onSched (fun _ => eventCancelled m C (x'.sched.lt m).fdWait x'.sched) with poller := p }
    rw [heq]
    exact hfd (deschedEvent_edits hclear _ _)
  · have heq : eventCancelled m C (x'.sched.lt m).fdWait x'.sched =
        (x'.sched.modify m C).modify m ({ · with fdWait := -1 }) := by rw [eventCancelled, if_neg hk]
    change Edits _ _ _ x { x'.onSched (fun _ => eventCancelled m C (x'.sched.lt m).fdWait x'.sched) with poller := p }
    rw [heq]
    exact hfd hclear

theorem closeEvent_edits {fd : Fd} {e : LtEvent} (h : Edits l (.close fd) true x x') {y : World}
    (hy : x'.closeEvent fd e = .ok y) : Edits l (.close fd) true x y := by
  rcases closeEvent_cases hy with ⟨rfl, -⟩ | ⟨m, s', hd, -, -, -, -, rfl⟩
  · exact h
  · have hs := deschedEvent_edits h fd e
    rw [hd] at hs
    exact (hs.tail (.ready m)).tail (.lt m (·.setBit .fdeof)
      fun _ => ⟨rfl, rfl, fun hne => absurd rfl (hne fd), Or.inl rfl⟩)

theorem computeEnqueue_edits {c : Bool} (h : Edits l (.computeBegin c) true x x') (j : ℕ) :
    Edits l (.computeBegin c) true x (x'.computeEnqueue l j) := by
  have hbit := h.tail (.lt l (·.setBit .pendingRuncompute) (Writes.setBit (by simp) (by simp)))
  have hctx := hbit.tail (.lt l ({ · with computeSched := some j, ctx := .compute j })
    fun _ => ⟨rfl, rfl, fun _ => rfl, Or.inr ⟨rfl, fun _ => rfl⟩⟩)
  exact (hctx.tail (.compute (Function.update x'.compute j
    { x'.compute j with lthreads := (x'.compute j).lthreads ++ [l] }) x'.computeScheds x'.computeCount ⟨c, rfl⟩)).tail
    (.switch (.leaving l) rfl)

/-- The writes of every call. -/
theorem call_edits (hx : x.call l op = .ok x') : Calls l op x x' := by
  have hrefl {o : Op} {b : Bool} : Edits l o b x x := Relation.ReflTransGen.refl
  unfold World.call at hx
  cases op with
  | create =>
    obtain rfl := Except.ok.inj hx
    exact .create rfl
  | sleep msecs =>
    obtain rfl := Except.ok.inj hx
    unfold lthreadSleep
    split_ifs
    · exact .writes (yield_edits (hrefl.tail (.ready l)) rfl)
    · exact .sleeps (.slept msecs) hrefl fun _ => rfl
  | renice =>
    obtain rfl := Except.ok.inj hx
    have hops := (hrefl (o := .renice) (b := true)).tail (.lt l (fun lt => { lt with ops := lt.ops + 1 })
      fun _ => ⟨rfl, rfl, fun _ => rfl, Or.inl rfl⟩)
    unfold lthreadRenice
    simp only
    split_ifs
    · exact .writes hops
    · exact .writes (yield_edits (hops.tail (.ready l)) rfl)
  | condWait c t =>
    obtain rfl := Except.ok.inj hx
    have hlists := (hrefl (o := .condWait c t) (b := false)).tail
      (.lists (Function.update x.sched.blocked (.user c) (x.sched.blocked (.user c) ++ [l])) x.sys.ch rfl)
    exact @Calls.sleeps l (.condWait c t) x _ (.condWait (.user c) t) (busySleep_edits hlists) nofun
  | condSignal c =>
    obtain rfl := Except.ok.inj hx
    exact .writes (signals_edits rfl ((Signals.refl _).tail _))
  | condBroadcast c =>
    obtain rfl := Except.ok.inj hx
    exact .writes (signals_edits rfl (lthreadCondBroadcast_signals _ _))
  | chan op =>
    obtain ⟨-, ⟨sched, ch⟩, r, hop, hx'⟩ := call_chan (l := l) hx
    obtain ⟨b, -, ⟨hr, hs⟩ | ⟨rfl, -, s, -, heq⟩⟩ := Sys.callOp_calls hop
    · obtain rfl : x' = { x with sys := ⟨sched, ch⟩ } := (hx'.resolve_left fun h0 => hr h0.1).2
      have hlists := (hrefl (o := .chan op) (b := true)).tail (.lists b ch rfl)
      exact .writes (hlists.trans (signals_edits (x := { x with sys := ⟨{ x.sched with blocked := b }, ch⟩ }) rfl hs))
    · obtain rfl : x' = { x with sys := ⟨sched, ch⟩, cpu := .back l } := (hx'.resolve_right fun h0 => h0.1 rfl).2
      obtain rfl : sched = _ := heq
      have hlists := (hrefl (o := .chan op) (b := false)).tail
        (.lists (Function.update b (.sel s) (b (.sel s) ++ [l])) ch rfl)
      exact @Calls.sleeps l (.chan op) x _ (.selWait s op.msecs) (busySleep_edits hlists) nofun
  | join target ptr t =>
    have hstored {b : Bool} : Edits l (.join target ptr t) b x (x.onSched (joinStored l target ptr)) :=
      (hrefl.tail (.lt target ({ · with ltJoin := some l }) fun _ => ⟨rfl, rfl, fun _ => rfl, Or.inl rfl⟩)).tail
        (.lt l ({ · with ltExitPtr := ptr }) fun _ => ⟨rfl, rfl, fun _ => rfl, Or.inl rfl⟩)
    obtain ⟨-, -, ⟨-, rfl⟩ | ⟨-, rfl⟩⟩ := lthreadJoin_cases hx
    · exact .writes ((hstored.tail (.lt target ({ · with freed := true })
        fun _ => ⟨rfl, rfl, fun _ => rfl, Or.inl rfl⟩)).tail (.ret (-1)))
    · exact @Calls.sleeps l (.join target ptr t) x _ (.joining target t) (busySleep_edits hstored) fun _ => rfl
  | exit ptr =>
    obtain ⟨mem, rfl, -⟩ := lthreadExit_cases hx
    exact .writes (exec_edits (hrefl.tail (.exit (Function.update x.exitValue l ptr) mem ⟨ptr, rfl⟩)))
  | finish =>
    obtain rfl := Except.ok.inj hx
    exact .writes (exec_edits hrefl)
  | detach =>
    obtain rfl := Except.ok.inj hx
    exact .writes (hrefl.tail (.lt l (·.setBit .detach) (Writes.setBit (by simp) (by simp))))
  | detach2 target =>
    obtain ⟨u, -, hx⟩ := except_bind_ok hx
    obtain rfl := Except.ok.inj hx
    exact .writes (hrefl.tail (.lt target (·.setBit .detach) (Writes.setBit (by simp) (by simp))))
  | cancel target =>
    obtain ⟨-, -, x₂, h₂, hx'⟩ := lthreadCancel_cases hx
    have hmark := ((hrefl (o := .cancel target) (b := true)).tail (.lt target (·.setBit .cancelled)
      (Writes.setBit (by simp) (by simp)))).tail (.desched target)
    have hevent := cancelEvent_edits hmark h₂
    rcases hx' with ⟨rfl, -⟩ | ⟨rfl, -⟩
    · exact .writes hevent
    · exact .writes (hevent.tail (.ready target))
  | wakeup target =>
    obtain ⟨-, -, ⟨-, rfl⟩ | ⟨-, rfl⟩⟩ := lthreadWakeup_cases hx
    · exact .writes hrefl
    · exact .writes ((hrefl.tail (.ready target)).tail (.desched target))
  | schedEvent fd e t =>
    have hstored {b : Bool} : Edits l (.schedEvent fd e t) b x
        { x.onSched (eventStored l fd e) with poller := x.poller.register fd e } :=
      (((hrefl.tail (.lt l (·.setBit (waitBit e)) (Writes.setBit (by cases e <;> simp [waitBit])
        (by cases e <;> simp [waitBit])))).tail (.lt l ({ · with fdWait := fdKey fd e })
        fun _ => ⟨rfl, rfl, fun _ => rfl, Or.inl rfl⟩)).tail .wait).tail
        (.poller (x.poller.register fd e) rfl)
    obtain ⟨-, -, ⟨-, rfl⟩ | ⟨-, rfl⟩⟩ := lthreadSchedEvent_cases hx
    · exact .writes hstored
    · exact @Calls.sleeps l (.schedEvent fd e t) x _ (.schedEvent fd e t) hstored fun _ => rfl
  | close fd =>
    obtain ⟨x₁, h₁, hx⟩ := except_bind_ok hx
    obtain ⟨x₂, h₂, hx⟩ := except_bind_ok hx
    obtain rfl := Except.ok.inj hx
    have hboth := closeEvent_edits (closeEvent_edits hrefl h₁) h₂
    exact .writes ((hboth.tail (.lt l (·.clearBit .fdeof)
      fun _ => ⟨rfl, rfl, fun hne => absurd rfl (hne fd), Or.inl rfl⟩)).tail
        (.poller (x₂.poller.close fd) rfl))
  | io e =>
    obtain rfl := Except.ok.inj hx
    have hbit := (hrefl (o := .io e) (b := true)).tail (.lt l (·.setBit (waitIoBit e))
      (Writes.setBit (by cases e <;> simp [waitIoBit]) (by cases e <;> simp [waitIoBit])))
    have hctx := (hbit.tail .busy).tail (.lt l ({ · with ctx := .ioWait e x.ioSelector })
      fun _ => ⟨rfl, rfl, fun _ => rfl, Or.inr ⟨rfl, fun _ => rfl⟩⟩)
    exact .writes ((hctx.tail (.io (Function.update x.io x.ioSelector ((x.io x.ioSelector).insert l))
      ((x.ioSelector + 1) % x.ioWorkers) ⟨e, rfl⟩)).tail (.switch (.ioAdd l x.ioSelector) rfl))
  | computeBegin c =>
    obtain rfl := Except.ok.inj hx
    rcases lthreadComputeBegin_cases x l c with heq | ⟨j, -, heq⟩ | heq
    · rw [heq]
      exact .writes (hrefl.tail (.ret (-1)))
    · rw [heq]
      exact .writes (computeEnqueue_edits hrefl j)
    · rw [heq]
      exact .writes (computeEnqueue_edits (hrefl.tail (.compute _ _ _ ⟨c, rfl⟩)) _)

end World
end Lthr

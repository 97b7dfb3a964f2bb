import Lthread.Proofs.EventWaits
import Lthread.Proofs.Sockets

/-! The waits of the socket calls: what a call has heard of its event when it goes on. With
timeout -1 `_lthread_sched_event` registers the lthread and returns at once, and the next
wait finds the registration it has left. -/

namespace Lthr

open Sched

def SockFn.timed : SockFn → Bool
  | .send | .sendOnce => false
  | _ => true

/-- What an lthread has heard of its event in the socket call it is in. -/
inductive Notice
  | none
  | registered
  | delivered
  deriving DecidableEq, Repr

namespace SockCall

variable {c : SockCall} {fdeof expired : Bool} {r : SysRet}

def begins (c : SockCall) (fdeof expired : Bool) (r : SysRet) : Bool :=
  match c.next fdeof expired r with
  | .schedEvent _ _ => true
  | _ => false

theorem next_timeout {e : LtEvent} {t : ℕ} (h : c.next fdeof expired r = .schedEvent e t) :
    t = if c.fn.timed then c.timeout else 0 := by
  unfold next lthreadWait lthreadRecv lthreadRecvExact lthreadSend lthreadSendOnce lthreadConnect at h
  cases hfn : c.fn <;> simp only [hfn, SockFn.timed] at h ⊢ <;> grind

/-- A call that has timed out returns, and one that tests `LT_ST_FDEOF` makes no system call. -/
theorem next_goto {pc : SockPc} {n : ℕ} (h : c.next fdeof expired r = .goto pc n) :
    pc ≠ .waited ∧ (c.pc = .waited → expired = true → c.fn.timed = false) ∧
      (c.pc ≠ .sys → fdeof = true → c.fn ≠ .connect → pc ≠ .sys) := by
  unfold next lthreadWait lthreadRecv lthreadRecvExact lthreadSend lthreadSendOnce lthreadConnect at h
  cases hfn : c.fn <;> simp only [hfn, SockFn.timed] at h ⊢ <;> grind

theorem next_renice (h : c.next fdeof expired r = .renice) : c.pc = .top ∧ (c.fn ≠ .connect → fdeof = false) := by
  unfold next lthreadWait lthreadRecv lthreadRecvExact lthreadSend lthreadSendOnce lthreadConnect at h
  cases hfn : c.fn <;> simp only [hfn] at h ⊢ <;> grind

/-- `lthread_wait_read` and `lthread_wait_write` return 0 after a wait only. -/
theorem next_wait {e : LtEvent} {eof : Bool} (hfn : c.fn = .wait e) (h : c.next fdeof expired r = .ret 0 eof) :
    c.pc = .waited ∧ fdeof = false ∧ expired = false := by
  unfold next lthreadWait at h
  simp only [hfn] at h
  grind

end SockCall

namespace Net

def noteWait (x : Net) (a : NetLabel) (_ : Net) (log : LtId → Notice) (l : LtId) : Notice :=
  match a with
  | .world .sched =>
    if x.world.cpu = .loop ∧ ∃ p ∈ x.world.phase.handles,
        l ∈ x.world.sched.waiting ∧ (x.world.sched.lt l).fdWait = fdKey p.1 p.2 then .delivered
    else log l
  | .call _ _ _ _ => if x.world.cpu = .run l then .none else log l
  | .go r =>
    if x.world.cpu = .run l ∧ ∃ c ∈ x.sock l,
        c.begins (x.world.sched.has l .fdeof) (x.world.sched.has l .expired) r = true then .registered
    else log l
  | _ => log l

def waitMachine : Machine (Net × (LtId → Notice)) NetLabel := netMachine.observe (fun _ => .none) noteWait

/-- World steps as the board has them; no socket call has timeout -1; and `lthread_close` is
not called for a descriptor that an lthread in `lthread_connect` waits for. -/
def waitsOut (x : Net) : NetLabel → Prop
  | .world a => World.stepOk true x.world a ∧ ∀ fd ∈ a.closes, ∀ m ∈ x.world.sched.waiting,
      fdOnly (x.world.sched.lt m).fdWait = fd → ∀ c ∈ x.sock m, c.fn ≠ .connect
  | .call fn _ _ timeout => fn.timed = true → timeout ≠ u64 - 1
  | .go _ | .close _ | .peerWrite _ _ | .peerClose _ => True

instance (x : Net) : (a : NetLabel) → Decidable (x.waitsOut a)
  | .world a => inferInstanceAs (Decidable (World.stepOk true x.world a ∧ ∀ fd ∈ a.closes,
      ∀ m ∈ x.world.sched.waiting, fdOnly (x.world.sched.lt m).fdWait = fd → ∀ c ∈ x.sock m, c.fn ≠ .connect))
  | .call fn _ _ timeout => inferInstanceAs (Decidable (fn.timed = true → timeout ≠ u64 - 1))
  | .go _ | .close _ | .peerWrite _ _ | .peerClose _ => inferInstanceAs (Decidable True)

variable {x x' : Net} {log log' : LtId → Notice} {l : LtId} {c : SockCall} {r : SysRet}

/-- Why the running lthread is where it is in its call: it has not waited since, its event
has been delivered, its timeout has expired, or its descriptor has been closed and it will
see that before it makes a system call. -/
def Hears (x : Net) (log : LtId → Notice) (l : LtId) (c : SockCall) : Prop :=
  log l ≠ .registered ∨
  (c.pc = .waited ∧ c.fn.timed = true ∧ x.world.sched.has l .expired = true) ∨
  c.pc ≠ .sys ∧ c.fn ≠ .connect ∧ x.world.sched.has l .fdeof = true

structure Awaits (x : Net) (log : LtId → Notice) : Prop where
  world : x.world.Inv true
  timeout : ∀ l c, x.sock l = some c → c.fn.timed = true → c.timeout ≠ u64 - 1
  -- an lthread that waits and is on the ready queue has been put there by `lthread_close`
  told : ∀ l fd e t, (x.world.sched.lt l).ctx = .schedEvent fd e t → l ∈ x.world.sched.ready →
    x.world.sched.has l .cancelled = false →
    x.world.sched.has l .fdeof = true ∧ ∀ c, x.sock l = some c → c.fn ≠ .connect
  suspended : ∀ l c, x.sock l = some c → x.world.cpu ≠ .run l → c.pc = .sys ∧ log l ≠ .registered ∨
    c.pc = .waited ∧ ∃ fd e t, (x.world.sched.lt l).ctx = .schedEvent fd e t ∧ (c.fn.timed = false → t = 0)
  running : ∀ l c, x.sock l = some c → x.world.cpu = .run l → x.Hears log l c
  noted : ∀ l c, x.sock l = some c → c.pc = .waited → log l ≠ .none

namespace Awaits

theorem eof_stays (h : x.Awaits log) {a : Label} {w : World} (hw : x.world.step a = .ok w) {fd : Fd} {e : LtEvent}
    {t : ℕ} (hctx : (x.world.sched.lt l).ctx = .schedEvent fd e t) (hf : x.world.sched.has l .fdeof = true) :
    w.sched.has l .fdeof = true := by
  refine (h.world.step_eof_only hw).stays ⟨?_, ?_, ?_⟩ hf
  · refine Bool.eq_false_iff.mpr fun h0 => ?_
    have hstart : (x.world.sched.lt l).ctx = .start := (h.world.ok l).new.mp h0
    rw [hctx] at hstart; cases hstart
  · rintro rfl
    have hfresh : (x.world.sched.lt x.world.sched.spawned).ctx = .exited := (h.world.seated.links.fresh _ le_rfl).1
    rw [hctx] at hfresh; cases hfresh
  · intro hcpu
    have hrun : (x.world.sched.lt l).ctx = .running := (h.world.seated.running l).mpr hcpu
    rw [hctx] at hrun; cases hrun

/-- Nobody else than `lthread_close` puts an lthread that waits on the ready queue. -/
theorem told_step (h : x.Awaits log) {a : Label} {w : World} (hok : x.waitsOut (.world a))
    (hw : x.world.step a = .ok w) {fd : Fd} {e : LtEvent} {t : ℕ} (hctx : (w.sched.lt l).ctx = .schedEvent fd e t)
    (hr : l ∈ w.sched.ready) (hc : w.sched.has l .cancelled = false) :
    w.sched.has l .fdeof = true ∧ ∀ c, x.sock l = some c → c.fn ≠ .connect := by
  rcases h.world.event_ready hok.1 hw hctx hr hc with ⟨hctx, hr, hc⟩ | ⟨fd', e', rfl, hwait⟩
  · obtain ⟨hf, hfn⟩ := h.told l fd e t hctx hr hc
    exact ⟨h.eof_stays hw hctx hf, hfn⟩
  · refine ⟨h.world.close_tells hw hwait, fun c hc => ?_⟩
    refine hok.2 fd' rfl l hwait.1 ?_ c hc
    rw [hwait.2, fdOnly_fdKey]

theorem suspended_step (h : x.Awaits log) {a : Label} {w : World} (hok : World.stepOk true x.world a)
    (hw : x.world.step a = .ok w) (hlog : log l ≠ .registered → log' l ≠ .registered) (hs : x.sock l = some c)
    (hcall : x.world.cpu = .run l → ∀ op, a ≠ .call op) (hcpu' : w.cpu ≠ .run l) :
    c.pc = .sys ∧ log' l ≠ .registered ∨
      c.pc = .waited ∧ ∃ fd e t, (w.sched.lt l).ctx = .schedEvent fd e t ∧ (c.fn.timed = false → t = 0) := by
  have hcpu : x.world.cpu ≠ .run l := fun hcpu => hcpu' (h.world.run_stays hcpu (hcall hcpu) hw).1
  rcases h.suspended l c hs hcpu with ⟨hpc, hl⟩ | ⟨hpc, fd, e, t, hctx, ht⟩
  · exact Or.inl ⟨hpc, hlog hl⟩
  · rcases h.world.suspended_stays hok hw hctx (by simp) (by simp) with hctx' | ⟨-, -, hrun⟩
    · exact Or.inr ⟨hpc, fd, e, t, hctx', ht⟩
    · exact absurd hrun hcpu'

theorem running_step (h : x.Awaits log) {a : Label} {w : World} (hok : World.stepOk true x.world a)
    (hw : x.world.step a = .ok w) (hlog : log l ≠ .registered → log' l ≠ .registered)
    (hdel : ∀ fd e, a = .sched → x.world.cpu = .loop → x.world.phase.handles = some (fd, e) →
      x.world.Waits l fd e → log' l ≠ .registered)
    (hs : x.sock l = some c) (hcall : x.world.cpu = .run l → ∀ op, a ≠ .call op) (hcpu' : w.cpu = .run l) {y : Net}
    (hy : y.world = w) : y.Hears log' l c := by
  subst hy
  by_cases hcpu : x.world.cpu = .run l
  · have hbits := (h.world.run_stays hcpu (hcall hcpu) hw).2
    rcases h.running l c hs hcpu with hl | ⟨hpc, ht, he⟩ | ⟨hpc, hfn, hf⟩
    · exact Or.inl (hlog hl)
    · exact Or.inr (Or.inl ⟨hpc, ht, (hbits _ (by simp)).trans he⟩)
    · exact Or.inr (Or.inr ⟨hpc, hfn, (hbits _ (by simp)).trans hf⟩)
  · rcases h.suspended l c hs hcpu with ⟨-, hl⟩ | ⟨hpc, fd, e, t, hctx, ht⟩
    · exact Or.inl (hlog hl)
    · rcases h.world.suspended_stays hok hw hctx (by simp) (by simp) with hctx' | ⟨rfl, hloop, -⟩
      · have hrun : (y.world.sched.lt l).ctx = .running := ((h.world.step hok hw).seated.running l).mpr hcpu'
        rw [hctx'] at hrun; cases hrun
      · rcases h.world.event_resumed hloop hw hcpu' hctx with ⟨he, ht0⟩ | ⟨hr, hc⟩ | ⟨fd', e', hp, hwait⟩
        · refine Or.inr (Or.inl ⟨hpc, ?_, he⟩)
          exact Bool.of_not_eq_false fun hf => ht0 (ht hf)
        · obtain ⟨hf, hfn⟩ := h.told l fd e t hctx hr hc
          exact Or.inr (Or.inr ⟨by simp [hpc], hfn c hs, h.eof_stays hw hctx hf⟩)
        · exact Or.inl (hdel fd' e' rfl hloop hp hwait)

theorem step_world (h : x.Awaits log) {a : Label} {w : World} {y z : Net} (hok : x.waitsOut (.world a))
    (hidle : a.isCall = true → x.idle) (hw : x.world.step a = .ok w) (hy : y.world = w ∧ y.sock = x.sock) :
    y.Awaits (x.noteWait (.world a) z log) := by
  obtain ⟨hyw, hys⟩ := hy
  have hlog (l : LtId) (n : Notice) (hn : n ≠ .delivered) (hl : log l ≠ n) : x.noteWait (.world a) z log l ≠ n := by
    unfold noteWait
    split
    · split_ifs
      · exact hn.symm
      · exact hl
    all_goals first | exact hl | contradiction
  have hcall {l : LtId} {c : SockCall} (hs : x.sock l = some c) (hcpu : x.world.cpu = .run l) (op : Op) :
      a ≠ .call op := by
    rintro rfl
    rw [hidle rfl l hcpu] at hs
    cases hs
  refine ⟨hyw ▸ h.world.step hok.1 hw, hys ▸ h.timeout, fun l fd e t hctx hr hc => ?_, fun l c hs hcpu => ?_,
    fun l c hs hcpu => ?_, fun l c hs hpc => ?_⟩
  · rw [hyw] at hctx hr hc ⊢
    rw [hys]
    exact h.told_step hok hw hctx hr hc
  · rw [hys] at hs
    rw [hyw] at hcpu ⊢
    exact h.suspended_step hok.1 hw (hlog l .registered (by simp)) hs (hcall hs) hcpu
  · rw [hys] at hs
    rw [hyw] at hcpu
    refine h.running_step hok.1 hw (hlog l .registered (by simp)) ?_ hs (hcall hs) hcpu hyw
    rintro fd e rfl hloop hp hwait
    unfold noteWait
    rw [if_pos ⟨hloop, (fd, e), hp, hwait⟩]
    simp
  · exact hlog l .none (by simp) (h.noted l c (hys ▸ hs) hpc)

/-- The running lthread begins a call, is at another place of the one it is in, or returns. -/
theorem update (h : x.Awaits log) (hcpu : x.world.cpu = .run l) {s : Option SockCall} {y : Net}
    (hy : y.world = x.world ∧ y.sock = Function.update x.sock l s) (hlog : ∀ m ≠ l, log' m = log m)
    (hs : ∀ c, s = some c → (c.fn.timed = true → c.timeout ≠ u64 - 1) ∧ c.pc ≠ .waited ∧ x.Hears log' l c) :
    y.Awaits log' := by
  obtain ⟨hyw, hys⟩ := hy
  have hsock {m : LtId} {d : SockCall} (hm : y.sock m = some d) : m = l ∧ s = some d ∨ m ≠ l ∧ x.sock m = some d := by
    rw [hys, Function.update_apply] at hm
    split_ifs at hm with hml
    · exact Or.inl ⟨hml, hm⟩
    · exact Or.inr ⟨hml, hm⟩
  have hother {m : LtId} (hm : m ≠ l) : x.world.cpu ≠ .run m := by
    rw [hcpu]
    exact fun h0 => hm (Cpu.run.inj h0).symm
  refine ⟨hyw ▸ h.world, fun m d hm => ?_, fun m fd e t hctx hr hc => ?_, fun m d hm hcpu' => ?_,
    fun m d hm hcpu' => ?_, fun m d hm hpc => ?_⟩
  · rcases hsock hm with ⟨-, hd⟩ | ⟨-, hm⟩
    · exact (hs d hd).1
    · exact h.timeout m d hm
  · rw [hyw] at hctx hr hc ⊢
    obtain ⟨hf, hfn⟩ := h.told m fd e t hctx hr hc
    refine ⟨hf, fun d hd => ?_⟩
    rcases hsock hd with ⟨rfl, -⟩ | ⟨-, hd⟩
    · have hrun : (x.world.sched.lt m).ctx = .running := (h.world.seated.running m).mpr hcpu
      rw [hctx] at hrun; cases hrun
    · exact hfn d hd
  · rw [hyw] at hcpu' ⊢
    rcases hsock hm with ⟨rfl, -⟩ | ⟨hml, hm⟩
    · exact absurd hcpu hcpu'
    · rw [hlog m hml]
      exact h.suspended m d hm hcpu'
  · rw [hyw] at hcpu'
    rcases hsock hm with ⟨rfl, hd⟩ | ⟨hml, -⟩
    · unfold Hears
      rw [hyw]
      exact (hs d hd).2.2
    · exact absurd hcpu' (hother hml)
  · rcases hsock hm with ⟨rfl, hd⟩ | ⟨hml, hm⟩
    · exact absurd hpc (hs d hd).2.1
    · rw [hlog m hml]
      exact h.noted m d hm hpc

/-- The running lthread makes one of the calls that socket calls are made of. -/
theorem called (h : x.Awaits log) (hcpu : x.world.cpu = .run l) {op : Op} {w : World} {y : Net}
    (hok : World.stepOk true x.world (.call op)) (hop : ∀ fd, op ≠ .close fd) (hw : x.world.step (.call op) = .ok w)
    (hy : y.world = w ∧ y.sock = Function.update x.sock l (some c)) (hlog : ∀ m ≠ l, log' m = log m)
    (ht : c.fn.timed = true → c.timeout ≠ u64 - 1) (hnote : c.pc = .waited → log' l ≠ .none)
    (hrun : w.cpu = .run l → y.Hears log' l c)
    (hsus : w.cpu ≠ .run l → c.pc = .sys ∧ log' l ≠ .registered ∨
      c.pc = .waited ∧ ∃ fd e t, (w.sched.lt l).ctx = .schedEvent fd e t ∧ (c.fn.timed = false → t = 0)) :
    y.Awaits log' := by
  obtain ⟨hyw, hys⟩ := hy
  have hclose (fd : Fd) : Label.call op ≠ .call (.close fd) := by
    intro h0
    injection h0 with h0
    exact hop fd h0
  have hsock {m : LtId} {d : SockCall} (hm : y.sock m = some d) : m = l ∧ d = c ∨ m ≠ l ∧ x.sock m = some d := by
    rw [hys, Function.update_apply] at hm
    split_ifs at hm with hml
    · exact Or.inl ⟨hml, (Option.some_inj.mp hm).symm⟩
    · exact Or.inr ⟨hml, hm⟩
  have hother {m : LtId} (hm : m ≠ l) : x.world.cpu ≠ .run m := by
    rw [hcpu]
    exact fun h0 => hm (Cpu.run.inj h0).symm
  have hkeep {m : LtId} (hm : m ≠ l) (hl : log m ≠ .registered) : log' m ≠ .registered := by rwa [hlog m hm]
  refine ⟨hyw ▸ h.world.step hok hw, fun m d hm => ?_, fun m fd e t hctx hr hc => ?_, fun m d hm hcpu' => ?_,
    fun m d hm hcpu' => ?_, fun m d hm hpc => ?_⟩
  · rcases hsock hm with ⟨-, rfl⟩ | ⟨-, hm⟩
    · exact ht
    · exact h.timeout m d hm
  · rw [hyw] at hctx hr hc ⊢
    rcases h.world.event_ready hok hw hctx hr hc with ⟨hctx, hr, hc⟩ | ⟨fd', -, h0, -⟩
    · obtain ⟨hf, hfn⟩ := h.told m fd e t hctx hr hc
      refine ⟨h.eof_stays hw hctx hf, fun d hd => ?_⟩
      rcases hsock hd with ⟨rfl, -⟩ | ⟨-, hd⟩
      · have hrun : (x.world.sched.lt m).ctx = .running := (h.world.seated.running m).mpr hcpu
        rw [hctx] at hrun; cases hrun
      · exact hfn d hd
    · exact absurd h0 (hclose fd')
  · rw [hyw] at hcpu' ⊢
    rcases hsock hm with ⟨rfl, rfl⟩ | ⟨hml, hm⟩
    · exact hsus hcpu'
    · exact h.suspended_step hok hw (hkeep hml) hm (fun h0 => absurd h0 (hother hml)) hcpu'
  · rw [hyw] at hcpu'
    rcases hsock hm with ⟨rfl, rfl⟩ | ⟨hml, hm⟩
    · exact hrun hcpu'
    · exact h.running_step hok hw (hkeep hml) (fun _ _ h0 => by cases h0) hm (fun h0 => absurd h0 (hother hml)) hcpu' hyw
  · rcases hsock hm with ⟨rfl, rfl⟩ | ⟨hml, hm⟩
    · exact hnote hpc
    · rw [hlog m hml]
      exact h.noted m d hm hpc

theorem go (h : x.Awaits log) (hcpu : x.world.cpu = .run l) (ht : c.fn.timed = true → c.timeout ≠ u64 - 1)
    (hc : x.Hears log l c) (hx : x.go l c r = .ok x') (hlog : ∀ m, log' m =
      if m = l ∧ c.begins (x.world.sched.has l .fdeof) (x.world.sched.has l .expired) r = true then .registered
      else log m) : x'.Awaits log' := by
  have hothers (m : LtId) (hm : m ≠ l) : log' m = log m := by rw [hlog, if_neg fun h0 => hm h0.1]
  unfold Net.go at hx
  unfold SockCall.begins at hlog
  cases hn : c.next (x.world.sched.has l .fdeof) (x.world.sched.has l .expired) r with
  | ret res eof =>
    rw [hn] at hx
    obtain rfl := Except.ok.inj hx
    exact h.update (s := none) hcpu ⟨rfl, rfl⟩ hothers (by simp)
  | goto pc n =>
    rw [hn] at hx
    obtain rfl := Except.ok.inj hx
    refine h.update (s := some { c with pc := pc, count := n }) hcpu ⟨rfl, rfl⟩ hothers fun d hd => ?_
    obtain rfl := Option.some_inj.mp hd
    obtain ⟨hpc', hexp, heof⟩ := SockCall.next_goto hn
    refine ⟨ht, hpc', ?_⟩
    have hl : log' l = log l := by simp [hlog, hn]
    rcases hc with hc | ⟨hpc, htimed, he⟩ | ⟨hpc, hfn, hf⟩
    · exact Or.inl (hl ▸ hc)
    · rw [hexp hpc he] at htimed; cases htimed
    · exact Or.inr (Or.inr ⟨heof hpc hf hfn, hfn, hf⟩)
  | renice =>
    rw [hn] at hx
    obtain ⟨w, hw, hx⟩ := except_bind_ok hx
    obtain rfl := Except.ok.inj hx
    obtain ⟨hpc, heof⟩ := SockCall.next_renice hn
    have hl : log' l ≠ .registered := by
      rw [show log' l = log l by simp [hlog, hn]]
      rcases hc with hc | ⟨hpc', -⟩ | ⟨-, hfn, hf⟩
      · exact hc
      · rw [hpc] at hpc'; cases hpc'
      · rw [heof hfn] at hf; cases hf
    have hok : World.stepOk true x.world (.call .renice) := fun _ _ => trivial
    exact h.called (c := { c with pc := .sys }) hcpu hok (by simp) hw ⟨rfl, rfl⟩ hothers ht (by simp)
      (fun _ => Or.inl hl) fun _ => Or.inl ⟨rfl, hl⟩
  | schedEvent e t =>
    rw [hn] at hx
    obtain ⟨w, hw, hx⟩ := except_bind_ok hx
    obtain rfl := Except.ok.inj hx
    have htime := SockCall.next_timeout hn
    have hne : t ≠ u64 - 1 := by
      rw [htime]
      split_ifs with hf
      · exact ht hf
      · simp [u64]
    have hback : w.cpu ≠ .run l ∧ (w.sched.lt l).ctx = .schedEvent c.fd e t := by
      obtain ⟨i, hi, hcall⟩ := World.step_call hw
      obtain rfl := Cpu.run.inj (hcpu.symm.trans hi)
      obtain ⟨-, -, ⟨h0, -⟩ | ⟨-, rfl⟩⟩ := World.lthreadSchedEvent_cases hcall
      · exact absurd h0 hne
      · refine ⟨by simp [World.suspend], ?_⟩
        change ((((World.eventStored l c.fd e x.world.sched).lthreadSchedSleep l t).setCtx l (.schedEvent c.fd e t)).lt l).ctx = _
        rw [setCtx, modify_lt, if_pos rfl]
    have hok : World.stepOk true x.world (.call (.schedEvent c.fd e t)) := fun _ _ => hne
    refine h.called (c := { c with pc := .waited }) hcpu hok (by simp) hw ⟨rfl, rfl⟩ hothers ht
      (fun _ => by simp [hlog, hn]) (fun h0 => absurd h0 hback.1) fun _ => Or.inr ⟨rfl, c.fd, e, t, hback.2, fun hf => ?_⟩
    rw [htime]
    exact if_neg (Bool.eq_false_iff.mp hf)

theorem noteWait_go {z : Net} (hcpu : x.world.cpu = .run l) (hs : x.sock l = some c) (m : LtId) :
    x.noteWait (.go r) z log m =
      if m = l ∧ c.begins (x.world.sched.has l .fdeof) (x.world.sched.has l .expired) r = true then .registered
      else log m := by
  unfold noteWait
  by_cases hm : m = l
  · subst hm
    simp [hcpu, hs]
  · have hne : x.world.cpu ≠ .run m := by
      rw [hcpu]
      exact fun h0 => hm (Cpu.run.inj h0).symm
    simp only
    rw [if_neg fun h0 => hne h0.1, if_neg fun h0 => hm h0.1]

theorem congr (h : x.Awaits log) {y : Net} (hw : y.world.Inv true) (hsched : y.world.sched = x.world.sched)
    (hcpu : y.world.cpu = x.world.cpu) (hs : y.sock = x.sock) : y.Awaits log := by
  refine ⟨hw, hs ▸ h.timeout, ?_, ?_, ?_, hs ▸ h.noted⟩
  · rw [hsched, hs]; exact h.told
  · rw [hsched, hs, hcpu]; exact h.suspended
  · unfold Hears
    rw [hsched, hs, hcpu]
    exact h.running

theorem step (h : x.Awaits log) {a : NetLabel} (hok : x.waitsOut a) (hx : x.step a = .ok x') :
    x'.Awaits (x.noteWait a x' log) := by
  cases step_case hx with
  | @world a _ ha hidle hx =>
    obtain ⟨w, hw, ⟨fd, -, rfl⟩ | ⟨fd, -, -, rfl⟩ | ⟨-, -, rfl⟩⟩ := worldStep_cases hx <;>
      exact h.step_world hok hidle hw ⟨rfl, rfl⟩
  | @call l fn fd length timeout hcpu hs =>
    refine h.update hcpu ⟨rfl, rfl⟩ (fun m hm => ?_) fun d hd => ?_
    · exact if_neg fun h0 => hm (Cpu.run.inj (hcpu.symm.trans h0)).symm
    · obtain rfl := Option.some_inj.mp hd
      refine ⟨hok, by simp, Or.inl ?_⟩
      unfold noteWait
      rw [if_pos hcpu]
      simp
  | @go l c r _ hcpu hs hr hx =>
    exact h.go hcpu (h.timeout l c hs) (h.running l c hs hcpu) hx fun m => noteWait_go hcpu hs m
  | @read l c r _ hcpu hs hr hallow hx =>
    have htook : (x.took c.fd r.taken).Awaits log := h.congr h.world rfl rfl rfl
    exact htook.go (c := { c with buf := c.buf ++ (x.stream c.fd).pending.take r.taken }) hcpu (h.timeout l c hs)
      (h.running l c hs hcpu) hx fun m => noteWait_go hcpu hs m
  | close hcpu hs => exact h.congr ⟨h.world.seated, h.world.computes.congr rfl rfl rfl⟩ rfl rfl rfl
  | peerWrite hc => exact h.congr h.world rfl rfl rfl
  | peerClose => exact h.congr h.world rfl rfl rfl

theorem reachable {p : Net × (LtId → Notice)} (h : waitMachine.Reachable (fun q a => q.1.waitsOut a) p) :
    p.1.Awaits p.2 := by
  refine h.invariant (P := fun q : Net × (LtId → Notice) => q.1.Awaits q.2) (fun q hq => ?_) fun q a q' hq hok hs => ?_
  · obtain ⟨⟨birth, capacity, n, hw⟩, hl⟩ := hq
    rw [hw, hl]
    refine ⟨World.start_inv birth capacity n, (fun l c hc => by cases hc), fun l fd e t hctx hr => ?_,
      (fun l c hc => by cases hc), (fun l c hc => by cases hc), fun l c hc => by cases hc⟩
    exact absurd hr List.not_mem_nil
  · rw [hs.2]
    exact hq.step hok hs.1

end Awaits

/-- A call that reaches the assertion has found a wait bit of its lthread set. -/
theorem go_unexpected (hcpu : x.world.cpu = .run l) (hx : x.go l c r = .error .unexpectedEvent) :
    x.world.sched.has l .waitRead = true ∨ x.world.sched.has l .waitWrite = true := by
  unfold go at hx
  split at hx
  · cases hx
  · cases hx
  · rcases except_bind_error hx with h0 | ⟨w, -, h0⟩
    · have h0 := World.advance_error (by simp) h0
      rw [World.advance_call hcpu] at h0
      cases h0
    · cases h0
  · next e t hn =>
    rcases except_bind_error hx with h0 | ⟨w, -, h0⟩
    · have h0 := World.advance_error (by simp) h0
      simp only [World.advance_call hcpu, World.call, World.lthreadSchedEvent] at h0
      split_ifs at h0 with hbit hins htime
      · simpa using hbit
      all_goals cases h0
    · cases h0

def waitStep (q : Net × (LtId → Notice)) (a : NetLabel) : Except Fault (Net × (LtId → Notice)) := do
  let y ← q.1.step a
  .ok (y, q.1.noteWait a y q.2)

theorem waitStep_ok {q q' : Net × (LtId → Notice)} {a : NetLabel} (h : waitStep q a = .ok q') :
    waitMachine.step q a q' := by
  obtain ⟨y, hy, h⟩ := except_bind_ok h
  obtain rfl := Except.ok.inj h
  exact ⟨hy, rfl⟩

theorem exists_waited {τ : Type} (ok : Net → NetLabel → Prop) [∀ x a, Decidable (ok x a)] (labels : List NetLabel)
    (see : Net × (LtId → Notice) → τ) {t : τ}
    (h : (Machine.replay (Machine.attempt waitStep fun q a => ok q.1 a) labels
      (start (World.start 0 (fun _ => 0) IO_WORKERS), fun _ => .none)).map see = some t) :
    ∃ p, waitMachine.Reachable (fun q a => ok q.1 a) p ∧ see p = t :=
  Machine.exists_reachable (M := waitMachine) (fun _ _ _ h => waitStep_ok h) ⟨⟨0, _, IO_WORKERS, rfl⟩, rfl⟩ labels see h

end Net
end Lthr

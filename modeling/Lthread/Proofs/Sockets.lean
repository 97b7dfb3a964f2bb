import Lthread.Proofs.Eof

/-! Runs with socket calls. An lthread is in the waiting tree only for the descriptor of the
socket call it is in, so that the hang-up it is told of is that of its own descriptor; but
the bit it gets stays until it calls `lthread_close`, and every later call tests it. -/

namespace Lthr

open Sched

namespace SockCall

variable {c : SockCall} {fdeof expired : Bool} {r : SysRet}

theorem next_eof {res : ℤ} (h : c.next fdeof expired r = .ret res true) : fdeof = true := by
  unfold next lthreadWait lthreadRecv lthreadRecvExact lthreadSend lthreadSendOnce lthreadConnect at h
  grind

theorem next_schedEvent {e : LtEvent} {t : ℕ} (h : c.next fdeof expired r = .schedEvent e t) :
    t = c.timeout ∨ t = 0 := by
  unfold next lthreadWait lthreadRecv lthreadRecvExact lthreadSend lthreadSendOnce lthreadConnect at h
  grind

end SockCall

theorem Label.eq_of_closes {a : Label} {fd : Fd} (h : a.closes = some fd) : a = .call (.close fd) := by
  unfold Label.closes at h
  split at h
  · rw [Option.some_inj.mp h]
  · cases h

theorem Label.waitsFor_of_inner {a : Label} (h : a.inner = false) : a.waitsFor = none := by
  unfold Label.waitsFor
  split
  · cases h
  · rfl

namespace Net

variable {x x' : Net} {l : LtId} {c : SockCall} {r : SysRet}

theorem worldStep_cases {a : Label} (hx : x.worldStep a = .ok x') : ∃ w, x.world.step a = .ok w ∧
    ((∃ fd, a.closes = some fd ∧ x' = { (x.noteHung fd).forget fd with world := w }) ∨
      (∃ fd, a.closes = none ∧ x.world.hangUp a = some fd ∧ x' = { x.noteHung fd with world := w }) ∨
      a.closes = none ∧ x.world.hangUp a = none ∧ x' = { x with world := w }) := by
  unfold worldStep at hx
  obtain ⟨w, hw, hx⟩ := except_bind_ok hx
  refine ⟨w, hw, ?_⟩
  cases hc : a.closes with
  | some fd =>
    rw [hc] at hx
    exact Or.inl ⟨fd, rfl, (Except.ok.inj hx).symm⟩
  | none =>
    cases hh : x.world.hangUp a with
    | some fd =>
      rw [hc, hh] at hx
      exact Or.inr (Or.inl ⟨fd, rfl, rfl, (Except.ok.inj hx).symm⟩)
    | none =>
      rw [hc, hh] at hx
      exact Or.inr (Or.inr ⟨rfl, rfl, (Except.ok.inj hx).symm⟩)

/-- A call that goes on returns, or is at another place of its loop; the world makes the
step that `_lthread_renice` or `_lthread_sched_event` is. -/
theorem go_cases (hx : x.go l c r = .ok x') :
    (∃ res eof, c.next (x.world.sched.has l .fdeof) (x.world.sched.has l .expired) r = .ret res eof ∧
      x' = { x with
        sock := Function.update x.sock l none
        returns := x.returns ++ [⟨l, c, res, eof, x.stream c.fd⟩] }) ∨
    ∃ w pc count, (w = x.world ∧
          c.next (x.world.sched.has l .fdeof) (x.world.sched.has l .expired) r = .goto pc count ∨
        count = c.count ∧ ∃ op, x.world.step (.call op) = .ok w ∧
          (op = .renice ∨ ∃ e t, op = .schedEvent c.fd e t ∧ (t = c.timeout ∨ t = 0))) ∧
      x' = { x with world := w, sock := Function.update x.sock l (some { c with pc := pc, count := count }) } := by
  unfold go at hx
  cases hn : c.next (x.world.sched.has l .fdeof) (x.world.sched.has l .expired) r with
  | ret res eof =>
    rw [hn] at hx
    exact Or.inl ⟨res, eof, rfl, (Except.ok.inj hx).symm⟩
  | goto pc count =>
    rw [hn] at hx
    exact Or.inr ⟨x.world, pc, count, Or.inl ⟨rfl, rfl⟩, (Except.ok.inj hx).symm⟩
  | renice =>
    rw [hn] at hx
    obtain ⟨w, hw, hx⟩ := except_bind_ok hx
    exact Or.inr ⟨w, .sys, c.count, Or.inr ⟨rfl, .renice, hw, Or.inl rfl⟩, (Except.ok.inj hx).symm⟩
  | schedEvent e t =>
    rw [hn] at hx
    obtain ⟨w, hw, hx⟩ := except_bind_ok hx
    exact Or.inr ⟨w, .waited, c.count,
      Or.inr ⟨rfl, _, hw, Or.inr ⟨e, t, rfl, SockCall.next_schedEvent hn⟩⟩, (Except.ok.inj hx).symm⟩

inductive Case (x : Net) : NetLabel → Net → Prop
  | world {a : Label} {x' : Net} (ha : a.inner = false) (hidle : a.isCall = true → x.idle)
      (hx : x.worldStep a = .ok x') : Case x (.world a) x'
  | call {l : LtId} {fn : SockFn} {fd : Fd} {length timeout : ℕ} (hcpu : x.world.cpu = .run l) (hs : x.sock l = none) :
      Case x (.call fn fd length timeout) { x with
        sock := Function.update x.sock l (some ⟨fn, fd, length, timeout, .top, 0, [], x.gen fd⟩) }
  | go {l : LtId} {c : SockCall} {r : SysRet} {x' : Net} (hcpu : x.world.cpu = .run l) (hs : x.sock l = some c)
      (hr : ¬ (c.pc = .sys ∧ c.fn.reads = true)) (hx : x.go l c r = .ok x') : Case x (.go r) x'
  | read {l : LtId} {c : SockCall} {r : SysRet} {x' : Net} (hcpu : x.world.cpu = .run l) (hs : x.sock l = some c)
      (hr : c.pc = .sys ∧ c.fn.reads = true) (hallow : (x.stream c.fd).allows (c.length - c.count) r)
      (hx : (x.took c.fd r.taken).go l { c with buf := c.buf ++ (x.stream c.fd).pending.take r.taken } r = .ok x') :
      Case x (.go r) x'
  | close {l : LtId} {fd : Fd} (hcpu : x.world.cpu = .run l) (hs : x.sock l = none) :
      Case x (.close fd) (x.closeFd fd)
  | peerWrite {fd : Fd} {bytes : List UInt8} (hc : (x.stream fd).closed = false) :
      Case x (.peerWrite fd bytes) { x with
        stream := Function.update x.stream fd { x.stream fd with pending := (x.stream fd).pending ++ bytes }
        wrote := Function.update x.wrote fd (x.wrote fd ++ bytes) }
  | peerClose {fd : Fd} :
      Case x (.peerClose fd) { x with stream := Function.update x.stream fd { x.stream fd with closed := true } }

theorem step_case {a : NetLabel} (hx : x.step a = .ok x') : Case x a x' := by
  unfold step at hx
  cases a with
  | world a =>
    simp only at hx
    split_ifs at hx with hc
    exact .world hc.1 hc.2 hx
  | call fn fd length timeout =>
    cases hcpu : x.world.cpu with
    | run l =>
      simp only [hcpu] at hx
      split_ifs at hx with hs
      obtain rfl := Except.ok.inj hx
      exact .call hcpu hs
    | _ => simp only [hcpu] at hx; cases hx
  | go r =>
    cases hcpu : x.world.cpu with
    | run l =>
      simp only [hcpu] at hx
      cases hs : x.sock l with
      | none => rw [hs] at hx; cases hx
      | some c =>
        rw [hs] at hx
        simp only at hx
        split_ifs at hx with hr
        · unfold goRead at hx
          split_ifs at hx with hallow
          exact .read hcpu hs hr hallow hx
        · exact .go hcpu hs hr hx
    | _ => simp only [hcpu] at hx; cases hx
  | close fd =>
    cases hcpu : x.world.cpu with
    | run l =>
      simp only [hcpu] at hx
      split_ifs at hx with hs
      obtain rfl := Except.ok.inj hx
      exact .close hcpu hs
    | _ => simp only [hcpu] at hx; cases hx
  | peerWrite fd bytes =>
    simp only at hx
    split_ifs at hx with hc
    obtain rfl := Except.ok.inj hx
    exact .peerWrite (Bool.eq_false_iff.mpr hc)
  | peerClose fd =>
    obtain rfl := Except.ok.inj hx
    exact .peerClose

theorem mem_noteHung {p : Fd × ℕ} {fd : Fd} (h : p ∈ x.hung l) : p ∈ (x.noteHung fd).hung l := by
  change p ∈ if _ then _ else _
  split_ifs
  · exact List.mem_cons_of_mem _ h
  · exact h

structure Sound (x : Net) : Prop where
  world : x.world.Inv true
  timeout : ∀ l c, x.sock l = some c → c.timeout ≠ u64 - 1
  gen : ∀ l c, x.sock l = some c → c.gen ≤ x.gen c.fd
  -- who waits for a descriptor is in a call on it, and it is still the same descriptor or has been
  -- closed or hung up before
  waits : ∀ l fd e, x.world.Waits l fd e →
    ∃ c, x.sock l = some c ∧ c.fd = fd ∧ (c.gen = x.gen fd ∨ (c.fd, c.gen) ∈ x.hung l)

namespace Sound

theorem forget (h : x.Sound) {fd : Fd} (hfd : ∀ l e, ¬ x.world.Waits l fd e) : (x.forget fd).Sound := by
  have hgen (c : SockCall) : x.gen c.fd ≤ (x.forget fd).gen c.fd := by
    change _ ≤ Function.update x.gen fd (x.gen fd + 1) c.fd
    rw [Function.update_apply]
    split_ifs with hc
    · rw [hc]; omega
    · exact le_rfl
  refine ⟨h.world, h.timeout, fun l c hc => (h.gen l c hc).trans (hgen c), fun l fd' e hw => ?_⟩
  obtain ⟨c, hc, hcfd, hcgen⟩ := h.waits l fd' e hw
  refine ⟨c, hc, hcfd, hcgen.imp_left fun hcgen => ?_⟩
  have hne : fd' ≠ fd := by
    rintro rfl
    exact hfd l e hw
  change _ = Function.update x.gen fd (x.gen fd + 1) fd'
  rw [Function.update_of_ne hne, hcgen]

theorem noteHung (h : x.Sound) (fd : Fd) : (x.noteHung fd).Sound := by
  refine ⟨h.world, h.timeout, h.gen, fun l fd' e hw => ?_⟩
  obtain ⟨c, hc, hcfd, hcgen⟩ := h.waits l fd' e hw
  exact ⟨c, hc, hcfd, hcgen.imp_right fun hm => mem_noteHung hm⟩

theorem step_world (h : x.Sound) {a : Label} {w : World} (hok : World.stepOk true x.world a)
    (ha : a.waitsFor = none) (hw : x.world.step a = .ok w) : ({ x with world := w } : Net).Sound := by
  refine ⟨h.world.step hok hw, h.timeout, h.gen, fun l fd e hwait => ?_⟩
  rcases h.world.waits_old hok hw hwait with hold | ⟨-, t, rfl⟩
  · exact h.waits l fd e hold
  · cases ha

theorem worldStep (h : x.Sound) {a : Label} (hok : World.stepOk true x.world a) (ha : a.waitsFor = none)
    (hx : x.worldStep a = .ok x') : x'.Sound := by
  obtain ⟨w, hw, hcases⟩ := worldStep_cases hx
  rcases hcases with ⟨fd, hfd, rfl⟩ | ⟨fd, -, -, rfl⟩ | ⟨-, -, rfl⟩
  · obtain rfl := Label.eq_of_closes hfd
    exact (h.noteHung fd).step_world hok ha hw |>.forget fun l e => h.world.close_waits hw l e
  · exact (h.noteHung fd).step_world hok ha hw
  · exact h.step_world hok ha hw

/-- The running lthread begins a call, or is at another place of the one it is in. -/
theorem update (h : x.Sound) (hcpu : x.world.cpu = .run l) (ht : c.timeout ≠ u64 - 1) (hg : c.gen ≤ x.gen c.fd) :
    ({ x with sock := Function.update x.sock l (some c) } : Net).Sound := by
  have hsock {m : LtId} {d : SockCall} (hm : Function.update x.sock l (some c) m = some d) :
      d = c ∨ x.sock m = some d := by
    rw [Function.update_apply] at hm
    split_ifs at hm
    · exact Or.inl (Option.some_inj.mp hm).symm
    · exact Or.inr hm
  refine ⟨h.world, fun m d hm => ?_, fun m d hm => ?_, fun m fd e hw => ?_⟩
  · rcases hsock hm with rfl | hm
    · exact ht
    · exact h.timeout m d hm
  · rcases hsock hm with rfl | hm
    · exact hg
    · exact h.gen m d hm
  · have hne : m ≠ l := by
      rintro rfl
      exact h.world.waits_not_run hw hcpu
    obtain ⟨d, hd, hdfd⟩ := h.waits m fd e hw
    exact ⟨d, (Function.update_of_ne hne _ _).trans hd, hdfd⟩

theorem returned (h : x.Sound) (hcpu : x.world.cpu = .run l) (rs : List SockRet) :
    ({ x with sock := Function.update x.sock l none, returns := rs } : Net).Sound := by
  have hsock {m : LtId} {d : SockCall} (hm : Function.update x.sock l none m = some d) : x.sock m = some d := by
    rw [Function.update_apply] at hm
    split_ifs at hm
    exact hm
  refine ⟨h.world, fun m d hm => h.timeout m d (hsock hm), fun m d hm => h.gen m d (hsock hm), fun m fd e hw => ?_⟩
  have hne : m ≠ l := by
    rintro rfl
    exact h.world.waits_not_run hw hcpu
  obtain ⟨d, hd, hdfd⟩ := h.waits m fd e hw
  exact ⟨d, (Function.update_of_ne hne _ _).trans hd, hdfd⟩

theorem go (h : x.Sound) (hcpu : x.world.cpu = .run l) (ht : c.timeout ≠ u64 - 1) (hg : c.gen ≤ x.gen c.fd)
    (hlive : c.gen = x.gen c.fd ∨ (c.fd, c.gen) ∈ x.hung l) (hx : x.go l c r = .ok x') : x'.Sound := by
  rcases go_cases hx with ⟨res, eof, -, rfl⟩ | ⟨w, pc, count, hw, rfl⟩
  · exact h.returned hcpu _
  · have hnew : ({ x with sock := Function.update x.sock l (some { c with pc := pc, count := count }) } : Net).Sound :=
      h.update (c := { c with pc := pc, count := count }) hcpu ht hg
    rcases hw with ⟨rfl, -⟩ | ⟨-, op, hw, rfl | ⟨e, t, rfl, htime⟩⟩
    · exact hnew
    · exact hnew.step_world (a := .call .renice) (fun _ _ => trivial) rfl hw
    · have hok : World.stepOk true x.world (.call (.schedEvent c.fd e t)) := by
        intro m _
        rcases htime with rfl | rfl
        · exact ht
        · simp [World.callOk, u64]
      refine ⟨h.world.step hok hw, hnew.timeout, hnew.gen, fun m fd e' hwait => ?_⟩
      rcases h.world.waits_old hok hw hwait with hold | ⟨hm, t', heq⟩
      · exact hnew.waits m fd e' hold
      · obtain rfl := Cpu.run.inj (hcpu.symm.trans hm)
        have hfd : c.fd = fd := by
          injection heq with heq
          injection heq
        exact ⟨{ c with pc := pc, count := count }, Function.update_self .., hfd, by rw [← hfd]; exact hlive⟩

theorem inner_eof (h : x.Sound) {op : Op} {w : World} {m : LtId} (hw : x.world.step (.call op) = .ok w)
    (hop : op = .renice ∨ ∃ e t, op = .schedEvent c.fd e t ∧ (t = c.timeout ∨ t = 0))
    (hf : w.sched.has m .fdeof = true) : x.world.sched.has m .fdeof = true := by
  rcases h.world.step_eof hw hf with hf | ⟨fd, e, -, hev⟩
  · exact hf
  · rcases hop with rfl | ⟨e', t, rfl, -⟩ <;> rcases hev with hev | hev <;> cases hev

theorem took (h : x.Sound) (fd : Fd) (n : ℕ) : (x.took fd n).Sound := ⟨h.world, h.timeout, h.gen, h.waits⟩

theorem step (h : x.Sound) {a : NetLabel} (hok : x.orderly a) (hx : x.step a = .ok x') : x'.Sound := by
  have hlive {l : LtId} {c : SockCall} {r : SysRet} (hok : x.orderly (.go r)) (hcpu : x.world.cpu = .run l)
      (hs : x.sock l = some c) : c.gen = x.gen c.fd ∨ (c.fd, c.gen) ∈ x.hung l := by
    refine hok (l, c) ?_
    unfold current
    rw [hcpu]
    simp [hs]
  cases step_case hx with
  | world ha hidle hx => exact h.worldStep hok (Label.waitsFor_of_inner ha) hx
  | call hcpu hs => exact h.update hcpu hok le_rfl
  | @go l c r _ hcpu hs hr hx =>
    exact h.go hcpu (h.timeout l c hs) (h.gen l c hs) (hlive hok hcpu hs) hx
  | @read l c r _ hcpu hs hr hallow hx =>
    have hl := hlive hok hcpu hs
    exact (h.took c.fd r.taken).go (c := { c with buf := c.buf ++ (x.stream c.fd).pending.take r.taken }) hcpu
      (h.timeout l c hs) (h.gen l c hs) hl hx
  | @close l fd hcpu hs =>
    have hgone := h.forget fun m e hw => hok m hw.1 (by rw [hw.2, fdOnly_fdKey])
    exact ⟨⟨h.world.seated, h.world.computes.congr rfl rfl rfl⟩, hgone.timeout, hgone.gen, hgone.waits⟩
  | peerWrite hc => exact ⟨h.world, h.timeout, h.gen, h.waits⟩
  | peerClose => exact ⟨h.world, h.timeout, h.gen, h.waits⟩

theorem start (birth : ℕ) (capacity : ChanId → ℕ) (n : ℕ) : (Net.start (World.start birth capacity n)).Sound := by
  refine ⟨World.start_inv birth capacity n, (fun l c hc => by cases hc), (fun l c hc => by cases hc), fun l fd e hw => ?_⟩
  exact absurd hw.1 List.not_mem_nil

theorem reachable {ok : Net → NetLabel → Prop} (hok : ∀ x a, ok x a → x.orderly a) (h : netMachine.Reachable ok x) :
    x.Sound := by
  refine h.invariant (fun y hy => ?_) (fun y a y' hy ha hs => hy.step (hok y a ha) hs)
  obtain ⟨birth, capacity, n, rfl⟩ := hy
  exact start birth capacity n

end Sound

/-- An lthread that has `LT_ST_FDEOF` from another descriptor makes no socket call before it
has called `lthread_close`. -/
def heedsEof (x : Net) (a : NetLabel) : Prop :=
  x.orderly a ∧ match a with
    | .call _ fd _ _ => ∀ l, x.world.cpu = .run l → x.world.sched.has l .fdeof = true → (fd, x.gen fd) ∈ x.hung l
    | _ => True

instance (x : Net) (a : NetLabel) : Decidable (x.heedsEof a) :=
  haveI : Decidable (match a with
      | .call _ fd _ _ => ∀ l, x.world.cpu = .run l → x.world.sched.has l .fdeof = true → (fd, x.gen fd) ∈ x.hung l
      | _ => True) :=
    match a with
    | .call _ fd _ _ => inferInstanceAs (Decidable (∀ l, x.world.cpu = .run l → _ → (fd, x.gen fd) ∈ x.hung l))
    | .world _ | .go _ | .close _ | .peerWrite _ _ | .peerClose _ => .isTrue trivial
  inferInstanceAs (Decidable (_ ∧ _))

structure Traced (x : Net) : Prop where
  flag : ∀ l c, x.sock l = some c → x.world.sched.has l .fdeof = true → (c.fd, c.gen) ∈ x.hung l
  returned : ∀ r ∈ x.returns, r.eof = true → (r.call.fd, r.call.gen) ∈ x.hung r.lt

namespace Traced

theorem noted {fd : Fd} {e : LtEvent} (hw : x.world.Waits l fd e) : (fd, x.gen fd) ∈ (x.noteHung fd).hung l := by
  change _ ∈ if _ then _ else _
  rw [if_pos ⟨hw.1, by rw [hw.2, fdOnly_fdKey]⟩]
  exact List.mem_cons_self

/-- The world makes a step; the history knows who is told of a hang-up by it. -/
theorem step_world (h : x.Traced) (hs : x.Sound) {a : Label} {w : World} {y : Net} (hw : x.world.step a = .ok w)
    (hy : y.world = w ∧ y.sock = x.sock ∧ y.returns = x.returns) (hold : ∀ l p, p ∈ x.hung l → p ∈ y.hung l)
    (hnew : ∀ l fd e, x.world.Waits l fd e → a.closes = some fd ∨ x.world.hangUp a = some fd →
      (fd, x.gen fd) ∈ y.hung l) : y.Traced := by
  obtain ⟨rfl, hsock, hret⟩ := hy
  refine ⟨fun l c hc hf => ?_, fun r hr he => ?_⟩
  · rw [hsock] at hc
    rcases hs.world.step_eof hw hf with hf | ⟨fd, e, hwait, hfd⟩
    · exact hold l _ (h.flag l c hc hf)
    · obtain ⟨d, hd, rfl, hgen⟩ := hs.waits l fd e hwait
      obtain rfl := Option.some_inj.mp (hc.symm.trans hd)
      rcases hgen with hgen | hgen
      · rw [hgen]
        exact hnew l c.fd e hwait hfd
      · exact hold l _ hgen
  · rw [hret] at hr
    exact hold _ _ (h.returned r hr he)

theorem worldStep (h : x.Traced) (hs : x.Sound) {a : Label} (hx : x.worldStep a = .ok x') : x'.Traced := by
  obtain ⟨w, hw, ⟨fd, hfd, rfl⟩ | ⟨fd, hno, hfd, rfl⟩ | ⟨hno, hno', rfl⟩⟩ := worldStep_cases hx
  · refine h.step_world hs hw ⟨rfl, rfl, rfl⟩ (fun l p hp => mem_noteHung hp) fun l fd' e hwait hev => ?_
    have hsame : fd' = fd := by
      rcases hev with hev | hev
      · exact Option.some_inj.mp (hev.symm.trans hfd)
      · obtain rfl := Label.eq_of_closes hfd
        cases hev
    subst hsame
    exact noted hwait
  · refine h.step_world hs hw ⟨rfl, rfl, rfl⟩ (fun l p hp => mem_noteHung hp) fun l fd' e hwait hev => ?_
    rcases hev with hev | hev
    · rw [hno] at hev
      cases hev
    · obtain rfl := Option.some_inj.mp (hev.symm.trans hfd)
      exact noted hwait
  · refine h.step_world hs hw ⟨rfl, rfl, rfl⟩ (fun l p hp => hp) fun l fd e hwait hev => ?_
    rcases hev with hev | hev
    · rw [hno] at hev
      cases hev
    · rw [hno'] at hev
      cases hev

theorem go (h : x.Traced) (hs : x.Sound) (hc : x.world.sched.has l .fdeof = true → (c.fd, c.gen) ∈ x.hung l)
    (hx : x.go l c r = .ok x') : x'.Traced := by
  rcases go_cases hx with ⟨res, eof, hnext, rfl⟩ | ⟨w, pc, count, hw, rfl⟩
  · refine ⟨fun m d hd hf => ?_, fun q hq he => ?_⟩
    · simp only [Function.update_apply] at hd
      split_ifs at hd
      exact h.flag m d hd hf
    · rcases List.mem_append.mp hq with hq | hq
      · exact h.returned q hq he
      · obtain rfl := List.mem_singleton.mp hq
        obtain rfl : eof = true := he
        exact hc (SockCall.next_eof hnext)
  · refine ⟨fun m d hd hf => ?_, h.returned⟩
    have hold : x.world.sched.has m .fdeof = true := by
      rcases hw with ⟨rfl, -⟩ | ⟨-, op, hw, hop⟩
      · exact hf
      · exact hs.inner_eof hw hop hf
    simp only [Function.update_apply] at hd
    split_ifs at hd with hm
    · obtain rfl := Option.some_inj.mp hd
      rw [hm] at hold ⊢
      exact hc hold
    · exact h.flag m d hd hold

theorem step (h : x.Traced) (hs : x.Sound) {a : NetLabel} (hok : x.heedsEof a) (hx : x.step a = .ok x') :
    x'.Traced := by
  cases step_case hx with
  | world ha hidle hx => exact h.worldStep hs hx
  | @call l fn fd length timeout hcpu hnone =>
    refine ⟨fun m d hd hf => ?_, h.returned⟩
    simp only [Function.update_apply] at hd
    split_ifs at hd with hm
    · obtain rfl := Option.some_inj.mp hd
      rw [hm] at hf ⊢
      exact hok.2 l hcpu hf
    · exact h.flag m d hd hf
  | @go l c r _ hcpu hc hr hx => exact h.go hs (h.flag l c hc) hx
  | @read l c r _ hcpu hc hr hallow hx =>
    have htook : (x.took c.fd r.taken).Traced := ⟨h.flag, h.returned⟩
    exact htook.go (c := { c with buf := c.buf ++ (x.stream c.fd).pending.take r.taken })
      (hs.took c.fd r.taken) (h.flag l c hc) hx
  | close hcpu hnone => exact ⟨h.flag, h.returned⟩
  | peerWrite hc => exact ⟨h.flag, h.returned⟩
  | peerClose => exact ⟨h.flag, h.returned⟩

theorem reachable (h : netMachine.Reachable heedsEof x) : x.Traced := by
  refine h.invariant_of (fun y hy => ?_) (fun y a y' hrun hy ha hs => ?_)
  · obtain ⟨birth, capacity, n, rfl⟩ := hy
    exact ⟨(fun l c hc => by cases hc), fun r hr => absurd hr List.not_mem_nil⟩
  · exact hy.step (Sound.reachable (fun x a ha => ha.1) hrun) ha hs

end Traced

/-- `main` creates an lthread and calls `lthread_run`, which resumes it. -/
def firstRuns : List NetLabel :=
  [.world .main, .world .run, .world .sched, .world .sched, .world .sched]

/-- The lthread has switched back, and `lthread_run` goes on to the poller. -/
def toPoller : List NetLabel := [.world .sched, .world .sched, .world .sched]

end Net
end Lthr

import Lthread.Proofs.Sockets

/-! The bytes of a stream. `lthread_read` and `lthread_recv` return them in order, but they
report the end as soon as `LT_ST_FDEOF` is set: if the hang-up is handled while the reader
waits and bytes are there too, these are never read. -/

namespace Lthr
namespace Net

variable {x x' : Net} {l : LtId} {c : SockCall} {r : SysRet}

/-- What the reads of the descriptor have returned since it was opened. -/
def returnedBytes (x : Net) (fd : Fd) : List UInt8 :=
  (x.returns.filter fun r => r.call.fn.reads && decide (r.call.fd = fd ∧ r.call.gen = x.gen fd)).flatMap (·.call.buf)

/-- A hang-up is handled only when the descriptor has no bytes left, and no read starts with
a `LT_ST_FDEOF` of another descriptor. The reads are `lthread_read` and `lthread_recv` with
a buffer of some size, they do not fail, and their descriptor is not closed under them. -/
def drainsFirst (x : Net) (a : NetLabel) : Prop :=
  x.orderly a ∧ match a with
    | .world b => ∀ fd ∈ x.world.hangUp b, (x.stream fd).Drained
    | .call fn fd length _ => fn.reads = true → fn = .recv ∧ 1 ≤ length ∧
        ∀ l, x.world.cpu = .run l → x.world.sched.has l .fdeof = true → (x.stream fd).Drained
    | .go r => ∀ p ∈ x.current, p.2.fn.reads = true → p.2.gen = x.gen p.2.fd ∧ r ≠ .error
    | _ => True

instance (x : Net) (a : NetLabel) : Decidable (x.drainsFirst a) :=
  haveI : Decidable (match a with
      | .world b => ∀ fd ∈ x.world.hangUp b, (x.stream fd).Drained
      | .call fn fd length _ => fn.reads = true → fn = .recv ∧ 1 ≤ length ∧
          ∀ l, x.world.cpu = .run l → x.world.sched.has l .fdeof = true → (x.stream fd).Drained
      | .go r => ∀ p ∈ x.current, p.2.fn.reads = true → p.2.gen = x.gen p.2.fd ∧ r ≠ .error
      | _ => True) :=
    match a with
    | .close _ | .peerWrite _ _ | .peerClose _ => .isTrue trivial
    | .world b => inferInstanceAs (Decidable (∀ fd ∈ x.world.hangUp b, (x.stream fd).Drained))
    | .call fn fd length _ => inferInstanceAs (Decidable (fn.reads = true → fn = .recv ∧ 1 ≤ length ∧
          ∀ l, x.world.cpu = .run l → x.world.sched.has l .fdeof = true → (x.stream fd).Drained))
    | .go r => inferInstanceAs (Decidable (∀ p ∈ x.current, p.2.fn.reads = true → p.2.gen = x.gen p.2.fd ∧ r ≠ .error))
  inferInstanceAs (Decidable (_ ∧ _))

structure Reading (c : SockCall) : Prop where
  fn : c.fn = .recv
  length : 1 ≤ c.length
  count : c.count = 0
  buf : c.buf = []

structure Data (x : Net) : Prop where
  reading : ∀ l c, x.sock l = some c → c.fn.reads = true → Reading c
  flag : ∀ l c, x.sock l = some c → c.fn.reads = true → c.gen = x.gen c.fd → x.world.sched.has l .fdeof = true →
    (x.stream c.fd).Drained
  flow : ∀ fd, x.wrote fd = x.returnedBytes fd ++ (x.stream fd).pending
  gen : ∀ r ∈ x.returns, r.call.gen ≤ x.gen r.call.fd
  ended : ∀ r ∈ x.returns, r.call.fn.reads = true → r.result = 0 ∨ r.result = -1 → r.left.Drained

namespace Data

theorem returnedBytes_append (x : Net) (fd : Fd) (q : SockRet) (s : LtId → Option SockCall) :
    ({ x with sock := s, returns := x.returns ++ [q] } : Net).returnedBytes fd =
      x.returnedBytes fd ++ if q.call.fn.reads = true ∧ q.call.fd = fd ∧ q.call.gen = x.gen fd then q.call.buf else [] := by
  unfold returnedBytes
  rw [List.filter_append, List.flatMap_append]
  congr 1
  by_cases hq : q.call.fn.reads = true ∧ q.call.fd = fd ∧ q.call.gen = x.gen fd
  · rw [if_pos hq, List.filter_cons_of_pos (by simp [hq])]
    simp
  · rw [if_neg hq, List.filter_cons_of_neg (by simpa using hq)]
    simp

theorem forget (h : x.Data) (hs : x.Sound) (fd : Fd) : (x.forget fd).Data := by
  have hgen {n : ℕ} {fd' : Fd} (hn : n ≤ x.gen fd') (hn' : n = Function.update x.gen fd (x.gen fd + 1) fd') :
      fd' ≠ fd := by
    rintro rfl
    rw [Function.update_self] at hn'
    omega
  refine ⟨h.reading, fun l c hc hr hg hf => ?_, fun fd' => ?_, fun q hq => ?_, h.ended⟩
  · have hne : c.fd ≠ fd := hgen (hs.gen l c hc) hg
    change c.gen = Function.update x.gen fd (x.gen fd + 1) c.fd at hg
    rw [Function.update_of_ne hne] at hg
    change (Function.update x.stream fd ⟨[], false⟩ c.fd).Drained
    rw [Function.update_of_ne hne]
    exact h.flag l c hc hr hg hf
  · change Function.update x.wrote fd [] fd' =
      (x.returns.filter fun r => r.call.fn.reads &&
        decide (r.call.fd = fd' ∧ r.call.gen = Function.update x.gen fd (x.gen fd + 1) fd')).flatMap (·.call.buf) ++
      (Function.update x.stream fd ⟨[], false⟩ fd').pending
    by_cases hfd : fd' = fd
    · subst hfd
      simp only [Function.update_self]
      rw [List.filter_eq_nil_iff.mpr]
      · rfl
      · intro q hq
        have := h.gen q hq
        simp only [Bool.and_eq_true, decide_eq_true_eq, not_and]
        rintro - rfl
        omega
    · simp only [Function.update_of_ne hfd]
      exact h.flow fd'
  · refine (h.gen q hq).trans ?_
    change _ ≤ Function.update x.gen fd (x.gen fd + 1) q.call.fd
    rw [Function.update_apply]
    split_ifs with hfd
    · rw [hfd]; omega
    · exact le_rfl

/-- The world makes a step; who gets the bit in it has nothing left to read. -/
theorem step_world (h : x.Data) (hinv : x.world.Inv true)
    (hwaits : ∀ l fd e, x.world.Waits l fd e → ∃ c, x.sock l = some c ∧ c.fd = fd) {a : Label} {w : World}
    (hw : x.world.step a = .ok w)
    (hnew : ∀ l c, x.sock l = some c → c.gen = x.gen c.fd →
      a.closes = some c.fd ∨ x.world.hangUp a = some c.fd → (x.stream c.fd).Drained) :
    ({ x with world := w } : Net).Data := by
  refine ⟨h.reading, fun l c hc hr hg hf => ?_, h.flow, h.gen, h.ended⟩
  rcases hinv.step_eof hw hf with hf | ⟨fd, e, hwait, hfd⟩
  · exact h.flag l c hc hr hg hf
  · obtain ⟨d, hd, rfl⟩ := hwaits l fd e hwait
    obtain rfl := Option.some_inj.mp (hc.symm.trans hd)
    exact hnew l c hc hg hfd

theorem noteHung (h : x.Data) (fd : Fd) : (x.noteHung fd).Data := ⟨h.reading, h.flag, h.flow, h.gen, h.ended⟩

theorem worldStep (h : x.Data) (hs : x.Sound) {a : Label} (hok : ∀ fd ∈ x.world.hangUp a, (x.stream fd).Drained)
    (hx : x.worldStep a = .ok x') : x'.Data := by
  have hwaits (l : LtId) (fd : Fd) (e : LtEvent) (hw : x.world.Waits l fd e) : ∃ c, x.sock l = some c ∧ c.fd = fd := by
    obtain ⟨c, hc, hfd, -⟩ := hs.waits l fd e hw
    exact ⟨c, hc, hfd⟩
  obtain ⟨w, hw, ⟨fd, hfd, rfl⟩ | ⟨fd, hno, hfd, rfl⟩ | ⟨hno, hno', rfl⟩⟩ := worldStep_cases hx
  · refine ((h.noteHung fd).forget (hs.noteHung fd) fd).step_world hs.world hwaits hw fun l c hc hg hev => ?_
    -- no call is on the descriptor that will have the number next
    obtain rfl := Label.eq_of_closes hfd
    rcases hev with hev | hev
    · obtain rfl := Option.some_inj.mp hev
      have hle := hs.gen l c hc
      change c.gen = Function.update x.gen c.fd (x.gen c.fd + 1) c.fd at hg
      rw [Function.update_self] at hg
      omega
    · cases hev
  · refine (h.noteHung fd).step_world hs.world hwaits hw fun l c hc hg hev => ?_
    rcases hev with hev | hev
    · rw [hno] at hev
      cases hev
    · exact hok c.fd hev
  · refine h.step_world hs.world hwaits hw fun l c hc hg hev => ?_
    rcases hev with hev | hev
    · rw [hno] at hev
      cases hev
    · rw [hno'] at hev
      cases hev

/-- The running lthread begins a call, or is at another place of the one it is in. -/
theorem update (h : x.Data) (hc : c.fn.reads = true → Reading c)
    (hf : c.fn.reads = true → c.gen = x.gen c.fd → x.world.sched.has l .fdeof = true → (x.stream c.fd).Drained) :
    ({ x with sock := Function.update x.sock l (some c) } : Net).Data := by
  have hsock {m : LtId} {d : SockCall} (hm : Function.update x.sock l (some c) m = some d) :
      m = l ∧ d = c ∨ x.sock m = some d := by
    rw [Function.update_apply] at hm
    split_ifs at hm with hml
    · exact Or.inl ⟨hml, (Option.some_inj.mp hm).symm⟩
    · exact Or.inr hm
  refine ⟨fun m d hm hr => ?_, fun m d hm hr hg hfl => ?_, h.flow, h.gen, h.ended⟩
  · rcases hsock hm with ⟨-, rfl⟩ | hm
    · exact hc hr
    · exact h.reading m d hm hr
  · rcases hsock hm with ⟨rfl, rfl⟩ | hm
    · exact hf hr hg hfl
    · exact h.flag m d hm hr hg hfl

/-- The running lthread returns from its call `d`, which has stored `d.buf` and left `y`. -/
theorem returned (h : x.Data) (q : SockRet) (hg : q.call.gen ≤ x.gen q.call.fd)
    (hbuf : q.call.fn.reads = true → q.call.buf = [])
    (hend : q.call.fn.reads = true → q.result = 0 ∨ q.result = -1 → q.left.Drained) :
    ({ x with sock := Function.update x.sock l none, returns := x.returns ++ [q] } : Net).Data := by
  have hsock {m : LtId} {d : SockCall} (hm : Function.update x.sock l none m = some d) : x.sock m = some d := by
    rw [Function.update_apply] at hm
    split_ifs at hm
    exact hm
  refine ⟨fun m d hm => h.reading m d (hsock hm), fun m d hm => h.flag m d (hsock hm), fun fd => ?_,
    fun p hp => ?_, fun p hp => ?_⟩
  · rw [returnedBytes_append]
    have hnil : (if q.call.fn.reads = true ∧ q.call.fd = fd ∧ q.call.gen = x.gen fd then q.call.buf else []) = [] := by
      split_ifs with hq
      · exact hbuf hq.1
      · rfl
    rw [hnil, List.append_nil]
    exact h.flow fd
  · rcases List.mem_append.mp hp with hp | hp
    · exact h.gen p hp
    · rw [List.mem_singleton.mp hp]
      exact hg
  · rcases List.mem_append.mp hp with hp | hp
    · exact h.ended p hp
    · rw [List.mem_singleton.mp hp]
      exact hend

theorem go (h : x.Data) (hs : x.Sound) (hc : x.sock l = some c)
    (hr : c.fn.reads = true → c.gen = x.gen c.fd ∧ (c.pc = .sys → r = .again)) (hx : x.go l c r = .ok x') :
    x'.Data := by
  have hreading := h.reading l c hc
  rcases go_cases hx with ⟨res, eof, hnext, rfl⟩ | ⟨w, pc, count, hw, rfl⟩
  · refine h.returned ⟨l, c, res, eof, x.stream c.fd⟩ (hs.gen l c hc) (fun hread => (hreading hread).buf)
      fun hread hres => ?_
    -- of the two ways back without a system call, the timeout gives -2
    have hfd : x.world.sched.has l .fdeof = true := by
      have hfn := (hreading hread).fn
      have hsys := (hr hread).2
      unfold SockCall.next SockCall.lthreadRecv at hnext
      rw [hfn] at hnext
      grind
    exact h.flag l c hc hread (hr hread).1 hfd
  · have hcount (hread : c.fn.reads = true) : count = 0 := by
      have hfn := (hreading hread).fn
      have hzero := (hreading hread).count
      rcases hw with ⟨-, hnext⟩ | ⟨hcount, -⟩
      · unfold SockCall.next SockCall.lthreadRecv at hnext
        rw [hfn] at hnext
        grind
      · exact hcount.trans hzero
    have hnew : ({ x with sock := Function.update x.sock l (some { c with pc := pc, count := count }) } : Net).Data := by
      refine h.update (c := { c with pc := pc, count := count }) (fun hread => ?_) (h.flag l c hc)
      exact ⟨(hreading hread).fn, (hreading hread).length, hcount hread, (hreading hread).buf⟩
    rcases hw with ⟨rfl, -⟩ | ⟨-, op, hw, hop⟩
    · exact hnew
    · refine ⟨hnew.reading, fun m d hm hread hg hf => ?_, h.flow, h.gen, h.ended⟩
      exact hnew.flag m d hm hread hg (hs.inner_eof hw hop hf)

theorem took_zero (x : Net) (fd : Fd) : x.took fd 0 = x := by
  unfold took
  rw [List.drop_zero, Function.update_eq_self]

theorem took_data (fd : Fd) (n : ℕ) (fd' : Fd) : ((x.took fd n).stream fd').closed = (x.stream fd').closed ∧
    ((x.took fd n).stream fd').pending =
      if fd' = fd then (x.stream fd).pending.drop n else (x.stream fd').pending := by
  unfold took
  simp only [Function.update_apply]
  split_ifs with h
  · exact ⟨by rw [h], rfl⟩
  · exact ⟨rfl, rfl⟩

theorem took_drained {fd fd' : Fd} {n : ℕ} (h : (x.stream fd').Drained) : ((x.took fd n).stream fd').Drained := by
  obtain ⟨hclosed, hpending⟩ := took_data (x := x) fd n fd'
  refine ⟨?_, hclosed.trans h.2⟩
  rw [hpending]
  split_ifs with hfd
  · rw [← hfd, h.1, List.drop_nil]
  · exact h.1

theorem read (h : x.Data) (hs : x.Sound) (hc : x.sock l = some c) (hread : c.fn.reads = true)
    (hg : c.gen = x.gen c.fd) {n : ℕ} (hallow : (x.stream c.fd).allows (c.length - c.count) (.done n)) :
    ({ x.took c.fd n with
      sock := Function.update x.sock l none
      returns := x.returns ++ [⟨l, { c with buf := c.buf ++ (x.stream c.fd).pending.take n }, n, false,
        (x.took c.fd n).stream c.fd⟩] } : Net).Data := by
  obtain ⟨hn, hpend, hzero⟩ := hallow
  obtain ⟨hfn, hlen, hcount, hbuf⟩ := h.reading l c hc hread
  have hsock {m : LtId} {d : SockCall} (hm : Function.update x.sock l none m = some d) : x.sock m = some d := by
    rw [Function.update_apply] at hm
    split_ifs at hm
    exact hm
  refine ⟨fun m d hm => h.reading m d (hsock hm),
    fun m d hm hr hd hf => took_drained (h.flag m d (hsock hm) hr hd hf), fun fd => ?_, fun q hq => ?_, fun q hq => ?_⟩
  · refine (h.flow fd).trans ?_
    rw [(took_data (x := x) c.fd n fd).2, show ∀ q : SockRet, ({ x.took c.fd n with
      sock := Function.update x.sock l none, returns := x.returns ++ [q] } : Net).returnedBytes fd = _ from
      fun q => returnedBytes_append (x.took c.fd n) fd q (Function.update x.sock l none)]
    by_cases hfd : fd = c.fd
    · subst hfd
      rw [if_pos ⟨hread, rfl, hg⟩, if_pos rfl, List.append_assoc, hbuf, List.nil_append, List.take_append_drop]
      rfl
    · rw [if_neg fun h0 => hfd h0.2.1.symm, if_neg hfd, List.append_nil]
      rfl
  · rcases List.mem_append.mp hq with hq | hq
    · exact h.gen q hq
    · rw [List.mem_singleton.mp hq]
      exact hs.gen l c hc
  · rcases List.mem_append.mp hq with hq | hq
    · exact h.ended q hq
    · rw [List.mem_singleton.mp hq]
      rintro - hres
      have hn0 : n = 0 := by
        simp only at hres
        omega
      rcases hzero hn0 with hwant | hdr
      · omega
      · exact took_drained hdr

theorem step (h : x.Data) (hs : x.Sound) {a : NetLabel} (hok : x.drainsFirst a) (hx : x.step a = .ok x') :
    x'.Data := by
  have hcur {l : LtId} {c : SockCall} (hcpu : x.world.cpu = .run l) (hc : x.sock l = some c) : (l, c) ∈ x.current := by
    unfold current
    rw [hcpu]
    simp [hc]
  cases step_case hx with
  | world ha hidle hx => exact h.worldStep hs hok.2 hx
  | @call l fn fd length timeout hcpu hnone =>
    refine h.update (c := ⟨fn, fd, length, timeout, .top, 0, [], x.gen fd⟩) (fun hr => ?_) fun hr hg hf => ?_
    · obtain ⟨hfn, hlen, -⟩ := hok.2 hr
      exact ⟨hfn, hlen, rfl, rfl⟩
    · exact (hok.2 hr).2.2 l hcpu hf
  | @go l c r _ hcpu hc hr hx =>
    refine h.go hs hc (fun hread => ⟨(hok.2 (l, c) (hcur hcpu hc) hread).1, fun hpc => ?_⟩) hx
    exact absurd ⟨hpc, hread⟩ hr
  | @read l c r _ hcpu hc hr hallow hx =>
    obtain ⟨hg, hne⟩ := hok.2 (l, c) (hcur hcpu hc) hr.2
    have hreading := h.reading l c hc hr.2
    cases r with
    | error => exact absurd rfl hne
    | again =>
      change (x.took c.fd 0).go l { c with buf := c.buf ++ (x.stream c.fd).pending.take 0 } .again = .ok x' at hx
      rw [took_zero, List.take_zero, List.append_nil] at hx
      exact h.go hs hc (fun _ => ⟨hg, fun _ => rfl⟩) hx
    | done n =>
      have hnext (buf : List UInt8) (f e : Bool) : SockCall.next { c with buf := buf } f e (.done n) = .ret n false := by
        simp only [SockCall.next, SockCall.lthreadRecv, hreading.fn, hr.1]
      unfold Net.go at hx
      rw [hnext] at hx
      rw [← Except.ok.inj hx]
      exact h.read hs hc hr.2 hg hallow
  | @close l fd hcpu hnone =>
    have hgone := h.forget hs fd
    exact ⟨hgone.reading, hgone.flag, hgone.flow, hgone.gen, hgone.ended⟩
  | @peerWrite fd bytes hopen =>
    refine ⟨h.reading, fun l c hc hr hg hf => ?_, fun fd' => ?_, h.gen, h.ended⟩
    · have hdr := h.flag l c hc hr hg hf
      have hne : c.fd ≠ fd := by
        rintro rfl
        rw [hdr.2] at hopen
        cases hopen
      change (Function.update x.stream fd _ c.fd).Drained
      rwa [Function.update_of_ne hne]
    · change Function.update x.wrote fd _ fd' = x.returnedBytes fd' ++ (Function.update x.stream fd _ fd').pending
      by_cases hfd : fd' = fd
      · subst hfd
        rw [Function.update_self, Function.update_self, h.flow, List.append_assoc]
      · rw [Function.update_of_ne hfd, Function.update_of_ne hfd]
        exact h.flow fd'
  | @peerClose fd =>
    have hpend (fd' : Fd) : (Function.update x.stream fd { x.stream fd with closed := true } fd').pending =
        (x.stream fd').pending := by
      rw [Function.update_apply]
      split_ifs with hfd
      · rw [hfd]
      · rfl
    refine ⟨h.reading, fun l c hc hr hg hf => ?_, fun fd' => ?_, h.gen, h.ended⟩
    · have hdr := h.flag l c hc hr hg hf
      refine ⟨(hpend c.fd).trans hdr.1, ?_⟩
      change (Function.update x.stream fd { x.stream fd with closed := true } c.fd).closed = true
      rw [Function.update_apply]
      split_ifs
      · rfl
      · exact hdr.2
    · refine (h.flow fd').trans ?_
      rw [← hpend fd']
      rfl

theorem reachable (h : netMachine.Reachable drainsFirst x) : x.Data := by
  refine h.invariant_of (fun y hy => ?_) (fun y a y' hrun hy ha hs => ?_)
  · obtain ⟨birth, capacity, n, rfl⟩ := hy
    exact ⟨(fun l c hc => by cases hc), (fun l c hc => by cases hc), fun fd => rfl,
      fun r hr => absurd hr List.not_mem_nil, fun r hr => absurd hr List.not_mem_nil⟩
  · exact hy.step (Sound.reachable (fun x a ha => ha.1) hrun) ha hs

end Data
/-- If hang-ups are handled only for descriptors that have nothing left, and reads start
without the `LT_ST_FDEOF` of another descriptor, `lthread_read` and `lthread_recv` lose
nothing: what they have returned, followed by what is unread, is what the peer has written,
and a call that reports the end with 0 or -1 leaves nothing unread of a stream that the peer
has closed. -/
theorem reads_lose_nothing (h : netMachine.Reachable drainsFirst x) :
    (∀ fd, x.wrote fd = x.returnedBytes fd ++ (x.stream fd).pending) ∧
      ∀ r ∈ x.returns, r.call.fn = .recv → r.result = 0 ∨ r.result = -1 →
        r.left.pending = [] ∧ r.left.closed = true := by
  have hdata := Data.reachable h
  refine ⟨hdata.flow, fun r hr hfn hres => ?_⟩
  exact hdata.ended r hr (by rw [hfn]; rfl) hres

set_option maxRecDepth 20000 in
/-- The reader of a pipe waits; three bytes and the hang-up arrive together, and the call
returns -1 with the bytes unread. -/
theorem reads_lose_nothing_hup :
    ∃ x, netMachine.Reachable orderly x ∧ x.wrote 5 = [1, 2, 3] ∧ x.returnedBytes 5 = [] ∧
      x.returns.map (fun r => (r.call.fn, r.result, r.left)) = [(.recv, -1, ⟨[1, 2, 3], true⟩)] := by
  obtain ⟨x, hrun, hsee⟩ := exists_after orderly (firstRuns ++
      [.call .recv 5 10 0, .go .again, .go .again] ++ toPoller ++
      [.peerWrite 5 [1, 2, 3], .peerClose 5, .world (.poll [.ready 5 true]), .world .sched, .go .again, .go .again])
    (fun x => decide (x.wrote 5 = [1, 2, 3] ∧ x.returnedBytes 5 = [] ∧
      x.returns.map (fun r => (r.call.fn, r.result, r.left)) = [(.recv, -1, ⟨[1, 2, 3], true⟩)])) (t := true) (by decide)
  exact ⟨x, hrun, of_decide_eq_true hsee⟩

set_option maxRecDepth 20000 in
/-- The poller reports three bytes first; the reader takes two of them, then the last one,
and then gets 0. -/
theorem reads_lose_nothing_drain :
    ∃ x, netMachine.Reachable drainsFirst x ∧ x.wrote 5 = [1, 2, 3] ∧ x.returnedBytes 5 = [1, 2, 3] ∧
      ∃ r ∈ x.returns, r.call.fn = .recv ∧ r.result = 0 ∧ r.left.pending = [] ∧ r.left.closed = true := by
  obtain ⟨x, hrun, hsee⟩ := exists_after drainsFirst (firstRuns ++
      [.call .recv 5 2 0, .go .again, .go .again] ++ toPoller ++
      [.peerWrite 5 [1, 2, 3], .peerClose 5, .world (.poll [.ready 5 false]), .world .sched, .go .again, .go .again,
        .go (.done 2), .call .recv 5 2 0, .go .again, .go (.done 1), .call .recv 5 2 0, .go .again, .go (.done 0)])
    (fun x => decide (x.wrote 5 = [1, 2, 3] ∧ x.returnedBytes 5 = [1, 2, 3] ∧
      ∃ r ∈ x.returns, r.call.fn = .recv ∧ r.result = 0)) (t := true) (by decide)
  obtain ⟨h1, h2, r, hr, hfn, hres⟩ := of_decide_eq_true hsee
  exact ⟨x, hrun, h1, h2, r, hr, hfn, hres, (reads_lose_nothing hrun).2 r hr hfn (Or.inl hres)⟩

end Net
end Lthr

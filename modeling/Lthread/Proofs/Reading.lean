import Lthread.Spec.Transfer
import Lthread.Proofs.WorldCalls

/-! What the readers of a stream store: `lthread_recv_exact` and `net_conn_readfull` the
bytes that come next, `lthread_readline` a line at a time. A step of a call of `lthread_recv`
or `lthread_recv_exact` is described once, and each reader keeps the stream split into
what it has stored and what is still to be read. -/

namespace Lthr

/-- What makes a read return -1 or -2 at the place it has reached. -/
def SockCall.failsOn (c : SockCall) (a : SockEnv) : Prop :=
  match c.pc with
  | .top => a.fdeof = true
  | .sys => a.ret = .error
  | .waited => a.expired = true

instance (c : SockCall) (a : SockEnv) : Decidable (c.failsOn a) :=
  match h : c.pc with
  | .top => decidable_of_iff (a.fdeof = true) (by unfold SockCall.failsOn; rw [h])
  | .sys => decidable_of_iff (a.ret = .error) (by unfold SockCall.failsOn; rw [h])
  | .waited => decidable_of_iff (a.expired = true) (by unfold SockCall.failsOn; rw [h])

/-- What makes `lthread_recv` return without a byte: it fails, times out or finds the end of
the stream. -/
def SockCall.stopsOn (c : SockCall) (a : SockEnv) : Prop := c.failsOn a ∨ c.pc = .sys ∧ a.ret = .done 0

instance (c : SockCall) (a : SockEnv) : Decidable (c.stopsOn a) := inferInstanceAs (Decidable (_ ∨ _))

/-- What a step of `lthread_recv` does: it goes on with nothing read, it fails, or it
returns what the system call has taken. -/
theorem SockCall.readStep_recv {c c' : SockCall} {s s' : Stream} {a : SockEnv} {r : Option ℤ} (hfn : c.fn = .recv)
    (h0 : c.count = 0) (h : c.readStep s a = .ok (s', c', r)) :
    (¬ c.failsOn a ∧ (∀ n, c.pc = .sys → a.ret ≠ .done n) ∧ ∃ pc, s' = s ∧ c' = { c with pc := pc } ∧ r = none) ∨
      (c.failsOn a ∧ s' = s ∧ c' = c ∧ (r = some (-1) ∨ r = some (-2))) ∨
      ∃ n, c.pc = .sys ∧ a.ret = .done n ∧ s.allows c.length (.done n) ∧
        s' = { s with pending := s.pending.drop n } ∧ c' = { c with buf := c.buf ++ s.pending.take n } ∧
        r = some (n : ℤ) := by
  obtain ⟨fn, fd, length, timeout, pc, count, buf, gen⟩ := c
  obtain rfl : fn = .recv := hfn
  obtain rfl : count = 0 := h0
  unfold readStep advance next lthreadRecv failsOn at *
  cases pc with
  | top =>
    simp only [reduceCtorEq, if_false] at h ⊢
    by_cases hf : a.fdeof = true
    · rw [if_pos hf] at h
      cases h
      exact Or.inr (Or.inl ⟨hf, rfl, rfl, Or.inl rfl⟩)
    · rw [if_neg hf] at h
      cases h
      exact Or.inl ⟨hf, nofun, .sys, rfl, rfl, rfl⟩
  | waited =>
    simp only [reduceCtorEq, if_false] at h ⊢
    by_cases hf : a.expired = true
    · rw [if_pos hf] at h
      cases h
      exact Or.inr (Or.inl ⟨hf, rfl, rfl, Or.inr rfl⟩)
    · rw [if_neg hf] at h
      cases h
      exact Or.inl ⟨hf, nofun, .top, rfl, rfl, rfl⟩
  | sys =>
    simp only [if_true, Nat.sub_zero] at h ⊢
    by_cases hallow : s.allows length a.ret
    · rw [if_pos hallow] at h
      rcases hr : a.ret with n | _ | _
      · rw [hr] at h hallow
        cases h
        exact Or.inr (Or.inr ⟨n, trivial, rfl, hallow, rfl, rfl, rfl⟩)
      · rw [hr] at h
        simp only [SysRet.taken, List.drop_zero, List.take_zero, List.append_nil] at h
        cases h
        exact Or.inl ⟨nofun, nofun, .waited, rfl, rfl, rfl⟩
      · rw [hr] at h
        simp only [SysRet.taken, List.drop_zero, List.take_zero, List.append_nil] at h
        cases h
        exact Or.inr (Or.inl ⟨rfl, rfl, rfl, Or.inl rfl⟩)
    · rw [if_neg hallow] at h
      cases h

/-- A step of `lthread_recv_exact`, which returns the number of the bytes it has when
these are all it wants or the stream ends. -/
theorem SockCall.readStep_recvExact {c c' : SockCall} {s s' : Stream} {a : SockEnv} {r : Option ℤ}
    (hfn : c.fn = .recvExact) (h : c.readStep s a = .ok (s', c', r)) :
    (∃ pc, (pc = .sys → c.count ≠ c.length) ∧ s' = s ∧ c' = { c with pc := pc } ∧ r = none) ∨
      (s' = s ∧ c' = c ∧ (r = some (-1) ∨ r = some (-2))) ∨
      (s' = s ∧ c' = c ∧ r = some (c.count : ℤ) ∧
        (c.count = c.length ∨ c.pc = .sys ∧ (c.length - c.count = 0 ∨ s.Drained))) ∨
      ∃ n, n ≤ c.length - c.count ∧ n ≤ s.pending.length ∧ s' = { s with pending := s.pending.drop n } ∧
        c' = { c with pc := .top, count := c.count + n, buf := c.buf ++ s.pending.take n } ∧ r = none := by
  obtain ⟨fn, fd, length, timeout, pc, count, buf, gen⟩ := c
  obtain rfl : fn = .recvExact := hfn
  unfold readStep advance next lthreadRecvExact at h
  cases pc with
  | top =>
    simp only [reduceCtorEq, if_false] at h ⊢
    by_cases hl : count = length
    · rw [if_pos hl] at h
      cases h
      exact Or.inr (Or.inr (Or.inl ⟨rfl, rfl, rfl, Or.inl hl⟩))
    · rw [if_neg hl] at h
      by_cases hf : a.fdeof = true
      · rw [if_pos hf] at h
        cases h
        exact Or.inr (Or.inl ⟨rfl, rfl, Or.inl rfl⟩)
      · rw [if_neg hf] at h
        cases h
        exact Or.inl ⟨.sys, fun _ => hl, rfl, rfl, rfl⟩
  | waited =>
    simp only [reduceCtorEq, if_false] at h ⊢
    by_cases hf : a.expired = true
    · rw [if_pos hf] at h
      cases h
      exact Or.inr (Or.inl ⟨rfl, rfl, Or.inr rfl⟩)
    · rw [if_neg hf] at h
      cases h
      exact Or.inl ⟨.top, nofun, rfl, rfl, rfl⟩
  | sys =>
    simp only [if_true] at h ⊢
    by_cases hallow : s.allows (length - count) a.ret
    · rw [if_pos hallow] at h
      rcases hr : a.ret with (_ | n) | _ | _
      · rw [hr] at h hallow
        simp only [SysRet.taken, List.drop_zero, List.take_zero, List.append_nil, if_true] at h
        cases h
        exact Or.inr (Or.inr (Or.inl ⟨rfl, rfl, rfl, Or.inr ⟨trivial, hallow.2.2 rfl⟩⟩))
      · rw [hr] at h hallow
        simp only [SysRet.taken, Nat.add_eq_zero_iff, one_ne_zero, and_false, if_false] at h
        cases h
        exact Or.inr (Or.inr (Or.inr ⟨n + 1, hallow.1, hallow.2.1, rfl, rfl, rfl⟩))
      · rw [hr] at h
        simp only [SysRet.taken, List.drop_zero, List.take_zero, List.append_nil] at h
        cases h
        exact Or.inl ⟨.waited, nofun, rfl, rfl, rfl⟩
      · rw [hr] at h
        simp only [SysRet.taken, List.drop_zero, List.take_zero, List.append_nil] at h
        cases h
        exact Or.inr (Or.inl ⟨rfl, rfl, Or.inl rfl⟩)
    · rw [if_neg hallow] at h
      cases h

/-! The bytes of a source that have been taken -/

def Source.Split (s : Source) (taken : List UInt8) : Prop := s.wrote = taken ++ s.stream.pending

theorem Source.Split.take {s : Source} {taken : List UInt8} (h : s.Split taken) (n : ℕ) :
    Source.Split { s with stream := { s.stream with pending := s.stream.pending.drop n } }
      (taken ++ s.stream.pending.take n) := by
  unfold Source.Split at *
  rw [List.append_assoc, List.take_append_drop]
  exact h

theorem Source.Split.peerWrite {s s' : Source} {taken bytes : List UInt8} (h : s.Split taken)
    (hs : s.peerWrite bytes = .ok s') : s'.Split taken := by
  unfold Source.peerWrite at hs
  split_ifs at hs with hc
  obtain rfl := Except.ok.inj hs
  unfold Source.Split at *
  rw [h, List.append_assoc]

theorem Source.Split.prefix_take {s : Source} {taken : List UInt8} (h : s.Split taken) :
    taken = s.wrote.take taken.length := by
  rw [h, List.take_left']
  rfl

/-! `lthread_recv_exact` and `lthread_read_exact` -/

namespace RecvExact

variable {len : ℕ} {x x' : RecvExact} {a : ReadLabel}

/-- The buffer holds the next `recvd` bytes of the stream. -/
structure Holds (len : ℕ) (x : RecvExact) : Prop where
  fn : x.call.fn = .recvExact
  length : x.call.length = len
  count : x.call.count ≤ len
  buf : x.call.buf.length = x.call.count
  split : x.source.Split x.call.buf
  sys : x.call.pc = .sys → x.call.count ≠ len
  returned : ∀ r, x.returned = some r → 0 ≤ r → r = x.call.count ∧ (x.call.count = len ∨ x.source.stream.Drained)

theorem Holds.start (fd : Fd) (timeout : ℕ) (s : Stream) : (start fd len timeout s).Holds len :=
  ⟨rfl, rfl, Nat.zero_le _, rfl, rfl, nofun, nofun⟩

theorem Holds.go {s : Stream} {c : SockCall} {r : Option ℤ} {e : SockEnv} (h : x.Holds len)
    (hs : x.call.readStep x.source.stream e = .ok (s, c, r)) :
    Holds len { call := c, source := { x.source with stream := s }, returned := r } := by
  rcases SockCall.readStep_recvExact h.fn hs with ⟨pc, hpc, rfl, rfl, rfl⟩ | ⟨rfl, rfl, hr⟩ | ⟨rfl, rfl, rfl, hend⟩ |
    ⟨n, hn, hp, rfl, rfl, rfl⟩
  · exact ⟨h.fn, h.length, h.count, h.buf, h.split, fun hsys => h.length ▸ hpc hsys, nofun⟩
  · refine ⟨h.fn, h.length, h.count, h.buf, h.split, h.sys, fun r hret h0 => ?_⟩
    rcases hr with rfl | rfl
    all_goals
      obtain rfl := Option.some_inj.mp hret
      exact absurd h0 (by decide)
  · refine ⟨h.fn, h.length, h.count, h.buf, h.split, h.sys, fun r hret _ => ?_⟩
    obtain rfl := Option.some_inj.mp hret
    refine ⟨rfl, ?_⟩
    rw [h.length] at hend
    rcases hend with hl | ⟨hsys, h0 | hd⟩
    · exact Or.inl hl
    · -- at the system call something is still wanted
      have := h.sys hsys
      have := h.count
      omega
    · exact Or.inr hd
  · have hcount := h.count
    have hlen := h.length
    refine ⟨h.fn, h.length, ?_, ?_, h.split.take n, nofun, nofun⟩
    · change x.call.count + n ≤ len
      omega
    · change (x.call.buf ++ x.source.stream.pending.take n).length = x.call.count + n
      rw [List.length_append, List.length_take, min_eq_left hp, h.buf]

theorem Holds.step (h : x.Holds len) (hs : x.step a = .ok x') : x'.Holds len := by
  cases a with
  | go e =>
    unfold RecvExact.step at hs
    split_ifs at hs with hr
    obtain ⟨⟨s, c, r⟩, hread, hs⟩ := except_bind_ok hs
    obtain rfl := Except.ok.inj hs
    exact h.go hread
  | peerWrite bytes =>
    obtain ⟨s, hw, hs⟩ := except_bind_ok hs
    obtain rfl := Except.ok.inj hs
    refine ⟨h.fn, h.length, h.count, h.buf, h.split.peerWrite hw, h.sys, fun r hret h0 => ?_⟩
    obtain ⟨hc, hl | hd⟩ := h.returned r hret h0
    · exact ⟨hc, Or.inl hl⟩
    · -- nothing is written to a stream that is closed
      unfold Source.peerWrite at hw
      rw [if_pos hd.2] at hw
      cases hw
  | peerClose =>
    obtain rfl := Except.ok.inj hs
    refine ⟨h.fn, h.length, h.count, h.buf, h.split, h.sys, fun r hret h0 => ?_⟩
    obtain ⟨hc, hl | hd⟩ := h.returned r hret h0
    · exact ⟨hc, Or.inl hl⟩
    · exact ⟨hc, Or.inr ⟨hd.1, rfl⟩⟩

theorem holds_reachable {ok : RecvExact → ReadLabel → Prop} (h : (recvExactMachine len).Reachable ok x) :
    x.Holds len := by
  apply Machine.Reachable.invariant _ (fun y a y' hy _ hs => hy.step hs) h
  rintro y ⟨fd, timeout, s, rfl⟩
  exact Holds.start fd timeout s

end RecvExact

/-! `net_conn_readfull` -/

namespace ReadFull

variable {len timeout : ℕ} {fd : Fd} {x x' : ReadFull} {a : ReadLabel}

/-- The buffer holds the next `m` bytes of the stream. -/
structure Holds (len : ℕ) (x : ReadFull) : Prop where
  total : x.len = len
  sum : x.m + x.n = len
  buf : x.buf.length = x.m
  split : x.source.Split x.buf
  call : ∀ c, x.call = some c → c.fn = .recv ∧ c.count = 0 ∧ c.buf = [] ∧ c.length = x.n ∧ 0 < x.n
  returned : ∀ r, x.returned = some r → (r = len ∧ x.n = 0) ∨ (r ≤ 0 ∧ 0 < x.n)

theorem step_go (x : ReadFull) (e : SockEnv) :
    x.step fd timeout (.go e) = if x.returned = none then x.go e fd timeout else .error .disabled :=
  ite_not ..

theorem Holds.start (s : Stream) : (start len s).Holds len :=
  ⟨rfl, Nat.zero_add _, rfl, rfl, nofun, nofun⟩

theorem Holds.got {n : ℕ} (h : x.Holds len) (hgo : x.returned = none) (hn : n ≤ x.n) (h0 : 0 < x.n)
    (hp : n ≤ x.source.stream.pending.length) :
    Holds len (readReturned
      { x with
        buf := x.buf.take x.m ++ x.source.stream.pending.take n
        source := { x.source with stream := { x.source.stream with pending := x.source.stream.pending.drop n } } } n) := by
  have hbuf : x.buf.take x.m = x.buf := by rw [← h.buf, List.take_length]
  have hsum := h.sum
  unfold readReturned
  rw [hbuf]
  by_cases hz : (n : ℤ) ≤ 0
  · obtain rfl : n = 0 := by omega
    rw [if_pos hz]
    refine ⟨h.total, h.sum, ?_, h.split.take 0, nofun, fun r hret => ?_⟩
    · simpa using h.buf
    · obtain rfl := Option.some_inj.mp hret
      exact Or.inr ⟨le_rfl, h0⟩
  · rw [if_neg hz]
    refine ⟨h.total, ?_, ?_, h.split.take n, nofun, fun r hret => ?_⟩
    · simp only [Int.toNat_natCast]
      omega
    · simp only [Int.toNat_natCast]
      rw [List.length_append, List.length_take, min_eq_left hp, h.buf]
    · rw [show x.returned = some r from hret] at hgo
      cases hgo

theorem Holds.failed {r : ℤ} (h : x.Holds len) (hr : r = -1 ∨ r = -2) (h0 : 0 < x.n) :
    Holds len (readReturned { x with buf := x.buf.take x.m } r) := by
  have hneg : r ≤ 0 := by omega
  have hbuf : x.buf.take x.m = x.buf := by rw [← h.buf, List.take_length]
  unfold readReturned
  rw [if_pos hneg, hbuf]
  refine ⟨h.total, h.sum, h.buf, h.split, nofun, fun r' hret => ?_⟩
  obtain rfl := Option.some_inj.mp hret
  exact Or.inr ⟨hneg, h0⟩

theorem Holds.go {e : SockEnv} (h : x.Holds len) (hgo : x.returned = none) (hs : x.go e fd timeout = .ok x') :
    x'.Holds len := by
  unfold ReadFull.go at hs
  cases hc : x.call with
  | none =>
    rw [hc] at hs
    by_cases hn : 0 < x.n
    · simp only [if_pos hn] at hs
      obtain rfl := Except.ok.inj hs
      refine ⟨h.total, h.sum, h.buf, h.split, fun c hcall => ?_, h.returned⟩
      obtain rfl := Option.some_inj.mp hcall
      exact ⟨rfl, rfl, rfl, rfl, hn⟩
    · simp only [if_neg hn] at hs
      obtain rfl := Except.ok.inj hs
      refine ⟨h.total, h.sum, h.buf, h.split, nofun, fun r hret => ?_⟩
      obtain rfl := Option.some_inj.mp hret
      exact Or.inl ⟨by rw [h.total], by simpa using hn⟩
  | some c =>
    rw [hc] at hs
    obtain ⟨hfn, hcount, hbuf, hlen, h0⟩ := h.call c hc
    obtain ⟨⟨s, c', r⟩, hread, hs⟩ := except_bind_ok hs
    rcases SockCall.readStep_recv hfn hcount hread with ⟨-, -, pc, rfl, rfl, rfl⟩ | ⟨-, rfl, rfl, hr⟩ |
      ⟨n, -, -, hallow, rfl, rfl, rfl⟩
    · obtain rfl := Except.ok.inj hs
      refine ⟨h.total, h.sum, h.buf, h.split, fun c' hcall => ?_, h.returned⟩
      obtain rfl := Option.some_inj.mp hcall
      exact ⟨hfn, hcount, hbuf, hlen, h0⟩
    · rcases hr with rfl | rfl
      · obtain rfl := Except.ok.inj hs
        rw [hbuf, List.append_nil]
        exact h.failed (Or.inl rfl) h0
      · obtain rfl := Except.ok.inj hs
        rw [hbuf, List.append_nil]
        exact h.failed (Or.inr rfl) h0
    · obtain rfl := Except.ok.inj hs
      rw [hbuf, List.nil_append]
      exact h.got hgo (hlen ▸ hallow.1) h0 hallow.2.1

theorem Holds.step (h : x.Holds len) (hs : x.step fd timeout a = .ok x') : x'.Holds len := by
  cases a with
  | go e =>
    rw [step_go] at hs
    by_cases hr : x.returned = none
    · rw [if_pos hr] at hs
      exact h.go hr hs
    · rw [if_neg hr] at hs
      cases hs
  | peerWrite bytes =>
    obtain ⟨s, hw, hs⟩ := except_bind_ok hs
    obtain rfl := Except.ok.inj hs
    exact ⟨h.total, h.sum, h.buf, h.split.peerWrite hw, h.call, h.returned⟩
  | peerClose =>
    obtain rfl := Except.ok.inj hs
    exact ⟨h.total, h.sum, h.buf, h.split, h.call, h.returned⟩

theorem holds_reachable {ok : ReadFull → ReadLabel → Prop} (h : (readFullMachine fd timeout len).Reachable ok x) :
    x.Holds len := by
  apply Machine.Reachable.invariant _ (fun y a y' hy _ hs => hy.step hs) h
  rintro y ⟨s, rfl⟩
  exact Holds.start s

theorem Holds.full (h : x.Holds len) (hgo : x.returned = none) (hfull : x.buf.length = len) (e : SockEnv) :
    ∃ x', x.step fd timeout (.go e) = .ok x' ∧ x'.returned = some (len : ℤ) := by
  have hn : x.n = 0 := by
    have hsum := h.sum
    rw [← h.buf] at hsum
    omega
  have hcall : x.call = none := by
    cases hc : x.call with
    | none => rfl
    | some c =>
      have := (h.call c hc).2.2.2.2
      omega
  refine ⟨{ x with returned := some x.len }, ?_, by rw [h.total]⟩
  rw [step_go, if_pos hgo]
  unfold ReadFull.go
  simp only [hcall]
  rw [if_neg (by omega)]

theorem Holds.returned_iff {r : ℤ} (h : x.Holds len) (hret : x.returned = some r) :
    r = len ↔ x.buf.length = len := by
  have hsum := h.sum
  rw [← h.buf] at hsum
  rcases h.returned r hret with ⟨hr, hn⟩ | ⟨hr, hn⟩
  all_goals
    constructor
    all_goals
      intro _
      omega

end ReadFull

/-- `lthread_recv_exact` returns `r` with the next `r` bytes of the stream in its buffer,
and these are `length` bytes or all that there are. `net_conn_readfull` returns `len` just
when its buffer holds the next `len` bytes, and it does return then. If both return
`len` on one stream, both buffers are the same. -/
theorem exact_reads {len timeout : ℕ} {fd : Fd} {x : RecvExact} {y : ReadFull} {okx : RecvExact → ReadLabel → Prop}
    {oky : ReadFull → ReadLabel → Prop} (hx : (recvExactMachine len).Reachable okx x)
    (hy : (readFullMachine fd timeout len).Reachable oky y) :
    (∀ r, x.returned = some r → 0 ≤ r →
      r = x.call.buf.length ∧ x.call.buf = x.source.wrote.take x.call.buf.length ∧
        (r = len ∨ x.source.stream.closed = true ∧ x.source.wrote.length = x.call.buf.length)) ∧
    (∀ r, y.returned = some r → (r = len ↔ y.buf.length = len ∧ y.buf = y.source.wrote.take len)) ∧
    (y.returned = none → y.buf.length = len →
      ∀ e, ∃ y', y.step fd timeout (.go e) = .ok y' ∧ y'.returned = some (len : ℤ)) ∧
    (x.returned = some (len : ℤ) → y.returned = some (len : ℤ) →
      ∀ bytes, x.source.wrote <+: bytes → y.source.wrote <+: bytes → x.call.buf = y.buf) := by
  have hX := RecvExact.holds_reachable hx
  have hY := ReadFull.holds_reachable hy
  refine ⟨fun r hret h0 => ?_, fun r hret => ?_, fun hgo hfull e => hY.full hgo hfull e, fun hret hret' bytes hb hb' => ?_⟩
  · obtain ⟨hr, hend⟩ := hX.returned r hret h0
    refine ⟨by rw [hr, hX.buf], hX.split.prefix_take, ?_⟩
    rcases hend with hl | hd
    · exact Or.inl (by rw [hr, hl])
    · refine Or.inr ⟨hd.2, ?_⟩
      rw [hX.split, hd.1, List.append_nil]
  · rw [hY.returned_iff hret]
    refine ⟨fun hl => ⟨hl, ?_⟩, fun hl => hl.1⟩
    have hp := hY.split.prefix_take
    rwa [hl] at hp
  · -- both hold the first `len` bytes of the stream
    have hlx : x.call.buf.length = len := by
      have := (hX.returned _ hret (Int.natCast_nonneg _)).1
      rw [hX.buf]
      exact_mod_cast this.symm
    have hly : y.buf.length = len := (hY.returned_iff hret').mp rfl
    have hpx : x.call.buf <+: bytes := List.IsPrefix.trans ⟨_, hX.split.symm⟩ hb
    have hpy : y.buf <+: bytes := List.IsPrefix.trans ⟨_, hY.split.symm⟩ hb'
    rw [List.prefix_iff_eq_take.mp hpx, List.prefix_iff_eq_take.mp hpy, hlx, hly]

/-- Two bytes that arrive one after the other, read once by each of the two. -/
theorem exact_reads_two : ∃ x y, (recvExactMachine 2).Reachable (fun _ _ => True) x ∧
    (readFullMachine 5 0 2).Reachable (fun _ _ => True) y ∧ x.returned = some 2 ∧ y.returned = some 2 ∧
    x.call.buf = y.buf := by
  have hx : ∃ x, (recvExactMachine 2).Reachable (fun _ _ => True) x ∧
      (x.returned, x.source.wrote) = (some 2, [7, 8]) :=
    Machine.exists_reachable (M := recvExactMachine 2) (fun _ _ _ h => h) ⟨5, 0, ⟨[7], false⟩, rfl⟩
      [.go {}, .go { ret := .done 1 }, .go {}, .go { ret := .again }, .peerWrite [8], .go {}, .go {},
        .go { ret := .done 1 }, .go {}] (fun x => (x.returned, x.source.wrote)) (by decide)
  have hy : ∃ y, (readFullMachine 5 0 2).Reachable (fun _ _ => True) y ∧
      (y.returned, y.source.wrote) = (some 2, [7, 8]) :=
    Machine.exists_reachable (M := readFullMachine 5 0 2) (fun _ _ _ h => h) ⟨⟨[7, 8], false⟩, rfl⟩
      [.go {}, .go {}, .go { ret := .done 1 }, .go {}, .go {}, .go { ret := .done 1 }, .go {}]
      (fun y => (y.returned, y.source.wrote)) (by decide)
  obtain ⟨x, hx, hsx⟩ := hx
  obtain ⟨y, hy, hsy⟩ := hy
  rw [Prod.mk.injEq] at hsx hsy
  have hboth := (exact_reads hx hy).2.2.2 hsx.1 hsy.1 [7, 8]
  rw [hsx.2, hsy.2] at hboth
  exact ⟨x, y, hx, hy, hsx.1, hsy.1, hboth List.prefix_rfl List.prefix_rfl⟩

/-! `lthread_readline` -/

/-- What a call should have returned: a line, which ends at its first newline or has `max`
bytes, with its length, or nothing with 0, -1 or -2. -/
structure LineRet.Sound (q : LineRet) : Prop where
  line : 0 < q.result → q.result = q.line.length ∧ q.line.length ≤ q.max ∧
    ((∃ l, q.line = l ++ [newline] ∧ newline ∉ l) ∨ (newline ∉ q.line ∧ q.line.length = q.max))
  empty : q.result ≤ 0 → q.line = []

theorem LineRet.Sound.none {max : ℕ} {r : ℤ} (hr : r ≤ 0) : LineRet.Sound ⟨max, r, []⟩ :=
  ⟨fun h => absurd h (not_lt.mpr hr), fun _ => rfl⟩

namespace Readline

variable {fd : Fd} {x x' : Readline} {q : LineCall}

def lines (x : Readline) : List UInt8 := (x.done.map LineRet.line).flatten

def taken (x : Readline) : List UInt8 :=
  match x.cur with
  | none => []
  | some q => q.data

/-- The bytes consumed so far are those of the lines returned, in order, and those that the
call under way has, and every call has returned what it should. -/
def Kept (x : Readline) : Prop := x.source.Split (x.lines ++ x.taken) ∧ ∀ q ∈ x.done, q.Sound

/-- No read fails, times out or finds the end of the stream when its line has begun. -/
def keepsLine (x : Readline) : LineLabel → Prop
  | .read (.go a) => ∀ q ∈ x.cur, ∀ c ∈ q.call, q.data ≠ [] → ¬ c.stopsOn a
  | _ => True

instance (x : Readline) : (a : LineLabel) → Decidable (x.keepsLine a)
  | .read (.go a) =>
    inferInstanceAs (Decidable (∀ q ∈ x.cur, ∀ c ∈ q.call, q.data ≠ [] → ¬ c.stopsOn a))
  | .read (.peerWrite _) | .read .peerClose | .readline .. => .isTrue trivial

theorem lines_finish (x : Readline) (q : LineRet) : (x.finish q).lines = x.lines ++ q.line := by
  unfold lines finish
  rw [List.map_append, List.flatten_append]
  simp

theorem taken_finish (x : Readline) (q : LineRet) : (x.finish q).taken = [] := rfl

theorem taken_of (hcur : x.cur = some q) : x.taken = q.data := by
  unfold taken
  rw [hcur]

structure Reading (x : Readline) : Prop where
  kept : x.Kept
  data : ∀ q, x.cur = some q → newline ∉ q.data ∧ q.data.length ≤ q.max
  call : ∀ q c, x.cur = some q → q.call = some c →
    c.fn = .recv ∧ c.count = 0 ∧ c.buf = [] ∧ c.length = 1 ∧ q.data.length < q.max

theorem Reading.start (s : Stream) : (start s).Reading :=
  ⟨⟨rfl, nofun⟩, nofun, nofun⟩

theorem reading_finish {r : LineRet} (hdone : ∀ q ∈ x.done, q.Sound) (hsplit : x.source.Split (x.lines ++ r.line))
    (hr : r.Sound) : (x.finish r).Reading := by
  refine ⟨⟨?_, fun q hq => ?_⟩, nofun, nofun⟩
  · rw [lines_finish, taken_finish, List.append_nil]
    exact hsplit
  · rcases List.mem_append.mp hq with hq | hq
    · exact hdone q hq
    · rw [List.mem_singleton.mp hq]
      exact hr

/-- A call that returns 0, -1 or -2 keeps the bytes just when it has taken none. -/
theorem Reading.gives_up {r : ℤ} (h : x.Reading) (hcur : x.cur = some q) (hr : r ≤ 0) :
    ((x.finish ⟨q.max, r, []⟩).Reading ↔ q.data = []) ∧ ((x.finish ⟨q.max, r, []⟩).Kept → q.data = []) := by
  have hsplit := h.kept.1
  rw [taken_of hcur] at hsplit
  have hlost : (x.finish ⟨q.max, r, []⟩).Kept → q.data = [] := by
    intro hk
    have hs := hk.1
    rw [lines_finish, taken_finish] at hs
    unfold Source.Split at hs hsplit
    change x.source.wrote = x.lines ++ [] ++ [] ++ x.source.stream.pending at hs
    rw [hsplit] at hs
    simpa using hs
  refine ⟨⟨fun hR => hlost hR.kept, fun hd => ?_⟩, hlost⟩
  rw [hd] at hsplit
  exact reading_finish h.kept.2 hsplit (LineRet.Sound.none hr)

theorem Reading.byte {b : UInt8} {bs : List UInt8} (h : x.Reading) (hcur : x.cur = some q)
    (hlt : q.data.length < q.max) (hp : x.source.stream.pending = b :: bs) :
    Reading (recvReturned
      { x with source := { x.source with stream := { x.source.stream with pending := bs } } } q 1 [b]) := by
  have hsplit : Source.Split { x.source with stream := { x.source.stream with pending := bs } }
      (x.lines ++ (q.data ++ [b])) := by
    have hs := h.kept.1.take 1
    rw [taken_of hcur, hp] at hs
    rwa [← List.append_assoc]
  obtain ⟨hnew, -⟩ := h.data q hcur
  unfold recvReturned
  rw [if_neg (by decide)]
  by_cases hb : b = newline
  · subst hb
    rw [if_pos rfl]
    have hlen : (q.data ++ [newline]).length = q.data.length + 1 := by rw [List.length_append]; rfl
    refine reading_finish h.kept.2 hsplit ⟨fun _ => ⟨?_, ?_, Or.inl ⟨q.data, rfl, hnew⟩⟩, fun h0 => ?_⟩
    · rw [hlen]
      rfl
    · rw [hlen]
      exact hlt
    · change (q.data.length : ℤ) + 1 ≤ 0 at h0
      omega
  · rw [if_neg (by simpa using hb)]
    refine ⟨⟨hsplit, h.kept.2⟩, fun q' hq' => ?_, fun q' c hq' hc => ?_⟩
    · obtain rfl := Option.some_inj.mp hq'
      refine ⟨?_, ?_⟩
      · simp only [List.mem_append, List.mem_singleton, not_or]
        exact ⟨hnew, Ne.symm hb⟩
      · rw [List.length_append]
        exact hlt
    · obtain rfl := Option.some_inj.mp hq'
      cases hc

/-- At the head of its loop a call asks for one more byte or returns `max` of them. -/
theorem Reading.loop {e : SockEnv} (h : x.Reading) (hcur : x.cur = some q) (hc : q.call = none)
    (hs : x.go fd q e = .ok x') : x'.Reading := by
  have hsplit := h.kept.1
  rw [taken_of hcur] at hsplit
  obtain ⟨hnew, hle⟩ := h.data q hcur
  unfold Readline.go at hs
  rw [hc] at hs
  by_cases hlt : q.data.length < q.max
  · simp only [if_pos hlt] at hs
    obtain rfl := Except.ok.inj hs
    refine ⟨⟨hsplit, h.kept.2⟩, fun q' hq' => ?_, fun q' c hq' hcall => ?_⟩
    · obtain rfl := Option.some_inj.mp hq'
      exact ⟨hnew, hle⟩
    · obtain rfl := Option.some_inj.mp hq'
      obtain rfl := Option.some_inj.mp hcall
      exact ⟨rfl, rfl, rfl, rfl, hlt⟩
  · simp only [if_neg hlt] at hs
    obtain rfl := Except.ok.inj hs
    have hmax : q.data.length = q.max := by omega
    refine reading_finish h.kept.2 hsplit ⟨fun _ => ⟨rfl, hle, Or.inr ⟨hnew, hmax⟩⟩, fun h0 => ?_⟩
    have hd : (q.data.length : ℤ) ≤ 0 := h0
    have h0' : q.data.length = 0 := by omega
    exact List.length_eq_zero_iff.mp h0'

theorem Reading.recv {c : SockCall} {e : SockEnv} (h : x.Reading) (hcur : x.cur = some q) (hc : q.call = some c)
    (hs : x.go fd q e = .ok x') :
    (¬ c.stopsOn e ∧ x'.Reading) ∨ (c.stopsOn e ∧ ∃ r ≤ 0, x' = x.finish ⟨q.max, r, []⟩) := by
  obtain ⟨hfn, hcount, hbuf, hlen, hlt⟩ := h.call q c hcur hc
  unfold Readline.go at hs
  rw [hc] at hs
  obtain ⟨⟨s, c', r⟩, hread, hs⟩ := except_bind_ok hs
  rcases SockCall.readStep_recv hfn hcount hread with ⟨hf, hdone, pc, rfl, rfl, rfl⟩ | ⟨hf, rfl, rfl, hr⟩ |
    ⟨n, hpc, hret, hallow, rfl, rfl, rfl⟩
  · refine Or.inl ⟨fun hstop => hstop.elim hf fun h0 => hdone 0 h0.1 h0.2, ?_⟩
    have hsplit := h.kept.1
    rw [taken_of hcur] at hsplit
    obtain rfl := Except.ok.inj hs
    refine ⟨⟨hsplit, h.kept.2⟩, fun q' hq' => ?_, fun q' c hq' hcall => ?_⟩
    · obtain rfl := Option.some_inj.mp hq'
      exact h.data q hcur
    · obtain rfl := Option.some_inj.mp hq'
      obtain rfl := Option.some_inj.mp hcall
      exact ⟨hfn, hcount, hbuf, hlen, hlt⟩
  · refine Or.inr ⟨Or.inl hf, ?_⟩
    rcases hr with rfl | rfl
    · exact ⟨-1, by decide, (Except.ok.inj hs).symm⟩
    · exact ⟨-2, by decide, (Except.ok.inj hs).symm⟩
  · have hn : n ≤ 1 := hlen ▸ hallow.1
    obtain rfl := Except.ok.inj hs
    match n, hn with
    | 0, _ => exact Or.inr ⟨Or.inr ⟨hpc, hret⟩, 0, le_rfl, rfl⟩
    | 1, _ =>
      refine Or.inl ⟨fun hstop => ?_, ?_⟩
      · unfold SockCall.stopsOn SockCall.failsOn at hstop
        rw [hpc, hret] at hstop
        simp at hstop
      · cases hp : x.source.stream.pending with
        | nil =>
          have := hallow.2.1
          rw [hp] at this
          cases this
        | cons b bs =>
          rw [hbuf]
          exact h.byte hcur hlt hp

theorem Reading.step {a : LineLabel} (h : x.Reading) (hs : x.step fd a = .ok x') :
    (x.keepsLine a → x'.Reading) ∧ (x'.Kept → x.keepsLine a) := by
  match a with
  | .readline max timeout data =>
    refine ⟨fun _ => ?_, fun _ => trivial⟩
    unfold Readline.step at hs
    by_cases hcur : x.cur = none
    · simp only [hcur, ne_eq, not_true_eq_false, if_false] at hs
      have htaken : x.taken = [] := by
        unfold taken
        rw [hcur]
      have hsplit : x.source.Split (x.lines ++ []) := htaken ▸ h.kept.1
      by_cases hdata : data = true
      · rw [if_pos hdata] at hs
        obtain rfl := Except.ok.inj hs
        refine ⟨⟨hsplit, h.kept.2⟩, fun q hq => ?_, fun q c hq hc => ?_⟩
        · obtain rfl := Option.some_inj.mp hq
          exact ⟨nofun, Nat.zero_le _⟩
        · obtain rfl := Option.some_inj.mp hq
          cases hc
      · rw [if_neg hdata] at hs
        obtain rfl := Except.ok.inj hs
        exact reading_finish h.kept.2 hsplit (LineRet.Sound.none (by decide))
    · simp only [ne_eq, hcur, not_false_eq_true, if_true] at hs
      cases hs
  | .read (.go e) =>
    cases hcur : x.cur with
    | none =>
      unfold Readline.step at hs
      simp only [hcur] at hs
      cases hs
    | some q =>
      unfold Readline.step at hs
      simp only [hcur] at hs
      have hkeeps : x.keepsLine (.read (.go e)) ↔ ∀ c ∈ q.call, q.data ≠ [] → ¬ c.stopsOn e := by
        unfold keepsLine
        rw [hcur]
        simp
      rw [hkeeps]
      cases hc : q.call with
      | none => exact ⟨fun _ => h.loop hcur hc hs, fun _ c hcall => nomatch hcall⟩
      | some c =>
        rcases h.recv hcur hc hs with ⟨hgo, hR⟩ | ⟨hstop, r, hr, rfl⟩
        · refine ⟨fun _ => hR, fun _ c' hc' _ => ?_⟩
          obtain rfl := Option.some_inj.mp hc'
          exact hgo
        · obtain ⟨hgives, hlost⟩ := h.gives_up hcur hr
          refine ⟨fun hk => hgives.mpr ?_, fun hk c' _ hd => absurd (hlost hk) hd⟩
          by_contra hd
          exact hk c rfl hd hstop
  | .read (.peerWrite bytes) =>
    obtain ⟨s, hw, hs⟩ := except_bind_ok hs
    obtain rfl := Except.ok.inj hs
    exact ⟨fun _ => ⟨⟨h.kept.1.peerWrite hw, h.kept.2⟩, h.data, h.call⟩, fun _ => trivial⟩
  | .read .peerClose =>
    obtain rfl := Except.ok.inj hs
    exact ⟨fun _ => ⟨⟨h.kept.1, h.kept.2⟩, h.data, h.call⟩, fun _ => trivial⟩

/-- As long as no read stops in the middle of a line, the lines returned are the bytes that
have been consumed, and the first read that does stop there loses some. -/
theorem readline_keeps_bytes (h : (readlineMachine fd).Reachable keepsLine x) :
    x.Kept ∧ ∀ a x', x.step fd a = .ok x' → (x'.Kept ↔ x.keepsLine a) := by
  have hR : x.Reading := by
    apply Machine.Reachable.invariant _ (fun y a y' hy hok hs => (hy.step hs).1 hok) h
    rintro y ⟨s, rfl⟩
    exact Reading.start s
  refine ⟨hR.kept, fun a x' hs => ⟨(hR.step hs).2, fun hk => ((hR.step hs).1 hk).kept⟩⟩

/-- Of a line that is sent in two parts the first is read, and a timeout follows: the call
returns -2, and the next one returns the second part as a line. -/
theorem readline_timeout_loses : ∃ x, (readlineMachine 5).Reachable (fun _ _ => True) x ∧ ¬ x.Kept ∧
    x.done = [⟨8, -2, []⟩, ⟨8, 2, [99, newline]⟩] ∧ x.source = ⟨⟨[], false⟩, [97, 98, 99, newline]⟩ := by
  have hrun : ∃ x, (readlineMachine 5).Reachable (fun _ _ => True) x ∧
      x = ⟨⟨⟨[], false⟩, [97, 98, 99, newline]⟩, none, [⟨8, -2, []⟩, ⟨8, 2, [99, newline]⟩]⟩ :=
    Machine.exists_reachable (M := readlineMachine 5) (fun _ _ _ h => h) ⟨⟨[97, 98], false⟩, rfl⟩
      [.readline 8 10 true,
        .read (.go {}), .read (.go {}), .read (.go { ret := .done 1 }),
        .read (.go {}), .read (.go {}), .read (.go { ret := .done 1 }),
        .read (.go {}), .read (.go {}), .read (.go { ret := .again }), .read (.go { expired := true }),
        .read (.peerWrite [99, newline]), .readline 8 10 true,
        .read (.go {}), .read (.go {}), .read (.go { ret := .done 1 }),
        .read (.go {}), .read (.go {}), .read (.go { ret := .done 1 })] id (by decide)
  obtain ⟨x, hx, rfl⟩ := hrun
  refine ⟨_, hx, fun hk => ?_, rfl, rfl⟩
  have hs : [97, 98, 99, newline] = [99, newline] := hk.1
  exact absurd hs (by decide)

/-- Two lines, the second cut at `max`. -/
theorem readline_keeps_bytes_two : ∃ x, (readlineMachine 5).Reachable keepsLine x ∧
    x.done = [⟨8, 2, [97, newline]⟩, ⟨1, 1, [98]⟩] ∧ x.Kept := by
  have hrun : ∃ x, (readlineMachine 5).Reachable keepsLine x ∧
      x.done = [⟨8, 2, [97, newline]⟩, ⟨1, 1, [98]⟩] :=
    Machine.exists_reachable (M := readlineMachine 5) (fun _ _ _ h => h) ⟨⟨[97, newline, 98, 99], false⟩, rfl⟩
      [.readline 8 10 true,
        .read (.go {}), .read (.go {}), .read (.go { ret := .done 1 }),
        .read (.go {}), .read (.go {}), .read (.go { ret := .done 1 }),
        .readline 1 10 true,
        .read (.go {}), .read (.go {}), .read (.go { ret := .done 1 }), .read (.go {})] (·.done) (by decide)
  obtain ⟨x, hx, hdone⟩ := hrun
  exact ⟨x, hx, hdone, (readline_keeps_bytes hx).1⟩

end Readline
end Lthr

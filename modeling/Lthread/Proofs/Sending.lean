import Lthread.Spec.Transfer

/-! What `lthread_send`, `lthread_write` and `lthread_writev` hand to the kernel. -/

namespace Lthr

/-! `lthread_send` -/

theorem SockCall.advance_send_sys {c : SockCall} (hfn : c.fn = .send) (hpc : c.pc = .sys) (a : SockEnv) :
    c.advance a = match a.ret with
      | .error => (c, some (-1))
      | .again => ({ c with pc := .waited }, none)
      | .done 0 => (c, some (c.count : ℤ))
      | .done (n + 1) => ({ c with pc := .top, count := c.count + (n + 1) }, none) := by
  unfold advance next
  simp only [hfn]
  unfold lthreadSend
  simp only [hpc]
  rcases a.ret with (_ | n) | _ | _ <;> rfl

/-- Everywhere else it takes no bytes, and what it returns is -1 or all of them. -/
theorem SockCall.advance_send {c : SockCall} (hfn : c.fn = .send) (hpc : c.pc ≠ .sys) (a : SockEnv) :
    (∃ pc, c.advance a = ({ c with pc := pc }, none)) ∨ c.advance a = (c, some (-1)) ∨
      c.count = c.length ∧ c.advance a = (c, some (c.count : ℤ)) := by
  unfold advance next
  simp only [hfn]
  unfold lthreadSend
  cases hc : c.pc with
  | sys => exact absurd hc hpc
  | waited => exact Or.inl ⟨.top, rfl⟩
  | top =>
    simp only
    by_cases hl : c.count = c.length
    · rw [if_pos hl]
      exact Or.inr (Or.inr ⟨hl, rfl⟩)
    · rw [if_neg hl]
      by_cases hf : a.fdeof = true
      · rw [if_pos hf]
        exact Or.inr (Or.inl rfl)
      · rw [if_neg hf]
        exact Or.inl ⟨.sys, rfl⟩

namespace Sending

variable {buf : List UInt8} {s s' : Sending} {a : SockEnv}

structure Sent (buf : List UInt8) (s : Sending) : Prop where
  fn : s.call.fn = .send
  length : s.call.length = buf.length
  count : s.call.count ≤ buf.length
  accepted : s.accepted = buf.take s.call.count
  returned : ∀ r, s.returned = some r → 0 ≤ r → r = s.call.count ∧ (r < buf.length → s.last = some (.done 0))

theorem Sent.start (buf : List UInt8) (fd : Fd) : (start fd buf.length).Sent buf :=
  ⟨rfl, rfl, Nat.zero_le _, rfl, nofun⟩

theorem Sent.sys (h : s.Sent buf) (hpc : s.call.pc = .sys) (hle : a.ret.taken ≤ s.call.length - s.call.count) :
    Sent buf { call := (s.call.advance a).1
               accepted := s.accepted ++ (buf.drop s.call.count).take a.ret.taken
               last := some a.ret
               returned := (s.call.advance a).2 } := by
  have hadv := SockCall.advance_send_sys h.fn hpc a
  have hnone : s.accepted ++ (buf.drop s.call.count).take 0 = buf.take s.call.count := by
    rw [List.take_zero, List.append_nil]
    exact h.accepted
  rcases hr : a.ret with (_ | n) | _ | _
  · -- 0: what has been sent so far is returned
    rw [hr] at hadv
    rw [hadv]
    refine ⟨h.fn, h.length, h.count, hnone, fun r hret _ => ?_⟩
    obtain rfl := Option.some_inj.mp hret
    exact ⟨rfl, fun _ => rfl⟩
  · rw [hr] at hadv hle
    rw [hadv]
    have hcount : s.call.count + (n + 1) ≤ buf.length := by
      have hle' : n + 1 ≤ s.call.length - s.call.count := hle
      rw [h.length] at hle'
      have hc := h.count
      omega
    refine ⟨h.fn, h.length, hcount, ?_, nofun⟩
    change s.accepted ++ (buf.drop s.call.count).take (n + 1) = buf.take (s.call.count + (n + 1))
    rw [h.accepted]
    exact (List.take_add ..).symm
  · rw [hr] at hadv
    rw [hadv]
    exact ⟨h.fn, h.length, h.count, hnone, nofun⟩
  · rw [hr] at hadv
    rw [hadv]
    refine ⟨h.fn, h.length, h.count, hnone, fun r hret h0 => ?_⟩
    obtain rfl := Option.some_inj.mp hret
    exact absurd h0 (by decide)

theorem Sent.step (h : s.Sent buf) (hs : s.step buf a = .ok s') : s'.Sent buf := by
  unfold Sending.step at hs
  split_ifs at hs with hr hpc hle
  · obtain rfl := Except.ok.inj hs
    exact h.sys hpc hle
  · obtain rfl := Except.ok.inj hs
    rcases SockCall.advance_send h.fn hpc a with ⟨pc, hadv⟩ | hadv | ⟨hl, hadv⟩
    · rw [hadv]
      exact ⟨h.fn, h.length, h.count, h.accepted, nofun⟩
    · rw [hadv]
      refine ⟨h.fn, h.length, h.count, h.accepted, fun r hret h0 => ?_⟩
      obtain rfl := Option.some_inj.mp hret
      exact absurd h0 (by decide)
    · rw [hadv]
      refine ⟨h.fn, h.length, h.count, h.accepted, fun r hret _ => ?_⟩
      obtain rfl := Option.some_inj.mp hret
      refine ⟨rfl, fun hlt => ?_⟩
      have := h.length
      omega

/-- However the system calls go, the kernel has taken a beginning of the buffer. A return
value that is not negative is the length of it, and it is less than `length` only if the
last system call has returned 0. -/
theorem send_is_prefix {ok : Sending → SockEnv → Prop} (h : (sendMachine buf).Reachable ok s) :
    s.call.count ≤ s.call.length ∧ s.call.length = buf.length ∧ s.accepted = buf.take s.call.count ∧
      s.accepted.length = s.call.count ∧
      ∀ r, s.returned = some r → 0 ≤ r → r = s.accepted.length ∧ (r < buf.length → s.last = some (.done 0)) := by
  have hsent : s.Sent buf := by
    refine Machine.Reachable.invariant (fun y hy => ?_) (fun y a y' hy _ hs => hy.step hs) h
    obtain ⟨fd, rfl⟩ := hy
    exact Sent.start buf fd
  have hlen : s.accepted.length = s.call.count := by
    rw [hsent.accepted, List.length_take, min_eq_left hsent.count]
  refine ⟨hsent.length ▸ hsent.count, hsent.length, hsent.accepted, hlen, fun r hr h0 => ?_⟩
  rw [hlen]
  exact hsent.returned r hr h0

/-- Three bytes are sent in two pieces, with a wait between them. -/
theorem send_is_prefix_pieces : ∃ s, (sendMachine [1, 2, 3]).Reachable (fun _ _ => True) s ∧
    s.returned = some 3 ∧ s.accepted = [1, 2, 3] := by
  have hrun : ∃ s, (sendMachine [1, 2, 3]).Reachable (fun _ _ => True) s ∧ s.returned = some 3 :=
    Machine.exists_reachable (M := sendMachine [1, 2, 3]) (fun _ _ _ h => h) ⟨5, rfl⟩
      [{}, { ret := .done 2 }, {}, { ret := .again }, {}, {}, { ret := .done 1 }, {}] (·.returned) (by decide)
  obtain ⟨s, hs, hsee⟩ := hrun
  have hp := send_is_prefix hs
  have hr := hp.2.2.2.2 3 hsee (by decide)
  have hc : s.call.count = 3 := by
    have := hr.1
    rw [hp.2.2.2.1] at this
    exact_mod_cast this.symm
  refine ⟨s, hs, hsee, ?_⟩
  rw [hp.2.2.1, hc]
  rfl

end Sending

/-! `lthread_writev` -/

theorem iovAdvance_flatten (iov : List (List UInt8)) (n : ℕ) (h : n ≤ iov.flatten.length) :
    (iovAdvance iov n).flatten = iov.flatten.drop n := by
  induction iov generalizing n with
  | nil => simp [iovAdvance]
  | cons v iov ih =>
    rw [List.flatten_cons, List.length_append] at h
    rw [iovAdvance, List.flatten_cons]
    split_ifs with h0 hv
    · rw [h0, List.drop_zero, List.flatten_cons]
    · rw [List.flatten_cons, List.drop_append_of_le_length hv.le]
    · have hle : v.length ≤ n := not_lt.mp hv
      rw [ih (n - v.length) (by omega), List.drop_append, List.drop_eq_nil_of_le hle, List.nil_append]

def LastFilled (iov : List (List UInt8)) : Prop := iov.getLast? ≠ some []

theorem LastFilled.tail {v : List UInt8} {iov : List (List UInt8)} (h : LastFilled (v :: iov)) : LastFilled iov := by
  cases iov with
  | nil => exact nofun
  | cons w iov =>
    unfold LastFilled at h ⊢
    rwa [List.getLast?_cons_cons] at h

theorem LastFilled.eq_nil {iov : List (List UInt8)} (h : LastFilled iov) (hb : iov.flatten = []) : iov = [] := by
  induction iov with
  | nil => rfl
  | cons v iov ih =>
    rw [List.flatten_cons, List.append_eq_nil_iff] at hb
    obtain rfl := ih h.tail hb.2
    rw [hb.1] at h
    exact absurd rfl h

theorem LastFilled.advance {iov : List (List UInt8)} (h : LastFilled iov) (n : ℕ) : LastFilled (iovAdvance iov n) := by
  induction iov generalizing n with
  | nil => exact h
  | cons v iov ih =>
    rw [iovAdvance]
    split_ifs with h0 hv
    · exact h
    · cases iov with
      | nil =>
        intro hl
        have hdrop : v.drop n = [] := by simpa using hl
        exact absurd (List.drop_eq_nil_iff.mp hdrop) (by omega)
      | cons w iov =>
        have htail := h.tail
        unfold LastFilled at htail ⊢
        rwa [List.getLast?_cons_cons]
    · exact ih h.tail _

/-- An empty iovec at the end stays behind when everything has been written. -/
theorem iovAdvance_ne_nil {iov : List (List UInt8)} (h : iov.getLast? = some []) (n : ℕ)
    (hn : n ≤ iov.flatten.length) : iovAdvance iov n ≠ [] := by
  induction iov generalizing n with
  | nil => cases h
  | cons v iov ih =>
    rw [List.flatten_cons, List.length_append] at hn
    rw [iovAdvance]
    split_ifs with h0 hv
    · exact List.cons_ne_nil _ _
    · exact List.cons_ne_nil _ _
    · cases iov with
      | nil =>
        -- it is the last one, and empty
        obtain rfl : v = [] := by simpa using h
        simp at hn
        exact absurd hn h0
      | cons w iov =>
        rw [List.getLast?_cons_cons] at h
        exact ih h _ (by omega)

namespace Writev

variable {iov : List (List UInt8)} {s s' : Writev} {r : SysRet} {rs : List SysRet}

/-- How many of the system calls have not failed with `EAGAIN`. -/
def writes (rs : List SysRet) : ℕ := (rs.filter fun r => decide (r ≠ .again)).length

/-- All of the array is sent: whatever the calls of `writev` return, the bytes
written are those of the iovecs in order, and enough calls that do not fail make
`lthread_writev` return their number. -/
def SendsAll (iov : List (List UInt8)) : Prop :=
  ∀ rs s, SysRet.error ∉ rs → (start iov).lthreadWritev rs = .ok s →
    s.written <+: iov.flatten ∧ (∀ r, s.returned = some r → s.written = iov.flatten ∧ r = iov.flatten.length) ∧
      (iov.flatten.length ≤ writes rs → s.returned ≠ none)

/-- On the way, when the last iovec is not empty and `k` writes have been made. -/
structure Writing (bytes : List UInt8) (k : ℕ) (s : Writev) : Prop where
  split : bytes = s.written ++ s.iov.flatten
  total : s.total = s.written.length
  filled : LastFilled s.iov
  going : s.returned = none → s.iov ≠ []
  returned : ∀ r, s.returned = some r → s.iov = [] ∧ r = s.total
  progress : k ≤ s.written.length

theorem Writing.step {bytes : List UInt8} {k : ℕ} (h : s.Writing bytes k) (hr : r ≠ .error) (hs : s.step r = .ok s') :
    s'.Writing bytes (k + if r = .again then 0 else 1) := by
  unfold Writev.step at hs
  by_cases hno : s.returned ≠ none ∨ ¬ s.allows r
  · rw [if_pos hno] at hs; cases hs
  rw [if_neg hno] at hs
  obtain ⟨hret, hallow⟩ := not_or.mp hno
  rw [not_not] at hret hallow
  have hgoing := h.going hret
  rcases r with (_ | n) | _ | _
  · -- nothing is left to write, but then the call would have returned
    exact absurd (h.filled.eq_nil (hallow.2 rfl)) hgoing
  · obtain rfl := Except.ok.inj hs
    have hn : n + 1 ≤ s.iov.flatten.length := hallow.1
    have hlen : (s.written ++ s.iov.flatten.take (n + 1)).length = s.written.length + (n + 1) := by
      rw [List.length_append, List.length_take, min_eq_left hn]
    refine ⟨?_, ?_, h.filled.advance _, fun h0 => ?_, fun r h0 => ?_, ?_⟩
    · rw [iovAdvance_flatten s.iov _ hn, List.append_assoc, List.take_append_drop]
      exact h.split
    · rw [hlen, h.total]
    · intro hnil
      rw [show iovAdvance s.iov (n + 1) = [] from hnil, if_pos rfl] at h0
      cases h0
    · simp only at h0
      split_ifs at h0 with hnil
      exact ⟨hnil, (Option.some_inj.mp h0).symm⟩
    · rw [hlen]
      have := h.progress
      simp only [reduceCtorEq, if_false]
      omega
  · obtain rfl := Except.ok.inj hs
    refine ⟨h.split, h.total, h.filled, fun _ => hgoing, fun r h0 => ?_, by simpa using h.progress⟩
    rw [if_neg hgoing] at h0
    cases h0
  · exact absurd rfl hr

theorem Writing.run {bytes : List UInt8} {k : ℕ} (h : s.Writing bytes k) (hr : SysRet.error ∉ rs)
    (hs : s.lthreadWritev rs = .ok s') : s'.Writing bytes (k + writes rs) := by
  induction rs generalizing s k with
  | nil =>
    obtain rfl := Except.ok.inj hs
    exact h
  | cons r rs ih =>
    rw [List.mem_cons, not_or] at hr
    rw [lthreadWritev] at hs
    cases h1 : s.step r with
    | error f => rw [h1] at hs; cases hs
    | ok s₁ =>
      rw [h1] at hs
      have hw := ih (h.step (Ne.symm hr.1) h1) hr.2 hs
      have hk : k + (if r = .again then 0 else 1) + writes rs = k + writes (r :: rs) := by
        unfold writes
        by_cases ha : r = .again
        · simp [ha]
        · simp [ha]
          omega
      rwa [hk] at hw

/-- `lthread_writev` does what it should if and only if the last iovec is not empty: after
the last byte an empty one is left, and the `writev` of it returns 0. -/
theorem writev_sends_all (h : iov.flatten ≠ []) : SendsAll iov ↔ iov.getLast? ≠ some [] := by
  constructor
  · intro hall hlast
    have hpos : 0 < iov.flatten.length := List.length_pos_iff.mpr h
    obtain ⟨n, hn⟩ : ∃ n, iov.flatten.length = n + 1 := ⟨iov.flatten.length - 1, by omega⟩
    -- everything is written at once, and the next call finds no bytes
    have hrest : iovAdvance iov (n + 1) ≠ [] := iovAdvance_ne_nil hlast _ hn.ge
    have hempty : (iovAdvance iov (n + 1)).flatten = [] := by
      rw [iovAdvance_flatten iov _ hn.ge, ← hn, List.drop_length]
    have h1 : (start iov).step (.done (n + 1)) = .ok ⟨iovAdvance iov (n + 1), 0 + (n + 1),
        [] ++ iov.flatten.take (n + 1), none⟩ := by
      unfold Writev.step
      rw [if_neg]
      · simp [start, hrest]
      · simp [start, allows, hn]
    have h2 : (⟨iovAdvance iov (n + 1), 0 + (n + 1), [] ++ iov.flatten.take (n + 1), none⟩ : Writev).step (.done 0) =
        .ok ⟨iovAdvance iov (n + 1), 0 + (n + 1), [] ++ iov.flatten.take (n + 1), some 0⟩ := by
      unfold Writev.step
      rw [if_neg]
      simp [allows, hempty]
    have hrun : (start iov).lthreadWritev [.done (n + 1), .done 0] =
        .ok ⟨iovAdvance iov (n + 1), 0 + (n + 1), [] ++ iov.flatten.take (n + 1), some 0⟩ := by
      rw [lthreadWritev, h1]
      change Writev.lthreadWritev _ [.done 0] = _
      rw [lthreadWritev, h2]
      rfl
    have hres := ((hall _ _ (by simp) hrun).2.1 0 rfl).2
    omega
  · intro hlast rs s hr hs
    have h0 : (start iov).Writing iov.flatten 0 := by
      refine ⟨rfl, rfl, hlast, fun _ hnil => h ?_, nofun, le_rfl⟩
      rw [show iov = [] from hnil]
      rfl
    have hw := h0.run hr hs
    refine ⟨⟨_, hw.split.symm⟩, fun r hret => ?_, fun hk hret => ?_⟩
    · obtain ⟨hnil, hrt⟩ := hw.returned r hret
      have hall : s.written = iov.flatten := by
        rw [hw.split, hnil, List.flatten_nil, List.append_nil]
      exact ⟨hall, by rw [hrt, hw.total, hall]⟩
    · -- every write takes a byte at least, so that none is left
      have hp := hw.progress
      have hlen := congrArg List.length hw.split
      rw [List.length_append] at hlen
      exact hw.going hret (hw.filled.eq_nil (List.length_eq_zero_iff.mp (by omega)))

/-- Two bytes and an empty iovec: everything is written, and `lthread_writev` returns 0. -/
theorem writev_trailing_empty : ∃ s, (start [[1, 2], []]).lthreadWritev [.done 2, .done 0] = .ok s ∧
    s.written = [1, 2] ∧ s.returned = some 0 ∧ ¬ SendsAll [[1, 2], []] := by
  have hrun : (start [[1, 2], []]).lthreadWritev [.done 2, .done 0] = .ok ⟨[[]], 2, [1, 2], some 0⟩ := rfl
  refine ⟨_, hrun, rfl, rfl, fun hall => ?_⟩
  have hres := ((hall _ _ (by simp) hrun).2.1 0 rfl).2
  exact absurd hres (by decide)

theorem writev_sends_all_three : ([[1], [], [2, 3]] : List (List UInt8)).flatten ≠ [] ∧ SendsAll [[1], [], [2, 3]] :=
  ⟨by decide, (writev_sends_all (by decide)).mpr (by decide)⟩

end Writev
end Lthr

import Lthread.Proofs.Sending

/-! What `tcp_conn_write` reports. -/

namespace Lthr.ConnWrite

variable {buf : List UInt8} {s s' : ConnWrite} {a : SockEnv} {log : List (Option SysRet)}

/-- What one more entry of the log does to the count of bytes. -/
def tally (n : ℕ) : Option SysRet → ℕ
  | some (.done 0) => 0
  | some (.done (k + 1)) => n + (k + 1)
  | some .again | some .error | none => n

/-- The bytes that the kernel has taken since `write` last returned 0. -/
def sinceZero (log : List (Option SysRet)) : ℕ := log.foldl tally 0

/-- The last thing in the log is an error or a hang-up. -/
def Failed (log : List (Option SysRet)) : Prop := log.getLast? = some none ∨ log.getLast? = some (some .error)

instance (log : List (Option SysRet)) : Decidable (Failed log) := inferInstanceAs (Decidable (_ ∨ _))

theorem sinceZero_append (x : Option SysRet) : sinceZero (log ++ [x]) = tally (sinceZero log) x :=
  List.foldl_append

theorem failed_append (x : Option SysRet) : Failed (log ++ [x]) ↔ x = none ∨ x = some .error := by
  unfold Failed
  simp

theorem not_failed_append {r : SysRet} (h : r ≠ .error) : ¬ Failed (log ++ [some r]) := by
  rw [failed_append]
  simpa using h

/-- On the way: the bytes of the calls of `lthread_write` that have returned are in `writed_n`,
those of the current one not yet. -/
structure Counted (buf : List UInt8) (s : ConnWrite) : Prop where
  fn : s.call.fn = .send
  length : s.call.length = s.len
  total : s.writedN + s.len = buf.length
  count : s.call.count ≤ s.len
  accepted : s.accepted = buf.take (s.writedN + s.call.count)
  log : sinceZero s.log = s.call.count
  going : ¬ Failed s.log

/-- When it has returned, the bytes that a failure has made it forget are missing. -/
structure Written (buf : List UInt8) (s : ConnWrite) : Prop where
  accepted : s.accepted <+: buf
  counted : s.returned = none → s.Counted buf
  returned : ∀ r, s.returned = some r → r = s.writedN ∧
    s.accepted.length = s.writedN + if Failed s.log then sinceZero s.log else 0

theorem Counted.accepted_length (h : s.Counted buf) : s.accepted.length = s.writedN + s.call.count := by
  have htotal := h.total
  have hcount := h.count
  rw [h.accepted, List.length_take]
  omega

theorem Counted.accepted_isPrefix (h : s.Counted buf) : s.accepted <+: buf := by
  rw [h.accepted]
  exact List.take_prefix _ _

theorem Counted.written (h : s.Counted buf) (hr : s.returned = none) : s.Written buf :=
  ⟨h.accepted_isPrefix, fun _ => h, fun r hret => by rw [hr] at hret; cases hret⟩

theorem Counted.failed (h : s.Counted buf) {x : Option SysRet} (hx : x = none ∨ x = some .error) :
    Written buf ({ s with log := s.log ++ [x] }.writeReturned (-1)) := by
  refine ⟨h.accepted_isPrefix, nofun, fun r hret => ?_⟩
  obtain rfl := Option.some_inj.mp hret
  refine ⟨rfl, ?_⟩
  have htally : tally (sinceZero s.log) x = s.call.count := by
    rcases hx with rfl | rfl
    · exact h.log
    · exact h.log
  change s.accepted.length = s.writedN + if Failed (s.log ++ [x]) then sinceZero (s.log ++ [x]) else 0
  rw [if_pos ((failed_append x).mpr hx), sinceZero_append, htally]
  exact h.accepted_length

theorem Counted.done (h : s.Counted buf) (hr : s.returned = none) (hlog : ¬ Failed log)
    (hzero : s.call.count < s.len → sinceZero log = 0) :
    Written buf ({ s with log := log }.writeReturned s.call.count) := by
  have hlen := h.accepted_length
  have htotal := h.total
  have hcount := h.count
  unfold writeReturned
  by_cases hpos : (0 : ℤ) < s.call.count
  · rw [if_pos hpos, Int.toNat_natCast]
    by_cases hrest : 0 < s.len - s.call.count
    · rw [if_pos hrest]
      refine Counted.written ⟨rfl, rfl, ?_, Nat.zero_le _, h.accepted, hzero (by omega), hlog⟩ hr
      change s.writedN + s.call.count + (s.len - s.call.count) = buf.length
      omega
    · rw [if_neg hrest]
      refine ⟨h.accepted_isPrefix, nofun, fun r hret => ?_⟩
      obtain rfl := Option.some_inj.mp hret
      refine ⟨rfl, ?_⟩
      change s.accepted.length = s.writedN + s.call.count + if Failed log then sinceZero log else 0
      rw [if_neg hlog, hlen, Nat.add_zero]
  · rw [if_neg hpos]
    refine ⟨h.accepted_isPrefix, nofun, fun r hret => ?_⟩
    obtain rfl := Option.some_inj.mp hret
    refine ⟨rfl, ?_⟩
    change s.accepted.length = s.writedN + if Failed log then sinceZero log else 0
    rw [if_neg hlog, hlen]
    omega

theorem Counted.sys (h : s.Counted buf) (hr : s.returned = none) (hpc : s.call.pc = .sys)
    (hle : a.ret.taken ≤ s.call.length - s.call.count) :
    Written buf ({ s with accepted := s.accepted ++ (buf.drop (s.writedN + s.call.count)).take a.ret.taken
                          log := s.log ++ [some a.ret] }.proceed (s.call.advance a)) := by
  have hadv := SockCall.advance_send_sys h.fn hpc a
  have hnone (r : SysRet) (h0 : r.taken = 0) :
      s.accepted ++ (buf.drop (s.writedN + s.call.count)).take r.taken = s.accepted := by
    rw [h0, List.take_zero, List.append_nil]
  rcases hret : a.ret with (_ | n) | _ | _
  · rw [hret] at hadv
    rw [hadv, hnone _ rfl]
    exact h.done hr (not_failed_append (by decide)) fun _ => sinceZero_append _
  · rw [hret] at hadv hle
    rw [hadv]
    have hle' : n + 1 ≤ s.call.length - s.call.count := hle
    rw [h.length] at hle'
    refine Counted.written ⟨h.fn, h.length, h.total, ?_, ?_, ?_, not_failed_append nofun⟩ hr
    · have hcount := h.count
      change s.call.count + (n + 1) ≤ s.len
      omega
    · change s.accepted ++ (buf.drop (s.writedN + s.call.count)).take (n + 1) =
        buf.take (s.writedN + (s.call.count + (n + 1)))
      rw [h.accepted, ← Nat.add_assoc]
      exact (List.take_add ..).symm
    · change sinceZero (s.log ++ [some (.done (n + 1))]) = s.call.count + (n + 1)
      rw [sinceZero_append, h.log]
      rfl
  · rw [hret] at hadv
    rw [hadv, hnone _ rfl]
    refine Counted.written ⟨h.fn, h.length, h.total, h.count, h.accepted, ?_, not_failed_append (by decide)⟩ hr
    exact (sinceZero_append _).trans h.log
  · rw [hret] at hadv
    rw [hadv, hnone _ rfl]
    exact h.failed (Or.inr rfl)

theorem Written.step (h : s.Written buf) (hs : s.step buf a = .ok s') : s'.Written buf := by
  unfold ConnWrite.step at hs
  split_ifs at hs with hr hpc hle hfail
  · obtain rfl := Except.ok.inj hs
    exact (h.counted (not_not.mp hr)).sys (not_not.mp hr) hpc hle
  · obtain rfl := Except.ok.inj hs
    have hc := h.counted (not_not.mp hr)
    unfold proceed
    rw [hfail]
    exact hc.failed (Or.inl rfl)
  · obtain rfl := Except.ok.inj hs
    have hret := not_not.mp hr
    have hc := h.counted hret
    rcases SockCall.advance_send hc.fn hpc a with ⟨pc, hadv⟩ | hadv | ⟨hl, hadv⟩
    · rw [hadv]
      exact Counted.written ⟨hc.fn, hc.length, hc.total, hc.count, hc.accepted, hc.log, hc.going⟩ hret
    · exact absurd (congrArg Prod.snd hadv) hfail
    · rw [hadv]
      have hall := hc.length
      exact hc.done hret hc.going fun hlt => absurd hlt (by omega)

theorem written_reachable {ok : ConnWrite → SockEnv → Prop} (h : (connWriteMachine buf).Reachable ok s) : s.Written buf := by
  refine Machine.Reachable.invariant (fun y hy => ?_) (fun y a y' hy _ hs => hy.step hs) h
  obtain ⟨fd, rfl⟩ := hy
  exact Counted.written ⟨rfl, rfl, Nat.zero_add _, Nat.zero_le _, by simp [start, lthreadWrite], rfl, nofun⟩ rfl

/-- `tcp_conn_write` returns the number of bytes that the kernel has taken if and only if no
failure has come after one of them without a 0 in between. -/
theorem conn_write_reports {ok : ConnWrite → SockEnv → Prop} (h : (connWriteMachine buf).Reachable ok s) {r : ℤ}
    (hr : s.returned = some r) :
    s.accepted <+: buf ∧ (r = s.accepted.length ↔ (Failed s.log → sinceZero s.log = 0)) := by
  have hw := written_reachable h
  obtain ⟨rfl, hlen⟩ := hw.returned r hr
  refine ⟨hw.accepted, ?_⟩
  rw [hlen]
  by_cases hf : Failed s.log
  · rw [if_pos hf]
    constructor
    · intro heq _
      have hnat : s.writedN = s.writedN + sinceZero s.log := Int.ofNat_inj.mp heq
      omega
    · intro hz
      rw [hz hf, Nat.add_zero]
  · rw [if_neg hf]
    exact iff_of_true rfl fun h => absurd h hf

/-- One of two bytes is taken, and then there is an error or a hang-up: 0 is returned. -/
theorem conn_write_forgets :
    (∃ s, (connWriteMachine [1, 2]).Reachable (fun _ _ => True) s ∧ (s.returned, s.accepted) = (some 0, [1])) ∧
    ∃ s, (connWriteMachine [1, 2]).Reachable (fun _ _ => True) s ∧
      (s.returned, s.accepted, s.log) = (some 0, [1], [some (.done 1), none]) := by
  refine ⟨?_, ?_⟩
  · exact Machine.exists_reachable (M := connWriteMachine [1, 2]) (fun _ _ _ h => h) ⟨5, rfl⟩
      [{}, { ret := .done 1 }, {}, { ret := .error }] (fun s => (s.returned, s.accepted)) (by decide)
  · exact Machine.exists_reachable (M := connWriteMachine [1, 2]) (fun _ _ _ h => h) ⟨5, rfl⟩
      [{}, { ret := .done 1 }, { fdeof := true }] (fun s => (s.returned, s.accepted, s.log)) (by decide)

/-- Three bytes in two pieces, with a 0 between them and an error at the end. -/
theorem conn_write_reports_pieces : ∃ s, (connWriteMachine [1, 2, 3]).Reachable (fun _ _ => True) s ∧
    s.returned = some 2 ∧ s.accepted.length = 2 := by
  obtain ⟨s, hs, hsee⟩ : ∃ s, (connWriteMachine [1, 2, 3]).Reachable (fun _ _ => True) s ∧
      (s.returned, s.log) = (some 2, [some (.done 2), some (.done 0), some .error]) :=
    Machine.exists_reachable (M := connWriteMachine [1, 2, 3]) (fun _ _ _ h => h) ⟨5, rfl⟩
      [{}, { ret := .done 2 }, {}, { ret := .done 0 }, {}, { ret := .error }] (fun s => (s.returned, s.log)) (by decide)
  obtain ⟨hret, hlog⟩ := Prod.mk.inj hsee
  have hcount := (conn_write_reports hs hret).2.mpr (by rw [hlog]; decide)
  exact ⟨s, hs, hret, by omega⟩

end Lthr.ConnWrite

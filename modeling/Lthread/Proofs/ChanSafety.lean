import Lthread.Proofs.ChanRun

/-! What holds in every state of every run of channel operations: each channel
is a lossless queue, a blocked selector is linked where its cases say and
nowhere else, and nobody waits for a peer that is there. -/

namespace Lthr

open Chans

theorem reachable_replay (capacity : ChanId → ℕ) (as : List ChanLabel)
    (h : (Machine.replay Sys.chanStep as (Sys.chanStart capacity)).isSome = true) :
    chanMachine.Reachable anyStep ((Machine.replay Sys.chanStep as (Sys.chanStart capacity)).get h) :=
  Machine.Reachable.of_replay (M := chanMachine) (fun _ _ _ hs => ⟨trivial, hs⟩) ⟨capacity, rfl⟩ as h

theorem checked_step (ok : Sys → ChanLabel → Prop) [∀ x a, Decidable (ok x a)] (x : Sys) (a : ChanLabel) (x' : Sys)
    (hs : (if ok x a then x.chanStep a else none) = some x') : ok x a ∧ chanMachine.step x a x' := by
  split_ifs at hs with hok
  exact ⟨hok, hs⟩

/-- The messages handed out by a channel, followed by its buffer, are the messages
it has accepted, in the order in which their calls started. A call that returns
the index of a send case had the message it gave for that case accepted, once
and by that channel, and nothing else. A call that returns the index of a receive
case got one message, from that channel, or the NULL of a closed one. A call that
returns -1 or -2 has sent nothing and received nothing. -/
theorem chan_exactly_once_fifo {x : Sys} (h : chanMachine.Reachable anyStep x) :
    (∀ c, (x.ch.hist.handed c).map Passed.msg ++ (x.ch.chan c).buffer =
        (x.ch.hist.accepted c).map Passed.msg ∧
      (x.ch.hist.accepted c).Pairwise fun p q => p.ticket < q.ticket) ∧
    (x.ch.hist.returns.Pairwise fun r q => r.call.ticket ≠ q.call.ticket) ∧
    ∀ r ∈ x.ch.hist.returns,
      (∀ i : ℕ, r.result = i → i < r.call.wchanCount → ∀ c,
        ofCall r.call.ticket (x.ch.hist.accepted c) =
            (if r.call.chans i = c then [⟨r.call.ticket, i, r.call.given i⟩] else []) ∧
          ofCall r.call.ticket (x.ch.hist.handed c) = []) ∧
      (∀ i : ℕ, r.result = i → r.call.wchanCount ≤ i →
        (∀ c, ofCall r.call.ticket (x.ch.hist.accepted c) = []) ∧
        ((∀ c, ofCall r.call.ticket (x.ch.hist.handed c) =
            if r.call.chans i = c then [⟨r.call.ticket, i, r.call.msgs i⟩] else []) ∨
          (∀ c, ofCall r.call.ticket (x.ch.hist.handed c) = []) ∧ r.call.msgs i = NULL ∧
            (x.ch.chan (r.call.chans i)).closed = true)) ∧
      (r.result = -1 ∨ r.result = -2 → ∀ c, ofCall r.call.ticket (x.ch.hist.accepted c) = [] ∧
        ofCall r.call.ticket (x.ch.hist.handed c) = []) := by
  have hI := (ChanOk.reachable h).inv
  refine ⟨fun c => ⟨hI.ordered.flow c, hI.ordered.sorted c⟩, hI.accounts.distinct, fun r hr => ?_⟩
  obtain ⟨-, -, ho⟩ := hI.accounts.returned r hr
  refine ⟨fun i hi hlt c => ?_, fun i hi hle => ⟨fun c => ?_, ?_⟩, fun hneg c => ?_⟩
  · have hacc := ho.accepted c
    rw [hi, Int.toNat_natCast] at hacc
    refine ⟨?_, ?_⟩
    · rw [hacc]
      exact if_congr ⟨fun hx => hx.2.2, fun hx => ⟨by omega, by omega, hx⟩⟩ rfl rfl
    · rcases ho.handed with hh | ⟨hh, -⟩
      · rw [hh, if_neg]
        intro hx
        omega
      · exact hh c
  · rw [ho.accepted, if_neg]
    intro hx
    omega
  · rcases ho.handed with hh | ⟨hh, -, hnull, hclosed⟩
    · refine Or.inl fun c => ?_
      have := hh c
      rw [hi, Int.toNat_natCast] at this
      rw [this]
      exact if_congr ⟨fun hx => hx.2, fun hx => ⟨by omega, hx⟩⟩ rfl rfl
    · rw [hi, Int.toNat_natCast] at hnull hclosed
      exact Or.inr ⟨hh, hnull, hclosed⟩
  · obtain ⟨hacc, hhand⟩ := ho.nothing (by omega)
    exact ⟨hacc c, hhand c⟩

/-- Lthread 1 sends 7 on the unbuffered channel 0 and blocks, lthread 2 receives
it, lthread 1 comes back; lthread 3 finds nothing to receive in time. -/
def handOver : List ChanLabel :=
  [.call 1 (.send 0 7), .call 2 (.recv 0 0), .resume 1,
    .call 3 (.select 0 (fun _ => 0) (fun _ => 0) 0 1 5), .expire 3]

theorem chan_exactly_once_fifo_handOver :
    ∃ x, chanMachine.Reachable anyStep x ∧ x.ch.hist.accepted 0 = [⟨0, 0, 7⟩] ∧
      x.ch.hist.handed 0 = [⟨1, 0, 7⟩] ∧ x.ch.hist.returns.map Ret.result = [0, 0, -2] ∧
      (x.ch.hist.handed 0).map Passed.msg ++ (x.ch.chan 0).buffer =
        (x.ch.hist.accepted 0).map Passed.msg := by
  have hrun := reachable_replay (fun _ => 0) handOver (by decide)
  exact ⟨_, hrun, rfl, rfl, rfl, ((chan_exactly_once_fifo hrun).1 0).1⟩

/-- While an lthread is blocked with selector `s` and nobody has served it, every
entry of `s` is linked once, in the queue of its own channel and side and in no
other, and the lthread is in the blocked list of the selector's condition.
Otherwise no entry of `s` is linked. A target other than -1 stands for an lthread
that was served, is on the ready queue once and has not been resumed; an idle
selector has target -1. The counts are the lengths of the queues. -/
theorem selector_registration {x : Sys} (h : chanMachine.Reachable anyStep x) :
    (∀ s l t, (x.sched.lt l).ctx = .selWait s t → (x.ch.sel s).target = -1 →
      (∀ c i, (x.ch.chan c).sendq.count ⟨s, i⟩ =
        if i < (x.ch.sel s).wchanCount ∧ (x.ch.sel s).chans i = c then 1 else 0) ∧
      (∀ c i, (x.ch.chan c).recvq.count ⟨s, i⟩ =
        if (x.ch.sel s).wchanCount ≤ i ∧ i < (x.ch.sel s).wchanCount + (x.ch.sel s).rchanCount ∧
          (x.ch.sel s).chans i = c then 1 else 0) ∧
      l ∈ x.sched.blocked (.sel s)) ∧
    (∀ s, (¬ ∃ l t, (x.sched.lt l).ctx = .selWait s t ∧ (x.ch.sel s).target = -1) →
      ∀ c i, (⟨s, i⟩ : Wait) ∉ (x.ch.chan c).sendq ∧ (⟨s, i⟩ : Wait) ∉ (x.ch.chan c).recvq) ∧
    (∀ s, (x.ch.sel s).target ≠ -1 →
      ∃ l t, (x.sched.lt l).ctx = .selWait s t ∧ x.sched.ready.count l = 1) ∧
    (∀ s, (∀ l t, (x.sched.lt l).ctx ≠ .selWait s t) → (x.ch.sel s).target = -1) ∧
    ∀ c, (x.ch.chan c).sendCount = (x.ch.chan c).sendq.length ∧
      (x.ch.chan c).recvCount = (x.ch.chan c).recvq.length := by
  have hok := ChanOk.reachable h
  have hR := hok.inv.registered
  have hL := hok.linked
  have huser {s : SelId} (hn : (x.ch.sel s).user ≠ none) :
      ∃ l t, (x.sched.lt l).ctx = .selWait s t := by
    obtain ⟨l, hl⟩ := Option.ne_none_iff_exists'.mp hn
    exact ⟨l, (hL.user s l).mp hl⟩
  refine ⟨fun s l t hc ht => ?_, fun s hs c i => ?_, fun s ht => ?_, fun s hs => ?_, fun c =>
    ⟨hR.count c .send, hR.count c .recv⟩⟩
  · have hu := (hL.user s l).mpr ⟨t, hc⟩
    have hp : x.ch.parked s := ⟨by rw [hu]; simp, ht⟩
    refine ⟨fun c i => ?_, fun c i => ?_, ?_⟩
    · refine (hR.count_entry .send c ⟨s, i⟩).trans (if_congr ?_ rfl rfl)
      simp only [hp, true_and, idxs, List.mem_range]
    · refine (hR.count_entry .recv c ⟨s, i⟩).trans (if_congr ?_ rfl rfl)
      simp only [hp, true_and, idxs, List.mem_range'_1, and_assoc]
    · rw [hL.blocked, if_pos ht, hu]
      simp
  · refine ⟨fun hm => hs ?_, fun hm => hs ?_⟩
    · obtain ⟨hp, -⟩ := hR.mem .send hm
      obtain ⟨l, t, hc⟩ := huser hp.1
      exact ⟨l, t, hc, hp.2⟩
    · obtain ⟨hp, -⟩ := hR.mem .recv hm
      obtain ⟨l, t, hc⟩ := huser hp.1
      exact ⟨l, t, hc, hp.2⟩
  · have hn : (x.ch.sel s).user ≠ none := fun hn => ht (hR.idle s hn)
    obtain ⟨l, hl⟩ := Option.ne_none_iff_exists'.mp hn
    obtain ⟨t, -, hc, -, hr, -⟩ := hL.placed_woken hl ht
    exact ⟨l, t, hc, hr⟩
  · refine hR.idle s ?_
    by_contra hn
    obtain ⟨l, t, hc⟩ := huser hn
    exact hs l t hc

/-- Lthread 1 offers 5 on channel 0 and waits on channels 0 and 1 in one call. -/
def multiWait : List ChanLabel :=
  [.call 1 (.select 3 (fun i => if i = 2 then 1 else 0) (fun _ => 5) 1 2 100)]

theorem selector_registration_multiWait :
    ∃ x, chanMachine.Reachable anyStep x ∧ (x.sched.lt 1).ctx = .selWait (.heap 3) 100 ∧
      (x.ch.chan 0).sendq = [⟨.heap 3, 0⟩] ∧ (x.ch.chan 0).recvq = [⟨.heap 3, 1⟩] ∧
      (x.ch.chan 1).recvq = [⟨.heap 3, 2⟩] ∧ 1 ∈ x.sched.blocked (.sel (.heap 3)) := by
  have hrun := reachable_replay (fun _ => 0) multiWait (by decide)
  exact ⟨_, hrun, rfl, rfl, rfl, rfl, ((selector_registration hrun).1 (.heap 3) 1 100 rfl rfl).2.2⟩

/-- Who waits to receive from a channel finds it open and its buffer empty, who
waits to send finds no room, and the two do not wait beside each other: two
lthreads that are blocked with a send case and a receive case on one channel are
one and the same. -/
theorem no_missed_rendezvous {x : Sys} (h : chanMachine.Reachable anyStep x) (c : ChanId) :
    ((x.ch.chan c).recvq ≠ [] → (x.ch.chan c).closed = false ∧ (x.ch.chan c).buffer = []) ∧
    ((x.ch.chan c).sendq ≠ [] → (x.ch.chan c).queue = none ∨
      ∃ q, (x.ch.chan c).queue = some q ∧ q.size = q.capacity) ∧
    (∀ w ∈ (x.ch.chan c).sendq, ∀ v ∈ (x.ch.chan c).recvq, w.sel = v.sel) ∧
    ∀ l l' s s' t t' i j, (x.sched.lt l).ctx = .selWait s t → (x.ch.sel s).target = -1 →
      i < (x.ch.sel s).wchanCount → (x.ch.sel s).chans i = c →
      (x.sched.lt l').ctx = .selWait s' t' → (x.ch.sel s').target = -1 →
      (x.ch.sel s').wchanCount ≤ j → j < (x.ch.sel s').wchanCount + (x.ch.sel s').rchanCount →
      (x.ch.sel s').chans j = c → l = l' := by
  have hok := ChanOk.reachable h
  have hM := hok.inv.meeting
  have hR := hok.inv.registered
  have hL := hok.linked
  refine ⟨hM.recv c, fun hs => ?_, hM.same c, ?_⟩
  · have hfull := hM.send c hs
    cases hq : (x.ch.chan c).queue with
    | none => exact Or.inl rfl
    | some q =>
      rw [Chan.buffer_some _ hq, Chan.cap_some _ hq, q.length_toList] at hfull
      exact Or.inr ⟨q, rfl, hfull⟩
  · intro l l' s s' t t' i j hc ht hi hsc hc' ht' hj hj' hsc'
    have hu := (hL.user s l).mpr ⟨t, hc⟩
    have hu' := (hL.user s' l').mpr ⟨t', hc'⟩
    have hp : x.ch.parked s := ⟨by rw [hu]; simp, ht⟩
    have hp' : x.ch.parked s' := ⟨by rw [hu']; simp, ht'⟩
    have hw : (⟨s, i⟩ : Wait) ∈ (x.ch.chan c).waitq .send :=
      (hR.mem_iff .send).mpr ⟨hp, List.mem_range.mpr hi, hsc⟩
    have hv : (⟨s', j⟩ : Wait) ∈ (x.ch.chan c).waitq .recv :=
      (hR.mem_iff .recv).mpr ⟨hp', List.mem_range'_1.mpr ⟨hj, hj'⟩, hsc'⟩
    obtain rfl : s = s' := hM.same c _ hw _ hv
    exact Option.some_inj.mp (hu.symm.trans hu')

/-- A full buffer of one place and a sender that waits behind it. -/
def fullBuffer : List ChanLabel := [.call 1 (.send 0 7), .call 2 (.send 0 8)]

theorem no_missed_rendezvous_fullBuffer :
    ∃ x, chanMachine.Reachable anyStep x ∧ (x.ch.chan 0).sendq = [⟨.stack 2, 0⟩] ∧
      (x.ch.chan 0).buffer = [7] ∧ ((x.ch.chan 0).queue = none ∨
        ∃ q, (x.ch.chan 0).queue = some q ∧ q.size = q.capacity) := by
  have hrun := reachable_replay (fun _ => 1) fullBuffer (by decide)
  exact ⟨_, hrun, rfl, rfl, (no_missed_rendezvous hrun 0).2.1 (by decide)⟩

end Lthr

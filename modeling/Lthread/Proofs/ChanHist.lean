import Lthread.Proofs.ChanMeet

/-! The history of the channels. `Accounts` says for every call what it has sent
and received so far, `Ordered` says for every channel that it is a queue of the
accepted messages, in the order in which their calls started. -/

namespace Lthr
namespace Chans

/-- What the history `l` has of the call with ticket `t`. -/
def ofCall (t : ℕ) (l : List Passed) : List Passed := l.filter fun p => decide (p.ticket = t)

theorem ofCall_append (t : ℕ) (l l' : List Passed) :
    ofCall t (l ++ l') = ofCall t l ++ ofCall t l' := List.filter_append l l'

theorem ofCall_self (p : Passed) : ofCall p.ticket [p] = [p] := by simp [ofCall]

theorem ofCall_ne {t : ℕ} {l : List Passed} (h : ∀ p ∈ l, p.ticket ≠ t) : ofCall t l = [] :=
  List.filter_eq_nil_iff.mpr fun p hp => by simpa using h p hp

theorem not_mem_of_ofCall {t : ℕ} {l : List Passed} (h : ofCall t l = []) {p : Passed}
    (hp : p ∈ l) : p.ticket ≠ t := by
  have := List.filter_eq_nil_iff.mp h p hp
  simpa using this

/-- The call `x` with result `r`. A send case had its message accepted once, on
its channel, and nothing else of the call was accepted. A receive case got one
message, from its channel, or the NULL of a closed channel. A negative result
means that nothing was sent or received. -/
structure Outcome (st : Chans) (x : Sel) (r : ℤ) : Prop where
  accepted : ∀ c, ofCall x.ticket (st.hist.accepted c) =
    if 0 ≤ r ∧ r < x.wchanCount ∧ x.chans r.toNat = c then
      [⟨x.ticket, r.toNat, x.given r.toNat⟩] else []
  handed : (∀ c, ofCall x.ticket (st.hist.handed c) =
      if (x.wchanCount : ℤ) ≤ r ∧ x.chans r.toNat = c then
        [⟨x.ticket, r.toNat, x.msgs r.toNat⟩] else []) ∨
    (∀ c, ofCall x.ticket (st.hist.handed c) = []) ∧ (x.wchanCount : ℤ) ≤ r ∧
      x.msgs r.toNat = NULL ∧ (st.chan (x.chans r.toNat)).closed = true

namespace Outcome

variable {st st' : Chans} {x x' : Sel} {r r' : ℤ}

theorem of_nothing (hacc : ∀ c, ofCall x.ticket (st.hist.accepted c) = [])
    (hhand : ∀ c, ofCall x.ticket (st.hist.handed c) = []) (hr : r < 0) : Outcome st x r := by
  refine ⟨fun c => ?_, Or.inl fun c => ?_⟩
  · rw [hacc, if_neg (by omega)]
  · rw [hhand, if_neg (by omega)]

theorem nothing (h : Outcome st x r) (hr : r < 0) :
    (∀ c, ofCall x.ticket (st.hist.accepted c) = []) ∧
      ∀ c, ofCall x.ticket (st.hist.handed c) = [] := by
  refine ⟨fun c => ?_, fun c => ?_⟩
  · rw [h.accepted, if_neg (by omega)]
  · rcases h.handed with hh | ⟨hh, -⟩
    · rw [hh, if_neg (by omega)]
    · exact hh c

theorem frame (h : Outcome st x r) (hx : x.SameArgs x') (hm : x'.msgs = x.msgs)
    (hacc : ∀ c, ofCall x.ticket (st'.hist.accepted c) = ofCall x.ticket (st.hist.accepted c))
    (hhand : ∀ c, ofCall x.ticket (st'.hist.handed c) = ofCall x.ticket (st.hist.handed c))
    (hclosed : ∀ c, (st.chan c).closed = true → (st'.chan c).closed = true) :
    Outcome st' x' r := by
  refine ⟨fun c => ?_, ?_⟩
  · rw [hx.ticket, hx.wcount, hx.chans, hx.given, hacc]
    exact h.accepted c
  · rw [hx.ticket, hx.wcount, hx.chans, hm]
    rcases h.handed with hh | ⟨hh, hw, hn, hc⟩
    · exact Or.inl fun c => by rw [hhand]; exact hh c
    · exact Or.inr ⟨fun c => by rw [hhand]; exact hh c, hw, hn, hclosed _ hc⟩

end Outcome

/-- The books of the calls in progress (`live`) and of those that have returned. -/
structure Accounts (st : Chans) (live : SelId → Prop) : Prop where
  fresh : ∀ s, live s → (st.sel s).ticket < st.hist.calls
  inj : ∀ s s', live s → live s' → (st.sel s).ticket = (st.sel s').ticket → s = s'
  outcome : ∀ s, live s → Outcome st (st.sel s) (st.sel s).target
  given : ∀ s, live s → (st.sel s).target = -1 →
    ∀ i < (st.sel s).wchanCount, (st.sel s).msgs i = (st.sel s).given i
  returned : ∀ r ∈ st.hist.returns, r.call.ticket < st.hist.calls ∧
    (∀ s, live s → (st.sel s).ticket ≠ r.call.ticket) ∧ Outcome st r.call r.result
  used : ∀ c, ∀ p ∈ st.hist.accepted c ++ st.hist.handed c, p.ticket < st.hist.calls
  distinct : st.hist.returns.Pairwise fun r q => r.call.ticket ≠ q.call.ticket

namespace Accounts

variable {st st' : Chans} {live live' : SelId → Prop} {s : SelId}

theorem waiting (h : st.Accounts live) (hs : live s) (ht : (st.sel s).target = -1) :
    (∀ c, ofCall (st.sel s).ticket (st.hist.accepted c) = []) ∧
      ∀ c, ofCall (st.sel s).ticket (st.hist.handed c) = [] :=
  (h.outcome s hs).nothing (by omega)

theorem congr (h : st.Accounts live) (hlive : ∀ s, live' s → live s)
    (hargs : ∀ s, live' s → (st.sel s).SameArgs (st'.sel s))
    (hmsgs : ∀ s, live' s → (st'.sel s).msgs = (st.sel s).msgs)
    (htarget : ∀ s, live' s → (st'.sel s).target = (st.sel s).target)
    (hhist : st'.hist = st.hist)
    (hclosed : ∀ c, (st.chan c).closed = true → (st'.chan c).closed = true) :
    st'.Accounts live' := by
  refine ⟨fun s hs => ?_, fun s s' hs hs' he => ?_, fun s hs => ?_, fun s hs ht i hi => ?_,
    fun r hr => ?_, fun c p hp => ?_, by rw [hhist]; exact h.distinct⟩
  · rw [(hargs s hs).ticket, hhist]; exact h.fresh s (hlive s hs)
  · rw [(hargs s hs).ticket, (hargs s' hs').ticket] at he
    exact h.inj s s' (hlive s hs) (hlive s' hs') he
  · rw [htarget s hs]
    exact (h.outcome s (hlive s hs)).frame (hargs s hs) (hmsgs s hs) (fun c => by rw [hhist])
      (fun c => by rw [hhist]) hclosed
  · rw [htarget s hs] at ht
    rw [(hargs s hs).wcount] at hi
    rw [hmsgs s hs, (hargs s hs).given]
    exact h.given s (hlive s hs) ht i hi
  · rw [hhist] at hr ⊢
    obtain ⟨h1, h2, h3⟩ := h.returned r hr
    refine ⟨h1, fun s hs => ?_, h3.frame ⟨rfl, rfl, rfl, rfl, rfl⟩ rfl (fun c => by rw [hhist])
      (fun c => by rw [hhist]) hclosed⟩
    rw [(hargs s hs).ticket]
    exact h2 s (hlive s hs)
  · rw [hhist] at hp ⊢
    exact h.used c p hp

theorem prepare (h : st.Accounts live) (hs : ¬ live s) (ht : (st.sel s).target = -1)
    (chans : ℕ → ChanId) (msgs : ℕ → Ptr) (w r : ℕ) :
    (st.prepare s chans msgs w r).Accounts fun s' => live s' ∨ s' = s := by
  have hne {s' : SelId} (he : s' ≠ s) : (st.prepare s chans msgs w r).sel s' = st.sel s' := by
    simp [Chans.prepare, modSel, he]
  have hself : (st.prepare s chans msgs w r).sel s = { st.sel s with
      chans := chans, msgs := msgs, wchanCount := w, rchanCount := r
      ticket := st.hist.calls, given := msgs } := by
    simp [Chans.prepare, modSel]
  have hold {s' : SelId} (hl : live s') : s' ≠ s := fun he => hs (he ▸ hl)
  have hcalls : (st.prepare s chans msgs w r).hist.calls = st.hist.calls + 1 := rfl
  refine ⟨fun s' hl => ?_, fun a b ha hb he => ?_, fun s' hl => ?_, fun s' hl ht' i hi => ?_,
    fun q hq => ?_, fun c p hp => ?_, h.distinct⟩
  · rw [hcalls]
    rcases hl with hl | rfl
    · rw [hne (hold hl)]
      exact Nat.lt_succ_of_lt (h.fresh s' hl)
    · rw [hself]
      exact Nat.lt_succ_self _
  · rcases ha with ha | rfl <;> rcases hb with hb | rfl
    · rw [hne (hold ha), hne (hold hb)] at he
      exact h.inj a b ha hb he
    · rw [hne (hold ha), hself] at he
      exact absurd he (Nat.ne_of_lt (h.fresh a ha))
    · rw [hne (hold hb), hself] at he
      exact absurd he.symm (Nat.ne_of_lt (h.fresh b hb))
    · rfl
  · rcases hl with hl | rfl
    · rw [hne (hold hl)]
      exact (h.outcome s' hl).frame ⟨rfl, rfl, rfl, rfl, rfl⟩ rfl (fun c => rfl) (fun c => rfl)
        fun c hc => hc
    · rw [hself]
      refine Outcome.of_nothing (fun c => ofCall_ne fun p hp => ?_)
        (fun c => ofCall_ne fun p hp => ?_) ?_
      · exact Nat.ne_of_lt (h.used c p (List.mem_append_left _ hp))
      · exact Nat.ne_of_lt (h.used c p (List.mem_append_right _ hp))
      · change (st.sel s').target < 0
        omega
  · rcases hl with hl | rfl
    · rw [hne (hold hl)] at ht' hi ⊢
      exact h.given s' hl ht' i hi
    · rw [hself]
  · obtain ⟨h1, h2, h3⟩ := h.returned q hq
    refine ⟨Nat.lt_succ_of_lt h1, fun s' hl => ?_, h3.frame ⟨rfl, rfl, rfl, rfl, rfl⟩ rfl
      (fun c => rfl) (fun c => rfl) fun c hc => hc⟩
    rcases hl with hl | rfl
    · rw [hne (hold hl)]; exact h2 s' hl
    · rw [hself]; exact Nat.ne_of_gt h1
  · exact Nat.lt_succ_of_lt (h.used c p hp)

theorem finish (h : st.Accounts live) (hs : live s) {x : Sel} {r : ℤ}
    (hx : (st.sel s).SameArgs x) (hm : x.msgs = (st.sel s).msgs) (ho : Outcome st (st.sel s) r)
    (hsel : ∀ s' ≠ s, st'.sel s' = st.sel s')
    (hhist : st'.hist = { st.hist with returns := st.hist.returns ++ [⟨x, r⟩] })
    (hclosed : ∀ c, (st'.chan c).closed = (st.chan c).closed) :
    st'.Accounts fun s' => live s' ∧ s' ≠ s := by
  have hframe {y : Sel} {q : ℤ} (hy : Outcome st y q) : Outcome st' y q :=
    hy.frame ⟨rfl, rfl, rfl, rfl, rfl⟩ rfl (fun c => by rw [hhist]) (fun c => by rw [hhist])
      fun c hc => by rw [hclosed]; exact hc
  refine ⟨fun s' hl => ?_, fun a b ha hb he => ?_, fun s' hl => ?_, fun s' hl => ?_, fun q hq => ?_,
    fun c p hp => ?_, ?_⟩
  · rw [hsel s' hl.2, hhist]; exact h.fresh s' hl.1
  · rw [hsel a ha.2, hsel b hb.2] at he
    exact h.inj a b ha.1 hb.1 he
  · rw [hsel s' hl.2]; exact hframe (h.outcome s' hl.1)
  · rw [hsel s' hl.2]; exact h.given s' hl.1
  · rw [hhist] at hq ⊢
    rcases List.mem_append.mp hq with hq | hq
    · obtain ⟨h1, h2, h3⟩ := h.returned q hq
      exact ⟨h1, fun s' hl => by rw [hsel s' hl.2]; exact h2 s' hl.1, hframe h3⟩
    · obtain rfl := List.mem_singleton.mp hq
      refine ⟨?_, fun s' hl he => ?_, ?_⟩
      · rw [hx.ticket]; exact h.fresh s hs
      · rw [hsel s' hl.2, hx.ticket] at he
        exact hl.2 (h.inj s' s hl.1 hs he)
      · exact ho.frame hx hm (fun c => by rw [hhist]) (fun c => by rw [hhist])
          fun c hc => by rw [hclosed]; exact hc
  · rw [hhist] at hp ⊢
    exact h.used c p hp
  · rw [hhist]
    refine List.pairwise_append.mpr ⟨h.distinct, List.pairwise_singleton _ _, fun q hq p hp => ?_⟩
    obtain rfl := List.mem_singleton.mp hp
    rw [hx.ticket]
    exact Ne.symm ((h.returned q hq).2.1 s hs)

theorem refuse (h : st.Accounts live) (c : ChanId) (m : Ptr) : (st.refuse c m).Accounts live := by
  have hframe {y : Sel} {q : ℤ} (hy : Outcome st y q) : Outcome (st.refuse c m) y q :=
    hy.frame ⟨rfl, rfl, rfl, rfl, rfl⟩ rfl (fun c => rfl) (fun c => rfl) fun c hc => hc
  refine ⟨fun s hs => Nat.lt_succ_of_lt (h.fresh s hs), h.inj, fun s hs => hframe (h.outcome s hs),
    h.given, fun q hq => ?_, fun c' p hp => Nat.lt_succ_of_lt (h.used c' p hp), ?_⟩
  · rcases List.mem_append.mp hq with hq | hq
    · obtain ⟨h1, h2, h3⟩ := h.returned q hq
      exact ⟨Nat.lt_succ_of_lt h1, h2, hframe h3⟩
    · obtain rfl := List.mem_singleton.mp hq
      refine ⟨Nat.lt_succ_self _, fun s hs => Nat.ne_of_lt (h.fresh s hs), ?_⟩
      refine Outcome.of_nothing (fun c' => ofCall_ne fun p hp => ?_)
        (fun c' => ofCall_ne fun p hp => ?_) (show (-1 : ℤ) < 0 by decide)
      · exact Nat.ne_of_lt (h.used c' p (List.mem_append_left _ hp))
      · exact Nat.ne_of_lt (h.used c' p (List.mem_append_right _ hp))
  · refine List.pairwise_append.mpr ⟨h.distinct, List.pairwise_singleton _ _, fun q hq p hp => ?_⟩
    obtain rfl := List.mem_singleton.mp hp
    exact Nat.ne_of_lt (h.returned q hq).1

/-- What is added to the history belongs to a case that is served now, and the
outcome of that case is right. -/
theorem serves {served : List Wait} {written peer : Option Wait} (h : st.Accounts live)
    (hs : Serves st st' served written peer) (hwritten : ∀ w, written = some w → w ∈ served)
    (hlive : ∀ w ∈ served, live w.sel)
    (hnew : ∀ c, ∀ p ∈ st'.hist.accepted c ++ st'.hist.handed c,
      p ∈ st.hist.accepted c ++ st.hist.handed c ∨ ∃ w ∈ served, p.ticket = (st.sel w.sel).ticket)
    (hold : ∀ t, (∀ w ∈ served, (st.sel w.sel).ticket ≠ t) → ∀ c,
      ofCall t (st'.hist.accepted c) = ofCall t (st.hist.accepted c) ∧
        ofCall t (st'.hist.handed c) = ofCall t (st.hist.handed c))
    (hout : ∀ w ∈ served, Outcome st' (st'.sel w.sel) w.idx) : st'.Accounts live := by
  have hclosed (c : ChanId) (hc : (st.chan c).closed = true) : (st'.chan c).closed = true := by
    rw [hs.closed]; exact hc
  have hmsgs {s : SelId} (hn : ∀ w ∈ served, w.sel ≠ s) : (st'.sel s).msgs = (st.sel s).msgs := by
    funext i
    exact hs.msgs ⟨s, i⟩ fun he => hn _ (hwritten _ he) rfl
  refine ⟨fun s hl => ?_, fun a b ha hb he => ?_, fun s hl => ?_, fun s hl ht i hi => ?_,
    fun r hr => ?_, fun c p hp => ?_, by rw [hs.returns]; exact h.distinct⟩
  · rw [(hs.call s).ticket, hs.calls]; exact h.fresh s hl
  · rw [(hs.call a).ticket, (hs.call b).ticket] at he
    exact h.inj a b ha hb he
  · by_cases hex : ∃ w ∈ served, w.sel = s
    · obtain ⟨w, hw, rfl⟩ := hex
      rw [hs.target w hw]
      exact hout w hw
    · have hn : ∀ w ∈ served, w.sel ≠ s := fun w hw he => hex ⟨w, hw, he⟩
      have ht := hold (st.sel s).ticket fun w hw he => hn w hw (h.inj _ _ (hlive w hw) hl he)
      rw [hs.others s hn]
      exact (h.outcome s hl).frame (hs.call s).toSameArgs (hmsgs hn) (fun c => (ht c).1)
        (fun c => (ht c).2) hclosed
  · have hn : ∀ w ∈ served, w.sel ≠ s := by
      rintro w hw rfl
      rw [hs.target w hw] at ht
      omega
    rw [hs.others s hn] at ht
    rw [(hs.call s).wcount] at hi
    rw [hmsgs hn, (hs.call s).given]
    exact h.given s hl ht i hi
  · rw [hs.returns] at hr
    obtain ⟨h1, h2, h3⟩ := h.returned r hr
    have ht := hold r.call.ticket fun w hw => h2 _ (hlive w hw)
    refine ⟨by rw [hs.calls]; exact h1, fun s hl => ?_, h3.frame ⟨rfl, rfl, rfl, rfl, rfl⟩ rfl
      (fun c => (ht c).1) (fun c => (ht c).2) hclosed⟩
    rw [(hs.call s).ticket]
    exact h2 s hl
  · rw [hs.calls]
    rcases hnew c p hp with hp | ⟨w, hw, he⟩
    · exact h.used c p hp
    · rw [he]; exact h.fresh _ (hlive w hw)

end Accounts

structure Ends (st : Chans) (live : SelId → Prop) (c : ChanId) (caller : Wait)
    (peer src dst : Option Wait) : Prop where
  served : ∀ w, w ∈ caller :: peer.toList ↔ src = some w ∨ dst = some w
  live : ∀ w ∈ caller :: peer.toList, live w.sel ∧ (st.sel w.sel).target = -1 ∧
    (st.sel w.sel).chans w.idx = c
  sends : ∀ w, src = some w → w.idx < (st.sel w.sel).wchanCount
  receives : ∀ w, dst = some w → (st.sel w.sel).wchanCount ≤ w.idx
  apart : ∀ w v, src = some w → dst = some v → w.sel ≠ v.sel

namespace Exchange

variable {st st' : Chans} {live : SelId → Prop} {c : ChanId} {caller : Wait}
  {peer src dst : Option Wait}

theorem ofCall_accepted (h : Exchange st st' c caller peer src dst) (t : ℕ) (c' : ChanId) :
    ofCall t (st'.hist.accepted c') = ofCall t (st.hist.accepted c') ++
      if c' = c then ofCall t (src.map st.passed).toList else [] := by
  rw [h.accepted]
  by_cases hc : c' = c
  · subst hc; rw [Function.update_self, if_pos rfl, ofCall_append]
  · rw [Function.update_of_ne hc, if_neg hc, List.append_nil]

theorem ofCall_handed (h : Exchange st st' c caller peer src dst) (t : ℕ) (c' : ChanId) :
    ofCall t (st'.hist.handed c') = ofCall t (st.hist.handed c') ++
      if c' = c then ofCall t (dst.map st'.passed).toList else [] := by
  rw [h.handed]
  by_cases hc : c' = c
  · subst hc; rw [Function.update_self, if_pos rfl, ofCall_append]
  · rw [Function.update_of_ne hc, if_neg hc, List.append_nil]

theorem mem_hist (h : Exchange st st' c caller peer src dst) {c' : ChanId} {p : Passed}
    (hp : p ∈ st'.hist.accepted c' ++ st'.hist.handed c') :
    p ∈ st.hist.accepted c' ++ st.hist.handed c' ∨ (∃ w, src = some w ∧ p = st.passed w) ∨
      ∃ w, dst = some w ∧ p = st'.passed w := by
  rw [h.accepted, h.handed] at hp
  by_cases hc : c' = c
  · subst hc
    simp only [Function.update_self, List.mem_append, Option.mem_toList,
      Option.map_eq_some_iff] at hp ⊢
    rcases hp with (hp | ⟨w, hw, rfl⟩) | (hp | ⟨w, hw, rfl⟩)
    · exact Or.inl (Or.inl hp)
    · exact Or.inr (Or.inl ⟨w, hw, rfl⟩)
    · exact Or.inl (Or.inr hp)
    · exact Or.inr (Or.inr ⟨w, hw, rfl⟩)
  · rw [Function.update_of_ne hc, Function.update_of_ne hc] at hp
    exact Or.inl hp

theorem passed_ne {f : Wait → Passed} {o : Option Wait} {t : ℕ}
    (h : ∀ w, o = some w → (f w).ticket ≠ t) : ofCall t (o.map f).toList = [] := by
  cases o with
  | none => rfl
  | some w =>
    refine ofCall_ne fun p hp => ?_
    obtain rfl := List.mem_singleton.mp hp
    exact h w rfl

theorem accounts (h : Exchange st st' c caller peer src dst) (hA : st.Accounts live)
    (he : Ends st live c caller peer src dst) : st'.Accounts live := by
  have hticket (w : Wait) : (st'.passed w).ticket = (st.sel w.sel).ticket := (h.call w.sel).ticket
  refine hA.serves h.toServes (fun w hw => (he.served w).mpr (Or.inr hw))
    (fun w hw => (he.live w hw).1) (fun c' p hp => ?_) (fun t ht c' => ⟨?_, ?_⟩) (fun w hw => ?_)
  · rcases h.mem_hist hp with hp | ⟨w, hw, rfl⟩ | ⟨w, hw, rfl⟩
    · exact Or.inl hp
    · exact Or.inr ⟨w, (he.served w).mpr (Or.inl hw), rfl⟩
    · exact Or.inr ⟨w, (he.served w).mpr (Or.inr hw), hticket w⟩
  · rw [h.ofCall_accepted, passed_ne fun w hw => ht w ((he.served w).mpr (Or.inl hw))]
    simp
  · rw [h.ofCall_handed, passed_ne fun w hw => by
      rw [hticket]; exact ht w ((he.served w).mpr (Or.inr hw))]
    simp
  · obtain ⟨hl, ht, hc⟩ := he.live w hw
    obtain ⟨hacc, hhand⟩ := hA.waiting hl ht
    have hargs := (h.call w.sel).toSameArgs
    rcases (he.served w).mp hw with hsrc | hdst
    · -- the sender
      have hlt := he.sends w hsrc
      refine ⟨fun c' => ?_, Or.inl fun c' => ?_⟩
      · rw [hargs.ticket, hargs.wcount, hargs.chans, hargs.given, h.ofCall_accepted, hacc, hsrc,
          Int.toNat_natCast, hc]
        have hself : ofCall (st.sel w.sel).ticket [st.passed w] = [st.passed w] := ofCall_self _
        have hg := hA.given _ hl ht w.idx hlt
        by_cases hcc : c' = c
        · rw [if_pos hcc, if_pos ⟨by omega, by omega, hcc.symm⟩, List.nil_append, Option.map_some,
            Option.toList_some, hself, passed, hg]
        · rw [if_neg hcc, if_neg fun hx => hcc hx.2.2.symm, List.append_nil]
      · have hnone : ofCall (st.sel w.sel).ticket (dst.map st'.passed).toList = [] := by
          refine passed_ne fun v hv hx => he.apart w v hsrc hv ?_
          rw [hticket] at hx
          exact hA.inj _ _ hl (he.live v ((he.served v).mpr (Or.inr hv))).1 hx.symm
        rw [hargs.ticket, hargs.wcount, h.ofCall_handed, hhand, hnone, ite_self,
          if_neg fun hx => Nat.not_lt.mpr (Int.ofNat_le.mp hx.1) hlt]
        rfl
    · -- the receiver
      have hle := he.receives w hdst
      refine ⟨fun c' => ?_, Or.inl fun c' => ?_⟩
      · have hnone : ofCall (st.sel w.sel).ticket (src.map st.passed).toList = [] := by
          refine passed_ne fun v hv hx => he.apart v w hv hdst ?_
          exact hA.inj _ _ (he.live v ((he.served v).mpr (Or.inl hv))).1 hl hx
        rw [hargs.ticket, hargs.wcount, h.ofCall_accepted, hacc, hnone, ite_self,
          if_neg fun hx => Nat.not_lt.mpr hle (Int.ofNat_lt.mp hx.2.1)]
        rfl
      · rw [hargs.ticket, hargs.wcount, hargs.chans, h.ofCall_handed, hhand, hdst,
          Int.toNat_natCast, hc]
        have hself : ofCall (st.sel w.sel).ticket [st'.passed w] = [st'.passed w] := by
          rw [← hticket]; exact ofCall_self _
        by_cases hcc : c' = c
        · rw [if_pos hcc, if_pos ⟨by omega, hcc.symm⟩, List.nil_append, Option.map_some,
            Option.toList_some, hself, passed, hargs.ticket]
        · rw [if_neg hcc, if_neg fun hx => hcc hx.2.symm, List.append_nil]

end Exchange

theorem Nulled.accounts {st st' : Chans} {live : SelId → Prop} {w : Wait} {peer : Option Wait}
    (h : Nulled st st' w peer) (hA : st.Accounts live) (hl : live w.sel)
    (ht : (st.sel w.sel).target = -1) (hw : (st.sel w.sel).wchanCount ≤ w.idx)
    (hc : (st.chan ((st.sel w.sel).chans w.idx)).closed = true) : st'.Accounts live := by
  refine hA.serves h.toServes (fun v hv => by rw [Option.some_inj.mp hv]; simp)
    (fun v hv => ?_) (fun c p hp => ?_) (fun t _ c => ?_) (fun v hv => ?_)
  · obtain rfl := List.mem_singleton.mp hv
    exact hl
  · rw [h.accepted, h.handed] at hp
    exact Or.inl hp
  · rw [h.accepted, h.handed]
    exact ⟨rfl, rfl⟩
  · obtain rfl := List.mem_singleton.mp hv
    obtain ⟨hacc, hhand⟩ := hA.waiting hl ht
    have hargs := (h.call v.sel).toSameArgs
    refine ⟨fun c => ?_, Or.inr ⟨fun c => ?_, ?_, ?_, ?_⟩⟩
    · rw [hargs.ticket, hargs.wcount, h.accepted, hacc,
        if_neg fun hx => Nat.not_lt.mpr hw (Int.ofNat_lt.mp hx.2.1)]
    · rw [hargs.ticket, h.handed, hhand]
    · rw [hargs.wcount]; exact Int.ofNat_le.mpr hw
    · rw [Int.toNat_natCast]; exact h.null
    · rw [hargs.chans, Int.toNat_natCast, h.closed]; exact hc

/-- Each channel is a queue of the messages it has accepted; they are accepted
in the order of the calls that send them, those that wait come after. -/
structure Ordered (st : Chans) : Prop where
  flow : ∀ c, (st.hist.handed c).map Passed.msg ++ (st.chan c).buffer =
    (st.hist.accepted c).map Passed.msg
  sorted : ∀ c, (st.hist.accepted c).Pairwise fun p q => p.ticket < q.ticket
  queued : ∀ c, (st.chan c).sendq.Pairwise fun w v =>
    (st.sel w.sel).ticket ≤ (st.sel v.sel).ticket
  before : ∀ c, ∀ p ∈ st.hist.accepted c, ∀ w ∈ (st.chan c).sendq,
    p.ticket < (st.sel w.sel).ticket

namespace Ordered

variable {st st' : Chans} {s : SelId}

theorem congr (h : st.Ordered) (hq : ∀ c, List.Sublist (st'.chan c).sendq (st.chan c).sendq)
    (hbuf : ∀ c, (st'.chan c).buffer = (st.chan c).buffer)
    (hticket : ∀ c, ∀ w ∈ (st'.chan c).sendq, (st'.sel w.sel).ticket = (st.sel w.sel).ticket)
    (hacc : st'.hist.accepted = st.hist.accepted) (hhand : st'.hist.handed = st.hist.handed) :
    st'.Ordered := by
  refine ⟨fun c => ?_, fun c => ?_, fun c => ?_, fun c p hp w hw => ?_⟩
  · rw [hacc, hhand, hbuf]; exact h.flow c
  · rw [hacc]; exact h.sorted c
  · refine List.Pairwise.imp_of_mem ?_ ((h.queued c).sublist (hq c))
    intro w v hw hv hle
    rw [hticket c w hw, hticket c v hv]
    exact hle
  · rw [hacc] at hp
    rw [hticket c w hw]
    exact h.before c p hp w ((hq c).subset hw)

theorem serves_sublist {served : List Wait} {written peer : Option Wait}
    (h : Serves st st' served written peer) (c : ChanId) :
    List.Sublist (st'.chan c).sendq (st.chan c).sendq := by
  have := h.waitq c .send
  simp only [Chan.waitq] at this
  rw [this]
  exact List.filter_sublist

theorem exchange {c : ChanId} {caller : Wait} {peer src dst : Option Wait} (h : st.Ordered)
    (hx : Exchange st st' c caller peer src dst)
    (hlast : ∀ w, src = some w → (∀ p ∈ st.hist.accepted c, p.ticket < (st.sel w.sel).ticket) ∧
      ∀ v ∈ (st'.chan c).sendq, (st.sel w.sel).ticket < (st.sel v.sel).ticket) : st'.Ordered := by
  have hsub := serves_sublist hx.toServes
  refine ⟨fun c' => ?_, fun c' => ?_, fun c' => ?_, fun c' p hp w hw => ?_⟩
  · rw [hx.accepted, hx.handed]
    by_cases hc : c' = c
    · subst hc
      have hmap {f : Wait → Passed} (o : Option Wait) :
          (o.map f).toList.map Passed.msg = (o.map fun w => (f w).msg).toList := by cases o <;> rfl
      rw [Function.update_self, Function.update_self, List.map_append, List.map_append, hmap, hmap,
        List.append_assoc, ← hx.flow, ← List.append_assoc, h.flow]
    · rw [Function.update_of_ne hc, Function.update_of_ne hc, hx.buffer c' hc]
      exact h.flow c'
  · rw [hx.accepted]
    by_cases hc : c' = c
    · subst hc
      rw [Function.update_self]
      refine List.pairwise_append.mpr ⟨h.sorted c', ?_, fun p hp q hq => ?_⟩
      · cases src <;> simp
      · rw [Option.mem_toList, Option.map_eq_some_iff] at hq
        obtain ⟨w, hw, rfl⟩ := hq
        exact (hlast w hw).1 p hp
    · rw [Function.update_of_ne hc]; exact h.sorted c'
  · refine ((h.queued c').sublist (hsub c')).imp fun {w v} hle => ?_
    rw [(hx.call w.sel).ticket, (hx.call v.sel).ticket]
    exact hle
  · rw [(hx.call w.sel).ticket]
    rw [hx.accepted] at hp
    by_cases hc : c' = c
    · subst hc
      rw [Function.update_self] at hp
      rcases List.mem_append.mp hp with hp | hp
      · exact h.before c' p hp w ((hsub c').subset hw)
      · rw [Option.mem_toList, Option.map_eq_some_iff] at hp
        obtain ⟨v, hv, rfl⟩ := hp
        exact (hlast v hv).2 w hw
    · rw [Function.update_of_ne hc] at hp
      exact h.before c' p hp w ((hsub c').subset hw)

end Ordered
end Chans
end Lthr

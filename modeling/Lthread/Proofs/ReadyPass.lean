import Lthread.Proofs.Passes

/-! The loop of `lthread_run` over the ready queue. It ends with the lthread that was the
last one when it began, however the queue has grown behind it. -/

namespace Lthr

/-- The last pass over the ready queue: the queue it began with, the lthreads that
`_lthread_resume` was called for, and those that were appended, in order. -/
structure ReadyPass where
  start : List LtId := []
  resumed : List LtId := []
  appended : List LtId := []

def Phase.isReady : Phase → Bool
  | .ready _ => true
  | _ => false

theorem Phase.ready_of_isReady {p : Phase} (h : p.isReady = true) : ∃ last, p = .ready last := by
  cases p with
  | ready last => exact ⟨last, rfl⟩
  | _ => cases h

/-- The last one of a queue whose members are distinct stands at its end only. -/
theorem rest_nil {α : Type} {done rest : List α} {m : α} (h : (done ++ rest).Nodup) (hm : done.getLast? = some m)
    (hlast : (done ++ rest).getLast? = some m) : rest = [] := by
  by_contra hne
  rw [List.getLast?_append_of_ne_nil _ hne] at hlast
  rw [List.nodup_append] at h
  exact h.2.2 m (List.mem_of_getLast? hm) m (List.mem_of_getLast? hlast) rfl

namespace World

open Sched Seat

variable {k : Bool} {x x' : World} {l m : LtId} {a : Label}

def noteReady (x : World) (a : Label) (x' : World) (p : ReadyPass) : ReadyPass :=
  if x.phase.isReady then
    match x.cpu, a, x.sched.ready with
    | .loop, .sched, l :: rest =>
      { p with resumed := p.resumed ++ [l], appended := p.appended ++ x'.sched.ready.drop rest.length }
    | _, _, _ => { p with appended := p.appended ++ x'.sched.ready.drop x.sched.ready.length }
  else if x'.phase.isReady then { start := x'.sched.ready }
  else p

/-- The runs of the program with their passes over the ready queue. -/
def readyMachine : Machine (World × ReadyPass) Label := worldMachine.observe {} noteReady

/-- During a pass no lthread of its queue is cancelled. -/
def sparesQueue (p : World × ReadyPass) (a : Label) : Prop :=
  stepOk true p.1 a ∧ (p.1.phase.isReady = true → ∀ l ∈ a.cancels, l ∉ p.2.start)

theorem Inv.step_ready (h : x.Inv k) (hx : x.step a = .ok x') (hloop : a ≠ .sched ∨ x.cpu ≠ .loop) :
    x.sched.ready <+: x'.sched.ready := by
  rcases h.step_grows hx hloop with ⟨u, -, rfl⟩ | hg | ⟨l, op, -, -, -, he⟩
  · exact List.prefix_rfl
  · exact hg.ready
  · rw [he.ready]

theorem noteReady_other {p : ReadyPass} (hp : x.phase.isReady = true) (ha : x.cpu ≠ .loop ∨ a ≠ .sched ∨ x.sched.ready = []) :
    noteReady x a x' p =
      { p with appended := p.appended ++ x'.sched.ready.drop x.sched.ready.length } := by
  unfold noteReady
  rw [if_pos hp]
  split
  · next hcpu hr =>
    rcases ha with h0 | h0 | h0
    · exact absurd hcpu h0
    · exact absurd rfl h0
    · rw [h0] at hr
      cases hr
  · rfl

theorem noteReady_pop {p : ReadyPass} {rest : List LtId} (hp : x.phase.isReady = true) (hcpu : x.cpu = .loop)
    (hr : x.sched.ready = l :: rest) : noteReady x .sched x' p =
      { p with resumed := p.resumed ++ [l], appended := p.appended ++ x'.sched.ready.drop rest.length } := by
  unfold noteReady
  rw [if_pos hp, hcpu, hr]

/-! One pass -/

/-- A pass under way: `rest` of its queue is still to come, and what was appended stands
behind it. -/
structure Passing (x : World) (p : ReadyPass) (last : Option LtId) (rest : List LtId) : Prop where
  split : p.start = p.resumed ++ rest
  ready : x.sched.ready = rest ++ p.appended
  last : last = p.start.getLast?
  nodup : p.start.Nodup
  current : ∀ l, x.cpu.on = some l → p.resumed.getLast? = some l
  ended : x.cpu = .loop → rest = [] → p.start = [] ∧ p.appended = []

structure Passed (x : World) (p : ReadyPass) : Prop where
  nodup : p.start.Nodup
  resumed : p.resumed = p.start
  appended : p.appended <+: x.sched.ready

/-- What the pass has done and has still to do. -/
def PassOk (x : World) (p : ReadyPass) : Prop :=
  (∃ last rest, x.phase = .ready last ∧ Passing x p last rest) ∨ x.phase.isReady = false ∧ Passed x p

namespace Passing

variable {p : ReadyPass} {last : Option LtId} {rest : List LtId}

theorem appended (h : Passing x p last rest) {new : List LtId} (hr : x'.sched.ready = x.sched.ready ++ new) :
    x'.sched.ready = rest ++ (p.appended ++ x'.sched.ready.drop x.sched.ready.length) := by
  rw [hr, List.drop_left, h.ready, List.append_assoc]

theorem running (h : Passing x p last rest) (hi : x.Inv k) (hp : x.phase = .ready last) (hon : x.cpu.on = some l)
    (hx : x.step a = .ok x') : x'.phase = .ready last ∧ Passing x' (noteReady x a x' p) last rest ∨
      x'.phase = .defer ∧ Passed x' (noteReady x a x' p) := by
  have hcpu : x.cpu ≠ .loop := by
    intro hc
    rw [hc] at hon
    cases hon
  obtain ⟨new, hnew⟩ := hi.step_ready hx (Or.inr hcpu)
  rw [noteReady_other (by rw [hp]; rfl) (Or.inl hcpu)]
  have hready := h.appended hnew.symm
  have hlast := h.current l hon
  rcases step_running (by simp [hp]) (by simp [hp]) hon hx with ⟨hon', hp'⟩ | ⟨hcpu', hp'⟩
  · refine Or.inl ⟨hp'.trans hp, h.split, hready, h.last, h.nodup, fun m hm => ?_, fun hc => ?_⟩
    · rw [hon'] at hm
      rwa [← Option.some_inj.mp hm]
    · rw [hc] at hon'
      cases hon'
  · rw [hp, Phase.after] at hp'
    by_cases hl : last = some l
    · rw [if_pos hl] at hp'
      obtain rfl : rest = [] := rest_nil (h.split ▸ h.nodup) hlast (h.split ▸ h.last.symm.trans hl)
      refine Or.inr ⟨hp', h.nodup, ?_, ?_⟩
      · exact (h.split.trans (List.append_nil _)).symm
      · exact ⟨[], (List.append_nil _).trans hready.symm⟩
    · rw [if_neg hl] at hp'
      refine Or.inl ⟨hp', h.split, hready, h.last, h.nodup, fun m hm => ?_, fun _ hrest => ?_⟩
      · rw [hcpu'] at hm
        cases hm
      · -- the last one of the queue has just been resumed
        refine absurd (h.last.trans ?_) hl
        rw [h.split, hrest, List.append_nil]
        exact hlast

theorem waiting (h : Passing x p last rest) (hp : x.phase = .ready last) (hcpu : x.cpu = .loop) (ha : a ≠ .sched)
    (hx : x.step a = .ok x') : x'.phase = .ready last ∧ Passing x' (noteReady x a x' p) last rest := by
  obtain ⟨hcpu', hp', hr, -⟩ := loop_waits (by simp [hp]) (by simp [hp]) hcpu ha hx
  have hnote : noteReady x a x' p = p := by
    rw [noteReady_other (by rw [hp]; rfl) (Or.inr (Or.inl ha)), hr, List.drop_length, List.append_nil]
  rw [hnote]
  refine ⟨hp'.trans hp, h.split, hr.trans h.ready, h.last, h.nodup, fun m hm => ?_, fun _ => h.ended hcpu⟩
  rw [hcpu'] at hm
  cases hm

theorem of_lthreadRun (h : Passing x p last rest) (h' : x'.Inv k) (hp : x.phase = .ready last) (hcpu : x.cpu = .loop)
    (hx : x.lthreadRun = .ok x') : (∃ rest, x'.phase = .ready last ∧ Passing x' (noteReady x .sched x' p) last rest) ∨
      x'.phase = .defer ∧ Passed x' (noteReady x .sched x' p) := by
  have hround := lthreadRun_round hx
  cases hround with
  | popped hp0 hr =>
    have hnil : rest = [] ∧ p.appended = [] := List.append_eq_nil_iff.mp (h.ready.symm.trans hr)
    refine Or.inr ⟨rfl, ?_⟩
    rw [noteReady_other (by rw [hp]; rfl) (Or.inr (Or.inr hr)), hr]
    refine ⟨h.nodup, ?_, ?_⟩
    · exact (h.split.trans (by rw [hnil.1, List.append_nil])).symm
    · change p.appended ++ x.sched.ready.drop 0 <+: x.sched.ready
      rw [hr, hnil.2]
      exact List.nil_prefix
  | @pop last' m ready _ hp0 hr hx =>
    obtain rfl := Phase.ready.inj (hp0.symm.trans hp)
    obtain ⟨rest', rfl⟩ : ∃ rest', rest = m :: rest' := by
      cases rest with
      | nil =>
        rw [h.ready, (h.ended hcpu rfl).2] at hr
        cases hr
      | cons m' rest' =>
        rw [h.ready] at hr
        exact ⟨rest', by rw [(List.cons.inj hr).1]⟩
    have hrest : ready = rest' ++ p.appended := by
      have h0 := h.ready.symm.trans hr
      exact (List.cons.inj h0).2.symm
    obtain ⟨new, hnew⟩ : ready <+: x'.sched.ready := (lthreadResume_grows h'.not_asleep hx).ready
    have hready : x'.sched.ready = rest' ++ (p.appended ++ x'.sched.ready.drop ready.length) := by
      rw [← hnew, List.drop_left, hrest, List.append_assoc]
    have hsplit : p.start = p.resumed ++ [m] ++ rest' := by
      rw [h.split, List.append_assoc]
      rfl
    rw [noteReady_pop (by rw [hp]; rfl) hcpu hr]
    have hm : (p.resumed ++ [m]).getLast? = some m := List.getLast?_concat
    have hpass (hc : x'.cpu = .loop → last' ≠ some m) (hon : ∀ l, x'.cpu.on = some l → m = l) :
        Passing x' { p with resumed := p.resumed ++ [m],
                            appended := p.appended ++ x'.sched.ready.drop ready.length } last' rest' := by
      refine ⟨hsplit, hready, h.last, h.nodup, fun l hl => ?_, fun hcpu' hnil => ?_⟩
      · rw [← hon l hl]
        exact hm
      · refine absurd (h.last.trans ?_) (hc hcpu')
        rw [hsplit, hnil, List.append_nil]
        exact hm
    rcases lthreadResume_after hx with ⟨hcpu', hp'⟩ | ⟨hcpu', hp'⟩
    · refine Or.inl ⟨rest', hp'.trans hp, hpass (fun hc => ?_) fun l hl => ?_⟩
      · rw [hcpu'] at hc
        cases hc
      · rw [hcpu'] at hl
        exact Option.some_inj.mp hl
    · have hp' : x'.phase = if last' = some m then .defer else .ready last' := hp'.trans (congrArg _ hp)
      by_cases hl : last' = some m
      · -- the last one of the queue has been dropped
        rw [if_pos hl] at hp'
        obtain rfl : rest' = [] := rest_nil (hsplit ▸ h.nodup) hm (hsplit ▸ h.last.symm.trans hl)
        exact Or.inr ⟨hp', h.nodup, (hsplit.trans (List.append_nil _)).symm, [], (List.append_nil _).trans hready.symm⟩
      · rw [if_neg hl] at hp'
        refine Or.inl ⟨rest', hp', hpass (fun _ => hl) fun l hl' => ?_⟩
        rw [hcpu'] at hl'
        cases hl'
  | again hp0 =>
    rcases hp0 with hp0 | hp0
    all_goals
      rw [hp] at hp0
      cases hp0
  | start hp0 | expire hp0 | expired hp0 | deferPop hp0 | deferPopped hp0 | poll hp0 | trigger hp0
  | read hp0 | write hp0 | done hp0 =>
    rw [hp] at hp0
    cases hp0

end Passing

theorem Passing.begins {last : Option LtId} (hn : x'.sched.ready.Nodup) (hcpu' : x'.cpu = .loop)
    (hlast : last = x'.sched.ready.getLast?) :
    Passing x' { start := x'.sched.ready } last x'.sched.ready := by
  refine ⟨rfl, (List.append_nil _).symm, hlast, hn, fun l hl => ?_, fun _ hnil => ⟨hnil, rfl⟩⟩
  rw [hcpu'] at hl
  cases hl

theorem Passed.grows {p : ReadyPass} (h : Passed x p) (hi : x.Inv k) (h' : x'.Inv k) (hp : x.phase.isReady = false)
    (hx : x.step a = .ok x') : Passed x' p := by
  refine ⟨h.nodup, h.resumed, h.appended.trans ?_⟩
  by_cases hloop : a = .sched ∧ x.cpu = .loop
  · obtain ⟨rfl, hcpu⟩ := hloop
    replace hx := step_loop hcpu hx
    rcases lthreadRun_grows h' hx with hg | ⟨last, m, rest, hp0, -⟩
    · exact hg.ready
    · rw [hp0] at hp
      cases hp
  · rw [not_and_or] at hloop
    exact hi.step_ready hx hloop

theorem PassOk.step {p : ReadyPass} (h : PassOk x p) (hi : x.Inv k) (hok : stepOk k x a) (hx : x.step a = .ok x') :
    PassOk x' (noteReady x a x' p) := by
  have h' : x'.Inv k := hi.step hok hx
  by_cases hp : x.phase.isReady = true
  · -- the step belongs to a pass
    rcases h with ⟨last, rest, hph, hpass⟩ | ⟨hnot, -⟩
    · cases hon : x.cpu.on with
      | some l =>
        rcases hpass.running hi hph hon hx with ⟨hph', hpass'⟩ | ⟨hph', hpass'⟩
        · exact Or.inl ⟨last, rest, hph', hpass'⟩
        · exact Or.inr ⟨by rw [hph']; rfl, hpass'⟩
      | none =>
        have hcpu : x.cpu = .loop := Cpu.on_eq_none hon
        by_cases ha : a = .sched
        · subst ha
          replace hx := step_loop hcpu hx
          rcases hpass.of_lthreadRun h' hph hcpu hx with ⟨rest', hph', hpass'⟩ | ⟨hph', hpass'⟩
          · exact Or.inl ⟨last, rest', hph', hpass'⟩
          · exact Or.inr ⟨by rw [hph']; rfl, hpass'⟩
        · obtain ⟨hph', hpass'⟩ := hpass.waiting hph hcpu ha hx
          exact Or.inl ⟨last, rest, hph', hpass'⟩
    · rw [hp] at hnot
      cases hnot
  · have hp := Bool.eq_false_iff.mpr hp
    cases hp' : x'.phase.isReady with
    | true =>
      -- a pass begins
      obtain ⟨last, hph'⟩ := Phase.ready_of_isReady hp'
      obtain ⟨hcpu', hlast⟩ : x'.cpu = .loop ∧ last = x'.sched.ready.getLast? := by
        have hne : x'.phase ≠ x.phase := fun h0 => by rw [← h0, hp'] at hp; cases hp
        obtain ⟨-, hcpu, ⟨-, rfl⟩ | ⟨t, -, -, rfl⟩⟩ := pass_begins hne (by rw [hph']; rfl) hx
        · cases hph'
        · exact ⟨hcpu, (Phase.ready.inj hph').symm⟩
      have hnote : noteReady x a x' p = { start := x'.sched.ready } := by
        unfold noteReady
        rw [if_neg (by simp [hp]), if_pos hp']
      rw [hnote]
      exact Or.inl ⟨last, _, hph', Passing.begins (step_ok.mp hx).2 hcpu' hlast⟩
    | false =>
      have hnote : noteReady x a x' p = p := by
        unfold noteReady
        rw [if_neg (by simp [hp]), if_neg (by simp [hp'])]
      rw [hnote]
      rcases h with ⟨last, rest, hph, -⟩ | ⟨-, hpassed⟩
      · rw [hph] at hp
        cases hp
      · exact Or.inr ⟨hp', hpassed.grows hi h' hp hx⟩

theorem PassOk.reachable {p : World × ReadyPass} (h : readyMachine.Reachable sparesQueue p) : PassOk p.1 p.2 := by
  have hinv {q : World × ReadyPass} (hq : readyMachine.Reachable sparesQueue q) : q.1.Inv true :=
    Inv.reachable (Machine.Reachable.of_observe (hq.mono fun _ _ h0 => h0.1))
  refine Machine.Reachable.invariant_of (P := fun q => PassOk q.1 q.2) (fun q hq => ?_)
    (fun q a q' hr hq hok hs => ?_) h
  · obtain ⟨⟨birth, capacity, n, h0⟩, h1⟩ := hq
    rw [h1, h0]
    exact Or.inr ⟨rfl, List.nodup_nil, rfl, List.nil_prefix⟩
  · obtain ⟨hs, h1⟩ := hs
    rw [h1]
    exact hq.step (hinv hr) hok.1 hs

/-- Who is on the ready queue is suspended or cancelled, and so `_lthread_resume` goes well unless
it reads a freed lthread. -/
theorem Inv.resume_next (hi : x.Inv k) (hmem : m ∈ x.sched.ready) (hread : ¬ x.ReadsFreed m) {q : List LtId} :
    ∃ x', (x.onSched ({ · with ready := q })).lthreadResume m = .ok x' ∧ (x'.cpu = .run m ∨ x'.dropped m = true) := by
  unfold ReadsFreed at hread
  by_cases hc : x.sched.has m .cancelled = true
  · rw [if_pos hc, not_or] at hread
    obtain ⟨hf, hj⟩ := hread
    obtain ⟨x', hx', hd⟩ := dropCancelled_ok (x := x.onSched ({ · with ready := q })) (l := m)
      fun j hl => Bool.eq_false_iff.mpr fun h0 => hj ⟨j, hl, h0⟩
    exact ⟨x', ((if_neg hf).trans (if_pos hc)).trans hx', Or.inr hd⟩
  · rw [if_neg hc] at hread
    have hc := Bool.eq_false_iff.mpr hc
    have hrow := hi.row m
    rw [hc] at hrow
    have hcnt := hrow.of_ready (count_ne_zero hmem)
    have he : (x.sched.lt m).ctx ≠ .exited := by
      intro h0
      rw [h0] at hrow
      exact count_ne_zero hmem (congrArg Counts.ready hrow.of_exited)
    have hr : (x.sched.lt m).ctx ≠ .running := by
      intro h0
      rw [h0] at hrow
      exact count_ne_zero hmem (congrArg Counts.ready hrow.of_running.2)
    have hw : m ∉ x.sched.waiting := by
      intro h0
      rcases hcnt with ⟨-, hn⟩ | ⟨-, hn⟩
      · exact count_ne_zero h0 (congrArg Counts.waiting hn)
      · exact count_ne_zero h0 (congrArg Counts.waiting hn)
    have hf : (x.sched.lt m).freed = false := by
      refine Bool.eq_false_iff.mpr fun h0 => ?_
      rcases hi.seated.links.freed m h0 with h1 | h1
      · exact he h1
      · exact Bool.eq_false_iff.mp hc h1
    obtain ⟨x', hx', hrun⟩ := (lthreadResume_ok (x := x.onSched ({ · with ready := q })) hf hc hr he hw).resolve_right hread
    exact ⟨x', hx', Or.inl hrun⟩

/-- The next one of the queue is resumed, unless that reads a freed lthread or links one twice. -/
theorem Passing.next_iff {p : ReadyPass} {last : Option LtId} {rest : List LtId} (h : Passing x p last (m :: rest))
    (hi : x.Inv k) (hn : x.sched.ready.Nodup) (hp : x.phase = .ready last) (hcpu : x.cpu = .loop) :
    (∃ x', x.step .sched = .ok x' ∧ (x'.cpu = .run m ∨ x'.dropped m = true)) ↔
      ¬ x.ReadsFreed m ∧ ¬ x.WakesReady m := by
  have hready : x.sched.ready = m :: (rest ++ p.appended) := h.ready
  have hadvance : x.advance .sched = (x.onSched ({ · with ready := rest ++ p.appended })).lthreadResume m := by
    rw [advance_loop hcpu]
    unfold lthreadRun
    simp only [hp, hready]
  have hnodup {x' : World} (hx : x.advance .sched = .ok x') : x'.sched.ready.Nodup ↔ ¬ x.WakesReady m := by
    rw [hadvance] at hx
    have hn' := (List.nodup_cons.mp (hready ▸ hn)).2
    rw [lthreadResume_ready hx]
    unfold WakesReady
    rw [hready]
    change (rest ++ p.appended ++ if x.sched.has m .cancelled = true then (x.sched.lt m).ltJoin.toList else []).Nodup ↔
      ¬ (x.sched.has m .cancelled = true ∧ ∃ j ∈ rest ++ p.appended, (x.sched.lt m).ltJoin = some j)
    by_cases hc : x.sched.has m .cancelled = true
    · cases hj : (x.sched.lt m).ltJoin with
      | none => simpa [hc] using hn'
      | some j =>
        rw [if_pos hc, Option.toList_some, ← List.concat_eq_append, List.nodup_concat]
        simp [hc, hn']
    · simpa [hc] using hn'
  constructor
  · rintro ⟨x', hx, -⟩
    obtain ⟨hx, hn'⟩ := step_ok.mp hx
    refine ⟨?_, (hnodup hx).mp hn'⟩
    rw [hadvance] at hx
    have hread := lthreadResume_reads hx
    exact hread
  · rintro ⟨hread, hwake⟩
    obtain ⟨x', hx, hend⟩ : ∃ x', x.advance .sched = .ok x' ∧ (x'.cpu = .run m ∨ x'.dropped m = true) := by
      rw [hadvance]
      exact hi.resume_next (by rw [hready]; exact List.mem_cons_self) hread
    exact ⟨x', step_ok.mpr ⟨hx, (hnodup hx).mpr hwake⟩, hend⟩

theorem exists_pass {υ : Type} (labels : List Label) (see : World × ReadyPass → υ) {t : υ}
    (h : (Machine.replay (fun p a => (Machine.attempt step (fun x a => stepOk true x a ∧ a.cancels = none) p.1 a).map
      fun x' => (x', noteReady p.1 a x' p.2)) labels (start 0 (fun _ => 0) IO_WORKERS, {})).map see = some t) :
    ∃ p, readyMachine.Reachable sparesQueue p ∧ see p = t := by
  obtain ⟨p, hp, hsee⟩ := exists_noted (fun x a => stepOk true x a ∧ a.cancels = none) labels {} noteReady see h
  refine ⟨p, hp.mono fun q a h0 => ⟨h0.1, fun _ l hl => ?_⟩, hsee⟩
  rw [h0.2] at hl
  cases hl

end World
end Lthr

import Lthread.Proofs.Interest
import Lthread.Proofs.Passes

/-! `_lthread_resume_expired`. The loop takes the minimum of a tree that the lthreads it
resumes change. Whoever goes to sleep in the pass does so for a deadline after the clock
reading that the pass began with. -/

namespace Lthr

/-- The last pass over the sleeping tree: the clock reading it began with, the tree and its
deadlines at that time, the lthreads that were resumed, in order, and those that left the
tree by what these did. -/
structure ExpiryPass where
  clock : ℕ := 0
  start : List LtId := []
  deadline : LtId → ℕ := fun _ => 0
  resumed : List LtId := []
  woken : List LtId := []

def Phase.expiry : Phase → Option ℕ
  | .expired t => some t
  | _ => none

theorem Phase.expiry_eq_some {p : Phase} {t : ℕ} (h : p.expiry = some t) : p = .expired t := by
  cases p with
  | expired u => rw [Option.some_inj.mp h]
  | _ => cases h

theorem lthreadDiffUsecs_eq {t1 t2 : ℕ} (h : t1 ≤ t2) (hlt : t2 < t1 + u64) : lthreadDiffUsecs t1 t2 = t2 - t1 := by
  unfold lthreadDiffUsecs
  unfold u64 at *
  omega

namespace Sched

/-- A round of the insertion loop for each sleeper with a deadline from `usecs` on finds a
deadline that nobody has. -/
theorem sleepSlot_fresh {used : List ℕ} {n usecs : ℕ} (h : usecs + n < u64)
    (hn : (used.filter (usecs ≤ ·)).length ≤ n) :
    usecs ≤ sleepSlot used n usecs ∧ sleepSlot used n usecs ∉ used := by
  induction n generalizing usecs with
  | zero =>
    refine ⟨le_rfl, fun hu => ?_⟩
    have hnil := List.eq_nil_of_length_eq_zero (Nat.le_zero.mp hn)
    have hmem : usecs ∈ used.filter (usecs ≤ ·) := List.mem_filter.mpr ⟨hu, by simp⟩
    rw [hnil] at hmem
    cases hmem
  | succ n ih =>
    unfold sleepSlot
    split_ifs with hu
    · have hmod : (usecs + 1) % u64 = usecs + 1 := Nat.mod_eq_of_lt (by omega)
      rw [hmod]
      have hlt : (used.filter (usecs + 1 ≤ ·)).length < (used.filter (usecs ≤ ·)).length := by
        have hsplit : used.filter (usecs + 1 ≤ ·) = (used.filter (usecs ≤ ·)).filter (usecs + 1 ≤ ·) := by
          rw [List.filter_filter]
          refine List.filter_congr fun u _ => ?_
          rw [← Bool.decide_and, decide_eq_decide]
          omega
        rw [hsplit, List.length_filter_lt_length_iff_exists]
        exact ⟨usecs, List.mem_filter.mpr ⟨hu, by simp⟩, by simp⟩
      have hrest : usecs + 1 ≤ sleepSlot used n (usecs + 1) ∧ sleepSlot used n (usecs + 1) ∉ used :=
        ih (by omega) (by omega)
      exact ⟨by omega, hrest.2⟩
    · exact ⟨le_rfl, hu⟩

theorem sleepMin_le {s : Sched} {l m : LtId} (hm : s.sleepMin = some m) (hl : l ∈ s.sleeping) :
    (s.lt m).sleepUsecs ≤ (s.lt l).sleepUsecs :=
  List.le_of_mem_argmin (f := fun l => (s.lt l).sleepUsecs) hl hm

end Sched

namespace World

open Sched Seat

variable {k : Bool} {x x' : World} {l m : LtId} {a : Label}

/-! Deadlines -/

/-- The clock does not go back, and the deadline of a call that sleeps does not overflow. -/
def timely (x : World) : Label → Prop
  | .clock usecs => x.sched.usecNow ≤ usecs ∧ usecs < x.sched.birth + u64
  | .call op => op.msecs ≠ 0 →
      x.sched.usecNow - x.sched.birth + op.msecs * 1000 + x.sched.sleeping.length < u64
  | _ => True

instance (x : World) (a : Label) : Decidable (x.timely a) :=
  match a with
  | .clock _ => inferInstanceAs (Decidable (_ ∧ _))
  | .call _ => inferInstanceAs (Decidable (_ → _))
  | .main | .run | .sched | .poll _ | .io _ _ | .compute _ _ => .isTrue trivial

structure Timed (x : World) : Prop where
  birth : x.sched.birth ≤ x.sched.usecNow
  range : x.sched.usecNow < x.sched.birth + u64
  distinct : ∀ l ∈ x.sched.sleeping, ∀ m ∈ x.sched.sleeping,
    (x.sched.lt l).sleepUsecs = (x.sched.lt m).sleepUsecs → l = m

theorem Timed.deadline {n : ℕ} (h : x.Timed) (hn : n ≠ 0)
    (ht : x.sched.usecNow - x.sched.birth + n * 1000 + x.sched.sleeping.length < u64) :
    x.sched.usecNow - x.sched.birth + n * 1000 ≤ x.sched.sleepDeadline n ∧
      ∀ m ∈ x.sched.sleeping, (x.sched.lt m).sleepUsecs ≠ x.sched.sleepDeadline n := by
  unfold sleepDeadline
  rw [if_neg hn, lthreadDiffUsecs_eq h.birth h.range, Nat.mod_eq_of_lt (a := n * 1000) (by omega),
    Nat.mod_eq_of_lt (by omega)]
  have hlen : ((x.sched.sleeping.map fun m => (x.sched.lt m).sleepUsecs).filter
      (x.sched.usecNow - x.sched.birth + n * 1000 ≤ ·)).length ≤ x.sched.sleeping.length := by
    refine (List.length_filter_le _ _).trans ?_
    rw [List.length_map]
  obtain ⟨hle, hfresh⟩ := sleepSlot_fresh ht hlen
  refine ⟨hle, fun m hm heq => hfresh ?_⟩
  exact List.mem_map.mpr ⟨m, hm, heq⟩

theorem Timed.of_grows {s : Sched} (h : x.Timed) (hs : s.sleeping = x.sched.sleeping ∧ s.lt = x.sched.lt ∧
    s.birth = x.sched.birth ∧ s.usecNow = x.sched.usecNow) (hg : s.Grows x'.sched) : x'.Timed := by
  obtain ⟨h1, h2, h3, h4⟩ := hs
  refine ⟨?_, ?_, fun l hl m hm heq => ?_⟩
  · rw [hg.birth, hg.usecNow, h3, h4]
    exact h.birth
  · rw [hg.birth, hg.usecNow, h3, h4]
    exact h.range
  · obtain ⟨hl', hdl⟩ := hg.sleeping l hl
    obtain ⟨hm', hdm⟩ := hg.sleeping m hm
    rw [hdl, hdm, h2] at heq
    rw [h1] at hl' hm'
    exact h.distinct l hl' m hm' heq

theorem Timed.step (h : x.Timed) (hi : x.Inv k) (h' : x'.Inv k) (hok : x.timely a) (hx : x.step a = .ok x') :
    x'.Timed := by
  by_cases hloop : a = .sched ∧ x.cpu = .loop
  · obtain ⟨rfl, hcpu⟩ := hloop
    replace hx := step_loop hcpu hx
    rcases lthreadRun_grows h' hx with hg | ⟨last, m, rest, -, -, -, hg⟩
    · exact h.of_grows ⟨rfl, rfl, rfl, rfl⟩ hg
    · exact h.of_grows (s := { x.sched with ready := rest }) ⟨rfl, rfl, rfl, rfl⟩ hg
  · rw [not_and_or] at hloop
    rcases hi.step_grows hx hloop with ⟨u, rfl, rfl⟩ | hg | ⟨l, op, rfl, hcpu, hop, he⟩
    · exact ⟨h.birth.trans hok.1, hok.2, h.distinct⟩
    · exact h.of_grows ⟨rfl, rfl, rfl, rfl⟩ hg
    · obtain ⟨-, hfresh⟩ := h.deadline hop (hok hop)
      have hl := hi.not_asleep hcpu
      refine ⟨?_, ?_, ?_⟩
      · rw [he.birth, he.usecNow]
        exact h.birth
      · rw [he.birth, he.usecNow]
        exact h.range
      · -- the new sleeper has a deadline of its own
        have hother (m : LtId) (hm : m ∈ x.sched.sleeping) :
            (x'.sched.lt m).sleepUsecs = (x.sched.lt m).sleepUsecs :=
          he.others m fun h0 => hl (h0 ▸ hm)
        intro i hi0 j hj0 heq
        rw [he.sleeping] at hi0 hj0
        rcases List.mem_cons.mp hi0 with rfl | hi1 <;> rcases List.mem_cons.mp hj0 with rfl | hj1
        · rfl
        · rw [he.deadline, hother j hj1] at heq
          exact absurd heq.symm (hfresh j hj1)
        · rw [he.deadline, hother i hi1] at heq
          exact absurd heq (hfresh i hi1)
        · rw [hother i hi1, hother j hj1] at heq
          exact h.distinct i hi1 j hj1 heq

/-! One pass -/

def noteExpiry (x : World) (a : Label) (x' : World) (p : ExpiryPass) : ExpiryPass :=
  match x.phase.expiry, x'.phase.expiry with
  | some _, _ =>
    match x.cpu, a, x'.cpu with
    | .loop, .sched, .run l => { p with resumed := p.resumed ++ [l] }
    | .loop, _, _ => p
    | _, _, _ =>
      { p with woken := p.woken ++ x.sched.sleeping.filter fun l => l ∉ x'.sched.sleeping ∧ l ∉ p.resumed }
  | none, some t => { clock := t, start := x'.sched.sleeping, deadline := fun l => (x'.sched.lt l).sleepUsecs }
  | none, none => p

/-- The runs of the program with their expiry passes. -/
def expiryMachine : Machine (World × ExpiryPass) Label := worldMachine.observe {} noteExpiry

/-- A pass under way. The sleepers are those it began with, as they were, and lthreads that
have been resumed in it and sleep on. -/
structure Expiring (x : World) (p : ExpiryPass) (t : ℕ) : Prop where
  clock : p.clock = t
  sleepers : ∀ l ∈ x.sched.sleeping,
    l ∈ p.start ∧ l ∉ p.resumed ∧ l ∉ p.woken ∧ (x.sched.lt l).sleepUsecs = p.deadline l ∨
      l ∈ p.resumed ∧ t < (x.sched.lt l).sleepUsecs
  start : ∀ l ∈ p.start, l ∈ p.resumed ∨ l ∈ p.woken ∨ l ∈ x.sched.sleeping
  ahead : ∀ l ∈ p.resumed, ∀ m ∈ x.sched.sleeping, m ∉ p.resumed → p.deadline l < p.deadline m
  running : ∀ l, x.cpu.on = some l → l ∈ p.resumed

/-- What holds of a pass, and of the last one between two. -/
structure Expiry (x : World) (p : ExpiryPass) : Prop where
  passed : p.clock ≤ x.sched.usecNow - x.sched.birth
  due : ∀ l ∈ p.resumed, l ∈ p.start ∧ p.deadline l ≤ p.clock ∧ l ∉ p.woken
  order : p.resumed.Pairwise (p.deadline · < p.deadline ·)
  pass : ∀ t, x.phase = .expired t → Expiring x p t
  rest : x.phase.expiry = none → ∀ l ∈ p.start, p.deadline l ≤ p.clock → l ∈ p.resumed ∨ l ∈ p.woken

theorem noteExpiry_resume {p : ExpiryPass} {t : ℕ} (hp : x.phase = .expired t) (hcpu : x.cpu = .loop)
    (hcpu' : x'.cpu = .run l) : noteExpiry x .sched x' p = { p with resumed := p.resumed ++ [l] } := by
  unfold noteExpiry
  rw [hp, hcpu, hcpu']
  rfl

theorem noteExpiry_running {p : ExpiryPass} {t : ℕ} (hp : x.phase = .expired t) (hcpu : x.cpu ≠ .loop) :
    noteExpiry x a x' p =
      { p with woken := p.woken ++ x.sched.sleeping.filter fun l => l ∉ x'.sched.sleeping ∧ l ∉ p.resumed } := by
  unfold noteExpiry
  cases hc : x.cpu with
  | loop => exact absurd hc hcpu
  | _ =>
    rw [hp]
    rfl

theorem noteExpiry_loop {p : ExpiryPass} {t : ℕ} (hp : x.phase = .expired t) (hcpu : x.cpu = .loop)
    (hcpu' : x'.cpu = .loop) : noteExpiry x a x' p = p := by
  unfold noteExpiry
  rw [hp, hcpu, hcpu']
  simp only [Phase.expiry]

/-- The scheduler keeps its time of birth, and only the clock moves the time. -/
theorem Inv.step_clock (hi : x.Inv k) (h' : x'.Inv k) (hx : x.step a = .ok x') :
    x'.sched.birth = x.sched.birth ∧ (x'.sched.usecNow = x.sched.usecNow ∨ a = .clock x'.sched.usecNow) := by
  by_cases hloop : a = .sched ∧ x.cpu = .loop
  · obtain ⟨rfl, hcpu⟩ := hloop
    replace hx := step_loop hcpu hx
    rcases lthreadRun_grows h' hx with hg | ⟨last, m, rest, -, -, -, hg⟩
    · exact ⟨hg.birth, Or.inl hg.usecNow⟩
    · exact ⟨hg.birth, Or.inl hg.usecNow⟩
  · rw [not_and_or] at hloop
    rcases hi.step_grows hx hloop with ⟨u, rfl, rfl⟩ | hg | ⟨l, op, rfl, -, -, he⟩
    · exact ⟨rfl, Or.inr rfl⟩
    · exact ⟨hg.birth, Or.inl hg.usecNow⟩
    · exact ⟨he.birth, Or.inl he.usecNow⟩

theorem timely_now (hi : x.Inv k) (h' : x'.Inv k) (hok : x.timely a) (hx : x.step a = .ok x') :
    x.sched.usecNow - x.sched.birth ≤ x'.sched.usecNow - x'.sched.birth := by
  obtain ⟨hb, hn | rfl⟩ := hi.step_clock h' hx
  · rw [hb, hn]
  · rw [hb]
    exact Nat.sub_le_sub_right hok.1 _

theorem Inv.expire_others (hi : x.Inv k) (hm : m ∈ x.sched.sleeping) (hx : x.resumeExpired m = .ok x')
    (hl : l ∈ x.sched.sleeping) (hne : l ≠ m) : l ∈ x'.sched.sleeping := by
  have hrun : x'.cpu = .run m := resumeExpired_run hi.seated hm hx
  obtain ⟨y, hy, hx⟩ := except_bind_ok hx
  obtain ⟨w, -, hacts⟩ := expired_acts hi.seated hm hy
  have hlz : l ∈ (y.onSched fun s => (s.lthreadDeschedSleep m).setBit m .expired).sched.sleeping := by
    rw [mem_sleeping, hacts.other hne]
    exact mem_sleeping.mp hl
  obtain ⟨-, ⟨-, hx⟩ | ⟨-, z, hz, rfl⟩⟩ := lthreadResume_cases hx
  · rw [(dropCancelled_rest hx).2.1] at hrun
    cases hrun
  · change l ∈ z.sched.sleeping
    rw [(afterYield_queues hz).2]
    unfold initNew
    split_ifs <;> exact hlz

theorem Armed.expire_ok (ha : x.Armed) (hi : x.Inv k) (hm : m ∈ x.sched.sleeping) :
    (∃ x', x.resumeExpired m = .ok x' ∧ x'.cpu = .run m) ∨ x.ReadsFreed m := by
  obtain ⟨y, hy⟩ := cancelEvent_returns_iff.mpr (ha.registered hi (Or.inr hm))
  obtain ⟨w, hw, hacts⟩ := expired_acts hi.seated hm hy
  have hleaves := Leaves.of_expired (hi.ok m) (count_ne_zero hm) hw
  have hself : (y.onSched fun s => (s.lthreadDeschedSleep m).setBit m .expired).sched.lt m = w.lt :=
    congrArg Seat.lt hacts.self
  have hfreed (i : LtId) : ((y.onSched fun s => (s.lthreadDeschedSleep m).setBit m .expired).sched.lt i).freed =
      (x.sched.lt i).freed := by
    by_cases hne : i = m
    · subst hne
      rw [hself]
      exact hw.freed
    · exact congrArg (fun v => v.lt.freed) (hacts.other hne)
  have hx (x' : World) (hx' : (y.onSched fun s => (s.lthreadDeschedSleep m).setBit m .expired).lthreadResume m = .ok x') :
      x.resumeExpired m = .ok x' := by
    unfold resumeExpired
    rw [hy]
    exact hx'
  have hc : x.sched.has m .cancelled = false := ((hi.row m).of_sleeping (count_ne_zero hm)).1
  have hf : (x.sched.lt m).freed = false := by
    refine Bool.eq_false_iff.mpr fun h0 => ?_
    rcases hi.seated.links.freed m h0 with h1 | h1
    · exact hleaves.suspended.2 (hw.ctx.trans h1)
    · exact Bool.eq_false_iff.mp hc h1
  have hresume := lthreadResume_ok (x := y.onSched fun s => (s.lthreadDeschedSleep m).setBit m .expired) (l := m)
    ((hfreed m).trans hf) (by rw [Sched.has, hself]; exact hleaves.cancelled) (by rw [hself]; exact hleaves.suspended.1)
    (by rw [hself]; exact hleaves.suspended.2) (by
      rw [mem_waiting, hacts.self, hw.cnt]
      exact fun h0 => h0 rfl)
  rcases hresume with ⟨x', hx', hrun⟩ | ⟨target, t, hctx, hft⟩
  · exact Or.inl ⟨x', hx x' hx', hrun⟩
  · refine Or.inr ?_
    unfold ReadsFreed
    rw [if_neg (by simp [hc])]
    refine ⟨target, t, ?_, (hfreed target).symm.trans hft⟩
    rw [hself] at hctx
    exact hw.ctx.symm.trans hctx

namespace Expiry

variable {p : ExpiryPass} {t : ℕ}

/-- Who sleeps after a step of an lthread that runs: who has slept before, and it, if that
is the step, for longer than the pass goes. -/
theorem sleepers (h : Expiry x p) (hi : x.Inv k) (ht : x.Timed) (hp : x.phase = .expired t) (hcpu : x.cpu ≠ .loop)
    (hok : x.timely a) (hx : x.step a = .ok x') (hm : m ∈ x'.sched.sleeping) :
    m ∈ x.sched.sleeping ∧ (x'.sched.lt m).sleepUsecs = (x.sched.lt m).sleepUsecs ∨
      m ∈ p.resumed ∧ t < (x'.sched.lt m).sleepUsecs := by
  rcases hi.step_grows hx (Or.inr hcpu) with ⟨u, rfl, rfl⟩ | hg | ⟨l, op, rfl, hl, hop, he⟩
  · exact Or.inl ⟨hm, rfl⟩
  · exact Or.inl (hg.sleeping m hm)
  · by_cases hml : m = l
    · subst hml
      refine Or.inr ⟨(h.pass t hp).running m (by rw [hl]; rfl), ?_⟩
      obtain ⟨hle, -⟩ := ht.deadline hop (hok hop)
      have hpassed := h.passed
      rw [(h.pass t hp).clock] at hpassed
      rw [he.deadline]
      omega
    · rw [he.sleeping] at hm
      exact Or.inl ⟨(List.mem_cons.mp hm).resolve_left hml, he.others m hml⟩

theorem running (h : Expiry x p) (hi : x.Inv k) (h' : x'.Inv k) (ht : x.Timed) (hp : x.phase = .expired t)
    (hon : x.cpu.on = some l) (hok : x.timely a) (hx : x.step a = .ok x') : Expiry x' (noteExpiry x a x' p) := by
  have hcpu : x.cpu ≠ .loop := by
    intro hc
    rw [hc] at hon
    cases hon
  have hE := h.pass t hp
  have hmem {m : LtId} := h.sleepers (m := m) hi ht hp hcpu hok hx
  have hph : x'.phase = .expired t ∧ ∀ i, x'.cpu.on = some i → i ∈ p.resumed := by
    rcases step_running (by simp [hp]) (by simp [hp]) hon hx with ⟨hon', hp'⟩ | ⟨hcpu', hp'⟩
    · refine ⟨hp'.trans hp, fun i hi => hE.running i ?_⟩
      rw [hon, ← hon']
      exact hi
    · refine ⟨hp'.trans (by rw [hp]; rfl), fun i hi => ?_⟩
      rw [hcpu'] at hi
      cases hi
  rw [noteExpiry_running hp hcpu]
  have hwoken {i : LtId} : i ∈ p.woken ++ x.sched.sleeping.filter (fun l => l ∉ x'.sched.sleeping ∧ l ∉ p.resumed) ↔
      i ∈ p.woken ∨ i ∈ x.sched.sleeping ∧ i ∉ x'.sched.sleeping ∧ i ∉ p.resumed := by
    rw [List.mem_append, List.mem_filter, decide_eq_true_iff]
  refine ⟨h.passed.trans (timely_now hi h' hok hx), fun i hi => ?_, h.order, fun t' ht' => ?_, fun hnone => ?_⟩
  · obtain ⟨h1, h2, h3⟩ := h.due i hi
    refine ⟨h1, h2, fun hw => ?_⟩
    rcases hwoken.mp hw with hw | ⟨-, -, hw⟩
    · exact h3 hw
    · exact hw hi
  · obtain rfl := Phase.expired.inj (ht'.symm.trans hph.1)
    refine ⟨hE.clock, fun i hi => ?_, fun i hi => ?_, fun i hi m hm hnot => ?_, hph.2⟩
    · rcases hmem hi with ⟨hi₀, hd⟩ | hr
      · rcases hE.sleepers i hi₀ with ⟨h1, h2, h3, h4⟩ | ⟨h1, h2⟩
        · refine Or.inl ⟨h1, h2, fun hw => ?_, hd.trans h4⟩
          rcases hwoken.mp hw with hw | ⟨-, hw, -⟩
          · exact h3 hw
          · exact hw hi
        · exact Or.inr ⟨h1, hd ▸ h2⟩
      · exact Or.inr hr
    · rcases hE.start i hi with h1 | h1 | h1
      · exact Or.inl h1
      · exact Or.inr (Or.inl (hwoken.mpr (Or.inl h1)))
      · by_cases hs : i ∈ x'.sched.sleeping
        · exact Or.inr (Or.inr hs)
        by_cases hr : i ∈ p.resumed
        · exact Or.inl hr
        · exact Or.inr (Or.inl (hwoken.mpr (Or.inr ⟨h1, hs, hr⟩)))
    · rcases hmem hm with ⟨hm₀, -⟩ | ⟨hr, -⟩
      · exact hE.ahead i hi m hm₀ hnot
      · exact absurd hr hnot
  · rw [hph.1] at hnone
    cases hnone

theorem waiting (h : Expiry x p) (hi : x.Inv k) (h' : x'.Inv k) (hp : x.phase = .expired t) (hcpu : x.cpu = .loop)
    (ha : a ≠ .sched) (hok : x.timely a) (hx : x.step a = .ok x') : Expiry x' (noteExpiry x a x' p) := by
  obtain ⟨hcpu', hp', -, hs, hd⟩ := loop_waits (by simp [hp]) (by simp [hp]) hcpu ha hx
  have hE := h.pass t hp
  rw [noteExpiry_loop hp hcpu hcpu']
  refine ⟨h.passed.trans (timely_now hi h' hok hx), h.due, h.order, fun t' ht' => ?_, fun hnone => ?_⟩
  · obtain rfl := Phase.expired.inj (ht'.symm.trans (hp'.trans hp))
    refine ⟨hE.clock, fun i hi => ?_, fun i hi => ?_, fun i hi m hm => ?_, fun i hi => ?_⟩
    · rw [hd]
      exact hE.sleepers i (hs ▸ hi)
    · rw [hs]
      exact hE.start i hi
    · exact hE.ahead i hi m (hs ▸ hm)
    · rw [hcpu'] at hi
      cases hi
  · rw [hp', hp] at hnone
    cases hnone

theorem expire (h : Expiry x p) (hi : x.Inv k) (h' : x'.Inv k) (ht : x.Timed)
    (hp : x.phase = .expired t) (hcpu : x.cpu = .loop) (hm : x.sched.sleepMin = some m)
    (hd : (x.sched.lt m).sleepUsecs ≤ t) (hx : x.resumeExpired m = .ok x') (hs : x.step .sched = .ok x') :
    Expiry x' (noteExpiry x .sched x' p) := by
  have hE := h.pass t hp
  have hmem : m ∈ x.sched.sleeping := List.argmin_mem hm
  have hrun : x'.cpu = .run m := resumeExpired_run hi.seated hmem hx
  have hp' : x'.phase = .expired t := by
    rcases (resumeExpired_rest hx).2 with h0 | ⟨⟨last, h0⟩, -⟩
    · exact h0.trans hp
    · rw [hp] at h0
      cases h0
  obtain ⟨h1, h2, h3, h4⟩ := (hE.sleepers m hmem).resolve_right fun h0 => absurd hd (not_le.mpr h0.2)
  have hsleep (i : LtId) (hi' : i ∈ x'.sched.sleeping) : i ≠ m ∧ i ∈ x.sched.sleeping ∧
      (x'.sched.lt i).sleepUsecs = (x.sched.lt i).sleepUsecs := by
    refine ⟨?_, ?_⟩
    · rintro rfl
      exact h'.not_asleep hrun hi'
    · replace hs := step_loop hcpu hs
      rcases lthreadRun_grows h' hs with hg | ⟨last, m, rest, hp0, -⟩
      · exact hg.sleeping i hi'
      · rw [hp] at hp0
        cases hp0
  rw [noteExpiry_resume hp hcpu hrun]
  refine ⟨h.passed.trans (timely_now hi h' (a := .sched) trivial hs), fun i hi => ?_, ?_, fun t' ht' => ?_, fun hnone => ?_⟩
  · rcases List.mem_append.mp hi with hi | hi
    · exact h.due i hi
    · obtain rfl := List.mem_singleton.mp hi
      refine ⟨h1, ?_, h3⟩
      rw [← h4, hE.clock]
      exact hd
  · rw [List.pairwise_append]
    refine ⟨h.order, List.pairwise_singleton _ _, fun i hi j hj => ?_⟩
    obtain rfl := List.mem_singleton.mp hj
    exact hE.ahead i hi j hmem h2
  · obtain rfl := Phase.expired.inj (ht'.symm.trans hp')
    refine ⟨hE.clock, fun i hi' => ?_, fun i hi' => ?_, fun i hi' j hj hnot => ?_, fun i hi' => ?_⟩
    · obtain ⟨hne, hold, hsame⟩ := hsleep i hi'
      rw [hsame]
      refine (hE.sleepers i hold).imp (fun h0 => ⟨h0.1, ?_, h0.2.2⟩) fun h0 => ⟨List.mem_append_left _ h0.1, h0.2⟩
      simpa [hne] using h0.2.1
    · rcases hE.start i hi' with h0 | h0 | h0
      · exact Or.inl (List.mem_append_left _ h0)
      · exact Or.inr (Or.inl h0)
      · by_cases hne : i = m
        · exact Or.inl (List.mem_append_right _ (List.mem_singleton.mpr hne))
        · exact Or.inr (Or.inr (hi.expire_others hmem hx h0 hne))
    · obtain ⟨hne, hold, -⟩ := hsleep j hj
      have hj' : j ∉ p.resumed := fun h0 => hnot (List.mem_append_left _ h0)
      rcases List.mem_append.mp hi' with hi' | hi'
      · exact hE.ahead i hi' j hold hj'
      · -- `m` is the first of the tree
        obtain rfl := List.mem_singleton.mp hi'
        obtain ⟨-, -, -, hdj⟩ := (hE.sleepers j hold).resolve_right fun h0 => hj' h0.1
        rw [← h4, ← hdj]
        refine lt_of_le_of_ne (sleepMin_le hm hold) fun heq => hne ?_
        exact (ht.distinct i hmem j hold heq).symm
    · rw [hrun] at hi'
      obtain rfl := Option.some_inj.mp hi'
      exact List.mem_append_right _ List.mem_cons_self
  · rw [hp'] at hnone
    cases hnone

theorem ends (h : Expiry x p) (hp : x.phase = .expired t) (hcpu : x.cpu = .loop)
    (hm : ∀ m, x.sched.sleepMin = some m → t < (x.sched.lt m).sleepUsecs) (last : Option LtId) :
    Expiry { x with phase := .ready last } (noteExpiry x .sched { x with phase := .ready last } p) := by
  have hE := h.pass t hp
  have hcpu' : ({ x with phase := .ready last } : World).cpu = .loop := hcpu
  rw [noteExpiry_loop hp hcpu hcpu']
  refine ⟨h.passed, h.due, h.order, nofun, fun _ i hi hd => ?_⟩
  rcases hE.start i hi with h0 | h0 | h0
  · exact Or.inl h0
  · exact Or.inr h0
  · rcases hE.sleepers i h0 with ⟨-, -, -, h4⟩ | ⟨h1, -⟩
    · cases hmin : x.sched.sleepMin with
      | none =>
        rw [sleepMin, List.argmin_eq_none] at hmin
        rw [hmin] at h0
        cases h0
      | some m =>
        have hle : (x.sched.lt m).sleepUsecs ≤ (x.sched.lt i).sleepUsecs := sleepMin_le hmin h0
        have hlt := hm m hmin
        rw [hE.clock, ← h4] at hd
        omega
    · exact Or.inl h1

theorem begins (ht : x.Timed) (hcpu : x.cpu = .loop) :
    Expiry { x with phase := .expired (lthreadDiffUsecs x.sched.birth x.sched.usecNow) }
      { clock := lthreadDiffUsecs x.sched.birth x.sched.usecNow, start := x.sched.sleeping,
        deadline := fun l => (x.sched.lt l).sleepUsecs } := by
  refine ⟨?_, nofun, List.Pairwise.nil, fun t' ht' => ?_, nofun⟩
  · change lthreadDiffUsecs x.sched.birth x.sched.usecNow ≤ _
    rw [lthreadDiffUsecs_eq ht.birth ht.range]
    exact le_rfl
  · refine ⟨Phase.expired.inj ht', fun i hi => Or.inl ⟨hi, nofun, nofun, rfl⟩, fun i hi => Or.inr (Or.inr hi), nofun,
      fun i hi => ?_⟩
    change x.cpu.on = some i at hi
    rw [hcpu] at hi
    cases hi

theorem step (h : Expiry x p) (hi : x.Inv k) (h' : x'.Inv k) (ht : x.Timed) (hok : x.timely a)
    (hx : x.step a = .ok x') : Expiry x' (noteExpiry x a x' p) := by
  cases hp : x.phase.expiry with
  | some t =>
    have hp := Phase.expiry_eq_some hp
    cases hon : x.cpu.on with
    | some l => exact h.running hi h' ht hp hon hok hx
    | none =>
      have hcpu : x.cpu = .loop := Cpu.on_eq_none hon
      by_cases hsched : a = .sched
      · subst hsched
        have hrun : x.lthreadRun = .ok x' := step_loop hcpu hx
        cases lthreadRun_round hrun with
        | expire hp0 hm hd hr =>
          obtain rfl := Phase.expired.inj (hp.symm.trans hp0)
          exact h.expire hi h' ht hp hcpu hm hd hr hx
        | expired hp0 hm =>
          obtain rfl := Phase.expired.inj (hp.symm.trans hp0)
          exact h.ends hp hcpu hm _
        | again hp0 =>
          rcases hp0 with hp0 | hp0
          all_goals
            rw [hp] at hp0
            cases hp0
        | start hp0 | pop hp0 | popped hp0 | deferPop hp0 | deferPopped hp0 | poll hp0 | trigger hp0
        | read hp0 | write hp0 | done hp0 =>
          rw [hp] at hp0
          cases hp0
      · exact h.waiting hi h' hp hcpu hsched hok hx
  | none =>
    cases hp' : x'.phase.expiry with
    | some t =>
      have hph' := Phase.expiry_eq_some hp'
      have hne : x'.phase ≠ x.phase := fun h0 => by rw [← h0, hp'] at hp; cases hp
      obtain ⟨-, hcpu, ⟨-, rfl⟩ | ⟨t, -, -, rfl⟩⟩ := pass_begins hne (by rw [hph']; rfl) hx
      · have hnote := begins ht hcpu
        unfold noteExpiry
        rw [hp]
        exact hnote
      · cases hph'
    | none =>
      have hnote : noteExpiry x a x' p = p := by
        unfold noteExpiry
        rw [hp, hp']
      rw [hnote]
      refine ⟨h.passed.trans (timely_now hi h' hok hx), h.due, h.order, fun t ht' => ?_, fun _ => h.rest hp⟩
      rw [ht'] at hp'
      cases hp'

end Expiry

/-- No two lthreads wait for one descriptor, the clock does not go back and no deadline
overflows. -/
def expiresAlone (x : World) (a : Label) : Prop := x.waitsAlone a ∧ x.timely a

instance (x : World) (a : Label) : Decidable (x.expiresAlone a) := inferInstanceAs (Decidable (_ ∧ _))

theorem Timed.reachable {ok : World → Label → Prop} (hok : ∀ x a, ok x a → stepOk k x a ∧ x.timely a)
    (h : worldMachine.Reachable ok x) : x.Timed := by
  refine Machine.Reachable.invariant_of (P := Timed) (fun y hy => ?_) (fun y a y' hy hP ha hs => ?_) h
  · obtain ⟨birth, capacity, n, rfl⟩ := hy
    refine ⟨le_rfl, ?_, nofun⟩
    change birth < birth + u64
    unfold u64
    omega
  · obtain ⟨hstep, htime⟩ := hok y a ha
    have hi : y.Inv k := Inv.reachable (hy.mono fun x a h0 => (hok x a h0).1)
    exact hP.step hi (hi.step hstep hs) htime hs

theorem Expiry.reachable {p : World × ExpiryPass} (h : expiryMachine.Reachable (fun q a => q.1.expiresAlone a) p) :
    Expiry p.1 p.2 := by
  refine Machine.Reachable.invariant_of (P := fun q => Expiry q.1 q.2) (fun q hq => ?_)
    (fun q a q' hr hq hok hs => ?_) h
  · obtain ⟨⟨birth, capacity, n, h0⟩, h1⟩ := hq
    rw [h1, h0]
    exact ⟨Nat.zero_le _, nofun, List.Pairwise.nil, nofun, fun _ => nofun⟩
  · have hr : worldMachine.Reachable expiresAlone q.1 := Machine.Reachable.of_observe hr
    have hi : q.1.Inv false := Inv.reachable (hr.mono fun x a h0 => waitsAlone_stepOk x a h0.1)
    obtain ⟨hs, h1⟩ := hs
    rw [h1]
    exact hq.step hi (hi.step (waitsAlone_stepOk q.1 a hok.1) hs)
      (Timed.reachable (k := false) (fun x a h0 => ⟨waitsAlone_stepOk x a h0.1, h0.2⟩) hr) hok.2 hs

/-- The expiry pass resumes sleepers of the tree it began with whose deadline is not after
its clock reading, each once, in the order of their deadlines, and none that left the tree
otherwise before. As long as one is left the loop comes to it, and then the pass is over and
has resumed all of them. -/
theorem expiry_pass {p : World × ExpiryPass} (h : expiryMachine.Reachable (fun q a => q.1.expiresAlone a) p) :
    p.2.resumed.Pairwise (p.2.deadline · < p.2.deadline ·) ∧
    (∀ l ∈ p.2.resumed, l ∈ p.2.start ∧ p.2.deadline l ≤ p.2.clock ∧ l ∉ p.2.woken) ∧
    p.2.clock ≤ p.1.sched.usecNow - p.1.sched.birth ∧
    (∀ t, p.1.phase = .expired t → p.1.cpu = .loop →
      (∃ x', p.1.step .sched = .ok x' ∧ (x'.phase = .ready x'.sched.ready.getLast? ∨
        ∃ l, x'.cpu = .run l ∧ l ∈ p.2.start ∧ l ∉ p.2.resumed)) ∨ ∃ l ∈ p.1.sched.sleeping, p.1.ReadsFreed l) ∧
    (p.1.phase.expiry = none → ∀ l ∈ p.2.start, p.2.deadline l ≤ p.2.clock → l ∉ p.2.woken → l ∈ p.2.resumed) := by
  have hr : worldMachine.Reachable expiresAlone p.1 := Machine.Reachable.of_observe h
  have hi : p.1.Inv false := Inv.reachable (hr.mono fun x a h0 => waitsAlone_stepOk x a h0.1)
  have hE := Expiry.reachable h
  refine ⟨hE.order, hE.due, hE.passed, fun t hp hcpu => ?_, fun hp l hl hd hw => ?_⟩
  · rw [hi.step_eq (a := .sched) trivial, advance_loop hcpu]
    unfold lthreadRun
    simp only [hp]
    cases hmin : p.1.sched.sleepMin with
    | none => exact Or.inl ⟨_, rfl, Or.inl rfl⟩
    | some m =>
      simp only
      split_ifs with hd
      · have hm : m ∈ p.1.sched.sleeping := List.argmin_mem hmin
        rcases (Armed.reachable (hr.mono fun _ _ h0 => h0.1)).expire_ok hi hm with ⟨x', hx', hrun⟩ | hfreed
        · obtain ⟨h1, h2, -⟩ := ((hE.pass t hp).sleepers m hm).resolve_right fun h0 => absurd hd (not_le.mpr h0.2)
          exact Or.inl ⟨x', hx', Or.inr ⟨m, hrun, h1, h2⟩⟩
        · exact Or.inr ⟨m, hm, hfreed⟩
      · exact Or.inl ⟨_, rfl, Or.inl rfl⟩
  · exact (hE.rest hp l hl hd).resolve_right hw

set_option maxRecDepth 20000 in
/-- Lthreads 0 and 1 wait to read from and to write to one descriptor, and both expire. With
the resume of lthread 0 the descriptor is gone from the epoll set, and the pass aborts at
lthread 1. -/
theorem expiry_pass_aborts : ∃ p, expiryMachine.Reachable (fun q a => q.1.undisturbed a ∧ q.1.timely a) p ∧
    p.1.cpu = .loop ∧ p.2.start = [1, 0] ∧ p.2.deadline 1 ≤ p.2.clock ∧ p.2.woken = [] ∧ p.2.resumed = [0] ∧
      p.1.step .sched = .error .pollerClear := by
  obtain ⟨p, hp, hsee⟩ := exists_noted (fun x a => x.undisturbed a ∧ x.timely a)
    [.main, .main, .run, .sched, .sched, .sched, .call (.schedEvent 5 .read 20), .sched, .sched,
      .call (.schedEvent 5 .write 30), .sched, .sched, .sched, .clock 1000000, .poll [], .sched, .sched, .sched,
      .call .finish, .sched]
    {} noteExpiry
    (fun p => (decide (p.1.cpu = .loop ∧ p.2.start = [1, 0] ∧ p.2.deadline 1 ≤ p.2.clock ∧ p.2.woken = [] ∧
      p.2.resumed = [0]), errorOf (p.1.step .sched))) (t := (true, some .pollerClear)) (by decide)
  obtain ⟨hdec, hstep⟩ := Prod.mk.inj hsee
  obtain ⟨h1, h2, h3, h4, h5⟩ := of_decide_eq_true hdec
  exact ⟨p, hp, h1, h2, h3, h4, h5, eq_error_of hstep⟩

set_option maxRecDepth 20000 in
/-- Lthreads 0 and 1 sleep and lthread 2 waits on a condition variable; all are due.
Lthread 1, the first, sleeps on, and lthread 0 signals lthread 2. -/
theorem expiry_pass_signals : ∃ p, expiryMachine.Reachable (fun q a => q.1.expiresAlone a) p ∧
    p.1.phase.expiry = none ∧ p.2.start = [2, 1, 0] ∧ p.2.clock = 1000000 ∧ p.2.woken = [2] ∧ p.2.resumed = [1, 0] ∧
      p.2.deadline 1 < p.2.deadline 0 ∧ p.2.deadline 0 ≤ p.2.clock := by
  obtain ⟨p, hp, hsee⟩ := exists_noted (fun x a => x.expiresAlone a)
    [.main, .main, .main, .run, .sched, .sched, .sched, .call (.sleep 20), .sched, .sched, .call (.sleep 10), .sched,
      .sched, .call (.condWait 0 30), .sched, .sched, .sched, .clock 1000000, .poll [], .sched, .sched,
      .sched, .call (.sleep 5), .sched, .sched, .call (.condSignal 0), .call .finish, .sched, .sched]
    {} noteExpiry
    (fun p => decide (p.1.phase.expiry = none ∧ p.2.start = [2, 1, 0] ∧ p.2.clock = 1000000 ∧ p.2.woken = [2] ∧
      p.2.resumed = [1, 0])) (t := true) (by decide)
  obtain ⟨h1, h2, h3, h4, h5⟩ := of_decide_eq_true hsee
  obtain ⟨horder, hdue, -⟩ := expiry_pass hp
  rw [h5] at horder hdue
  refine ⟨p, hp, h1, h2, h3, h4, h5, ?_, (hdue 0 (by simp)).2.1⟩
  exact (List.pairwise_cons.mp horder).1 0 List.mem_cons_self

end World
end Lthr

import Mathlib.Tactic

/-! Labelled transition systems. A run is a chain of labelled steps; `ok s a`
restricts which labels may be taken in which state, so that one development
serves both "every run" (`ok` is always true) and "every run whose steps meet
a condition". A program's own step is a computation that may fail, and first stands how a
sequence of two such computations is taken apart. -/

namespace Lthr

section Fallible

variable {ε α β : Type} {a : Except ε α} {f : α → Except ε β}

@[simp] theorem except_ok_bind (v : α) (f : α → Except ε β) : ((Except.ok v : Except ε α) >>= f) = f v := rfl

theorem except_bind_ok {b : β} (h : a >>= f = .ok b) : ∃ v, a = .ok v ∧ f v = .ok b := by
  cases a with
  | error e => cases h
  | ok v => exact ⟨v, rfl, h⟩

theorem except_bind_error {e : ε} (h : (a >>= f) = .error e) : a = .error e ∨ ∃ v, a = .ok v ∧ f v = .error e := by
  cases a with
  | error e' =>
    refine Or.inl ?_
    rw [← Except.error.inj h]
  | ok v => exact Or.inr ⟨v, rfl, h⟩

theorem except_toOption_some {v : α} (h : a.toOption = some v) : a = .ok v := by
  cases a with
  | error e => cases h
  | ok w => rw [Option.some_inj.mp h]

def errorOf : Except ε α → Option ε
  | .error e => some e
  | .ok _ => none

theorem eq_error_of {e : ε} (h : errorOf a = some e) : a = .error e := by
  cases a with
  | error e' => rw [Option.some_inj.mp h]
  | ok v => cases h

end Fallible

structure Machine (σ α : Type) where
  init : σ → Prop
  step : σ → α → σ → Prop

namespace Machine

variable {σ α : Type} (M : Machine σ α) (ok : σ → α → Prop)

/-- `s'` is reached from `s` by steps that all meet `ok`. -/
inductive Steps : σ → σ → Prop
  | refl (s : σ) : Steps s s
  | snoc {s s' s'' : σ} {a : α} : Steps s s' → ok s' a → M.step s' a s'' → Steps s s''

def Reachable (s : σ) : Prop := ∃ s0, M.init s0 ∧ M.Steps ok s0 s

variable {M ok}

theorem Steps.trans {a b c : σ} (h1 : M.Steps ok a b) (h2 : M.Steps ok b c) : M.Steps ok a c := by
  induction h2 with
  | refl => exact h1
  | snoc _ hok hs ih => exact Steps.snoc ih hok hs

theorem Steps.single {s s' : σ} {a : α} (hok : ok s a) (h : M.step s a s') : M.Steps ok s s' :=
  Steps.snoc (Steps.refl s) hok h

theorem Steps.preserves {P : σ → Prop}
    (hstep : ∀ s a s', P s → ok s a → M.step s a s' → P s') {s s' : σ}
    (h : M.Steps ok s s') (hs : P s) : P s' := by
  induction h with
  | refl => exact hs
  | snoc _ hok hst ih => exact hstep _ _ _ ih hok hst

theorem Reachable.start {s : σ} (h : M.init s) : M.Reachable ok s := ⟨s, h, Steps.refl s⟩

theorem Reachable.next {s s' : σ} {a : α} (h : M.Reachable ok s) (hok : ok s a)
    (hs : M.step s a s') : M.Reachable ok s' := by
  obtain ⟨s0, h0, hr⟩ := h
  exact ⟨s0, h0, Steps.snoc hr hok hs⟩

theorem Reachable.steps {s s' : σ} (h : M.Reachable ok s) (hs : M.Steps ok s s') :
    M.Reachable ok s' := by
  obtain ⟨s0, h0, hr⟩ := h
  exact ⟨s0, h0, hr.trans hs⟩

theorem Reachable.invariant {P : σ → Prop} (hinit : ∀ s, M.init s → P s)
    (hstep : ∀ s a s', P s → ok s a → M.step s a s' → P s') {s : σ}
    (h : M.Reachable ok s) : P s := by
  obtain ⟨s0, h0, hr⟩ := h
  exact hr.preserves hstep (hinit s0 h0)

theorem Steps.mono {ok' : σ → α → Prop} (hsub : ∀ s a, ok s a → ok' s a) {s s' : σ}
    (h : M.Steps ok s s') : M.Steps ok' s s' := by
  induction h with
  | refl => exact Steps.refl _
  | snoc _ hok hs ih => exact Steps.snoc ih (hsub _ _ hok) hs

theorem Reachable.mono {ok' : σ → α → Prop} (hsub : ∀ s a, ok s a → ok' s a) {s : σ}
    (h : M.Reachable ok s) : M.Reachable ok' s := by
  obtain ⟨s0, h0, hr⟩ := h
  exact ⟨s0, h0, hr.mono hsub⟩

/-- A machine that can do more reaches as much. -/
theorem Reachable.of_step {N : Machine σ α} (hinit : ∀ s, M.init s → N.init s)
    (hstep : ∀ s a s', M.step s a s' → N.step s a s') {s : σ} (h : M.Reachable ok s) : N.Reachable ok s := by
  refine Reachable.invariant (P := N.Reachable ok) (fun s hs => Reachable.start (hinit s hs)) ?_ h
  exact fun s a s' hs hok hst => hs.next hok (hstep s a s' hst)

/-- What holds of every reachable state may be used to prove that a step preserves
an invariant. -/
theorem Reachable.invariant_of {P : σ → Prop} (hinit : ∀ s, M.init s → P s)
    (hstep : ∀ s a s', M.Reachable ok s → P s → ok s a → M.step s a s' → P s') {s : σ}
    (h : M.Reachable ok s) : P s := by
  obtain ⟨s0, h0, hr⟩ := h
  have hboth : M.Reachable ok s ∧ P s := by
    refine hr.preserves (P := fun s => M.Reachable ok s ∧ P s) (fun s a s' hs hok hst => ?_)
      ⟨Reachable.start h0, hinit s0 h0⟩
    exact ⟨hs.1.next hok hst, hstep s a s' hs.1 hs.2 hok hst⟩
  exact hboth.2

/-- The simulation rule: if each step is matched by steps of another machine that keep the
two states related, every reachable state is related to one that the other machine reaches. -/
theorem Reachable.simulated {τ β : Type} {N : Machine τ β} {ok' : τ → β → Prop} {R : σ → τ → Prop}
    (hinit : ∀ s, M.init s → ∃ t, N.init t ∧ R s t)
    (hstep : ∀ s a s' t, M.Reachable ok s → N.Reachable ok' t → R s t → ok s a → M.step s a s' →
      ∃ t', N.Steps ok' t t' ∧ R s' t') {s : σ} (h : M.Reachable ok s) :
    ∃ t, N.Reachable ok' t ∧ R s t := by
  refine Reachable.invariant_of (P := fun s => ∃ t, N.Reachable ok' t ∧ R s t) (fun s hs => ?_) ?_ h
  · obtain ⟨t, ht, hR⟩ := hinit s hs
    exact ⟨t, Reachable.start ht, hR⟩
  · rintro s a s' hs ⟨t, ht, hR⟩ hok hst
    obtain ⟨t', hsteps, hR'⟩ := hstep s a s' t hs ht hR hok hst
    exact ⟨t', ht.steps hsteps, hR'⟩

section Observe

/-- The machine with a record of its runs, which no step depends on. -/
def observe {τ : Type} (M : Machine σ α) (empty : τ) (note : σ → α → σ → τ → τ) : Machine (σ × τ) α where
  init p := M.init p.1 ∧ p.2 = empty
  step p a p' := M.step p.1 a p'.1 ∧ p'.2 = note p.1 a p'.1 p.2

variable {τ : Type} {empty : τ} {note : σ → α → σ → τ → τ}

theorem Reachable.of_observe {p : σ × τ}
    (h : (M.observe empty note).Reachable (fun q a => ok q.1 a) p) : M.Reachable ok p.1 := by
  refine Reachable.invariant (P := fun q => M.Reachable ok q.1) ?_ ?_ h
  · intro q hq
    exact Reachable.start hq.1
  · intro q a q' hq hok hs
    exact hq.next hok hs.1

theorem Reachable.observed (empty : τ) (note : σ → α → σ → τ → τ) {s : σ} (h : M.Reachable ok s) :
    ∃ t, (M.observe empty note).Reachable (fun q a => ok q.1 a) (s, t) := by
  refine Reachable.invariant (P := fun s => ∃ t, (M.observe empty note).Reachable (fun q a => ok q.1 a) (s, t))
    (fun s hs => ⟨empty, Reachable.start ⟨hs, rfl⟩⟩) ?_ h
  rintro s a s' ⟨t, ht⟩ hok hs
  exact ⟨note s a s' t, ht.next hok ⟨hs, rfl⟩⟩

end Observe

section Replay

/-- Takes the labels one after the other; `none` if one of them cannot be taken. -/
def replay (step : σ → α → Option σ) : List α → σ → Option σ
  | [], s => some s
  | a :: as, s => (step s a).bind (replay step as)

variable {step : σ → α → Option σ}

theorem Steps.of_replay (hstep : ∀ s a s', step s a = some s' → ok s a ∧ M.step s a s') :
    ∀ (as : List α) {s s' : σ}, replay step as s = some s' → M.Steps ok s s' := by
  intro as
  induction as with
  | nil =>
    intro s s' h
    obtain rfl := Option.some_inj.mp h
    exact Steps.refl s
  | cons a as ih =>
    intro s s' h
    obtain ⟨s1, h1, h2⟩ := Option.bind_eq_some_iff.mp h
    obtain ⟨hok, hs⟩ := hstep s a s1 h1
    exact (Steps.single hok hs).trans (ih h2)

/-- A run that can be replayed from an initial state leads to a reachable state. -/
theorem Reachable.of_replay (hstep : ∀ s a s', step s a = some s' → ok s a ∧ M.step s a s') {s : σ}
    (hinit : M.init s) (as : List α) (h : (replay step as s).isSome = true) :
    M.Reachable ok ((replay step as s).get h) :=
  ⟨s, hinit, Steps.of_replay hstep as (Option.some_get h).symm⟩

end Replay

section Attempt

variable {ε : Type} {next : σ → α → Except ε σ}

/-- A step of a machine given by a function, if it meets `ok`. -/
def attempt (next : σ → α → Except ε σ) (ok : σ → α → Prop) [∀ s a, Decidable (ok s a)] (s : σ) (a : α) : Option σ :=
  if ok s a then (next s a).toOption else none

variable [∀ s a, Decidable (ok s a)]

theorem attempt_some (hM : ∀ s a s', next s a = .ok s' → M.step s a s') {s s' : σ} {a : α}
    (h : attempt next ok s a = some s') : ok s a ∧ M.step s a s' := by
  unfold attempt at h
  split_ifs at h with hok
  exact ⟨hok, hM s a s' (except_toOption_some h)⟩

theorem exists_reachable {τ : Type} (hM : ∀ s a s', next s a = .ok s' → M.step s a s') {s : σ} (hinit : M.init s)
    (as : List α) (see : σ → τ) {t : τ} (h : (replay (attempt next ok) as s).map see = some t) :
    ∃ s', M.Reachable ok s' ∧ see s' = t := by
  obtain ⟨s', hs', ht⟩ := Option.map_eq_some_iff.mp h
  exact ⟨s', ⟨s, hinit, Steps.of_replay (fun _ _ _ => attempt_some hM) as hs'⟩, ht⟩

/-- The same with the record of the run. -/
theorem exists_observed {τ υ : Type} (hM : ∀ s a s', next s a = .ok s' → M.step s a s') {s : σ} (hinit : M.init s)
    (as : List α) (empty : τ) (note : σ → α → σ → τ → τ) (see : σ × τ → υ) {t : υ}
    (h : (replay (fun p a => (attempt next ok p.1 a).map fun s' => (s', note p.1 a s' p.2)) as
      (s, empty)).map see = some t) :
    ∃ p, (M.observe empty note).Reachable (fun q a => ok q.1 a) p ∧ see p = t := by
  obtain ⟨p, hp, ht⟩ := Option.map_eq_some_iff.mp h
  refine ⟨p, ⟨_, ⟨hinit, rfl⟩, Steps.of_replay (fun q a q' hq => ?_) as hp⟩, ht⟩
  obtain ⟨s', hs', rfl⟩ := Option.map_eq_some_iff.mp hq
  obtain ⟨hok, hs⟩ := attempt_some hM hs'
  exact ⟨hok, hs, rfl⟩

end Attempt

end Machine
end Lthr

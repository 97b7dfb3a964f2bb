import Mathlib.Tactic

/-! Operations that change one component of a family. `ActsAt σ σ' i F` says that
the family goes from `σ` to `σ'` by applying `F` to component `i` and keeping all
others, so an invariant of every component has to be checked at `i` only. -/

namespace Lthr

variable {ι α : Type} [DecidableEq ι]

def ActsAt (σ σ' : ι → α) (i : ι) (F : α → α) : Prop := σ' = Function.update σ i (F (σ i))

namespace ActsAt

variable {σ σ' σ'' : ι → α} {i j : ι} {F G : α → α}

theorem self (h : ActsAt σ σ' i F) : σ' i = F (σ i) := by
  rw [h, Function.update_self]

theorem other (h : ActsAt σ σ' i F) (hj : j ≠ i) : σ' j = σ j := by
  rw [h, Function.update_of_ne hj]

theorem of_apply (hi : σ' i = F (σ i)) (hne : ∀ j ≠ i, σ' j = σ j) : ActsAt σ σ' i F :=
  Function.eq_update_iff.mpr ⟨hi, hne⟩

theorem refl (σ : ι → α) (i : ι) : ActsAt σ σ i id := (Function.update_eq_self i σ).symm

theorem eq_of_fixed (h : ActsAt σ σ' i F) (hF : F (σ i) = σ i) : σ' = σ := by
  rw [h, hF, Function.update_eq_self]

theorem trans (h : ActsAt σ σ' i F) (h' : ActsAt σ' σ'' i G) : ActsAt σ σ'' i (G ∘ F) := by
  rw [ActsAt, h', h.self, h, Function.update_idem, Function.comp_apply]

theorem split (h : ActsAt σ σ' i (G ∘ F)) : ∃ τ, ActsAt σ τ i F ∧ ActsAt τ σ' i G := by
  refine ⟨Function.update σ i (F (σ i)), rfl, ?_⟩
  rw [ActsAt, Function.update_self, Function.update_idem]
  exact h

theorem congr (h : ActsAt σ σ' i F) (hF : F (σ i) = G (σ i)) : ActsAt σ σ' i G := by
  rw [ActsAt, ← hF]; exact h

theorem swap (hij : i ≠ j) (h : ActsAt σ σ' i F) (h' : ActsAt σ' σ'' j G) :
    ∃ τ, ActsAt σ τ j G ∧ ActsAt τ σ'' i F := by
  refine ⟨Function.update σ j (G (σ j)), rfl, ?_⟩
  rw [ActsAt, h', h.other hij.symm, h, Function.update_of_ne hij, Function.update_comm hij]

/-- What holds of every component holds of every component afterwards, if it
holds of the one that moved. -/
theorem all {P : ι → α → Prop} (h : ActsAt σ σ' i F) (hall : ∀ j ≠ i, P j (σ j))
    (hi : P i (F (σ i))) : ∀ j, P j (σ' j) := by
  intro j
  by_cases hj : j = i
  · subst hj; rw [h.self]; exact hi
  · rw [h.other hj]; exact hall j hj

/-- What the move does not change in its own component it changes in none. -/
theorem keeps {β : Type} (f : α → β) (h : ActsAt σ σ' i F) (hF : f (F (σ i)) = f (σ i)) (j : ι) :
    f (σ' j) = f (σ j) :=
  h.all (P := fun j v => f v = f (σ j)) (fun _ _ => rfl) hF j

end ActsAt

/-! Functions that count -/

def bump (f : ι → ℕ) (a : ι) : ι → ℕ := Function.update f a (f a + 1)

def lower (f : ι → ℕ) (a : ι) : ι → ℕ := Function.update f a (f a - 1)

@[simp] theorem bump_zero (a : ι) : bump (0 : ι → ℕ) a = Pi.single a 1 := by
  funext b
  simp [bump, Pi.single, Function.update_apply]

@[simp] theorem lower_single (a : ι) : lower (Pi.single a 1 : ι → ℕ) a = 0 := by
  funext b
  by_cases hb : b = a
  · subst hb; simp [lower]
  · simp [lower, hb]

theorem lower_of_zero {f : ι → ℕ} {a : ι} (h : f a = 0) : lower f a = f := by
  rw [lower, h, Nat.zero_sub, ← h, Function.update_eq_self]

/-- Counting a value in a family of lists, one of which gets it appended. -/
theorem count_update_append (q : ι → List α) [DecidableEq α] (a : ι) (x y : α) :
    (fun b => (Function.update q a (q a ++ [x]) b).count y) =
      if y = x then bump (fun b => (q b).count y) a else fun b => (q b).count y := by
  funext b
  by_cases hb : b = a
  · subst hb
    by_cases hy : y = x
    · subst hy; simp [bump]
    · simp [hy, Ne.symm hy]
  · by_cases hy : y = x <;> simp [bump, hb, hy]

theorem count_update_erase (q : ι → List α) [DecidableEq α] (a : ι) (x y : α) :
    (fun b => (Function.update q a ((q a).erase x) b).count y) =
      if y = x then lower (fun b => (q b).count y) a else fun b => (q b).count y := by
  funext b
  by_cases hb : b = a
  · subst hb
    by_cases hy : y = x
    · subst hy; simp [lower]
    · simp [hy, List.count_erase_of_ne hy]
  · by_cases hy : y = x <;> simp [lower, hb, hy]

end Lthr

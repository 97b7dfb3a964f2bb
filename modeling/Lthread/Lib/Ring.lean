import Mathlib.Tactic

/-! Rings of cells. A ring of `cap` cells is read from a cell on, wrapping behind the last
one; a queue in a circular buffer is what is read from its oldest cell. -/

namespace Lthr

variable {α : Type} {get get' : ℕ → α} {cap start n m : ℕ}

def ringView (get : ℕ → α) (cap start n : ℕ) : List α :=
  (List.range n).map fun i => get ((start + i) % cap)

@[simp] theorem length_ringView (get : ℕ → α) (cap start n : ℕ) : (ringView get cap start n).length = n := by
  simp [ringView]

@[simp] theorem ringView_zero (get : ℕ → α) (cap start : ℕ) : ringView get cap start 0 = [] := rfl

theorem ringView_succ (get : ℕ → α) (cap start n : ℕ) :
    ringView get cap start (n + 1) = ringView get cap start n ++ [get ((start + n) % cap)] := by
  simp [ringView, List.range_succ]

theorem ringView_mod (get : ℕ → α) (cap start n : ℕ) :
    ringView get cap (start % cap) n = ringView get cap start n := by
  simp [ringView, Nat.mod_add_mod]

theorem ringView_add (get : ℕ → α) (cap start m n : ℕ) :
    ringView get cap start (m + n) = ringView get cap start m ++ ringView get cap (start + m) n := by
  induction n with
  | zero => simp
  | succ n ih => rw [← Nat.add_assoc, ringView_succ, ringView_succ, ih, List.append_assoc, Nat.add_assoc start m n]

theorem ringView_cons (hstart : start < cap) (n : ℕ) :
    ringView get cap start (n + 1) = get start :: ringView get cap (start + 1) n := by
  rw [Nat.add_comm n 1, ringView_add, ringView_succ, ringView_zero, Nat.add_zero, Nat.mod_eq_of_lt hstart]
  rfl

theorem ringView_congr (h : ∀ i < n, get' ((start + i) % cap) = get ((start + i) % cap)) :
    ringView get' cap start n = ringView get cap start n :=
  List.map_congr_left fun i hi => h i (List.mem_range.mp hi)

/-- Two different distances below the capacity lead to two different cells. -/
theorem ring_slot_ne (start : ℕ) {i j : ℕ} (hij : i < j) (hj : j < cap) :
    (start + i) % cap ≠ (start + j) % cap := by
  intro he
  have hmod : i ≡ j [MOD cap] := Nat.ModEq.add_left_cancel' start he
  exact hij.ne (hmod.eq_of_lt_of_lt (hij.trans hj) hj)

/-- The cells behind `n` of them are other cells, as long as all of them fit. -/
theorem ringView_of_beyond (hfit : n + m ≤ cap)
    (h : ∀ c, (∀ j < m, c ≠ (start + n + j) % cap) → get' c = get c) :
    ringView get' cap start n = ringView get cap start n := by
  apply ringView_congr
  intro i hi
  apply h
  intro j hj
  rw [Nat.add_assoc]
  exact ring_slot_ne start (by omega) (by omega)

theorem ring_wrap {p : ℕ} (h : p < 2 * cap) : (if cap ≤ p then p - cap else p) = p % cap := by
  split_ifs with hp
  · rw [Nat.mod_eq_sub_mod hp, Nat.mod_eq_of_lt (by omega)]
  · rw [Nat.mod_eq_of_lt (by omega)]

end Lthr

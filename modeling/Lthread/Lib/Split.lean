import Mathlib.Tactic

/-! Lists cut at separators: the part before the first separator, and the parts behind it. -/

namespace Lthr

variable {α : Type} {p : α → Bool} {s r : List α} {c : α}

theorem mem_takeWhile (h : c ∈ s.takeWhile p) : p c = true := List.all_eq_true.mp List.all_takeWhile c h

theorem head_dropWhile (h : s.dropWhile p = c :: r) : p c = false := by
  have hnot := List.head?_dropWhile_not p s
  rwa [h] at hnot

theorem splitOnP_of_nil (h : s.dropWhile (!p ·) = []) : s.splitOnP p = [s] := by
  have hs : s.takeWhile (!p ·) = s := by
    have happend : s.takeWhile (!p ·) ++ s.dropWhile (!p ·) = s := List.takeWhile_append_dropWhile
    rwa [h, List.append_nil] at happend
  refine List.splitOnP_eq_singleton fun c hc => ?_
  rw [← hs] at hc
  simpa using mem_takeWhile hc

theorem splitOnP_of_cons (h : s.dropWhile (!p ·) = c :: r) : s.splitOnP p = s.takeWhile (!p ·) :: r.splitOnP p := by
  have happend : s.takeWhile (!p ·) ++ s.dropWhile (!p ·) = s := List.takeWhile_append_dropWhile
  rw [h] at happend
  have hc : p c = true := by simpa using head_dropWhile h
  nth_rewrite 1 [← happend]
  exact List.splitOnP_append_cons_of_forall_mem (fun a ha => by simpa using mem_takeWhile ha) c hc r

/-- Induction over the parts of a list: one without a separator, or one in front of a
separator with a list behind it. -/
theorem split_induction {motive : List α → Prop} (last : ∀ s, (∀ b ∈ s, p b = false) → motive s)
    (cut : ∀ s c r, (∀ b ∈ s, p b = false) → p c = true → motive r → motive (s ++ c :: r)) (s : List α) : motive s := by
  induction hn : s.length using Nat.strong_induction_on generalizing s with
  | _ n ih =>
    have happend : s.takeWhile (!p ·) ++ s.dropWhile (!p ·) = s := List.takeWhile_append_dropWhile
    have hpart : ∀ b ∈ s.takeWhile (!p ·), p b = false := fun b hb => by simpa using mem_takeWhile hb
    cases hd : s.dropWhile (!p ·) with
    | nil =>
      rw [hd, List.append_nil] at happend
      rw [happend] at hpart
      exact last s hpart
    | cons c r =>
      have hlen := congrArg List.length happend
      rw [hd, List.length_append, List.length_cons] at hlen
      rw [← happend, hd]
      exact cut _ c r hpart (by simpa using head_dropWhile hd) (ih r.length (by omega) r rfl)

end Lthr

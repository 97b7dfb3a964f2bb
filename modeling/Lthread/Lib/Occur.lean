import Mathlib.Tactic

/-! Occurrences of a word in a text: the first one, as `strstr` finds it, and all those that
a scan from the left meets when it leaves each of them behind whole. -/

namespace Lthr

variable {α : Type} [DecidableEq α] {word sub text : List α} {i k : ℕ}

/-- How far into the text the first occurrence begins. -/
def strstr (word : List α) : List α → Option ℕ
  | [] => if word = [] then some 0 else none
  | c :: text => if word <+: c :: text then some 0 else (strstr word text).map (· + 1)

/-- `sub` is put in the place of every occurrence that the scan meets; the first `skip`
symbols belong to an occurrence it has met before. -/
def replaceAll (word sub : List α) : ℕ → List α → List α
  | _, [] => []
  | skip + 1, _ :: text => replaceAll word sub skip text
  | 0, c :: text =>
    if word <+: c :: text then sub ++ replaceAll word sub (word.length - 1) text else c :: replaceAll word sub 0 text

/-- The number of occurrences that the scan meets. -/
def occurrences (word : List α) : ℕ → List α → ℕ
  | _, [] => 0
  | skip + 1, _ :: text => occurrences word skip text
  | 0, c :: text =>
    if word <+: c :: text then occurrences word (word.length - 1) text + 1 else occurrences word 0 text

theorem replaceAll_skip (word sub : List α) (k : ℕ) (text : List α) :
    replaceAll word sub k text = replaceAll word sub 0 (text.drop k) := by
  induction text generalizing k with
  | nil => simp [replaceAll]
  | cons c text ih =>
    cases k with
    | zero => rfl
    | succ k => exact ih k

theorem occurrences_skip (word : List α) (k : ℕ) (text : List α) :
    occurrences word k text = occurrences word 0 (text.drop k) := by
  induction text generalizing k with
  | nil => simp [occurrences]
  | cons c text ih =>
    cases k with
    | zero => rfl
    | succ k => exact ih k

theorem replaceAll_of_none (sub : List α) (h : strstr word text = none) :
    replaceAll word sub 0 text = text ∧ occurrences word 0 text = 0 := by
  induction text with
  | nil => exact ⟨rfl, rfl⟩
  | cons c text ih =>
    rw [strstr] at h
    split_ifs at h with hp
    obtain ⟨hr, ho⟩ := ih (Option.map_eq_none_iff.mp h)
    rw [replaceAll, occurrences, if_neg hp, if_neg hp, hr]
    exact ⟨rfl, ho⟩

/-- The scan passes over what stands before the first occurrence, and goes on behind it. -/
theorem replaceAll_of_some (hword : word ≠ []) (sub : List α) (h : strstr word text = some i) :
    i + word.length ≤ text.length ∧
      replaceAll word sub 0 text = text.take i ++ (sub ++ replaceAll word sub 0 (text.drop (i + word.length))) ∧
      occurrences word 0 text = occurrences word 0 (text.drop (i + word.length)) + 1 := by
  induction text generalizing i with
  | nil =>
    rw [strstr, if_neg hword] at h
    cases h
  | cons c text ih =>
    rw [strstr] at h
    split_ifs at h with hp
    · obtain rfl := Option.some_inj.mp h
      have hpos : 0 < word.length := List.length_pos_iff.mpr hword
      have hdrop : (c :: text).drop (0 + word.length) = text.drop (word.length - 1) := by
        obtain ⟨n, hn⟩ : ∃ n, word.length = n + 1 := ⟨word.length - 1, by omega⟩
        rw [hn, Nat.zero_add, List.drop_succ_cons, Nat.add_sub_cancel]
      refine ⟨(Nat.zero_add _).trans_le hp.length_le, ?_, ?_⟩
      · rw [hdrop, replaceAll, if_pos hp, replaceAll_skip]
        rfl
      · rw [hdrop, occurrences, if_pos hp, occurrences_skip]
    · obtain ⟨j, hj, rfl⟩ := Option.map_eq_some_iff.mp h
      obtain ⟨hle, hr, ho⟩ := ih hj
      have hdrop : (c :: text).drop (j + 1 + word.length) = text.drop (j + word.length) := by
        rw [Nat.add_right_comm, List.drop_succ_cons]
      refine ⟨by rw [List.length_cons]; omega, ?_, ?_⟩
      · rw [hdrop, replaceAll, if_neg hp, hr]
        rfl
      · rw [hdrop, occurrences, if_neg hp, ho]

theorem occurrence_induction (hword : word ≠ []) {P : List α → Prop}
    (none : ∀ text, strstr word text = none → P text)
    (some : ∀ text i, strstr word text = some i → P (text.drop (i + word.length)) → P text) (text : List α) : P text := by
  induction h : text.length using Nat.strong_induction_on generalizing text with
  | _ n ih =>
    cases hs : strstr word text with
    | none => exact none text hs
    | some i =>
      have hle := (replaceAll_of_some hword [] hs).1
      have hpos : 0 < word.length := List.length_pos_iff.mpr hword
      refine some text i hs (ih _ ?_ _ rfl)
      rw [List.length_drop]
      omega

theorem length_replaceAll (hword : word ≠ []) (sub text : List α) :
    (replaceAll word sub 0 text).length + word.length * occurrences word 0 text =
      text.length + sub.length * occurrences word 0 text := by
  induction text using occurrence_induction hword with
  | none text h =>
    obtain ⟨hr, ho⟩ := replaceAll_of_none sub h
    rw [hr, ho]
    rfl
  | some text i h ih =>
    obtain ⟨hle, hr, ho⟩ := replaceAll_of_some hword sub h
    rw [hr, ho, Nat.mul_succ, Nat.mul_succ]
    rw [List.length_drop] at ih
    simp only [List.length_append, List.length_take]
    omega

theorem occurrences_replicate (c : α) (n : ℕ) : occurrences [c] 0 (List.replicate n c) = n := by
  induction n with
  | zero => rfl
  | succ n ih =>
    have hp : [c] <+: c :: List.replicate n c := ⟨List.replicate n c, rfl⟩
    rw [List.replicate_succ, occurrences, if_pos hp]
    exact congrArg (· + 1) ih

end Lthr

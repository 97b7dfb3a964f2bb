import Mathlib.Tactic

/-! Blocks of memory. A block is the list of its cells; a copy into it is refused if it
would leave the block. -/

namespace Lthr

variable {α : Type} {buf buf' src a b : List α} {off i : ℕ}

def blit (buf : List α) (off : ℕ) (src : List α) : Option (List α) :=
  if off + src.length ≤ buf.length then some (buf.take off ++ src ++ buf.drop (off + src.length)) else none

theorem blit_of_le (h : off + src.length ≤ buf.length) :
    blit buf off src = some (buf.take off ++ src ++ buf.drop (off + src.length)) := if_pos h

theorem blit_append (h : src.length ≤ b.length) :
    blit (a ++ b) a.length src = some (a ++ src ++ b.drop src.length) := by
  have hle : a.length + src.length ≤ (a ++ b).length := by
    rw [List.length_append]
    omega
  rw [blit_of_le hle, List.take_left, List.drop_append]
  simp

theorem length_blit (h : blit buf off src = some buf') : buf'.length = buf.length := by
  unfold blit at h
  split_ifs at h with hle
  obtain rfl := Option.some_inj.mp h
  simp
  omega

theorem blit_inside (h : blit buf off src = some buf') (hi : i < src.length) : buf'[off + i]? = src[i]? := by
  unfold blit at h
  split_ifs at h with hle
  obtain rfl := Option.some_inj.mp h
  have hoff : (buf.take off).length = off := by simp; omega
  rw [List.append_assoc, List.getElem?_append_right (by omega), hoff, Nat.add_sub_cancel_left,
    List.getElem?_append_left hi]

theorem blit_outside (h : blit buf off src = some buf') (hi : i < off ∨ off + src.length ≤ i) : buf'[i]? = buf[i]? := by
  unfold blit at h
  split_ifs at h with hle
  obtain rfl := Option.some_inj.mp h
  have hoff : (buf.take off).length = off := by simp; omega
  rcases hi with hi | hi
  · rw [List.append_assoc, List.getElem?_append_left (by omega), List.getElem?_take_of_lt hi]
  · rw [List.append_assoc, List.getElem?_append_right (by omega), hoff, List.getElem?_append_right (by omega),
      List.getElem?_drop]
    congr 1
    omega

/-- `malloc` gives a block of the size it is asked for. -/
def Allocates (malloc : ℕ → Option (List α)) : Prop := ∀ n, ∃ b, malloc n = some b ∧ b.length = n

/-- `realloc`: a new block, which starts with what was in the old one. -/
def realloc (malloc : ℕ → Option (List α)) (old : List α) (n : ℕ) : Option (List α) :=
  (malloc n).map fun b => old.take n ++ b.drop old.length

theorem Allocates.realloc {malloc : ℕ → Option (List α)} (h : Allocates malloc) (old : List α) (n : ℕ) :
    ∃ b, realloc malloc old n = some b ∧ b.length = n := by
  obtain ⟨b, hb, hlen⟩ := h n
  refine ⟨old.take n ++ b.drop old.length, by rw [Lthr.realloc, hb]; rfl, ?_⟩
  rw [List.length_append, List.length_take, List.length_drop]
  omega

end Lthr

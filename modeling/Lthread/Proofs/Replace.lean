import Lthread.Lib.Machine
import Lthread.Spec.Kstring

/-! `kstr_replace_all` against the replacement of all occurrences: the two loops find the
same ones, and the block reserved is exactly long enough as long as its length can be
computed in `int`. -/

namespace Lthr
namespace Kstring

variable {rep with_ orig buf : List UInt8} {malloc : ℕ → Option (List UInt8)} {dest : Kstring}

theorem store_append {a b src : List UInt8} {off : ℕ} (hoff : off = a.length) (h : src.length ≤ b.length) :
    store (a ++ b) off src = .ok (a ++ src ++ b.drop src.length) := by
  rw [store, hoff, blit_append h]

theorem countLoop_ok (hrep : rep ≠ []) (rounds count : ℕ) (h : orig.length < rounds) :
    countLoop rep rounds orig count = .ok (count + occurrences rep 0 orig) := by
  induction orig using occurrence_induction hrep generalizing rounds count with
  | none orig hs =>
    obtain ⟨rounds, rfl⟩ : ∃ r, rounds = r + 1 := ⟨rounds - 1, by omega⟩
    rw [countLoop, hs, (replaceAll_of_none [] hs).2]
    rfl
  | some orig tmp hs ih =>
    obtain ⟨rounds, rfl⟩ : ∃ r, rounds = r + 1 := ⟨rounds - 1, by omega⟩
    obtain ⟨hle, -, ho⟩ := replaceAll_of_some hrep [] hs
    have hpos : 0 < rep.length := List.length_pos_iff.mpr hrep
    rw [countLoop, hs]
    simp only
    rw [ih rounds (count + 1) (by rw [List.length_drop]; omega), ho]
    congr 1
    omega

/-- The loop that copies leaves the replaced text and a NUL behind what has been written
before, and touches nothing behind the NUL. Each `strcpy` writes a NUL too, which the next
copy overwrites. -/
theorem copyLoop_ok (hrep : rep ≠ []) (with_ orig out room : List UInt8)
    (h : (replaceAll rep with_ 0 orig).length < room.length) :
    copyLoop rep with_ (occurrences rep 0 orig) (out ++ room) out.length orig =
      .ok (out ++ replaceAll rep with_ 0 orig ++ 0 :: room.drop ((replaceAll rep with_ 0 orig).length + 1)) := by
  induction orig using occurrence_induction hrep generalizing out room with
  | none orig hs =>
    obtain ⟨hr, ho⟩ := replaceAll_of_none with_ hs
    rw [hr] at h ⊢
    rw [ho, copyLoop, store_append rfl (by simpa using h)]
    simp
  | some orig tmp hs ih =>
    obtain ⟨hle, hr, ho⟩ := replaceAll_of_some hrep with_ hs
    generalize hrest : orig.drop (tmp + rep.length) = rest at hr ho ih
    have hfront : (orig.take tmp).length = tmp := by
      rw [List.length_take]
      omega
    have hlen : (replaceAll rep with_ 0 orig).length = tmp + (with_.length + (replaceAll rep with_ 0 rest).length) := by
      rw [hr, List.length_append, List.length_append, hfront]
    rw [hlen] at h
    rw [ho, copyLoop, hs]
    simp only
    rw [store_append rfl (by omega)]
    simp only [except_ok_bind]
    rw [store_append (by rw [List.length_append, hfront]) (by rw [List.length_drop]; simp; omega)]
    simp only [except_ok_bind]
    rw [hrest]
    have hnext := ih (out ++ orig.take tmp ++ with_) (0 :: (room.drop tmp).drop (with_.length + 1))
      (by rw [List.length_cons, List.length_drop, List.length_drop]; omega)
    have hbuf : out ++ orig.take tmp ++ with_ ++ 0 :: (room.drop tmp).drop (with_.length + 1) =
        out ++ orig.take tmp ++ (with_ ++ [0]) ++ (room.drop (orig.take tmp).length).drop (with_ ++ [0]).length := by
      simp [hfront]
    have hpos : (out ++ orig.take tmp ++ with_).length = out.length + tmp + with_.length := by
      rw [List.length_append, List.length_append, hfront]
    rw [hbuf, hpos] at hnext
    rw [hnext, hr, List.drop_succ_cons, List.drop_drop, List.drop_drop]
    have hdrop : (orig.take tmp ++ (with_ ++ replaceAll rep with_ 0 rest)).length + 1 =
        tmp + (with_.length + 1 + (replaceAll rep with_ 0 rest).length) := by
      rw [List.length_append, List.length_append, hfront]
      omega
    rw [hdrop]
    simp

/-! The block -/

theorem le_kroundup32 (size : ℕ) : size ≤ kroundup32 size := by
  have hup (x k : ℕ) : x ≤ x ||| x >>> k := Nat.left_le_or
  unfold kroundup32
  apply Nat.le_add_of_sub_le
  exact ((((hup _ 1).trans (hup _ 2)).trans (hup _ 4)).trans (hup _ 8)).trans (hup _ 16)

theorem ksResize_ok (hm : Allocates malloc) (hd : dest.Ok) {size : ℕ} (h : 0 < size) :
    ∃ b, (dest.ksResize malloc size).1.s = some b ∧ size ≤ b.length := by
  unfold ksResize
  by_cases hlt : dest.m < size
  · obtain ⟨b, hb, hlen⟩ := hm.realloc (dest.s.getD []) (kroundup32 size)
    rw [if_pos hlt]
    simp only [hb]
    exact ⟨b, rfl, hlen ▸ le_kroundup32 size⟩
  · rw [if_neg hlt]
    unfold Ok at hd
    cases hs : dest.s with
    | none =>
      rw [hs] at hd
      simp only at hd
      omega
    | some b =>
      rw [hs] at hd
      simp only at hd
      exact ⟨b, rfl, by omega⟩

/-! The result -/

/-- Every occurrence of `rep` in `orig` is replaced by `with_`: the call returns 1,
`dest` holds the replaced text with a NUL behind it, and of the block only the bytes up to
this NUL have been written. -/
def ReplacesAll (malloc : ℕ → Option (List UInt8)) (orig rep with_ : List UInt8) (dest : Kstring) : Prop :=
  let text := replaceAll rep with_ 0 orig
  ∃ dest' b, kstrReplaceAll malloc (orig.length + 1) orig rep with_ dest = .ok (dest', 1) ∧
    (dest.ksResize malloc (text.length + 1)).1.s = some b ∧ text.length + 1 ≤ b.length ∧
    dest'.s = some (text ++ 0 :: b.drop (text.length + 1)) ∧ dest'.l = text.length

theorem toInt_of_lt {n : ℕ} (h : n < 2 ^ 31) : toInt n = n := by
  unfold toInt
  rw [Int.bmod_eq_of_le] <;> omega

theorem toSize_of_lt {n : ℕ} (h : n < 2 ^ 64) : toSize n = n := by
  unfold toSize
  omega

theorem kstrReplaceAll_eq (malloc : ℕ → Option (List UInt8)) (orig : List UInt8) (dest : Kstring) (hrep : rep ≠ [])
    (hr : rep.length < 2 ^ 31) (hw : with_.length < 2 ^ 31) :
    kstrReplaceAll malloc (orig.length + 1) orig rep with_ dest =
      inInt (((with_.length : ℤ) - rep.length) * occurrences rep 0 orig) >>=
        replaceInto malloc orig rep with_ dest (occurrences rep 0 orig) := by
  unfold kstrReplaceAll
  rw [countLoop_ok hrep _ 0 (Nat.lt_succ_self _), Nat.zero_add, toInt_of_lt hr, toInt_of_lt hw]
  rfl

theorem kstrReplaceAll_overflow (malloc : ℕ → Option (List UInt8)) (orig : List UInt8) (dest : Kstring) (hrep : rep ≠ [])
    (hr : rep.length < 2 ^ 31) (hw : with_.length < 2 ^ 31)
    (h : ¬ ((with_.length : ℤ) - rep.length) * occurrences rep 0 orig < 2 ^ 31) :
    kstrReplaceAll malloc (orig.length + 1) orig rep with_ dest = .error .overflow := by
  rw [kstrReplaceAll_eq malloc orig dest hrep hr hw, inInt, if_neg fun hin => h hin.2]
  rfl

/-- Whenever `int` can hold the difference between the lengths times the number of
occurrences, and only then, `kstr_replace_all` does what it should. -/
theorem replace_all_textbook (hm : Allocates malloc) (hd : dest.Ok) (hrep : rep ≠ [])
    (htotal : orig.length + rep.length + with_.length < 2 ^ 31) :
    ReplacesAll malloc orig rep with_ dest ↔
      ((with_.length : ℤ) - rep.length) * occurrences rep 0 orig < 2 ^ 31 := by
  have hr : rep.length < 2 ^ 31 := by omega
  have hw : with_.length < 2 ^ 31 := by omega
  constructor
  · rintro ⟨dest', b, hok, -⟩
    by_contra hge
    rw [kstrReplaceAll_overflow malloc orig dest hrep hr hw hge] at hok
    cases hok
  · intro hlt
    unfold ReplacesAll
    have hlen := length_replaceAll hrep with_ orig
    have hrun := kstrReplaceAll_eq malloc orig dest hrep hr hw
    have hmore : ((replaceAll rep with_ 0 orig).length : ℤ) =
        orig.length + ((with_.length : ℤ) - rep.length) * occurrences rep 0 orig := by
      rw [sub_mul]
      zify at hlen
      linarith
    have hroom (b : List UInt8) := copyLoop_ok hrep with_ orig [] b
    generalize ((with_.length : ℤ) - rep.length) * occurrences rep 0 orig = more at hlt hrun hmore
    generalize replaceAll rep with_ 0 orig = text at hmore hroom
    have hin : inInt more = .ok more := by
      unfold inInt
      rw [if_pos]
      omega
    have hl : toSize (orig.length + more) = text.length := by
      rw [← hmore]
      exact toSize_of_lt (by omega)
    have hsize : toSize (orig.length + more + 1) = text.length + 1 := by
      rw [← hmore, ← Nat.cast_succ]
      exact toSize_of_lt (by omega)
    obtain ⟨b, hb, hle⟩ := ksResize_ok hm hd (Nat.succ_pos text.length)
    have hresult : kstrReplaceAll malloc (orig.length + 1) orig rep with_ dest =
        .ok ({ (dest.ksResize malloc (text.length + 1)).1 with
          s := some (text ++ 0 :: b.drop (text.length + 1)), l := text.length }, 1) := by
      rw [hrun, hin, except_ok_bind, replaceInto, hsize, hl]
      simp only [hb]
      rw [show copyLoop rep with_ (occurrences rep 0 orig) b 0 orig = _ from hroom b hle]
      rfl
    exact ⟨_, b, hresult, hb, hle, rfl, rfl⟩

def sevens (n : ℕ) : Option (List UInt8) := some (List.replicate n 7)

theorem sevens_allocates : Allocates sevens := fun _ => ⟨_, rfl, List.length_replicate⟩

/-- 65536 times `a`, each replaced by 65537 times `b`: the three strings have 131074 bytes,
and the product is 2^32. -/
theorem replace_all_overflows :
    kstrReplaceAll sevens 65537 (List.replicate 65536 97) [97] (List.replicate 65537 98) ⟨none, 0, 0⟩ = .error .overflow ∧
      ¬ ReplacesAll sevens (List.replicate 65536 97) [97] (List.replicate 65537 98) ⟨none, 0, 0⟩ := by
  have hover := @kstrReplaceAll_overflow [97] (List.replicate 65537 98) sevens
    (List.replicate 65536 97) ⟨none, 0, 0⟩ (List.cons_ne_nil _ _) (by decide)
    (by rw [List.length_replicate]; norm_num)
    (by rw [occurrences_replicate, List.length_replicate]; norm_num)
  have hrounds : (List.replicate 65536 (97 : UInt8)).length + 1 = 65537 := by rw [List.length_replicate]
  rw [hrounds] at hover
  refine ⟨hover, ?_⟩
  rintro ⟨dest', b, hok, -⟩
  rw [hrounds, hover] at hok
  cases hok

/-- In `aaa` the first `aa` is replaced, in an empty `kstring_t`. -/
theorem replace_all_textbook_overlapping : ReplacesAll sevens [97, 97, 97] [97, 97] [98] ⟨none, 0, 0⟩ := by
  have hd : Ok ⟨none, 0, 0⟩ := rfl
  exact (replace_all_textbook sevens_allocates hd (by decide) (by decide)).mpr (by decide)

end Kstring
end Lthr

import Lthread.Lib.Split
import Lthread.Proofs.Replace

/-! `kstr_parse_u` against the decoding of `\uXXXX`. The loop and the decoding are the same
scan with two notions of an escape: four hexadecimal digits, or a number for `strtol` that
ends behind the fourth byte. -/

namespace Lthr
namespace Kstring

variable {w s r : List UInt8} {b : UInt8}

/-! `strtol` -/

theorem forall_uint8 {P : UInt8 → Prop} (h : ∀ n : Fin 256, P (UInt8.ofFin n)) (b : UInt8) : P b := h b.toFin

set_option maxRecDepth 8000 in
theorem isHex_other : ∀ b : UInt8, isHex b = true →
    isSpace b = false ∧ b ≠ 45 ∧ b ≠ 43 ∧ b ≠ 120 ∧ b ≠ 88 ∧ b ≠ 92 ∧ (hexDigit b).getD 0 < 16 :=
  forall_uint8 (by decide)

set_option maxRecDepth 8000 in
theorem isSpace_other : ∀ b : UInt8, isSpace b = true → isHex b = false ∧ b ≠ 92 ∧ b ≠ 117 :=
  forall_uint8 (by decide)

theorem hexValue_lt (ds : List UInt8) (h : ∀ d ∈ ds, isHex d = true) : hexValue ds < 16 ^ ds.length := by
  induction ds using List.reverseRecOn with
  | nil => exact Nat.one_pos
  | append_singleton ds d ih =>
    have hd := (isHex_other d (h d (by simp))).2.2.2.2.2.2
    have hds := ih fun e he => h e (by simp [he])
    unfold hexValue at hds ⊢
    rw [List.foldl_append, List.length_append, List.length_singleton, pow_succ]
    simp only [List.foldl_cons, List.foldl_nil]
    omega

/-- What `strtol` has read: blanks, a sign, `0x` and digits. -/
structure Numeral (w sp sg mk ds rest : List UInt8) : Prop where
  split : w = sp ++ (sg ++ (mk ++ (ds ++ rest)))
  blanks : ∀ b ∈ sp, isSpace b = true
  sign : sg = [] ∨ sg = [43] ∨ sg = [45]
  mark : mk = [] ∨ mk = [48, 120] ∨ mk = [48, 88]
  some_digit : ds ≠ []
  digits : ∀ d ∈ ds, isHex d = true
  length : (strtol16 w).2 = sp.length + sg.length + mk.length + ds.length
  value : (strtol16 w).1 = clampLong (signed (decide (sg = [45])) (hexValue ds))

theorem signOf_split (w : List UInt8) : ∃ sg rest, w = sg ++ rest ∧ signOf w = (sg.length, decide (sg = [45])) ∧
    (sg = [] ∨ sg = [43] ∨ sg = [45]) := by
  cases w with
  | nil => exact ⟨[], [], rfl, rfl, Or.inl rfl⟩
  | cons b w =>
    rw [signOf]
    split_ifs with h1 h2
    · exact ⟨[45], w, by rw [h1]; rfl, rfl, Or.inr (Or.inr rfl)⟩
    · exact ⟨[43], w, by rw [h2]; rfl, rfl, Or.inr (Or.inl rfl)⟩
    · exact ⟨[], b :: w, rfl, rfl, Or.inl rfl⟩

theorem hexMark_split (w : List UInt8) : ∃ mk rest, w = mk ++ rest ∧ hexMark w = mk.length ∧
    (mk = [] ∨ mk = [48, 120] ∨ mk = [48, 88]) := by
  unfold hexMark
  split
  · next z x d w =>
    split_ifs with h
    · obtain ⟨rfl, rfl | rfl, -⟩ := h
      · exact ⟨[48, 120], d :: w, rfl, rfl, Or.inr (Or.inl rfl)⟩
      · exact ⟨[48, 88], d :: w, rfl, rfl, Or.inr (Or.inr rfl)⟩
    · exact ⟨[], _, rfl, rfl, Or.inl rfl⟩
  · exact ⟨[], w, rfl, rfl, Or.inl rfl⟩

/-- Every text starts with blanks, a sign, `0x` and digits, any of which may be missing. -/
theorem strtol16_split (w : List UInt8) : ∃ sp sg mk ds rest, w = sp ++ (sg ++ (mk ++ (ds ++ rest))) ∧
    sp = w.takeWhile isSpace ∧ (sg = [] ∨ sg = [43] ∨ sg = [45]) ∧ (mk = [] ∨ mk = [48, 120] ∨ mk = [48, 88]) ∧
    (∀ d ∈ ds, isHex d = true) ∧ strtol16 w = if ds = [] then (0, 0)
      else (clampLong (signed (decide (sg = [45])) (hexValue ds)), sp.length + sg.length + mk.length + ds.length) := by
  have hsplit : w.takeWhile isSpace ++ w.dropWhile isSpace = w := List.takeWhile_append_dropWhile
  have hdrop : w.drop (w.takeWhile isSpace).length = w.dropWhile isSpace := by
    nth_rewrite 2 [← hsplit]
    exact List.drop_left
  generalize hsp : w.takeWhile isSpace = sp at hsplit hdrop
  obtain ⟨sg, w₁, hsign, hsign', hsg⟩ := signOf_split (w.drop sp.length)
  obtain ⟨mk, w₂, hmark, hmark', hmk⟩ := hexMark_split w₁
  have hdrop₁ : w.drop (sp.length + sg.length) = w₁ := by rw [← List.drop_drop, hsign, List.drop_left]
  have hdrop₂ : w.drop (sp.length + sg.length + mk.length) = w₂ := by
    rw [← List.drop_drop, hdrop₁, hmark, List.drop_left]
  have hdigits : w₂.takeWhile isHex ++ w₂.dropWhile isHex = w₂ := List.takeWhile_append_dropWhile
  refine ⟨sp, sg, mk, w₂.takeWhile isHex, w₂.dropWhile isHex, ?_, rfl, hsg, hmk, fun d => mem_takeWhile, ?_⟩
  · rw [hdigits, ← hmark, ← hsign, hdrop, hsplit]
  · unfold strtol16
    simp only [hsp, hsign', hdrop₁, hmark', hdrop₂]

theorem strtol16_numeral (h : (strtol16 w).2 ≠ 0) : ∃ sp sg mk ds rest, Numeral w sp sg mk ds rest := by
  obtain ⟨sp, sg, mk, ds, rest, hsplit, hsp, hsg, hmk, hds, heq⟩ := strtol16_split w
  have hne : ds ≠ [] := by
    intro hnil
    rw [heq, if_pos hnil] at h
    exact h rfl
  rw [if_neg hne] at heq
  refine ⟨sp, sg, mk, ds, rest, hsplit, ?_, hsg, hmk, hne, hds, by rw [heq], by rw [heq]⟩
  rw [hsp]
  exact fun b => mem_takeWhile

theorem takeWhile_nul {p : UInt8 → Bool} (hp : p 0 = false) (w rest : List UInt8) :
    (w ++ 0 :: rest).takeWhile p = w.takeWhile p := by
  induction w with
  | nil => simp [hp]
  | cons c w ih =>
    rw [List.cons_append, List.takeWhile_cons, List.takeWhile_cons, ih]

theorem signOf_nul (w rest : List UInt8) : signOf (w ++ 0 :: rest) = signOf w := by
  cases w <;> rfl

theorem hexMark_nul (w rest : List UInt8) : hexMark (w ++ 0 :: rest) = hexMark w := by
  rcases w with _ | ⟨z, _ | ⟨x, _ | ⟨d, w⟩⟩⟩
  · rcases rest with _ | ⟨x, _ | ⟨d, rest⟩⟩ <;> simp [hexMark]
  · rcases rest with _ | ⟨d, rest⟩ <;> simp [hexMark]
  · have h0 : isHex 0 = false := rfl
    simp [hexMark, h0]
  · rfl

theorem strtol16_nul (w rest : List UInt8) : strtol16 (w ++ 0 :: rest) = strtol16 w := by
  have hdrop {k : ℕ} (hk : k ≤ w.length) : (w ++ 0 :: rest).drop k = w.drop k ++ 0 :: rest :=
    List.drop_append_of_le_length hk
  have h₀ : (w.takeWhile isSpace).length ≤ w.length := (List.takeWhile_sublist _).length_le
  have h₁ : (w.takeWhile isSpace).length + (signOf (w.drop (w.takeWhile isSpace).length)).1 ≤ w.length := by
    obtain ⟨sg, u, hu, hsg, -⟩ := signOf_split (w.drop (w.takeWhile isSpace).length)
    have hlen := congrArg List.length hu
    rw [List.length_drop, List.length_append] at hlen
    rw [hsg]
    simp only
    omega
  unfold strtol16
  simp only [takeWhile_nul (show isSpace 0 = false from rfl), hdrop h₀, signOf_nul, hdrop h₁, hexMark_nul]
  generalize (w.takeWhile isSpace).length + (signOf (w.drop (w.takeWhile isSpace).length)).1 = k at h₁
  have h₂ : k + hexMark (w.drop k) ≤ w.length := by
    obtain ⟨mk, u, hu, hmk, -⟩ := hexMark_split (w.drop k)
    have hlen := congrArg List.length hu
    rw [List.length_drop, List.length_append] at hlen
    omega
  rw [hdrop h₂, takeWhile_nul (show isHex 0 = false from rfl)]

/-- A byte of an escape that is not one for `strtol`. -/
def plain (b : UInt8) : Prop := isHex b = true ∨ b = 92 ∨ b = 117

theorem not_plain_of_isSpace (h : isSpace b = true) : ¬ plain b := by
  obtain ⟨hx, h1, h2⟩ := isSpace_other b h
  rintro (hb | hb | hb)
  · rw [hx] at hb
    cases hb
  · exact h1 hb
  · exact h2 hb

theorem clampLong_of_small {v : ℤ} (h : -65536 < v) (h' : v < 65536) : clampLong v = v := by
  unfold clampLong
  omega

theorem Numeral.take {sp sg mk ds rest : List UInt8} (h : Numeral w sp sg mk ds rest) :
    w.take (strtol16 w).2 = sp ++ (sg ++ (mk ++ ds)) := by
  have hlen : (strtol16 w).2 = (sp ++ (sg ++ (mk ++ ds))).length := by
    rw [h.length]
    simp only [List.length_append]
    omega
  have hsplit : w = sp ++ (sg ++ (mk ++ ds)) ++ rest := by
    simp only [List.append_assoc]
    exact h.split
  rw [hlen]
  nth_rewrite 1 [hsplit]
  exact List.take_left

theorem strtol16_of_hex (h : (strtol16 w).2 = 4) (hx : ∀ x ∈ w.take 4, isHex x = true) :
    (strtol16 w).1 = hexValue (w.take 4) := by
  obtain ⟨sp, sg, mk, ds, rest, hn⟩ := strtol16_numeral (h ▸ (by decide : (4 : ℕ) ≠ 0))
  have hlen := hn.length
  have hall := hn.take
  rw [h] at hall hlen
  rw [hall] at hx
  obtain rfl : sp = [] := by
    cases sp with
    | nil => rfl
    | cons e sp =>
      have hspace := hn.blanks e (by simp)
      rw [(isHex_other e (hx e (by simp))).1] at hspace
      cases hspace
  obtain rfl : sg = [] := by
    rcases hn.sign with hs | hs | hs
    · exact hs
    · exact absurd rfl (isHex_other 43 (hx 43 (by simp [hs]))).2.2.1
    · exact absurd rfl (isHex_other 45 (hx 45 (by simp [hs]))).2.1
  obtain rfl : mk = [] := by
    rcases hn.mark with hm | hm | hm
    · exact hm
    · exact absurd rfl (isHex_other 120 (hx 120 (by simp [hm]))).2.2.2.1
    · exact absurd rfl (isHex_other 88 (hx 88 (by simp [hm]))).2.2.2.2.1
  have hlt := hexValue_lt ds hn.digits
  rw [show ds.length = 4 by simpa using hlen.symm] at hlt
  rw [hall, hn.value]
  exact clampLong_of_small (by simp [signed]; omega) (by simp [signed]; omega)

theorem le16_ne {v : ℤ} (h : -4096 < v) (h' : v < 4096) : le16 v ≠ [92, 117] := by
  intro he
  unfold le16 at he
  obtain ⟨hlo, hhi, -⟩ := by simpa only [List.cons.injEq] using he
  have hlo' := congrArg UInt8.toNat hlo
  have hhi' := congrArg UInt8.toNat hhi
  rw [UInt8.toNat_ofNat'] at hlo' hhi'
  have h92 : (92 : UInt8).toNat = 92 := rfl
  have h117 : (117 : UInt8).toNat = 117 := rfl
  omega

/-- A number of four bytes that are not four digits has a blank, a sign or `0x` in it, and so
three digits at most. -/
theorem strtol16_of_not_hex (h : (strtol16 w).2 = 4) (hx : ¬ ∀ x ∈ w.take 4, isHex x = true) :
    (∃ x ∈ w.take 2, ¬ plain x) ∧ (∀ x ∈ w.take 4, x ≠ 92) ∧ le16 (strtol16 w).1 ≠ [92, 117] := by
  obtain ⟨sp, sg, mk, ds, rest, hn⟩ := strtol16_numeral (h ▸ (by decide : (4 : ℕ) ≠ 0))
  have hlen := hn.length
  have hall := hn.take
  rw [h] at hall hlen
  rw [hall] at hx ⊢
  refine ⟨?_, ?_, ?_⟩
  · have htwo : w.take 2 = (sp ++ (sg ++ (mk ++ ds))).take 2 := by
      rw [← hall, List.take_take]
      rfl
    rw [htwo]
    cases sp with
    | cons e sp => exact ⟨e, by simp, not_plain_of_isSpace (hn.blanks e (by simp))⟩
    | nil =>
      rcases hn.sign with rfl | rfl | rfl
      · rcases hn.mark with rfl | rfl | rfl
        · exact absurd hn.digits hx
        · exact ⟨120, by simp, by unfold plain; decide⟩
        · exact ⟨88, by simp, by unfold plain; decide⟩
      · exact ⟨43, by simp, by unfold plain; decide⟩
      · exact ⟨45, by simp, by unfold plain; decide⟩
  · intro x hmem
    rcases List.mem_append.mp hmem with hsp | hmem
    · exact (isSpace_other x (hn.blanks x hsp)).2.1
    rcases List.mem_append.mp hmem with hsg | hmem
    · rcases hn.sign with rfl | rfl | rfl <;> simp at hsg <;> rw [hsg] <;> decide
    rcases List.mem_append.mp hmem with hmk | hds
    · rcases hn.mark with rfl | rfl | rfl <;> simp at hmk <;> rcases hmk with rfl | rfl <;> decide
    · exact (isHex_other x (hn.digits x hds)).2.2.2.2.2.1
  · have hfew : ds.length ≤ 3 := by
      by_contra hmany
      have hsp : sp = [] := List.length_eq_zero_iff.mp (by omega)
      have hsg : sg = [] := List.length_eq_zero_iff.mp (by omega)
      have hmk : mk = [] := List.length_eq_zero_iff.mp (by omega)
      rw [hsp, hsg, hmk] at hx
      exact hx hn.digits
    have hlt : hexValue ds < 4096 := (hexValue_lt ds hn.digits).trans_le (Nat.pow_le_pow_right (by decide) hfew)
    have hv : -4096 < signed (decide (sg = [45])) (hexValue ds) ∧ signed (decide (sg = [45])) (hexValue ds) < 4096 := by
      unfold signed
      split_ifs <;> omega
    rw [hn.value, clampLong_of_small (by omega) (by omega)]
    exact le16_ne hv.1 hv.2

/-! The two scans -/

/-- Scanning from the left, an escape of six bytes is replaced by the bytes it stands for and
every other byte is kept; the first `skip` bytes belong to an escape met before. -/
def scan (found : List UInt8 → Option (List UInt8)) : ℕ → List UInt8 → List UInt8
  | _, [] => []
  | skip + 1, _ :: s => scan found skip s
  | 0, c :: s =>
    match found (c :: s) with
    | some bytes => bytes ++ scan found 5 s
    | none => c :: scan found 0 s

/-- An escape: a backslash, `u` and four hexadecimal digits. -/
def escape : List UInt8 → Option (List UInt8)
  | b :: u :: w =>
    if b = 92 ∧ u = 117 ∧ 4 ≤ w.length ∧ (w.take 4).all isHex = true then some (le16 (hexValue (w.take 4))) else none
  | _ => none

def numeral : List UInt8 → Option (List UInt8)
  | b :: u :: w => if b = 92 ∧ u = 117 ∧ 4 ≤ w.length ∧ (strtol16 w).2 = 4 then some (le16 (strtol16 w).1) else none
  | _ => none

def decodeU (s : List UInt8) : List UInt8 := scan escape 0 s

/-- Both begin with a backslash and `u`, take six bytes and give two. -/
structure Escapes (found : List UInt8 → Option (List UInt8)) : Prop where
  shape : ∀ s bytes, found s = some bytes → ∃ w r, s = 92 :: 117 :: (w ++ r) ∧ w.length = 4 ∧ (∀ x ∈ w, x ≠ 92)
  bytes : ∀ s bytes, found s = some bytes → ∃ x y, bytes = [x, y]

theorem le16_two (v : ℤ) : ∃ x y, le16 v = [x, y] := ⟨_, _, rfl⟩

theorem escape_shape {bytes : List UInt8} (h : escape s = some bytes) : ∃ w r, s = 92 :: 117 :: (w ++ r) ∧ w.length = 4 ∧
    (∀ x ∈ w, isHex x = true) ∧ bytes = le16 (hexValue w) := by
  unfold escape at h
  split at h
  · next b u w =>
    split_ifs at h with hc
    obtain ⟨rfl, rfl, hlen, hx⟩ := hc
    refine ⟨w.take 4, w.drop 4, by rw [List.take_append_drop], by simpa using hlen, List.all_eq_true.mp hx, ?_⟩
    exact (Option.some_inj.mp h).symm
  · cases h

theorem numeral_shape {bytes : List UInt8} (h : numeral s = some bytes) : ∃ w r, s = 92 :: 117 :: (w ++ r) ∧ w.length = 4 ∧
    (strtol16 (w ++ r)).2 = 4 ∧ bytes = le16 (strtol16 (w ++ r)).1 := by
  unfold numeral at h
  split at h
  · next b u w =>
    split_ifs at h with hc
    obtain ⟨rfl, rfl, hlen, hx⟩ := hc
    refine ⟨w.take 4, w.drop 4, by rw [List.take_append_drop], by simpa using hlen, ?_, ?_⟩
    · rwa [List.take_append_drop]
    · rw [List.take_append_drop]
      exact (Option.some_inj.mp h).symm
  · cases h

theorem escapes_escape : Escapes escape where
  shape s bytes h := by
    obtain ⟨w, r, hs, hw, hx, -⟩ := escape_shape h
    exact ⟨w, r, hs, hw, fun x hm => (isHex_other x (hx x hm)).2.2.2.2.2.1⟩
  bytes s bytes h := by
    obtain ⟨w, r, -, -, -, rfl⟩ := escape_shape h
    exact le16_two _

theorem escapes_numeral : Escapes numeral where
  shape s bytes h := by
    obtain ⟨w, r, hs, hw, hn, -⟩ := numeral_shape h
    have htake : (w ++ r).take 4 = w := by rw [← hw, List.take_left]
    refine ⟨w, r, hs, hw, fun x hm => ?_⟩
    by_cases hx : ∀ x ∈ (w ++ r).take 4, isHex x = true
    · rw [htake] at hx
      exact (isHex_other x (hx x hm)).2.2.2.2.2.1
    · have hno := (strtol16_of_not_hex hn hx).2.1
      rw [htake] at hno
      exact hno x hm
  bytes s bytes h := by
    obtain ⟨w, r, -, -, -, rfl⟩ := numeral_shape h
    exact le16_two _

section

variable {found : List UInt8 → Option (List UInt8)}

theorem scan_skip (found : List UInt8 → Option (List UInt8)) (k : ℕ) (s : List UInt8) :
    scan found k s = scan found 0 (s.drop k) := by
  induction s generalizing k with
  | nil => simp [scan]
  | cons c s ih =>
    cases k with
    | zero => rfl
    | succ k => exact ih k

theorem scan_none {c : UInt8} (h : found (c :: s) = none) : scan found 0 (c :: s) = c :: scan found 0 s := by
  rw [scan, h]

theorem scan_some {w bytes : List UInt8} (h : found (92 :: 117 :: (w ++ r)) = some bytes) (hw : w.length = 4) :
    scan found 0 (92 :: 117 :: (w ++ r)) = bytes ++ scan found 0 r := by
  have hdrop : (117 :: (w ++ r)).drop 5 = r := by
    rw [List.drop_succ_cons, ← hw, List.drop_left]
  rw [scan, h]
  simp only
  rw [scan_skip, hdrop]

theorem Escapes.none_of_ne (hf : Escapes found) {c : UInt8} (h : c ≠ 92) : found (c :: s) = none := by
  cases hs : found (c :: s) with
  | none => rfl
  | some bytes =>
    obtain ⟨w, r, heq, -⟩ := hf.shape _ _ hs
    exact absurd (List.cons.inj heq).1 h

theorem Escapes.scan_append (hf : Escapes found) (w r : List UInt8) (h : ∀ x ∈ w, x ≠ 92) :
    scan found 0 (w ++ r) = w ++ scan found 0 r := by
  induction w with
  | nil => rfl
  | cons c w ih =>
    rw [List.cons_append, scan_none (hf.none_of_ne (h c (by simp))), ih fun x hx => h x (by simp [hx])]
    rfl

theorem Escapes.scan_kept (hf : Escapes found) (w r : List UInt8) (hno : found (92 :: 117 :: (w ++ r)) = none)
    (h : ∀ x ∈ w, x ≠ 92) : scan found 0 (92 :: 117 :: (w ++ r)) = 92 :: 117 :: (w ++ scan found 0 r) := by
  rw [scan_none hno, ← hf.scan_append w r h]
  exact congrArg _ (scan_none (hf.none_of_ne (by decide)))

end

theorem numeral_eq_escape {x y : List UInt8} (he : escape s = some x) (hn : numeral s = some y) : y = x := by
  obtain ⟨w, r, rfl, hw, hx, rfl⟩ := escape_shape he
  obtain ⟨w', r', heq, hw', h4, rfl⟩ := numeral_shape hn
  have hwr : w ++ r = w' ++ r' := (List.cons.inj (List.cons.inj heq).2).2
  have htake : (w ++ r).take 4 = w := by rw [← hw, List.take_left]
  rw [← hwr] at h4 ⊢
  rw [strtol16_of_hex h4 (by rwa [htake]), htake]

theorem numeral_only {bytes : List UInt8} (he : escape s = none) (hn : numeral s = some bytes) :
    ∃ w r, s = 92 :: 117 :: (w ++ r) ∧ w.length = 4 ∧ (∃ x ∈ w.take 2, ¬ plain x) ∧ (∀ x ∈ w, x ≠ 92) ∧
      bytes ≠ [92, 117] := by
  obtain ⟨w, r, rfl, hw, h4, rfl⟩ := numeral_shape hn
  have htake : (w ++ r).take 4 = w := by rw [← hw, List.take_left]
  have hx : ¬ ∀ x ∈ (w ++ r).take 4, isHex x = true := by
    intro hx
    rw [escape, if_pos ⟨rfl, rfl, by rw [List.length_append]; omega, List.all_eq_true.mpr hx⟩] at he
    cases he
  obtain ⟨hplain, hno, hne⟩ := strtol16_of_not_hex h4 hx
  rw [htake] at hno
  rw [List.take_append_of_le_length (by omega)] at hplain
  exact ⟨w, r, rfl, hw, hplain, hno, hne⟩

theorem plain_of_escape {w : List UInt8} (h : ∀ x ∈ w, isHex x = true) : ∀ x ∈ 92 :: 117 :: w, plain x := by
  intro x hx
  rcases List.mem_cons.mp hx with rfl | hx
  · exact Or.inr (Or.inl rfl)
  rcases List.mem_cons.mp hx with rfl | hx
  · exact Or.inr (Or.inr rfl)
  · exact Or.inl (h x hx)

/-- Once the code has left an escape as it is, its result is behind by the bytes `lag`. These
are backslashes, `u` and digits, and what the code alone takes for an escape begins with
other bytes: it never catches up. -/
theorem scan_lags (s lag : List UInt8) (hlag : 4 ≤ lag.length) (hplain : ∀ x ∈ lag, plain x) :
    scan escape 0 s ≠ lag ++ scan numeral 0 s := by
  induction hlen : s.length using Nat.strong_induction_on generalizing s lag with
  | _ n ih =>
    obtain ⟨x, y, lag, rfl⟩ : ∃ x y l, lag = x :: y :: l := by
      rcases lag with _ | ⟨x, _ | ⟨y, lag⟩⟩
      · simp at hlag
      · simp at hlag
      · exact ⟨x, y, lag, rfl⟩
    have hlag' : 2 ≤ lag.length := by simpa using hlag
    intro h
    cases s with
    | nil => cases h
    | cons c s =>
      cases he : escape (c :: s) with
      | none =>
        cases hn : numeral (c :: s) with
        | none =>
          -- the byte goes round
          rw [scan_none he, scan_none hn, List.cons_append, List.cons.injEq] at h
          obtain ⟨rfl, h⟩ := h
          refine ih s.length (by simp [← hlen]) s (y :: lag ++ [c]) (by simpa using hlag) (fun z hz => ?_) rfl ?_
          · apply hplain
            simp only [List.cons_append, List.mem_cons, List.mem_append] at hz ⊢
            tauto
          · rw [List.append_assoc]
            exact h
        | some bytes =>
          obtain ⟨w, r, hcs, hw, ⟨z, hz, hzp⟩, hno, -⟩ := numeral_only he hn
          rw [hcs] at he h
          rw [escapes_escape.scan_kept w r he hno] at h
          -- the first two of the four bytes would be in `lag`
          simp only [List.cons_append, List.cons.injEq] at h
          have htwo := congrArg (List.take 2) h.2.2
          rw [List.take_append_of_le_length (by omega), List.take_append_of_le_length hlag'] at htwo
          rw [htwo] at hz
          exact hzp (hplain z (List.mem_cons_of_mem _ (List.mem_cons_of_mem _ (List.mem_of_mem_take hz))))
      | some bytes =>
        obtain ⟨w, r, hcs, hw, hx, -⟩ := escape_shape he
        obtain ⟨x', y', rfl⟩ := escapes_escape.bytes _ _ he
        have hshort : r.length < n := by
          have hl := congrArg List.length hcs
          rw [hlen] at hl
          simp only [List.length_cons, List.length_append] at hl
          omega
        rw [hcs] at he h
        rw [scan_some he hw] at h
        cases hn : numeral (92 :: 117 :: (w ++ r)) with
        | none =>
          rw [escapes_numeral.scan_kept w r hn fun x hm => (isHex_other x (hx x hm)).2.2.2.2.2.1] at h
          simp only [List.cons_append, List.nil_append, List.cons.injEq] at h
          obtain ⟨rfl, rfl, h⟩ := h
          refine ih r.length hshort r (lag ++ (92 :: 117 :: w)) (by simp; omega) (fun z hz => ?_) rfl ?_
          · rcases List.mem_append.mp hz with hz | hz
            · exact hplain z (by simp [hz])
            · exact plain_of_escape hx z hz
          · rw [List.append_assoc]
            exact h
        | some bytes' =>
          obtain rfl := numeral_eq_escape he hn
          rw [scan_some hn hw] at h
          simp only [List.cons_append, List.nil_append, List.cons.injEq] at h
          obtain ⟨rfl, rfl, h⟩ := h
          refine ih r.length hshort r (lag ++ [x', y']) (by simpa using hlag) (fun z hz => ?_) rfl ?_
          · apply hplain
            simp only [List.mem_append, List.mem_cons] at hz ⊢
            tauto
          · rw [List.append_assoc]
            exact h

theorem scan_congr (h : ∀ t, t <:+ s → numeral t = escape t) (k : ℕ) : scan numeral k s = scan escape k s := by
  induction s generalizing k with
  | nil => rw [scan, scan]
  | cons c s ih =>
    have ih' := ih fun t ht => h t (ht.trans (List.suffix_cons c s))
    cases k with
    | zero =>
      rw [scan, scan, h (c :: s) (List.suffix_refl _), ih' 5, ih' 0]
    | succ k => exact ih' k

theorem agree_append (hw : ∀ x ∈ w, x ≠ 92) (hr : ∀ t, t <:+ r → numeral t = escape t) :
    ∀ t, t <:+ w ++ r → numeral t = escape t := by
  induction w with
  | nil => exact hr
  | cons c w ih =>
    intro t ht
    rcases List.suffix_cons_iff.mp ht with rfl | ht
    · have hc := hw c (by simp)
      rw [escapes_numeral.none_of_ne hc, escapes_escape.none_of_ne hc]
    · exact ih (fun x hx => hw x (by simp [hx])) t ht

theorem agree_of_scan_eq (hs : scan numeral 0 s = scan escape 0 s) : ∀ t, t <:+ s → numeral t = escape t := by
  induction hlen : s.length using Nat.strong_induction_on generalizing s with
  | _ n ih =>
    intro t ht
    cases s with
    | nil =>
      obtain rfl := List.suffix_nil.mp ht
      rfl
    | cons c s =>
      cases he : escape (c :: s) with
      | none =>
        cases hn : numeral (c :: s) with
        | none =>
          rw [scan_none he, scan_none hn, List.cons.injEq] at hs
          rcases List.suffix_cons_iff.mp ht with rfl | ht
          · rw [he, hn]
          · exact ih s.length (by simp [← hlen]) hs.2 rfl t ht
        | some bytes =>
          -- the code replaces what is not an escape
          obtain ⟨w, r, hcs, hw, -, hno, hne⟩ := numeral_only he hn
          obtain ⟨x, y, rfl⟩ := escapes_numeral.bytes _ _ hn
          rw [hcs] at he hn hs
          rw [escapes_escape.scan_kept w r he hno, scan_some hn hw] at hs
          simp only [List.cons_append, List.cons.injEq] at hs
          rw [hs.1, hs.2.1] at hne
          exact absurd rfl hne
      | some bytes =>
        obtain ⟨w, r, hcs, hw, hx, -⟩ := escape_shape he
        have hkeep : ∀ x ∈ w, x ≠ 92 := fun x hm => (isHex_other x (hx x hm)).2.2.2.2.2.1
        have hshort : r.length < n := by
          have hl := congrArg List.length hcs
          rw [hlen] at hl
          simp only [List.length_cons, List.length_append] at hl
          omega
        rw [hcs] at he hs ht
        rw [scan_some he hw] at hs
        cases hn : numeral (92 :: 117 :: (w ++ r)) with
        | none =>
          -- the code leaves an escape as it is
          obtain ⟨x, y, rfl⟩ := escapes_escape.bytes _ _ he
          rw [escapes_numeral.scan_kept w r hn hkeep] at hs
          simp only [List.cons_append, List.nil_append, List.cons.injEq] at hs
          exact absurd hs.2.2.symm (scan_lags r w hw.ge fun x hm => Or.inl (hx x hm))
        | some bytes' =>
          obtain rfl := numeral_eq_escape he hn
          rw [scan_some hn hw, List.append_cancel_left_eq] at hs
          rcases List.suffix_cons_iff.mp ht with rfl | ht
          · rw [he, hn]
          refine @agree_append (117 :: w) r (fun x hm => ?_) (ih r.length hshort hs rfl) t ht
          rcases List.mem_cons.mp hm with rfl | hm
          · decide
          · exact hkeep x hm

/-! The loop -/

theorem numeral_short (h : s.length < 6) : numeral s = none := by
  cases hn : numeral s with
  | none => rfl
  | some bytes =>
    obtain ⟨w, r, rfl, hw, -⟩ := numeral_shape hn
    simp only [List.length_cons, List.length_append] at h
    omega

theorem scan_short (h : s.length < 6) : scan numeral 0 s = s := by
  induction s with
  | nil => rfl
  | cons c s ih =>
    rw [scan_none (numeral_short h), ih (Nat.lt_of_succ_lt h)]

theorem load_append (a r : List UInt8) (c : UInt8) : load (a ++ c :: r) a.length = .ok c := by
  simp [load]

/-- What the code does at an escape: the two bytes, then the rest of the string moved up by
four, then the NUL. -/
theorem shift_ok (out w r junk : List UInt8) (v : ℤ) (hw : w.length = 4) :
    ∃ buf₁ buf₂ junk', store (out ++ (92 :: 117 :: (w ++ r) ++ 0 :: junk)) out.length (le16 v) = .ok buf₁ ∧
      store buf₁ (out.length + 2) ((buf₁.drop (out.length + 6)).take r.length) = .ok buf₂ ∧
      store buf₂ (out.length + 2 + r.length) [0] = .ok (out ++ le16 v ++ (r ++ 0 :: junk')) := by
  obtain ⟨x, y, hxy⟩ := le16_two v
  rw [hxy]
  have h₁ : store (out ++ (92 :: 117 :: (w ++ r) ++ 0 :: junk)) out.length [x, y] =
      .ok (out ++ [x, y] ++ (w ++ (r ++ 0 :: junk))) := by
    rw [store_append rfl (by simp)]
    simp
  have hdrop : (out ++ [x, y] ++ (w ++ (r ++ 0 :: junk))).drop (out.length + 6) = r ++ 0 :: junk := by
    rw [show out.length + 6 = (out ++ [x, y]).length + w.length by simp [hw], ← List.drop_drop, List.drop_left, List.drop_left]
  have hroom : r.length ≤ (w ++ (r ++ 0 :: junk)).length := by
    simp only [List.length_append]
    omega
  have h₂ : store (out ++ [x, y] ++ (w ++ (r ++ 0 :: junk))) (out.length + 2)
      (((out ++ [x, y] ++ (w ++ (r ++ 0 :: junk))).drop (out.length + 6)).take r.length) =
      .ok (out ++ [x, y] ++ r ++ (w ++ (r ++ 0 :: junk)).drop r.length) := by
    rw [hdrop, List.take_left]
    exact store_append (by simp) hroom
  have h₃ : store (out ++ [x, y] ++ r ++ (w ++ (r ++ 0 :: junk)).drop r.length) (out.length + 2 + r.length) [0] =
      .ok (out ++ [x, y] ++ r ++ [0] ++ ((w ++ (r ++ 0 :: junk)).drop r.length).drop 1) := by
    refine store_append (by simp; omega) ?_
    simp only [List.length_drop, List.length_append, List.length_cons, List.length_nil]
    omega
  refine ⟨_, _, ((w ++ (r ++ 0 :: junk)).drop r.length).drop 1, h₁, h₂, ?_⟩
  rw [h₃]
  simp

theorem parseULoop_ok (rounds : ℕ) (out rest junk : List UInt8) (hr : rest.length < rounds) :
    ∃ junk', parseULoop rounds (out ++ (rest ++ 0 :: junk)) out.length ((out.length + rest.length : ℕ) : ℤ) =
      .ok (out ++ (scan numeral 0 rest ++ 0 :: junk'), ((out.length + (scan numeral 0 rest).length : ℕ) : ℤ)) := by
  induction rounds generalizing out rest junk with
  | zero => omega
  | succ rounds ih =>
    rw [parseULoop]
    by_cases hlen : rest.length < 6
    · rw [if_neg (by omega), scan_short hlen]
      exact ⟨junk, rfl⟩
    · rw [if_pos (by omega)]
      obtain ⟨c, u, w, rfl⟩ : ∃ c u w, rest = c :: u :: w := by
        rcases rest with _ | ⟨c, _ | ⟨u, w⟩⟩
        · simp at hlen
        · simp at hlen
        · exact ⟨c, u, w, rfl⟩
      have hload : load (out ++ (c :: u :: w ++ 0 :: junk)) out.length = .ok c := load_append out _ c
      have hload' : load (out ++ (c :: u :: w ++ 0 :: junk)) (out.length + 1) = .ok u := by
        have h := load_append (out ++ [c]) (w ++ 0 :: junk) u
        rw [List.length_append, List.append_assoc] at h
        exact h
      have hdrop : (out ++ (c :: u :: w ++ 0 :: junk)).drop (out.length + 2) = w ++ 0 :: junk := by
        rw [← List.drop_drop, List.drop_left]
        rfl
      rw [hload, except_ok_bind, hload', except_ok_bind, hdrop, strtol16_nul]
      by_cases hc : c = 92 ∧ u = 117 ∧ (strtol16 w).2 = 4
      · obtain ⟨rfl, rfl, h4⟩ := hc
        rw [if_pos ⟨rfl, rfl, h4⟩]
        have hw : (w.take 4).length = 4 := by simpa using hlen
        have hn : numeral (92 :: 117 :: (w.take 4 ++ w.drop 4)) = some (le16 (strtol16 w).1) := by
          rw [List.take_append_drop, numeral, if_pos ⟨rfl, rfl, by simpa using hlen, h4⟩]
        have hscan := scan_some hn hw
        obtain ⟨buf₁, buf₂, junk₁, h₁, h₂, h₃⟩ := shift_ok out (w.take 4) (w.drop 4) junk (strtol16 w).1 hw
        rw [List.take_append_drop] at hscan h₁
        have hmove : (((out.length + (92 :: 117 :: w).length : ℕ) : ℤ) - out.length - 6).toNat = (w.drop 4).length := by
          simp only [List.length_cons, List.length_drop]
          omega
        have hnul : (((out.length + (92 :: 117 :: w).length : ℕ) : ℤ) - 4).toNat = out.length + 2 + (w.drop 4).length := by
          simp only [List.length_cons, List.length_drop] at hlen ⊢
          omega
        have hnext : ((out.length + (92 :: 117 :: w).length : ℕ) : ℤ) - 4 =
            (((out ++ le16 (strtol16 w).1).length + (w.drop 4).length : ℕ) : ℤ) := by
          rw [List.length_append, show (le16 (strtol16 w).1).length = 2 from rfl]
          simp only [List.length_cons, List.length_drop] at hlen ⊢
          omega
        rw [h₁, except_ok_bind, hmove, h₂, except_ok_bind, hnul, h₃, except_ok_bind, hnext]
        obtain ⟨junk', hrun⟩ := ih (out ++ le16 (strtol16 w).1) (w.drop 4) junk₁ (by
          simp only [List.length_cons, List.length_drop] at hr ⊢
          omega)
        refine ⟨junk', ?_⟩
        rw [List.length_append, show (le16 (strtol16 w).1).length = 2 from rfl] at hrun ⊢
        rw [hrun, hscan, List.length_append, show (le16 (strtol16 w).1).length = 2 from rfl, List.append_assoc,
          List.append_assoc, Nat.add_assoc]
      · have hn : numeral (c :: u :: w) = none := by
          rw [numeral, if_neg fun h => hc ⟨h.1, h.2.1, h.2.2.2⟩]
        rw [if_neg hc]
        obtain ⟨junk', hrun⟩ := ih (out ++ [c]) (u :: w) junk (Nat.lt_of_succ_lt_succ hr)
        refine ⟨junk', ?_⟩
        rw [List.length_append, List.append_assoc, List.append_assoc, Nat.add_assoc, Nat.add_assoc,
          Nat.add_comm [c].length, Nat.add_comm [c].length] at hrun
        rw [scan_none hn]
        exact hrun

theorem parseULoop_le {rounds i : ℕ} {buf buf' : List UInt8} {len len' : ℤ}
    (h : parseULoop rounds buf i len = .ok (buf', len')) : len' ≤ len := by
  induction rounds generalizing buf i len with
  | zero => cases h
  | succ rounds ih =>
    rw [parseULoop] at h
    split_ifs at h with hle
    · obtain ⟨c, -, h⟩ := except_bind_ok h
      obtain ⟨u, -, h⟩ := except_bind_ok h
      split_ifs at h with hc
      · obtain ⟨buf₁, -, h⟩ := except_bind_ok h
        obtain ⟨buf₂, -, h⟩ := except_bind_ok h
        obtain ⟨buf₃, -, h⟩ := except_bind_ok h
        exact (ih h).trans (by omega)
      · exact ih h
    · obtain ⟨rfl, rfl⟩ := Prod.mk.inj (Except.ok.inj h)
      exact le_rfl

/-! The result -/

/-- The escapes of `s` are decoded in place: the block of the `kstring_t` comes to hold the decoded
string with a NUL behind it, and `l` is its length. -/
def ParsesU (s : List UInt8) : Prop :=
  ∀ junk m, ∃ ks junk', kstrParseU ⟨some (s ++ 0 :: junk), s.length, m⟩ = .ok ks ∧
    ks.s = some (decodeU s ++ 0 :: junk') ∧ ks.l = (decodeU s).length

/-- Wherever four bytes follow a backslash and `u`, they are four digits if and only if
`strtol` reads exactly these four. -/
def Unambiguous (s : List UInt8) : Prop :=
  ∀ w, 92 :: 117 :: w <:+ s → 4 ≤ w.length → ((strtol16 w).2 = 4 ↔ ∀ x ∈ w.take 4, isHex x = true)

theorem unambiguous_iff : Unambiguous s ↔ ∀ t, t <:+ s → numeral t = escape t := by
  constructor
  · intro h t ht
    cases he : escape t with
    | none =>
      cases hn : numeral t with
      | none => rfl
      | some bytes =>
        obtain ⟨w, r, rfl, hw, h4, -⟩ := numeral_shape hn
        have hlen : 4 ≤ (w ++ r).length := by rw [List.length_append]; omega
        rw [escape, if_pos ⟨rfl, rfl, hlen, List.all_eq_true.mpr ((h _ ht hlen).mp h4)⟩] at he
        cases he
    | some bytes =>
      cases hn : numeral t with
      | none =>
        obtain ⟨w, r, rfl, hw, hx, -⟩ := escape_shape he
        have hlen : 4 ≤ (w ++ r).length := by rw [List.length_append]; omega
        have htake : (w ++ r).take 4 = w := by rw [← hw, List.take_left]
        rw [numeral, if_pos ⟨rfl, rfl, hlen, (h _ ht hlen).mpr (by rwa [htake])⟩] at hn
        cases hn
      | some bytes' => rw [numeral_eq_escape he hn]
  · intro h w ht hlen
    have heq := h _ ht
    rw [numeral, escape] at heq
    split_ifs at heq with hn he he
    · exact ⟨fun _ => List.all_eq_true.mp he.2.2.2, fun _ => hn.2.2.2⟩
    · exact ⟨fun h4 => absurd ⟨rfl, rfl, hlen, h4⟩ hn, fun hx => absurd ⟨rfl, rfl, hlen, List.all_eq_true.mpr hx⟩ he⟩

theorem kstrParseU_ok (s junk : List UInt8) (m : ℕ) (h : s.length < 2 ^ 31) :
    ∃ junk', kstrParseU ⟨some (s ++ 0 :: junk), s.length, m⟩ =
      .ok ⟨some (scan numeral 0 s ++ 0 :: junk'), (scan numeral 0 s).length, m⟩ := by
  obtain ⟨junk', hrun⟩ := parseULoop_ok (s.length + 1) [] s junk (Nat.lt_succ_self _)
  simp only [List.nil_append, List.length_nil, Nat.zero_add] at hrun
  have hstore : store (scan numeral 0 s ++ 0 :: junk') (scan numeral 0 s).length [0] =
      .ok (scan numeral 0 s ++ 0 :: junk') := by
    rw [store_append rfl (by simp)]
    simp
  refine ⟨junk', ?_⟩
  unfold kstrParseU
  simp only [toInt_of_lt h, hrun, except_ok_bind]
  rw [if_neg (by omega), Int.toNat_natCast, hstore]
  rfl

theorem length_decodeU (s : List UInt8) : s.length ≤ 3 * (decodeU s).length := by
  unfold decodeU
  induction hlen : s.length using Nat.strong_induction_on generalizing s with
  | _ n ih =>
    cases s with
    | nil => simp at hlen; omega
    | cons c s =>
      cases he : escape (c :: s) with
      | none =>
        have := ih s.length (by simp [← hlen]) s rfl
        rw [scan_none he, List.length_cons]
        simp only [List.length_cons] at hlen
        omega
      | some bytes =>
        obtain ⟨w, r, hcs, hw, -, -⟩ := escape_shape he
        obtain ⟨x, y, rfl⟩ := escapes_escape.bytes _ _ he
        rw [hcs] at he hlen ⊢
        simp only [List.length_cons, List.length_append] at hlen
        have := ih r.length (by omega) r rfl
        rw [scan_some he hw, List.length_append, show [x, y].length = 2 from rfl]
        omega

/-- A string whose length `int` cannot hold is cut, or its end is looked for before its start. -/
theorem not_parsesU_of_long (h : ¬ s.length < 2 ^ 31) : ¬ ParsesU s := by
  intro hp
  obtain ⟨ks, junk', hok, -, hl⟩ := hp [] 0
  unfold kstrParseU at hok
  simp only at hok
  obtain ⟨⟨buf, len⟩, hloop, hok⟩ := except_bind_ok hok
  have hle := parseULoop_le hloop
  simp only at hok
  split_ifs at hok with hneg
  obtain ⟨buf', -, hok⟩ := except_bind_ok hok
  obtain rfl := Except.ok.inj hok
  have hthird := length_decodeU s
  rw [← show len.toNat = (decodeU s).length from hl] at hthird
  have hmod : toInt s.length < 2 ^ 31 ∧ toInt s.length ≤ s.length - 2 ^ 32 := by
    unfold toInt
    rw [Int.bmod_def]
    split_ifs <;> omega
  omega

/-- `kstr_parse_u` decodes a string if and only if `int` can hold its length and `strtol` reads
nothing but the four digits of its escapes. -/
theorem parse_u_decodes (s : List UInt8) : ParsesU s ↔ s.length < 2 ^ 31 ∧ Unambiguous s := by
  constructor
  · intro hp
    have hlen : s.length < 2 ^ 31 := by
      by_contra hlong
      exact not_parsesU_of_long hlong hp
    refine ⟨hlen, unambiguous_iff.mpr (agree_of_scan_eq ?_)⟩
    obtain ⟨ks, junk', hok, hs, hl⟩ := hp [] 0
    obtain ⟨junk'', hok'⟩ := kstrParseU_ok s [] 0 hlen
    rw [hok'] at hok
    obtain rfl := Except.ok.inj hok
    exact (List.append_inj (Option.some_inj.mp hs) hl).1
  · rintro ⟨hlen, hu⟩ junk m
    obtain ⟨junk', hok⟩ := kstrParseU_ok s junk m hlen
    have hscan : scan numeral 0 s = decodeU s := scan_congr (unambiguous_iff.mp hu) 0
    rw [hscan] at hok
    exact ⟨_, junk', hok, rfl, rfl⟩

set_option maxRecDepth 20000 in
/-- A fifth digit behind the escape for `A`: it is left as it is. A blank, a minus sign and
two digits: they are taken for an escape. -/
theorem parse_u_misreads :
    kstrParseU ⟨some [92, 117, 48, 48, 52, 49, 49, 0], 7, 8⟩ = .ok ⟨some [92, 117, 48, 48, 52, 49, 49, 0], 7, 8⟩ ∧
      decodeU [92, 117, 48, 48, 52, 49, 49] = [65, 0, 49] ∧ ¬ ParsesU [92, 117, 48, 48, 52, 49, 49] ∧
      kstrParseU ⟨some [92, 117, 32, 45, 49, 102, 0], 6, 7⟩ = .ok ⟨some [225, 255, 0, 45, 49, 102, 0], 2, 7⟩ ∧
      decodeU [92, 117, 32, 45, 49, 102] = [92, 117, 32, 45, 49, 102] := by
  have hrun : kstrParseU ⟨some [92, 117, 48, 48, 52, 49, 49, 0], 7, 8⟩ =
      .ok ⟨some [92, 117, 48, 48, 52, 49, 49, 0], 7, 8⟩ := by decide
  have hdecode : decodeU [92, 117, 48, 48, 52, 49, 49] = [65, 0, 49] := by decide
  refine ⟨hrun, hdecode, fun hp => ?_, by decide, by decide⟩
  obtain ⟨ks, junk', hok, -, hl⟩ := hp [] 8
  obtain rfl := Except.ok.inj (hrun.symm.trans hok)
  rw [hdecode] at hl
  exact absurd hl (by decide)

end Kstring
end Lthr

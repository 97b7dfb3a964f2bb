import Lthread.Lib.Machine
import Lthread.Spec.Cdns

/-! What a DNS response is made of: names, which `parse_dns_name` comes to the end of just when
they are there, and fields, which are put into the byte order of the host. -/

namespace Lthr.Cdns

variable {d d' : Datagram} {o z e n : ℕ} {bigEndian : Bool}

theorem bind_rounds {α β : Type} {x : Except Fault α} {f : α → Except Fault β} (hx : x ≠ .error .rounds)
    (hf : ∀ a, x = .ok a → f a ≠ .error .rounds) : (x >>= f) ≠ .error .rounds := by
  cases x with
  | error e =>
    intro h
    apply hx
    cases h
    rfl
  | ok a => exact hf a rfl

/-! Single bytes -/

theorem byte_ok {b : UInt8} : byte d o = .ok b ↔ d[o]? = some b := by
  unfold byte
  cases d[o]? <;> simp

theorem byte_lt {b : UInt8} (h : byte d o = .ok b) : o < d.length :=
  (List.getElem?_eq_some_iff.mp (byte_ok.mp h)).1

theorem byte_rounds (d : Datagram) (o : ℕ) : byte d o ≠ .error .rounds := by
  unfold byte
  cases d[o]? <;> simp

/-! Names -/

theorem followed_rounds {rounds len : ℕ} (h : d.length < o + rounds) (hr : 0 < rounds) :
    parseDnsNameLoop d rounds o true len ≠ .error .rounds := by
  induction rounds generalizing o with
  | zero => omega
  | succ rounds ih =>
    apply bind_rounds (byte_rounds d o)
    intro b hb
    have hlt := byte_lt hb
    simp only [Bool.true_eq_false, false_and, if_false, if_true]
    split_ifs
    · simp
    · apply ih <;> omega

theorem loop_rounds {rounds len : ℕ} (h : 2 * d.length + 2 ≤ o + rounds) (hr : 0 < rounds) :
    parseDnsNameLoop d rounds o false len ≠ .error .rounds := by
  induction rounds generalizing o len with
  | zero => omega
  | succ rounds ih =>
    apply bind_rounds (byte_rounds d o)
    intro b hb
    have hlt := byte_lt hb
    simp only [Bool.false_eq_true, if_false]
    split_ifs
    · simp
    · apply followed_rounds <;> omega
    · apply ih <;> omega

theorem parseDnsName_rounds (d : Datagram) (o : ℕ) : parseDnsName d o ≠ .error .rounds :=
  loop_rounds (by omega) (by omega)

/-- The labels from `o` on end with the empty label at `z`. -/
inductive Labels (d : Datagram) : ℕ → ℕ → Prop
  | root {o : ℕ} (h : d[o]? = some 0) : Labels d o o
  | label {o z : ℕ} {b : UInt8} (h : d[o]? = some b) (hb : b ≠ 0) (hl : Labels d (o + (b.toNat + 1)) z) : Labels d o z

/-- The name at `o` ends before `e`. It may end with a pointer, which leads to labels. The code
takes six bits of the first byte of a pointer, counted from the end of the header. -/
inductive NameAt (d : Datagram) : ℕ → ℕ → Prop
  | root {o : ℕ} (h : d[o]? = some 0) : NameAt d o (o + 1)
  | pointer {o z : ℕ} {b : UInt8} (h : d[o]? = some b) (hb : b &&& 0xC0 = 0xC0)
    (hl : Labels d (querySize + (b &&& 0x3F).toNat) z) : NameAt d o (o + 2)
  | label {o e : ℕ} {b : UInt8} (h : d[o]? = some b) (hb : b ≠ 0) (hb' : b &&& 0xC0 ≠ 0xC0)
    (hn : NameAt d (o + (b.toNat + 1)) e) : NameAt d o e

theorem Labels.le (h : Labels d o z) : o ≤ z := by
  induction h with
  | root h => exact le_rfl
  | label h hb hl ih => omega

theorem NameAt.lt (h : NameAt d o e) : o < e := by
  induction h with
  | root h => omega
  | pointer h hb hl => omega
  | label h hb hb' hn ih => omega

theorem Labels.congr (h : Labels d o z) (hd : ∀ i, o ≤ i → i ≤ z → d'[i]? = d[i]?) : Labels d' o z := by
  induction h with
  | root h => exact Labels.root ((hd _ le_rfl le_rfl).trans h)
  | label h hb hl ih =>
    have hle := hl.le
    exact Labels.label ((hd _ le_rfl (by omega)).trans h) hb (ih fun i hi => hd i (by omega))

/-- Names do not look at the header. -/
theorem NameAt.congr (h : NameAt d o e) (ho : querySize ≤ o) (hd : ∀ i, querySize ≤ i → d'[i]? = d[i]?) : NameAt d' o e := by
  induction h with
  | root h => exact NameAt.root ((hd _ ho).trans h)
  | pointer h hb hl => exact NameAt.pointer ((hd _ ho).trans h) hb (hl.congr fun i hi _ => hd i (by omega))
  | label h hb hb' hn ih => exact NameAt.label ((hd _ ho).trans h) hb hb' (ih (by omega))

/-! One round of `parse_dns_name`, by the byte it reads -/

theorem loop_root (h : d[o]? = some 0) (rounds len : ℕ) (followed : Bool) :
    parseDnsNameLoop d (rounds + 1) o followed len = .ok len := by
  rw [parseDnsNameLoop, byte_ok.mpr h]
  rfl

theorem loop_followed {b : UInt8} (h : d[o]? = some b) (hb : b ≠ 0) (rounds len : ℕ) :
    parseDnsNameLoop d (rounds + 1) o true len = parseDnsNameLoop d rounds (o + (b.toNat + 1)) true len := by
  rw [parseDnsNameLoop, byte_ok.mpr h]
  change (if b = 0 then _ else _) = _
  simp [hb]

theorem loop_pointer {b : UInt8} (h : d[o]? = some b) (hb : b &&& 0xC0 = 0xC0) (rounds len : ℕ) :
    parseDnsNameLoop d (rounds + 1) o false len =
      parseDnsNameLoop d rounds (querySize + (b &&& 0x3F).toNat) true (len + 1) := by
  have hne : b ≠ 0 := by
    rintro rfl
    exact absurd hb (by decide)
  rw [parseDnsNameLoop, byte_ok.mpr h]
  change (if b = 0 then _ else _) = _
  simp [hne, hb]

theorem loop_label {b : UInt8} (h : d[o]? = some b) (hb : b ≠ 0) (hb' : b &&& 0xC0 ≠ 0xC0) (rounds len : ℕ) :
    parseDnsNameLoop d (rounds + 1) o false len =
      parseDnsNameLoop d rounds (o + (b.toNat + 1)) false (len + (b.toNat + 1)) := by
  rw [parseDnsNameLoop, byte_ok.mpr h]
  change (if b = 0 then _ else _) = _
  simp [hb, hb']

theorem Labels.loop (h : Labels d o z) (rounds len : ℕ) :
    parseDnsNameLoop d rounds o true len = .ok len ∨ parseDnsNameLoop d rounds o true len = .error .rounds := by
  induction h generalizing rounds with
  | root h =>
    cases rounds with
    | zero => exact Or.inr rfl
    | succ rounds => exact Or.inl (loop_root h rounds len true)
  | label h hb hl ih =>
    cases rounds with
    | zero => exact Or.inr rfl
    | succ rounds =>
      rw [loop_followed h hb]
      exact ih rounds

theorem NameAt.loop (h : NameAt d o e) (rounds len : ℕ) :
    parseDnsNameLoop d rounds o false len = .ok (len + (e - (o + 1))) ∨
      parseDnsNameLoop d rounds o false len = .error .rounds := by
  induction h generalizing rounds len with
  | root h =>
    cases rounds with
    | zero => exact Or.inr rfl
    | succ rounds =>
      rw [Nat.sub_self]
      exact Or.inl (loop_root h rounds len false)
  | @pointer o z b h hb hl =>
    cases rounds with
    | zero => exact Or.inr rfl
    | succ rounds =>
      have hlen : o + 2 - (o + 1) = 1 := by omega
      rw [loop_pointer h hb, hlen]
      exact hl.loop rounds (len + 1)
  | @label o e b h hb hb' hn ih =>
    cases rounds with
    | zero => exact Or.inr rfl
    | succ rounds =>
      have hlt := hn.lt
      have hlen : len + (e - (o + 1)) = len + (b.toNat + 1) + (e - (o + (b.toNat + 1) + 1)) := by omega
      rw [loop_label h hb hb', hlen]
      exact ih rounds _

theorem label_byte {b : UInt8} (h : b.toNat ≤ 63) : b &&& 0xC0 ≠ 0xC0 := by
  have hall : ∀ n < 64, UInt8.ofNat n &&& 0xC0 ≠ 0xC0 := by decide
  have hb := hall b.toNat (by omega)
  rwa [UInt8.ofNat_toNat] at hb

theorem NameAt.parse (h : NameAt d o e) : parseDnsName d o = .ok (e - o) := by
  have hlt := h.lt
  have hlen : 1 + (e - (o + 1)) = e - o := by omega
  rcases h.loop (2 * d.length + 3) 1 with hok | herr
  · rw [parseDnsName, hok, hlen]
  · exact absurd herr (parseDnsName_rounds d o)

theorem labels_of_loop {rounds len r : ℕ} (h : parseDnsNameLoop d rounds o true len = .ok r) : ∃ z, Labels d o z := by
  induction rounds generalizing o with
  | zero => cases h
  | succ rounds ih =>
    obtain ⟨b, hb, -⟩ := except_bind_ok h
    by_cases h0 : b = 0
    · subst h0
      exact ⟨o, Labels.root (byte_ok.mp hb)⟩
    · rw [loop_followed (byte_ok.mp hb) h0] at h
      obtain ⟨z, hz⟩ := ih h
      exact ⟨z, Labels.label (byte_ok.mp hb) h0 hz⟩

theorem nameAt_of_loop {rounds len r : ℕ} (h : parseDnsNameLoop d rounds o false len = .ok r) : ∃ e, NameAt d o e := by
  induction rounds generalizing o len with
  | zero => cases h
  | succ rounds ih =>
    obtain ⟨b, hb, -⟩ := except_bind_ok h
    have hbyte := byte_ok.mp hb
    by_cases h0 : b = 0
    · subst h0
      exact ⟨_, NameAt.root hbyte⟩
    · by_cases hp : b &&& 0xC0 = 0xC0
      · rw [loop_pointer hbyte hp] at h
        obtain ⟨z, hz⟩ := labels_of_loop h
        exact ⟨_, NameAt.pointer hbyte hp hz⟩
      · rw [loop_label hbyte h0 hp] at h
        obtain ⟨e, he⟩ := ih h
        exact ⟨e, NameAt.label hbyte h0 hp he⟩

/-- `parse_dns_name` comes to an end inside the datagram just when there is a name. -/
theorem parseDnsName_ok {len : ℕ} : parseDnsName d o = .ok len ↔ NameAt d o (o + len) := by
  constructor
  · intro h
    obtain ⟨e, he⟩ := nameAt_of_loop h
    have hlt := he.lt
    have hlen : len = e - o := Except.ok.inj (h.symm.trans he.parse)
    rwa [show o + len = e by omega]
  · intro h
    rw [h.parse, Nat.add_sub_cancel_left]

/-! Byte order -/

def word (d : Datagram) (o : ℕ) : ℕ := (d.getD o 0).toNat * 256 + (d.getD (o + 1) 0).toNat

theorem getD_some (h : o < d.length) : d[o]? = some (d.getD o 0) := by
  simp [List.getD_eq_getElem?_getD, h]

theorem byte_getD (h : o < d.length) : byte d o = .ok (d.getD o 0) := byte_ok.mpr (getD_some h)

theorem load16_big (h : o + 1 < d.length) : load16 true d o = .ok (word d o) := by
  unfold load16
  rw [byte_getD (by omega : o < d.length), byte_getD h]
  rfl

theorem load16_little (h1 : d'[o]? = d[o + 1]?) (h2 : d'[o + 1]? = d[o]?) (h : o + 1 < d.length) :
    load16 false d' o = .ok (word d o) := by
  unfold load16
  rw [byte_ok.mpr (h1.trans (getD_some h)), byte_ok.mpr (h2.trans (getD_some (by omega : o < d.length)))]
  rfl

theorem swap_ok {i j : ℕ} (hi : i < d.length) (hj : j < d.length) :
    ∃ d', swap d i j = .ok d' ∧ d'.length = d.length ∧ ∀ k, d'[k]? = d[Equiv.swap i j k]? := by
  refine ⟨(d.set i (d.getD j 0)).set j (d.getD i 0), ?_, by simp, fun k => ?_⟩
  · unfold swap
    rw [byte_getD hi, byte_getD hj]
    rfl
  · rcases eq_or_ne k j with rfl | hkj
    · rw [List.getElem?_set_self (by simpa using hj), Equiv.swap_apply_right, getD_some hi]
    · rw [List.getElem?_set_ne hkj.symm]
      rcases eq_or_ne k i with rfl | hki
      · rw [List.getElem?_set_self hi, Equiv.swap_apply_left, getD_some hj]
      · rw [List.getElem?_set_ne hki.symm, Equiv.swap_apply_of_ne_of_ne hki hkj]

theorem swab_ok (h : o + 2 * n ≤ d.length) : ∃ d', swab d o n = .ok d' ∧ d'.length = d.length ∧
    (∀ k, k < o ∨ o + 2 * n ≤ k → d'[k]? = d[k]?) ∧
    ∀ w < n, d'[o + 2 * w]? = d[o + 2 * w + 1]? ∧ d'[o + 2 * w + 1]? = d[o + 2 * w]? := by
  induction n generalizing d o with
  | zero => exact ⟨d, rfl, rfl, fun _ _ => rfl, fun w hw => absurd hw (by omega)⟩
  | succ n ih =>
    obtain ⟨d₁, h1, hlen, hget⟩ := swap_ok (d := d) (i := o) (j := o + 1) (by omega) (by omega)
    obtain ⟨d₂, h2, hlen₂, hout, hin⟩ := ih (d := d₁) (o := o + 2) (by omega)
    have hk (k : ℕ) (h0 : k ≠ o) (h1 : k ≠ o + 1) : d₁[k]? = d[k]? := by
      rw [hget, Equiv.swap_apply_of_ne_of_ne h0 h1]
    refine ⟨d₂, ?_, hlen₂.trans hlen, fun k hk' => ?_, fun w hw => ?_⟩
    · rw [swab, h1]
      exact h2
    · rw [hout k (by omega), hk k (by omega) (by omega)]
    · cases w with
      | zero =>
        rw [Nat.mul_zero, Nat.add_zero, hout o (by omega), hout (o + 1) (by omega), hget, hget, Equiv.swap_apply_left,
          Equiv.swap_apply_right]
        exact ⟨rfl, rfl⟩
      | succ w =>
        obtain ⟨ha, hb⟩ := hin w (by omega)
        have heq : o + 2 * (w + 1) = o + 2 + 2 * w := by omega
        rw [heq, ha, hb]
        exact ⟨hk _ (by omega) (by omega), hk _ (by omega) (by omega)⟩

/-- Byte `j` of a `DNSAnswer` is this one when each of its fields is turned round. -/
def mirror (j : ℕ) : ℕ := [1, 0, 3, 2, 7, 6, 5, 4, 9, 8].getD j j

/-- The datagram with the fields of the answer at `o` in the byte order of the host. -/
def hostOrder (bigEndian : Bool) (d : Datagram) (o : ℕ) : Datagram :=
  if bigEndian then d else d.mapIdx fun k b => if k < o then b else d.getD (o + mirror (k - o)) b

theorem mirror_of_le {j : ℕ} (h : 10 ≤ j) : mirror j = j := by
  unfold mirror
  rw [List.getD_eq_getElem?_getD, List.getElem?_eq_none (by simpa using h), Option.getD_none]

theorem mirror_lt {j : ℕ} (h : j < 10) : mirror j < 10 := by
  have hall : ∀ j < 10, mirror j < 10 := by decide
  exact hall j h

@[simp] theorem length_hostOrder (bigEndian : Bool) (d : Datagram) (o : ℕ) : (hostOrder bigEndian d o).length = d.length := by
  unfold hostOrder
  split_ifs <;> simp

theorem hostOrder_out {k : ℕ} (h : k < o ∨ o + 10 ≤ k) : (hostOrder bigEndian d o)[k]? = d[k]? := by
  unfold hostOrder
  split_ifs
  · rfl
  · rw [List.getElem?_mapIdx]
    cases hk : d[k]? with
    | none => rfl
    | some b =>
      rcases h with h | h
      · simp [h]
      · have hmirror : o + mirror (k - o) = k := by
          rw [mirror_of_le (by omega)]
          omega
        simp [hmirror, List.getD_eq_getElem?_getD, hk]

theorem hostOrder_in {j : ℕ} (h : o + 10 ≤ d.length) (hj : j < 10) : (hostOrder false d o)[o + j]? = d[o + mirror j]? := by
  have hm := mirror_lt hj
  have hget : d[o + mirror j]? = some (d.getD (o + mirror j) 0) := getD_some (by omega)
  unfold hostOrder
  rw [if_neg (by simp), List.getElem?_mapIdx, getD_some (by omega : o + j < d.length), hget, Option.map_some,
    if_neg (by omega), Nat.add_sub_cancel_left, List.getD_eq_getElem?_getD, hget, Option.getD_some]

theorem hostOrder_congr (h : ∀ i, querySize ≤ i → d'[i]? = d[i]?) (ho : querySize ≤ o) :
    ∀ i, querySize ≤ i → (hostOrder bigEndian d' o)[i]? = (hostOrder bigEndian d o)[i]? := by
  intro i hi
  unfold hostOrder
  split_ifs
  · exact h i hi
  · simp [List.getElem?_mapIdx, List.getD_eq_getElem?_getD, h i hi, h (o + mirror (i - o)) (by omega)]

theorem swapAnswer_ok (bigEndian : Bool) (h : o + 10 ≤ d.length) :
    swapAnswer bigEndian d o = .ok (hostOrder bigEndian d o) := by
  cases bigEndian with
  | true => rfl
  | false =>
    obtain ⟨d₁, h1, l1, k1⟩ := swap_ok (d := d) (i := o) (j := o + 1) (by omega) (by omega)
    obtain ⟨d₂, h2, l2, k2⟩ := swap_ok (d := d₁) (i := o + 2) (j := o + 3) (by omega) (by omega)
    obtain ⟨d₃, h3, l3, k3⟩ := swap_ok (d := d₂) (i := o + 8) (j := o + 9) (by omega) (by omega)
    obtain ⟨d₄, h4, l4, k4⟩ := swap_ok (d := d₃) (i := o + 4) (j := o + 7) (by omega) (by omega)
    obtain ⟨d₅, h5, l5, k5⟩ := swap_ok (d := d₄) (i := o + 5) (j := o + 6) (by omega) (by omega)
    have hswaps : swapAnswer false d o = .ok d₅ := by
      unfold swapAnswer
      rw [if_neg (by simp), h1, except_ok_bind, h2, except_ok_bind, h3, except_ok_bind, h4, except_ok_bind, h5]
    rw [hswaps]
    refine congrArg _ (List.ext_getElem? fun k => ?_)
    rw [k5, k4, k3, k2, k1]
    by_cases hk : o ≤ k ∧ k < o + 10
    · obtain ⟨j, rfl⟩ := Nat.exists_eq_add_of_le hk.1
      rw [hostOrder_in h (by omega)]
      have hj : j < 10 := by omega
      interval_cases j <;> simp [Equiv.swap_apply_def, mirror]
    · rw [hostOrder_out (by omega)]
      have hfix (i j : ℕ) (hi : o ≤ i ∧ i < o + 10) (hj : o ≤ j ∧ j < o + 10) : Equiv.swap i j k = k :=
        Equiv.swap_apply_of_ne_of_ne (by omega) (by omega)
      rw [hfix _ _ (by omega) (by omega), hfix _ _ (by omega) (by omega), hfix _ _ (by omega) (by omega),
        hfix _ _ (by omega) (by omega), hfix _ _ (by omega) (by omega)]

theorem load16_hostOrder (bigEndian : Bool) {j : ℕ} (h : o + 10 ≤ d.length) (hj : j = 0 ∨ j = 2 ∨ j = 8) :
    load16 bigEndian (hostOrder bigEndian d o) (o + j) = .ok (word d (o + j)) := by
  cases bigEndian with
  | true =>
    change load16 true d (o + j) = _
    exact load16_big (by omega)
  | false =>
    have hfst := hostOrder_in (j := j) h (by omega)
    have hsnd := hostOrder_in (j := j + 1) h (by omega)
    apply load16_little _ _ (by omega)
    · rcases hj with rfl | rfl | rfl <;> exact hfst
    · rcases hj with rfl | rfl | rfl <;> exact hsnd

def answerAt (d : Datagram) (e : ℕ) : Answer := ⟨word d e, word d (e + 2), word d (e + 8)⟩

theorem readAnswer_ok (bigEndian : Bool) (h : o + 10 ≤ d.length) :
    readAnswer bigEndian d o = .ok (hostOrder bigEndian d o, answerAt d o) := by
  have h0 := load16_hostOrder bigEndian (j := 0) h (by omega)
  have h2 := load16_hostOrder bigEndian (j := 2) h (by omega)
  have h8 := load16_hostOrder bigEndian (j := 8) h (by omega)
  unfold readAnswer
  rw [swapAnswer_ok bigEndian h, except_ok_bind]
  simp only [Nat.add_zero] at h0
  simp only [h0, h2, h8, except_ok_bind]
  rfl

theorem load32_ok (bigEndian : Bool) (h : o + 4 ≤ d.length) : ∃ v, load32 bigEndian d o = .ok v := by
  have h16 (j : ℕ) (hj : j + 2 ≤ d.length) : ∃ v, load16 bigEndian d j = .ok v := by
    unfold load16
    rw [byte_getD (by omega : j < d.length), byte_getD (by omega : j + 1 < d.length)]
    exact ⟨_, rfl⟩
  obtain ⟨hi, h1⟩ := h16 o (by omega)
  obtain ⟨lo, h2⟩ := h16 (o + 2) (by omega)
  unfold load32
  rw [h1]
  change ∃ v, (load16 bigEndian d (o + 2) >>= _) = _
  rw [h2]
  exact ⟨_, rfl⟩

end Lthr.Cdns

import Lthread.Proofs.CdnsNames

/-! The walk over a DNS response: it always comes to an end, and it stays inside the
datagram just when the message is well formed. -/

namespace Lthr.Cdns

variable {d d' : Datagram} {o z e n : ℕ} {bigEndian : Bool}

/-! What is read is there -/

theorem load16_lt {v : ℕ} (h : load16 bigEndian d o = .ok v) : o + 1 < d.length := by
  obtain ⟨a, -, h⟩ := except_bind_ok h
  obtain ⟨b, hb, -⟩ := except_bind_ok h
  exact byte_lt hb

theorem load32_lt {v : ℕ} (h : load32 bigEndian d o = .ok v) : o + 3 < d.length := by
  obtain ⟨hi, -, h⟩ := except_bind_ok h
  obtain ⟨lo, hlo, -⟩ := except_bind_ok h
  exact load16_lt hlo

theorem swap_length {i j : ℕ} (h : swap d i j = .ok d') : j < d.length ∧ d'.length = d.length := by
  obtain ⟨a, -, h⟩ := except_bind_ok h
  obtain ⟨b, hb, h⟩ := except_bind_ok h
  obtain rfl := Except.ok.inj h
  exact ⟨byte_lt hb, by simp⟩

theorem swab_length (h : swab d o n = .ok d') (hn : 0 < n) : o + 2 * n ≤ d.length := by
  induction n generalizing d o with
  | zero => omega
  | succ n ih =>
    obtain ⟨d₁, h1, h⟩ := except_bind_ok h
    obtain ⟨hlt, hlen⟩ := swap_length h1
    rcases Nat.eq_zero_or_pos n with rfl | hpos
    · omega
    · have hrest := ih h hpos
      omega

theorem swapAnswer_length (h : swapAnswer bigEndian d o = .ok d') : d'.length = d.length := by
  unfold swapAnswer at h
  split_ifs at h
  · obtain rfl := Except.ok.inj h
    rfl
  · obtain ⟨d₁, h1, h⟩ := except_bind_ok h
    obtain ⟨d₂, h2, h⟩ := except_bind_ok h
    obtain ⟨d₃, h3, h⟩ := except_bind_ok h
    obtain ⟨d₄, h4, h⟩ := except_bind_ok h
    rw [(swap_length h).2, (swap_length h4).2, (swap_length h3).2, (swap_length h2).2, (swap_length h1).2]

theorem readAnswer_length {p : Datagram × Answer} (h : readAnswer bigEndian d o = .ok p) : o + 10 ≤ d.length := by
  obtain ⟨d₁, h1, h⟩ := except_bind_ok h
  obtain ⟨type, -, h⟩ := except_bind_ok h
  obtain ⟨cls, -, h⟩ := except_bind_ok h
  obtain ⟨rdlength, hr, -⟩ := except_bind_ok h
  have hlt := load16_lt hr
  rw [swapAnswer_length h1] at hlt
  omega

/-! The walk always ends -/

theorem swap_rounds (d : Datagram) (i j : ℕ) : swap d i j ≠ .error .rounds := by
  apply bind_rounds (byte_rounds d i)
  intro a _
  apply bind_rounds (byte_rounds d j)
  simp

theorem swab_rounds (d : Datagram) (o n : ℕ) : swab d o n ≠ .error .rounds := by
  induction n generalizing d o with
  | zero => simp [swab]
  | succ n ih => exact bind_rounds (swap_rounds d o (o + 1)) fun d' _ => ih d' (o + 2)

theorem load16_rounds (d : Datagram) (o : ℕ) : load16 bigEndian d o ≠ .error .rounds := by
  apply bind_rounds (byte_rounds d o)
  intro a _
  apply bind_rounds (byte_rounds d (o + 1))
  simp

theorem load32_rounds (d : Datagram) (o : ℕ) : load32 bigEndian d o ≠ .error .rounds := by
  apply bind_rounds (load16_rounds d o)
  intro a _
  apply bind_rounds (load16_rounds d (o + 2))
  simp

theorem skipQuestions_rounds (d : Datagram) (n o : ℕ) : skipQuestions d n o ≠ .error .rounds := by
  induction n generalizing o with
  | zero => simp [skipQuestions]
  | succ n ih => exact bind_rounds (parseDnsName_rounds d o) fun len _ => ih (o + (len + 4))

theorem swapAnswer_rounds (d : Datagram) (o : ℕ) : swapAnswer bigEndian d o ≠ .error .rounds := by
  unfold swapAnswer
  split_ifs
  · simp
  · refine bind_rounds (swap_rounds _ _ _) fun _ _ => bind_rounds (swap_rounds _ _ _) fun _ _ => ?_
    refine bind_rounds (swap_rounds _ _ _) fun _ _ => bind_rounds (swap_rounds _ _ _) fun _ _ => ?_
    exact swap_rounds _ _ _

theorem walkAnswers_rounds (n i : ℕ) (d : Datagram) (o : ℕ) : walkAnswers bigEndian n i d o ≠ .error .rounds := by
  induction n generalizing i d o with
  | zero => simp [walkAnswers]
  | succ n ih =>
    refine bind_rounds (parseDnsName_rounds d o) fun len _ => bind_rounds ?_ fun p _ => ?_
    · refine bind_rounds (swapAnswer_rounds _ _) fun d' _ => bind_rounds (load16_rounds _ _) fun type _ => ?_
      refine bind_rounds (load16_rounds _ _) fun cls _ => bind_rounds (load16_rounds _ _) fun rdlength _ => ?_
      simp
    · simp only
      split_ifs
      · apply bind_rounds (load32_rounds _ _)
        simp
      · exact ih (i + 1) p.1 _

theorem readResponse_rounds (bigEndian : Bool) (d : Datagram) : readResponse bigEndian d ≠ .error .rounds := by
  have hswab : swapQuery bigEndian d ≠ .error .rounds := by
    unfold swapQuery
    split_ifs
    · simp
    · exact swab_rounds d 0 6
  refine bind_rounds hswab fun d' _ => bind_rounds (load16_rounds _ _) fun flags _ => ?_
  split_ifs
  · refine bind_rounds (load16_rounds _ _) fun qd _ => bind_rounds (skipQuestions_rounds _ _ _) fun o _ => ?_
    refine bind_rounds (load16_rounds _ _) fun an _ => bind_rounds (walkAnswers_rounds _ _ _ _) fun p _ => ?_
    simp
  · simp

/-! Well-formed messages -/

/-- `n` questions stand from `o` on, and what follows them starts at `e`. -/
inductive Questions (d : Datagram) : ℕ → ℕ → ℕ → Prop
  | nil {o : ℕ} : Questions d 0 o o
  | cons {n o e e' : ℕ} (h : NameAt d o e) (ht : Questions d n (e + 4) e') : Questions d (n + 1) o e'

/-- Of the `n` answers from `o` on, `i` stand before the first address, and this is `v`; it is
0 if none is an address. The answers behind it need not be there. The fields of those before a
name are in the byte order of the host when the name is read, and a pointer may lead there. -/
inductive Answers (bigEndian : Bool) : Datagram → ℕ → ℕ → ℕ → ℕ → Prop
  | nil {d : Datagram} {o : ℕ} : Answers bigEndian d 0 o 0 0
  | other {d : Datagram} {n o e i v : ℕ} (h : NameAt d o e) (hr : e + 10 ≤ d.length)
    (ha : (answerAt d e).isAddress = false)
    (ht : Answers bigEndian (hostOrder bigEndian d e) n (e + 10 + (answerAt d e).rdlength) i v) :
    Answers bigEndian d (n + 1) o (i + 1) v
  | address {d : Datagram} {n o e v : ℕ} (h : NameAt d o e) (ha : (answerAt d e).isAddress = true)
    (hv : load32 bigEndian d (e + 10) = .ok v) : Answers bigEndian d (n + 1) o 0 v

/-- The bytes of the header that are read, or put into the byte order of the host. -/
def headerBytes (bigEndian : Bool) (d : Datagram) : ℕ :=
  if bigEndian then if flagsOk (word d 2) then 8 else 4 else querySize

/-- A good response with the questions and answers that its header announces. -/
structure Carries (bigEndian : Bool) (d : Datagram) (i v : ℕ) : Prop where
  header : headerBytes bigEndian d ≤ d.length
  flags : flagsOk (word d 2) = true
  body : ∃ q, Questions d (word d 4) querySize q ∧ Answers bigEndian d (word d 6) q i v

/-- The header is there, and so are the questions and the answers that it announces if its
flags are those of a good response. -/
def WellFormed (bigEndian : Bool) (d : Datagram) : Prop :=
  headerBytes bigEndian d ≤ d.length ∧ (flagsOk (word d 2) = true → ∃ i v, Carries bigEndian d i v)

theorem Questions.le (h : Questions d n o e) : o ≤ e := by
  induction h with
  | nil => exact le_rfl
  | cons h ht ih =>
    have hlt := h.lt
    omega

theorem Questions.congr (h : Questions d n o e) (ho : querySize ≤ o) (hd : ∀ i, querySize ≤ i → d'[i]? = d[i]?) :
    Questions d' n o e := by
  induction h with
  | nil => exact Questions.nil
  | cons h ht ih =>
    have hlt := h.lt
    exact Questions.cons (h.congr ho hd) (ih (by omega))

theorem skipQuestions_ok : skipQuestions d n o = .ok e ↔ Questions d n o e := by
  induction n generalizing o with
  | zero =>
    constructor
    · intro h
      obtain rfl := Except.ok.inj h
      exact Questions.nil
    · rintro ⟨⟩
      rfl
  | succ n ih =>
    constructor
    · intro h
      obtain ⟨len, hlen, h⟩ := except_bind_ok h
      rw [← Nat.add_assoc] at h
      exact Questions.cons (parseDnsName_ok.mp hlen) (ih.mp h)
    · rintro (_ | @⟨_, _, e, _, h, ht⟩)
      have hlt := h.lt
      have hnext : o + (e - o + 4) = e + 4 := by omega
      rw [skipQuestions, h.parse, except_ok_bind, hnext]
      exact ih.mpr ht

theorem answerAt_congr (h : ∀ i, e ≤ i → d'[i]? = d[i]?) : answerAt d' e = answerAt d e := by
  have hword (j : ℕ) (hj : e ≤ j) : word d' j = word d j := by
    unfold word
    simp only [List.getD_eq_getElem?_getD]
    rw [h j hj, h (j + 1) (by omega)]
  unfold answerAt
  rw [hword e le_rfl, hword (e + 2) (by omega), hword (e + 8) (by omega)]

theorem load32_congr (h : ∀ i, o ≤ i → d'[i]? = d[i]?) : load32 bigEndian d' o = load32 bigEndian d o := by
  have hbyte (i : ℕ) (hi : o ≤ i) : byte d' i = byte d i := by
    unfold byte
    rw [h i hi]
  unfold load32 load16
  rw [hbyte o le_rfl, hbyte (o + 1) (by omega), hbyte (o + 2) (by omega), hbyte (o + 2 + 1) (by omega)]

theorem Answers.congr {i v : ℕ} (h : Answers bigEndian d n o i v) (ho : querySize ≤ o) (hlen : d'.length = d.length)
    (hd : ∀ i, querySize ≤ i → d'[i]? = d[i]?) : Answers bigEndian d' n o i v := by
  induction h generalizing d' with
  | nil => exact Answers.nil
  | @other d n o e i v h hr ha ht ih =>
    have hlt := h.lt
    have hanswer : answerAt d' e = answerAt d e := answerAt_congr fun i hi => hd i (by omega)
    refine Answers.other (h.congr ho hd) (by omega) (by rw [hanswer, ha]) ?_
    rw [hanswer]
    exact ih (by omega) (by simpa using hlen) (hostOrder_congr hd (by omega))
  | address h ha hv =>
    have hlt := h.lt
    refine Answers.address (h.congr ho hd) ?_ ((load32_congr fun i hi => hd i (by omega)).trans hv)
    rw [answerAt_congr fun i hi => hd i (by omega), ha]

theorem NameAt.walk (h : NameAt d o e) (hr : e + 10 ≤ d.length) (bigEndian : Bool) (n i : ℕ) :
    walkAnswers bigEndian (n + 1) i d o = if (answerAt d e).isAddress then do
        let ipv4 ← load32 bigEndian d (e + 10)
        .ok (i, ipv4)
      else walkAnswers bigEndian n (i + 1) (hostOrder bigEndian d e) (e + 10 + (answerAt d e).rdlength) := by
  have hlt := h.lt
  have hoff : o + (e - o) = e := by omega
  have hload : load32 bigEndian (hostOrder bigEndian d e) (e + 10) = load32 bigEndian d (e + 10) :=
    load32_congr fun i hi => hostOrder_out (Or.inr hi)
  rw [walkAnswers, h.parse, except_ok_bind, hoff, readAnswer_ok bigEndian hr, except_ok_bind, ← hload]

/-- The loop over the answers comes to its end inside the datagram just when they are there. -/
theorem walkAnswers_ok {i j v : ℕ} :
    walkAnswers bigEndian n i d o = .ok (j, v) ↔ ∃ m, j = i + m ∧ Answers bigEndian d n o m v := by
  induction n generalizing i d o with
  | zero =>
    constructor
    · intro h
      obtain ⟨rfl, rfl⟩ := Prod.mk.inj (Except.ok.inj h)
      exact ⟨0, rfl, Answers.nil⟩
    · rintro ⟨m, rfl, ⟨⟩⟩
      rfl
  | succ n ih =>
    constructor
    · intro h
      obtain ⟨len, hlen, hrest⟩ := except_bind_ok h
      obtain ⟨p, hp, -⟩ := except_bind_ok hrest
      have hname := parseDnsName_ok.mp hlen
      have hr := readAnswer_length hp
      rw [hname.walk hr] at h
      split_ifs at h with ha
      · obtain ⟨w, hw, h⟩ := except_bind_ok h
        obtain ⟨rfl, rfl⟩ := Prod.mk.inj (Except.ok.inj h)
        exact ⟨0, rfl, Answers.address hname ha hw⟩
      · obtain ⟨m, rfl, hm⟩ := ih.mp h
        exact ⟨m + 1, by omega, Answers.other hname hr (by simpa using ha) hm⟩
    · rintro ⟨m, rfl, h⟩
      cases h with
      | @other _ _ _ e m _ hname hr ha ht =>
        rw [hname.walk hr, if_neg (by simp [ha])]
        exact ih.mpr ⟨m, by omega, ht⟩
      | @address _ _ _ e _ hname ha hv =>
        have hlt := load32_lt hv
        rw [hname.walk (by omega), if_pos ha, hv]
        rfl

theorem headerBytes_le (bigEndian : Bool) (d : Datagram) : headerBytes bigEndian d ≤ querySize := by
  unfold headerBytes querySize
  split_ifs <;> omega

theorem swapQuery_ok (bigEndian : Bool) (h : bigEndian = true ∨ querySize ≤ d.length) : ∃ d', swapQuery bigEndian d = .ok d' ∧
    d'.length = d.length ∧ (∀ i, querySize ≤ i → d'[i]? = d[i]?) ∧
    ∀ w < 6, 2 * w + 1 < d.length → load16 bigEndian d' (2 * w) = .ok (word d (2 * w)) := by
  unfold querySize at h ⊢
  cases bigEndian with
  | true => exact ⟨d, rfl, rfl, fun _ _ => rfl, fun w _ hlt => load16_big hlt⟩
  | false =>
    have hlen : 12 ≤ d.length := h.resolve_left (by simp)
    obtain ⟨d', hs, hlen', hout, hin⟩ := swab_ok (d := d) (o := 0) (n := 6) (by omega)
    refine ⟨d', hs, hlen', fun i hi => hout i (by omega), fun w hw hlt => ?_⟩
    obtain ⟨h1, h2⟩ := hin w hw
    rw [Nat.zero_add] at h1 h2
    exact load16_little h1 h2 hlt

theorem swapQuery_header (h : headerBytes bigEndian d ≤ d.length) : bigEndian = true ∨ querySize ≤ d.length := by
  cases bigEndian with
  | true => exact Or.inl rfl
  | false => exact Or.inr h

theorem four_le_of_header (h : headerBytes bigEndian d ≤ d.length) :
    4 ≤ d.length ∧ (flagsOk (word d 2) = true → 8 ≤ d.length) := by
  unfold headerBytes querySize at h
  split_ifs at h with hb hf
  · exact ⟨by omega, fun _ => h⟩
  · exact ⟨h, fun h0 => absurd h0 hf⟩
  · exact ⟨by omega, fun _ => by omega⟩

/-- What is done with a good response: its questions are skipped and its answers walked. -/
theorem readResponse_eq (hlen : headerBytes bigEndian d ≤ d.length) (hf : flagsOk (word d 2) = true) :
    ∃ d', swapQuery bigEndian d = .ok d' ∧ d'.length = d.length ∧ (∀ i, querySize ≤ i → d'[i]? = d[i]?) ∧
      readResponse bigEndian d = (do
        let offset ← skipQuestions d' (word d 4) querySize
        let p ← walkAnswers bigEndian (word d 6) 0 d' offset
        .ok (.walked p.1 p.2)) := by
  obtain ⟨d', hs, hlen', hout, hin⟩ := swapQuery_ok bigEndian (swapQuery_header hlen)
  have h8 := (four_le_of_header hlen).2 hf
  have hflags : load16 bigEndian d' 2 = .ok (word d 2) := hin 1 (by omega) (by omega)
  have hqd : load16 bigEndian d' 4 = .ok (word d 4) := hin 2 (by omega) (by omega)
  have han : load16 bigEndian d' 6 = .ok (word d 6) := hin 3 (by omega) (by omega)
  refine ⟨d', hs, hlen', hout, ?_⟩
  unfold readResponse
  rw [hs, except_ok_bind, hflags, except_ok_bind, if_pos hf, hqd, except_ok_bind]
  simp only [han, except_ok_bind]

theorem readResponse_flagError (hlen : headerBytes bigEndian d ≤ d.length) (hf : ¬ flagsOk (word d 2) = true) :
    readResponse bigEndian d = .ok .flagError := by
  obtain ⟨d', hs, -, -, hin⟩ := swapQuery_ok bigEndian (swapQuery_header hlen)
  have h4 := (four_le_of_header hlen).1
  have hflags : load16 bigEndian d' 2 = .ok (word d 2) := hin 1 (by omega) (by omega)
  unfold readResponse
  rw [hs, except_ok_bind, hflags, except_ok_bind, if_neg hf]

theorem readResponse_header {r : Reply} (h : readResponse bigEndian d = .ok r) : headerBytes bigEndian d ≤ d.length := by
  obtain ⟨d', hs, h⟩ := except_bind_ok h
  obtain ⟨flags, hflags, h⟩ := except_bind_ok h
  cases bigEndian with
  | true =>
    obtain rfl := Except.ok.inj hs
    have h2 := load16_lt hflags
    obtain rfl := Except.ok.inj (hflags.symm.trans (load16_big h2))
    unfold headerBytes
    rw [if_pos rfl]
    split_ifs with hf
    · rw [if_pos hf] at h
      obtain ⟨qd, -, h⟩ := except_bind_ok h
      obtain ⟨offset, -, h⟩ := except_bind_ok h
      obtain ⟨an, han, -⟩ := except_bind_ok h
      have h6 := load16_lt han
      omega
    · omega
  | false =>
    have hlen := swab_length (d := d) (o := 0) (n := 6) hs (by omega)
    unfold headerBytes querySize
    simpa using hlen

theorem readResponse_walked {i v : ℕ} : readResponse bigEndian d = .ok (.walked i v) ↔ Carries bigEndian d i v := by
  constructor
  · intro h
    have hlen := readResponse_header h
    by_cases hf : flagsOk (word d 2) = true
    · obtain ⟨d', -, hlen', hout, heq⟩ := readResponse_eq hlen hf
      rw [heq] at h
      obtain ⟨q, hq, h⟩ := except_bind_ok h
      obtain ⟨⟨j, w⟩, hp, h⟩ := except_bind_ok h
      obtain ⟨rfl, rfl⟩ := Reply.walked.inj (Except.ok.inj h)
      obtain ⟨m, hm, hans⟩ := walkAnswers_ok.mp hp
      rw [Nat.zero_add] at hm
      subst hm
      have hquest := skipQuestions_ok.mp hq
      exact ⟨hlen, hf, q, hquest.congr le_rfl fun i hi => (hout i hi).symm,
        hans.congr hquest.le hlen'.symm fun i hi => (hout i hi).symm⟩
    · rw [readResponse_flagError hlen hf] at h
      cases h
  · rintro ⟨hlen, hf, q, hquest, hans⟩
    obtain ⟨d', -, hlen', hout, heq⟩ := readResponse_eq hlen hf
    have hskip := skipQuestions_ok.mpr (hquest.congr le_rfl hout)
    have hwalk := walkAnswers_ok.mpr ⟨i, (Nat.zero_add i).symm, hans.congr hquest.le hlen' hout⟩
    rw [heq, hskip, except_ok_bind, hwalk]
    rfl

theorem readResponse_ok : (∃ r, readResponse bigEndian d = .ok r) ↔ WellFormed bigEndian d := by
  constructor
  · rintro ⟨r, h⟩
    refine ⟨readResponse_header h, fun hf => ?_⟩
    cases r with
    | flagError =>
      obtain ⟨d', -, -, -, heq⟩ := readResponse_eq (readResponse_header h) hf
      rw [heq] at h
      obtain ⟨q, -, h⟩ := except_bind_ok h
      obtain ⟨p, -, h⟩ := except_bind_ok h
      cases h
    | walked i v => exact ⟨i, v, readResponse_walked.mp h⟩
  · rintro ⟨hlen, hbody⟩
    by_cases hf : flagsOk (word d 2) = true
    · obtain ⟨i, v, hc⟩ := hbody hf
      exact ⟨_, readResponse_walked.mpr hc⟩
    · exact ⟨_, readResponse_flagError hlen hf⟩

/-- The walk over a datagram comes to an end, and it stays inside just when the datagram is a
well-formed message. -/
theorem walk_stays_inside (bigEndian : Bool) (d : Datagram) :
    readResponse bigEndian d ≠ .error .rounds ∧
      ((∃ r, readResponse bigEndian d = .ok r) ↔ WellFormed bigEndian d) :=
  ⟨readResponse_rounds bigEndian d, readResponse_ok⟩

set_option maxRecDepth 20000 in
/-- A datagram shorter than a header; a header that announces a question and has none; a
name that ends with a pointer to a label that goes past the end. -/
theorem walk_leaves_datagram :
    readResponse false [0] = .error (.outside 1) ∧
    readResponse false [0, 0, 0x80, 0, 0, 1, 0, 0, 0, 0, 0, 0] = .error (.outside 12) ∧
    readResponse false [0, 0, 0x80, 0, 0, 1, 0, 0, 0, 0, 0, 0, 0xC1, 0x80] = .error (.outside 142) := by
  refine ⟨rfl, rfl, rfl⟩

/-- A response with the address 1.2.3.4 for the name `a`. -/
def sample : Datagram :=
  [0x12, 0x34, 0x81, 0x80, 0, 1, 0, 1, 0, 0, 0, 0, 1, 97, 0, 0, 1, 0, 1,
    0xC0, 12, 0, 1, 0, 1, 0, 0, 0, 60, 0, 4, 1, 2, 3, 4]

theorem sample_carries : Carries false sample 0 67305985 := by
  have hroot : sample[14]? = some 0 := rfl
  have hlabel : sample[12]? = some 1 := rfl
  have hpointer : sample[19]? = some 0xC0 := rfl
  refine ⟨by decide, by decide, 19, ?_, ?_⟩
  · exact Questions.cons (e := 15) (NameAt.label hlabel (by decide) (by decide) (NameAt.root hroot)) Questions.nil
  · refine Answers.address (e := 21) (NameAt.pointer (z := 14) hpointer (by decide) ?_) rfl rfl
    exact Labels.label hlabel (by decide) (Labels.root hroot)

theorem walk_stays_inside_sample : ∃ r, readResponse false sample = .ok r :=
  (walk_stays_inside false sample).2.mpr ⟨by decide, fun _ => ⟨0, 67305985, sample_carries⟩⟩

end Lthr.Cdns

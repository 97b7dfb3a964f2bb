import Lthread.Proofs.Cdns

/-! The first address in a response. -/

namespace Lthr.Cdns

variable {d d' : Datagram} {limit o e q z : ℕ} {bigEndian : Bool} {rs : List (ℕ × ℕ)}

/-! Messages -/

/-- The name at `o` ends before `e`. It has labels of 1 to 63 bytes, and ends with the root
or with a pointer to a name earlier in the message, at an offset below `limit`. -/
inductive WireName (d : Datagram) (limit : ℕ) : ℕ → ℕ → Prop
  | root {o : ℕ} (h : d[o]? = some 0) : WireName d limit o (o + 1)
  | pointer {o t e : ℕ} {b c : UInt8} (h : d[o]? = some b) (hb : b &&& 0xC0 = 0xC0) (hc : d[o + 1]? = some c)
    (ht : t = (b &&& 0x3F).toNat * 256 + c.toNat) (hq : querySize ≤ t) (hlt : t < o) (hl : t < limit)
    (hn : WireName d limit t e) : WireName d limit o (o + 2)
  | label {o e : ℕ} {b : UInt8} (h : d[o]? = some b) (hb : b ≠ 0) (hle : b.toNat ≤ 63)
    (hn : WireName d limit (o + (b.toNat + 1)) e) : WireName d limit o e

/-- The records from `o` on. Of each the list has the offsets where its name and its
fields start. -/
inductive Records (d : Datagram) (limit : ℕ) : ℕ → List (ℕ × ℕ) → Prop
  | nil {o : ℕ} : Records d limit o []
  | cons {o e : ℕ} {rs : List (ℕ × ℕ)} (hn : WireName d limit o e) (hr : e + 10 + (answerAt d e).rdlength ≤ d.length)
    (ht : Records d limit (e + 10 + (answerAt d e).rdlength) rs) : Records d limit o ((o, e) :: rs)

/-- A good response with one question, whose name ends before `q`, and these answers. -/
structure Response (d : Datagram) (limit q : ℕ) (rs : List (ℕ × ℕ)) : Prop where
  received : d.length ≤ 2048
  header : querySize ≤ d.length
  flags : flagsOk (word d 2) = true
  qdcount : word d 4 = 1
  ancount : word d 6 = rs.length
  name : WireName d limit querySize q
  question : q + 4 ≤ d.length
  answers : Records d limit (q + 4) rs

/-- The number of records before the first address, and the address: what `memcpy` makes of
its four bytes, or 0. -/
def firstAddress (bigEndian : Bool) (d : Datagram) (rs : List (ℕ × ℕ)) : ℕ × ℕ :=
  (rs.findIdx fun r => (answerAt d r.2).isAddress,
    (rs.find? fun r => (answerAt d r.2).isAddress).elim 0 fun r => (load32 bigEndian d (r.2 + 10)).toOption.getD 0)

/-! Names -/

/-- If `parse_dns_name` comes to the end of a name, it has found the whole of it. -/
theorem WireName.nameAt (h : WireName d limit o e) (hd : ∀ i, o ≤ i → d'[i]? = d[i]?) {rounds len r : ℕ}
    (hp : parseDnsNameLoop d' rounds o false len = .ok r) : NameAt d' o e := by
  induction h generalizing rounds len with
  | root h => exact NameAt.root ((hd _ le_rfl).trans h)
  | pointer h hb hc ht hq hlt hl hn ih =>
    have hbyte := (hd _ le_rfl).trans h
    cases rounds with
    | zero => cases hp
    | succ rounds =>
      rw [loop_pointer hbyte hb] at hp
      obtain ⟨z, hz⟩ := labels_of_loop hp
      exact NameAt.pointer hbyte hb hz
  | label h hb hle hn ih =>
    have hbyte := (hd _ le_rfl).trans h
    cases rounds with
    | zero => cases hp
    | succ rounds =>
      rw [loop_label hbyte hb (label_byte hle)] at hp
      exact NameAt.label hbyte hb (label_byte hle) (ih (fun i hi => hd i (by omega)) hp)

theorem WireName.lt (h : WireName d limit o e) : o < e := by
  induction h with
  | root h => omega
  | pointer h hb hc ht hq hlt hl hn ih => omega
  | label h hb hle hn ih => omega

/-! Records -/

/-- Every name up to the first address is one that `parse_dns_name` comes to the end of: its
pointer, taken as the code takes it, leads to labels that end inside the datagram. The
fields of the records before it are in the byte order of the host by then. -/
def Followed (bigEndian : Bool) : Datagram → List (ℕ × ℕ) → Prop
  | _, [] => True
  | d, (o, e) :: rs => NameAt d o e ∧
    ((answerAt d e).isAddress = false → ∃ d', swapAnswer bigEndian d e = .ok d' ∧ Followed bigEndian d' rs)

theorem rdlength_of_isAddress {a : Answer} (h : a.isAddress = true) : a.rdlength = 4 := (of_decide_eq_true h).2.2

theorem firstAddress_of_address (ha : (answerAt d e).isAddress = true) {v : ℕ} (hv : load32 bigEndian d (e + 10) = .ok v) :
    firstAddress bigEndian d ((o, e) :: rs) = (0, v) := by
  unfold firstAddress
  rw [List.findIdx_cons, List.find?_cons]
  simp [ha, hv, Except.toOption]

theorem firstAddress_of_other (ha : (answerAt d e).isAddress = false) :
    firstAddress bigEndian d ((o, e) :: rs) =
      ((firstAddress bigEndian d rs).1 + 1, (firstAddress bigEndian d rs).2) := by
  unfold firstAddress
  rw [List.findIdx_cons, List.find?_cons]
  simp [ha]

/-- The walk finds the first address if it can follow the names, and finds nothing else. -/
theorem Records.walk (h : Records d limit o rs) (bigEndian : Bool) (hlen : d'.length = d.length) (hd : ∀ i, o ≤ i → d'[i]? = d[i]?) (i : ℕ) :
    walkAnswers bigEndian rs.length i d' o =
        .ok (i + (firstAddress bigEndian d rs).1, (firstAddress bigEndian d rs).2) ↔ Followed bigEndian d' rs := by
  induction h generalizing d' i with
  | nil => exact iff_of_true rfl trivial
  | @cons o e rs hn hr ht ih =>
    have hlt := hn.lt
    have hanswer : answerAt d' e = answerAt d e := answerAt_congr fun j hj => hd j (by omega)
    have hstep (hname : NameAt d' o e) : walkAnswers bigEndian (rs.length + 1) i d' o =
        .ok (i + (firstAddress bigEndian d ((o, e) :: rs)).1, (firstAddress bigEndian d ((o, e) :: rs)).2) ↔
          Followed bigEndian d' ((o, e) :: rs) := by
      have hs := swapAnswer_ok (d := d') (o := e) bigEndian (by omega)
      rw [hname.walk (by omega), hanswer, Followed, hanswer]
      cases ha : (answerAt d e).isAddress with
      | true =>
        have hrd := rdlength_of_isAddress ha
        obtain ⟨v, hv⟩ := load32_ok (d := d) (o := e + 10) bigEndian (by omega)
        rw [load32_congr fun j hj => hd j (by omega), hv, firstAddress_of_address ha hv]
        exact iff_of_true rfl ⟨hname, fun h => absurd h (by decide)⟩
      | false =>
        have hrest := ih ((length_hostOrder bigEndian d' e).trans hlen)
          (fun j hj => (hostOrder_out (by omega)).trans (hd j (by omega))) (i + 1)
        rw [firstAddress_of_other ha, if_neg (by decide), ← Nat.add_assoc, Nat.add_right_comm i, hrest]
        constructor
        · intro h
          exact ⟨hname, fun _ => ⟨_, hs, h⟩⟩
        · rintro ⟨-, h⟩
          obtain ⟨d₂, hs₂, h⟩ := h rfl
          cases hs.symm.trans hs₂
          exact h
    constructor
    · intro h
      obtain ⟨len, hparse, -⟩ := except_bind_ok h
      exact (hstep (hn.nameAt (fun j hj => hd j hj) hparse)).mp h
    · intro h
      exact (hstep h.1).mpr h

/-! Pointers that the code takes to the name of the question -/

theorem WireName.plain (h : WireName d 0 o e) : ∃ z, Labels d o z ∧ z < e := by
  induction h with
  | root h => exact ⟨_, Labels.root h, Nat.lt_succ_self _⟩
  | pointer h hb hc ht hq hlt hl hn ih => exact absurd hl (by omega)
  | label h hb hle hn ih =>
    obtain ⟨z, hz, hlt⟩ := ih
    exact ⟨z, Labels.label h hb hz, hlt⟩

theorem WireName.near (h : WireName d 256 o e) (hd : ∀ i, o ≤ i → d'[i]? = d[i]?) (hz : Labels d' querySize z) :
    NameAt d' o e := by
  induction h with
  | root h => exact NameAt.root ((hd _ le_rfl).trans h)
  | @pointer o t e b c h hb hc ht hq hlt hl hn ih =>
    have hzero : (b &&& 0x3F).toNat = 0 := by omega
    refine NameAt.pointer (z := z) ((hd _ le_rfl).trans h) hb ?_
    rwa [hzero]
  | label h hb hle hn ih =>
    exact NameAt.label ((hd _ le_rfl).trans h) hb (label_byte hle) (ih fun i hi => hd i (by omega))

theorem Records.near (h : Records d 256 o rs) (hlen : d'.length = d.length) (hd : ∀ i, o ≤ i → d'[i]? = d[i]?)
    (hz : Labels d' querySize z) (ho : z < o) : Followed bigEndian d' rs := by
  induction h generalizing d' with
  | nil => trivial
  | @cons o e rs hn hr ht ih =>
    have hlt := hn.lt
    refine ⟨hn.near hd hz, fun _ => ?_⟩
    refine ⟨_, swapAnswer_ok bigEndian (by omega), ih (by simpa using hlen) (fun i hi => ?_) ?_ (by omega)⟩
    · rw [hostOrder_out (by omega), hd i (by omega)]
    · exact hz.congr fun i _ hi => hostOrder_out (by omega)

/-! The whole response -/

/-- All names that are met up to the first address can be followed. -/
def Readable (bigEndian : Bool) (d : Datagram) (q : ℕ) (rs : List (ℕ × ℕ)) : Prop :=
  ∃ d', swapQuery bigEndian d = .ok d' ∧ NameAt d' querySize q ∧ Followed bigEndian d' rs

theorem Response.read (h : Response d limit q rs) (bigEndian : Bool) :
    readResponse bigEndian d = .ok (.walked (firstAddress bigEndian d rs).1 (firstAddress bigEndian d rs).2) ↔
      Readable bigEndian d q rs := by
  obtain ⟨d', hs, hlen, hout, heq⟩ := readResponse_eq ((headerBytes_le bigEndian d).trans h.header) h.flags
  have hlt := h.name.lt
  have hwalk := h.answers.walk bigEndian hlen (fun i hi => hout i (by omega)) 0
  rw [Nat.zero_add, ← h.ancount] at hwalk
  have hskip (hname : NameAt d' querySize q) : skipQuestions d' (word d 4) querySize = .ok (q + 4) := by
    have hoff : querySize + (q - querySize + 4) = q + 4 := by omega
    rw [h.qdcount, skipQuestions, hname.parse, except_ok_bind, skipQuestions, hoff]
  rw [heq]
  constructor
  · intro hok
    obtain ⟨offset, hoff, hrest⟩ := except_bind_ok hok
    rw [h.qdcount, skipQuestions] at hoff
    obtain ⟨len, hparse, -⟩ := except_bind_ok hoff
    have hname := h.name.nameAt (fun i hi => hout i hi) hparse
    rw [hskip hname, except_ok_bind] at hok
    obtain ⟨⟨i, ipv4⟩, hp, hreply⟩ := except_bind_ok hok
    obtain ⟨rfl, rfl⟩ := Reply.walked.inj (Except.ok.inj hreply)
    exact ⟨d', hs, hname, hwalk.mp hp⟩
  · rintro ⟨d₂, hs₂, hname, hfollowed⟩
    cases hs.symm.trans hs₂
    rw [hskip hname, except_ok_bind, hwalk.mpr hfollowed]
    rfl

theorem Response.near (h : Response d 256 q rs) (hplain : WireName d 0 querySize q) : Readable bigEndian d q rs := by
  obtain ⟨d', hs, hlen, hout, -⟩ := swapQuery_ok bigEndian (Or.inr h.header)
  obtain ⟨z, hz, hzq⟩ := hplain.plain
  have hz' : Labels d' querySize z := hz.congr fun i hi _ => hout i hi
  have hle := hz.le
  exact ⟨d', hs, h.name.near hout hz', h.answers.near hlen (fun i hi => hout i (by omega)) hz' (by omega)⟩

/-- `parse_dns_name` finds the length of a name if it comes to an end. The address that is
found is the first one, if and only if it comes to the end of every name before it; it does
if the pointers go to offsets below 256. -/
theorem first_address_found (bigEndian : Bool) {d : Datagram} {q : ℕ} {rs : List (ℕ × ℕ)} (h : Response d 16384 q rs) :
    (∀ o e len, WireName d 16384 o e → parseDnsName d o = .ok len → len = e - o) ∧
    (readResponse bigEndian d = .ok (.walked (firstAddress bigEndian d rs).1 (firstAddress bigEndian d rs).2) ↔
      Readable bigEndian d q rs) ∧
    (Response d 256 q rs → WireName d 0 querySize q → Readable bigEndian d q rs) := by
  refine ⟨fun o e len hn hp => ?_, h.read bigEndian, fun hnear hplain => hnear.near hplain⟩
  have hname := hn.nameAt (fun _ _ => rfl) hp
  exact Except.ok.inj (hp.symm.trans hname.parse)

/-- A response of 2048 bytes. The first answer is a text of 1927 bytes 255, the name of the
second is `a`, and the third is the address 1.2.3.4 for a pointer to that name. -/
def distant : Datagram :=
  [0, 0, 0x80, 0, 0, 1, 0, 3, 0, 0, 0, 0] ++ 63 :: (List.replicate 63 97 ++ [0, 0, 1, 0, 1] ++
    [0, 0, 16, 0, 1, 0, 0, 0, 0, 7, 135] ++ List.replicate 1927 255 ++ [1, 97, 0, 0, 16, 0, 1, 0, 0, 0, 0, 0, 0] ++
    [0xC7, 227, 0, 1, 0, 1, 0, 0, 0, 0, 0, 4, 1, 2, 3, 4])

theorem distant_response : Response distant 16384 77 [(81, 82), (2019, 2022), (2032, 2034)] := by
  have hlen : distant.length = 2048 := by decide +kernel
  have hquestion : WireName distant 16384 querySize 77 :=
    WireName.label (b := 63) (by decide +kernel) (by decide) (by decide) (WireName.root (by decide +kernel))
  have hroot : WireName distant 16384 81 82 := WireName.root (by decide +kernel)
  have hname : WireName distant 16384 2019 2022 :=
    WireName.label (b := 1) (by decide +kernel) (by decide) (by decide) (WireName.root (by decide +kernel))
  have hpointer : WireName distant 16384 2032 2034 :=
    WireName.pointer (b := 0xC7) (c := 227) (by decide +kernel) (by decide) (by decide +kernel) rfl (by decide)
      (by decide) (by decide) hname
  have htext : (answerAt distant 82).rdlength = 1927 := by decide +kernel
  have hother : (answerAt distant 2022).rdlength = 0 := by decide +kernel
  have haddress : (answerAt distant 2034).rdlength = 4 := by decide +kernel
  refine ⟨hlen.le, by rw [hlen]; decide, by decide +kernel, by decide +kernel, by decide +kernel, hquestion,
    by omega, Records.cons hroot (by omega) ?_⟩
  rw [htext]
  refine Records.cons hname (by omega) ?_
  rw [hother]
  exact Records.cons hpointer (by omega) Records.nil

/-- The walk of `parse_dns_name` behind the pointer goes past the 2048 bytes of the buffer. -/
theorem first_address_missed : Response distant 16384 77 [(81, 82), (2019, 2022), (2032, 2034)] ∧
    firstAddress false distant [(81, 82), (2019, 2022), (2032, 2034)] = (2, 67305985) ∧
    readResponse false distant = .error (.outside 2165) :=
  ⟨distant_response, by decide +kernel, by decide +kernel⟩

theorem sample_response (limit : ℕ) (h : 12 < limit) : Response sample limit 15 [(19, 21)] := by
  have hname : WireName sample limit querySize 15 :=
    WireName.label (b := 1) (by decide) (by decide) (by decide) (WireName.root (by decide))
  have hpointer : WireName sample limit 19 21 :=
    WireName.pointer (b := 0xC0) (c := 12) (by decide) (by decide) (by decide) rfl (by decide) (by decide) h hname
  exact ⟨by decide, by decide, by decide, by decide, by decide, hname, by decide,
    Records.cons hpointer (by decide) Records.nil⟩

theorem first_address_found_sample : readResponse false sample = .ok (.walked 0 67305985) := by
  obtain ⟨-, hiff, hnear⟩ := first_address_found false (sample_response 16384 (by omega))
  have hplain : WireName sample 0 querySize 15 :=
    WireName.label (b := 1) (by decide) (by decide) (by decide) (WireName.root (by decide))
  exact hiff.mpr (hnear (sample_response 256 (by omega)) hplain)

end Lthr.Cdns

import Lthread.Lib.Machine
import Lthread.Lib.Split
import Lthread.Lib.Wire
import Lthread.Spec.CdnsQuery
import Lthread.Proofs.CdnsNames

/-! The query that `dns_lookup` makes of a host name. -/

namespace Lthr.Cdns

variable {pre tail rest text label host : List UInt8} {labels : List (List UInt8)} {before b c : UInt8} {bigEndian : Bool}

/-! Bytes at a place -/

theorem byte_append (pre rest : List UInt8) (b : UInt8) : byte (pre ++ b :: rest) pre.length = .ok b := by
  rw [byte_ok, List.getElem?_append_right le_rfl, Nat.sub_self]
  rfl

theorem store_append (pre rest : List UInt8) (b c : UInt8) :
    store (pre ++ b :: rest) pre.length c = .ok (pre ++ c :: rest) := by
  unfold store
  rw [if_pos (by simp), List.set_append_right _ _ le_rfl, Nat.sub_self]
  rfl

def bytes16 (v : ℕ) : List UInt8 := [UInt8.ofNat (v / 256), UInt8.ofNat v]

/-! The loop over the host name -/

/-- What the loop leaves of a text that has these labels between its dots, and of the byte
`before` it: a length in front of every label, but nothing new in front of an empty one at
the end. -/
def nameArea (before : UInt8) : List (List UInt8) → List UInt8
  | [] => [before, 0]
  | [label] => if label = [] then [before, 0] else UInt8.ofNat label.length :: (label ++ [0])
  | label :: next :: labels => UInt8.ofNat label.length :: (label ++ nameArea 46 (next :: labels))

/-- The cursor stays in front of a label, until the length has come to its end at `c`. -/
theorem encodeLoop_label (hc : c = 46 ∨ c = 0) (hlabel : ∀ b ∈ label, b ≠ 46 ∧ b ≠ 0) (hfirst : label ≠ [] ∨ c = 46)
    (rounds : ℕ) : encodeLoop (label.length + 1 + rounds) (pre ++ before :: (label ++ c :: tail)) (pre.length + 1) 0 =
      encodeLoop rounds (pre ++ UInt8.ofNat label.length :: (label ++ c :: tail)) (pre.length + 1 + (label.length + 1)) 0 := by
  have hhead : ∃ b, b ≠ 0 ∧ byte (pre ++ before :: (label ++ c :: tail)) (pre.length + 1) = .ok b := by
    have hat (b : UInt8) (s : List UInt8) : byte (pre ++ before :: (b :: s)) (pre.length + 1) = .ok b := by
      simpa using byte_append (pre ++ [before]) s b
    cases label with
    | nil =>
      obtain rfl := hfirst.resolve_left (by simp)
      exact ⟨46, by decide, hat 46 tail⟩
    | cons b s => exact ⟨b, (hlabel b List.mem_cons_self).2, hat b _⟩
  obtain ⟨b₀, hne, hb₀⟩ := hhead
  -- the label is `done`, which has been passed, and `todo`
  have hscan (todo : List UInt8) : ∀ done, label = done ++ todo →
      encodeLoop (todo.length + 1 + rounds) (pre ++ before :: (label ++ c :: tail)) (pre.length + 1) done.length =
        encodeLoop rounds (pre ++ UInt8.ofNat label.length :: (label ++ c :: tail)) (pre.length + 1 + (label.length + 1)) 0 := by
    induction todo with
    | nil =>
      rintro done rfl
      have hbyte := byte_append (pre ++ before :: (done ++ [])) tail c
      rw [List.append_nil] at hb₀ hbyte ⊢
      rw [List.length_nil, Nat.zero_add, Nat.add_comm 1, encodeLoop, hb₀]
      have hlen : (pre ++ before :: done).length = pre.length + 1 + done.length := by
        simp
        omega
      rw [hlen, List.append_assoc, List.cons_append] at hbyte
      simp only [except_ok_bind]
      rw [if_neg hne, hbyte]
      simp only [except_ok_bind]
      rw [if_pos hc, Nat.add_sub_cancel, store_append]
      rfl
    | cons b todo ih =>
      rintro done rfl
      have hb := hlabel b (by simp)
      have hbyte := byte_append (pre ++ before :: done) (todo ++ c :: tail) b
      have hlen : (pre ++ before :: done).length = pre.length + 1 + done.length := by
        simp
        omega
      have hd : pre ++ before :: done ++ b :: (todo ++ c :: tail) = pre ++ before :: (done ++ b :: todo ++ c :: tail) := by
        simp
      rw [hlen, hd] at hbyte
      have hround : (b :: todo).length + 1 + rounds = todo.length + 1 + rounds + 1 := by
        rw [List.length_cons]
        omega
      rw [hround, encodeLoop, hb₀]
      simp only [except_ok_bind]
      rw [if_neg hne, hbyte]
      simp only [except_ok_bind]
      rw [if_neg (by simp [hb])]
      have hnext := ih (done ++ [b]) (by simp)
      rwa [List.length_append, List.length_singleton] at hnext
  exact hscan label [] rfl

theorem encodeLoop_stop (pre rest : List UInt8) (rounds : ℕ) : encodeLoop (rounds + 1) (pre ++ 0 :: rest) pre.length 0 = .ok (pre ++ 0 :: rest) := by
  rw [encodeLoop, byte_append]
  rfl

theorem nameArea_cons (h : labels ≠ []) :
    nameArea before (label :: labels) = UInt8.ofNat label.length :: (label ++ nameArea 46 labels) := by
  cases labels with
  | nil => exact absurd rfl h
  | cons next labels => rfl

theorem encodeLoop_text (text : List UInt8) (h0 : 0 ∉ text) (pre rest : List UInt8) (before : UInt8) :
    encodeLoop (text.length + 2) (pre ++ before :: (text ++ 0 :: 0 :: rest)) (pre.length + 1) 0 =
      .ok (pre ++ (nameArea before (text.splitOn 46) ++ 0 :: rest)) := by
  induction text using split_induction (p := (· == (46 : UInt8))) generalizing pre before with
  | last text htext =>
    rw [List.splitOn, List.splitOnP_eq_singleton htext, nameArea]
    by_cases hnil : text = []
    · subst hnil
      simpa using encodeLoop_stop (pre ++ [before]) (0 :: rest) 1
    · have hlabel : ∀ b ∈ text, b ≠ 46 ∧ b ≠ 0 := fun b hb =>
        ⟨by simpa using htext b hb, fun hz => h0 (hz ▸ hb)⟩
      have hstop := encodeLoop_stop (pre ++ UInt8.ofNat text.length :: (text ++ [0])) rest 0
      have hlen : (pre ++ UInt8.ofNat text.length :: (text ++ [0])).length = pre.length + 1 + (text.length + 1) := by
        simp
        omega
      rw [hlen] at hstop
      rw [encodeLoop_label (Or.inr rfl) hlabel (Or.inl hnil) 1, if_neg hnil]
      simpa using hstop
  | cut label c r hdots hc ih =>
    obtain rfl : c = 46 := by simpa using hc
    have hlabel : ∀ b ∈ label, b ≠ 46 ∧ b ≠ 0 := fun b hb =>
      ⟨by simpa using hdots b hb, fun hz => h0 (by rw [hz] at hb; simp [hb])⟩
    have hround : (label ++ 46 :: r).length + 2 = label.length + 1 + (r.length + 2) := by
      simp
      omega
    have hrest := ih (fun hz => h0 (by simp [hz])) (pre ++ UInt8.ofNat label.length :: label) 46
    have hlen : (pre ++ UInt8.ofNat label.length :: label).length = pre.length + (label.length + 1) := by simp
    rw [List.splitOn, List.splitOnP_append_cons_of_forall_mem hdots 46 hc, nameArea_cons (List.splitOnP_ne_nil _ _),
      hround, List.append_assoc, List.cons_append, encodeLoop_label (Or.inl rfl) hlabel (Or.inr rfl)]
    rw [hlen] at hrest
    simpa [Nat.add_assoc, Nat.add_comm 1, List.splitOn] using hrest

theorem length_nameArea (before : UInt8) (labels : List (List UInt8)) :
    (nameArea before labels).length = ([46].intercalate labels).length + 2 := by
  induction labels generalizing before with
  | nil => rfl
  | cons label labels ih =>
    by_cases hnil : labels = []
    · subst hnil
      rw [nameArea, List.intercalate_singleton]
      split_ifs with h
      · rw [h]
        rfl
      · simp
    · obtain ⟨next, more, rfl⟩ := List.exists_cons_of_ne_nil hnil
      rw [nameArea_cons hnil, List.length_cons, List.length_append, ih, List.intercalate_cons_cons]
      simp
      omega

/-! The whole query -/

def host16 (bigEndian : Bool) (v : ℕ) : List UInt8 := if bigEndian then bytes16 v else (bytes16 v).reverse

theorem store16_append (bigEndian : Bool) (pre rest : List UInt8) (b c : UInt8) (v : ℕ) :
    store16 bigEndian (pre ++ b :: c :: rest) pre.length v = .ok (pre ++ (host16 bigEndian v ++ rest)) := by
  have hsecond (x y : UInt8) : store (pre ++ x :: c :: rest) (pre.length + 1) y = .ok (pre ++ x :: y :: rest) := by
    simpa using store_append (pre ++ [x]) rest c y
  simp only [store16]
  rw [store_append, except_ok_bind, hsecond]
  cases bigEndian <;> rfl

theorem swab_append (pre rest : List UInt8) (b c : UInt8) (n : ℕ) :
    swab (pre ++ b :: c :: rest) pre.length (n + 1) = swab (pre ++ c :: b :: rest) (pre.length + 2) n := by
  have hsecond : byte (pre ++ b :: c :: rest) (pre.length + 1) = .ok c := by
    simpa using byte_append (pre ++ [b]) rest c
  rw [swab, swap, byte_append, except_ok_bind, hsecond, except_ok_bind, except_ok_bind]
  rw [List.set_append_right _ _ le_rfl, Nat.sub_self, List.set_append_right _ _ (by omega), Nat.add_sub_cancel_left]
  rfl

theorem memcpy_append (pre : List UInt8) {rest src : List UInt8} (h : src.length ≤ rest.length) :
    memcpy (pre ++ rest) pre.length src = .ok (pre ++ src ++ rest.drop src.length) := by
  unfold memcpy
  rw [blit_append h]

@[simp] theorem length_host16 (bigEndian : Bool) (v : ℕ) : (host16 bigEndian v).length = 2 := by
  cases bigEndian <;> rfl

/-- The header of a query, with its numbers in the byte order of `bytes`. -/
def queryHeader (bytes : ℕ → List UInt8) (rand : ℕ) : List UInt8 :=
  bytes (rand % 65535) ++ (bytes queryFlags ++ (bytes 1 ++ [0, 0, 0, 0, 0, 0]))

theorem length_queryHeader (bigEndian : Bool) (rand : ℕ) : (queryHeader (host16 bigEndian) rand).length = querySize := by
  cases bigEndian <;> rfl

theorem fill_ok (bigEndian : Bool) (rand : ℕ) (host : List UInt8) (f : Datagram → Except Fault Datagram) :
    (do
      let d ← store16 bigEndian (List.replicate (querySize + host.length + 2 + 4) 0) 0 (rand % 65535)
      let d ← store16 bigEndian d 2 queryFlags
      let d ← store16 bigEndian d 4 1
      let d ← memcpy d (querySize + 1) host
      let d ← store d (querySize + 1 + host.length) 0
      f d) = f (queryHeader (host16 bigEndian) rand ++ 0 :: (host ++ [0, 0, 0, 0, 0])) := by
  have hzeros : List.replicate (querySize + host.length + 2 + 4) (0 : UInt8) =
      [] ++ 0 :: 0 :: 0 :: 0 :: 0 :: 0 :: 0 :: 0 :: 0 :: 0 :: 0 :: 0 :: 0 :: (List.replicate host.length 0 ++ [0, 0, 0, 0, 0]) := by
    have hcount : querySize + host.length + 2 + 4 = 13 + (host.length + 5) := by
      unfold querySize
      omega
    rw [hcount, List.replicate_add, List.replicate_add]
    rfl
  have hstore (pre r : List UInt8) (o v : ℕ) (ho : pre.length = o) :
      store16 bigEndian (pre ++ 0 :: 0 :: r) o v = .ok (pre ++ (host16 bigEndian v ++ r)) := by
    rw [← ho, store16_append]
  rw [hzeros, hstore [] _ 0 _ rfl, except_ok_bind, List.nil_append, hstore _ _ 2 _ (by simp), except_ok_bind,
    ← List.append_assoc, hstore _ _ 4 _ (by simp), except_ok_bind]
  have hstored : host16 bigEndian (rand % 65535) ++ host16 bigEndian queryFlags ++ (host16 bigEndian 1 ++
      0 :: 0 :: 0 :: 0 :: 0 :: 0 :: 0 :: (List.replicate host.length 0 ++ [0, 0, 0, 0, 0])) =
      (queryHeader (host16 bigEndian) rand ++ [0]) ++ (List.replicate host.length 0 ++ [0, 0, 0, 0, 0]) := by
    simp [queryHeader]
  have hle : host.length ≤ (List.replicate host.length 0 ++ [0, 0, 0, 0, 0] : List UInt8).length := by simp
  have hname := memcpy_append (queryHeader (host16 bigEndian) rand ++ [0]) hle
  rw [List.length_append, List.length_singleton, length_queryHeader] at hname
  have hend := store_append (queryHeader (host16 bigEndian) rand ++ 0 :: host) [0, 0, 0, 0] 0 0
  have hlen : (queryHeader (host16 bigEndian) rand ++ 0 :: host).length = querySize + 1 + host.length := by
    rw [List.length_append, length_queryHeader, List.length_cons]
    omega
  rw [hlen] at hend
  have hdrop : (List.replicate host.length 0 ++ [0, 0, 0, 0, 0] : List UInt8).drop host.length = [0, 0, 0, 0, 0] := by
    rw [List.drop_append, List.length_replicate]
    simp
  have hcopied : queryHeader (host16 bigEndian) rand ++ [0] ++ host ++ [0, 0, 0, 0, 0] =
      queryHeader (host16 bigEndian) rand ++ 0 :: host ++ [0, 0, 0, 0, 0] := by simp
  rw [hstored, hname, except_ok_bind, hdrop, hcopied, hend, except_ok_bind, List.append_assoc, List.cons_append]

theorem question_ok (bigEndian : Bool) (pre : List UInt8) (f : Datagram → Except Fault Datagram) :
    (do
      let d ← store16 bigEndian (pre ++ [0, 0, 0, 0]) pre.length 1
      let d ← store16 bigEndian d (pre.length + 2) 1
      f d) = f (pre ++ (host16 bigEndian 1 ++ host16 bigEndian 1)) := by
  have hclass := store16_append bigEndian (pre ++ host16 bigEndian 1) [] 0 0 1
  rw [List.length_append, length_host16, List.append_assoc, List.append_assoc, List.append_nil] at hclass
  rw [store16_append, except_ok_bind, hclass, except_ok_bind]

theorem swab_question (pre : List UInt8) :
    swab (pre ++ (host16 false 1 ++ host16 false 1)) pre.length 2 = .ok (pre ++ [0, 1, 0, 1]) := by
  have hlast := swab_append (pre ++ [0, 1]) [] 1 0 0
  rw [List.length_append, List.append_assoc, List.append_assoc] at hlast
  exact (swab_append pre [1, 0] 1 0 1).trans hlast

theorem swab_header (rand : ℕ) (rest : List UInt8) :
    swab (queryHeader (host16 false) rand ++ rest) 0 6 = .ok (queryHeader bytes16 rand ++ rest) := by
  unfold queryHeader host16 bytes16
  simp only [Bool.false_eq_true, if_false, List.reverse_cons, List.reverse_nil, List.nil_append, List.cons_append]
  rfl

/-- The query that is sent: the name area stands between the header and the question. -/
theorem encodeQuery_eq (bigEndian : Bool) (rand : ℕ) (h0 : 0 ∉ host) : encodeQuery bigEndian rand host =
    .ok (queryHeader bytes16 rand ++ (nameArea 0 (host.splitOn 46) ++ [0, 1, 0, 1])) := by
  have harea : (nameArea 0 (host.splitOn 46)).length = host.length + 2 := by
    rw [length_nameArea, List.intercalate_splitOn]
  have hlen (bigEndian : Bool) : (queryHeader (host16 bigEndian) rand ++ nameArea 0 (host.splitOn 46)).length =
      querySize + host.length + 2 := by
    rw [List.length_append, length_queryHeader, harea, Nat.add_assoc]
  have hloop := encodeLoop_text host h0 (queryHeader (host16 bigEndian) rand) [0, 0, 0] 0
  rw [length_queryHeader, ← List.append_assoc] at hloop
  simp only [encodeQuery]
  rw [fill_ok, hloop, except_ok_bind, ← hlen bigEndian, question_ok]
  cases bigEndian with
  | true => exact congrArg Except.ok (List.append_assoc _ _ _)
  | false =>
    rw [if_neg (by decide), List.append_assoc, swab_header, except_ok_bind, ← List.append_assoc]
    exact (swab_question _).trans (congrArg Except.ok (List.append_assoc _ _ _))

/-! Names of labels -/

theorem nameArea_wire (hne : labels ≠ []) (h : Sized 63 labels) : nameArea before labels = wire labels := by
  induction labels generalizing before with
  | nil => exact absurd rfl hne
  | cons label labels ih =>
    obtain ⟨⟨hpos, hle⟩, hrest⟩ := sized_cons.mp h
    by_cases hnil : labels = []
    · subst hnil
      rw [nameArea, if_neg (List.ne_nil_of_length_pos hpos)]
      rfl
    · rw [nameArea_cons hnil, ih hnil hrest]
      rfl

theorem wire_nameAt (h : Sized 63 labels) (pre rest : List UInt8) :
    NameAt (pre ++ (wire labels ++ rest)) pre.length (pre.length + (wire labels).length) := by
  induction labels generalizing pre with
  | nil => exact NameAt.root (byte_ok.mp (byte_append pre rest 0))
  | cons label labels ih =>
    obtain ⟨⟨hpos, hle⟩, hrest⟩ := sized_cons.mp h
    have hlen : label.length ≤ 255 := by omega
    have htail := ih hrest (pre ++ UInt8.ofNat label.length :: label)
    have hpre : (pre ++ UInt8.ofNat label.length :: label).length = pre.length + (label.length + 1) := by simp
    have hwire : (wire (label :: labels)).length = label.length + 1 + (wire labels).length := by
      simp [wire]
      omega
    have hd : pre ++ UInt8.ofNat label.length :: label ++ (wire labels ++ rest) = pre ++ (wire (label :: labels) ++ rest) := by
      simp [wire]
    rw [hpre, hd, Nat.add_assoc, ← hwire] at htail
    have hbyte := toNat_ofNat_length hlen
    refine NameAt.label (byte_ok.mp (byte_append pre _ _)) (ofNat_length_ne_zero hpos hlen) (label_byte (by omega)) ?_
    rwa [hbyte]

theorem splitOn_host (hne : labels ≠ []) (hclean : ∀ label ∈ labels, 0 ∉ label ∧ 46 ∉ label) :
    ([46].intercalate labels).splitOn 46 = labels := List.splitOn_intercalate 46 (fun label hl => (hclean label hl).2) hne

theorem zero_notMem_host (hclean : ∀ label ∈ labels, 0 ∉ label ∧ (46 : UInt8) ∉ label) : 0 ∉ [46].intercalate labels := by
  induction labels with
  | nil => simp
  | cons label labels ih =>
    have hrest := ih fun l hl => hclean l (List.mem_cons_of_mem _ hl)
    have hlabel := (hclean label List.mem_cons_self).1
    cases labels with
    | nil => simpa using hlabel
    | cons next labels =>
      rw [List.intercalate_cons_cons]
      simp [hlabel, hrest]

/-- A host name of labels comes to stand in the query as they are on the wire, and
`parse_dns_name` finds the question behind it. The loop touches no other byte: it does the
same between any bytes `pre` and `rest`, if a zero byte comes first in what follows the name. -/
theorem host_name_encoded (bigEndian : Bool) (rand : ℕ) {labels : List (List UInt8)} (hne : labels ≠ [])
    (hsized : Sized 63 labels) (hclean : ∀ label ∈ labels, 0 ∉ label ∧ 46 ∉ label) :
    (∀ pre rest : List UInt8, encodeLoop (([46].intercalate labels).length + 2)
        (pre ++ 0 :: ([46].intercalate labels ++ 0 :: 0 :: rest)) (pre.length + 1) 0 =
      .ok (pre ++ (wire labels ++ 0 :: rest))) ∧
    (wire labels).length = ([46].intercalate labels).length + 2 ∧ unwire 63 (wire labels) = some (labels, []) ∧
    ∃ header : List UInt8, header.length = querySize ∧
      encodeQuery bigEndian rand ([46].intercalate labels) = .ok (header ++ (wire labels ++ [0, 1, 0, 1])) ∧
      parseDnsName (header ++ (wire labels ++ [0, 1, 0, 1])) querySize = .ok (([46].intercalate labels).length + 2) := by
  have hsplit := splitOn_host hne hclean
  have h0 := zero_notMem_host hclean
  have harea : nameArea 0 labels = wire labels := nameArea_wire hne hsized
  have hlen : (wire labels).length = ([46].intercalate labels).length + 2 := by
    rw [← harea, length_nameArea]
  refine ⟨fun pre rest => ?_, hlen, ?_, queryHeader bytes16 rand, rfl, ?_, ?_⟩
  · rw [encodeLoop_text _ h0, hsplit, harea]
  · simpa using unwire_wire (by omega) hsized []
  · rw [encodeQuery_eq bigEndian rand h0, hsplit, harea]
  · have hparse := (wire_nameAt hsized (queryHeader bytes16 rand) [0, 1, 0, 1]).parse
    rwa [Nat.add_sub_cancel_left, hlen] at hparse

set_option maxRecDepth 20000 in
/-- The host `www.a`. -/
theorem host_name_encoded_www : ∃ header : List UInt8, header.length = querySize ∧
    encodeQuery false 7 [119, 119, 119, 46, 97] =
      .ok (header ++ ([3, 119, 119, 119, 1, 97, 0] ++ [0, 1, 0, 1])) := by
  obtain ⟨-, -, -, header, hlen, hquery, -⟩ :=
    @host_name_encoded false 7 [[119, 119, 119], [97]] (by decide) (by decide) (by decide)
  exact ⟨header, hlen, hquery⟩

/-! Which queries are well formed -/

/-- The name in the query is read as labels of 1 to 63 bytes, and the question follows the
zero byte at its end. -/
def WellFormedQuery (d : Datagram) : Prop := (unwire 63 (d.drop querySize)).map Prod.snd = some [0, 1, 0, 1]

instance (d : Datagram) : Decidable (WellFormedQuery d) := inferInstanceAs (Decidable (_ = _))

theorem wellFormedQuery_iff (rand : ℕ) (area : List UInt8) :
    WellFormedQuery (queryHeader bytes16 rand ++ (area ++ [0, 1, 0, 1])) ↔ ∃ labels, area = wire labels ∧ Sized 63 labels := by
  have hdrop : (queryHeader bytes16 rand ++ (area ++ [0, 1, 0, 1])).drop querySize = area ++ [0, 1, 0, 1] := rfl
  unfold WellFormedQuery
  rw [hdrop, Option.map_eq_some_iff]
  constructor
  · rintro ⟨⟨labels, rest⟩, hread, rfl⟩
    obtain ⟨heq, hsized⟩ := (unwire_eq_some (by omega)).mp hread
    exact ⟨labels, List.append_cancel_right heq, hsized⟩
  · rintro ⟨labels, rfl, hsized⟩
    exact ⟨(labels, [0, 1, 0, 1]), unwire_wire (by omega) hsized _, rfl⟩

/-- A name area that reads as labels reads as the labels of the host, if no length byte
has lost a multiple of 256. -/
theorem sized_of_nameArea {parts : List (List UInt8)} (hlabels : ∀ label ∈ labels, label.length ≤ 255)
    (hparts : Sized 63 parts) (h : nameArea before labels = wire parts) : Sized 63 labels := by
  induction labels generalizing before parts with
  | nil => exact List.forall_mem_nil _
  | cons label labels ih =>
    obtain ⟨hlabel, hrest⟩ := List.forall_mem_cons.mp hlabels
    cases parts with
    | nil =>
      have hlen := congrArg List.length h
      rw [length_nameArea] at hlen
      simp [wire] at hlen
    | cons part parts =>
      obtain ⟨⟨hpos, hle⟩, hparts⟩ := sized_cons.mp hparts
      -- the length byte of the label is that of the part
      have hsame (tail : List UInt8) (heq : UInt8.ofNat label.length :: (label ++ tail) = wire (part :: parts)) :
          label.length = part.length ∧ tail = wire parts := by
        obtain ⟨hbyte, happend⟩ := List.cons.inj heq
        have hlen := congrArg UInt8.toNat hbyte
        rw [toNat_ofNat_length hlabel, toNat_ofNat_length (by omega)] at hlen
        exact ⟨hlen, (List.append_inj happend hlen).2⟩
      by_cases hnil : labels = []
      · subst hnil
        rw [nameArea] at h
        split_ifs at h with hempty
        · have hlen := congrArg List.length h
          have hwire := length_lt_wire parts
          rw [wire, List.length_cons, List.length_cons, List.length_cons, List.length_nil, List.length_append] at hlen
          omega
        · obtain ⟨hlen, -⟩ := hsame _ h
          exact sized_cons.mpr ⟨by omega, List.forall_mem_nil _⟩
      · rw [nameArea_cons hnil] at h
        obtain ⟨hlen, htail⟩ := hsame _ h
        exact sized_cons.mpr ⟨by omega, ih hrest hparts htail⟩

theorem tcpDialIpv4_query (bigEndian : Bool) (rand : ℕ) (port : List UInt8) (h0 : 0 ∉ host) (hcolon : 58 ∉ host)
    (hip : Resolv.inetPton host = none) : tcpDialIpv4 bigEndian rand true (host ++ 58 :: port) =
      .ok (.query (queryHeader bytes16 rand ++ (nameArea 0 (host.splitOn 46) ++ [0, 1, 0, 1]))) := by
  have hall : ∀ b ∈ host, decide (b ≠ 58) = true := by
    intro b hb
    apply decide_eq_true
    rintro rfl
    exact hcolon hb
  have htake : (host ++ 58 :: port).takeWhile (fun b => decide (b ≠ 58)) = host := by
    rw [List.takeWhile_append_of_pos hall]
    simp
  have hdrop : (host ++ 58 :: port).dropWhile (fun b => decide (b ≠ 58)) = 58 :: port := by
    rw [List.dropWhile_append_of_pos hall]
    simp
  unfold tcpDialIpv4
  rw [hdrop]
  simp only [htake, hip, if_true, encodeQuery_eq bigEndian rand h0, except_ok_bind]

/-- A host whose labels have 1 to 63 bytes gives a well-formed query. No other does, up to
labels whose length does not fit into its byte. -/
theorem query_well_formed (bigEndian : Bool) (rand : ℕ) {host : List UInt8} (port : List UInt8) (h0 : 0 ∉ host)
    (hcolon : 58 ∉ host) (hip : Resolv.inetPton host = none) :
    ∃ d, tcpDialIpv4 bigEndian rand true (host ++ 58 :: port) = .ok (.query d) ∧
      (Sized 63 (host.splitOn 46) → WellFormedQuery d) ∧
      ((∀ label ∈ host.splitOn 46, label.length ≤ 255) → (WellFormedQuery d ↔ Sized 63 (host.splitOn 46))) := by
  refine ⟨_, tcpDialIpv4_query bigEndian rand port h0 hcolon hip, fun h => ?_, fun hlabels => ?_⟩
  · exact (wellFormedQuery_iff _ _).mpr ⟨_, nameArea_wire (List.splitOn_ne_nil _ _) h, h⟩
  · rw [wellFormedQuery_iff]
    constructor
    · rintro ⟨parts, harea, hparts⟩
      exact sized_of_nameArea hlabels hparts harea
    · intro h
      exact ⟨_, nameArea_wire (List.splitOn_ne_nil _ _) h, h⟩

/-- An empty host, a dot at the end, a dot in front, two dots in a row, and a label of 64 bytes. -/
theorem query_malformed :
    (∃ d, tcpDialIpv4 false 0 true (Resolv.ascii ":80") = .ok (.query d) ∧ ¬ WellFormedQuery d) ∧
    (∃ d, tcpDialIpv4 false 0 true (Resolv.ascii "a.:80") = .ok (.query d) ∧ ¬ WellFormedQuery d) ∧
    (∃ d, tcpDialIpv4 false 0 true (Resolv.ascii ".a:80") = .ok (.query d) ∧ ¬ WellFormedQuery d) ∧
    (∃ d, tcpDialIpv4 false 0 true (Resolv.ascii "a..b:80") = .ok (.query d) ∧ ¬ WellFormedQuery d) ∧
    ∃ d, tcpDialIpv4 false 0 true (List.replicate 64 97 ++ 58 :: Resolv.ascii "80") = .ok (.query d) ∧
      ¬ WellFormedQuery d := by
  have hport : Resolv.ascii ":80" = [] ++ 58 :: Resolv.ascii "80" := by decide
  have htrailing : Resolv.ascii "a.:80" = [97, 46] ++ 58 :: Resolv.ascii "80" := by decide
  have hleading : Resolv.ascii ".a:80" = [46, 97] ++ 58 :: Resolv.ascii "80" := by decide
  have hdouble : Resolv.ascii "a..b:80" = [97, 46, 46, 98] ++ 58 :: Resolv.ascii "80" := by decide
  rw [hport, htrailing, hleading, hdouble]
  refine ⟨?_, ?_, ?_, ?_, ?_⟩
  all_goals
    exact ⟨_, tcpDialIpv4_query false 0 _ (by decide) (by decide) (by decide), by decide⟩

/-- The host `www.a`, with a port. -/
theorem query_well_formed_www : ∃ d, tcpDialIpv4 true 7 true (Resolv.ascii "www.a:80") = .ok (.query d) ∧
    WellFormedQuery d := by
  obtain ⟨d, hdial, -, hiff⟩ :=
    @query_well_formed true 7 (Resolv.ascii "www.a") (Resolv.ascii "80") (by decide) (by decide) (by decide)
  have hall : Resolv.ascii "www.a:80" = Resolv.ascii "www.a" ++ 58 :: Resolv.ascii "80" := by decide
  rw [hall]
  exact ⟨d, hdial, (hiff (by decide)).mpr (by decide)⟩

set_option maxRecDepth 20000 in
/-- One label of 257 bytes whose length byte is 1, and whose other bytes read as labels. -/
example : ∃ d, encodeQuery false 0 (97 :: (List.replicate 4 (63 :: List.replicate 63 97)).flatten) = .ok d ∧
    WellFormedQuery d :=
  ⟨_, encodeQuery_eq false 0 (by decide), by decide⟩

end Lthr.Cdns

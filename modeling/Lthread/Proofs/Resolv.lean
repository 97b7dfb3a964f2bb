import Lthread.Lib.Machine
import Lthread.Lib.Split
import Lthread.Spec.Resolv

/-! The list of resolvers against the lines of the file: tokens are the parts of a line
between delimiters that are not empty, lines the parts of the text between newlines. -/

namespace Lthr.Resolv

variable {s text line t r : List UInt8} {resolvers : List Addr}

def tokens (line : List UInt8) : List (List UInt8) := (line.splitOnP isDelim).filter (· ≠ [])

def lines (text : List UInt8) : List (List UInt8) := text.splitOnP (· = 10)

def IsServer (line : List UInt8) : Prop := (tokens line).head? = some (ascii "nameserver")

instance (line : List UInt8) : Decidable (IsServer line) :=
  inferInstanceAs (Decidable ((tokens line).head? = some (ascii "nameserver")))

def address (line : List UInt8) : Option Addr := (tokens line)[1]?.bind inetPton

/-- The addresses that are the second token of a line whose first token is `nameserver`. -/
def nameservers (text : List UInt8) : List Addr :=
  (lines text).filterMap fun line => if IsServer line then address line else none

def fileText (file : List UInt8) : List UInt8 := file.takeWhile (· ≠ 0)

/-! Tokens -/

theorem tokens_dropWhile (s : List UInt8) : tokens (s.dropWhile isDelim) = tokens s := by
  induction s with
  | nil => rfl
  | cons c s ih =>
    by_cases hc : isDelim c = true
    · have hsplit : (c :: s).splitOnP isDelim = [] :: s.splitOnP isDelim := by
        have hd : (c :: s).dropWhile (!isDelim ·) = c :: s := by simp [hc]
        rw [splitOnP_of_cons hd]
        simp [hc]
      rw [List.dropWhile_cons_of_pos hc, ih]
      unfold tokens
      rw [hsplit]
      simp
    · rw [List.dropWhile_cons_of_neg hc]

theorem tokens_of_none (h : strtokR s = none) : tokens s = [] := by
  unfold strtokR at h
  split at h
  · next hnil =>
    rw [← tokens_dropWhile, hnil]
    rfl
  · cases h

theorem tokens_of_some (h : strtokR s = some (t, r)) : tokens s = t :: tokens r ∧ r.length < s.length := by
  unfold strtokR at h
  split at h
  · cases h
  next c u hdrop =>
  have hc : isDelim c = false := head_dropWhile hdrop
  have hlen : (c :: u).length ≤ s.length := by
    rw [← hdrop]
    exact (List.dropWhile_sublist _).length_le
  have hle : ((c :: u).dropWhile (!isDelim ·)).length ≤ u.length := by
    rw [List.dropWhile_cons_of_pos (by simp [hc])]
    exact (List.dropWhile_sublist _).length_le
  have hne : (c :: u).takeWhile (!isDelim ·) ≠ [] := by simp [hc]
  obtain ⟨ht, hr⟩ := Prod.mk.inj (Option.some_inj.mp h)
  rw [← tokens_dropWhile, hdrop, ← ht, ← hr]
  rw [List.length_cons] at hlen
  cases hrest : (c :: u).dropWhile (!isDelim ·) with
  | nil =>
    have hall : (c :: u).takeWhile (!isDelim ·) = c :: u := by
      have happend : (c :: u).takeWhile (!isDelim ·) ++ (c :: u).dropWhile (!isDelim ·) = c :: u :=
        List.takeWhile_append_dropWhile
      rwa [hrest, List.append_nil] at happend
    refine ⟨?_, by simp; omega⟩
    unfold tokens
    rw [splitOnP_of_nil hrest, hall]
    simp
  | cons d v =>
    rw [hrest] at hle
    refine ⟨?_, by simp at hle ⊢; omega⟩
    unfold tokens
    rw [splitOnP_of_cons hrest, List.filter_cons_of_pos (by simpa using hne)]
    rfl

theorem skipTokens_ok (rounds : ℕ) (h : s.length < rounds) : skipTokens rounds s = .ok () := by
  induction rounds generalizing s with
  | zero => omega
  | succ rounds ih =>
    rw [skipTokens]
    cases hs : strtokR s with
    | none => rfl
    | some p =>
      have hlt := (tokens_of_some (t := p.1) (r := p.2) hs).2
      exact ih (by omega)

/-! Lines -/

theorem parseLine_other (h : ¬ IsServer line) : resolvConfParseLine resolvers line = .ok resolvers := by
  unfold IsServer at h
  unfold resolvConfParseLine
  cases hs : strtokR line with
  | none => rfl
  | some q =>
    obtain ⟨first, state⟩ := q
    rw [(tokens_of_some hs).1, List.head?_cons, Option.some_inj] at h
    simp only
    rw [if_neg h]
    split_ifs with h1 h2
    · rfl
    · rw [skipTokens_ok _ (Nat.lt_succ_self _)]
      rfl
    · rfl

/-- A line that begins with `nameserver` adds its server, and 0 for one that is not an
address; if it has none, a NULL token is passed on. -/
theorem parseLine_server (h : IsServer line) : resolvConfParseLine resolvers line =
    match (tokens line)[1]? with
    | none => .error .null
    | some token => .ok (addResolver resolvers token) := by
  unfold IsServer at h
  unfold resolvConfParseLine
  cases hs : strtokR line with
  | none =>
    rw [tokens_of_none hs] at h
    cases h
  | some q =>
    obtain ⟨first, state⟩ := q
    have htokens := (tokens_of_some hs).1
    rw [htokens, List.head?_cons, Option.some_inj] at h
    rw [htokens, List.getElem?_cons_succ]
    simp only
    rw [if_pos h]
    cases hs' : strtokR state with
    | none =>
      rw [tokens_of_none hs']
      rfl
    | some q' =>
      obtain ⟨token, state'⟩ := q'
      rw [(tokens_of_some hs').1]
      rfl

theorem parseLines_eq (rounds : ℕ) (text : List UInt8) (resolvers : List Addr) (h : text.length < rounds) :
    parseLines rounds text resolvers = (lines text).foldlM resolvConfParseLine resolvers := by
  induction rounds generalizing text resolvers with
  | zero => omega
  | succ rounds ih =>
    have hp : (fun b : UInt8 => decide (b ≠ 10)) = fun b => !decide (b = 10) := by
      funext b
      simp
    rw [parseLines, hp]
    unfold lines
    cases hd : text.dropWhile fun b => !decide (b = 10) with
    | nil =>
      rw [splitOnP_of_nil hd, List.foldlM_cons]
      simp
    | cons c next =>
      have hlen : (text.dropWhile fun b => !decide (b = 10)).length ≤ text.length :=
        (List.dropWhile_sublist _).length_le
      rw [hd, List.length_cons] at hlen
      rw [splitOnP_of_cons hd, List.foldlM_cons]
      simp only
      congr 1
      funext resolvers'
      exact ih next resolvers' (by omega)

/-- A line that begins with `nameserver` goes on with an address. -/
def Proper (line : List UInt8) : Prop := IsServer line → (address line).isSome = true

def contribution (line : List UInt8) : Option Addr := if IsServer line then address line else none

theorem parseLine_proper (h : Proper line) :
    resolvConfParseLine resolvers line = .ok (resolvers ++ (contribution line).toList) := by
  unfold contribution
  by_cases hs : IsServer line
  · obtain ⟨addr, haddr⟩ := Option.isSome_iff_exists.mp (h hs)
    obtain ⟨token, htoken, hpton⟩ := Option.bind_eq_some_iff.mp haddr
    rw [parseLine_server hs, htoken, if_pos hs, haddr]
    simp only
    rw [addResolver, hpton]
    rfl
  · rw [parseLine_other hs, if_neg hs, Option.toList_none, List.append_nil]

/-- A line never takes anything away, and adds as much as it contributes only if it is proper. -/
theorem parseLine_length {resolvers' : List Addr} (h : resolvConfParseLine resolvers line = .ok resolvers') :
    resolvers.length + (contribution line).toList.length ≤ resolvers'.length ∧
      (resolvers'.length = resolvers.length + (contribution line).toList.length → Proper line) := by
  by_cases hs : IsServer line
  · rw [parseLine_server hs] at h
    cases ht : (tokens line)[1]? with
    | none => rw [ht] at h; cases h
    | some token =>
      rw [ht] at h
      obtain rfl := Except.ok.inj h
      have hlen : (addResolver resolvers token).length = resolvers.length + 1 := by simp [addResolver]
      unfold contribution
      rw [if_pos hs, hlen]
      cases ha : address line with
      | none => simp
      | some addr => exact ⟨le_rfl, fun _ _ => by rw [ha]; rfl⟩
  · rw [parseLine_other hs] at h
    obtain rfl := Except.ok.inj h
    unfold contribution
    rw [if_neg hs]
    exact ⟨le_rfl, fun _ h => absurd h hs⟩

theorem foldlM_proper (ls : List (List UInt8)) (resolvers : List Addr) (h : ∀ line ∈ ls, Proper line) :
    ls.foldlM resolvConfParseLine resolvers = .ok (resolvers ++ ls.filterMap contribution) := by
  induction ls generalizing resolvers with
  | nil => simp [pure, Except.pure]
  | cons line ls ih =>
    rw [List.foldlM_cons, parseLine_proper (h line (by simp)), except_ok_bind, ih _ fun l hl => h l (by simp [hl])]
    cases hc : contribution line with
    | none => rw [List.filterMap_cons_none hc, Option.toList_none, List.append_nil]
    | some addr => rw [List.filterMap_cons_some hc, Option.toList_some, List.append_assoc]; rfl

theorem length_filterMap_cons (line : List UInt8) (ls : List (List UInt8)) :
    ((line :: ls).filterMap contribution).length =
      (contribution line).toList.length + (ls.filterMap contribution).length := by
  cases hc : contribution line with
  | none => rw [List.filterMap_cons_none hc]; simp
  | some addr => rw [List.filterMap_cons_some hc]; simp; omega

theorem foldlM_length (ls : List (List UInt8)) (resolvers resolvers' : List Addr)
    (h : ls.foldlM resolvConfParseLine resolvers = .ok resolvers') :
    resolvers.length + (ls.filterMap contribution).length ≤ resolvers'.length ∧
      (resolvers'.length = resolvers.length + (ls.filterMap contribution).length → ∀ line ∈ ls, Proper line) := by
  induction ls generalizing resolvers with
  | nil =>
    obtain rfl := Except.ok.inj h
    exact ⟨le_rfl, fun _ => nofun⟩
  | cons line ls ih =>
    rw [List.foldlM_cons] at h
    obtain ⟨mid, hmid, hrest⟩ := except_bind_ok h
    obtain ⟨hle, hproper⟩ := parseLine_length hmid
    obtain ⟨hle', hproper'⟩ := ih mid hrest
    rw [length_filterMap_cons]
    refine ⟨by omega, fun heq l hl => ?_⟩
    rcases List.mem_cons.mp hl with rfl | hl
    · exact hproper (by omega)
    · exact hproper' (by omega) l hl

/-! The file -/

theorem readLoop_ok (size : ℕ) (chunks : List (List UInt8)) (resolv : List UInt8) (hne : [] ∉ chunks)
    (hlen : resolv.length + chunks.flatten.length = size) (hpos : chunks ≠ []) :
    readLoop size (chunks.map some) resolv = .ok (some (resolv ++ chunks.flatten)) := by
  induction chunks generalizing resolv with
  | nil => exact absurd rfl hpos
  | cons chunk chunks ih =>
    rw [List.mem_cons, not_or] at hne
    rw [List.flatten_cons, List.length_append] at hlen
    rw [List.map_cons, readLoop, if_neg (Ne.symm hne.1), List.length_append]
    cases chunks with
    | nil =>
      rw [if_pos (by simpa using hlen)]
      simp
    | cons next chunks =>
      have hnext : 0 < next.length := by
        rw [List.length_pos_iff]
        rintro rfl
        exact hne.2 (by simp)
      have hflat : (next :: chunks).flatten.length = next.length + chunks.flatten.length := by
        rw [List.flatten_cons, List.length_append]
      rw [if_neg (by omega), if_pos (by omega), ih (resolv ++ chunk) hne.2 (by rw [List.length_append]; omega) (by simp)]
      simp only [List.flatten_cons, List.append_assoc]

/-- `dns_resolv_parse` ends, passes no NULL token on and leaves exactly the addresses of the
`nameserver` lines, in their order, if and only if each of these lines has an address. -/
theorem resolv_conf_parsed {file : List UInt8} {chunks : List (List UInt8)} (hpos : 1 ≤ file.length)
    (hle : file.length ≤ 65535) (hfile : chunks.flatten = file) (hne : [] ∉ chunks) :
    dnsResolvParse ⟨true, some file.length, true, chunks.map some⟩ [] = .ok (0, nameservers (fileText file)) ↔
      ∀ line ∈ lines (fileText file), IsServer line → (address line).isSome = true := by
  have hchunks : chunks ≠ [] := by
    rintro rfl
    rw [← hfile] at hpos
    simp at hpos
  have hread := readLoop_ok file.length chunks [] hne (by rw [hfile]; simp) hchunks
  rw [hfile, List.nil_append] at hread
  have hrun : dnsResolvParse ⟨true, some file.length, true, chunks.map some⟩ [] =
      (lines (fileText file)).foldlM resolvConfParseLine [] >>= fun resolvers => .ok (0, resolvers) := by
    unfold dnsResolvParse
    simp only
    rw [if_neg (by decide), if_neg (by omega), if_neg (by omega), if_neg (by decide), hread]
    simp only [except_ok_bind]
    rw [parseLines_eq _ _ _ (Nat.lt_succ_self _)]
    rfl
  rw [hrun]
  constructor
  · intro h
    obtain ⟨resolvers, hfold, heq⟩ := except_bind_ok h
    obtain ⟨-, rfl⟩ := Prod.mk.inj (Except.ok.inj heq)
    exact (foldlM_length _ _ _ hfold).2 (by rw [List.length_nil, Nat.zero_add]; rfl)
  · intro h
    rw [foldlM_proper _ _ h]
    rfl

/-- An IPv6 server becomes 0.0.0.0, and a line without a server passes NULL on. -/
theorem resolv_conf_leaks :
    dnsResolvParse ⟨true, some 14, true, [some (ascii "nameserver ::1")]⟩ [] = .ok (0, [[0, 0, 0, 0]]) ∧
      nameservers (ascii "nameserver ::1") = [] ∧
      dnsResolvParse ⟨true, some 10, true, [some (ascii "nameserver")]⟩ [] = .error .null := by
  decide

/-- A comment, a server and an option, in two pieces and without a newline at the end. -/
theorem resolv_conf_parsed_server :
    dnsResolvParse ⟨true, some 36, true, [some (ascii "# x\nnameserver\t1.2"), some (ascii ".3.4\noptions a b c")]⟩ [] =
      .ok (0, nameservers (fileText (ascii "# x\nnameserver\t1.2.3.4\noptions a b c"))) :=
  (@resolv_conf_parsed (ascii "# x\nnameserver\t1.2.3.4\noptions a b c")
    [ascii "# x\nnameserver\t1.2", ascii ".3.4\noptions a b c"] (by decide) (by decide) (by decide) (by decide)).mpr
    (by decide)

end Lthr.Resolv

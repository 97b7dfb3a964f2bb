import Lthread.Proofs.Cdns

/-! The loop of `dns_lookup` over the resolvers. -/

namespace Lthr.Cdns

variable {bigEndian : Bool} {n k rounds : ℕ} {net : ℕ → Exchange}

def Gives (bigEndian : Bool) (x : Exchange) (ipv4 : ℕ) : Prop := ∃ d i, x = .response d ∧ Carries bigEndian d i ipv4

/-- What the exchange with resolver `k` of `n` has to be for the next resolver to follow. The
loops over a response count with the variable of the loop over the resolvers: the answers
before the first address, or all of them, are as many as the resolvers before this one. Behind
the last resolver it is enough that they are not fewer. -/
def Orderly (bigEndian : Bool) (n k : ℕ) : Exchange → Prop
  | .socketError => k + 1 = n
  | .sendError | .noResponse => True
  | .response d => WellFormed bigEndian d ∧ ∀ i, Carries bigEndian d i 0 → if k + 1 = n then k ≤ i else i = k

/-- The resolvers have been tried in their order, each once, up to the one that gave the
address, and all of them if none did. -/
def FailsOver (bigEndian : Bool) (n : ℕ) (net : ℕ → Exchange) (result : Except Fault (List ℕ × ℕ)) : Prop :=
  ∃ m ipv4, result = .ok (List.range m, ipv4) ∧ m ≤ n ∧ (ipv4 = 0 → m = n) ∧
    (ipv4 ≠ 0 → 0 < m ∧ Gives bigEndian (net (m - 1)) ipv4)

theorem Carries.unique {d : Datagram} {i j v w : ℕ} (h : Carries bigEndian d i v) (h' : Carries bigEndian d j w) :
    i = j ∧ v = w := by
  have heq := (readResponse_walked.mpr h).symm.trans (readResponse_walked.mpr h')
  exact Reply.walked.inj (Except.ok.inj heq)

/-- After an orderly exchange that gives no address the next resolver is tried, if there is one. -/
theorem Orderly.round (h : Orderly bigEndian n k (net k)) (hk : k < n) (rounds : ℕ) :
    (lookupLoop bigEndian n net (rounds + 2) k (List.range k) =
        lookupLoop bigEndian n net (rounds + 1) (k + 1) (List.range (k + 1)) ∧ ∀ v ≠ 0, ¬ Gives bigEndian (net k) v) ∨
      ∃ ipv4, ipv4 ≠ 0 ∧ Gives bigEndian (net k) ipv4 ∧
        lookupLoop bigEndian n net (rounds + 2) k (List.range k) = .ok (List.range (k + 1), ipv4) := by
  have hlast (i : ℕ) (hi : n ≤ i) (q : List ℕ) : lookupLoop bigEndian n net (rounds + 1) i q = .ok (q, 0) := by
    rw [lookupLoop, if_neg (by omega)]
  rw [lookupLoop, if_pos hk, List.length_range, List.range_succ]
  cases hx : net k with
  | socketError =>
    rw [hx] at h
    have hn : n ≤ k + 1 := Nat.le_of_eq (Eq.symm h)
    exact Or.inl ⟨(hlast _ hn _).symm, fun v _ hg => by simp [Gives] at hg⟩
  | sendError | noResponse => exact Or.inl ⟨rfl, fun v _ hg => by simp [Gives] at hg⟩
  | response d =>
    rw [hx] at h
    obtain ⟨hd, hcount⟩ := h
    obtain ⟨r, hr⟩ := readResponse_ok.mpr hd
    simp only [hr]
    cases r with
    | flagError =>
      refine Or.inl ⟨rfl, ?_⟩
      rintro v - ⟨_, i, heq, hc⟩
      obtain rfl := Exchange.response.inj heq
      cases hr.symm.trans (readResponse_walked.mpr hc)
    | walked i ipv4 =>
      have hc := readResponse_walked.mp hr
      by_cases h0 : ipv4 = 0
      · subst h0
        refine Or.inl ⟨?_, ?_⟩
        · have hi := hcount i hc
          split_ifs at hi with hn
          · exact (hlast (i + 1) (by omega) _).trans (hlast (k + 1) (by omega) _).symm
          · subst hi
            rfl
        · rintro v hv ⟨_, j, heq, hc'⟩
          obtain rfl := Exchange.response.inj heq
          exact hv (hc'.unique hc).2
      · exact Or.inr ⟨ipv4, h0, ⟨d, i, rfl, hc⟩, if_pos h0⟩

/-- What has been tried stays in the list, and so does the resolver whose turn it is. -/
theorem lookupLoop_extends {i v : ℕ} {queried q : List ℕ} (h : lookupLoop bigEndian n net rounds i queried = .ok (q, v)) :
    queried <+: q ∧ (i < n → queried ++ [i] <+: q) := by
  induction rounds generalizing i queried with
  | zero => cases h
  | succ rounds ih =>
    rw [lookupLoop] at h
    by_cases hi : i < n
    · rw [if_pos hi] at h
      suffices hq : queried ++ [i] <+: q from ⟨(List.prefix_append _ _).trans hq, fun _ => hq⟩
      split at h
      · obtain ⟨rfl, rfl⟩ := Prod.mk.inj (Except.ok.inj h)
        exact List.prefix_rfl
      · exact (ih h).1
      · exact (ih h).1
      · obtain ⟨r, -, h⟩ := except_bind_ok h
        cases r with
        | flagError => exact (ih h).1
        | walked j ipv4 =>
          simp only at h
          split_ifs at h
          · obtain ⟨rfl, rfl⟩ := Prod.mk.inj (Except.ok.inj h)
            exact List.prefix_rfl
          · exact (ih h).1
    · rw [if_neg hi] at h
      obtain ⟨rfl, rfl⟩ := Prod.mk.inj (Except.ok.inj h)
      exact ⟨List.prefix_rfl, fun h0 => absurd h0 hi⟩

theorem range_extends {m j : ℕ} (h : List.range k ++ [j] <+: List.range m) : j = k := by
  obtain ⟨t, ht⟩ := h
  have hget := congrArg (·[k]?) ht
  simp at hget
  rcases Nat.lt_or_ge k m with hlt | hge
  · simpa [hlt] using hget
  · simp [hge] at hget

theorem FailsOver.orderly (h : FailsOver bigEndian n net (lookupLoop bigEndian n net (rounds + 1) k (List.range k)))
    (hk : k < n) : Orderly bigEndian n k (net k) := by
  obtain ⟨m, ipv4, heq, -, hall, -⟩ := h
  rw [lookupLoop, if_pos hk, List.length_range, ← List.range_succ] at heq
  have hend (h0 : List.range (k + 1) = List.range m ∧ 0 = ipv4) : k + 1 = n := by
    have hm := congrArg List.length h0.1
    simp only [List.length_range] at hm
    exact hm.trans (hall h0.2.symm)
  cases hx : net k with
  | socketError =>
    rw [hx] at heq
    exact hend (Prod.mk.inj (Except.ok.inj heq))
  | sendError | noResponse => trivial
  | response d =>
    rw [hx] at heq
    obtain ⟨r, hr, heq⟩ := except_bind_ok heq
    refine ⟨readResponse_ok.mp ⟨r, hr⟩, fun i hc => ?_⟩
    obtain rfl := Except.ok.inj (hr.symm.trans (readResponse_walked.mpr hc))
    replace heq : lookupLoop bigEndian n net rounds (i + 1) (List.range (k + 1)) = .ok (List.range m, ipv4) := heq
    rcases Nat.lt_or_ge (i + 1) n with hi | hi
    · obtain rfl := Nat.succ.inj (range_extends ((lookupLoop_extends heq).2 hi))
      split_ifs <;> omega
    · cases rounds with
      | zero => cases heq
      | succ rounds =>
        rw [lookupLoop, if_neg (by omega)] at heq
        have hn := hend (Prod.mk.inj (Except.ok.inj heq))
        rw [if_pos hn]
        omega

/-- From resolver `k` on, with a round for each resolver that is left and one to end. -/
theorem lookupLoop_failsOver (hk : k + rounds = n) :
    FailsOver bigEndian n net (lookupLoop bigEndian n net (rounds + 1) k (List.range k)) ↔
      ∀ j, k ≤ j → j < n → (∀ i, k ≤ i → i < j → ∀ v ≠ 0, ¬ Gives bigEndian (net i) v) → Orderly bigEndian n j (net j) := by
  induction rounds generalizing k with
  | zero =>
    refine iff_of_true ⟨k, 0, ?_, by omega, fun _ => by omega, fun h0 => absurd rfl h0⟩ fun j h1 h2 => absurd h2 (by omega)
    rw [lookupLoop, if_neg (by omega)]
  | succ rounds ih =>
    have hlt : k < n := by omega
    have hnext := ih (k := k + 1) (by omega)
    constructor
    · intro h j hj hjn hno
      have hfirst := h.orderly hlt
      rcases Nat.eq_or_lt_of_le hj with rfl | hj
      · exact hfirst
      · rcases hfirst.round hlt rounds with ⟨heq, -⟩ | ⟨v, hv, hg, -⟩
        · rw [heq] at h
          exact hnext.mp h j hj hjn fun i hi => hno i (by omega)
        · exact absurd hg (hno k le_rfl hj v hv)
    · intro h
      rcases (h k le_rfl hlt fun i h1 h2 => absurd h2 (by omega)).round hlt rounds with ⟨heq, hnone⟩ | ⟨v, hv, hg, heq⟩
      · rw [heq]
        refine hnext.mpr fun j hj hjn hno => h j (by omega) hjn fun i hi hij => ?_
        rcases Nat.eq_or_lt_of_le hi with rfl | hi
        · exact hnone
        · exact hno i hi hij
      · exact ⟨k + 1, v, heq, by omega, fun h0 => absurd h0 hv, fun _ => ⟨by omega, hg⟩⟩

/-- A response that announces no questions and no answers. -/
def emptyResponse : Datagram := [0, 0, 0x80, 0, 0, 0, 0, 0, 0, 0, 0, 0]

/-- A response without questions, whose one answer is not an address. -/
def otherResponse : Datagram := [0, 0, 0x80, 0, 0, 0, 0, 1, 0, 0, 0, 0, 0, 0, 5, 0, 1, 0, 0, 0, 0, 0, 0]

def repeating : ℕ → Exchange
  | 0 => .noResponse
  | _ + 1 => .response emptyResponse

set_option maxRecDepth 20000 in
theorem readResponse_empty : readResponse false emptyResponse = .ok (.walked 0 0) := rfl

theorem repeating_never_ends (rounds m : ℕ) (queried : List ℕ) (h : queried.length = m + 1) :
    lookupLoop false 2 repeating rounds 1 queried = .error .rounds := by
  induction rounds generalizing m queried with
  | zero => rfl
  | succ rounds ih =>
    have hstep : lookupLoop false 2 repeating (rounds + 1) 1 queried =
        lookupLoop false 2 repeating rounds 1 (queried ++ [1]) := by
      rw [lookupLoop, if_pos (by omega), h]
      change (readResponse false emptyResponse >>= _) = _
      rw [readResponse_empty]
      rfl
    rw [hstep]
    exact ih (m + 1) (queried ++ [1]) (by simp [h])

end Lthr.Cdns

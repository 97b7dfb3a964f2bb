import Mathlib.Tactic

/-! Sequences of byte strings on the wire: each one behind a byte with its length, and a
zero byte at the end. -/

namespace Lthr

variable {limit rounds : ℕ} {s r part : List UInt8} {parts : List (List UInt8)}

def wire : List (List UInt8) → List UInt8
  | [] => [0]
  | part :: parts => UInt8.ofNat part.length :: (part ++ wire parts)

def unwireLoop (limit : ℕ) : ℕ → List UInt8 → Option (List (List UInt8) × List UInt8)
  | 0, _ | _ + 1, [] => none
  | rounds + 1, b :: s =>
    if b = 0 then some ([], s)
    else if b.toNat ≤ limit ∧ b.toNat ≤ s.length then
      (unwireLoop limit rounds (s.drop b.toNat)).map fun rest => (s.take b.toNat :: rest.1, rest.2)
    else none

/-- The parts that `s` starts with, none longer than `limit`, and what follows the zero
byte. -/
def unwire (limit : ℕ) (s : List UInt8) : Option (List (List UInt8) × List UInt8) :=
  unwireLoop limit (s.length + 1) s

/-- The parts are neither empty nor longer than `limit`. -/
def Sized (limit : ℕ) (parts : List (List UInt8)) : Prop := ∀ part ∈ parts, 1 ≤ part.length ∧ part.length ≤ limit

instance (limit : ℕ) (parts : List (List UInt8)) : Decidable (Sized limit parts) :=
  inferInstanceAs (Decidable (∀ _ ∈ _, _))

theorem sized_cons : Sized limit (part :: parts) ↔ (1 ≤ part.length ∧ part.length ≤ limit) ∧ Sized limit parts :=
  List.forall_mem_cons

theorem toNat_ofNat_length (h : part.length ≤ 255) : (UInt8.ofNat part.length).toNat = part.length := by
  rw [UInt8.toNat_ofNat', Nat.mod_eq_of_lt (by omega)]

theorem ofNat_length_ne_zero (h1 : 1 ≤ part.length) (h2 : part.length ≤ 255) : UInt8.ofNat part.length ≠ 0 := by
  intro h
  have hlen := toNat_ofNat_length h2
  rw [h, UInt8.toNat_zero] at hlen
  omega

theorem unwireLoop_wire (hlimit : limit ≤ 255) (h : Sized limit parts) (hr : parts.length < rounds) :
    unwireLoop limit rounds (wire parts ++ r) = some (parts, r) := by
  induction parts generalizing rounds with
  | nil =>
    obtain ⟨rounds, rfl⟩ := Nat.exists_eq_succ_of_ne_zero (by omega : rounds ≠ 0)
    rfl
  | cons part parts ih =>
    obtain ⟨rounds, rfl⟩ := Nat.exists_eq_succ_of_ne_zero (by omega : rounds ≠ 0)
    obtain ⟨⟨hpos, hle⟩, hrest⟩ := sized_cons.mp h
    have hlen := toNat_ofNat_length (hle.trans hlimit)
    rw [List.length_cons] at hr
    rw [wire, List.cons_append, List.append_assoc, unwireLoop, if_neg (ofNat_length_ne_zero hpos (hle.trans hlimit)),
      hlen, if_pos ⟨hle, by simp⟩, List.drop_left, List.take_left, ih hrest (by omega)]
    rfl

theorem length_lt_wire (parts : List (List UInt8)) : parts.length < (wire parts).length := by
  induction parts with
  | nil => simp [wire]
  | cons part parts ih =>
    rw [wire, List.length_cons, List.length_cons, List.length_append]
    omega

theorem unwire_wire (hlimit : limit ≤ 255) (h : Sized limit parts) (r : List UInt8) :
    unwire limit (wire parts ++ r) = some (parts, r) := by
  have hlen := length_lt_wire parts
  refine unwireLoop_wire hlimit h ?_
  rw [List.length_append]
  omega

theorem unwireLoop_some (h : unwireLoop limit rounds s = some (parts, r)) : s = wire parts ++ r ∧ Sized limit parts := by
  induction rounds generalizing s parts with
  | zero => cases h
  | succ rounds ih =>
    cases s with
    | nil => cases h
    | cons b s =>
      rw [unwireLoop] at h
      split_ifs at h with hb hlen
      · cases h
        exact ⟨by rw [hb]; rfl, List.forall_mem_nil _⟩
      · obtain ⟨⟨rest, r'⟩, hrest, heq⟩ := Option.map_eq_some_iff.mp h
        cases heq
        obtain ⟨hs, hsized⟩ := ih hrest
        have htake : (s.take b.toNat).length = b.toNat := List.length_take_of_le hlen.2
        have hpos : b.toNat ≠ 0 := fun h0 => hb (UInt8.toNat_inj.mp h0)
        refine ⟨?_, sized_cons.mpr ⟨by omega, hsized⟩⟩
        rw [wire, htake, UInt8.ofNat_toNat, List.cons_append, List.append_assoc, ← hs, List.take_append_drop]

theorem unwire_eq_some (hlimit : limit ≤ 255) :
    unwire limit s = some (parts, r) ↔ s = wire parts ++ r ∧ Sized limit parts := by
  constructor
  · exact unwireLoop_some
  · rintro ⟨rfl, h⟩
    exact unwire_wire hlimit h r

end Lthr

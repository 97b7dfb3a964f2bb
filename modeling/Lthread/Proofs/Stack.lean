import Lthread.Spec.Stack

/-! Which stack sizes make `_lthread_madvise` spare the stack in use. The depth is rounded
up by the code and the length of the rest by the kernel, so that the two agree only if
the stack is a whole number of pages. -/

namespace Lthr

/-- The length is what lies below the depth rounded up to a page, and the pages that the
kernel drops, those that begin below `length`, hold no byte of the stack in use. -/
def Madvise.Safe (stackSize page : ℕ) (m : Madvise) : Prop :=
  (∃ tmp, page ∣ tmp ∧ m.currentStack.toNat ≤ tmp ∧ tmp < m.currentStack.toNat + page ∧
    m.length.toNat + tmp = stackSize) ∧
  ∀ i, i / page * page < m.length.toNat → ¬ (stackSize - m.currentStack.toNat ≤ i ∧ i < stackSize)

namespace LtStack

variable {s : LtStack} {k : ℕ}

theorem pageMask (hk : k < 31) : ((BitVec.ofNat 32 (2 ^ k) - 1).signExtend 64).toNat = 2 ^ k - 1 := by
  have hall : ∀ j : Fin 31, ((BitVec.ofNat 32 (2 ^ j.val) - 1).signExtend 64).toNat = 2 ^ j.val - 1 := by decide
  exact hall ⟨k, hk⟩

theorem pageSize_toNat (hk : k < 31) : ((BitVec.ofNat 32 (2 ^ k)).signExtend 64).toNat = 2 ^ k := by
  have hall : ∀ j : Fin 31, ((BitVec.ofNat 32 (2 ^ j.val)).signExtend 64).toNat = 2 ^ j.val := by decide
  exact hall ⟨k, hk⟩

/-- What is added to the depth takes it to the next multiple of the page size. -/
theorem pad_spec (hk : k < 31) (c : BitVec 64) :
    (-c &&& (BitVec.ofNat 32 (2 ^ k) - 1).signExtend 64).toNat < 2 ^ k ∧
      2 ^ k ∣ c.toNat + (-c &&& (BitVec.ofNat 32 (2 ^ k) - 1).signExtend 64).toNat := by
  have hdvd : 2 ^ k ∣ 2 ^ 64 := pow_dvd_pow 2 (by omega)
  have hpad : (-c &&& (BitVec.ofNat 32 (2 ^ k) - 1).signExtend 64).toNat = (2 ^ 64 - c.toNat) % 2 ^ k := by
    rw [BitVec.toNat_and, pageMask hk, Nat.and_two_pow_sub_one_eq_mod, BitVec.toNat_neg,
      Nat.mod_mod_of_dvd _ hdvd]
  rw [hpad]
  refine ⟨Nat.mod_lt _ (Nat.two_pow_pos k), ?_⟩
  have hc : c.toNat ≤ 2 ^ 64 := c.isLt.le
  rw [Nat.dvd_iff_mod_eq_zero, Nat.add_mod_mod, Nat.add_sub_cancel' hc]
  exact Nat.mod_eq_zero_of_dvd hdvd

theorem tmp_toNat (hk : k < 31) (hpage : s.pageSize = BitVec.ofNat 32 (2 ^ k)) {c : BitVec 64}
    (hdvd : 2 ^ k ∣ s.stackSize.toNat) (hc : c ≤ s.stackSize) :
    2 ^ k ∣ (s.tmp c).toNat ∧ c.toNat ≤ (s.tmp c).toNat ∧ (s.tmp c).toNat < c.toNat + 2 ^ k ∧
      (s.tmp c).toNat ≤ s.stackSize.toNat := by
  obtain ⟨hlt, hmul⟩ := pad_spec hk c
  unfold tmp
  rw [hpage]
  generalize -c &&& (BitVec.ofNat 32 (2 ^ k) - 1).signExtend 64 = pad at hlt hmul ⊢
  have hle : c.toNat ≤ s.stackSize.toNat := hc
  have hroom : c.toNat + pad.toNat ≤ s.stackSize.toNat := by
    obtain ⟨a, ha⟩ := hmul
    obtain ⟨b, hb⟩ := hdvd
    -- the pad is less than a page
    have hab : 2 ^ k * a < 2 ^ k * (b + 1) := by
      rw [← ha, Nat.mul_add, Nat.mul_one, ← hb]
      omega
    rw [ha, hb]
    exact Nat.mul_le_mul_left _ (Nat.lt_succ_iff.mp (Nat.lt_of_mul_lt_mul_left hab))
  have hadd : (c + pad).toNat = c.toNat + pad.toNat := by
    rw [BitVec.toNat_add]
    exact Nat.mod_eq_of_lt (lt_of_le_of_lt hroom s.stackSize.isLt)
  rw [hadd]
  exact ⟨hmul, by omega, by omega, hroom⟩

theorem safe_of_dvd (hk : k < 31) (hpage : s.pageSize = BitVec.ofNat 32 (2 ^ k)) {c : BitVec 64}
    (hdvd : 2 ^ k ∣ s.stackSize.toNat) (hc : c ≤ s.stackSize) :
    Madvise.Safe s.stackSize.toNat (2 ^ k) ⟨s.stackSize - s.tmp c, c⟩ := by
  obtain ⟨hmul, hge, hlt, hle⟩ := tmp_toNat hk hpage hdvd hc
  have hlen : (s.stackSize - s.tmp c).toNat = s.stackSize.toNat - (s.tmp c).toNat :=
    BitVec.toNat_sub_of_le hle
  refine ⟨⟨(s.tmp c).toNat, hmul, hge, hlt, ?_⟩, fun i hi hlive => ?_⟩
  · change (s.stackSize - s.tmp c).toNat + _ = _
    omega
  · change i / 2 ^ k * 2 ^ k < (s.stackSize - s.tmp c).toNat at hi
    rw [hlen] at hi
    obtain ⟨a, ha⟩ := Nat.dvd_sub hdvd hmul
    rw [ha, Nat.mul_comm (2 ^ k)] at hi
    have hi' : i < a * 2 ^ k := (Nat.div_lt_iff_lt_mul (Nat.two_pow_pos k)).mp (Nat.lt_of_mul_lt_mul_right hi)
    rw [Nat.mul_comm, ← ha] at hi'
    have hlow : s.stackSize.toNat - c.toNat ≤ i := hlive.1
    omega

theorem lthreadMadvise_ok {c : BitVec 64} (hc : c ≤ s.stackSize) :
    ∃ m, s.lthreadMadvise c = some ({ s with lastStackSize := c }, m) ∧
      ∀ a ∈ m, a = ⟨s.stackSize - s.tmp c, c⟩ ∧ s.pageSize.signExtend 64 < s.lastStackSize := by
  unfold lthreadMadvise
  rw [if_pos hc]
  by_cases hcall : c < s.lastStackSize ∧ s.pageSize.signExtend 64 < s.lastStackSize
  · rw [if_pos hcall]
    refine ⟨_, rfl, fun a ha => ?_⟩
    obtain rfl := Option.some_inj.mp ha
    exact ⟨rfl, hcall.2⟩
  · rw [if_neg hcall]
    exact ⟨none, rfl, nofun⟩

theorem yields_all {stackSize : BitVec 64} {pageSize : BitVec 32} {P : Madvise → Prop}
    (hcall : ∀ (s : LtStack) (c : BitVec 64), s.stackSize = stackSize → s.pageSize = pageSize →
      s.lastStackSize ≤ stackSize → c ≤ stackSize → s.pageSize.signExtend 64 < s.lastStackSize →
      P ⟨s.stackSize - s.tmp c, c⟩)
    (depths : List (BitVec 64)) (s : LtStack) (hs : s.stackSize = stackSize) (hp : s.pageSize = pageSize)
    (hlast : s.lastStackSize ≤ stackSize) (hd : ∀ d ∈ depths, d ≤ stackSize) :
    ∃ ms, s.yields depths = some ms ∧ ∀ m ∈ ms, P m := by
  induction depths generalizing s with
  | nil => exact ⟨[], rfl, nofun⟩
  | cons c depths ih =>
    have hc : c ≤ stackSize := hd c (List.mem_cons_self ..)
    obtain ⟨m, hm, hmade⟩ := lthreadMadvise_ok (s := s) (hs.symm ▸ hc)
    obtain ⟨ms, hms, hall⟩ := ih { s with lastStackSize := c } hs hp hc fun d h => hd d (List.mem_cons_of_mem _ h)
    refine ⟨m.toList ++ ms, ?_, fun a ha => ?_⟩
    · rw [yields, hm]
      change (do let ms ← ({ s with lastStackSize := c } : LtStack).yields depths; some (m.toList ++ ms)) = _
      rw [hms]
      rfl
    · rcases List.mem_append.mp ha with ha | ha
      · obtain ⟨rfl, hpg⟩ := hmade a (Option.mem_toList.mp ha)
        exact hcall s c hs hp hlast hc hpg
      · exact hall a ha

theorem tmp_page (hk : k < 31) (hpage : s.pageSize = BitVec.ofNat 32 (2 ^ k)) :
    s.tmp (s.pageSize.signExtend 64) = s.pageSize.signExtend 64 := by
  obtain ⟨hlt, hmul⟩ := pad_spec hk (s.pageSize.signExtend 64)
  unfold tmp
  rw [hpage] at hlt hmul ⊢
  rw [pageSize_toNat hk] at hmul
  generalize -((BitVec.ofNat 32 (2 ^ k)).signExtend 64) &&& (BitVec.ofNat 32 (2 ^ k) - 1).signExtend 64 = pad
    at hlt hmul ⊢
  have h0 : pad.toNat = 0 := Nat.eq_zero_of_dvd_of_lt ((Nat.dvd_add_right (dvd_refl _)).mp hmul) hlt
  rw [BitVec.eq_of_toNat_eq (y := 0#64) h0, BitVec.add_zero]

/-- A stack that is not a whole number of pages, and larger than one: used to its end and
then down to one page, the rest of it is rounded up into that page. -/
theorem not_safe (hk : k < 31) (hpage : s.pageSize = BitVec.ofNat 32 (2 ^ k))
    (hdvd : ¬ 2 ^ k ∣ s.stackSize.toNat) (hgt : 2 ^ k < s.stackSize.toNat) :
    ¬ Madvise.Safe s.stackSize.toNat (2 ^ k)
      ⟨s.stackSize - s.tmp (s.pageSize.signExtend 64), s.pageSize.signExtend 64⟩ := by
  have hc : (s.pageSize.signExtend 64).toNat = 2 ^ k := by rw [hpage, pageSize_toNat hk]
  have hle : s.pageSize.signExtend 64 ≤ s.stackSize := by
    rw [BitVec.le_def, hc]
    exact hgt.le
  intro hsafe
  have hlive := hsafe.2 (s.stackSize.toNat - 2 ^ k)
  simp only [tmp_page hk hpage, BitVec.toNat_sub_of_le hle, hc] at hlive
  have hpos := Nat.two_pow_pos k
  refine hlive (lt_of_le_of_ne (Nat.div_mul_le_self _ _) fun heq => hdvd ?_) ⟨le_rfl, by omega⟩
  have hrest : 2 ^ k ∣ s.stackSize.toNat - 2 ^ k := ⟨_, (Nat.mul_comm .. ▸ heq).symm⟩
  have hsum := Nat.dvd_add hrest (dvd_refl (2 ^ k))
  rwa [Nat.sub_add_cancel hgt.le] at hsum

theorem yields_two {c : BitVec 64} (hlast : s.lastStackSize = 0) (hc : c < s.stackSize)
    (hp : s.pageSize.signExtend 64 < s.stackSize) :
    s.yields [s.stackSize, c] = some [⟨s.stackSize - s.tmp c, c⟩] := by
  have h1 : s.lthreadMadvise s.stackSize = some ({ s with lastStackSize := s.stackSize }, none) := by
    unfold lthreadMadvise
    rw [if_pos (BitVec.le_refl _), if_neg]
    rw [hlast]
    exact fun h => absurd h.1 (by simp)
  have h2 : ({ s with lastStackSize := s.stackSize } : LtStack).lthreadMadvise c =
      some ({ s with lastStackSize := c }, some ⟨s.stackSize - s.tmp c, c⟩) := by
    unfold lthreadMadvise
    rw [if_pos (BitVec.le_of_lt hc), if_pos ⟨hc, hp⟩]
    rfl
  rw [yields, h1]
  change (do let ms ← ({ s with lastStackSize := s.stackSize } : LtStack).yields [c]; some ms) = _
  rw [yields, h2]
  rfl

/-- At whatever depths up to the stack size the lthread yields, every `madvise` is safe. -/
def TrimsSafely (stackSize : BitVec 64) (pageSize : BitVec 32) : Prop :=
  ∀ depths, (∀ d ∈ depths, d ≤ stackSize) →
    ∃ ms, (create stackSize pageSize).yields depths = some ms ∧ ∀ m ∈ ms, m.Safe stackSize.toNat pageSize.toNat

/-- The stack in use is spared, whatever its depths, if and only if the stack is a whole
number of pages or not more than one. -/
theorem madvise_spares_live (size : BitVec 64) (hk : k < 31) :
    TrimsSafely (schedStackSize size) (BitVec.ofNat 32 (2 ^ k)) ↔
      2 ^ k ∣ (schedStackSize size).toNat ∨ (schedStackSize size).toNat ≤ 2 ^ k := by
  have hpage : (BitVec.ofNat 32 (2 ^ k)).toNat = 2 ^ k :=
    Nat.mod_eq_of_lt (Nat.pow_lt_pow_right (by decide) (by omega))
  generalize schedStackSize size = S
  unfold TrimsSafely
  rw [hpage]
  constructor
  · intro hall
    by_contra hno
    obtain ⟨hdvd, hgt⟩ := not_or.mp hno
    rw [not_le] at hgt
    have hlt : (BitVec.ofNat 32 (2 ^ k)).signExtend 64 < S := by
      rw [BitVec.lt_def, pageSize_toNat hk]
      exact hgt
    obtain ⟨ms, hms, hsafe⟩ := hall [S, (BitVec.ofNat 32 (2 ^ k)).signExtend 64] (by
      intro d hd
      rcases List.mem_pair.mp hd with rfl | rfl
      · exact BitVec.le_refl _
      · exact BitVec.le_of_lt hlt)
    rw [show (create S (BitVec.ofNat 32 (2 ^ k))).yields [S, _] = _ from yields_two rfl hlt hlt] at hms
    obtain rfl := Option.some_inj.mp hms
    exact not_safe (s := create S (BitVec.ofNat 32 (2 ^ k))) hk rfl hdvd hgt (hsafe _ (List.mem_singleton.mpr rfl))
  · intro hS depths hd
    have h0 : (create S (BitVec.ofNat 32 (2 ^ k))).lastStackSize ≤ S := BitVec.le_def.mpr (Nat.zero_le _)
    apply yields_all (fun s c (hs : s.stackSize = S) (hp : s.pageSize = BitVec.ofNat 32 (2 ^ k)) hlast hc hcall => ?_)
      depths _ rfl rfl h0 hd
    rcases hS with hdvd | hle
    · rw [← hs]
      exact safe_of_dvd hk hp (hs.symm ▸ hdvd) (hs.symm ▸ hc)
    · -- no depth is larger than a page
      rw [hp, BitVec.lt_def, pageSize_toNat hk] at hcall
      exact absurd (lt_of_lt_of_le hcall (BitVec.le_def.mp hlast)) (not_lt.mpr hle)

/-- A stack of 10000 bytes is used to its end and then down to 4096 bytes: `madvise` gets
the length 5904, two pages are dropped, and the bytes from 5904 on are still in use. -/
theorem madvise_drops_live :
    (create (schedStackSize 10000) 4096).yields [10000, 4096] = some [⟨5904, 4096⟩] ∧
      ¬ Madvise.Safe 10000 4096 ⟨5904, 4096⟩ := by
  refine ⟨by decide, fun hsafe => hsafe.2 6000 (by decide) (by decide)⟩

theorem madvise_spares_live_default : 12 < 31 ∧ TrimsSafely (schedStackSize 0) (BitVec.ofNat 32 (2 ^ 12)) :=
  ⟨by decide, (madvise_spares_live 0 (by decide)).mpr (Or.inl (by decide))⟩

end LtStack
end Lthr

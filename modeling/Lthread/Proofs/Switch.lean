import Lthread.Spec.Switch

/-! `_switch` saves the context of the caller and brings back that of another: whatever runs in
between, a thread that comes back finds the registers it has left. -/

namespace Lthr

open X86

/-! One switch -/

section Switch

variable {s : X86}

def saveCode : List Instr :=
  stores .rsi [(ctxOff 0, .rsp), (ctxOff 1, .rbp)] ++ ([.load (ctxOff 0) .rsp .rax] ++
    stores .rsi [(ctxOff 2, .rax), (ctxOff 3, .rbx), (ctxOff 4, .r12), (ctxOff 5, .r13), (ctxOff 6, .r14), (ctxOff 7, .r15)])

/-- The registers that a call leaves as they are, with the words they are kept in. -/
def ctxRegs : List (Fin 8 × Reg) := [(7, .r15), (6, .r14), (5, .r13), (4, .r12), (3, .rbx), (1, .rbp)]

def loadRegs : List (Fin 8 × Reg) := ctxRegs ++ [(0, .rsp), (2, .rax)]

theorem switchCode_eq : switchCode = saveCode ++ (loads .rdi (loadRegs.map fun p => (ctxOff p.1, p.2)) ++
    [.store .rax (ctxOff 0) .rsp]) := by decide

theorem save_ok (hsi : ∀ i, Aligned (s.reg .rsi + ctxOff i)) (hsp : Aligned (s.reg .rsp))
    (hsp' : ∀ i, s.reg .rsp ≠ s.reg .rsi + ctxOff i) :
    ∃ s', run saveCode s = some s' ∧ (∀ r, r ≠ .rax → s'.reg r = s.reg r) ∧
      (∀ i, s'.mem (s.reg .rsi + ctxOff i) = s.saved i) ∧
      ∀ a, (∀ i, a ≠ s.reg .rsi + ctxOff i) → s'.mem a = s.mem a := by
  obtain ⟨s₁, hrun₁, hreg₁, -, hin₁, hout₁⟩ := run_stores (s := s) .rsi [(ctxOff 0, .rsp), (ctxOff 1, .rbp)]
    (by simp [hsi]) (by decide)
  have hzero : s₁.reg .rsp + ctxOff 0 = s.reg .rsp := by
    rw [hreg₁]
    exact BitVec.add_zero _
  have hload : s₁.step (.load (ctxOff 0) .rsp .rax) = some (s₁.setReg .rax (s.mem (s.reg .rsp))) := by
    simp only [step, hzero, if_pos hsp, hout₁ (s.reg .rsp) (by simp [hsp'])]
  set s₂ := s₁.setReg .rax (s.mem (s.reg .rsp)) with s₂_def
  have hreg₂ : ∀ r, r ≠ .rax → s₂.reg r = s.reg r := fun r hr => by rw [s₂_def, setReg_ne _ _ _ _ hr, hreg₁]
  have hrax : s₂.reg .rax = s.mem (s.reg .rsp) := setReg_self ..
  obtain ⟨s₃, hrun₃, hreg₃, -, hin₃, hout₃⟩ := run_stores (s := s₂) .rsi [(ctxOff 2, .rax), (ctxOff 3, .rbx),
    (ctxOff 4, .r12), (ctxOff 5, .r13), (ctxOff 6, .r14), (ctxOff 7, .r15)] (by simp [hreg₂, hsi]) (by decide)
  have hrun : run saveCode s = some s₃ := by
    rw [saveCode, run_append, hrun₁, Option.bind_some, run_append, run_cons hload]
    exact hrun₃
  rw [hreg₂ .rsi (by simp)] at hin₃ hout₃
  refine ⟨s₃, hrun, fun r hr => by rw [hreg₃, hreg₂ r hr], fun i => ?_, fun a ha => ?_⟩
  · have hfirst : ∀ j : Fin 8, j < 2 → s₃.mem (s.reg .rsi + ctxOff j) = s₁.mem (s.reg .rsi + ctxOff j) := by
      intro j hj
      refine hout₃ _ fun p hp heq => ?_
      rw [BitVec.add_right_inj] at heq
      revert p j
      decide
    simp only [List.mem_cons, List.not_mem_nil, or_false, forall_eq_or_imp, forall_eq, hrax, ne_eq, reduceCtorEq,
      not_false_eq_true, hreg₂] at hin₁ hin₃
    fin_cases i
    · exact (hfirst 0 (by decide)).trans hin₁.1
    · exact (hfirst 1 (by decide)).trans hin₁.2
    · exact hin₃.1
    · exact hin₃.2.1
    · exact hin₃.2.2.1
    · exact hin₃.2.2.2.1
    · exact hin₃.2.2.2.2.1
    · exact hin₃.2.2.2.2.2
  · rw [hout₃ a (by simp [ha]), s₂_def, setReg_mem]
    exact hout₁ a (by simp [ha])

/-- What `_switch` does with contexts that are apart, on a stack that is away from the one it
writes. -/
structure Switched (s s' : X86) (new : CpuCtx) : Prop where
  rsp : s'.reg .rsp = new 0 + 8
  rip : s'.rip = new 2
  regs : ∀ p ∈ ctxRegs, s'.reg p.2 = new p.1
  rdi : s'.reg .rdi = s.reg .rdi
  saved : ∀ i, s.reg .rsi + ctxOff i ≠ new 0 → s'.mem (s.reg .rsi + ctxOff i) = s.saved i
  others : ∀ a, a ≠ new 0 → (∀ i, a ≠ s.reg .rsi + ctxOff i) → s'.mem a = s.mem a

theorem switch_ok (hdi : ∀ i, Aligned (s.reg .rdi + ctxOff i)) (hsi : ∀ i, Aligned (s.reg .rsi + ctxOff i))
    (hsp : Aligned (s.reg .rsp)) (hsp' : ∀ i, s.reg .rsp ≠ s.reg .rsi + ctxOff i)
    (hapart : ∀ i j, s.reg .rdi + ctxOff i ≠ s.reg .rsi + ctxOff j)
    (hnew : Aligned (s.mem (s.reg .rdi + ctxOff 0))) :
    ∃ s', s.switch = some s' ∧ Switched s s' fun i => s.mem (s.reg .rdi + ctxOff i) := by
  obtain ⟨s₁, hrun₁, hreg₁, hin₁, hout₁⟩ := save_ok hsi hsp hsp'
  have hdi₁ : s₁.reg .rdi = s.reg .rdi := hreg₁ .rdi (by simp)
  have hctx : ∀ i, s₁.mem (s.reg .rdi + ctxOff i) = s.mem (s.reg .rdi + ctxOff i) := fun i => hout₁ _ (hapart i)
  obtain ⟨s₂, hrun₂, hmem₂, -, hin₂, hout₂⟩ := run_loads (s := s₁) .rdi (loadRegs.map fun p => (ctxOff p.1, p.2))
    (List.forall_mem_map.mpr fun p _ => hdi₁ ▸ hdi p.1) (by decide) (by decide)
  have hreg₂ : ∀ p ∈ loadRegs, s₂.reg p.2 = s.mem (s.reg .rdi + ctxOff p.1) := fun p hp => by
    rw [hin₂ _ (List.mem_map_of_mem hp), hdi₁, hctx]
  have hsp₂ := hreg₂ (0, .rsp) (by decide)
  have hax := hreg₂ (2, .rax) (by decide)
  have hzero : s₂.reg .rsp + ctxOff 0 = s.mem (s.reg .rdi + ctxOff 0) := by
    rw [hsp₂]
    exact BitVec.add_zero _
  set s₃ := s₂.setMem (s.mem (s.reg .rdi + ctxOff 0)) (s.mem (s.reg .rdi + ctxOff 2)) with s₃_def
  have hstore : s₂.step (.store .rax (ctxOff 0) .rsp) = some s₃ := by
    simp only [step, hzero, if_pos hnew, hax, s₃_def]
  have hrun : s.run switchCode = some s₃ := by
    rw [switchCode_eq, run_append, hrun₁, Option.bind_some, run_append, hrun₂, Option.bind_some,
      run_cons hstore, run]
  have hreg₃ : s₃.reg = s₂.reg := rfl
  have hmem₃ : ∀ a, a ≠ s.mem (s.reg .rdi + ctxOff 0) → s₃.mem a = s₁.mem a := fun a ha => by
    rw [s₃_def, setMem_ne _ _ _ _ ha, hmem₂]
  have hret : s₃.ret = some { s₃.setReg .rsp (s.mem (s.reg .rdi + ctxOff 0) + 8) with
      rip := s.mem (s.reg .rdi + ctxOff 2) } := by
    have htop : s₃.mem (s.mem (s.reg .rdi + ctxOff 0)) = s.mem (s.reg .rdi + ctxOff 2) := setMem_self ..
    simp only [ret, hreg₃, hsp₂, if_pos hnew, htop]
  have hother : ∀ r, r ≠ .rsp → (s₃.setReg .rsp (s.mem (s.reg .rdi + ctxOff 0) + 8)).reg r = s₂.reg r :=
    fun r hr => setReg_ne _ _ _ _ hr
  refine ⟨_, by rw [switch, hrun, Option.bind_some, hret], ?_⟩
  constructor
  · exact setReg_self s₃ .rsp _
  · rfl
  · have hne : ∀ p ∈ ctxRegs, p.2 ≠ .rsp := by decide
    exact fun p hp => (hother _ (hne p hp)).trans (hreg₂ p (List.mem_append_left _ hp))
  · exact (hother _ (by simp)).trans ((hout₂ .rdi (by decide)).trans hdi₁)
  · exact fun i hi => (hmem₃ _ hi).trans (hin₁ i)
  · exact fun a ha ha' => (hmem₃ a ha).trans (hout₁ a ha')

end Switch

/-! Where the contexts are -/

namespace CtxLayout

variable {τ : Type} (L : CtxLayout τ) {t u : Option τ} {i j : Fin 8}

theorem slot_toNat (t : Option τ) (i : Fin 8) : (L.slot t i).toNat = (L.ctx t).toNat + 8 * i := by
  have hfits := L.fits t
  have hi := i.isLt
  rw [slot, ctxOff, BitVec.toNat_add, BitVec.toNat_ofNat]
  omega

theorem slot_aligned (t : Option τ) (i : Fin 8) : Aligned (L.slot t i) := by
  have := L.aligned t
  unfold Aligned at this ⊢
  rw [L.slot_toNat]
  omega

theorem slot_inj (h : L.slot t i = L.slot u j) : t = u ∧ i = j := by
  have hnat := congrArg BitVec.toNat h
  rw [L.slot_toNat, L.slot_toNat] at hnat
  have hi := i.isLt
  have hj := j.isLt
  have htu : t = u := by
    by_contra hne
    rcases L.apart t u hne with hap | hap <;> omega
  subst htu
  exact ⟨rfl, Fin.ext (by omega)⟩

end CtxLayout

/-! Runs -/

namespace Core

variable {τ : Type} {L : CtxLayout τ} {s : Core τ} {f : SavedCtxs τ} {t : Option τ} {c : CpuCtx}

/-- A context that has been saved is still in memory, unless its thread runs; its stack pointer
is aligned and away from all contexts. -/
def Frozen (L : CtxLayout τ) (s : Core τ) (f : SavedCtxs τ) : Prop :=
  ∀ t ≠ s.cur, ∀ c, f t = some c → (∀ i, s.cpu.mem (L.slot t i) = c i) ∧ L.GoodStack (c 0)

theorem Frozen.switches (h : Frozen L s f) (hcall : s.calls L t) (ht : t ≠ s.cur) (hc : f t = some c)
    (hsp : L.GoodStack (s.cpu.reg .rsp)) :
    ∃ cpu, s.cpu.switch = some cpu ∧ Switched s.cpu cpu c := by
  obtain ⟨hmem, hal, -⟩ := h t ht c hc
  obtain ⟨hdi, hsi⟩ := hcall
  have hslot : ∀ i, s.cpu.reg .rdi + ctxOff i = L.slot t i := fun i => by rw [hdi]; rfl
  have hslot' : ∀ i, s.cpu.reg .rsi + ctxOff i = L.slot s.cur i := fun i => by rw [hsi]; rfl
  have hctx : (fun i => s.cpu.mem (s.cpu.reg .rdi + ctxOff i)) = c := by
    funext i
    rw [hslot, hmem]
  obtain ⟨cpu, hsw, hok⟩ := switch_ok (s := s.cpu) (fun i => hslot i ▸ L.slot_aligned t i)
    (fun i => hslot' i ▸ L.slot_aligned s.cur i) hsp.1 (fun i heq => hsp.2 ⟨s.cur, i, heq.trans (hslot' i)⟩)
    (fun i j heq => ht (L.slot_inj (by rw [← hslot, ← hslot', heq])).1) (by rw [hslot, hmem]; exact hal)
  rw [hctx] at hok
  exact ⟨cpu, hsw, hok⟩

/-- What `_lthread_init` writes: three words of the context, and two of the stack. -/
theorem init_mem (cpu : X86) (l : τ) {stack : Word} (hstack : ∀ a ∈ [stack - 32, stack - 24, stack - 16], L.GoodStack a) :
    (cpu.lthreadInit L l stack).mem (L.slot (some l) 0) = stack - 32 ∧
    (cpu.lthreadInit L l stack).mem (L.slot (some l) 1) = stack - 24 ∧
    (cpu.lthreadInit L l stack).mem (L.slot (some l) 2) = L.exec ∧
    ∀ t ≠ some l, ∀ i, (cpu.lthreadInit L l stack).mem (L.slot t i) = cpu.mem (L.slot t i) := by
  have hslots : cpu.lthreadInit L l stack = ((((cpu.setMem (stack - 24) 0).setMem (stack - 16) (L.ctx (some l))).setMem
      (L.slot (some l) 0) (stack - 32)).setMem (L.slot (some l) 1) (stack - 24)).setMem (L.slot (some l) 2) L.exec := rfl
  have hne : ∀ {t u : Option τ} {i j : Fin 8}, ¬ (t = u ∧ i = j) → L.slot t i ≠ L.slot u j :=
    fun h heq => h (L.slot_inj heq)
  have hout : ∀ a ∈ [stack - 32, stack - 24, stack - 16], ∀ t i, L.slot t i ≠ a :=
    fun a ha t i heq => (hstack a ha).2 ⟨t, i, heq.symm⟩
  rw [hslots]
  refine ⟨?_, ?_, setMem_self .., fun t ht i => ?_⟩
  · rw [setMem_ne _ _ _ _ (hne (by simp)), setMem_ne _ _ _ _ (hne (by simp)), setMem_self]
  · rw [setMem_ne _ _ _ _ (hne (by simp)), setMem_self]
  · rw [setMem_ne _ _ _ _ (hne (by simp [ht])), setMem_ne _ _ _ _ (hne (by simp [ht])),
      setMem_ne _ _ _ _ (hne (by simp [ht])), setMem_ne _ _ _ _ (hout _ (by simp) t i),
      setMem_ne _ _ _ _ (hout _ (by simp) t i)]

/-- A switch keeps what has been saved, and saves the context of the one that switches. -/
theorem Frozen.after_switch [DecidableEq τ] {cpu : X86} (h : Frozen L s f) (hcall : s.calls L t) (ht : t ≠ s.cur) (hc : f t = some c)
    (hsp : L.GoodStack (s.cpu.reg .rsp)) (hsw : Switched s.cpu cpu c) :
    Frozen L ⟨cpu, t⟩ (Function.update f s.cur (some s.cpu.saved)) := by
  obtain ⟨-, -, hnew⟩ := h t ht c hc
  have hslot : ∀ i, s.cpu.reg .rsi + ctxOff i = L.slot s.cur i := fun i => by rw [hcall.2]; rfl
  intro u hu d hd
  by_cases hcur : u = s.cur
  · subst hcur
    rw [Function.update_self, Option.some_inj] at hd
    subst hd
    refine ⟨fun i => ?_, hsp⟩
    rw [← hslot]
    exact hsw.saved i fun heq => hnew ⟨s.cur, i, heq.symm.trans (hslot i)⟩
  · rw [Function.update_of_ne hcur] at hd
    obtain ⟨hmem, hgood⟩ := h u hcur d hd
    refine ⟨fun i => ?_, hgood⟩
    rw [← hmem i]
    refine hsw.others _ (fun heq => hnew ⟨u, i, heq.symm⟩) fun j heq => hcur ?_
    exact (L.slot_inj (heq.trans (hslot j))).1

end Core

open Lthr.Core

variable {τ : Type} [DecidableEq τ] {L : CtxLayout τ} {q q' : Core τ × SavedCtxs τ} {a : CoreLabel τ} {t : Option τ}

theorem switch_step (ha : a.target = some t) (hs : (savedMachine L).step q a q') (hok : lawful L q a) :
    q.1.SwitchesTo L t q'.1 ∧ t ≠ q.1.cur ∧ L.GoodStack (q.1.cpu.reg .rsp) ∧
      q'.2 = Function.update q.2 q.1.cur (some q.1.cpu.saved) ∧ (t ≠ none → q.2 t ≠ none) := by
  obtain ⟨hstep, hnote⟩ := hs
  cases a with
  | code cpu => cases ha
  | init l stack => cases ha
  | free l => cases ha
  | resume l =>
    obtain rfl := Option.some_inj.mp ha
    obtain ⟨hcur, hsw⟩ := hstep
    exact ⟨hsw, by simp [hcur], hok.2, hnote, fun _ => hok.1⟩
  | yield =>
    obtain rfl := Option.some_inj.mp ha
    obtain ⟨hcur, hsw⟩ := hstep
    exact ⟨hsw, hcur.symm, hok, hnote, fun h => absurd rfl h⟩

/-- What every run keeps: the saved contexts, and, while an lthread runs, the one of the scheduler
is among them. -/
structure Kept (L : CtxLayout τ) (q : Core τ × SavedCtxs τ) : Prop where
  frozen : Frozen L q.1 q.2
  scheduler : q.1.cur ≠ none → q.2 none ≠ none

namespace Kept

theorem switch (h : Kept L q) (ha : a.target = some t) (hok : lawful L q a) (hs : (savedMachine L).step q a q') :
    Frozen L q'.1 q'.2 ∧ q'.1.cur = t ∧ q'.2 q.1.cur ≠ none := by
  obtain ⟨⟨hcall, hsw, hcur⟩, hne, hsp, hnote, hknown⟩ := switch_step ha hs hok
  have hsome : q.2 t ≠ none := by
    by_cases ht : t = none
    · subst ht
      exact h.scheduler hne.symm
    · exact hknown ht
  obtain ⟨c, hc⟩ := Option.ne_none_iff_exists'.mp hsome
  obtain ⟨cpu, hsw', hok'⟩ := h.frozen.switches hcall hne hc hsp
  obtain rfl : cpu = q'.1.cpu := Option.some_inj.mp (hsw'.symm.trans hsw)
  refine ⟨?_, hcur, by simp [hnote]⟩
  rw [hnote, show q'.1 = ⟨q'.1.cpu, t⟩ from hcur ▸ rfl]
  exact h.frozen.after_switch hcall hne hc hsp hok'

theorem step (h : Kept L q) (hok : lawful L q a) (hs : (savedMachine L).step q a q') : Kept L q' := by
  cases a with
  | code cpu =>
    obtain ⟨s', f'⟩ := q'
    obtain ⟨rfl, rfl⟩ : s' = { q.1 with cpu := cpu } ∧ f' = q.2 := hs
    refine ⟨fun t ht c hc => ?_, h.scheduler⟩
    obtain ⟨hmem, hgood⟩ := h.frozen t ht c hc
    exact ⟨fun i => (hok t ht (by simp [show q.2 t = _ from hc]) i).trans (hmem i), hgood⟩
  | init l stack =>
    obtain ⟨s', f'⟩ := q'
    obtain ⟨⟨hcur, rfl⟩, rfl⟩ : (q.1.cur = none ∧ s' = { q.1 with cpu := q.1.cpu.lthreadInit L l stack }) ∧
        f' = noteSaved L q.1 (.init l stack) s' q.2 := hs
    obtain ⟨hesp, -, -, hothers⟩ := init_mem q.1.cpu l hok.2
    refine ⟨fun t ht c hc => ?_, fun h0 => absurd hcur h0⟩
    by_cases htl : t = some l
    · subst htl
      simp only [noteSaved, Function.update_self, Option.some_inj] at hc
      subst hc
      refine ⟨fun _ => rfl, ?_⟩
      simp only [hesp]
      exact hok.2 _ (by simp)
    · obtain ⟨hmem, hgood⟩ := h.frozen t ht c ((Function.update_of_ne htl ..).symm.trans hc)
      exact ⟨fun i => (hothers t htl i).trans (hmem i), hgood⟩
  | resume l =>
    obtain ⟨hfro, hcur, hnote⟩ := h.switch rfl hok hs
    rw [show q.1.cur = none from hs.1.1] at hnote
    exact ⟨hfro, fun _ => hnote⟩
  | yield =>
    obtain ⟨hfro, hcur, -⟩ := h.switch rfl hok hs
    exact ⟨hfro, fun h0 => absurd hcur h0⟩
  | free l =>
    obtain ⟨s', f'⟩ := q'
    obtain ⟨⟨-, rfl⟩, rfl⟩ : (q.1.cur ≠ some l ∧ s' = q.1) ∧ f' = Function.update q.2 (some l) none := hs
    refine ⟨fun t ht c hc => ?_, fun h0 => ?_⟩
    · have htl : t ≠ some l := by
        rintro rfl
        simp at hc
      exact h.frozen t ht c ((Function.update_of_ne htl ..).symm.trans hc)
    · simpa [Function.update_of_ne] using h.scheduler h0

theorem reachable (h : (savedMachine L).Reachable (lawful L) q) : Kept L q := by
  refine Machine.Reachable.invariant (P := Kept L) (fun q hq => ?_) (fun q a q' hq hok hs => hq.step hok hs) h
  obtain ⟨hcur, hf⟩ := hq
  refine ⟨fun t _ c hc => ?_, fun h0 => absurd hcur h0⟩
  rw [hf] at hc
  cases hc

end Kept

theorem record_kept {c : CpuCtx} (hc : q.2 t = some c) (h : (savedMachine L).Steps (aside L t) q q') :
    q'.2 t = some c := by
  refine h.preserves (P := fun q => q.2 t = some c) (fun q a q' hq hok hs => ?_) hc
  obtain ⟨hlaw, hcur, hfree⟩ := hok
  rw [hs.2]
  cases a with
  | code cpu => exact hq
  | init l stack =>
    have hne : t ≠ some l := by
      rintro rfl
      exact absurd (hlaw.1.symm.trans hq) (by simp)
    rw [noteSaved, Function.update_of_ne hne]
    exact hq
  | resume l => rw [noteSaved, Function.update_of_ne hcur.symm]; exact hq
  | yield => rw [noteSaved, Function.update_of_ne hcur.symm]; exact hq
  | free l =>
    rw [noteSaved, Function.update_of_ne fun h => hfree l h rfl]
    exact hq

/-- A switch to a thread that has been put aside with the context `c` succeeds, and brings `c` back. -/
theorem switches_back {c : CpuCtx} (h : (savedMachine L).Reachable (lawful L) q) (hc : q.2 t = some c)
    (hrun : (savedMachine L).Steps (aside L t) q q') (hcur : q'.1.cur ≠ t) (hcall : q'.1.calls L t)
    (hsp : L.GoodStack (q'.1.cpu.reg .rsp)) : ∃ cpu, q'.1.cpu.switch = some cpu ∧ Switched q'.1.cpu cpu c :=
  (Kept.reachable (h.steps (hrun.mono fun _ _ hok => hok.1))).frozen.switches hcall hcur.symm (record_kept hc hrun) hsp

/-- To the one that calls it, `_switch` is an ordinary call. It is left at `q`; whatever the others do
until one of them switches back, that switch succeeds, and returns to where `q` has called it from,
with the stack and the registers that a call leaves. -/
theorem switch_returns {q₁ q₂ : Core τ × SavedCtxs τ} (hq : (savedMachine L).Reachable (lawful L) q)
    (ha : a.target ≠ none) (hok : lawful L q a) (hs : (savedMachine L).step q a q₁)
    (hrun : (savedMachine L).Steps (aside L q.1.cur) q₁ q₂) (hcur : q₂.1.cur ≠ q.1.cur)
    (hcall : q₂.1.calls L q.1.cur) (hsp : L.GoodStack (q₂.1.cpu.reg .rsp)) :
    ∃ cpu, q₂.1.cpu.switch = some cpu ∧ (∀ p ∈ ctxRegs, cpu.reg p.2 = q.1.cpu.reg p.2) ∧
      cpu.reg .rsp = q.1.cpu.reg .rsp + 8 ∧ cpu.rip = q.1.cpu.mem (q.1.cpu.reg .rsp) := by
  obtain ⟨t, ha⟩ := Option.ne_none_iff_exists'.mp ha
  obtain ⟨-, -, -, hnote, -⟩ := switch_step ha hs hok
  have hc : q₁.2 q.1.cur = some q.1.cpu.saved := by rw [hnote, Function.update_self]
  obtain ⟨cpu, hsw, hback⟩ := switches_back (hq.next hok hs) hc hrun hcur hcall hsp
  have hsaved : ∀ p ∈ ctxRegs, q.1.cpu.saved p.1 = q.1.cpu.reg p.2 := by simp [ctxRegs, X86.saved]
  exact ⟨cpu, hsw, fun p hp => (hback.regs p hp).trans (hsaved p hp), hback.rsp, hback.rip⟩

section Demo

def twoLthreads : CtxLayout Bool where
  ctx | none => 0x1000 | some false => 0x2000 | some true => 0x3000
  exec := 0x40000
  aligned := by decide
  fits := by decide
  apart := by decide

/-- A scheduler that has called `_switch` for the first lthread. -/
def schedCpu : X86 where
  reg | .rdi => 0x2000 | .rsi => 0x1000 | .rsp => 0x8000 | .rbx => 7 | .r15 => 15 | _ => 0
  rip := 0x50000
  mem a := if a = 0x8000 then 0x50100 else 0

def initCpu : X86 := schedCpu.lthreadInit twoLthreads false 0x9000

/-- An lthread that has used some registers, and called `_switch` to yield. -/
def yieldCpu (exec : X86) : X86 := (((exec.setReg .rbx 1).setReg .r15 1).setReg .rdi 0x1000).setReg .rsi 0x2000

theorem demo_good {a : Word} (h : a.toNat % 8 = 0) (h' : 0x4000 ≤ a.toNat) : twoLthreads.GoodStack a := by
  refine ⟨h, ?_⟩
  rintro ⟨t, i, rfl⟩
  rw [twoLthreads.slot_toNat] at h'
  have hi := i.isLt
  have ht : ∀ t, (twoLthreads.ctx t).toNat ≤ 0x3000 := by decide
  have := ht t
  omega

def demoNext (q : Core Bool × SavedCtxs Bool) (a : CoreLabel Bool) (s : Core Bool) : Core Bool × SavedCtxs Bool :=
  (s, noteSaved twoLthreads q.1 a s q.2)

def demoStart : Core Bool × SavedCtxs Bool := (⟨schedCpu, none⟩, fun _ => none)

def demoInit : Core Bool × SavedCtxs Bool := demoNext demoStart (.init false 0x9000) ⟨initCpu, none⟩

theorem demoStart_reachable : (savedMachine twoLthreads).Reachable (lawful twoLthreads) demoStart :=
  Machine.Reachable.start ⟨rfl, rfl⟩

theorem demoInit_lawful : lawful twoLthreads demoStart (.init false 0x9000) := by
  refine ⟨rfl, fun a ha => ?_⟩
  simp only [List.mem_cons, List.not_mem_nil, or_false] at ha
  rcases ha with rfl | rfl | rfl <;> exact demo_good (by decide) (by decide)

theorem demoInit_step : (savedMachine twoLthreads).step demoStart (.init false 0x9000) demoInit := ⟨⟨rfl, rfl⟩, rfl⟩

theorem demoInit_calls : demoInit.1.calls twoLthreads (some false) := ⟨rfl, rfl⟩

theorem demoInit_stack : twoLthreads.GoodStack (demoInit.1.cpu.reg .rsp) := demo_good (by decide) (by decide)

theorem demoExec_lawful : lawful twoLthreads demoInit (.resume false) := ⟨by decide, demoInit_stack⟩

theorem demoInit_switch : ∃ exec, initCpu.switch = some exec ∧ exec.reg .rsp = 0x8FE8 := by
  have h : initCpu.switch.map (fun s => s.reg .rsp) = some 0x8FE8 := by decide +kernel
  exact Option.map_eq_some_iff.mp h

end Demo

/-- The scheduler resumes an lthread that yields at once. -/
theorem switch_returns_yield : ∃ exec cpu, initCpu.switch = some exec ∧ (yieldCpu exec).switch = some cpu ∧
    (∀ p ∈ ctxRegs, cpu.reg p.2 = schedCpu.reg p.2) ∧ cpu.reg .rsp = 0x8008 ∧ cpu.rip = 0x50100 := by
  obtain ⟨exec, hexec, hrsp⟩ := demoInit_switch
  have hstep : (savedMachine twoLthreads).step demoInit (.resume false)
      (demoNext demoInit (.resume false) ⟨exec, some false⟩) := ⟨⟨rfl, demoInit_calls, hexec, rfl⟩, rfl⟩
  have hrun : (savedMachine twoLthreads).Steps (aside twoLthreads none)
      (demoNext demoInit (.resume false) ⟨exec, some false⟩)
      (⟨yieldCpu exec, some false⟩, (demoNext demoInit (.resume false) ⟨exec, some false⟩).2) :=
    .single (a := .code (yieldCpu exec)) ⟨fun _ _ _ _ => rfl, by simp [demoNext], by simp⟩ ⟨rfl, rfl⟩
  have hstack : twoLthreads.GoodStack ((yieldCpu exec).reg .rsp) := by
    rw [show (yieldCpu exec).reg .rsp = exec.reg .rsp from rfl, hrsp]
    exact demo_good (by decide) (by decide)
  obtain ⟨cpu, hsw, hback⟩ := switch_returns (demoStart_reachable.next demoInit_lawful demoInit_step) (by simp [CoreLabel.target])
    demoExec_lawful hstep hrun (by simp [demoInit, demoNext]) ⟨rfl, rfl⟩ hstack
  exact ⟨exec, cpu, hexec, hsw, hback⟩

/-- The first switch to an lthread enters `_exec(lt)`, with the argument in its register, on the stack
of the lthread, and with the alignment of a call. -/
theorem init_enters_exec {q₁ q₂ : Core τ × SavedCtxs τ} {l : τ} {stack : Word}
    (hq : (savedMachine L).Reachable (lawful L) q) (hok : lawful L q (.init l stack))
    (hs : (savedMachine L).step q (.init l stack) q₁)
    (hrun : (savedMachine L).Steps (aside L (some l)) q₁ q₂) (hcur : q₂.1.cur ≠ some l)
    (hcall : q₂.1.calls L (some l)) (hsp : L.GoodStack (q₂.1.cpu.reg .rsp)) :
    ∃ cpu, q₂.1.cpu.switch = some cpu ∧ cpu.rip = L.exec ∧ cpu.reg .rdi = L.ctx (some l) ∧
      cpu.reg .rsp = stack - 24 ∧ cpu.reg .rbp = stack - 24 ∧
      (stack.toNat % 16 = 0 → (cpu.reg .rsp + 8).toNat % 16 = 0) := by
  have hnext := hq.next hok hs
  obtain ⟨⟨-, hstep⟩, hnote⟩ := hs
  obtain ⟨hesp, hebp, heip, -⟩ := init_mem q.1.cpu l hok.2
  have hc : q₁.2 (some l) = some fun i => (q.1.cpu.lthreadInit L l stack).mem (L.slot (some l) i) := by
    rw [hnote, noteSaved, Function.update_self, hstep]
  obtain ⟨cpu, hsw, hback⟩ := switches_back hnext hc hrun hcur hcall hsp
  have hrsp : cpu.reg .rsp = stack - 24 := by
    rw [hback.rsp, hesp]
    bv_omega
  refine ⟨cpu, hsw, hback.rip.trans heip, hback.rdi.trans hcall.1, hrsp, (hback.regs (1, .rbp) (by decide)).trans hebp,
    fun hstack => ?_⟩
  rw [hrsp]
  bv_omega

/-- An lthread is resumed right after it has been initialised. -/
theorem init_enters_exec_resume : ∃ cpu, initCpu.switch = some cpu ∧ cpu.rip = 0x40000 ∧ cpu.reg .rdi = 0x2000 ∧
    cpu.reg .rsp = 0x9000 - 24 ∧ cpu.reg .rbp = 0x9000 - 24 ∧ (cpu.reg .rsp + 8).toNat % 16 = 0 := by
  obtain ⟨cpu, hsw, hrip, hrdi, hrsp, hrbp, halign⟩ :=
    init_enters_exec demoStart_reachable demoInit_lawful demoInit_step (.refl _) (by decide) demoInit_calls demoInit_stack
  exact ⟨cpu, hsw, hrip, hrdi, hrsp, hrbp, halign (by decide)⟩

end Lthr

import Mathlib.Tactic

/-! A fragment of x86-64: moves of 64-bit words between registers and memory, and `ret`. The
memory is one of aligned words, and an access that is not aligned is an error. -/

namespace Lthr

abbrev Word := BitVec 64

inductive Reg
  | rax | rbx | rbp | rsp | rdi | rsi | r12 | r13 | r14 | r15
  deriving DecidableEq, Repr

structure X86 where
  reg : Reg → Word
  rip : Word
  mem : Word → Word

/-- Instructions, in the order of the operands that the assembler uses. -/
inductive Instr
  | store (src : Reg) (off : Word) (base : Reg)
  | load (off : Word) (base dst : Reg)
  deriving DecidableEq, Repr

namespace X86

def Aligned (a : Word) : Prop := a.toNat % 8 = 0

instance (a : Word) : Decidable (Aligned a) := inferInstanceAs (Decidable (_ = _))

def setReg (s : X86) (r : Reg) (v : Word) : X86 := { s with reg := Function.update s.reg r v }
def setMem (s : X86) (a v : Word) : X86 := { s with mem := Function.update s.mem a v }

def step (s : X86) : Instr → Option X86
  | .store src off base =>
    let a := s.reg base + off
    if Aligned a then some (s.setMem a (s.reg src)) else none
  | .load off base dst =>
    let a := s.reg base + off
    if Aligned a then some (s.setReg dst (s.mem a)) else none

def run : List Instr → X86 → Option X86
  | [], s => some s
  | i :: is, s => (s.step i).bind (run is)

def ret (s : X86) : Option X86 :=
  let sp := s.reg .rsp
  if Aligned sp then some { s.setReg .rsp (sp + 8) with rip := s.mem sp } else none

section Reads

variable (s : X86) (r r' : Reg) (v a a' : Word)

@[simp] theorem setReg_self : (s.setReg r v).reg r = v := Function.update_self ..

theorem setReg_ne (h : r' ≠ r) : (s.setReg r v).reg r' = s.reg r' := Function.update_of_ne h ..

@[simp] theorem setReg_mem : (s.setReg r v).mem = s.mem := rfl

@[simp] theorem setMem_self : (s.setMem a v).mem a = v := Function.update_self ..

theorem setMem_ne (h : a' ≠ a) : (s.setMem a v).mem a' = s.mem a' := Function.update_of_ne h ..

end Reads

theorem run_append (is js : List Instr) (s : X86) : run (is ++ js) s = (run is s).bind (run js) := by
  induction is generalizing s with
  | nil => rfl
  | cons i is ih =>
    cases hs : s.step i with
    | none => simp [run, hs]
    | some s' => simp [run, hs, ih]

theorem run_cons {i : Instr} {is : List Instr} {s s' : X86} (h : s.step i = some s') : run (i :: is) s = run is s' := by
  rw [run, h, Option.bind_some]

/-- Registers stored one after the other into the words from a base on. -/
def stores (base : Reg) : List (Word × Reg) → List Instr := List.map fun p => .store p.2 p.1 base

/-- Words from a base on loaded into registers one after the other. -/
def loads (base : Reg) : List (Word × Reg) → List Instr := List.map fun p => .load p.1 base p.2

section Blocks

variable {s : X86} (base : Reg) (l : List (Word × Reg))

/-- What a block of stores does: each word has the register that goes there, and nothing else
changes. -/
theorem run_stores (hal : ∀ p ∈ l, Aligned (s.reg base + p.1)) (hn : (l.map Prod.fst).Nodup) :
    ∃ s', run (stores base l) s = some s' ∧ s'.reg = s.reg ∧ s'.rip = s.rip ∧
      (∀ p ∈ l, s'.mem (s.reg base + p.1) = s.reg p.2) ∧
      ∀ a, (∀ p ∈ l, a ≠ s.reg base + p.1) → s'.mem a = s.mem a := by
  induction l generalizing s with
  | nil => exact ⟨s, rfl, rfl, rfl, by simp, fun _ _ => rfl⟩
  | cons p l ih =>
    obtain ⟨hp, hn⟩ := List.nodup_cons.mp hn
    have hp0 := hal p List.mem_cons_self
    obtain ⟨s', hrun, hreg, hrip, hin, hout⟩ := ih (s := s.setMem (s.reg base + p.1) (s.reg p.2))
      (fun q hq => hal q (List.mem_cons_of_mem _ hq)) hn
    have hne : ∀ q ∈ l, s.reg base + p.1 ≠ s.reg base + q.1 := by
      intro q hq heq
      exact hp (List.mem_map.mpr ⟨q, hq, ((BitVec.add_right_inj _).mp heq).symm⟩)
    refine ⟨s', ?_, hreg, hrip, ?_, ?_⟩
    · simp only [stores, List.map_cons, run, step, if_pos hp0, Option.bind_some]
      exact hrun
    · rintro q (_ | ⟨_, hq⟩)
      · rw [hout _ hne, setMem_self]
      · exact hin q hq
    · intro a ha
      rw [hout a fun q hq => ha q (List.mem_cons_of_mem _ hq), setMem_ne]
      exact ha p List.mem_cons_self

/-- What a block of loads does, if the base is not among its registers: each register has the
word it is loaded from, and nothing else changes. -/
theorem run_loads (hal : ∀ p ∈ l, Aligned (s.reg base + p.1)) (hn : (l.map Prod.snd).Nodup)
    (hbase : base ∉ l.map Prod.snd) :
    ∃ s', run (loads base l) s = some s' ∧ s'.mem = s.mem ∧ s'.rip = s.rip ∧
      (∀ p ∈ l, s'.reg p.2 = s.mem (s.reg base + p.1)) ∧
      ∀ r, r ∉ l.map Prod.snd → s'.reg r = s.reg r := by
  induction l generalizing s with
  | nil => exact ⟨s, rfl, rfl, rfl, by simp, fun _ _ => rfl⟩
  | cons p l ih =>
    obtain ⟨hp, hn⟩ := List.nodup_cons.mp hn
    simp only [List.map_cons, List.mem_cons, not_or] at hbase
    have hp0 := hal p List.mem_cons_self
    have hb : (s.setReg p.2 (s.mem (s.reg base + p.1))).reg base = s.reg base := setReg_ne _ _ _ _ hbase.1
    obtain ⟨s', hrun, hmem, hrip, hin, hout⟩ := ih (s := s.setReg p.2 (s.mem (s.reg base + p.1)))
      (fun q hq => by rw [hb]; exact hal q (List.mem_cons_of_mem _ hq)) hn hbase.2
    refine ⟨s', ?_, hmem, hrip, ?_, ?_⟩
    · simp only [loads, List.map_cons, run, step, if_pos hp0, Option.bind_some]
      exact hrun
    · rintro q (_ | ⟨_, hq⟩)
      · rw [hout _ hp, setReg_self]
      · rw [hin q hq, hb]
        rfl
    · intro r hr
      simp only [List.map_cons, List.mem_cons, not_or] at hr
      rw [hout r hr.2, setReg_ne _ _ _ _ hr.1]

end Blocks
end X86
end Lthr

import Lthread.Lib.Machine
import Lthread.Lib.X86
import Lthread.Spec.Sched

/-! `_switch` of `lthread.c` on x86-64, instruction by instruction, and the thread of a scheduler
that goes back and forth between `_lthread_resume` and `_lthread_yield`. What the code between
two switches does is left open, and so is what a `struct lthread` is known by. -/

namespace Lthr

def switchCode : List Instr :=
  [.store .rsp 0 .rsi,    -- save stack_pointer
   .store .rbp 8 .rsi,    -- save frame_pointer
   .load 0 .rsp .rax,     -- save insn_pointer
   .store .rax 16 .rsi,
   .store .rbx 24 .rsi,   -- save rbx,r12-r15
   .store .r12 32 .rsi,
   .store .r13 40 .rsi,
   .store .r14 48 .rsi,
   .store .r15 56 .rsi,
   .load 56 .rdi .r15,
   .load 48 .rdi .r14,
   .load 40 .rdi .r13,    -- restore rbx,r12-r15
   .load 32 .rdi .r12,
   .load 24 .rdi .rbx,
   .load 8 .rdi .rbp,     -- restore frame_pointer
   .load 0 .rdi .rsp,     -- restore stack_pointer
   .load 16 .rdi .rax,    -- restore insn_pointer
   .store .rax 0 .rsp]

def X86.switch (s : X86) : Option X86 := (s.run switchCode).bind X86.ret

/-- The words of `struct cpu_ctx` that `_switch` uses: `esp`, `ebp`, `eip`, and five more. -/
abbrev CpuCtx := Fin 8 → Word

def ctxOff (i : Fin 8) : Word := BitVec.ofNat 64 (8 * i)

def X86.saved (s : X86) : CpuCtx :=
  ![s.reg .rsp, s.reg .rbp, s.mem (s.reg .rsp), s.reg .rbx, s.reg .r12, s.reg .r13, s.reg .r14, s.reg .r15]

section

variable {τ : Type}

/-- Where the contexts are: `&sched->ctx`, and `&lt->ctx` of every lthread, which is `lt`, as
`ctx` is the first member of `struct lthread`. -/
structure CtxLayout (τ : Type) where
  ctx : Option τ → Word
  exec : Word
  aligned : ∀ t, X86.Aligned (ctx t)
  fits : ∀ t, (ctx t).toNat + 88 ≤ 2 ^ 64
  apart : ∀ t u, t ≠ u → (ctx t).toNat + 88 ≤ (ctx u).toNat ∨ (ctx u).toNat + 88 ≤ (ctx t).toNat

namespace CtxLayout

variable (L : CtxLayout τ)

def slot (t : Option τ) (i : Fin 8) : Word := L.ctx t + ctxOff i

def InCtx (a : Word) : Prop := ∃ t i, a = L.slot t i

end CtxLayout

/-- `_lthread_init`; `stack` is the end of the stack of the lthread. -/
def X86.lthreadInit (s : X86) (L : CtxLayout τ) (l : τ) (stack : Word) : X86 :=
  let lt := L.ctx (some l)
  ((((s.setMem (stack - 24) 0).setMem (stack - 16) lt).setMem (lt + 0) (stack - 32)).setMem (lt + 8)
    (stack - 24)).setMem (lt + 16) L.exec

/-- The thread of a scheduler: the scheduler itself runs, or one of its lthreads. -/
structure Core (τ : Type) where
  cpu : X86
  cur : Option τ

inductive CoreLabel (τ : Type)
  | code (cpu : X86)
  -- the scheduler calls `_lthread_init`, for an lthread whose stack ends at `stack`
  | init (l : τ) (stack : Word)
  -- the scheduler is at the `_switch` of `_lthread_resume`
  | resume (l : τ)
  -- the lthread is at the `_switch` of `_lthread_yield`
  | yield
  -- an lthread that does not run is freed; its memory may become another one's
  | free (l : τ)

def CoreLabel.target : CoreLabel τ → Option (Option τ)
  | .resume l => some (some l)
  | .yield => some none
  | .code _ | .init _ _ | .free _ => none

/-- `_switch(new, cur)` has been called, with the arguments in their registers. -/
def Core.calls (s : Core τ) (L : CtxLayout τ) (t : Option τ) : Prop :=
  s.cpu.reg .rdi = L.ctx t ∧ s.cpu.reg .rsi = L.ctx s.cur

def Core.SwitchesTo (s : Core τ) (L : CtxLayout τ) (t : Option τ) (s' : Core τ) : Prop :=
  s.calls L t ∧ s.cpu.switch = some s'.cpu ∧ s'.cur = t

def coreMachine (L : CtxLayout τ) : Machine (Core τ) (CoreLabel τ) where
  init s := s.cur = none
  step s a s' :=
    match a with
    | .code cpu => s' = { s with cpu := cpu }
    | .init l stack => s.cur = none ∧ s' = { s with cpu := s.cpu.lthreadInit L l stack }
    | .resume l => s.cur = none ∧ s.SwitchesTo L (some l) s'
    | .yield => s.cur ≠ none ∧ s.SwitchesTo L none s'
    | .free l => s.cur ≠ some l ∧ s' = s

abbrev SavedCtxs (τ : Type) := Option τ → Option CpuCtx

variable [DecidableEq τ]

/-- The record of the contexts that have been saved; no step depends on it. -/
def Core.noteSaved (L : CtxLayout τ) (s : Core τ) (a : CoreLabel τ) (s' : Core τ) (f : SavedCtxs τ) : SavedCtxs τ :=
  match a with
  | .code _ => f
  | .init l _ => Function.update f (some l) (some fun i => s'.cpu.mem (L.slot (some l) i))
  | .resume _ | .yield => Function.update f s.cur (some s.cpu.saved)
  | .free l => Function.update f (some l) none

def savedMachine (L : CtxLayout τ) : Machine (Core τ × SavedCtxs τ) (CoreLabel τ) :=
  (coreMachine L).observe (fun _ => none) (Core.noteSaved L)

/-- The stack is one that `_switch` can use: aligned, and away from the contexts. -/
def CtxLayout.GoodStack (L : CtxLayout τ) (a : Word) : Prop := X86.Aligned a ∧ ¬ L.InCtx a

/-- What is asked of the code: it leaves the saved contexts of the others alone, its stack is a
good one, and so is the one it prepares for a new lthread; an lthread is initialised once, and
before it is resumed. -/
def Core.lawful (L : CtxLayout τ) (q : Core τ × SavedCtxs τ) : CoreLabel τ → Prop
  | .code cpu => ∀ t ≠ q.1.cur, q.2 t ≠ none → ∀ i, cpu.mem (L.slot t i) = q.1.cpu.mem (L.slot t i)
  | .init l stack => q.2 (some l) = none ∧ ∀ a ∈ [stack - 32, stack - 24, stack - 16], L.GoodStack a
  | .resume l => q.2 (some l) ≠ none ∧ L.GoodStack (q.1.cpu.reg .rsp)
  | .yield => L.GoodStack (q.1.cpu.reg .rsp)
  | .free _ => True

/-- A step that `t` has no part in: it does not run, and it is not freed. -/
def Core.aside (L : CtxLayout τ) (t : Option τ) (q : Core τ × SavedCtxs τ) (a : CoreLabel τ) : Prop :=
  Core.lawful L q a ∧ q.1.cur ≠ t ∧ ∀ l, t = some l → a ≠ .free l

end

end Lthr

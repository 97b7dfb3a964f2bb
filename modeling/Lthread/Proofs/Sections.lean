import Lthread.Proofs.HandBack
import Lthread.Spec.Sections

/-! The hand-off of an lthread to a compute thread and back. The lthread is queued before
its context is saved; `LT_ST_PENDING_RUNCOMPUTE` keeps the compute thread off it until
`_lthread_compute_add` has run. -/

namespace Lthr

theorem ComputeSched.act_working {y y' : ComputeSched} {pending : LtId → Bool} {a : ComputeAct} {l : LtId}
    (h : y.act pending a = some y') (hw : y'.pc = .working l) : y.pc = .taken l := by
  unfold ComputeSched.act at h
  cases a with
  | pop =>
    simp only at h
    split_ifs at h with hpc
    obtain rfl := Option.some_inj.mp h
    rcases ComputeSched.pop_cases y pending with ⟨-, heq⟩ | ⟨-, heq⟩ | ⟨m, rest, -, -, heq⟩ <;>
      rw [heq] at hw
    · cases hw
    · rw [hpc] at hw; cases hw
    · cases hw
  | start =>
    simp only at h
    split at h
    · next m hpc =>
      obtain rfl := Option.some_inj.mp h
      rw [hpc, ← ComputePc.working.inj hw]
    · cases h
  | stop | finish | trigger =>
    simp only at h
    split at h
    · obtain rfl := Option.some_inj.mp h
      cases hw
    · cases h
  | wait | spurious | timeout =>
    simp only at h
    split_ifs at h
    obtain rfl := Option.some_inj.mp h
    cases hw
  | leave =>
    simp only at h
    split_ifs at h
    all_goals
      obtain rfl := Option.some_inj.mp h
      cases hw

/-- An lthread that has called `lthread_compute_end` was executed just before. -/
theorem ComputeSched.act_ended {y y' : ComputeSched} {pending : LtId → Bool} {a : ComputeAct} {l : LtId}
    (h : y.act pending a = some y') :
    (y'.pc = .ended l ↔ a = .stop ∧ y.pc = .working l) ∧ (y.pc = .ended l → a = .finish) := by
  unfold ComputeSched.act at h
  cases a with
  | pop =>
    simp only at h
    split_ifs at h with hpc
    obtain rfl := Option.some_inj.mp h
    refine ⟨?_, by simp [hpc]⟩
    rcases ComputeSched.pop_cases y pending with ⟨-, heq⟩ | ⟨-, heq⟩ | ⟨m, rest, -, -, heq⟩ <;>
      rw [heq] <;> simp [hpc]
  | stop =>
    simp only at h
    split at h
    · next m hpc =>
      obtain rfl := Option.some_inj.mp h
      simp [hpc]
    · cases h
  | start | finish | trigger =>
    simp only at h
    split at h
    · next m hpc =>
      obtain rfl := Option.some_inj.mp h
      simp [hpc]
    · cases h
  | wait | spurious | timeout =>
    simp only at h
    split_ifs at h with hpc
    obtain rfl := Option.some_inj.mp h
    simp [hpc]
  | leave =>
    simp only at h
    split_ifs at h with hpc
    all_goals
      obtain rfl := Option.some_inj.mp h
      simp [hpc]

def Spot.count : Spot → Counts → ℕ
  | .queue j, n => n.compute j
  | .thread j, n => n.taken j
  | .defer, n => n.defer

theorem Spot.count_queue {b j : ℕ} (s : Spot) :
    s.count { busy := b, compute := Pi.single j 1 } ≠ 0 ↔ s = .queue j := by
  cases s with
  | queue i =>
    by_cases hij : i = j
    · subst hij; simp [Spot.count]
    · simp [Spot.count, hij]
  | _ => simp [Spot.count]

theorem Spot.count_thread {b j : ℕ} (s : Spot) :
    s.count { busy := b, taken := Pi.single j 1 } ≠ 0 ↔ s = .thread j := by
  cases s with
  | thread i =>
    by_cases hij : i = j
    · subst hij; simp [Spot.count]
    · simp [Spot.count, hij]
  | _ => simp [Spot.count]

namespace Turn

variable {k : Bool} {R : Rules} {b b' : Board} {l : LtId}

theorem ctx_stays (ht : Turn R b b') (h : b.Seated k) (hR : ¬ R b (.resume l))
    (hr : (b.seat l).lt.ctx ≠ .running) : (b'.seat l).lt.ctx = (b.seat l).lt.ctx ∨
      (b.seat l).lt.ctx = .exited ∧ (b'.seat l).lt.ctx = .start := by
  have hcpu : b.cpu ≠ .run l := fun hc => hr ((h.running l).mpr hc)
  rcases ht.ctx_cases l with h1 | ⟨rfl, h1⟩ | ⟨hc, -⟩ | ⟨hc, -⟩ | ⟨h1, -⟩
  · exact Or.inl h1
  · exact Or.inr ⟨(h.links.fresh _ le_rfl).1, h1⟩
  · exact absurd hc hcpu
  · exact absurd hc hcpu
  · exact absurd h1 hR

theorem ioAdd (ht : Turn R b b') (h : b.Seated k)
    (hP : ∀ l w, b.cpu = .ioAdd l w → ∃ e, (b.seat l).lt.ctx = .ioWait e w) :
    ∀ l w, b'.cpu = .ioAdd l w → ∃ e, (b'.seat l).lt.ctx = .ioWait e w := by
  intro l w hcpu'
  by_cases hcpu : b.cpu = .ioAdd l w
  · obtain ⟨e, hx⟩ := hP l w hcpu
    have hstay : (b'.seat l).lt.ctx = (b.seat l).lt.ctx := by
      rcases ht.ctx_cases l with h1 | ⟨rfl, -⟩ | ⟨hc, -⟩ | ⟨hc, -⟩ | ⟨-, hc, -⟩
      · exact h1
      · have hfresh := (h.links.fresh _ le_rfl).1
        rw [hx] at hfresh; cases hfresh
      · rw [hcpu] at hc; cases hc
      · rw [hcpu] at hc; cases hc
      · rw [hcpu'] at hc; cases hc
    exact ⟨e, hstay.trans hx⟩
  · cases ht with
    | @enter σ m e hc hv hr hm =>
      cases e with
      | io ev v =>
        obtain ⟨rfl, rfl⟩ := Cpu.ioAdd.inj hcpu'
        refine ⟨ev, ?_⟩
        change (σ m).lt.ctx = _
        rw [hm.self]
        rfl
      | _ => cases hcpu'
    | join | computeAdd | switch | back | finish | resume => cases hcpu'
    | _ => exact absurd hcpu' hcpu

end Turn

namespace World

open Seat

variable {x x' : World} {l : LtId} {a : Label}

/-! What the scheduler does to the compute schedulers -/

structure ComputeFrame (x x' : World) : Prop where
  pc : ∀ j, (x'.compute j).pc = (x.compute j).pc ∨ (x.compute j).pc = .parked ∧ (x'.compute j).pc = .popping
  lthreads : ∀ j, (x'.compute j).lthreads = (x.compute j).lthreads ∨ ∃ m, x.cpu = .run m ∧ x'.cpu = .leaving m ∧
    (x'.compute j).lthreads = (x.compute j).lthreads ++ [m]
  scheds : ∀ j ∈ x.computeScheds, j ∈ x'.computeScheds

namespace ComputeFrame

theorem of_eq (h : x'.compute = x.compute) (hs : x'.computeScheds = x.computeScheds) : ComputeFrame x x' :=
  ⟨fun _ => Or.inl (by rw [h]), fun _ => Or.inl (by rw [h]), fun j hj => by rwa [hs]⟩

theorem rest (h : Rest x x') : ComputeFrame x x' := of_eq h.compute h.computeScheds

theorem enqueue (hcpu : x.cpu = .run l) (j : ℕ) : ComputeFrame x (x.computeEnqueue l j) := by
  have hcomp : (x.computeEnqueue l j).compute = Function.update x.compute j
    { x.compute j with lthreads := (x.compute j).lthreads ++ [l] } := rfl
  refine ⟨fun i => Or.inl ?_, fun i => ?_, fun i hi => hi⟩
  · rw [hcomp]
    by_cases hij : i = j
    · subst hij; rw [Function.update_self]
    · rw [Function.update_of_ne hij]
  · rw [hcomp]
    by_cases hij : i = j
    · subst hij
      rw [Function.update_self]
      exact Or.inr ⟨l, hcpu, rfl, rfl⟩
    · rw [Function.update_of_ne hij]
      exact Or.inl rfl

theorem create (h : x.Computes) (hcpu : x.cpu = .run l) : ComputeFrame x (({ x with
    compute := Function.update x.compute x.computeCount ComputeSched.init
    computeScheds := x.computeCount :: x.computeScheds
    computeCount := x.computeCount + 1 } : World).computeEnqueue l x.computeCount) := by
  have hself : Function.update x.compute x.computeCount ComputeSched.init = x.compute := by
    rw [← h.unused x.computeCount le_rfl, Function.update_eq_self]
  rw [hself]
  have hframe := enqueue (x := { x with
    computeScheds := x.computeCount :: x.computeScheds, computeCount := x.computeCount + 1 }) hcpu x.computeCount
  exact ⟨hframe.pc, hframe.lthreads, fun j hj => List.mem_cons_of_mem _ hj⟩

theorem call (h : x.Computes) (hcpu : x.cpu = .run l) {op : Op} (hx : x.call l op = .ok x') :
    ComputeFrame x x' := by
  by_cases hio : ∃ e, op = .io e
  · obtain ⟨e, rfl⟩ := hio
    obtain rfl := Except.ok.inj hx
    exact of_eq rfl rfl
  by_cases hcomp : ∃ c, op = .computeBegin c
  · obtain ⟨c, rfl⟩ := hcomp
    obtain rfl := Except.ok.inj hx
    rcases lthreadComputeBegin_cases x l c with heq | ⟨j, -, heq⟩ | heq <;> rw [heq]
    · exact of_eq rfl rfl
    · exact enqueue hcpu j
    · exact create h hcpu
  · exact rest (call_rest hx (fun e he => hio ⟨e, he⟩) fun c hc => hcomp ⟨c, hc⟩)

theorem signal (m : LtId) (j : ℕ) :
    ComputeFrame x (({ x with compute := Function.update x.compute j (x.compute j).signal } : World).resumed m 0) := by
  have hrest := resumed_rest { x with compute := Function.update x.compute j (x.compute j).signal } m 0
  refine ⟨fun i => ?_, fun i => Or.inl ?_, fun i hi => ?_⟩
  · rw [hrest.compute]
    change (Function.update x.compute j (x.compute j).signal i).pc = _ ∨ _ ∧
      (Function.update x.compute j (x.compute j).signal i).pc = _
    by_cases hij : i = j
    · subst hij
      rw [Function.update_self]
      unfold ComputeSched.signal
      by_cases hp : (x.compute i).pc = .parked
      · exact Or.inr ⟨hp, if_pos hp⟩
      · exact Or.inl (if_neg hp)
    · rw [Function.update_of_ne hij]
      exact Or.inl rfl
  · rw [hrest.compute]
    change (Function.update x.compute j (x.compute j).signal i).lthreads = _
    by_cases hij : i = j
    · subst hij; rw [Function.update_self]; rfl
    · rw [Function.update_of_ne hij]
  · rw [hrest.computeScheds]
    exact hi

end ComputeFrame

/-- No step of the scheduler's thread moves a compute thread, other than to wake it. -/
theorem Computes.frame (h : x.Computes) (hx : x.step a = .ok x') (hcomp : ∀ j b, a ≠ .compute j b) :
    ComputeFrame x x' := by
  cases step_cases hx with
  | clock | main | run | poll => exact ComputeFrame.of_eq rfl rfl
  | loop hcpu hx =>
    have hr := lthreadRun_rest hx
    exact ComputeFrame.of_eq hr.compute hr.computeScheds
  | ioSignal | leave => exact ComputeFrame.of_eq rfl rfl
  | back hcpu hx => exact ComputeFrame.rest (lthreadResumeEnd_rest hx).1
  | @computeSignal m _ hcpu hx =>
    obtain ⟨j, -, hx⟩ := except_bind_ok hx
    obtain rfl := Except.ok.inj hx
    exact ComputeFrame.signal m j
  | call hcpu hx => exact ComputeFrame.call h hcpu hx
  | io hx =>
    obtain ⟨-, y, -, hcases⟩ := ioAct_cases hx
    rcases hcases with ⟨m, -, -, -, -, -, rfl⟩ | ⟨m, -, -, -, -, rfl⟩ | ⟨-, -, rfl⟩ <;>
      exact ComputeFrame.of_eq rfl rfl
  | @compute j b _ => exact absurd rfl (hcomp j b)

theorem worker_cpu (hx : x.step a = .ok x') (ha : (∃ w b, a = .io w b) ∨ ∃ j b, a = .compute j b) :
    x'.cpu = x.cpu := by
  rcases ha with ⟨w, b, rfl⟩ | ⟨j, b, rfl⟩
  · obtain ⟨-, y, -, hcases⟩ := ioAct_cases (step_advance hx)
    rcases hcases with ⟨m, -, -, -, -, -, rfl⟩ | ⟨m, -, -, -, -, rfl⟩ | ⟨-, -, rfl⟩ <;> rfl
  · obtain ⟨-, y, -, hcases⟩ := computeAct_cases (step_advance hx)
    rcases hcases with ⟨m, -, -, -, -, -, rfl⟩ | ⟨m, -, -, -, -, rfl⟩ | ⟨-, -, rfl⟩ | ⟨-, -, -, rfl⟩ <;> rfl

theorem running_defer (hx : x.step a = .ok x') (hcpu : x.cpu = .run l) (hio : ∀ w b, a ≠ .io w b)
    (hcomp : ∀ j b, a ≠ .compute j b) : x'.sched.defer = x.sched.defer := by
  cases step_cases hx with
  | clock | main | run | poll => rfl
  | loop h | ioSignal h | leave h | back h | computeSignal h => exact absurd (hcpu.symm.trans h) nofun
  | call _ hx => exact (call_frame hx).2.1
  | io => exact absurd rfl (hio _ _)
  | compute => exact absurd rfl (hcomp _ _)

/-! Where an lthread is during its section -/

theorem holds_iff (s : Spot) : x.Holds s l ↔ s.count (x.seat l).cnt ≠ 0 := by
  cases s <;> exact ⟨count_ne_zero, mem_of_count⟩

theorem Inv.holds_iff (h : x.Inv false) {j : ℕ} (hx : (x.sched.lt l).ctx = .compute j) :
    (∀ s, x.Holds s l ↔ s = .queue j) ∨ (∀ s, x.Holds s l ↔ s = .thread j) ∨
      ∀ s, x.Holds s l ↔ s = .defer := by
  have hrow := h.plain_row l
  rw [hx] at hrow
  rcases hrow.of_section with hn | hn | hn | hn | ⟨h0, -⟩
  · refine Or.inl fun s => ?_
    rw [World.holds_iff, hn]
    exact Spot.count_queue s
  · refine Or.inl fun s => ?_
    rw [World.holds_iff, hn]
    exact Spot.count_queue s
  · refine Or.inr (Or.inl fun s => ?_)
    rw [World.holds_iff, hn]
    exact Spot.count_thread s
  · refine Or.inr (Or.inr fun s => ?_)
    rw [World.holds_iff, hn]
    cases s <;> simp [Spot.count]
  · cases h0

theorem Inv.not_held (h : x.Inv false) (hx : ∀ j, (x.sched.lt l).ctx ≠ .compute j) (j : ℕ) :
    ¬ x.Holds (.queue j) l ∧ ¬ x.Holds (.thread j) l := by
  constructor
  · intro hq
    exact hx j ((h.row l).of_compute (count_ne_zero hq)).1
  · intro hq
    exact hx j (h.compute_owned hq).1

theorem ended_holds {j : ℕ} (hj : (x.compute j).pc = .ended l) : x.Holds (.thread j) l := by
  change l ∈ (x.compute j).pc.owned
  rw [hj]
  exact List.mem_singleton.mpr rfl

theorem working_holds {j : ℕ} (hj : (x.compute j).pc = .working l) : x.Holds (.thread j) l := by
  change l ∈ (x.compute j).pc.owned
  rw [hj]
  exact List.mem_singleton.mpr rfl

theorem stage_compute {j : ℕ} (hx : (x.sched.lt l).ctx = .compute j) :
    x.stage l = if (x.compute j).pc = .ended l ∨ l ∈ x.sched.defer then .ended else .entered := by
  unfold stage
  rw [hx]

theorem stage_own (hx : ∀ j, (x.sched.lt l).ctx ≠ .compute j) : x.stage l = .own := by
  unfold stage
  split
  · next j h => exact absurd h (hx j)
  · rfl

theorem Inv.whereabouts (h : x.Inv false) (l : LtId) : x.Whereabouts l (x.stage l) := by
  by_cases hx : ∃ j, (x.sched.lt l).ctx = .compute j
  swap
  · rw [stage_own (not_exists.mp hx)]
    exact h.not_held (not_exists.mp hx)
  obtain ⟨j, hx⟩ := hx
  have hone : ∃! s, x.Holds s l := by
    rcases h.holds_iff hx with hs | hs | hs
    · exact ⟨.queue j, (hs _).mpr rfl, fun s h => (hs s).mp h⟩
    · exact ⟨.thread j, (hs _).mpr rfl, fun s h => (hs s).mp h⟩
    · exact ⟨.defer, (hs _).mpr rfl, fun s h => (hs s).mp h⟩
  rw [stage_compute hx]
  split_ifs with hd
  · exact ⟨hone, hd.symm.imp id fun he => ⟨j, he⟩⟩
  · refine ⟨hone, fun hmem => hd (Or.inr hmem), fun i hi => ?_⟩
    obtain ⟨hx', -⟩ := h.compute_owned (ended_holds hi)
    rw [hx] at hx'
    obtain rfl := Ctx.compute.inj hx'
    exact hd (Or.inl hi)

theorem stage_congr (hctx : (x'.sched.lt l).ctx = (x.sched.lt l).ctx)
    (hpc : ∀ j, (x.sched.lt l).ctx = .compute j → ((x'.compute j).pc = .ended l ↔ (x.compute j).pc = .ended l))
    (hd : ∀ j, (x.sched.lt l).ctx = .compute j → (l ∈ x'.sched.defer ↔ l ∈ x.sched.defer)) :
    x'.stage l = x.stage l := by
  by_cases hx : ∃ j, (x.sched.lt l).ctx = .compute j
  · obtain ⟨j, hx⟩ := hx
    rw [stage_compute hx, stage_compute (hctx.trans hx)]
    simp only [hpc j hx, hd j hx]
  · rw [stage_own (not_exists.mp hx), stage_own fun j hj => hx ⟨j, hctx.symm.trans hj⟩]

theorem Inv.defer_iff (h : x.Inv false) {j : ℕ} (hx : (x.sched.lt l).ctx = .compute j) :
    l ∈ x.sched.defer ↔ ¬ x.Holds (.queue j) l ∧ ¬ x.Holds (.thread j) l := by
  change x.Holds .defer l ↔ _
  rcases h.holds_iff hx with hs | hs | hs <;> simp [hs]

namespace ComputeFrame

theorem queue_iff (h : ComputeFrame x x') (hl : x.cpu ≠ .run l) (j : ℕ) :
    x'.Holds (.queue j) l ↔ x.Holds (.queue j) l := by
  change l ∈ (x'.compute j).lthreads ↔ l ∈ (x.compute j).lthreads
  rcases h.lthreads j with heq | ⟨m, hm, -, heq⟩
  · rw [heq]
  · have hlm : l ≠ m := by rintro rfl; exact hl hm
    rw [heq, List.mem_append, List.mem_singleton]
    simp [hlm]

theorem thread_iff (h : ComputeFrame x x') (j : ℕ) : x'.Holds (.thread j) l ↔ x.Holds (.thread j) l := by
  change l ∈ (x'.compute j).pc.owned ↔ l ∈ (x.compute j).pc.owned
  rcases h.pc j with heq | ⟨h1, h2⟩
  · rw [heq]
  · rw [h1, h2]
    exact Iff.rfl

theorem ended_iff (h : ComputeFrame x x') (j : ℕ) :
    (x'.compute j).pc = .ended l ↔ (x.compute j).pc = .ended l := by
  rcases h.pc j with heq | ⟨h1, h2⟩
  · rw [heq]
  · rw [h1, h2]
    simp

/-- A step of the scheduler that leaves `l` in its call leaves its section alone. -/
theorem stage (h : ComputeFrame x x') (hi : x.Inv false) (hi' : x'.Inv false) (hl : x.cpu ≠ .run l)
    (hctx : (x'.sched.lt l).ctx = (x.sched.lt l).ctx) : x'.stage l = x.stage l := by
  refine stage_congr hctx (fun j _ => h.ended_iff j) fun j hj => ?_
  rw [hi.defer_iff hj, hi'.defer_iff (hctx.trans hj), h.queue_iff hl, h.thread_iff]

end ComputeFrame

theorem Inv.compute_stage {j : ℕ} {b : ComputeAct} (h : x.Inv false) (hx : x.step (.compute j b) = .ok x') :
    x'.stage l = x.stage l ∧ ¬ (b = .stop ∧ (x.compute j).pc = .working l) ∨
      b = .stop ∧ (x.compute j).pc = .working l ∧ x.stage l = .entered ∧ x'.stage l = .ended := by
  obtain ⟨-, y, hy, hcases⟩ := computeAct_cases (step_advance hx)
  obtain ⟨hend, hfin⟩ := ComputeSched.act_ended (l := l) hy
  -- what matters is whether the thread of `j` comes to `ended l`
  have hpc (hne : ¬ (b = .stop ∧ (x.compute j).pc = .working l)) (hold : (x.compute j).pc ≠ .ended l) (i : ℕ) :
      (Function.update x.compute j y i).pc = .ended l ↔ (x.compute i).pc = .ended l := by
    by_cases hij : i = j
    · subst hij
      rw [Function.update_self, hend]
      exact ⟨fun h0 => absurd h0 hne, fun h0 => absurd h0 hold⟩
    · rw [Function.update_of_ne hij]
  have hsame {z : World} (hz : z.compute = Function.update x.compute j y) (hs : z.sched = x.sched)
      (hb : b ≠ .finish) : z.stage l = x.stage l ∧ ¬ (b = .stop ∧ (x.compute j).pc = .working l) ∨
        b = .stop ∧ (x.compute j).pc = .working l ∧ x.stage l = .entered ∧ z.stage l = .ended := by
    by_cases hstop : b = .stop ∧ (x.compute j).pc = .working l
    · obtain ⟨rfl, hw⟩ := hstop
      obtain ⟨hctx, -⟩ := h.compute_owned (working_holds hw)
      refine Or.inr ⟨rfl, hw, ?_, ?_⟩
      · rw [stage_compute hctx, if_neg]
        rintro (h0 | h0)
        · rw [hw] at h0; cases h0
        · exact ((h.defer_iff hctx).mp h0).2 (working_holds hw)
      · rw [stage_compute (x := z) (j := j) (by rw [hs]; exact hctx), if_pos]
        refine Or.inl ?_
        rw [hz, Function.update_self]
        exact hend.mpr ⟨rfl, hw⟩
    · refine Or.inl ⟨stage_congr (by rw [hs]) (fun i _ => ?_) (fun i _ => by rw [hs]), hstop⟩
      rw [hz]
      exact hpc hstop (fun h0 => hb (hfin h0)) i
  rcases hcases with ⟨m, rfl, hm, rfl, -, -, rfl⟩ | ⟨m, rfl, -, -, -, rfl⟩ | ⟨rfl, -, rfl⟩ | ⟨hb, -, -, rfl⟩
  · refine Or.inl ⟨?_, by simp⟩
    by_cases hl : l = m
    · -- from the thread to the defer queue
      subst hl
      obtain ⟨hctx, -⟩ := h.compute_owned (ended_holds hm)
      rw [stage_compute hctx, if_pos (Or.inl hm), stage_compute (j := j), if_pos]
      · exact Or.inr (List.mem_append_right _ (List.mem_singleton.mpr rfl))
      · change (Function.update x.sched.lt l ((x.sched.lt l).clearBit .runcompute) l).ctx = _
        rw [Function.update_self]
        exact hctx
    · refine stage_congr ?_ (fun i _ => ?_) fun i _ => ?_
      · change (Function.update x.sched.lt m ((x.sched.lt m).clearBit .runcompute) l).ctx = _
        rw [Function.update_of_ne hl]
      · refine hpc (by simp) ?_ i
        rw [hm]
        intro h0
        exact hl (ComputePc.ended.inj h0).symm
      · change l ∈ x.sched.defer ++ [m] ↔ _
        rw [List.mem_append, List.mem_singleton]
        simp [hl]
  · exact hsame rfl rfl (by simp)
  · exact hsame rfl rfl (by simp)
  · exact hsame rfl rfl hb

theorem Inv.io_stage {w : ℕ} {b : WorkerAct} (h : x.Inv false) (hx : x.step (.io w b) = .ok x') :
    x'.stage l = x.stage l := by
  obtain ⟨-, y, -, hcases⟩ := ioAct_cases (step_advance hx)
  rcases hcases with ⟨m, -, hm, -, -, -, rfl⟩ | ⟨m, -, -, -, -, rfl⟩ | ⟨-, -, rfl⟩
  · refine stage_congr rfl (fun j _ => Iff.rfl) fun j hj => ?_
    obtain ⟨e, hctx⟩ := h.io_working hm
    have hlm : l ≠ m := by
      rintro rfl
      rw [hj] at hctx; cases hctx
    change l ∈ x.sched.defer ++ [m] ↔ _
    rw [List.mem_append, List.mem_singleton]
    simp [hlm]
  · rfl
  · rfl

theorem Inv.step_ctx {k : Bool} (h : x.Inv k) (hok : stepOk k x a) (hx : x.step a = .ok x')
    (ha : ¬ (a = .sched ∧ x.cpu = .loop)) (hr : (x.sched.lt l).ctx ≠ .running) :
    (x'.sched.lt l).ctx = (x.sched.lt l).ctx ∨
      (x.sched.lt l).ctx = .exited ∧ (x'.sched.lt l).ctx = .start := by
  have hR (b : Board) : ¬ made x a b (.resume l) := fun hr => ha (made_resume hr)
  refine Turns.preserves (P := fun b => (b.seat l).lt.ctx = (x.sched.lt l).ctx ∨
      (x.sched.lt l).ctx = .exited ∧ (b.seat l).lt.ctx = .start) (made_cancel hok)
    (fun b b' ht hs _ hb => ?_) (step_turns h hok hx) h.seated (Or.inl rfl)
  have hne : (b.seat l).lt.ctx ≠ .running := by
    rcases hb with hb | ⟨-, hb⟩
    · rwa [hb]
    · simp [hb]
  rcases ht.ctx_stays hs (hR b) hne with h1 | ⟨h1, h2⟩
  · rwa [h1]
  · rcases hb with hb | ⟨-, hb⟩
    · exact Or.inr ⟨hb.symm.trans h1, h2⟩
    · rw [hb] at h1; cases h1

theorem Inv.suspended_stays {k : Bool} {c : Ctx} (h : x.Inv k) (hok : stepOk k x a) (hx : x.step a = .ok x')
    (hctx : (x.sched.lt l).ctx = c) (hr : c ≠ .running) (he : c ≠ .exited) :
    (x'.sched.lt l).ctx = c ∨ a = .sched ∧ x.cpu = .loop ∧ x'.cpu = .run l := by
  by_cases hloop : a = .sched ∧ x.cpu = .loop
  · obtain ⟨rfl, hcpu⟩ := hloop
    replace hx := step_loop hcpu hx
    have ht : Turn (fun _ _ => True) x.board x'.board := lthreadRun_turn h.seated hcpu (fun _ => trivial) hx
    have hrun : x.board.cpu ≠ .run l := by simp [World.board, hcpu]
    rcases ht.ctx_cases l with h1 | ⟨rfl, -⟩ | ⟨h1, -⟩ | ⟨h1, -⟩ | ⟨-, h1, -⟩
    · exact Or.inl (h1.trans hctx)
    · have hold : (x.sched.lt x.sched.spawned).ctx = .exited := (h.seated.links.fresh _ le_rfl).1
      rw [show x.board.spawned = x.sched.spawned from rfl, hold] at hctx
      exact absurd hctx.symm he
    · exact absurd h1 hrun
    · exact absurd h1 hrun
    · exact Or.inr ⟨rfl, hcpu, h1⟩
  · rcases h.step_ctx (l := l) hok hx hloop (hctx ▸ hr) with h1 | ⟨h1, -⟩
    · exact Or.inl (h1.trans hctx)
    · exact absurd (hctx.symm.trans h1) he

theorem Inv.enter_stage (h : x.Inv false) (h' : x'.Inv false) (hf : ComputeFrame x x') (hcpu : x.cpu = .run l)
    (hd : x'.sched.defer = x.sched.defer) :
    x.stage l = .own ∧ (x'.cpu = .leaving l ∧ x'.stage l = .entered ∨ x'.cpu ≠ .leaving l ∧ x'.stage l = .own) := by
  have hcnt := h.runs hcpu
  have hctx : (x.sched.lt l).ctx = .running := (h.seated.running l).mpr hcpu
  refine ⟨stage_own fun j => by simp [hctx], ?_⟩
  by_cases hleave : x'.cpu = .leaving l
  · refine Or.inl ⟨hleave, ?_⟩
    obtain ⟨j, hj, hn⟩ := (h'.ok l).pending.mp (h'.seated.leaving l hleave)
    have hcount (s : Spot) : x'.Holds s l ↔ s = .queue j := by
      rw [World.holds_iff, hn]
      exact Spot.count_queue s
    rw [stage_compute hj, if_neg]
    rintro (h0 | h0)
    · cases (hcount _).mp (ended_holds h0)
    · cases (hcount .defer).mp h0
  · refine Or.inr ⟨hleave, stage_own fun j hj => ?_⟩
    -- it would be in one of the spots, and nobody has put it there
    have hnone (s : Spot) : ¬ x.Holds s l := by
      rw [World.holds_iff, hcnt]
      cases s <;> simp [Spot.count]
    have hq : ¬ x'.Holds (.queue j) l := by
      change ¬ l ∈ (x'.compute j).lthreads
      rcases hf.lthreads j with heq | ⟨m, hm, hm', -⟩
      · rw [heq]; exact hnone (.queue j)
      · rw [hcpu] at hm
        rw [← Cpu.run.inj hm] at hm'
        exact absurd hm' hleave
    have ht : ¬ x'.Holds (.thread j) l := by
      rw [hf.thread_iff]; exact hnone (.thread j)
    have hmem := (h'.defer_iff hj).mpr ⟨hq, ht⟩
    rw [hd] at hmem
    exact hnone .defer hmem

/-- The loop resumes an lthread that has ended its section, or was in none. -/
theorem Inv.loop_stage (h : x.Inv false) (h' : x'.Inv false) (hf : ComputeFrame x x')
    (hcpu : x.cpu = .loop) (hx : x.lthreadRun = .ok x') :
    x'.cpu = .run l ∧ x.stage l ≠ .entered ∧ x'.stage l = .own ∨ x'.cpu ≠ .run l ∧ x'.stage l = x.stage l := by
  have hnot : x.cpu ≠ .run l := by simp [hcpu]
  have hrun (hc : x'.cpu = .run l) : (x'.sched.lt l).ctx = .running := (h'.seated.running l).mpr hc
  by_cases hc : x'.cpu = .run l
  · refine Or.inl ⟨hc, fun hs => ?_, stage_own fun j => by simp [hrun hc]⟩
    have hcnt := h'.runs hc
    have hnone (s : Spot) : ¬ x'.Holds s l := by
      rw [World.holds_iff, hcnt]
      cases s <;> simp [Spot.count]
    by_cases hx : ∃ j, (x.sched.lt l).ctx = .compute j
    · obtain ⟨j, hj⟩ := hx
      have hmem : l ∈ x.sched.defer := by
        rw [h.defer_iff hj, ← hf.queue_iff hnot, ← hf.thread_iff]
        exact ⟨hnone _, hnone _⟩
      rw [stage_compute hj, if_pos (Or.inr hmem)] at hs
      cases hs
    · rw [stage_own (not_exists.mp hx)] at hs
      cases hs
  · refine Or.inr ⟨hc, ?_⟩
    have ht : Turn (fun _ _ => True) x.board x'.board := lthreadRun_turn h.seated hcpu (fun _ => trivial) hx
    rcases ht.ctx_cases l with h1 | ⟨h0, h1⟩ | ⟨h1, -⟩ | ⟨h1, -⟩ | ⟨-, h1, -⟩
    · exact hf.stage h h' hnot h1
    · -- an lthread that has just been created
      have hold : (x.sched.lt l).ctx = .exited := by
        rw [h0]; exact (h.seated.links.fresh _ le_rfl).1
      have hnew : (x'.sched.lt l).ctx = .start := h1
      rw [stage_own (x := x) fun j => by simp [hold], stage_own fun j => by simp [hnew]]
    · exact absurd h1 hnot
    · exact absurd h1 hnot
    · exact absurd h1 hc

/-- Every step is an event of the section of `l` that may come at its stage, or none. -/
theorem Inv.stage_step (h : x.Inv false) (hok : stepOk false x a) (hx : x.step a = .ok x') (l : LtId) :
    x.sectionEvent a x' l = none ∧ x'.stage l = x.stage l ∨
      ∃ e, x.sectionEvent a x' l = some e ∧ (x.stage l).next e = some (x'.stage l) := by
  have h' : x'.Inv false := h.step hok hx
  unfold sectionEvent
  by_cases hw : (∃ w b, a = .io w b) ∨ ∃ j b, a = .compute j b
  · have hcpu := worker_cpu hx hw
    have hno : ¬ (x.cpu = .run l ∧ x'.cpu = .leaving l) := by
      rw [hcpu]
      rintro ⟨h1, h2⟩
      rw [h1] at h2; cases h2
    have hno' : ¬ (x.cpu = .loop ∧ x'.cpu = .run l) := by
      rw [hcpu]
      rintro ⟨h1, h2⟩
      rw [h1] at h2; cases h2
    rw [if_neg hno, if_neg hno']
    rcases hw with ⟨w, b, rfl⟩ | ⟨j, b, rfl⟩
    · exact Or.inl ⟨rfl, h.io_stage hx⟩
    · rcases h.compute_stage (l := l) hx with ⟨hs, hne⟩ | ⟨rfl, hwork, hs, hs'⟩
      · refine Or.inl ⟨?_, hs⟩
        cases b with
        | stop =>
          rw [if_neg]
          simpa [stops] using hne
        | _ => rfl
      · refine Or.inr ⟨.stop, ?_, by rw [hs, hs']; rfl⟩
        rw [if_pos]
        simpa [stops] using hwork
  have hio (w : ℕ) (b : WorkerAct) : a ≠ .io w b := fun h0 => hw (Or.inl ⟨w, b, h0⟩)
  have hcomp (j : ℕ) (b : ComputeAct) : a ≠ .compute j b := fun h0 => hw (Or.inr ⟨j, b, h0⟩)
  have hf := h.computes.frame hx hcomp
  have hstop : x.stops l a = false := by
    cases a with
    | compute j b => exact absurd rfl (hcomp j b)
    | _ => rfl
  rw [hstop]
  by_cases hcpu : x.cpu = .run l
  · have hloop : ¬ (x.cpu = .loop ∧ x'.cpu = .run l) := by simp [hcpu]
    obtain ⟨hs, ⟨hl, hs'⟩ | ⟨hl, hs'⟩⟩ := h.enter_stage h' hf hcpu (running_defer hx hcpu hio hcomp)
    · rw [if_pos ⟨hcpu, hl⟩]
      exact Or.inr ⟨_, rfl, by rw [hs, hs']; rfl⟩
    · rw [if_neg fun h0 => hl h0.2, if_neg hloop]
      exact Or.inl ⟨rfl, hs'.trans hs.symm⟩
  rw [if_neg fun h0 => hcpu h0.1]
  by_cases hloop : a = .sched ∧ x.cpu = .loop
  · obtain ⟨rfl, hl⟩ := hloop
    have hx' : x.lthreadRun = .ok x' := step_loop hl hx
    rcases h.loop_stage (l := l) h' hf hl hx' with ⟨hc, hs, hs'⟩ | ⟨hc, hs⟩
    · rw [if_pos ⟨hl, hc⟩, hs']
      refine Or.inr ⟨_, rfl, ?_⟩
      cases hst : x.stage l with
      | entered => exact absurd hst hs
      | _ => rfl
    · rw [if_neg fun h0 => hc h0.2]
      exact Or.inl ⟨rfl, hs⟩
  · have hr : (x.sched.lt l).ctx ≠ .running := fun h0 => hcpu ((h.seated.running l).mp h0)
    have hstay := h.step_ctx hok hx hloop hr
    have hsame : x'.stage l = x.stage l := by
      rcases hstay with h1 | ⟨h1, h2⟩
      · exact hf.stage h h' hcpu h1
      · rw [stage_own (x := x) fun j => by simp [h1], stage_own fun j => by simp [h2]]
    rw [if_neg]
    · exact Or.inl ⟨rfl, hsame⟩
    · rintro ⟨-, hc⟩
      have hrun : (x'.sched.lt l).ctx = .running := (h'.seated.running l).mpr hc
      rcases hstay with h1 | ⟨-, h1⟩
      · exact hr (h1.symm.trans hrun)
      · rw [hrun] at h1; cases h1

end World
end Lthr

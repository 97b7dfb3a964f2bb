import Lthread.Proofs.Sections

/-! No lthread is executed by two threads, and none is lost between them. -/

namespace Lthr

theorem Stage.after_toList (s : Stage) (es : List SectionEvent) (e : Option SectionEvent) :
    s.after (es ++ e.toList) = match e with
      | none => s.after es
      | some e => (s.after es).bind (Stage.next · e) := by
  unfold Stage.after
  cases e with
  | none => simp
  | some e =>
    rw [Option.toList_some, List.foldlM_append]
    simp [List.foldlM]

namespace World

variable {x x' : World} {l : LtId} {a : Label}

theorem ioAdd_ctx (h : worldMachine.Reachable (stepOk false) x) :
    ∀ l w, x.cpu = .ioAdd l w → ∃ e, (x.sched.lt l).ctx = .ioWait e w := by
  refine board_invariant (k := false)
    (P := fun b => ∀ l w, b.cpu = .ioAdd l w → ∃ e, (b.seat l).lt.ctx = .ioWait e w)
    (fun _ _ h => h) (fun birth capacity n l w hcpu => by cases hcpu) (fun y a b b' _ ht hs _ hP => ?_) h
  exact ht.ioAdd hs hP

theorem sched_executes (h : worldMachine.Reachable (stepOk false) x) (hl : x.Executes .sched l) (j : ℕ) :
    ¬ x.Holds (.thread j) l := by
  have hi : x.Inv false := Inv.reachable h
  intro hj
  obtain ⟨hctx, hcnt⟩ := hi.compute_owned hj
  have hcpu : x.cpu.executes = some l := hl
  cases hc : x.cpu with
  | run m =>
    rw [hc] at hcpu
    obtain rfl := Option.some_inj.mp hcpu
    have hrun : (x.sched.lt m).ctx = .running := (hi.seated.running m).mpr hc
    rw [hctx] at hrun
    cases hrun
  | ioAdd m w =>
    rw [hc] at hcpu
    obtain rfl := Option.some_inj.mp hcpu
    obtain ⟨e, he⟩ := ioAdd_ctx h m w hc
    rw [hctx] at he
    cases he
  | leaving m =>
    -- the bit that `_lthread_compute_add` clears keeps the compute thread off
    rw [hc] at hcpu
    obtain rfl := Option.some_inj.mp hcpu
    obtain ⟨i, -, hn⟩ := (hi.ok m).pending.mp (hi.seated.leaving m hc)
    have htaken : (x.seat m).cnt.taken j = 0 := by rw [hn]; rfl
    rw [hcnt] at htaken
    simp at htaken
  | loop | back _ | computeAdd _ => rw [hc] at hcpu; cases hcpu

theorem executes_once (h : worldMachine.Reachable (stepOk false) x) {th th' : Thread} (h1 : x.Executes th l)
    (h2 : x.Executes th' l) : th = th' := by
  have hi : x.Inv false := Inv.reachable h
  cases th with
  | sched =>
    cases th' with
    | sched => rfl
    | compute j => exact absurd (working_holds h2) (sched_executes h h1 j)
  | compute i =>
    cases th' with
    | sched => exact absurd (working_holds h1) (sched_executes h h2 i)
    | compute j =>
      obtain ⟨hx, -⟩ := hi.compute_owned (working_holds h1)
      obtain ⟨hx', -⟩ := hi.compute_owned (working_holds h2)
      rw [hx] at hx'
      rw [Ctx.compute.inj hx']

theorem compute_pc {j : ℕ} {b : ComputeAct} (hx : x.step (.compute j b) = .ok x') :
    (∀ i ≠ j, x'.compute i = x.compute i) ∧
      (x.compute j).act (x.sched.has · .pendingRuncompute) b = some (x'.compute j) := by
  obtain ⟨-, y, hy, hcases⟩ := computeAct_cases (step_advance hx)
  have hcomp : x'.compute = Function.update x.compute j y := by
    rcases hcases with ⟨m, -, -, -, -, -, rfl⟩ | ⟨m, -, -, -, -, rfl⟩ | ⟨-, -, rfl⟩ | ⟨-, -, -, rfl⟩ <;> rfl
  rw [hcomp]
  refine ⟨fun i hi => Function.update_of_ne hi _ _, ?_⟩
  rw [Function.update_self]
  exact hy

theorem switch_exclusive (h : worldMachine.Reachable (stepOk false) x) (hok : stepOk false x a)
    (hx : x.step a = .ok x') {th : Thread} (hold : ¬ x.Executes th l) (hnew : x'.Executes th l) (th' : Thread) :
    ¬ x.Executes th' l := by
  have hi : x.Inv false := Inv.reachable h
  intro hother
  cases th with
  | sched =>
    by_cases hcomp : ∃ j b, a = .compute j b
    · refine hold ?_
      change x.cpu.executes = some l
      rw [← worker_cpu hx (Or.inr hcomp)]
      exact hnew
    · have hf := hi.computes.frame hx fun j b h0 => hcomp ⟨j, b, h0⟩
      cases th' with
      | sched => exact hold hother
      | compute j =>
        -- the compute thread would still have it
        have hheld : x'.Holds (.thread j) l := hf.thread_iff j |>.mpr (working_holds hother)
        exact sched_executes (h.next hok hx) hnew j hheld
  | compute j =>
    have htaken : (x.compute j).pc = .taken l := by
      by_cases hcomp : ∃ i b, a = .compute i b
      · obtain ⟨i, b, rfl⟩ := hcomp
        obtain ⟨hne, hact⟩ := compute_pc hx
        by_cases hij : j = i
        · subst hij
          exact ComputeSched.act_working hact hnew
        · refine absurd ?_ hold
          change (x.compute j).pc = _
          rw [← hne j hij]
          exact hnew
      · have hf := hi.computes.frame hx fun i b h0 => hcomp ⟨i, b, h0⟩
        rcases hf.pc j with heq | ⟨-, heq⟩
        · exact absurd (heq.symm.trans hnew) hold
        · have hwork : (x'.compute j).pc = .working l := hnew
          rw [heq] at hwork; cases hwork
    have hheld : x.Holds (.thread j) l := by
      change l ∈ (x.compute j).pc.owned
      rw [htaken]
      exact List.mem_singleton.mpr rfl
    cases th' with
    | sched => exact sched_executes h hother j hheld
    | compute i =>
      obtain ⟨hctx, -⟩ := hi.compute_owned hheld
      obtain ⟨hctx', -⟩ := hi.compute_owned (working_holds hother)
      rw [hctx] at hctx'
      obtain rfl := Ctx.compute.inj hctx'
      exact hold hother

theorem Computes.removed (h : x.Computes) (hx : x.step a = .ok x') {j : ℕ} (hj : j ∈ x.computeScheds)
    (hj' : j ∉ x'.computeScheds) : (x.compute j).lthreads = [] := by
  by_cases hcomp : ∃ i b, a = .compute i b
  swap
  · exact absurd ((h.frame hx fun i b h0 => hcomp ⟨i, b, h0⟩).scheds j hj) hj'
  obtain ⟨i, b, rfl⟩ := hcomp
  obtain ⟨-, y, hy, hcases⟩ := computeAct_cases (step_advance hx)
  rcases hcases with ⟨m, -, -, -, -, -, rfl⟩ | ⟨m, -, -, -, -, rfl⟩ | ⟨-, hpc, rfl⟩ | ⟨-, -, -, rfl⟩
  · exact absurd hj hj'
  · exact absurd hj hj'
  · by_cases hij : j = i
    · subst hij
      exact (ComputeSched.act_exited hy hpc).2.2
    · exact absurd ((List.mem_erase_of_ne hij).mpr hj) hj'
  · exact absurd hj hj'

theorem Computes.queued (h : x.Computes) {j : ℕ} (hj : (x.compute j).lthreads ≠ []) : j ∈ x.computeScheds := by
  refine (h.listed j).mpr ⟨?_, fun hpc => hj (h.idle j hpc)⟩
  by_contra hlt
  rw [h.unused j (not_lt.mp hlt)] at hj
  exact hj rfl

theorem stage_reachable {t : LtId → List SectionEvent}
    (h : sectionMachine.Reachable (fun p a => stepOk false p.1 a) (x, t)) (l : LtId) :
    Stage.own.after (t l) = some (x.stage l) := by
  refine Machine.Reachable.invariant_of (M := sectionMachine)
    (P := fun p => ∀ l, Stage.own.after (p.2 l) = some (p.1.stage l)) (fun p hp l => ?_)
    (fun p a p' hp hP hok hs l => ?_) h l
  · obtain ⟨⟨birth, capacity, n, heq⟩, ht⟩ := hp
    rw [ht, heq]
    rfl
  · have hi : p.1.Inv false := Inv.reachable hp.of_observe
    obtain ⟨hstep, ht⟩ := hs
    rw [ht]
    change Stage.own.after (p.2 l ++ _) = _
    rw [Stage.after_toList]
    rcases hi.stage_step hok hstep l with ⟨he, hst⟩ | ⟨e, he, hst⟩
    · rw [he, hst]
      exact hP l
    · rw [he]
      simp only
      rw [hP l]
      exact hst

end World
end Lthr

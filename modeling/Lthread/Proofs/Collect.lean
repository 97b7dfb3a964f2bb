import Lthread.Proofs.Batch
import Lthread.Proofs.Interest

/-! Steps 4 and 5 of `lthread_run`: whether the events that are pending are collected, and
what becomes of those who wait for them. -/

namespace Lthr

theorem Phase.unhandled_of_quiet {ph : Phase} (h : ph.handling = false) : ph.unhandled = [] := by
  cases ph with
  | events evs | write fd eof r evs => cases h
  | _ => rfl

namespace World

variable {x x' : World} {l m : LtId} {fd : Fd} {e : LtEvent} {a : Label} {evs : List PollEvent} {log : List LtId}

/-- The lthreads that the loop of the scheduler resumes, in order. -/
def noteResumed (x : World) (_ : Label) (x' : World) (log : List LtId) : List LtId :=
  match x.cpu, x'.cpu with
  | .loop, .run m => log ++ [m]
  | _, _ => log

theorem mem_noteResumed (h : m ∈ log) : m ∈ noteResumed x a x' log := by
  unfold noteResumed
  split
  · exact List.mem_append_left _ h
  · exact h

theorem noteResumed_run (hcpu : x.cpu = .loop) (hrun : x'.cpu = .run m) : m ∈ noteResumed x a x' log := by
  unfold noteResumed
  rw [hcpu, hrun]
  exact List.mem_append_right _ (List.mem_singleton.mpr rfl)

/-- Every descriptor event of `evs`, which are pending at step 4, is taken, and when step 5
is over everyone who waited for the descriptor has been resumed. -/
def Collects (x : World) (evs : List PollEvent) : Prop :=
  ∀ fd eof, PollEvent.ready fd eof ∈ evs → ∃ x₁ x₂, x.step .sched = .ok x₁ ∧ x₁.step (.poll evs) = .ok x₂ ∧
    ∀ p, (worldMachine.observe [] noteResumed).Steps (fun q a => q.1.keepsEvents a) (x₂, []) p →
      p.1.phase.handling = false → ∀ m e, x₂.Waits m fd e → m ∈ p.2

def Due (x : World) (m : LtId) (fd : Fd) (e : LtEvent) : Prop :=
  x.Waits m fd e ∧ (fd ∈ x.phase.batch ∨ e = .write ∧ ∃ eof r evs, x.phase = .write fd eof r evs)

theorem Due.unhandled (h : x.Due m fd e) : fd ∈ x.phase.unhandled := by
  rcases h.2 with hb | ⟨-, eof, r, evs, hp⟩
  · cases hp : x.phase with
    | events evs =>
      rw [hp] at hb
      exact hb
    | write fd' eof r evs =>
      rw [hp] at hb
      exact List.mem_cons_of_mem _ hb
    | _ =>
      rw [hp] at hb
      cases hb
  · rw [hp]
    exact List.mem_cons_self

theorem Due.loop (h : x.Due m fd e) (hi : x.Inv true) (hcpu : x.cpu = .loop) (hs : x.step .sched = .ok x')
    (hw : x'.Waits m fd e) : x'.Due m fd e := by
  have hx := hs
  replace hx := step_loop hcpu hx
  have hdue := h.unhandled
  refine ⟨hw, ?_⟩
  cases lthreadRun_round hx with
  | @trigger evs hp =>
    rcases h.2 with hb | ⟨-, eof, r, evs', hp'⟩
    · rw [hp] at hb
      exact Or.inl hb
    · rw [hp] at hp'
      cases hp'
  | @read fd' eof evs _ hp hev =>
    have hphase : ∃ r, x'.phase = .write fd' eof r evs := by
      rcases hi.handleEv_run hev with ⟨hph, -⟩ | ⟨_, hph, -⟩
      · exact ⟨_, (Except.ok.inj hph).symm⟩
      · exact ⟨_, (Except.ok.inj hph).symm⟩
    obtain ⟨r, hphase⟩ := hphase
    rw [hp] at hdue
    rcases List.mem_cons.mp hdue with rfl | hrest
    · cases e with
      | read => exact absurd hw (hi.handled hs hev m)
      | write => exact Or.inr ⟨rfl, eof, r, evs, hphase⟩
    · rw [hphase]
      exact Or.inl hrest
  | @write fd' eof r evs _ hp hev =>
    have hphase : x'.phase = .events evs := by
      rcases hi.handleEv_run hev with ⟨hph, -⟩ | ⟨_, hph, -⟩
      all_goals
        split_ifs at hph
        exact (Except.ok.inj hph).symm
    rw [hphase]
    rcases h.2 with hb | ⟨rfl, eof', r', evs', hp'⟩
    · rw [hp] at hb
      exact Or.inl hb
    · rw [hp] at hp'
      cases hp'
      exact absurd hw (hi.handled hs hev m)
  | again hp =>
    rcases hp with hp | hp
    all_goals
      rw [hp] at hdue
      cases hdue
  | done hp | start hp | expire hp | expired hp | pop hp | popped hp | deferPop hp | deferPopped hp | poll hp =>
    rw [hp] at hdue
    cases hdue

theorem Due.step (h : x.Due m fd e) (hi : x.Inv true) (hok : x.keepsEvents a) (hs : x.step a = .ok x') :
    x'.Due m fd e ∨ x.cpu = .loop ∧ x'.cpu = .run m := by
  have hfd := h.unhandled
  have hclose : fd ∉ a.closes := fun hc => hok.2.1 fd hc hfd
  have hcancel : ∀ m ∈ a.cancels, 0 ≤ (x.sched.lt m).fdWait → fdOnly (x.sched.lt m).fdWait ≠ fd :=
    fun m hm h0 heq => hok.2.2 m hm h0 (heq ▸ hfd)
  rcases hi.waits_spared hok.1 hs hclose hcancel h.1 with hw | ⟨-, hcpu, hrun⟩
  swap
  · exact Or.inr ⟨hcpu, hrun⟩
  left
  by_cases hloop : a = .sched ∧ x.cpu = .loop
  · obtain ⟨rfl, hcpu⟩ := hloop
    exact h.loop hi hcpu hs hw
  rcases step_phase hs with hp | ⟨⟨-, last, hp⟩, -⟩ | rfl | ⟨evs, rfl⟩ | ⟨ha, hcpu, -⟩
  · refine ⟨hw, ?_⟩
    rw [hp]
    exact h.2
  · rw [hp] at hfd
    cases hfd
  · -- `lthread_run` has been called before
    cases step_cases hs with
    | run hp =>
      rw [hp] at hfd
      cases hfd
  · obtain ⟨hp, -⟩ := step_poll hs
    rw [hp] at hfd
    cases hfd
  · exact absurd ⟨ha, hcpu⟩ hloop

theorem Due.run {p : World × List LtId} (h : x.Due m fd e) (hi : x.Inv true)
    (hs : (worldMachine.observe [] noteResumed).Steps (fun q a => q.1.keepsEvents a) (x, []) p)
    (hquiet : p.1.phase.handling = false) : m ∈ p.2 := by
  have hkept : p.1.Inv true ∧ (m ∈ p.2 ∨ p.1.Due m fd e) := by
    refine Machine.Steps.preserves (P := fun q : World × List LtId => q.1.Inv true ∧ (m ∈ q.2 ∨ q.1.Due m fd e)) ?_ hs
      ⟨hi, Or.inr h⟩
    intro q a q' hq hok hst
    refine ⟨hq.1.step hok.1 hst.1, ?_⟩
    rw [hst.2]
    rcases hq.2 with hm | hd
    · exact Or.inl (mem_noteResumed hm)
    · rcases hd.step hq.1 hok hst.1 with hd' | ⟨hcpu, hrun⟩
      · exact Or.inr hd'
      · exact Or.inl (noteResumed_run hcpu hrun)
  rcases hkept.2 with hm | hd
  · exact hm
  · have hfd := hd.unhandled
    rw [Phase.unhandled_of_quiet hquiet] at hfd
    cases hfd

/-- At step 4 the loop goes on to `epoll_wait` only if nobody is ready and no sleeper is
overdue. -/
theorem poll_step (hn : x.sched.ready.Nodup) (hcpu : x.cpu = .loop) (hp : x.phase = .poll) :
    x.step .sched = .ok { x with phase :=
      if x.sched.lthreadMinTimeout ≠ 0 ∧ x.sched.ready = [] then .polling else .isdone } := by
  refine step_ok.mpr ⟨?_, hn⟩
  rw [advance_loop hcpu]
  unfold lthreadRun
  simp only [hp]
  split_ifs <;> rfl

end World
end Lthr

import Lthread.Proofs.Links

/-! All lthreads together. `Seated` is the invariant of the board, `Poised` the same
in the middle of `_lthread_resume`, with one lthread taken out of its structure and
not yet switched to. There is one rule for each kind of turn. -/

namespace Lthr

structure Seated (k : Bool) (σ : LtId → Seat) (cpu : Cpu) (n : ℕ) (ex : Bool) : Prop where
  seats : ∀ l, (σ l).Ok k l
  links : Links σ n
  running : ∀ l, (σ l).lt.ctx = .running ↔ cpu = .run l
  -- an lthread is pending until `_lthread_compute_add` has run for it
  pending : ∀ l, (σ l).lt.state .pendingRuncompute = true → cpu = .back l ∨ cpu = .leaving l
  leaving : ∀ l, cpu = .leaving l → (σ l).lt.state .pendingRuncompute = true
  -- the bit of an expiry does not outlive the resume it was set for
  expired : ∀ l, (σ l).lt.state .expired = true →
    (σ l).lt.ctx = .exited ∨ cpu.on = some l ∧ ex = true

structure Poised (k : Bool) (σ : LtId → Seat) (l : LtId) (n : ℕ) (ex : Bool) : Prop where
  seats : ∀ m ≠ l, (σ m).Ok k m
  leaves : (σ l).Leaves
  links : Links σ n
  running : ∀ m, (σ m).lt.ctx ≠ .running
  pending : ∀ m, (σ m).lt.state .pendingRuncompute = false
  expired : ∀ m ≠ l, (σ m).lt.state .expired = true → (σ m).lt.ctx = .exited
  expiring : (σ l).lt.state .expired = true → ex = true
  -- a join that does not return for its timeout returns for the end of the target
  target : ∀ m t, (σ l).lt.ctx = .joining m t →
    (σ l).lt.state .expired = true ∨ (σ m).Finished

@[simp] theorem Entry.act_ctx (e : Entry) (v : Seat) : (e.act v).lt.ctx = e.ctx := by
  cases e <;> rfl

theorem Entry.Valid.block_ne {σ : LtId → Seat} {l : LtId} {c d : Ctx} {i : CondId} {n u : ℕ}
    (hv : (Entry.block c i n u).Valid σ l) (hd : d.cond = none) : c ≠ d := by
  rintro rfl
  rw [hv.1] at hd
  cases hd

theorem Entry.Valid.not_joining {σ : LtId → Seat} {l m : LtId} {t : ℕ} {e : Entry} (hv : e.Valid σ l) :
    e.ctx ≠ .joining m t := by
  cases e with
  | block c i n u => exact hv.block_ne rfl
  | _ => exact nofun

namespace Seated

variable {k ex : Bool} {σ σ' : LtId → Seat} {cpu cpu' : Cpu} {n : ℕ} {l : LtId} {F : Seat → Seat}

theorem current (h : Seated k σ (.run l) n ex) :
    Seat.Ok.Runs (σ l) ∧ (σ l).lt.ctx = .running ∧ l < n ∧ ¬ (σ l).Finished := by
  have hx : (σ l).lt.ctx = .running := (h.running l).mpr rfl
  have hr := (h.seats l).runs hx
  refine ⟨hr, hx, ?_, ?_⟩
  · by_contra hn
    have := (h.links.fresh l (not_lt.mp hn)).1
    rw [hx] at this; cases this
  · rintro (hf | hf)
    · rw [hx] at hf; cases hf
    · rw [hr.bits _ rfl] at hf; cases hf

/-- One lthread moves within its call, and is not a joiner that gets ready. -/
theorem move (h : Seated k σ cpu n ex) (hm : ActsAt σ σ' l F) (hc : (σ l).KeepsCall (F (σ l)))
    (hok : (F (σ l)).Ok k l)
    (hcanc : n ≤ l → (F (σ l)).lt.state .cancelled = (σ l).lt.state .cancelled)
    (hr : (F (σ l)).lt.state .cancelled = false → (F (σ l)).cnt.ready ≠ 0 →
      (σ l).cnt.ready ≠ 0 ∨ ∀ m t, (σ l).lt.ctx ≠ .joining m t)
    (hp : (F (σ l)).lt.state .pendingRuncompute = (σ l).lt.state .pendingRuncompute)
    (he : (F (σ l)).lt.state .expired = true → (σ l).lt.state .expired = true) :
    Seated k σ' cpu n ex := by
  have hkeeps (m : LtId) : (σ m).KeepsCall (σ' m) := by
    by_cases hml : m = l
    · subst hml; rw [hm.self]; exact hc
    · rw [hm.other hml]; exact Seat.KeepsCall.refl _
  have hpm (m : LtId) : (σ' m).lt.state .pendingRuncompute = (σ m).lt.state .pendingRuncompute := by
    by_cases hml : m = l
    · subst hml; rw [hm.self]; exact hp
    · rw [hm.other hml]
  refine ⟨hm.all (fun m _ => h.seats m) hok, h.links.keepsCall hkeeps (fun m hn => ?_) fun m hcm hrm => ?_,
    fun m => ?_, fun m hx => ?_, fun m hx => ?_, fun m hx => ?_⟩
  · by_cases hml : m = l
    · subst hml; rw [hm.self]; exact hcanc hn
    · rw [hm.other hml]
  · by_cases hml : m = l
    · subst hml
      rw [hm.self] at hcm hrm
      exact (hr hcm hrm).imp id fun hno x t hx => absurd hx (hno x t)
    · rw [hm.other hml] at hrm; exact Or.inl hrm
  · rw [(hkeeps m).ctx]; exact h.running m
  · rw [hpm] at hx; exact h.pending m hx
  · rw [hpm]; exact h.leaving m hx
  · rw [(hkeeps m).ctx]
    by_cases hml : m = l
    · subst hml
      rw [hm.self] at hx
      exact h.expired m (he hx)
    · rw [hm.other hml] at hx; exact h.expired m hx

/-- Out of the trees, and elsewhere: the lthread is no joiner, and with no compute
thread. -/
theorem awake (h : Seated k σ cpu n ex) (hm : ActsAt σ σ' l F) {c : Counts}
    (hF : F (σ l) = ⟨Seat.woken (σ l).lt, c⟩) (hok : (F (σ l)).Ok k l)
    (hw : c.waiting ≠ 0 → (σ l).cnt.waiting ≠ 0) (hj : ∀ m t, (σ l).lt.ctx ≠ .joining m t) :
    Seated k σ' cpu n ex := by
  refine h.move hm ?_ hok (fun _ => ?_) (fun _ _ => Or.inr hj) ?_ fun hx => ?_
  · rw [hF]; exact Seat.KeepsCall.woken hw
  · rw [hF]; exact Seat.woken_state _ (by simp) rfl
  · rw [hF]; exact Seat.woken_state _ (by simp) rfl
  · rw [hF] at hx; exact Seat.woken_expired _ hx

/-- A change of the record that places nothing, other than to forget a joiner or to
free a finished lthread. -/
theorem same (h : Seated k σ cpu n ex) {f : Lt → Lt} (hm : ActsAt σ σ' l (Seat.onLt f))
    (hs : Lt.Same (σ l).lt (f (σ l).lt))
    (hj : ∀ j, (f (σ l).lt).ltJoin = some j → (f (σ l).lt).freed = false →
      (σ l).lt.ltJoin = some j ∧ (σ l).lt.freed = false)
    (hf : (f (σ l).lt).freed = true → (σ l).lt.freed = true ∨ (σ l).Finished)
    (he : (f (σ l).lt).state .expired = true → (σ l).lt.state .expired = true) :
    Seated k σ' cpu n ex :=
  h.move hm ⟨hs.ctx, fun hx => (hs.state _ rfl).trans hx, fun hx => ⟨hx, hs.fdWait⟩, hj, hf⟩
    ((h.seats l).same hs) (fun _ => hs.state _ rfl) (fun _ hr => Or.inl hr) (hs.state _ rfl) he

theorem note (h : Seated k σ cpu n ex) {f : Lt → Lt} (hf : ∀ lt, Lt.Alike lt (f lt))
    (hm : ActsAt σ σ' l (Seat.onLt f)) : Seated k σ' cpu n ex := by
  have ha := hf (σ l).lt
  exact h.same hm ha.toSame (fun j h1 h2 => ⟨ha.ltJoin ▸ h1, ha.freed ▸ h2⟩)
    (fun h1 => Or.inl (ha.freed ▸ h1)) ha.expired

theorem signal {i : CondId} (h : Seated k σ cpu n ex) (hb : (σ l).cnt.blocked i ≠ 0)
    (hm : ActsAt σ σ' l (Seat.addReady ∘ Seat.deschedSleep ∘ Seat.dropBlocked i)) :
    Seated k σ' cpu n ex := by
  obtain ⟨t, hx, -⟩ := (h.seats l).row.of_blocked hb
  have heq := Seat.deschedSleep_eq (v := Seat.dropBlocked i (σ l)) (h.seats l).sleeping
    (h.seats l).sleeping_le
  refine h.awake hm (congrArg Seat.addReady heq) (Seat.ok_signalled (h.seats l) hb) id fun m t' hx' => ?_
  rw [hx'] at hx; cases hx

theorem close (h : Seated k σ cpu n ex) (hw : (σ l).cnt.waiting ≠ 0)
    (hm : ActsAt σ σ' l (Seat.addReady ∘ Seat.deschedSleep ∘ Seat.dropWaiting)) :
    Seated k σ' cpu n ex := by
  obtain ⟨-, fd, e, t, hx, -⟩ := (h.seats l).row.of_waiting hw
  refine h.awake hm (congrArg Seat.addReady (Seat.deschedEvent_eq (h.seats l) hw))
    (Seat.ok_closed (h.seats l) hw) (fun h0 => absurd rfl h0) fun m t' hx' => ?_
  rw [hx] at hx'; cases hx'

theorem stray (h : Seated k σ cpu n ex) (hk : k = true) (hw : (σ l).cnt.waiting ≠ 0)
    (hm : ActsAt σ σ' l (Seat.deschedSleep ∘ Seat.dropWaiting)) : Seated k σ' cpu n ex := by
  obtain ⟨-, fd, e, t, hx, -⟩ := (h.seats l).row.of_waiting hw
  refine h.awake hm (Seat.deschedEvent_eq (h.seats l) hw) (Seat.ok_stray (h.seats l) hk hw)
    (fun h0 => absurd rfl h0) fun m t' hx' => ?_
  rw [hx] at hx'; cases hx'

theorem wakeup {t : ℕ} (h : Seated k σ cpu n ex) (hx : (σ l).lt.ctx = .slept t)
    (hs : (σ l).lt.state .sleeping = true)
    (hm : ActsAt σ σ' l (Seat.deschedSleep ∘ Seat.addReady)) : Seated k σ' cpu n ex := by
  obtain ⟨heq, hok⟩ := Seat.ok_awoken (h.seats l) hx hs
  exact h.awake hm heq hok (fun h0 => absurd rfl h0) (by simp [hx])

theorem cancel {d : ℕ} {w : Seat} (h : Seated k σ cpu n ex) (hk : k = true) (hl : l < n)
    (hrun : (σ l).lt.ctx ≠ .running) (hc : (σ l).Cancels d w)
    (hins : d ≠ 0 → (σ l).lt.state .pendingRuncompute = false ∧
      (∀ e, (σ l).lt.state (waitIoBit e) = false) ∧ (σ l).lt.state .runcompute = false ∧
        ((σ l).cnt.defer ≠ 0 → ∀ j, (σ l).lt.ctx ≠ .compute j))
    (hm : ActsAt σ σ' l fun _ => w) : Seated k σ' cpu n ex := by
  refine h.move hm ⟨hc.ctx, fun _ => hc.cancelled, fun hw => ?_, fun j h1 h2 => ?_, fun hf => Or.inl ?_⟩
    (Seat.ok_cancelled (h.seats l) hk hrun hc hins) (fun hn => absurd hl (not_lt.mpr hn)) (fun h0 => ?_)
    (hc.bits _ (by simp) (by simp) rfl (by intro e; cases e <;> simp [waitBit])) hc.expired
  · rw [hc.cnt] at hw
    exact absurd rfl hw
  · exact ⟨hc.ltJoin ▸ h1, hc.freed ▸ h2⟩
  · exact hc.freed ▸ hf
  · rw [hc.cancelled] at h0; cases h0

/-- The running lthread leaves the cpu. With a join its target, which is `σ₁`'s only
difference from `σ`, gets a pointer to it. -/
theorem suspend {σ₁ : LtId → Seat} (h : Seated k σ (.run l) n ex) (hm : ActsAt σ₁ σ' l F)
    (h₁ : ∀ m, (σ₁ m).cnt = (σ m).cnt ∧ (σ₁ m).lt.freed = (σ m).lt.freed ∧
      Lt.Same (σ m).lt (σ₁ m).lt ∧ (σ₁ m).lt.state .expired = (σ m).lt.state .expired)
    (hptr : ∀ m j, (σ₁ m).lt.ltJoin = some j → (σ m).lt.ltJoin = some j ∨
      j = l ∧ m < n ∧ ∃ t, (F (σ₁ l)).lt.ctx = .joining m t)
    (hcpu : cpu'.on = some l ∧ cpu' ≠ .run l)
    (hok : (F (σ₁ l)).Ok k l) (hctx : (F (σ₁ l)).lt.ctx ≠ .running)
    (hp : (F (σ₁ l)).lt.state .pendingRuncompute = true ↔ cpu' = .leaving l)
    (he : (F (σ₁ l)).lt.state .expired = (σ₁ l).lt.state .expired)
    (hj : (F (σ₁ l)).lt.ltJoin = (σ₁ l).lt.ltJoin) (hf : (F (σ₁ l)).lt.freed = (σ₁ l).lt.freed)
    (hjoin : ∀ m t, (F (σ₁ l)).lt.ctx = .joining m t → m < n ∧ (F (σ₁ l)).cnt.ready = 0)
    (hkey : (F (σ₁ l)).cnt.waiting ≠ 0 → ∀ b, (σ b).cnt.waiting ≠ 0 →
      (F (σ₁ l)).lt.fdWait ≠ (σ b).lt.fdWait) : Seated k σ' cpu' n ex := by
  obtain ⟨hruns, hrun, hl, hnofin⟩ := h.current
  have hother (m : LtId) (hml : m ≠ l) : σ' m = σ₁ m := hm.other hml
  have hseat (m : LtId) : (σ₁ m).Ok k m := by
    have := (h.seats m).same (h₁ m).2.2.1
    rwa [← (h₁ m).1] at this
  have hmx (m : LtId) : (σ' m).lt.ltJoin = (σ₁ m).lt.ltJoin ∧ (σ' m).lt.freed = (σ m).lt.freed := by
    by_cases hml : m = l
    · subst hml; rw [hm.self, hj, hf]; exact ⟨rfl, (h₁ m).2.1⟩
    · rw [hother m hml]; exact ⟨rfl, (h₁ m).2.1⟩
  refine ⟨hm.all (fun m _ => hseat m) hok, ?_, fun m => ?_, fun m hx => ?_, fun m hx => ?_, fun m hx => ?_⟩
  · refine h.links.turn hl hnofin (fun m hml => ?_) (fun m hfm => Or.inl ((hmx m).2 ▸ hfm))
      (fun m j hmj hfm => ?_) (fun m t hx => ?_) fun hw b _ hb => ?_
    · rw [hother m hml]
      exact ⟨(h₁ m).2.2.1.ctx, fun b hb => (h₁ m).2.2.1.state b hb, (h₁ m).1, (h₁ m).2.2.1.fdWait⟩
    · rw [(hmx m).1] at hmj
      rw [(hmx m).2] at hfm
      rcases hptr m j hmj with hold | ⟨rfl, -, t, ht⟩
      · obtain ⟨⟨t, ht⟩, -⟩ := h.links.join m j hold hfm
        refine Or.inl ⟨?_, hold, hfm⟩
        rintro rfl
        rw [hrun] at ht; cases ht
      · exact Or.inr ⟨rfl, t, by rw [hm.self]; exact ht⟩
    · rw [hm.self] at hx ⊢; exact hjoin m t hx
    · rw [hm.self] at hw ⊢; exact hkey hw b hb
  · constructor
    · intro hx
      by_cases hml : m = l
      · subst hml; rw [hm.self] at hx; exact absurd hx hctx
      · rw [hother m hml, (h₁ m).2.2.1.ctx, h.running] at hx
        exact absurd (Cpu.run.inj hx).symm hml
    · rintro rfl
      exact absurd (Option.some_inj.mp hcpu.1) fun hml => hcpu.2 (by rw [hml])
  · by_cases hml : m = l
    · subst hml; rw [hm.self] at hx; exact Or.inr (hp.mp hx)
    · rw [hother m hml, (h₁ m).2.2.1.state _ rfl] at hx
      rcases h.pending m hx with h0 | h0 <;> cases h0
  · subst hx
    obtain rfl : m = l := Option.some_inj.mp hcpu.1
    rw [hm.self]; exact hp.mpr rfl
  · by_cases hml : m = l
    · subst hml
      rw [hm.self, he, (h₁ m).2.2.2] at hx
      rcases h.expired m hx with h0 | h0
      · rw [hrun] at h0; cases h0
      · exact Or.inr ⟨hcpu.1, h0.2⟩
    · rw [hother m hml] at hx ⊢
      rw [(h₁ m).2.2.2] at hx
      rw [(h₁ m).2.2.1.ctx]
      rcases h.expired m hx with h0 | h0
      · exact Or.inl h0
      · exact absurd (Option.some_inj.mp h0.1).symm hml

theorem enter (e : Entry) (h : Seated k σ (.run l) n ex) (hv : e.Valid σ l) (hm : ActsAt σ σ' l e.act) :
    Seated k σ' (e.cpu l) n ex := by
  obtain ⟨hr, -⟩ := h.current
  have hp := hr.bits .pendingRuncompute rfl
  refine h.suspend hm (fun _ => ⟨rfl, rfl, ⟨fun _ _ => rfl, rfl, rfl, rfl⟩, rfl⟩) (fun _ _ => Or.inl)
    ?_ (Seat.ok_enter hr e hv) ?_ ?_ ?_ ?_ ?_ (fun m t hx => absurd ((Entry.act_ctx e _).symm.trans hx) hv.not_joining) fun hw b hb => ?_
  · cases e <;> simp [Entry.cpu, Cpu.on]
  · cases e with
    | block c i t u => exact hv.block_ne rfl
    | _ => simp [Entry.act]
  · cases e with
    | event fd e t u => cases e <;> simp [Entry.act, Entry.cpu, Seat.schedSleep_state, waitBit, Lt.setBit, Seat.addWaiting, hp]
    | io e w => cases e <;> simp [Entry.act, Entry.cpu, waitIoBit, Lt.setBit, hp]
    | _ => simp [Entry.act, Entry.cpu, Seat.schedSleep_state, Lt.setBit, hp]
  · cases e with
    | event fd e t u => cases e <;> simp [Entry.act, Seat.schedSleep_state, waitBit, Lt.setBit, Seat.addWaiting]
    | io e w => cases e <;> simp [Entry.act, waitIoBit, Lt.setBit]
    | _ => simp [Entry.act, Seat.schedSleep_state, Lt.setBit]
  · cases e <;> simp [Entry.act, Lt.setBit, Seat.addWaiting]
  · cases e <;> simp [Entry.act, Lt.setBit, Seat.addWaiting]
  · cases e with
    | event fd e t u => simpa [Entry.act, Seat.addWaiting] using (hv b hb).symm
    | _ => simp [Entry.act, hr.cnt] at hw

theorem join {σ₁ : LtId → Seat} {target : LtId} {ptr : Option ℕ} {t u : ℕ} (h : Seated k σ (.run l) n ex)
    (hlt : target < n) (h1 : ActsAt σ σ₁ target (Seat.onLt ({ · with ltJoin := some l })))
    (hm : ActsAt σ₁ σ' l (joinAct target ptr t u)) : Seated k σ' (.back l) n ex := by
  obtain ⟨hr, hrun, -⟩ := h.current
  have h₁ (m : LtId) : (σ₁ m).cnt = (σ m).cnt ∧ (σ₁ m).lt.freed = (σ m).lt.freed ∧
      Lt.Same (σ m).lt (σ₁ m).lt ∧ (σ₁ m).lt.state .expired = (σ m).lt.state .expired := by
    by_cases hmt : m = target
    · subst hmt; rw [h1.self]; exact ⟨rfl, rfl, ⟨fun _ _ => rfl, rfl, rfl, rfl⟩, rfl⟩
    · rw [h1.other hmt]; exact ⟨rfl, rfl, ⟨fun _ _ => rfl, rfl, rfl, rfl⟩, rfl⟩
  have hr₁ : Seat.Ok.Runs (σ₁ l) := by
    refine ⟨(h₁ l).1.trans hr.cnt, (h₁ l).2.2.1.fdWait.trans hr.fdWait, fun b hb => ?_⟩
    rw [(h₁ l).2.2.1.state b hb]; exact hr.bits b hb
  refine h.suspend hm h₁ (fun m j hmj => ?_) ⟨rfl, by simp⟩ (Seat.ok_joining hr₁ target ptr t u)
    (by simp [joinAct]) ?_ ?_ ?_ ?_ (fun m t' hx => ?_) ?_
  · by_cases hmt : m = target
    · subst hmt
      rw [h1.self] at hmj
      exact Or.inr ⟨(Option.some_inj.mp hmj).symm, hlt, t, rfl⟩
    · rw [h1.other hmt] at hmj; exact Or.inl hmj
  · simp [joinAct, Seat.schedSleep_state, Lt.setBit, hr₁.bits .pendingRuncompute rfl]
  · simp [joinAct, Seat.schedSleep_state, Lt.setBit]
  · simp [joinAct, Lt.setBit]
  · simp [joinAct, Lt.setBit]
  · obtain ⟨rfl, -⟩ := Ctx.joining.inj hx
    exact ⟨hlt, by simp [joinAct, hr₁.cnt]⟩
  · simp [joinAct, hr₁.cnt]

theorem wakeJoiner {σ₁ : LtId → Seat} {j : LtId} (h : Seated k σ cpu n ex) (hl : (σ l).Finished)
    (hj : (σ l).lt.ltJoin = some j) (hf : (σ l).lt.freed = false)
    (hm₁ : ActsAt σ σ₁ j (Seat.addReady ∘ Seat.deschedSleep))
    (hm : ActsAt σ₁ σ' l (Seat.onLt ({ · with ltJoin := none }))) : Seated k σ' cpu n ex := by
  obtain ⟨⟨t, ht⟩, hcj⟩ := h.links.join l j hj hf
  have heq : σ₁ j = ⟨Seat.woken (σ j).lt,
      { (σ j).cnt with sleeping := 0, ready := (σ j).cnt.ready + 1 }⟩ := by
    rw [hm₁.self, Function.comp_apply, Seat.deschedSleep_eq (h.seats j).sleeping
      (h.seats j).sleeping_le]
    rfl
  have hok₁ : ∀ m, (σ₁ m).Ok k m :=
    hm₁.all (fun m _ => h.seats m) (Seat.ok_joined (h.seats j) ht hcj)
  have hkeeps₁ (m : LtId) : (σ m).KeepsCall (σ₁ m) ∧
      (σ₁ m).lt.state .cancelled = (σ m).lt.state .cancelled ∧
      (σ₁ m).lt.state .pendingRuncompute = (σ m).lt.state .pendingRuncompute ∧
      ((σ₁ m).lt.state .expired = true → (σ m).lt.state .expired = true) := by
    by_cases hmj : m = j
    · subst hmj
      rw [heq]
      have hb {b : LtSt} (hb : b ≠ .sleeping) (hf : b.free = false) := Seat.woken_state (σ m).lt hb hf
      exact ⟨Seat.KeepsCall.woken id, hb (by simp) rfl, hb (by simp) rfl, Seat.woken_expired _⟩
    · rw [hm₁.other hmj]; exact ⟨Seat.KeepsCall.refl _, rfl, rfl, id⟩
  -- the pointer of `l` is all that the second move changes
  have h₂ (m : LtId) : (σ' m).cnt = (σ₁ m).cnt ∧ (σ' m).lt.ctx = (σ₁ m).lt.ctx ∧
      (σ' m).lt.freed = (σ₁ m).lt.freed ∧ (σ' m).lt.fdWait = (σ₁ m).lt.fdWait ∧
      (∀ b, (σ' m).lt.state b = (σ₁ m).lt.state b) ∧
      (m ≠ l → (σ' m).lt.ltJoin = (σ₁ m).lt.ltJoin) := by
    by_cases hml : m = l
    · subst hml; rw [hm.self]; exact ⟨rfl, rfl, rfl, rfl, fun _ => rfl, fun hx => absurd rfl hx⟩
    · rw [hm.other hml]; exact ⟨rfl, rfl, rfl, rfl, fun _ => rfl, fun _ => rfl⟩
  have hnone : (σ' l).lt.ltJoin = none := by rw [hm.self]; rfl
  have hold (m j' : LtId) (hmj : (σ' m).lt.ltJoin = some j') (hfm : (σ' m).lt.freed = false) :
      m ≠ l ∧ (σ m).lt.ltJoin = some j' ∧ (σ m).lt.freed = false := by
    have hml : m ≠ l := by
      rintro rfl
      rw [hnone] at hmj; cases hmj
    exact ⟨hml, (hkeeps₁ m).1.join j' ((h₂ m).2.2.2.2.2 hml ▸ hmj) ((h₂ m).2.2.1 ▸ hfm)⟩
  have hkeeps (m : LtId) : (σ m).KeepsCall (σ' m) := by
    obtain ⟨hcnt, hx, hfr, hfd, hst, -⟩ := h₂ m
    refine ⟨hx.trans (hkeeps₁ m).1.ctx, fun hc => ?_, fun hw => ?_, fun j' h1 h2 => (hold m j' h1 h2).2,
      fun hff => (hkeeps₁ m).1.freed (hfr ▸ hff)⟩
    · rw [hst]; exact (hkeeps₁ m).1.cancelled hc
    · rw [hcnt] at hw
      rw [hfd]; exact (hkeeps₁ m).1.key hw
  refine ⟨?_, h.links.keepsCall hkeeps (fun m _ => ?_) fun m _ hr => ?_, fun m => ?_, fun m hx => ?_,
    fun m hx => ?_, fun m hx => ?_⟩
  · exact hm.all (fun m _ => hok₁ m) ((hok₁ l).same ⟨fun _ _ => rfl, rfl, rfl, rfl⟩)
  · rw [(h₂ m).2.2.2.2.1]; exact (hkeeps₁ m).2.1
  · by_cases hmj : m = j
    · subst hmj
      refine Or.inr fun x t' hx => ?_
      rw [ht] at hx
      obtain ⟨rfl, -⟩ := Ctx.joining.inj hx
      refine ⟨hl, fun y hy => by_contra fun hfy => ?_⟩
      obtain ⟨hyl, hy', hfy'⟩ := hold y m hy (by simpa using hfy)
      obtain ⟨⟨t'', ht''⟩, -⟩ := h.links.join y m hy' hfy'
      rw [ht] at ht''
      exact hyl (Ctx.joining.inj ht'').1.symm
    · rw [(h₂ m).1, hm₁.other hmj] at hr; exact Or.inl hr
  · rw [(hkeeps m).ctx]; exact h.running m
  · rw [(h₂ m).2.2.2.2.1, (hkeeps₁ m).2.2.1] at hx; exact h.pending m hx
  · rw [(h₂ m).2.2.2.2.1, (hkeeps₁ m).2.2.1]; exact h.leaving m hx
  · rw [(h₂ m).2.2.2.2.1] at hx
    rw [(hkeeps m).ctx]
    exact h.expired m ((hkeeps₁ m).2.2.2 hx)

theorem create (h : Seated k σ cpu n ex) (hm : ActsAt σ σ' n fun v =>
    { lt := Sched.newLt, cnt := { v.cnt with ready := v.cnt.ready + 1 } }) :
    Seated k σ' cpu (n + 1) ex := by
  obtain ⟨hx, hc⟩ := h.links.fresh n le_rfl
  have hcnt : (σ n).cnt = {} := by
    have := (h.seats n).row
    rw [hx, hc] at this
    exact this.of_exited
  have hself : σ' n = ⟨Sched.newLt, { ready := 1 }⟩ := by rw [hm.self, hcnt]
  refine ⟨fun m => ?_, h.links.create hself fun m => hm.other, fun m => ?_, fun m hp => ?_, fun m hp => ?_,
    fun m hp => ?_⟩
  · by_cases hmn : m = n
    · subst hmn
      rw [hself]
      refine ⟨Row.start, ?_, ?_, ?_, Or.inl rfl, ?_, fun e he => ?_, fun e => ?_, ?_, ?_, ?_, ?_, ?_⟩
      case refine_6 | refine_5 => cases e <;> simp [Sched.newLt, waitBit, waitIoBit] at *
      all_goals simp [Sched.newLt, Ctx.cond]
    · rw [hm.other hmn]; exact h.seats m
  · by_cases hmn : m = n
    · subst hmn
      rw [hself, ← h.running, hx]
      simp [Sched.newLt]
    · rw [hm.other hmn]; exact h.running m
  · by_cases hmn : m = n
    · subst hmn
      rw [hself] at hp
      simp [Sched.newLt] at hp
    · rw [hm.other hmn] at hp; exact h.pending m hp
  · have hmn : m ≠ n := by
      rintro rfl
      obtain ⟨j, hj, -⟩ := (h.seats m).pending.mp (h.leaving m hp)
      rw [hx] at hj; cases hj
    rw [hm.other hmn]; exact h.leaving m hp
  · by_cases hmn : m = n
    · subst hmn
      rw [hself] at hp
      simp [Sched.newLt] at hp
    · rw [hm.other hmn] at hp ⊢; exact h.expired m hp

theorem computeAdd (h : Seated k σ (.back l) n ex) (hp : (σ l).lt.state .pendingRuncompute = true)
    (hm : ActsAt σ σ' l fun v =>
      { lt := (v.lt.clearBit .pendingRuncompute).setBit .runcompute
        cnt := { v.cnt with busy := v.cnt.busy + 1 } }) : Seated k σ' (.computeAdd l) n ex := by
  have hb (b : LtSt) (h1 : b ≠ .runcompute) (h2 : b ≠ .pendingRuncompute) :
      ((((σ l).lt.clearBit .pendingRuncompute).setBit .runcompute).state b) = (σ l).lt.state b := by
    simp [Lt.clearBit, Lt.setBit, h1, h2]
  obtain ⟨j, hx, hn⟩ := (h.seats l).pending.mp hp
  have hkeeps (m : LtId) : (σ m).KeepsCall (σ' m) ∧
      (σ' m).lt.state .cancelled = (σ m).lt.state .cancelled ∧
      (σ' m).lt.state .expired = (σ m).lt.state .expired ∧ (σ' m).cnt.ready = (σ m).cnt.ready := by
    by_cases hml : m = l
    · subst hml
      rw [hm.self]
      refine ⟨⟨rfl, fun h0 => ?_, fun h0 => ⟨h0, rfl⟩, fun _ h1 h2 => ⟨h1, h2⟩, Or.inl⟩, hb _ (by simp) (by simp),
        hb _ (by simp) (by simp), rfl⟩
      rwa [hb _ (by simp) (by simp)]
    · rw [hm.other hml]; exact ⟨Seat.KeepsCall.refl _, rfl, rfl, rfl⟩
  refine ⟨hm.all (fun m _ => h.seats m) (Seat.ok_computing (h.seats l) hp),
    h.links.keepsCall (fun m => (hkeeps m).1) (fun m _ => (hkeeps m).2.1)
      fun m _ hr => Or.inl ((hkeeps m).2.2.2 ▸ hr), fun m => ?_, fun m hpm => ?_, (fun m h0 => by cases h0),
    fun m he => ?_⟩
  · rw [(hkeeps m).1.ctx, h.running]; simp
  · by_cases hml : m = l
    · subst hml
      rw [hm.self] at hpm
      simp [Lt.setBit, Lt.clearBit] at hpm
    · rw [hm.other hml] at hpm
      rcases h.pending m hpm with h0 | h0
      · exact absurd (Cpu.back.inj h0).symm hml
      · cases h0
  · rw [(hkeeps m).2.2.1] at he
    rw [(hkeeps m).1.ctx]
    exact h.expired m he

theorem switch (h : Seated k σ cpu n ex) (hcpu : cpu = .leaving l ∨ ∃ w, cpu = .ioAdd l w) :
    Seated k σ (.back l) n ex := by
  have hon : cpu.on = some l := by rcases hcpu with rfl | ⟨w, rfl⟩ <;> rfl
  have hrun (m : LtId) : (σ m).lt.ctx ≠ .running := by
    rw [ne_eq, h.running]
    rcases hcpu with rfl | ⟨w, rfl⟩ <;> simp
  refine ⟨h.seats, h.links, fun m => ?_, fun m hp => Or.inl ?_, (fun m h0 => by cases h0), fun m he => ?_⟩
  · simp [hrun m]
  · rcases h.pending m hp with h0 | h0 <;> rcases hcpu with rfl | ⟨w, rfl⟩ <;> cases h0
    rfl
  · exact (h.expired m he).imp id fun h0 => ⟨hon.symm.trans h0.1, h0.2⟩

theorem back (h : Seated k σ cpu n ex) (hcpu : cpu = .computeAdd l ∨
      cpu = .back l ∧ (σ l).lt.state .pendingRuncompute = false)
    (he : (σ l).lt.state .expired = false ∨ (σ l).lt.ctx = .exited) : Seated k σ .loop n ex := by
  have hon : cpu.on = some l := by rcases hcpu with rfl | ⟨rfl, -⟩ <;> rfl
  refine ⟨h.seats, h.links, fun m => ?_, fun m hp => ?_, (fun m h0 => by cases h0), fun m hm => Or.inl ?_⟩
  · rw [h.running]
    rcases hcpu with rfl | ⟨rfl, -⟩ <;> simp
  · rcases h.pending m hp with h0 | h0 <;> rcases hcpu with rfl | ⟨rfl, hl⟩ <;> cases h0
    rw [hl] at hp; cases hp
  · rcases h.expired m hm with h0 | h0
    · exact h0
    · obtain rfl : l = m := Option.some_inj.mp (hon.symm.trans h0.1)
      rcases he with he | he
      · rw [he] at hm; cases hm
      · exact he

/-- A worker, or the loop that drops a cancelled lthread, changes counts and at most
the bit `LT_ST_RUNCOMPUTE`. -/
theorem recount (h : Seated k σ cpu n ex) (hm : ActsAt σ σ' l F) (hok : (F (σ l)).Ok k l)
    (hb : ∀ b, b ≠ .runcompute → (F (σ l)).lt.state b = (σ l).lt.state b)
    (hlt : (F (σ l)).lt.ctx = (σ l).lt.ctx ∧ (F (σ l)).lt.fdWait = (σ l).lt.fdWait ∧
      (F (σ l)).lt.ltJoin = (σ l).lt.ltJoin ∧ (F (σ l)).lt.freed = (σ l).lt.freed)
    (hw : (F (σ l)).cnt.waiting = (σ l).cnt.waiting)
    (hr : (F (σ l)).cnt.ready ≠ 0 → (σ l).cnt.ready ≠ 0) : Seated k σ' cpu n ex := by
  obtain ⟨hx, hfd, hj, hf⟩ := hlt
  refine h.move hm ⟨hx, fun hc => ?_, fun h0 => ⟨hw ▸ h0, hfd⟩, fun j h1 h2 => ⟨hj ▸ h1, hf ▸ h2⟩,
    fun h1 => Or.inl (hf ▸ h1)⟩ hok (fun _ => hb _ (by simp)) (fun _ h0 => Or.inl (hr h0)) (hb _ (by simp))
    fun he => ?_
  · rwa [hb _ (by simp)]
  · rwa [hb _ (by simp)] at he

/-- The scheduler takes an lthread from where it found it, to switch to it. -/
theorem poise (h : Seated k σ .loop n ex) (hm : ActsAt σ σ' l F) (hleaves : (F (σ l)).Leaves)
    (hx : (F (σ l)).lt.ctx = (σ l).lt.ctx) (hkeeps : (σ l).Keeps (F (σ l)))
    (hcanc : (σ l).lt.state .cancelled = false) (hexp : (F (σ l)).lt.state .expired = true → ex = true)
    (htarget : ∀ m t, (σ l).lt.ctx = .joining m t →
      (F (σ l)).lt.state .expired = true ∨ (σ l).cnt.ready ≠ 0) : Poised k σ' l n ex := by
  have hcnt : (F (σ l)).cnt.ready = 0 ∧ (F (σ l)).cnt.waiting = 0 := by
    rcases hleaves.cnt with ⟨hn, -⟩ | ⟨hn, -⟩ | ⟨-, i, t, -, hn⟩ <;> simp [hn]
  have hkeeps (m : LtId) : (σ m).KeepsCall (σ' m) := by
    by_cases hml : m = l
    · subst hml
      rw [hm.self]
      refine ⟨hx, fun hc => ?_, fun hw => absurd hcnt.2 hw,
        fun j h1 h2 => ⟨hkeeps.ltJoin ▸ h1, hkeeps.freed ▸ h2⟩, fun h1 => Or.inl (hkeeps.freed ▸ h1)⟩
      rw [hcanc] at hc; cases hc
    · rw [hm.other hml]; exact Seat.KeepsCall.refl _
  refine ⟨fun m hml => ?_, ?_, h.links.keepsCall hkeeps (fun m _ => ?_) fun m _ hr => ?_, fun m => ?_, fun m => ?_,
    fun m hml he => ?_, ?_, fun m t hjm => ?_⟩
  · rw [hm.other hml]; exact h.seats m
  · rw [hm.self]; exact hleaves
  · by_cases hml : m = l
    · subst hml; rw [hm.self, hleaves.cancelled, hcanc]
    · rw [hm.other hml]
  · have hml : m ≠ l := by
      rintro rfl
      rw [hm.self] at hr
      exact hr hcnt.1
    rw [hm.other hml] at hr; exact Or.inl hr
  · rw [(hkeeps m).ctx]
    exact fun hrun => by cases (h.running m).mp hrun
  · by_cases hml : m = l
    · subst hml; rw [hm.self]; exact hleaves.pending
    · rw [hm.other hml, Bool.eq_false_iff]
      intro hp
      rcases h.pending m hp with h0 | h0 <;> cases h0
  · rw [hm.other hml] at he ⊢
    rcases h.expired m he with h0 | ⟨h0, -⟩
    · exact h0
    · cases h0
  · rw [hm.self]; exact hexp
  · rw [(hkeeps l).ctx] at hjm
    rw [hm.self]
    exact (htarget m t hjm).imp id fun hr =>
      (hkeeps m).finished ((h.links.joined l m t hjm).2 hcanc hr)

/-- The bit of an expiry is set only in lthreads that have finished, while the loop runs. -/
theorem not_expired (h : Seated k σ .loop n ex) (hx : (σ l).lt.ctx ≠ .exited) :
    (σ l).lt.state .expired = false := by
  rw [Bool.eq_false_iff]
  intro he
  rcases h.expired l he with h0 | ⟨h0, -⟩
  · exact hx h0
  · cases h0

theorem phase {ex' : Bool} (h : Seated k σ .loop n ex) : Seated k σ .loop n ex' := by
  refine ⟨h.seats, h.links, h.running, h.pending, h.leaving, fun m he => Or.inl ?_⟩
  rcases h.expired m he with h0 | ⟨h0, -⟩
  · exact h0
  · cases h0

end Seated

namespace Poised

variable {k ex : Bool} {σ σ' : LtId → Seat} {n : ℕ} {l target : LtId}

/-- `lthread_join` ends: the pointer to the joiner goes, or the target is freed. -/
theorem forget (h : Poised k σ l n ex) {f : Lt → Lt} (hm : ActsAt σ σ' target (Seat.onLt f))
    (hs : ∀ lt, (f lt).state = lt.state ∧ Lt.Same lt (f lt))
    (hf : (f (σ target).lt).ltJoin = none ∧ (f (σ target).lt).freed = (σ target).lt.freed ∨
      (f (σ target).lt).freed = true ∧ (σ target).Finished) : Poised k σ' l n ex := by
  have hsame (m : LtId) : (σ' m).cnt = (σ m).cnt ∧ (σ' m).lt.state = (σ m).lt.state ∧
      Lt.Same (σ m).lt (σ' m).lt := by
    by_cases hmt : m = target
    · subst hmt; rw [hm.self]; exact ⟨rfl, (hs _).1, (hs _).2⟩
    · rw [hm.other hmt]; exact ⟨rfl, rfl, fun _ _ => rfl, rfl, rfl, rfl⟩
  have hkeeps (m : LtId) : (σ m).KeepsCall (σ' m) := by
    obtain ⟨hcnt, hst, hsm⟩ := hsame m
    refine ⟨hsm.ctx, fun hc => by rw [hst]; exact hc, fun hw => ⟨hcnt ▸ hw, hsm.fdWait⟩, fun j h1 h2 => ?_,
      fun h1 => ?_⟩
    · by_cases hmt : m = target
      · subst hmt
        rw [hm.self, Seat.onLt_lt] at h1 h2
        rcases hf with ⟨hf, -⟩ | ⟨hf, -⟩
        · rw [hf] at h1; cases h1
        · rw [hf] at h2; cases h2
      · rw [hm.other hmt] at h1 h2; exact ⟨h1, h2⟩
    · by_cases hmt : m = target
      · subst hmt
        rw [hm.self, Seat.onLt_lt] at h1
        rcases hf with ⟨-, hf⟩ | ⟨-, hf⟩
        · exact Or.inl (hf ▸ h1)
        · exact Or.inr hf
      · rw [hm.other hmt] at h1; exact Or.inl h1
  refine ⟨fun m hml => ?_, ?_, h.links.keepsCall hkeeps (fun m _ => by rw [(hsame m).2.1]) fun m _ hr => ?_,
    fun m => ?_, fun m => ?_, fun m hml he => ?_, fun he => ?_, fun m t hjm => ?_⟩
  · have := (h.seats m hml).same (hsame m).2.2
    rwa [← (hsame m).1] at this
  · obtain ⟨hcnt, hst, hsm⟩ := hsame l
    have hl := h.leaves.same hsm (by rw [hst])
    rwa [← hcnt] at hl
  · rw [(hsame m).1] at hr; exact Or.inl hr
  · rw [(hkeeps m).ctx]; exact h.running m
  · rw [(hsame m).2.1]; exact h.pending m
  · rw [(hsame m).2.1] at he
    rw [(hkeeps m).ctx]
    exact h.expired m hml he
  · rw [(hsame l).2.1] at he; exact h.expiring he
  · rw [(hkeeps l).ctx] at hjm
    rw [(hsame l).2.1]
    exact (h.target m t hjm).imp id (hkeeps m).finished

/-- The switch: the rest of the call has run, and nobody has `l` for a joiner. -/
theorem switch (h : Poised k σ l n ex) (hm : ActsAt σ σ' l Seat.switched)
    (hno : ∀ m, (σ m).lt.ltJoin = some l → (σ m).lt.freed = true) : Seated k σ' (.run l) n ex := by
  have hruns : Seat.Ok.Runs (σ' l) := by rw [hm.self]; exact h.leaves.switched
  have hctx : (σ' l).lt.ctx = .running := by rw [hm.self]; rfl
  have hcore : (σ l).Keeps (σ' l) := by rw [hm.self]; exact Seat.switched_keeps (σ l)
  have hl : l < n := by
    by_contra hn
    exact h.leaves.suspended.2 (h.links.fresh l (not_lt.mp hn)).1
  have hnofin : ¬ (σ l).Finished := by
    rintro (hx | hx)
    · exact h.leaves.suspended.2 hx
    · rw [h.leaves.cancelled] at hx; cases hx
  have hptr (m : LtId) : (σ' m).lt.ltJoin = (σ m).lt.ltJoin ∧ (σ' m).lt.freed = (σ m).lt.freed := by
    by_cases hml : m = l
    · subst hml; exact ⟨hcore.ltJoin, hcore.freed⟩
    · rw [hm.other hml]; exact ⟨rfl, rfl⟩
  refine ⟨fun m => ?_, ?_, fun m => ?_, fun m hp => ?_, (fun m h0 => by cases h0), fun m he => ?_⟩
  · by_cases hml : m = l
    · subst hml; exact Seat.Ok.of_runs hruns hctx
    · rw [hm.other hml]; exact h.seats m hml
  · refine h.links.turn hl hnofin (fun m hml => ?_) (fun m hf => Or.inl ((hptr m).2 ▸ hf))
      (fun m j hmj hfm => ?_) (fun m t hx => ?_) fun hw => ?_
    · rw [hm.other hml]; exact ⟨rfl, fun _ _ => rfl, rfl, rfl⟩
    · rw [(hptr m).1] at hmj
      rw [(hptr m).2] at hfm
      refine Or.inl ⟨?_, hmj, hfm⟩
      rintro rfl
      rw [hno m hmj] at hfm; cases hfm
    · rw [hctx] at hx; cases hx
    · rw [hruns.cnt] at hw; exact absurd rfl hw
  · by_cases hml : m = l
    · subst hml; simp [hctx]
    · rw [hm.other hml]
      simp only [h.running m, false_iff, Cpu.run.injEq]
      exact fun he => hml he.symm
  · by_cases hml : m = l
    · subst hml; rw [hruns.bits _ rfl] at hp; cases hp
    · rw [hm.other hml, h.pending m] at hp; cases hp
  · by_cases hml : m = l
    · subst hml
      rw [hm.self] at he
      exact Or.inr ⟨rfl, h.expiring (Seat.switched_expired he)⟩
    · rw [hm.other hml] at he ⊢
      exact Or.inl (h.expired m hml he)

theorem resume {σ₂ : LtId → Seat} (h : Poised k σ l n ex) (h2 : JoinEnds σ σ₂ l)
    (hm : ActsAt σ₂ σ' l Seat.switched) : Seated k σ' (.run l) n ex := by
  unfold JoinEnds at h2
  by_cases hj : ∃ target t, (σ l).lt.ctx = .joining target t
  · obtain ⟨target, t, hx⟩ := hj
    simp only [hx] at h2
    obtain ⟨-, h2⟩ := h2
    obtain ⟨f, hf, hs, hd⟩ : ∃ f, ActsAt σ σ₂ target (Seat.onLt f) ∧
        (∀ lt : Lt, (f lt).state = lt.state ∧ Lt.Same lt (f lt)) ∧
        ((f (σ target).lt).ltJoin = none ∧ (f (σ target).lt).freed = (σ target).lt.freed ∨
          (f (σ target).lt).freed = true ∧ (σ target).Finished) := by
      split_ifs at h2 with he
      · exact ⟨_, h2, fun lt => ⟨rfl, fun _ _ => rfl, rfl, rfl, rfl⟩, Or.inl ⟨rfl, rfl⟩⟩
      · exact ⟨_, h2, fun lt => ⟨rfl, fun _ _ => rfl, rfl, rfl, rfl⟩,
          Or.inr ⟨rfl, (h.target target t hx).resolve_left he⟩⟩
    have hp := h.forget hf hs hd
    have hx₂ : (σ₂ l).lt.ctx = .joining target t := by
      by_cases htl : l = target
      · subst htl
        rw [hf.self]
        exact (hs _).2.ctx.trans hx
      · rw [hf.other htl]; exact hx
    refine hp.switch hm fun m hmj => by_contra fun hfm => ?_
    obtain ⟨⟨t', ht'⟩, -⟩ := hp.links.join m l hmj (Bool.eq_false_iff.mpr hfm)
    obtain rfl : target = m := (Ctx.joining.inj (hx₂.symm.trans ht')).1
    rw [hf.self] at hmj hfm
    rcases hd with ⟨hd, -⟩ | ⟨hd, -⟩
    · rw [Seat.onLt_lt, hd] at hmj; cases hmj
    · exact hfm hd
  · have hσ : σ₂ = σ := by
      split at h2
      · next target t hx => exact absurd ⟨target, t, hx⟩ hj
      · exact h2
    rw [hσ] at hm
    refine h.switch hm fun m hmj => by_contra fun hfm => ?_
    obtain ⟨⟨t, ht⟩, -⟩ := h.links.join m l hmj (Bool.eq_false_iff.mpr hfm)
    exact hj ⟨m, t, ht⟩

end Poised
end Lthr

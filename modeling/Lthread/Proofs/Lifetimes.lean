import Lthread.Proofs.Sections

/-! When an lthread is freed, who is on record as its joiner, and which bit says that it
is detached: what one turn does to each of them. -/

namespace Lthr

open Seat

namespace Seat

theorem deschedSleep_detach (v : Seat) : (deschedSleep v).lt.state .detach = v.lt.state .detach := by
  unfold deschedSleep
  split_ifs <;> simp [Lt.clearBit, Lt.setBit]

theorem schedSleep_detach (n u : ℕ) (v : Seat) : (schedSleep n u v).lt.state .detach = v.lt.state .detach := by
  unfold schedSleep
  split_ifs <;> simp [Lt.setBit]

theorem schedSleepEnd_detach (n : ℕ) (v : Seat) : (schedSleepEnd n v).lt.state .detach = v.lt.state .detach := by
  unfold schedSleepEnd
  split_ifs <;> simp [Lt.clearBit]

theorem afterYield_detach (v : Seat) : (afterYield v).lt.state .detach = v.lt.state .detach := by
  have hcond (c : CondId) (t : ℕ) : (condWaitEnd c t v).lt.state .detach = v.lt.state .detach := by
    rw [← schedSleepEnd_detach t v]
    unfold condWaitEnd
    simp only
    split_ifs <;> simp [Lt.clearBit]
  unfold afterYield
  split
  · exact schedSleepEnd_detach _ v
  · exact hcond _ _
  · exact hcond _ _
  · next t _ =>
    rw [← schedSleepEnd_detach t v]
    simp [Lt.clearBit]
  · next e t _ =>
    rw [← schedSleepEnd_detach t v]
    cases e <;> simp [Lt.clearBit, waitBit]
  · next e _ _ => cases e <;> simp [Lt.clearBit, waitIoBit]
  · rfl

theorem switched_detach {v : Seat} (h : v.lt.state .new = false) :
    (switched v).lt.state .detach = v.lt.state .detach := by
  change (afterYield (init v)).lt.state .detach = _
  rw [afterYield_detach, init, if_neg (by simp [h])]

theorem take_detach {v : Seat} {t : Take} (ht : t.Finds v) : (t.act v).lt.state .detach = v.lt.state .detach := by
  cases t with
  | ready | defer => rfl
  | event eof =>
    change (if eof then _ else _ : Seat).lt.state .detach = _
    split_ifs
    · refine Eq.trans ?_ (deschedSleep_detach (dropWaiting v))
      simp [Lt.setBit]
    · exact deschedSleep_detach (dropWaiting v)
  | expired w => exact ht.2.detach

theorem act_keeps (e : Entry) (v : Seat) : v.Keeps (e.act v) := by
  cases e with
  | sleep n u => exact (schedSleep_keeps n u _).trans ⟨rfl, rfl, rfl⟩
  | block c i n u =>
    obtain ⟨hj, hp, hf⟩ := schedSleep_keeps n u (onLt (·.setBit .busy) (addBusy (addBlocked i v)))
    exact ⟨hj, hp, hf⟩
  | event fd e n u =>
    obtain ⟨hj, hp, hf⟩ := schedSleep_keeps n u
      (addWaiting (onLt (fun lt => { lt.setBit (waitBit e) with fdWait := fdKey fd e }) v))
    exact ⟨hj, hp, hf⟩
  | yield | io e w | compute j | exit => exact ⟨rfl, rfl, rfl⟩

theorem freeDetached_detach (v : Seat) : (freeDetached v).lt.state .detach = v.lt.state .detach := by
  unfold freeDetached
  split_ifs <;> rfl

theorem freeDetached_lt (v : Seat) :
    (freeDetached v).lt = { v.lt with freed := v.lt.freed || v.lt.state .detach } := by
  unfold freeDetached
  split_ifs with hd
  · simp [onLt, hd]
  · simp [Bool.eq_false_iff.mpr hd]

theorem unbusy_lt (v : Seat) : (unbusy v).lt = v.lt := by
  unfold unbusy
  split_ifs <;> rfl

end Seat

theorem WakesJoiner.detach {σ σ' : LtId → Seat} {l : LtId} (h : WakesJoiner σ σ' l) (m : LtId) :
    (σ' m).lt.state .detach = (σ m).lt.state .detach :=
  h.keeps (·.lt.state .detach) deschedSleep_detach (fun _ => rfl) m

/-- The end of an lthread: it forgets its joiner and is freed if it is detached, and nobody else changes. -/
theorem WakesJoiner.over {σ σ₁ σ' : LtId → Seat} {l : LtId} {F : Seat → Seat} (h : WakesJoiner σ σ₁ l)
    (hm : ActsAt σ₁ σ' l F) (hF : ∀ v, (F v).lt = (freeDetached v).lt) :
    (∀ m ≠ l, (σ m).Keeps (σ' m)) ∧ (σ' l).lt.ltJoin = none ∧ (σ' l).lt.ltExitPtr = (σ l).lt.ltExitPtr ∧
      (σ' l).lt.freed = ((σ l).lt.freed || (σ l).lt.state .detach) := by
  have hptr := h.keeps (·.lt.ltExitPtr) (fun v => (deschedSleep_keeps v).1.ltExitPtr) (fun _ => rfl) l
  have hother : ∀ m, m ≠ l → (σ m).Keeps (σ₁ m) :=
    h.all (P := fun m v => m ≠ l → (σ m).Keeps v) (fun _ _ => .of_eq rfl)
      (fun j _ _ => (deschedSleep_keeps (σ j)).1.of_lt rfl rfl) fun _ _ hl => absurd rfl hl
  refine ⟨fun m hne => ?_, ?_, ?_, ?_⟩
  · rw [hm.other hne]
    exact hother m hne
  · rw [hm.self, hF, freeDetached_lt]
    exact h.ending.ltJoin
  · rw [hm.self, hF, freeDetached_lt]
    exact hptr
  · rw [hm.self, hF, freeDetached_lt, ← h.ending.freed, ← h.detach l]

namespace Turn

variable {k : Bool} {R : Rules} {b b' : Board} {l : LtId}

/-- What sets the bit of a detached lthread and takes it away: `_lthread_init` starts with a new state. -/
theorem detach_cases (ht : Turn R b b') (h : b.Seated k) (l : LtId) :
    (b'.seat l).lt.state .detach = (b.seat l).lt.state .detach ∨
    R b (.detach l) ∧ (b'.seat l).lt.state .detach = true ∨
    l = b.spawned ∧ (b'.seat l).lt.state .detach = false ∨
    (b.seat l).lt.ctx = .start ∧ (b'.seat l).lt.state .detach = false := by
  have hkeep {σ τ : LtId → Seat} {m : LtId} {F : Seat → Seat} (hm : ActsAt σ τ m F)
      (hF : (F (σ m)).lt.state .detach = (σ m).lt.state .detach) :
      (τ l).lt.state .detach = (σ l).lt.state .detach := hm.keeps (·.lt.state .detach) hF l
  cases ht with
  | note hf hm => exact Or.inl (hkeep hm (hf _).detach)
  | @detach σ m hr hm =>
    by_cases hml : l = m
    · subst hml
      refine Or.inr (Or.inl ⟨hr, ?_⟩)
      change (σ l).lt.state .detach = true
      rw [hm.self]
      simp [Lt.setBit]
    · exact Or.inl (congrArg (fun v => v.lt.state .detach) (hm.other hml))
  | @create σ hm =>
    by_cases hml : l = b.spawned
    · refine Or.inr (Or.inr (Or.inl ⟨hml, ?_⟩))
      change (σ l).lt.state .detach = false
      rw [hml, hm.self]
      rfl
    · exact Or.inl (congrArg (fun v => v.lt.state .detach) (hm.other hml))
  | signal hb hm => exact Or.inl (hkeep hm (deschedSleep_detach _))
  | close hr hw hkey hm => exact Or.inl (hkeep hm (deschedSleep_detach _))
  | wakeup hx hs hm => exact Or.inl (hkeep hm (deschedSleep_detach _))
  | @enter σ m e hcpu hv hr hm =>
    refine Or.inl (hkeep hm ?_)
    cases e with
    | sleep n u | block c i n u =>
      refine (schedSleep_detach n u _).trans ?_
      simp [Lt.setBit]
    | event fd e n u =>
      refine (schedSleep_detach n u _).trans ?_
      cases e <;> simp [Lt.setBit, waitBit]
    | yield => rfl
    | io e w => cases e <;> simp [Entry.act, Lt.setBit, waitIoBit]
    | compute j | exit => simp [Entry.act, Lt.setBit]
  | join hr hcpu hlt hf hx h1 hm =>
    refine Or.inl ((hkeep hm ((schedSleep_detach _ _ _).trans ?_)).trans (hkeep h1 rfl))
    simp [Lt.setBit]
  | joinExited hr hcpu hf hx h1 hm => exact Or.inl ((hkeep hm rfl).trans (hkeep h1 rfl))
  | cancel hr hl hf hrun hc hins h1 hm =>
    refine Or.inl ?_
    rcases h1 with rfl | ⟨m, hml, hw, -, h1⟩
    · exact hkeep hm hc.detach
    · refine (hkeep hm ?_).trans (hkeep h1 (deschedSleep_detach _))
      rw [h1.other (Ne.symm hml)]
      exact hc.detach
  | @resume σ₁ σ₂ σ m t hr hcpu hf hc ht he h1 h2 hm =>
    have hd₁ := hkeep h1 (take_detach ht)
    have hd₂ : (σ₂ l).lt.state .detach = (b.seat l).lt.state .detach := by
      obtain ⟨j, f, h3⟩ := h2.onLt l
      rw [h3]
      exact hd₁
    by_cases hml : l = m
    · subst hml
      have hself : (σ l).lt.state .detach = (switched (σ₂ l)).lt.state .detach := by rw [hm.self]
      have hleaves := Leaves.of_take (h.seats l) hc ht
      by_cases hn : (σ₂ l).lt.state .new = true
      · refine Or.inr (Or.inr (Or.inr ⟨?_, hself.trans ?_⟩))
        · obtain ⟨j, f, h3⟩ := h2.onLt l
          rw [h3, h1.self] at hn
          rw [← (take_keeps ht).2]
          exact hleaves.new.mp hn
        · change (afterYield (init (σ₂ l))).lt.state .detach = false
          rw [afterYield_detach, init, if_pos hn]
          rfl
      · exact Or.inl (hself.trans ((switched_detach (Bool.eq_false_iff.mpr hn)).trans hd₂))
    · exact Or.inl ((congrArg (fun v => v.lt.state .detach) (hm.other hml)).trans hd₂)
  | drop t hcpu hf hc hq ht h1 h2 hm =>
    refine Or.inl ((hkeep hm ?_).trans ((h2.detach l).trans (hkeep h1 (take_detach ht))))
    rw [Function.comp_apply, unbusy_lt, freeDetached_detach]
  | finish hcpu hf hx h1 hm => exact Or.inl ((hkeep hm (freeDetached_detach _)).trans (h1.detach l))
  | computeAdd hcpu hp hm =>
    refine Or.inl (hkeep hm ?_)
    simp [Lt.clearBit, Lt.setBit]
  | switch hcpu | back hcpu he | phase hcpu => exact Or.inl rfl
  | ioDone hw hm => exact Or.inl (hkeep hm rfl)
  | taken hj hp hm => exact Or.inl (hkeep hm rfl)
  | computed hj hm =>
    refine Or.inl (hkeep hm ?_)
    simp [Lt.clearBit]

theorem detach_kept (ht : Turn R b b') (h : b.Seated k) (hl : l < b.spawned) (hs : (b.seat l).lt.ctx ≠ .start)
    (hd : (b.seat l).lt.state .detach = true) : (b'.seat l).lt.state .detach = true := by
  rcases ht.detach_cases h l with h1 | ⟨-, h1⟩ | ⟨rfl, -⟩ | ⟨h1, -⟩
  · exact h1.trans hd
  · exact h1
  · exact absurd hl (lt_irrefl _)
  · exact absurd h1 hs

/-- What a turn does to the joiner, the pointer and the life of an lthread. -/
inductive Bonds (R : Rules) (b b' : Board) (l : LtId) : Prop
  | kept (h : (b.seat l).Keeps (b'.seat l))
  | created (hl : l = b.spawned) (h : (b'.seat l).lt = Sched.newLt)
  -- a join of `target` by `j`, which frees a target that has finished
  | join {j target : LtId} (hr : R b (.join j target)) (hcpu : b.cpu = .run j)
      (hj : (b'.seat l).lt.ltJoin = if l = target then some j else (b.seat l).lt.ltJoin)
      (hp : l ≠ j → (b'.seat l).lt.ltExitPtr = (b.seat l).lt.ltExitPtr)
      (hf : (b'.seat l).lt.freed = (b.seat l).lt.freed ∨ l = target ∧ (b.seat l).lt.freed = false ∧
        (b'.seat l).lt.freed = true ∧ (b.seat l).lt.state .exited = true)
  | joined {j : LtId} {t : ℕ} (hr : R b (.resume j)) (hx : (b.seat j).lt.ctx = .joining l t)
      (hcpu : b.cpu = .loop) (hcpu' : b'.cpu = .run j) (hp : (b'.seat l).lt.ltExitPtr = (b.seat l).lt.ltExitPtr)
      (h : (b'.seat l).lt.ltJoin = none ∧ (b'.seat l).lt.freed = (b.seat l).lt.freed ∨
        (b'.seat l).lt.ltJoin = (b.seat l).lt.ltJoin ∧ (b.seat l).lt.freed = false ∧ (b'.seat l).lt.freed = true)
  | ended (hcpu : b.cpu = .back l) (hcpu' : b'.cpu = .loop) (hx : (b.seat l).lt.state .exited = true)
      (hj : (b'.seat l).lt.ltJoin = none) (hp : (b'.seat l).lt.ltExitPtr = (b.seat l).lt.ltExitPtr)
      (hf : (b.seat l).lt.freed = false) (hf' : (b'.seat l).lt.freed = (b.seat l).lt.state .detach)
  | dropped (hcpu : b.cpu = .loop) (hcpu' : b'.cpu = .loop) (hc : (b.seat l).lt.state .cancelled = true)
      (hd : b'.dropped l = true)
      (hj : (b'.seat l).lt.ltJoin = none) (hp : (b'.seat l).lt.ltExitPtr = (b.seat l).lt.ltExitPtr)
      (hf : (b.seat l).lt.freed = false) (hf' : (b'.seat l).lt.freed = (b.seat l).lt.state .detach)

theorem bond_cases (ht : Turn R b b') (l : LtId) : Bonds R b b' l := by
  have hkeep {σ τ : LtId → Seat} {m : LtId} {F : Seat → Seat} (hm : ActsAt σ τ m F)
      (hF : (σ m).Keeps (F (σ m))) : (σ l).Keeps (τ l) :=
    hm.all (P := fun i v => (σ i).Keeps v) (fun _ _ => .of_eq rfl) hF l
  have hwake (v : Seat) : v.Keeps (deschedSleep v) := (deschedSleep_keeps v).1
  cases ht with
  | note hf hm => exact .kept (hkeep hm ⟨(hf _).ltJoin, (hf _).ltExitPtr, (hf _).freed⟩)
  | detach hr hm => exact .kept (hkeep hm ⟨rfl, rfl, rfl⟩)
  | create hm =>
    by_cases hl : l = b.spawned
    · subst hl
      exact .created rfl (congrArg Seat.lt hm.self)
    · exact .kept (.of_eq (hm.other hl))
  | signal hb hm => exact .kept (hkeep hm ((hwake (dropBlocked _ _)).of_lt rfl rfl))
  | close hr hw hkey hm => exact .kept (hkeep hm ((hwake (dropWaiting _)).of_lt rfl rfl))
  | wakeup hx hs hm => exact .kept (hkeep hm ((hwake (addReady _)).of_lt rfl rfl))
  | enter e hcpu hv hr hm => exact .kept (hkeep hm (act_keeps e _))
  | @join σ₁ σ j target ptr n u hr hcpu hlt hf hx h1 hm =>
    have hact (v : Seat) : (onLt ({ · with ltExitPtr := ptr }) v).Keeps (joinAct target ptr n u v) := by
      obtain ⟨hj, hp, hf⟩ := schedSleep_keeps n u
        (onLt (·.setBit .busy) (addBusy (onLt ({ · with ltExitPtr := ptr }) v)))
      exact ⟨hj, hp, hf⟩
    refine .join hr hcpu ((hm.keeps (·.lt.ltJoin) (hact _).ltJoin l).trans ?_) (fun hl => ?_)
      (Or.inl ((hm.keeps (·.lt.freed) (hact _).freed l).trans (h1.keeps (·.lt.freed) rfl l)))
    · split_ifs with hl
      · subst hl
        rw [h1.self]
        rfl
      · rw [h1.other hl]
    · change (σ l).lt.ltExitPtr = _
      rw [hm.other hl]
      exact h1.keeps (·.lt.ltExitPtr) rfl l
  | @joinExited σ₁ σ j target ptr hr hcpu hf hx h1 hm =>
    have hj : (σ l).lt.ltJoin = if l = target then some j else (b.seat l).lt.ltJoin := by
      split_ifs with hl
      · subst hl
        rw [hm.self]
        rfl
      · rw [hm.other hl]
        exact h1.keeps (·.lt.ltJoin) rfl l
    refine .join hr hcpu hj (fun hl => ?_) ?_
    · refine (hm.keeps (·.lt.ltExitPtr) rfl l).trans ?_
      rw [h1.other hl]
    · by_cases hl : l = target
      · subst hl
        exact Or.inr ⟨rfl, hf, congrArg (·.lt.freed) hm.self, hx⟩
      · refine Or.inl ((congrArg (·.lt.freed) (hm.other hl)).trans ?_)
        exact h1.keeps (·.lt.freed) rfl l
  | cancel hr hlt hf hrun hc hins h1 hm =>
    have hcancels : (b.seat _).Keeps _ := ⟨hc.ltJoin, hc.ltExitPtr, hc.freed⟩
    rcases h1 with rfl | ⟨m, hml, hw, -, h1⟩
    · exact .kept (hkeep hm hcancels)
    · refine .kept ((hkeep h1 ((hwake (dropWaiting _)).of_lt rfl rfl)).trans (hkeep hm ?_))
      rwa [h1.other (Ne.symm hml)]
  | @resume σ₁ σ₂ σ m t hr hcpu hf hc ht he h1 h2 hm =>
    have h₁ : (b.seat l).Keeps (σ₁ l) := hkeep h1 (take_keeps ht).1
    have h₃ : (σ₂ l).Keeps (σ l) := hkeep hm (switched_keeps _)
    have hctx : (σ₁ m).lt.ctx = (b.seat m).lt.ctx := by
      rw [h1.self]
      exact (take_keeps ht).2
    unfold JoinEnds at h2
    split at h2
    · next target u hx =>
      obtain ⟨hfree, h2⟩ := h2
      by_cases hl : l = target
      · subst hl
        have hx' : (b.seat m).lt.ctx = .joining l u := hctx.symm.trans hx
        -- a join that has timed out takes its pointer back, one that has not frees its target
        split_ifs at h2
        · have h₂ := h2.self
          refine .joined hr hx' hcpu rfl (h₃.ltExitPtr.trans ?_) (Or.inl ⟨h₃.ltJoin.trans ?_, h₃.freed.trans ?_⟩)
          · rw [h₂]; exact h₁.ltExitPtr
          · rw [h₂]; rfl
          · rw [h₂]; exact h₁.freed
        · have h₂ := h2.self
          refine .joined hr hx' hcpu rfl (h₃.ltExitPtr.trans ?_)
            (Or.inr ⟨h₃.ltJoin.trans ?_, h₁.freed.symm.trans hfree, h₃.freed.trans ?_⟩)
          · rw [h₂]; exact h₁.ltExitPtr
          · rw [h₂]; exact h₁.ltJoin
          · rw [h₂]; rfl
      · have h₂ : σ₂ l = σ₁ l := by split_ifs at h2 <;> exact h2.other hl
        exact .kept (h₁.trans ((Keeps.of_eq h₂).trans h₃))
    · exact .kept (h₁.trans ((Keeps.of_eq (congrFun h2 l)).trans h₃))
  | @drop σ₁ σ₂ σ m t hcpu hf hc hq ht h1 h2 hm =>
    have h₁ : (b.seat l).Keeps (σ₁ l) := hkeep h1 (take_keeps ht).1
    obtain ⟨hother, hj, hp, hfree⟩ := h2.over hm fun v => unbusy_lt _
    by_cases hl : l = m
    · subst hl
      refine .dropped hcpu hcpu hc (Function.update_self ..) hj (hp.trans h₁.ltExitPtr) hf (hfree.trans ?_)
      rw [h₁.freed, hf, Bool.false_or]
      exact h1.keeps (·.lt.state .detach) (take_detach ht) l
    · exact .kept (h₁.trans (hother l hl))
  | @finish σ₁ σ m hcpu hf hx h1 hm =>
    obtain ⟨hother, hj, hp, hfree⟩ := h1.over hm fun _ => rfl
    by_cases hl : l = m
    · subst hl
      refine .ended hcpu rfl hx hj hp hf (hfree.trans ?_)
      rw [hf, Bool.false_or]
    · exact .kept (hother l hl)
  | computeAdd hcpu hp hm => exact .kept (hkeep hm ⟨rfl, rfl, rfl⟩)
  | switch hcpu | back hcpu he | phase hcpu => exact .kept (.of_eq rfl)
  | ioDone hw hm => exact .kept (hkeep hm ⟨rfl, rfl, rfl⟩)
  | taken hj hp hm => exact .kept (hkeep hm ⟨rfl, rfl, rfl⟩)
  | computed hj hm => exact .kept (hkeep hm ⟨rfl, rfl, rfl⟩)

inductive Frees (R : Rules) (b b' : Board) (l : LtId) : Prop
  | join (j : LtId) (hr : R b (.join j l)) (hcpu : b.cpu = .run j) (hx : (b.seat l).lt.state .exited = true)
  | joined (j : LtId) (t : ℕ) (hr : R b (.resume j)) (hx : (b.seat j).lt.ctx = .joining l t)
      (hcpu : b.cpu = .loop) (hcpu' : b'.cpu = .run j)
  | ended (hcpu : b.cpu = .back l) (hx : (b.seat l).lt.state .exited = true)
      (hd : (b.seat l).lt.state .detach = true) (hcpu' : b'.cpu = .loop)
  | dropped (hcpu : b.cpu = .loop) (hc : (b.seat l).lt.state .cancelled = true)
      (hd : (b.seat l).lt.state .detach = true) (hcpu' : b'.cpu = .loop) (h : b'.dropped l = true)

/-- `_lthread_free` is final: only `lthread_create` hands out an lthread that is not freed. -/
theorem freed_cases (ht : Turn R b b') (l : LtId) :
    (b'.seat l).lt.freed = (b.seat l).lt.freed ∨
    l = b.spawned ∧ (b'.seat l).lt.freed = false ∨
    (b.seat l).lt.freed = false ∧ (b'.seat l).lt.freed = true ∧ Frees R b b' l := by
  cases ht.bond_cases l with
  | kept h => exact Or.inl h.freed
  | created hl h => exact Or.inr (Or.inl ⟨hl, by rw [h]; rfl⟩)
  | @join j target hr hcpu hj hp hf =>
    rcases hf with hf | ⟨rfl, hf, hf', hx⟩
    · exact Or.inl hf
    · exact Or.inr (Or.inr ⟨hf, hf', .join j hr hcpu hx⟩)
  | @joined j t hr hx hcpu hcpu' hp h =>
    rcases h with ⟨-, hf⟩ | ⟨-, hf, hf'⟩
    · exact Or.inl hf
    · exact Or.inr (Or.inr ⟨hf, hf', .joined j t hr hx hcpu hcpu'⟩)
  | ended hcpu hcpu' hx hj hp hf hf' =>
    by_cases hd : (b.seat l).lt.state .detach = true
    · exact Or.inr (Or.inr ⟨hf, hf'.trans hd, .ended hcpu hx hd hcpu'⟩)
    · exact Or.inl (hf'.trans ((Bool.eq_false_iff.mpr hd).trans hf.symm))
  | dropped hcpu hcpu' hc hdrop hj hp hf hf' =>
    by_cases hd : (b.seat l).lt.state .detach = true
    · exact Or.inr (Or.inr ⟨hf, hf'.trans hd, .dropped hcpu hc hd hcpu' hdrop⟩)
    · exact Or.inl (hf'.trans ((Bool.eq_false_iff.mpr hd).trans hf.symm))

theorem ltJoin_cases (ht : Turn R b b') (l : LtId) :
    (b'.seat l).lt.ltJoin = (b.seat l).lt.ltJoin ∨
    l = b.spawned ∧ (b'.seat l).lt.ltJoin = none ∨
    (∃ j, (b'.seat l).lt.ltJoin = some j ∧ R b (.join j l) ∧ b.cpu = .run j) ∨
    (b'.seat l).lt.ltJoin = none ∧
      ((∃ j t, (b.seat j).lt.ctx = .joining l t ∧ R b (.resume j) ∧ b'.cpu = .run j) ∨
        b.cpu = .back l ∧ (b.seat l).lt.state .exited = true ∧ b'.cpu = .loop ∨
        b.cpu = .loop ∧ b'.cpu = .loop ∧ (b.seat l).lt.state .cancelled = true ∧ b'.dropped l = true) := by
  cases ht.bond_cases l with
  | kept h => exact Or.inl h.ltJoin
  | created hl h => exact Or.inr (Or.inl ⟨hl, by rw [h]; rfl⟩)
  | @join j target hr hcpu hj hp hf =>
    split_ifs at hj with hl
    · subst hl
      exact Or.inr (Or.inr (Or.inl ⟨j, hj, hr, hcpu⟩))
    · exact Or.inl hj
  | @joined j t hr hx hcpu hcpu' hp h =>
    rcases h with ⟨hj, -⟩ | ⟨hj, -, -⟩
    · exact Or.inr (Or.inr (Or.inr ⟨hj, Or.inl ⟨j, t, hx, hr, hcpu'⟩⟩))
    · exact Or.inl hj
  | ended hcpu hcpu' hx hj hp hf hf' => exact Or.inr (Or.inr (Or.inr ⟨hj, Or.inr (Or.inl ⟨hcpu, hx, hcpu'⟩)⟩))
  | dropped hcpu hcpu' hc hdrop hj hp hf hf' =>
    exact Or.inr (Or.inr (Or.inr ⟨hj, Or.inr (Or.inr ⟨hcpu, hcpu', hc, hdrop⟩)⟩))

theorem ltExitPtr_cases (ht : Turn R b b') (l : LtId) :
    (b'.seat l).lt.ltExitPtr = (b.seat l).lt.ltExitPtr ∨ l = b.spawned ∨ b.cpu = .run l := by
  cases ht.bond_cases l with
  | kept h => exact Or.inl h.ltExitPtr
  | created hl h => exact Or.inr (Or.inl hl)
  | @join j target hr hcpu hj hp hf =>
    by_cases hl : l = j
    · subst hl
      exact Or.inr (Or.inr hcpu)
    · exact Or.inl (hp hl)
  | joined hr hx hcpu hcpu' hp h => exact Or.inl hp
  | ended hcpu hcpu' hx hj hp hf hf' => exact Or.inl hp
  | dropped hcpu hcpu' hc hdrop hj hp hf hf' => exact Or.inl hp

theorem spawned_le (ht : Turn R b b') : b.spawned ≤ b'.spawned := by
  cases ht with
  | create hm => exact Nat.le_succ _
  | _ => exact le_rfl

theorem on_spawned (ht : Turn R b b') (h : b.Seated k) (hP : ∀ m, b.cpu.on = some m → m < b.spawned) :
    ∀ m, b'.cpu.on = some m → m < b'.spawned := by
  intro m hm
  refine lt_of_lt_of_le ?_ ht.spawned_le
  cases ht with
  | @enter σ l e hcpu hv hr hact =>
    have hl : (e.cpu l).on = some l := by cases e <;> rfl
    obtain rfl := Option.some_inj.mp (hl.symm.trans hm)
    exact (h.current hcpu).2.2.1
  | join hr hcpu hlt hf hx h1 hact =>
    obtain rfl := Option.some_inj.mp hm
    exact (h.current hcpu).2.2.1
  | @resume σ₁ σ₂ σ l t hr hcpu hf hc ht he h1 h2 hact =>
    obtain rfl := Option.some_inj.mp hm
    by_contra hle
    exact (Leaves.of_take (h.seats l) hc ht).suspended.2
      ((take_keeps ht).2.trans (h.links.fresh l (not_lt.mp hle)).1)
  | @computeAdd σ l hcpu hp hact =>
    obtain rfl := Option.some_inj.mp hm
    exact hP l (by rw [hcpu]; rfl)
  | @switch l hcpu =>
    obtain rfl := Option.some_inj.mp hm
    rcases hcpu with hcpu | ⟨w, hcpu⟩
    · exact hP l (by rw [hcpu]; rfl)
    · exact hP l (by rw [hcpu]; rfl)
  | finish | back => cases hm
  | _ => exact hP m hm

/-- Where the thread of the scheduler comes from when `l` has switched back. -/
theorem back_of (ht : Turn R b b') (hcpu' : b'.cpu = .back l) :
    b.cpu = .back l ∨ b.cpu = .run l ∨ b.cpu = .leaving l ∨ ∃ w, b.cpu = .ioAdd l w := by
  cases ht with
  | @enter σ m e hcpu hv hr hm =>
    cases e with
    | io e w | compute j => cases hcpu'
    | _ =>
      obtain rfl := Cpu.back.inj hcpu'
      exact Or.inr (Or.inl hcpu)
  | join hr hcpu hlt hf hx h1 hm =>
    obtain rfl := Cpu.back.inj hcpu'
    exact Or.inr (Or.inl hcpu)
  | switch hcpu =>
    obtain rfl := Cpu.back.inj hcpu'
    exact Or.inr (Or.inr hcpu)
  | resume t hr hcpu hf hc ht he h1 h2 hm => cases hcpu'
  | finish hcpu hf hx h1 hm => cases hcpu'
  | computeAdd hcpu hp hm => cases hcpu'
  | back hcpu he => cases hcpu'
  | _ => exact Or.inl hcpu'

theorem of_run (ht : Turn R b b') (hcpu : b.cpu = .run l) :
    b'.cpu = .run l ∨ b'.cpu = .back l ∨ b'.cpu = .leaving l ∨ ∃ w, b'.cpu = .ioAdd l w := by
  cases ht with
  | enter e hc hv hr hm =>
    obtain rfl := Cpu.run.inj (hcpu.symm.trans hc)
    cases e with
    | io e w => exact Or.inr (Or.inr (Or.inr ⟨w, rfl⟩))
    | compute j => exact Or.inr (Or.inr (Or.inl rfl))
    | _ => exact Or.inr (Or.inl rfl)
  | join hr hc hlt hf hx h1 hm =>
    obtain rfl := Cpu.run.inj (hcpu.symm.trans hc)
    exact Or.inr (Or.inl rfl)
  | resume t hr hc hf hcan ht he h1 h2 hm => rw [hcpu] at hc; cases hc
  | finish hc hf hx h1 hm => rw [hcpu] at hc; cases hc
  | computeAdd hc hp hm => rw [hcpu] at hc; cases hc
  | switch hc =>
    rw [hcpu] at hc
    rcases hc with hc | ⟨w, hc⟩ <;> cases hc
  | back hc he =>
    rw [hcpu] at hc
    rcases hc with hc | ⟨hc, -⟩ <;> cases hc
  | _ => exact Or.inl hcpu

theorem finish_of_back (ht : Turn R b b') (h : b.Seated k) (hcpu : b.cpu = .back l) (hcpu' : b'.cpu ≠ .back l)
    (hx : (b.seat l).lt.ctx = .exited) :
    ∃ σ, WakesJoiner b.seat σ l ∧ ActsAt σ b'.seat l Seat.freeDetached := by
  have hexit : (b.seat l).lt.state .exited = true := (h.seats l).exited.mpr hx
  cases ht with
  | finish hc hf hx h1 hm =>
    obtain rfl := Cpu.back.inj (hcpu.symm.trans hc)
    exact ⟨_, h1, hm⟩
  | computeAdd hc hp hm =>
    obtain rfl := Cpu.back.inj (hcpu.symm.trans hc)
    obtain ⟨j, hj, -⟩ := (h.seats l).pending.mp hp
    rw [hx] at hj; cases hj
  | back hc he =>
    rcases hc with hc | ⟨hc, -, hn⟩
    · rw [hcpu] at hc; cases hc
    · obtain rfl := Cpu.back.inj (hcpu.symm.trans hc)
      rw [hexit] at hn; cases hn
  | enter e hc hv hr hm => rw [hcpu] at hc; cases hc
  | join hr hc hlt hf hx h1 hm => rw [hcpu] at hc; cases hc
  | resume t hr hc hf hcan ht he h1 h2 hm => rw [hcpu] at hc; cases hc
  | switch hc =>
    rw [hcpu] at hc
    rcases hc with hc | ⟨w, hc⟩ <;> cases hc
  | _ => exact absurd hcpu hcpu'

/-- A detached lthread that has exited is freed when its `_lthread_resume` ends. -/
theorem freed_of_back (ht : Turn R b b') (h : b.Seated k) (hcpu : b.cpu = .back l) (hcpu' : b'.cpu ≠ .back l)
    (hx : (b.seat l).lt.ctx = .exited) (hd : (b.seat l).lt.state .detach = true) :
    (b'.seat l).lt.freed = true := by
  obtain ⟨σ, hw, hm⟩ := ht.finish_of_back h hcpu hcpu' hx
  rw [(hw.over hm fun _ => rfl).2.2.2, hd, Bool.or_true]

theorem back_of_exited (ht : Turn R b b') (h : b.Seated k)
    (hio : ∀ m w, b.cpu = .ioAdd m w → ∃ e, (b.seat m).lt.ctx = .ioWait e w) (hx : (b.seat l).lt.ctx = .exited)
    (hcpu' : b'.cpu = .back l) : b.cpu = .back l := by
  rcases ht.back_of hcpu' with hcpu | hcpu | hcpu | ⟨w, hcpu⟩
  · exact hcpu
  · have hrun := (h.running l).mpr hcpu
    rw [hx] at hrun; cases hrun
  · obtain ⟨j, hj, -⟩ := (h.seats l).pending.mp (h.leaving l hcpu)
    rw [hx] at hj; cases hj
  · obtain ⟨e, he⟩ := hio l w hcpu
    rw [hx] at he; cases he

theorem exits_back (ht : Turn R b b') (h' : b'.Seated k)
    (hio' : ∀ m w, b'.cpu = .ioAdd m w → ∃ e, (b'.seat m).lt.ctx = .ioWait e w) (hcpu : b.cpu = .run l)
    (hx' : (b'.seat l).lt.ctx = .exited) : b'.cpu = .back l := by
  rcases ht.of_run hcpu with hcpu' | hcpu' | hcpu' | ⟨w, hcpu'⟩
  · have hrun := (h'.running l).mpr hcpu'
    rw [hx'] at hrun; cases hrun
  · exact hcpu'
  · obtain ⟨j, hj, -⟩ := (h'.seats l).pending.mp (h'.leaving l hcpu')
    rw [hx'] at hj; cases hj
  · obtain ⟨e, he⟩ := hio' l w hcpu'
    rw [hx'] at he; cases he

end Turn
end Lthr

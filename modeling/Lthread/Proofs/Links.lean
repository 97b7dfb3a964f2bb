import Lthread.Proofs.SeatLeave

/-! What ties the seats of different lthreads together: the pointers between a
joiner and its target, the keys of the waiting tree, and the lthreads that do not
exist yet. -/

namespace Lthr

structure Links (σ : LtId → Seat) (n : ℕ) : Prop where
  -- a joiner on record waits for this lthread and has not been woken
  join : ∀ l j, (σ l).lt.ltJoin = some j → (σ l).lt.freed = false →
    (∃ t, (σ j).lt.ctx = .joining l t) ∧ ((σ j).lt.state .cancelled = true ∨ (σ j).cnt.ready = 0)
  keys : ∀ a b, (σ a).cnt.waiting ≠ 0 → (σ b).cnt.waiting ≠ 0 →
    (σ a).lt.fdWait = (σ b).lt.fdWait → a = b
  fresh : ∀ l, n ≤ l → (σ l).lt.ctx = .exited ∧ (σ l).lt.state .cancelled = false
  freed : ∀ l, (σ l).lt.freed = true → (σ l).Finished
  joined : ∀ j l t, (σ j).lt.ctx = .joining l t → l < n ∧
    ((σ j).lt.state .cancelled = false → (σ j).cnt.ready ≠ 0 → (σ l).Finished)

/-- The lthread stays in its call, gets no joiner and no new key, and is not freed
before it has finished. -/
structure Seat.KeepsCall (v w : Seat) : Prop where
  ctx : w.lt.ctx = v.lt.ctx
  cancelled : v.lt.state .cancelled = true → w.lt.state .cancelled = true
  key : w.cnt.waiting ≠ 0 → v.cnt.waiting ≠ 0 ∧ w.lt.fdWait = v.lt.fdWait
  join : ∀ j, w.lt.ltJoin = some j → w.lt.freed = false → v.lt.ltJoin = some j ∧ v.lt.freed = false
  freed : w.lt.freed = true → v.lt.freed = true ∨ v.Finished

namespace Seat.KeepsCall

variable {v w : Seat}

theorem refl (v : Seat) : v.KeepsCall v := ⟨rfl, id, fun h => ⟨h, rfl⟩, fun _ h1 h2 => ⟨h1, h2⟩, Or.inl⟩

theorem finished (h : v.KeepsCall w) (hv : v.Finished) : w.Finished :=
  hv.imp (fun hx => h.ctx.trans hx) h.cancelled

theorem woken {n : Counts} (hw : n.waiting ≠ 0 → v.cnt.waiting ≠ 0) : v.KeepsCall ⟨Seat.woken v.lt, n⟩ := by
  refine ⟨by simp, fun h => ?_, fun h => ⟨hw h, by simp⟩, fun j h1 h2 => ?_, fun h => Or.inl ?_⟩
  · rwa [woken_state v.lt (by simp) rfl]
  · exact ⟨by simpa using h1, by simpa using h2⟩
  · simpa using h

end Seat.KeepsCall

namespace Links

variable {σ σ' : LtId → Seat} {n : ℕ} {l : LtId}

/-- No lthread leaves its call. One that comes to the ready queue is no joiner, or
its target has finished and has forgotten it. -/
theorem keepsCall (h : Links σ n) (hc : ∀ m, (σ m).KeepsCall (σ' m))
    (hfresh : ∀ m, n ≤ m → (σ' m).lt.state .cancelled = (σ m).lt.state .cancelled)
    (hready : ∀ m, (σ' m).lt.state .cancelled = false → (σ' m).cnt.ready ≠ 0 →
      (σ m).cnt.ready ≠ 0 ∨ ∀ x t, (σ m).lt.ctx = .joining x t → (σ x).Finished ∧
        ∀ y, (σ' y).lt.ltJoin = some m → (σ' y).lt.freed = true) : Links σ' n := by
  refine ⟨fun m j hmj hfm => ?_, fun a b ha hb hab => ?_, fun m hn => ?_, fun m hf => ?_,
    fun j m t hj => ?_⟩
  · obtain ⟨hmj', hfm'⟩ := (hc m).join j hmj hfm
    obtain ⟨⟨t, ht⟩, hcj⟩ := h.join m j hmj' hfm'
    refine ⟨⟨t, (hc j).ctx.trans ht⟩, ?_⟩
    cases hcanc : (σ' j).lt.state .cancelled with
    | true => exact Or.inl rfl
    | false =>
      refine Or.inr (by_contra fun hr => ?_)
      rcases hready j hcanc hr with hr' | hno
      · rcases hcj with hcj | hcj
        · rw [(hc j).cancelled hcj] at hcanc; cases hcanc
        · exact hr' hcj
      · rw [(hno m t ht).2 m hmj] at hfm; cases hfm
  · rw [((hc a).key ha).2, ((hc b).key hb).2] at hab
    exact h.keys a b ((hc a).key ha).1 ((hc b).key hb).1 hab
  · rw [(hc m).ctx, hfresh m hn]; exact h.fresh m hn
  · exact (hc m).finished (((hc m).freed hf).elim (h.freed m) id)
  · rw [(hc j).ctx] at hj
    obtain ⟨hlt, hfin⟩ := h.joined j m t hj
    refine ⟨hlt, fun hcj hr => (hc m).finished ?_⟩
    rcases hready j hcj hr with hr' | hno
    · refine hfin (Bool.eq_false_iff.mpr fun hx => ?_) hr'
      rw [(hc j).cancelled hx] at hcj; cases hcj
    · exact (hno m t hj).1

/-- One lthread goes from one place in its code to another; if it is a join that it
enters, its target gets a pointer to it. -/
theorem turn (h : Links σ n) (hl : l < n) (hnofin : ¬ (σ l).Finished)
    (hc : ∀ m ≠ l, (σ' m).lt.ctx = (σ m).lt.ctx ∧
      (∀ b : LtSt, b.free = false → (σ' m).lt.state b = (σ m).lt.state b) ∧
      (σ' m).cnt = (σ m).cnt ∧ (σ' m).lt.fdWait = (σ m).lt.fdWait)
    (hfreed : ∀ m, (σ' m).lt.freed = true → (σ m).lt.freed = true ∨ m ≠ l ∧ (σ m).Finished)
    (hptr : ∀ m j, (σ' m).lt.ltJoin = some j → (σ' m).lt.freed = false →
      j ≠ l ∧ (σ m).lt.ltJoin = some j ∧ (σ m).lt.freed = false ∨
      j = l ∧ (∃ t, (σ' l).lt.ctx = .joining m t))
    (hjoin : ∀ m t, (σ' l).lt.ctx = .joining m t → m < n ∧ (σ' l).cnt.ready = 0)
    (hkey : (σ' l).cnt.waiting ≠ 0 → ∀ b ≠ l, (σ b).cnt.waiting ≠ 0 →
      (σ' l).lt.fdWait ≠ (σ b).lt.fdWait) : Links σ' n := by
  have hfin (m : LtId) (hm : (σ m).Finished) : (σ' m).Finished := by
    have hml : m ≠ l := fun he => hnofin (he ▸ hm)
    unfold Seat.Finished at hm ⊢
    rwa [(hc m hml).1, (hc m hml).2.1 _ rfl]
  refine ⟨fun m j hmj hfm => ?_, fun a b ha hb hab => ?_, fun m hn => ?_, fun m hf => ?_,
    fun j m t hj => ?_⟩
  · rcases hptr m j hmj hfm with ⟨hjl, hmj', hfm'⟩ | ⟨rfl, t, ht⟩
    · rw [(hc j hjl).1, (hc j hjl).2.1 _ rfl, (hc j hjl).2.2.1]
      exact h.join m j hmj' hfm'
    · exact ⟨⟨t, ht⟩, Or.inr (hjoin m t ht).2⟩
  · by_cases hal : a = l
    · by_cases hbl : b = l
      · rw [hal, hbl]
      · subst hal
        rw [(hc b hbl).2.2.1] at hb
        rw [(hc b hbl).2.2.2] at hab
        exact absurd hab (hkey ha b hbl hb)
    · rw [(hc a hal).2.2.1] at ha
      rw [(hc a hal).2.2.2] at hab
      by_cases hbl : b = l
      · subst hbl
        exact absurd hab.symm (hkey hb a hal ha)
      · rw [(hc b hbl).2.2.1] at hb
        rw [(hc b hbl).2.2.2] at hab
        exact h.keys a b ha hb hab
  · have hml : m ≠ l := (lt_of_lt_of_le hl hn).ne'
    rw [(hc m hml).1, (hc m hml).2.1 _ rfl]; exact h.fresh m hn
  · exact hfin m ((hfreed m hf).elim (h.freed m) And.right)
  · by_cases hjl : j = l
    · subst hjl
      exact ⟨(hjoin m t hj).1, fun _ hr => absurd (hjoin m t hj).2 hr⟩
    · rw [(hc j hjl).1] at hj
      rw [(hc j hjl).2.1 _ rfl, (hc j hjl).2.2.1]
      obtain ⟨hlt, hfin'⟩ := h.joined j m t hj
      exact ⟨hlt, fun hcj hr => hfin m (hfin' hcj hr)⟩

theorem create (h : Links σ n) (hself : σ' n = ⟨Sched.newLt, { ready := 1 }⟩)
    (hother : ∀ m ≠ n, σ' m = σ m) : Links σ' (n + 1) := by
  have hne (m : LtId) (hx : (σ m).lt.ctx ≠ .exited) : m ≠ n := by
    rintro rfl
    exact hx (h.fresh m le_rfl).1
  refine ⟨fun m j hmj hfm => ?_, fun a b ha hb hab => ?_, fun m hn => ?_, fun m hf => ?_,
    fun j m t hj => ?_⟩
  · have hmn : m ≠ n := by
      rintro rfl
      rw [hself] at hmj; cases hmj
    rw [hother m hmn] at hmj hfm
    obtain ⟨⟨t, ht⟩, hcj⟩ := h.join m j hmj hfm
    rw [hother j (hne j (by simp [ht]))]
    exact ⟨⟨t, ht⟩, hcj⟩
  · have hnew (c : LtId) (hcw : (σ' c).cnt.waiting ≠ 0) : c ≠ n := by
      rintro rfl
      rw [hself] at hcw
      exact hcw rfl
    have hea := hother a (hnew a ha)
    have heb := hother b (hnew b hb)
    rw [hea] at ha
    rw [heb] at hb
    rw [hea, heb] at hab
    exact h.keys a b ha hb hab
  · have hmn : n < m := hn
    rw [hother m hmn.ne']; exact h.fresh m hmn.le
  · have hmn : m ≠ n := by
      rintro rfl
      rw [hself] at hf
      simp [Sched.newLt] at hf
    rw [hother m hmn] at hf ⊢; exact h.freed m hf
  · have hjn : j ≠ n := by
      rintro rfl
      rw [hself] at hj
      simp [Sched.newLt] at hj
    rw [hother j hjn] at hj ⊢
    obtain ⟨hlt, hfin⟩ := h.joined j m t hj
    rw [hother m (Nat.ne_of_lt hlt)]
    exact ⟨Nat.lt_succ_of_lt hlt, hfin⟩

end Links
end Lthr

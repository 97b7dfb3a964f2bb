import Lthread.Proofs.Seat

/-! Where the scheduler and the workers hold an lthread, by the place in its code at
which it stands. `Row` lists the combinations that occur, `Seat.Ok` adds what the
state bits and `fd_wait` say about them, and `Seated` puts the seats of all
lthreads together. The flag `k` allows for `lthread_cancel`: a cancelled lthread
is kept in fewer places than others, or in the ready queue more than once. -/

namespace Lthr

/-- In the sleeping tree once, unless the timeout is 0. -/
def asleep (t : ℕ) : ℕ := if t = 0 then 0 else 1

/-- A call that a cancelled lthread never returns from, and that no worker serves. -/
def Ctx.idle : Ctx → Prop
  | .running | .ioWait _ _ | .compute _ => False
  | _ => True

def Ctx.served : Ctx → Prop
  | .ioWait _ _ | .compute _ => True
  | _ => False

inductive Row (k : Bool) : Bool → Ctx → Counts → Prop
  | start : Row k false .start { ready := 1 }
  | running : Row k false .running {}
  | yielded : Row k false .yielded { ready := 1 }
  | slept {t : ℕ} (h : t ≠ 0) : Row k false (.slept t) { sleeping := 1 }
  | awoken {t : ℕ} : Row k false (.slept t) { ready := 1 }
  | blocked {c : Ctx} {i : CondId} {t : ℕ} (h : c.cond = some (i, t)) :
    Row k false c { busy := 1, blocked := Pi.single i 1, sleeping := asleep t }
  | signalled {c : Ctx} {i : CondId} {t : ℕ} (h : c.cond = some (i, t)) :
    Row k false c { busy := 1, ready := 1 }
  | joining {target t : ℕ} :
    Row k false (.joining target t) { busy := 1, sleeping := asleep t }
  | joined {target t : ℕ} : Row k false (.joining target t) { busy := 1, ready := 1 }
  | polled {fd : Fd} {e : LtEvent} {t : ℕ} :
    Row k false (.schedEvent fd e t) { waiting := 1, sleeping := asleep t }
  | closed {fd : Fd} {e : LtEvent} {t : ℕ} : Row k false (.schedEvent fd e t) { ready := 1 }
  -- its registration was taken by the cancellation of another lthread
  | stray {fd : Fd} {e : LtEvent} {t : ℕ} (h : k = true) : Row k false (.schedEvent fd e t) {}
  | exited : Row k false .exited {}
  | ioQueued (c : Bool) {e : LtEvent} {w : ℕ} :
    Row k c (.ioWait e w) { busy := 1, io := Pi.single w 1 }
  | ioDone (c : Bool) {e : LtEvent} {w : ℕ} : Row k c (.ioWait e w) { busy := 1, defer := 1 }
  | ioDropped {e : LtEvent} {w : ℕ} : Row k true (.ioWait e w) {}
  | pending (c : Bool) {j : ℕ} : Row k c (.compute j) { compute := Pi.single j 1 }
  | computing (c : Bool) {j : ℕ} : Row k c (.compute j) { busy := 1, compute := Pi.single j 1 }
  | taken (c : Bool) {j : ℕ} : Row k c (.compute j) { busy := 1, taken := Pi.single j 1 }
  | computed (c : Bool) {j : ℕ} : Row k c (.compute j) { busy := 1, defer := 1 }
  | computeDropped (n : ℕ) {j : ℕ} : Row k true (.compute j) { ready := n }
  | idle {c : Ctx} (n b : ℕ) (bl : CondId → ℕ) (h : c.idle)
    (hb : ∀ i, bl i ≠ 0 → ∃ t, c.cond = some (i, t)) :
    Row k true c { ready := n, busy := b, blocked := bl }

namespace Row

variable {k c : Bool} {x : Ctx} {n : Counts}

theorem of_running (h : Row k c .running n) : c = false ∧ n = {} := by
  generalize hx : Ctx.running = x at h
  cases h with
  | running => exact ⟨rfl, rfl⟩
  | blocked h | signalled h => subst hx; cases h
  | idle _ _ _ h => subst hx; cases h
  | _ => cases hx

theorem of_exited (h : Row k false .exited n) : n = {} := by
  generalize hx : Ctx.exited = x at h
  cases h with
  | exited => rfl
  | blocked h | signalled h => subst hx; cases h
  | _ => cases hx

/-- An lthread on the ready queue that has not been cancelled is there once. -/
theorem of_ready (h : Row k false x n) (hr : n.ready ≠ 0) :
    ((x = .start ∨ x = .yielded ∨ (∃ t, x = .slept t) ∨ ∃ fd e t, x = .schedEvent fd e t) ∧
      n = { ready := 1 }) ∨
    (((∃ i, x.cond = some i) ∨ ∃ target t, x = .joining target t) ∧
      n = { busy := 1, ready := 1 }) := by
  cases h with
  | start => exact Or.inl ⟨Or.inl rfl, rfl⟩
  | yielded => exact Or.inl ⟨Or.inr (Or.inl rfl), rfl⟩
  | awoken => exact Or.inl ⟨Or.inr (Or.inr (Or.inl ⟨_, rfl⟩)), rfl⟩
  | closed => exact Or.inl ⟨Or.inr (Or.inr (Or.inr ⟨_, _, _, rfl⟩)), rfl⟩
  | signalled h => exact Or.inr ⟨Or.inl ⟨_, h⟩, rfl⟩
  | joined => exact Or.inr ⟨Or.inr ⟨_, _, rfl⟩, rfl⟩
  | _ => exact absurd rfl hr

theorem of_blocked (h : Row k c x n) {i : CondId} (hb : n.blocked i ≠ 0) :
    ∃ t, x.cond = some (i, t) ∧ (c = false →
      n = { busy := 1, blocked := Pi.single i 1, sleeping := asleep t }) := by
  cases h with
  | @blocked c i' t h =>
    obtain rfl : i = i' := by
      by_contra hne
      exact hb (Pi.single_eq_of_ne hne 1)
    exact ⟨t, h, fun _ => rfl⟩
  | idle m b bl h hbl =>
    obtain ⟨t, ht⟩ := hbl i hb
    exact ⟨t, ht, fun hc => by cases hc⟩
  | _ => exact absurd rfl hb

theorem of_waiting (h : Row k c x n) (hw : n.waiting ≠ 0) :
    c = false ∧ ∃ fd e t, x = .schedEvent fd e t ∧ n = { waiting := 1, sleeping := asleep t } := by
  cases h with
  | polled => exact ⟨rfl, _, _, _, rfl, rfl⟩
  | _ => exact absurd rfl hw

theorem of_sleeping (h : Row k c x n) (hs : n.sleeping ≠ 0) :
    c = false ∧ n.sleeping = 1 ∧
    ((∃ t, x = .slept t) ∧ n = { sleeping := 1 } ∨
     (∃ i t, x.cond = some (i, t) ∧ n = { busy := 1, blocked := Pi.single i 1, sleeping := 1 }) ∨
     (∃ target t, x = .joining target t) ∧ n = { busy := 1, sleeping := 1 } ∨
     (∃ fd e t, x = .schedEvent fd e t) ∧ n = { waiting := 1, sleeping := 1 }) := by
  have hone {t : ℕ} (ht : asleep t ≠ 0) : asleep t = 1 := by
    unfold asleep at ht ⊢
    split_ifs at ht ⊢ <;> simp_all
  cases h with
  | slept ht => exact ⟨rfl, rfl, Or.inl ⟨⟨_, rfl⟩, rfl⟩⟩
  | blocked h =>
    have h1 := hone hs
    exact ⟨rfl, h1, Or.inr (Or.inl ⟨_, _, h, by rw [h1]⟩)⟩
  | joining =>
    have h1 := hone hs
    exact ⟨rfl, h1, Or.inr (Or.inr (Or.inl ⟨⟨_, _, rfl⟩, by rw [h1]⟩))⟩
  | polled =>
    have h1 := hone hs
    exact ⟨rfl, h1, Or.inr (Or.inr (Or.inr ⟨⟨_, _, _, rfl⟩, by rw [h1]⟩))⟩
  | _ => exact absurd rfl hs

theorem of_defer (h : Row k c x n) (hd : n.defer ≠ 0) :
    ((∃ e w, x = .ioWait e w) ∨ ∃ j, x = .compute j) ∧ n = { busy := 1, defer := 1 } := by
  cases h with
  | ioDone => exact ⟨Or.inl ⟨_, _, rfl⟩, rfl⟩
  | computed => exact ⟨Or.inr ⟨_, rfl⟩, rfl⟩
  | _ => exact absurd rfl hd

theorem of_io (h : Row k c x n) {w : ℕ} (hw : n.io w ≠ 0) :
    ∃ e, x = .ioWait e w ∧ n = { busy := 1, io := Pi.single w 1 } := by
  cases h with
  | @ioQueued _ e w' =>
    obtain rfl : w = w' := by
      by_contra hne
      exact hw (Pi.single_eq_of_ne hne 1)
    exact ⟨e, rfl, rfl⟩
  | _ => exact absurd rfl hw

theorem of_compute (h : Row k c x n) {j : ℕ} (hj : n.compute j ≠ 0) :
    x = .compute j ∧
      (n = { compute := Pi.single j 1 } ∨ n = { busy := 1, compute := Pi.single j 1 }) := by
  cases h with
  | @pending _ j' =>
    obtain rfl : j = j' := by
      by_contra hne
      exact hj (Pi.single_eq_of_ne hne 1)
    exact ⟨rfl, Or.inl rfl⟩
  | @computing _ j' =>
    obtain rfl : j = j' := by
      by_contra hne
      exact hj (Pi.single_eq_of_ne hne 1)
    exact ⟨rfl, Or.inr rfl⟩
  | _ => exact absurd rfl hj

theorem of_taken (h : Row k c x n) {j : ℕ} (hj : n.taken j ≠ 0) :
    x = .compute j ∧ n = { busy := 1, taken := Pi.single j 1 } := by
  cases h with
  | @taken _ j' =>
    obtain rfl : j = j' := by
      by_contra hne
      exact hj (Pi.single_eq_of_ne hne 1)
    exact ⟨rfl, rfl⟩
  | _ => exact absurd rfl hj

/-- In a call of an io worker the lthread is with the worker or on the defer queue,
unless it has been cancelled and dropped. -/
theorem of_ioWait {e : LtEvent} {w : ℕ} (h : Row k c (.ioWait e w) n) :
    n = { busy := 1, io := Pi.single w 1 } ∨ n = { busy := 1, defer := 1 } ∨ c = true ∧ n = {} := by
  generalize hx : Ctx.ioWait e w = x at h
  cases h with
  | ioQueued => cases hx; exact Or.inl rfl
  | ioDone => exact Or.inr (Or.inl rfl)
  | ioDropped => exact Or.inr (Or.inr ⟨rfl, rfl⟩)
  | blocked h | signalled h => subst hx; cases h
  | idle _ _ _ h => subst hx; cases h
  | _ => cases hx

theorem io_not_ready {e : LtEvent} {w : ℕ} (h : Row k c (.ioWait e w) n) : n.ready = 0 := by
  rcases h.of_ioWait with hn | hn | ⟨-, hn⟩ <;> rw [hn]

/-- In a compute section the lthread is queued, with the compute thread or on the defer
queue, unless it has been cancelled and dropped. -/
theorem of_section {j : ℕ} (h : Row k c (.compute j) n) :
    n = { compute := Pi.single j 1 } ∨ n = { busy := 1, compute := Pi.single j 1 } ∨
    n = { busy := 1, taken := Pi.single j 1 } ∨ n = { busy := 1, defer := 1 } ∨
    c = true ∧ n = { ready := n.ready } := by
  generalize hx : Ctx.compute j = x at h
  cases h with
  | pending => cases hx; exact Or.inl rfl
  | computing => cases hx; exact Or.inr (Or.inl rfl)
  | taken => cases hx; exact Or.inr (Or.inr (Or.inl rfl))
  | computed => exact Or.inr (Or.inr (Or.inr (Or.inl rfl)))
  | computeDropped => exact Or.inr (Or.inr (Or.inr (Or.inr ⟨rfl, rfl⟩)))
  | blocked h | signalled h => subst hx; cases h
  | idle _ _ _ h => subst hx; cases h
  | _ => cases hx

theorem of_joining {target t : ℕ} (h : Row k false (.joining target t) n) :
    n = { busy := 1, sleeping := asleep t } ∨ n = { busy := 1, ready := 1 } := by
  generalize hx : Ctx.joining target t = x at h
  cases h with
  | joining => cases hx; exact Or.inl rfl
  | joined => cases hx; exact Or.inr rfl
  | blocked h | signalled h => subst hx; cases h
  | _ => cases hx

theorem of_idle (h : Row k true x n) (hx : x.idle) :
    (∀ i, n.blocked i ≠ 0 → ∃ t, x.cond = some (i, t)) ∧
      n = { ready := n.ready, busy := n.busy, blocked := n.blocked } := by
  cases h with
  | idle m b bl h hb => exact ⟨hb, rfl⟩
  | _ => cases hx

theorem of_cancelled (h : Row k true x n) (hio : n.io = 0) (hcomp : n.compute = 0)
    (ht : n.taken = 0) (hd : n.defer = 0) :
    ((∃ e w, x = .ioWait e w) ∧ n = {}) ∨ ((∃ j, x = .compute j) ∧ n = { ready := n.ready }) ∨
    (x.idle ∧ (∀ i, n.blocked i ≠ 0 → ∃ t, x.cond = some (i, t)) ∧
      n = { ready := n.ready, busy := n.busy, blocked := n.blocked }) := by
  cases h with
  | ioQueued => exact absurd hio (by simp)
  | ioDone => exact absurd hd (by simp)
  | ioDropped => exact Or.inl ⟨⟨_, _, rfl⟩, rfl⟩
  | pending => exact absurd hcomp (by simp)
  | computing => exact absurd hcomp (by simp)
  | taken => exact absurd ht (by simp)
  | computed => exact absurd hd (by simp)
  | computeDropped => exact Or.inr (Or.inl ⟨⟨_, rfl⟩, rfl⟩)
  | idle m b bl h hb => exact Or.inr (Or.inr ⟨h, hb, rfl⟩)

/-- A suspended lthread is cancelled, and put on the ready queue `d` times more unless
a worker has it. -/
theorem cancel (h : Row k c x n) (hr : x ≠ .running) {d : ℕ} (hio : ∀ e w, x = .ioWait e w → d = 0)
    (hcomp : ∀ j, x = .compute j → n.compute ≠ 0 ∨ n.taken ≠ 0 ∨ n.defer ≠ 0 → d = 0) :
    Row k true x { n with ready := n.ready + d, sleeping := 0, waiting := 0 } := by
  have hnone {x : Ctx} (i : CondId) (hi : (0 : CondId → ℕ) i ≠ 0) : ∃ t, x.cond = some (i, t) :=
    absurd rfl hi
  cases h with
  | running => exact absurd rfl hr
  | @blocked x i t h =>
    refine idle (0 + d) 1 (Pi.single i 1) ?_ fun i' hi' => ?_
    · cases x <;> simp_all [Ctx.idle, Ctx.cond]
    · obtain rfl : i' = i := by
        by_contra hne
        exact hi' (Pi.single_eq_of_ne hne 1)
      exact ⟨t, h⟩
  | @signalled x i t h =>
    refine idle (1 + d) 1 0 ?_ hnone
    cases x <;> simp_all [Ctx.idle, Ctx.cond]
  | ioQueued => rw [hio _ _ rfl]; exact ioQueued true
  | ioDone => rw [hio _ _ rfl]; exact ioDone true
  | ioDropped => rw [hio _ _ rfl]; exact ioDropped
  | pending => rw [hcomp _ rfl (by simp)]; exact pending true
  | computing => rw [hcomp _ rfl (by simp)]; exact computing true
  | taken => rw [hcomp _ rfl (by simp)]; exact taken true
  | computed => rw [hcomp _ rfl (by simp)]; exact computed true
  | computeDropped m => exact computeDropped (m + d)
  | idle m b bl h hb => exact idle (m + d) b bl h hb
  | start | yielded | awoken | closed => exact idle (1 + d) 0 0 trivial hnone
  | slept | polled | stray | exited => exact idle (0 + d) 0 0 trivial hnone
  | joining => exact idle (0 + d) 1 0 trivial hnone
  | joined => exact idle (1 + d) 1 0 trivial hnone

/-- Without cancellation, a suspended lthread that has not finished is in one of
the structures `_lthread_sched_isdone` looks at, or in a compute queue. -/
theorem covered (h : Row false false x n) (hr : x ≠ .running) (he : x ≠ .exited) :
    n.ready ≠ 0 ∨ n.sleeping ≠ 0 ∨ n.waiting ≠ 0 ∨ n.busy ≠ 0 ∨
      ∃ j, x = .compute j ∧ n = { compute := Pi.single j 1 } := by
  cases h with
  | running => exact absurd rfl hr
  | exited => exact absurd rfl he
  | stray h => cases h
  | pending => exact Or.inr (Or.inr (Or.inr (Or.inr ⟨_, rfl, rfl⟩)))
  | _ => simp

end Row
end Lthr

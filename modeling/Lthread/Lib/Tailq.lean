import Mathlib.Tactic

/-! Intrusive tail queues. A queue is the list of its linked entries; the link
of an entry that has been removed is kept as it was at that moment, because
`TAILQ_REMOVE` writes to the neighbours of the entry only. A walk with
`TAILQ_FOREACH_SAFE` may therefore stand on an entry that its own body has
unlinked, and go on from there along links that the queue no longer has.

`foreachSafe_eq_foldl` says when such a walk is harmless: when the body of a
linked entry unlinks it together with others, whose own bodies do nothing from
then on, the walk ends after at most one round for each entry and does what a
plain loop over the queue as it was at the start would do. -/

namespace Lthr
namespace Tailq

variable {α : Type} [DecidableEq α]

def succ : List α → α → Option α
  | [], _ => none
  | y :: l, x => if y = x then l.head? else succ l x

/-- `TAILQ_NEXT`: the successor of a linked entry, the stale link otherwise. -/
def next (q : List α) (stale : α → Option α) (x : α) : Option α :=
  if x ∈ q then succ q x else stale x

/-- What `TAILQ_REMOVE` leaves in the entry it unlinks. -/
def unlink (q : List α) (stale : α → Option α) (x : α) : α → Option α :=
  Function.update stale x (succ q x)

/-- `TAILQ_FOREACH_SAFE`: the next entry is read before the body runs. -/
def foreachSafe {σ : Type} (nextOf : σ → α → Option α) (body : σ → α → σ) :
    ℕ → Option α → σ → σ
  | 0, _, s => s
  | _ + 1, none, s => s
  | n + 1, some x, s => foreachSafe nextOf body n (nextOf s x) (body s x)

theorem succ_append_cons (a b : List α) (x : α) (h : x ∉ a) : succ (a ++ x :: b) x = b.head? := by
  induction a with
  | nil => simp [succ]
  | cons y a ih =>
    simp only [List.mem_cons, not_or] at h
    simp only [List.cons_append, succ, if_neg (Ne.symm h.1)]
    exact ih h.2

section Walk

variable {σ : Type} (q : σ → List α) (stale : σ → α → Option α) (done : σ → α → Prop)

/-- `v` leads in `k` steps along stale links of finished entries to the head of
the queue. -/
inductive Leads (s : σ) : Option α → ℕ → Prop
  | here : Leads s (q s).head? 0
  | skip {y : α} {k : ℕ} : y ∉ q s → done s y → Leads s (stale s y) k → Leads s (some y) (k + 1)

variable {q stale done}

omit [DecidableEq α] in
/-- After a body that has taken the entries with `p` out of `l`, the first entry
of `l` still leads to the head of what is left. -/
theorem leads_head {s : σ} {p : α → Bool} :
    ∀ l : List α, q s = l.filter (fun y => !p y) →
      (∀ y ∈ l, p y = true → done s y) →
      (∀ a y b, l = a ++ y :: b → p y = true → stale s y = b.head?) →
      ∃ k, Leads q stale done s l.head? k ∧ k + (q s).length ≤ l.length := by
  intro l
  induction l with
  | nil =>
    intro hq _ _
    refine ⟨0, ?_, by simp [hq]⟩
    have hhere : Leads q stale done s (q s).head? 0 := Leads.here
    rwa [hq] at hhere
  | cons y l ih =>
    intro hq hdone hstale
    cases hp : p y with
    | false =>
      refine ⟨0, ?_, ?_⟩
      · have hhere : Leads q stale done s (q s).head? 0 := Leads.here
        rwa [hq, List.filter_cons_of_pos (by simp [hp])] at hhere
      · rw [hq, Nat.zero_add]
        exact List.length_filter_le _ _
    | true =>
      rw [List.filter_cons_of_neg (by simp [hp])] at hq
      obtain ⟨k, hk, hlen⟩ := ih hq (fun z hz => hdone z (List.mem_cons_of_mem _ hz))
        (fun a z b h => hstale (y :: a) z b (by rw [h]; rfl))
      refine ⟨k + 1, Leads.skip ?_ (hdone y (List.mem_cons_self ..) hp) ?_, ?_⟩
      · rw [hq]
        intro hmem
        simpa [hp] using (List.mem_filter.mp hmem).2
      · rw [hstale [] y l rfl hp]
        exact hk
      · rw [List.length_cons]
        omega

variable {body : σ → α → σ}

omit [DecidableEq α] in
theorem foldl_filter_done {p : α → Bool} (hskip : ∀ s y, done s y → body s y = s)
    (hkeep : ∀ s x y, done s y → done (body s x) y) :
    ∀ (l : List α) (s : σ), (∀ y ∈ l, p y = true → done s y) →
      (l.filter fun y => !p y).foldl body s = l.foldl body s := by
  intro l
  induction l with
  | nil => intro s _; rfl
  | cons y l ih =>
    intro s hdone
    cases hp : p y with
    | false =>
      rw [List.filter_cons_of_pos (by simp [hp]), List.foldl_cons, List.foldl_cons]
      exact ih _ fun z hz hpz => hkeep _ _ _ (hdone z (List.mem_cons_of_mem _ hz) hpz)
    | true =>
      rw [List.filter_cons_of_neg (by simp [hp]), List.foldl_cons,
        hskip s y (hdone y (List.mem_cons_self ..) hp)]
      exact ih _ fun z hz => hdone z (List.mem_cons_of_mem _ hz)

/-- What the body does at the head of the queue: it unlinks the head and
every other entry with `p`, leaves each of them a link to its old successor, and
has nothing more to do for them. -/
structure Sweeps (q : σ → List α) (stale : σ → α → Option α) (done : σ → α → Prop) (s s' : σ)
    (x : α) (post : List α) (p : α → Bool) : Prop where
  queue : q s' = post.filter fun y => !p y
  finished : ∀ y ∈ post, p y = true → done s' y
  links : ∀ a y b, post = a ++ y :: b → p y = true → stale s' y = b.head?

theorem foreachSafe_leads {I : σ → Prop} (hskip : ∀ s y, done s y → body s y = s)
    (hkeep : ∀ s x y, done s y → done (body s x) y)
    (hsweep : ∀ s x post, I s → q s = x :: post →
      I (body s x) ∧ ∃ p, Sweeps q stale done s (body s x) x post p) :
    ∀ (n : ℕ) (v : Option α) (k : ℕ) (s : σ), I s → Leads q stale done s v k →
      k + (q s).length ≤ n →
      foreachSafe (fun s x => next (q s) (stale s) x) body n v s = (q s).foldl body s := by
  intro n
  induction n with
  | zero =>
    intro v k s _ _ hn
    have : q s = [] := List.length_eq_zero_iff.mp (by omega)
    rw [this]
    rfl
  | succ n ih =>
    intro v k s hI hlead hn
    cases hlead with
    | here =>
      cases hq : q s with
      | nil => rfl
      | cons x post =>
        obtain ⟨hI', p, hsw⟩ := hsweep s x post hI hq
        obtain ⟨k', hk', hlen⟩ := leads_head post hsw.queue hsw.finished hsw.links
        have hnext : next (q s) (stale s) x = post.head? := by
          rw [next, if_pos (by simp [hq]), hq]
          exact succ_append_cons [] post x (by simp)
        rw [hq, List.length_cons] at hn
        simp only [List.head?_cons, foreachSafe, hnext, List.foldl_cons]
        rw [ih _ _ _ hI' hk' (by omega), hsw.queue]
        exact foldl_filter_done hskip hkeep post _ hsw.finished
    | @skip y k hmem hdone hrest =>
      have hnext : next (q s) (stale s) y = stale s y := by rw [next, if_neg hmem]
      simp only [foreachSafe, hnext, hskip s y hdone]
      exact ih _ _ _ hI hrest (by omega)

/-- One round for each entry linked at the start is enough, and more rounds
change nothing. -/
theorem foreachSafe_eq_foldl (q : σ → List α) (stale : σ → α → Option α) (done : σ → α → Prop)
    {I : σ → Prop} (hskip : ∀ s y, done s y → body s y = s)
    (hkeep : ∀ s x y, done s y → done (body s x) y)
    (hsweep : ∀ s x post, I s → q s = x :: post →
      I (body s x) ∧ ∃ p, Sweeps q stale done s (body s x) x post p)
    {s : σ} (hI : I s) {n : ℕ} (hn : (q s).length ≤ n) :
    foreachSafe (fun s x => next (q s) (stale s) x) body n (q s).head? s =
      (q s).foldl body s :=
  foreachSafe_leads hskip hkeep hsweep n _ 0 s hI Leads.here (by omega)

end Walk

end Tailq
end Lthr

import Lthread.Spec.Queue

/-! The pointers of `queue.h` are lists: every use of a tail queue does to the pointers what it does
to the list of its entries. -/

namespace Lthr

variable {ι α : Type} [DecidableEq ι] [DecidableEq α]

namespace LinkMem

variable {m m' : LinkMem ι α} {q : Queues ι α} {i : ι} {x : α} {l l₁ l₂ : List α}

/-! One queue -/

theorem Queue.insertTail (h : m.Queue i l) (hx : x ∉ l) : (m.tailqInsertTail i x).Queue i (l ++ [x]) := by
  have hend := Link.endOf_ne (i := i) hx
  have hend' : Link.endOf (.head i) (l ++ [x]) = .elem x := by rw [Link.endOf_append]; rfl
  refine ⟨?_, row_append.mpr ⟨?_, ?_, ?_, trivial⟩, ?_, ?_⟩
  · exact List.nodup_append'.mpr ⟨h.nodup, List.nodup_singleton x, by simpa using hx⟩
  · refine h.row.congr (Link.row_nodup h.nodup) (fun c hc hne => ?_) fun y hy => ?_
    · have hcx : c ≠ .elem x := by
        rintro rfl
        simp [Link.mem_row, hx] at hc
      simp [tailqInsertTail, h.tail, hne, hcx]
    · have hyx : y ≠ x := fun h0 => hx (h0 ▸ hy)
      simp [tailqInsertTail, hyx]
  · simp [tailqInsertTail, h.tail]
  · simp [tailqInsertTail, h.tail]
  · simp [tailqInsertTail, hend', h.tail, hend.symm]
  · simp [tailqInsertTail, hend']

/-- `TAILQ_INSERT_TAIL` of an entry that is in the queue leaves no queue: the entries behind it are
cut off and the way back goes through them, or it is the last one and then points to itself. -/
theorem Queue.relinked (h : m.Queue i l) (hx : x ∈ l) (l' : List α) : ¬ (m.tailqInsertTail i x).Queue i l' := by
  intro h'
  obtain ⟨l₁, l₂, rfl⟩ := List.append_of_mem hx
  have hlast := h'.last
  rw [← h'.tail] at hlast
  rcases List.eq_nil_or_concat l₂ with rfl | ⟨l₃, y, rfl⟩
  · have htail : m.back (.head i) = .elem x := by rw [h.tail, Link.endOf_append]; rfl
    simp [tailqInsertTail, htail] at hlast
  · have htail : m.back (.head i) = .elem y := by
      rw [h.tail, List.concat_eq_append, ← List.cons_append, ← List.append_assoc, Link.endOf_append]
      rfl
    obtain ⟨-, hn, hdis⟩ := List.nodup_append'.mp h.nodup
    have hyx : y ≠ x := by
      rintro rfl
      simp at hn
    have hy₁ : y ∉ l₁ := fun hy => hdis hy (by simp)
    have hx₁ : x ∉ l₁ := fun hx₁ => hdis hx₁ List.mem_cons_self
    have hwalk : l' = l₁ ++ [x] := by
      refine Row.walk (m := m) (row_append.mpr ⟨(row_append.mp h.row).1, ?_⟩) (fun c hc => ?_) ?_ h'.row h'.last
      · exact ⟨(row_append.mp h.row).2.1, (row_append.mp h.row).2.2.1, trivial⟩
      · have hcy : c ≠ .elem y := by rintro rfl; simp [Link.mem_row, hy₁] at hc
        have hcx : c ≠ .elem x := by rintro rfl; simp [Link.mem_row, hx₁] at hc
        simp [tailqInsertTail, htail, hcy, hcx]
      · simp [tailqInsertTail, htail, hyx.symm]
    subst hwalk
    have hback := h'.back_elem
    simp only [tailqInsertTail, htail, setBack_back, setNext_back, reduceCtorEq, if_false] at hback
    exact Link.endOf_ne hy₁ (by simpa using hback.symm)

/-- What `TAILQ_REMOVE` writes: the link before the entry, and the way back of what is behind it. -/
theorem Queue.remove_reads (h : m.Queue i (l₁ ++ x :: l₂)) (c : Link ι α) :
    (m.tailqRemove i x).next c = (if c = Link.endOf (.head i) l₁ then l₂.head? else m.next c) ∧
    (m.tailqRemove i x).back c = if c = Link.toward i l₂.head? then Link.endOf (.head i) l₁ else m.back c := by
  have hnext := h.next_elem
  cases l₂ with
  | nil =>
    simp only [tailqRemove, hnext, List.head?_nil, h.back_elem, setBack_back, setNext_next, setBack_next, setNext_back,
      reduceCtorEq, if_false]
    exact ⟨trivial, rfl⟩
  | cons y l₂ =>
    have hxy : x ≠ y := by
      rintro rfl
      simpa [List.nodup_append'] using h.nodup
    simp only [tailqRemove, hnext, List.head?_cons, h.back_elem, setBack_back, setNext_next, setBack_next, setNext_back,
      Link.elem.injEq, hxy, if_false]
    exact ⟨trivial, rfl⟩

theorem Queue.remove (h : m.Queue i (l₁ ++ x :: l₂)) : (m.tailqRemove i x).Queue i (l₁ ++ l₂) := by
  have hl := (List.nodup_cons.mp (List.nodup_middle.mp h.nodup)).2
  obtain ⟨hl₁, hl₂, hdis⟩ := List.nodup_append'.mp hl
  obtain ⟨hrow, -, -, hrest⟩ := row_append.mp h.row
  have hreads := h.remove_reads
  have hfront : (m.tailqRemove i x).Row (.head i) l₁ := by
    refine hrow.congr (Link.row_nodup hl₁) (fun c _ hne => by rw [(hreads c).1, if_neg hne]) fun y hy => ?_
    rw [(hreads _).2, if_neg]
    cases l₂ with
    | nil => simp [Link.toward]
    | cons z l₂ => exact fun h0 => hdis hy (Link.elem.inj h0 ▸ List.mem_cons_self)
  have hlast := h.last
  have htail := h.tail
  rw [Link.endOf_append] at hlast htail
  cases l₂ with
  | nil =>
    rw [List.append_nil] at hl ⊢
    exact ⟨hl, hfront, by rw [(hreads _).1, if_pos rfl]; rfl, by rw [(hreads _).2]; exact if_pos rfl⟩
  | cons y l₂ =>
    obtain ⟨-, -, hrest⟩ := hrest
    have hend : ∀ c ∈ (Link.elem y).row l₂, c ≠ Link.endOf (.head i) l₁ := by
      intro c hc
      obtain ⟨z, hz, rfl⟩ : ∃ z ∈ y :: l₂, Link.elem z = c := List.mem_map.mp hc
      exact (Link.endOf_ne fun hz₁ => hdis hz₁ hz).symm
    refine ⟨hl, row_append.mpr ⟨hfront, ?_, ?_, ?_⟩, ?_, ?_⟩
    · rw [(hreads _).1, if_pos rfl]
      rfl
    · rw [(hreads _).2]
      exact if_pos rfl
    · refine hrest.congr (hl₂.map fun _ _ => Link.elem.inj) (fun c hc _ => ?_) fun z hz => ?_
      · rw [(hreads c).1, if_neg (hend c hc)]
      · have hzy : z ≠ y := fun h0 => (List.nodup_cons.mp hl₂).1 (h0 ▸ hz)
        rw [(hreads _).2, if_neg (by simpa [Link.toward] using hzy)]
    · rw [Link.endOf_append, (hreads _).1]
      exact (if_neg (hend _ (Link.endOf_mem _ l₂))).trans hlast
    · rw [Link.endOf_append, (hreads _).2, if_neg (by simp [Link.toward])]
      exact htail

omit [DecidableEq ι] [DecidableEq α] in
theorem Queue.last_eq (h : m.Queue i l) : m.tailqLast i = l.getLast? := by
  rcases List.eq_nil_or_concat l with rfl | ⟨l₁, x, rfl⟩
  · simpa [tailqLast, h.tail, Link.endOf] using h.last
  · rw [List.concat_eq_append] at h ⊢
    rw [tailqLast, h.tail, Link.endOf_append, show Link.endOf _ [x] = .elem x from rfl, h.back_elem, h.next_endOf]
    simp

omit [DecidableEq ι] [DecidableEq α] in
theorem Queue.foreach_eq (h : m.Queue i (l₁ ++ l₂)) {limit : ℕ} (hn : l₂.length ≤ limit) :
    m.foreach limit l₂.head? = some l₂ := by
  induction l₂ generalizing l₁ limit with
  | nil => cases limit <;> rfl
  | cons x l₂ ih =>
    obtain ⟨n, rfl⟩ : ∃ n, limit = n + 1 := ⟨limit - 1, by rw [List.length_cons] at hn; omega⟩
    have h' : m.Queue i ((l₁ ++ [x]) ++ l₂) := by rwa [List.append_assoc]
    simp [foreach, h.next_elem, ih h' (by simpa using hn)]

/-! All queues of a memory -/

/-- The memory has the queues, no entry in two of them, and the pointers that entries have kept. -/
structure Holds (m : LinkMem ι α) (q : Queues ι α) : Prop where
  queue : ∀ i, m.Queue i (q.queue i)
  apart : ∀ i j x, x ∈ q.queue i → x ∈ q.queue j → i = j
  stale : ∀ x, ¬ q.Linked x → m.next (.elem x) = q.stale x

namespace Holds

/-- One queue changes, and nothing is written but its head, its entries and those that come in. -/
theorem update {q' : Queues ι α} (h : m.Holds q) (hself : q'.queue i = l) (hother : ∀ j ≠ i, q'.queue j = q.queue j)
    (hq : m'.Queue i l) (hnew : ∀ y ∈ l, y ∈ q.queue i ∨ ¬ q.Linked y)
    (hsame : ∀ c, c ∉ (Link.head i).row (q.queue i ++ l) → m'.next c = m.next c ∧ m'.back c = m.back c)
    (hstale : ∀ y, y ∉ l → (y ∈ q.queue i → m'.next (.elem y) = q'.stale y) ∧ (¬ q.Linked y → q'.stale y = q.stale y)) :
    m'.Holds q' := by
  have hapart : ∀ {j y}, j ≠ i → y ∈ q.queue j → y ∉ q.queue i ++ l := by
    intro j y hj hy hyl
    rcases List.mem_append.mp hyl with hyl | hyl
    · exact hj (h.apart j i y hy hyl)
    · exact (hnew y hyl).elim (fun hyi => hj (h.apart j i y hy hyi)) fun hno => hno ⟨j, hy⟩
  refine ⟨fun j => ?_, fun j k y hj hk => ?_, fun y hy => ?_⟩
  · by_cases hj : j = i
    · rwa [hj, hself]
    · rw [hother j hj]
      refine (h.queue j).congr fun c hc => hsame c fun hc' => ?_
      rcases Link.mem_row.mp hc with rfl | ⟨y, hy, rfl⟩
      · simp [Link.mem_row, hj] at hc'
      · simp only [Link.mem_row, reduceCtorEq, Link.elem.injEq, exists_eq_right', false_or] at hc'
        exact hapart hj hy hc'
  · have hout : ∀ {j}, j ≠ i → y ∈ q'.queue j → y ∉ q'.queue i := fun hj hy hyi =>
      hapart hj (hother _ hj ▸ hy) (List.mem_append_right _ (hself ▸ hyi))
    by_cases hji : j = i <;> by_cases hki : k = i
    · rw [hji, hki]
    · exact absurd (hji ▸ hj) (hout hki hk)
    · exact absurd (hki ▸ hk) (hout hji hj)
    · exact h.apart j k y (hother j hji ▸ hj) (hother k hki ▸ hk)
  · have hyl : y ∉ l := fun hyl => hy ⟨i, by rwa [hself]⟩
    by_cases hyi : y ∈ q.queue i
    · exact (hstale y hyl).1 hyi
    · have hno : ¬ q.Linked y := by
        rintro ⟨j, hj⟩
        by_cases hji : j = i
        · exact hyi (hji ▸ hj)
        · exact hy ⟨j, by rwa [hother j hji]⟩
      rw [(hsame (.elem y) (by simp [Link.mem_row, hyi, hyl])).1, h.stale y hno, ← (hstale y hyl).2 hno]

omit [DecidableEq ι] in
theorem next_eq (h : m.Holds q) (hx : x ∈ q.queue i ∨ ¬ q.Linked x) :
    m.next (.elem x) = Tailq.next (q.queue i) q.stale x := by
  rw [Tailq.next]
  split_ifs with hmem
  · obtain ⟨l₁, l₂, heq, hno⟩ := List.eq_append_cons_of_mem hmem
    have hqi := heq ▸ h.queue i
    rw [heq, Tailq.succ_append_cons l₁ l₂ x hno, hqi.next_elem]
  · exact h.stale x (hx.resolve_left hmem)

/-- A use does to the pointers what it does to the lists, and gives the same. -/
theorem tailq {c : TailqCall ι α} (h : m.Holds q) (hc : q.Legal c) :
    (m.tailq c).1.Holds (q.call c).1 ∧ (m.tailq c).2 = (q.call c).2 := by
  have hqueue (i : ι) : m.Queue i ([] ++ q.queue i) := h.queue i
  have hfirst (i : ι) : m.tailqFirst i = (q.queue i).head? := (hqueue i).next_endOf
  cases c with
  | insertTail i x =>
    refine ⟨h.update (Function.update_self ..) (fun j hj => Function.update_of_ne hj ..)
      ((h.queue i).insertTail fun hx => hc ⟨i, hx⟩) (fun y hy => ?_) (fun c hc => ?_)
      fun y hy => ⟨fun hyi => absurd (List.mem_append_left _ hyi) hy, fun _ => rfl⟩, rfl⟩
    · rcases List.mem_append.mp hy with hy | hy
      · exact Or.inl hy
      · exact Or.inr (List.mem_singleton.mp hy ▸ hc)
    · have hend : c ≠ Link.endOf (.head i) (q.queue i) := fun h0 => hc (h0 ▸ Link.endOf_mem_append _ _ _)
      simp only [Link.mem_row, not_or, not_exists, not_and] at hc
      have hcx := hc.2 x (by simp)
      simp [LinkMem.tailq, tailqInsertTail, (h.queue i).tail, hend, hc.1, hcx]
  | remove i x =>
    obtain ⟨l₁, l₂, heq, hno⟩ := List.eq_append_cons_of_mem hc
    have hqi := heq ▸ h.queue i
    have hreads := hqi.remove_reads
    have herase : (q.queue i).erase x = l₁ ++ l₂ := by
      rw [heq, List.erase_append_right _ hno, List.erase_cons_head]
    refine ⟨h.update ((Function.update_self ..).trans herase) (fun j hj => Function.update_of_ne hj ..) hqi.remove
      (fun y hy => Or.inl ?_) (fun c hc => ?_) fun y hy => ⟨fun hyi => ?_, fun hno' => ?_⟩, rfl⟩
    · exact List.mem_of_mem_erase (herase ▸ hy)
    · rw [heq, List.append_assoc] at hc
      have hend : c ≠ Link.endOf (.head i) l₁ := fun h0 => hc (h0 ▸ Link.endOf_mem_append _ _ _)
      have htow : c ≠ Link.toward i l₂.head? := by
        rintro rfl
        refine hc (Link.mem_row.mpr ?_)
        cases l₂ with
        | nil => exact Or.inl rfl
        | cons y l₂ => exact Or.inr ⟨y, by simp, rfl⟩
      exact ⟨(hreads c).1.trans (if_neg hend), (hreads c).2.trans (if_neg htow)⟩
    · obtain rfl : y = x := by
        rw [heq] at hyi
        simp_all
      have hsucc : Tailq.unlink (q.queue i) q.stale y y = l₂.head? := by
        rw [Tailq.unlink, Function.update_self, heq, Tailq.succ_append_cons l₁ l₂ y hno]
      exact ((hreads _).1.trans (if_neg (Link.endOf_ne hno).symm)).trans (hqi.next_elem.trans hsucc.symm)
    · have hyx : y ≠ x := by
        rintro rfl
        exact hno' ⟨i, hc⟩
      exact Function.update_of_ne hyx ..
  | empty i =>
    refine ⟨h, ?_⟩
    rw [LinkMem.tailq, tailqEmpty, show m.next (.head i) = _ from hfirst i]
    cases hq : q.queue i <;> simp [Queues.call, hq]
  | first i => exact ⟨h, by rw [LinkMem.tailq, hfirst]; rfl⟩
  | last i => exact ⟨h, by rw [LinkMem.tailq, (h.queue i).last_eq]; rfl⟩
  | next i x => exact ⟨h, by rw [LinkMem.tailq, tailqNext, h.next_eq hc]; rfl⟩
  | foreach i limit => exact ⟨h, by rw [LinkMem.tailq, hfirst, (hqueue i).foreach_eq hc]; rfl⟩

theorem useAll {cs : List (TailqCall ι α)} (h : m.Holds q) (hcs : q.AllLegal cs) :
    (Lthr.useAll LinkMem.tailq m cs).1.Holds (Lthr.useAll Queues.call q cs).1 ∧
    (Lthr.useAll LinkMem.tailq m cs).2 = (Lthr.useAll Queues.call q cs).2 := by
  induction cs generalizing m q with
  | nil => exact ⟨h, rfl⟩
  | cons c cs ih =>
    obtain ⟨hc, hans⟩ := h.tailq hcs.1
    obtain ⟨hcs, hanss⟩ := ih hc hcs.2
    exact ⟨hcs, congrArg₂ List.cons hans hanss⟩

end Holds
end LinkMem

/-- Whatever is done with the tail queues of a memory, in any order and on any number of heads, as
long as no entry is linked twice: the pointers are those of the lists, every use gives what the
lists give, and an entry that has been linked out keeps the pointer to what was behind it. -/
theorem tailq_uses_refine_lists (m : LinkMem ι α) (hm : m.tailqInit) (cs : List (TailqCall ι α))
    (hcs : Queues.AllLegal ⟨fun _ => [], fun x => m.next (.elem x)⟩ cs) :
    (useAll LinkMem.tailq m cs).1.Holds (useAll Queues.call ⟨fun _ => [], fun x => m.next (.elem x)⟩ cs).1 ∧
    (useAll LinkMem.tailq m cs).2 = (useAll Queues.call ⟨fun _ => [], fun x => m.next (.elem x)⟩ cs).2 :=
  LinkMem.Holds.useAll ⟨fun i => ⟨List.nodup_nil, trivial, (hm i).1, (hm i).2⟩, by simp, fun _ _ => rfl⟩ hcs

/-- Two queues: an entry from the middle of the first goes to the second. -/
theorem tailq_uses_refine_lists_move :
    (useAll LinkMem.tailq (⟨fun _ => none, id⟩ : LinkMem Bool ℕ) [.insertTail true 1, .insertTail true 2, .insertTail true 3,
      .remove true 2, .next true 2, .insertTail false 2, .foreach true 2, .last false]).2 =
    [.done, .done, .done, .done, .entry (some 3), .done, .entries (some [1, 3]), .entry (some 2)] :=
  (tailq_uses_refine_lists (⟨fun _ => none, id⟩ : LinkMem Bool ℕ) (fun _ => ⟨rfl, rfl⟩) _
    (by simp [Queues.AllLegal, Queues.Legal, Queues.call, Queues.Linked])).2

end Lthr

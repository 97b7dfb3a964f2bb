import Lthread.Lib.Ring
import Lthread.Spec.Fifo

/-! The circular buffer refines a list: `queue_add` appends and `queue_remove`
takes the head, whatever the position of `next`. -/

namespace Lthr
namespace Queue

theorem toList_eq_ringView (q : Queue) :
    q.toList = ringView (q.data.getD · NULL) q.capacity q.next q.size := rfl

theorem length_toList (q : Queue) : q.toList.length = q.size := by simp [toList]

theorem addPos_eq_mod (q : Queue) (h : q.size < q.capacity) :
    q.addPos = (q.next + q.size) % q.capacity := by
  have := q.next_lt
  exact ring_wrap (by omega)

theorem addPos_lt (q : Queue) (h : q.size < q.capacity) : q.addPos < q.capacity := by
  rw [addPos_eq_mod q h]
  exact Nat.mod_lt _ q.capacity_pos

theorem add_of_lt (q : Queue) (v : Ptr) (h : q.size < q.capacity) :
    (q.add v).1.size = q.size + 1 ∧ (q.add v).1.next = q.next ∧
      (q.add v).1.capacity = q.capacity ∧ (q.add v).1.data = q.data.set q.addPos v ∧
        (q.add v).2 = 0 := by
  unfold add
  rw [dif_neg (by simpa using h)]
  exact ⟨rfl, rfl, rfl, rfl, rfl⟩

theorem add_of_full (q : Queue) (v : Ptr) (h : ¬ q.size < q.capacity) : q.add v = (q, -1) := by
  unfold add
  rw [dif_pos (by simpa using h)]

@[simp] theorem add_capacity (q : Queue) (v : Ptr) : (q.add v).1.capacity = q.capacity := by
  unfold add
  split_ifs <;> rfl

@[simp] theorem remove_capacity (q : Queue) : q.remove.2.capacity = q.capacity := by
  unfold remove
  split_ifs <;> rfl

theorem toList_add (q : Queue) (v : Ptr) (h : q.size < q.capacity) :
    (q.add v).1.toList = q.toList ++ [v] := by
  obtain ⟨hs, hn, hc, hd, -⟩ := q.add_of_lt v h
  have hpos : q.addPos < q.data.length := by
    rw [q.data_length]
    exact addPos_lt q h
  rw [toList_eq_ringView, toList_eq_ringView, hs, hn, hc, hd, ringView_succ]
  congr 1
  · -- the older items keep their slots
    refine ringView_of_beyond (m := 1) h fun c hc => ?_
    have hne : c ≠ q.addPos := by
      rw [addPos_eq_mod q h]
      exact hc 0 one_pos
    rw [List.getD_eq_getElem?_getD, List.getD_eq_getElem?_getD, List.getElem?_set_ne hne.symm]
  · rw [← addPos_eq_mod q h, List.getD_eq_getElem?_getD, List.getElem?_set_self hpos]
    rfl

theorem toList_remove (q : Queue) (h : 0 < q.size) :
    q.toList = q.remove.1 :: q.remove.2.toList := by
  have hn := q.next_lt
  obtain ⟨n, hsz⟩ : ∃ n, q.size = n + 1 := ⟨q.size - 1, by omega⟩
  have hnext : q.remove.2.next = (q.next + 1) % q.capacity := by
    unfold remove
    rw [if_pos h]
    exact ring_wrap (by omega)
  have hsize : q.remove.2.size = n := by
    unfold remove
    rw [if_pos h]
    simp only
    omega
  have hval : q.remove.1 = q.data.getD q.next NULL := by unfold remove; rw [if_pos h]
  have hdata : q.remove.2.data = q.data := by unfold remove; rw [if_pos h]
  rw [toList_eq_ringView, toList_eq_ringView, hsz, hsize, hval, hdata, hnext, remove_capacity,
    ringView_cons hn, ringView_mod]

theorem remove_size (q : Queue) (h : 0 < q.size) : q.remove.2.size + 1 = q.size := by
  have := congrArg List.length (toList_remove q h)
  rw [List.length_cons, length_toList, length_toList] at this
  exact this.symm

theorem toList_eq_nil (q : Queue) : q.toList = [] ↔ q.size = 0 := by
  rw [← List.length_eq_zero_iff, length_toList]

theorem peek_eq (q : Queue) : q.peek = q.toList.headD NULL := by
  unfold peek
  by_cases h : q.size = 0
  · rw [if_pos h, (toList_eq_nil q).mpr h]
    rfl
  · obtain ⟨n, hsz⟩ : ∃ n, q.size = n + 1 := ⟨q.size - 1, by omega⟩
    rw [if_neg h, toList_eq_ringView, hsz, ringView_cons q.next_lt]
    rfl

/-- One operation does to the list what it does to the buffer, and returns the same. -/
theorem call_refines (q : Queue) (op : QueueOp) :
    (q.call op).2 = (Bounded.call q.capacity q.toList op).2 ∧
      (q.call op).1.toList = (Bounded.call q.capacity q.toList op).1 ∧ (q.call op).1.capacity = q.capacity := by
  cases op with
  | add v =>
    have hlen := length_toList q
    by_cases h : q.size < q.capacity
    · have hlist : Bounded.call q.capacity q.toList (.add v) = (q.toList ++ [v], .code 0) := if_pos (hlen ▸ h)
      rw [hlist]
      exact ⟨congrArg QueueRet.code (q.add_of_lt v h).2.2.2.2, toList_add q v h, add_capacity q v⟩
    · have hlist : Bounded.call q.capacity q.toList (.add v) = (q.toList, .code (-1)) := if_neg (hlen ▸ h)
      rw [hlist, call, add_of_full q v h]
      exact ⟨rfl, rfl, rfl⟩
  | remove =>
    by_cases h : 0 < q.size
    · have hlist : Bounded.call q.capacity q.toList .remove = (q.remove.2.toList, .item q.remove.1) := by
        rw [toList_remove q h]
        rfl
      rw [hlist]
      exact ⟨rfl, rfl, remove_capacity q⟩
    · have hnil := (toList_eq_nil q).mpr (Nat.eq_zero_of_not_pos h)
      have hempty : q.remove = (NULL, q) := if_neg h
      rw [call, hempty, hnil]
      exact ⟨rfl, rfl, rfl⟩
  | peek => exact ⟨congrArg QueueRet.item (peek_eq q), rfl, rfl⟩

theorem run_refines (q : Queue) (ops : List QueueOp) :
    (q.run ops).2 = (Bounded.run q.capacity q.toList ops).2 ∧
      (q.run ops).1.toList = (Bounded.run q.capacity q.toList ops).1 ∧ (q.run ops).1.capacity = q.capacity := by
  induction ops generalizing q with
  | nil => exact ⟨rfl, rfl, rfl⟩
  | cons op ops ih =>
    obtain ⟨hret, hlist, hcap⟩ := call_refines q op
    obtain ⟨hrets, hlists, hcaps⟩ := ih (q.call op).1
    rw [hcap, hlist] at hrets hlists
    refine ⟨?_, hlists, hcaps.trans hcap⟩
    exact congrArg₂ List.cons hret hrets

def intMax : ℕ := 2147483647

/-- What `queue_init` returns behaves as a list that holds at most `capacity` items, however
often its indices have gone round: it returns what the list returns, an addition that is
refused changes nothing, every index is below the capacity, and no sum leaves `int`. -/
theorem queue_refines_list {capacity : ℕ} (hpos : 1 ≤ capacity) (hle : capacity ≤ queueCapacityMax) :
    ∃ q₀, queueInit capacity = some q₀ ∧ ∀ ops : List QueueOp,
      let q := (q₀.run ops).1
      (q₀.run ops).2 = (Bounded.run capacity [] ops).2 ∧ q.toList = (Bounded.run capacity [] ops).1 ∧
        (∀ v, (q.add v).2 = 0 ↔ q.toList.length < capacity) ∧
        (∀ v, (q.add v).2 ≠ 0 → q.add v = (q, -1)) ∧
        q.next < capacity ∧ (q.toList.length < capacity → q.addPos < capacity) ∧
        q.next + q.size ≤ intMax ∧ q.size + 1 ≤ intMax ∧ q.next + 1 ≤ intMax := by
  have hinit : ∃ q₀, queueInit capacity = some q₀ ∧ q₀.capacity = capacity ∧ q₀.size = 0 := by
    unfold queueInit
    rw [dif_pos ⟨hpos, hle⟩]
    exact ⟨_, rfl, rfl, rfl⟩
  obtain ⟨q₀, h₀, hcap, hsize⟩ := hinit
  refine ⟨q₀, h₀, fun ops => ?_⟩
  obtain ⟨hret, hlist, hcap'⟩ := run_refines q₀ ops
  rw [hcap, (toList_eq_nil q₀).mpr hsize] at hret hlist
  rw [hcap] at hcap'
  generalize (q₀.run ops).1 = q at hlist hcap'
  have hn := q.next_lt
  have hs := q.size_le
  have hm := q.capacity_le
  unfold queueCapacityMax at hm
  refine ⟨hret, hlist, fun v => ?_, fun v hv => ?_, by omega, fun h => ?_, ?_, ?_, ?_⟩
  · rw [length_toList, ← hcap']
    constructor
    · intro h
      by_contra hfull
      rw [add_of_full q v hfull] at h
      exact absurd (show (-1 : ℤ) = 0 from h) (by decide)
    · exact fun h => (q.add_of_lt v h).2.2.2.2
  · refine add_of_full q v fun h => hv (q.add_of_lt v h).2.2.2.2
  · rw [length_toList, ← hcap'] at h
    exact hcap' ▸ addPos_lt q h
  all_goals
    unfold intMax
    omega

/-- Two items go round a buffer of two slots. -/
theorem queue_refines_list_two : ∃ q₀, queueInit 2 = some q₀ ∧
    (q₀.run [.add 5, .add 6, .add 7, .remove, .add 8, .peek, .remove, .remove, .remove]).2 =
      [.code 0, .code 0, .code (-1), .item 5, .code 0, .item 6, .item 6, .item 8, .item NULL] := by
  obtain ⟨q₀, h₀, hall⟩ := @queue_refines_list 2 (by decide) (by decide)
  exact ⟨q₀, h₀, (hall _).1⟩

end Queue
end Lthr

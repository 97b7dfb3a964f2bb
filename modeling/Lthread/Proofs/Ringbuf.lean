import Lthread.Lib.Machine
import Lthread.Spec.Ringbuf

/-! The ring buffer refines a list of bytes, wherever its pointers are. -/

namespace Lthr

theorem ringView_segment {buf : List UInt8} {start n : ℕ} (h : start + n ≤ buf.length) :
    ringView (buf.getD · 0) buf.length start n = (buf.drop start).take n := by
  apply List.ext_getElem?
  intro i
  unfold ringView
  rw [List.getElem?_map]
  by_cases hi : i < n
  · have hlt : start + i < buf.length := by omega
    rw [List.getElem?_range hi, List.getElem?_take_of_lt hi, List.getElem?_drop, Option.map_some, Nat.mod_eq_of_lt hlt]
    simp [List.getElem?_eq_getElem hlt]
  · rw [List.getElem?_eq_none (by simpa using hi), List.getElem?_eq_none (by simp; omega)]
    rfl

namespace Ringbuf

variable {rb dst src : Ringbuf} {bs : List UInt8} {n : ℕ}

theorem Ok.used (h : rb.Ok) : rb.bytesUsed < rb.bufferSize ∧ (rb.tail + rb.bytesUsed) % rb.bufferSize = rb.head := by
  have hh := h.head
  have ht := h.tail
  unfold bytesUsed bytesFree capacity
  by_cases hle : rb.tail ≤ rb.head
  · rw [if_pos hle]
    refine ⟨by omega, ?_⟩
    rw [Nat.mod_eq_of_lt (by omega)]
    omega
  · rw [if_neg hle]
    refine ⟨by omega, ?_⟩
    rw [Nat.mod_eq_sub_mod (by omega), Nat.mod_eq_of_lt (by omega)]
    omega

theorem Ok.used_unique (h : rb.Ok) (hn : n < rb.bufferSize) (hd : (rb.tail + n) % rb.bufferSize = rb.head) :
    rb.bytesUsed = n := by
  obtain ⟨hu, hmod⟩ := h.used
  have heq : rb.tail + rb.bytesUsed ≡ rb.tail + n [MOD rb.bufferSize] := hmod.trans hd.symm
  exact (Nat.ModEq.add_left_cancel' _ heq).eq_of_lt_of_lt hu hn

theorem Ok.free (h : rb.Ok) : rb.bytesFree + rb.bytesUsed + 1 = rb.bufferSize := by
  have hh := h.head
  have ht := h.tail
  unfold bytesUsed bytesFree capacity
  split_ifs <;> omega

@[simp] theorem length_contents (rb : Ringbuf) : rb.contents.length = rb.bytesUsed := length_ringView ..

theorem wrap_eq_mod {p : ℕ} (hp : p ≤ rb.bufferSize) : rb.wrap p = p % rb.bufferSize := by
  unfold wrap
  split_ifs with he
  · rw [he, Nat.mod_self]
  · rw [Nat.mod_eq_of_lt (by omega)]

theorem wrap_lt (h : rb.Ok) {p : ℕ} (hp : p ≤ rb.bufferSize) : rb.wrap p < rb.bufferSize := by
  have hh := h.head
  unfold wrap
  split_ifs <;> omega

structure Put (rb : Ringbuf) (bs : List UInt8) (rb' : Ringbuf) : Prop where
  ok : rb'.Ok
  size : rb'.bufferSize = rb.bufferSize
  contents : rb'.contents = rb.contents ++ bs

structure Taken (rb : Ringbuf) (bs : List UInt8) (rb' : Ringbuf) : Prop where
  ok : rb'.Ok
  size : rb'.bufferSize = rb.bufferSize
  contents : rb.contents = bs ++ rb'.contents

theorem Put.used {rb' : Ringbuf} (h : Put rb bs rb') : rb'.bytesUsed = rb.bytesUsed + bs.length := by
  have hlen := congrArg List.length h.contents
  rwa [List.length_append, length_contents, length_contents] at hlen

theorem Taken.used {rb' : Ringbuf} (h : Taken rb bs rb') : rb.bytesUsed = bs.length + rb'.bytesUsed := by
  have hlen := congrArg List.length h.contents
  rwa [List.length_append, length_contents, length_contents] at hlen

theorem Put.nil (h : rb.Ok) : Put rb [] rb := ⟨h, rfl, (List.append_nil _).symm⟩

theorem Put.trans {rb' rb'' : Ringbuf} {cs : List UInt8} (h1 : Put rb bs rb') (h2 : Put rb' cs rb'') :
    Put rb (bs ++ cs) rb'' :=
  ⟨h2.ok, h2.size.trans h1.size, by rw [h2.contents, h1.contents, List.append_assoc]⟩

theorem Taken.nil (h : rb.Ok) : Taken rb [] rb := ⟨h, rfl, rfl⟩

theorem Taken.trans {rb' rb'' : Ringbuf} {cs : List UInt8} (h1 : Taken rb bs rb') (h2 : Taken rb' cs rb'') :
    Taken rb (bs ++ cs) rb'' :=
  ⟨h2.ok, h2.size.trans h1.size, by rw [h1.contents, h2.contents, List.append_assoc]⟩

theorem Ok.put (h : rb.Ok) (bs : List UInt8) (hend : rb.head + bs.length ≤ rb.bufferSize) (hfit : rb.bytesUsed + bs.length < rb.bufferSize) :
    ∃ buf, copyTo rb.buf rb.head bs = .ok buf ∧
      Put rb bs { rb with buf := buf, head := rb.wrap (rb.head + bs.length) } := by
  have hblit : blit rb.buf rb.head bs = some _ := blit_of_le hend
  generalize rb.buf.take rb.head ++ bs ++ rb.buf.drop (rb.head + bs.length) = buf at hblit
  refine ⟨buf, by rw [copyTo, hblit], ?_⟩
  have hsize : buf.length = rb.bufferSize := length_blit hblit
  obtain ⟨hu, hhead⟩ := h.used
  have hok : Ok { rb with buf := buf, head := rb.wrap (rb.head + bs.length) } := by
    refine ⟨?_, ?_⟩
    · exact (wrap_lt h hend).trans_eq hsize.symm
    · exact h.tail.trans_eq hsize.symm
  have hused : bytesUsed { rb with buf := buf, head := rb.wrap (rb.head + bs.length) } = rb.bytesUsed + bs.length := by
    apply hok.used_unique
    · exact hfit.trans_eq hsize.symm
    · change (rb.tail + (rb.bytesUsed + bs.length)) % buf.length = rb.wrap (rb.head + bs.length)
      rw [hsize, wrap_eq_mod hend, ← Nat.add_assoc, ← Nat.mod_add_mod, hhead]
  refine ⟨hok, hsize, ?_⟩
  unfold contents
  rw [hused]
  change ringView (buf.getD · 0) buf.length rb.tail (rb.bytesUsed + bs.length) = _
  rw [ringView_add]
  congr 1
  · -- the cells read before are not among those written
    rw [hsize]
    refine ringView_of_beyond (m := bs.length) hfit.le fun c hc => ?_
    have hout : c < rb.head ∨ rb.head + bs.length ≤ c := by
      by_contra hin
      refine hc (c - rb.head) (by omega) ?_
      rw [← Nat.mod_add_mod, hhead, Nat.mod_eq_of_lt (by omega)]
      omega
    simp only [List.getD_eq_getElem?_getD, blit_outside hblit hout]
  · rw [← ringView_mod, hsize, hhead, ← hsize, ringView_segment (hend.trans_eq hsize.symm)]
    apply List.ext_getElem?
    intro i
    by_cases hi : i < bs.length
    · rw [List.getElem?_take_of_lt hi, List.getElem?_drop, blit_inside hblit hi]
    · rw [List.getElem?_eq_none (by simp; omega), List.getElem?_eq_none (by omega)]

theorem Ok.take (h : rb.Ok) (hend : rb.tail + n ≤ rb.bufferSize) (hn : n ≤ rb.bytesUsed) :
    Taken rb ((rb.buf.drop rb.tail).take n) { rb with tail := rb.wrap (rb.tail + n) } := by
  obtain ⟨hu, hhead⟩ := h.used
  have hok : Ok { rb with tail := rb.wrap (rb.tail + n) } := ⟨h.head, wrap_lt h hend⟩
  have hused : bytesUsed { rb with tail := rb.wrap (rb.tail + n) } = rb.bytesUsed - n := by
    apply hok.used_unique
    · exact lt_of_le_of_lt (Nat.sub_le _ _) hu
    · change (rb.wrap (rb.tail + n) + (rb.bytesUsed - n)) % rb.bufferSize = rb.head
      rw [wrap_eq_mod hend, Nat.mod_add_mod, Nat.add_assoc, Nat.add_sub_cancel' hn, hhead]
  refine ⟨hok, rfl, ?_⟩
  unfold contents
  rw [hused]
  change _ = _ ++ ringView (rb.buf.getD · 0) rb.bufferSize (rb.wrap (rb.tail + n)) (rb.bytesUsed - n)
  rw [wrap_eq_mod hend, ringView_mod, ← ringView_segment hend]
  rw [← Nat.add_sub_cancel' hn, ringView_add, Nat.add_sub_cancel' hn]
  rfl

/-! `ringbuf_memcpy_into` -/

theorem memcpyIntoLoop_ok (bytes : List UInt8) (rounds nread : ℕ) (h : rb.Ok) (hr : bytes.length < nread + rounds)
    (hn : nread ≤ bytes.length) (hfit : rb.bytesUsed + (bytes.length - nread) < rb.bufferSize) :
    ∃ rb', memcpyIntoLoop bytes rounds rb nread = .ok rb' ∧ Put rb (bytes.drop nread) rb' := by
  induction rounds generalizing rb nread with
  | zero => omega
  | succ rounds ih =>
    rw [memcpyIntoLoop]
    by_cases hend : nread = bytes.length
    · rw [if_pos hend, hend, List.drop_length]
      exact ⟨rb, rfl, Put.nil h⟩
    · have hhead := h.head
      have hcheck : check (rb.head < rb.bufferSize) = .ok () := if_pos hhead
      rw [if_neg hend, hcheck]
      simp only [except_ok_bind]
      generalize hk : min (rb.bufferSize - rb.head) (bytes.length - nread) = k
      have hlen : ((bytes.drop nread).take k).length = k := by
        rw [List.length_take, List.length_drop]
        omega
      obtain ⟨buf, hbuf, hput⟩ := h.put ((bytes.drop nread).take k) (by omega) (by omega)
      rw [hlen] at hput
      have hused := hput.used
      have hsize := hput.size
      rw [hlen] at hused
      obtain ⟨rb', hrun, hrest⟩ := ih (nread + k) hput.ok (by omega) (by omega) (by omega)
      refine ⟨rb', ?_, ?_⟩
      · rw [hbuf]
        exact hrun
      · have htrans := hput.trans hrest
        rwa [← List.drop_drop, List.take_append_drop] at htrans

theorem memcpyInto_ok (bytes : List UInt8) (h : rb.Ok) (hfree : bytes.length ≤ rb.bytesFree) :
    ∃ rb', rb.memcpyInto bytes = .ok rb' ∧ Put rb bytes rb' := by
  have hsum := h.free
  obtain ⟨rb', hrun, hput⟩ := memcpyIntoLoop_ok bytes (bytes.length + 1) 0 h (by omega)
    (by omega) (by omega)
  refine ⟨rb', ?_, hput⟩
  have hno : decide (rb.bytesFree < bytes.length) = false := decide_eq_false (by omega)
  unfold memcpyInto
  rw [hno, hrun]
  rfl

/-! `ringbuf_copy` -/

/-- Each round copies up to the end of one of the two blocks or to the end of the count. -/
theorem copyLoop_ok (count rounds ncopied : ℕ) (hd : dst.Ok) (hs : src.Ok) (hr : count < ncopied + rounds)
    (hn : ncopied ≤ count) (hsrc : count - ncopied ≤ src.bytesUsed)
    (hfit : dst.bytesUsed + (count - ncopied) < dst.bufferSize) :
    ∃ dst' src' bs, copyLoop count rounds dst src ncopied = .ok (dst', src') ∧ bs.length = count - ncopied ∧
      Put dst bs dst' ∧ Taken src bs src' := by
  induction rounds generalizing dst src ncopied with
  | zero => omega
  | succ rounds ih =>
    rw [copyLoop]
    by_cases hend : ncopied = count
    · rw [if_pos hend]
      exact ⟨dst, src, [], rfl, by rw [hend, Nat.sub_self]; rfl, Put.nil hd, Taken.nil hs⟩
    · have hhead := hd.head
      have htail := hs.tail
      have hcheck1 : check (src.tail < src.bufferSize) = .ok () := if_pos htail
      have hcheck2 : check (dst.head < dst.bufferSize) = .ok () := if_pos hhead
      rw [if_neg hend, hcheck1]
      simp only [except_ok_bind]
      rw [hcheck2]
      simp only [except_ok_bind]
      generalize hk : min (dst.bufferSize - dst.head) (min (src.bufferSize - src.tail) (count - ncopied)) = k
      have hlen : ((src.buf.drop src.tail).take k).length = k := by
        have hsz : src.buf.length = src.bufferSize := rfl
        rw [List.length_take, List.length_drop]
        omega
      have htaken := hs.take (n := k) (by omega) (by omega)
      obtain ⟨buf, hbuf, hput⟩ := hd.put ((src.buf.drop src.tail).take k) (by omega) (by omega)
      rw [hlen] at hput
      have hused := hput.used
      have hsize := hput.size
      have hused' := htaken.used
      rw [hlen] at hused hused'
      obtain ⟨dst', src', bs, hrun, hbs, hput', htaken'⟩ :=
        ih (ncopied + k) hput.ok htaken.ok (by omega) (by omega) (by omega) (by omega)
      refine ⟨dst', src', (src.buf.drop src.tail).take k ++ bs, ?_, ?_, hput.trans hput', htaken.trans htaken'⟩
      · rw [hbuf]
        exact hrun
      · rw [List.length_append, hlen, hbs]
        omega

theorem copy_all (hd : dst.Ok) (hs : src.Ok) (hfree : src.bytesUsed ≤ dst.bytesFree) :
    ∃ dst' src', copy dst src src.bytesUsed = .ok (dst', src') ∧ Put dst src.contents dst' := by
  have hsum := hd.free
  obtain ⟨dst', src', bs, hrun, hbs, hput, htaken⟩ :=
    copyLoop_ok src.bytesUsed (src.bytesUsed + 1) 0 hd hs (by omega) (by omega)
      (by omega) (by omega)
  have hused := htaken.used
  have hbytes : bs = src.contents := by
    have hnil : src'.contents = [] := by
      rw [← List.length_eq_zero_iff, length_contents]
      omega
    rw [htaken.contents, hnil, List.append_nil]
  refine ⟨dst', src', ?_, hbytes ▸ hput⟩
  have hno : decide (dst.bytesFree < src.bytesUsed) = false := decide_eq_false (by omega)
  have hcheck : check (src.bytesUsed + src'.bytesUsed = src.bytesUsed) = .ok () := if_pos (by omega)
  unfold copy
  rw [if_neg (lt_irrefl _), hno, hrun]
  simp only [except_ok_bind]
  rw [hcheck]
  rfl

/-! `ringbuf_append_into` -/

theorem new_ok {malloc : ℕ → Option (List UInt8)} (hm : Allocates malloc) {capacity : ℕ} (h : capacity + 1 < 2 ^ 64) :
    ∃ rb, new malloc capacity = some rb ∧ rb.Ok ∧ rb.bufferSize = capacity + 1 ∧ rb.contents = [] := by
  obtain ⟨buf, hbuf, hlen⟩ := hm (capacity + 1)
  refine ⟨{ buf := buf, head := 0, tail := 0 }, ?_, ⟨?_, ?_⟩, hlen, ?_⟩
  · rw [new, Nat.mod_eq_of_lt h, hbuf]
    rfl
  · exact (Nat.succ_pos capacity).trans_eq hlen.symm
  · exact (Nat.succ_pos capacity).trans_eq hlen.symm
  · rw [← List.length_eq_zero_iff, length_contents]
    simp [bytesUsed, bytesFree]

/-- The new bytes come behind the old ones, in a larger buffer if they do not fit. No
assertion fails on the way. -/
theorem append_never_drops {malloc : ℕ → Option (List UInt8)} (hm : Allocates malloc) (h : rb.Ok) (bytes : List UInt8)
    (hsize : 2 * rb.capacity + bytes.length + 1 < 2 ^ 64) :
    ∃ rb', rb.appendInto malloc bytes = .ok rb' ∧ rb'.Ok ∧ rb'.contents = rb.contents ++ bytes ∧
      rb'.capacity = if bytes.length ≤ rb.bytesFree then rb.capacity else 2 * rb.capacity + bytes.length := by
  have hsum := h.free
  have hcap : rb.capacity = rb.bufferSize - 1 := rfl
  unfold appendInto
  by_cases hfree : rb.bytesFree < bytes.length
  · rw [if_pos hfree, if_neg (not_le.mpr hfree)]
    have hmod : ((rb.bufferSize - 1) * 2 + bytes.length) % 2 ^ 64 = 2 * rb.capacity + bytes.length := by
      rw [Nat.mod_eq_of_lt (by omega), hcap, Nat.mul_comm]
    obtain ⟨new, hnew, hok, hnsize, hempty⟩ := new_ok hm hsize
    have hnused : new.bytesUsed = 0 := by rw [← length_contents, hempty]; rfl
    have hnsum := hok.free
    rw [hmod, hnew]
    obtain ⟨new', src', hcopy, hput⟩ := copy_all hok h (by omega)
    have hused := hput.used
    have hsum' := hput.ok.free
    have hsz := hput.size
    rw [length_contents] at hused
    obtain ⟨rb', hrun, hput'⟩ := memcpyInto_ok bytes hput.ok (by omega)
    have hsz' := hput'.size
    refine ⟨rb', ?_, hput'.ok, ?_, ?_⟩
    · simp only [hcopy]
      exact hrun
    · rw [hput'.contents, hput.contents, hempty, List.nil_append]
    · have hcap' : rb'.capacity = rb'.bufferSize - 1 := rfl
      omega
  · rw [if_neg hfree, if_pos (not_lt.mp hfree)]
    obtain ⟨rb', hrun, hput⟩ := memcpyInto_ok bytes h (not_lt.mp hfree)
    refine ⟨rb', hrun, hput.ok, hput.contents, ?_⟩
    unfold capacity
    rw [hput.size]

/-- A full buffer of three bytes whose content wraps. -/
theorem append_never_drops_wrapped :
    ∃ rb', (⟨[3, 0, 1, 2], 1, 2⟩ : Ringbuf).appendInto (fun n => some (List.replicate n 7)) [4, 5] = .ok rb' ∧
      rb'.contents = [1, 2, 3, 4, 5] ∧ rb'.capacity = 8 := by
  obtain ⟨rb', hrun, -, hcontents, hcap⟩ := @append_never_drops ⟨[3, 0, 1, 2], 1, 2⟩
    (fun n => some (List.replicate n 7)) (fun n => ⟨_, rfl, List.length_replicate⟩)
    ⟨by decide, by decide⟩ [4, 5] (by decide)
  exact ⟨rb', hrun, hcontents, hcap⟩

end Ringbuf
end Lthr

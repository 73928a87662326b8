import Mathlib.Data.List.TakeWhile
import SevlaMq.Lib.Run
import SevlaMq.Storage.PartitionLog

/-!
# What the segments of a log hold

The files, lengths and indexes of a partition log are a function of the records in it and of the
places where it rotated.

* `frames`, `sparseIndex` — the encodings of consecutive records and the index over them.
* `Holds`, `Covers` — a segment, and a list of segments, hold given chunks of records.
* `images` — what the segments that hold records look like from outside.
* `readSegments_covers` — the loops of `read`, index and all, are a scan of the records held.
-/

set_option autoImplicit false

namespace SevlaMq.Storage

/-! ## The sparse index -/

/-- The number of bytes the records take. -/
def totalSize (rs : List Record) : Nat := (rs.map encodedSize).sum

theorem totalSize_eq_zero {rs : List Record} : totalSize rs = 0 ↔ rs = [] := by
  cases rs with
  | nil => simp [totalSize]
  | cons r rs => simp [totalSize, encodedSize, LENGTH_SIZE]

theorem totalSize_append (rs rs' : List Record) :
    totalSize (rs ++ rs') = totalSize rs + totalSize rs' := by
  rw [totalSize, List.map_append, List.sum_append]; rfl

theorem totalSize_take_le (rs : List Record) (k : Nat) : totalSize (rs.take k) ≤ totalSize rs := by
  conv_rhs => rw [← List.take_append_drop k rs, totalSize_append]
  exact Nat.le_add_right _ _

/-- The index after the records `rs`, from `offset` at `position` on, were added. -/
def indexAll (interval : Nat) : List IndexEntry → Nat → Nat → List Record → List IndexEntry
  | index, _, _, [] => index
  | index, offset, position, r :: rs =>
    indexAll interval (indexRecord interval index offset position) (offset + 1)
      (position + encodedSize r) rs

def sparseIndex (interval base : Nat) (rs : List Record) : List IndexEntry :=
  indexAll interval [] base 0 rs

theorem indexAll_concat (interval : Nat) (index : List IndexEntry) (offset position : Nat)
    (rs : List Record) (r : Record) :
    indexAll interval index offset position (rs ++ [r]) =
      indexRecord interval (indexAll interval index offset position rs) (offset + rs.length)
        (position + totalSize rs) := by
  induction rs generalizing index offset position with
  | nil => simp [indexAll, totalSize]
  | cons x rs ih =>
    simp only [List.cons_append, indexAll, ih, List.length_cons, totalSize, List.map_cons,
      List.sum_cons]
    rw [Nat.add_assoc offset, Nat.add_comm 1, Nat.add_assoc position]

/-- Every entry points at the first byte of the record with its offset. -/
theorem mem_indexAll {interval : Nat} {index : List IndexEntry} {offset position : Nat}
    {rs : List Record} {e : IndexEntry} (h : e ∈ indexAll interval index offset position rs) :
    e ∈ index ∨ ∃ k < rs.length, e.offset = offset + k ∧
      e.position = position + totalSize (rs.take k) := by
  induction rs generalizing index offset position with
  | nil => exact Or.inl h
  | cons r rs ih =>
    rcases ih h with h | ⟨k, hk, ho, hp⟩
    · unfold indexRecord at h
      split at h
      · rcases List.mem_append.1 h with h | h
        · exact Or.inl h
        · cases List.mem_singleton.1 h
          exact Or.inr ⟨0, Nat.succ_pos _, rfl, rfl⟩
      · exact Or.inl h
    · refine Or.inr ⟨k + 1, Nat.succ_lt_succ hk, by omega, ?_⟩
      rw [hp, List.take_succ_cons]
      simp only [totalSize, List.map_cons, List.sum_cons]
      omega

theorem mem_sparseIndex {interval base : Nat} {rs : List Record} {e : IndexEntry}
    (h : e ∈ sparseIndex interval base rs) :
    ∃ k < rs.length, e.offset = base + k ∧ e.position = totalSize (rs.take k) := by
  rcases mem_indexAll h with h | ⟨k, hk, ho, hp⟩
  · exact absurd h List.not_mem_nil
  · exact ⟨k, hk, ho, by simpa using hp⟩

/-- Base offset, length and index of the segments that hold records. -/
def images (segments : List SegmentMetadata) : List (Nat × Nat × List IndexEntry) :=
  (segments.filter (·.len ≠ 0)).map fun s => (s.baseOffset, s.len, s.index)

/-- What `images` gives for chunks of records. -/
def chunkImages (interval : Nat) : Nat → List (List Record) → List (Nat × Nat × List IndexEntry)
  | _, [] => []
  | base, rs :: chunks =>
    if rs = [] then chunkImages interval base chunks
    else (base, totalSize rs, sparseIndex interval base rs) ::
      chunkImages interval (base + rs.length) chunks

theorem chunkImages_nil (interval base : Nat) (chunks : List (List Record)) :
    chunkImages interval base (chunks ++ [[]]) = chunkImages interval base chunks := by
  induction chunks generalizing base with
  | nil => rfl
  | cons rs chunks ih => simp only [List.cons_append, chunkImages, ih]

/-! ## What a read collects -/

/-- What the loops of `read` make of the records they find. -/
def collect (maxBytes : Nat) :
    List StoredRecord → Nat → List StoredRecord → Bool × List StoredRecord × Nat
  | records, bytesRead, [] => (false, records, bytesRead)
  | records, bytesRead, s :: ss =>
    if records ≠ [] ∧ maxBytes < saturatingAdd bytesRead (encodedSize s.toRecord) then
      (true, records, bytesRead)
    else collect maxBytes (records ++ [s]) (saturatingAdd bytesRead (encodedSize s.toRecord)) ss

theorem collect_append (maxBytes : Nat) (records : List StoredRecord) (bytesRead : Nat)
    (ss ss' : List StoredRecord) :
    collect maxBytes records bytesRead (ss ++ ss') =
      match collect maxBytes records bytesRead ss with
      | (true, r, b) => (true, r, b)
      | (false, r, b) => collect maxBytes r b ss' := by
  induction ss generalizing records bytesRead with
  | nil => rfl
  | cons s ss ih =>
    simp only [List.cons_append, collect]
    split
    · rfl
    · exact ih _ _

theorem collect_within (maxBytes : Nat) {records : List StoredRecord} (h : records ≠ [])
    (bytesRead : Nat) (ss : List StoredRecord) :
    (collect maxBytes records bytesRead ss).2.1 = records ++ takeWithin maxBytes bytesRead ss := by
  induction ss generalizing records bytesRead with
  | nil => simp [collect, takeWithin]
  | cons s ss ih =>
    simp only [collect, takeWithin]
    by_cases hfull : maxBytes < saturatingAdd bytesRead (encodedSize s.toRecord)
    · rw [if_pos ⟨h, hfull⟩, if_pos hfull, List.append_nil]
    · rw [if_neg (fun hc => hfull hc.2), if_neg hfull, ih (List.append_ne_nil_of_right_ne_nil _
        (List.cons_ne_nil _ _)), List.append_assoc]
      rfl

theorem collect_budget (maxBytes : Nat) (ss : List StoredRecord) :
    (collect maxBytes [] 0 ss).2.1 = takeBudget maxBytes ss := by
  cases ss with
  | nil => rfl
  | cons s ss =>
    rw [collect, if_neg (fun hc => hc.1 rfl), List.nil_append,
      collect_within maxBytes (List.cons_ne_nil _ _)]
    rfl

/-- The stored records from `offset` on. -/
def fromOffset (offset : Nat) (ss : List StoredRecord) : List StoredRecord :=
  ss.filter fun s => offset ≤ s.offset

theorem fromOffset_cons (offset : Nat) (s : StoredRecord) (ss : List StoredRecord) :
    fromOffset offset (s :: ss) =
      if offset ≤ s.offset then s :: fromOffset offset ss else fromOffset offset ss := by
  simp only [fromOffset, List.filter_cons, decide_eq_true_eq]

theorem fromOffset_append (offset : Nat) (ss ss' : List StoredRecord) :
    fromOffset offset (ss ++ ss') = fromOffset offset ss ++ fromOffset offset ss' :=
  List.filter_append ..

theorem fromOffset_eq_drop (offset base : Nat) (rs : List Record) :
    fromOffset offset (storedFrom base rs) = (storedFrom base rs).drop (offset - base) := by
  induction rs generalizing base with
  | nil => simp [fromOffset, storedFrom]
  | cons r rs ih =>
    rw [storedFrom, fromOffset_cons, ih (base + 1)]
    rcases Nat.lt_or_ge (r.at base).offset offset with hlt | hle
    · rw [if_neg (Nat.not_le.2 hlt)]
      rw [Record.at_offset] at hlt
      rw [show offset - base = offset - (base + 1) + 1 by omega]
      rfl
    · rw [if_pos hle]
      rw [Record.at_offset] at hle
      rw [show offset - base = 0 by omega, show offset - (base + 1) = 0 by omega]
      rfl

/-- Nothing is found below the requested offset. -/
theorem fromOffset_below {offset base : Nat} {rs : List Record} (h : base + rs.length ≤ offset) :
    fromOffset offset (storedFrom base rs) = [] := by
  rw [fromOffset_eq_drop, List.drop_eq_nil_of_le]
  rw [storedFrom_length]
  omega

/-- Records below the requested offset may be skipped. -/
theorem fromOffset_skip {offset base k : Nat} {rs : List Record} (hk : k ≤ rs.length)
    (h : k = 0 ∨ base + k ≤ offset) :
    fromOffset offset (storedFrom base rs) =
      fromOffset offset (storedFrom (base + k) (rs.drop k)) := by
  have hsplit : storedFrom base rs =
      storedFrom base (rs.take k) ++ storedFrom (base + k) (rs.drop k) := by
    conv_lhs => rw [← List.take_append_drop k rs, storedFrom_append, List.length_take_of_le hk]
  rw [hsplit, fromOffset_append]
  rcases h with rfl | h
  · rfl
  · rw [fromOffset_below (by rw [List.length_take_of_le hk]; exact h), List.nil_append]

/-! ## Frames -/

variable [Checksum]

theorem recordBytes_length (r : Record) (offset : Nat) :
    (recordBytes r offset).length = encodedSize r := by
  simp [recordBytes, encodeBody_length, encodedSize, LENGTH_SIZE, CRC_SIZE]

theorem encodeRecord_checked {r : Record} (h : checkRecord r = .ok ()) (offset : Nat) :
    encodeRecord r offset = .ok (recordBytes r offset) := by
  rw [encodeRecord, h]

/-- The records `rs` from offset `base` on, with their encodings. -/
def frames : Nat → List Record → List (StoredRecord × Bytes)
  | _, [] => []
  | base, r :: rs => (r.at base, recordBytes r base) :: frames (base + 1) rs

def segmentBytes (base : Nat) (rs : List Record) : Bytes := concatFrames (frames base rs)

theorem frames_length (base : Nat) (rs : List Record) : (frames base rs).length = rs.length := by
  induction rs generalizing base with
  | nil => rfl
  | cons r rs ih => simp [frames, ih]

theorem frames_take (base : Nat) (rs : List Record) (k : Nat) :
    (frames base rs).take k = frames base (rs.take k) := by
  induction rs generalizing base k with
  | nil => simp [frames]
  | cons r rs ih =>
    cases k with
    | zero => rfl
    | succ k => simp [frames, ih]

theorem frames_append (base : Nat) (rs rs' : List Record) :
    frames base (rs ++ rs') = frames base rs ++ frames (base + rs.length) rs' := by
  induction rs generalizing base with
  | nil => rfl
  | cons r rs ih => simp [frames, ih, Nat.add_assoc, Nat.add_comm 1]

@[simp] theorem segmentBytes_nil (base : Nat) : segmentBytes base [] = [] := rfl

theorem segmentBytes_cons (base : Nat) (r : Record) (rs : List Record) :
    segmentBytes base (r :: rs) = recordBytes r base ++ segmentBytes (base + 1) rs := by
  simp [segmentBytes, frames]

theorem segmentBytes_append (base : Nat) (rs rs' : List Record) :
    segmentBytes base (rs ++ rs') = segmentBytes base rs ++ segmentBytes (base + rs.length) rs' := by
  simp [segmentBytes, frames_append]

theorem segmentBytes_length (base : Nat) (rs : List Record) :
    (segmentBytes base rs).length = totalSize rs := by
  induction rs generalizing base with
  | nil => rfl
  | cons r rs ih => simp [segmentBytes_cons, recordBytes_length, ih, totalSize]

theorem frames_isFrame {base : Nat} {rs : List Record} (hc : ∀ r ∈ rs, checkRecord r = .ok ())
    (hb : base + rs.length ≤ U64_MAX) :
    ∀ f ∈ frames base rs, IsFrame decodeRecord f.1 f.2 := by
  induction rs generalizing base with
  | nil => exact fun f hf => absurd hf List.not_mem_nil
  | cons r rs ih =>
    intro f hf
    rw [List.length_cons] at hb
    rcases List.mem_cons.1 hf with rfl | hf
    · refine encodeRecord_isFrame ?_ (encodeRecord_checked (hc r List.mem_cons_self) base)
      simp only [U64_MAX] at hb
      omega
    · exact ih (fun x hx => hc x (List.mem_cons_of_mem _ hx)) (by omega) f hf

/-! ## Segments and chunks -/

/-- The segment holds the records `rs` from offset `base` on. -/
structure Holds (interval base : Nat) (rs : List Record) (s : SegmentMetadata) : Prop where
  baseOffset : s.baseOffset = base
  bytes : s.file.bytes = segmentBytes base rs
  len : s.len = totalSize rs
  index : s.index = sparseIndex interval base rs

/-- The segments hold the chunks, one each, from offset `base` on. -/
inductive Covers (interval : Nat) : Nat → List (List Record) → List SegmentMetadata → Prop
  | nil {base : Nat} : Covers interval base [] []
  | cons {base : Nat} {rs : List Record} {chunks : List (List Record)} {s : SegmentMetadata}
      {segments : List SegmentMetadata} (head : Holds interval base rs s)
      (tail : Covers interval (base + rs.length) chunks segments) :
      Covers interval base (rs :: chunks) (s :: segments)

theorem Holds.new (interval base : Nat) : Holds interval base [] (.new base) := ⟨rfl, rfl, rfl, rfl⟩

namespace Covers

variable {interval base : Nat}

theorem append {chunks chunks' : List (List Record)} {ss ss' : List SegmentMetadata}
    (h : Covers interval base chunks ss)
    (h' : Covers interval (base + chunks.flatten.length) chunks' ss') :
    Covers interval base (chunks ++ chunks') (ss ++ ss') := by
  induction h with
  | nil => simpa using h'
  | cons head tail ih =>
    refine .cons head (ih ?_)
    rw [List.flatten_cons, List.length_append, ← Nat.add_assoc] at h'
    exact h'

theorem split {chunks chunks' : List (List Record)} {ss : List SegmentMetadata}
    (h : Covers interval base (chunks ++ chunks') ss) :
    ∃ ss₁ ss₂, ss = ss₁ ++ ss₂ ∧ Covers interval base chunks ss₁ ∧
      Covers interval (base + chunks.flatten.length) chunks' ss₂ := by
  induction chunks generalizing base ss with
  | nil => exact ⟨[], ss, rfl, .nil, by simpa using h⟩
  | cons rs chunks ih =>
    cases h with
    | cons head tail =>
      obtain ⟨ss₁, ss₂, rfl, h₁, h₂⟩ := ih tail
      refine ⟨_ :: ss₁, ss₂, rfl, .cons head h₁, ?_⟩
      rw [List.flatten_cons, List.length_append, ← Nat.add_assoc]
      exact h₂

/-- The last chunk is in the last segment. -/
theorem last {chunks : List (List Record)} {rs : List Record} {ss : List SegmentMetadata}
    (h : Covers interval base (chunks ++ [rs]) ss) :
    ∃ closed active, ss = closed ++ [active] ∧ Covers interval base chunks closed ∧
      Holds interval (base + chunks.flatten.length) rs active := by
  obtain ⟨closed, ss₂, rfl, h₁, h₂⟩ := h.split
  cases h₂ with
  | cons head tail =>
    cases tail with
    | nil => exact ⟨closed, _, rfl, h₁, head⟩

theorem concat {chunks : List (List Record)} {rs : List Record} {closed : List SegmentMetadata}
    {active : SegmentMetadata} (h : Covers interval base chunks closed)
    (ha : Holds interval (base + chunks.flatten.length) rs active) :
    Covers interval base (chunks ++ [rs]) (closed ++ [active]) := h.append (.cons ha .nil)

end Covers

theorem Covers.images {interval base : Nat} {chunks : List (List Record)}
    {ss : List SegmentMetadata} (h : Covers interval base chunks ss) :
    Storage.images ss = chunkImages interval base chunks := by
  induction h with
  | nil => rfl
  | @cons base rs chunks s ss head tail ih =>
    rw [chunkImages, ← ih]
    by_cases hrs : rs = []
    · subst hrs
      rw [if_pos rfl, show chunkImages interval base chunks = Storage.images ss from ih.symm]
      simp [Storage.images, head.len, totalSize]
    · simp [Storage.images, head.len, totalSize_eq_zero, hrs, head.baseOffset, head.index]

/-! ## Reading -/

theorem readBuffer_frames {offset maxBytes base : Nat} {rs : List Record}
    (hc : ∀ r ∈ rs, checkRecord r = .ok ()) (hb : base + rs.length ≤ U64_MAX) {fuel : Nat}
    (hfuel : rs.length < fuel) (records : List StoredRecord) (bytesRead : Nat) :
    PartitionLog.readBuffer offset maxBytes fuel records bytesRead (segmentBytes base rs) =
      .ok (collect maxBytes records bytesRead (fromOffset offset (storedFrom base rs))) := by
  induction rs generalizing base fuel records bytesRead with
  | nil =>
    obtain ⟨n, rfl⟩ : ∃ n, fuel = n + 1 := ⟨fuel - 1, by simp at hfuel; omega⟩
    rfl
  | cons r rs ih =>
    rw [List.length_cons] at hb hfuel
    obtain ⟨n, rfl⟩ : ∃ n, fuel = n + 1 := ⟨fuel - 1, by omega⟩
    have hframe := @frames_isFrame _ base (r :: rs) hc (by rw [List.length_cons]; exact hb) _
      List.mem_cons_self
    have hdec := hframe.complete (segmentBytes (base + 1) rs)
    have hne : recordBytes r base ++ segmentBytes (base + 1) rs ≠ [] := fun h =>
      hframe.ne_nil (List.append_eq_nil_iff.1 h).1
    have hsize : (recordBytes r base ++ segmentBytes (base + 1) rs).length -
        (segmentBytes (base + 1) rs).length = encodedSize r := by
      rw [List.length_append, recordBytes_length]; omega
    have ih' := fun records bytesRead => ih (fun x hx => hc x (List.mem_cons_of_mem _ hx))
      (show base + 1 + rs.length ≤ U64_MAX by omega) (show rs.length < n by omega) records bytesRead
    rw [segmentBytes_cons, PartitionLog.readBuffer, if_neg hne, hdec]
    rw [storedFrom, fromOffset_cons]
    simp only [hsize]
    rcases Nat.lt_or_ge (r.at base).offset offset with hlt | hle
    · rw [if_pos hlt, if_neg (Nat.not_le.2 hlt), ih']
    · rw [if_neg (Nat.not_lt.2 hle), if_pos hle, collect, Record.toRecord_at]
      split
      · rfl
      · exact ih' _ _

/-- A read starts at the beginning of a record not beyond the requested offset. -/
theorem Holds.seek {interval base : Nat} {rs : List Record} {s : SegmentMetadata}
    (h : Holds interval base rs s) (offset : Nat) :
    ∃ k ≤ rs.length, (k = 0 ∨ base + k ≤ offset) ∧ s.seek offset = totalSize (rs.take k) := by
  unfold SegmentMetadata.seek
  cases he : (s.index.takeWhile (·.offset ≤ offset)).getLast? with
  | none => exact ⟨0, Nat.zero_le _, Or.inl rfl, rfl⟩
  | some e =>
    have hmem := List.mem_of_getLast? he
    have hle : e.offset ≤ offset := by simpa using List.mem_takeWhile_imp hmem
    have hin : e ∈ s.index := (List.takeWhile_subset _) hmem
    rw [h.index] at hin
    obtain ⟨k, hk, ho, hp⟩ := mem_sparseIndex hin
    exact ⟨k, Nat.le_of_lt hk, Or.inr (by omega), hp⟩

theorem Holds.buffer {interval base : Nat} {rs : List Record} {s : SegmentMetadata}
    (h : Holds interval base rs s) {k : Nat} (hk : k ≤ rs.length) :
    s.file.bytes.drop (totalSize (rs.take k)) = segmentBytes (base + k) (rs.drop k) := by
  have hsplit : segmentBytes base rs =
      segmentBytes base (rs.take k) ++ segmentBytes (base + k) (rs.drop k) := by
    conv_lhs => rw [← List.take_append_drop k rs, segmentBytes_append, List.length_take_of_le hk]
  rw [h.bytes, hsplit, List.drop_left' (segmentBytes_length _ _)]

theorem readSegments_covers {offset maxBytes interval base : Nat} {chunks : List (List Record)}
    {ss : List SegmentMetadata} (h : Covers interval base chunks ss)
    (hc : ∀ r ∈ chunks.flatten, checkRecord r = .ok ())
    (hb : base + chunks.flatten.length ≤ U64_MAX) (records : List StoredRecord) (bytesRead : Nat) :
    PartitionLog.readSegments offset maxBytes records bytesRead ss =
      .ok (collect maxBytes records bytesRead
        (fromOffset offset (storedFrom base chunks.flatten))).2.1 := by
  induction h generalizing records bytesRead with
  | nil => rfl
  | @cons base rs chunks s ss head tail ih =>
    rw [List.flatten_cons, List.length_append] at hb
    rw [List.flatten_cons] at hc
    have hcrs : ∀ r ∈ rs, checkRecord r = .ok () := fun r hr => hc r (List.mem_append_left _ hr)
    have ih' := ih (fun r hr => hc r (List.mem_append_right _ hr)) (by omega)
    rw [PartitionLog.readSegments, List.flatten_cons, storedFrom_append, fromOffset_append]
    split
    · -- the next segment starts at or below the requested offset
      rename_i hskip
      have hle : base + rs.length ≤ offset := by
        cases tail with
        | nil => cases hskip
        | cons head' _ =>
          rw [← head'.baseOffset]
          simpa using hskip
      rw [fromOffset_below hle, List.nil_append]
      exact ih' records bytesRead
    · obtain ⟨k, hk, hoff, hseek⟩ := head.seek offset
      have hlen : (rs.drop k).length < (segmentBytes (base + k) (rs.drop k)).length + 1 := by
        have hfr := @frames_isFrame _ (base + k) (rs.drop k)
          (fun r hr => hcrs r (List.mem_of_mem_drop hr)) (by rw [List.length_drop]; omega)
        have := length_le_concatFrames hfr
        rw [frames_length] at this
        exact Nat.lt_succ_of_le this
      rw [hseek, head.buffer hk]
      simp only
      rw [readBuffer_frames (fun r hr => hcrs r (List.mem_of_mem_drop hr))
        (by rw [List.length_drop]; omega) hlen, ← fromOffset_skip hk hoff, collect_append]
      generalize collect maxBytes records bytesRead (fromOffset offset (storedFrom base rs)) = c
      obtain ⟨full, r, b⟩ := c
      cases full with
      | true => rfl
      | false => exact ih' r b

end SevlaMq.Storage

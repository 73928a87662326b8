import SevlaMq.Storage.Scan

/-!
# What retention removes

The loop of `apply_retention` looks at the first segment and at a running total, and it has two
reasons to go on.

* `MayStop` — with these segments left there is no reason to go on.
* `PartitionLog.retain_shortest` — the loop removes as many segments as it takes to get there, and
  no more.
* `retention_shortest` — after any run, with the records that are left and how they are read.
-/

set_option autoImplicit false

namespace SevlaMq.Storage

/-- The age of the segment's file reaches the limit. -/
def Expired (maxAge : Option Nat) (elapsed : Nat → Option Nat) (s : SegmentMetadata) : Prop :=
  ∃ age, maxAge = some age ∧ ∃ t, elapsed s.baseOffset = some t ∧ age ≤ t

/-- One segment is left, or the limits are met: what is left is small enough, and the first segment
is young enough. -/
def MayStop (maxBytes maxAge : Option Nat) (elapsed : Nat → Option Nat)
    (left : List SegmentMetadata) : Prop :=
  left.length = 1 ∨
    ((∀ limit, maxBytes = some limit → (left.map (·.len)).sum ≤ limit) ∧
      ∀ s, left.head? = some s → ¬ Expired maxAge elapsed s)

namespace PartitionLog

variable (maxBytes maxAge : Option Nat) (elapsed : Nat → Option Nat)

theorem removable_iff (totalBytes : Nat) (s : SegmentMetadata) :
    removable maxBytes maxAge elapsed totalBytes s = true ↔
      (∃ limit, maxBytes = some limit ∧ limit < totalBytes) ∨ Expired maxAge elapsed s := by
  simp only [removable, Bool.or_eq_true, Option.any_eq_true, decide_eq_true_eq, Expired]

/-- With several segments the loop stops exactly where it may. -/
theorem mayStop_iff (s next : SegmentMetadata) (rest : List SegmentMetadata) :
    MayStop maxBytes maxAge elapsed (s :: next :: rest) ↔
      ¬ removable maxBytes maxAge elapsed ((s :: next :: rest).map (·.len)).sum s = true := by
  rw [removable_iff]
  constructor
  · intro hstop hremove
    rcases hstop with hone | ⟨hsize, hyoung⟩
    · simp at hone
    · rcases hremove with ⟨limit, hlimit, hlt⟩ | hold
      · exact absurd hlt (Nat.not_lt.2 (hsize limit hlimit))
      · exact hyoung s rfl hold
  · intro hkeep
    refine Or.inr ⟨fun limit hlimit => Nat.not_lt.1 fun hlt => ?_, fun x hx hold => ?_⟩
    · exact hkeep (Or.inl ⟨limit, hlimit, hlt⟩)
    · cases hx
      exact hkeep (Or.inr hold)

/-- **The loop**: the running total is the size of what is left, so it removes the shortest prefix
after which it may stop. -/
theorem retain_shortest {segments : List SegmentMetadata} (hne : segments ≠ []) :
    ∃ k, retain maxBytes maxAge elapsed (segments.map (·.len)).sum segments =
        (k, segments.drop k) ∧ k < segments.length ∧
      MayStop maxBytes maxAge elapsed (segments.drop k) ∧
      ∀ j < k, ¬ MayStop maxBytes maxAge elapsed (segments.drop j) := by
  induction segments with
  | nil => exact absurd rfl hne
  | cons s rest ih =>
    cases rest with
    | nil => exact ⟨0, rfl, Nat.one_pos, Or.inl rfl, fun j hj => absurd hj (Nat.not_lt_zero j)⟩
    | cons next rest =>
      have hiff := mayStop_iff maxBytes maxAge elapsed s next rest
      rw [retain]
      split
      · rename_i hremove
        obtain ⟨k, hk, hlt, hstop, hearlier⟩ := ih (List.cons_ne_nil _ _)
        have htotal : ((s :: next :: rest).map (·.len)).sum - s.len =
            ((next :: rest).map (·.len)).sum := by
          rw [List.map_cons, List.sum_cons, Nat.add_sub_cancel_left]
        rw [htotal, hk]
        refine ⟨k + 1, rfl, Nat.succ_lt_succ hlt, hstop, fun j hj => ?_⟩
        cases j with
        | zero => exact fun h => hiff.1 h hremove
        | succ j => exact hearlier j (Nat.lt_of_succ_lt_succ hj)
      · rename_i hkeep
        exact ⟨0, rfl, Nat.succ_pos _, hiff.2 hkeep, fun j hj => absurd hj (Nat.not_lt_zero j)⟩

end PartitionLog

section Retained

variable [Checksum]

/-! ## The records that are left -/

/-- What retention makes of a log. -/
structure Shortened (maxBytes maxAge : Option Nat) (elapsed : Nat → Option Nat)
    (log : PartitionLog) (removed : Nat) (after : PartitionLog) : Prop where
  segments : after.segments = log.segments.drop removed
  active : ∃ s, log.segments.getLast? = some s ∧ after.segments.getLast? = some s
  mayStop : MayStop maxBytes maxAge elapsed after.segments
  shortest : ∀ j < removed, ¬ MayStop maxBytes maxAge elapsed (log.segments.drop j)
  nextOffset : after.nextOffset = log.nextOffset
  lowWatermark : after.segments.head?.map (·.baseOffset) = some after.lowWatermark
  /-- The records at and above the low watermark are there, and a read from any of them starts with
  it. -/
  records : ∃ stored, log.scan = .ok stored ∧
    after.scan = .ok (stored.filter (after.lowWatermark ≤ ·.offset)) ∧
    ∀ s ∈ stored, after.lowWatermark ≤ s.offset → ∀ budget, 0 < budget →
      ∃ more, after.read s.offset budget = .ok (s :: more)
  read : ∀ offset budget, after.read offset budget =
    log.read (max offset after.lowWatermark) budget

omit [Checksum] in
theorem fromOffset_fromOffset {first offset : Nat} (h : first ≤ offset) (ss : List StoredRecord) :
    fromOffset offset (fromOffset first ss) = fromOffset offset ss := by
  rw [fromOffset, fromOffset, fromOffset, List.filter_filter]
  refine List.filter_congr fun s _ => ?_
  simp only [Bool.and_eq_decide, decide_eq_true_eq, decide_eq_decide]
  omega

variable {interval : Nat} {log : PartitionLog} {removed last : List Record}
  {chunks : List (List Record)}

/-- A read from below the records held is one from the first of them. -/
theorem Rep.read_low (h : Rep interval log removed chunks last) (offset budget : Nat) :
    log.read offset budget = log.read (max offset log.lowWatermark) budget := by
  rw [h.read, h.read, h.lowWatermark, fromOffset_eq_drop, fromOffset_eq_drop,
    show max offset removed.length - removed.length = offset - removed.length by omega]

/-- A read from a record starts with it. -/
theorem Rep.read_head (h : Rep interval log removed chunks last) {s : StoredRecord}
    (hs : s ∈ storedFrom removed.length (chunks.flatten ++ last)) {budget : Nat}
    (hbudget : 0 < budget) : ∃ more, log.read s.offset budget = .ok (s :: more) := by
  obtain ⟨i, hi⟩ := List.mem_iff_getElem?.1 hs
  have hoffset : s.offset = removed.length + i := by
    rw [storedFrom_getElem?] at hi
    obtain ⟨r, _, rfl⟩ := Option.map_eq_some_iff.1 hi
    rfl
  obtain ⟨hlt, rfl⟩ := List.getElem?_eq_some_iff.1 hi
  have hfrom : fromOffset (storedFrom removed.length (chunks.flatten ++ last))[i].offset
      (storedFrom removed.length (chunks.flatten ++ last)) =
        (storedFrom removed.length (chunks.flatten ++ last))[i] ::
          (storedFrom removed.length (chunks.flatten ++ last)).drop (i + 1) := by
    rw [hoffset, fromOffset_eq_drop, Nat.add_sub_cancel_left, List.drop_eq_getElem_cons hlt]
  rw [h.read, if_neg (Nat.ne_of_gt hbudget), hfrom]
  exact ⟨_, rfl⟩

omit [Checksum] in
/-- The chunks that are left hold the records from the new low watermark on. -/
theorem storedFrom_left (removed last : List Record) (chunks : List (List Record)) (k : Nat) :
    storedFrom (removed ++ (chunks.take k).flatten).length ((chunks.drop k).flatten ++ last) =
      fromOffset (removed ++ (chunks.take k).flatten).length
        (storedFrom removed.length (chunks.flatten ++ last)) := by
  have hall : chunks.flatten ++ last =
      (chunks.take k).flatten ++ ((chunks.drop k).flatten ++ last) := by
    rw [← List.append_assoc, ← List.flatten_append, List.take_append_drop]
  rw [hall, fromOffset_eq_drop, storedFrom_drop, List.length_append, Nat.add_sub_cancel_left,
    List.drop_left]

/-- **Retention of a log that holds records** does all of it. -/
theorem Rep.shortened (h : Rep interval log removed chunks last) (maxBytes maxAge : Option Nat)
    (elapsed : Nat → Option Nat) :
    Shortened maxBytes maxAge elapsed log (log.applyRetention maxBytes maxAge elapsed).1
      (log.applyRetention maxBytes maxAge elapsed).2 := by
  have hlen := h.segments.length_eq
  rw [List.length_append, List.length_singleton] at hlen
  obtain ⟨k, hk, hlt, hstop, hearlier⟩ := PartitionLog.retain_shortest maxBytes maxAge elapsed
    (List.ne_nil_of_length_pos (Nat.lt_of_lt_of_eq (Nat.succ_pos chunks.length) hlen.symm))
  have heq : log.applyRetention maxBytes maxAge elapsed =
      (k, { log with segments := log.segments.drop k }) := by
    rw [PartitionLog.applyRetention, PartitionLog.logSizeBytes, hk]
  obtain ⟨k', _, hcount, hrep⟩ := h.applyRetention maxBytes maxAge elapsed
  have hlow := hrep.lowWatermark
  have hscan := hrep.scan
  rw [storedFrom_left, ← hlow] at hscan
  refine ⟨?_, ?_, ?_, ?_, ?_, ?_, ⟨_, h.scan, hscan, fun s hs hle budget hbudget => ?_⟩, ?_⟩
  · rw [heq]
  · rw [heq, List.getLast?_drop, if_neg (Nat.not_le.2 hlt)]
    obtain ⟨closed, active, hs, _, _⟩ := h.segments.last
    exact ⟨active, by rw [hs, List.getLast?_concat], by rw [hs, List.getLast?_concat]⟩
  · rw [heq]
    exact hstop
  · rw [heq]
    exact hearlier
  · rw [heq]
  · obtain ⟨s, rest, hs⟩ := List.exists_cons_of_length_pos
      (l := log.segments.drop k) (by rw [List.length_drop]; omega)
    simp only [heq, PartitionLog.lowWatermark, hs]
    rfl
  · have hmem : s ∈ fromOffset (log.applyRetention maxBytes maxAge elapsed).2.lowWatermark
        (storedFrom removed.length (chunks.flatten ++ last)) :=
      List.mem_filter.2 ⟨hs, decide_eq_true hle⟩
    rw [hlow, ← storedFrom_left] at hmem
    exact hrep.read_head hmem hbudget
  · intro offset budget
    rw [hrep.read_low, hrep.read, h.read, storedFrom_left, ← hlow,
      fromOffset_fromOffset (Nat.le_max_right _ _)]

/-- **Retention removes the shortest prefix.**  After any run of appends, truncations, syncs,
retention and reopenings, for every limit and any segments that are expired. -/
theorem retention_shortest {topic : String} {maxSegmentBytes interval : Nat}
    {log₀ log : PartitionLog} {acts : List Action}
    (h₀ : PartitionLog.openLog Dir.empty topic maxSegmentBytes interval = .ok log₀)
    (hfew : Along (PartitionLog.act topic) ActCountable log₀ acts)
    (hr : run (PartitionLog.act topic) log₀ acts = some log) (maxBytes maxAge : Option Nat)
    (elapsed : Nat → Option Nat) :
    Shortened maxBytes maxAge elapsed log (log.applyRetention maxBytes maxAge elapsed).1
      (log.applyRetention maxBytes maxAge elapsed).2 := by
  have hnew : Stored log₀ := ⟨interval, [], [], [], openLog_empty h₀⟩
  obtain ⟨interval', removed, chunks, last, hrep⟩ :=
    run_invariant (fun _ _ _ hp hq hs => Stored.act hp hq hs) hnew hfew hr
  exact hrep.shortened maxBytes maxAge elapsed

end Retained

/-- Three records in segments of their own; the two last ones are within the limit, but the second
segment is old. -/
def agedRun : List Action :=
  [.perform (.append ⟨none, utf8 "zero", 1, none⟩), .perform (.append ⟨none, utf8 "one", 1, none⟩),
    .perform (.append ⟨none, utf8 "two", 1, none⟩)]

theorem retention_shortest_aged :
    letI := Checksum.crc32
    ∃ log₀ log, PartitionLog.openLog Dir.empty "payments" 55 64 = .ok log₀ ∧
      run (PartitionLog.act "payments") log₀ agedRun = some log ∧
      (log.applyRetention (some 110) (some 5) fun base => some (6 - base)).1 = 2 ∧
      Shortened (some 110) (some 5) (fun base => some (6 - base)) log
        (log.applyRetention (some 110) (some 5) fun base => some (6 - base)).1
        (log.applyRetention (some 110) (some 5) fun base => some (6 - base)).2 := by
  let _ := Checksum.crc32
  have hrun : (run (PartitionLog.act "payments") ⟨0, 55, 64, [.new 0], .empty⟩ agedRun).any
      (fun log => (log.applyRetention (some 110) (some 5) fun base => some (6 - base)).1 = 2) := by
    decide +kernel
  obtain ⟨log, hr, htwo⟩ := (Option.any_eq_true _ _).1 hrun
  have hfew : Along (PartitionLog.act "payments") ActCountable ⟨0, 55, 64, [.new 0], .empty⟩
      agedRun := by decide +kernel
  exact ⟨_, log, rfl, hr, of_decide_eq_true htwo,
    @retention_shortest _ "payments" 55 64 _ _ _ rfl hfew hr (some 110) (some 5) _⟩

end SevlaMq.Storage

import SevlaMq.Storage.Recovery

/-!
# Retention and reopening

`apply_retention` removes segments from the front of a log; `open` expects the first segment of a
directory to start at offset 0.

* `Reopens` — opening the directory of a log gives its low watermark, its next offset and its
  records.
* `retained_log_lost` — a run on which retention removes two segments, and the directory cannot be
  opened any more.
* `reopens_unless_removed` — a log that retention has removed nothing from reopens; one that it
  has removed a segment from does not.
-/

set_option autoImplicit false

namespace SevlaMq.Storage

/-- Retention finds no segment to remove. -/
def RemovesNothing (log : PartitionLog) : Operation → Prop
  | .applyRetention maxBytes maxAge elapsed =>
    match log.segments with
    | s :: _ :: _ => PartitionLog.removable maxBytes maxAge elapsed log.logSizeBytes s = false
    | _ => True
  | _ => True

instance (log : PartitionLog) (op : Operation) : Decidable (RemovesNothing log op) :=
  match op with
  | .applyRetention maxBytes maxAge elapsed =>
    match h : log.segments with
    | s :: _ :: _ => decidable_of_iff
        (PartitionLog.removable maxBytes maxAge elapsed log.logSizeBytes s = false)
        (by simp only [RemovesNothing, h])
    | [_] => isTrue (by simp only [RemovesNothing, h])
    | [] => isTrue (by simp only [RemovesNothing, h])
  | .append _ => isTrue trivial
  | .appendReplica _ _ => isTrue trivial
  | .truncateTo _ => isTrue trivial
  | .syncData => isTrue trivial

/-- Nothing is removed when the first segment is not. -/
theorem retain_zero_iff (log : PartitionLog) (maxBytes maxAge : Option Nat)
    (elapsed : Nat → Option Nat) :
    (log.applyRetention maxBytes maxAge elapsed).1 = 0 ↔
      RemovesNothing log (.applyRetention maxBytes maxAge elapsed) := by
  unfold PartitionLog.applyRetention RemovesNothing
  cases hs : log.segments with
  | nil => exact ⟨fun _ => trivial, fun _ => rfl⟩
  | cons s rest =>
    cases rest with
    | nil => exact ⟨fun _ => trivial, fun _ => rfl⟩
    | cons next rest =>
      simp only [PartitionLog.retain]
      cases PartitionLog.removable maxBytes maxAge elapsed log.logSizeBytes s with
      | true => simp
      | false => simp

section Reopening

variable [Checksum]

/-- Opening the directory gives the log back. -/
def Reopens (log : PartitionLog) (topic : String) (maxSegmentBytes interval : Nat) : Prop :=
  ∃ log', PartitionLog.openLog log.dir topic maxSegmentBytes interval = .ok log' ∧
    log'.lowWatermark = log.lowWatermark ∧ log'.nextOffset = log.nextOffset ∧
    ∀ offset maxBytes, 0 < maxBytes → log'.read offset maxBytes = log.read offset maxBytes

variable {interval : Nat} {log log' : PartitionLog} {removed : List Record}
  {chunks : List (List Record)} {last : List Record}

namespace Rep

theorem lowWatermark (h : Rep interval log removed chunks last) :
    log.lowWatermark = removed.length := by
  have hcov := h.segments
  unfold PartitionLog.lowWatermark
  cases hs : log.segments with
  | nil =>
    have := hcov.length_eq
    rw [hs] at this
    simp at this
  | cons s rest =>
    rw [hs] at hcov
    cases hc : chunks ++ [last] with
    | nil => simp at hc
    | cons rs chunks' =>
      rw [hc] at hcov
      cases hcov with
      | cons head tail => exact head.baseOffset

/-- The size of a log is that of the records it still has. -/
theorem logSizeBytes (h : Rep interval log removed chunks last) :
    log.logSizeBytes = totalSize (chunks.flatten ++ last) := by
  have hcovers : ∀ {base : Nat} {chunks : List (List Record)} {ss : List SegmentMetadata},
      Covers interval base chunks ss → (ss.map (·.len)).sum = totalSize chunks.flatten := by
    intro base chunks ss hcov
    induction hcov with
    | nil => rfl
    | cons head tail ih =>
      rw [List.map_cons, List.sum_cons, ih, head.len, List.flatten_cons, totalSize_append]
  rw [PartitionLog.logSizeBytes, hcovers h.segments]
  simp

/-- The directory of a log holds the chunks, with nothing after them. -/
theorem laid (h : Rep interval log removed chunks last) :
    Laid [] removed.length chunks last log.dir.logs := by
  obtain ⟨closed, active, hs, hclosed, hactive⟩ := h.segments.last
  have hlaid := hclosed.laid hactive (f := active.file) (List.append_nil _).symm
  simpa only [PartitionLog.dir, hs, List.map_append, List.map_cons, List.map_nil] using hlaid

theorem reopens {topic : String} {maxSegmentBytes : Nat}
    (hset : Settings topic maxSegmentBytes interval) (h : Rep interval log [] chunks last) :
    Reopens log topic maxSegmentBytes interval := by
  have hbound := h.bound
  rw [h.nextOffset] at hbound
  obtain ⟨log', hopen, hrep⟩ :=
    openLog_laid hset h.laid rfl h.closed (List.Perm.refl _) h.sequenced hbound
  refine ⟨log', hopen, ?_, ?_, fun offset maxBytes _ => ?_⟩
  · rw [hrep.lowWatermark, h.lowWatermark]
  · rw [hrep.nextOffset, h.nextOffset]
  · rw [hrep.read, h.read]

/-- A directory whose first segment does not start at offset 0 is refused. -/
theorem openLog_refused {topic : String} {maxSegmentBytes interval' : Nat} (hne : removed ≠ [])
    (h : Rep interval log removed chunks last) :
    PartitionLog.openLog log.dir topic maxSegmentBytes interval' ≠ .ok log' := by
  intro hopen
  have hinit := initialSegments_sorted (h.laid.sorted h.closed) h.laid.ne_nil (List.Perm.refl _)
  have hset := openLog_settings hopen
  obtain ⟨x, files, hfiles⟩ := List.exists_cons_of_ne_nil h.laid.ne_nil
  have hbase : x.1 = removed.length := by
    have hlaid := h.laid
    rw [hfiles] at hlaid
    cases hlaid <;> rfl
  rw [hfiles, List.map_cons] at hinit
  have hpos : (discovered x).baseOffset ≠ 0 := by
    rw [show (discovered x).baseOffset = x.1 from rfl, hbase]
    exact fun hz => hne (List.length_eq_zero_iff.1 hz)
  rw [PartitionLog.openLog, hset.topic] at hopen
  simp only [if_neg hset.segment, if_neg hset.index, hinit, recoverSegments, if_pos hpos] at hopen
  cases hopen

theorem not_reopens {topic : String} {maxSegmentBytes : Nat} (hne : removed ≠ [])
    (h : Rep interval log removed chunks last) : ¬ Reopens log topic maxSegmentBytes interval := by
  rintro ⟨log', hopen, _⟩
  exact h.openLog_refused hne hopen

/-- A step without truncation removes records only where retention finds a segment to remove. -/
theorem step_removes (h : Rep interval log removed chunks last) {op : Operation}
    (hb : log.nextOffset < U64_MAX) (htr : op.truncates = false) (hs : log.step op = some log') :
    ∃ removed' chunks' last', Rep interval log' removed' chunks' last' ∧
      (RemovesNothing log op → removed' = removed) ∧
      (removed ≠ [] ∨ ¬ RemovesNothing log op → removed' ≠ []) := by
  by_cases hret : op.retains = true
  · cases op with
    | applyRetention maxBytes maxAge elapsed =>
      obtain ⟨_, rfl⟩ := PartitionLog.step_perform hs
      obtain ⟨k, hk, hcount, hrep⟩ := h.applyRetention maxBytes maxAge elapsed
      refine ⟨_, _, _, hrep, fun hno => ?_, fun hor hnil => ?_⟩
      · rw [← retain_zero_iff, hcount] at hno
        subst hno
        simp
      · obtain ⟨hrem, htake⟩ := List.append_eq_nil_iff.1 hnil
        refine hor.elim (fun hne => hne hrem) fun hno => ?_
        rw [← retain_zero_iff, hcount] at hno
        -- the first chunk is not empty, so it leaves something behind
        obtain ⟨rs, rest, hchunks⟩ : ∃ rs rest, chunks = rs :: rest :=
          List.exists_cons_of_length_pos (by omega)
        obtain ⟨n, rfl⟩ : ∃ n, k = n + 1 := ⟨k - 1, by omega⟩
        rw [hchunks, List.take_succ_cons, List.flatten_cons] at htake
        exact h.closed rs (by rw [hchunks]; exact List.mem_cons_self)
          (List.append_eq_nil_iff.1 htake).1
    | _ => cases hret
  · obtain ⟨removed', chunks', last', hrep, hkeep⟩ :=
      h.step hb (fun ht => by rw [htr] at ht; cases ht) hs
    obtain ⟨rfl, _⟩ := hkeep (by simpa using hret)
    have hno : RemovesNothing log op := by
      cases op with
      | applyRetention => exact absurd rfl hret
      | _ => trivial
    exact ⟨_, chunks', last', hrep, fun _ => rfl, fun hor => hor.resolve_right fun hn => hn hno⟩

/-- Along a run, records are gone at the end exactly when retention found a segment to remove. -/
theorem run_removes {ops : List Operation} (h : Rep interval log removed chunks last)
    (hops : ∀ op ∈ ops, op.truncates = false) (hfew : Along PartitionLog.step Countable log ops)
    (hr : run PartitionLog.step log ops = some log') :
    ∃ removed' chunks' last', Rep interval log' removed' chunks' last' ∧
      (Along PartitionLog.step RemovesNothing log ops → removed' = removed) ∧
      (removed ≠ [] ∨ ¬ Along PartitionLog.step RemovesNothing log ops → removed' ≠ []) := by
  induction ops generalizing log removed chunks last with
  | nil =>
    cases hr
    exact ⟨removed, chunks, last, h, fun _ => rfl, fun hor => hor.resolve_right fun hn => hn trivial⟩
  | cons op ops ih =>
    simp only [run] at hr
    split at hr
    · cases hr
    · rename_i log₁ hs
      obtain ⟨removed₁, chunks₁, last₁, h₁, hkeep, hgone⟩ :=
        h.step_removes hfew.1 (hops op List.mem_cons_self) hs
      obtain ⟨removed', chunks', last', h', hkeep', hgone'⟩ :=
        ih h₁ (fun x hx => hops x (List.mem_cons_of_mem _ hx)) (hfew.2 _ hs) hr
      refine ⟨removed', chunks', last', h', fun hno => ?_, fun hor => hgone' ?_⟩
      · rw [hkeep' (hno.2 _ hs), hkeep hno.1]
      · by_cases hne : removed₁ ≠ []
        · exact Or.inl hne
        · refine Or.inr fun hrest => hne (hgone (hor.imp_right fun hn hno => hn ⟨hno, ?_⟩))
          intro log₂ hs₂
          rw [hs] at hs₂
          cases hs₂; exact hrest

end Rep

/-- The step neither removes a segment nor uses up the offsets. -/
def KeepsSegments (log : PartitionLog) (op : Operation) : Prop :=
  Countable log op ∧ RemovesNothing log op

/-- **A log that went through retention** can be reopened when nothing was removed, and only
then. -/
theorem reopens_unless_removed {topic : String} {maxSegmentBytes interval : Nat}
    {log₀ log : PartitionLog} {ops : List Operation}
    (h₀ : PartitionLog.openLog Dir.empty topic maxSegmentBytes interval = .ok log₀)
    (hops : ∀ op ∈ ops, op.truncates = false)
    (hr : run PartitionLog.step log₀ ops = some log) :
    (Along PartitionLog.step KeepsSegments log₀ ops →
      Reopens log topic maxSegmentBytes interval) ∧
    (Along PartitionLog.step Countable log₀ ops →
      ¬ Along PartitionLog.step RemovesNothing log₀ ops →
      ¬ Reopens log topic maxSegmentBytes interval) := by
  have hnew := openLog_empty h₀
  refine ⟨fun hq => ?_, fun hfew hremoves => ?_⟩
  · obtain ⟨removed, chunks, last, hrep, hkeep, _⟩ :=
      hnew.run_removes hops (hq.mono fun _ _ h => h.1) hr
    obtain rfl := hkeep (hq.mono fun _ _ h => h.2)
    exact hrep.reopens (openLog_settings h₀)
  · obtain ⟨removed, chunks, last, hrep, _, hgone⟩ := hnew.run_removes hops hfew hr
    exact hrep.not_reopens (hgone (Or.inr hremoves))

end Reopening

/-- Three records in segments of their own, and retention to one segment. -/
def retentionRun : List Operation :=
  [.append ⟨none, utf8 "zero", 1, none⟩, .append ⟨none, utf8 "one", 1, none⟩,
    .append ⟨none, utf8 "two", 1, none⟩, .applyRetention (some 55) none fun _ => none]

theorem retained_log_lost :
    letI := Checksum.crc32
    ∃ log₀ log, PartitionLog.openLog Dir.empty "payments" 55 64 = .ok log₀ ∧
      run PartitionLog.step log₀ retentionRun = some log ∧ ¬ Reopens log "payments" 55 64 := by
  let _ := Checksum.crc32
  have hrun : (run PartitionLog.step ⟨0, 55, 64, [.new 0], .empty⟩ retentionRun).any (fun log =>
      match PartitionLog.openLog log.dir "payments" 55 64 with
      | .ok _ => false
      | .error _ => true) := by decide +kernel
  obtain ⟨log, hr, hlog⟩ := (Option.any_eq_true _ _).1 hrun
  refine ⟨_, log, rfl, hr, ?_⟩
  rintro ⟨log', hopen, _⟩
  rw [hopen] at hlog
  cases hlog

/-- The same records under a limit that they meet. -/
def keepingRun : List Operation :=
  retentionRun.take 3 ++ [.applyRetention (some 1000) none fun _ => none]

theorem reopens_unless_removed_kept :
    letI := Checksum.crc32
    ∃ log₀ log, PartitionLog.openLog Dir.empty "payments" 55 64 = .ok log₀ ∧
      run PartitionLog.step log₀ keepingRun = some log ∧
      Reopens log "payments" 55 64 := by
  let _ := Checksum.crc32
  have hrun : (run PartitionLog.step ⟨0, 55, 64, [.new 0], .empty⟩ keepingRun).isSome := by
    decide +kernel
  obtain ⟨log, hr⟩ := Option.isSome_iff_exists.1 hrun
  have hops : ∀ op ∈ keepingRun, op.truncates = false := by decide
  have hkeeps : Along PartitionLog.step KeepsSegments ⟨0, 55, 64, [.new 0], .empty⟩ keepingRun := by
    have hfew : Along PartitionLog.step Countable ⟨0, 55, 64, [.new 0], .empty⟩ keepingRun := by
      decide +kernel
    have hno : Along PartitionLog.step RemovesNothing ⟨0, 55, 64, [.new 0], .empty⟩ keepingRun := by
      decide +kernel
    exact hfew.and hno
  exact ⟨_, log, rfl, hr, (@reopens_unless_removed _ "payments" 55 64 _ _ _ rfl hops hr).1 hkeeps⟩

end SevlaMq.Storage

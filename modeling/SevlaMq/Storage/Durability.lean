import SevlaMq.Storage.Retention

/-!
# Syncs, rotations and crashes

`sync_data` syncs the active file; `rotate` leaves the file it closes as it is.  A crash keeps of
every file some prefix that is at least as long as its synced prefix.

* `Crash` — what a crash may leave of a directory.
* `SyncDurable` — after any crash the directory opens and holds every record that was there when
  `sync_data` returned.
* `closed_segment_torn` — a run that rotates between two syncs and a crash that cuts the closed
  segment.
* `sync_data_durable` — every record is durable when each rotation finds the file it closes
  synced, and only then.
-/

set_option autoImplicit false

namespace SevlaMq.Storage

/-! ## Crashes -/

/-- A crash keeps a prefix that contains the synced one. -/
def File.Keeps (f f' : File) : Prop := f'.bytes <+: f.bytes ∧ f.synced ≤ f'.bytes.length

/-- What a crash may leave; the files may be listed in any order. -/
inductive Crash (dir dir' : Dir) : Prop
  | mk {logs indexes : List (Nat × File)} (hlogs : dir'.logs.Perm logs)
      (hindexes : dir'.indexes.Perm indexes)
      (keepLogs : List.Forall₂ (fun x y => y.1 = x.1 ∧ x.2.Keeps y.2) dir.logs logs)
      (keepIndexes : List.Forall₂ (fun x y => y.1 = x.1 ∧ x.2.Keeps y.2) dir.indexes indexes)

theorem File.Keeps.refl {f : File} (h : f.synced ≤ f.bytes.length) : f.Keeps f :=
  ⟨List.prefix_rfl, h⟩

/-- A file that is synced to its end survives as it is. -/
theorem File.Keeps.eq {f f' : File} (h : f.Keeps f') (hs : f.synced = f.bytes.length) :
    f'.bytes = f.bytes := h.1.eq_of_length_le (by rw [← hs]; exact h.2)

/-- A crash keeps the names of the files. -/
theorem keeps_sorted {files files' : List (Nat × File)}
    (hkeep : List.Forall₂ (fun x y => y.1 = x.1 ∧ x.2.Keeps y.2) files files')
    (hsorted : files.Pairwise fun x y => x.1 < y.1) : files'.Pairwise fun x y => x.1 < y.1 := by
  have hnames : files'.map Prod.fst = files.map Prod.fst := by
    induction hkeep with
    | nil => rfl
    | cons h _ ih => rw [List.map_cons, List.map_cons, h.1, ih (List.pairwise_cons.1 hsorted).2]
  have := List.pairwise_map.2 hsorted
  rw [← hnames] at this
  exact List.pairwise_map.1 this

/-- The operations `append` and `sync_data`. -/
def Operation.appendsOrSyncs : Operation → Bool
  | .append _ => true
  | .syncData => true
  | _ => false

/-- A rotation finds the file it closes synced. -/
def RotatesSynced (log : PartitionLog) : Operation → Prop
  | .append r => admission log.producerState r = .ok none → checkRecord r = .ok () →
      ∀ active ∈ log.segments.getLast?, log.full active (encodedSize r) = true →
        active.file.synced = active.file.bytes.length
  | _ => True

instance (log : PartitionLog) (op : Operation) : Decidable (RotatesSynced log op) :=
  match op with
  | .append r => inferInstanceAs (Decidable (admission log.producerState r = .ok none →
      checkRecord r = .ok () → ∀ active ∈ log.segments.getLast?,
        log.full active (encodedSize r) = true → active.file.synced = active.file.bytes.length))
  | .appendReplica _ _ => isTrue trivial
  | .truncateTo _ => isTrue trivial
  | .syncData => isTrue trivial
  | .applyRetention _ _ _ => isTrue trivial

/-- No file is synced beyond its end. -/
def SyncedWithin (log : PartitionLog) : Prop :=
  ∀ s ∈ log.segments, s.file.synced ≤ s.file.bytes.length ∧
    s.indexFile.synced ≤ s.indexFile.bytes.length

/-- All closed segments are synced to their end. -/
def ClosedSynced (log : PartitionLog) : Prop :=
  ∀ s ∈ log.segments.dropLast, s.file.synced = s.file.bytes.length

/-- The last segment is the active one. -/
theorem PartitionLog.active_mem {log : PartitionLog} {closed : List SegmentMetadata}
    {active : SegmentMetadata} (hs : log.segments = closed ++ [active]) :
    active ∈ log.segments.getLast? := by
  rw [hs, List.getLast?_concat]
  rfl

/-- The history ends with what is cut off the last chunk. -/
theorem history_cut {chunks : List (List Record)} {last : List Record} (j : Nat) :
    history [] chunks last = (chunks.flatten ++ last.take j) ++ last.drop j := by
  rw [history, List.nil_append, List.append_assoc, List.take_append_drop]

section Durability

variable [Checksum]

/-- A record that the log returns. -/
def PartitionLog.Contains (log : PartitionLog) (s : StoredRecord) : Prop :=
  ∃ ss, log.read 0 USIZE_MAX = .ok ss ∧ s ∈ ss

/-- Every crash of `log` leaves a directory that opens and holds every record of `synced`. -/
def SyncDurable (synced log : PartitionLog) (topic : String) (maxSegmentBytes interval : Nat) :
    Prop :=
  ∀ dir, Crash log.dir dir → ∃ log',
    PartitionLog.openLog dir topic maxSegmentBytes interval = .ok log' ∧
    ∀ s, synced.Contains s → log'.Contains s

variable {interval : Nat} {log log' : PartitionLog} {chunks : List (List Record)}
  {last : List Record}

theorem Rep.contains (h : Rep interval log [] chunks last) (s : StoredRecord) :
    log.Contains s ↔ s ∈ storedFrom 0 (chunks.flatten ++ last) := by
  have hread := h.read 0 USIZE_MAX
  rw [if_neg (by decide), takeBudget_all, fromOffset_eq_drop, Nat.zero_sub, List.drop_zero] at hread
  constructor
  · rintro ⟨ss, hss, hs⟩
    rw [hread] at hss
    cases hss; exact hs
  · exact fun hs => ⟨_, hread, hs⟩

/-! ## One step -/

/-- How an append or a sync changes the files. -/
inductive Written (log : PartitionLog) (op : Operation) (log' : PartitionLog) : Prop
  | same (h : log' = log) (hno : ∀ r, op = .append r → admission log.producerState r = .ok none →
      checkRecord r ≠ .ok ())
  | synced {closed : List SegmentMetadata} {active : SegmentMetadata}
      (hop : op = .syncData) (hs : log.segments = closed ++ [active])
      (hs' : log'.segments = closed ++ [{ active with
        file := active.file.syncData, indexFile := active.indexFile.syncData }])
  | stored {r : Record} {closed : List SegmentMetadata} {active w : SegmentMetadata}
      (hop : op = .append r) (ha : admission log.producerState r = .ok none)
      (hc : checkRecord r = .ok ()) (hs : log.segments = closed ++ [active])
      (hw : (log.target closed active (encodedSize r)).2.write log.indexIntervalBytes
        log.nextOffset (recordBytes r log.nextOffset) = .ok w)
      (hs' : log'.segments = (log.target closed active (encodedSize r)).1 ++ [w])

theorem Rep.written {removed : List Record} (h : Rep interval log removed chunks last)
    {op : Operation} (hop : op.appendsOrSyncs = true) (hb : log.nextOffset < U64_MAX)
    (hs : log.step op = some log') : Written log op log' := by
  obtain ⟨closed, active, hseg, hclosed, hactive⟩ := h.segments.last
  obtain ⟨hio, rfl⟩ := PartitionLog.step_perform hs
  cases op with
  | append r =>
    have hio := mapUnit_error hio
    cases ha : admission log.producerState r with
    | error e =>
      refine .same (by simp [Operation.perform, PartitionLog.append, ha]) fun x hx hax => ?_
      cases hx
      rw [ha] at hax
      cases hax
    | ok o =>
      cases o with
      | some offset =>
        refine .same (by simp [Operation.perform, PartitionLog.append, ha]) fun x hx hax => ?_
        cases hx
        rw [ha] at hax
        cases hax
      | none =>
        cases hc : checkRecord r with
        | error e =>
          refine .same (by simp [Operation.perform, PartitionLog.append, ha, encodeRecord, hc])
            fun x hx _ hcx => ?_
          cases hx
          rw [hc] at hcx
          cases hcx
        | ok u =>
          obtain ⟨w, hw, happ⟩ := PartitionLog.append_stored ha hc hseg hactive.len_eq hb hio
          refine .stored rfl ha hc hseg hw ?_
          rw [Operation.perform, happ]
  | syncData =>
    refine .synced rfl hseg ?_
    rw [Operation.perform, PartitionLog.syncData_eq hseg]
  | _ => cases hop

namespace Written

variable {op : Operation}

/-- The files of the segments of `log'` are those of `log`, a synced one, an extended one or a new
one. -/
theorem syncedWithin (h : Written log op log') (hw : SyncedWithin log) : SyncedWithin log' := by
  have hwrite : ∀ {s w : SegmentMetadata} {interval offset : Nat} {encoded : Bytes},
      s.write interval offset encoded = .ok w →
      s.file.synced ≤ s.file.bytes.length ∧ s.indexFile.synced ≤ s.indexFile.bytes.length →
      w.file.synced ≤ w.file.bytes.length ∧ w.indexFile.synced ≤ w.indexFile.bytes.length := by
    intro s w interval offset encoded hok hs
    obtain ⟨h1, h2, h3, h4⟩ := SegmentMetadata.write_files hok
    exact ⟨by rw [h1]; exact Nat.le_trans hs.1 h2.length_le,
      by rw [h3]; exact Nat.le_trans hs.2 h4.length_le⟩
  cases h with
  | same h _ => rw [h]; exact hw
  | synced hop hs hs' =>
    intro s hmem
    rw [hs'] at hmem
    rcases List.mem_append.1 hmem with hmem | hmem
    · exact hw s (by rw [hs]; exact List.mem_append_left _ hmem)
    · rw [List.mem_singleton.1 hmem]
      exact ⟨Nat.le_refl _, Nat.le_refl _⟩
  | @stored r closed active w hop ha hc hs hok hs' =>
    intro s hmem
    have hold : ∀ x ∈ closed ++ [active], x.file.synced ≤ x.file.bytes.length ∧
        x.indexFile.synced ≤ x.indexFile.bytes.length := fun x hx => hw x (by rw [hs]; exact hx)
    unfold PartitionLog.target at hok hs'
    rw [hs'] at hmem
    split at hok
    · rename_i hfull
      rw [if_pos hfull] at hmem
      rcases List.mem_append.1 hmem with hmem | hmem
      · exact hold s hmem
      · rw [List.mem_singleton.1 hmem]
        exact hwrite hok ⟨Nat.le_refl _, Nat.le_refl _⟩
    · rename_i hfull
      rw [if_neg hfull] at hmem
      rcases List.mem_append.1 hmem with hmem | hmem
      · exact hold s (List.mem_append_left _ hmem)
      · rw [List.mem_singleton.1 hmem]
        exact hwrite hok (hold active (List.mem_append_right _ (List.mem_singleton.2 rfl)))

/-- The closed segments stay as they are; a rotation adds the active one to them. -/
theorem closed (h : Written log op log') :
    (log'.segments.dropLast = log.segments.dropLast ∧ RotatesSynced log op) ∨
    ∃ r active, op = .append r ∧ admission log.producerState r = .ok none ∧
      checkRecord r = .ok () ∧ log.segments.getLast? = some active ∧
      log.full active (encodedSize r) = true ∧
      log'.segments.dropLast = log.segments.dropLast ++ [active] := by
  cases h with
  | same h hno =>
    refine Or.inl ⟨by rw [h], ?_⟩
    cases op with
    | append r => exact fun ha hc => absurd hc (hno r rfl ha)
    | _ => trivial
  | synced hop hs hs' =>
    subst hop
    exact Or.inl ⟨by rw [hs, hs', List.dropLast_concat, List.dropLast_concat], trivial⟩
  | @stored r closed active w hop ha hc hs hok hs' =>
    have hlast : log.segments.getLast? = some active := by rw [hs, List.getLast?_concat]
    unfold PartitionLog.target at hs'
    split at hs'
    · rename_i hfull
      refine Or.inr ⟨r, active, hop, ha, hc, hlast, hfull, ?_⟩
      rw [hs, hs', List.dropLast_concat, List.dropLast_concat]
    · rename_i hfull
      subst hop
      refine Or.inl ⟨by rw [hs, hs', List.dropLast_concat, List.dropLast_concat], ?_⟩
      intro _ _ active' hactive' hfull'
      rw [hlast] at hactive'
      cases hactive'
      exact absurd hfull' hfull

/-- The closed segments are synced after a step if they were before it and a rotation finds the
file it closes synced, and only then. -/
theorem closedSynced_iff (h : Written log op log') :
    ClosedSynced log' ↔ ClosedSynced log ∧ RotatesSynced log op := by
  unfold ClosedSynced
  obtain ⟨hsame, hq⟩ | ⟨r, active, rfl, ha, hck, hlast, hfull, hdrop⟩ := h.closed
  · rw [hsame]
    exact ⟨fun hc => ⟨hc, hq⟩, And.left⟩
  · rw [hdrop]
    constructor
    · intro hall
      refine ⟨fun s hs => hall s (List.mem_append_left _ hs), fun _ _ active' hactive' _ => ?_⟩
      rw [hlast] at hactive'
      cases hactive'
      exact hall _ (List.mem_append_right _ (List.mem_singleton.2 rfl))
    · rintro ⟨hc, hq⟩ s hs
      rcases List.mem_append.1 hs with hs | hs
      · exact hc s hs
      · rw [List.mem_singleton.1 hs]
        exact hq ha hck active hlast hfull

end Written

/-- The first `n` of the records are on disk, as far as the active segment is concerned. -/
structure SyncedTo (interval n : Nat) (log : PartitionLog) (records : RecordLog) : Prop where
  refines : Refines interval log records
  le : n ≤ records.length
  synced : ∀ active ∈ log.segments.getLast?,
    totalSize ((records.drop active.baseOffset).take (n - active.baseOffset)) ≤ active.file.synced

/-- The records of the active segment. -/
theorem Rep.drop_active (h : Rep interval log [] chunks last) {active : SegmentMetadata}
    (hactive : active ∈ log.segments.getLast?) :
    (history [] chunks last).drop active.baseOffset = last ∧
      active.baseOffset = chunks.flatten.length ∧ Holds interval chunks.flatten.length last active := by
  obtain ⟨closed, active', hs, _, hholds⟩ := h.segments.last
  rw [hs, List.getLast?_concat, Option.mem_some_iff] at hactive
  subst hactive
  rw [List.length_nil, Nat.zero_add] at hholds
  refine ⟨?_, hholds.baseOffset, hholds⟩
  rw [hholds.baseOffset, history, List.nil_append, List.drop_left]

theorem SyncedTo.step {n : Nat} {records : RecordLog} {op : Operation}
    (h : SyncedTo interval n log records) (hop : op.appendsOrSyncs = true)
    (hb : log.nextOffset < U64_MAX) (hs : log.step op = some log') :
    ∃ records', records <+: records' ∧ SyncedTo interval n log' records' := by
  obtain ⟨chunks, last, hrep, rfl⟩ := h.refines
  have hw := hrep.written hop hb hs
  have hret : op.retains = false := by
    cases op <;> first | rfl | cases hop
  obtain ⟨removed', chunks', last', hrep', hkeep⟩ := hrep.step hb (fun _ => rfl) hs
  obtain ⟨rfl, hhist⟩ := hkeep hret
  cases hw with
  | same heq _ =>
    subst heq
    exact ⟨_, List.prefix_rfl, h⟩
  | @synced closed active hop' hseg hseg' =>
    subst hop'
    have hmem := PartitionLog.active_mem hseg
    obtain ⟨hdrop, _, hholds⟩ := hrep.drop_active hmem
    refine ⟨_, List.prefix_rfl, ⟨chunks', last', hrep', hhist⟩, h.le, fun a ha => ?_⟩
    rw [hseg', List.getLast?_concat, Option.mem_some_iff] at ha
    subst ha
    simp only [File.syncData]
    rw [hdrop, hholds.bytes, segmentBytes_length]
    exact totalSize_take_le _ _
  | @stored r closed active w hop' ha hc hseg hok hseg' =>
    subst hop'
    have hgrow : history [] chunks' last' = history [] chunks last ++ [r] := by
      rw [hhist]
      simp only [RecordLog.step, RecordLog.append, ← hrep.admission_eq, ha, hc]
    have hmem := PartitionLog.active_mem hseg
    have hbase := (SegmentMetadata.write_ok hok).1
    have hsync := (SegmentMetadata.write_files hok).1
    refine ⟨_, by rw [hgrow]; exact List.prefix_append _ _, ⟨chunks', last', hrep', rfl⟩, ?_,
      fun a ha => ?_⟩
    · rw [hgrow, List.length_append]
      exact Nat.le_add_right_of_le h.le
    · rw [hseg', List.getLast?_concat, Option.mem_some_iff] at ha
      subst ha
      rw [hbase, hsync, hgrow]
      unfold PartitionLog.target
      split
      · -- the new segment starts behind the first `n` records
        have hle := h.le
        rw [← hrep.nextOffset] at hle
        simp only [SegmentMetadata.new, Nat.sub_eq_zero_of_le hle, List.take_zero]
        exact Nat.zero_le _
      · obtain ⟨_, hb', _⟩ := hrep.drop_active hmem
        have hlen : active.baseOffset ≤ (history [] chunks last).length := by
          rw [hb', history]; simp
        rw [List.drop_append_of_le_length hlen, List.take_append_of_le_length]
        · exact h.synced active hmem
        · rw [List.length_drop]
          exact Nat.sub_le_sub_right h.le _

/-! ## What a crash leaves of the segments -/

/-- A prefix of a segment file is some whole records and an incomplete one. -/
theorem prefix_segmentBytes {base : Nat} {rs : List Record} {p : Bytes}
    (hc : ∀ r ∈ rs, checkRecord r = .ok ()) (hb : base + rs.length ≤ U64_MAX)
    (hp : p <+: segmentBytes base rs) :
    ∃ j tail, j ≤ rs.length ∧ p = segmentBytes base (rs.take j) ++ tail ∧
      decodeRecord tail = .ok none ∧ (j < rs.length → p.length < totalSize (rs.take (j + 1))) ∧
      (j = rs.length → tail = []) := by
  obtain ⟨j, tail, hj, hpt, htail, hlen, hend⟩ := prefix_concatFrames rfl (frames_isFrame hc hb) hp
  rw [frames_length] at hj hlen hend
  rw [frames_take] at hpt
  refine ⟨j, tail, hj, hpt, htail, fun h => ?_, hend⟩
  have := hlen h
  rw [frames_take] at this
  rw [← segmentBytes_length base]
  exact this

/-- What a crash leaves of the active segment: some whole records, among them all that are synced,
and an incomplete one. -/
theorem Holds.keeps {base : Nat} {active : SegmentMetadata} {f : File}
    (hactive : Holds interval base last active) (hc : ∀ r ∈ last, checkRecord r = .ok ())
    (hb : base + last.length ≤ U64_MAX) (hfile : active.file.Keeps f) :
    ∃ j tail, f.bytes = segmentBytes base (last.take j) ++ tail ∧ decodeRecord tail = .ok none ∧
      ∀ k ≤ last.length, totalSize (last.take k) ≤ active.file.synced → k ≤ j := by
  have hp := hfile.1
  rw [hactive.bytes] at hp
  obtain ⟨j, tail, _, hbytes, htail, hlen, _⟩ := prefix_segmentBytes hc hb hp
  refine ⟨j, tail, hbytes, htail, fun k hk hle => ?_⟩
  -- the synced prefix ends before record `j` does
  by_contra hlt
  have h1 := hlen (by omega)
  have h2 : totalSize (last.take (j + 1)) ≤ totalSize (last.take k) := by
    rw [← Nat.min_eq_left (show j + 1 ≤ k by omega), ← List.take_take]
    exact totalSize_take_le _ _
  have h3 := hfile.2
  omega

/-- A crash of a log with synced closed segments cuts the last chunk only. -/
theorem crash_laid {base : Nat} {closed : List SegmentMetadata} {active : SegmentMetadata}
    {logs : List (Nat × File)} (hcov : Covers interval base chunks closed)
    (hsynced : ∀ s ∈ closed, s.file.synced = s.file.bytes.length)
    (hactive : Holds interval (base + chunks.flatten.length) last active)
    (hc : ∀ r ∈ last, checkRecord r = .ok ())
    (hb : base + chunks.flatten.length + last.length ≤ U64_MAX)
    (hkeep : List.Forall₂ (fun x y => y.1 = x.1 ∧ x.2.Keeps y.2)
      (closed.map (fun s => (s.baseOffset, s.file)) ++ [(active.baseOffset, active.file)]) logs) :
    ∃ j tail, Laid tail base chunks (last.take j) logs ∧ decodeRecord tail = .ok none ∧
      ∀ k ≤ last.length, totalSize (last.take k) ≤ active.file.synced → k ≤ j := by
  induction hcov generalizing logs with
  | @nil base =>
    rw [List.map_nil, List.nil_append] at hkeep
    obtain ⟨y, rest, ⟨hkey, hfile⟩, hrest, rfl⟩ := List.forall₂_cons_left_iff.1 hkeep
    cases hrest
    rw [List.flatten_nil, List.length_nil, Nat.add_zero] at hactive hb
    obtain ⟨j, tail, hbytes, htail, hk⟩ := hactive.keeps hc hb hfile
    obtain ⟨key, f⟩ := y
    obtain rfl : key = base := hkey.trans hactive.baseOffset
    exact ⟨j, tail, .last hbytes, htail, hk⟩
  | @cons base rs chunks s ss head tail ih =>
    rw [List.map_cons, List.cons_append] at hkeep
    obtain ⟨y, rest, ⟨hkey, hfile⟩, hrest, rfl⟩ := List.forall₂_cons_left_iff.1 hkeep
    rw [List.flatten_cons, List.length_append, ← Nat.add_assoc] at hactive hb
    obtain ⟨j, torn, hlaid, htorn, hk⟩ :=
      ih (fun x hx => hsynced x (List.mem_cons_of_mem _ hx)) hactive hb hrest
    obtain ⟨key, f⟩ := y
    obtain rfl : key = base := hkey.trans head.baseOffset
    refine ⟨j, torn, .cons ?_ hlaid, htorn, hk⟩
    rw [hfile.eq (hsynced s List.mem_cons_self), head.bytes]

/-- A directory that holds all closed segments and some records of the active one opens. -/
theorem Rep.reopen_cut {topic : String} {maxSegmentBytes j : Nat} {tail : Bytes} {dir : Dir}
    {logs : List (Nat × File)} (hrep : Rep interval log [] chunks last)
    (hset : Settings topic maxSegmentBytes interval) (hlaid : Laid tail 0 chunks (last.take j) logs)
    (htail : decodeRecord tail = .ok none) (hlogs : dir.logs.Perm logs) :
    ∃ log', PartitionLog.openLog dir topic maxSegmentBytes interval = .ok log' ∧
      Rep interval log' [] chunks (last.take j) := by
  have hbound := hrep.bound
  rw [hrep.nextOffset_eq, List.length_nil, Nat.zero_add, List.length_append] at hbound
  have hseq : Sequenced .empty 0 (chunks.flatten ++ last.take j) := by
    have := hrep.sequenced
    rw [history_cut j, sequenced_append] at this
    exact this.1
  have hlen : (chunks.flatten ++ last.take j).length ≤ U64_MAX := by
    rw [List.length_append]
    exact Nat.le_trans (Nat.add_le_add_left (List.length_take_le' _ _) _) hbound
  exact openLog_laid hset hlaid htail hrep.closed hlogs hseq hlen

/-- The first `n` records are left when those of them in the active segment are. -/
theorem SyncedTo.take_prefix {n j : Nat} {active : SegmentMetadata}
    (h : SyncedTo interval n log (history [] chunks last)) (hrep : Rep interval log [] chunks last)
    (hactive : active ∈ log.segments.getLast?)
    (hj : ∀ k ≤ last.length, totalSize (last.take k) ≤ active.file.synced → k ≤ j) :
    (history [] chunks last).take n <+: history [] chunks (last.take j) := by
  obtain ⟨hdrop, hbase, _⟩ := hrep.drop_active hactive
  have hle := h.le
  rw [history, List.nil_append, List.length_append] at hle
  have hn : n ≤ chunks.flatten.length + j ∨ last.length ≤ j := by
    have hsync := h.synced active hactive
    rw [hdrop, hbase] at hsync
    have := hj (n - chunks.flatten.length) (by omega) hsync
    omega
  have hpre : (history [] chunks last).take n <+: history [] chunks last := List.take_prefix _ _
  refine List.prefix_of_prefix_length_le hpre ?_ ?_
  · exact ⟨last.drop j, (history_cut j).symm⟩
  · simp only [history, List.nil_append, List.length_append, List.length_take]
    omega

/-- The records on disk are found in what a crash leaves of the segment files, when the closed
segments are synced. -/
theorem SyncedTo.survives_logs {n : Nat} {records : RecordLog} {topic : String}
    {maxSegmentBytes : Nat} {dir : Dir} {logs : List (Nat × File)}
    (h : SyncedTo interval n log records) (hclosed : ClosedSynced log)
    (hset : Settings topic maxSegmentBytes interval) (hlogs : dir.logs.Perm logs)
    (hkeep : List.Forall₂ (fun x y => y.1 = x.1 ∧ x.2.Keeps y.2) log.dir.logs logs) :
    ∃ log' chunks' last', PartitionLog.openLog dir topic maxSegmentBytes interval = .ok log' ∧
      Rep interval log' [] chunks' last' ∧ records.take n <+: history [] chunks' last' := by
  obtain ⟨chunks, last, hrep, rfl⟩ := h.refines
  obtain ⟨closed, active, hs, hcov, hactive⟩ := hrep.segments.last
  have hmem := PartitionLog.active_mem hs
  have hbound := hrep.bound
  rw [hrep.nextOffset_eq, List.length_append, ← Nat.add_assoc] at hbound
  unfold ClosedSynced at hclosed
  rw [hs, List.dropLast_concat] at hclosed
  simp only [PartitionLog.dir, hs, List.map_append, List.map_cons, List.map_nil] at hkeep
  obtain ⟨j, tail, hlaid, htail, hj⟩ := crash_laid hcov hclosed hactive
    (fun r hr => hrep.checked r (List.mem_append_right _ hr)) hbound hkeep
  obtain ⟨log', hopen, hrep'⟩ := hrep.reopen_cut hset hlaid htail hlogs
  exact ⟨log', chunks, last.take j, hopen, hrep', h.take_prefix hrep hmem hj⟩

/-- **The records on disk survive a crash** when the closed segments are synced. -/
theorem SyncedTo.survives {n : Nat} {records : RecordLog} {topic : String} {maxSegmentBytes : Nat}
    {dir : Dir} (h : SyncedTo interval n log records) (hclosed : ClosedSynced log)
    (hset : Settings topic maxSegmentBytes interval) (hcrash : Crash log.dir dir) :
    ∃ log' chunks' last', PartitionLog.openLog dir topic maxSegmentBytes interval = .ok log' ∧
      Rep interval log' [] chunks' last' ∧ records.take n <+: history [] chunks' last' := by
  obtain @⟨logs, indexes, hlogs, _, hkeep, _⟩ := hcrash
  exact h.survives_logs hclosed hset hlogs hkeep

/-! ## A closed segment that is not synced -/

/-- One file before the last one has lost records. -/
inductive Cut : Nat → List (List Record) → List Record → List (Nat × File) → Prop
  | here {base j : Nat} {rs : List Record} {chunks : List (List Record)} {last : List Record}
      {f : File} {files : List (Nat × File)} {tail : Bytes} (hj : j < rs.length)
      (h : f.bytes = segmentBytes base (rs.take j) ++ tail) (htail : decodeRecord tail = .ok none)
      (next : Laid [] (base + rs.length) chunks last files) :
      Cut base (rs :: chunks) last ((base, f) :: files)
  | there {base : Nat} {rs : List Record} {chunks : List (List Record)} {last : List Record}
      {f : File} {files : List (Nat × File)} (h : f.bytes = segmentBytes base rs)
      (next : Cut (base + rs.length) chunks last files) :
      Cut base (rs :: chunks) last ((base, f) :: files)

/-- `open` refuses a directory in which a closed segment has lost records: the segment ends in an
incomplete record, or the next one does not start where it ends. -/
theorem recoverSegments_short {base j : Nat} {rs : List Record} {f : File} {tail : Bytes}
    {t : ProducerTable} {x : Nat × File} {files : List (Nat × File)}
    (hseq : Sequenced t base rs) (hb : base + rs.length ≤ U64_MAX) (hj : j < rs.length)
    (h : f.bytes = segmentBytes base (rs.take j) ++ tail) (htail : decodeRecord tail = .ok none)
    (hx : base + rs.length ≤ x.1) :
    ∃ e, recoverSegments interval base t (((base, f) :: x :: files).map discovered) = .error e := by
  have hcut : Sequenced t base (rs.take j) := by
    rw [← List.take_append_drop j rs, sequenced_append] at hseq
    exact hseq.1
  have hlen : (rs.take j).length = j := List.length_take_of_le (Nat.le_of_lt hj)
  have hspec := @recoverSegment_spec _ interval base (rs.take j) t tail hcut
    (by rw [hlen]; omega) htail
  rw [← h, hlen] at hspec
  rw [List.map_cons, recoverSegments, if_neg (fun hne => hne rfl),
    show (discovered (base, f)).file = f from rfl, hspec]
  simp only
  split
  · exact ⟨_, rfl⟩
  · have hbase : (discovered x).baseOffset ≠ base + j := by
      simp only [discovered]
      omega
    rw [List.map_cons, recoverSegments, if_pos hbase]
    exact ⟨_, rfl⟩

/-- `open` refuses a directory with one cut file. -/
theorem recoverSegments_cut {base : Nat} {files : List (Nat × File)} {t : ProducerTable}
    (h : Cut base chunks last files) (hseq : Sequenced t base (chunks.flatten ++ last))
    (hb : base + (chunks.flatten ++ last).length ≤ U64_MAX) :
    ∃ e, recoverSegments interval base t (files.map discovered) = .error e := by
  induction h generalizing t with
  | @here base j rs chunks last f files tail hj h htail next =>
    rw [List.flatten_cons, List.append_assoc] at hseq hb
    have hrs := ((sequenced_append _ _ _ _).1 hseq).1
    rw [List.length_append] at hb
    obtain ⟨x, files', rfl⟩ := List.exists_cons_of_ne_nil next.ne_nil
    exact recoverSegments_short hrs (by omega) hj h htail (next.base_le x List.mem_cons_self)
  | @there base rs chunks last f files h next ih =>
    rw [List.flatten_cons, List.append_assoc] at hseq hb
    have hseq' := (sequenced_append _ _ _ _).1 hseq
    rw [List.length_append, ← Nat.add_assoc] at hb
    obtain ⟨e, he⟩ := ih hseq'.2 hb
    have hspec := @recoverSegment_spec _ interval base rs t [] hseq'.1 (by omega) rfl
    rw [List.append_nil, ← h] at hspec
    rw [List.map_cons, recoverSegments, if_neg (fun hne => hne rfl),
      show (discovered (base, f)).file = f from rfl, hspec]
    simp only [he]
    split
    · exact ⟨_, rfl⟩
    · exact ⟨_, rfl⟩

/-- The file of one closed segment is cut to its synced prefix; the others stay as they are. -/
theorem Covers.cut {base : Nat} {ss : List SegmentMetadata} {active : SegmentMetadata}
    (hcov : Covers interval base chunks ss)
    (hin : ∀ s ∈ ss, s.file.synced ≤ s.file.bytes.length)
    (hshort : ∃ s ∈ ss, s.file.synced ≠ s.file.bytes.length)
    (hactive : Holds interval (base + chunks.flatten.length) last active)
    (hc : ∀ r ∈ chunks.flatten, checkRecord r = .ok ())
    (hb : base + chunks.flatten.length ≤ U64_MAX) :
    ∃ files, Cut base chunks last (files ++ [(active.baseOffset, active.file)]) ∧
      List.Forall₂ (fun x y => y.1 = x.1 ∧ x.2.Keeps y.2)
        (ss.map fun s => (s.baseOffset, s.file)) files := by
  induction hcov with
  | nil =>
    obtain ⟨s, hs, _⟩ := hshort
    exact absurd hs List.not_mem_nil
  | @cons base rs chunks s ss head tail ih =>
    rw [List.flatten_cons, List.length_append, ← Nat.add_assoc] at hactive hb
    rw [List.flatten_cons] at hc
    have hself : ∀ x ∈ ss.map fun s => (s.baseOffset, s.file), x.2.Keeps x.2 := by
      intro x hx
      obtain ⟨y, hy, rfl⟩ := List.mem_map.1 hx
      exact .refl (hin y (List.mem_cons_of_mem _ hy))
    by_cases hsynced : s.file.synced = s.file.bytes.length
    · -- the cut is further on
      have hrest : ∃ x ∈ ss, x.file.synced ≠ x.file.bytes.length := by
        obtain ⟨x, hx, hne⟩ := hshort
        rcases List.mem_cons.1 hx with rfl | hx
        · exact absurd hsynced hne
        · exact ⟨x, hx, hne⟩
      obtain ⟨files, hcut, hkeep⟩ := ih (fun x hx => hin x (List.mem_cons_of_mem _ hx)) hrest hactive
        (fun r hr => hc r (List.mem_append_right _ hr)) hb
      refine ⟨(base, s.file) :: files, .there head.bytes hcut, ?_⟩
      refine .cons ⟨head.baseOffset.symm, .refl (hin s List.mem_cons_self)⟩ hkeep
    · have hlt : s.file.synced < s.file.bytes.length :=
        Nat.lt_of_le_of_ne (hin s List.mem_cons_self) hsynced
      have hlen : (s.file.bytes.take s.file.synced).length = s.file.synced :=
        List.length_take_of_le (Nat.le_of_lt hlt)
      have hp : s.file.bytes.take s.file.synced <+: segmentBytes base rs := by
        rw [← head.bytes]
        exact List.take_prefix _ _
      obtain ⟨j, torn, hj, hbytes, htorn, _, hall⟩ := prefix_segmentBytes
        (fun r hr => hc r (List.mem_append_left _ hr)) (by omega) hp
      -- some record is gone, for the whole ones would fill the file
      have hjlt : j < rs.length := by
        refine Nat.lt_of_le_of_ne hj fun heq => ?_
        rw [hall heq, heq, List.take_length, List.append_nil, ← head.bytes] at hbytes
        rw [hbytes] at hlen
        omega
      refine ⟨(base, ⟨s.file.bytes.take s.file.synced, s.file.synced⟩) ::
        ss.map (fun s => (s.baseOffset, s.file)), .here hjlt hbytes htorn ?_, ?_⟩
      · exact tail.laid hactive (List.append_nil _).symm
      · refine .cons ⟨head.baseOffset.symm, List.take_prefix _ _, ?_⟩ ?_
        · exact Nat.le_of_eq hlen.symm
        · exact List.forall₂_same.2 fun x hx => ⟨rfl, hself x hx⟩

/-- **A closed segment that is not synced can be lost**, and with it the whole log. -/
theorem Rep.not_durable {topic : String} {maxSegmentBytes : Nat} {synced : PartitionLog}
    (h : Rep interval log [] chunks last) (hwithin : SyncedWithin log)
    (hclosed : ¬ ClosedSynced log) :
    ¬ SyncDurable synced log topic maxSegmentBytes interval := by
  intro hdurable
  obtain ⟨closed, active, hs, hcov, hactive⟩ := h.segments.last
  have hshort : ∃ s ∈ closed, s.file.synced ≠ s.file.bytes.length := by
    unfold ClosedSynced at hclosed
    rw [hs, List.dropLast_concat] at hclosed
    push Not at hclosed
    exact hclosed
  have hbound := h.bound
  have hnext := h.nextOffset_eq
  rw [List.length_nil, Nat.zero_add] at hnext
  rw [hnext] at hbound
  have hin : ∀ s ∈ closed ++ [active], s.file.synced ≤ s.file.bytes.length ∧
      s.indexFile.synced ≤ s.indexFile.bytes.length := fun s hmem => hwithin s (by rw [hs]; exact hmem)
  obtain ⟨files, hcut, hkeep⟩ := hcov.cut (fun s hmem => (hin s (List.mem_append_left _ hmem)).1)
    hshort hactive (fun r hr => h.checked r (List.mem_append_left _ hr))
    (by rw [List.length_nil, Nat.zero_add]; rw [List.length_append] at hbound; omega)
  have hkeeps : List.Forall₂ (fun x y => y.1 = x.1 ∧ x.2.Keeps y.2) log.dir.logs
      (files ++ [(active.baseOffset, active.file)]) := by
    simp only [PartitionLog.dir, hs, List.map_append, List.map_cons, List.map_nil]
    refine List.rel_append hkeep (.cons ⟨rfl, .refl ?_⟩ .nil)
    exact (hin active (List.mem_append_right _ (List.mem_singleton.2 rfl))).1
  have hcrash : Crash log.dir ⟨files ++ [(active.baseOffset, active.file)], log.dir.indexes⟩ := by
    refine .mk (List.Perm.refl _) (List.Perm.refl _) hkeeps ?_
    refine List.forall₂_same.2 fun x hx => ⟨rfl, .refl ?_⟩
    obtain ⟨s, hmem, rfl⟩ := List.mem_map.1 hx
    exact (hwithin s hmem).2
  obtain ⟨log', hopen, _⟩ := hdurable _ hcrash
  have hset := openLog_settings hopen
  have hinit := @initialSegments_sorted _ ⟨_, log.dir.indexes⟩
    (keeps_sorted hkeeps (h.laid.sorted h.closed)) (List.concat_ne_nil _ _) (List.Perm.refl _)
  obtain ⟨e, he⟩ := @recoverSegments_cut _ interval _ _ 0 _ .empty hcut h.sequenced
    (by rw [Nat.zero_add]; exact hbound)
  rw [PartitionLog.openLog, hset.topic] at hopen
  simp only [if_neg hset.segment, if_neg hset.index, hinit, he] at hopen
  cases hopen

/-! ## Runs -/

/-- A run of appends and syncs keeps the first `n` records synced as far as the active segment is
concerned; the closed segments are synced at its end if each rotation found its file synced, and
only then. -/
theorem SyncedTo.of_run {n : Nat} {records : RecordLog} {ops : List Operation}
    (h : SyncedTo interval n log records) (hwithin : SyncedWithin log)
    (hops : ∀ op ∈ ops, op.appendsOrSyncs = true) (hfew : Along PartitionLog.step Countable log ops)
    (hr : run PartitionLog.step log ops = some log') :
    ∃ records', records <+: records' ∧ SyncedTo interval n log' records' ∧ SyncedWithin log' ∧
      (ClosedSynced log' ↔ ClosedSynced log ∧ Along PartitionLog.step RotatesSynced log ops) := by
  induction ops generalizing log records with
  | nil =>
    cases hr
    exact ⟨records, List.prefix_rfl, h, hwithin, fun hc => ⟨hc, trivial⟩, And.left⟩
  | cons op ops ih =>
    simp only [run] at hr
    split at hr
    · cases hr
    · rename_i log₁ hs
      have hop := hops op List.mem_cons_self
      obtain ⟨chunks, last, hrep, _⟩ := h.refines
      have hw := hrep.written hop hfew.1 hs
      obtain ⟨records₁, hpre₁, h₁⟩ := h.step hop hfew.1 hs
      obtain ⟨records', hpre, h', hwithin', hiff⟩ := ih h₁ (hw.syncedWithin hwithin)
        (fun x hx => hops x (List.mem_cons_of_mem _ hx)) (hfew.2 _ hs) hr
      refine ⟨records', hpre₁.trans hpre, h', hwithin', ?_⟩
      rw [hiff, hw.closedSynced_iff, and_assoc]
      refine and_congr_right fun _ => and_congr_right fun _ => ⟨fun hrest => ?_, fun hrest => ?_⟩
      · intro log₂ hs₂
        rw [hs] at hs₂
        cases hs₂; exact hrest
      · exact hrest log₁ hs

/-- After `sync_data` all records are on disk, as far as the active segment is concerned. -/
theorem Refines.syncedTo {records : RecordLog} (h : Refines interval log records) :
    SyncedTo interval records.length log.syncData records := by
  obtain ⟨chunks, last, hrep, rfl⟩ := h
  obtain ⟨closed, active, hs, _, _⟩ := hrep.segments.last
  have hmem := PartitionLog.active_mem hs
  obtain ⟨hdrop, _, hholds⟩ := hrep.drop_active hmem
  refine ⟨⟨chunks, last, hrep.syncData, rfl⟩, Nat.le_refl _, fun a ha => ?_⟩
  rw [PartitionLog.syncData_eq hs, List.getLast?_concat, Option.mem_some_iff] at ha
  subst ha
  simp only [File.syncData]
  rw [hdrop, hholds.bytes, segmentBytes_length]
  exact totalSize_take_le _ _

/-- The step has room for its offset and finds the file it closes synced. -/
def ClosesSynced (log : PartitionLog) (op : Operation) : Prop :=
  Countable log op ∧ RotatesSynced log op

/-- **`sync_data` makes every earlier record durable** when each rotation finds the file it closes
synced, and only then. -/
theorem sync_data_durable {topic : String} {maxSegmentBytes interval : Nat}
    {log₀ log₁ log₂ : PartitionLog} {ops₁ ops₂ : List Operation}
    (h₀ : PartitionLog.openLog Dir.empty topic maxSegmentBytes interval = .ok log₀)
    (hops : ∀ op ∈ ops₁ ++ ops₂, op.appendsOrSyncs = true)
    (hr₁ : run PartitionLog.step log₀ ops₁ = some log₁)
    (hr₂ : run PartitionLog.step log₁ (.syncData :: ops₂) = some log₂) :
    (Along PartitionLog.step ClosesSynced log₀ (ops₁ ++ .syncData :: ops₂) →
      SyncDurable log₁ log₂ topic maxSegmentBytes interval) ∧
    (Along PartitionLog.step Countable log₀ (ops₁ ++ .syncData :: ops₂) →
      ¬ Along PartitionLog.step RotatesSynced log₀ (ops₁ ++ .syncData :: ops₂) →
      ¬ SyncDurable log₁ log₂ topic maxSegmentBytes interval) := by
  have hnew : SyncedTo interval 0 log₀ [] :=
    ⟨⟨[], [], openLog_empty h₀, rfl⟩, Nat.le_refl _, fun _ _ => by
      rw [Nat.zero_sub, List.take_zero]; exact Nat.zero_le _⟩
  have hstart : ClosedSynced log₀ ∧ SyncedWithin log₀ := by
    rw [openLog_new h₀]
    refine ⟨fun s hs => absurd hs List.not_mem_nil, fun s hs => ?_⟩
    rw [List.mem_singleton.1 hs]
    exact ⟨Nat.le_refl _, Nat.le_refl _⟩
  have hset := openLog_settings h₀
  -- the state in which the records are to be found, and what decides whether they are
  have hend : Along PartitionLog.step Countable log₀ (ops₁ ++ .syncData :: ops₂) →
      ∃ records₁ records₂, Refines interval log₁ records₁ ∧ records₁ <+: records₂ ∧
        SyncedTo interval records₁.length log₂ records₂ ∧ SyncedWithin log₂ ∧
        (ClosedSynced log₂ ↔
          Along PartitionLog.step RotatesSynced log₀ (ops₁ ++ .syncData :: ops₂)) := by
    intro hfew
    obtain ⟨hfew₁, hfew₂⟩ := (along_append hr₁).1 hfew
    obtain ⟨records₁, _, h₁, hwithin₁, hiff₁⟩ := hnew.of_run hstart.2
      (fun op hop => hops op (List.mem_append_left _ hop)) hfew₁ hr₁
    have hs : log₁.step .syncData = some log₁.syncData := rfl
    obtain ⟨chunks, last, hrep, _⟩ := h₁.refines
    have hw : Written log₁ .syncData log₁.syncData := hrep.written rfl hfew₂.1 hs
    simp only [run, hs] at hr₂
    obtain ⟨records₂, hpre, h₂, hwithin₂, hiff₂⟩ := h₁.refines.syncedTo.of_run
      (hw.syncedWithin hwithin₁) (fun op hop => hops op (List.mem_append_right _ hop))
      (hfew₂.2 _ hs) hr₂
    refine ⟨records₁, records₂, h₁.refines, hpre, h₂, hwithin₂, ?_⟩
    rw [hiff₂, hw.closedSynced_iff, hiff₁, along_append hr₁, Along]
    constructor
    · rintro ⟨⟨⟨_, hrot₁⟩, hsync⟩, hrot₂⟩
      refine ⟨hrot₁, hsync, fun s' hs' => ?_⟩
      rw [hs] at hs'
      cases hs'
      exact hrot₂
    · rintro ⟨hrot₁, hsync, hrot₂⟩
      exact ⟨⟨⟨hstart.1, hrot₁⟩, hsync⟩, hrot₂ _ hs⟩
  refine ⟨fun hq dir hcrash => ?_, fun hfew hrot => ?_⟩
  · obtain ⟨records₁, records₂, h₁, hpre, h₂, _, hiff⟩ := hend (hq.mono fun _ _ h => h.1)
    obtain ⟨log', chunks', last', hopen, hrep', hkept⟩ :=
      h₂.survives (hiff.2 (hq.mono fun _ _ h => h.2)) hset hcrash
    rw [← List.prefix_iff_eq_take.1 hpre] at hkept
    obtain ⟨chunks, last, hrep, rfl⟩ := h₁
    refine ⟨log', hopen, fun s hs => ?_⟩
    rw [hrep.contains] at hs
    obtain ⟨rest, hrest⟩ := hkept
    rw [hrep'.contains, show chunks'.flatten ++ last' = history [] chunks' last' from rfl, ← hrest,
      storedFrom_append]
    exact List.mem_append_left _ hs
  · obtain ⟨_, _, _, _, h₂, hwithin, hiff⟩ := hend hfew
    obtain ⟨chunks, last, hrep, _⟩ := h₂.refines
    exact hrep.not_durable hwithin fun hc => hrot (hiff.1 hc)

end Durability

/-- The first of two segments is not synced, and the log does not open when its file is lost. -/
def torn [Checksum] (log : PartitionLog) : Bool :=
  match log.syncData.segments with
  | [s, active] => decide (s.baseOffset = 0 ∧ s.file.synced = 0 ∧
      active.file.synced = active.file.bytes.length ∧
      s.indexFile.synced ≤ s.indexFile.bytes.length ∧
      active.indexFile.synced ≤ active.indexFile.bytes.length ∧
      (PartitionLog.openLog ⟨[(0, .empty), (active.baseOffset, active.file)],
        log.syncData.dir.indexes⟩ "payments" 55 64).isOk = false)
  | _ => false

/-- Two records that do not fit into one segment: the first is in a closed segment when the log is
synced. -/
def closingRun : List Operation :=
  [.append ⟨none, utf8 "zero", 1, none⟩, .append ⟨none, utf8 "one", 1, none⟩]

theorem closed_segment_torn :
    letI := Checksum.crc32
    ∃ log₀ log₁ log₂ dir, PartitionLog.openLog Dir.empty "payments" 55 64 = .ok log₀ ∧
      run PartitionLog.step log₀ closingRun = some log₁ ∧ log₁.step .syncData = some log₂ ∧
      Crash log₂.dir dir ∧ (∀ log', PartitionLog.openLog dir "payments" 55 64 ≠ .ok log') ∧
      ¬ SyncDurable log₁ log₂ "payments" 55 64 := by
  let _ := Checksum.crc32
  -- the crash empties the file of segment 0, of which nothing is synced
  have hrun : (run PartitionLog.step ⟨0, 55, 64, [.new 0], .empty⟩ closingRun).any torn := by
    decide +kernel
  obtain ⟨log₁, hr, hlog⟩ := (Option.any_eq_true _ _).1 hrun
  unfold torn at hlog
  split at hlog
  · rename_i s active hs
    obtain ⟨hbase, hlost, hactive, hidx, hidx', hfails⟩ := of_decide_eq_true hlog
    have hcrash : Crash log₁.syncData.dir
        ⟨[(0, .empty), (active.baseOffset, active.file)], log₁.syncData.dir.indexes⟩ := by
      refine .mk (List.Perm.refl _) (List.Perm.refl _) ?_ ?_
      · simp only [PartitionLog.dir, hs, List.map_cons, List.map_nil]
        exact .cons ⟨hbase.symm, List.nil_prefix, Nat.le_of_eq hlost⟩
          (.cons ⟨rfl, .refl (Nat.le_of_eq hactive)⟩ .nil)
      · simp only [PartitionLog.dir, hs, List.map_cons, List.map_nil]
        exact .cons ⟨rfl, .refl hidx⟩ (.cons ⟨rfl, .refl hidx'⟩ .nil)
    have hnone : ∀ log', PartitionLog.openLog ⟨[(0, .empty), (active.baseOffset, active.file)],
        log₁.syncData.dir.indexes⟩ "payments" 55 64 ≠ .ok log' := by
      intro log' hopen
      rw [hopen] at hfails
      cases hfails
    refine ⟨_, log₁, _, _, rfl, hr, rfl, hcrash, hnone, fun hdurable => ?_⟩
    obtain ⟨log', hopen, _⟩ := hdurable _ hcrash
    exact hnone log' hopen
  · cases hlog

/-- The same records with a sync before the rotation. -/
def syncedRun : List Operation :=
  [.append ⟨none, utf8 "zero", 1, none⟩, .syncData, .append ⟨none, utf8 "one", 1, none⟩]

theorem sync_data_durable_synced :
    letI := Checksum.crc32
    ∃ log₀ log₁ log₂, PartitionLog.openLog Dir.empty "payments" 55 64 = .ok log₀ ∧
      run PartitionLog.step log₀ syncedRun = some log₁ ∧ log₁.segments.length = 2 ∧
      run PartitionLog.step log₁ [.syncData, .append ⟨none, utf8 "two", 1, none⟩] = some log₂ ∧
      SyncDurable log₁ log₂ "payments" 55 64 := by
  let _ := Checksum.crc32
  have hrun : (run PartitionLog.step ⟨0, 55, 64, [.new 0], .empty⟩ syncedRun).any (fun log =>
      log.segments.length = 2 ∧
      (run PartitionLog.step log [.syncData, .append ⟨none, utf8 "two", 1, none⟩]).isSome) := by
    decide +kernel
  obtain ⟨log₁, hr₁, hlog⟩ := (Option.any_eq_true _ _).1 hrun
  obtain ⟨hlen, hsome⟩ := of_decide_eq_true hlog
  obtain ⟨log₂, hr₂⟩ := Option.isSome_iff_exists.1 hsome
  have hops : ∀ op ∈ syncedRun ++ [.append ⟨none, utf8 "two", 1, none⟩],
      op.appendsOrSyncs = true := by decide
  have hcloses : Along PartitionLog.step ClosesSynced ⟨0, 55, 64, [.new 0], .empty⟩
      (syncedRun ++ [.syncData, .append ⟨none, utf8 "two", 1, none⟩]) := by
    have hfew : Along PartitionLog.step Countable ⟨0, 55, 64, [.new 0], .empty⟩
        (syncedRun ++ [.syncData, .append ⟨none, utf8 "two", 1, none⟩]) := by decide +kernel
    have hrot : Along PartitionLog.step RotatesSynced ⟨0, 55, 64, [.new 0], .empty⟩
        (syncedRun ++ [.syncData, .append ⟨none, utf8 "two", 1, none⟩]) := by decide +kernel
    exact hfew.and hrot
  exact ⟨_, log₁, log₂, rfl, hr₁, hlen, hr₂,
    (@sync_data_durable _ "payments" 55 64 _ _ _ _ _ rfl hops hr₁ hr₂).1 hcloses⟩

end SevlaMq.Storage

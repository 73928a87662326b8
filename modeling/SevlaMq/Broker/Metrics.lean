import SevlaMq.Broker.Observability
import SevlaMq.Broker.Topics
import SevlaMq.Common.Config
import SevlaMq.Protocol.Messages
import SevlaMq.Storage.Scan

/-!
# The metrics page

Model of `snapshot_logs`, `GroupCoordinator::snapshot`, `render_metrics` and the functions it calls,
of `crates/broker/src/lib.rs` and `crates/broker/src/groups.rs`.

* `renderMetrics` — the text of `/metrics`; `metricsPage` — the lines of it.
* `metrics_read_back` — the page can be read whatever topics, groups and hosts are called.
* `lag_counts_unread` — the lag of a group is the number of records it can still fetch.
-/

set_option autoImplicit false

namespace SevlaMq.Broker

open SevlaMq.Exposition SevlaMq.Storage SevlaMq.Cluster
open SevlaMq.Protocol (ClusterNode ClusterMetadata)

/-! ## Snapshots -/

structure PartitionSnapshot where
  topic : String
  partition : Nat
  highWatermark : Nat
  logEndOffset : Nat
  lowWatermark : Nat
  logSizeBytes : Nat
  segments : Nat
  deriving DecidableEq, Repr

structure GroupSnapshot where
  group : String
  topic : String
  generation : Nat
  members : Nat
  assignedPartitions : Nat
  committedOffsets : List (Nat × Nat)
  deriving DecidableEq, Repr

/-- `PartitionLogs`. -/
abbrev PartitionLogs := AList fun _ : String × Nat => PartitionLog

/-- One entry of `snapshot_logs`; the end of the log stands in for the watermark. -/
def snapshotOf (topic : String) (partition : Nat) (log : PartitionLog) : PartitionSnapshot :=
  ⟨topic, partition, log.nextOffset, log.nextOffset, log.lowWatermark, log.logSizeBytes,
    log.segments.length⟩

def PartitionSnapshot.le (a b : PartitionSnapshot) : Bool :=
  a.topic < b.topic ∨ (a.topic = b.topic ∧ a.partition ≤ b.partition)

/-- `snapshot_logs`. -/
def snapshotLogs (logs : PartitionLogs) : List PartitionSnapshot :=
  (logs.entries.map fun e => snapshotOf e.1.1 e.1.2 e.2).mergeSort PartitionSnapshot.le

/-- The maps of a `ConsumerGroup`. -/
structure GroupState where
  generation : Nat
  members : AList fun _ : String => Nat
  assignments : AList fun _ : String => List Nat
  committedOffsets : AList fun _ : Nat => Nat

/-- `HashMap<(String, String), ConsumerGroup>`. -/
abbrev GroupStates := AList fun _ : String × String => GroupState

/-- One entry of `GroupCoordinator::snapshot`. -/
def groupSnapshotOf (group topic : String) (state : GroupState) : GroupSnapshot :=
  ⟨group, topic, state.generation, state.members.entries.length,
    (state.assignments.entries.map (·.2.length)).sum,
    (state.committedOffsets.entries.map fun e => (e.1, e.2)).mergeSort (·.1 ≤ ·.1)⟩

def GroupSnapshot.le (a b : GroupSnapshot) : Bool :=
  a.group < b.group ∨ (a.group = b.group ∧ a.topic ≤ b.topic)

/-- `GroupCoordinator::snapshot`. -/
def snapshotGroups (groups : GroupStates) : List GroupSnapshot :=
  (groups.entries.map fun e => groupSnapshotOf e.1.1 e.1.2 e.2).mergeSort GroupSnapshot.le

/-- The handler of `/metrics` takes the watermark of the registry where it has one. -/
def PartitionSnapshot.withWatermark (entries : Entries) (s : PartitionSnapshot) :
    PartitionSnapshot :=
  match entries s.topic s.partition with
  | some current => { s with highWatermark := current.highWatermark }
  | none => s

/-! ## Rendering -/

def gauges (families : List (String × String)) : List Piece :=
  families.map fun (name, help) => .family name help "gauge"

/-- A gauge with its labels. -/
def gauge (labels : List (String × LabelValue)) (value : String × Nat) : Piece :=
  .sample value.1 labels (.number value.2)

def partitionLabels (topic : String) (partition : Nat) : List (String × LabelValue) :=
  [("topic", .text topic), ("partition", .number partition)]

/-- The topics of the partitions, as a `BTreeMap` has them. -/
def topicsOf (partitions : List PartitionSnapshot) : List String :=
  (partitions.map (·.topic)).dedup.mergeSort (· ≤ ·)

/-- `saturating_add` over the partitions of a topic. -/
def topicTotal (value : PartitionSnapshot → Nat) (partitions : List PartitionSnapshot)
    (topic : String) : Nat :=
  (partitions.filter (·.topic = topic)).foldl (fun total s => min (total + value s) U64_MAX) 0

def partitionGauges : List (String × String) :=
  [("sevlamq_partition_high_watermark", "Next offset of a partition."),
    ("sevlamq_partition_log_end_offset", "Next locally stored offset."),
    ("sevlamq_partition_low_watermark", "Earliest available offset."),
    ("sevlamq_partition_records", "Records currently retained in a partition."),
    ("sevlamq_partition_log_size_bytes", "Bytes stored in partition logs."),
    ("sevlamq_partition_segments", "Number of log segments.")]

/-- What is reported about one partition. -/
def PartitionSnapshot.values (s : PartitionSnapshot) : List (String × Nat) :=
  [("sevlamq_partition_high_watermark", s.highWatermark),
    ("sevlamq_partition_log_end_offset", s.logEndOffset),
    ("sevlamq_partition_low_watermark", s.lowWatermark),
    ("sevlamq_partition_records", s.highWatermark - s.lowWatermark),
    ("sevlamq_partition_log_size_bytes", s.logSizeBytes),
    ("sevlamq_partition_segments", s.segments)]

/-- `render_partition_metrics`. -/
def renderPartitionMetrics (partitions : List PartitionSnapshot) : List Piece :=
  gauges partitionGauges ++
    partitions.flatMap fun s => s.values.map (gauge (partitionLabels s.topic s.partition))

/-- The watermark of a partition, or zero. -/
def watermarkOf (partitions : List PartitionSnapshot) (topic : String) (partition : Nat) : Nat :=
  ((partitions.find? fun s => s.topic = topic ∧ s.partition = partition).map
    (·.highWatermark)).getD 0

/-- The labels of a replica of a partition. -/
def replicaLabels (who : String) (key : ReplicaKey) : List (String × LabelValue) :=
  (who, .number key.1.toNat) :: partitionLabels key.2.1 key.2.2.toNat

/-- The series of a hash map whose values are zero or one. -/
def replicaStates (name who : String) (states : AList fun _ : ReplicaKey => Bool) : List Piece :=
  states.entries.map fun e => gauge (replicaLabels who e.1) (name, e.2.toNat)

/-- `render_replication_metrics`. -/
def renderReplicationMetrics (m : RuntimeMetrics) (partitions : List PartitionSnapshot) :
    List Piece :=
  gauges [("sevlamq_replica_offset", "Next offset acknowledged by a follower."),
      ("sevlamq_replication_lag_records", "Records not yet acknowledged by a follower.")] ++
    (m.replicaOffsets.entries.flatMap fun e =>
      [("sevlamq_replica_offset", e.2.toNat),
        ("sevlamq_replication_lag_records",
          watermarkOf partitions e.1.2.1 e.1.2.2.toNat - e.2.toNat)].map
        (gauge (replicaLabels "follower_id" e.1))) ++
    gauges [("sevlamq_replica_in_sync", "Whether this follower reached its leader.")] ++
    replicaStates "sevlamq_replica_in_sync" "leader_id" m.replicaSync ++
    gauges [("sevlamq_partition_isr", "Broker membership in a partition ISR.")] ++
    replicaStates "sevlamq_partition_isr" "broker_id" m.inSyncReplicas

def groupGauges : List (String × String) :=
  [("sevlamq_consumer_group_members", "Active consumer group members."),
    ("sevlamq_consumer_group_generation", "Current consumer group generation."),
    ("sevlamq_consumer_group_assigned_partitions", "Partitions assigned to active members."),
    ("sevlamq_consumer_group_committed_offset", "Committed next offset for a partition."),
    ("sevlamq_consumer_group_lag", "Records between the committed offset and high watermark."),
    ("sevlamq_consumer_group_lag_total", "Total consumer group lag across a topic.")]

namespace GroupSnapshot

/-- The committed offset of a partition, or zero. -/
def committed (g : GroupSnapshot) (partition : Nat) : Nat :=
  (g.committedOffsets.findSome? fun (id, offset) =>
    if id = partition then some offset else none).getD 0

def lag (g : GroupSnapshot) (s : PartitionSnapshot) : Nat :=
  s.highWatermark - max (g.committed s.partition) s.lowWatermark

/-- `total_lag`, over the partitions of the group's topic. -/
def lagTotal (g : GroupSnapshot) (partitions : List PartitionSnapshot) : Nat :=
  topicTotal g.lag partitions g.topic

def labels (g : GroupSnapshot) : List (String × LabelValue) :=
  [("group", .text g.group), ("topic", .text g.topic)]

def values (g : GroupSnapshot) : List (String × Nat) :=
  [("sevlamq_consumer_group_members", g.members),
    ("sevlamq_consumer_group_generation", g.generation),
    ("sevlamq_consumer_group_assigned_partitions", g.assignedPartitions)]

/-- What is reported about a group and a partition. -/
def partitionValues (g : GroupSnapshot) (s : PartitionSnapshot) : List (String × Nat) :=
  [("sevlamq_consumer_group_committed_offset", g.committed s.partition),
    ("sevlamq_consumer_group_lag", g.lag s)]

/-- The series of one group. -/
def render (g : GroupSnapshot) (partitions : List PartitionSnapshot) : List Piece :=
  g.values.map (gauge g.labels) ++
    ((partitions.filter (·.topic = g.topic)).flatMap fun s =>
      (g.partitionValues s).map (gauge (g.labels ++ [("partition", .number s.partition)]))) ++
    [gauge g.labels ("sevlamq_consumer_group_lag_total", g.lagTotal partitions)]

end GroupSnapshot

/-- `render_group_metrics`. -/
def renderGroupMetrics (partitions : List PartitionSnapshot) (groups : List GroupSnapshot) :
    List Piece :=
  gauges groupGauges ++ groups.flatMap fun g => g.render partitions

/-- The labels of `sevlamq_broker_info`. -/
def nodeLabels (cluster : ClusterMetadata) (node : ClusterNode) : List (String × LabelValue) :=
  [("broker_id", .number node.id.toNat), ("host", .text node.host),
    ("port", .number node.port.toNat),
    ("current", .number (decide (node.id = cluster.respondingBrokerId)).toNat)]

/-- `render_metrics`. -/
def renderMetrics (m : RuntimeMetrics) (storageQueueDepth : Nat)
    (partitions : List PartitionSnapshot) (groups : List GroupSnapshot)
    (cluster : ClusterMetadata) : List Piece :=
  m.render ++
    gauges [("sevlamq_broker_info", "Static broker identity and endpoint.")] ++
    (cluster.nodes.map fun node => gauge (nodeLabels cluster node) ("sevlamq_broker_info", 1)) ++
    gauges [("sevlamq_storage_queue_depth", "Commands waiting in the storage worker queue.")] ++
    [gauge [] ("sevlamq_storage_queue_depth", storageQueueDepth)] ++
    gauges [("sevlamq_topic_partitions", "Number of partitions in a topic.")] ++
    ((topicsOf partitions).map fun topic => gauge [("topic", .text topic)]
      ("sevlamq_topic_partitions", partitions.countP (·.topic = topic))) ++
    gauges [("sevlamq_topic_high_watermark_sum", "Sum of partition high watermarks."),
      ("sevlamq_topic_log_size_bytes", "Bytes stored by all partitions of a topic.")] ++
    ((topicsOf partitions).flatMap fun topic =>
      [("sevlamq_topic_high_watermark_sum", topicTotal (·.highWatermark) partitions topic),
        ("sevlamq_topic_log_size_bytes", topicTotal (·.logSizeBytes) partitions topic)].map
        (gauge [("topic", .text topic)])) ++
    renderPartitionMetrics partitions ++
    renderReplicationMetrics m partitions ++
    renderGroupMetrics partitions groups

/-! ## The page is read back -/

theorem gauges_proper {families : List (String × String)}
    (h : ∀ f ∈ families, Named f.1 ∧ '\n' ∉ f.2.toList) :
    ∀ piece ∈ gauges families, piece.Proper := by
  intro piece hpiece
  obtain ⟨f, hf, rfl⟩ := List.mem_map.1 hpiece
  exact ⟨(h f hf).1, (h f hf).2, by decide⟩

/-- Samples with the same labels, by the names of both. -/
theorem gauge_proper {labels : List (String × LabelValue)} {values : List (String × Nat)}
    {names labelNames : List String} (hvalues : values.map (·.1) = names)
    (hlabels : labels.map (·.1) = labelNames) (hnamed : ∀ name ∈ names ++ labelNames, Named name) :
    ∀ piece ∈ values.map (gauge labels), piece.Proper := by
  subst hvalues hlabels
  intro piece hpiece
  obtain ⟨v, hv, rfl⟩ := List.mem_map.1 hpiece
  exact ⟨hnamed _ (List.mem_append_left _ (List.mem_map.2 ⟨v, hv, rfl⟩)), fun l hl =>
    hnamed _ (List.mem_append_right _ (List.mem_map.2 ⟨l, hl, rfl⟩))⟩

/-- One sample for each element of a list. -/
theorem gauges_of_proper {α : Type} {xs : List α} {labels : α → List (String × LabelValue)}
    {value : α → Nat} {name : String} {labelNames : List String}
    (hlabels : ∀ x, (labels x).map (·.1) = labelNames)
    (hnamed : ∀ n ∈ name :: labelNames, Named n) :
    ∀ piece ∈ xs.map fun x => gauge (labels x) (name, value x), piece.Proper := by
  intro piece hpiece
  obtain ⟨x, _, rfl⟩ := List.mem_map.1 hpiece
  exact @gauge_proper (labels x) [(name, value x)] _ _ rfl (hlabels x) hnamed _ List.mem_cons_self

theorem histogram_proper (h : Histogram) {name help : String}
    (hnames : Named name ∧ Named (name ++ "_bucket") ∧ Named (name ++ "_count") ∧
      Named (name ++ "_sum")) (hhelp : '\n' ∉ help.toList) :
    ∀ piece ∈ h.render name help, piece.Proper := by
  obtain ⟨hname, hbucket, hcount, hsum⟩ := hnames
  have hle : ∀ v : LabelValue, ∀ l ∈ [("le", v)], Named l.1 := by
    intro v l hl
    rw [List.mem_singleton.1 hl]
    exact (by decide : Named "le")
  intro piece hpiece
  simp only [Histogram.render, List.cons_append, List.mem_cons, List.mem_append, List.mem_map,
    List.not_mem_nil, or_false] at hpiece
  rcases hpiece with rfl | ⟨i, _, rfl⟩ | rfl | rfl | rfl
  · exact ⟨hname, hhelp, by decide⟩
  · exact ⟨hbucket, hle _⟩
  · exact ⟨hbucket, hle _⟩
  · exact ⟨hcount, fun _ hl => absurd hl List.not_mem_nil⟩
  · exact ⟨hsum, fun _ hl => absurd hl List.not_mem_nil⟩

/-- Names and texts are the same for all values. -/
theorem metrics_proper (m : RuntimeMetrics) : ∀ piece ∈ m.render, piece.Proper := by
  have hcounters : ∀ f ∈ m.counters.map fun c => (c.1, c.2.1, c.2.2.1),
      Named f.1 ∧ '\n' ∉ f.2.1.toList ∧ '\n' ∉ f.2.2.toList := by
    rw [show (m.counters.map fun c => (c.1, c.2.1, c.2.2.1)) =
      RuntimeMetrics.default.counters.map fun c => (c.1, c.2.1, c.2.2.1) from rfl]
    decide +kernel
  have hhistograms : ∀ f ∈ m.histograms.map fun h => (h.1, h.2.1), (Named f.1 ∧
      Named (f.1 ++ "_bucket") ∧ Named (f.1 ++ "_count") ∧ Named (f.1 ++ "_sum")) ∧
        '\n' ∉ f.2.toList := by
    rw [show (m.histograms.map fun h => (h.1, h.2.1)) =
      RuntimeMetrics.default.histograms.map fun h => (h.1, h.2.1) from rfl]
    decide +kernel
  rw [List.forall_mem_map] at hcounters hhistograms
  intro piece hpiece
  rcases List.mem_append.1 hpiece with hpiece | hpiece
  · obtain ⟨⟨name, help, kind, value⟩, hc, hpiece⟩ := List.mem_flatMap.1 hpiece
    obtain ⟨hname, hhelp, hkind⟩ := hcounters _ hc
    rcases List.mem_cons.1 hpiece with rfl | hpiece
    · exact ⟨hname, hhelp, hkind⟩
    · rw [List.mem_singleton.1 hpiece]
      exact ⟨hname, fun _ hl => absurd hl List.not_mem_nil⟩
  · obtain ⟨⟨name, help, h⟩, hh, hpiece⟩ := List.mem_flatMap.1 hpiece
    obtain ⟨hnames, hhelp⟩ := hhistograms _ hh
    exact histogram_proper h hnames hhelp piece hpiece

theorem partition_proper (partitions : List PartitionSnapshot) :
    ∀ piece ∈ renderPartitionMetrics partitions, piece.Proper := by
  intro piece hpiece
  rcases List.mem_append.1 hpiece with hpiece | hpiece
  · exact gauges_proper (by decide +kernel) piece hpiece
  · obtain ⟨s, _, hpiece⟩ := List.mem_flatMap.1 hpiece
    exact @gauge_proper _ _ (partitionGauges.map (·.1)) ["topic", "partition"] rfl rfl
      (by decide +kernel) piece hpiece

theorem replication_proper (m : RuntimeMetrics) (partitions : List PartitionSnapshot) :
    ∀ piece ∈ renderReplicationMetrics m partitions, piece.Proper := by
  intro piece hpiece
  simp only [renderReplicationMetrics, List.mem_append, or_assoc] at hpiece
  rcases hpiece with hpiece | hpiece | hpiece | hpiece | hpiece | hpiece
  · exact gauges_proper (by decide +kernel) piece hpiece
  · obtain ⟨e, _, hpiece⟩ := List.mem_flatMap.1 hpiece
    exact @gauge_proper _ _ ["sevlamq_replica_offset", "sevlamq_replication_lag_records"]
      ["follower_id", "topic", "partition"] rfl rfl (by decide +kernel) piece hpiece
  · exact gauges_proper (by decide +kernel) piece hpiece
  · exact @gauges_of_proper _ _ _ _ _ ["leader_id", "topic", "partition"] (fun _ => rfl)
      (by decide +kernel) piece hpiece
  · exact gauges_proper (by decide +kernel) piece hpiece
  · exact @gauges_of_proper _ _ _ _ _ ["broker_id", "topic", "partition"] (fun _ => rfl)
      (by decide +kernel) piece hpiece

theorem group_proper (partitions : List PartitionSnapshot) (groups : List GroupSnapshot) :
    ∀ piece ∈ renderGroupMetrics partitions groups, piece.Proper := by
  intro piece hpiece
  rcases List.mem_append.1 hpiece with hpiece | hpiece
  · exact gauges_proper (by decide +kernel) piece hpiece
  obtain ⟨g, _, hpiece⟩ := List.mem_flatMap.1 hpiece
  simp only [GroupSnapshot.render, List.mem_append, or_assoc] at hpiece
  rcases hpiece with hpiece | hpiece | hpiece
  · exact @gauge_proper _ _ ["sevlamq_consumer_group_members",
      "sevlamq_consumer_group_generation", "sevlamq_consumer_group_assigned_partitions"]
      ["group", "topic"] rfl rfl (by decide +kernel) piece hpiece
  · obtain ⟨s, _, hpiece⟩ := List.mem_flatMap.1 hpiece
    exact @gauge_proper _ _ ["sevlamq_consumer_group_committed_offset",
      "sevlamq_consumer_group_lag"] ["group", "topic", "partition"] rfl rfl (by decide +kernel)
      piece hpiece
  · exact @gauge_proper _ [_] ["sevlamq_consumer_group_lag_total"] ["group", "topic"] rfl rfl
      (by decide +kernel) piece hpiece

theorem renderMetrics_proper (m : RuntimeMetrics) (storageQueueDepth : Nat)
    (partitions : List PartitionSnapshot) (groups : List GroupSnapshot)
    (cluster : ClusterMetadata) :
    ∀ piece ∈ renderMetrics m storageQueueDepth partitions groups cluster, piece.Proper := by
  intro piece hpiece
  simp only [renderMetrics, List.mem_append, or_assoc] at hpiece
  rcases hpiece with hpiece | hpiece | hpiece | hpiece | hpiece | hpiece | hpiece | hpiece |
    hpiece | hpiece | hpiece | hpiece
  · exact metrics_proper m piece hpiece
  · exact gauges_proper (by decide +kernel) piece hpiece
  · exact @gauges_of_proper _ _ _ _ _ ["broker_id", "host", "port", "current"] (fun _ => rfl)
      (by decide +kernel) piece hpiece
  · exact gauges_proper (by decide +kernel) piece hpiece
  · exact @gauge_proper _ [_] ["sevlamq_storage_queue_depth"] [] rfl rfl (by decide +kernel)
      piece hpiece
  · exact gauges_proper (by decide +kernel) piece hpiece
  · exact @gauges_of_proper _ _ _ _ _ ["topic"] (fun _ => rfl) (by decide +kernel) piece hpiece
  · exact gauges_proper (by decide +kernel) piece hpiece
  · obtain ⟨topic, _, hpiece⟩ := List.mem_flatMap.1 hpiece
    exact @gauge_proper _ _ ["sevlamq_topic_high_watermark_sum", "sevlamq_topic_log_size_bytes"]
      ["topic"] rfl rfl (by decide +kernel) piece hpiece
  · exact partition_proper partitions piece hpiece
  · exact replication_proper m partitions piece hpiece
  · exact group_proper partitions groups piece hpiece

/-! ## Every series once -/

def readLabels (labels : List (String × LabelValue)) : List Label :=
  labels.map fun l => (l.1, l.2.read)

/-- The series that are written. -/
def seriesOf (output : List Piece) : List (String × List Label) :=
  (output.flatMap Piece.lines).filterMap Line.series

theorem seriesOf_append (output output' : List Piece) :
    seriesOf (output ++ output') = seriesOf output ++ seriesOf output' := by
  rw [seriesOf, List.flatMap_append, List.filterMap_append, seriesOf, seriesOf]

theorem seriesOf_flatMap {α : Type} (xs : List α) (f : α → List Piece) :
    seriesOf (xs.flatMap f) = xs.flatMap fun x => seriesOf (f x) := by
  rw [seriesOf, List.flatMap_assoc, List.filterMap_flatMap]
  rfl

theorem seriesOf_gauges (families : List (String × String)) : seriesOf (gauges families) = [] := by
  induction families with
  | nil => rfl
  | cons f fs ih => exact ih

/-- Samples with the same labels. -/
theorem seriesOf_gauge (labels : List (String × LabelValue)) (values : List (String × Nat)) :
    seriesOf (values.map (gauge labels)) =
      (values.map (·.1)).map fun name => (name, readLabels labels) := by
  induction values with
  | nil => rfl
  | cons v vs ih => exact congrArg ((v.1, readLabels labels) :: ·) ih

theorem seriesOf_gauges_of {α : Type} (xs : List α) (labels : α → List (String × LabelValue))
    (value : α → Nat) (name : String) :
    seriesOf (xs.map fun x => gauge (labels x) (name, value x)) =
      xs.flatMap fun x => [name].map fun n => (n, readLabels (labels x)) := by
  induction xs with
  | nil => rfl
  | cons x xs ih => exact congrArg ((name, readLabels (labels x)) :: ·) ih

theorem number_read_inj {n n' : Nat}
    (h : (LabelValue.number n).read = (LabelValue.number n').read) :
    n = n' := by
  have hdigits := String.ofList_injective h
  rw [decimal, decimal] at hdigits
  rw [← @Nat.ofDigitChars_ten_toDigits n, hdigits, Nat.ofDigitChars_ten_toDigits]

theorem partitionLabels_inj {t t' : String} {p p' : Nat}
    (h : readLabels (partitionLabels t p) = readLabels (partitionLabels t' p')) :
    (t, p) = (t', p') := by
  simp only [readLabels, partitionLabels, List.map_cons, List.map_nil, List.cons.injEq,
    Prod.mk.injEq, true_and, and_true] at h
  exact Prod.ext h.1 (number_read_inj h.2)

/-- A table of names and rows names only these. -/
theorem table_names {α : Type} {xs : List α} {names : List String} {labels : α → List Label} :
    ∀ x ∈ xs.flatMap fun x => names.map fun name => (name, labels x), x.1 ∈ names := by
  intro x hx
  obtain ⟨_, _, hx⟩ := List.mem_flatMap.1 hx
  obtain ⟨name, hname, rfl⟩ := List.mem_map.1 hx
  exact hname

theorem topicsOf_nodup (partitions : List PartitionSnapshot) : (topicsOf partitions).Nodup :=
  ((List.mergeSort_perm _ _).nodup_iff).2 (List.nodup_dedup _)

/-- The entries of a hash map have different labels. -/
theorem replica_pairwise {β : Type} (states : AList fun _ : ReplicaKey => β) (who : String) :
    states.entries.Pairwise fun e e' =>
      readLabels (replicaLabels who e.1) ≠ readLabels (replicaLabels who e'.1) := by
  refine (List.pairwise_map.1 states.nodupKeys).imp fun hne heq => hne ?_
  simp only [readLabels, replicaLabels, List.map_cons, List.cons.injEq, Prod.mk.injEq,
    true_and] at heq
  obtain ⟨hid, hrest⟩ := heq
  have hkey := partitionLabels_inj hrest
  simp only [Prod.mk.injEq, UInt32.toNat_inj] at hkey
  exact Prod.ext (UInt32.toNat_inj.1 (number_read_inj hid)) (Prod.ext hkey.1 hkey.2)

/-- The series of one group. -/
theorem seriesOf_group (g : GroupSnapshot) (partitions : List PartitionSnapshot) :
    seriesOf (g.render partitions) =
      [(["sevlamq_consumer_group_members", "sevlamq_consumer_group_generation",
          "sevlamq_consumer_group_assigned_partitions"],
        ["sevlamq_consumer_group_members", "sevlamq_consumer_group_generation",
          "sevlamq_consumer_group_assigned_partitions"].map fun name =>
            (name, readLabels g.labels)),
        (["sevlamq_consumer_group_committed_offset", "sevlamq_consumer_group_lag"],
          (partitions.filter (·.topic = g.topic)).flatMap fun s =>
            ["sevlamq_consumer_group_committed_offset", "sevlamq_consumer_group_lag"].map
              fun name => (name, readLabels (g.labels ++ [("partition", .number s.partition)]))),
        (["sevlamq_consumer_group_lag_total"],
          [("sevlamq_consumer_group_lag_total", readLabels g.labels)])].flatMap (·.2) := by
  rw [GroupSnapshot.render, seriesOf_append, seriesOf_append, seriesOf_gauge, seriesOf_flatMap]
  simp only [seriesOf_gauge, List.flatMap_cons, List.flatMap_nil, List.append_nil,
    List.append_assoc]
  rfl

theorem groupGauges_nodup : (groupGauges.map (·.1)).Nodup := by decide +kernel

theorem group_series_nodup (g : GroupSnapshot) {partitions : List PartitionSnapshot}
    (hpartitions : (partitions.map fun s => (s.topic, s.partition)).Nodup) :
    (seriesOf (g.render partitions)).Nodup := by
  rw [seriesOf_group]
  refine nodup_blocks groupGauges_nodup ?_ ?_
  · simp only [List.forall_mem_cons, List.not_mem_nil, false_imp_iff, implies_true, and_true]
    refine ⟨fun x hx => ?_, table_names, List.mem_cons_self⟩
    obtain ⟨name, hname, rfl⟩ := List.mem_map.1 hx
    exact hname
  · simp only [List.forall_mem_cons, List.not_mem_nil, false_imp_iff, implies_true, and_true]
    refine ⟨List.Nodup.map (fun _ _ h => (Prod.mk.inj h).1) (by decide +kernel),
      nodup_table (by decide +kernel) ?_, List.nodup_singleton _⟩
    refine ((List.pairwise_map.1 hpartitions).filter _).imp_of_mem fun hs hs' hne heq => hne ?_
    have htopic := of_decide_eq_true (List.mem_filter.1 hs).2
    have htopic' := of_decide_eq_true (List.mem_filter.1 hs').2
    simp only [readLabels, List.map_append, List.append_cancel_left_eq, List.map_cons,
      List.map_nil, List.cons.injEq, Prod.mk.injEq, true_and, and_true] at heq
    exact Prod.ext (htopic.trans htopic'.symm) (number_read_inj heq)

/-- All series of a group carry its labels. -/
theorem group_series_labels (g : GroupSnapshot) (partitions : List PartitionSnapshot) :
    ∀ x ∈ seriesOf (g.render partitions),
      x.1 ∈ groupGauges.map (·.1) ∧ x.2.take 2 = readLabels g.labels := by
  intro x hx
  rw [seriesOf_group] at hx
  simp only [List.flatMap_cons, List.flatMap_nil, List.append_nil, List.mem_append] at hx
  rcases hx with hx | hx | hx
  · obtain ⟨name, hname, rfl⟩ := List.mem_map.1 hx
    have hall : ∀ n ∈ ["sevlamq_consumer_group_members", "sevlamq_consumer_group_generation",
      "sevlamq_consumer_group_assigned_partitions"], n ∈ groupGauges.map (·.1) := by decide +kernel
    exact ⟨hall name hname, rfl⟩
  · obtain ⟨s, _, hx⟩ := List.mem_flatMap.1 hx
    obtain ⟨name, hname, rfl⟩ := List.mem_map.1 hx
    have hall : ∀ n ∈ ["sevlamq_consumer_group_committed_offset", "sevlamq_consumer_group_lag"],
      n ∈ groupGauges.map (·.1) := by decide +kernel
    exact ⟨hall name hname, rfl⟩
  · have htotal : "sevlamq_consumer_group_lag_total" ∈ groupGauges.map (·.1) := by decide +kernel
    rw [List.mem_singleton.1 hx]
    exact ⟨htotal, rfl⟩

theorem groups_series_nodup {groups : List GroupSnapshot} {partitions : List PartitionSnapshot}
    (hgroups : (groups.map fun g => (g.group, g.topic)).Nodup)
    (hpartitions : (partitions.map fun s => (s.topic, s.partition)).Nodup) :
    (groups.flatMap fun g => seriesOf (g.render partitions)).Nodup := by
  rw [List.nodup_flatMap]
  refine ⟨fun g _ => group_series_nodup g hpartitions,
    (List.pairwise_map.1 hgroups).imp fun hne x hx hx' => hne ?_⟩
  have heq := (group_series_labels _ _ x hx).2.symm.trans (group_series_labels _ _ x hx').2
  simp only [readLabels, GroupSnapshot.labels, LabelValue.read, List.map_cons, List.map_nil,
    List.cons.injEq, Prod.mk.injEq, true_and, and_true] at heq
  exact Prod.ext heq.1 heq.2

/-- The names of `RuntimeMetrics::render`, which has the same series for all values. -/
def metricNames : List String := ((seriesOf RuntimeMetrics.default.render).map (·.1)).dedup

theorem metrics_series (m : RuntimeMetrics) :
    seriesOf m.render = seriesOf RuntimeMetrics.default.render := rfl

/-- Rows of a table of series. -/
def table {α : Type} (names : List String) (xs : List α)
    (labels : α → List (String × LabelValue)) : List String × List (String × List Label) :=
  (names, xs.flatMap fun x => names.map fun name => (name, readLabels (labels x)))

/-- The series of the page, with the names they are taken from. -/
def seriesBlocks (m : RuntimeMetrics) (partitions : List PartitionSnapshot)
    (groups : List GroupSnapshot) (cluster : ClusterMetadata) :
    List (List String × List (String × List Label)) :=
  [(metricNames, seriesOf m.render),
    table ["sevlamq_broker_info"] cluster.nodes (nodeLabels cluster),
    table ["sevlamq_storage_queue_depth"] [()] fun _ => [],
    table ["sevlamq_topic_partitions"] (topicsOf partitions) fun topic => [("topic", .text topic)],
    table ["sevlamq_topic_high_watermark_sum", "sevlamq_topic_log_size_bytes"]
      (topicsOf partitions) fun topic => [("topic", .text topic)],
    table (partitionGauges.map (·.1)) partitions fun s => partitionLabels s.topic s.partition,
    table ["sevlamq_replica_offset", "sevlamq_replication_lag_records"] m.replicaOffsets.entries
      fun e => replicaLabels "follower_id" e.1,
    table ["sevlamq_replica_in_sync"] m.replicaSync.entries fun e =>
      replicaLabels "leader_id" e.1,
    table ["sevlamq_partition_isr"] m.inSyncReplicas.entries fun e =>
      replicaLabels "broker_id" e.1,
    (groupGauges.map (·.1), groups.flatMap fun g => seriesOf (g.render partitions))]

theorem seriesOf_renderMetrics (m : RuntimeMetrics) (storageQueueDepth : Nat)
    (partitions : List PartitionSnapshot) (groups : List GroupSnapshot)
    (cluster : ClusterMetadata) :
    seriesOf (renderMetrics m storageQueueDepth partitions groups cluster) =
      (seriesBlocks m partitions groups cluster).flatMap (·.2) := by
  have hdepth : seriesOf [gauge [] ("sevlamq_storage_queue_depth", storageQueueDepth)] =
      (table ["sevlamq_storage_queue_depth"] [()] fun _ => []).2 := rfl
  simp only [renderMetrics, renderPartitionMetrics, renderReplicationMetrics, renderGroupMetrics,
    replicaStates, seriesOf_append, seriesOf_gauges, seriesOf_gauges_of, seriesOf_flatMap,
    seriesOf_gauge, hdepth, seriesBlocks, List.flatMap_cons, List.flatMap_nil, List.nil_append,
    List.append_nil, List.append_assoc]
  rfl

theorem topic_pairwise (partitions : List PartitionSnapshot) :
    (topicsOf partitions).Pairwise fun t t' =>
      readLabels [("topic", .text t)] ≠ readLabels [("topic", .text t')] :=
  (topicsOf_nodup partitions).imp fun hne heq => hne (by
    simpa [readLabels, LabelValue.read] using heq)

theorem series_nodup (m : RuntimeMetrics) {partitions : List PartitionSnapshot}
    {groups : List GroupSnapshot} {cluster : ClusterMetadata}
    (hpartitions : (partitions.map fun s => (s.topic, s.partition)).Nodup)
    (hgroups : (groups.map fun g => (g.group, g.topic)).Nodup)
    (hnodes : (cluster.nodes.map (·.id)).Nodup) :
    ((seriesBlocks m partitions groups cluster).flatMap (·.2)).Nodup := by
  have hnames : ((seriesBlocks m partitions groups cluster).flatMap (·.1)).Nodup := by
    rw [show (seriesBlocks m partitions groups cluster).flatMap (·.1) =
      (seriesBlocks .default [] [] ⟨0, []⟩).flatMap (·.1) from rfl]
    decide +kernel
  refine nodup_blocks hnames ?_ ?_
  · simp only [seriesBlocks, List.forall_mem_cons, List.not_mem_nil, false_imp_iff, implies_true,
      and_true]
    refine ⟨fun x hx => List.mem_dedup.2 (List.mem_map.2 ⟨x, hx, rfl⟩), table_names, table_names,
      table_names, table_names, table_names, table_names, table_names, table_names, ?_⟩
    intro x hx
    obtain ⟨g, _, hx⟩ := List.mem_flatMap.1 hx
    exact (group_series_labels g partitions x hx).1
  · simp only [seriesBlocks, List.forall_mem_cons, List.not_mem_nil, false_imp_iff, implies_true,
      and_true]
    have hrendered : (seriesOf RuntimeMetrics.default.render).Nodup := by decide +kernel
    refine ⟨metrics_series m ▸ hrendered, nodup_table (by decide +kernel) ?_,
      nodup_table (by decide +kernel) (List.pairwise_singleton _ _),
      nodup_table (by decide +kernel) (topic_pairwise partitions),
      nodup_table (by decide +kernel) (topic_pairwise partitions),
      nodup_table (by decide +kernel) ?_,
      nodup_table (by decide +kernel) (replica_pairwise _ _),
      nodup_table (by decide +kernel) (replica_pairwise _ _),
      nodup_table (by decide +kernel) (replica_pairwise _ _),
      groups_series_nodup hgroups hpartitions⟩
    · refine (List.pairwise_map.1 hnodes).imp fun hne heq => hne ?_
      simp only [readLabels, nodeLabels, List.map_cons, List.cons.injEq, Prod.mk.injEq,
        true_and] at heq
      exact UInt32.toNat_inj.1 (number_read_inj heq.1)
    · exact (List.pairwise_map.1 hpartitions).imp fun hne heq => hne (partitionLabels_inj heq)

/-! ## The page of a broker -/

/-- The metadata that `run` makes of the nodes of its configuration. -/
def clusterMetadata (config : Common.Config) (nodes : List Common.ClusterNodeConfig) :
    ClusterMetadata where
  respondingBrokerId := config.cluster.brokerId
  nodes := nodes.map fun node =>
    ⟨node.id, node.host, node.port, node.adminPort, node.replicationPort⟩

/-- The `/metrics` branch of `handle_admin_connection`. -/
def metricsBody (m : RuntimeMetrics) (queueDepth : Nat) (entries : Entries) (logs : PartitionLogs)
    (groups : GroupStates) (cluster : ClusterMetadata) : List Piece :=
  renderMetrics m queueDepth ((snapshotLogs logs).map (·.withWatermark entries))
    (snapshotGroups groups) cluster

theorem mem_snapshotLogs {logs : PartitionLogs} {s : PartitionSnapshot}
    (h : s ∈ snapshotLogs logs) :
    ∃ log, logs.lookup (s.topic, s.partition) = some log ∧
      s = snapshotOf s.topic s.partition log := by
  obtain ⟨e, he, rfl⟩ := List.mem_map.1 (List.mem_mergeSort.1 h)
  exact ⟨e.2, AList.mem_lookup_iff.2 he, rfl⟩

@[simp] theorem withWatermark_key (entries : Entries) (s : PartitionSnapshot) :
    ((s.withWatermark entries).topic, (s.withWatermark entries).partition) =
      (s.topic, s.partition) := by
  unfold PartitionSnapshot.withWatermark
  split <;> rfl

/-- A snapshot has every partition once. -/
theorem snapshotLogs_nodup (logs : PartitionLogs) (entries : Entries) :
    (((snapshotLogs logs).map (·.withWatermark entries)).map fun s =>
      (s.topic, s.partition)).Nodup := by
  have hsame : ((snapshotLogs logs).map (·.withWatermark entries)).map
      (fun s => (s.topic, s.partition)) =
        (snapshotLogs logs).map fun s => (s.topic, s.partition) := by
    rw [List.map_map]
    exact List.map_congr_left fun s _ => withWatermark_key entries s
  have hperm := (List.mergeSort_perm (logs.entries.map fun e =>
    snapshotOf e.1.1 e.1.2 e.2) PartitionSnapshot.le).map fun s => (s.topic, s.partition)
  rw [hsame, snapshotLogs, hperm.nodup_iff, List.map_map]
  exact logs.nodupKeys

/-- A snapshot has every group once. -/
theorem snapshotGroups_nodup (groups : GroupStates) :
    ((snapshotGroups groups).map fun g => (g.group, g.topic)).Nodup := by
  have hperm := (List.mergeSort_perm (groups.entries.map fun e =>
    groupSnapshotOf e.1.1 e.1.2 e.2) GroupSnapshot.le).map fun g => (g.group, g.topic)
  rw [snapshotGroups, hperm.nodup_iff, List.map_map]
  exact groups.nodupKeys

/-- An accepted configuration has every node once. -/
theorem clusterMetadata_nodup {config : Common.Config} {nodes : List Common.ClusterNodeConfig}
    (h : config.clusterNodes = .ok nodes) :
    ((clusterMetadata config nodes).nodes.map (·.id)).Nodup := by
  obtain ⟨listed, haccepted⟩ := Common.clusterNodes_spec h
  rw [clusterMetadata, List.map_map]
  exact haccepted.increasing.imp UInt32.ne_of_lt

/-- **The page is read back.**  A reader that knows the text format finds every series once, with
the labels that were meant and its number, whatever topics, groups and hosts are called. -/
theorem metrics_read_back (m : RuntimeMetrics) (queueDepth : Nat) (entries : Entries)
    (logs : PartitionLogs) (groups : GroupStates) {config : Common.Config}
    {nodes : List Common.ClusterNodeConfig} (hconfig : config.clusterNodes = .ok nodes) :
    let body := metricsBody m queueDepth entries logs groups (clusterMetadata config nodes)
    ∃ page, page = body.flatMap Piece.lines ∧ readPage (write body) = some page ∧
      (page.filterMap Line.series).Nodup := by
  refine ⟨_, rfl, readPage_write (renderMetrics_proper m queueDepth _ _ _), ?_⟩
  have hseries := series_nodup m (snapshotLogs_nodup logs entries) (snapshotGroups_nodup groups)
    (clusterMetadata_nodup hconfig)
  rw [← seriesOf_renderMetrics m queueDepth] at hseries
  exact hseries

/-- A group of one member. -/
def quotedGroups : GroupStates :=
  AList.singleton ("g\n1", "a\"b")
    ⟨3, .singleton "m" 0, .singleton "m" [0], .singleton 0 2⟩

/-- A broker by itself. -/
def quotedConfig : Common.Config :=
  ⟨⟨"127.0.0.1", 9000⟩, ⟨9001⟩, ⟨1, 1, 1, []⟩⟩

/-- Quotes in a topic and a line break in a group. -/
theorem metrics_read_back_quoted :
    ∃ nodes page, quotedConfig.clusterNodes = .ok nodes ∧
      readPage (write (metricsBody .default 0 (fun _ _ => none)
        (AList.singleton ("a\"b", 0) ⟨5, 1024, 64, [.new 0], .empty⟩) quotedGroups
        (clusterMetadata quotedConfig nodes))) = some page ∧
      (page.filterMap Line.series).Nodup ∧
      .sample "sevlamq_consumer_group_lag"
        [("group", "g\n1"), ("topic", "a\"b"), ("partition", "0")] ⟨3, 0⟩ ∈ page := by
  have hconfig : quotedConfig.clusterNodes =
      .ok [⟨1, "127.0.0.1", 9000, 9001, 9100⟩] := by decide +kernel
  obtain ⟨page, hpage, hread, hnodup⟩ := @metrics_read_back .default 0 (fun _ _ => none)
    (AList.singleton ("a\"b", 0) ⟨5, 1024, 64, [.new 0], .empty⟩) quotedGroups _ _ hconfig
  refine ⟨_, page, hconfig, hread, hnodup, ?_⟩
  rw [hpage]
  decide +kernel

/-! ## Lag -/

/-- The committed records from `offset` on. -/
def unread (offset highWatermark : Nat) (stored : List StoredRecord) : List StoredRecord :=
  stored.filter fun r => offset ≤ r.offset ∧ r.offset < highWatermark

section Lag

variable [Checksum]

/-- What a log holds below a watermark, counted by offsets. -/
theorem stored_unread_length {log : PartitionLog} (h : Stored log) {highWatermark : Nat}
    (hend : highWatermark ≤ log.nextOffset) :
    ∃ stored, log.scan = .ok stored ∧ ∀ offset,
      (unread offset highWatermark stored).length =
        highWatermark - max offset log.lowWatermark := by
  obtain ⟨interval, removed, chunks, last, hrep⟩ := h
  refine ⟨_, hrep.scan, fun offset => ?_⟩
  have hsplit : ∀ stored : List StoredRecord, unread offset highWatermark stored =
      fromOffset offset (stored.filter fun r => r.offset < highWatermark) := fun stored => by
    rw [unread, fromOffset, List.filter_filter]
    simp only [Bool.decide_and]
  rw [hrep.nextOffset_eq] at hend
  rw [hsplit, storedFrom_below_iff, fromOffset_eq_drop, List.length_drop, storedFrom_length,
    List.length_take, hrep.lowWatermark]
  omega

/-- A log after appends, truncations, syncs, retention and reopenings. -/
def Reached (topic : String) (log : PartitionLog) : Prop :=
  ∃ maxSegmentBytes interval log₀ acts,
    PartitionLog.openLog Dir.empty topic maxSegmentBytes interval = .ok log₀ ∧
      Along (PartitionLog.act topic) ActCountable log₀ acts ∧
      run (PartitionLog.act topic) log₀ acts = some log

theorem Reached.stored {topic : String} {log : PartitionLog} (h : Reached topic log) :
    Stored log := by
  obtain ⟨_, interval, log₀, acts, h₀, hfew, hr⟩ := h
  have hnew : Stored log₀ := ⟨interval, [], [], [], openLog_empty h₀⟩
  exact run_invariant (fun _ _ _ hp hq hs => Stored.act hp hq hs) hnew hfew hr

omit [Checksum] in
/-- A saturating sum. -/
theorem foldl_saturating (values : List Nat) (total : Nat) (h : total ≤ U64_MAX) :
    values.foldl (fun total v => min (total + v) U64_MAX) total =
      min (total + values.sum) U64_MAX := by
  induction values generalizing total with
  | nil => simp [h]
  | cons v vs ih =>
    rw [List.foldl_cons, ih _ (Nat.min_le_right _ _), List.sum_cons]
    omega

omit [Checksum] in
/-- The snapshot of a group has its committed offsets. -/
theorem groupSnapshotOf_committed (group topic : String) (state : GroupState) (partition : Nat) :
    (groupSnapshotOf group topic state).committed partition =
      (state.committedOffsets.lookup partition).getD 0 := by
  have hperm := List.mergeSort_perm (state.committedOffsets.entries.map fun e => (e.1, e.2))
    (·.1 ≤ ·.1)
  have hnodup : (((groupSnapshotOf group topic state).committedOffsets).map (·.1)).Nodup := by
    rw [groupSnapshotOf, (hperm.map _).nodup_iff, List.map_map]
    exact state.committedOffsets.nodupKeys
  have hfind : ∀ {listed : List (Nat × Nat)}, (listed.map (·.1)).Nodup → ∀ offset,
      (listed.findSome? fun x => if x.1 = partition then some x.2 else none) = some offset ↔
        (partition, offset) ∈ listed := by
    intro listed hlisted offset
    induction listed with
    | nil => simp
    | cons x rest ih =>
      obtain ⟨hx, hrest⟩ := List.nodup_cons.1 hlisted
      rw [List.findSome?_cons, List.mem_cons]
      by_cases heq : x.1 = partition
      · rw [if_pos heq]
        have hno : (partition, offset) ∉ rest := fun hmem =>
          hx (List.mem_map.2 ⟨_, hmem, heq.symm⟩)
        rw [or_iff_left hno, Option.some.injEq, Prod.ext_iff, eq_comm (a := partition)]
        exact ⟨fun hoffset => ⟨heq, hoffset.symm⟩, fun h => h.2.symm⟩
      · rw [if_neg heq, ih hrest]
        exact (or_iff_right fun hhead => heq (congrArg Prod.fst hhead).symm).symm
  have hsame : (groupSnapshotOf group topic state).committedOffsets.findSome?
      (fun x => if x.1 = partition then some x.2 else none) =
        state.committedOffsets.lookup partition := by
    refine Option.ext fun offset => ?_
    rw [hfind hnodup offset, ← Option.mem_def, AList.mem_lookup_iff, groupSnapshotOf,
      hperm.mem_iff, List.mem_map]
    constructor
    · rintro ⟨e, he, heq⟩
      cases heq
      exact he
    · exact fun hmem => ⟨_, hmem, rfl⟩
  rw [← hsame]
  rfl

/-- **The lag of a group is what it has not read.**  For every partition whose watermark is within
its log, the lag is the number of stored records from the committed offset up to the watermark, and
the number of records the page gives is that of the committed ones still stored; the total is the
sum over the topic, as far as it fits. -/
theorem lag_counts_unread {entries : Entries} {logs : PartitionLogs} (group topic : String)
    (state : GroupState) (hreached : ∀ t p log, logs.lookup (t, p) = some log → Reached t log)
    (hwithin : ∀ t p log l, logs.lookup (t, p) = some log → entries t p = some l →
      l.highWatermark ≤ log.nextOffset) :
    let partitions := (snapshotLogs logs).map (·.withWatermark entries)
    let g := groupSnapshotOf group topic state
    (∀ s ∈ partitions, ∃ log stored, logs.lookup (s.topic, s.partition) = some log ∧
        log.scan = .ok stored ∧
        g.lag s = (unread ((state.committedOffsets.lookup s.partition).getD 0) s.highWatermark
          stored).length ∧
        s.highWatermark - s.lowWatermark = (unread 0 s.highWatermark stored).length) ∧
      g.lagTotal partitions =
        min ((partitions.filter (·.topic = topic)).map g.lag).sum U64_MAX := by
  constructor
  · intro s hs
    obtain ⟨x, hx, rfl⟩ := List.mem_map.1 hs
    obtain ⟨log, hlog, hx⟩ := mem_snapshotLogs hx
    have hkey := withWatermark_key entries x
    have hlow : (x.withWatermark entries).lowWatermark = log.lowWatermark := by
      unfold PartitionSnapshot.withWatermark
      split <;> rw [hx] <;> rfl
    have hend : (x.withWatermark entries).highWatermark ≤ log.nextOffset := by
      unfold PartitionSnapshot.withWatermark
      split
      · rename_i l hl
        exact hwithin _ _ log l hlog hl
      · rw [hx]
        exact Nat.le_refl _
    obtain ⟨stored, hscan, hcount⟩ := stored_unread_length (hreached _ _ log hlog).stored hend
    refine ⟨log, stored, hkey ▸ hlog, hscan, ?_, ?_⟩
    · rw [hcount, GroupSnapshot.lag, hlow, groupSnapshotOf_committed]
    · rw [hcount, hlow, Nat.zero_max]
  · rw [GroupSnapshot.lagTotal, topicTotal,
      ← List.foldl_map (f := (groupSnapshotOf group topic state).lag)
        (g := fun total v => min (total + v) U64_MAX), foldl_saturating _ _ (Nat.zero_le _),
      Nat.zero_add]
    rfl

end Lag

/-- Records 0 and 1 are gone, the log ends at 5: a group that committed 1 has three to read. -/
theorem lag_counts_unread_retained :
    letI := Checksum.crc32
    ∃ log stored, Reached "payments" log ∧ log.scan = .ok stored ∧
      (unread 1 5 stored).length = 3 := by
  let _ := Checksum.crc32
  have hrun : (run (PartitionLog.act "payments") ⟨0, 1024, 64, [.new 0], .empty⟩
      retainedRun).any (fun log => log.lowWatermark = 2 ∧ log.nextOffset = 5) := by decide +kernel
  obtain ⟨log, hr, hlog⟩ := (Option.any_eq_true _ _).1 hrun
  have hfew : Along (PartitionLog.act "payments") ActCountable ⟨0, 1024, 64, [.new 0], .empty⟩
      retainedRun := by decide +kernel
  have hreached : Reached "payments" log := ⟨1024, 64, _, _, rfl, hfew, hr⟩
  obtain ⟨hlow, hnext⟩ := of_decide_eq_true hlog
  have hlogs : ∀ t p l, (AList.singleton ("payments", 0) log : PartitionLogs).lookup (t, p) =
      some l → (t, p) = ("payments", 0) ∧ l = log := by
    intro t p l hl
    have hmem := AList.mem_lookup_iff.1 hl
    rw [AList.singleton_entries, List.mem_singleton] at hmem
    cases hmem
    exact ⟨rfl, rfl⟩
  obtain ⟨hcounts, _⟩ := @lag_counts_unread _ (fun _ _ => none)
    (AList.singleton ("payments", 0) log) "g" "payments"
    ⟨1, .singleton "m" 0, .singleton "m" [0], .singleton 0 1⟩
    (fun t p l hl => by
      obtain ⟨hkey, rfl⟩ := hlogs t p l hl
      cases hkey
      exact hreached)
    fun _ _ _ _ _ hnone => by cases hnone
  obtain ⟨log', stored, hlookup, hscan, hlag, _⟩ := hcounts (snapshotOf "payments" 0 log) (by
    rw [snapshotLogs, AList.singleton_entries, List.map_singleton, List.mergeSort_singleton]
    exact List.mem_cons_self)
  obtain ⟨_, rfl⟩ := hlogs _ _ _ hlookup
  refine ⟨log', stored, hreached, hscan, ?_⟩
  have hend : (snapshotOf "payments" 0 log').highWatermark = 5 := hnext
  rw [hend] at hlag
  refine hlag.symm.trans ?_
  rw [GroupSnapshot.lag, groupSnapshotOf_committed]
  show log'.nextOffset - max 1 log'.lowWatermark = 3
  rw [hnext, hlow]
  rfl

end SevlaMq.Broker

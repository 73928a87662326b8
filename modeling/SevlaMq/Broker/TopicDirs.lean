import Mathlib.Data.List.Nodup
import Mathlib.Data.List.Sort
import SevlaMq.Group.OffsetFiles
import SevlaMq.Storage.Scan

/-!
# The directories of the topics

Model of `create_topic`, `persist_topic_metadata` and `recover_storage` of
`crates/broker/src/lib.rs` and of `PartitionLog::open` and `discover_partitions` of
`crates/storage/src/lib.rs` on a tree of directories.  A partition is opened in
`data_dir/topic/partition`, a path that is resolved by the operating system, and found again by
listing `data_dir`.

* `Store` — the directories with their files, the open logs and the topic map.
* `Tree` — the directories below the data directory are those of the partitions that were created;
  `Holding` — these partitions are open.
* `Kept.createTopic` — `create_topic` with a name that is not `.` or `..` keeps it so.
-/

set_option autoImplicit false

namespace SevlaMq.Broker

open SevlaMq.Storage
open SevlaMq.Group (Path Disk resolve)

/-! ## Settings and state -/

structure StorageSettings where
  dataDir : List String
  maxSegmentBytes : Nat
  indexIntervalBytes : Nat

/-- The storage worker and what is on its disk. -/
structure Store where
  -- the directories and the files with text
  disk : Disk
  -- the segment files of a directory; that one is where a directory should be is left out
  segments : Path → Dir
  logs : String → Nat → Option PartitionLog
  topics : String → Option Nat

namespace Store

def insertLog (s : Store) (topic : String) (partition : Nat) (log : PartitionLog) : Store :=
  { s with logs := fun t p => if t = topic ∧ p = partition then some log else s.logs t p }

def insertTopic (s : Store) (topic : String) (partitions : Nat) : Store :=
  { s with topics := fun t => if t = topic then some partitions else s.topics t }

def setSegments (s : Store) (path : Path) (dir : Dir) : Store :=
  { s with segments := fun x => if x = path then dir else s.segments x }

end Store

/-- `data_dir.join(topic).join(partition.to_string())`, not yet resolved. -/
def partitionDir (cfg : StorageSettings) (topic : String) (partition : Nat) : List String :=
  cfg.dataDir ++ [topic, toString partition]

/-- `starts_with("__")`. -/
def reserved (name : String) : Bool := decide (utf8 "__" <+: utf8 name)

/-! ## Creating topics -/

section Operations

variable [Checksum]

/-- `PartitionLog::open`; the file operations succeed unless a file is where a directory should
be. -/
def Store.openPartition (cfg : StorageSettings) (s : Store) (topic : String) (partition : Nat) :
    Except StorageError PartitionLog × Store :=
  match validateTopic topic with
  | .error e => (.error e, s)
  | .ok () =>
    if cfg.maxSegmentBytes = 0 then (.error .invalidSegmentLimit, s)
    else if cfg.indexIntervalBytes = 0 then (.error .invalidIndexInterval, s)
    else
      match s.disk.createDirAll (partitionDir cfg topic partition) with
      | .error _ => (.error .io, s)
      | .ok disk =>
        let path := resolve (partitionDir cfg topic partition)
        match PartitionLog.openLog (s.segments path) topic cfg.maxSegmentBytes
            cfg.indexIntervalBytes with
        | .error e => (.error e, { s with disk })
        | .ok log => (.ok log, { s with disk }.setSegments path log.dir)

/-- The loop of `create_topic`. -/
def Store.createPartitions (cfg : StorageSettings) (topic : String) :
    List Nat → Store → Except StorageError Unit × Store
  | [], s => (.ok (), s)
  | partition :: rest, s =>
    match s.logs topic partition with
    | some _ => Store.createPartitions cfg topic rest s
    | none =>
      match Store.openPartition cfg s topic partition with
      | (.error e, s) => (.error e, s)
      | (.ok log, s) => Store.createPartitions cfg topic rest (s.insertLog topic partition log)

/-- `persist_topic_metadata`. -/
def Store.persistTopicMetadata (cfg : StorageSettings) (s : Store) (topic : String)
    (partitions : Nat) : Except StorageError Unit × Store :=
  let topicDir := resolve (cfg.dataDir ++ [topic])
  if !s.disk.dirs.contains topicDir || s.disk.dirs.contains (topicDir ++ ["topic.meta.tmp"]) ||
      s.disk.dirs.contains (topicDir ++ ["topic.meta"]) then (.error .io, s)
  else
    let contents := "partitions=" ++ toString partitions ++ "\n"
    let renamed := s.disk.setFile (topicDir ++ ["topic.meta.tmp"]) none
    (.ok (), { s with disk := renamed.setFile (topicDir ++ ["topic.meta"]) (some contents) })

/-- `create_topic`. -/
def Store.createTopic (cfg : StorageSettings) (s : Store) (topic : String) (partitions : UInt32) :
    Except StorageError Nat × Store :=
  if partitions.toNat = 0 then (.error .invalidTopic, s)
  else if (s.topics topic).isSome then (.error .topicAlreadyExists, s)
  else
    match Store.createPartitions cfg topic (List.range partitions.toNat) s with
    | (.error e, s) => (.error e, s)
    | (.ok (), s) =>
      match Store.persistTopicMetadata cfg s topic partitions.toNat with
      | (.error e, s) => (.error e, s)
      | (.ok (), s) => (.ok partitions.toNat, s.insertTopic topic partitions.toNat)

/-! ## Recovery -/

/-- The partitions in the directory of a topic. -/
def discoverNames (topic : String) : List String → Except StorageError (List (String × Nat))
  | [] => .ok []
  | name :: rest =>
    match parseUnsigned (UInt32.size - 1) name.toList with
    | none => .error .invalidPartitionName
    | some partition =>
      match discoverNames topic rest with
      | .error e => .error e
      | .ok partitions => .ok ((topic, partition) :: partitions)

/-- The loop of `discover_partitions` over the entries of the data directory. -/
def discoverTopics (disk : Disk) (root : Path) :
    List String → Except StorageError (List (String × Nat))
  | [] => .ok []
  | topic :: rest =>
    if reserved topic then discoverTopics disk root rest
    else
      match validateTopic topic with
      | .error e => .error e
      | .ok () =>
        match discoverNames topic (disk.readDir (root ++ [topic])) with
        | .error e => .error e
        | .ok partitions =>
          match discoverTopics disk root rest with
          | .error e => .error e
          | .ok others => .ok (partitions ++ others)

/-- The order of the partitions. -/
def identityLe (a b : String × Nat) : Prop := a.1 < b.1 ∨ (a.1 = b.1 ∧ a.2 ≤ b.2)

instance : DecidableRel identityLe := fun a b =>
  inferInstanceAs (Decidable (a.1 < b.1 ∨ (a.1 = b.1 ∧ a.2 ≤ b.2)))

/-- `discover_partitions`; it creates the data directory if there is none. -/
def discoverPartitions (cfg : StorageSettings) (disk : Disk) :
    Except StorageError (Disk × List (String × Nat)) :=
  match disk.createDirAll cfg.dataDir with
  | .error _ => .error .io
  | .ok disk =>
    match discoverTopics disk (resolve cfg.dataDir) (disk.readDir (resolve cfg.dataDir)) with
    | .error e => .error e
    | .ok partitions => .ok (disk, partitions.insertionSort identityLe)

/-- The count of a topic with one more partition: `and_modify` or `or_insert`. -/
def raisedCount (count : Option Nat) (partition : Nat) : Nat :=
  match count with
  | some count => max count (partition + 1)
  | none => partition + 1

/-- The first loop of `recover_storage`. -/
def Store.recoverPartitions (cfg : StorageSettings) :
    List (String × Nat) → Store → Except StorageError Unit × Store
  | [], s => (.ok (), s)
  | (topic, partition) :: rest, s =>
    match Store.openPartition cfg s topic partition with
    | (.error e, s) => (.error e, s)
    | (.ok log, s) =>
      let s := s.insertLog topic partition log
      let count := raisedCount (s.topics topic) partition
      Store.recoverPartitions cfg rest (s.insertTopic topic count)

/-- The second loop of `recover_storage`; the order of the topics is that of a hash map. -/
def Store.persistTopics (cfg : StorageSettings) :
    List String → Store → Except StorageError Unit × Store
  | [], s => (.ok (), s)
  | topic :: rest, s =>
    match Store.persistTopicMetadata cfg s topic ((s.topics topic).getD 0) with
    | (.error e, s) => (.error e, s)
    | (.ok (), s) => Store.persistTopics cfg rest s

/-- `recover_storage` on what a store left on the disk. -/
def Store.recoverStorage (cfg : StorageSettings) (s : Store) : Except StorageError Unit × Store :=
  match discoverPartitions cfg s.disk with
  | .error e => (.error e, s)
  | .ok (disk, identities) =>
    match Store.recoverPartitions cfg identities
        ⟨disk, s.segments, fun _ _ => none, fun _ => none⟩ with
    | (.error e, s) => (.error e, s)
    | (.ok (), s) => Store.persistTopics cfg (identities.map (·.1)).dedup s

end Operations

/-! ## Directories -/

section Disks

variable {disk disk' : Disk} {path : Path} {name : String}

/-- What `create_dir_all` checks and adds. -/
theorem createDirAll_eq {components : List String} (h : disk.createDirAll components = .ok disk') :
    (∀ d ∈ components.inits.map resolve, disk.files d = none) ∧
      disk' = { disk with
        dirs := disk.dirs ++ (components.inits.map resolve).filter (· ∉ disk.dirs) } := by
  unfold Disk.createDirAll at h
  simp only at h
  split at h
  · cases h
  split at h
  · cases h
  · rename_i hfiles _
    cases h
    refine ⟨fun d hd => ?_, rfl⟩
    simp only [List.any_eq_true, not_exists, not_and, Bool.not_eq_true, Option.isSome_eq_false_iff,
      Option.isNone_iff_eq_none] at hfiles
    exact hfiles d hd

/-- Directories that are there are not created again. -/
theorem createDirAll_there {components : List String}
    (h : ∀ d ∈ components.inits.map resolve, d ∈ disk.dirs ∧ disk.files d = none) :
    disk.createDirAll components = .ok disk := by
  unfold Disk.createDirAll
  have hfiles : (components.inits.map resolve).any (fun p => (disk.files p).isSome) = false := by
    rw [List.any_eq_false]
    intro d hd
    simp [(h d hd).2]
  have hnone : (components.inits.map resolve).filter (· ∉ disk.dirs) = [] := by
    rw [List.filter_eq_nil_iff]
    intro d hd
    simpa using (h d hd).1
  have hthere : resolve components ∈ disk.dirs :=
    (h _ (List.mem_map_of_mem ((List.mem_inits _ _).2 (List.prefix_refl _)))).1
  simp only [hfiles, hnone, hthere, List.append_nil, not_true, and_false, if_false]
  rfl

theorem mem_readDir_iff : name ∈ disk.readDir path ↔ path ++ [name] ∈ disk.dirs := by
  refine ⟨Group.mem_readDir, fun h => List.mem_filterMap.2 ⟨path ++ [name], h, ?_⟩⟩
  simp

theorem readDir_nodup (h : disk.dirs.Nodup) : (disk.readDir path).Nodup := by
  refine List.Nodup.filterMap (fun d d' name hd hd' => ?_) h
  have hchild : ∀ {d : Path}, name ∈ (if d ≠ [] ∧ d.dropLast = path then d.getLast? else none) →
      d = path ++ [name] := by
    intro d hd
    split at hd
    · rename_i hpath
      rw [← hpath.2]
      exact (List.dropLast_append_getLast? name hd).symm
    · cases hd
  rw [hchild hd, hchild hd']

/-- The components of a path that was resolved. -/
theorem resolve_mem_plain {components : List String} {c : String} (h : c ∈ resolve components) :
    Group.Plain c := by
  induction components using List.reverseRecOn with
  | nil => cases h
  | append_singleton before last ih =>
    rw [Group.resolve_concat] at h
    split at h
    · exact ih h
    split at h
    · exact ih (List.mem_of_mem_dropLast h)
    · rename_i hdot hdots
      rcases List.mem_append.1 h with h | h
      · exact ih h
      · rw [List.mem_singleton.1 h]
        exact ⟨hdot, hdots⟩

end Disks

/-! ## The paths of partitions -/

section Paths

variable {cfg : StorageSettings} {topic : String}

theorem toString_injective {p q : Nat} (h : toString p = toString q) : p = q := by
  have hlist := congrArg String.toList h
  rw [Group.toList_toString, Group.toList_toString] at hlist
  exact Group.toDigits_injective hlist

theorem toString_plain (p : Nat) : Group.Plain (toString p) := by
  have hdot : '.' ∉ (toString p).toList := by
    rw [Group.toList_toString]
    exact not_mem_toDigits (by decide)
  refine ⟨fun h => hdot ?_, fun h => hdot ?_⟩ <;> rw [h] <;> decide

/-- The directory of a partition of a topic with a plain name. -/
theorem resolve_partitionDir (h : Group.Plain topic) (p : Nat) :
    resolve (partitionDir cfg topic p) = resolve cfg.dataDir ++ [topic, toString p] := by
  have hpath : partitionDir cfg topic p = cfg.dataDir ++ [topic] ++ [toString p] := by
    simp [partitionDir]
  rw [hpath, Group.resolve_concat_plain (toString_plain p), Group.resolve_concat_plain h]
  simp

/-- The directories on the way to it. -/
theorem inits_partitionDir (h : Group.Plain topic) (p : Nat) :
    (partitionDir cfg topic p).inits.map resolve = cfg.dataDir.inits.map resolve ++
      [resolve cfg.dataDir ++ [topic], resolve cfg.dataDir ++ [topic, toString p]] := by
  have hpath : partitionDir cfg topic p = cfg.dataDir ++ [topic] ++ [toString p] := by
    simp [partitionDir]
  rw [hpath, Group.inits_concat_resolve, Group.inits_concat_resolve, ← hpath,
    resolve_partitionDir h, Group.resolve_concat_plain h]
  simp

/-- A path from the data directory determines its names. -/
theorem child_inj {root : Path} {a b : String} {as bs : List String}
    (h : root ++ a :: as = root ++ b :: bs) : a = b ∧ as = bs :=
  List.cons.inj (List.append_cancel_left h)

/-- Two partitions have different directories. -/
theorem partition_path_inj {root : Path} {t t' : String} {p p' : Nat}
    (h : root ++ [t, toString p] = root ++ [t', toString p']) : t = t' ∧ p = p' := by
  obtain ⟨ht, hp⟩ := child_inj h
  exact ⟨ht, toString_injective (List.singleton_inj.1 hp)⟩

/-- Topics that `open` accepts are not reserved. -/
theorem not_reserved (h : validateTopic topic = .ok ()) : reserved topic = false := by
  unfold validateTopic at h
  split at h
  · cases h
  · rename_i hno
    exact decide_eq_false (not_or.1 (not_or.1 hno).2).1

end Paths

/-! ## The tree of partitions -/

/-- The directories below the data directory, apart from the reserved ones, are those of the
partitions `p < counts topic`. -/
structure Tree (cfg : StorageSettings) (counts : String → Nat) (disk : Disk) : Prop where
  root : ∀ d ∈ cfg.dataDir.inits.map resolve, d ∈ disk.dirs
  nodup : disk.dirs.Nodup
  -- a path is that of a directory or of a file
  apart : ∀ d ∈ disk.dirs, disk.files d = none
  below : ∀ topic rest, resolve cfg.dataDir ++ topic :: rest ∈ disk.dirs → reserved topic = true ∨
    0 < counts topic ∧ (rest = [] ∨ ∃ p < counts topic, rest = [toString p])
  named : ∀ topic, 0 < counts topic →
    Storage.Settings topic cfg.maxSegmentBytes cfg.indexIntervalBytes ∧ Group.Plain topic ∧
      counts topic < UInt32.size
  topic : ∀ topic, 0 < counts topic → resolve cfg.dataDir ++ [topic] ∈ disk.dirs
  partition : ∀ topic p, p < counts topic → resolve cfg.dataDir ++ [topic, toString p] ∈ disk.dirs

namespace Tree

variable {cfg : StorageSettings} {counts : String → Nat} {disk disk' : Disk} {topic : String}
  {n : Nat}

/-- What is below the directory of a topic is a partition. -/
theorem names (h : Tree cfg counts disk) {name : String}
    (hname : resolve cfg.dataDir ++ [topic, name] ∈ disk.dirs) (hres : reserved topic = false) :
    ∃ p < counts topic, name = toString p := by
  rcases h.below topic [name] hname with hreserved | ⟨_, hnil | ⟨p, hp, hrest⟩⟩
  · rw [hres] at hreserved
    cases hreserved
  · cases hnil
  · exact ⟨p, hp, List.singleton_inj.1 hrest⟩

/-- The directories after one more partition was created. -/
theorem mem_created (h : Tree cfg counts disk) (hplain : Group.Plain topic) (p : Nat) (d : Path) :
    d ∈ disk.dirs ++ ((partitionDir cfg topic p).inits.map resolve).filter (· ∉ disk.dirs) ↔
      d ∈ disk.dirs ∨ d = resolve cfg.dataDir ++ [topic] ∨
        d = resolve cfg.dataDir ++ [topic, toString p] := by
  have hroot := h.root d
  rw [inits_partitionDir hplain]
  simp only [List.mem_append, List.mem_filter, List.mem_cons, List.not_mem_nil, or_false,
    decide_eq_true_eq]
  tauto

/-- What is added was not there, and the two paths are different. -/
theorem nodup_created (h : Tree cfg counts disk) (hplain : Group.Plain topic) (p : Nat) :
    (disk.dirs ++
      ((partitionDir cfg topic p).inits.map resolve).filter (· ∉ disk.dirs)).Nodup := by
  have hnew : (cfg.dataDir.inits.map resolve).filter (· ∉ disk.dirs) = [] := by
    rw [List.filter_eq_nil_iff]
    intro d hd
    simpa using h.root d hd
  rw [inits_partitionDir hplain, List.filter_append, hnew, List.nil_append]
  refine List.Nodup.append h.nodup (List.Nodup.filter _ ?_) ?_
  · simp
  · intro d hd hd'
    exact absurd hd (of_decide_eq_true (List.mem_filter.1 hd').2)

/-- **The directory of the next partition** of a topic. -/
theorem createDirAll (h : Tree cfg counts disk)
    (hset : Storage.Settings topic cfg.maxSegmentBytes cfg.indexIntervalBytes)
    (hplain : Group.Plain topic) (hsize : counts topic + 1 < UInt32.size)
    (hcreate : disk.createDirAll (partitionDir cfg topic (counts topic)) = .ok disk') :
    Tree cfg (Function.update counts topic (counts topic + 1)) disk' := by
  obtain ⟨hnone, rfl⟩ := createDirAll_eq hcreate
  rw [inits_partitionDir hplain] at hnone
  have hmem := h.mem_created hplain (counts topic)
  have hself : Function.update counts topic (counts topic + 1) topic = counts topic + 1 :=
    Function.update_self _ _ _
  have hother : ∀ {t}, t ≠ topic →
      Function.update counts topic (counts topic + 1) t = counts t :=
    fun ht => Function.update_of_ne ht _ _
  have hcounts : ∀ t, counts t ≤ Function.update counts topic (counts topic + 1) t := by
    intro t
    by_cases ht : t = topic
    · rw [ht, hself]
      omega
    · rw [hother ht]
  refine ⟨fun d hd => (hmem d).2 (Or.inl (h.root d hd)), h.nodup_created hplain _, fun d hd => ?_,
    fun t rest hd => ?_, fun t ht => ?_, fun t ht => ?_, fun t p hp => ?_⟩
  · rcases (hmem d).1 hd with hd | hd | hd
    · exact h.apart d hd
    · exact hnone d (by simp [hd])
    · exact hnone d (by simp [hd])
  · rcases (hmem _).1 hd with hd | hd | hd
    · refine (h.below t rest hd).imp_right fun hold => ⟨hold.1.trans_le (hcounts t), ?_⟩
      refine hold.2.imp_right fun hp => ?_
      obtain ⟨p, hp, hrest⟩ := hp
      exact ⟨p, hp.trans_le (hcounts t), hrest⟩
    · obtain ⟨rfl, rfl⟩ := child_inj hd
      exact Or.inr ⟨by omega, Or.inl rfl⟩
    · obtain ⟨rfl, rfl⟩ := child_inj hd
      exact Or.inr ⟨by omega, Or.inr ⟨counts t, by omega, rfl⟩⟩
  · by_cases heq : t = topic
    · subst heq
      rw [hself]
      exact ⟨hset, hplain, hsize⟩
    · rw [hother heq] at ht ⊢
      exact h.named t ht
  · rw [hmem]
    by_cases heq : t = topic
    · exact Or.inr (Or.inl (by rw [heq]))
    · rw [hother heq] at ht
      exact Or.inl (h.topic t ht)
  · rw [hmem]
    by_cases heq : t = topic
    · subst heq
      rw [hself] at hp
      by_cases hlast : p = counts t
      · exact Or.inr (Or.inr (by rw [hlast]))
      · exact Or.inl (h.partition t p (by omega))
    · rw [hother heq] at hp
      exact Or.inl (h.partition t p hp)

/-- The directories of a partition that is in the tree are not created again. -/
theorem createDirAll_partition (h : Tree cfg counts disk) {p : Nat} (hp : p < counts topic) :
    disk.createDirAll (partitionDir cfg topic p) = .ok disk := by
  have hpos : 0 < counts topic := by omega
  refine createDirAll_there fun d hd => ?_
  rw [inits_partitionDir (h.named topic hpos).2.1] at hd
  have hthere : d ∈ disk.dirs := by
    rcases List.mem_append.1 hd with hd | hd
    · exact h.root d hd
    · simp only [List.mem_cons, List.not_mem_nil, or_false] at hd
      rcases hd with rfl | rfl
      · exact h.topic topic hpos
      · exact h.partition topic p hp
  exact ⟨hthere, h.apart d hthere⟩

/-- A file in the directory of a topic is not where a directory is. -/
theorem setFile (h : Tree cfg counts disk) {path : Path} (hpath : path ∉ disk.dirs)
    (contents : Option String) : Tree cfg counts (disk.setFile path contents) := by
  refine ⟨h.root, h.nodup, fun d hd => ?_, h.below, h.named, h.topic, h.partition⟩
  have hne : d ≠ path := fun heq => hpath (heq ▸ hd)
  show (if d = path then contents else disk.files d) = none
  rw [if_neg hne]
  exact h.apart d hd

/-- The name of no partition is that of a file. -/
theorem file_notMem (h : Tree cfg counts disk) (hpos : 0 < counts topic) {name : String} {c : Char}
    (hc : c ∈ name.toList) (hdigit : c.isDigit = false) :
    resolve cfg.dataDir ++ [topic] ++ [name] ∉ disk.dirs := by
  intro hmem
  rw [List.append_assoc] at hmem
  obtain ⟨p, _, hname⟩ := h.names hmem (not_reserved (h.named topic hpos).1.topic)
  rw [hname, Group.toList_toString] at hc
  exact not_mem_toDigits hdigit hc

/-- **`persist_topic_metadata`** of a topic in the tree succeeds and leaves the tree. -/
theorem persistTopicMetadata {s : Store} (h : Tree cfg counts s.disk) (hpos : 0 < counts topic) :
    ∃ disk, Store.persistTopicMetadata cfg s topic n = (.ok (), { s with disk }) ∧
      Tree cfg counts disk := by
  have hdir := Group.resolve_concat_plain (h.named topic hpos).2.1 cfg.dataDir
  have htemporary := h.file_notMem hpos (show '.' ∈ "topic.meta.tmp".toList by decide) rfl
  have hmeta := h.file_notMem hpos (show '.' ∈ "topic.meta".toList by decide) rfl
  unfold Store.persistTopicMetadata
  rw [hdir, if_neg]
  · exact ⟨_, rfl, (h.setFile htemporary none).setFile hmeta _⟩
  · rw [Bool.or_eq_true, Bool.or_eq_true, Bool.not_eq_true', List.contains_iff_mem,
      List.contains_iff_mem, or_assoc]
    rintro (hno | hno | hno)
    · rw [List.contains_iff_mem.2 (h.topic topic hpos)] at hno
      cases hno
    · exact htemporary hno
    · exact hmeta hno

end Tree

/-! ## The open logs -/

/-- The counts of the topic map. -/
def Store.counts (s : Store) (topic : String) : Nat := (s.topics topic).getD 0

theorem insertTopic_counts (s : Store) (topic : String) (n : Nat) :
    (s.insertTopic topic n).counts = Function.update s.counts topic n := by
  funext t
  by_cases ht : t = topic
  · simp [Store.counts, Store.insertTopic, ht]
  · simp [Store.counts, Store.insertTopic, ht]

section Logs

variable [Checksum]

/-- Every open log has the segment files of its own directory. -/
def OwnSegments (cfg : StorageSettings) (s : Store) : Prop :=
  ∀ topic p log, s.logs topic p = some log →
    s.segments (resolve cfg.dataDir ++ [topic, toString p]) = log.dir ∧ Stored log

/-- The partitions of the tree are open, and there are no other segment files. -/
structure Holding (cfg : StorageSettings) (counts : String → Nat) (s : Store) : Prop where
  tree : Tree cfg counts s.disk
  logs : ∀ topic p, (s.logs topic p).isSome = true ↔ p < counts topic
  stored : OwnSegments cfg s
  vacant : ∀ topic p, counts topic ≤ p →
    s.segments (resolve cfg.dataDir ++ [topic, toString p]) = Dir.empty

variable {cfg : StorageSettings} {counts : String → Nat} {s s' : Store} {topic : String} {n p : Nat}
  {log : PartitionLog}

omit [Checksum] in
/-- The segment files of one partition are not those of another. -/
theorem setSegments_other {root : Path} {dir : Dir} {t : String} {q : Nat}
    (hne : ¬ (t = topic ∧ q = p)) :
    (s.setSegments (root ++ [topic, toString p]) dir).segments (root ++ [t, toString q]) =
      s.segments (root ++ [t, toString q]) :=
  if_neg fun heq => hne (partition_path_inj heq)

/-- A log that is opened or changed together with its files. -/
theorem OwnSegments.insertLog (h : OwnSegments cfg s) (hlog : Stored log) : OwnSegments cfg
    ((s.setSegments (resolve cfg.dataDir ++ [topic, toString p]) log.dir).insertLog topic p log) := by
  intro t q l hl
  simp only [Store.insertLog] at hl ⊢
  split at hl
  · rename_i heq
    cases hl
    rw [heq.1, heq.2]
    exact ⟨if_pos rfl, hlog⟩
  · rename_i hne
    rw [setSegments_other hne]
    exact h t q l hl

theorem openPartition_ok (h : Store.openPartition cfg s topic p = (.ok log, s')) :
    ∃ disk, s.disk.createDirAll (partitionDir cfg topic p) = .ok disk ∧
      PartitionLog.openLog (s.segments (resolve (partitionDir cfg topic p))) topic
        cfg.maxSegmentBytes cfg.indexIntervalBytes = .ok log ∧
      s' = { s with disk }.setSegments (resolve (partitionDir cfg topic p)) log.dir := by
  unfold Store.openPartition at h
  split at h
  · cases h
  split at h
  · cases h
  split at h
  · cases h
  split at h
  · cases h
  rename_i disk hcreate
  simp only at h
  split at h
  · cases h
  · rename_i log' hopen
    cases h
    exact ⟨disk, hcreate, hopen, rfl⟩

/-- With the directory there, `open` is a matter of the segment files. -/
theorem openPartition_there
    (hset : Storage.Settings topic cfg.maxSegmentBytes cfg.indexIntervalBytes)
    (hcreate : s.disk.createDirAll (partitionDir cfg topic p) = .ok s.disk) :
    Store.openPartition cfg s topic p =
      match PartitionLog.openLog (s.segments (resolve (partitionDir cfg topic p))) topic
        cfg.maxSegmentBytes cfg.indexIntervalBytes with
      | .error e => (.error e, s)
      | .ok log => (.ok log, s.setSegments (resolve (partitionDir cfg topic p)) log.dir) := by
  unfold Store.openPartition
  rw [hset.topic]
  simp only [if_neg hset.segment, if_neg hset.index, hcreate]

namespace Holding

/-- **The next partition** of a topic is opened. -/
theorem openPartition (h : Holding cfg counts s) (hplain : Group.Plain topic)
    (hsize : counts topic + 1 < UInt32.size)
    (hopen : Store.openPartition cfg s topic (counts topic) = (.ok log, s')) :
    Holding cfg (Function.update counts topic (counts topic + 1))
      (s'.insertLog topic (counts topic) log) := by
  obtain ⟨disk, hcreate, hlog, rfl⟩ := openPartition_ok hopen
  rw [resolve_partitionDir hplain] at hlog ⊢
  rw [h.vacant topic _ (le_refl _)] at hlog
  have hstored : OwnSegments cfg { s with disk } := h.stored
  refine ⟨h.tree.createDirAll (openLog_settings hlog) hplain hsize hcreate, fun t p => ?_,
    hstored.insertLog ⟨_, [], [], [], openLog_empty hlog⟩, fun t p hp => ?_⟩
  · simp only [Store.insertLog, Store.setSegments]
    by_cases heq : t = topic
    · subst heq
      rw [Function.update_self]
      by_cases hlast : p = counts t
      · simp [hlast]
      · simp only [true_and, if_neg hlast, h.logs]
        omega
    · simp [heq, h.logs]
  · by_cases heq : t = topic
    · subst heq
      rw [Function.update_self] at hp
      rw [Store.insertLog, setSegments_other fun hsame => by omega]
      exact h.vacant t p (by omega)
    · rw [Function.update_of_ne heq] at hp
      rw [Store.insertLog, setSegments_other fun hsame => heq hsame.1]
      exact h.vacant t p hp

/-- **The loop of `create_topic`**, from the partition `counts topic` on. -/
theorem createPartitions (hplain : Group.Plain topic) : ∀ {m : Nat} {counts : String → Nat}
    {s s' : Store}, Holding cfg counts s → counts topic + m < UInt32.size →
    Store.createPartitions cfg topic (List.range' (counts topic) m) s = (.ok (), s') →
      Holding cfg (Function.update counts topic (counts topic + m)) s' ∧ s'.topics = s.topics
  | 0, counts, s, s', h, _, hloop => by
    cases hloop
    rw [Nat.add_zero, Function.update_eq_self]
    exact ⟨h, rfl⟩
  | m + 1, counts, s, s', h, hsize, hloop => by
    rw [List.range'_succ, Store.createPartitions] at hloop
    split at hloop
    · rename_i log hlog
      have hlt := (h.logs topic (counts topic)).1 (by rw [hlog]; rfl)
      omega
    split at hloop
    · cases hloop
    · rename_i log s₁ hopen
      have h₁ := h.openPartition hplain (by omega) hopen
      have hloop₁ : Store.createPartitions cfg topic (List.range'
          (Function.update counts topic (counts topic + 1) topic) m)
          (s₁.insertLog topic (counts topic) log) = (.ok (), s') := by
        rw [Function.update_self]
        exact hloop
      obtain ⟨h', htopics⟩ := createPartitions hplain h₁
        (by rw [Function.update_self]; omega) hloop₁
      rw [Function.update_self, Function.update_idem] at h'
      refine ⟨by rw [← Nat.add_assoc, Nat.add_right_comm]; exact h', ?_⟩
      obtain ⟨disk, _, _, rfl⟩ := openPartition_ok hopen
      exact htopics

end Holding

/-- The state of a store between requests. -/
structure Kept (cfg : StorageSettings) (s : Store) : Prop where
  holding : Holding cfg s.counts s
  topics : ∀ topic, s.topics topic ≠ some 0

/-- What `create_topic` did when it succeeds. -/
theorem createTopic_ok {partitions : UInt32}
    (h : Store.createTopic cfg s topic partitions = (.ok n, s')) :
    n = partitions.toNat ∧ 0 < n ∧ s.topics topic = none ∧
      ∃ s₁ s₂, Store.createPartitions cfg topic (List.range n) s = (.ok (), s₁) ∧
        Store.persistTopicMetadata cfg s₁ topic n = (.ok (), s₂) ∧ s' = s₂.insertTopic topic n := by
  unfold Store.createTopic at h
  split at h
  · cases h
  rename_i hpos
  split at h
  · cases h
  rename_i hnone
  split at h
  · cases h
  rename_i s₁ hloop
  split at h
  · cases h
  rename_i s₂ hpersist
  cases h
  exact ⟨rfl, Nat.pos_of_ne_zero hpos, by simpa using hnone, s₁, s₂, hloop, hpersist, rfl⟩

/-- **`create_topic`** adds the directories of the topic and nothing else. -/
theorem Kept.createTopic (h : Kept cfg s) (hplain : Group.Plain topic) {partitions : UInt32}
    (hcreate : Store.createTopic cfg s topic partitions = (.ok n, s')) :
    Kept cfg s' ∧ s'.topics = (s.insertTopic topic n).topics := by
  obtain ⟨hn, hpos, hnone, s₁, s₂, hloop, hpersist, rfl⟩ := createTopic_ok hcreate
  have hzero : s.counts topic = 0 := by simp [Store.counts, hnone]
  have hrange : List.range n = List.range' (s.counts topic) n := by
    rw [hzero, List.range_eq_range']
  rw [hrange] at hloop
  have hsize : s.counts topic + n < UInt32.size := by
    rw [hzero, Nat.zero_add, hn]
    exact partitions.toNat_lt_size
  obtain ⟨h₁, htopics⟩ := h.holding.createPartitions hplain hsize hloop
  rw [hzero, Nat.zero_add] at h₁
  obtain ⟨disk, hper, hdisk⟩ := @Tree.persistTopicMetadata cfg _ topic n s₁ h₁.tree
    (by rw [Function.update_self]; exact hpos)
  rw [hper] at hpersist
  cases hpersist
  have hcounts : (Store.insertTopic { s₁ with disk } topic n).counts =
      Function.update s.counts topic n := by
    rw [insertTopic_counts]
    have hsame : Store.counts { s₁ with disk } = s.counts := by
      funext t
      simp only [Store.counts, htopics]
    rw [hsame]
  refine ⟨⟨?_, fun t => ?_⟩, by simp only [Store.insertTopic, htopics]⟩
  · rw [hcounts]
    exact ⟨hdisk, h₁.logs, h₁.stored, h₁.vacant⟩
  · simp only [Store.insertTopic, htopics]
    split
    · intro heq
      cases heq
      omega
    · exact h.topics t

end Logs

end SevlaMq.Broker

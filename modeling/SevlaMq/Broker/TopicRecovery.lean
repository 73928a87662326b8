import SevlaMq.Broker.TopicDirs

/-!
# Topics after a restart

`discover_partitions` lists the data directory and `recover_storage` opens what it finds.

* `Tree.discoverPartitions` — the partitions of the tree are found, each once.
* `Kept.recoverStorage` — they are opened and counted as they were when every log still has its
  first segment.
* `found_iff` — over all runs of a storage worker with restarts, created partitions are inside the
  data directory, apart from each other and found again exactly when no topic was called `.` or `..`
  and retention removed no segment of an open log.
-/

set_option autoImplicit false

namespace SevlaMq.Broker

open SevlaMq.Storage
open SevlaMq.Group (Path Disk resolve)

/-! ## Discovery -/

section Discovery

variable {cfg : StorageSettings} {counts : String → Nat} {disk disk' : Disk} {root : Path}
  {topic : String}

theorem discoverNames_ok : ∀ {names : List String},
    (∀ name ∈ names, ∃ p < UInt32.size, name = toString p) →
    ∃ pairs, discoverNames topic names = .ok pairs ∧
      (∀ t p, (t, p) ∈ pairs ↔ t = topic ∧ toString p ∈ names) ∧ (names.Nodup → pairs.Nodup)
  | [], _ => ⟨[], rfl, by simp, fun _ => List.nodup_nil⟩
  | name :: names, h => by
    obtain ⟨p, hp, rfl⟩ := h name List.mem_cons_self
    obtain ⟨pairs, hpairs, hmem, hnodup⟩ :=
      discoverNames_ok fun x hx => h x (List.mem_cons_of_mem _ hx)
    have hparse : parseUnsigned (UInt32.size - 1) (toString p).toList = some p := by
      rw [Group.toList_toString]
      exact parseUnsigned_toDigits (by omega)
    refine ⟨(topic, p) :: pairs, by simp only [discoverNames, hparse, hpairs], fun t q => ?_,
      fun hnd => ?_⟩
    · rw [List.mem_cons, hmem, List.mem_cons, Prod.mk.injEq]
      constructor
      · rintro (⟨rfl, rfl⟩ | ⟨rfl, hq⟩)
        · exact ⟨rfl, Or.inl rfl⟩
        · exact ⟨rfl, Or.inr hq⟩
      · rintro ⟨rfl, hq | hq⟩
        · exact Or.inl ⟨rfl, toString_injective hq⟩
        · exact Or.inr ⟨rfl, hq⟩
    · obtain ⟨hnot, hnd⟩ := List.nodup_cons.1 hnd
      exact List.nodup_cons.2 ⟨fun hin => hnot ((hmem _ _).1 hin).2, hnodup hnd⟩

/-- The topics and partitions are those of the directories, when their names are. -/
theorem discoverTopics_ok (hdirs : disk.dirs.Nodup) : ∀ {names : List String},
    (∀ name ∈ names, reserved name = false → validateTopic name = .ok () ∧
      ∀ y ∈ disk.readDir (root ++ [name]), ∃ p < UInt32.size, y = toString p) →
    ∃ pairs, discoverTopics disk root names = .ok pairs ∧
      (∀ t p, (t, p) ∈ pairs ↔ t ∈ names ∧ reserved t = false ∧
        toString p ∈ disk.readDir (root ++ [t])) ∧
      (names.Nodup → pairs.Nodup)
  | [], _ => ⟨[], rfl, by simp, fun _ => List.nodup_nil⟩
  | name :: names, h => by
    obtain ⟨others, hothers, hmem, hnodup⟩ :=
      discoverTopics_ok hdirs fun x hx => h x (List.mem_cons_of_mem _ hx)
    by_cases hres : reserved name = true
    · refine ⟨others, by simp only [discoverTopics, hres, if_true, hothers], fun t p => ?_,
        fun hnd => hnodup (List.nodup_cons.1 hnd).2⟩
      rw [hmem, List.mem_cons]
      constructor
      · rintro ⟨ht, hrest⟩
        exact ⟨Or.inr ht, hrest⟩
      · rintro ⟨rfl | ht, hfalse, hp⟩
        · rw [hres] at hfalse
          cases hfalse
        · exact ⟨ht, hfalse, hp⟩
    · rw [Bool.not_eq_true] at hres
      obtain ⟨hvalid, hnames⟩ := h name List.mem_cons_self hres
      obtain ⟨own, hown, hownmem, hownnodup⟩ := @discoverNames_ok name _ hnames
      refine ⟨own ++ others, ?_, fun t p => ?_, fun hnd => ?_⟩
      · simp only [discoverTopics, hres, Bool.false_eq_true, if_false, hvalid, hown, hothers]
      · rw [List.mem_append, hownmem, hmem, List.mem_cons]
        constructor
        · rintro (⟨rfl, hp⟩ | ⟨ht, hrest⟩)
          · exact ⟨Or.inl rfl, hres, hp⟩
          · exact ⟨Or.inr ht, hrest⟩
        · rintro ⟨rfl | ht, hfalse, hp⟩
          · exact Or.inl ⟨rfl, hp⟩
          · exact Or.inr ⟨ht, hfalse, hp⟩
      · obtain ⟨hnot, hnd⟩ := List.nodup_cons.1 hnd
        refine List.Nodup.append (hownnodup (readDir_nodup hdirs)) (hnodup hnd) ?_
        rintro ⟨t, p⟩ hin hin'
        obtain ⟨rfl, _⟩ := (hownmem t p).1 hin
        exact hnot ((hmem _ _).1 hin').1

/-- **`discover_partitions`** finds the partitions of the tree, each once. -/
theorem Tree.discoverPartitions (h : Tree cfg counts disk) :
    ∃ pairs, discoverPartitions cfg disk = .ok (disk, pairs) ∧ pairs.Nodup ∧
      ∀ t p, (t, p) ∈ pairs ↔ p < counts t := by
  have hcreate : disk.createDirAll cfg.dataDir = .ok disk :=
    createDirAll_there fun d hd => ⟨h.root d hd, h.apart d (h.root d hd)⟩
  have hnames : ∀ name ∈ disk.readDir (resolve cfg.dataDir), reserved name = false →
      validateTopic name = .ok () ∧
        ∀ y ∈ disk.readDir (resolve cfg.dataDir ++ [name]), ∃ p < UInt32.size, y = toString p := by
    intro name hname hres
    have hpos : 0 < counts name := by
      rcases h.below name [] (mem_readDir_iff.1 hname) with hreserved | ⟨hpos, _⟩
      · rw [hres] at hreserved
        cases hreserved
      · exact hpos
    refine ⟨(h.named name hpos).1.topic, fun y hy => ?_⟩
    have hchild := mem_readDir_iff.1 hy
    rw [List.append_assoc] at hchild
    obtain ⟨p, hp, hy⟩ := h.names hchild hres
    exact ⟨p, hp.trans (h.named name hpos).2.2, hy⟩
  obtain ⟨pairs, hpairs, hmem, hnodup⟩ := discoverTopics_ok h.nodup hnames
  refine ⟨pairs.insertionSort identityLe, ?_, ?_, fun t p => ?_⟩
  · simp only [SevlaMq.Broker.discoverPartitions, hcreate, hpairs]
  · exact (List.perm_insertionSort identityLe pairs).nodup_iff.2 (hnodup (readDir_nodup h.nodup))
  · rw [(List.perm_insertionSort identityLe pairs).mem_iff, hmem, mem_readDir_iff, mem_readDir_iff,
      List.append_assoc]
    constructor
    · rintro ⟨_, hres, hpath⟩
      obtain ⟨q, hq, heq⟩ := h.names hpath hres
      rw [toString_injective heq]
      exact hq
    · intro hp
      have hpos : 0 < counts t := by omega
      exact ⟨h.topic t hpos, not_reserved (h.named t hpos).1.topic, h.partition t p hp⟩

/-- What is discovered on any disk are names of directories. -/
theorem discoverTopics_mem : ∀ {names : List String} {pairs : List (String × Nat)} {p : Nat},
    discoverTopics disk root names = .ok pairs → (topic, p) ∈ pairs → topic ∈ names
  | [], pairs, p, h, hin => by
    cases h
    cases hin
  | name :: names, pairs, p, h, hin => by
    have hnames : ∀ {ys : List String} {own : List (String × Nat)} {t : String} {q : Nat},
        discoverNames name ys = .ok own → (t, q) ∈ own → t = name := by
      intro ys
      induction ys with
      | nil =>
        intro own t q hown hin
        cases hown
        cases hin
      | cons y ys ih =>
        intro own t q hown hin
        simp only [discoverNames] at hown
        split at hown
        · cases hown
        split at hown
        · cases hown
        · rename_i rest hrest
          cases hown
          rcases List.mem_cons.1 hin with heq | hin
          · exact congrArg Prod.fst heq
          · exact ih hrest hin
    simp only [discoverTopics] at h
    split at h
    · exact List.mem_cons_of_mem _ (discoverTopics_mem h hin)
    split at h
    · cases h
    split at h
    · cases h
    split at h
    · cases h
    rename_i own hown _ others hothers
    cases h
    rcases List.mem_append.1 hin with hin | hin
    · exact List.mem_cons.2 (Or.inl (hnames hown hin))
    · exact List.mem_cons_of_mem _ (discoverTopics_mem hothers hin)

/-- The names of directories are not `.` or `..`. -/
def Named (disk : Disk) : Prop := ∀ d ∈ disk.dirs, ∀ c ∈ d, Group.Plain c

theorem Named.createDirAll (h : Named disk) {components : List String}
    (hcreate : disk.createDirAll components = .ok disk') : Named disk' := by
  intro d hd c hc
  rcases ((Group.createDirAll_ok hcreate).2 d).1 hd with hd | hd
  · exact h d hd c hc
  · obtain ⟨before, _, rfl⟩ := List.mem_map.1 hd
    exact resolve_mem_plain hc

theorem Named.listed (h : Named disk) {pairs : List (String × Nat)}
    (hdiscover : discoverPartitions cfg disk = .ok (disk', pairs)) : Named disk' := by
  unfold discoverPartitions at hdiscover
  split at hdiscover
  · cases hdiscover
  rename_i hcreate
  split at hdiscover
  · cases hdiscover
  cases hdiscover
  exact h.createDirAll hcreate

theorem Named.discovered (h : Named disk) {pairs : List (String × Nat)} {p : Nat}
    (hdiscover : discoverPartitions cfg disk = .ok (disk', pairs)) (hin : (topic, p) ∈ pairs) :
    Group.Plain topic := by
  have hdisk := h.listed hdiscover
  unfold discoverPartitions at hdiscover
  split at hdiscover
  · cases hdiscover
  split at hdiscover
  · cases hdiscover
  rename_i found hfound
  cases hdiscover
  rw [(List.perm_insertionSort identityLe found).mem_iff] at hin
  exact hdisk _ (mem_readDir_iff.1 (discoverTopics_mem hfound hin)) topic (by simp)

end Discovery

/-! ## Recovery -/

/-- The count of a topic is one more than the greatest of its partitions. -/
def Counted (done : List (String × Nat)) (topic : String) : Option Nat → Prop
  | none => ∀ p, (topic, p) ∉ done
  | some count => ∃ p, (topic, p) ∈ done ∧ count = p + 1 ∧ ∀ q, (topic, q) ∈ done → q ≤ p

theorem Counted.raised {done : List (String × Nat)} {topic : String} {count : Option Nat}
    (h : Counted done topic count) (p : Nat) :
    Counted (done ++ [(topic, p)]) topic (some (raisedCount count p)) := by
  cases count with
  | none =>
    refine ⟨p, by simp, rfl, fun q hq => ?_⟩
    rcases List.mem_append.1 hq with hq | hq
    · exact absurd hq (h q)
    · simp only [List.mem_singleton, Prod.mk.injEq, true_and] at hq
      omega
  | some count =>
    obtain ⟨greatest, hmem, rfl, hle⟩ := h
    have hcases : ∀ q, (topic, q) ∈ done ++ [(topic, p)] → q ≤ greatest ∨ q = p := by
      intro q hq
      rcases List.mem_append.1 hq with hq | hq
      · exact Or.inl (hle q hq)
      · simp only [List.mem_singleton, Prod.mk.injEq, true_and] at hq
        exact Or.inr hq
    by_cases hlt : p ≤ greatest
    · refine ⟨greatest, List.mem_append_left _ hmem, ?_, fun q hq => ?_⟩
      · simp only [raisedCount]
        omega
      · rcases hcases q hq with hq | rfl
        · exact hq
        · exact hlt
    · refine ⟨p, by simp, ?_, fun q hq => ?_⟩
      · simp only [raisedCount]
        omega
      · rcases hcases q hq with hq | rfl
        · omega
        · exact le_refl _

section Recovery

variable [Checksum]

/-- The loop of `recover_storage` after the partitions `done`, over the disk of `s₀`. -/
structure Recovering (cfg : StorageSettings) (s₀ : Store) (done : List (String × Nat)) (s : Store) :
    Prop where
  disk : s.disk = s₀.disk
  logs : ∀ t p, (s.logs t p).isSome = true ↔ (t, p) ∈ done
  stored : OwnSegments cfg s
  rest : ∀ t p, (t, p) ∉ done → s.segments (resolve cfg.dataDir ++ [t, toString p]) =
    s₀.segments (resolve cfg.dataDir ++ [t, toString p])
  topics : ∀ t, Counted done t (s.topics t)

variable {cfg : StorageSettings} {s₀ s s' : Store} {done : List (String × Nat)} {topic : String}
  {p : Nat} {log log' : PartitionLog}

theorem recovering_start (s : Store) :
    Recovering cfg s [] ⟨s.disk, s.segments, fun _ _ => none, fun _ => none⟩ := by
  refine ⟨rfl, fun _ _ => by simp, fun _ _ _ hl => ?_, fun _ _ _ => rfl,
    fun _ _ => List.not_mem_nil⟩
  cases hl

/-- **One partition** is opened. -/
theorem Recovering.opened (h : Recovering cfg s₀ done s) (hnew : (topic, p) ∉ done)
    (hlog : Stored log) :
    Recovering cfg s₀ (done ++ [(topic, p)])
      (((s.setSegments (resolve cfg.dataDir ++ [topic, toString p]) log.dir).insertLog topic p
        log).insertTopic topic (raisedCount (s.topics topic) p)) := by
  refine ⟨h.disk, fun t q => ?_, h.stored.insertLog hlog, fun t q hq => ?_, fun t => ?_⟩
  · simp only [Store.insertTopic, Store.insertLog, Store.setSegments, List.mem_append,
      List.mem_singleton, Prod.mk.injEq]
    by_cases heq : t = topic ∧ q = p
    · simp [heq]
    · simp [heq, h.logs]
  · simp only [List.mem_append, List.mem_singleton, Prod.mk.injEq, not_or] at hq
    exact (setSegments_other hq.2).trans (h.rest t q hq.1)
  · simp only [Store.insertTopic, Store.insertLog, Store.setSegments]
    by_cases ht : t = topic
    · subst ht
      rw [if_pos rfl]
      exact (h.topics t).raised p
    · rw [if_neg ht]
      have hsame : ∀ q, (t, q) ∈ done ++ [(topic, p)] ↔ (t, q) ∈ done := by simp [ht]
      have hcount := h.topics t
      cases hc : s.topics t with
      | none =>
        rw [hc] at hcount
        exact fun q hq => hcount q ((hsame q).1 hq)
      | some c =>
        rw [hc] at hcount
        obtain ⟨greatest, hmem, heq, hle⟩ := hcount
        exact ⟨greatest, (hsame _).2 hmem, heq, fun q hq => hle q ((hsame q).1 hq)⟩

/-- The log of a partition still has its first segment. -/
def Complete (s : Store) (x : String × Nat) : Prop :=
  ∀ log, s.logs x.1 x.2 = some log → log.lowWatermark = 0

/-- **The first loop of `recover_storage`** opens every partition, or fails on one that retention
has removed a segment of. -/
theorem Recovering.recoverPartitions {counts : String → Nat} (hold : Holding cfg counts s₀) :
    ∀ {ids done : List (String × Nat)} {s : Store}, Recovering cfg s₀ done s →
    (done ++ ids).Nodup → (∀ x ∈ ids, x.2 < counts x.1) →
    ((∀ x ∈ ids, Complete s₀ x) → ∃ s', Store.recoverPartitions cfg ids s = (.ok (), s') ∧
      Recovering cfg s₀ (done ++ ids) s') ∧
    ((∃ x ∈ ids, ¬ Complete s₀ x) → (Store.recoverPartitions cfg ids s).1 ≠ .ok ())
  | [], done, s, h, _, _ => by
    refine ⟨fun _ => ⟨s, rfl, by rw [List.append_nil]; exact h⟩, ?_⟩
    rintro ⟨x, hx, _⟩
    cases hx
  | (topic, p) :: ids, done, s, h, hnodup, hcounts => by
    have hp : p < counts topic := hcounts (topic, p) List.mem_cons_self
    obtain ⟨hset, hplain, _⟩ := hold.tree.named topic (by omega)
    obtain ⟨log, hlog⟩ := Option.isSome_iff_exists.1 ((hold.logs topic p).2 hp)
    obtain ⟨hdir, hstored⟩ := hold.stored topic p log hlog
    have hnew : (topic, p) ∉ done := by
      intro hin
      exact (List.nodup_append.1 hnodup).2.2 _ hin _ List.mem_cons_self rfl
    have hsegments : s.segments (resolve (partitionDir cfg topic p)) = log.dir := by
      rw [resolve_partitionDir hplain, h.rest topic p hnew, hdir]
    have hopen := @openPartition_there _ cfg s topic p hset (by
      rw [h.disk]
      exact hold.tree.createDirAll_partition hp)
    rw [hsegments, resolve_partitionDir hplain] at hopen
    have hcomplete : Complete s₀ (topic, p) ↔ log.lowWatermark = 0 := by
      simp [Complete, hlog]
    by_cases hzero : log.lowWatermark = 0
    · obtain ⟨log', hlog'⟩ := (hstored.reopens_iff hset).2 hzero
      rw [hlog'] at hopen
      have h₁ := h.opened hnew (hstored.reopen hlog')
      have hrest := recoverPartitions hold h₁ (by simpa using hnodup)
        fun x hx => hcounts x (List.mem_cons_of_mem _ hx)
      have hloop : Store.recoverPartitions cfg ((topic, p) :: ids) s =
          Store.recoverPartitions cfg ids (((s.setSegments
            (resolve cfg.dataDir ++ [topic, toString p]) log'.dir).insertLog topic p
              log').insertTopic topic (raisedCount (s.topics topic) p)) := by
        simp only [Store.recoverPartitions, hopen]
        rfl
      rw [hloop]
      refine ⟨fun hall => ?_, ?_⟩
      · obtain ⟨s', hs', h'⟩ := hrest.1 fun x hx => hall x (List.mem_cons_of_mem _ hx)
        exact ⟨s', hs', by simpa using h'⟩
      · rintro ⟨x, hx, hnot⟩
        rcases List.mem_cons.1 hx with rfl | hx
        · exact absurd (hcomplete.2 hzero) hnot
        · exact hrest.2 ⟨x, hx, hnot⟩
    · refine ⟨fun hall => absurd (hcomplete.1 (hall _ List.mem_cons_self)) hzero, fun _ => ?_⟩
      cases hfails : PartitionLog.openLog log.dir topic cfg.maxSegmentBytes
          cfg.indexIntervalBytes with
      | ok log' => exact absurd ((hstored.reopens_iff hset).1 ⟨log', hfails⟩) hzero
      | error e =>
        rw [hfails] at hopen
        simp [Store.recoverPartitions, hopen]

omit [Checksum] in
/-- **The second loop of `recover_storage`** succeeds for the topics of the tree. -/
theorem Tree.persistTopics {counts : String → Nat} : ∀ {names : List String} {s : Store},
    Tree cfg counts s.disk → (∀ t ∈ names, 0 < counts t) →
    ∃ disk, Store.persistTopics cfg names s = (.ok (), { s with disk }) ∧ Tree cfg counts disk
  | [], s, h, _ => ⟨s.disk, rfl, h⟩
  | name :: names, s, h, hpos => by
    obtain ⟨disk₁, hpersist, h₁⟩ := @Tree.persistTopicMetadata cfg counts name
      ((s.topics name).getD 0) s h (hpos name List.mem_cons_self)
    obtain ⟨disk, hrest, h'⟩ := @persistTopics counts names { s with disk := disk₁ } h₁
      fun t ht => hpos t (List.mem_cons_of_mem _ ht)
    refine ⟨disk, ?_, h'⟩
    simp only [Store.persistTopics, hpersist]
    exact hrest

theorem Kept.topics_none (h : Kept cfg s) (hzero : ¬ 0 < s.counts topic) :
    s.topics topic = none := by
  cases hcount : s.topics topic with
  | none => rfl
  | some c =>
    have hne := h.topics topic
    simp only [Store.counts, hcount, Option.getD_some] at hzero
    rw [hcount, Nat.eq_zero_of_not_pos hzero] at hne
    exact absurd rfl hne

omit [Checksum] in
theorem topics_of_counts {c : Nat} (h : s.counts topic = c) (hpos : 0 < c) :
    s.topics topic = some c := by
  unfold Store.counts at h
  cases hcount : s.topics topic with
  | none =>
    rw [hcount] at h
    exact absurd h (Nat.ne_of_lt hpos)
  | some c' =>
    rw [hcount] at h
    exact congrArg some h

/-- The count of the partitions that were found is the one of the topic map. -/
theorem Kept.topics_counted (h : Kept cfg s) (hdone : ∀ p, (topic, p) ∈ done ↔ p < s.counts topic)
    {count : Option Nat} (hcount : Counted done topic count) : count = s.topics topic := by
  cases count with
  | none => exact (h.topics_none fun hpos => hcount 0 ((hdone 0).2 hpos)).symm
  | some c =>
    obtain ⟨greatest, hgreatest, rfl, hle⟩ := hcount
    refine (topics_of_counts ?_ (Nat.succ_pos _)).symm
    have hlt := (hdone greatest).1 hgreatest
    have hlast := hle (s.counts topic - 1) ((hdone _).2 (by omega))
    omega

/-- **`recover_storage`** rebuilds the store when every log still has its first segment, and fails
otherwise. -/
theorem Kept.recoverStorage (h : Kept cfg s) :
    ((∀ t p, Complete s (t, p)) → ∃ s', Store.recoverStorage cfg s = (.ok (), s') ∧ Kept cfg s' ∧
      s'.topics = s.topics) ∧
    ((∃ t p, ¬ Complete s (t, p)) → (Store.recoverStorage cfg s).1 ≠ .ok ()) := by
  obtain ⟨ids, hdiscover, hnodup, hmem⟩ := h.holding.tree.discoverPartitions
  obtain ⟨hall, hnone⟩ := (recovering_start s).recoverPartitions h.holding (by simpa using hnodup)
    fun x hx => (hmem x.1 x.2).1 hx
  constructor
  · intro hcomplete
    obtain ⟨s₁, hloop, h₁⟩ := hall fun x _ => hcomplete x.1 x.2
    rw [List.nil_append] at h₁
    have hpos : ∀ t ∈ (ids.map (·.1)).dedup, 0 < s.counts t := by
      intro t ht
      obtain ⟨x, hx, rfl⟩ := List.mem_map.1 (List.mem_dedup.1 ht)
      have := (hmem x.1 x.2).1 hx
      omega
    obtain ⟨disk, hpersist, htree⟩ := @Tree.persistTopics cfg s.counts _ s₁
      (by rw [h₁.disk]; exact h.holding.tree) hpos
    have htopics : s₁.topics = s.topics := funext fun t => h.topics_counted (hmem t) (h₁.topics t)
    have hcounts : Store.counts { s₁ with disk } = s.counts := by
      funext t
      simp only [Store.counts, htopics]
    refine ⟨{ s₁ with disk }, ?_, ⟨?_, fun t => ?_⟩, htopics⟩
    · simp only [Store.recoverStorage, hdiscover, hloop, hpersist]
    · rw [hcounts]
      refine ⟨htree, fun t p => ?_, h₁.stored, fun t p hp => ?_⟩
      · rw [h₁.logs, hmem]
      · rw [h₁.rest t p fun hin => by have := (hmem t p).1 hin; omega]
        exact h.holding.vacant t p hp
    · simp only [htopics]
      exact h.topics t
  · rintro ⟨t, p, hnot⟩
    have hin : (t, p) ∈ ids := by
      rw [hmem, ← h.holding.logs]
      by_contra hno
      refine hnot fun log hlog => absurd ?_ hno
      rw [hlog]
      rfl
    have hfails := hnone ⟨(t, p), hin, hnot⟩
    unfold Store.recoverStorage
    rw [hdiscover]
    simp only
    split
    · simp
    · rename_i hok
      rw [hok] at hfails
      exact absurd rfl hfails

end Recovery

/-! ## Runs -/

/-- A request that succeeds: a topic is created, a partition is written, truncated or cut by
retention, or the broker restarts. -/
inductive TopicAct where
  | create (topic : String) (partitions : UInt32)
  | operate (topic : String) (partition : Nat) (op : Operation)
  | restart

/-- The partition was created in the run. -/
def Created (acts : List TopicAct) (topic : String) (partition : Nat) : Prop :=
  ∃ partitions : UInt32, .create topic partitions ∈ acts ∧ partition < partitions.toNat

/-- A store without topics: below the data directory there are only reserved directories. -/
structure Vacant (cfg : StorageSettings) (s : Store) : Prop where
  root : ∀ d ∈ cfg.dataDir.inits.map resolve, d ∈ s.disk.dirs
  nodup : s.disk.dirs.Nodup
  apart : ∀ d ∈ s.disk.dirs, s.disk.files d = none
  named : Named s.disk
  below : ∀ topic rest, resolve cfg.dataDir ++ topic :: rest ∈ s.disk.dirs → reserved topic = true
  segments : ∀ path, s.segments path = Dir.empty
  logs : ∀ topic p, s.logs topic p = none
  topics : ∀ topic, s.topics topic = none

/-- What a topic is called. -/
def TopicAct.Plain : TopicAct → Prop
  | .create topic _ => Group.Plain topic
  | _ => True

section TopicMap

variable {s s' : Store} {topic : String} {p : Nat} {acts : List TopicAct} {a : TopicAct}

/-- The topic map is that of the topics created in the run. -/
def Mapped (acts : List TopicAct) (s : Store) : Prop :=
  ∀ t n, s.topics t = some n ↔ ∃ partitions : UInt32, .create t partitions ∈ acts ∧
    n = partitions.toNat

theorem Mapped.other (h : Mapped acts s) (htopics : s'.topics = s.topics)
    (ha : ∀ t partitions, a ≠ .create t partitions) : Mapped (acts ++ [a]) s' := by
  intro t n
  rw [htopics, h t n]
  refine exists_congr fun partitions => and_congr_left fun _ => ?_
  rw [List.mem_append, List.mem_singleton]
  exact ⟨Or.inl, fun hin => hin.resolve_right fun heq => ha t partitions heq.symm⟩

theorem Mapped.created (h : Mapped acts s) {partitions : UInt32} (hnone : s.topics topic = none)
    (htopics : s'.topics = (s.insertTopic topic partitions.toNat).topics) :
    Mapped (acts ++ [.create topic partitions]) s' := by
  intro t n
  have hin : ∀ m : UInt32, .create t m ∈ acts ++ [.create topic partitions] ↔
      .create t m ∈ acts ∨ t = topic ∧ m = partitions := by
    intro m
    rw [List.mem_append, List.mem_singleton, TopicAct.create.injEq]
  simp only [htopics, Store.insertTopic, hin]
  by_cases ht : t = topic
  · subst ht
    rw [if_pos rfl]
    constructor
    · intro heq
      exact ⟨partitions, Or.inr ⟨rfl, rfl⟩, (Option.some.inj heq).symm⟩
    · rintro ⟨m, hm | ⟨_, rfl⟩, rfl⟩
      · have hsome := (h t m.toNat).2 ⟨m, hm, rfl⟩
        rw [hnone] at hsome
        cases hsome
      · rfl
  · rw [if_neg ht, h t n]
    simp [ht]

/-- The created partitions are those of the tree. -/
theorem created_iff (hmapped : Mapped acts s) : Created acts topic p ↔ p < s.counts topic := by
  constructor
  · rintro ⟨partitions, hin, hp⟩
    rw [Store.counts, (hmapped topic partitions.toNat).2 ⟨partitions, hin, rfl⟩]
    exact hp
  · intro hp
    unfold Store.counts at hp
    cases hcount : s.topics topic with
    | none =>
      rw [hcount] at hp
      cases hp
    | some c =>
      rw [hcount] at hp
      obtain ⟨partitions, hin, rfl⟩ := (hmapped topic c).1 hcount
      exact ⟨partitions, hin, hp⟩

end TopicMap

section Runs

variable [Checksum]

def topicStep (cfg : StorageSettings) (s : Store) : TopicAct → Option Store
  | .create topic partitions =>
    match Store.createTopic cfg s topic partitions with
    | (.error _, _) => none
    | (.ok _, s') => some s'
  | .operate topic partition op =>
    match s.logs topic partition with
    | none => none
    | some log =>
      match log.step op with
      | none => none
      | some log' =>
        some ((s.setSegments (resolve (partitionDir cfg topic partition)) log'.dir).insertLog topic
          partition log')
  | .restart =>
    match Store.recoverStorage cfg s with
    | (.error _, _) => none
    | (.ok (), s') => some s'

/-- There is room for one more offset. -/
def TopicCountable (s : Store) : TopicAct → Prop
  | .operate topic partition _ =>
    ∀ log, s.logs topic partition = some log → log.nextOffset < U64_MAX
  | _ => True

instance (s : Store) (a : TopicAct) : Decidable (TopicCountable s a) :=
  match a with
  | .create _ _ => isTrue trivial
  | .restart => isTrue trivial
  | .operate topic partition _ => decidable_of_iff
      ((s.logs topic partition).all fun log => decide (log.nextOffset < U64_MAX))
      (by simp [TopicCountable, Option.all_eq_true])

/-- The created partitions have directories of their own, strictly inside the data directory, they
are discovered, each once and nothing else, and recovery rebuilds the topic map. -/
structure Found (cfg : StorageSettings) (acts : List TopicAct) (s : Store) : Prop where
  inside : ∀ t p, Created acts t p → resolve cfg.dataDir <+: resolve (partitionDir cfg t p) ∧
    resolve (partitionDir cfg t p) ≠ resolve cfg.dataDir
  apart : ∀ t p t' p', Created acts t p → Created acts t' p' →
    resolve (partitionDir cfg t p) = resolve (partitionDir cfg t' p') → t = t' ∧ p = p'
  discovered : ∃ disk pairs, discoverPartitions cfg s.disk = .ok (disk, pairs) ∧ pairs.Nodup ∧
    ∀ t p, (t, p) ∈ pairs ↔ Created acts t p
  recovered : ∃ s', Store.recoverStorage cfg s = (.ok (), s') ∧ s'.topics = s.topics

variable {cfg : StorageSettings} {s s' : Store} {topic : String} {n p : Nat} {acts : List TopicAct}
  {a : TopicAct}

/-! ### Names that are not `.` or `..` -/

theorem Vacant.kept (h : Vacant cfg s) : Kept cfg s := by
  have hcounts : ∀ t, s.counts t = 0 := fun t => by simp [Store.counts, h.topics]
  refine ⟨⟨⟨h.root, h.nodup, h.apart, fun t rest hd => Or.inl (h.below t rest hd), ?_, ?_, ?_⟩, ?_,
    ?_, fun _ _ _ => h.segments _⟩, fun t => by simp [h.topics]⟩
  · intro t hpos
    rw [hcounts] at hpos
    cases hpos
  · intro t hpos
    rw [hcounts] at hpos
    cases hpos
  · intro t p hp
    rw [hcounts] at hp
    cases hp
  · intro t p
    simp [h.logs, hcounts]
  · intro t p log hlog
    rw [h.logs] at hlog
    cases hlog

/-- **An operation** changes one log and its segment files. -/
theorem Kept.operate (h : Kept cfg s) {log log' : PartitionLog} {op : Operation}
    (hlog : s.logs topic p = some log) (hb : log.nextOffset < U64_MAX)
    (hstep : log.step op = some log') :
    Kept cfg
      ((s.setSegments (resolve (partitionDir cfg topic p)) log'.dir).insertLog topic p log') := by
  have hp : p < s.counts topic := (h.holding.logs topic p).1 (by rw [hlog]; rfl)
  obtain ⟨_, hplain, _⟩ := h.holding.tree.named topic (by omega)
  have hstored := (h.holding.stored topic p log hlog).2.step hb hstep
  rw [resolve_partitionDir hplain]
  refine ⟨⟨h.holding.tree, fun t q => ?_, h.holding.stored.insertLog hstored, fun t q hq => ?_⟩,
    h.topics⟩
  · simp only [Store.insertLog, Store.setSegments]
    by_cases heq : t = topic ∧ q = p
    · rw [if_pos heq, heq.1, heq.2]
      exact iff_of_true rfl hp
    · rw [if_neg heq]
      exact h.holding.logs t q
  · have hcounts : s.counts t ≤ q := hq
    rw [Store.insertLog, setSegments_other]
    · exact h.holding.vacant t q hq
    · rintro ⟨rfl, rfl⟩
      omega

/-- **Every step** keeps the tree, the logs and the topic map together. -/
theorem kept_step (h : Kept cfg s ∧ Mapped acts s) (ha : TopicCountable s a ∧ a.Plain)
    (hstep : topicStep cfg s a = some s') : Kept cfg s' ∧ Mapped (acts ++ [a]) s' := by
  obtain ⟨hkept, hmapped⟩ := h
  cases a with
  | create topic partitions =>
    simp only [topicStep] at hstep
    split at hstep
    · cases hstep
    · rename_i n s₁ hcreate
      cases hstep
      obtain ⟨hkept', htopics⟩ := hkept.createTopic ha.2 hcreate
      obtain ⟨rfl, _, hnone, _⟩ := createTopic_ok hcreate
      exact ⟨hkept', hmapped.created hnone htopics⟩
  | operate topic partition op =>
    simp only [topicStep] at hstep
    split at hstep
    · cases hstep
    rename_i log hlog
    split at hstep
    · cases hstep
    rename_i log' hop
    cases hstep
    refine ⟨hkept.operate hlog (ha.1 log hlog) hop, hmapped.other rfl fun t partitions heq => ?_⟩
    cases heq
  | restart =>
    simp only [topicStep] at hstep
    split at hstep
    · cases hstep
    rename_i s₁ hrecover
    cases hstep
    have hcomplete : ∀ t p, Complete s (t, p) := by
      by_contra hno
      simp only [not_forall] at hno
      exact hkept.recoverStorage.2 hno (by rw [hrecover])
    obtain ⟨s₂, hs₂, hkept', htopics⟩ := hkept.recoverStorage.1 hcomplete
    rw [hrecover] at hs₂
    cases hs₂
    refine ⟨hkept', hmapped.other htopics fun t partitions heq => ?_⟩
    cases heq

/-- **Every run** with plain names ends in such a state. -/
theorem kept_run {s₀ : Store} (h₀ : Vacant cfg s₀)
    (hfew : Along (topicStep cfg) TopicCountable s₀ acts)
    (hr : run (topicStep cfg) s₀ acts = some s)
    (hplain : ∀ topic partitions, .create topic partitions ∈ acts → Group.Plain topic) :
    Kept cfg s ∧ Mapped acts s := by
  have hacts : ∀ a ∈ acts, a.Plain := by
    intro a ha
    cases a with
    | create topic partitions => exact hplain topic partitions ha
    | operate topic partition op => trivial
    | restart => trivial
  have hempty : Mapped [] s₀ := by
    intro t n
    simp [h₀.topics]
  have hrun := @run_history Store TopicAct (topicStep cfg) (fun s a => TopicCountable s a ∧ a.Plain)
    (fun acts s => Kept cfg s ∧ Mapped acts s)
    (fun past s a s' h ha hstep => kept_step h ha hstep) acts [] s₀ s ⟨h₀.kept, hempty⟩
    (hfew.and (Along.of_mem hacts)) hr
  exact hrun

/-- **Topics with plain names** are found. -/
theorem Kept.found (h : Kept cfg s) (hmapped : Mapped acts s)
    (hcomplete : ∀ t p, Complete s (t, p)) : Found cfg acts s := by
  have hpath : ∀ t p, Created acts t p →
      resolve (partitionDir cfg t p) = resolve cfg.dataDir ++ [t, toString p] := by
    intro t p hcreated
    have hp := (created_iff hmapped).1 hcreated
    exact resolve_partitionDir (h.holding.tree.named t (by omega)).2.1 p
  refine ⟨fun t p hcreated => ?_, fun t p t' p' hcreated hcreated' heq => ?_, ?_, ?_⟩
  · rw [hpath t p hcreated]
    refine ⟨List.prefix_append _ _, fun heq => ?_⟩
    have hlen := congrArg List.length heq
    rw [List.length_append] at hlen
    simp at hlen
  · rw [hpath t p hcreated, hpath t' p' hcreated'] at heq
    exact partition_path_inj heq
  · obtain ⟨pairs, hdiscover, hnodup, hmem⟩ := h.holding.tree.discoverPartitions
    exact ⟨s.disk, pairs, hdiscover, hnodup, fun t p => (hmem t p).trans (created_iff hmapped).symm⟩
  · obtain ⟨s', hrecover, _, htopics⟩ := h.recoverStorage.1 hcomplete
    exact ⟨s', hrecover, htopics⟩

/-! ### Any names -/

theorem Named.openPartition (h : Named s.disk) {log : PartitionLog}
    (hopen : Store.openPartition cfg s topic p = (.ok log, s')) : Named s'.disk := by
  obtain ⟨disk, hcreate, _, rfl⟩ := openPartition_ok hopen
  exact h.createDirAll hcreate

theorem Named.createPartitions : ∀ {ps : List Nat} {s s' : Store}, Named s.disk →
    Store.createPartitions cfg topic ps s = (.ok (), s') → Named s'.disk
  | [], _, _, h, hloop => by
    cases hloop
    exact h
  | p :: ps, s, s', h, hloop => by
    simp only [Store.createPartitions] at hloop
    split at hloop
    · exact Named.createPartitions h hloop
    split at hloop
    · cases hloop
    · rename_i log s₁ hopen
      have h₁ : Named s₁.disk := h.openPartition hopen
      exact Named.createPartitions (s := s₁.insertLog topic p log) h₁ hloop

theorem Named.recoverPartitions : ∀ {ids : List (String × Nat)} {s s' : Store}, Named s.disk →
    Store.recoverPartitions cfg ids s = (.ok (), s') → Named s'.disk
  | [], _, _, h, hloop => by
    cases hloop
    exact h
  | (topic, p) :: ids, s, s', h, hloop => by
    simp only [Store.recoverPartitions] at hloop
    split at hloop
    · cases hloop
    · rename_i log s₁ hopen
      have h₁ : Named s₁.disk := h.openPartition hopen
      exact Named.recoverPartitions (s := (s₁.insertLog topic p log).insertTopic topic _) h₁ hloop

omit [Checksum] in
/-- The metadata of a topic is a file. -/
theorem persistTopicMetadata_dirs (h : Store.persistTopicMetadata cfg s topic n = (.ok (), s')) :
    s'.disk.dirs = s.disk.dirs ∧ s'.topics = s.topics := by
  unfold Store.persistTopicMetadata at h
  simp only at h
  split at h
  · cases h
  · cases h
    exact ⟨rfl, rfl⟩

omit [Checksum] in
theorem persistTopics_dirs : ∀ {names : List String} {s s' : Store},
    Store.persistTopics cfg names s = (.ok (), s') → s'.disk.dirs = s.disk.dirs
  | [], _, _, h => by
    cases h
    rfl
  | name :: names, s, s', h => by
    simp only [Store.persistTopics] at h
    split at h
    · cases h
    · rename_i s₁ hpersist
      rw [persistTopics_dirs h, (persistTopicMetadata_dirs hpersist).1]

theorem Named.recoverStorage (h : Named s.disk) (hrecover : Store.recoverStorage cfg s = (.ok (), s')) :
    Named s'.disk := by
  unfold Store.recoverStorage at hrecover
  split at hrecover
  · cases hrecover
  rename_i disk ids hdiscover
  split at hrecover
  · cases hrecover
  rename_i s₁ hloop
  intro d hd
  rw [persistTopics_dirs hrecover] at hd
  exact Named.recoverPartitions (s := ⟨disk, s.segments, fun _ _ => none, fun _ => none⟩)
    (h.listed hdiscover) hloop d hd

/-- **Every step** creates directories where paths lead, and topics with partitions. -/
theorem named_step (h : Named s.disk ∧ ∀ t (m : UInt32), .create t m ∈ acts → 0 < m.toNat)
    (hstep : topicStep cfg s a = some s') :
    Named s'.disk ∧ ∀ t (m : UInt32), .create t m ∈ acts ++ [a] → 0 < m.toNat := by
  have hother : (∀ t m, a ≠ .create t m) →
      ∀ t (m : UInt32), .create t m ∈ acts ++ [a] → 0 < m.toNat := by
    intro hne t m hin
    rcases List.mem_append.1 hin with hin | hin
    · exact h.2 t m hin
    · exact absurd (List.mem_singleton.1 hin).symm (hne t m)
  cases a with
  | create topic partitions =>
    simp only [topicStep] at hstep
    split at hstep
    · cases hstep
    rename_i n s₁ hcreate
    cases hstep
    obtain ⟨rfl, hpos, _, s₁, s₂, hloop, hpersist, rfl⟩ := createTopic_ok hcreate
    refine ⟨fun d hd => ?_, fun t m hin => ?_⟩
    · have hdirs : d ∈ s₂.disk.dirs := hd
      rw [(persistTopicMetadata_dirs hpersist).1] at hdirs
      exact h.1.createPartitions hloop d hdirs
    · rcases List.mem_append.1 hin with hin | hin
      · exact h.2 t m hin
      · cases List.mem_singleton.1 hin
        exact hpos
  | operate topic partition op =>
    simp only [topicStep] at hstep
    split at hstep
    · cases hstep
    split at hstep
    · cases hstep
    cases hstep
    refine ⟨h.1, hother fun t m heq => ?_⟩
    cases heq
  | restart =>
    simp only [topicStep] at hstep
    split at hstep
    · cases hstep
    rename_i s₁ hrecover
    cases hstep
    refine ⟨h.1.recoverStorage hrecover, hother fun t m heq => ?_⟩
    cases heq

/-- **Created topics are found again** when their names are not `.` or `..` and no open log has lost
its first segment, and only then.  The data directory starts without topics; topics are created with
any names that are accepted and any numbers of partitions, the logs are used in any way, and the
broker restarts any number of times. -/
theorem found_iff {s₀ : Store} (h₀ : Vacant cfg s₀)
    (hfew : Along (topicStep cfg) TopicCountable s₀ acts)
    (hr : run (topicStep cfg) s₀ acts = some s) :
    Found cfg acts s ↔
      (∀ topic partitions, .create topic partitions ∈ acts → Group.Plain topic) ∧
        ∀ topic p log, s.logs topic p = some log → log.lowWatermark = 0 := by
  constructor
  · intro hfound
    have hnamed := @run_history Store TopicAct (topicStep cfg) (fun _ _ => True)
      (fun acts s => Named s.disk ∧ ∀ t (m : UInt32), .create t m ∈ acts → 0 < m.toNat)
      (fun past s a s' h _ hstep => named_step h hstep) acts [] s₀ s
      ⟨h₀.named, fun t m hin => absurd hin List.not_mem_nil⟩ (Along.of_forall fun _ _ => trivial) hr
    have hplain : ∀ topic partitions, .create topic partitions ∈ acts → Group.Plain topic := by
      intro topic partitions hin
      obtain ⟨disk, pairs, hdiscover, _, hmem⟩ := hfound.discovered
      exact hnamed.1.discovered hdiscover
        ((hmem topic 0).2 ⟨partitions, hin, hnamed.2 topic partitions hin⟩)
    refine ⟨hplain, ?_⟩
    by_contra hno
    obtain ⟨s', hrecover, _⟩ := hfound.recovered
    refine (kept_run h₀ hfew hr hplain).1.recoverStorage.2 ?_ (by rw [hrecover])
    simp only [not_forall] at hno
    obtain ⟨t, p, log, hlog, hne⟩ := hno
    exact ⟨t, p, fun hcomplete => hne (hcomplete log hlog)⟩
  · rintro ⟨hplain, hzero⟩
    obtain ⟨hkept, hmapped⟩ := kept_run h₀ hfew hr hplain
    exact hkept.found hmapped fun t p => hzero t p

end Runs

/-! ## Two runs -/

/-- The data directory `/var/lib` with the reserved directories of a broker. -/
def varLib : StorageSettings := ⟨["var", "lib"], 55, 64⟩

def newStore : Store where
  disk := ⟨[[], ["var"], ["var", "lib"], ["var", "lib", "__cluster"]], fun _ => none⟩
  segments := fun _ => Dir.empty
  logs := fun _ _ => none
  topics := fun _ => none

theorem newStore_vacant : Vacant varLib newStore := by
  refine ⟨by decide, by decide, fun _ _ => rfl, ?_, fun topic rest hmem => ?_, fun _ => rfl,
    fun _ _ => rfl, fun _ => rfl⟩
  · unfold Named Group.Plain
    decide
  · simp [newStore, varLib, resolve] at hmem
    rw [hmem.1]
    decide

/-- A topic with two partitions, a record in one of them and a restart. -/
def plainActs : List TopicAct :=
  [.create "orders" 2, .operate "orders" 1 (.append ⟨none, utf8 "one", 1, none⟩), .restart,
    .create "..." 1]

theorem found_iff_plain :
    letI := Checksum.crc32
    ∃ s, run (topicStep varLib) newStore plainActs = some s ∧ Found varLib plainActs s := by
  let _ := Checksum.crc32
  have hrun : (run (topicStep varLib) newStore plainActs).any fun s =>
      [("orders", 0), ("orders", 1), ("...", 0)].all fun x =>
        (s.logs x.1 x.2).all fun log => decide (log.lowWatermark = 0) := by decide +kernel
  obtain ⟨s, hr, hlogs⟩ := (Option.any_eq_true _ _).1 hrun
  have hfew : Along (topicStep varLib) TopicCountable newStore plainActs := by decide +kernel
  have hplain : ∀ topic partitions, .create topic partitions ∈ plainActs → Group.Plain topic := by
    intro topic partitions hin
    simp [plainActs] at hin
    rcases hin with ⟨rfl, _⟩ | ⟨rfl, _⟩ <;> exact ⟨by decide, by decide⟩
  refine ⟨s, hr, (found_iff newStore_vacant hfew hr).2 ⟨hplain, fun topic p log hlog => ?_⟩⟩
  obtain ⟨hkept, hmapped⟩ := kept_run newStore_vacant hfew hr hplain
  obtain ⟨partitions, hin, hp⟩ := (created_iff hmapped).2
    ((hkept.holding.logs topic p).1 (by rw [hlog]; rfl))
  have hkey : (topic, p) ∈ [("orders", 0), ("orders", 1), ("...", 0)] := by
    simp [plainActs] at hin
    rcases hin with ⟨rfl, rfl⟩ | ⟨rfl, rfl⟩
    · have hlt : p < 2 := hp
      have hcases : p = 0 ∨ p = 1 := by omega
      rcases hcases with rfl | rfl <;> simp
    · have hlt : p < 1 := hp
      obtain rfl : p = 0 := by omega
      simp
  have hzero := List.all_eq_true.1 hlogs _ hkey
  rw [hlog] at hzero
  exact of_decide_eq_true hzero

/-- The partition of a topic `.` is not found, and that of a topic `..` is outside of the data
directory. -/
theorem dot_topics_lost :
    letI := Checksum.crc32
    (∃ s, run (topicStep varLib) newStore [.create "." 1] = some s ∧
      ¬ Found varLib [.create "." 1] s) ∧
    (∃ s, run (topicStep varLib) newStore [.create ".." 1] = some s ∧
      ¬ Found varLib [.create ".." 1] s) := by
  let _ := Checksum.crc32
  have hdot : (run (topicStep varLib) newStore [.create "." 1]).any fun s =>
      (discoverPartitions varLib s.disk).toOption.all fun x => x.2 = [] := by decide +kernel
  have hdots : (run (topicStep varLib) newStore [.create ".." 1]).isSome := by decide +kernel
  constructor
  · obtain ⟨s, hr, hempty⟩ := (Option.any_eq_true _ _).1 hdot
    refine ⟨s, hr, fun hfound => ?_⟩
    obtain ⟨disk, pairs, hdiscover, _, hmem⟩ := hfound.discovered
    rw [hdiscover] at hempty
    have hnil : pairs = [] := of_decide_eq_true hempty
    have hin := (hmem "." 0).2 ⟨1, List.mem_cons_self, by decide⟩
    rw [hnil] at hin
    cases hin
  · obtain ⟨s, hr⟩ := Option.isSome_iff_exists.1 hdots
    refine ⟨s, hr, fun hfound => ?_⟩
    have hinside := (hfound.inside ".." 0 ⟨1, List.mem_cons_self, by decide⟩).1
    revert hinside
    decide

end SevlaMq.Broker

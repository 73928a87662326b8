import SevlaMq.Group.OffsetFiles
import SevlaMq.Lib.Run

/-!
# Committed offsets in memory, on disk and after a restart

* `Loads` — what a call that commits nothing does to the offsets in memory.
* `Session.step` — a call, or the coordinator is dropped and opened again, beside the offset of the
  latest successful commit of each partition.
* `Agrees` — disk and memory agree with these; `Agrees.step` — they still do after an event.
* `offsets_agree` — in every run the offset read from disk is that of the latest commit, and so is
  every offset in memory.
* `offset_file_is_directory` — a group that is called like an offset file, with the topic `..`.
-/

set_option autoImplicit false

namespace SevlaMq.Group

namespace Coordinator

variable (c : Coordinator) (env : Env)

theorem joinMember_offsets (key : Key) (member : String) (g : ConsumerGroup) :
    (c.joinMember env key member g).2.committedOffsets = g.committedOffsets := by
  unfold joinMember
  simp only
  split
  · rw [ConsumerGroup.rebalance_offsets]
    rfl
  · rfl

/-- The disk stays, what is in memory was in memory or on disk before, and only the group with the
given key can be a new one. -/
structure Loads (key : Key) (c c' : Coordinator) : Prop where
  disk : c'.disk = c.disk
  dir : c'.offsetsDir = c.offsetsDir
  keys : ∀ x, c.groups x = none → c'.groups x = none ∨ x = key
  offsets : ∀ x p o, (c'.group x).committedOffsets p = some o → c.Known x p o

theorem Touches.loads {c c' : Coordinator} (h : Touches c c') (key : Key) : Loads key c c' where
  disk := h.disk
  dir := h.dir
  keys := fun x hx => Or.inl ((h.keys x).2 hx)
  offsets := by
    intro x p o hp
    rw [(h.groups x).offsets] at hp
    exact Or.inl hp

theorem Reloads.loads {c c' : Coordinator} (h : Reloads c c') (key : Key) : Loads key c c' where
  disk := h.disk
  dir := h.dir
  keys := fun x hx => Or.inl ((h.keys x).2 hx)
  offsets := fun _ _ _ hp => h.known (Or.inl hp)

theorem join_loads (group topic member : String) :
    Loads (group, topic) c (c.join env group topic member).2 := by
  rcases c.join_group env group topic member with heq | ⟨g, hg, heq⟩
  · rw [heq]
    exact (Touches.refl c).loads _
  · rw [heq]
    refine ⟨rfl, rfl, fun x hx => ?_, fun x p o hp => ?_⟩
    · by_cases hkey : x = (group, topic)
      · exact Or.inr hkey
      · simp [setGroup, hkey, hx]
    · rw [group_setGroup] at hp
      split at hp
      · rename_i hkey
        rw [joinMember_offsets] at hp
        obtain ⟨offsets, rfl, hknown⟩ := joinedGroup_reloaded hg
        rw [hkey]
        exact hknown p o hp
      · exact Or.inl hp

end Coordinator

/-! ## Sessions -/

/-- A coordinator and the offset of the latest successful commit of each partition. -/
structure Session where
  coordinator : Coordinator
  last : Nat → Option Nat

/-- A call, or the coordinator is dropped and opened again. -/
inductive Event where
  | call (call : Call)
  | reopen (partitionCount sessionTimeout : Nat)

/-- The latest commits after a call with the given result. -/
def latest (last : Nat → Option Nat) : Request → Except GroupError Unit → Nat → Option Nat
  | .commit _ partition offset, .ok () => setOffset last partition offset
  | _, _ => last

def Session.step (dataDir : Path) (s : Session) : Event → Option Session
  | .call call =>
    let (res, c) := s.coordinator.handle call
    some ⟨c, latest s.last call.2 res⟩
  | .reopen partitionCount sessionTimeout =>
    match Coordinator.openDir s.coordinator.disk dataDir partitionCount sessionTimeout with
    | .error _ => none
    | .ok c => some ⟨c, s.last⟩

/-- The request is about the group and topic, and its numbers are in range of their types. -/
def Request.On (group topic : String) : Request → Prop
  | .join g t _ => g = group ∧ t = topic
  | .heartbeat id | .leave id | .authorizeFetch id _ => id.key = (group, topic)
  | .commit id partition offset =>
    id.key = (group, topic) ∧ partition < PARTITIONS ∧ offset ≤ GENERATION_MAX
  | .expireSessions => True
  | .setTopicPartitions _ partitions => partitions < PARTITIONS

/-- Writes and renames succeed. -/
def Event.On (group topic : String) : Event → Prop
  | .call (env, request) => env.fault = none ∧ request.On group topic
  | .reopen partitionCount _ => partitionCount < PARTITIONS

/-- Disk and memory agree with the latest commits. -/
structure Agrees (dataDir : Path) (group topic : String) (s : Session) : Prop where
  dir : s.coordinator.offsetsDir = dataDir ++ ["__consumer_offsets"]
  holds : Holds s.coordinator.disk s.coordinator.offsetsDir group topic s.last
  tidy : Tidy s.coordinator.disk s.coordinator.offsetsDir group topic
  memory : Remembers group topic s.last s.coordinator.groups

section Run

variable {dataDir : Path} {group topic : String} {s s' : Session}

/-- An offset in memory or on disk is the latest one. -/
theorem Agrees.known (h : Agrees dataDir group topic s) {p o : Nat}
    (hk : s.coordinator.Known (group, topic) p o) : s.last p = some o := by
  rcases hk with hp | ⟨fails, n, offsets, hload, hp⟩
  · unfold Coordinator.group at hp
    cases hg : s.coordinator.groups (group, topic) with
    | none =>
      rw [hg] at hp
      cases hp
    | some g =>
      rw [hg] at hp
      exact (h.memory _ g hg).2 p o hp
  · exact h.holds.loaded hload hp

/-- A call that commits nothing keeps disk and memory in agreement. -/
theorem Agrees.loads (h : Agrees dataDir group topic s) {c : Coordinator}
    (hc : Coordinator.Loads (group, topic) s.coordinator c) :
    Agrees dataDir group topic ⟨c, s.last⟩ where
  dir := hc.dir.trans h.dir
  holds := by
    show Holds c.disk c.offsetsDir group topic s.last
    rw [hc.disk, hc.dir]
    exact h.holds
  tidy := by
    show Tidy c.disk c.offsetsDir group topic
    rw [hc.disk, hc.dir]
    exact h.tidy
  memory := by
    intro key g hg
    have hkey : key = (group, topic) := by
      cases hbefore : s.coordinator.groups key with
      | some g₀ => exact (h.memory key g₀ hbefore).1
      | none =>
        refine (hc.keys key hbefore).resolve_left fun hnone => ?_
        have hno : c.groups key = some g := hg
        rw [hnone] at hno
        cases hno
    subst hkey
    refine ⟨rfl, fun p o hp => h.known (hc.offsets _ p o ?_)⟩
    rw [Coordinator.group_of_some hg]
    exact hp

theorem Agrees.commit (h : Agrees dataDir group topic s) (hdata : ∀ c ∈ dataDir, Plain c)
    (hclear : Clear dataDir group topic) {env : Env} (hfault : env.fault = none)
    {id : GroupIdentity} (hid : id.key = (group, topic)) {partition offset : Nat}
    (hp : partition < PARTITIONS) (ho : offset ≤ GENERATION_MAX) {res : Except GroupError Unit}
    {c : Coordinator} (hcommit : s.coordinator.commit env id partition offset = (res, c)) :
    Agrees dataDir group topic ⟨c, latest s.last (.commit id partition offset) res⟩ := by
  obtain ⟨hgroup, htopic⟩ : id.group = group ∧ id.topic = topic := by
    simpa [GroupIdentity.key] using hid
  obtain ⟨c₁, htouches, hres⟩ := Coordinator.commit_result hcommit
  have h₁ := h.loads (htouches.loads _)
  have ha : Apart c₁.offsetsDir group topic := by
    rw [h₁.dir]
    exact hclear.apart hdata
  cases hres with
  | refused e => exact h₁
  | failed hg howner hper =>
    rw [hgroup, htopic, hfault] at hper
    have htidy := h₁.tidy.persist ha hp hper
    rcases h₁.holds.persist ho hper with ⟨hholds, _⟩ | ⟨_, hno | ⟨hno, _⟩⟩
    · exact ⟨h₁.dir, hholds, htidy, h₁.memory⟩
    · cases hno
    · cases hno
  | accepted hg howner hper =>
    rw [hgroup, htopic, hfault] at hper
    rw [hid] at hg ⊢
    have htidy := h₁.tidy.persist ha hp hper
    rcases h₁.holds.persist ho hper with ⟨_, e, hno⟩ | ⟨hholds, _⟩
    · cases hno
    · have hlast := (h₁.memory _ _ hg).2
      refine ⟨h₁.dir, hholds, htidy, fun key g' hg' => ?_⟩
      simp only [Coordinator.setGroup] at hg'
      split at hg'
      · rename_i hkey
        cases hg'
        refine ⟨hkey, fun q o hq => ?_⟩
        simp only [latest, setOffset] at hq ⊢
        split
        · rename_i heq
          rw [if_pos heq] at hq
          exact hq
        · rename_i hne
          rw [if_neg hne] at hq
          exact hlast q o hq
      · rename_i hne
        exact absurd (h₁.memory key g' hg').1 hne

/-- The coordinator can be opened again and finds the same offsets. -/
theorem Agrees.openDir {disk : Disk} {last : Nat → Option Nat}
    (hholds : Holds disk (dataDir ++ ["__consumer_offsets"]) group topic last)
    (htidy : Tidy disk (dataDir ++ ["__consumer_offsets"]) group topic)
    (hdata : ∀ c ∈ dataDir, Plain c) (hgroup : validateId group = .ok ())
    (htopic : validateId topic = .ok ()) (hclear : Clear dataDir group topic) {n : Nat}
    (hn : n < PARTITIONS) (timeout : Nat) :
    ∃ c, Coordinator.openDir disk dataDir n timeout = .ok c ∧
      Agrees dataDir group topic ⟨c, last⟩ := by
  have ha := hclear.apart hdata
  obtain ⟨disk₁, hcreate, htidy₁⟩ := @Tidy.createDirAll _ _ _ _ htidy ha
    (dataDir ++ ["__consumer_offsets"]) (by simp) fun d hd => by
      rw [pairDirs, List.inits_append, List.map_append]
      exact List.mem_append_left _ hd
  have hholds₁ : Holds disk₁ (dataDir ++ ["__consumer_offsets"]) group topic last := by
    obtain ⟨hfiles, hdirs⟩ := createDirAll_ok hcreate
    refine ⟨fun p => by rw [hfiles]; exact hholds.files p, fun p hp d hd => ?_, hholds.fits⟩
    exact (hdirs d).2 (Or.inl (hholds.dirs p hp d hd))
  have hnone : Remembers group topic last fun _ => none := fun _ _ hno => by cases hno
  obtain ⟨groups, hrec, hmemory⟩ := recoverGroups_ok hholds₁ htidy₁ ha hdata hgroup htopic
    (Nat.le_of_lt hn) (fun name hname => htidy₁.group_name hdata hname) hnone
  refine ⟨⟨dataDir ++ ["__consumer_offsets"], n, fun _ => none, timeout, groups, disk₁⟩, ?_,
    ⟨rfl, hholds₁, htidy₁, hmemory⟩⟩
  simp only [Coordinator.openDir, hcreate, hrec]

/-- **One event** keeps disk and memory in agreement with the latest commits. -/
theorem Agrees.step (h : Agrees dataDir group topic s) (hdata : ∀ c ∈ dataDir, Plain c)
    (hgroup : validateId group = .ok ()) (htopic : validateId topic = .ok ())
    (hclear : Clear dataDir group topic) {e : Event} (he : e.On group topic) :
    ∃ s', s.step dataDir e = some s' ∧ Agrees dataDir group topic s' := by
  cases e with
  | reopen n timeout =>
    obtain ⟨c, hopen, hc⟩ := Agrees.openDir (h.dir ▸ h.holds) (h.dir ▸ h.tidy) hdata hgroup htopic
      hclear he timeout
    refine ⟨⟨c, s.last⟩, ?_, hc⟩
    simp only [Session.step, hopen]
  | call call =>
    obtain ⟨env, request⟩ := call
    obtain ⟨hfault, hon⟩ := he
    refine ⟨_, rfl, ?_⟩
    cases request with
    | join g t member =>
      obtain ⟨rfl, rfl⟩ := hon
      exact h.loads (s.coordinator.join_loads env g t member)
    | heartbeat id => exact h.loads ((s.coordinator.heartbeat_touches env id).loads _)
    | leave id => exact h.loads ((s.coordinator.leave_touches env id).loads _)
    | authorizeFetch id partition =>
      exact h.loads ((s.coordinator.authorizeFetch_touches env id partition).loads _)
    | expireSessions => exact h.loads ((s.coordinator.expireLoop_touches env env.order).loads _)
    | commit id partition offset => exact h.commit hdata hclear hfault hon.1 hon.2.1 hon.2.2 rfl
    | setTopicPartitions t n =>
      have hcounts : Agrees dataDir group topic ⟨{ s.coordinator with
          topicPartitionCounts := fun x =>
            if x = t then some n else s.coordinator.topicPartitionCounts x }, s.last⟩ :=
        ⟨h.dir, h.holds, h.tidy, h.memory⟩
      exact hcounts.loads ((s.coordinator.setTopicPartitions_reloads env t n).loads _)

theorem Agrees.run (h : Agrees dataDir group topic s) (hdata : ∀ c ∈ dataDir, Plain c)
    (hgroup : validateId group = .ok ()) (htopic : validateId topic = .ok ())
    (hclear : Clear dataDir group topic) {events : List Event}
    (hon : ∀ e ∈ events, e.On group topic) :
    ∃ s', SevlaMq.run (Session.step dataDir) s events = some s' ∧ Agrees dataDir group topic s' := by
  induction events generalizing s with
  | nil => exact ⟨s, rfl, h⟩
  | cons e events ih =>
    obtain ⟨s₁, hs, h₁⟩ := h.step hdata hgroup htopic hclear (hon e List.mem_cons_self)
    obtain ⟨s', hrun, h'⟩ := ih h₁ fun x hx => hon x (List.mem_cons_of_mem _ hx)
    refine ⟨s', ?_, h'⟩
    simp only [SevlaMq.run, hs]
    exact hrun

/-- An offset that is read is the latest one. -/
theorem Agrees.committedOffset (h : Agrees dataDir group topic s) (hdata : ∀ c ∈ dataDir, Plain c)
    (hgroup : validateId group = .ok ()) (htopic : validateId topic = .ok ())
    (hclear : Clear dataDir group topic) {env : Env} {p : Nat}
    (hreads : ∀ path, env.readFails path = false) (hp : p < PARTITIONS) :
    s.coordinator.committedOffset env group topic p = .ok (s.last p) := by
  obtain ⟨contents, hread⟩ := h.tidy.readToString (by rw [h.dir]; exact hclear.apart hdata) hp
  obtain ⟨offset, hoffset⟩ : ∃ offset,
      s.coordinator.committedOffset env group topic p = .ok offset := by
    simp only [Coordinator.committedOffset, hgroup, htopic, hreads, hread, Bool.false_eq_true,
      if_false]
    cases contents with
    | none => exact ⟨_, rfl⟩
    | some contents =>
      obtain ⟨offset, _, hparse⟩ := h.holds.parse hread
      simp only [hparse]
      exact ⟨_, rfl⟩
  rw [hoffset, h.holds.committedOffset hoffset]

end Run

/-- A data directory with nothing in it. -/
def Disk.fresh (dataDir : Path) : Disk := ⟨dataDir.inits, fun _ => none⟩

/-- **Committed offsets agree in memory, on disk and after restarts.**  Every run of calls and
restarts goes through, each offset read from disk is that of the latest successful commit, and every
offset in memory is too. -/
theorem offsets_agree {dataDir : Path} (hdata : ∀ c ∈ dataDir, Plain c) {group topic : String}
    (hgroup : validateId group = .ok ()) (htopic : validateId topic = .ok ())
    (hclear : Clear dataDir group topic) {partitionCount sessionTimeout : Nat}
    (hcount : partitionCount < PARTITIONS) {events : List Event}
    (hon : ∀ e ∈ events, e.On group topic) :
    ∃ c s, Coordinator.openDir (.fresh dataDir) dataDir partitionCount sessionTimeout = .ok c ∧
      run (Session.step dataDir) ⟨c, fun _ => none⟩ events = some s ∧
      (∀ env p, (∀ path, env.readFails path = false) → p < PARTITIONS →
        s.coordinator.committedOffset env group topic p = .ok (s.last p)) ∧
      (∀ g p offset, s.coordinator.groups (group, topic) = some g →
        g.committedOffsets p = some offset → s.last p = some offset) := by
  have hholds : Holds (.fresh dataDir) (dataDir ++ ["__consumer_offsets"]) group topic
      fun _ => none :=
    ⟨fun _ => rfl, fun _ hno => absurd rfl hno, fun _ _ hno => by cases hno⟩
  have htidy : Tidy (.fresh dataDir) (dataDir ++ ["__consumer_offsets"]) group topic := by
    refine ⟨fun d hd => (mem_pairDirs hdata).2 (Or.inl ?_), fun _ _ hno => by cases hno⟩
    exact (List.mem_inits _ _).1 hd
  obtain ⟨c, hopen, h₀⟩ := Agrees.openDir hholds htidy hdata hgroup htopic hclear hcount
    sessionTimeout
  obtain ⟨s, hrun, h⟩ := h₀.run hdata hgroup htopic hclear hon
  refine ⟨c, s, hopen, hrun, fun env p hreads hp => ?_, fun g p offset hg hp => ?_⟩
  · exact h.committedOffset hdata hgroup htopic hclear hreads hp
  · exact (h.memory _ g hg).2 p offset hp

/-- A worker commits, the coordinator is opened again for fewer partitions, and the topic gets its
partitions back. -/
def reopeningEvents : List Event :=
  [.call (envAt 0, .join "workers" "payments" "worker-a"),
    .call (envAt 1, .commit ⟨"workers", "payments", "worker-a", 1⟩ 2 41),
    .call (envAt 2, .commit ⟨"workers", "payments", "worker-a", 1⟩ 2 42),
    .reopen 1 10,
    .call (envAt 3, .setTopicPartitions "payments" 3),
    .call (envAt 4, .join "workers" "payments" "worker-b")]

theorem offsets_agree_reopened :
    ∃ c s, Coordinator.openDir (.fresh ["data"]) ["data"] 3 10 = .ok c ∧
      run (Session.step ["data"]) ⟨c, fun _ => none⟩ reopeningEvents = some s ∧
      s.last 2 = some 42 ∧
      s.coordinator.committedOffset (envAt 5) "workers" "payments" 2 = .ok (s.last 2) := by
  have hclear : Clear ["data"] "workers" "payments" := by
    intro p _ htopic
    exact absurd htopic (by decide)
  have hplain : ∀ c ∈ ["data"], Plain c := by
    intro c hc
    rw [List.mem_singleton.1 hc]
    constructor <;> decide
  have hon : ∀ e ∈ reopeningEvents, e.On "workers" "payments" := by
    simp [reopeningEvents, Event.On, Request.On, GroupIdentity.key, envAt, PARTITIONS,
      GENERATION_MAX]
  obtain ⟨c, s, hopen, hrun, hread, _⟩ := @offsets_agree ["data"] hplain "workers" "payments"
    (by decide +kernel) (by decide +kernel) hclear 3 10 (by decide) reopeningEvents hon
  refine ⟨c, s, hopen, hrun, ?_, hread (envAt 5) 2 (fun _ => rfl) (by decide)⟩
  have hlast : ((run (Session.step ["data"]) ⟨c, fun _ => none⟩ reopeningEvents).any
      fun s => decide (s.last 2 = some 42)) = true := by
    cases hopen
    decide +kernel
  rw [hrun] at hlast
  simpa using hlast

/-- A worker of the group `1.offset` of the topic `..` commits an offset of partition 0. -/
def namedEvents : List Event :=
  [.call (envAt 0, .join "1.offset" ".." "worker-a"),
    .call (envAt 1, .commit ⟨"1.offset", "..", "worker-a", 1⟩ 0 42)]

/-- The directory of the group is where the offset file of partition 1 would be. -/
theorem offset_file_is_directory :
    validateId "1.offset" = .ok () ∧ validateId ".." = .ok () ∧
    (∀ e ∈ namedEvents, e.On "1.offset" "..") ∧
    ∃ c s, Coordinator.openDir (.fresh ["data"]) ["data"] 2 10 = .ok c ∧
      run (Session.step ["data"]) ⟨c, fun _ => none⟩ namedEvents = some s ∧
      s.last 0 = some 42 ∧ s.last 1 = none ∧
      s.coordinator.committedOffset (envAt 2) "1.offset" ".." 1 = .error .io := by
  refine ⟨by decide +kernel, by decide +kernel, ?_, ?_⟩
  · simp [namedEvents, Event.On, Request.On, GroupIdentity.key, envAt, PARTITIONS, GENERATION_MAX]
  · obtain ⟨c, hopen⟩ : ∃ c, Coordinator.openDir (.fresh ["data"]) ["data"] 2 10 = .ok c := ⟨_, rfl⟩
    have hrun : ((run (Session.step ["data"]) ⟨c, fun _ => none⟩ namedEvents).any fun s =>
        decide (s.last 0 = some 42) && decide (s.last 1 = none) &&
        decide (s.coordinator.committedOffset (envAt 2) "1.offset" ".." 1 = .error .io)) = true := by
      cases hopen
      decide +kernel
    obtain ⟨s, hs, hall⟩ := (Option.any_eq_true _ _).1 hrun
    simp only [Bool.and_eq_true, decide_eq_true_eq] at hall
    exact ⟨c, s, hopen, hs, hall.1.1, hall.1.2, hall.2⟩

end SevlaMq.Group

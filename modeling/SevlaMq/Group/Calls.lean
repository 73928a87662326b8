import SevlaMq.Group.Offsets

/-!
# What a call does to the group it is about

* `Serves` — the generation follows, a partition keeps having one owner, and only a join makes a
  member.  Every call does that.
* `commit_holds` — a commit changes the offset on disk only for a member that owns the partition in
  the generation it names.
* `Meets P` — every committed offset of a group, on disk and in memory, meets `P`.  A commit keeps
  this if its own offset meets `P`, every other call keeps it.
-/

set_option autoImplicit false

namespace SevlaMq.Group

/-! ## Members -/

theorem Members.mem_keys_insert {m : Members} {id x : String} {instant : Nat}
    (h : x ∈ (m.insert id instant).keys) : x = id ∨ x ∈ m.keys := by
  obtain ⟨e, he, rfl⟩ := List.mem_map.1 h
  rcases mem_insertEntry he with rfl | he
  · exact Or.inl rfl
  · exact Or.inr (List.mem_map_of_mem he)

theorem Members.mem_of_retain {m : Members} {keep : String → Nat → Bool} {x : String}
    (h : x ∈ (m.retain keep).keys) : x ∈ m.keys := by
  obtain ⟨e, he, rfl⟩ := List.mem_map.1 h
  exact List.mem_map_of_mem (List.mem_of_mem_filter he)

theorem ConsumerGroup.rebalance_members (g : ConsumerGroup) (n : Nat) :
    (g.rebalance n).2.members = g.members := by
  unfold rebalance
  split <;> rfl

theorem ConsumerGroup.expire_members {g : ConsumerGroup} {timeout : Nat} {clock : String → Nat}
    {n : Nat} {x : String} (h : x ∈ (g.expire timeout clock n).2.members.keys) :
    x ∈ g.members.keys := by
  have hkept : x ∈ (g.expireMembers timeout clock).2.members.keys := by
    unfold expire at h
    split at h
    · rename_i hexp
      rw [rebalance_members] at h
      rw [hexp]
      exact h
    · rename_i hexp
      rw [hexp]
      exact h
  exact Members.mem_of_retain hkept

theorem Touched.members {n : Nat} {g g' : ConsumerGroup} (h : Touched n g g') {x : String}
    (hx : x ∈ g'.members.keys) : x ∈ g.members.keys := by
  induction h with
  | refl g => exact hx
  | trans _ _ ih ih' => exact ih (ih' hx)
  | expired g timeout clock => exact ConsumerGroup.expire_members hx
  | renewed h now =>
    rcases Members.mem_keys_insert hx with rfl | hx
    · exact h
    · exact hx
  | removed g member =>
    rw [ConsumerGroup.rebalance_members] at hx
    exact Members.mem_of_retain hx

/-! ## Every call -/

/-- What a call does to the group with `key`; `newcomer` is the member that joins. -/
structure Serves (key : Key) (newcomer : Option String) (c c' : Coordinator) : Prop where
  dir : c'.offsetsDir = c.offsetsDir
  follows : Follows (c.group key) (c'.group key)
  owner : OneOwner (c.group key) → OneOwner (c'.group key)
  members : ∀ x ∈ (c'.group key).members.keys, x ∈ (c.group key).members.keys ∨ newcomer = some x

namespace Coordinator

variable (c : Coordinator) (env : Env) {key : Key}

theorem Touches.serves {c c' : Coordinator} (h : Touches c c') : Serves key none c c' where
  dir := h.dir
  follows := .of_moved (h.groups key).moved
  owner := fun howner => howner.moved (h.groups key).moved
  members := fun _ hx => Or.inl ((h.groups key).members hx)

/-- A member that has joined knows the generation of the group. -/
theorem join_generation {c c' : Coordinator} {env : Env} {group topic member : String}
    {generation : Nat} {partitions : List Nat}
    (h : c.join env group topic member = (.ok (generation, partitions), c')) :
    (c'.group (group, topic)).generation = generation := by
  unfold join at h
  split at h
  · simp only at h
    split at h
    · cases h
    · split at h
      · cases h
      · cases h
        rw [group_setGroup, if_pos rfl]
  · cases h

theorem joinMember_members {member : String} {g : ConsumerGroup} {x : String}
    (h : x ∈ (c.joinMember env key member g).2.members.keys) :
    x ∈ g.members.keys ∨ x = member := by
  have hins : x ∈ ((g.expireMembers c.sessionTimeout (env.clock key)).2.members.insert member
      env.now).keys := by
    unfold joinMember at h
    simp only at h
    split at h
    · rw [ConsumerGroup.rebalance_members] at h
      exact h
    · exact h
  rcases Members.mem_keys_insert hins with rfl | hkept
  · exact Or.inr rfl
  · exact Or.inl (Members.mem_of_retain hkept)

theorem join_serves (group topic member : String) :
    Serves key (some member) c (c.join env group topic member).2 where
  dir := (c.join_loads env group topic member).dir
  follows := .of_moved ((c.join_moves env group topic member).groups key)
  owner := fun howner => howner.moved ((c.join_moves env group topic member).groups key)
  members := by
    intro x hx
    rcases c.join_group env group topic member with heq | ⟨g, hg, heq⟩
    · rw [heq] at hx
      exact Or.inl hx
    · rw [heq, group_setGroup] at hx
      split at hx
      · rename_i hkey
        rcases c.joinMember_members env hx with hx | rfl
        · obtain ⟨offsets, rfl, _⟩ := joinedGroup_reloaded hg
          rw [hkey]
          exact Or.inl hx
        · exact Or.inr rfl
      · exact Or.inl hx

theorem commit_serves {id : GroupIdentity} {partition offset : Nat}
    {res : Except GroupError Unit} {c' : Coordinator}
    (h : c.commit env id partition offset = (res, c')) : Serves key none c c' := by
  have hmoves := c.commit_moves env id partition offset
  rw [h] at hmoves
  obtain ⟨c₁, htouches, hres⟩ := commit_result h
  have hserves : Serves key none c c₁ := htouches.serves
  refine ⟨?_, .of_moved (hmoves.groups key), fun howner => howner.moved (hmoves.groups key), ?_⟩
  · cases hres <;> exact htouches.dir
  · intro x hx
    cases hres with
    | refused e => exact hserves.members x hx
    | failed hg howner hper => exact hserves.members x hx
    | accepted hg howner hper =>
      refine hserves.members x ?_
      rw [group_setGroup] at hx
      split at hx
      · rename_i hkey
        rw [hkey, group_of_some hg]
        exact hx
      · exact hx

theorem setTopicPartitions_serves (topic : String) (partitions : Nat) :
    Serves key none c (c.setTopicPartitions env topic partitions).2 where
  dir := (c.setTopicPartitions_reloads env topic partitions).dir
  follows := .of_moved (c.handle_moved (env, .setTopicPartitions topic partitions) key)
  owner := fun howner => howner.moved (c.handle_moved (env, .setTopicPartitions topic partitions) key)
  members := by
    intro x hx
    obtain ⟨offsets, hgroup, _⟩ := (c.setTopicPartitions_reloads env topic partitions).groups key
    rw [hgroup] at hx
    exact Or.inl hx

end Coordinator

section Committed

variable {group topic : String} {last : Nat → Option Nat} {c c' : Coordinator} {env : Env}

/-- **A commit** changes the offset on disk only for the owner of the partition. -/
theorem commit_holds (h : Holds c.disk c.offsetsDir group topic last) {id : GroupIdentity}
    (hid : id.key = (group, topic)) {partition offset : Nat} (ho : offset ≤ GENERATION_MAX)
    {res : Except GroupError Unit} (hcommit : c.commit env id partition offset = (res, c')) :
    (Holds c'.disk c'.offsetsDir group topic last ∧ ∃ e, res = .error e) ∨
    (Holds c'.disk c'.offsetsDir group topic (setOffset last partition offset) ∧
      (c'.group (group, topic)).Owner id partition) := by
  obtain ⟨rfl, rfl⟩ : id.group = group ∧ id.topic = topic := by
    simpa [GroupIdentity.key] using hid
  obtain ⟨c₁, htouches, hres⟩ := Coordinator.commit_result hcommit
  have h₁ : Holds c₁.disk c₁.offsetsDir id.group id.topic last := by
    rw [htouches.disk, htouches.dir]
    exact h
  cases hres with
  | refused e => exact Or.inl ⟨h₁, e, rfl⟩
  | failed hg howner hper =>
    rcases h₁.persist ho hper with ⟨hholds, _⟩ | ⟨hholds, _⟩
    · exact Or.inl ⟨hholds, _, rfl⟩
    · refine Or.inr ⟨hholds, ?_⟩
      have hgroup := Coordinator.group_of_some hg
      rw [← hgroup] at howner
      exact howner
  | accepted hg howner hper =>
    rcases h₁.persist ho hper with ⟨_, e, hno⟩ | ⟨hholds, _⟩
    · cases hno
    · refine Or.inr ⟨hholds, ?_⟩
      rw [← hid, Coordinator.group_setGroup, if_pos rfl]
      exact ⟨howner.generation, howner.member, howner.partition⟩

/-! ## Every committed offset -/

/-- Every committed offset of the group, on disk below `root` and in memory, meets `P`. -/
structure Meets (root : Path) (group topic : String) (P : Nat → Nat → Prop) (c : Coordinator) :
    Prop where
  dir : c.offsetsDir = root
  disk : ∃ last, Holds c.disk c.offsetsDir group topic last ∧ ∀ p o, last p = some o → P p o
  memory : ∀ p o, (c.group (group, topic)).committedOffsets p = some o → P p o

variable {root : Path} {P Q : Nat → Nat → Prop}

theorem Meets.mono (h : Meets root group topic P c) (hPQ : ∀ p o, P p o → Q p o) :
    Meets root group topic Q c := by
  obtain ⟨last, hholds, hlast⟩ := h.disk
  exact ⟨h.dir, ⟨last, hholds, fun p o hp => hPQ p o (hlast p o hp)⟩,
    fun p o hp => hPQ p o (h.memory p o hp)⟩

/-- An offset that is read meets `P`. -/
theorem Meets.committedOffset (h : Meets root group topic P c) {p o : Nat}
    (hread : c.committedOffset env group topic p = .ok (some o)) : P p o := by
  obtain ⟨last, hholds, hlast⟩ := h.disk
  exact hlast p o (hholds.committedOffset hread).symm

theorem Meets.known (h : Meets root group topic P c) {p o : Nat}
    (hk : c.Known (group, topic) p o) : P p o := by
  rcases hk with hp | ⟨fails, n, offsets, hload, hp⟩
  · exact h.memory p o hp
  · obtain ⟨last, hholds, hlast⟩ := h.disk
    exact hlast p o (hholds.loaded hload hp)

/-- A call that commits nothing. -/
theorem Meets.loads (h : Meets root group topic P c) {key : Key} (hc : Coordinator.Loads key c c') :
    Meets root group topic P c' := by
  refine ⟨hc.dir.trans h.dir, ?_, fun p o hp => h.known (hc.offsets _ p o hp)⟩
  rw [hc.disk, hc.dir]
  exact h.disk

theorem Meets.touches (h : Meets root group topic P c) (hc : c.Touches c') :
    Meets root group topic P c' := h.loads (hc.loads (group, topic))

theorem Meets.setTopicPartitions (h : Meets root group topic P c) (env : Env) (t : String) (n : Nat) :
    Meets root group topic P (c.setTopicPartitions env t n).2 := by
  have hcounts : Meets root group topic P { c with
      topicPartitionCounts := fun x => if x = t then some n else c.topicPartitionCounts x } :=
    ⟨h.dir, h.disk, h.memory⟩
  exact hcounts.loads ((c.setTopicPartitions_reloads env t n).loads (group, topic))

theorem Meets.commit (h : Meets root group topic P c) {id : GroupIdentity}
    (hid : id.key = (group, topic)) {partition offset : Nat} (ho : offset ≤ GENERATION_MAX)
    (hP : P partition offset) {res : Except GroupError Unit}
    (hcommit : c.commit env id partition offset = (res, c')) : Meets root group topic P c' := by
  obtain ⟨last, hholds, hlast⟩ := h.disk
  have hset : ∀ p o, setOffset last partition offset p = some o → P p o := by
    intro p o hp
    unfold setOffset at hp
    split at hp
    · rename_i heq
      cases hp
      rw [heq]
      exact hP
    · exact hlast p o hp
  have hserves : Serves (group, topic) none c c' := c.commit_serves env hcommit
  refine ⟨hserves.dir.trans h.dir, ?_, fun p o hp => ?_⟩
  · rcases commit_holds hholds hid ho hcommit with ⟨hholds', _⟩ | ⟨hholds', _⟩
    · exact ⟨last, hholds', hlast⟩
    · exact ⟨_, hholds', hset⟩
  · obtain ⟨c₁, htouches, hres⟩ := Coordinator.commit_result hcommit
    have h₁ := h.touches htouches
    cases hres with
    | refused e => exact h₁.memory p o hp
    | failed hg howner hper => exact h₁.memory p o hp
    | accepted hg howner hper =>
      rw [← hid, Coordinator.group_setGroup, if_pos rfl] at hp
      simp only at hp
      split at hp
      · rename_i heq
        cases hp
        rw [heq]
        exact hP
      · rw [hid] at hg
        rw [← Coordinator.group_of_some hg] at hp
        exact h₁.memory p o hp

/-- After a start only the offsets on disk matter. -/
theorem Meets.openDir {disk : Disk} {dataDir : Path} {n timeout : Nat}
    (hholds : Holds disk (dataDir ++ ["__consumer_offsets"]) group topic last)
    (hlast : ∀ p o, last p = some o → P p o)
    (hopen : Coordinator.openDir disk dataDir n timeout = .ok c) :
    Meets (dataDir ++ ["__consumer_offsets"]) group topic P c := by
  have hopened := hholds.openDir hopen rfl
  refine ⟨Coordinator.openDir_dir hopen, ⟨last, hopened, hlast⟩, fun p o hp => ?_⟩
  unfold Coordinator.group at hp
  cases hg : c.groups (group, topic) with
  | none =>
    rw [hg] at hp
    cases hp
  | some g =>
    obtain ⟨offsets, hload, rfl⟩ := Coordinator.openDir_recovered hopen _ g hg
    rw [hg] at hp
    exact hlast p o (hopened.loaded hload hp)

end Committed

end SevlaMq.Group

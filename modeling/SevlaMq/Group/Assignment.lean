import SevlaMq.Group.Coordinator
import SevlaMq.Lib.RoundRobin

/-!
# What a call does to a group

* `Dealt` — the partitions are dealt to given members in turn; `assign_dealt` — the loop of
  `rebalance` does that.
* `Moved` — all that a call can do to a group: keep generation, members and assignments, or
  rebalance it, or fail to because the generations are used up.  `handle_moved` says that a call
  does no more than that to every group.
* `Touches`, `CommitResult`, `join_group`, `Reloads` — what a call does to the whole coordinator:
  one that neither commits nor admits a member, a commit, a join, and `set_topic_partitions`.
* `Balanced` — there are no members and no assignments, or the partitions are dealt evenly to the
  members.
* `groups_balanced` — every group is balanced after every run.
-/

set_option autoImplicit false

namespace SevlaMq.Group

/-! ## Members -/

theorem mem_keys_insertEntry {id : String} {instant : Nat} {entries : List (String × Nat)}
    (h : entries.Pairwise fun x y => x.1 < y.1) (hid : id ∈ entries.map Prod.fst) :
    (insertEntry id instant entries).map Prod.fst = entries.map Prod.fst := by
  induction entries with
  | nil => simp at hid
  | cons e entries ih =>
    rw [List.pairwise_cons] at h
    unfold insertEntry
    split
    · rename_i hlt
      -- an id below the first one is not in the list
      exfalso
      simp only [List.map_cons, List.mem_cons, List.mem_map] at hid
      rcases hid with hid | ⟨x, hx, hid⟩
      · exact absurd hid (ne_of_lt hlt)
      · have := h.1 x hx
        rw [hid] at this
        exact lt_asymm hlt this
    · split
      · rename_i heq
        simp [heq]
      · rename_i hne
        simp only [List.map_cons, List.mem_cons] at hid ⊢
        rw [ih h.2 (hid.resolve_left hne)]

namespace Members

theorem keys_nodup (m : Members) : m.keys.Nodup :=
  List.pairwise_map.2 (m.sorted.imp fun h => ne_of_lt h)

/-- A member that is there gets a new heartbeat. -/
theorem keys_insert {m : Members} {id : String} (h : id ∈ m.keys) (instant : Nat) :
    (m.insert id instant).keys = m.keys :=
  mem_keys_insertEntry m.sorted h

/-- When as many members are left as there were, they are the same. -/
theorem retain_keys {m : Members} {keep : String → Nat → Bool}
    (h : (m.retain keep).keys.length = m.keys.length) : (m.retain keep).keys = m.keys := by
  simp only [keys, retain, List.length_map] at h ⊢
  rw [List.filter_sublist.eq_of_length h]

end Members

/-! ## Dealing partitions -/

/-- The partitions below `n` are dealt to the members in turn; a member without partitions has no
entry. -/
def Dealt (members : List String) (n : Nat) (assignments : String → Option (List Nat)) : Prop :=
  ∀ m, assignments m = if deal members n m = [] then none else some (deal members n m)

/-- The partitions of a member. -/
def ConsumerGroup.assigned (g : ConsumerGroup) (member : String) : List Nat :=
  (g.assignments member).getD []

theorem Dealt.getD {members : List String} {n : Nat} {assignments : String → Option (List Nat)}
    (h : Dealt members n assignments) (m : String) :
    (assignments m).getD [] = deal members n m := by
  rw [h m]
  split
  · rename_i hnil
    rw [hnil]; rfl
  · rfl

theorem dealt_nil (n : Nat) : Dealt [] n fun _ => none := by
  intro m
  rw [if_pos (deal_nil n m)]

/-- **The loop of `rebalance`** deals the partitions. -/
theorem assign_dealt (members : List String) (n : Nat) :
    Dealt members n (ConsumerGroup.assign members n) := by
  induction n with
  | zero =>
    intro m
    simp [ConsumerGroup.assign, deal]
  | succ n ih =>
    intro m
    have hloop : ConsumerGroup.assign members (n + 1) =
        (members[n % members.length]?).elim (ConsumerGroup.assign members n)
          fun member => ConsumerGroup.push (ConsumerGroup.assign members n) member n := by
      rw [ConsumerGroup.assign, List.range_succ, List.foldl_append]
      cases hturn : members[n % members.length]? with
      | none => simp [ConsumerGroup.assign, hturn]
      | some member => simp [ConsumerGroup.assign, hturn]
    rw [hloop, deal_succ]
    cases hturn : members[n % members.length]? with
    | none => simpa using ih m
    | some member =>
      by_cases hm : m = member
      · subst hm
        simp [ConsumerGroup.push, ih.getD]
      · simpa [ConsumerGroup.push, hm, Ne.symm hm] using ih m

/-! ## One call -/

/-- What a call can do to a group of a topic with `n` partitions. -/
inductive Moved (n : Nat) (g g' : ConsumerGroup) : Prop
  | kept (hgen : g'.generation = g.generation) (hkeys : g'.members.keys = g.members.keys)
      (hasg : g'.assignments = g.assignments)
  | rebalanced (members : List String) (hlt : g.generation < g'.generation)
      (hdealt : Dealt members n g'.assignments)
      (hkeys : members = g'.members.keys ∨ GENERATION_MAX ≤ g'.generation)
  | overflow (hmax : GENERATION_MAX ≤ g.generation) (hgen : g'.generation = g.generation)
      (hasg : g'.assignments = g.assignments)

namespace Moved

variable {n : Nat} {g g₁ g' : ConsumerGroup}

theorem refl (n : Nat) (g : ConsumerGroup) : Moved n g g := .kept rfl rfl rfl

theorem trans (h : Moved n g g₁) (h' : Moved n g₁ g') : Moved n g g' := by
  cases h with
  | kept hgen hkeys hasg =>
    cases h' with
    | kept hgen' hkeys' hasg' =>
      exact .kept (hgen'.trans hgen) (hkeys'.trans hkeys) (hasg'.trans hasg)
    | rebalanced members hlt hdealt hk => exact .rebalanced members (hgen ▸ hlt) hdealt hk
    | overflow hmax hgen' hasg' =>
      exact .overflow (hgen ▸ hmax) (hgen'.trans hgen) (hasg'.trans hasg)
  | rebalanced members hlt hdealt hk =>
    cases h' with
    | kept hgen' hkeys' hasg' =>
      refine .rebalanced members (hgen' ▸ hlt) (hasg' ▸ hdealt) ?_
      rw [hkeys', hgen']
      exact hk
    | rebalanced members' hlt' hdealt' hk' =>
      exact .rebalanced members' (lt_trans hlt hlt') hdealt' hk'
    | overflow hmax hgen' hasg' =>
      exact .rebalanced members (hgen' ▸ hlt) (hasg' ▸ hdealt)
        (Or.inr (hgen' ▸ hmax))
  | overflow hmax hgen hasg =>
    cases h' with
    | kept hgen' _ hasg' => exact .overflow hmax (hgen'.trans hgen) (hasg'.trans hasg)
    | rebalanced members hlt hdealt hk => exact .rebalanced members (hgen ▸ hlt) hdealt hk
    | overflow _ hgen' hasg' => exact .overflow hmax (hgen'.trans hgen) (hasg'.trans hasg)

end Moved

namespace ConsumerGroup

variable {n : Nat} {g g₁ : ConsumerGroup}

/-- `rebalance` after any change of the members. -/
theorem rebalance_moved (hgen : g₁.generation = g.generation)
    (hasg : g₁.assignments = g.assignments) :
    Moved n g (g₁.rebalance n).2 := by
  unfold rebalance
  split
  · exact .overflow (by omega) hgen hasg
  · refine .rebalanced g₁.members.keys (by simp only; omega) ?_ (Or.inl rfl)
    simp only
    split
    · rename_i hnil
      rw [hnil]
      exact dealt_nil n
    · exact assign_dealt _ _

theorem expireMembers_kept {timeout : Nat} {clock : String → Nat}
    (h : (g.expireMembers timeout clock).1 = false) :
    (g.expireMembers timeout clock).2.members.keys = g.members.keys := by
  simp only [expireMembers, ne_eq, decide_not, Bool.not_eq_false', decide_eq_true_eq] at h ⊢
  exact Members.retain_keys h.symm

/-- `expire_members` with the rebalance that follows it. -/
theorem expire_moved (g : ConsumerGroup) (timeout : Nat) (clock : String → Nat) (n : Nat) :
    Moved n g (g.expire timeout clock n).2 := by
  unfold expire
  split
  · rename_i g₁ hexp
    obtain rfl : g₁ = (g.expireMembers timeout clock).2 := by rw [hexp]
    exact rebalance_moved rfl rfl
  · rename_i g₁ hexp
    have hkeys := @expireMembers_kept g timeout clock (by rw [hexp])
    obtain rfl : g₁ = (g.expireMembers timeout clock).2 := by rw [hexp]
    exact .kept rfl hkeys rfl

/-- Only a member of the group in the right generation is valid. -/
theorem validateMember_ok {member : String} {generation : Nat}
    (h : g.validateMember member generation = .ok ()) :
    generation = g.generation ∧ member ∈ g.members.keys := by
  unfold validateMember at h
  split at h
  · cases h
  · rename_i hgen
    split at h
    · cases h
    · rename_i hmem
      exact ⟨not_not.1 hgen, not_not.1 hmem⟩

theorem mem_assigned {member : String} {partition : Nat} (h : g.owns member partition = true) :
    partition ∈ g.assigned member := by
  unfold owns at h
  unfold assigned
  cases hasg : g.assignments member with
  | none => simp [hasg] at h
  | some partitions => simpa [hasg] using h

/-- The identity is that of a member which owns the partition. -/
structure Owner (g : ConsumerGroup) (id : GroupIdentity) (partition : Nat) : Prop where
  generation : id.generation = g.generation
  member : id.member ∈ g.members.keys
  partition : partition ∈ g.assigned id.member

end ConsumerGroup

/-- What a call that neither commits nor admits a member does to a group of a topic with `n`
partitions: members expire, one of them sends a heartbeat or leaves. -/
inductive Touched (n : Nat) : ConsumerGroup → ConsumerGroup → Prop
  | refl (g : ConsumerGroup) : Touched n g g
  | trans {g g₁ g' : ConsumerGroup} (h : Touched n g g₁) (h' : Touched n g₁ g') : Touched n g g'
  | expired (g : ConsumerGroup) (timeout : Nat) (clock : String → Nat) :
      Touched n g (g.expire timeout clock n).2
  | renewed {g : ConsumerGroup} {member : String} (h : member ∈ g.members.keys) (now : Nat) :
      Touched n g { g with members := g.members.insert member now }
  | removed (g : ConsumerGroup) (member : String) :
      Touched n g ({ g with members := g.members.remove member }.rebalance n).2

theorem Touched.moved {n : Nat} {g g' : ConsumerGroup} (h : Touched n g g') : Moved n g g' := by
  induction h with
  | refl g => exact .refl n g
  | trans _ _ ih ih' => exact ih.trans ih'
  | expired g timeout clock => exact g.expire_moved timeout clock n
  | renewed h now => exact .kept rfl (Members.keys_insert h now) rfl
  | removed g member => exact ConsumerGroup.rebalance_moved rfl rfl

namespace Coordinator

/-- The group with a key; one that is not there has no members. -/
def group (c : Coordinator) (key : Key) : ConsumerGroup :=
  (c.groups key).getD (.new fun _ => none)

theorem group_of_some {c : Coordinator} {key : Key} {g : ConsumerGroup}
    (h : c.groups key = some g) : c.group key = g := by
  simp [group, h]

@[simp] theorem group_setGroup (c : Coordinator) (key x : Key) (g : ConsumerGroup) :
    (c.setGroup key g).group x = if x = key then g else c.group x := by
  unfold group setGroup
  by_cases h : x = key
  · simp [h]
  · simp [h]

/-- A group that is there is replaced. -/
theorem setGroup_eq_none {c : Coordinator} {key : Key} {g : ConsumerGroup}
    (h : c.groups key = some g) (g' : ConsumerGroup) (x : Key) :
    (c.setGroup key g').groups x = none ↔ c.groups x = none := by
  simp only [setGroup]
  split
  · rename_i heq
    simp [heq, h]
  · rfl

/-- Every group is moved, and the partition counts stay. -/
structure Moves (c c' : Coordinator) : Prop where
  counts : ∀ topic, c'.partitionCount topic = c.partitionCount topic
  groups : ∀ key, Moved (c.partitionCount key.2) (c.group key) (c'.group key)

namespace Moves

variable {c c₁ c' : Coordinator}

theorem refl (c : Coordinator) : Moves c c := ⟨fun _ => rfl, fun _ => .refl _ _⟩

theorem trans (h : Moves c c₁) (h' : Moves c₁ c') : Moves c c' where
  counts := fun topic => (h'.counts topic).trans (h.counts topic)
  groups := fun key => (h.groups key).trans (h.counts key.2 ▸ h'.groups key)

theorem setGroup {key : Key} {g : ConsumerGroup}
    (h : Moved (c.partitionCount key.2) (c.group key) g) : Moves c (c.setGroup key g) where
  counts := fun _ => rfl
  groups := by
    intro x
    rw [group_setGroup]
    split
    · rename_i heq
      rw [heq]
      exact h
    · exact .refl _ _

end Moves

/-- Every group is touched, and there is nothing else that changes. -/
structure Touches (c c' : Coordinator) : Prop where
  disk : c'.disk = c.disk
  dir : c'.offsetsDir = c.offsetsDir
  counts : ∀ topic, c'.partitionCount topic = c.partitionCount topic
  keys : ∀ key, c'.groups key = none ↔ c.groups key = none
  groups : ∀ key, Touched (c.partitionCount key.2) (c.group key) (c'.group key)

namespace Touches

variable {c c₁ c' : Coordinator}

theorem refl (c : Coordinator) : Touches c c :=
  ⟨rfl, rfl, fun _ => rfl, fun _ => Iff.rfl, fun _ => .refl _⟩

theorem trans (h : Touches c c₁) (h' : Touches c₁ c') : Touches c c' where
  disk := h'.disk.trans h.disk
  dir := h'.dir.trans h.dir
  counts := fun topic => (h'.counts topic).trans (h.counts topic)
  keys := fun key => (h'.keys key).trans (h.keys key)
  groups := fun key => (h.groups key).trans (h.counts key.2 ▸ h'.groups key)

theorem setGroup {key : Key} {g g' : ConsumerGroup} (hkey : c.groups key = some g)
    (h : Touched (c.partitionCount key.2) g g') : Touches c (c.setGroup key g') where
  disk := rfl
  dir := rfl
  counts := fun _ => rfl
  keys := setGroup_eq_none hkey g'
  groups := by
    intro x
    rw [group_setGroup]
    split
    · rename_i heq
      rw [heq, group_of_some hkey]
      exact h
    · exact .refl _

theorem moves (h : Touches c c') : Moves c c' := ⟨h.counts, fun key => (h.groups key).moved⟩

end Touches

variable (c : Coordinator) (env : Env)

theorem activeGroup_touches (key : Key) : Touches c (c.activeGroup env key).2 := by
  unfold activeGroup
  split
  · exact .refl c
  · rename_i g hg
    have htouched := @Touched.expired (c.partitionCount key.2) g c.sessionTimeout (env.clock key)
    split
    · rename_i hexp
      rw [hexp] at htouched
      exact .setGroup hg htouched
    · rename_i hexp
      rw [hexp] at htouched
      exact .setGroup hg htouched

/-- A group that is returned is the one that is kept. -/
theorem activeGroup_ok {c c₁ : Coordinator} {env : Env} {key : Key} {g : ConsumerGroup}
    (h : c.activeGroup env key = (.ok g, c₁)) : c₁.groups key = some g := by
  unfold activeGroup at h
  split at h
  · cases h
  · split at h
    · cases h
    · cases h
      simp [setGroup]

theorem activeMember_touches (id : GroupIdentity) : Touches c (c.activeMember env id).2 := by
  have htouches := c.activeGroup_touches env id.key
  unfold activeMember
  split
  · rename_i hact
    rw [hact] at htouches
    exact htouches
  · rename_i hact
    rw [hact] at htouches
    split <;> exact htouches

/-- A call that gets past `validate_member` carries the generation of the group. -/
theorem activeMember_ok {c c₁ : Coordinator} {env : Env} {id : GroupIdentity} {g : ConsumerGroup}
    (h : c.activeMember env id = (.ok g, c₁)) :
    c₁.groups id.key = some g ∧ id.generation = g.generation ∧ id.member ∈ g.members.keys := by
  unfold activeMember at h
  split at h
  · cases h
  · rename_i hact
    split at h
    · cases h
    · rename_i hval
      cases h
      exact ⟨activeGroup_ok hact, ConsumerGroup.validateMember_ok hval⟩

theorem heartbeat_touches (id : GroupIdentity) : Touches c (c.heartbeat env id).2 := by
  have htouches := c.activeMember_touches env id
  unfold heartbeat
  split
  · rename_i hact
    rw [hact] at htouches
    exact htouches
  · rename_i g c₁ hact
    rw [hact] at htouches
    obtain ⟨hg, _, hmem⟩ := activeMember_ok hact
    exact htouches.trans (.setGroup hg (.renewed hmem _))

theorem leave_touches (id : GroupIdentity) : Touches c (c.leave env id).2 := by
  have htouches := c.activeMember_touches env id
  unfold leave
  split
  · rename_i hact
    rw [hact] at htouches
    exact htouches
  · rename_i g c₁ hact
    rw [hact] at htouches
    obtain ⟨hg, _, _⟩ := activeMember_ok hact
    exact htouches.trans (.setGroup hg (.removed g id.member))

theorem authorizeFetch_touches (id : GroupIdentity) (partition : Nat) :
    Touches c (c.authorizeFetch env id partition).2 := by
  have htouches := c.activeMember_touches env id
  unfold authorizeFetch
  split
  · rename_i hact
    rw [hact] at htouches
    exact htouches
  · rename_i hact
    rw [hact] at htouches
    split <;> exact htouches

theorem expireLoop_touches (keys : List Key) : Touches c (expireLoop env keys c).2 := by
  induction keys generalizing c with
  | nil => exact .refl c
  | cons key keys ih =>
    unfold expireLoop
    split
    · exact ih c
    · rename_i g hg
      have htouched := @Touched.expired (c.partitionCount key.2) g c.sessionTimeout (env.clock key)
      split
      · rename_i hexp
        rw [hexp] at htouched
        exact .setGroup hg htouched
      · rename_i hexp
        rw [hexp] at htouched
        exact Touches.trans (.setGroup hg htouched) (ih _)

/-- What a commit comes to, once the group is active. -/
inductive CommitResult (c : Coordinator) (env : Env) (id : GroupIdentity) (partition offset : Nat) :
    Except GroupError Unit → Coordinator → Prop
  | refused (e : GroupError) : CommitResult c env id partition offset (.error e) c
  | failed {g : ConsumerGroup} {e : GroupError} {disk : Disk} (hg : c.groups id.key = some g)
      (howner : g.Owner id partition)
      (hper : persistOffset c.disk env.fault c.offsetsDir id.group id.topic partition offset =
        (.error e, disk)) :
      CommitResult c env id partition offset (.error e) { c with disk := disk }
  | accepted {g : ConsumerGroup} {disk : Disk} (hg : c.groups id.key = some g)
      (howner : g.Owner id partition)
      (hper : persistOffset c.disk env.fault c.offsetsDir id.group id.topic partition offset =
        (.ok (), disk)) :
      CommitResult c env id partition offset (.ok ()) ({ c with disk := disk }.setGroup id.key { g with
        committedOffsets := fun p => if p = partition then some offset else g.committedOffsets p })

theorem commit_result {c c' : Coordinator} {env : Env} {id : GroupIdentity} {partition offset : Nat}
    {res : Except GroupError Unit} (h : c.commit env id partition offset = (res, c')) :
    ∃ c₁, Touches c c₁ ∧ CommitResult c₁ env id partition offset res c' := by
  have htouches := c.activeMember_touches env id
  unfold commit at h
  split at h
  · rename_i hact
    rw [hact] at htouches
    cases h
    exact ⟨_, htouches, .refused _⟩
  · rename_i g c₁ hact
    rw [hact] at htouches
    obtain ⟨hg, hgen, hmem⟩ := activeMember_ok hact
    refine ⟨c₁, htouches, ?_⟩
    split at h
    · rename_i howns
      have howner : g.Owner id partition := ⟨hgen, hmem, ConsumerGroup.mem_assigned howns⟩
      split at h
      · rename_i hper
        cases h
        exact .failed hg howner hper
      · rename_i hper
        cases h
        exact .accepted hg howner hper
    · cases h
      exact .refused _

theorem commit_moves (id : GroupIdentity) (partition offset : Nat) :
    Moves c (c.commit env id partition offset).2 := by
  cases hcommit : c.commit env id partition offset with
  | mk res c' =>
    obtain ⟨c₁, htouches, hres⟩ := commit_result hcommit
    have hdisk : ∀ disk, Moves c₁ { c₁ with disk := disk } :=
      fun disk => ⟨fun _ => rfl, fun _ => .refl _ _⟩
    cases hres with
    | refused e => exact htouches.moves
    | failed hg howner hper => exact htouches.moves.trans (hdisk _)
    | accepted hg howner hper =>
      refine htouches.moves.trans ((hdisk _).trans (.setGroup ?_))
      have hgroup := group_of_some hg
      exact .kept (by rw [← hgroup]; rfl) (by rw [← hgroup]; rfl) (by rw [← hgroup]; rfl)

theorem joinMember_moved (key : Key) (member : String) (g : ConsumerGroup) :
    Moved (c.partitionCount key.2) g (c.joinMember env key member g).2 := by
  unfold joinMember
  simp only
  split
  · exact ConsumerGroup.rebalance_moved rfl rfl
  · rename_i hno
    simp only [not_or, not_not, Bool.not_eq_true] at hno
    obtain ⟨hmem, hexp, _⟩ := hno
    exact .kept rfl ((Members.keys_insert hmem _).trans (ConsumerGroup.expireMembers_kept hexp)) rfl

/-- What a join that is not refused at once does to its group. -/
theorem join_group (group topic member : String) :
    (c.join env group topic member).2 = c ∨ ∃ g, c.joinedGroup env (group, topic) = .ok g ∧
      (c.join env group topic member).2 =
        c.setGroup (group, topic) (c.joinMember env (group, topic) member g).2 := by
  unfold join
  split
  · simp only
    split
    · exact Or.inl rfl
    · rename_i g hg
      refine Or.inr ⟨g, hg, ?_⟩
      split
      · rename_i hjoin
        rw [hjoin]
      · rename_i hjoin
        rw [hjoin]
  · exact Or.inl rfl

/-- The offset of the partition is in memory, or can be loaded from disk. -/
def Known (key : Key) (partition offset : Nat) : Prop :=
  (c.group key).committedOffsets partition = some offset ∨ ∃ fails n offsets,
    loadOffsets c.disk fails c.offsetsDir key.1 key.2 n = .ok offsets ∧
      offsets partition = some offset

/-- Only committed offsets differ, and those of the second group are known. -/
def Reloaded (key : Key) (g g' : ConsumerGroup) : Prop :=
  ∃ offsets, g' = { g with committedOffsets := offsets } ∧
    ∀ p o, offsets p = some o → c.Known key p o

theorem Reloaded.moved {c : Coordinator} {key : Key} {g g' : ConsumerGroup}
    (h : c.Reloaded key g g') (n : Nat) : Moved n g g' := by
  obtain ⟨offsets, rfl, _⟩ := h
  exact .kept rfl rfl rfl

/-- A member joins the group that is there, or one whose offsets are loaded. -/
theorem joinedGroup_reloaded {c : Coordinator} {env : Env} {key : Key} {g : ConsumerGroup}
    (h : c.joinedGroup env key = .ok g) : c.Reloaded key (c.group key) g := by
  unfold joinedGroup at h
  split at h
  · rename_i hsome
    cases h
    refine ⟨g.committedOffsets, by rw [group_of_some hsome], fun p o hp => Or.inl ?_⟩
    rw [group_of_some hsome]
    exact hp
  · rename_i hnone
    split at h
    · cases h
    · rename_i offsets hload
      cases h
      refine ⟨offsets, ?_, fun p o hp => Or.inr ⟨_, _, offsets, hload, hp⟩⟩
      unfold Coordinator.group
      rw [hnone]
      rfl

theorem join_moves (group topic member : String) : Moves c (c.join env group topic member).2 := by
  rcases c.join_group env group topic member with heq | ⟨g, hg, heq⟩
  · rw [heq]
    exact .refl c
  · rw [heq]
    exact .setGroup (((joinedGroup_reloaded hg).moved _).trans
      (c.joinMember_moved env (group, topic) member g))

/-- Offsets are loaded, and there is nothing else that changes. -/
structure Reloads (c c' : Coordinator) : Prop where
  disk : c'.disk = c.disk
  dir : c'.offsetsDir = c.offsetsDir
  counts : ∀ topic, c'.partitionCount topic = c.partitionCount topic
  keys : ∀ key, c'.groups key = none ↔ c.groups key = none
  groups : ∀ key, c.Reloaded key (c.group key) (c'.group key)

namespace Reloads

variable {c c₁ c' : Coordinator}

theorem refl (c : Coordinator) : Reloads c c :=
  ⟨rfl, rfl, fun _ => rfl, fun _ => Iff.rfl, fun _ => ⟨_, rfl, fun _ _ hp => Or.inl hp⟩⟩

/-- What is known after the offsets are loaded was known before. -/
theorem known (h : Reloads c c') {key : Key} {p o : Nat} (hk : c'.Known key p o) :
    c.Known key p o := by
  rcases hk with hp | ⟨fails, n, offsets, hload, hp⟩
  · obtain ⟨offsets, hgroup, hknown⟩ := h.groups key
    rw [hgroup] at hp
    exact hknown p o hp
  · rw [h.disk, h.dir] at hload
    exact Or.inr ⟨fails, n, offsets, hload, hp⟩

theorem trans (h : Reloads c c₁) (h' : Reloads c₁ c') : Reloads c c' where
  disk := h'.disk.trans h.disk
  dir := h'.dir.trans h.dir
  counts := fun topic => (h'.counts topic).trans (h.counts topic)
  keys := fun key => (h'.keys key).trans (h.keys key)
  groups := by
    intro key
    obtain ⟨offsets, hgroup, _⟩ := h.groups key
    obtain ⟨offsets', hgroup', hknown'⟩ := h'.groups key
    refine ⟨offsets', ?_, fun p o hp => h.known (hknown' p o hp)⟩
    rw [hgroup', hgroup]

theorem setGroup {key : Key} {g g' : ConsumerGroup} (hkey : c.groups key = some g)
    (h : c.Reloaded key g g') : Reloads c (c.setGroup key g') where
  disk := rfl
  dir := rfl
  counts := fun _ => rfl
  keys := setGroup_eq_none hkey g'
  groups := by
    intro x
    rw [group_setGroup]
    split
    · rename_i heq
      rw [heq, group_of_some hkey]
      exact h
    · exact (Reloads.refl c).groups x

end Reloads

/-- **The loop of `set_topic_partitions`** loads offsets of the groups of the topic. -/
theorem extendLoop_reloads (topic : String) (partitions : Nat) (keys : List Key) :
    Reloads c (extendLoop env topic partitions keys c).2 := by
  induction keys generalizing c with
  | nil => exact .refl c
  | cons key keys ih =>
    unfold extendLoop
    split
    · exact ih c
    · rename_i g hg
      split
      · rename_i htopic
        split
        · exact .refl c
        · rename_i offsets hload
          refine Reloads.trans (.setGroup hg ⟨_, rfl, fun p o hp => ?_⟩) (ih _)
          rcases Option.or_eq_some_iff.1 hp with hp | ⟨_, hp⟩
          · rw [← htopic] at hload
            exact Or.inr ⟨_, _, offsets, hload, hp⟩
          · rw [← group_of_some hg] at hp
            exact Or.inl hp
      · exact ih c

theorem setTopicPartitions_reloads (topic : String) (partitions : Nat) :
    Reloads { c with topicPartitionCounts := fun x =>
        if x = topic then some partitions else c.topicPartitionCounts x }
      (c.setTopicPartitions env topic partitions).2 :=
  extendLoop_reloads _ env topic partitions env.order

/-- **A call moves every group.** -/
theorem handle_moved (call : Call) (key : Key) :
    Moved (c.partitionCount key.2) (c.group key) ((c.handle call).2.group key) := by
  obtain ⟨env, request⟩ := call
  cases request with
  | join group topic member => exact (c.join_moves env group topic member).groups key
  | heartbeat id => exact ((c.heartbeat_touches env id).groups key).moved
  | leave id => exact ((c.leave_touches env id).groups key).moved
  | commit id partition offset => exact (c.commit_moves env id partition offset).groups key
  | authorizeFetch id partition => exact ((c.authorizeFetch_touches env id partition).groups key).moved
  | expireSessions => exact ((c.expireLoop_touches env env.order).groups key).moved
  | setTopicPartitions topic partitions =>
    exact ((c.setTopicPartitions_reloads env topic partitions).groups key).moved _

/-! ## Runs -/

/-- The partition count of the latest rebalance of each group: a call that changes the generation
of a group has rebalanced it over the partitions its topic then had. -/
def latestCounts (c : Coordinator) (counts : Key → Option Nat) : List Call → Key → Option Nat
  | [] => counts
  | call :: calls =>
    (c.handle call).2.latestCounts (fun key =>
      if ((c.handle call).2.group key).generation ≠ (c.group key).generation then
        some (c.partitionCount key.2)
      else counts key) calls

end Coordinator

/-- Every partition below `n` is assigned to exactly one member, only members have assignments,
in increasing order, and no member has two partitions more than another. -/
structure Even (n : Nat) (g : ConsumerGroup) : Prop where
  owner : ∀ p < n, ∃! m, p ∈ g.assigned m
  within : ∀ m, ∀ p ∈ g.assigned m, p < n
  current : ∀ m, g.assignments m ≠ none → m ∈ g.members.keys
  increasing : ∀ m, (g.assigned m).Pairwise (· < ·)
  even : ∀ m ∈ g.members.keys, ∀ m' ∈ g.members.keys,
    (g.assigned m).length ≤ (g.assigned m').length + 1

/-- No members and no assignments, or an even assignment. -/
def Balanced (n : Nat) (g : ConsumerGroup) : Prop :=
  (g.members.keys = [] ∧ ∀ m, g.assignments m = none) ∨ Even n g

theorem Dealt.balanced {n : Nat} {g : ConsumerGroup}
    (h : Dealt g.members.keys n g.assignments) : Balanced n g := by
  have hassigned : ∀ m, g.assigned m = deal g.members.keys n m := h.getD
  by_cases hnil : g.members.keys = []
  · refine Or.inl ⟨hnil, fun m => ?_⟩
    rw [h m, hnil, if_pos (deal_nil n m)]
  · refine Or.inr ⟨?_, ?_, ?_, ?_, ?_⟩
    · intro p hp
      obtain ⟨m, _, hm⟩ := deal_owner hnil hp
      refine ⟨m, ?_, ?_⟩
      · show p ∈ g.assigned m
        rw [hassigned]
        exact hm
      · intro m' hm'
        rw [hassigned] at hm'
        exact deal_unique hm' hm
    · intro m p hp
      rw [hassigned, mem_deal] at hp
      exact hp.1
    · intro m hm
      have hne : deal g.members.keys n m ≠ [] := by
        intro hdeal
        rw [h m, if_pos hdeal] at hm
        exact hm rfl
      obtain ⟨p, hp⟩ := List.exists_mem_of_ne_nil _ hne
      exact mem_of_deal hp
    · intro m
      rw [hassigned]
      exact deal_sorted _ _ _
    · intro m hm m' hm'
      rw [hassigned, hassigned]
      exact deal_even g.members.keys_nodup hm hm' n

/-- What is known of a group whose latest rebalance was over `count` partitions. -/
def Tracked (g : ConsumerGroup) : Option Nat → Prop
  | none => g.generation = 0 ∧ g.members.keys = []
  | some n => Dealt g.members.keys n g.assignments

/-- **One call** keeps track of a group. -/
theorem Tracked.moved {n : Nat} {g g' : ConsumerGroup} {count : Option Nat}
    (h : Tracked g count) (hlt : g'.generation < GENERATION_MAX) (hm : Moved n g g') :
    Tracked g' (if g'.generation ≠ g.generation then some n else count) := by
  cases hm with
  | kept hgen hkeys hasg =>
    rw [if_neg (by rw [hgen]; exact fun hne => hne rfl)]
    cases count with
    | none => exact ⟨hgen.trans h.1, hkeys.trans h.2⟩
    | some m =>
      unfold Tracked at h ⊢
      rw [hkeys, hasg]
      exact h
  | rebalanced members hgen hdealt hkeys =>
    rw [if_pos (Nat.ne_of_gt hgen)]
    obtain rfl := hkeys.resolve_right (Nat.not_le.2 hlt)
    exact hdealt
  | overflow hmax hgen _ =>
    rw [hgen] at hlt
    exact absurd hmax (Nat.not_le.2 hlt)

namespace Coordinator

/-- The groups were recovered from the disk: each has the offsets that are stored and no members. -/
def Recovered (disk : Disk) (root : Path) (n : Nat) (groups : Key → Option ConsumerGroup) : Prop :=
  ∀ key g, groups key = some g → ∃ offsets,
    loadOffsets disk (fun _ => false) root key.1 key.2 n = .ok offsets ∧ g = .new offsets

theorem recoverTopics_recovered {disk : Disk} {root : Path} {n : Nat} {group : String}
    {topics : List String} {groups groups' : Key → Option ConsumerGroup}
    (h : recoverTopics disk root n group topics groups = .ok groups')
    (hgroups : Recovered disk root n groups) : Recovered disk root n groups' := by
  induction topics generalizing groups with
  | nil =>
    cases h
    exact hgroups
  | cons topic topics ih =>
    unfold recoverTopics at h
    split at h
    · cases h
    · split at h
      · cases h
      · rename_i hload
        refine ih h fun key g hg => ?_
        split at hg
        · rename_i hkey
          cases hg
          subst hkey
          exact ⟨_, hload, rfl⟩
        · exact hgroups key g hg

theorem recoverGroups_recovered {disk : Disk} {root : Path} {n : Nat} {names : List String}
    {groups groups' : Key → Option ConsumerGroup}
    (h : recoverGroups disk root n names groups = .ok groups')
    (hgroups : Recovered disk root n groups) : Recovered disk root n groups' := by
  induction names generalizing groups with
  | nil =>
    cases h
    exact hgroups
  | cons name names ih =>
    unfold recoverGroups at h
    split at h
    · cases h
    · split at h
      · cases h
      · rename_i hrec
        exact ih h (recoverTopics_recovered hrec hgroups)

theorem openDir_recovered {disk : Disk} {dataDir : Path} {n timeout : Nat} {c : Coordinator}
    (h : openDir disk dataDir n timeout = .ok c) : Recovered c.disk c.offsetsDir n c.groups := by
  unfold openDir at h
  simp only at h
  split at h
  · cases h
  · split at h
    · cases h
    · rename_i groups hrec
      cases h
      exact recoverGroups_recovered hrec fun _ _ hno => by cases hno

theorem openDir_dir {disk : Disk} {dataDir : Path} {n timeout : Nat} {c : Coordinator}
    (h : openDir disk dataDir n timeout = .ok c) :
    c.offsetsDir = dataDir ++ ["__consumer_offsets"] := by
  unfold openDir at h
  simp only at h
  split at h
  · cases h
  · split at h
    · cases h
    · cases h
      rfl

/-- A coordinator starts without members. -/
theorem openDir_new {disk : Disk} {dataDir : Path} {n timeout : Nat} {c : Coordinator}
    (h : openDir disk dataDir n timeout = .ok c) (key : Key) :
    ∃ offsets, c.group key = .new offsets := by
  unfold Coordinator.group
  cases hg : c.groups key with
  | none => exact ⟨_, rfl⟩
  | some g =>
    obtain ⟨offsets, _, hnew⟩ := openDir_recovered h key g hg
    exact ⟨offsets, hnew⟩

theorem tracked_run {c : Coordinator} {counts : Key → Option Nat} {calls : List Call} {key : Key}
    (h : Tracked (c.group key) (counts key))
    (hlt : ∀ i ≤ calls.length, ((c.after (calls.take i)).group key).generation < GENERATION_MAX) :
    Tracked ((c.after calls).group key) (c.latestCounts counts calls key) := by
  induction calls generalizing c counts with
  | nil => exact h
  | cons call calls ih =>
    refine ih ?_ fun i hi => ?_
    · refine h.moved ?_ (c.handle_moved call key)
      exact hlt 1 (by simp)
    · exact hlt (i + 1) (by simpa using hi)

end Coordinator

/-- **Every group is balanced** over the partitions of its latest rebalance, after any run of
calls. -/
theorem groups_balanced {disk : Disk} {dataDir : Path} {partitionCount timeout : Nat}
    {c : Coordinator} {calls : List Call} {key : Key} {n : Nat}
    (h₀ : Coordinator.openDir disk dataDir partitionCount timeout = .ok c)
    (hlt : ∀ i ≤ calls.length, ((c.after (calls.take i)).group key).generation < GENERATION_MAX)
    (hn : c.latestCounts (fun _ => none) calls key = some n) :
    Balanced n ((c.after calls).group key) := by
  have hstart : Tracked (c.group key) none := by
    obtain ⟨offsets, hg⟩ := Coordinator.openDir_new h₀ key
    rw [hg]
    exact ⟨rfl, rfl⟩
  have hend := @Coordinator.tracked_run c (fun _ => none) calls key hstart hlt
  rw [hn] at hend
  exact hend.balanced

/-- What a call finds when the clock reads `now`. -/
def envAt (now : Nat) : Env :=
  ⟨now, fun _ _ => now, [("workers", "payments")], fun _ => false, none⟩

/-- Two workers join, the first one stays silent until it has expired, and the topic gets two
partitions more before the second one joins again. -/
def expiringCalls : List Call :=
  [(envAt 0, .join "workers" "payments" "worker-a"),
    (envAt 5, .join "workers" "payments" "worker-b"),
    (envAt 6, .setTopicPartitions "payments" 5),
    (envAt 12, .authorizeFetch ⟨"workers", "payments", "worker-b", 2⟩ 1),
    (envAt 13, .join "workers" "payments" "worker-c")]

theorem groups_balanced_expiring :
    ∃ c, Coordinator.openDir ⟨[[]], fun _ => none⟩ ["data"] 3 10 = .ok c ∧
      c.latestCounts (fun _ => none) expiringCalls ("workers", "payments") = some 5 ∧
      ((c.after expiringCalls).group ("workers", "payments")).members.keys =
        ["worker-b", "worker-c"] ∧
      Balanced 5 ((c.after expiringCalls).group ("workers", "payments")) := by
  refine ⟨_, rfl, by decide +kernel, by decide +kernel, ?_⟩
  exact @groups_balanced ⟨[[]], fun _ => none⟩ ["data"] 3 10 _ expiringCalls _ 5 rfl
    (by decide +kernel) (by decide +kernel)

end SevlaMq.Group

import SevlaMq.Group.Generations

/-!
# Groups of a topic whose partition count changes

A member can join a group of a topic that does not exist yet, and gets partitions of the default
count.  `CreateTopic` then sets the count of the topic with `set_topic_partitions`, which loads
offsets and does not rebalance.

* `Covered` — each partition is assigned to exactly one member, and there are no others.
* `Ready` — a group without members, or one that was last rebalanced over the given count; a call
  keeps it while the count of the topic stays (`Ready.handle`).
* `recounted_covered_iff` — from `set_topic_partitions` on every group of the topic with members is
  covered if and only if those that have members at that moment were last rebalanced over the same
  count.
-/

set_option autoImplicit false

namespace SevlaMq.Group

/-- Each of the partitions below `n` is assigned to exactly one member, and no other is assigned. -/
structure Covered (n : Nat) (g : ConsumerGroup) : Prop where
  owner : ∀ p < n, ∃! m, m ∈ g.members.keys ∧ p ∈ g.assigned m
  within : ∀ m, ∀ p ∈ g.assigned m, p < n

/-- The call gives the topic no other partition count. -/
def Call.keepsCount (topic : String) (n : Nat) : Call → Prop
  | (_, .setTopicPartitions topic' partitions) => topic' = topic → partitions = n
  | _ => True

/-! ## Groups that are ready for a count -/

/-- There are no members, or they were dealt `n` partitions. -/
def Ready (n : Nat) (g : ConsumerGroup) : Prop :=
  g.members.keys = [] ∨ Dealt g.members.keys n g.assignments

theorem Dealt.covered {n : Nat} {g : ConsumerGroup} (h : Dealt g.members.keys n g.assignments)
    (hne : g.members.keys ≠ []) : Covered n g := by
  rcases h.balanced with ⟨hnil, _⟩ | heven
  · exact absurd hnil hne
  · refine ⟨fun p hp => ?_, heven.within⟩
    obtain ⟨m, hm, honly⟩ := heven.owner p hp
    refine ⟨m, ⟨?_, hm⟩, fun m' hm' => honly m' hm'.2⟩
    refine heven.current m fun hnone => ?_
    rw [ConsumerGroup.assigned, hnone] at hm
    cases hm

/-- Members that were dealt another number of partitions do not cover them. -/
theorem Dealt.covered_iff {m n : Nat} {g : ConsumerGroup}
    (h : Dealt g.members.keys m g.assignments) (hne : g.members.keys ≠ []) :
    Covered n g ↔ m = n := by
  constructor
  · intro hcovered
    have hassigned : ∀ x, g.assigned x = deal g.members.keys m x := h.getD
    rcases Nat.lt_trichotomy m n with hlt | heq | hgt
    · -- partition `m` has no owner
      obtain ⟨x, ⟨_, hx⟩, _⟩ := hcovered.owner m hlt
      rw [hassigned, mem_deal] at hx
      exact absurd hx.1 (Nat.lt_irrefl _)
    · exact heq
    · -- partition `n` has one
      obtain ⟨x, _, hx⟩ := deal_owner hne hgt
      rw [← hassigned] at hx
      exact absurd (hcovered.within x n hx) (Nat.lt_irrefl _)
  · rintro rfl
    exact h.covered hne

theorem Ready.covered {n : Nat} {g : ConsumerGroup} (h : Ready n g)
    (hne : g.members.keys ≠ []) : Covered n g :=
  (h.resolve_left hne).covered hne

theorem Ready.moved {n : Nat} {g g' : ConsumerGroup} (h : Ready n g) (hm : Moved n g g')
    (hlt : g'.generation < GENERATION_MAX) : Ready n g' := by
  cases hm with
  | kept hgen hkeys hasg =>
    unfold Ready
    rw [hkeys, hasg]
    exact h
  | rebalanced members hgen hdealt hkeys =>
    obtain rfl := hkeys.resolve_right (Nat.not_le.2 hlt)
    exact Or.inr hdealt
  | overflow hmax hgen _ =>
    rw [hgen] at hlt
    exact absurd hmax (Nat.not_le.2 hlt)

namespace Coordinator

/-! ## Calls -/

theorem setTopicPartitions_count (c : Coordinator) (env : Env) (topic' topic : String)
    (partitions : Nat) : (c.setTopicPartitions env topic' partitions).2.partitionCount topic =
      if topic = topic' then partitions else c.partitionCount topic := by
  rw [(c.setTopicPartitions_reloads env topic' partitions).counts topic, partitionCount]
  simp only
  split
  · rfl
  · rfl

/-- The count of a topic stays as long as it is not given another one. -/
theorem handle_count {c : Coordinator} {call : Call} {topic : String} {n : Nat}
    (hcount : c.partitionCount topic = n) (hkeeps : call.keepsCount topic n) :
    (c.handle call).2.partitionCount topic = n := by
  obtain ⟨env, request⟩ := call
  cases request with
  | join group topic' member =>
    exact ((c.join_moves env group topic' member).counts topic).trans hcount
  | heartbeat id => exact ((c.heartbeat_touches env id).counts topic).trans hcount
  | leave id => exact ((c.leave_touches env id).counts topic).trans hcount
  | commit id partition offset =>
    exact ((c.commit_moves env id partition offset).counts topic).trans hcount
  | authorizeFetch id partition =>
    exact ((c.authorizeFetch_touches env id partition).counts topic).trans hcount
  | expireSessions => exact ((c.expireLoop_touches env env.order).counts topic).trans hcount
  | setTopicPartitions topic' partitions =>
    refine (c.setTopicPartitions_count env topic' topic partitions).trans ?_
    split
    · rename_i heq
      exact hkeeps heq.symm
    · exact hcount

/-- **A run** that leaves the count of the topic alone keeps its groups ready. -/
theorem ready_after {c : Coordinator} {calls : List Call} {group topic : String} {n : Nat}
    (hcount : c.partitionCount topic = n) (hready : Ready n (c.group (group, topic)))
    (hkeeps : ∀ call ∈ calls, call.keepsCount topic n)
    (hlt : ((c.after calls).group (group, topic)).generation < GENERATION_MAX) :
    Ready n ((c.after calls).group (group, topic)) := by
  induction calls generalizing c with
  | nil => exact hready
  | cons call calls ih =>
    have hnext := ((c.handle call).2.after_follows calls (group, topic)).le
    have hmoved := c.handle_moved call (group, topic)
    rw [hcount] at hmoved
    exact ih (handle_count hcount (hkeeps call List.mem_cons_self))
      (hready.moved hmoved (Nat.lt_of_le_of_lt hnext hlt))
      (fun x hx => hkeeps x (List.mem_cons_of_mem _ hx)) hlt

/-- Every state of a run so far has a smaller generation. -/
theorem take_generation_le (c : Coordinator) (calls : List Call) (key : Key) (i : Nat) :
    ((c.after (calls.take i)).group key).generation ≤ ((c.after calls).group key).generation := by
  have hle := ((c.after (calls.take i)).after_follows (calls.drop i) key).le
  rw [← after_append, List.take_append_drop] at hle
  exact hle

end Coordinator

/-- **When a new partition count reaches the groups of a topic.**  After any run of calls the
partition count of a topic is set to `n`.  In all states from then on, until the topic is given
another count, every group of the topic with members is covered — if and only if each group that has
members before the call was last rebalanced over `n` partitions. -/
theorem recounted_covered_iff {disk : Disk} {dataDir : Path} {partitionCount timeout : Nat}
    {c : Coordinator} {calls : List Call} {env : Env} {topic : String} {n : Nat}
    (h₀ : Coordinator.openDir disk dataDir partitionCount timeout = .ok c)
    (hlt : ∀ group, ((c.after calls).group (group, topic)).generation < GENERATION_MAX) :
    (∀ later group, (∀ call ∈ later, Call.keepsCount topic n call) →
      let g := (((c.after calls).handle (env, .setTopicPartitions topic n)).2.after later).group
        (group, topic)
      g.generation < GENERATION_MAX → g.members.keys ≠ [] → Covered n g) ↔
    ∀ group, ((c.after calls).group (group, topic)).members.keys ≠ [] →
      c.latestCounts (fun _ => none) calls (group, topic) = some n := by
  have htracked : ∀ group, Tracked ((c.after calls).group (group, topic))
      (c.latestCounts (fun _ => none) calls (group, topic)) := by
    intro group
    refine Coordinator.tracked_run ?_ fun i _ =>
      Nat.lt_of_le_of_lt (c.take_generation_le calls _ i) (hlt group)
    obtain ⟨offsets, hg⟩ := Coordinator.openDir_new h₀ (group, topic)
    rw [hg]
    exact ⟨rfl, rfl⟩
  have hset := (c.after calls).setTopicPartitions_reloads env topic n
  constructor
  · intro hcovered group hne
    -- the state right after the call
    obtain ⟨offsets, hgroup, _⟩ := hset.groups (group, topic)
    have hnow := hcovered [] group (List.forall_mem_nil _)
    simp only at hnow
    have hsame : ((c.after calls).handle (env, .setTopicPartitions topic n)).2.group (group, topic) =
      { (c.after calls).group (group, topic) with committedOffsets := offsets } := hgroup
    rw [Coordinator.after, List.foldl_nil, hsame] at hnow
    have hcov := hnow (hlt group) hne
    have ht := htracked group
    cases hcount : c.latestCounts (fun _ => none) calls (group, topic) with
    | none =>
      rw [hcount] at ht
      exact absurd ht.2 hne
    | some m =>
      rw [hcount] at ht
      have hdealt : Dealt ((c.after calls).group (group, topic)).members.keys m
        ((c.after calls).group (group, topic)).assignments := ht
      rw [(hdealt.covered_iff hne).1 ⟨hcov.owner, hcov.within⟩]
  · intro hcounts later group hkeeps g hgen hne
    refine (Coordinator.ready_after ?_ ?_ hkeeps hgen).covered hne
    · refine ((c.after calls).setTopicPartitions_count env topic topic n).trans ?_
      exact if_pos rfl
    · obtain ⟨offsets, hgroup, _⟩ := hset.groups (group, topic)
      have hsame : ((c.after calls).handle (env, .setTopicPartitions topic n)).2.group
        (group, topic) =
          { (c.after calls).group (group, topic) with committedOffsets := offsets } := hgroup
      rw [hsame]
      by_cases hnil : ((c.after calls).group (group, topic)).members.keys = []
      · exact Or.inl hnil
      · have ht := htracked group
        rw [hcounts group hnil] at ht
        exact Or.inr ht

/-- The topic is created before the first worker joins. -/
theorem recounted_covered_iff_created :
    ∃ c, Coordinator.openDir ⟨[[]], fun _ => none⟩ ["data"] 3 10 = .ok c ∧
      let g := ((c.handle (envAt 0, .setTopicPartitions "payments" 5)).2.after
        [(envAt 1, .join "workers" "payments" "worker-a"),
          (envAt 2, .join "workers" "payments" "worker-b")]).group ("workers", "payments")
      g.members.keys = ["worker-a", "worker-b"] ∧ Covered 5 g := by
  refine ⟨_, rfl, by decide +kernel, ?_⟩
  have hopen : Coordinator.openDir ⟨[[]], fun _ => none⟩ ["data"] 3 10 = .ok _ := rfl
  have hnew : ∀ group, ∃ offsets, Coordinator.group _ (group, "payments") = .new offsets :=
    fun group => Coordinator.openDir_new hopen (group, "payments")
  refine (@recounted_covered_iff _ _ _ _ _ [] (envAt 0) "payments" 5 hopen fun group => ?_).2
    (fun group hne => ?_) _ "workers" ?_ (by decide +kernel) (by decide +kernel)
  · obtain ⟨offsets, hg⟩ := hnew group
    rw [Coordinator.after, List.foldl_nil, hg]
    exact Nat.lt_of_lt_of_le Nat.zero_lt_one (by decide)
  · obtain ⟨offsets, hg⟩ := hnew group
    rw [Coordinator.after, List.foldl_nil, hg] at hne
    exact absurd rfl hne
  · intro call hcall
    simp only [List.mem_cons, List.not_mem_nil, or_false] at hcall
    rcases hcall with rfl | rfl
    · exact trivial
    · exact trivial

/-- The worker joins before the topic is created, with three partitions by default; neither its
heartbeat nor another join brings it the other two. -/
theorem created_topic_not_covered :
    ∃ c, Coordinator.openDir ⟨[[]], fun _ => none⟩ ["data"] 3 10 = .ok c ∧
      let c' := c.after [(envAt 0, .join "workers" "payments" "worker-a")]
      let g := ((c'.handle (envAt 1, .setTopicPartitions "payments" 5)).2.after
        [(envAt 2, .heartbeat ⟨"workers", "payments", "worker-a", 1⟩),
          (envAt 3, .join "workers" "payments" "worker-a")]).group ("workers", "payments")
      g.members.keys = ["worker-a"] ∧ g.assigned "worker-a" = [0, 1, 2] ∧ ¬ Covered 5 g := by
  have hassigned : ∃ c, Coordinator.openDir ⟨[[]], fun _ => none⟩ ["data"] 3 10 = .ok c ∧
      let c' := c.after [(envAt 0, .join "workers" "payments" "worker-a")]
      let g := ((c'.handle (envAt 1, .setTopicPartitions "payments" 5)).2.after
        [(envAt 2, .heartbeat ⟨"workers", "payments", "worker-a", 1⟩),
          (envAt 3, .join "workers" "payments" "worker-a")]).group ("workers", "payments")
      g.members.keys = ["worker-a"] ∧ g.assigned "worker-a" = [0, 1, 2] :=
    ⟨_, rfl, by decide +kernel, by decide +kernel⟩
  obtain ⟨c, hopen, hkeys, hassigned⟩ := hassigned
  refine ⟨c, hopen, hkeys, hassigned, fun hcovered => ?_⟩
  obtain ⟨m, ⟨hmem, hm⟩, _⟩ := hcovered.owner 3 (by decide)
  rw [hkeys, List.mem_singleton] at hmem
  rw [hmem, hassigned] at hm
  exact absurd hm (by decide)

end SevlaMq.Group

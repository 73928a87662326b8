import SevlaMq.Broker.LeaderMonitor

/-!
# When the monitor promotes

A cycle of the leader monitor goes through the topics and their partitions in order and ends at
the first error.

* `failover_completes` — the third failed probe of a leader promotes the replica that reports the
  highest log end, in every run whose cycles get through.
* `departed_leader_starves` — a partition whose leader is no longer a node of the cluster ends
  every cycle; no partition behind it is probed or gets another leader from the monitor.
-/

set_option autoImplicit false

namespace SevlaMq.Broker

open SevlaMq.Storage SevlaMq.Cluster

/-! ## The candidate -/

/-- The first report counts more: it is higher, or as high and of a lower id. -/
def Outranks (x y : BrokerId × Nat) : Prop := y.2 < x.2 ∨ (y.2 = x.2 ∧ x.1 ≤ y.1)

theorem Outranks.refl (x : BrokerId × Nat) : Outranks x x := Or.inr ⟨rfl, Nat.le_refl _⟩

theorem Outranks.trans {x y z : BrokerId × Nat} (h : Outranks x y) (h' : Outranks y z) :
    Outranks x z := by
  rcases h with hlt | ⟨heq, hle⟩ <;> rcases h' with hlt' | ⟨heq', hle'⟩
  · exact Or.inl (Nat.lt_trans hlt' hlt)
  · exact Or.inl (heq' ▸ hlt)
  · exact Or.inl (heq ▸ hlt')
  · exact Or.inr ⟨heq'.trans heq, Nat.le_trans hle hle'⟩

/-- The reported log end of `candidate` is committed, and outranks every other one. -/
def Best (offsets : List (BrokerId × Nat)) (highWatermark : Nat) (candidate : BrokerId) : Prop :=
  ∃ offset, (candidate, offset) ∈ offsets ∧ highWatermark ≤ offset ∧
    ∀ x ∈ offsets, Outranks (candidate, offset) x

namespace Settings

theorem laterCandidate_spec (x y : BrokerId × Nat) :
    (laterCandidate x y = x ∨ laterCandidate x y = y) ∧ Outranks (laterCandidate x y) x ∧
      Outranks (laterCandidate x y) y := by
  unfold laterCandidate
  split
  · rename_i h
    refine ⟨Or.inl rfl, Outranks.refl x, ?_⟩
    exact h.imp_right fun ⟨heq, hlt⟩ => ⟨heq, Nat.le_of_lt hlt⟩
  · rename_i h
    obtain ⟨hle, hid⟩ := not_or.1 h
    refine ⟨Or.inr rfl, ?_, Outranks.refl y⟩
    rcases Nat.lt_or_eq_of_le (Nat.not_lt.1 hle) with hlt | heq
    · exact Or.inl hlt
    · exact Or.inr ⟨heq, Nat.not_lt.1 fun hlt => hid ⟨heq.symm, hlt⟩⟩

/-- The fold ends with the report that outranks the others. -/
theorem foldl_laterCandidate (rest : List (BrokerId × Nat)) (x : BrokerId × Nat) :
    rest.foldl laterCandidate x ∈ x :: rest ∧
      ∀ y ∈ x :: rest, Outranks (rest.foldl laterCandidate x) y := by
  induction rest generalizing x with
  | nil =>
    refine ⟨List.mem_cons_self, fun y hy => ?_⟩
    rw [List.mem_singleton.1 hy]
    exact Outranks.refl x
  | cons y rest ih =>
    obtain ⟨hwhich, hx, hy⟩ := laterCandidate_spec x y
    obtain ⟨hmem, hall⟩ := ih (laterCandidate x y)
    have hlater := hall _ List.mem_cons_self
    refine ⟨?_, fun z hz => ?_⟩
    · rcases List.mem_cons.1 hmem with heq | hrest
      · rw [List.foldl_cons, heq]
        rcases hwhich with h | h <;> rw [h] <;> simp
      · exact List.mem_cons_of_mem _ (List.mem_cons_of_mem _ hrest)
    · rcases List.mem_cons.1 hz with rfl | hz
      · exact hlater.trans hx
      rcases List.mem_cons.1 hz with rfl | hz
      · exact hlater.trans hy
      · exact hall z (List.mem_cons_of_mem _ hz)

/-- With enough reports, one of them committed, there is a candidate, and it is the best. -/
theorem chooseAutomaticCandidate_best {offsets : List (BrokerId × Nat)}
    {minInSyncReplicas highWatermark : Nat} (henough : minInSyncReplicas ≤ offsets.length)
    (hcommitted : ∃ x ∈ offsets, highWatermark ≤ x.2) :
    ∃ candidate, chooseAutomaticCandidate offsets minInSyncReplicas highWatermark =
      some candidate ∧ Best offsets highWatermark candidate := by
  have hmem : ∀ y, y ∈ offsets.filter (highWatermark ≤ ·.2) ↔ y ∈ offsets ∧ highWatermark ≤ y.2 :=
    fun y => by rw [List.mem_filter, decide_eq_true_iff]
  unfold chooseAutomaticCandidate
  rw [if_neg (Nat.not_lt.2 henough)]
  generalize hfilter : offsets.filter (highWatermark ≤ ·.2) = committed at hmem
  cases committed with
  | nil =>
    obtain ⟨x, hx, hle⟩ := hcommitted
    exact absurd ((hmem x).2 ⟨hx, hle⟩) List.not_mem_nil
  | cons x rest =>
    obtain ⟨hin, hall⟩ := foldl_laterCandidate rest x
    obtain ⟨hoffsets, hle⟩ := (hmem _).1 hin
    refine ⟨_, rfl, _, hoffsets, hle, fun y hy => ?_⟩
    by_cases hy' : highWatermark ≤ y.2
    · exact hall y ((hmem y).2 ⟨hy, hy'⟩)
    · exact Or.inl (Nat.lt_of_lt_of_le (Nat.not_le.1 hy') hle)

theorem mem_replicaOffsets {cfg : Settings} {partition : Nat} {reported : BrokerId → Option Nat}
    {nodes : List BrokerId} {id : BrokerId} {offset : Nat} :
    (id, offset) ∈ cfg.replicaOffsets partition reported nodes ↔
      id ∈ nodes ∧ (cfg.cluster partition).isPartitionReplica id = true ∧
        reported id = some offset := by
  unfold replicaOffsets
  rw [List.mem_filterMap]
  constructor
  · rintro ⟨x, hx, hoffset⟩
    obtain ⟨o, ho, heq⟩ := Option.map_eq_some_iff.1 hoffset
    cases heq
    rw [List.mem_filter] at hx
    exact ⟨hx.1, hx.2, ho⟩
  · rintro ⟨hnode, hreplica, hreported⟩
    exact ⟨id, List.mem_filter.2 ⟨hnode, hreplica⟩, by rw [hreported, Option.map_some]⟩

end Settings

/-! ## A cycle that can promote -/

/-- The leader does not answer; enough other replicas do, one of them with all that is
committed. -/
structure Recoverable (cfg : Settings) (env : CycleEnv) (topic : String) (l : PartitionLeadership) :
    Prop where
  silent : env.responding topic l.partition = false
  enough : cfg.minInSyncReplicas ≤ (cfg.replicaOffsets l.partition
    (env.selecting topic l.partition) (cfg.nodes.filter (· ≠ l.leaderId))).length
  committed : ∃ x ∈ cfg.replicaOffsets l.partition (env.selecting topic l.partition)
    (cfg.nodes.filter (· ≠ l.leaderId)), l.highWatermark ≤ x.2

/-- The best candidate for the partition in this cycle. -/
def CycleEnv.BestReplica (cfg : Settings) (env : CycleEnv) (topic : String)
    (l : PartitionLeadership) : BrokerId → Prop :=
  Best (cfg.replicaOffsets l.partition (env.selecting topic l.partition)
    (cfg.nodes.filter (· ≠ l.leaderId))) l.highWatermark

section Promotion

variable {cfg : Settings} {env : CycleEnv} {topic : String} {l : PartitionLeadership}

theorem Recoverable.selects (h : Recoverable cfg env topic l) :
    ∃ candidate, cfg.selectAutomaticCandidate env topic l = some candidate ∧
      env.BestReplica cfg topic l candidate :=
  Settings.chooseAutomaticCandidate_best h.enough h.committed

/-- A call of `promote_leader` for the best replica that returns has changed the leadership. -/
theorem CycleEnv.BestReplica.promoted {candidate : BrokerId}
    (hbest : env.BestReplica cfg topic l candidate) {entries entries' : Entries}
    (hkeyed : entries.Keyed) (hcontroller : (cfg.cluster l.partition).controller = cfg.self)
    (hentry : entries topic l.partition = some l) {response : PromoteResponse}
    (hs : cfg.promoteLeader env entries topic l.partition candidate = (.ok response, entries')) :
    response = .leadershipChanged (promoted l candidate) ∧
      entries' topic l.partition = some (promoted l candidate) := by
  obtain ⟨offset, hmem, _, _⟩ := hbest
  obtain ⟨_, hreplica, _⟩ := Settings.mem_replicaOffsets.1 hmem
  rcases Settings.promoteLeader_cases env hkeyed l.partition candidate with
    ⟨e, heq⟩ | ⟨id, hother, _⟩ | ⟨hno, _⟩ | ⟨current, hcurrent, _, hnew, hresult⟩
  · rw [hs] at heq
    cases heq
  · exact absurd hcontroller hother
  · rw [hno] at hreplica
    cases hreplica
  · rw [hentry] at hcurrent
    cases hcurrent
    rw [hs] at hnew hresult
    rcases hresult with hchanged | ⟨_, e, herror⟩
    · dsimp only at hnew
      rw [hnew, Entries.insert_own]
      exact ⟨Except.ok.inj hchanged, rfl⟩
    · cases herror

end Promotion

/-! ## What a cycle leaves alone -/

/-- The partition is probed, or `promote_leader` is called for it. -/
def MonitorEvent.attends (topic : String) (partition : Nat) : MonitorEvent → Bool
  | .probe t p _ _ => t = topic ∧ p = partition
  | .promote t p _ => t = topic ∧ p = partition
  | .change _ _ => false

namespace Monitor

/-- The partition keeps its entry and its counter, and nothing is done about it. -/
structure Keeps (topic : String) (partition : Nat) (s s' : Monitor) : Prop where
  entry : ∀ l, s.entries topic partition = some l → s'.entries topic partition = some l
  failures : s'.failures topic partition = s.failures topic partition
  unattended : s'.trace.filter (MonitorEvent.attends topic partition) =
    s.trace.filter (MonitorEvent.attends topic partition)

variable {cfg : Settings} {env : CycleEnv} {s s' : Monitor} {topic t : String} {partition p : Nat}
  {current l : PartitionLeadership}

theorem Keeps.refl (s : Monitor) : Keeps t p s s := ⟨fun _ h => h, rfl, rfl⟩

theorem Keeps.trans {s₁ s₂ s₃ : Monitor} (h : Keeps t p s₁ s₂) (h' : Keeps t p s₂ s₃) :
    Keeps t p s₁ s₃ :=
  ⟨fun l hl => h'.entry l (h.entry l hl), h'.failures.trans h.failures,
    h'.unattended.trans h.unattended⟩

theorem keeps_record (s : Monitor) {event : MonitorEvent} (h : event.attends t p = false) :
    Keeps t p s (s.record event) := by
  refine ⟨fun _ hl => hl, rfl, ?_⟩
  rw [record, List.filter_append, List.filter_cons_of_neg (by rw [h]; exact Bool.false_ne_true),
    List.filter_nil, List.append_nil]

theorem keeps_setFailures (s : Monitor) (attempts : Option Nat)
    (h : ¬ (t = topic ∧ p = partition)) : Keeps t p s (s.setFailures topic partition attempts) :=
  ⟨fun _ hl => hl, if_neg h, rfl⟩

theorem keeps_install (s : Monitor) {entries : Entries} (h : entries t p = s.entries t p) :
    Keeps t p s (s.install topic partition entries) := by
  unfold install
  have hsame : Keeps t p s { s with entries } := ⟨fun l hl => h.trans hl, rfl, rfl⟩
  split
  · exact hsame
  · exact hsame.trans (keeps_record _ rfl)

theorem keeps_insertVacant (s : Monitor) (hkeyed : s.entries.Keyed) (n : Nat) :
    Keeps t p s { s with entries := s.entries.insertVacant cfg topic n } :=
  ⟨fun l hl => (hkeyed.insertVacant cfg topic n).2 t p l hl, rfl, rfl⟩

/-- **The rule for the loop body**: what a probe, a counter, a call of `promote_leader` and its
result keep, the body keeps. -/
theorem monitorPartition_rule {P : Monitor → Prop}
    (hprobe : ∀ x responding, P x →
      P (x.record (.probe topic current.partition current.leaderId responding)))
    (hcount : ∀ x attempts, P x → P (x.setFailures topic current.partition attempts))
    (hcall : ∀ x, P x → P (x.record (.promote topic current.partition
      (x.leader topic current.partition))))
    (hinstall : ∀ x candidate, P x → P (x.install topic current.partition
      (cfg.promoteLeader env x.entries topic current.partition candidate).2))
    (h : P s) : P (s.monitorPartition cfg env topic current).2 := by
  unfold Monitor.monitorPartition
  simp only
  split
  · exact hcount _ _ h
  split
  · exact h
  have hprobed := hprobe s (env.responding topic current.partition) h
  split
  · exact hcount _ _ hprobed
  have hcounted := hcount _ (some (min (((s.record (.probe topic current.partition current.leaderId
    (env.responding topic current.partition))).failures topic current.partition).getD 0 + 1)
      U8_MAX)) hprobed
  split
  · exact hcounted
  split
  · exact hcounted
  rename_i candidate _
  have hdone := hinstall _ candidate (hcall _ hcounted)
  split <;> rename_i heq
  · rw [heq] at hdone
    exact hdone
  · rw [heq] at hdone
    exact hcount _ _ hdone
  · rw [heq] at hdone
    exact hdone

theorem monitorPartition_keeps (hkeyed : s.entries.Keyed) :
    (s.monitorPartition cfg env topic current).2.entries.Keyed ∧
      ∀ t p, ¬ (t = topic ∧ p = current.partition) →
        Keeps t p s (s.monitorPartition cfg env topic current).2 := by
  refine monitorPartition_rule (P := fun x => x.entries.Keyed ∧
    ∀ t p, ¬ (t = topic ∧ p = current.partition) → Keeps t p s x) ?_ ?_ ?_ ?_
    ⟨hkeyed, fun _ _ _ => Keeps.refl s⟩
  · exact fun x responding ⟨hk, hkeeps⟩ => ⟨hk, fun t p hne => (hkeeps t p hne).trans
      (keeps_record x (decide_eq_false fun heq => hne ⟨heq.1.symm, heq.2.symm⟩))⟩
  · exact fun x attempts ⟨hk, hkeeps⟩ => ⟨hk, fun t p hne =>
      (hkeeps t p hne).trans (keeps_setFailures x attempts hne)⟩
  · exact fun x ⟨hk, hkeeps⟩ => ⟨hk, fun t p hne => (hkeeps t p hne).trans
      (keeps_record x (decide_eq_false fun heq => hne ⟨heq.1.symm, heq.2.symm⟩))⟩
  · intro x candidate ⟨hk, hkeeps⟩
    obtain ⟨hkeyed', hothers⟩ := @Settings.promoteLeader_spec cfg x.entries topic env hk
      current.partition candidate
    refine ⟨by rwa [install_entries], fun t p hne => ?_⟩
    exact (hkeeps t p hne).trans (keeps_install x (hothers t p hne))

theorem monitorPartitions_keeps {currents : List PartitionLeadership}
    (hkeyed : s.entries.Keyed) :
    (s.monitorPartitions cfg env topic currents).2.entries.Keyed ∧
      ∀ t p, (∀ x ∈ currents, ¬ (t = topic ∧ p = x.partition)) →
        Keeps t p s (s.monitorPartitions cfg env topic currents).2 := by
  induction currents generalizing s with
  | nil => exact ⟨hkeyed, fun _ _ _ => Keeps.refl s⟩
  | cons current rest ih =>
    obtain ⟨hkeyed', hkeeps⟩ := @monitorPartition_keeps cfg env s topic current hkeyed
    rw [monitorPartitions]
    split <;> rename_i heq <;> rw [heq] at hkeyed' hkeeps
    · exact ⟨hkeyed', fun t p hne => hkeeps t p (hne current List.mem_cons_self)⟩
    · obtain ⟨hkeyed'', hkeeps'⟩ := ih hkeyed'
      exact ⟨hkeyed'', fun t p hne => (hkeeps t p (hne current List.mem_cons_self)).trans
        (hkeeps' t p fun x hx => hne x (List.mem_cons_of_mem _ hx))⟩

/-- Each topic is ensured before its partitions are visited, or ends the cycle. -/
theorem monitorTopics_cons (n : Nat) (rest : List (String × Nat)) (s : Monitor) :
    let s₁ := { s with entries := s.entries.insertVacant cfg topic n }
    (∃ e, monitorTopics cfg env ((topic, n) :: rest) s = (.error e, s₁)) ∨
      monitorTopics cfg env ((topic, n) :: rest) s =
        match monitorPartitions cfg env topic
            ((List.range n).filterMap (s.entries.insertVacant cfg topic n topic)) s₁ with
        | (.error e, s) => (.error e, s)
        | (.ok (), s) => monitorTopics cfg env rest s := by
  have hentries := @Entries.ensureTopic_entries cfg (fun _ => env.ensures topic) s.entries topic n
  rw [monitorTopics]
  generalize s.entries.insertVacant cfg topic n = ensured at *
  split <;> rename_i entries heq <;> rw [heq] at hentries <;> obtain rfl : entries = ensured :=
    hentries
  · exact Or.inl ⟨_, rfl⟩
  · exact Or.inr rfl

theorem monitorTopics_keeps {topics : List (String × Nat)} (hkeyed : s.entries.Keyed) :
    (s.monitorTopics cfg env topics).2.entries.Keyed ∧
      ∀ t p, t ∉ topics.map (·.1) → Keeps t p s (s.monitorTopics cfg env topics).2 := by
  induction topics generalizing s with
  | nil => exact ⟨hkeyed, fun _ _ _ => Keeps.refl s⟩
  | cons x rest ih =>
    obtain ⟨topic, n⟩ := x
    have hensured := (hkeyed.insertVacant cfg topic n).1
    have hkept := fun t p => @keeps_insertVacant cfg topic t p s hkeyed n
    rcases @monitorTopics_cons cfg env topic n rest s with ⟨e, heq⟩ | heq
    · rw [heq]
      exact ⟨hensured, fun t p _ => hkept t p⟩
    rw [heq]
    generalize s.entries.insertVacant cfg topic n = ensured at *
    obtain ⟨hkeyed', hkeeps⟩ := @monitorPartitions_keeps cfg env { s with entries := ensured } topic
      ((List.range n).filterMap (ensured topic)) hensured
    have hfirst : ∀ t p, t ∉ ((topic, n) :: rest).map (·.1) → Keeps t p s (monitorPartitions cfg
        env topic ((List.range n).filterMap (ensured topic)) { s with entries := ensured }).2 :=
      fun t p hne => (hkept t p).trans
        (hkeeps t p fun _ _ heq => hne (List.mem_cons.2 (Or.inl heq.1)))
    split <;> rename_i heq <;> rw [heq] at hkeyed' hfirst
    · exact ⟨hkeyed', hfirst⟩
    · obtain ⟨hkeyed'', hkeeps'⟩ := ih hkeyed'
      exact ⟨hkeyed'', fun t p hne => (hfirst t p hne).trans
        (hkeeps' t p fun hmem => hne (List.mem_cons_of_mem _ hmem))⟩

/-! ## The order of a cycle -/

/-- The entries of a topic are visited in the order of their partitions. -/
theorem currents_split {entries : Entries} (hkeyed : entries.Keyed) {n : Nat}
    (hl : entries topic partition = some l) (hn : partition < n) :
    ∃ before after, (List.range n).filterMap (entries topic) = before ++ l :: after ∧
      (∀ x ∈ before, x.partition < partition) ∧ ∀ x ∈ after, partition < x.partition := by
  obtain ⟨k, rfl⟩ := Nat.exists_eq_add_of_lt hn
  refine ⟨(List.range partition).filterMap (entries topic),
    ((List.range k).map (partition + 1 + ·)).filterMap (entries topic), ?_, ?_, ?_⟩
  · rw [show partition + k + 1 = partition + 1 + k by omega, List.range_add, List.range_succ,
      List.append_assoc, List.filterMap_append, List.singleton_append, List.filterMap_cons, hl]
  · intro x hx
    obtain ⟨q, hq, hxq⟩ := List.mem_filterMap.1 hx
    rw [hkeyed _ _ _ hxq]
    exact List.mem_range.1 hq
  · intro x hx
    obtain ⟨q, hq, hxq⟩ := List.mem_filterMap.1 hx
    obtain ⟨i, _, rfl⟩ := List.mem_map.1 hq
    rw [hkeyed _ _ _ hxq]
    omega

theorem monitorPartitions_append (before after : List PartitionLeadership) (s : Monitor) :
    monitorPartitions cfg env topic (before ++ after) s =
      match monitorPartitions cfg env topic before s with
      | (.error e, s) => (.error e, s)
      | (.ok (), s) => monitorPartitions cfg env topic after s := by
  induction before generalizing s with
  | nil => rfl
  | cons current before ih =>
    rw [List.cons_append, monitorPartitions, monitorPartitions]
    cases s.monitorPartition cfg env topic current with
    | mk result s =>
      cases result with
      | error e => rfl
      | ok _ => exact ih s

theorem monitorTopics_append (before after : List (String × Nat)) (s : Monitor) :
    monitorTopics cfg env (before ++ after) s =
      match monitorTopics cfg env before s with
      | (.error e, s) => (.error e, s)
      | (.ok (), s) => monitorTopics cfg env after s := by
  induction before generalizing s with
  | nil => rfl
  | cons x before ih =>
    obtain ⟨topic, n⟩ := x
    rw [List.cons_append, monitorTopics, monitorTopics]
    cases s.entries.ensureTopic cfg (fun _ => env.ensures topic) topic n with
    | mk result entries =>
      cases result with
      | error e => rfl
      | ok _ =>
        dsimp only
        cases monitorPartitions cfg env topic ((List.range n).filterMap (entries topic))
          { s with entries } with
        | mk result s =>
          cases result with
          | error e => rfl
          | ok _ => exact ih s

/-- A pass that gets through has visited the partition once, and left it alone otherwise. -/
theorem monitorPartitions_reaches {before after : List PartitionLeadership}
    (hkeyed : s.entries.Keyed) (hbefore : ∀ x ∈ before, x.partition < l.partition)
    (hafter : ∀ x ∈ after, l.partition < x.partition)
    (hok : monitorPartitions cfg env topic (before ++ l :: after) s = (.ok (), s')) :
    ∃ s₁ s₂, s₁.entries.Keyed ∧ Keeps topic l.partition s s₁ ∧
      s₁.monitorPartition cfg env topic l = (.ok (), s₂) ∧ Keeps topic l.partition s₂ s' := by
  obtain ⟨hkeyed₁, hkeeps₁⟩ :=
    @monitorPartitions_keeps cfg env s topic before hkeyed
  rw [monitorPartitions_append] at hok
  generalize hs₁ : monitorPartitions cfg env topic before s = r at *
  obtain ⟨result, s₁⟩ := r
  cases result with
  | error e => cases hok
  | ok _ =>
    simp only [monitorPartitions] at hok
    obtain ⟨hkeyed₂, _⟩ := @monitorPartition_keeps cfg env s₁ topic l hkeyed₁
    generalize hs₂ : s₁.monitorPartition cfg env topic l = r at *
    obtain ⟨result, s₂⟩ := r
    cases result with
    | error e => cases hok
    | ok _ =>
      have hlast := (@monitorPartitions_keeps cfg env s₂ topic after hkeyed₂).2 topic l.partition
        fun x hx heq => Nat.ne_of_lt (hafter x hx) heq.2
      simp only at hok
      rw [hok] at hlast
      exact ⟨s₁, s₂, hkeyed₁, hkeeps₁ topic l.partition fun x hx heq =>
        Nat.ne_of_gt (hbefore x hx) heq.2, hs₂, hlast⟩

/-- The topic is listed with the partition. -/
def Lists (env : CycleEnv) (topic : String) (partition : Nat) : Prop :=
  ∃ topics n, env.topics = .ok topics ∧ (topic, n) ∈ topics ∧ partition < n

/-- **A cycle that gets through** visits the partition once. -/
theorem cycle_reaches (hkeyed : s.entries.Keyed) (hl : s.entries topic l.partition = some l)
    (hlists : Lists env topic l.partition)
    (hok : s.monitorPartitionLeaders cfg env = (.ok (), s')) :
    ∃ s₁ s₂, s₁.entries.Keyed ∧ Keeps topic l.partition s s₁ ∧
      s₁.monitorPartition cfg env topic l = (.ok (), s₂) ∧ Keeps topic l.partition s₂ s' := by
  obtain ⟨topics, n, htopics, hmem, hn⟩ := hlists
  have hnodup := env.distinct topics htopics
  obtain ⟨before, after, rfl⟩ := List.append_of_mem hmem
  rw [List.map_append, List.map_cons, List.nodup_append] at hnodup
  obtain ⟨_, hrest, hdisjoint⟩ := hnodup
  have hbefore : topic ∉ before.map (·.1) := fun h => hdisjoint _ h _ List.mem_cons_self rfl
  have hafter : topic ∉ after.map (·.1) := (List.nodup_cons.1 hrest).1
  unfold monitorPartitionLeaders at hok
  rw [htopics] at hok
  simp only [monitorTopics_append] at hok
  obtain ⟨hkeyed₁, hkeeps₁⟩ := @monitorTopics_keeps cfg env s before hkeyed
  generalize monitorTopics cfg env before s = r at *
  obtain ⟨result, s₁⟩ := r
  cases result with
  | error e => cases hok
  | ok _ =>
    simp only at hok
    have hl₁ := (hkeeps₁ topic l.partition hbefore).entry l hl
    obtain ⟨hkeyed₂, hkept⟩ := hkeyed₁.insertVacant cfg topic n
    obtain ⟨earlier, later, hsplit, hearlier, hlater⟩ :=
      currents_split hkeyed₂ (hkept _ _ _ hl₁) hn
    have hensured := @keeps_insertVacant cfg topic topic l.partition s₁ hkeyed₁ n
    rcases @monitorTopics_cons cfg env topic n after s₁ with ⟨e, heq⟩ | heq
    · rw [heq] at hok
      cases hok
    rw [heq, hsplit] at hok
    have hkeyed₃ := (@monitorPartitions_keeps cfg env
      { s₁ with entries := s₁.entries.insertVacant cfg topic n } topic (earlier ++ l :: later)
      hkeyed₂).1
    split at hok
    · cases hok
    rename_i s₂ hpartitions
    rw [hpartitions] at hkeyed₃
    obtain ⟨s₃, s₄, hkeyed₄, hto, hvisit, hfrom⟩ :=
      monitorPartitions_reaches hkeyed₂ hearlier hlater hpartitions
    have hlast := (@monitorTopics_keeps cfg env s₂ after hkeyed₃).2 topic l.partition hafter
    rw [hok] at hlast
    exact ⟨s₃, s₄, hkeyed₄, ((hkeeps₁ topic l.partition hbefore).trans hensured).trans hto, hvisit,
      hfrom.trans hlast⟩

/-! ## Failover -/

def Action.isCycle : Action → Bool
  | .cycle _ => true
  | _ => false

/-- The cycles get through, list the topic and find `l` recoverable; no leadership from elsewhere
replaces it. -/
def Watched (cfg : Settings) (topic : String) (l : PartitionLeadership) (s : Monitor) :
    Action → Prop
  | .cycle env => (s.monitorPartitionLeaders cfg env).1 = .ok () ∧ Lists env topic l.partition ∧
      Recoverable cfg env topic l
  | .apply t l' => s.Replaces cfg t l' → ¬ (t = topic ∧ l'.partition = l.partition)
  | .ensureTopic _ _ => True

/-- One failed probe: it is counted, or it is the third. -/
theorem monitorPartition_recoverable (h : Recoverable cfg env topic l) (hkeyed : s.entries.Keyed)
    (hcontroller : (cfg.cluster l.partition).controller = cfg.self)
    (hentry : s.entries topic l.partition = some l) (hother : l.leaderId ≠ cfg.self)
    (hnode : l.leaderId ∈ cfg.nodes)
    (hs : s.monitorPartition cfg env topic l = (.ok (), s')) :
    ((s.failures topic l.partition).getD 0 + 1 < 3 ∧ s'.entries topic l.partition = some l ∧
        s'.failures topic l.partition = some ((s.failures topic l.partition).getD 0 + 1)) ∨
      (3 ≤ (s.failures topic l.partition).getD 0 + 1 ∧ ∃ candidate,
        env.BestReplica cfg topic l candidate ∧
        s'.entries topic l.partition = some (promoted l candidate) ∧
        s'.failures topic l.partition = none) := by
  unfold monitorPartition at hs
  simp only at hs
  rw [if_neg hother, if_neg (by simp [hnode]), h.silent, if_neg Bool.false_ne_true] at hs
  simp only [show (s.record (.probe topic l.partition l.leaderId false)).failures = s.failures
    from rfl] at hs
  generalize (s.failures topic l.partition).getD 0 = k at *
  have hbound : min (k + 1) U8_MAX < 3 ↔ k + 1 < 3 := by
    have : U8_MAX = 255 := rfl
    omega
  split at hs
  · rename_i hfew
    cases hs
    have hk := hbound.1 hfew
    refine Or.inl ⟨hk, hentry, ?_⟩
    rw [setFailures_own, Nat.min_eq_left (Nat.le_trans (Nat.le_of_lt hk) (by decide))]
  · rename_i hthree
    obtain ⟨candidate, hselect, hbest⟩ := h.selects
    refine Or.inr ⟨Nat.not_lt.1 fun hk => hthree (hbound.2 hk), candidate, hbest, ?_⟩
    rw [hselect] at hs
    simp only at hs
    rw [show ∀ (x : Monitor) n event, ((x.setFailures topic l.partition n).record event).entries =
      x.entries from fun _ _ _ => rfl, show (s.record (.probe topic l.partition l.leaderId
      false)).entries = s.entries from rfl] at hs
    split at hs
    · cases hs
    · rename_i entries hpromote
      cases hs
      refine ⟨?_, setFailures_own _ _⟩
      show (install _ topic l.partition entries).entries topic l.partition = _
      rw [install_entries, (hbest.promoted hkeyed hcontroller hentry hpromote).2]
    · rename_i hno hpromote
      exact absurd (hbest.promoted hkeyed hcontroller hentry hpromote).1 (hno _)

/-- One action before the third failed probe. -/
theorem Watched.step {a : Action} (ha : Watched cfg topic l s a) (hkeyed : s.entries.Keyed)
    (hcontroller : (cfg.cluster l.partition).controller = cfg.self)
    (hentry : s.entries topic l.partition = some l) (hother : l.leaderId ≠ cfg.self)
    (hnode : l.leaderId ∈ cfg.nodes) :
    ∃ s', s.step cfg a = some s' ∧ s'.entries.Keyed ∧
      ((s'.entries topic l.partition = some l ∧ (s'.failures topic l.partition).getD 0 =
          (s.failures topic l.partition).getD 0 + [a].countP Action.isCycle ∧
          ([a].countP Action.isCycle = 0 ∨ (s.failures topic l.partition).getD 0 + 1 < 3)) ∨
        3 ≤ (s.failures topic l.partition).getD 0 + 1 ∧ ∃ env candidate, a = .cycle env ∧
          env.BestReplica cfg topic l candidate ∧
          s'.entries topic l.partition = some (promoted l candidate) ∧
          s'.failures topic l.partition = none) := by
  cases a with
  | cycle env =>
    obtain ⟨hok, hlists, hrecoverable⟩ := ha
    have hkeyed' : (s.monitorPartitionLeaders cfg env).2.entries.Keyed := by
      obtain ⟨topics, _, htopics, _⟩ := hlists
      unfold monitorPartitionLeaders
      rw [htopics]
      exact (monitorTopics_keeps hkeyed).1
    refine ⟨_, rfl, hkeyed', ?_⟩
    obtain ⟨s₁, s₂, hkeyed₁, hto, hvisit, hfrom⟩ :=
      cycle_reaches hkeyed hentry hlists (Prod.ext hok rfl)
    have hone := monitorPartition_recoverable hrecoverable hkeyed₁ hcontroller
      (hto.entry l hentry) hother hnode hvisit
    rw [hto.failures] at hone
    rw [hfrom.failures]
    rcases hone with ⟨hfew, hentry', hcount⟩ | ⟨hthree, candidate, hbest, hpromoted, hnone⟩
    · refine Or.inl ⟨hfrom.entry _ hentry', ?_, Or.inr hfew⟩
      rw [hcount]
      rfl
    · exact Or.inr ⟨hthree, env, candidate, rfl, hbest, hfrom.entry _ hpromoted, hnone⟩
  | apply t l' =>
    refine ⟨_, rfl, ?_⟩
    rcases apply_replaces s (fun _ => true) t l' with hsame | ⟨hreplaces, hnew⟩
    · rw [hsame, install_same]
      exact ⟨hkeyed, Or.inl ⟨hentry, rfl, Or.inl rfl⟩⟩
    · rw [hnew, install_entries, install_failures]
      refine ⟨hkeyed.insert t l', Or.inl ⟨?_, rfl, Or.inl rfl⟩⟩
      rw [Entries.insert_other fun heq => ha hreplaces ⟨heq.1.symm, heq.2.symm⟩, hentry]
  | ensureTopic t n =>
    obtain ⟨hkeyed', hkept⟩ := hkeyed.insertVacant cfg t n
    exact ⟨_, rfl, hkeyed', Or.inl ⟨hkept _ _ _ hentry, rfl, Or.inl rfl⟩⟩

/-- **The third failed probe promotes.**  While the leader of a partition stays silent, every cycle
counts one probe, and the cycle that counts the third installs the best replica in the next epoch
with the watermark of the old one. -/
theorem failover_completes {acts : List Action} (hkeyed : s.entries.Keyed)
    (hcontroller : (cfg.cluster l.partition).controller = cfg.self)
    (hentry : s.entries topic l.partition = some l) (hother : l.leaderId ≠ cfg.self)
    (hnode : l.leaderId ∈ cfg.nodes)
    (hacts : Along (step cfg) (Watched cfg topic l) s acts)
    (hcycles : 2 - (s.failures topic l.partition).getD 0 < acts.countP Action.isCycle) :
    ∃ past env rest s₁ s₂ candidate, acts = past ++ .cycle env :: rest ∧
      past.countP Action.isCycle = 2 - (s.failures topic l.partition).getD 0 ∧
      run (step cfg) s past = some s₁ ∧ s₁.entries topic l.partition = some l ∧
      step cfg s₁ (.cycle env) = some s₂ ∧ env.BestReplica cfg topic l candidate ∧
      s₂.entries topic l.partition = some (promoted l candidate) ∧
      s₂.failures topic l.partition = none := by
  induction acts generalizing s with
  | nil => exact absurd hcycles (Nat.not_lt_zero _)
  | cons a acts ih =>
    obtain ⟨s₁, hs₁, hkeyed₁, hnext⟩ :=
      hacts.1.step hkeyed hcontroller hentry hother hnode
    rw [← List.singleton_append, List.countP_append] at hcycles
    rcases hnext with ⟨hentry₁, hcount, hfew⟩ |
      ⟨hthree, env, candidate, rfl, hbest, hpromoted, hnone⟩
    · have hone : [a].countP Action.isCycle ≤ 1 := List.countP_le_length
      obtain ⟨past, env, rest, s₂, s₃, candidate, rfl, hpast, hr, hl, hs, hrest⟩ :=
        ih hkeyed₁ hentry₁ (hacts.2 s₁ hs₁) (by omega)
      refine ⟨a :: past, env, rest, s₂, s₃, candidate, rfl, ?_, ?_, hl, hs, hrest⟩
      · rw [← List.singleton_append, List.countP_append]
        omega
      · rw [run, hs₁]
        exact hr
    · refine ⟨[], env, acts, s, s₁, candidate, rfl, ?_, rfl, hentry, hs₁, hbest, hpromoted, hnone⟩
      rw [List.countP_nil]
      omega

/-- Broker 2 leads partition 1 and fails three probes; broker 1 has its log and takes over. -/
theorem failover_completes_orders :
    ∃ past env rest s₁ s₂ candidate,
      [Action.cycle unanswered, .cycle unanswered, .cycle unanswered] =
        past ++ .cycle env :: rest ∧
      past.countP Action.isCycle = 2 ∧
      run (step controllerOfThree) (start ordersEntries) past = some s₁ ∧
      s₁.entries "orders" 1 = some ⟨1, 2, 0, 0⟩ ∧
      step controllerOfThree s₁ (.cycle env) = some s₂ ∧
      env.BestReplica controllerOfThree "orders" ⟨1, 2, 0, 0⟩ candidate ∧
      s₂.entries "orders" 1 = some ⟨1, candidate, 1, 0⟩ ∧ s₂.failures "orders" 1 = none := by
  have hlists : Lists unanswered "orders" 1 :=
    ⟨[("orders", 2)], 2, rfl, List.mem_cons_self, Nat.one_lt_two⟩
  have hrecoverable : Recoverable controllerOfThree unanswered "orders" ⟨1, 2, 0, 0⟩ :=
    ⟨rfl, by decide, ⟨(1, 0), by decide, Nat.le_refl _⟩⟩
  have hwatched : Along (step controllerOfThree) (Watched controllerOfThree "orders" ⟨1, 2, 0, 0⟩)
      (start ordersEntries) [.cycle unanswered, .cycle unanswered, .cycle unanswered] := by
    refine ⟨⟨rfl, hlists, hrecoverable⟩, fun s₁ hs₁ => ?_⟩
    cases hs₁
    refine ⟨⟨rfl, hlists, hrecoverable⟩, fun s₂ hs₂ => ?_⟩
    cases hs₂
    exact ⟨⟨rfl, hlists, hrecoverable⟩, fun _ _ => trivial⟩
  exact failover_completes (l := ⟨1, 2, 0, 0⟩) (s := start ordersEntries) ordersEntries_keyed
    (by decide) (by decide) (by decide) (by decide) hwatched (by decide)

/-! ## Starvation -/

/-- Nothing behind a partition whose leader is not a node is visited. -/
theorem monitorPartitions_departed {before after : List PartitionLeadership}
    (hdeparted : l.leaderId ∉ cfg.nodes) :
    (monitorPartitions cfg env topic (before ++ l :: after) s).1 ≠ .ok () ∧
      (monitorPartitions cfg env topic (before ++ l :: after) s).2 =
        (monitorPartitions cfg env topic before s).2 := by
  rw [monitorPartitions_append]
  split
  · rename_i heq
    exact ⟨fun h => (by cases h), by rw [heq]⟩
  · rename_i heq
    have hother : l.leaderId ≠ cfg.self := fun heq => hdeparted (heq ▸ cfg.self_mem)
    have herror : ∀ x : Monitor,
        x.monitorPartition cfg env topic l = (.error .invalidClusterMetadata, x) := fun x => by
      unfold monitorPartition
      simp only
      rw [if_neg hother, if_pos (by simp [hdeparted])]
    rw [monitorPartitions, herror, heq]
    exact ⟨fun h => (by cases h), rfl⟩

/-- The partition `(t, p)` comes after `(topic, partition)`, or not at all. -/
def Behind (topics : List (String × Nat)) (topic : String) (partition : Nat) (t : String)
    (p : Nat) : Prop :=
  ∃ before n after, topics = before ++ (topic, n) :: after ∧ partition < n ∧
    topic ∉ before.map (·.1) ∧ t ∉ before.map (·.1) ∧ (t = topic → partition < p)

theorem monitorTopics_departed {topics : List (String × Nat)} (hkeyed : s.entries.Keyed)
    (hentry : s.entries topic l.partition = some l) (hdeparted : l.leaderId ∉ cfg.nodes)
    (hbehind : Behind topics topic l.partition t p) :
    (s.monitorTopics cfg env topics).1 ≠ .ok () ∧
      Keeps topic l.partition s (s.monitorTopics cfg env topics).2 ∧
      Keeps t p s (s.monitorTopics cfg env topics).2 := by
  obtain ⟨before, n, after, rfl, hn, hbefore, hearlier, hafter⟩ := hbehind
  obtain ⟨hkeyed₁, hkeeps₁⟩ := @monitorTopics_keeps cfg env s before hkeyed
  rw [monitorTopics_append]
  generalize monitorTopics cfg env before s = r at *
  obtain ⟨result, s₁⟩ := r
  cases result with
  | error e => exact ⟨fun h => (by cases h), hkeeps₁ _ _ hbefore, hkeeps₁ _ _ hearlier⟩
  | ok _ =>
    simp only
    obtain ⟨hkeyed₂, hkept⟩ := hkeyed₁.insertVacant cfg topic n
    have hensured := fun t p => @keeps_insertVacant cfg topic t p s₁ hkeyed₁ n
    rcases @monitorTopics_cons cfg env topic n after s₁ with ⟨e, heq⟩ | heq
    · rw [heq]
      exact ⟨fun h => (by cases h), (hkeeps₁ _ _ hbefore).trans (hensured _ _),
        (hkeeps₁ _ _ hearlier).trans (hensured _ _)⟩
    obtain ⟨visited, rest, hsplit, hvisited, _⟩ :=
      currents_split hkeyed₂ (hkept _ _ _ ((hkeeps₁ _ _ hbefore).entry l hentry)) hn
    rw [heq, hsplit]
    generalize s₁.entries.insertVacant cfg topic n = ensured at *
    obtain ⟨herror, hsame⟩ := @monitorPartitions_departed cfg env { s₁ with entries := ensured }
      topic l visited rest hdeparted
    have hvisits := (@monitorPartitions_keeps cfg env { s₁ with entries := ensured } topic visited
      hkeyed₂).2
    rw [← hsame] at hvisits
    have hdone : ∀ t p, t ∉ before.map (·.1) → (t = topic → l.partition ≤ p) → Keeps t p s
        (monitorPartitions cfg env topic (visited ++ l :: rest) { s₁ with entries := ensured }).2 :=
      fun t p ht hp => ((hkeeps₁ t p ht).trans (hensured t p)).trans (hvisits t p fun x hx heq =>
        Nat.not_le.2 (hvisited x hx) (heq.2 ▸ hp heq.1))
    generalize monitorPartitions cfg env topic (visited ++ l :: rest)
      { s₁ with entries := ensured } = r at *
    obtain ⟨result, s₂⟩ := r
    cases result with
    | error e =>
      exact ⟨fun h => (by cases h), hdone _ _ hbefore fun _ => Nat.le_refl _,
        hdone _ _ hearlier fun ht => Nat.le_of_lt (hafter ht)⟩
    | ok _ => exact absurd rfl herror

/-- Each cycle lists `(topic, partition)` before `(t, p)`, or gets no list; no leadership from
elsewhere replaces that of the first. -/
def ListedBehind (cfg : Settings) (topic : String) (partition : Nat) (t : String) (p : Nat)
    (s : Monitor) : Action → Prop
  | .cycle env => ∀ topics, env.topics = .ok topics → Behind topics topic partition t p
  | .apply t' l' => s.Replaces cfg t' l' → ¬ (t' = topic ∧ l'.partition = partition)
  | .ensureTopic _ _ => True

/-- The leadership of a departed leader stands, and nothing was done about `(t, p)`. -/
structure Starved (l : PartitionLeadership) (topic t : String) (p : Nat) (s₀ s : Monitor) :
    Prop where
  keyed : s.entries.Keyed
  entry : s.entries topic l.partition = some l
  failures : s.failures t p = s₀.failures t p
  unattended : s.trace.filter (MonitorEvent.attends t p) =
    s₀.trace.filter (MonitorEvent.attends t p)

theorem Starved.step {a : Action} {s₀ : Monitor} (h : Starved l topic t p s₀ s)
    (hdeparted : l.leaderId ∉ cfg.nodes) (ha : ListedBehind cfg topic l.partition t p s a)
    (hs : s.step cfg a = some s') : Starved l topic t p s₀ s' := by
  cases a with
  | cycle env =>
    cases hs
    unfold monitorPartitionLeaders
    split
    · exact h
    · rename_i topics htopics
      obtain ⟨_, hkept, hkeeps⟩ := monitorTopics_departed h.keyed h.entry hdeparted (ha _ htopics)
      exact ⟨(monitorTopics_keeps h.keyed).1, hkept.entry _ h.entry,
        hkeeps.failures.trans h.failures, hkeeps.unattended.trans h.unattended⟩
  | apply t' l' =>
    cases hs
    rcases apply_replaces s (fun _ => true) t' l' with hsame | ⟨hreplaces, hnew⟩
    · rwa [hsame, install_same]
    · rw [hnew]
      refine ⟨by rw [install_entries]; exact h.keyed.insert t' l', ?_,
        by rw [install_failures, h.failures], ?_⟩
      · rw [install_entries,
          Entries.insert_other fun heq => ha hreplaces ⟨heq.1.symm, heq.2.symm⟩, h.entry]
      · rw [← h.unattended]
        unfold install
        split
        · rfl
        · exact (keeps_record _ rfl).unattended
  | ensureTopic t' n =>
    cases hs
    obtain ⟨hkeyed, hkept⟩ := h.keyed.insertVacant cfg t' n
    exact ⟨hkeyed, hkept _ _ _ h.entry, h.failures, h.unattended⟩

/-- **A departed leader starves the partitions behind it.**  While the leader of a partition is not
a node of the cluster, every cycle ends with an error, and a partition that is listed behind it is
neither probed nor counted nor promoted, however long its own leader is silent. -/
theorem departed_leader_starves {acts : List Action} (hkeyed : s.entries.Keyed)
    (hentry : s.entries topic l.partition = some l) (hdeparted : l.leaderId ∉ cfg.nodes)
    (hacts : Along (step cfg) (ListedBehind cfg topic l.partition t p) s acts)
    (hr : run (step cfg) s acts = some s') :
    Along (step cfg) (fun s a => ∀ env, a = .cycle env →
        (s.monitorPartitionLeaders cfg env).1 ≠ .ok ()) s acts ∧
      s'.entries topic l.partition = some l ∧ s'.failures t p = s.failures t p ∧
      s'.trace.filter (MonitorEvent.attends t p) = s.trace.filter (MonitorEvent.attends t p) := by
  have hstart : Starved l topic t p s s := ⟨hkeyed, hentry, rfl, rfl⟩
  have hstep : ∀ x a x', Starved l topic t p s x → ListedBehind cfg topic l.partition t p x a →
      step cfg x a = some x' → Starved l topic t p s x' :=
    fun x a x' h ha hs => h.step hdeparted ha hs
  obtain ⟨_, hentry', hfailures, hunattended⟩ :=
    run_invariant hstep hstart hacts hr
  refine ⟨Along.of_invariant hstep (fun x a h ha env heq => ?_) hstart hacts,
    hentry', hfailures, hunattended⟩
  subst heq
  unfold monitorPartitionLeaders
  split
  · exact nofun
  · rename_i topics htopics
    exact (monitorTopics_departed h.keyed h.entry hdeparted (ha _ htopics)).1

/-- Broker 9 has left and is still the leader of partition 0; broker 2 leads partition 1 and does
not answer. -/
theorem departed_leader_starves_orders :
    ∃ s, run (step controllerOfThree) (start (ordersEntries.insert "orders" 0 ⟨0, 9, 4, 7⟩))
        [.cycle unanswered, .cycle unanswered, .cycle unanswered] = some s ∧
      s.entries "orders" 0 = some ⟨0, 9, 4, 7⟩ ∧ s.failures "orders" 1 = none ∧
      s.trace.filter (MonitorEvent.attends "orders" 1) = [] := by
  have hkeyed : (ordersEntries.insert "orders" 0 ⟨0, 9, 4, 7⟩).Keyed := by
    intro t p l hl
    unfold Entries.insert at hl
    split at hl
    · rename_i heq
      cases hl
      exact heq.2.symm
    · exact ordersEntries_keyed t p l hl
  have hbehind : ∀ x, ListedBehind controllerOfThree "orders" 0 "orders" 1 x
      (.cycle unanswered) := by
    intro _ topics htopics
    cases htopics
    exact ⟨[], 2, [], rfl, Nat.two_pos, List.not_mem_nil, List.not_mem_nil, fun _ => Nat.one_pos⟩
  have hacts : Along (step controllerOfThree) (ListedBehind controllerOfThree "orders" 0 "orders" 1)
      (start (ordersEntries.insert "orders" 0 ⟨0, 9, 4, 7⟩))
      [.cycle unanswered, .cycle unanswered, .cycle unanswered] :=
    ⟨hbehind _, fun _ _ => ⟨hbehind _, fun _ _ => ⟨hbehind _, fun _ _ => trivial⟩⟩⟩
  have hrun : run (step controllerOfThree)
      (start (ordersEntries.insert "orders" 0 ⟨0, 9, 4, 7⟩))
      [.cycle unanswered, .cycle unanswered, .cycle unanswered] = some _ := rfl
  obtain ⟨_, hentry, hfailures, hunattended⟩ := departed_leader_starves
    (l := ⟨0, 9, 4, 7⟩) (t := "orders") (p := 1) hkeyed rfl (by decide) hacts hrun
  exact ⟨_, hrun, hentry, hfailures, hunattended⟩

end Monitor

end SevlaMq.Broker

import Mathlib.Data.List.Nodup
import Mathlib.Data.Nat.ModEq

/-!
# Cluster membership, replica placement and the leadership registry entry

Model of `deterministic_leader` and `LeadershipRegistry::{ensure_topic, apply}` of
`crates/broker/src/leadership.rs` and of `is_partition_replica`, `replica_followers` of
`crates/broker/src/lib.rs`, for one partition: the registry is keyed by `(topic, partition)` and
every operation on it touches the entry of its own key only, so the entry of the partition at
hand is all a handler of that partition can see.

* `ClusterConfig` — the configuration accepted by `Config::cluster_nodes`; the checks made there
  are fields of the structure.
* `applyEntry` — `LeadershipRegistry::apply` on the current entry of the key.  Persistence is
  taken to succeed, so the stored entry is the entry in memory.
-/

set_option autoImplicit false

namespace SevlaMq.Cluster

abbrev BrokerId := Nat

/-- The cluster configuration of one partition: broker ids in the order of
`ClusterMetadata::nodes` (sorted by id), placement and acknowledgement policy. -/
structure ClusterConfig where
  nodes : List BrokerId
  partition : Nat
  replicationFactor : Nat
  minInSyncReplicas : Nat
  sorted : nodes.Pairwise (· < ·)
  replication_le : replicationFactor ≤ nodes.length
  min_pos : 0 < minInSyncReplicas
  min_le : minInSyncReplicas ≤ replicationFactor

namespace ClusterConfig

variable (cfg : ClusterConfig)

/-- The controller is the first node. -/
def controller : BrokerId := cfg.nodes.headD 0

def leaderIndex : Nat := cfg.partition % cfg.nodes.length

def deterministicLeader : BrokerId := cfg.nodes.getD cfg.leaderIndex 0

/-- The brokers `is_partition_replica` accepts, in placement order. -/
def replicaSet : List BrokerId :=
  (List.range cfg.replicationFactor).map fun i =>
    cfg.nodes.getD ((cfg.leaderIndex + i) % cfg.nodes.length) 0

def isPartitionReplica (b : BrokerId) : Bool := cfg.replicaSet.contains b

/-- `Replicator::replica_followers` on broker `self`. -/
def replicaFollowers (self : BrokerId) : List BrokerId := cfg.replicaSet.filter (· ≠ self)

theorem nodes_pos : 0 < cfg.nodes.length := by
  have h1 := cfg.min_pos
  have h2 := cfg.min_le
  have h3 := cfg.replication_le
  omega

theorem leaderIndex_lt : cfg.leaderIndex < cfg.nodes.length := Nat.mod_lt _ cfg.nodes_pos

theorem getD_mem {i : Nat} (h : i < cfg.nodes.length) : cfg.nodes.getD i 0 ∈ cfg.nodes := by
  rw [List.getD_eq_getElem?_getD, List.getElem?_eq_getElem h]
  exact List.getElem_mem h

theorem deterministicLeader_mem : cfg.deterministicLeader ∈ cfg.nodes :=
  cfg.getD_mem cfg.leaderIndex_lt

theorem replicaSet_subset {b : BrokerId} (h : b ∈ cfg.replicaSet) : b ∈ cfg.nodes := by
  unfold replicaSet at h
  obtain ⟨i, _, rfl⟩ := List.mem_map.1 h
  exact cfg.getD_mem (Nat.mod_lt _ cfg.nodes_pos)

theorem mem_replicaFollowers {self b : BrokerId} :
    b ∈ cfg.replicaFollowers self ↔ b ∈ cfg.replicaSet ∧ b ≠ self := by
  simp [replicaFollowers]

theorem nodes_nodup : cfg.nodes.Nodup := cfg.sorted.imp fun h => Nat.ne_of_lt h

/-- Placement visits each node at most once. -/
theorem replicaSet_nodup : cfg.replicaSet.Nodup := by
  unfold replicaSet
  refine List.Nodup.map_on ?_ List.nodup_range
  intro i hi j hj hij
  have hi' := List.mem_range.1 hi
  have hj' := List.mem_range.1 hj
  have hrf := cfg.replication_le
  have hpos := cfg.nodes_pos
  have hmi := Nat.mod_lt (cfg.leaderIndex + i) hpos
  have hmj := Nat.mod_lt (cfg.leaderIndex + j) hpos
  simp only [List.getD_eq_getElem?_getD, List.getElem?_eq_getElem hmi,
    List.getElem?_eq_getElem hmj, Option.getD_some] at hij
  have hmod := (cfg.nodes_nodup.getElem_inj_iff).1 hij
  have hci : Nat.ModEq cfg.nodes.length i j := Nat.ModEq.add_left_cancel' cfg.leaderIndex hmod
  exact hci.eq_of_lt_of_lt (by omega) (by omega)

theorem replicaSet_length : cfg.replicaSet.length = cfg.replicationFactor := by
  simp [replicaSet]

/-- The leader comes first. -/
theorem deterministicLeader_mem_replicaSet : cfg.deterministicLeader ∈ cfg.replicaSet := by
  have hpos : 0 < cfg.replicationFactor := Nat.lt_of_lt_of_le cfg.min_pos cfg.min_le
  refine List.mem_map.2 ⟨0, List.mem_range.2 hpos, ?_⟩
  rw [Nat.add_zero, Nat.mod_eq_of_lt cfg.leaderIndex_lt, deterministicLeader]

/-- The followers of a replica are the other replicas. -/
theorem replicaFollowers_length {self : BrokerId} (h : self ∈ cfg.replicaSet) :
    (cfg.replicaFollowers self).length + 1 = cfg.replicationFactor := by
  have herase : cfg.replicaSet.erase self = cfg.replicaFollowers self := by
    rw [cfg.replicaSet_nodup.erase_eq_filter]
    refine List.filter_congr fun b _ => ?_
    rw [Bool.eq_iff_iff, bne_iff_ne, decide_eq_true_iff]
  have hlen := List.length_erase_add_one h
  rwa [herase, cfg.replicaSet_length] at hlen

/-- A node with a follower is not alone. -/
theorem length_ne_one {self b : BrokerId} (hs : self ∈ cfg.nodes)
    (hb : b ∈ cfg.replicaFollowers self) : cfg.nodes.length ≠ 1 := by
  intro hlen
  obtain ⟨n, hn⟩ := List.length_eq_one_iff.1 hlen
  obtain ⟨hmem, hne⟩ := cfg.mem_replicaFollowers.1 hb
  have hbn := cfg.replicaSet_subset hmem
  rw [hn] at hs hbn
  exact hne ((List.mem_singleton.1 hbn).trans (List.mem_singleton.1 hs).symm)

end ClusterConfig

/-- Three brokers; partition 1 has its three replicas on all of them and is led by broker 2. -/
def threeNodes : ClusterConfig where
  nodes := [1, 2, 3]
  partition := 1
  replicationFactor := 3
  minInSyncReplicas := 2
  sorted := by decide
  replication_le := by decide
  min_pos := by decide
  min_le := by decide

/-! ## The registry entry -/

structure PartitionLeadership where
  partition : Nat
  leaderId : BrokerId
  leaderEpoch : Nat
  highWatermark : Nat
  deriving DecidableEq, Repr

inductive LeadershipError where
  | unknownBroker (id : BrokerId)
  | staleEpoch
  deriving DecidableEq, Repr

/-- The entry `ensure_topic` inserts for a partition it does not know. -/
def initialLeadership (cfg : ClusterConfig) : PartitionLeadership :=
  ⟨cfg.partition, cfg.deterministicLeader, 0, 0⟩

/-- `LeadershipRegistry::apply`: the entry after applying `l`. -/
def applyEntry (cfg : ClusterConfig) (current : Option PartitionLeadership)
    (l : PartitionLeadership) : Except LeadershipError PartitionLeadership :=
  if cfg.nodes.contains l.leaderId = false then .error (.unknownBroker l.leaderId) else
  match current with
  | some c =>
    if l.leaderEpoch < c.leaderEpoch ∨
        (l.leaderEpoch = c.leaderEpoch ∧
          (l.leaderId ≠ c.leaderId ∨ l.highWatermark < c.highWatermark)) then
      .error .staleEpoch
    else if l = c then .ok c else .ok l
  | none => .ok l

/-- An accepted leadership becomes the entry; it names a cluster node and is not older than the
entry it replaces. -/
theorem applyEntry_ok {cfg : ClusterConfig} {current : Option PartitionLeadership}
    {l e : PartitionLeadership} (h : applyEntry cfg current l = .ok e) :
    e = l ∧ l.leaderId ∈ cfg.nodes ∧ ∀ c, current = some c →
      c.leaderEpoch < l.leaderEpoch ∨
        (c.leaderEpoch = l.leaderEpoch ∧ c.leaderId = l.leaderId ∧
          c.highWatermark ≤ l.highWatermark) := by
  unfold applyEntry at h
  split at h
  · cases h
  rename_i hn
  have hmem : l.leaderId ∈ cfg.nodes := by simpa using hn
  split at h
  · rename_i c
    split at h
    · cases h
    · rename_i hst
      have hel : e = l := by
        split at h
        · rename_i hlc; cases h; exact hlc.symm
        · cases h; rfl
      refine ⟨hel, hmem, fun c' hc => ?_⟩
      cases hc
      have h1 := not_or.1 hst
      rcases Nat.lt_or_ge c.leaderEpoch l.leaderEpoch with h2 | h2
      · exact Or.inl h2
      · have heq : l.leaderEpoch = c.leaderEpoch := by omega
        have h3 := not_and.1 h1.2 heq
        have h4 := not_or.1 h3
        exact Or.inr ⟨heq.symm, (not_not.1 h4.1).symm, by omega⟩
  · cases h
    exact ⟨rfl, hmem, fun c hc => by cases hc⟩

/-- A leadership of a known broker with a newer epoch is accepted. -/
theorem applyEntry_newer {cfg : ClusterConfig} {c l : PartitionLeadership}
    (hn : l.leaderId ∈ cfg.nodes) (he : c.leaderEpoch < l.leaderEpoch) :
    applyEntry cfg (some c) l = .ok l := by
  have hne : l ≠ c := fun h => by rw [h] at he; exact Nat.lt_irrefl _ he
  have hstale : ¬ (l.leaderEpoch < c.leaderEpoch ∨ (l.leaderEpoch = c.leaderEpoch ∧
      (l.leaderId ≠ c.leaderId ∨ l.highWatermark < c.highWatermark))) := by omega
  unfold applyEntry
  rw [if_neg (by simp [hn])]
  simp only
  rw [if_neg hstale, if_neg hne]

/-- A leadership of the same epoch and leader is accepted unless it lowers the watermark. -/
theorem applyEntry_raised {cfg : ClusterConfig} {c l : PartitionLeadership}
    (hn : l.leaderId ∈ cfg.nodes) (he : l.leaderEpoch = c.leaderEpoch) (hl : l.leaderId = c.leaderId)
    (hw : c.highWatermark ≤ l.highWatermark) : applyEntry cfg (some c) l = .ok l := by
  have hstale : ¬ (l.leaderEpoch < c.leaderEpoch ∨ (l.leaderEpoch = c.leaderEpoch ∧
      (l.leaderId ≠ c.leaderId ∨ l.highWatermark < c.highWatermark))) := by
    rintro (hlt | ⟨_, hne | hlt⟩)
    · omega
    · exact hne hl
    · omega
  unfold applyEntry
  rw [if_neg (by simp [hn])]
  simp only
  rw [if_neg hstale]
  split
  · rename_i heq
    rw [heq]
  · rfl

end SevlaMq.Cluster

import Mathlib.Data.Set.Card
import SevlaMq.Cluster.Leadership
import SevlaMq.Common.Config
import SevlaMq.Protocol.Messages

/-!
# Where the replicas of a partition are

Each broker sorts the nodes of its own configuration file and computes the placement of a partition
from them, in three functions: `deterministic_leader` of `crates/broker/src/leadership.rs`,
`is_partition_replica` and `Replicator::replica_followers` of `crates/broker/src/lib.rs`.

* `clusterMetadata` — the metadata `run` builds from a configuration.
* `deterministicLeader`, `isPartitionReplica`, `Replicator.replicaFollowers` — with `none` where the
  source panics: a remainder by zero, an index past the end.
* `placement` — the `ClusterConfig` of an accepted configuration; `deterministicLeader_eq`,
  `isPartitionReplica_eq`, `replicaFollowers_eq` — the three functions compute its placement.
* `brokers_agree` — brokers whose configurations list the same nodes agree on it.
-/

set_option autoImplicit false

namespace SevlaMq.Cluster

open SevlaMq.Common (Config ConfigError ClusterNodeConfig Accepted clusterNodes_spec)
open SevlaMq.Protocol (ClusterNode ClusterMetadata)

/-! ## Cluster metadata -/

def clusterNode (node : ClusterNodeConfig) : ClusterNode :=
  ⟨node.id, node.host, node.port, node.adminPort, node.replicationPort⟩

/-- The metadata of a broker in `run`. -/
def clusterMetadata (config : Config) : Except ConfigError ClusterMetadata :=
  match config.clusterNodes with
  | .error e => .error e
  | .ok nodes => .ok ⟨config.cluster.brokerId, nodes.map clusterNode⟩

/-- `value % self.cluster.nodes.len()`; a `usize` holds every partition. -/
def leaderIndex (cluster : ClusterMetadata) (partition : UInt32) : Option Nat :=
  if cluster.nodes.length = 0 then none else some (partition.toNat % cluster.nodes.length)

/-- The controller is the first node. -/
def controller (cluster : ClusterMetadata) : Option ClusterNode := cluster.nodes.head?

/-- `deterministic_leader`. -/
def deterministicLeader (cluster : ClusterMetadata) (partition : UInt32) : Option UInt32 := do
  let index ← leaderIndex cluster partition
  let node ← cluster.nodes[index]?
  return node.id

/-- `is_partition_replica`. -/
def isPartitionReplica (cluster : ClusterMetadata) (brokerId partition : UInt32)
    (replicationFactor : Nat) : Option Bool := do
  let leaderIndex ← leaderIndex cluster partition
  let nodes ← (List.range replicationFactor).mapM fun offset =>
    cluster.nodes[(leaderIndex + offset) % cluster.nodes.length]?
  return nodes.any fun node => node.id = brokerId

/-- The fields of `Replicator` that `replica_followers` reads. -/
structure Replicator where
  cluster : ClusterMetadata
  replicationFactor : Nat

/-- `Replicator::replica_followers`. -/
def Replicator.replicaFollowers (r : Replicator) (partition : UInt32) :
    Option (List ClusterNode) := do
  let leaderIndex ← leaderIndex r.cluster partition
  let nodes ← (List.range r.replicationFactor).mapM fun offset =>
    r.cluster.nodes[(leaderIndex + offset) % r.cluster.nodes.length]?
  return nodes.filter fun node => node.id ≠ r.cluster.respondingBrokerId

/-- The brokers that take themselves, or any other broker, for a replica of the partition. -/
def replicas (cluster : ClusterMetadata) (partition : UInt32) (replicationFactor : Nat) :
    Set UInt32 :=
  {b | isPartitionReplica cluster b partition replicationFactor = some true}

/-! ## The placement of an accepted configuration -/

section Placement

variable {config : Config} {cluster : ClusterMetadata}

theorem clusterMetadata_spec (h : clusterMetadata config = .ok cluster) :
    cluster.respondingBrokerId = config.cluster.brokerId ∧
      ∃ listed nodes, Accepted config listed nodes ∧ cluster.nodes = nodes.map clusterNode := by
  unfold clusterMetadata at h
  split at h
  · cases h
  · rename_i nodes hnodes
    cases h
    obtain ⟨listed, haccepted⟩ := clusterNodes_spec hnodes
    exact ⟨rfl, listed, nodes, haccepted, rfl⟩

theorem clusterMetadata_increasing (h : clusterMetadata config = .ok cluster) :
    (cluster.nodes.map (·.id.toNat)).Pairwise (· < ·) := by
  obtain ⟨_, listed, nodes, haccepted, hnodes⟩ := clusterMetadata_spec h
  have hids := haccepted.increasing
  rw [List.pairwise_map] at hids ⊢
  rw [hnodes, List.pairwise_map]
  exact hids.imp UInt32.lt_iff_toNat_lt.1

theorem clusterMetadata_length (h : clusterMetadata config = .ok cluster) :
    config.cluster.replicationFactor ≤ (cluster.nodes.map (·.id.toNat)).length := by
  obtain ⟨_, listed, nodes, haccepted, hnodes⟩ := clusterMetadata_spec h
  rw [hnodes, List.length_map, List.length_map, haccepted.perm.length_eq]
  exact haccepted.replication_le

theorem clusterMetadata_min (h : clusterMetadata config = .ok cluster) :
    0 < config.cluster.minInSyncReplicas ∧
      config.cluster.minInSyncReplicas ≤ config.cluster.replicationFactor := by
  obtain ⟨_, _, _, haccepted, _⟩ := clusterMetadata_spec h
  exact ⟨haccepted.min_pos, haccepted.min_le⟩

/-- What the replication code of a partition works with. -/
def placement (config : Config) {cluster : ClusterMetadata}
    (h : clusterMetadata config = .ok cluster) (partition : UInt32) : ClusterConfig where
  nodes := cluster.nodes.map (·.id.toNat)
  partition := partition.toNat
  replicationFactor := config.cluster.replicationFactor
  minInSyncReplicas := config.cluster.minInSyncReplicas
  sorted := clusterMetadata_increasing h
  replication_le := clusterMetadata_length h
  min_pos := (clusterMetadata_min h).1
  min_le := (clusterMetadata_min h).2

variable (h : clusterMetadata config = .ok cluster) (partition : UInt32)

/-- The indices of the source are within the nodes, and lead to the placement. -/
theorem placed_nodes : ∃ nodes : List ClusterNode,
    ((List.range config.cluster.replicationFactor).mapM fun offset =>
      cluster.nodes[(partition.toNat % cluster.nodes.length + offset) % cluster.nodes.length]?) =
        some nodes ∧
    nodes.map (·.id.toNat) = (placement config h partition).replicaSet := by
  have hpos : 0 < cluster.nodes.length := by
    have hnodes := (placement config h partition).nodes_pos
    rwa [placement, List.length_map] at hnodes
  have hlt : ∀ i, i % cluster.nodes.length < cluster.nodes.length := fun i => Nat.mod_lt i hpos
  refine ⟨(List.range config.cluster.replicationFactor).map fun offset =>
    cluster.nodes.get ⟨_, hlt (partition.toNat % cluster.nodes.length + offset)⟩, ?_, ?_⟩
  · have hget : (fun offset =>
        cluster.nodes[(partition.toNat % cluster.nodes.length + offset) % cluster.nodes.length]?) =
        fun offset => pure (cluster.nodes.get
          ⟨_, hlt (partition.toNat % cluster.nodes.length + offset)⟩) := by
      funext offset
      exact List.getElem?_eq_getElem (hlt _)
    rw [hget, List.mapM_pure]
    rfl
  · rw [List.map_map, ClusterConfig.replicaSet]
    refine List.map_congr_left fun offset _ => ?_
    simp only [placement, ClusterConfig.leaderIndex, List.length_map, Function.comp_apply,
      List.getD_eq_getElem?_getD, List.getElem?_map, List.getElem?_eq_getElem (hlt _),
      Option.map_some, Option.getD_some, List.get_eq_getElem]

include h in
theorem leaderIndex_eq : leaderIndex cluster partition =
    some (partition.toNat % cluster.nodes.length) := by
  have hpos := (placement config h partition).nodes_pos
  rw [placement, List.length_map] at hpos
  rw [leaderIndex, if_neg (Nat.ne_of_gt hpos)]

/-- **`deterministic_leader`** computes the leader of the placement. -/
theorem deterministicLeader_eq : ∃ leader, deterministicLeader cluster partition = some leader ∧
    leader.toNat = (placement config h partition).deterministicLeader := by
  have hpos := (placement config h partition).nodes_pos
  rw [placement, List.length_map] at hpos
  have hlt := Nat.mod_lt partition.toNat hpos
  refine ⟨(cluster.nodes.get ⟨_, hlt⟩).id, ?_, ?_⟩
  · unfold deterministicLeader
    rw [leaderIndex_eq h partition]
    simp only [Option.bind_eq_bind, Option.bind_some, List.getElem?_eq_getElem hlt,
      List.get_eq_getElem, Option.pure_def]
  · simp only [placement, ClusterConfig.deterministicLeader, ClusterConfig.leaderIndex,
      List.length_map, List.getD_eq_getElem?_getD, List.getElem?_map, List.getElem?_eq_getElem hlt,
      Option.map_some, Option.getD_some, List.get_eq_getElem]

/-- **`is_partition_replica`** decides whether a broker is in the placement. -/
theorem isPartitionReplica_eq (b : UInt32) :
    isPartitionReplica cluster b partition config.cluster.replicationFactor =
      some ((placement config h partition).isPartitionReplica b.toNat) := by
  obtain ⟨nodes, hnodes, hset⟩ := placed_nodes h partition
  unfold isPartitionReplica
  rw [leaderIndex_eq h partition]
  simp only [Option.bind_eq_bind, Option.bind_some, hnodes, Option.pure_def, Option.some.injEq]
  rw [ClusterConfig.isPartitionReplica, ← hset, Bool.eq_iff_iff]
  simp [UInt32.toNat_inj]

/-- **`replica_followers`** on broker `self` lists the rest of the placement. -/
theorem replicaFollowers_eq (self : UInt32) : ∃ followers,
    (Replicator.mk ⟨self, cluster.nodes⟩ config.cluster.replicationFactor).replicaFollowers
      partition = some followers ∧
    followers.map (·.id.toNat) = (placement config h partition).replicaFollowers self.toNat := by
  obtain ⟨nodes, hnodes, hset⟩ := placed_nodes h partition
  have hindex : leaderIndex ⟨self, cluster.nodes⟩ partition =
      some (partition.toNat % cluster.nodes.length) := leaderIndex_eq h partition
  unfold Replicator.replicaFollowers
  rw [hindex]
  simp only [Option.bind_eq_bind, Option.bind_some, hnodes, Option.pure_def, Option.some.injEq]
  refine ⟨_, rfl, ?_⟩
  rw [ClusterConfig.replicaFollowers, ← hset, List.filter_map]
  congr 1
  refine List.filter_congr fun node _ => ?_
  simp [UInt32.toNat_inj]

theorem mem_replicas {b : UInt32} :
    b ∈ replicas cluster partition config.cluster.replicationFactor ↔
      b.toNat ∈ (placement config h partition).replicaSet := by
  rw [replicas, Set.mem_ofPred_eq, isPartitionReplica_eq h partition b, Option.some.injEq,
    ClusterConfig.isPartitionReplica, List.contains_iff_mem]

include h in
/-- As many brokers as the replication factor says are replicas. -/
theorem replicas_ncard : (replicas cluster partition config.cluster.replicationFactor).ncard =
    config.cluster.replicationFactor := by
  obtain ⟨nodes, _, hset⟩ := placed_nodes h partition
  have hids : (nodes.map (·.id)).map (·.toNat) = (placement config h partition).replicaSet := by
    rw [List.map_map]
    exact hset
  have hnodup : (nodes.map (·.id)).Nodup :=
    .of_map _ (hids ▸ (placement config h partition).replicaSet_nodup)
  have hreplicas : replicas cluster partition config.cluster.replicationFactor =
      ((nodes.map (·.id)).toFinset : Set UInt32) := by
    ext b
    rw [mem_replicas h partition, ← hids, List.mem_map_of_injective fun _ _ => UInt32.toNat_inj.1,
      Finset.mem_coe, List.mem_toFinset]
  have hlength : (nodes.map (·.id)).length = config.cluster.replicationFactor := by
    have hlen := (placement config h partition).replicaSet_length
    rwa [← hids, List.length_map] at hlen
  rw [hreplicas, Set.ncard_coe_finset, List.toFinset_card_of_nodup hnodup, hlength]

include h in
/-- Every follower is listed once. -/
theorem replicaFollowers_spec (self : UInt32) : ∃ followers,
    (Replicator.mk ⟨self, cluster.nodes⟩ config.cluster.replicationFactor).replicaFollowers
      partition = some followers ∧
    (followers.map (·.id)).Nodup ∧ ∀ b, b ∈ followers.map (·.id) ↔
      b ∈ replicas cluster partition config.cluster.replicationFactor ∧ b ≠ self := by
  obtain ⟨followers, hfollowers, hset⟩ := replicaFollowers_eq h partition self
  have hids : (followers.map (·.id)).map (·.toNat) =
      (placement config h partition).replicaFollowers self.toNat := by
    rw [List.map_map]
    exact hset
  have hnodup : ((placement config h partition).replicaFollowers self.toNat).Nodup :=
    (placement config h partition).replicaSet_nodup.filter _
  refine ⟨followers, hfollowers, .of_map _ (hids ▸ hnodup), fun b => ?_⟩
  rw [mem_replicas h partition, ← List.mem_map_of_injective fun _ _ => UInt32.toNat_inj.1, hids,
    ClusterConfig.mem_replicaFollowers, ne_eq, ne_eq, UInt32.toNat_inj]

end Placement

/-! ## Two brokers -/

/-- Configurations that list the same nodes give the same node order. -/
theorem same_order {config config' : Config} {cluster cluster' : ClusterMetadata}
    (h : clusterMetadata config = .ok cluster) (h' : clusterMetadata config' = .ok cluster')
    (hne : config.cluster.nodes ≠ []) (hperm : config.cluster.nodes.Perm config'.cluster.nodes) :
    cluster.nodes = cluster'.nodes := by
  obtain ⟨_, listed, nodes, haccepted, hnodes⟩ := clusterMetadata_spec h
  obtain ⟨_, listed', nodes', haccepted', hnodes'⟩ := clusterMetadata_spec h'
  have hne' : config'.cluster.nodes ≠ [] := fun hnil => hne (hnil ▸ hperm).eq_nil
  have hlisted := haccepted.given
  have hlisted' := haccepted'.given
  rw [Config.listedNodes, if_neg hne, Option.some.injEq] at hlisted
  rw [Config.listedNodes, if_neg hne', Option.some.injEq] at hlisted'
  rw [hlisted, hlisted'] at hperm
  rw [hnodes, hnodes', haccepted.same_nodes haccepted' hperm]

/-- The functions of the placement look at the nodes only. -/
theorem deterministicLeader_congr {cluster cluster' : ClusterMetadata}
    (h : cluster.nodes = cluster'.nodes) (partition : UInt32) :
    deterministicLeader cluster partition = deterministicLeader cluster' partition := by
  unfold deterministicLeader leaderIndex
  rw [h]

theorem isPartitionReplica_congr {cluster cluster' : ClusterMetadata}
    (h : cluster.nodes = cluster'.nodes) (b partition : UInt32) (replicationFactor : Nat) :
    isPartitionReplica cluster b partition replicationFactor =
      isPartitionReplica cluster' b partition replicationFactor := by
  unfold isPartitionReplica leaderIndex
  rw [h]

/-- **All brokers compute the same placement.**  Two accepted configurations that list the same
nodes in any order, with one replication factor, give the same node order, controller, leaders and
replicas; there are as many replicas as the factor says, the leader is one of them, and on any
broker `self` its followers are the others, each once. -/
theorem brokers_agree {config config' : Config} {cluster cluster' : ClusterMetadata}
    (h : clusterMetadata config = .ok cluster) (h' : clusterMetadata config' = .ok cluster')
    (hne : config.cluster.nodes ≠ []) (hperm : config.cluster.nodes.Perm config'.cluster.nodes)
    (hrf : config.cluster.replicationFactor = config'.cluster.replicationFactor) :
    let rf := config.cluster.replicationFactor
    cluster.nodes = cluster'.nodes ∧
    (∃ node, controller cluster = some node ∧ controller cluster' = some node) ∧
    ∀ partition : UInt32,
      replicas cluster partition rf =
        replicas cluster' partition config'.cluster.replicationFactor ∧
      (∀ b, isPartitionReplica cluster b partition rf ≠ none) ∧
      (replicas cluster partition rf).ncard = rf ∧
      (∃ leader ∈ replicas cluster partition rf,
        deterministicLeader cluster partition = some leader ∧
        deterministicLeader cluster' partition = some leader) ∧
      ∀ self : UInt32, ∃ followers,
        (Replicator.mk ⟨self, cluster.nodes⟩ rf).replicaFollowers partition = some followers ∧
        (followers.map (·.id)).Nodup ∧
        ∀ b, b ∈ followers.map (·.id) ↔ b ∈ replicas cluster partition rf ∧ b ≠ self := by
  have hnodes := same_order h h' hne hperm
  refine ⟨hnodes, ?_, fun partition => ⟨?_, fun b => ?_, replicas_ncard h partition, ?_,
    replicaFollowers_spec h partition⟩⟩
  · have hpos := (placement config h 0).nodes_pos
    rw [placement, List.length_map] at hpos
    obtain ⟨node, rest, hcons⟩ := List.exists_cons_of_length_pos hpos
    refine ⟨node, ?_, ?_⟩
    · rw [controller, hcons, List.head?_cons]
    · rw [controller, ← hnodes, hcons, List.head?_cons]
  · ext b
    rw [replicas, replicas, Set.mem_ofPred_eq, Set.mem_ofPred_eq,
      isPartitionReplica_congr hnodes, hrf]
  · rw [isPartitionReplica_eq h partition b]
    exact Option.some_ne_none _
  · obtain ⟨leader, hleader, hplaced⟩ := deterministicLeader_eq h partition
    refine ⟨leader, ?_, hleader, ?_⟩
    · rw [mem_replicas h partition, hplaced]
      exact (placement config h partition).deterministicLeader_mem_replicaSet
    · rw [← deterministicLeader_congr hnodes, hleader]

/-- Node `id` of a cluster on one host. -/
def localNode (id : UInt32) (port : UInt16) : ClusterNodeConfig :=
  ⟨id, "127.0.0.1", port, port + 1, port + 2⟩

/-- The file of broker `brokerId`: two replicas of each partition. -/
def localConfig (brokerId : UInt32) (nodes : List ClusterNodeConfig) : Config :=
  ⟨⟨"127.0.0.1", 7400⟩, ⟨7401⟩, ⟨brokerId, 2, 1, nodes⟩⟩

/-- The metadata of broker `brokerId`. -/
def localCluster (brokerId : UInt32) : ClusterMetadata :=
  ⟨brokerId, [localNode 1 7400, localNode 2 7500, localNode 3 7600].map clusterNode⟩

theorem brokers_agree_local :
    clusterMetadata (localConfig 1 [localNode 3 7600, localNode 1 7400, localNode 2 7500]) =
      .ok (localCluster 1) ∧
    clusterMetadata (localConfig 2 [localNode 2 7500, localNode 3 7600, localNode 1 7400]) =
      .ok (localCluster 2) ∧
    replicas (localCluster 1) 5 2 = replicas (localCluster 2) 5 2 ∧
    (replicas (localCluster 1) 5 2).ncard = 2 ∧
    deterministicLeader (localCluster 2) 5 = some 3 := by
  have h : clusterMetadata (localConfig 1 [localNode 3 7600, localNode 1 7400, localNode 2 7500]) =
      .ok (localCluster 1) := by decide +kernel
  have h' : clusterMetadata (localConfig 2 [localNode 2 7500, localNode 3 7600, localNode 1 7400]) =
      .ok (localCluster 2) := by decide +kernel
  obtain ⟨_, _, hplaced⟩ := brokers_agree h h' (by decide) (by decide) rfl
  obtain ⟨hsame, _, hcard, _⟩ := hplaced 5
  exact ⟨h, h', hsame, hcard, by decide⟩

end SevlaMq.Cluster

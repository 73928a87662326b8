import Mathlib.Data.List.Sort

/-!
# The cluster section of a configuration

Model of `Config::cluster_nodes` of `crates/common/src/lib.rs`.

* `parsesSocketAddr` — whether a text is accepted by `SocketAddr::from_str` of the standard library.
* `Config.clusterNodes` — the checks, and the nodes in the order of their ids.
* `clusterNodes_spec` — what an accepted configuration satisfies; `Accepted.same_nodes` — the
  order in which the nodes are listed does not matter.
-/

set_option autoImplicit false

namespace SevlaMq.Common

/-! ## Socket addresses -/

/-- `read_given_char`; a reader returns the text that is left. -/
def readGivenChar (c : Char) : List Char → Option (List Char)
  | [] => none
  | x :: rest => if x = c then some rest else none

/-- `char::to_digit`. -/
def toDigit (radix : Nat) (c : Char) : Option Nat :=
  let value :=
    if '0' ≤ c ∧ c ≤ '9' then c.toNat - '0'.toNat
    else if 'a' ≤ c ∧ c ≤ 'z' then c.toNat - 'a'.toNat + 10
    else if 'A' ≤ c ∧ c ≤ 'Z' then c.toNat - 'A'.toNat + 10
    else radix
  if value < radix then some value else none

/-- `read_number` for a type with the largest value `limit`. -/
def readNumber (radix : Nat) (maxDigits : Option Nat) (allowZeroPrefix : Bool) (limit : Nat)
    (text : List Char) : Option (List Char) :=
  let digits := text.takeWhile fun c => (toDigit radix c).isSome
  let value := digits.foldl (fun n c => radix * n + (toDigit radix c).getD 0) 0
  if digits = [] ∨ maxDigits.any (· < digits.length) ∨ limit < value then none
  else if allowZeroPrefix = false ∧ digits.head? = some '0' ∧ 1 < digits.length then none
  else some (text.drop digits.length)

/-- `read_separator`: every element but the first comes after a separator. -/
def readSeparator (separator : Char) (index : Nat) (inner : List Char → Option (List Char))
    (text : List Char) : Option (List Char) :=
  if 0 < index then (readGivenChar separator text).bind inner else inner text

/-- `read_ipv4_addr`. -/
def readIpv4Addr (text : List Char) : Option (List Char) :=
  (List.range 4).foldlM
    (fun text index => readSeparator '.' index (readNumber 10 (some 3) false 255) text) text

/-- `read_groups` with `slots` of `limit` groups to go: how many were read, and whether the last two
were an IPv4 address. -/
def readGroups (limit : Nat) : Nat → Nat → List Char → Nat × Bool × List Char
  | 0, index, text => (index, false, text)
  | slots + 1, index, text =>
    match if index < limit - 1 then readSeparator ':' index readIpv4Addr text else none with
    | some text => (index + 2, true, text)
    | none =>
      match readSeparator ':' index (readNumber 16 (some 4) true 0xFFFF) text with
      | none => (index, false, text)
      | some text => readGroups limit slots (index + 1) text

/-- `read_ipv6_addr`. -/
def readIpv6Addr (text : List Char) : Option (List Char) :=
  let (headSize, headIpv4, text) := readGroups 8 8 0 text
  if headSize = 8 then some text
  else if headIpv4 then none
  else
    (readGivenChar ':' text).bind fun text => (readGivenChar ':' text).bind fun text =>
      let limit := 8 - (headSize + 1)
      some (readGroups limit limit 0 text).2.2

/-- `read_port`. -/
def readPort (text : List Char) : Option (List Char) :=
  (readGivenChar ':' text).bind (readNumber 10 none true 0xFFFF)

/-- `read_scope_id`, which may be missing. -/
def readScopeId (text : List Char) : List Char :=
  ((readGivenChar '%' text).bind (readNumber 10 none true 0xFFFFFFFF)).getD text

/-- `read_socket_addr`. -/
def readSocketAddr (text : List Char) : Option (List Char) :=
  match (readIpv4Addr text).bind readPort with
  | some text => some text
  | none =>
    (readGivenChar '[' text).bind fun text => (readIpv6Addr text).bind fun text =>
      (readGivenChar ']' (readScopeId text)).bind readPort

/-- `SocketAddr::from_str` succeeds: nothing is left of the text. -/
def parsesSocketAddr (text : List Char) : Bool := readSocketAddr text = some []

/-! ## Configuration -/

structure BrokerConfig where
  host : String
  port : UInt16
  deriving DecidableEq, Repr

structure AdminConfig where
  port : UInt16
  deriving DecidableEq, Repr

structure ClusterNodeConfig where
  id : UInt32
  host : String
  port : UInt16
  adminPort : UInt16
  replicationPort : UInt16
  deriving DecidableEq, Repr

structure ClusterConfig where
  brokerId : UInt32
  replicationFactor : Nat
  minInSyncReplicas : Nat
  nodes : List ClusterNodeConfig
  deriving DecidableEq, Repr

/-- The fields of `Config` that `cluster_nodes` reads. -/
structure Config where
  broker : BrokerConfig
  admin : AdminConfig
  cluster : ClusterConfig
  deriving DecidableEq, Repr

inductive ConfigError where
  | invalidCluster
  | localBrokerMissing
  | invalidReplicationPolicy
  deriving DecidableEq, Repr

/-- `HashSet::insert`, refused for a member. -/
def insertNew {α : Type} [DecidableEq α] (x : α) (s : List α) : Option (List α) :=
  if x ∈ s then none else some (x :: s)

/-- `format!("{}:{port}", node.host)`. -/
def endpointText (host : String) (port : UInt16) : List Char :=
  host.toList ++ ':' :: Nat.toDigits 10 port.toNat

/-- The checks of one node, with the ids and endpoints of those before it. -/
def checkNode (node : ClusterNodeConfig) (ids : List UInt32) (endpoints : List (String × UInt16)) :
    Option (List UInt32 × List (String × UInt16)) :=
  if node.id = 0 then none
  else do
    let ids ← insertNew node.id ids
    let endpoints ← insertNew (node.host, node.port) endpoints
    let endpoints ← insertNew (node.host, node.adminPort) endpoints
    let endpoints ← insertNew (node.host, node.replicationPort) endpoints
    if [node.port, node.adminPort, node.replicationPort].all
        fun port => parsesSocketAddr (endpointText node.host port) then some (ids, endpoints)
    else none

/-- The loop of `cluster_nodes`. -/
def checkNodes : List ClusterNodeConfig → List UInt32 → List (String × UInt16) →
    Option (List UInt32)
  | [], ids, _ => some ids
  | node :: nodes, ids, endpoints =>
    match checkNode node ids endpoints with
    | none => none
    | some (ids, endpoints) => checkNodes nodes ids endpoints

namespace Config

/-- The nodes that are listed, or the broker itself where none is; `checked_add` fails for the last
hundred ports. -/
def listedNodes (config : Config) : Option (List ClusterNodeConfig) :=
  if config.cluster.nodes = [] then
    if 65535 < config.broker.port.toNat + 100 then none
    else some [⟨config.cluster.brokerId, config.broker.host, config.broker.port, config.admin.port,
      config.broker.port + 100⟩]
  else some config.cluster.nodes

/-- `Config::cluster_nodes`. -/
def clusterNodes (config : Config) : Except ConfigError (List ClusterNodeConfig) :=
  match config.listedNodes with
  | none => .error .invalidCluster
  | some nodes =>
    match checkNodes nodes [] [] with
    | none => .error .invalidCluster
    | some ids =>
      if config.cluster.brokerId ∉ ids then .error .localBrokerMissing
      else if config.cluster.replicationFactor = 0 ∨
          config.cluster.replicationFactor > nodes.length ∨
          config.cluster.minInSyncReplicas = 0 ∨
          config.cluster.minInSyncReplicas > config.cluster.replicationFactor then
        .error .invalidReplicationPolicy
      else .ok (nodes.insertionSort fun x y => x.id ≤ y.id)

end Config

/-! ## What an accepted configuration satisfies -/

theorem insertNew_eq_some {α : Type} [DecidableEq α] {x : α} {s s' : List α} :
    insertNew x s = some s' ↔ x ∉ s ∧ s' = x :: s := by
  unfold insertNew
  split
  · rename_i hmem
    simp [hmem]
  · rename_i hnew
    simp [hnew, eq_comm]

theorem checkNode_ids {node : ClusterNodeConfig} {ids ids' : List UInt32}
    {endpoints endpoints' : List (String × UInt16)}
    (h : checkNode node ids endpoints = some (ids', endpoints')) :
    node.id ∉ ids ∧ ids' = node.id :: ids := by
  unfold checkNode at h
  split at h
  · cases h
  obtain ⟨ids₁, hids, h⟩ := Option.bind_eq_some_iff.1 h
  obtain ⟨endpoints₁, _, h⟩ := Option.bind_eq_some_iff.1 h
  obtain ⟨endpoints₂, _, h⟩ := Option.bind_eq_some_iff.1 h
  obtain ⟨endpoints₃, _, h⟩ := Option.bind_eq_some_iff.1 h
  split at h
  · cases h
    exact insertNew_eq_some.1 hids
  · cases h

/-- The ids of the nodes are distinct, and all of them are collected. -/
theorem checkNodes_ids : ∀ {nodes : List ClusterNodeConfig} {ids ids' : List UInt32}
    {endpoints : List (String × UInt16)}, checkNodes nodes ids endpoints = some ids' →
    (nodes.map (·.id)).Nodup ∧ (∀ node ∈ nodes, node.id ∉ ids) ∧
      ∀ id, id ∈ ids' ↔ id ∈ ids ∨ id ∈ nodes.map (·.id)
  | [], ids, ids', endpoints, h => by
    cases h
    exact ⟨List.nodup_nil, fun _ hnode => absurd hnode List.not_mem_nil, fun id => by simp⟩
  | node :: nodes, ids, ids', endpoints, h => by
    rw [checkNodes] at h
    split at h
    · cases h
    rename_i ids₁ endpoints₁ hnode
    obtain ⟨hnew, rfl⟩ := checkNode_ids hnode
    obtain ⟨hnodup, hothers, hall⟩ := checkNodes_ids h
    refine ⟨?_, ?_, fun id => ?_⟩
    · rw [List.map_cons, List.nodup_cons]
      refine ⟨fun hmem => ?_, hnodup⟩
      obtain ⟨other, hother, heq⟩ := List.mem_map.1 hmem
      exact hothers other hother (heq ▸ List.mem_cons_self)
    · intro other hother
      rcases List.mem_cons.1 hother with rfl | hrest
      · exact hnew
      · exact fun hmem => hothers other hrest (List.mem_cons_of_mem _ hmem)
    · rw [hall id, List.mem_cons, List.map_cons, List.mem_cons, or_assoc, or_left_comm]

/-- The nodes of an accepted configuration and their policy. -/
structure Accepted (config : Config) (listed nodes : List ClusterNodeConfig) : Prop where
  given : config.listedNodes = some listed
  sorted : nodes = listed.insertionSort fun x y => x.id ≤ y.id
  nodup : (listed.map (·.id)).Nodup
  self : config.cluster.brokerId ∈ listed.map (·.id)
  replication_pos : 0 < config.cluster.replicationFactor
  replication_le : config.cluster.replicationFactor ≤ listed.length
  min_pos : 0 < config.cluster.minInSyncReplicas
  min_le : config.cluster.minInSyncReplicas ≤ config.cluster.replicationFactor

theorem clusterNodes_spec {config : Config} {nodes : List ClusterNodeConfig}
    (h : config.clusterNodes = .ok nodes) : ∃ listed, Accepted config listed nodes := by
  unfold Config.clusterNodes at h
  split at h
  · cases h
  rename_i listed hlisted
  split at h
  · cases h
  rename_i ids hids
  split at h
  · cases h
  rename_i hself
  split at h
  · cases h
  rename_i hpolicy
  cases h
  obtain ⟨hnodup, _, hall⟩ := checkNodes_ids hids
  have hself' : config.cluster.brokerId ∈ listed.map (·.id) := by
    rcases (hall _).1 (not_not.1 hself) with hnil | hmem
    · cases hnil
    · exact hmem
  exact ⟨listed, hlisted, rfl, hnodup, hself', by omega, by omega, by omega, by omega⟩

namespace Accepted

variable {config config' : Config} {listed nodes nodes' : List ClusterNodeConfig}

theorem perm (h : Accepted config listed nodes) : nodes.Perm listed := by
  rw [h.sorted]
  exact List.perm_insertionSort _ listed

/-- The nodes come in the order of their ids, and no id comes twice. -/
theorem increasing (h : Accepted config listed nodes) : (nodes.map (·.id)).Pairwise (· < ·) := by
  have htotal : Std.Total fun x y : ClusterNodeConfig => x.id ≤ y.id :=
    ⟨fun x y => UInt32.le_total x.id y.id⟩
  have htrans : IsTrans ClusterNodeConfig fun x y => x.id ≤ y.id :=
    ⟨fun _ _ _ => UInt32.le_trans⟩
  have hle : nodes.Pairwise fun x y => x.id ≤ y.id := by
    rw [h.sorted]
    exact List.pairwise_insertionSort _ listed
  have hne : nodes.Pairwise fun x y => x.id ≠ y.id :=
    List.pairwise_map.1 ((h.perm.map _).nodup_iff.2 h.nodup)
  rw [List.pairwise_map]
  exact hle.imp₂ (fun _ _ hxy hne => UInt32.lt_of_le_of_ne hxy hne) hne

/-- **The order in which the nodes are listed does not matter.** -/
theorem same_nodes (h : Accepted config listed nodes) {listed' : List ClusterNodeConfig}
    (h' : Accepted config' listed' nodes') (hperm : listed.Perm listed') : nodes = nodes' := by
  have hnodes : nodes.Perm nodes' := h.perm.trans (hperm.trans h'.perm.symm)
  refine List.Perm.eq_of_pairwise (fun x y _ _ hxy hyx => ?_) (List.pairwise_map.1 h.increasing)
    (List.pairwise_map.1 h'.increasing) hnodes
  exact absurd hyx (UInt32.lt_asymm hxy)

end Accepted

end SevlaMq.Common

import SevlaMq.Group.Assignment

/-!
# Generations fence the members of a group

* `Advances` — the generation does not decrease, and members or assignments change only with it.
* `Grants` — a commit or a fetch of a partition is accepted; `grants_owned` — then the member owns
  the partition in the generation it names.
* `Refused` — a call fails and leaves all committed offsets as they were; `stale_refused` — that is
  what happens to a call with an old generation.
* `generation_fencing` — the three for any two moments of a run.
* `members_change_unnumbered` — when the generations are used up, a member joins without a new one.
-/

set_option autoImplicit false

namespace SevlaMq.Group

/-! ## Generations grow -/

/-- The generation does not decrease; every change of the assignments comes with a larger one, and
so does every change of the members while there are generations left. -/
def Advances (g g' : ConsumerGroup) : Prop :=
  g.generation ≤ g'.generation ∧
  (g'.assignments ≠ g.assignments → g.generation < g'.generation) ∧
  (g.generation < GENERATION_MAX → g'.members.keys ≠ g.members.keys →
    g.generation < g'.generation)

/-- How a group that is looked at twice has changed. -/
structure Follows (g g' : ConsumerGroup) : Prop where
  le : g.generation ≤ g'.generation
  assignments : g'.generation = g.generation → g'.assignments = g.assignments
  members : g'.generation = g.generation → g.generation < GENERATION_MAX →
    g'.members.keys = g.members.keys

namespace Follows

variable {g g₁ g' : ConsumerGroup}

theorem refl (g : ConsumerGroup) : Follows g g := ⟨Nat.le_refl _, fun _ => rfl, fun _ _ => rfl⟩

theorem trans (h : Follows g g₁) (h' : Follows g₁ g') : Follows g g' := by
  have h1 := h.le
  have h2 := h'.le
  refine ⟨Nat.le_trans h1 h2, fun heq => ?_, fun heq hlt => ?_⟩
  · rw [h'.assignments (by omega), h.assignments (by omega)]
  · rw [h'.members (by omega) (by omega), h.members (by omega) hlt]

theorem of_moved {n : Nat} (h : Moved n g g') : Follows g g' := by
  cases h with
  | kept hgen hkeys hasg => exact ⟨by omega, fun _ => hasg, fun _ _ => hkeys⟩
  | rebalanced members hlt _ _ =>
    exact ⟨by omega, fun heq => by omega, fun heq => by omega⟩
  | overflow hmax hgen hasg =>
    exact ⟨by omega, fun _ => hasg, fun _ hlt => by omega⟩

theorem advances (h : Follows g g') : Advances g g' := by
  refine ⟨h.le, fun hne => ?_, fun hlt hne => ?_⟩
  · rcases Nat.lt_or_ge g.generation g'.generation with hgt | hge
    · exact hgt
    · exact absurd (h.assignments (Nat.le_antisymm hge h.le)) hne
  · rcases Nat.lt_or_ge g.generation g'.generation with hgt | hge
    · exact hgt
    · exact absurd (h.members (Nat.le_antisymm hge h.le) hlt) hne

end Follows

namespace Coordinator

theorem after_follows (c : Coordinator) (calls : List Call) (key : Key) :
    Follows (c.group key) ((c.after calls).group key) := by
  induction calls generalizing c with
  | nil => exact .refl _
  | cons call calls ih =>
    exact (Follows.of_moved (c.handle_moved call key)).trans (ih (c.handle call).2)

theorem after_append (c : Coordinator) (calls more : List Call) :
    c.after (calls ++ more) = (c.after calls).after more := by
  simp [after]

end Coordinator

/-! ## One owner -/

/-- No partition is assigned to two members. -/
def OneOwner (g : ConsumerGroup) : Prop :=
  ∀ m m' p, p ∈ g.assigned m → p ∈ g.assigned m' → m = m'

theorem OneOwner.moved {n : Nat} {g g' : ConsumerGroup} (h : OneOwner g) (hm : Moved n g g') :
    OneOwner g' := by
  intro m m' p hp hp'
  cases hm with
  | kept _ _ hasg | overflow _ _ hasg =>
    unfold ConsumerGroup.assigned at hp hp'
    rw [hasg] at hp hp'
    exact h m m' p hp hp'
  | rebalanced members _ hdealt _ =>
    unfold ConsumerGroup.assigned at hp hp'
    rw [hdealt.getD] at hp hp'
    exact deal_unique hp hp'

theorem Coordinator.after_oneOwner {c : Coordinator} {key : Key} (h : OneOwner (c.group key))
    (calls : List Call) : OneOwner ((c.after calls).group key) :=
  @Coordinator.after_invariant (fun c => OneOwner (c.group key)) _
    (fun c call hc => hc.moved (c.handle_moved call key)) h calls

/-! ## Accepted calls -/

/-- The member and the partition a commit or a fetch is about. -/
def Request.target : Request → Option (GroupIdentity × Nat)
  | .commit id partition _ => some (id, partition)
  | .authorizeFetch id partition => some (id, partition)
  | _ => none

/-- The identity a call carries. -/
def Request.identity : Request → Option GroupIdentity
  | .heartbeat id => some id
  | .leave id => some id
  | .commit id _ _ => some id
  | .authorizeFetch id _ => some id
  | _ => none

/-- The commit or fetch of `partition` by the member `id` succeeds. -/
def Grants (c : Coordinator) (call : Call) (id : GroupIdentity) (partition : Nat) : Prop :=
  call.2.target = some (id, partition) ∧ (c.handle call).1 = .ok ()

/-- A call that succeeds leaves the group in the generation it names, and the member owns the
partition in it. -/
theorem grants_owned {c : Coordinator} {call : Call} {id : GroupIdentity} {partition : Nat}
    (h : Grants c call id partition) :
    ((c.handle call).2.group id.key).generation = id.generation ∧
      partition ∈ ((c.handle call).2.group id.key).assigned id.member := by
  obtain ⟨env, request⟩ := call
  obtain ⟨htarget, hok⟩ := h
  cases request with
  | commit id' partition' offset =>
    simp only [Request.target, Option.some.injEq, Prod.mk.injEq] at htarget
    obtain ⟨rfl, rfl⟩ := htarget
    simp only [Coordinator.handle] at hok ⊢
    cases hcommit : c.commit env id' partition' offset with
    | mk res c' =>
      obtain ⟨c₁, _, hres⟩ := Coordinator.commit_result hcommit
      rw [hcommit] at hok
      cases hres with
      | refused e => cases hok
      | failed hg howner hper => cases hok
      | accepted hg howner hper =>
        simp only [Coordinator.group_setGroup]
        exact ⟨howner.generation.symm, howner.partition⟩
  | authorizeFetch id' partition' =>
    simp only [Request.target, Option.some.injEq, Prod.mk.injEq] at htarget
    obtain ⟨rfl, rfl⟩ := htarget
    simp only [Coordinator.handle, Coordinator.authorizeFetch] at hok ⊢
    split at hok
    · cases hok
    · rename_i g c₁ hact
      obtain ⟨hg, hgen, _⟩ := Coordinator.activeMember_ok hact
      split at hok
      · rename_i howns
        simp only [howns, if_true, Coordinator.group_of_some hg]
        exact ⟨hgen.symm, ConsumerGroup.mem_assigned howns⟩
      · cases hok
  | _ => cases htarget

/-! ## Refused calls -/

/-- All committed offsets, in memory and on disk, are the same. -/
def SameOffsets (c c' : Coordinator) : Prop :=
  c'.disk = c.disk ∧ ∀ key, (c'.group key).committedOffsets = (c.group key).committedOffsets

/-- The call fails and changes no committed offset. -/
def Refused (c : Coordinator) (call : Call) : Prop :=
  (∃ e, (c.handle call).1 = .error e) ∧ SameOffsets c (c.handle call).2

theorem ConsumerGroup.rebalance_offsets (g : ConsumerGroup) (n : Nat) :
    (g.rebalance n).2.committedOffsets = g.committedOffsets := by
  unfold rebalance
  split <;> rfl

theorem ConsumerGroup.expire_offsets (g : ConsumerGroup) (timeout : Nat) (clock : String → Nat)
    (n : Nat) : (g.expire timeout clock n).2.committedOffsets = g.committedOffsets := by
  unfold expire
  split
  · rename_i g₁ hexp
    obtain rfl : g₁ = (g.expireMembers timeout clock).2 := by rw [hexp]
    rw [rebalance_offsets]
    rfl
  · rename_i g₁ hexp
    obtain rfl : g₁ = (g.expireMembers timeout clock).2 := by rw [hexp]
    rfl

theorem Touched.offsets {n : Nat} {g g' : ConsumerGroup} (h : Touched n g g') :
    g'.committedOffsets = g.committedOffsets := by
  induction h with
  | refl g => rfl
  | trans _ _ ih ih' => exact ih'.trans ih
  | expired g timeout clock => exact g.expire_offsets timeout clock n
  | renewed h now => rfl
  | removed g member => exact ConsumerGroup.rebalance_offsets _ n

namespace Coordinator

theorem Touches.sameOffsets {c c' : Coordinator} (h : Touches c c') : SameOffsets c c' :=
  ⟨h.disk, fun key => (h.groups key).offsets⟩

/-- A call with an old generation does not get past `validate_member`. -/
theorem activeMember_stale {c : Coordinator} {env : Env} {id : GroupIdentity}
    (h : id.generation < (c.group id.key).generation) :
    ∃ e c₁, c.activeMember env id = (.error e, c₁) ∧ SameOffsets c c₁ := by
  have htouches := c.activeGroup_touches env id.key
  have hoff := htouches.sameOffsets
  have hle := (Follows.of_moved (htouches.groups id.key).moved).le
  unfold activeMember
  split
  · rename_i hact
    rw [hact] at hoff
    exact ⟨_, _, rfl, hoff⟩
  · rename_i g c₁ hact
    rw [hact] at hoff hle
    simp only [group_of_some (activeGroup_ok hact)] at hle
    have hne : id.generation ≠ g.generation := by omega
    simp only [ConsumerGroup.validateMember, if_pos hne]
    exact ⟨_, _, rfl, hoff⟩

/-- **A call with an old generation is refused.** -/
theorem stale_refused {c : Coordinator} {call : Call} {id : GroupIdentity}
    (hid : call.2.identity = some id) (h : id.generation < (c.group id.key).generation) :
    Refused c call := by
  obtain ⟨env, request⟩ := call
  obtain ⟨e, c₁, hact, hoff⟩ := @activeMember_stale c env id h
  cases request with
  | heartbeat id' =>
    cases hid
    simp only [Refused, handle, heartbeat, hact]
    exact ⟨⟨e, rfl⟩, hoff⟩
  | leave id' =>
    cases hid
    simp only [Refused, handle, leave, hact]
    exact ⟨⟨e, rfl⟩, hoff⟩
  | commit id' partition offset =>
    cases hid
    simp only [Refused, handle, commit, hact]
    exact ⟨⟨e, rfl⟩, hoff⟩
  | authorizeFetch id' partition =>
    cases hid
    simp only [Refused, handle, authorizeFetch, hact]
    exact ⟨⟨e, rfl⟩, hoff⟩
  | _ => cases hid

end Coordinator

/-- **Generations fence the members of a group.**  Between any two moments of a run the generation
advances; a partition has one owner in a generation, whenever its calls are made; and once the
generation has moved on, calls that carry an old one are refused. -/
theorem generation_fencing {disk : Disk} {dataDir : Path} {partitionCount timeout : Nat}
    {c : Coordinator} (h₀ : Coordinator.openDir disk dataDir partitionCount timeout = .ok c)
    (past mid : List Call) :
    (∀ key, Advances ((c.after past).group key) ((c.after (past ++ mid)).group key)) ∧
    (∀ first second id₁ id₂ partition, Grants (c.after past) first id₁ partition →
      Grants (c.after (past ++ first :: mid)) second id₂ partition → id₁.key = id₂.key →
      id₁.generation = id₂.generation → id₁.member = id₂.member) ∧
    (∀ call id, call.2.identity = some id →
      id.generation < ((c.after past).group id.key).generation →
      Refused (c.after (past ++ mid)) call) := by
  refine ⟨?_, ?_, ?_⟩
  · intro key
    rw [Coordinator.after_append]
    exact ((c.after past).after_follows mid key).advances
  · intro first second id₁ id₂ partition h₁ h₂ hkey hgen
    obtain ⟨hgen₁, howned₁⟩ := grants_owned h₁
    obtain ⟨hgen₂, howned₂⟩ := grants_owned h₂
    -- the assignments are the same after both calls
    have hlater : ((c.after (past ++ first :: mid)).handle second).2 =
        ((c.after past).handle first).2.after (mid ++ [second]) := by
      simp [Coordinator.after]
    rw [hlater] at hgen₂ howned₂
    have hfollows := ((c.after past).handle first).2.after_follows (mid ++ [second]) id₁.key
    rw [← hkey] at hgen₂ howned₂
    have hsame := hfollows.assignments (by omega)
    have hstart : OneOwner (c.group id₁.key) := by
      obtain ⟨offsets, hg⟩ := Coordinator.openDir_new h₀ id₁.key
      rw [hg]
      intro m m' p hp
      simp [ConsumerGroup.assigned, ConsumerGroup.new] at hp
    have howner := Coordinator.after_oneOwner hstart (past ++ [first])
    rw [Coordinator.after_append] at howner
    unfold ConsumerGroup.assigned at howned₂
    rw [hsame] at howned₂
    exact howner _ _ partition howned₁ howned₂
  · intro call id hid hlt
    have hle := ((c.after past).after_follows mid id.key).le
    rw [Coordinator.after_append]
    exact Coordinator.stale_refused hid (by omega)

/-! ## The last generation -/

theorem ConsumerGroup.rebalance_ok {g : ConsumerGroup} (n : Nat)
    (h : g.generation < GENERATION_MAX) :
    ∃ g', g.rebalance n = (.ok (), g') ∧ g'.generation = g.generation + 1 ∧
      g'.members = g.members := by
  unfold rebalance
  rw [if_neg (by omega)]
  exact ⟨_, rfl, rfl, rfl⟩

/-- A worker joins and leaves again. -/
def churn (k : Nat) : List Call :=
  [(envAt 0, .join "workers" "payments" "worker-a"),
    (envAt 0, .leave ⟨"workers", "payments", "worker-a", 2 * k + 1⟩)]

/-- `n` times. -/
def churnCalls : Nat → List Call
  | 0 => []
  | n + 1 => churnCalls n ++ churn n

/-- A join finds a group without members in the given generation. -/
def Idle (c : Coordinator) (generation : Nat) : Prop :=
  ∃ g, c.joinedGroup (envAt 0) ("workers", "payments") = .ok g ∧ g.generation = generation ∧
    g.members.entries = []

/-- The group after a worker has joined. -/
theorem Idle.join {c : Coordinator} {generation : Nat} (h : Idle c generation)
    (hlt : generation < GENERATION_MAX) :
    ∃ g, (c.handle (envAt 0, .join "workers" "payments" "worker-a")).2 =
        c.setGroup ("workers", "payments") g ∧
      g.generation = generation + 1 ∧ g.members.entries = [("worker-a", 0)] := by
  obtain ⟨g, hg, rfl, hnone⟩ := h
  have hids : validateId "workers" = .ok () ∧ validateId "payments" = .ok () ∧
      validateId "worker-a" = .ok () := by decide +kernel
  obtain ⟨expired, g₁, hexp⟩ : ∃ expired g₁,
      g.expireMembers c.sessionTimeout ((envAt 0).clock ("workers", "payments")) =
        (expired, g₁) := ⟨_, _, rfl⟩
  have hg₁ : g₁.generation = g.generation ∧ g₁.members.entries = [] := by
    cases hexp
    simp [Members.retain, hnone]
  obtain ⟨g', hreb, hgen, hmem⟩ := @ConsumerGroup.rebalance_ok
    { g₁ with members := g₁.members.insert "worker-a" 0 } (c.partitionCount "payments")
    (by simp only; omega)
  have hjoin : c.joinMember (envAt 0) ("workers", "payments") "worker-a" g = (.ok (), g') := by
    have hnew : "worker-a" ∉ g₁.members.keys := by simp [Members.keys, hg₁.2]
    unfold Coordinator.joinMember
    rw [hexp]
    simp only
    rw [if_pos (Or.inl hnew)]
    exact hreb
  refine ⟨g', ?_, ?_, ?_⟩
  · simp only [Coordinator.handle, Coordinator.join, hids, hg, hjoin]
  · rw [hgen, hg₁.1]
  · rw [hmem]
    simp [Members.insert, hg₁.2, insertEntry]

/-- No time passes, so nobody expires. -/
theorem expires_none {g : ConsumerGroup} (hmem : g.members.entries = [("worker-a", 0)])
    (timeout : Nat) :
    g.expireMembers timeout ((envAt 0).clock ("workers", "payments")) = (false, g) := by
  have hkeep : g.members.retain (fun m heartbeat =>
      (envAt 0).clock ("workers", "payments") m - heartbeat ≤ timeout) = g.members := by
    ext1
    simp [Members.retain, hmem, envAt]
  simp only [ConsumerGroup.expireMembers, hkeep]
  simp

/-- Joining and leaving takes two generations. -/
theorem Idle.churn {c : Coordinator} {k : Nat} (h : Idle c (2 * k))
    (hlt : 2 * k + 1 < GENERATION_MAX) : Idle (c.after (churn k)) (2 * (k + 1)) := by
  obtain ⟨g, hjoin, hgen, hmem⟩ := h.join (by omega)
  let c₁ := c.setGroup ("workers", "payments") g
  have hexp := expires_none hmem c₁.sessionTimeout
  have hgroup : c₁.groups ("workers", "payments") = some g := by simp [c₁, Coordinator.setGroup]
  have hvalid : g.validateMember "worker-a" (2 * k + 1) = .ok () := by
    simp [ConsumerGroup.validateMember, hgen, Members.keys, hmem]
  have hact : c₁.activeMember (envAt 0) ⟨"workers", "payments", "worker-a", 2 * k + 1⟩ =
      (.ok g, c₁.setGroup ("workers", "payments") g) := by
    simp only [Coordinator.activeMember, Coordinator.activeGroup, GroupIdentity.key, hgroup,
      ConsumerGroup.expire, hexp, hvalid]
  obtain ⟨g', hreb, hgen', hmem'⟩ := @ConsumerGroup.rebalance_ok
    { g with members := g.members.remove "worker-a" }
    ((c₁.setGroup ("workers", "payments") g).partitionCount "payments") (by simp only; omega)
  have hafter : c.after (SevlaMq.Group.churn k) =
      (c₁.setGroup ("workers", "payments") g).setGroup ("workers", "payments") g' := by
    have hleave : (c₁.handle (envAt 0, .leave ⟨"workers", "payments", "worker-a", 2 * k + 1⟩)).2 =
        (c₁.setGroup ("workers", "payments") g).setGroup ("workers", "payments") g' := by
      simp only [Coordinator.handle, Coordinator.leave, hact, hreb, GroupIdentity.key]
    rw [← hleave]
    simp only [c₁, ← hjoin]
    rfl
  refine ⟨g', ?_, by rw [hgen', hgen]; omega, ?_⟩
  · rw [hafter]
    simp [Coordinator.joinedGroup, Coordinator.setGroup]
  · rw [hmem']
    simp [Members.remove, Members.retain, hmem]

theorem Idle.churnCalls {c : Coordinator} (h : Idle c 0) {n : Nat}
    (hlt : 2 * n < GENERATION_MAX) : Idle (c.after (churnCalls n)) (2 * n) := by
  induction n with
  | zero => exact h
  | succ n ih =>
    rw [SevlaMq.Group.churnCalls, Coordinator.after_append]
    exact (ih (by omega)).churn (by omega)

/-- A second worker joins a group in the last generation. -/
theorem joins_unnumbered {c : Coordinator} {g : ConsumerGroup}
    (hgen : g.generation = GENERATION_MAX) (hmem : g.members.entries = [("worker-a", 0)]) :
    let g' := ((c.setGroup ("workers", "payments") g).handle
      (envAt 0, .join "workers" "payments" "worker-b")).2.group ("workers", "payments")
    g'.members.keys = ["worker-a", "worker-b"] ∧ g'.generation = g.generation := by
  intro g'
  let c₁ := c.setGroup ("workers", "payments") g
  have hids : validateId "workers" = .ok () ∧ validateId "payments" = .ok () ∧
      validateId "worker-b" = .ok () := by decide +kernel
  have hexp := expires_none hmem c₁.sessionTimeout
  have hgroup : c₁.joinedGroup (envAt 0) ("workers", "payments") = .ok g := by
    simp [c₁, Coordinator.joinedGroup, Coordinator.setGroup]
  have hjoin : c₁.joinMember (envAt 0) ("workers", "payments") "worker-b" g =
      (.error .generationOverflow, { g with members := g.members.insert "worker-b" 0 }) := by
    have hnew : "worker-b" ∉ g.members.keys := by simp [Members.keys, hmem]
    unfold Coordinator.joinMember
    rw [hexp]
    simp only
    rw [if_pos (Or.inl hnew), ConsumerGroup.rebalance, if_pos (by simp only; omega)]
    rfl
  have hg' : g' = { g with members := g.members.insert "worker-b" 0 } := by
    simp only [g', Coordinator.handle, Coordinator.join, hids, hgroup, hjoin, c₁,
      Coordinator.group_setGroup, if_true]
  rw [hg']
  refine ⟨?_, rfl⟩
  simp only [Members.keys, Members.insert, hmem]
  decide

/-- A worker joins and leaves `n` times, and stays. -/
def exhaustingCalls (n : Nat) : List Call :=
  churnCalls n ++ [(envAt 0, .join "workers" "payments" "worker-a")]

theorem Idle.exhausted {c : Coordinator} (h : Idle c 0) {n : Nat}
    (hn : 2 * n + 1 = GENERATION_MAX) :
    ((c.after (exhaustingCalls n)).group ("workers", "payments")).members.keys = ["worker-a"] ∧
      ((c.after (exhaustingCalls n ++ [(envAt 0, .join "workers" "payments" "worker-b")])).group
        ("workers", "payments")).members.keys = ["worker-a", "worker-b"] ∧
      ((c.after (exhaustingCalls n ++ [(envAt 0, .join "workers" "payments" "worker-b")])).group
        ("workers", "payments")).generation =
        ((c.after (exhaustingCalls n)).group ("workers", "payments")).generation := by
  obtain ⟨g, hjoin, hgen, hmem⟩ := (h.churnCalls (n := n) (by omega)).join (by omega)
  have hcalls : c.after (exhaustingCalls n) =
      (c.after (SevlaMq.Group.churnCalls n)).setGroup ("workers", "payments") g := by
    rw [exhaustingCalls, Coordinator.after_append, ← hjoin]
    rfl
  have hbefore : (c.after (exhaustingCalls n)).group ("workers", "payments") = g := by
    rw [hcalls, Coordinator.group_setGroup, if_pos rfl]
  refine ⟨?_, ?_⟩
  · rw [hbefore]
    simp [Members.keys, hmem]
  · rw [hbefore, Coordinator.after_append, hcalls]
    exact joins_unnumbered (hgen.trans hn) hmem

/-- When the generations are used up, a worker becomes a member of a group whose generation stays
as it is. -/
theorem members_change_unnumbered :
    ∃ c, Coordinator.openDir ⟨[[]], fun _ => none⟩ ["data"] 3 10 = .ok c ∧
      ((c.after (exhaustingCalls (2 ^ 63 - 1))).group ("workers", "payments")).members.keys =
        ["worker-a"] ∧
      ((c.after (exhaustingCalls (2 ^ 63 - 1) ++
        [(envAt 0, .join "workers" "payments" "worker-b")])).group
        ("workers", "payments")).members.keys = ["worker-a", "worker-b"] ∧
      ((c.after (exhaustingCalls (2 ^ 63 - 1) ++
        [(envAt 0, .join "workers" "payments" "worker-b")])).group
        ("workers", "payments")).generation =
        ((c.after (exhaustingCalls (2 ^ 63 - 1))).group ("workers", "payments")).generation := by
  obtain ⟨c, hc⟩ : ∃ c, Coordinator.openDir ⟨[[]], fun _ => none⟩ ["data"] 3 10 = .ok c :=
    ⟨_, rfl⟩
  have hidle : Idle c 0 := by
    cases hc
    exact ⟨_, rfl, rfl, rfl⟩
  exact ⟨c, hc, hidle.exhausted (by decide)⟩

/-- A commit in the generation in which the member owns the partition, and the same commit after
another member has joined. -/
theorem generation_fencing_rejoined :
    ∃ c, Coordinator.openDir ⟨[[]], fun _ => none⟩ ["data"] 3 10 = .ok c ∧
      Grants (c.after [(envAt 0, .join "workers" "payments" "worker-a")])
        (envAt 1, .commit ⟨"workers", "payments", "worker-a", 1⟩ 1 42)
        ⟨"workers", "payments", "worker-a", 1⟩ 1 ∧
      Refused (c.after ([(envAt 0, .join "workers" "payments" "worker-a"),
          (envAt 2, .join "workers" "payments" "worker-b")] ++ []))
        (envAt 3, .commit ⟨"workers", "payments", "worker-a", 1⟩ 1 43) := by
  refine ⟨_, rfl, ⟨rfl, by decide +kernel⟩, ?_⟩
  exact (@generation_fencing ⟨[[]], fun _ => none⟩ ["data"] 3 10 _ rfl
    [(envAt 0, .join "workers" "payments" "worker-a"),
      (envAt 2, .join "workers" "payments" "worker-b")] []).2.2 _ _ rfl (by decide +kernel)

end SevlaMq.Group

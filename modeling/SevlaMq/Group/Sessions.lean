import SevlaMq.Group.Calls
import SevlaMq.Lib.Run

/-!
# Sessions of group members

A member keeps its session by joining again or by heartbeats; commits and fetches do not count.
Every call on a group first removes the members whose last sign of life is too long ago.

* `Sessions` — the coordinator, and when each member was last heard of.
* `session_fencing` — who has been silent for longer than the session timeout is refused, and nobody
  who has been is left in the group.
* `steady_group` — a group whose members are heard of in time keeps its generation, its members and
  their partitions, and serves all of them.
-/

set_option autoImplicit false

namespace SevlaMq.Group

/-! ## Signs of life -/

/-- When each member was last heard of. -/
abbrev Contacts := Key → String → Option Nat

/-- Who is heard of in a call: a join that names valid ids, or a heartbeat that is accepted. -/
def heardOf : Request → Except GroupError Unit → Option (Key × String)
  | .join group topic member, _ =>
    match validateId group, validateId topic, validateId member with
    | .ok (), .ok (), .ok () => some ((group, topic), member)
    | _, _, _ => none
  | .heartbeat id, .ok () => some (id.key, id.member)
  | _, _ => none

structure Sessions where
  coordinator : Coordinator
  contacts : Contacts

namespace Sessions

def start (c : Coordinator) : Sessions := ⟨c, fun _ _ => none⟩

def serve (s : Sessions) (call : Call) : Sessions :=
  let (res, c) := s.coordinator.handle call
  ⟨c, match heardOf call.2 res with
    | some (key, member) =>
      fun k m => if k = key ∧ m = member then some call.1.now else s.contacts k m
    | none => s.contacts⟩

def after (s : Sessions) (calls : List Call) : Sessions := calls.foldl serve s

/-- What every call keeps holds after any calls. -/
theorem after_invariant {P : Sessions → Prop} {s : Sessions}
    (hkeeps : ∀ s call, P s → P (s.serve call)) (h : P s) (calls : List Call) :
    P (s.after calls) :=
  List.foldlRecOn calls _ h fun s hs call _ => hkeeps s call hs

theorem after_coordinator (s : Sessions) (calls : List Call) :
    (s.after calls).coordinator = s.coordinator.after calls := by
  induction calls generalizing s with
  | nil => rfl
  | cons call calls ih => exact ih (s.serve call)

end Sessions

/-! ## Calls that only lose members -/

namespace ConsumerGroup

variable {g : ConsumerGroup} {timeout n : Nat} {clock : String → Nat}

theorem expire_alive {e : String × Nat} (h : e ∈ (g.expire timeout clock n).2.members.entries) :
    e ∈ g.members.entries ∧ clock e.1 - e.2 ≤ timeout := by
  have hkept : e ∈ (g.expireMembers timeout clock).2.members.entries := by
    unfold expire at h
    split at h
    · rename_i hexp
      rw [rebalance_members] at h
      rw [hexp]
      exact h
    · rename_i hexp
      rw [hexp]
      exact h
  obtain ⟨hmem, halive⟩ := List.mem_filter.1 hkept
  exact ⟨hmem, of_decide_eq_true halive⟩

/-- Nobody expires while everyone is alive. -/
theorem expireMembers_alive (h : ∀ e ∈ g.members.entries, clock e.1 - e.2 ≤ timeout) :
    g.expireMembers timeout clock = (false, g) := by
  have hall : g.members.retain (fun m heartbeat => clock m - heartbeat ≤ timeout) = g.members :=
    Members.ext (List.filter_eq_self.2 fun e he => decide_eq_true (h e he))
  simp only [expireMembers, hall, ne_eq, not_true_eq_false, decide_false]

theorem expire_idle (h : ∀ e ∈ g.members.entries, clock e.1 - e.2 ≤ timeout) :
    g.expire timeout clock n = (.ok (), g) := by
  simp only [expire, expireMembers_alive h]

end ConsumerGroup

/-- The entry of the member is replaced. -/
theorem Members.mem_insert_entries {m : Members} {id : String} {instant : Nat} {e : String × Nat}
    (h : e ∈ (m.insert id instant).entries) :
    e = (id, instant) ∨ (e ∈ m.entries ∧ e.1 ≠ id) := by
  obtain ⟨entries, hsorted⟩ := m
  change e ∈ insertEntry id instant entries at h
  change e = (id, instant) ∨ (e ∈ entries ∧ e.1 ≠ id)
  induction entries with
  | nil => exact Or.inl (List.mem_singleton.1 h)
  | cons x entries ih =>
    rw [List.pairwise_cons] at hsorted
    unfold insertEntry at h
    split at h
    · rename_i hlt
      refine (List.mem_cons.1 h).imp_right fun he => ⟨he, ?_⟩
      rcases List.mem_cons.1 he with rfl | he
      · exact ne_of_gt hlt
      · exact ne_of_gt (lt_trans hlt (hsorted.1 e he))
    · split at h
      · rename_i heq
        refine (List.mem_cons.1 h).imp_right fun he => ⟨List.mem_cons_of_mem _ he, ?_⟩
        rw [heq]
        exact ne_of_gt (hsorted.1 e he)
      · rename_i hne
        rcases List.mem_cons.1 h with rfl | he
        · exact Or.inr ⟨List.mem_cons_self, Ne.symm hne⟩
        · exact (ih hsorted.2 he).imp_right fun hold => ⟨List.mem_cons_of_mem _ hold.1, hold.2⟩

/-- The members of `c'` were in `c` with the same last sign of life. -/
structure Sheds (c c' : Coordinator) : Prop where
  timeout : c'.sessionTimeout = c.sessionTimeout
  entries : ∀ key, ∀ e ∈ (c'.group key).members.entries, e ∈ (c.group key).members.entries

namespace Sheds

variable {c c₁ c' : Coordinator}

theorem refl (c : Coordinator) : Sheds c c := ⟨rfl, fun _ _ he => he⟩

theorem trans (h : Sheds c c₁) (h' : Sheds c₁ c') : Sheds c c' :=
  ⟨h'.timeout.trans h.timeout, fun key e he => h.entries key e (h'.entries key e he)⟩

theorem setGroup {key : Key} {g : ConsumerGroup}
    (h : ∀ e ∈ g.members.entries, e ∈ (c.group key).members.entries) :
    Sheds c (c.setGroup key g) where
  timeout := rfl
  entries := by
    intro x e he
    rw [Coordinator.group_setGroup] at he
    split at he
    · rename_i heq
      exact heq ▸ h e he
    · exact he

end Sheds

namespace Coordinator

variable (c : Coordinator) (env : Env)

theorem activeGroup_sheds (key : Key) : Sheds c (c.activeGroup env key).2 := by
  unfold activeGroup
  split
  · exact .refl c
  rename_i g hg
  have halive : ∀ e ∈ (g.expire c.sessionTimeout (env.clock key)
      (c.partitionCount key.2)).2.members.entries, e ∈ (c.group key).members.entries := by
    intro e he
    rw [group_of_some hg]
    exact (ConsumerGroup.expire_alive he).1
  split
  · rename_i hexp
    rw [hexp] at halive
    exact .setGroup halive
  · rename_i hexp
    rw [hexp] at halive
    exact .setGroup halive

theorem activeMember_sheds (id : GroupIdentity) : Sheds c (c.activeMember env id).2 := by
  have hsheds := c.activeGroup_sheds env id.key
  unfold activeMember
  split
  · rename_i hact
    rw [hact] at hsheds
    exact hsheds
  · rename_i hact
    rw [hact] at hsheds
    split <;> exact hsheds

/-- Who is left after the members have expired is alive. -/
theorem activeMember_alive {c c₁ : Coordinator} {env : Env} {id : GroupIdentity}
    {g : ConsumerGroup} (h : c.activeMember env id = (.ok g, c₁)) :
    ∀ e ∈ g.members.entries, e ∈ (c.group id.key).members.entries ∧
      env.clock id.key e.1 - e.2 ≤ c.sessionTimeout := by
  unfold activeMember at h
  split at h
  · cases h
  rename_i g' c' hact
  split at h
  · cases h
  cases h
  unfold activeGroup at hact
  split at hact
  · cases hact
  rename_i g₀ hg₀
  split at hact
  · cases hact
  rename_i hexp
  cases hact
  intro e he
  have halive := @ConsumerGroup.expire_alive g₀ c.sessionTimeout (c.partitionCount id.key.2)
    (env.clock id.key) e
  rw [hexp] at halive
  rw [group_of_some hg₀]
  exact halive he

theorem leave_sheds (id : GroupIdentity) : Sheds c (c.leave env id).2 := by
  have hsheds := c.activeMember_sheds env id
  unfold leave
  split
  · rename_i hact
    rw [hact] at hsheds
    exact hsheds
  · rename_i g c₁ hact
    rw [hact] at hsheds
    refine hsheds.trans (.setGroup fun e he => ?_)
    rw [ConsumerGroup.rebalance_members] at he
    rw [group_of_some (activeMember_ok hact).1]
    exact List.mem_of_mem_filter he

theorem authorizeFetch_sheds (id : GroupIdentity) (partition : Nat) :
    Sheds c (c.authorizeFetch env id partition).2 := by
  have hsheds := c.activeMember_sheds env id
  unfold authorizeFetch
  split
  · rename_i hact
    rw [hact] at hsheds
    exact hsheds
  · rename_i hact
    rw [hact] at hsheds
    split <;> exact hsheds

theorem commit_sheds (id : GroupIdentity) (partition offset : Nat) :
    Sheds c (c.commit env id partition offset).2 := by
  have hsheds := c.activeMember_sheds env id
  unfold commit
  split
  · rename_i hact
    rw [hact] at hsheds
    exact hsheds
  · rename_i g c₁ hact
    rw [hact] at hsheds
    have hdisk : ∀ disk, Sheds c₁ { c₁ with disk := disk } := fun _ => ⟨rfl, fun _ _ he => he⟩
    split
    · split
      · exact hsheds.trans (hdisk _)
      · refine hsheds.trans ((hdisk _).trans (.setGroup fun e he => ?_))
        rw [← group_of_some (activeMember_ok hact).1] at he
        exact he
    · exact hsheds

theorem expireLoop_sheds (keys : List Key) : Sheds c (expireLoop env keys c).2 := by
  induction keys generalizing c with
  | nil => exact .refl c
  | cons key keys ih =>
    unfold expireLoop
    split
    · exact ih c
    rename_i g hg
    have halive : ∀ e ∈ (g.expire c.sessionTimeout (env.clock key)
        (c.partitionCount key.2)).2.members.entries, e ∈ (c.group key).members.entries := by
      intro e he
      rw [group_of_some hg]
      exact (ConsumerGroup.expire_alive he).1
    split
    · rename_i hexp
      rw [hexp] at halive
      exact .setGroup halive
    · rename_i hexp
      rw [hexp] at halive
      exact (Sheds.setGroup halive).trans (ih _)

theorem extendLoop_sheds (topic : String) (partitions : Nat) (keys : List Key) :
    Sheds c (extendLoop env topic partitions keys c).2 := by
  induction keys generalizing c with
  | nil => exact .refl c
  | cons key keys ih =>
    unfold extendLoop
    split
    · exact ih c
    rename_i g hg
    split
    · split
      · exact .refl c
      · refine (Sheds.setGroup fun e he => ?_).trans (ih _)
        rw [group_of_some hg]
        exact he
    · exact ih c

theorem setTopicPartitions_sheds (topic : String) (partitions : Nat) :
    Sheds c (c.setTopicPartitions env topic partitions).2 := by
  have hloop := fun counts =>
    extendLoop_sheds { c with topicPartitionCounts := counts } env topic partitions env.order
  exact ⟨(hloop _).timeout, (hloop _).entries⟩

/-- A member joins those who are alive. -/
theorem joinMember_entries {key : Key} {member : String} {g : ConsumerGroup} {e : String × Nat}
    (h : e ∈ (c.joinMember env key member g).2.members.entries) :
    e = (member, env.now) ∨ (e ∈ g.members.entries ∧ e.1 ≠ member) := by
  have hins : e ∈ ((g.expireMembers c.sessionTimeout (env.clock key)).2.members.insert member
      env.now).entries := by
    unfold joinMember at h
    simp only at h
    split at h
    · rw [ConsumerGroup.rebalance_members] at h
      exact h
    · exact h
  exact (Members.mem_insert_entries hins).imp_right fun hold =>
    ⟨List.mem_of_mem_filter hold.1, hold.2⟩

end Coordinator

/-! ## The ledger -/

namespace Sessions

/-- The last signs of life that the coordinator knows are the recorded ones. -/
structure Recorded (timeout : Nat) (s : Sessions) : Prop where
  timeout : s.coordinator.sessionTimeout = timeout
  entries : ∀ key, ∀ e ∈ (s.coordinator.group key).members.entries,
    s.contacts key e.1 = some e.2

variable {timeout : Nat} {s : Sessions} {c : Coordinator} {env : Env}

theorem Recorded.sheds (h : s.Recorded timeout) (hc : Sheds s.coordinator c) :
    Recorded timeout ⟨c, s.contacts⟩ where
  timeout := hc.timeout.trans h.timeout
  entries := fun key e he => h.entries key e (hc.entries key e he)

/-- A member is heard of. -/
theorem Recorded.heard (h : s.Recorded timeout)
    (hc : c.sessionTimeout = s.coordinator.sessionTimeout) {key : Key} {member : String} {now : Nat}
    (hentries : ∀ k, ∀ e ∈ (c.group k).members.entries,
      (k = key ∧ e = (member, now)) ∨ (e ∈ (s.coordinator.group k).members.entries ∧
        (k = key → e.1 ≠ member))) :
    Recorded timeout
      ⟨c, fun k m => if k = key ∧ m = member then some now else s.contacts k m⟩ where
  timeout := hc.trans h.timeout
  entries := by
    intro k e he
    rcases hentries k e he with ⟨rfl, rfl⟩ | ⟨hold, hne⟩
    · exact if_pos ⟨rfl, rfl⟩
    · have hother : ¬ (k = key ∧ e.1 = member) := fun heq => hne heq.1 heq.2
      simp only [if_neg hother]
      exact h.entries k e hold

theorem Recorded.start {disk : Disk} {dataDir : Path} {n : Nat}
    (h : Coordinator.openDir disk dataDir n timeout = .ok c) : Recorded timeout (.start c) where
  timeout := by
    unfold Coordinator.openDir at h
    simp only at h
    split at h
    · cases h
    · split at h
      · cases h
      · cases h
        rfl
  entries := by
    intro key e he
    obtain ⟨offsets, hnew⟩ := Coordinator.openDir_new h key
    simp only [Sessions.start, hnew] at he
    exact absurd he List.not_mem_nil

theorem Recorded.join (h : s.Recorded timeout) (group topic member : String) :
    (s.serve (env, .join group topic member)).Recorded timeout := by
  simp only [Sessions.serve, Coordinator.handle, Coordinator.join, heardOf]
  cases validateId group with
  | error e => exact h.sheds (.refl _)
  | ok _ =>
  cases validateId topic with
  | error e => exact h.sheds (.refl _)
  | ok _ =>
  cases validateId member with
  | error e => exact h.sheds (.refl _)
  | ok _ =>
    simp only
    split
    · -- the group is not there
      rename_i e hload
      refine h.heard rfl fun k x hx => Or.inr ⟨hx, ?_⟩
      rintro rfl
      unfold Coordinator.joinedGroup at hload
      split at hload
      · cases hload
      · rename_i hnone
        rw [Coordinator.group, hnone] at hx
        exact absurd hx List.not_mem_nil
    · rename_i g hload
      obtain ⟨offsets, rfl, _⟩ := Coordinator.joinedGroup_reloaded hload
      have hjoined := fun x => @Coordinator.joinMember_entries s.coordinator env (group, topic)
        member { s.coordinator.group (group, topic) with committedOffsets := offsets } x
      have hheard : ∀ g', (∀ x ∈ g'.members.entries, x = (member, env.now) ∨
          (x ∈ (s.coordinator.group (group, topic)).members.entries ∧ x.1 ≠ member)) →
          Recorded timeout ⟨s.coordinator.setGroup (group, topic) g', fun k m =>
            if k = (group, topic) ∧ m = member then some env.now else s.contacts k m⟩ := by
        intro g' hg'
        refine Recorded.heard (c := s.coordinator.setGroup _ g') h rfl fun k x hx => ?_
        rw [Coordinator.group_setGroup] at hx
        split at hx
        · rename_i hk
          rcases hg' x hx with rfl | ⟨hold, hne⟩
          · exact Or.inl ⟨hk, rfl⟩
          · exact Or.inr ⟨hk ▸ hold, fun _ => hne⟩
        · rename_i hk
          exact Or.inr ⟨hx, fun heq => absurd heq hk⟩
      split
      · rename_i e g₁ hjoin
        rw [hjoin] at hjoined
        exact hheard g₁ hjoined
      · rename_i g₁ hjoin
        rw [hjoin] at hjoined
        exact hheard g₁ hjoined

theorem Recorded.heartbeat (h : s.Recorded timeout) (id : GroupIdentity) :
    (s.serve (env, .heartbeat id)).Recorded timeout := by
  have hsheds := s.coordinator.activeMember_sheds env id
  simp only [Sessions.serve, Coordinator.handle]
  unfold Coordinator.heartbeat
  split
  · rename_i hact
    rw [hact] at hsheds
    exact h.sheds hsheds
  · rename_i g c₁ hact
    rw [hact] at hsheds
    simp only [heardOf]
    refine Recorded.heard (c := c₁.setGroup _ _) h hsheds.timeout fun k e he => ?_
    rw [Coordinator.group_setGroup] at he
    split at he
    · rename_i hk
      rcases Members.mem_insert_entries he with rfl | ⟨hold, hne⟩
      · exact Or.inl ⟨hk, rfl⟩
      · refine Or.inr ⟨hsheds.entries k e ?_, fun _ => hne⟩
        rw [hk, Coordinator.group_of_some (Coordinator.activeMember_ok hact).1]
        exact hold
    · rename_i hk
      exact Or.inr ⟨hsheds.entries k e he, fun heq => absurd heq hk⟩

/-- **One call.** -/
theorem Recorded.serve (h : s.Recorded timeout) (call : Call) :
    (s.serve call).Recorded timeout := by
  obtain ⟨env, request⟩ := call
  cases request with
  | join group topic member => exact h.join group topic member
  | heartbeat id => exact h.heartbeat id
  | leave id => exact h.sheds (s.coordinator.leave_sheds env id)
  | commit id partition offset => exact h.sheds (s.coordinator.commit_sheds env id partition offset)
  | authorizeFetch id partition =>
    exact h.sheds (s.coordinator.authorizeFetch_sheds env id partition)
  | expireSessions => exact h.sheds (s.coordinator.expireLoop_sheds env env.order)
  | setTopicPartitions topic partitions =>
    exact h.sheds (s.coordinator.setTopicPartitions_sheds env topic partitions)

theorem Recorded.after (h : s.Recorded timeout) (calls : List Call) :
    (s.after calls).Recorded timeout :=
  after_invariant (fun _ call hs => hs.serve call) h calls

end Sessions

/-! ## Silence -/

/-- A call with an identity that succeeds has found its member alive, and nobody joins by it. -/
theorem Coordinator.handle_alive {c : Coordinator} {env : Env} {request : Request}
    {id : GroupIdentity} (hid : request.identity = some id)
    (hok : (c.handle (env, request)).1 = .ok ()) :
    ∃ g c₁, c.activeMember env id = (.ok g, c₁) ∧
      ∀ m ∈ ((c.handle (env, request)).2.group id.key).members.keys, m ∈ g.members.keys := by
  rcases hact : c.activeMember env id with ⟨e | g, c₁⟩
  · cases request with
    | heartbeat id' | leave id' | commit id' partition offset | authorizeFetch id' partition =>
      cases hid
      simp only [handle, heartbeat, leave, commit, authorizeFetch, hact] at hok
      cases hok
    | _ => cases hid
  refine ⟨g, c₁, rfl, fun m hm => ?_⟩
  have hg := group_of_some (activeMember_ok hact).1
  cases request with
  | heartbeat id' =>
    cases hid
    simp only [handle, heartbeat, hact, group_setGroup, if_true] at hm
    rwa [Members.keys_insert (activeMember_ok hact).2.2] at hm
  | leave id' =>
    cases hid
    simp only [handle, leave, hact, group_setGroup, if_true] at hm
    rw [ConsumerGroup.rebalance_members] at hm
    exact Members.mem_of_retain hm
  | commit id' partition offset =>
    cases hid
    simp only [handle, commit, hact] at hm
    split at hm
    · split at hm
      · rw [← hg]
        exact hm
      · rw [group_setGroup, if_pos rfl] at hm
        exact hm
    · rw [← hg]
      exact hm
  | authorizeFetch id' partition =>
    cases hid
    simp only [handle, authorizeFetch, hact] at hm
    rw [← hg]
    split at hm
    · exact hm
    · exact hm
  | _ => cases hid

/-- **Silent members are refused.**  Whatever calls were made before, a heartbeat, commit, fetch or
leave succeeds only when its member has joined or sent a heartbeat within the session timeout, and
then the same is true of every member that is left in the group. -/
theorem session_fencing {disk : Disk} {dataDir : Path} {partitionCount timeout : Nat}
    {c : Coordinator} (h₀ : Coordinator.openDir disk dataDir partitionCount timeout = .ok c)
    (calls : List Call) {call : Call} {id : GroupIdentity} (hid : call.2.identity = some id)
    (hok : ((c.after calls).handle call).1 = .ok ()) :
    ∀ m, (m = id.member ∨ m ∈ (((c.after calls).handle call).2.group id.key).members.keys) →
      ∃ t, ((Sessions.start c).after calls).contacts id.key m = some t ∧
        call.1.clock id.key m ≤ t + timeout := by
  have hrecorded := (Sessions.Recorded.start h₀).after calls
  have htimeout := hrecorded.timeout
  have hentries := hrecorded.entries id.key
  rw [Sessions.after_coordinator] at htimeout hentries
  obtain ⟨g, c₁, hact, hkept⟩ := Coordinator.handle_alive hid hok
  intro m hm
  have hmem : m ∈ g.members.keys := by
    rcases hm with rfl | hm
    · exact (Coordinator.activeMember_ok hact).2.2
    · exact hkept m hm
  obtain ⟨e, he, rfl⟩ := List.mem_map.1 hmem
  obtain ⟨hold, halive⟩ := Coordinator.activeMember_alive hact e he
  refine ⟨e.2, hentries e hold, ?_⟩
  change (c.after calls).sessionTimeout = timeout at htimeout
  omega

/-- Two workers join. -/
def workersJoin : List Call :=
  [(envAt 0, .join "workers" "payments" "worker-a"),
    (envAt 5, .join "workers" "payments" "worker-b")]

theorem session_fencing_joined :
    ∃ c, Coordinator.openDir ⟨[[]], fun _ => none⟩ ["data"] 3 10 = .ok c ∧
      ∀ m, m = "worker-a" ∨ m = "worker-b" →
        ∃ t, ((Sessions.start c).after workersJoin).contacts ("workers", "payments") m = some t ∧
          9 ≤ t + 10 := by
  refine ⟨_, rfl, fun m hm => ?_⟩
  refine @session_fencing ⟨[[]], fun _ => none⟩ ["data"] 3 10 _ rfl workersJoin
    (envAt 9, .heartbeat ⟨"workers", "payments", "worker-b", 2⟩)
    ⟨"workers", "payments", "worker-b", 2⟩ rfl (by decide +kernel) m ?_
  rcases hm with rfl | rfl
  · exact Or.inr (by decide +kernel)
  · exact Or.inl rfl

/-! ## Groups that are left alone -/

/-- The same generation, members and partitions. -/
structure Alike (g g' : ConsumerGroup) : Prop where
  generation : g'.generation = g.generation
  assignments : g'.assignments = g.assignments
  members : g'.members.keys = g.members.keys

theorem Alike.refl (g : ConsumerGroup) : Alike g g := ⟨rfl, rfl, rfl⟩

theorem Alike.trans {g g₁ g' : ConsumerGroup} (h : Alike g g₁) (h' : Alike g₁ g') : Alike g g' :=
  ⟨h'.generation.trans h.generation, h'.assignments.trans h.assignments,
    h'.members.trans h.members⟩

/-- Nobody else joins the group and no member leaves it. -/
def Calm (key : Key) (g : ConsumerGroup) : Request → Prop
  | .join group topic member => (group, topic) = key → member ∈ g.members.keys
  | .leave id => id.key = key → id.generation = g.generation → id.member ∉ g.members.keys
  | _ => True

instance (key : Key) (g : ConsumerGroup) : DecidablePred (Calm key g) := fun request =>
  match request with
  | .join group topic member =>
    inferInstanceAs (Decidable ((group, topic) = key → member ∈ g.members.keys))
  | .leave id => inferInstanceAs (Decidable
      (id.key = key → id.generation = g.generation → id.member ∉ g.members.keys))
  | .heartbeat _ | .commit _ _ _ | .authorizeFetch _ _ | .expireSessions
  | .setTopicPartitions _ _ => isTrue trivial

namespace Coordinator

variable {c c' : Coordinator} {env : Env} {key : Key} {g : ConsumerGroup}

/-- Every member has been heard of in time. -/
def Timely (c : Coordinator) (env : Env) (key : Key) (g : ConsumerGroup) : Prop :=
  ∀ e ∈ g.members.entries, env.clock key e.1 - e.2 ≤ c.sessionTimeout

theorem group_of_isSome (h : (c.groups key).isSome) : c.groups key = some (c.group key) := by
  obtain ⟨g, hg⟩ := Option.isSome_iff_exists.1 h
  rw [group_of_some hg, hg]

theorem setGroup_other {x : Key} (h : x ≠ key) (g : ConsumerGroup) :
    (c.setGroup key g).groups x = c.groups x :=
  if_neg h

theorem activeGroup_timely (hg : c.groups key = some g) (htimely : c.Timely env key g) :
    c.activeGroup env key = (.ok g, c.setGroup key g) := by
  simp only [activeGroup, hg, ConsumerGroup.expire_idle htimely]

/-- The group is there after `active_group`, for any group. -/
theorem activeGroup_steady (hg : c.groups key = some g) (htimely : c.Timely env key g) (x : Key) :
    (c.activeGroup env x).2.groups key = some g := by
  by_cases hx : x = key
  · rw [hx, activeGroup_timely hg htimely]
    exact if_pos rfl
  · unfold activeGroup
    split
    · exact hg
    · split <;> exact (setGroup_other (Ne.symm hx) _).trans hg

theorem activeMember_steady (hg : c.groups key = some g) (htimely : c.Timely env key g)
    (id : GroupIdentity) : (c.activeMember env id).2.groups key = some g := by
  have hsteady := activeGroup_steady hg htimely id.key
  unfold activeMember
  split
  · rename_i hact
    rwa [hact] at hsteady
  · rename_i hact
    rw [hact] at hsteady
    split <;> exact hsteady

/-- Who gets past `validate_member` in a steady group. -/
theorem activeMember_found {c₁ : Coordinator} {g₁ : ConsumerGroup} {id : GroupIdentity}
    (hg : c.groups key = some g) (htimely : c.Timely env key g) (hid : id.key = key)
    (h : c.activeMember env id = (.ok g₁, c₁)) :
    g₁ = g ∧ id.generation = g.generation ∧ id.member ∈ g.members.keys := by
  have hsteady := activeMember_steady hg htimely id
  obtain ⟨hg₁, hgen, hmem⟩ := activeMember_ok h
  rw [h, ← hid] at hsteady
  rw [hg₁] at hsteady
  cases hsteady
  exact ⟨rfl, hgen, hmem⟩

theorem activeMember_timely {id : GroupIdentity} (hg : c.groups id.key = some g)
    (htimely : c.Timely env id.key g) (hgen : id.generation = g.generation)
    (hmem : id.member ∈ g.members.keys) :
    c.activeMember env id = (.ok g, c.setGroup id.key g) := by
  have hvalid : g.validateMember id.member id.generation = .ok () := by
    rw [ConsumerGroup.validateMember, if_neg (not_not.2 hgen), if_neg (not_not.2 hmem)]
  simp only [activeMember, activeGroup_timely hg htimely, hvalid]

/-- A member of a steady group joins again. -/
theorem joinMember_timely {member : String} (htimely : c.Timely env key g)
    (hmem : member ∈ g.members.keys) (hgen : g.generation ≠ 0) :
    c.joinMember env key member g =
      (.ok (), { g with members := g.members.insert member env.now }) := by
  have hnone : ¬ (member ∉ g.members.keys ∨ false = true ∨ g.generation = 0) := by
    simp only [hmem, not_true_eq_false, Bool.false_eq_true, hgen, or_self, not_false_eq_true]
  simp only [joinMember, ConsumerGroup.expireMembers_alive htimely]
  rw [if_neg hnone]

theorem expireLoop_steady (hg : c.groups key = some g) (htimely : c.Timely env key g)
    (keys : List Key) : (expireLoop env keys c).2.groups key = some g := by
  induction keys generalizing c with
  | nil => exact hg
  | cons x keys ih =>
    unfold expireLoop
    by_cases hx : x = key
    · simp only [hx, hg, ConsumerGroup.expire_idle htimely]
      exact ih (if_pos rfl) htimely
    · split
      · exact ih hg htimely
      · split
        · exact (setGroup_other (Ne.symm hx) _).trans hg
        · exact ih ((setGroup_other (Ne.symm hx) _).trans hg) htimely

theorem extendLoop_alike {topic : String} {partitions : Nat} {g₀ : ConsumerGroup}
    (hg : c.groups key = some g₀) (keys : List Key) :
    ∃ g', (extendLoop env topic partitions keys c).2.groups key = some g' ∧ Alike g₀ g' := by
  induction keys generalizing c g₀ with
  | nil => exact ⟨g₀, hg, .refl g₀⟩
  | cons x keys ih =>
    unfold extendLoop
    split
    · exact ih hg
    rename_i gx hgx
    split
    · split
      · exact ⟨g₀, hg, .refl g₀⟩
      · by_cases hx : x = key
        · rw [hx, hg] at hgx
          cases hgx
          obtain ⟨g', hg', halike⟩ := ih (c := c.setGroup x _) (if_pos hx.symm)
          exact ⟨g', hg', halike.generation, halike.assignments, halike.members⟩
        · exact ih ((setGroup_other (Ne.symm hx) _).trans hg)
    · exact ih hg

theorem join_alike (hg : c.groups key = some g)
    (hgen : ∀ m ∈ g.members.keys, g.generation ≠ 0)
    (htimely : c.Timely env key g) {group topic member : String}
    (hcalm : (group, topic) = key → member ∈ g.members.keys) :
    ∃ g', (c.join env group topic member).2.groups key = some g' ∧ Alike g g' := by
  rcases c.join_group env group topic member with heq | ⟨g₁, hjoined, heq⟩
  · rw [heq]
    exact ⟨g, hg, .refl g⟩
  rw [heq]
  by_cases hkey : (group, topic) = key
  · have hmem := hcalm hkey
    simp only [joinedGroup, hkey, hg] at hjoined
    cases hjoined
    rw [hkey, joinMember_timely htimely hmem (hgen member hmem)]
    exact ⟨_, if_pos rfl, rfl, rfl, Members.keys_insert hmem _⟩
  · exact ⟨g, (setGroup_other (Ne.symm hkey) _).trans hg, .refl g⟩

theorem heartbeat_alike (hg : c.groups key = some g) (htimely : c.Timely env key g)
    (id : GroupIdentity) : ∃ g', (c.heartbeat env id).2.groups key = some g' ∧ Alike g g' := by
  have hsteady := activeMember_steady hg htimely id
  unfold heartbeat
  split
  · rename_i hact
    rw [hact] at hsteady
    exact ⟨g, hsteady, .refl g⟩
  rename_i g₁ c₁ hact
  rw [hact] at hsteady
  by_cases hid : id.key = key
  · obtain ⟨rfl, _, hmem⟩ := activeMember_found hg htimely hid hact
    exact ⟨_, if_pos hid.symm, rfl, rfl, Members.keys_insert hmem _⟩
  · exact ⟨g, (setGroup_other (Ne.symm hid) _).trans hsteady, .refl g⟩

theorem leave_alike (hg : c.groups key = some g) (htimely : c.Timely env key g)
    {id : GroupIdentity} (hcalm : Calm key g (.leave id)) :
    (c.leave env id).2.groups key = some g := by
  have hsteady := activeMember_steady hg htimely id
  unfold leave
  split
  · rename_i hact
    rwa [hact] at hsteady
  rename_i g₁ c₁ hact
  rw [hact] at hsteady
  by_cases hid : id.key = key
  · obtain ⟨_, hgen, hmem⟩ := activeMember_found hg htimely hid hact
    exact absurd hmem (hcalm hid hgen)
  · exact (setGroup_other (Ne.symm hid) _).trans hsteady

theorem commit_alike (hg : c.groups key = some g) (htimely : c.Timely env key g)
    (id : GroupIdentity) (partition offset : Nat) :
    ∃ g', (c.commit env id partition offset).2.groups key = some g' ∧ Alike g g' := by
  have hsteady := activeMember_steady hg htimely id
  unfold commit
  split
  · rename_i hact
    rw [hact] at hsteady
    exact ⟨g, hsteady, .refl g⟩
  rename_i g₁ c₁ hact
  rw [hact] at hsteady
  split
  · split
    · exact ⟨g, hsteady, .refl g⟩
    · by_cases hid : id.key = key
      · obtain ⟨rfl, _⟩ := activeMember_found hg htimely hid hact
        exact ⟨_, if_pos hid.symm, rfl, rfl, rfl⟩
      · exact ⟨g, (setGroup_other (Ne.symm hid) _).trans hsteady, .refl g⟩
  · exact ⟨g, hsteady, .refl g⟩

/-- **One call** leaves a steady group as it is. -/
theorem handle_alike (hg : c.groups key = some g)
    (hgen : ∀ m ∈ g.members.keys, g.generation ≠ 0)
    (htimely : c.Timely env key g) {request : Request} (hcalm : Calm key g request) :
    ∃ g', (c.handle (env, request)).2.groups key = some g' ∧ Alike g g' := by
  cases request with
  | join group topic member => exact join_alike hg hgen htimely hcalm
  | heartbeat id => exact heartbeat_alike hg htimely id
  | leave id => exact ⟨g, leave_alike hg htimely hcalm, .refl g⟩
  | commit id partition offset => exact commit_alike hg htimely id partition offset
  | authorizeFetch id partition =>
    have hsteady := activeMember_steady hg htimely id
    refine ⟨g, ?_, .refl g⟩
    simp only [handle, authorizeFetch]
    split
    · rename_i hact
      rwa [hact] at hsteady
    · rename_i hact
      rw [hact] at hsteady
      split <;> exact hsteady
  | expireSessions => exact ⟨g, expireLoop_steady hg htimely env.order, .refl g⟩
  | setTopicPartitions topic partitions =>
    have hloop := fun counts => @extendLoop_alike { c with topicPartitionCounts := counts } env key
      topic partitions g hg env.order
    exact hloop _

end Coordinator

/-- At every call each member has been heard of in time, and the call is none that changes the
group. -/
def LeftAlone (timeout : Nat) (key : Key) (g : ConsumerGroup) (s : Sessions) (call : Call) : Prop :=
  (∀ m ∈ g.members.keys, ∀ t ∈ s.contacts key m, call.1.clock key m ≤ t + timeout) ∧
    Calm key g call.2

instance (timeout : Nat) (key : Key) (g : ConsumerGroup) (s : Sessions) :
    DecidablePred (LeftAlone timeout key g s) :=
  fun call => inferInstanceAs (Decidable
    ((∀ m ∈ g.members.keys, ∀ t ∈ s.contacts key m, call.1.clock key m ≤ t + timeout) ∧
      Calm key g call.2))

/-- What a steady group answers its members. -/
structure Steady (c : Coordinator) (env : Env) (key : Key) (g : ConsumerGroup) : Prop where
  heartbeat : ∀ id : GroupIdentity, id.key = key → id.generation = g.generation →
    id.member ∈ g.members.keys → (c.heartbeat env id).1 = .ok ()
  fetch : ∀ (id : GroupIdentity) p, id.key = key → id.generation = g.generation →
    id.member ∈ g.members.keys → g.owns id.member p → (c.authorizeFetch env id p).1 = .ok ()
  commit : ∀ (id : GroupIdentity) p offset, id.key = key → id.generation = g.generation →
    id.member ∈ g.members.keys → g.owns id.member p → (c.commit env id p offset).1 =
      (persistOffset c.disk env.fault c.offsetsDir id.group id.topic p offset).1
  join : ∀ m ∈ g.members.keys, (c.join env key.1 key.2 m).1 = .ok (g.generation, g.assigned m)

theorem Steady.of_timely {c : Coordinator} {env : Env} {key : Key} {g : ConsumerGroup}
    (hg : c.groups key = some g) (hgen : ∀ m ∈ g.members.keys, g.generation ≠ 0)
    (hnamed : ∀ m ∈ g.members.keys, validateId key.1 = .ok () ∧ validateId key.2 = .ok () ∧
      validateId m = .ok ())
    (htimely : c.Timely env key g) : Steady c env key g where
  heartbeat := by
    rintro id rfl hid hmem
    simp only [Coordinator.heartbeat, Coordinator.activeMember_timely hg htimely hid hmem]
  fetch := by
    rintro id p rfl hid hmem howns
    simp only [Coordinator.authorizeFetch, Coordinator.activeMember_timely hg htimely hid hmem,
      howns, if_true]
  commit := by
    rintro id p offset rfl hid hmem howns
    simp only [Coordinator.commit, Coordinator.activeMember_timely hg htimely hid hmem, howns,
      if_true]
    rcases hpersist : persistOffset c.disk env.fault c.offsetsDir id.group id.topic p offset with
      ⟨_ | _, disk⟩
    · simp only [Coordinator.setGroup, hpersist]
    · simp only [Coordinator.setGroup, hpersist]
  join := by
    intro m hmem
    obtain ⟨hgroup, htopic, hmember⟩ := hnamed m hmem
    simp only [Coordinator.join, hgroup, htopic, hmember, Coordinator.joinedGroup, hg,
      Coordinator.joinMember_timely htimely hmem (hgen m hmem)]
    rfl

theorem Steady.of_alike {c : Coordinator} {env : Env} {key : Key} {g g' : ConsumerGroup}
    (h : Steady c env key g') (halike : Alike g g') : Steady c env key g where
  heartbeat := by
    intro id hkey hgen hmem
    rw [← halike.generation] at hgen
    rw [← halike.members] at hmem
    exact h.heartbeat id hkey hgen hmem
  fetch := by
    intro id p hkey hgen hmem howns
    rw [← halike.generation] at hgen
    rw [← halike.members] at hmem
    rw [ConsumerGroup.owns, ← halike.assignments] at howns
    exact h.fetch id p hkey hgen hmem howns
  commit := by
    intro id p offset hkey hgen hmem howns
    rw [← halike.generation] at hgen
    rw [← halike.members] at hmem
    rw [ConsumerGroup.owns, ← halike.assignments] at howns
    exact h.commit id p offset hkey hgen hmem howns
  join := by
    intro m hmem
    rw [← halike.members] at hmem
    rw [h.join m hmem, halike.generation, ConsumerGroup.assigned, halike.assignments]
    rfl

theorem Sessions.Recorded.timely {timeout : Nat} {s : Sessions} (h : s.Recorded timeout) {env : Env}
    {key : Key} {g : ConsumerGroup} (hg : s.coordinator.groups key = some g)
    (hin : ∀ m ∈ g.members.keys, ∀ t ∈ s.contacts key m, env.clock key m ≤ t + timeout) :
    s.coordinator.Timely env key g := by
  intro e he
  have hcontact := h.entries key e (by rw [Coordinator.group_of_some hg]; exact he)
  have hle := hin e.1 (List.mem_map_of_mem he) e.2 hcontact
  rw [h.timeout]
  omega

/-- Who is in a group was numbered in. -/
def Numbered (c : Coordinator) : Prop :=
  ∀ key, ∀ m ∈ (c.group key).members.keys, (c.group key).generation ≠ 0

theorem Numbered.handle {c : Coordinator} (h : Numbered c) (call : Call) :
    Numbered (c.handle call).2 := by
  intro key m hm
  cases c.handle_moved call key with
  | kept hgen hkeys _ =>
    rw [hgen]
    exact h key m (hkeys ▸ hm)
  | rebalanced _ hlt _ _ => exact Nat.ne_of_gt (Nat.lt_of_le_of_lt (Nat.zero_le _) hlt)
  | overflow hmax hgen _ =>
    rw [hgen]
    exact Nat.ne_of_gt (Nat.lt_of_lt_of_le (by decide) hmax)

namespace Sessions

variable {timeout : Nat} {s : Sessions}

/-- Who was heard of has a valid name, and so have the group and its topic. -/
def Named (s : Sessions) : Prop :=
  ∀ key m, (s.contacts key m).isSome →
    validateId key.1 = .ok () ∧ validateId key.2 = .ok () ∧ validateId m = .ok ()

/-- A heartbeat is accepted from a member only, and that was heard of before. -/
theorem Named.serve (h : s.Named) (hr : s.Recorded timeout) (call : Call) :
    (s.serve call).Named := by
  obtain ⟨env, request⟩ := call
  intro key m hm
  unfold Sessions.serve at hm
  dsimp only at hm
  generalize hheard : heardOf request (s.coordinator.handle (env, request)).1 = heard at hm
  cases heard with
  | none => exact h key m hm
  | some x =>
    obtain ⟨key', member⟩ := x
    dsimp only at hm
    by_cases hnew : key = key' ∧ m = member
    · obtain ⟨rfl, rfl⟩ := hnew
      unfold heardOf at hheard
      split at hheard
      · split at hheard
        · rename_i hgroup htopic hmember
          cases hheard
          exact ⟨hgroup, htopic, hmember⟩
        · cases hheard
      · rename_i id hok
        cases hheard
        obtain ⟨g, c₁, hact, _⟩ := @Coordinator.handle_alive _ env (.heartbeat id) id rfl hok
        obtain ⟨_, _, hmem⟩ := Coordinator.activeMember_ok hact
        obtain ⟨e, he, heq⟩ := List.mem_map.1 hmem
        refine h _ _ ?_
        rw [← heq, hr.entries _ e (Coordinator.activeMember_alive hact e he).1]
        rfl
      · cases hheard
    · rw [if_neg hnew] at hm
      exact h key m hm

/-- **What is known of every group** of a coordinator. -/
structure Known (timeout : Nat) (s : Sessions) : Prop where
  recorded : s.Recorded timeout
  named : s.Named
  numbered : Numbered s.coordinator

theorem Known.start {disk : Disk} {dataDir : Path} {n : Nat} {c : Coordinator}
    (h : Coordinator.openDir disk dataDir n timeout = .ok c) : Known timeout (.start c) where
  recorded := .start h
  named := fun _ _ hnone => by cases hnone
  numbered := by
    intro key m hm
    obtain ⟨offsets, hnew⟩ := Coordinator.openDir_new h key
    simp only [Sessions.start, hnew] at hm
    exact absurd hm List.not_mem_nil

theorem Known.serve (h : s.Known timeout) (call : Call) : (s.serve call).Known timeout :=
  ⟨h.recorded.serve call, h.named.serve h.recorded call, h.numbered.handle call⟩

theorem Known.after (h : s.Known timeout) (calls : List Call) : (s.after calls).Known timeout :=
  after_invariant (fun _ call hs => hs.serve call) h calls

theorem Known.member {key : Key} {g : ConsumerGroup} (h : s.Known timeout)
    (hg : s.coordinator.groups key = some g) :
    ∀ m ∈ g.members.keys, g.generation ≠ 0 ∧ validateId key.1 = .ok () ∧
      validateId key.2 = .ok () ∧ validateId m = .ok () := by
  rw [← Coordinator.group_of_some hg]
  intro m hm
  obtain ⟨e, he, rfl⟩ := List.mem_map.1 hm
  exact ⟨h.numbered key _ hm, h.named key e.1 (by rw [h.recorded.entries key e he]; rfl)⟩

end Sessions

/-- **A group whose members are heard of in time is left alone.**  Whatever else is called, it keeps
its generation, its members and their partitions; its members' heartbeats and fetches are accepted,
their commits fail only with the file system, and a member that joins again gets the same partitions
in the same generation. -/
theorem steady_group {disk : Disk} {dataDir : Path} {partitionCount timeout : Nat} {c : Coordinator}
    (h₀ : Coordinator.openDir disk dataDir partitionCount timeout = .ok c) {past calls : List Call}
    {key : Key} {g : ConsumerGroup} (hg : (c.after past).groups key = some g)
    (halone : Along (fun s call => some (s.serve call)) (LeftAlone timeout key g)
      ((Sessions.start c).after past) calls) :
    let s := (Sessions.start c).after (past ++ calls)
    ∃ g', s.coordinator.groups key = some g' ∧ Alike g g' ∧
      ∀ env : Env,
        (∀ m ∈ g.members.keys, ∀ t ∈ s.contacts key m, env.clock key m ≤ t + timeout) →
          Steady s.coordinator env key g := by
  intro s
  have hstart : ∃ g', ((Sessions.start c).after past).coordinator.groups key = some g' ∧
      Alike g g' := by
    rw [Sessions.after_coordinator]
    exact ⟨g, hg, .refl g⟩
  have hrun : run (fun s call => some (Sessions.serve s call)) ((Sessions.start c).after past)
      calls = some s := by
    rw [run_total]
    exact congrArg some (List.foldl_append ..).symm
  have hend := run_invariant (P := fun s => s.Known timeout ∧
      ∃ g', s.coordinator.groups key = some g' ∧ Alike g g') ?_
    ⟨(Sessions.Known.start h₀).after past, hstart⟩ halone hrun
  · obtain ⟨hknown, g', hg', halike⟩ := hend
    refine ⟨g', hg', halike, fun env hin => ?_⟩
    rw [← halike.members] at hin
    have hmembers := hknown.member hg'
    have hsteady := Steady.of_timely hg' (fun m hm => (hmembers m hm).1)
      (fun m hm => (hmembers m hm).2) (hknown.recorded.timely hg' hin)
    exact hsteady.of_alike halike
  · rintro s call s' ⟨hknown, g', hg', halike⟩ ⟨hin, hcalm⟩ hs
    cases hs
    refine ⟨hknown.serve call, ?_⟩
    rw [← halike.members] at hin
    have hcalm' : Calm key g' call.2 := by
      unfold Calm at hcalm ⊢
      rwa [halike.members, halike.generation]
    obtain ⟨g₁, hg₁, halike₁⟩ := Coordinator.handle_alike hg'
      (fun m hm => (hknown.member hg' m hm).1) (hknown.recorded.timely hg' hin) hcalm'
    exact ⟨g₁, hg₁, halike.trans halike₁⟩

/-- Two workers send heartbeats and commit, and a third one works on another topic. -/
def busyCalls : List Call :=
  [(envAt 8, .heartbeat ⟨"workers", "payments", "worker-a", 2⟩),
    (envAt 9, .join "workers" "refunds" "worker-c"),
    (envAt 12, .join "workers" "payments" "worker-b"),
    (envAt 14, .commit ⟨"workers", "payments", "worker-a", 2⟩ 0 7),
    (envAt 16, .expireSessions)]

theorem steady_group_busy :
    ∃ c, Coordinator.openDir ⟨[[]], fun _ => none⟩ ["data"] 3 10 = .ok c ∧
      ((c.after (workersJoin ++ busyCalls)).heartbeat (envAt 18)
        ⟨"workers", "payments", "worker-a", 2⟩).1 = .ok () := by
  refine ⟨_, rfl, ?_⟩
  obtain ⟨g', hg', halike, hserves⟩ := @steady_group ⟨[[]], fun _ => none⟩ ["data"] 3 10 _ rfl
    workersJoin busyCalls ("workers", "payments") _
    (Coordinator.group_of_isSome (by decide +kernel)) (by decide +kernel)
  have hsteady := (hserves (envAt 18) (by decide +kernel)).heartbeat
    ⟨"workers", "payments", "worker-a", 2⟩ rfl (by decide +kernel) (by decide +kernel)
  rwa [Sessions.after_coordinator] at hsteady

end SevlaMq.Group

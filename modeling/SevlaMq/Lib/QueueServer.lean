import Mathlib.Data.List.Nodup
import SevlaMq.Lib.Run

/-!
# An object behind a bounded queue

Any number of callers send commands to one object through a queue of limited length.  A caller waits
for room in the queue, may give up as long as there is none, and otherwise waits for the reply; the
object performs what is in the queue one after the other.

* `QueueServer.step` — the steps of the callers and of the object, in any order.
* `Replays` — commands that an object performs one after the other, with their replies.
* `Serial` — the invariant: the object is what the accepted commands make of it in the order of the
  queue, and a caller has the reply of its own command.
* `served_before` — a call that has returned comes before every call that is made afterwards.
* `drained` — what was accepted is performed when the object is left alone.
-/

set_option autoImplicit false

namespace SevlaMq

variable {σ κ ρ : Type}

/-- Where a call stands. -/
inductive QueuedCall (κ ρ : Type) where
  | idle
  | sending (command : κ)
  | queued (command : κ)
  | replied (command : κ) (reply : ρ)
  | returned (command : κ) (reply : ρ)
  -- the caller gave up before there was room
  | refused (command : κ)
  -- the caller is gone
  | dropped
  deriving DecidableEq, Repr

/-- A command that was performed, and what came of it. -/
structure Served (κ ρ : Type) where
  id : Nat
  command : κ
  reply : ρ
  deriving DecidableEq, Repr

/-- The object, the queue in front of it, the calls, and what was performed so far. -/
structure QueueServer (σ κ ρ : Type) where
  object : σ
  queue : List (Nat × κ)
  calls : Nat → QueuedCall κ ρ
  served : List (Served κ ρ)

inductive QueueAction (κ : Type) where
  | call (id : Nat) (command : κ)
  | send (id : Nat)
  | giveUp (id : Nat)
  | perform
  | receive (id : Nat)
  | drop (id : Nat)
  deriving DecidableEq, Repr

namespace QueueServer

def start (object : σ) : QueueServer σ κ ρ := ⟨object, [], fun _ => .idle, []⟩

def setCall (s : QueueServer σ κ ρ) (id : Nat) (c : QueuedCall κ ρ) : QueueServer σ κ ρ :=
  { s with calls := fun i => if i = id then c else s.calls i }

/-- The reply reaches the caller if it still waits. -/
def reply (s : QueueServer σ κ ρ) (id : Nat) (command : κ) (r : ρ) : QueueServer σ κ ρ :=
  match s.calls id with
  | .queued _ => s.setCall id (.replied command r)
  | _ => s

/-- One step, with `serve` for the object and room for `capacity` commands. -/
def step (serve : σ → κ → ρ × σ) (capacity : Nat) (s : QueueServer σ κ ρ) :
    QueueAction κ → Option (QueueServer σ κ ρ)
  | .call id command =>
    match s.calls id with
    | .idle => some (s.setCall id (.sending command))
    | _ => none
  | .send id =>
    match s.calls id with
    | .sending command =>
      if s.queue.length < capacity then
        some { s.setCall id (.queued command) with queue := s.queue ++ [(id, command)] }
      else none
    | _ => none
  | .giveUp id =>
    match s.calls id with
    | .sending command => some (s.setCall id (.refused command))
    | _ => none
  | .perform =>
    match s.queue with
    | [] => none
    | (id, command) :: queue =>
      let (r, object) := serve s.object command
      some { s.reply id command r with object, queue, served := s.served ++ [⟨id, command, r⟩] }
  | .receive id =>
    match s.calls id with
    | .replied command r => some (s.setCall id (.returned command r))
    | _ => none
  | .drop id =>
    match s.calls id with
    | .sending _ => some (s.setCall id .dropped)
    | .queued _ => some (s.setCall id .dropped)
    | .replied _ _ => some (s.setCall id .dropped)
    | _ => none

/-- What was accepted, in the order of the queue. -/
def accepted (s : QueueServer σ κ ρ) : List (Nat × κ) :=
  s.served.map (fun x => (x.id, x.command)) ++ s.queue

end QueueServer

/-! ## One command after the other -/

/-- The object performs the commands one after the other, with these replies. -/
inductive Replays (serve : σ → κ → ρ × σ) : σ → List (Served κ ρ) → σ → Prop
  | nil (object : σ) : Replays serve object [] object
  | concat {object object' : σ} {served : List (Served κ ρ)}
      (h : Replays serve object served object') (id : Nat) (command : κ) :
      Replays serve object (served ++ [⟨id, command, (serve object' command).1⟩])
        (serve object' command).2

/-- The object at the end is the result of a fold. -/
theorem Replays.object_eq {serve : σ → κ → ρ × σ} {object object' : σ} {served : List (Served κ ρ)}
    (h : Replays serve object served object') :
    object' = (served.map (·.command)).foldl (fun o c => (serve o c).2) object := by
  induction h with
  | nil => rfl
  | concat h id command ih => rw [List.map_append, List.foldl_append, ← ih]; rfl

/-- A reply is what the object answers after the commands before it. -/
theorem Replays.reply_eq {serve : σ → κ → ρ × σ} {object object' : σ}
    {served before rest : List (Served κ ρ)} {x : Served κ ρ}
    (h : Replays serve object served object') (hx : served = before ++ x :: rest) :
    x.reply =
      (serve ((before.map (·.command)).foldl (fun o c => (serve o c).2) object) x.command).1 := by
  induction h generalizing rest with
  | nil => exact absurd hx (by simp)
  | @concat object₁ served h id command ih =>
    rcases List.eq_nil_or_concat rest with rfl | ⟨rest', last, rfl⟩
    · obtain ⟨rfl, hlast⟩ := List.append_inj' hx rfl
      cases hlast
      rw [← h.object_eq]
    · have hx' : served ++ [⟨id, command, (serve object₁ command).1⟩] =
          (before ++ x :: rest') ++ [last] := by
        rw [hx, List.concat_eq_append, List.append_assoc, List.cons_append]
      exact ih (List.append_inj' hx' rfl).1

/-! ## The invariant -/

namespace QueueServer

variable {serve : σ → κ → ρ × σ} {capacity : Nat} {start : σ} {s s' : QueueServer σ κ ρ}

@[simp] theorem setCall_calls (id i : Nat) (c : QueuedCall κ ρ) :
    (s.setCall id c).calls i = if i = id then c else s.calls i := rfl

/-- The first of the queue moves behind it. -/
theorem accepted_performed {id : Nat} {command : κ} {queue : List (Nat × κ)}
    (hqueue : s.queue = (id, command) :: queue) (object : σ) (calls : Nat → QueuedCall κ ρ)
    (r : ρ) :
    (⟨object, queue, calls, s.served ++ [⟨id, command, r⟩]⟩ : QueueServer σ κ ρ).accepted =
      s.accepted := by
  unfold accepted
  rw [hqueue, List.map_append, List.append_assoc]
  rfl

theorem reply_calls (s : QueueServer σ κ ρ) (id i : Nat) (command : κ) (r : ρ) :
    (s.reply id command r).calls i = s.calls i ∨
      (i = id ∧ (∃ c, s.calls id = .queued c) ∧
        (s.reply id command r).calls i = .replied command r) := by
  unfold reply
  split
  · rename_i c hc
    rw [setCall_calls]
    split
    · rename_i heq
      exact Or.inr ⟨heq, ⟨c, hc⟩, rfl⟩
    · exact Or.inl rfl
  · exact Or.inl rfl

/-- The command was accepted, and nothing else was made of the call. -/
def Taken (command : κ) : QueuedCall κ ρ → Prop
  | .queued c => c = command
  | .replied c _ => c = command
  | .returned c _ => c = command
  | .dropped => True
  | _ => False

structure Serial (serve : σ → κ → ρ × σ) (capacity : Nat) (start : σ) (s : QueueServer σ κ ρ) :
    Prop where
  replays : Replays serve start s.served s.object
  once : (s.accepted.map Prod.fst).Nodup
  taken : ∀ x ∈ s.accepted, Taken x.2 (s.calls x.1)
  waiting : ∀ id command, s.calls id = .queued command → (id, command) ∈ s.queue
  answered : ∀ id command r, s.calls id = .replied command r ∨ s.calls id = .returned command r →
    ⟨id, command, r⟩ ∈ s.served
  bounded : s.queue.length ≤ capacity

namespace Serial

theorem init (serve : σ → κ → ρ × σ) (capacity : Nat) (object : σ) :
    Serial serve capacity object (QueueServer.start object) where
  replays := .nil object
  once := List.nodup_nil
  taken := fun x hx => absurd hx List.not_mem_nil
  waiting := fun id command h => by cases h
  answered := fun id command r h => by rcases h with h | h <;> cases h
  bounded := Nat.zero_le _

/-- A call that was not accepted has no command in the queue or behind it. -/
theorem not_accepted (h : Serial serve capacity start s) (id : Nat)
    (hid : ∀ command, ¬ Taken command (s.calls id)) : ∀ x ∈ s.accepted, x.1 ≠ id := by
  rintro x hx rfl
  exact hid x.2 (h.taken x hx)

/-- Only the call `id` changes, and what was taken or answered of it stays so. -/
theorem setCall (h : Serial serve capacity start s) {id : Nat} {c : QueuedCall κ ρ}
    (htaken : ∀ command, Taken command (s.calls id) → Taken command c)
    (hqueued : ∀ command, c ≠ .queued command)
    (hanswered : ∀ command r, c = .replied command r ∨ c = .returned command r →
      ⟨id, command, r⟩ ∈ s.served) : Serial serve capacity start (s.setCall id c) where
  replays := h.replays
  once := h.once
  taken := by
    intro x hx
    rw [setCall_calls]
    split
    · rename_i heq
      exact htaken x.2 (heq ▸ h.taken x hx)
    · exact h.taken x hx
  waiting := by
    intro i command hi
    rw [setCall_calls] at hi
    split at hi
    · exact absurd hi (hqueued command)
    · exact h.waiting i command hi
  answered := by
    intro i command r hi
    rw [setCall_calls] at hi
    split at hi
    · rename_i heq
      exact heq ▸ hanswered command r hi
    · exact h.answered i command r hi
  bounded := h.bounded

/-- A command is performed once. -/
theorem served_ids (h : Serial serve capacity start s) : (s.served.map (·.id)).Nodup := by
  have honce := h.once
  unfold accepted at honce
  rw [List.map_append, List.map_map] at honce
  exact (List.nodup_append.1 honce).1

/-- The reply of a command that was performed is on its way to the caller, or has reached it, unless
the caller is gone. -/
theorem outcome (h : Serial serve capacity start s) {x : Served κ ρ} (hx : x ∈ s.served) :
    s.calls x.id = .replied x.command x.reply ∨ s.calls x.id = .returned x.command x.reply ∨
      s.calls x.id = .dropped := by
  have hsame : ∀ command r, ⟨x.id, command, r⟩ ∈ s.served → command = x.command ∧ r = x.reply := by
    intro command r hmem
    have heq : (⟨x.id, command, r⟩ : Served κ ρ) = x :=
      List.inj_on_of_nodup_map h.served_ids hmem hx rfl
    exact ⟨congrArg (·.command) heq, congrArg (·.reply) heq⟩
  have htaken := h.taken (x.id, x.command)
    (List.mem_append_left _ (List.mem_map.2 ⟨x, hx, rfl⟩))
  cases hcall : s.calls x.id with
  | queued command =>
    -- then the command would be in the queue a second time
    have honce := h.once
    unfold accepted at honce
    rw [List.map_append, List.map_map] at honce
    exact absurd rfl ((List.nodup_append.1 honce).2.2 x.id (List.mem_map.2 ⟨x, hx, rfl⟩) x.id
      (List.mem_map.2 ⟨_, h.waiting x.id command hcall, rfl⟩))
  | replied command r =>
    obtain ⟨rfl, rfl⟩ := hsame command r (h.answered x.id command r (Or.inl hcall))
    exact Or.inl rfl
  | returned command r =>
    obtain ⟨rfl, rfl⟩ := hsame command r (h.answered x.id command r (Or.inr hcall))
    exact Or.inr (Or.inl rfl)
  | dropped => exact Or.inr (Or.inr rfl)
  | idle | sending command | refused command =>
    rw [hcall] at htaken
    exact htaken.elim

/-- **A command is accepted.** -/
theorem send (h : Serial serve capacity start s) {id : Nat} {command : κ}
    (hsending : s.calls id = .sending command) (hroom : s.queue.length < capacity) :
    Serial serve capacity start
      { s.setCall id (.queued command) with queue := s.queue ++ [(id, command)] } := by
  have hnew := h.not_accepted id fun c hc => by
    rw [hsending] at hc
    exact hc
  have haccepted : ({ s.setCall id (.queued command) with
      queue := s.queue ++ [(id, command)] } : QueueServer σ κ ρ).accepted =
        s.accepted ++ [(id, command)] := (List.append_assoc _ _ _).symm
  constructor
  · exact h.replays
  · rw [haccepted, List.map_append]
    refine List.nodup_append.2 ⟨h.once, List.pairwise_singleton _ _, ?_⟩
    intro a ha b hb
    obtain ⟨x, hx, rfl⟩ := List.mem_map.1 ha
    rw [List.map_singleton, List.mem_singleton] at hb
    rw [hb]
    exact hnew x hx
  · intro x hx
    rw [haccepted] at hx
    change Taken x.2 ((s.setCall id (.queued command)).calls x.1)
    rw [setCall_calls]
    rcases List.mem_append.1 hx with hold | hlast
    · rw [if_neg (hnew x hold)]
      exact h.taken x hold
    · rw [List.mem_singleton.1 hlast, if_pos rfl]
      rfl
  · intro i c hi
    change (s.setCall id (.queued command)).calls i = .queued c at hi
    rw [setCall_calls] at hi
    split at hi
    · rename_i heq
      cases hi
      exact List.mem_append_right _ (by rw [heq]; exact List.mem_singleton.2 rfl)
    · exact List.mem_append_left _ (h.waiting i c hi)
  · intro i c r hi
    change (s.setCall id (.queued command)).calls i = .replied c r ∨
      (s.setCall id (.queued command)).calls i = .returned c r at hi
    rw [setCall_calls] at hi
    split at hi
    · rcases hi with hi | hi <;> cases hi
    · exact h.answered i c r hi
  · change (s.queue ++ [(id, command)]).length ≤ capacity
    rw [List.length_append]
    exact hroom

/-- **The first command is performed.** -/
theorem perform (h : Serial serve capacity start s) {id : Nat} {command : κ}
    {queue : List (Nat × κ)} (hqueue : s.queue = (id, command) :: queue) :
    Serial serve capacity start
      { s.reply id command (serve s.object command).1 with
        object := (serve s.object command).2
        queue := queue
        served := s.served ++ [⟨id, command, (serve s.object command).1⟩] } := by
  have haccepted := accepted_performed hqueue (serve s.object command).2
    (s.reply id command (serve s.object command).1).calls (serve s.object command).1
  have hmem : (id, command) ∈ s.accepted :=
    List.mem_append_right _ (by rw [hqueue]; exact List.mem_cons_self)
  constructor
  · exact .concat h.replays id command
  · rw [haccepted]
    exact h.once
  · intro x hx
    rw [haccepted] at hx
    have hx' := h.taken x hx
    rcases reply_calls s id x.1 command (serve s.object command).1 with hsame | ⟨heq, ⟨c, hc⟩, hnew⟩
    · change Taken x.2 ((s.reply id command (serve s.object command).1).calls x.1)
      rw [hsame]
      exact hx'
    · change Taken x.2 ((s.reply id command (serve s.object command).1).calls x.1)
      rw [hnew]
      rw [heq, hc] at hx'
      have hid := h.taken _ hmem
      rw [hc] at hid
      exact hid.symm.trans hx'
  · intro i c hi
    change (s.reply id command (serve s.object command).1).calls i = .queued c at hi
    rcases reply_calls s id i command (serve s.object command).1 with hsame | ⟨_, _, hnew⟩
    · rw [hsame] at hi
      have hin := h.waiting i c hi
      rw [hqueue] at hin
      rcases List.mem_cons.1 hin with hhead | htail
      · -- the reply would have reached the caller
        cases hhead
        have : (s.reply id command (serve s.object command).1).calls id =
            .replied command (serve s.object command).1 := by
          unfold reply
          rw [hi]
          exact if_pos rfl
        rw [hsame, hi] at this
        cases this
      · exact htail
    · rw [hnew] at hi
      cases hi
  · intro i c r hi
    change (s.reply id command (serve s.object command).1).calls i = .replied c r ∨
      (s.reply id command (serve s.object command).1).calls i = .returned c r at hi
    rcases reply_calls s id i command (serve s.object command).1 with hsame | ⟨rfl, _, hnew⟩
    · rw [hsame] at hi
      exact List.mem_append_left _ (h.answered i c r hi)
    · rw [hnew] at hi
      rcases hi with hi | hi
      · cases hi
        exact List.mem_append_right _ (List.mem_singleton.2 rfl)
      · cases hi
  · have := h.bounded
    rw [hqueue] at this
    exact Nat.le_of_succ_le this

/-- **One step.** -/
theorem step (h : Serial serve capacity start s) {a : QueueAction κ}
    (hs : QueueServer.step serve capacity s a = some s') : Serial serve capacity start s' := by
  cases a with
  | call id command =>
    simp only [QueueServer.step] at hs
    split at hs
    · rename_i hidle
      cases hs
      exact h.setCall (fun c hc => by rw [hidle] at hc; exact hc.elim) (fun c hc => by cases hc)
        (fun c r hc => by rcases hc with hc | hc <;> cases hc)
    · cases hs
  | send id =>
    simp only [QueueServer.step] at hs
    split at hs
    · rename_i command hsending
      split at hs
      · rename_i hroom
        cases hs
        exact h.send hsending hroom
      · cases hs
    · cases hs
  | giveUp id =>
    simp only [QueueServer.step] at hs
    split at hs
    · rename_i command hsending
      cases hs
      exact h.setCall (fun c hc => by rw [hsending] at hc; exact hc.elim) (fun c hc => by cases hc)
        (fun c r hc => by rcases hc with hc | hc <;> cases hc)
    · cases hs
  | perform =>
    simp only [QueueServer.step] at hs
    split at hs
    · cases hs
    · rename_i id command queue hqueue
      cases hs
      exact h.perform hqueue
  | receive id =>
    simp only [QueueServer.step] at hs
    split at hs
    · rename_i command r hreplied
      cases hs
      refine h.setCall (fun c hc => by rw [hreplied] at hc; exact hc) (fun c hc => by cases hc) ?_
      rintro c r' (hc | hc)
      · cases hc
      · cases hc
        exact h.answered id command r (Or.inl hreplied)
    · cases hs
  | drop id =>
    simp only [QueueServer.step] at hs
    have hdropped : Serial serve capacity start (s.setCall id .dropped) :=
      h.setCall (fun c _ => trivial) (fun c hc => by cases hc)
        (fun c r hc => by rcases hc with hc | hc <;> cases hc)
    split at hs <;> cases hs <;> exact hdropped

/-- **Any run.** -/
theorem of_run {acts : List (QueueAction κ)} {object : σ}
    (h : run (QueueServer.step serve capacity) (QueueServer.start object) acts = some s) :
    Serial serve capacity object s :=
  run_invariant (Q := fun _ _ => True) (fun _ _ _ hp _ hs => hp.step hs)
    (init serve capacity object) (.of_forall fun _ _ => trivial) h

end Serial

/-- Commands are sent and accepted for calls that were made. -/
structure Called (past : List (QueueAction κ)) (s : QueueServer σ κ ρ) : Prop where
  sending : ∀ id command, s.calls id = .sending command → .call id command ∈ past
  accepted : ∀ x ∈ s.accepted, .call x.1 x.2 ∈ past

theorem Called.setCall {past : List (QueueAction κ)} {a : QueueAction κ} {id : Nat}
    {c : QueuedCall κ ρ} (h : Called past s)
    (hc : ∀ command, c = .sending command → a = .call id command) :
    Called (past ++ [a]) (s.setCall id c) where
  sending := by
    intro i command hi
    rw [setCall_calls] at hi
    split at hi
    · rename_i heq
      rw [heq, hc command hi]
      exact List.mem_append_right _ (List.mem_singleton.2 rfl)
    · exact List.mem_append_left _ (h.sending i command hi)
  accepted := fun x hx => List.mem_append_left _ (h.accepted x hx)

theorem Called.step {past : List (QueueAction κ)} {a : QueueAction κ} (h : Called past s)
    (hs : QueueServer.step serve capacity s a = some s') : Called (past ++ [a]) s' := by
  cases a with
  | call id command =>
    simp only [QueueServer.step] at hs
    split at hs
    · cases hs
      exact h.setCall fun c hc => by cases hc; rfl
    · cases hs
  | send id =>
    simp only [QueueServer.step] at hs
    split at hs
    · rename_i command hsending
      split at hs
      · cases hs
        have hcall : Called (past ++ [.send id]) (s.setCall id (.queued command)) :=
          h.setCall fun c hc => by cases hc
        refine ⟨hcall.sending, fun x hx => ?_⟩
        rcases List.mem_append.1 (show x ∈ s.accepted ++ [(id, command)] from
          (List.append_assoc _ _ _).symm ▸ hx) with hx | hx
        · exact List.mem_append_left _ (h.accepted x hx)
        · rw [List.mem_singleton.1 hx]
          exact List.mem_append_left _ (h.sending id command hsending)
      · cases hs
    · cases hs
  | giveUp id =>
    simp only [QueueServer.step] at hs
    split at hs
    · cases hs
      exact h.setCall fun c hc => by cases hc
    · cases hs
  | perform =>
    simp only [QueueServer.step] at hs
    split at hs
    · cases hs
    · rename_i id command queue hqueue
      cases hs
      refine ⟨fun i c hi => ?_, fun x hx => ?_⟩
      · rcases reply_calls s id i command (serve s.object command).1 with hsame | ⟨_, _, hnew⟩
        · exact List.mem_append_left _ (h.sending i c (hsame.symm.trans hi))
        · cases hnew.symm.trans hi
      · rw [accepted_performed hqueue] at hx
        exact List.mem_append_left _ (h.accepted x hx)
  | receive id =>
    simp only [QueueServer.step] at hs
    split at hs
    · cases hs
      exact h.setCall fun c hc => by cases hc
    · cases hs
  | drop id =>
    simp only [QueueServer.step] at hs
    have hdropped : Called (past ++ [.drop id]) (s.setCall id .dropped) :=
      h.setCall fun c hc => by cases hc
    split at hs <;> cases hs <;> exact hdropped

/-- What is accepted in a run was called in it. -/
theorem Called.of_run {acts : List (QueueAction κ)} {object : σ}
    (h : run (QueueServer.step serve capacity) (QueueServer.start object) acts = some s) :
    Called acts s := by
  have hstart : Called [] (QueueServer.start object : QueueServer σ κ ρ) := by
    refine ⟨fun id command hid => ?_, fun x hx => absurd hx List.not_mem_nil⟩
    cases hid
  exact run_history (Q := fun _ _ => True) (P := Called)
    (fun _ _ _ _ hp _ hs => hp.step hs) hstart (.of_forall fun _ _ => trivial) h

/-! ## The order of the calls -/

/-- What a step leaves of the past. -/
structure Later (s s' : QueueServer σ κ ρ) : Prop where
  served : s.served <+: s'.served
  accepted : s.accepted <+: s'.accepted
  refused : ∀ id command, s.calls id = .refused command → s'.calls id = .refused command
  returned : ∀ id command r, s.calls id = .returned command r → s'.calls id = .returned command r

theorem Later.refl (s : QueueServer σ κ ρ) : Later s s :=
  ⟨List.prefix_rfl, List.prefix_rfl, fun _ _ h => h, fun _ _ _ h => h⟩

theorem Later.trans {s₁ : QueueServer σ κ ρ} (h : Later s s₁) (h' : Later s₁ s') : Later s s' :=
  ⟨h.served.trans h'.served, h.accepted.trans h'.accepted,
    fun id command hc => h'.refused id command (h.refused id command hc),
    fun id command r hc => h'.returned id command r (h.returned id command r hc)⟩

/-- A call changes that has not come to its end. -/
theorem Later.setCall {id : Nat} {c : QueuedCall κ ρ}
    (hrefused : ∀ command, s.calls id ≠ .refused command)
    (hreturned : ∀ command r, s.calls id ≠ .returned command r) : Later s (s.setCall id c) where
  served := List.prefix_rfl
  accepted := List.prefix_rfl
  refused := by
    intro i command hi
    rw [setCall_calls, if_neg]
    · exact hi
    · rintro rfl
      exact hrefused command hi
  returned := by
    intro i command r hi
    rw [setCall_calls, if_neg]
    · exact hi
    · rintro rfl
      exact hreturned command r hi

theorem Later.of_step {a : QueueAction κ} (hs : step serve capacity s a = some s') :
    Later s s' := by
  cases a with
  | call id command =>
    simp only [step] at hs
    split at hs
    · rename_i hidle
      cases hs
      exact .setCall (fun c hc => by rw [hidle] at hc; cases hc)
        (fun c r hc => by rw [hidle] at hc; cases hc)
    · cases hs
  | send id =>
    simp only [step] at hs
    split at hs
    · rename_i command hsending
      split at hs
      · cases hs
        have hcall : Later s (s.setCall id (.queued command)) :=
          .setCall (fun c hc => by rw [hsending] at hc; cases hc)
            (fun c r hc => by rw [hsending] at hc; cases hc)
        refine ⟨hcall.served, ⟨[(id, command)], ?_⟩, hcall.refused, hcall.returned⟩
        exact List.append_assoc _ _ _
      · cases hs
    · cases hs
  | giveUp id =>
    simp only [step] at hs
    split at hs
    · rename_i command hsending
      cases hs
      exact .setCall (fun c hc => by rw [hsending] at hc; cases hc)
        (fun c r hc => by rw [hsending] at hc; cases hc)
    · cases hs
  | perform =>
    simp only [step] at hs
    split at hs
    · cases hs
    · rename_i id command queue hqueue
      cases hs
      have hcalls := fun i => s.reply_calls id i command (serve s.object command).1
      refine ⟨⟨_, rfl⟩, ⟨[], ?_⟩, ?_, ?_⟩
      · rw [List.append_nil]
        exact (accepted_performed hqueue _ _ _).symm
      · intro i c hi
        rcases hcalls i with hsame | ⟨rfl, ⟨c', hc'⟩, _⟩
        · exact hsame.trans hi
        · rw [hc'] at hi
          cases hi
      · intro i c r hi
        rcases hcalls i with hsame | ⟨rfl, ⟨c', hc'⟩, _⟩
        · exact hsame.trans hi
        · rw [hc'] at hi
          cases hi
  | receive id =>
    simp only [step] at hs
    split at hs
    · rename_i command r hreplied
      cases hs
      exact .setCall (fun c hc => by rw [hreplied] at hc; cases hc)
        (fun c r hc => by rw [hreplied] at hc; cases hc)
    · cases hs
  | drop id =>
    simp only [step] at hs
    split at hs
    · rename_i command hcall
      cases hs
      exact .setCall (fun c hc => by rw [hcall] at hc; cases hc)
        (fun c r hc => by rw [hcall] at hc; cases hc)
    · rename_i command hcall
      cases hs
      exact .setCall (fun c hc => by rw [hcall] at hc; cases hc)
        (fun c r hc => by rw [hcall] at hc; cases hc)
    · rename_i command r hcall
      cases hs
      exact .setCall (fun c hc => by rw [hcall] at hc; cases hc)
        (fun c r hc => by rw [hcall] at hc; cases hc)
    · cases hs

theorem Later.of_run {acts : List (QueueAction κ)}
    (h : run (step serve capacity) s acts = some s') : Later s s' :=
  run_invariant (Q := fun _ _ => True) (P := Later s) (fun _ _ _ hp _ hs => hp.trans (.of_step hs))
    (.refl s) (.of_forall fun _ _ => trivial) h

/-- **Calls keep their order in time**: what was performed of the calls that returned in `s` lies
before everything that is performed of a call that was not made by then. -/
theorem Serial.served_before (h : Serial serve capacity start s) (hlater : Later s s') :
    ∃ rest, s'.served = s.served ++ rest ∧
      (∀ id command r, s.calls id = .returned command r → ⟨id, command, r⟩ ∈ s.served) ∧
      ∀ id, s.calls id = .idle → ∀ x ∈ s.served, x.id ≠ id := by
  obtain ⟨rest, hrest⟩ := hlater.served
  refine ⟨rest, hrest.symm, fun id command r hc => h.answered id command r (Or.inr hc), ?_⟩
  intro id hidle x hx
  refine h.not_accepted id (fun c hc => ?_) (x.id, x.command) ?_
  · rw [hidle] at hc
    exact hc
  · exact List.mem_append_left _ (List.mem_map.2 ⟨x, hx, rfl⟩)

/-- **What was accepted is performed** when the object is left alone. -/
theorem drained (serve : σ → κ → ρ × σ) (capacity : Nat) : ∀ (queue : List (Nat × κ))
    (s : QueueServer σ κ ρ), s.queue = queue →
      ∃ s', run (step serve capacity) s (List.replicate queue.length .perform) = some s' ∧
        s'.queue = [] ∧ s'.served.map (fun x => (x.id, x.command)) = s.accepted
  | [], s, hqueue => ⟨s, rfl, hqueue, by rw [accepted, hqueue, List.append_nil]⟩
  | (id, command) :: queue, s, hqueue => by
    let next : QueueServer σ κ ρ := { s.reply id command (serve s.object command).1 with
      object := (serve s.object command).2
      queue := queue
      served := s.served ++ [⟨id, command, (serve s.object command).1⟩] }
    have hstep : step serve capacity s .perform = some next := by
      simp only [step, hqueue, next]
    obtain ⟨s', hrun, hempty, hall⟩ := drained serve capacity queue next rfl
    refine ⟨s', ?_, hempty, ?_⟩
    · rw [List.length_cons, List.replicate_succ]
      simp only [run, hstep]
      exact hrun
    · rw [hall]
      exact accepted_performed hqueue _ _ _

end QueueServer

end SevlaMq

import SevlaMq.Broker.StorageHandle
import SevlaMq.Lib.Waiters

/-!
# Fetches that sleep

`StorageHandle::read` registers with `new_records` and reads; it sleeps until it is notified when
there was nothing to read.  `append`, `append_batch` and `replicate` notify after a reply that is
not an error.

* `StorageHandle.stepWaiting` — the tasks of a broker, the waiting fetches among them, and the
  worker.
* `sleeping_fetch_misses_nothing` — a fetch that sleeps although there is a record for it: its
  notification is on the way, or who stored the record has failed or is gone.
-/

set_option autoImplicit false

namespace SevlaMq.Broker

open SevlaMq.Storage SevlaMq.Cluster

/-! ## Who sleeps and who notifies -/

namespace StorageReply

/-- There was nothing to read. -/
def nothing : StorageReply → Bool
  | .records (.ok []) => true
  | _ => false

def isError : StorageReply → Bool
  | .topic (.error _) | .ack (.error _) | .acks (.error _) | .records (.error _)
  | .offset (.error _) | .truncated (.error _) => true
  | _ => false

end StorageReply

namespace StorageHandle

/-- `append`, `append_batch` and `replicate`. -/
def writes : Env × StorageCommand → Bool
  | (_, .append _ _ _ _) | (_, .appendBatch _ _ _ _) | (_, .replicate _ _ _ _ _) => true
  | _ => false

/-- The calls that end with `notify_waiters`. -/
def notifies (c : Env × StorageCommand) (r : StorageReply) : Bool := writes c && !r.isError

/-- One step of a task, of a waiting fetch or of the worker. -/
abbrev stepWaiting [Checksum] (cfg : Settings) (capacity : Nat) :
    Waiters Worker (Env × StorageCommand) StorageReply → WaiterAction (Env × StorageCommand) →
      Option (Waiters Worker (Env × StorageCommand) StorageReply) :=
  Waiters.step (Worker.serve cfg) capacity StorageReply.nothing notifies

end StorageHandle

/-! ## The end of a log -/

namespace Worker

/-- The log of the partition is there, and a read at `offset` finds nothing in it. -/
def Ends (topic : String) (partition offset : Nat) (w : Worker) : Prop :=
  ∃ log, w.logs topic partition = some log ∧ log.length ≤ offset

variable {cfg : Settings} {env : Env} {files : Files} {w w' : Worker} {t : String} {p offset : Nat}

theorem Ends.retains (h : w.Ends t p offset) (hr : w.Retains w') : w'.Ends t p offset := by
  obtain ⟨log, hlog, hle⟩ := h
  exact ⟨log, hr.logs t p log hlog, hle⟩

theorem Ends.truncatePartition (h : w.Ends t p offset) (topic : String) (partition cut : Nat) :
    (w.truncatePartition topic partition cut).2.Ends t p offset := by
  unfold Worker.truncatePartition
  split
  · exact h
  rename_i log hlog
  split
  · exact h
  rename_i log' htruncate
  obtain ⟨_, rfl⟩ := RecordLog.truncateTo_ok htruncate
  obtain ⟨log₁, hlog₁, hle⟩ := h
  simp only [Ends, insertLog]
  split
  · rename_i heq
    rw [heq.1, heq.2, hlog] at hlog₁
    cases hlog₁
    exact ⟨_, rfl, Nat.le_trans (List.length_take_le' _ _) hle⟩
  · exact ⟨log₁, hlog₁, hle⟩

/-- **Only a write adds records to a log that is there.** -/
theorem Ends.perform [Checksum] {c : Env × StorageCommand} (h : w.Ends t p offset)
    (hc : StorageHandle.writes c = false) : (w.perform cfg c).Ends t p offset := by
  obtain ⟨env, command⟩ := c
  cases command with
  | append topic partition input ackMode => cases hc
  | appendBatch topic partition records ackMode => cases hc
  | replicate topic partition offset record durable => cases hc
  | createTopic topic partitions => exact h.retains (createTopic_retains rfl)
  | read topic partition offset maxBytes => exact h.retains (readRecords_retains rfl)
  | truncate topic partition cut => exact h.truncatePartition topic partition cut
  | listTopics => exact h
  | partitionOffset topic partition => exact h
  | snapshot => exact h
  | applyRetention => exact h

theorem partitionLog_opened {n : Nat} {log : RecordLog}
    (h : partitionLog files w t p n = (.ok log, w')) : w'.logs t p = some log := by
  unfold partitionLog at h
  split at h
  · rename_i hlog
    cases h
    exact hlog
  split at h
  · cases h
  split at h
  · cases h
  · cases h
    exact insertLog_self p log

/-- **A read that finds nothing** is one at the end of the log or beyond. -/
theorem readRecords_nothing {maxBytes : Nat}
    (h : readRecords cfg files w t p offset maxBytes = (.ok [], w')) : w'.Ends t p offset := by
  unfold readRecords at h
  split at h
  · cases h
  split at h
  · cases h
  rename_i log w₁ hopen
  split at h
  · cases h
  rename_i records hread
  obtain ⟨hnone, rfl⟩ := Prod.mk.inj h
  refine ⟨log, partitionLog_opened hopen, ?_⟩
  unfold RecordLog.read at hread
  split at hread
  · cases hread
  cases hread
  have hempty : takeBudget maxBytes ((storedFrom 0 log).drop offset) = [] :=
    List.map_eq_nil_iff.1 (Except.ok.inj hnone)
  cases hdrop : (storedFrom 0 log).drop offset with
  | nil =>
    rw [List.drop_eq_nil_iff, storedFrom_length] at hdrop
    exact hdrop
  | cons record records =>
    rw [hdrop] at hempty
    cases hempty

theorem serve_nothing [Checksum] {topic : String} {partition offset maxBytes : Nat}
    (h : (w.serve cfg (env, .read topic partition offset maxBytes)).1.nothing = true) :
    (w.perform cfg (env, .read topic partition offset maxBytes)).Ends topic partition offset := by
  rcases hread : readRecords cfg env.files w topic partition offset maxBytes with ⟨res, w'⟩
  simp only [serve, hread, StorageReply.nothing] at h
  simp only [perform, hread]
  split at h
  · rename_i heq
    cases heq
    exact readRecords_nothing hread
  · cases h

end Worker

namespace StorageHandle

variable [Checksum] {cfg : Settings} {capacity : Nat} {w : Worker}
  {s : Waiters Worker (Env × StorageCommand) StorageReply}
  {acts : List (WaiterAction (Env × StorageCommand))}

/-- The next steps of the task that waits for `id` notify the reader. -/
def WokenBy (cfg : Settings) (capacity : Nat)
    (s : Waiters Worker (Env × StorageCommand) StorageReply) (reader id : Nat) : Prop :=
  ∃ more s' c, (more = [.announce id] ∨ more = [.server (.receive id), .announce id]) ∧
    run (stepWaiting cfg capacity) s more = some s' ∧ s'.readers reader = .asleep c true

/-- The worker after some commands. -/
def after (cfg : Settings) (w : Worker)
    (served : List (Served (Env × StorageCommand) StorageReply)) : Worker :=
  served.foldl (fun w x => w.perform cfg x.command) w

/-- The task of a write that has not failed wakes the reader. -/
theorem wokenBy {reader id : Nat} {c asked : Env × StorageCommand} {r : StorageReply}
    (hasleep : s.readers reader = .asleep asked false) (hnotifies : notifies c r = true)
    (hcall : s.server.calls id = .replied c r ∨ s.server.calls id = .returned c r)
    (hnew : s.announced id = false) : WokenBy cfg capacity s reader id := by
  have htold : ∀ s₁ : Waiters Worker (Env × StorageCommand) StorageReply,
      s₁.server.calls id = .returned c r → s₁.announced id = false →
        stepWaiting cfg capacity s₁ (.announce id) = some (s₁.tell id) := by
    intro s₁ hreturned hnew
    simp only [stepWaiting, Waiters.step, hreturned, hnotifies, hnew, and_self, if_true]
  rcases hcall with hreplied | hreturned
  · let s₁ : Waiters Worker (Env × StorageCommand) StorageReply :=
      { s with server := s.server.setCall id (.returned c r) }
    have hfirst : stepWaiting cfg capacity s (.server (.receive id)) = some s₁ := by
      simp only [stepWaiting, Waiters.step, QueueServer.step, hreplied, Option.map_some, s₁]
    refine ⟨_, s₁.tell id, asked, Or.inr rfl, ?_, ?_⟩
    · simp only [run, hfirst, htold s₁ (if_pos rfl) hnew]
    · simp only [Waiters.tell, s₁, hasleep, Reader.notify]
  · refine ⟨_, s.tell id, asked, Or.inl rfl, ?_, ?_⟩
    · simp only [run, htold s hreturned hnew]
    · simp only [Waiters.tell, hasleep, Reader.notify]

/-- **No wake-up is lost**, whatever the order of the steps.  When a fetch sleeps although the log
has a record for it, then a write has added records to that log since the fetch read it; and its
task is about to wake the fetch, unless the write has returned an error or the task is gone. -/
theorem sleeping_fetch_misses_nothing
    (h : run (stepWaiting cfg capacity) (Waiters.start w) acts = some s) {reader : Nat} {env : Env}
    {topic : String} {partition offset maxBytes : Nat} {log : RecordLog}
    (hasleep : s.readers reader = .asleep (env, .read topic partition offset maxBytes) false)
    (hlog : s.server.object.logs topic partition = some log) (hnew : offset < log.length) :
    ∃ before x rest, s.server.served = before ++ x :: rest ∧ writes x.command ∧
      (after cfg w before).Ends topic partition offset ∧
      ¬ ((after cfg w before).perform cfg x.command).Ends topic partition offset ∧
      (x.reply.isError ∨ s.server.calls x.id = .dropped ∨ WokenBy cfg capacity s reader x.id) := by
  have hwatched := Waiters.Watched.of_run h
  have horder := InOrder.of_serial hwatched.serial
  have hwatches := hwatched.watches reader
  rw [hasleep] at hwatches
  obtain ⟨early, id, r, late, hserved, hempty, hunannounced⟩ := hwatches
  -- the log ended at the offset when the fetch read it
  have hread : ((after cfg w early).perform cfg (env, .read topic partition offset maxBytes)).Ends
      topic partition offset := by
    have hreply := horder.replies early _ late hserved
    rw [List.foldl_map] at hreply
    simp only at hreply
    rw [hreply] at hempty
    exact Worker.serve_nothing hempty
  have hnow : ¬ (late.foldl (fun w x => w.perform cfg x.command)
      ((after cfg w early).perform cfg (env, .read topic partition offset maxBytes))).Ends
        topic partition offset := by
    have hobject := horder.worker
    rw [List.foldl_map, hserved, List.foldl_append, List.foldl_cons] at hobject
    rintro ⟨log', hlog', hle⟩
    rw [after, ← hobject, hlog] at hlog'
    cases hlog'
    exact absurd hnew (Nat.not_lt.2 hle)
  obtain ⟨between, x, rest, rfl, hends, hgrown⟩ := foldl_crosses hread hnow
  have hserved' : s.server.served =
      (early ++ ⟨id, (env, .read topic partition offset maxBytes), r⟩ :: between) ++ x :: rest := by
    rw [hserved, List.append_assoc, List.cons_append]
  have hstate : after cfg w
      (early ++ ⟨id, (env, .read topic partition offset maxBytes), r⟩ :: between) =
        between.foldl (fun w x => w.perform cfg x.command)
          ((after cfg w early).perform cfg (env, .read topic partition offset maxBytes)) := by
    rw [after, List.foldl_append, List.foldl_cons]
    rfl
  have hwrites : writes x.command = true := by
    by_contra hno
    exact hgrown (hends.perform (Bool.eq_false_iff.2 hno))
  refine ⟨_, x, rest, hserved', hwrites, hstate ▸ hends, hstate ▸ hgrown, ?_⟩
  by_cases herror : x.reply.isError = true
  · exact Or.inl herror
  have hnotifies : notifies x.command x.reply = true := by
    rw [notifies, hwrites, Bool.eq_false_iff.2 herror]
    rfl
  have hmem : x ∈ s.server.served := by
    rw [hserved']
    exact List.mem_append_right _ List.mem_cons_self
  have hnew : s.announced x.id = false :=
    hunannounced x (List.mem_append_right _ List.mem_cons_self)
  rcases hwatched.serial.outcome hmem with hcall | hcall | hcall
  · exact Or.inr (Or.inr (wokenBy hasleep hnotifies (Or.inl hcall) hnew))
  · exact Or.inr (Or.inr (wokenBy hasleep hnotifies (Or.inr hcall) hnew))
  · exact Or.inr (Or.inl hcall)

/-- `sync_data` fails. -/
def unsynced : Env :=
  { Env.fresh with files := { Env.fresh.files with syncData := fun _ _ => .error .io } }

/-- A fetch goes to sleep, and a durable append stores its record and fails. -/
def failedAppend : List (WaiterAction (Env × StorageCommand)) :=
  [.server (.call 0 (.fresh, .createTopic "payments" 1)), .server (.send 0), .server .perform,
    .ask 7 1 (.fresh, .read "payments" 0 0 1024), .server (.send 1), .server .perform,
    .server (.receive 1), .settle 7,
    .server (.call 2 (unsynced, .append "payments" (some 0) ⟨[], [1], none⟩ .durable)),
    .server (.send 2), .server .perform, .server (.receive 2)]

omit [Checksum] in
/-- **A failed append leaves the fetch asleep**: nobody notifies it of the record. -/
theorem sleeping_fetch_misses_nothing_failed :
    letI := Checksum.crc32
    ∃ s, run (stepWaiting singleBroker 4) (Waiters.start (recoverStorage [])) failedAppend =
        some s ∧
      s.readers 7 = .asleep (.fresh, .read "payments" 0 0 1024) false ∧
      ∃ before x rest, s.server.served = before ++ x :: rest ∧ x.reply.isError ∧
        (after singleBroker (recoverStorage []) before).Ends "payments" 0 0 ∧
        ¬ ((after singleBroker (recoverStorage []) before).perform singleBroker x.command).Ends
          "payments" 0 0 := by
  let _ := Checksum.crc32
  have hrun : (run (stepWaiting singleBroker 4) (Waiters.start (recoverStorage []))
      failedAppend).map (fun s => s.readers 7) =
        some (.asleep (.fresh, .read "payments" 0 0 1024) false) := rfl
  obtain ⟨s, hs, hasleep⟩ := Option.map_eq_some_iff.1 hrun
  have hlogs : (run (stepWaiting singleBroker 4) (Waiters.start (recoverStorage []))
      failedAppend).map (fun s => (s.server.object.logs "payments" 0,
        s.server.served.all fun x => x.reply.isError || !writes x.command)) =
          some (some [⟨none, [1], 5, none⟩], true) := by decide +kernel
  rw [hs, Option.map_some] at hlogs
  obtain ⟨hlog, hfailed⟩ := Prod.mk.inj (Option.some.inj hlogs)
  obtain ⟨before, x, rest, hserved, hwrites, hends, hgrown, _⟩ :=
    sleeping_fetch_misses_nothing hs hasleep hlog Nat.one_pos
  refine ⟨s, hs, hasleep, before, x, rest, hserved, ?_, hends, hgrown⟩
  have hx := List.all_eq_true.1 hfailed x
    (hserved ▸ List.mem_append_right _ List.mem_cons_self)
  rwa [hwrites, Bool.not_true, Bool.or_false] at hx

end StorageHandle

end SevlaMq.Broker

import PlenarioStream.ClickStream.Model

/-!
What holds of the client between two events: the commits that are queued or under way
belong to the one action that has no status yet, the worker makes at most one checkpoint at
a time, and the counters of a batch tell how many of its commits are still to end.
-/
namespace PlenarioStream.ClickStream
open Js Transition Kcl.Library
open Kcl (State Input ActionType)

/-- The commits that have not ended, the one under way first. -/
def Client.pending (k : Client) : List Commit := k.worker.toList ++ k.queue

/-- The checkpoint that the worker waits for. -/
def Worker.requested : Worker → Option Commit
  | checkpointing c => some c
  | idle | uploading _ => none

/-- The state during an action. -/
def activeState (type : ActionType) : Worker → State
  | .checkpointing _ => waitState type
  | .idle | .uploading _ => busyState type

def stateOf (current : Option ActionType) (k : Client) : State :=
  match current with
  | none => restState (begun k.log)
  | some type => activeState type k.worker

def Entry.received? : Entry → Option Action
  | received a => some a
  | _ => none

def lastReceived (log : List Entry) : Option Action := (log.filterMap Entry.received?).getLast?

/-- The client while an action, or none, is without its status. -/
structure Tracked (current : Option ActionType) (k : Client) : Prop where
  answered : begun k.log = completed k.log ++ current.toList
  state : k.state = stateOf current k
  owners : ∀ c ∈ k.pending, current = some c.owner ∧ c.owner ≠ .initialization
  callback : k.callback = k.worker.requested
  requests : k.log.countP Entry.isRequest =
    k.log.countP Entry.isResponse + k.callback.toList.length
  counted : current = some .processRecords →
    k.total = k.processedCount + k.pending.length ∧ (k.pending = [] → k.total = 0)
  batch : current = some .processRecords →
    ∃ records, lastReceived k.log = some (.processRecords (some records)) ∧ k.total = records.length
  final : current = some .shutdown → k.pending.length = 1
  waiting : k.waiting = true ↔ current = some .initialization
  listening : k.destroyed = true → current = none
  ordered : ∀ type ∈ (begun k.log).dropLast, type ≠ .shutdown

theorem lastReceived_concat {e : Entry} (h : e.begun? = none) (log : List Entry) :
    lastReceived (log ++ [e]) = lastReceived log := by
  cases e with
  | received a => cases h
  | responded _ | checkpoint _ | status _ | upload _ | uploaded _ _ =>
      simp [lastReceived, Entry.received?]

theorem tracked_initial : Tracked none .initial := by
  constructor <;> simp [Client.initial, begun, completed, stateOf, restState, Client.pending,
    Worker.toList, Worker.requested]

section
variable {current : Option ActionType} {k : Client}

theorem Tracked.pending_nil (h : Tracked none k) : k.worker = .idle ∧ k.queue = [] := by
  have hnil : k.pending = [] := by
    refine List.eq_nil_iff_forall_not_mem.mpr ?_
    intro c hc
    exact absurd (h.owners c hc).1 (Option.some_ne_none _).symm
  obtain ⟨hworker, hqueue⟩ := List.append_eq_nil_iff.mp hnil
  refine ⟨?_, hqueue⟩
  cases hw : k.worker with
  | idle => rfl
  | uploading c | checkpointing c => simp [hw, Worker.toList] at hworker

/-- An action may be sent exactly when none is without its status. -/
theorem Tracked.current_eq_none (h : Tracked current k)
    (hlen : (begun k.log).length = (completed k.log).length) : current = none := by
  rw [h.answered, List.length_append] at hlen
  cases current with
  | none => rfl
  | some type => simp at hlen

end

/-- Completing an action sends its status, and nothing else changes. -/
theorem recordProcessorCallback_active {k : Client} {type : ActionType}
    (h : k.state = busyState type) :
    recordProcessorCallback type k =
      .ok { k with state := doneState type, log := k.log ++ [.status type] } :=
  recordProcessorCallback_busy h

/-- The log while an action is without its status and no checkpoint is requested. -/
structure Opened (type : ActionType) (log : List Entry) : Prop where
  answered : begun log = completed log ++ [type]
  requests : log.countP Entry.isRequest = log.countP Entry.isResponse
  ordered : ∀ type ∈ (begun log).dropLast, type ≠ .shutdown

theorem Tracked.opened {k : Client} {type : ActionType} (h : Tracked (some type) k)
    (hcallback : k.callback = none) : Opened type k.log := by
  refine ⟨h.answered, ?_, h.ordered⟩
  have hrequests := h.requests
  rwa [hcallback] at hrequests

/-- The client after the status of its action. -/
theorem Opened.status {log : List Entry} {type : ActionType} (h : Opened type log) {k : Client}
    (hlog : k.log = log ++ [.status type]) (hstate : k.state = doneState type)
    (hpending : k.worker = .idle ∧ k.queue = []) (hcallback : k.callback = none)
    (hwaiting : k.waiting = false) : Tracked none k := by
  obtain ⟨hworker, hqueue⟩ := hpending
  have hnil : k.pending = [] := by simp [Client.pending, hworker, hqueue, Worker.toList]
  have hbegun : begun k.log = begun log := by simp [hlog, begun, Entry.begun?]
  constructor
  · rw [hbegun, h.answered, hlog]
    simp [completed, Entry.completed?]
  · rw [hstate, stateOf, hbegun, h.answered]
    exact (restState_concat _ _).symm
  · intro c hc
    exact absurd (hnil ▸ hc) List.not_mem_nil
  · rw [hcallback, hworker]
    rfl
  · simpa [hlog, hcallback, Entry.isRequest, Entry.isResponse] using h.requests
  · intro hnone
    cases hnone
  · intro hnone
    cases hnone
  · intro hnone
    cases hnone
  · simp [hwaiting]
  · intro _
    rfl
  · rw [hbegun]
    exact h.ordered

/-- What the loop leaves: commits of the batch in the queue, and the status of the batch if
there were records and no commits. -/
structure Looped (records : List Record) (k k' : Client) : Prop where
  worker : k'.worker = k.worker
  callback : k'.callback = k.callback
  waiting : k'.waiting = k.waiting
  destroyed : k'.destroyed = k.destroyed
  total : k'.total = k.total
  counted : k.total = k'.processedCount + k'.queue.length
  owners : ∀ c ∈ k'.queue, c ∈ k.queue ∨ c.owner = .processRecords
  kept : k.queue ≠ [] → k'.queue ≠ []
  outcome : (records ≠ [] ∧ k'.queue = [] ∧ k'.state = .ready ∧
      k'.log = k.log ++ [.status .processRecords]) ∨
    ((records = [] ∨ k'.queue ≠ []) ∧ k'.state = k.state ∧ k'.log = k.log)

/-- One record is committed with the others, or it is counted. -/
theorem processRecord_cases (size : Nat) {k : Client} (hstate : k.state = .processing) (r : Record) :
    ∃ buffer, processRecord size k r =
        .ok { k with
          buffer := .cleared
          queue := k.queue ++ [buffer.commit k.shardId .processRecords] } ∨
      processRecord size k r =
        (if k.processedCount + 1 = k.total then
          .ok { k with
            buffer
            processedCount := k.processedCount + 1
            state := .ready
            log := k.log ++ [.status .processRecords] }
        else .ok { k with buffer, processedCount := k.processedCount + 1 }) := by
  refine ⟨putRecord r.data r.sequenceNumber k.buffer, ?_⟩
  by_cases hflush : shouldFlush size (putRecord r.data r.sequenceNumber k.buffer) = true
  · exact .inl (if_pos hflush)
  · refine .inr ((if_neg hflush).trans ?_)
    have hcallback : ∀ k' : Client, k'.state = .processing →
        recordProcessorCallback .processRecords k' =
          .ok { k' with state := .ready, log := k'.log ++ [.status .processRecords] } :=
      fun k' h => recordProcessorCallback_active h
    simp only [recordCallback]
    split
    · exact hcallback _ hstate
    · rfl

theorem loop_spec (size : Nat) (records : List Record) {k : Client} (hstate : k.state = .processing)
    (hcount : k.total = k.processedCount + k.queue.length + records.length) :
    ∃ k', records.foldlM (processRecord size) k = .ok k' ∧ Looped records k k' := by
  induction records generalizing k with
  | nil =>
      exact ⟨k, rfl, rfl, rfl, rfl, rfl, rfl, hcount, fun c hc => .inl hc, id, .inr ⟨.inl rfl, rfl, rfl⟩⟩
  | cons r records ih =>
      rw [List.length_cons] at hcount
      rw [List.foldlM_cons]
      obtain ⟨buffer, hflush | hrecord⟩ := processRecord_cases size hstate r
      · rw [hflush]
        obtain ⟨k', hk', h⟩ := ih (k := { k with
          buffer := .cleared
          queue := k.queue ++ [buffer.commit k.shardId .processRecords] }) hstate
          (by simp only [List.length_append, List.length_singleton]; omega)
        have hne : k'.queue ≠ [] := h.kept (by simp)
        refine ⟨k', hk', h.worker, h.callback, h.waiting, h.destroyed, h.total, h.counted, ?_,
          fun _ => hne, ?_⟩
        · intro c hc
          rcases h.owners c hc with hc | hc
          · rcases List.mem_append.mp hc with hc | hc
            · exact .inl hc
            · exact .inr (List.mem_singleton.mp hc ▸ rfl)
          · exact .inr hc
        · rcases h.outcome with ⟨-, hnil, -⟩ | ⟨-, hrest⟩
          · exact absurd hnil hne
          · exact .inr ⟨.inr hne, hrest⟩
      · rw [hrecord]
        by_cases hlast : k.processedCount + 1 = k.total
        · have hqueue : k.queue = [] := List.length_eq_zero_iff.mp (by omega)
          have hrecords : records = [] := List.length_eq_zero_iff.mp (by omega)
          subst hrecords
          rw [if_pos hlast]
          refine ⟨_, rfl, rfl, rfl, rfl, rfl, rfl, ?_, ?_, ?_,
            .inl ⟨List.cons_ne_nil _ _, hqueue, rfl, rfl⟩⟩
          · simp [hqueue, hlast]
          · intro c hc
            exact .inl hc
          · exact id
        · rw [if_neg hlast]
          obtain ⟨k', hk', h⟩ := ih (k := { k with buffer, processedCount := k.processedCount + 1 })
            hstate (by simp only; omega)
          refine ⟨k', hk', h.worker, h.callback, h.waiting, h.destroyed, h.total, h.counted, h.owners,
            h.kept, ?_⟩
          have hmore : records = [] → k'.queue ≠ [] := by
            intro hnil
            refine h.kept ?_
            intro hqueue
            have hqueue : k.queue = [] := hqueue
            rw [hnil, hqueue] at hcount
            simp only [List.length_nil] at hcount
            omega
          rcases h.outcome with ⟨hne, hrest⟩ | ⟨hopen, hrest⟩
          · exact .inl ⟨List.cons_ne_nil _ _, hrest⟩
          · exact .inr ⟨.inr (hopen.elim hmore id), hrest⟩

end PlenarioStream.ClickStream

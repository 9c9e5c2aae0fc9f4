import PlenarioStream.ClickStream.Tracked

/-!
The clickstream consumer keeps the protocol: along every run with a conforming daemon each
event leaves the client tracked, so that it never throws and answers the actions in order.
-/
namespace PlenarioStream.ClickStream
open Js Transition Kcl.Library
open Kcl (State Input ActionType)

/-- The worker is done with a commit, and calls back. -/
theorem tracked_commitCallback {k : Client} {c : Commit}
    (h : Tracked (some c.owner) { k with worker := .uploading c }) :
    ∃ k' current, commitCallback c k = .ok k' ∧ Tracked current k' := by
  have hstate : k.state = busyState c.owner := h.state
  have hcallback : k.callback = none := h.callback
  have hinit : c.owner ≠ .initialization := (h.owners c List.mem_cons_self).2
  have hwaiting : k.waiting = false := by
    rw [← Bool.not_eq_true, show (k.waiting = true ↔ _) from h.waiting]
    exact fun hc => hinit (Option.some.inj hc)
  have hcounted := h.counted
  have hfinal := h.final
  have hqueue := h.owners
  cases howner : c.owner with
  | initialization => exact absurd howner hinit
  | shutdown =>
      rw [howner] at h hstate hfinal
      have hnil : k.queue = [] := by simpa [Client.pending, Worker.toList] using hfinal rfl
      simp only [commitCallback, howner]
      refine ⟨_, none, recordProcessorCallback_active (k := { k with worker := .idle }) hstate, ?_⟩
      exact (h.opened hcallback).status rfl rfl ⟨rfl, hnil⟩ hcallback hwaiting
  | processRecords =>
      rw [howner] at h hstate hcounted hqueue
      have htotal : k.total = k.processedCount + (k.queue.length + 1) := (hcounted rfl).1
      simp only [commitCallback, howner, recordCallback]
      by_cases hnil : k.queue = []
      · have hlast : k.processedCount + 1 = k.total := by simp [htotal, hnil]
        rw [if_pos hlast]
        refine ⟨_, none, recordProcessorCallback_active hstate, ?_⟩
        exact (h.opened hcallback).status rfl rfl ⟨rfl, hnil⟩ hcallback hwaiting
      · have hpos : 0 < k.queue.length := List.length_pos_iff.mpr hnil
        rw [if_neg (by omega)]
        refine ⟨_, some .processRecords, rfl, h.answered, hstate, ?_, hcallback, h.requests, ?_,
          h.batch, ?_, h.waiting, h.listening, h.ordered⟩
        · intro d hd
          exact hqueue d (List.mem_cons_of_mem _ hd)
        · intro _
          refine ⟨?_, fun hpending => absurd hpending hnil⟩
          simp only [Client.pending, Worker.toList, List.nil_append]
          omega
        · intro hc
          cases hc

/-- The state machine lets an action begin when the daemon may send it. -/
theorem begin_allowed {k : Client} (h : Tracked none k) {a : Action}
    (hallows : allows k.log (.action a) = true) :
    k.state.handle a.type.beginInput = (busyState a.type, true) := by
  simp only [allows, Bool.and_eq_true, Bool.not_eq_true', beq_iff_eq, List.any_eq_false,
    decide_eq_true_eq] at hallows
  obtain ⟨⟨-, hshutdown⟩, hfirst⟩ := hallows
  rw [h.state, stateOf, begin_rest, if_pos]
  refine ⟨?_, ?_⟩
  · intro hlast
    exact hshutdown _ (List.mem_of_getLast? hlast) rfl
  · rw [← List.isEmpty_iff, ← hfirst, decide_eq_true_iff]

theorem opened_received {k : Client} (h : Tracked none k) {a : Action}
    (hallows : allows k.log (.action a) = true) : Opened a.type (k.log ++ [.received a]) := by
  have hbegun : begun (k.log ++ [.received a]) = begun k.log ++ [a.type] := by
    simp [begun, Entry.begun?]
  constructor
  · rw [hbegun, h.answered]
    simp [completed, Entry.completed?]
  · have hrequests := h.requests
    rw [h.callback, h.pending_nil.1] at hrequests
    simpa [Worker.requested, Entry.isRequest, Entry.isResponse] using hrequests
  · rw [hbegun, List.dropLast_concat]
    simp only [allows, Bool.and_eq_true, Bool.not_eq_true', List.any_eq_false,
      decide_eq_true_eq] at hallows
    exact hallows.1.2

/-- The client when an action has begun. -/
theorem Opened.entered {log : List Entry} {a : Action} (h : Opened a.type (log ++ [.received a]))
    {k : Client} (hlog : k.log = log ++ [.received a]) (hstate : k.state = busyState a.type)
    (hworker : k.worker = .idle) (hcallback : k.callback = none) (hdestroyed : k.destroyed = false)
    (howners : ∀ c ∈ k.queue, c.owner = a.type ∧ c.owner ≠ .initialization)
    (hcounted : a.type = .processRecords →
      k.total = k.processedCount + k.queue.length ∧ (k.queue = [] → k.total = 0))
    (hbatch : a.type = .processRecords →
      ∃ records, a = .processRecords (some records) ∧ k.total = records.length)
    (hfinal : a.type = .shutdown → k.queue.length = 1)
    (hwaiting : k.waiting = true ↔ a.type = .initialization) : Tracked (some a.type) k := by
  have hpending : k.pending = k.queue := by simp [Client.pending, hworker, Worker.toList]
  rw [← hlog] at h
  constructor
  · exact h.answered
  · rw [hstate, stateOf, hworker]
    rfl
  · intro c hc
    obtain ⟨htype, hinit⟩ := howners c (hpending ▸ hc)
    exact ⟨congrArg some htype.symm, hinit⟩
  · rw [hcallback, hworker]
    rfl
  · rw [hcallback]
    exact h.requests
  · intro htype
    rw [hpending]
    exact hcounted (Option.some.inj htype)
  · intro htype
    obtain ⟨records, rfl, htotal⟩ := hbatch (Option.some.inj htype)
    exact ⟨records, by simp [hlog, lastReceived, Entry.received?], htotal⟩
  · intro htype
    rw [hpending]
    exact hfinal (Option.some.inj htype)
  · rw [hwaiting, Option.some.injEq]
  · intro hd
    rw [hdestroyed] at hd
    cases hd
  · exact h.ordered

theorem onRecordProcessorAction_eq (size : Nat) {k : Client} {a : Action} (h : Tracked none k)
    (hallows : allows k.log (.action a) = true) :
    onRecordProcessorAction size a k = recordProcessor size a
      { k with state := busyState a.type, log := k.log ++ [.received a] } :=
  onRecordProcessorAction_begin (begin_allowed h hallows)

theorem tracked_action (size : Nat) {k : Client} {a : Action} (h : Tracked none k)
    (hopen : k.destroyed = false) (hallows : allows k.log (.action a) = true) :
    ∃ k' current, onRecordProcessorAction size a k = .ok k' ∧ Tracked current k' := by
  obtain ⟨hworker, hqueue⟩ := h.pending_nil
  have hcallback : k.callback = none := by rw [h.callback, hworker]; rfl
  have hwaiting : k.waiting = false := by
    rw [← Bool.not_eq_true, h.waiting]
    exact (Option.some_ne_none _).symm
  rw [onRecordProcessorAction_eq size h hallows]
  have hopened := opened_received h hallows
  cases a with
  | initialization shardId =>
      refine ⟨_, some .initialization, rfl,
        hopened.entered rfl rfl hworker hcallback hopen ?_ ?_ ?_ ?_ ?_⟩
      · intro c hc
        exact absurd hc List.not_mem_nil
      · exact ActionType.noConfusion
      · exact ActionType.noConfusion
      · exact ActionType.noConfusion
      · simp [Action.type]
  | processRecords input =>
      cases input with
      | none =>
          refine ⟨_, none, recordProcessorCallback_active rfl, ?_⟩
          exact hopened.status rfl rfl ⟨hworker, hqueue⟩ hcallback hwaiting
      | some records =>
          obtain ⟨k', hk', hloop⟩ := loop_spec size records (k := { k with
            state := .processing
            processedCount := 0
            total := records.length
            log := k.log ++ [.received (.processRecords (some records))] }) rfl (by simp [hqueue])
          have howners : ∀ c ∈ k'.queue, c.owner = .processRecords := by
            intro c hc
            rcases hloop.owners c hc with hc | hc
            · exact absurd (hqueue ▸ hc) List.not_mem_nil
            · exact hc
          rcases hloop.outcome with ⟨-, hnil, hstate, hlog⟩ | ⟨hmore, hstate, hlog⟩
          · refine ⟨k', none, hk', ?_⟩
            exact hopened.status hlog hstate ⟨hloop.worker.trans hworker, hnil⟩
              (hloop.callback.trans hcallback) (hloop.waiting.trans hwaiting)
          · refine ⟨k', some .processRecords, hk', ?_⟩
            refine hopened.entered hlog hstate (hloop.worker.trans hworker)
              (hloop.callback.trans hcallback) (hloop.destroyed.trans hopen) ?_ ?_ ?_ ?_ ?_
            · intro c hc
              rw [howners c hc]
              exact ⟨rfl, ActionType.noConfusion⟩
            · intro _
              refine ⟨hloop.total.trans hloop.counted, ?_⟩
              intro hnil
              rw [hmore.resolve_right (fun hne => hne hnil)] at hloop
              exact hloop.total
            · intro _
              exact ⟨records, rfl, hloop.total⟩
            · exact ActionType.noConfusion
            · simp [Action.type, hloop.waiting, hwaiting]
  | shutdown reason =>
      by_cases hreason : reason.strictEq (.str "TERMINATE") = true
      · refine ⟨_, some .shutdown, if_pos hreason,
          hopened.entered rfl rfl hworker hcallback hopen ?_ ?_ ?_ ?_ ?_⟩
        · simp [push, hqueue, Buffer.commit, Action.type]
        · exact ActionType.noConfusion
        · exact ActionType.noConfusion
        · simp [push, hqueue]
        · simp [push, Action.type, hwaiting]
      · refine ⟨_, none, (if_neg hreason).trans (recordProcessorCallback_active rfl), ?_⟩
        exact hopened.status rfl rfl ⟨hworker, hqueue⟩ hcallback hwaiting

section
variable {current : Option ActionType} {k : Client}

/-- An action that waits for the emitter has no commits. -/
theorem Tracked.initialization (h : Tracked (some .initialization) k) :
    k.worker = .idle ∧ k.queue = [] := by
  have hnil : k.pending = [] := by
    refine List.eq_nil_iff_forall_not_mem.mpr ?_
    intro c hc
    obtain ⟨howner, hinit⟩ := h.owners c hc
    exact hinit (Option.some.inj howner).symm
  obtain ⟨hworker, hqueue⟩ := List.append_eq_nil_iff.mp hnil
  refine ⟨?_, hqueue⟩
  cases hw : k.worker with
  | idle => rfl
  | uploading c | checkpointing c => simp [hw, Worker.toList] at hworker

theorem tracked_initialized (h : Tracked current k) (hwaiting : k.waiting = true) :
    ∃ k', recordProcessorCallback .initialization { k with waiting := false } = .ok k' ∧
      Tracked none k' := by
  obtain rfl := h.waiting.mp hwaiting
  obtain ⟨hworker, hqueue⟩ := h.initialization
  have hcallback : k.callback = none := by rw [h.callback, hworker]; rfl
  have hstate : k.state = busyState .initialization := by rw [h.state, stateOf, hworker]; rfl
  refine ⟨_, recordProcessorCallback_active (k := { k with waiting := false }) hstate, ?_⟩
  exact (h.opened hcallback).status rfl rfl ⟨hworker, hqueue⟩ hcallback rfl

/-- Nothing but the log has changed, by an entry that is neither an action nor a status. -/
theorem Tracked.note (h : Tracked current k) {e : Entry} (hbegun : e.begun? = none)
    (hcompleted : e.completed? = none) (hrequest : e.isRequest = false)
    (hresponse : e.isResponse = false) : Tracked current (k.note e) := by
  have hlog : begun (k.log ++ [e]) = begun k.log := by simp [begun, hbegun]
  constructor
  · have hsame : completed (k.log ++ [e]) = completed k.log := by simp [completed, hcompleted]
    rw [Client.note, hlog, hsame]
    exact h.answered
  · have hstate := h.state
    cases current with
    | none => rwa [stateOf, ← hlog] at hstate
    | some type => exact hstate
  · exact h.owners
  · exact h.callback
  · simpa [Client.note, hrequest, hresponse] using h.requests
  · exact h.counted
  · rw [Client.note, lastReceived_concat hbegun]
    exact h.batch
  · exact h.final
  · exact h.waiting
  · exact h.listening
  · rw [Client.note, hlog]
    exact h.ordered

theorem tracked_start (h : Tracked current k) {c : Commit} {queue : List Commit}
    (hworker : k.worker = .idle) (hqueue : k.queue = c :: queue) :
    Tracked current ({ k with worker := .uploading c, queue }.note (.upload c)) := by
  refine Tracked.note (k := { k with worker := .uploading c, queue }) ?_ rfl rfl rfl rfl
  have hpending : ({ k with worker := .uploading c, queue } : Client).pending = k.pending := by
    simp [Client.pending, hworker, hqueue, Worker.toList]
  have hstate := h.state
  have hcallback := h.callback
  rw [hworker] at hcallback
  refine ⟨h.answered, ?_, ?_, hcallback, h.requests, ?_, h.batch, ?_, h.waiting, h.listening,
    h.ordered⟩
  · cases current with
    | none => exact hstate
    | some type =>
        rw [stateOf, hworker] at hstate
        exact hstate.trans (by cases type <;> rfl)
  · rw [hpending]
    exact h.owners
  · rw [hpending]
    exact h.counted
  · rw [hpending]
    exact h.final

/-- The commit of the worker belongs to the action that has no status. -/
theorem Tracked.worker_owner (h : Tracked current k) {c : Commit} (hc : k.worker.toList = [c]) :
    current = some c.owner ∧ c.owner ≠ .initialization :=
  h.owners c (List.mem_append_left _ (hc ▸ List.mem_singleton_self c))

/-- After its upload the checkpoint of a commit is requested, since none is in progress. -/
theorem Tracked.checkpoint (h : Tracked current k) {c : Commit} (hworker : k.worker = .uploading c) :
    ClickStream.checkpoint c k = .ok { k with
      callback := some c
      worker := .checkpointing c
      state := waitState c.owner
      log := k.log ++ [.checkpoint c.sequenceNumber] } := by
  obtain ⟨rfl, hinit⟩ := h.worker_owner (c := c) (by rw [hworker]; rfl)
  have hcallback : k.callback = none := by rw [h.callback, hworker]; rfl
  have hstate : k.state = busyState c.owner := by rw [h.state, stateOf, hworker]; rfl
  exact checkpoint_busy (p := { k with worker := .checkpointing c }) hinit hstate hcallback _ c

theorem tracked_checkpoint (h : Tracked current k) {c : Commit} (hworker : k.worker = .uploading c) :
    ∃ k', checkpoint c k = .ok k' ∧ Tracked current k' := by
  refine ⟨_, h.checkpoint hworker, ?_⟩
  obtain ⟨rfl, -⟩ := h.worker_owner (c := c) (by rw [hworker]; rfl)
  have hpending : k.pending = c :: k.queue := by simp [Client.pending, hworker, Worker.toList]
  have howners := h.owners
  have hcounted := h.counted
  have hfinal := h.final
  have hrequests := h.requests
  rw [hpending] at howners hcounted hfinal
  rw [h.callback, hworker] at hrequests
  have hbegun : begun (k.log ++ [.checkpoint c.sequenceNumber]) = begun k.log := by
    simp [begun, Entry.begun?]
  refine ⟨?_, rfl, howners, rfl, ?_, hcounted, ?_, hfinal, h.waiting, h.listening, ?_⟩
  · rw [hbegun, h.answered]
    simp [completed, Entry.completed?]
  · simpa [Worker.requested, Entry.isRequest, Entry.isResponse] using hrequests
  · rw [lastReceived_concat rfl]
    exact h.batch
  · rw [hbegun]
    exact h.ordered

theorem tracked_uploaded (h : Tracked current k) {c : Commit} (hworker : k.worker = .uploading c)
    (failed : Bool) : ∃ k' current', onUploaded failed c k = .ok k' ∧ Tracked current' k' := by
  have hnote : Tracked current (k.note (.uploaded c failed)) := h.note rfl rfl rfl rfl
  cases failed with
  | false =>
      obtain ⟨k', hk', htracked⟩ := tracked_checkpoint hnote hworker
      exact ⟨k', current, hk', htracked⟩
  | true =>
      obtain ⟨rfl, -⟩ := hnote.worker_owner (c := c) (by rw [Client.note, hworker]; rfl)
      have hsame : ({ k.note (.uploaded c true) with worker := .uploading c } : Client) =
          k.note (.uploaded c true) := by rw [← hworker]; rfl
      exact tracked_commitCallback (hsame ▸ hnote)

/-- A response that the daemon may send is that to the checkpoint of the worker. -/
theorem Tracked.response (h : Tracked current k) {failed : Bool}
    (hallows : allows k.log (.response failed) = true) :
    ∃ c, k.worker = .checkpointing c ∧ onCheckpointAction failed k = commitCallback c { k with
      state := busyState c.owner
      callback := none
      log := k.log ++ [.responded failed] } := by
  have hlt := decide_eq_true_iff.mp hallows
  have hrequests := h.requests
  cases hworker : k.worker with
  | idle | uploading c =>
      rw [h.callback, hworker] at hrequests
      simp only [Worker.requested, Option.toList_none, List.length_nil] at hrequests
      omega
  | checkpointing c =>
      refine ⟨c, rfl, ?_⟩
      obtain ⟨rfl, hinit⟩ := h.worker_owner (c := c) (by rw [hworker]; rfl)
      have hcallback : k.callback = some c := by rw [h.callback, hworker]; rfl
      have hstate : k.state = waitState c.owner := by rw [h.state, stateOf, hworker]; rfl
      rw [← hworker]
      exact onCheckpointAction_wait (p := k.note (.responded failed)) hinit hstate hcallback

theorem tracked_response (h : Tracked current k) {failed : Bool}
    (hallows : allows k.log (.response failed) = true) :
    ∃ k' current', onCheckpointAction failed k = .ok k' ∧ Tracked current' k' := by
  obtain ⟨c, hworker, hstep⟩ := h.response hallows
  obtain ⟨rfl, hinit⟩ := h.worker_owner (c := c) (by rw [hworker]; rfl)
  rw [hstep]
  apply tracked_commitCallback
  have hpending : k.pending = c :: k.queue := by simp [Client.pending, hworker, Worker.toList]
  have howners := h.owners
  have hcounted := h.counted
  have hfinal := h.final
  have hrequests := h.requests
  rw [hpending] at howners hcounted hfinal
  rw [h.callback, hworker] at hrequests
  have hbegun : begun (k.log ++ [.responded failed]) = begun k.log := by simp [begun, Entry.begun?]
  refine ⟨?_, rfl, howners, rfl, ?_, hcounted, ?_, hfinal, h.waiting, h.listening, ?_⟩
  · rw [hbegun, h.answered]
    simp [completed, Entry.completed?]
  · simpa [Worker.requested, Entry.isRequest, Entry.isResponse] using hrequests
  · rw [lastReceived_concat rfl]
    exact h.batch
  · rw [hbegun]
    exact h.ordered

theorem tracked_closed (h : Tracked current k) (hallows : allows k.log .closed = true) :
    ∃ k', Kcl.Library.onActionEnd k = .ok k' ∧ Tracked none k' := by
  simp only [allows, Bool.and_eq_true, decide_eq_true_eq, List.any_eq_true] at hallows
  obtain ⟨hlen, type, hmem, rfl⟩ := hallows
  obtain rfl := h.current_eq_none hlen
  have hended : k.state = .ended := by
    rw [h.state, stateOf]
    obtain hnil | ⟨types, last, hlast⟩ := List.eq_nil_or_concat (begun k.log)
    · rw [hnil] at hmem
      exact absurd hmem List.not_mem_nil
    · have hordered := h.ordered
      rw [hlast, List.concat_eq_append] at hordered hmem ⊢
      rw [List.dropLast_concat] at hordered
      rcases List.mem_append.mp hmem with hmem | hmem
      · exact absurd rfl (hordered _ hmem)
      · rw [restState_concat, ← List.mem_singleton.mp hmem]
        rfl
  refine ⟨{ k with state := .ended, destroyed := true }, ?_, ?_⟩
  · have hhandle : (core k).state.handle .cleanup = (.ended, true) :=
      congrArg (State.handle · .cleanup) hended
    rw [Kcl.Library.onActionEnd, handleStateInput_ok hhandle]
    rfl
  · exact ⟨h.answered, hended.symm.trans h.state, h.owners, h.callback, h.requests, h.counted, h.batch,
      h.final, h.waiting, fun _ => rfl, h.ordered⟩

end

theorem session_cases {size : Nat} {s s' : Session} {e : Event}
    (h : (session size).step s e = some s') :
    s.ending = .running ∧ (e.isDaemon = true → s.client.destroyed = false) ∧
      allows s.client.log e = true ∧ react size s.client e = some s' := by
  obtain ⟨hguard, h⟩ := Option.ite_none_right_eq_some.mp h
  simp only [Bool.and_eq_true, decide_eq_true_eq, Bool.or_eq_true, Bool.not_eq_true'] at hguard
  obtain ⟨⟨hrunning, hlistens⟩, hallows⟩ := hguard
  refine ⟨hrunning, ?_, hallows, h⟩
  intro hdaemon
  rw [hdaemon] at hlistens
  exact hlistens.resolve_left Bool.noConfusion

/-- A step keeps the client tracked, unless the emitter could not be initialized. -/
theorem tracked_step {size : Nat} {s s' : Session} {e : Event} {current : Option ActionType}
    (h : Tracked current s.client) (hs : (session size).step s e = some s') :
    (s'.ending = .exited ∧ s'.client = { s.client with waiting := false }) ∨
      (s'.ending = .running ∧ ∃ current', Tracked current' s'.client) := by
  obtain ⟨-, hlistens, hallows, hreact⟩ := session_cases hs
  cases e with
  | action a =>
      have hlen : (begun s.client.log).length = (completed s.client.log).length := by
        simp only [allows, Bool.and_eq_true, decide_eq_true_eq] at hallows
        exact hallows.1.1
      obtain rfl := h.current_eq_none hlen
      obtain ⟨k', current', hk', htracked⟩ := tracked_action size h (hlistens rfl) hallows
      obtain rfl := Option.some.inj hreact
      rw [hk']
      exact .inr ⟨rfl, current', htracked⟩
  | initialized failed =>
      obtain ⟨hwaiting, hreact⟩ := Option.ite_none_right_eq_some.mp hreact
      cases failed with
      | true =>
          obtain rfl := Option.some.inj hreact
          exact .inl ⟨rfl, rfl⟩
      | false =>
          obtain ⟨k', hk', htracked⟩ := tracked_initialized h hwaiting
          obtain rfl := Option.some.inj hreact
          rw [hk']
          exact .inr ⟨rfl, none, htracked⟩
  | start =>
      simp only [react] at hreact
      split at hreact
      · rename_i c queue hworker hqueue
        obtain rfl := Option.some.inj hreact
        exact .inr ⟨rfl, current, tracked_start h hworker hqueue⟩
      · cases hreact
  | uploaded failed =>
      simp only [react] at hreact
      split at hreact
      · rename_i c hworker
        obtain ⟨k', current', hk', htracked⟩ := tracked_uploaded h hworker failed
        obtain rfl := Option.some.inj hreact
        rw [hk']
        exact .inr ⟨rfl, current', htracked⟩
      · cases hreact
  | response failed =>
      obtain ⟨k', current', hk', htracked⟩ := tracked_response h hallows
      obtain rfl := Option.some.inj hreact
      rw [hk']
      exact .inr ⟨rfl, current', htracked⟩
  | closed =>
      obtain ⟨k', hk', htracked⟩ := tracked_closed h hallows
      obtain rfl := Option.some.inj hreact
      rw [hk']
      exact .inr ⟨rfl, none, htracked⟩

/-- The client that runs, or exited while it was tracked. -/
theorem tracked_run {size : Nat} {tr : List (Session × Event)} {s : Session}
    (h : (session size).Run tr s) :
    s.ending ≠ .crashed ∧ ∃ current k, Tracked current k ∧ k.log = s.client.log ∧
      k.pending = s.client.pending ∧ (s.ending = .running → k = s.client) := by
  refine h.invariant (fun _ s => s.ending ≠ .crashed ∧ ∃ current k, Tracked current k ∧
    k.log = s.client.log ∧ k.pending = s.client.pending ∧ (s.ending = .running → k = s.client)) ?_ ?_
  · exact ⟨End.noConfusion, none, _, tracked_initial, rfl, rfl, fun _ => rfl⟩
  · intro tr s e s' _ hinv hs
    obtain ⟨-, current, k, htracked, -, -, hsame⟩ := hinv
    obtain rfl := hsame (session_cases hs).1
    rcases tracked_step htracked hs with ⟨hexited, hclient⟩ | ⟨hrunning, current', htracked'⟩
    · rw [hexited, hclient]
      exact ⟨End.noConfusion, current, _, htracked, rfl, rfl, End.noConfusion⟩
    · rw [hrunning]
      exact ⟨End.noConfusion, current', _, htracked', rfl, rfl, fun _ => rfl⟩

/-- Under a conforming daemon, however the uploads end and whatever the daemon responds: the
client never throws, the statuses answer the actions in order, every commit that is queued
or under way belongs to the one action that has no status yet, and there is never more than
one checkpoint without a response. -/
theorem commits_keep_protocol {size : Nat} {tr : List (Session × Event)} {s : Session}
    (h : (session size).Run tr s) :
    s.ending ≠ .crashed ∧
    (∃ current : Option ActionType, begun s.client.log = completed s.client.log ++ current.toList ∧
      ∀ c ∈ s.client.pending, current = some c.owner) ∧
    s.client.log.countP Entry.isRequest ≤ s.client.log.countP Entry.isResponse + 1 := by
  obtain ⟨hcrashed, current, k, htracked, hlog, hpending, -⟩ := tracked_run h
  rw [← hlog, ← hpending]
  refine ⟨hcrashed, ⟨current, htracked.answered, fun c hc => (htracked.owners c hc).1⟩, ?_⟩
  rw [htracked.requests]
  cases k.callback with
  | none => exact Nat.le_succ _
  | some c => exact le_refl _

/-- Two records that fill the buffer each. -/
def twoClicks : List Record := [⟨[97, 98], "1"⟩, ⟨[99, 100], "2"⟩]

/-- The second upload fails, and the batch is answered all the same. -/
theorem commits_keep_protocol_failed_upload :
    ∃ tr s, (session 3).Run tr s ∧
      tr.map Prod.snd = [.action (.initialization "shardId-0"), .initialized false,
        .action (.processRecords (some twoClicks)), .start, .uploaded false, .response false, .start,
        .uploaded true] ∧
      completed s.client.log = [.initialization, .processRecords] ∧ s.ending ≠ .crashed := by
  have hrun := System.Run.nil.exec (S := session 3)
    [.action (.initialization "shardId-0"), .initialized false,
      .action (.processRecords (some twoClicks)), .start, .uploaded false, .response false, .start,
      .uploaded true] rfl
  exact ⟨_, _, hrun, rfl, rfl, (commits_keep_protocol hrun).1⟩

end PlenarioStream.ClickStream

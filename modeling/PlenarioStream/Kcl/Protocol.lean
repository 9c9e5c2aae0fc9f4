import PlenarioStream.Kcl.Manager

/-!
The client together with a conforming daemon, when the pulls succeed: it sends `initialize`
first, any number of `processRecords` after it and at last `shutdown`, each when the action
before has its status, and answers every checkpoint request once. Along every run the log is a
sequence of complete transcripts, one for each action, of which the last may still wait for the
response to its checkpoint.
-/
namespace PlenarioStream.Kcl
open Js Consumer Transition Library

def Entry.isAction : Entry → Bool
  | received _ => true
  | _ => false

def Entry.isShutdown : Entry → Bool
  | received (.shutdown _) => true
  | _ => false

def Entry.isStatus : Entry → Bool
  | sent (.status _) => true
  | _ => false

def Entry.isRequest : Entry → Bool
  | sent (.checkpoint _) => true
  | _ => false

def Entry.isResponse : Entry → Bool
  | responded _ _ => true
  | _ => false

/-- After an exception the process is over. -/
structure Session where
  manager : Manager
  crashed : Bool

/-- Pulls end at any time. The callback of one that has failed throws. -/
inductive Event
  | action (a : Action)
  | response (error checkpoint : Value)
  | closed
  | settle (i : Nat) (result : Except String SensorMap)
  | refreshed (result : Except String SensorMap)

/-- The records of an action have sequence numbers. -/
def numbered : Action → Bool
  | .processRecords (some records) =>
      records.all fun r => r.sequenceNumber.any (· != "")
  | _ => true

/-- Every action has its status. -/
def answered (log : List Entry) : Bool := log.countP Entry.isAction == log.countP Entry.isStatus

/-- What a conforming daemon may send after the given log, when the pulls succeed. The response
to the checkpoint of a batch has a sequence number that can be converted to text. -/
def allows (log : List Entry) : Event → Bool
  | .action a =>
      answered log && !log.any Entry.isShutdown && numbered a &&
        (decide (a.type = .initialization) == log.isEmpty)
  | .response _ checkpoint =>
      decide (log.countP Entry.isResponse < log.countP Entry.isRequest) &&
        (checkpoint.printable || log.any Entry.isShutdown)
  | .closed => answered log && log.any Entry.isShutdown
  | .settle _ result | .refreshed result => result.isOk

/-- Pulls that end are no input of the daemon, and go on when its lines have ended. -/
def Event.isPull : Event → Bool
  | settle _ _ | refreshed _ => true
  | _ => false

def finish : Except Manager Manager → Session
  | .ok k => ⟨k, false⟩
  | .error k => ⟨k, true⟩

def Session.setProcessor (s : Session) (p : Processor) : Session :=
  { s with manager := { s.manager with processor := p } }

def Session.pulled (result : Except String SensorMap) (s : Session) (p : Processor) : Session :=
  if result.isOk then s.setProcessor p else { s with crashed := true }

def react (s : Session) : Event → Option Session
  | .action a => some (finish (onRecordProcessorAction a s.manager))
  | .response error checkpoint => some (finish (onCheckpointAction error checkpoint s.manager))
  | .closed => some (finish (Library.onActionEnd s.manager))
  | .settle i result =>
      (processor.step s.manager.processor (.settle i result)).map (s.pulled result)
  | .refreshed result =>
      (processor.step s.manager.processor (.refreshed result)).map (s.pulled result)

def session : System Session Event where
  init := ⟨.initial, false⟩
  step s e :=
    if !s.crashed && (e.isPull || !s.manager.destroyed) && allows s.manager.log e then react s e
    else none

/-- The checkpoint that an action has to request: the last record of a batch, and the
end of the shard when it is terminated. -/
def Action.required : Action → Option (Option String)
  | initialization _ => none
  | processRecords records => (records.bind List.getLast?).map Record.sequenceNumber
  | shutdown reason => if reason.strictEq (.str "TERMINATE") then some none else none

inductive Transcript (a : Action) : List Entry → Prop
  | plain (h : a.required = none) : Transcript a [.received a, .sent (.status a.type)]
  | checkpointed (sequenceNumber : Option String) (error checkpoint : Value)
      (h : a.required = some sequenceNumber) :
      Transcript a [.received a, .sent (.checkpoint sequenceNumber), .responded error checkpoint,
        .sent (.status a.type)]

inductive Transcripts : List Action → List Entry → Prop
  | nil : Transcripts [] []
  | snoc {as : List Action} {log t : List Entry} {a : Action} :
      Transcripts as log → Transcript a t → Transcripts (as ++ [a]) (log ++ t)

def Event.action? : Event → Option Action
  | action a => some a
  | _ => none

/-- The actions that the daemon has sent. -/
def actionsOf (tr : List (Session × Event)) : List Action := tr.filterMap fun x => x.2.action?

inductive Phase (as : List Action) (k : Manager) : Prop
  | idle (hlog : Transcripts as k.log) (hstate : k.state = restState (as.map Action.type))
      (hcallback : k.callback = none)
  | waiting (done : List Action) (a : Action) (sequenceNumber : Option String) (log : List Entry)
      (has : as = done ++ [a]) (hdone : Transcripts done log)
      (hrequired : a.required = some sequenceNumber)
      (hlog : k.log = log ++ [.received a, .sent (.checkpoint sequenceNumber)])
      (hstate : k.state = waitState a.type) (hcallback : k.callback = some a.type)
      (hopen : k.destroyed = false)

theorem Transcripts.counts {as : List Action} {log : List Entry} (h : Transcripts as log) :
    log.countP Entry.isAction = as.length ∧ log.countP Entry.isStatus = as.length ∧
      log.countP Entry.isRequest = log.countP Entry.isResponse := by
  induction h with
  | nil => exact ⟨rfl, rfl, rfl⟩
  | snoc _ ht ih =>
      obtain ⟨haction, hstatus, hrequest⟩ := ih
      simp only [List.countP_append, List.length_append, List.length_singleton, haction, hstatus,
        hrequest]
      cases ht with
      | plain _ => exact ⟨rfl, rfl, rfl⟩
      | checkpointed _ _ _ _ => exact ⟨rfl, rfl, rfl⟩

theorem Transcripts.shutdown {as : List Action} {log : List Entry} (h : Transcripts as log) :
    log.any Entry.isShutdown = as.any fun a => decide (a.type = .shutdown) := by
  induction h with
  | nil => rfl
  | @snoc _ _ _ a _ ht ih =>
      rw [List.any_append, List.any_append, ih]
      congr 1
      cases ht with
      | plain _ => cases a <;> rfl
      | checkpointed _ _ _ _ => cases a <;> rfl

theorem Transcripts.isEmpty {as : List Action} {log : List Entry} (h : Transcripts as log) :
    log.isEmpty = as.isEmpty := by
  cases h with
  | nil => rfl
  | snoc _ ht =>
      rw [List.isEmpty_eq_false_iff.mpr (List.append_ne_nil_of_right_ne_nil _ (List.cons_ne_nil _ _))]
      rw [List.isEmpty_eq_false_iff]
      cases ht <;> exact List.append_ne_nil_of_right_ne_nil _ (List.cons_ne_nil _ _)

/-- The first action is the only one that may begin at the start, and the others may
begin as long as there was no shutdown. -/
theorem restState_begin {as : List Action} {log : List Entry} {a : Action}
    (h : Transcripts as log) (hallows : allows log (.action a) = true) :
    (restState (as.map Action.type)).handle a.type.beginInput = (busyState a.type, true) := by
  simp only [allows, Bool.and_eq_true, Bool.not_eq_true', beq_iff_eq] at hallows
  obtain ⟨⟨⟨-, hshutdown⟩, -⟩, hfirst⟩ := hallows
  rw [h.isEmpty] at hfirst
  rw [h.shutdown, List.any_eq_false] at hshutdown
  rw [begin_rest, if_pos]
  constructor
  · intro hlast
    rw [List.getLast?_map] at hlast
    obtain ⟨b, hb, htype⟩ := Option.map_eq_some_iff.mp hlast
    exact hshutdown b (List.mem_of_getLast? hb) (decide_eq_true htype)
  · rw [List.map_eq_nil_iff, ← List.isEmpty_iff, ← hfirst, decide_eq_true_iff]

/-- Completing an action sends its status. -/
theorem recordProcessorCallback_busy {k : Manager} {type : ActionType}
    (h : k.state = busyState type) :
    recordProcessorCallback type k =
      .ok { k with state := doneState type, log := k.log ++ [.sent (.status type)] } :=
  Library.recordProcessorCallback_busy h

/-- A checkpoint is requested when no other is in progress. -/
theorem checkpoint_busy {k : Manager} {type : ActionType} (htype : type ≠ .initialization)
    (h : k.state = busyState type) (hcallback : k.callback = none) (sequenceNumber : Option String) :
    checkpoint sequenceNumber type k =
      .ok { k with
        state := waitState type
        callback := some type
        log := k.log ++ [.sent (.checkpoint sequenceNumber)] } :=
  Library.checkpoint_busy htype h hcallback _ _

theorem type_of_required {a : Action} {sequenceNumber : Option String}
    (h : a.required = some sequenceNumber) : a.type ≠ .initialization := by
  cases a with
  | initialization _ => cases h
  | processRecords _ | shutdown _ => simp [Action.type]

/-- The sequence number that the loop of `processRecords` leaves. -/
theorem checkpointAt_numbered {records : Option (List Record)}
    (h : numbered (.processRecords records) = true) :
    (records.bind checkpointAt).map some = (Action.processRecords records).required := by
  cases records with
  | none => rfl
  | some records =>
      obtain rfl | ⟨records, r, rfl⟩ := List.eq_nil_or_concat records
      · rfl
      · rw [List.concat_eq_append] at h ⊢
        simp only [numbered, List.all_append, List.all_cons, List.all_nil, Bool.and_true,
          Bool.and_eq_true] at h
        cases hseq : r.sequenceNumber with
        | none => simp [hseq] at h
        | some seq =>
            have hne : seq ≠ "" := by simpa [hseq] using h.2
            simp [checkpointAt, Action.required, hseq, hne]

/-- The record processor completes an action or requests the checkpoint that the action
requires. -/
theorem recordProcessor_busy {k : Manager} {a : Action} (hstate : k.state = busyState a.type)
    (hcallback : k.callback = none) (hnumbered : numbered a = true) :
    ∃ k', recordProcessor a k = .ok k' ∧ k'.destroyed = k.destroyed ∧
      ((a.required = none ∧ k'.state = doneState a.type ∧ k'.callback = none ∧
          k'.log = k.log ++ [.sent (.status a.type)]) ∨
        (∃ sequenceNumber, a.required = some sequenceNumber ∧ k'.state = waitState a.type ∧
          k'.callback = some a.type ∧ k'.log = k.log ++ [.sent (.checkpoint sequenceNumber)])) := by
  cases a with
  | initialization shardId =>
      exact ⟨_, recordProcessorCallback_busy (k := { k with shardId := some shardId }) hstate, rfl,
        .inl ⟨rfl, rfl, hcallback, rfl⟩⟩
  | processRecords records =>
      have hrequired := checkpointAt_numbered hnumbered
      let k' := { k with processor := processRecords records k.processor }
      cases hseq : records.bind checkpointAt with
      | none =>
          have hstep : recordProcessor (.processRecords records) k =
              recordProcessorCallback .processRecords k' := by
            simp only [recordProcessor, hseq, k']
          rw [hseq] at hrequired
          exact ⟨_, hstep.trans (recordProcessorCallback_busy hstate), rfl,
            .inl ⟨hrequired.symm, rfl, hcallback, rfl⟩⟩
      | some sequenceNumber =>
          have hstep : recordProcessor (.processRecords records) k =
              checkpoint (some sequenceNumber) .processRecords k' := by
            simp only [recordProcessor, hseq, k']
          have htype : (Action.processRecords records).type ≠ .initialization := ActionType.noConfusion
          have hcheckpoint := checkpoint_busy (k := k') htype hstate hcallback (some sequenceNumber)
          rw [hseq] at hrequired
          exact ⟨_, hstep.trans hcheckpoint, rfl,
            .inr ⟨some sequenceNumber, hrequired.symm, rfl, rfl, rfl⟩⟩
  | shutdown reason =>
      by_cases hreason : reason.strictEq (.str "TERMINATE") = true
      · have hstep : recordProcessor (.shutdown reason) k = checkpoint none .shutdown k :=
          if_pos hreason
        have htype : (Action.shutdown reason).type ≠ .initialization := ActionType.noConfusion
        exact ⟨_, hstep.trans (checkpoint_busy htype hstate hcallback _), rfl,
          .inr ⟨none, if_pos hreason, rfl, rfl, rfl⟩⟩
      · have hstep : recordProcessor (.shutdown reason) k = recordProcessorCallback .shutdown k :=
          if_neg hreason
        exact ⟨_, hstep.trans (recordProcessorCallback_busy hstate), rfl,
          .inl ⟨if_neg hreason, rfl, hcallback, rfl⟩⟩

/-- An action that arrives in an idle state. -/
theorem onRecordProcessorAction_idle {as : List Action} {k : Manager} {a : Action}
    (hlog : Transcripts as k.log) (hstate : k.state = restState (as.map Action.type)) (hcallback : k.callback = none)
    (hopen : k.destroyed = false) (hallows : allows k.log (.action a) = true) :
    ∃ k', onRecordProcessorAction a k = .ok k' ∧ Phase (as ++ [a]) k' := by
  let begun : Manager := { k with log := k.log ++ [.received a] }
  have hbegin : begun.state.handle a.type.beginInput = (busyState a.type, true) := by
    rw [← restState_begin hlog hallows, ← hstate]
  have hnumbered : numbered a = true := by
    simp only [allows, Bool.and_eq_true] at hallows
    exact hallows.1.2
  obtain ⟨k', hprocess, hopen', hk'⟩ := recordProcessor_busy
    (k := { k with state := busyState a.type, log := k.log ++ [.received a] }) rfl hcallback hnumbered
  have hrest : restState ((as ++ [a]).map Action.type) = doneState a.type := by
    rw [List.map_append]
    exact restState_concat _ _
  have hbegins := Library.onRecordProcessorAction_begin (f := recordProcessor a) hbegin
  refine ⟨k', hbegins.trans hprocess, ?_⟩
  · rcases hk' with ⟨hrequired, hstate', hcallback', hlog'⟩ |
      ⟨sequenceNumber, hrequired, hstate', hcallback', hlog'⟩
    · refine .idle ?_ (hstate'.trans hrest.symm) hcallback'
      rw [hlog', List.append_assoc]
      exact hlog.snoc (.plain hrequired)
    · refine .waiting as a sequenceNumber k.log rfl hlog hrequired ?_ hstate' hcallback' (hopen'.trans hopen)
      rw [hlog', List.append_assoc]
      rfl

/-- The response goes to the callback of the action that waits for it. -/
theorem onCheckpointAction_callback {k : Manager} {type : ActionType} (htype : type ≠ .initialization)
    (hstate : k.state = waitState type) (hcallback : k.callback = some type)
    (error checkpoint : Value) :
    onCheckpointAction error checkpoint k =
      checkpointCallback recordProcessorCallback checkpoint type { k with
        state := busyState type
        callback := none
        log := k.log ++ [.responded error checkpoint] } := by
  let responded : Manager := { k with log := k.log ++ [.responded error checkpoint] }
  exact Library.onCheckpointAction_wait (p := responded) htype hstate hcallback

/-- The callback completes the action, if it does not throw. -/
theorem onCheckpointAction_completes {k : Manager} {type : ActionType}
    (htype : type ≠ .initialization) (hstate : k.state = waitState type)
    (hcallback : k.callback = some type) (error : Value) {checkpoint : Value}
    (hprints : type = .processRecords → checkpoint.printable = true) :
    onCheckpointAction error checkpoint k = .ok { k with
      state := doneState type
      callback := none
      log := k.log ++ [.responded error checkpoint] ++ [.sent (.status type)] } := by
  rw [onCheckpointAction_callback htype hstate hcallback, checkpointCallback_eq hprints]
  exact recordProcessorCallback_busy rfl

/-- The response to the checkpoint of an action completes the action. -/
theorem onCheckpointAction_waiting {as done : List Action} {k : Manager} {a : Action}
    {sequenceNumber : Option String} {log : List Entry} (has : as = done ++ [a])
    (hdone : Transcripts done log) (hrequired : a.required = some sequenceNumber)
    (hlog : k.log = log ++ [.received a, .sent (.checkpoint sequenceNumber)])
    (hstate : k.state = waitState a.type) (hcallback : k.callback = some a.type)
    (error checkpoint : Value) (hprints : a.type = .processRecords → checkpoint.printable = true) :
    ∃ k', onCheckpointAction error checkpoint k = .ok k' ∧ Transcripts as k'.log ∧
      k'.state = restState (as.map Action.type) ∧ k'.callback = none := by
  refine ⟨_, onCheckpointAction_completes (type_of_required hrequired) hstate hcallback error hprints,
    ?_, ?_, rfl⟩
  · rw [has, hlog]
    simp only [List.append_assoc, List.cons_append, List.nil_append]
    exact hdone.snoc (.checkpointed sequenceNumber error checkpoint hrequired)
  · rw [has, List.map_append]
    exact (restState_concat _ _).symm

theorem session_step {s s' : Session} {e : Event} (h : session.step s e = some s') :
    (e.isPull || !s.manager.destroyed) = true ∧ allows s.manager.log e = true ∧
      react s e = some s' := by
  obtain ⟨hguard, h⟩ := Option.ite_none_right_eq_some.mp h
  simp only [Bool.and_eq_true] at hguard
  exact ⟨hguard.1.2, hguard.2, h⟩

theorem Phase.setProcessor {as : List Action} {s : Session} (h : Phase as s.manager)
    (p : Processor) : Phase as (s.setProcessor p).manager := by
  cases h with
  | idle hlog hstate hcallback => exact .idle hlog hstate hcallback
  | waiting done a seq log has hdone hrequired hlog hstate hcallback hopen =>
      exact .waiting done a seq log has hdone hrequired hlog hstate hcallback hopen

/-- While an action waits for its response, nothing but the response may come. -/
theorem not_answered_waiting {done : List Action} {a : Action} {sequenceNumber : Option String}
    {log : List Entry} (h : Transcripts done log) :
    answered (log ++ [.received a, .sent (.checkpoint sequenceNumber)]) = false := by
  obtain ⟨haction, hstatus, -⟩ := h.counts
  simp [answered, List.countP_append, haction, hstatus, Entry.isAction, Entry.isStatus]

/-- The request of the last action is pending, so it is the only one that may be a shutdown. -/
theorem any_shutdown_waiting {as done : List Action} {a : Action} {sequenceNumber : Option String}
    {log whole : List Entry} (has : as = done ++ [a]) (hdone : Transcripts done log)
    (hwhole : whole = log ++ [.received a, .sent (.checkpoint sequenceNumber)])
    (hlast : ∀ a ∈ as.dropLast, a.type ≠ .shutdown) :
    whole.any Entry.isShutdown = decide (a.type = .shutdown) := by
  rw [has, List.dropLast_concat] at hlast
  have hno : log.any Entry.isShutdown = false := by
    rw [hdone.shutdown, List.any_eq_false]
    intro b hb
    simpa using hlast b hb
  rw [hwhole, List.any_append, hno]
  cases a <;> rfl

theorem actionsOf_concat (tr : List (Session × Event)) (s : Session) (e : Event) :
    actionsOf (tr ++ [(s, e)]) = actionsOf tr ++ e.action?.toList := by
  rw [actionsOf, List.filterMap_append, actionsOf]
  cases e <;> rfl

/-- A shutdown that is the last action leaves the final state. -/
theorem restState_ended {as : List Action} (hlast : ∀ a ∈ as.dropLast, a.type ≠ .shutdown)
    {a : Action} (ha : a ∈ as) (hshutdown : a.type = .shutdown) :
    restState (as.map Action.type) = .ended := by
  obtain rfl | ⟨as, b, rfl⟩ := List.eq_nil_or_concat as
  · exact absurd ha List.not_mem_nil
  · rw [List.concat_eq_append] at ha hlast ⊢
    rw [List.dropLast_concat] at hlast
    rw [List.map_append, List.map_singleton, restState_concat]
    rcases List.mem_append.mp ha with ha | ha
    · exact absurd hshutdown (hlast a ha)
    · rw [← List.mem_singleton.mp ha, hshutdown]
      rfl

/-- The session is sound, and there is no action after a shutdown. -/
structure Sound (tr : List (Session × Event)) (s : Session) : Prop where
  alive : s.crashed = false
  phase : Phase (actionsOf tr) s.manager
  last : ∀ a ∈ (actionsOf tr).dropLast, a.type ≠ .shutdown

section
variable {tr : List (Session × Event)} {s s' : Session}

theorem sound_action {a : Action} (h : Sound tr s) (hs : session.step s (.action a) = some s') :
    Sound (tr ++ [(s, .action a)]) s' := by
  obtain ⟨hguard, hallows, hreact⟩ := session_step hs
  obtain rfl := Option.some.inj hreact
  have hopen : s.manager.destroyed = false := by simpa [Event.isPull] using hguard
  have hactions : actionsOf (tr ++ [(s, .action a)]) = actionsOf tr ++ [a] := actionsOf_concat tr s _
  cases h.phase with
  | idle hlog hstate hcallback =>
      obtain ⟨k', hk', hphase⟩ := onRecordProcessorAction_idle hlog hstate hcallback hopen hallows
      rw [hk']
      refine ⟨rfl, hactions ▸ hphase, ?_⟩
      rw [hactions, List.dropLast_concat]
      simp only [allows, Bool.and_eq_true, Bool.not_eq_true', hlog.shutdown, List.any_eq_false,
        decide_eq_true_eq] at hallows
      exact hallows.1.1.2
  | waiting done b seq log has hdone hrequired hlog hstate hcallback hopen =>
      rw [hlog] at hallows
      simp [allows, not_answered_waiting hdone] at hallows

theorem sound_response {error checkpoint : Value} (h : Sound tr s)
    (hs : session.step s (.response error checkpoint) = some s') :
    Sound (tr ++ [(s, .response error checkpoint)]) s' ∧
      Transcripts (actionsOf tr) s'.manager.log := by
  obtain ⟨-, hallows, hreact⟩ := session_step hs
  obtain rfl := Option.some.inj hreact
  have hactions : actionsOf (tr ++ [(s, .response error checkpoint)]) = actionsOf tr :=
    (actionsOf_concat tr s _).trans (List.append_nil _)
  cases h.phase with
  | idle hlog hstate hcallback =>
      obtain ⟨-, -, hrequest⟩ := hlog.counts
      simp [allows, hrequest] at hallows
  | waiting done b seq log has hdone hrequired hlog hstate hcallback hopen =>
      have hprints : b.type = .processRecords → checkpoint.printable = true := by
        intro hb
        simp only [allows, Bool.and_eq_true, Bool.or_eq_true] at hallows
        refine hallows.2.resolve_right ?_
        rw [any_shutdown_waiting has hdone hlog h.last, hb]
        exact Bool.noConfusion
      obtain ⟨k', hk', hdone', hstate', hcallback'⟩ := onCheckpointAction_waiting has hdone
        hrequired hlog hstate hcallback error checkpoint hprints
      rw [hk']
      exact ⟨⟨rfl, hactions ▸ .idle hdone' hstate' hcallback', hactions ▸ h.last⟩, hdone'⟩

theorem sound_closed (h : Sound tr s) (hs : session.step s .closed = some s') :
    Sound (tr ++ [(s, .closed)]) s' := by
  obtain ⟨-, hallows, hreact⟩ := session_step hs
  obtain rfl := Option.some.inj hreact
  have hactions : actionsOf (tr ++ [(s, .closed)]) = actionsOf tr :=
    (actionsOf_concat tr s _).trans (List.append_nil _)
  cases h.phase with
  | idle hlog hstate hcallback =>
      simp only [allows, Bool.and_eq_true, hlog.shutdown, List.any_eq_true, decide_eq_true_eq] at hallows
      obtain ⟨-, a, ha, hshutdown⟩ := hallows
      have hended := restState_ended h.last ha hshutdown
      have hcleanup : s.manager.state.handle .cleanup = (.ended, true) := by
        rw [hstate, hended]
        rfl
      have hend : Library.onActionEnd s.manager =
          .ok { s.manager with state := .ended, destroyed := true } := by
        rw [Library.onActionEnd, handleStateInput_ok (p := s.manager) hcleanup]
        rfl
      rw [hend]
      exact ⟨rfl, hactions ▸ .idle hlog hended.symm hcallback, hactions ▸ h.last⟩
  | waiting done b seq log has hdone hrequired hlog hstate hcallback hopen =>
      rw [hlog] at hallows
      simp [allows, not_answered_waiting hdone] at hallows

theorem pulled_ok {result : Except String SensorMap} (h : result.isOk = true) (s : Session)
    (p : Processor) : s.pulled result p = s.setProcessor p := if_pos h

theorem sound_pull {e : Event} (h : Sound tr s) (he : e.isPull = true)
    (hs : session.step s e = some s') : Sound (tr ++ [(s, e)]) s' := by
  obtain ⟨-, hallows, hreact⟩ := session_step hs
  have hactions : actionsOf (tr ++ [(s, e)]) = actionsOf tr := by
    rw [actionsOf_concat]
    cases e with
    | settle _ _ | refreshed _ => exact List.append_nil _
    | action _ | response _ _ | closed => cases he
  have hset : ∃ p, s' = s.setProcessor p := by
    cases e with
    | settle _ _ | refreshed _ =>
        obtain ⟨p, -, rfl⟩ := Option.map_eq_some_iff.mp hreact
        exact ⟨p, pulled_ok hallows s p⟩
    | action _ | response _ _ | closed => cases he
  obtain ⟨p, rfl⟩ := hset
  exact ⟨h.alive, hactions ▸ h.phase.setProcessor p, hactions ▸ h.last⟩

end

theorem sound_run {tr : List (Session × Event)} {s : Session} (h : session.Run tr s) :
    Sound tr s := by
  refine h.invariant Sound ?_ ?_
  · exact ⟨rfl, .idle .nil rfl rfl, fun a ha => absurd ha List.not_mem_nil⟩
  · intro tr s e s' _ hinv hs
    cases e with
    | action a => exact sound_action hinv hs
    | response error checkpoint => exact (sound_response hinv hs).1
    | closed => exact sound_closed hinv hs
    | settle i result => exact sound_pull hinv rfl hs
    | refreshed result => exact sound_pull hinv rfl hs

/-- The checkpoint of the last action has been requested, and the daemon has not yet
responded. The response, whatever it says, completes the action; for a batch the sequence
number in it has to have a text. -/
def AwaitsResponse (as : List Action) (s : Session) : Prop :=
  ∃ done a sequenceNumber log, as = done ++ [a] ∧ Transcripts done log ∧
    a.required = some sequenceNumber ∧
    s.manager.log = log ++ [.received a, .sent (.checkpoint sequenceNumber)] ∧
    ∀ error checkpoint, (a.type = .processRecords → checkpoint.printable = true) →
      ∃ s', session.step s (.response error checkpoint) = some s' ∧ Transcripts as s'.manager.log

/-- The manager is open and its request unanswered, so the daemon may respond. -/
theorem response_enabled {s : Session} {done : List Action} {a : Action}
    {sequenceNumber : Option String} {log : List Entry} (halive : s.crashed = false)
    (hdone : Transcripts done log) (hrequired : a.required = some sequenceNumber)
    (hlog : s.manager.log = log ++ [.received a, .sent (.checkpoint sequenceNumber)])
    (hopen : s.manager.destroyed = false) (error checkpoint : Value)
    (hprints : a.type = .processRecords → checkpoint.printable = true) :
    ∃ s', session.step s (.response error checkpoint) = some s' := by
  have hallows : allows s.manager.log (.response error checkpoint) = true := by
    obtain ⟨-, -, hrequest⟩ := hdone.counts
    have hlogged : checkpoint.printable = true ∨ Entry.isShutdown (.received a) = true := by
      cases a with
      | initialization _ => cases hrequired
      | processRecords _ => exact .inl (hprints rfl)
      | shutdown _ => exact .inr rfl
    simp only [allows, hlog, List.countP_append, List.any_append, List.any_cons, hrequest,
      Bool.and_eq_true, Bool.or_eq_true, decide_eq_true_eq]
    refine ⟨?_, hlogged.imp_right fun ha => .inr (.inl ha)⟩
    simp [Entry.isResponse, Entry.isRequest]
  exact ⟨_, if_pos (by simp [halive, hopen, hallows])⟩

theorem waitState_ne_error {a : Action} {sequenceNumber : Option String}
    (h : a.required = some sequenceNumber) : waitState a.type ≠ .error := by
  cases a with
  | initialization _ => cases h
  | processRecords _ | shutdown _ => exact State.noConfusion

/-- Under a conforming daemon the client never throws and never enters the error state.
The log holds, for each action sent, in order, its transcript: the checkpoint that the
action requires, if any, the response to it, and one status. Only the last action may
still wait for the response. -/
theorem kcl_protocol {tr : List (Session × Event)} {s : Session} (h : session.Run tr s) :
    s.crashed = false ∧ s.manager.state ≠ .error ∧
      (Transcripts (actionsOf tr) s.manager.log ∨ AwaitsResponse (actionsOf tr) s) := by
  have hinv := sound_run h
  refine ⟨hinv.alive, ?_, ?_⟩
  · cases hinv.phase with
    | idle _ hstate _ =>
        rw [hstate]
        exact restState_ne_error _
    | waiting done a seq log _ _ hrequired _ hstate _ =>
        rw [hstate]
        exact waitState_ne_error hrequired
  · cases hinv.phase with
    | idle hlog _ _ => exact .inl hlog
    | waiting done a seq log has hdone hrequired hlog hstate hcallback hopen =>
        refine .inr ⟨done, a, seq, log, has, hdone, hrequired, hlog, ?_⟩
        intro error checkpoint hprints
        obtain ⟨s', hs⟩ := response_enabled hinv.alive hdone hrequired hlog hopen error checkpoint
          hprints
        exact ⟨s', hs, (sound_response hinv hs).2⟩

/-- A session of three actions, with a payload that is not JSON and a failed checkpoint. -/
theorem kcl_protocol_three_actions :
    ∃ tr s, session.Run tr s ∧
      actionsOf tr = [.initialization "shardId-0", .processRecords (some [⟨none, some "1"⟩]),
        .shutdown (.str "TERMINATE")] ∧
      s.crashed = false ∧ s.manager.state ≠ .error ∧
      (Transcripts (actionsOf tr) s.manager.log ∨ AwaitsResponse (actionsOf tr) s) := by
  have hrun := System.Run.nil.exec (S := session)
    [.action (.initialization "shardId-0"),
      .action (.processRecords (some [⟨none, some "1"⟩])),
      .response (.str "ThrottlingException") (.str "1"),
      .action (.shutdown (.str "TERMINATE")),
      .response .undefined .undefined] rfl
  exact ⟨_, _, hrun, rfl, kcl_protocol hrun⟩

end PlenarioStream.Kcl

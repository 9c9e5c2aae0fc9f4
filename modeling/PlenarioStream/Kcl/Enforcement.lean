import PlenarioStream.Kcl.Stdout

/-!
What the client does with a daemon that need not conform. The state machine lets through
exactly the lines that a conforming daemon could send next, except that it does not ask for
sequence numbers; any other line throws before anything is sent for it, and so does a pull
that has failed. Until then the statuses answer the actions one by one, in order.
-/
namespace PlenarioStream.Kcl
open Js Consumer Transition Library

def Entry.begun? : Entry → Option ActionType
  | received a => some a.type
  | _ => none

def Entry.completed? : Entry → Option ActionType
  | sent (.status type) => some type
  | _ => none

instance : Logged Entry := ⟨Entry.begun?, Entry.completed?⟩

/-- What may come after the given log, with or without sequence numbers. -/
def permits (log : List Entry) : Line → Bool
  | .event (.action a) =>
      answered log && !log.any Entry.isShutdown &&
        (decide (a.type = .initialization) == log.isEmpty)
  | .event e => allows log e
  | .noAction => true
  | .unreadable | .cutShort _ => false

/-- The checkpoint that the record processor requests for an action. -/
def Action.requested : Action → Option (Option String)
  | initialization _ => none
  | processRecords records => (records.bind checkpointAt).map some
  | shutdown reason => if reason.strictEq (.str "TERMINATE") then some none else none

/-- The state between two lines, when the last action may wait for a response. -/
def trackedState (types : List ActionType) : Option ActionType → State
  | some type => waitState type
  | none => restState types

/-- What the manager knows of the log, by its state and its callback. -/
structure Tracked (k : Manager) : Prop where
  answered : begun k.log = completed k.log ++ k.callback.toList
  requests : k.log.countP Entry.isRequest = k.log.countP Entry.isResponse + k.callback.toList.length
  state : k.state = trackedState (begun k.log) k.callback
  waiting : k.callback ≠ some .initialization
  ordered : ∀ type ∈ (begun k.log).dropLast, type ≠ .shutdown
  first : begun k.log = [] → k.log = []

theorem tracked_initial : Tracked .initial := by
  constructor <;> simp [Manager.initial, trackedState, restState]

theorem countP_isAction (log : List Entry) : log.countP Entry.isAction = (begun log).length := by
  rw [begun, List.length_filterMap_eq_countP]
  refine List.countP_congr ?_
  intro e _
  cases e <;> rfl

theorem countP_isStatus (log : List Entry) : log.countP Entry.isStatus = (completed log).length := by
  rw [completed, List.length_filterMap_eq_countP]
  refine List.countP_congr ?_
  intro e _
  cases e with
  | sent m => cases m <;> rfl
  | _ => rfl

theorem any_isShutdown (log : List Entry) :
    log.any Entry.isShutdown = (begun log).any fun type => decide (type = .shutdown) := by
  induction log with
  | nil => rfl
  | cons e log ih =>
      rw [List.any_cons, ih]
      cases e with
      | received a => cases a <;> rfl
      | responded _ _ | sent _ => rfl

/-- Every action has its status exactly when no callback waits. -/
theorem Tracked.answered_eq {k : Manager} (h : Tracked k) :
    Kcl.answered k.log = k.callback.isNone := by
  have hlen := congrArg List.length h.answered
  rw [List.length_append] at hlen
  rw [Kcl.answered, countP_isAction, countP_isStatus]
  cases hc : k.callback with
  | none =>
      rw [hc] at hlen
      simpa using hlen
  | some type =>
      rw [hc] at hlen
      simp only [Option.toList_some, List.length_singleton] at hlen
      simp only [Option.isNone_some, beq_eq_false_iff_ne]
      omega

theorem Tracked.isEmpty_eq {k : Manager} (h : Tracked k) :
    k.log.isEmpty = (begun k.log).isEmpty := by
  cases hlog : k.log with
  | nil => rfl
  | cons e log =>
      have hne : begun k.log ≠ [] := fun hnil => List.cons_ne_nil e log (hlog ▸ h.first hnil)
      rw [← hlog, List.isEmpty_eq_false_iff.mpr hne, hlog]
      rfl

theorem Tracked.any_shutdown {k : Manager} (h : Tracked k) :
    k.log.any Entry.isShutdown = decide ((begun k.log).getLast? = some .shutdown) := by
  rw [any_isShutdown]
  have hordered := h.ordered
  rcases List.eq_nil_or_concat (begun k.log) with hnil | ⟨types, type, hlast⟩
  · simp [hnil]
  · rw [hlast, List.concat_eq_append] at hordered ⊢
    rw [List.dropLast_concat] at hordered
    have hno : types.any (fun type => decide (type = .shutdown)) = false := by
      simpa using hordered
    simp [hno]

/-- The state machine lets an action begin exactly when the protocol does. -/
theorem Tracked.begin {k : Manager} (h : Tracked k) (a : Action) :
    k.state.handle a.type.beginInput =
      if permits k.log (.event (.action a)) then (busyState a.type, true) else (.error, false) := by
  simp only [permits, h.answered_eq, h.any_shutdown, h.isEmpty_eq]
  rw [h.state]
  cases hc : k.callback with
  | some type =>
      cases type with
      | initialization => exact absurd hc h.waiting
      | processRecords | shutdown => cases a <;> rfl
  | none =>
      rw [trackedState, begin_rest]
      congr 1
      cases hempty : begun k.log <;> simp

/-- The record processor completes an action or requests its checkpoint. -/
theorem recordProcessor_requested {k : Manager} {a : Action} (hstate : k.state = busyState a.type)
    (hcallback : k.callback = none) :
    ∃ k', recordProcessor a k = .ok k' ∧
      ((a.requested = none ∧ k'.state = doneState a.type ∧ k'.callback = none ∧
          k'.log = k.log ++ [.sent (.status a.type)]) ∨
        (∃ sequenceNumber, a.requested = some sequenceNumber ∧ k'.state = waitState a.type ∧
          k'.callback = some a.type ∧ k'.log = k.log ++ [.sent (.checkpoint sequenceNumber)])) := by
  cases a with
  | initialization shardId =>
      exact ⟨_, recordProcessorCallback_busy (k := { k with shardId := some shardId }) hstate,
        .inl ⟨rfl, rfl, hcallback, rfl⟩⟩
  | processRecords records =>
      let k' := { k with processor := processRecords records k.processor }
      cases hseq : records.bind checkpointAt with
      | none =>
          have hstep : recordProcessor (.processRecords records) k =
              recordProcessorCallback .processRecords k' := by
            simp only [recordProcessor, hseq, k']
          exact ⟨_, hstep.trans (recordProcessorCallback_busy hstate),
            .inl ⟨by simp [Action.requested, hseq], rfl, hcallback, rfl⟩⟩
      | some sequenceNumber =>
          have hstep : recordProcessor (.processRecords records) k =
              checkpoint (some sequenceNumber) .processRecords k' := by
            simp only [recordProcessor, hseq, k']
          have htype : (Action.processRecords records).type ≠ .initialization := ActionType.noConfusion
          have hcheckpoint := checkpoint_busy (k := k') htype hstate hcallback (some sequenceNumber)
          exact ⟨_, hstep.trans hcheckpoint,
            .inr ⟨some sequenceNumber, by simp [Action.requested, hseq], rfl, rfl, rfl⟩⟩
  | shutdown reason =>
      by_cases hreason : reason.strictEq (.str "TERMINATE") = true
      · have hstep : recordProcessor (.shutdown reason) k = checkpoint none .shutdown k :=
          if_pos hreason
        exact ⟨_, hstep.trans (checkpoint_busy ActionType.noConfusion hstate hcallback _),
          .inr ⟨none, if_pos hreason, rfl, rfl, rfl⟩⟩
      · have hstep : recordProcessor (.shutdown reason) k = recordProcessorCallback .shutdown k :=
          if_neg hreason
        exact ⟨_, hstep.trans (recordProcessorCallback_busy hstate),
          .inl ⟨if_neg hreason, rfl, hcallback, rfl⟩⟩

theorem requested_initialization {a : Action} {sequenceNumber : Option String}
    (h : a.requested = some sequenceNumber) : a.type ≠ .initialization := by
  cases a with
  | initialization _ => cases h
  | processRecords _ | shutdown _ => exact ActionType.noConfusion

theorem no_shutdown {log : List Entry} (hno : log.any Entry.isShutdown = false) :
    ∀ type ∈ begun log, type ≠ .shutdown := by
  rw [any_isShutdown] at hno
  simpa using hno

/-- After an action and the message that it leads to. -/
theorem Tracked.reply {k k' : Manager} (h : Tracked k) (hcallback : k.callback = none)
    (hno : k.log.any Entry.isShutdown = false) {a : Action} {m : Message}
    (hlog : k'.log = k.log ++ [.received a] ++ [.sent m])
    (hanswered : [a.type] = completed [Entry.sent m] ++ k'.callback.toList)
    (hrequests : [Entry.sent m].countP Entry.isRequest = k'.callback.toList.length)
    (hstate : k'.state = trackedState (begun k.log ++ [a.type]) k'.callback)
    (hwaiting : k'.callback ≠ some .initialization) : Tracked k' := by
  have hbefore := h.answered
  have hcount := h.requests
  rw [hcallback] at hbefore hcount
  have hbegun : begun k'.log = begun k.log ++ [a.type] := by
    rw [hlog, begun_append, begun_append]
    exact List.append_nil _
  refine ⟨?_, ?_, ?_, hwaiting, ?_, ?_⟩
  · have hdone : completed k'.log = completed k.log ++ completed [Entry.sent m] := by
      rw [hlog, completed_append, completed_append]
      exact congrArg (· ++ _) (List.append_nil _)
    rw [hbegun, hbefore, hdone, hanswered]
    simp
  · rw [hlog, List.countP_append, List.countP_append, hrequests, hcount]
    simp [List.countP_append, Entry.isRequest, Entry.isResponse]
  · rw [hbegun, hstate]
  · rw [hbegun, List.dropLast_concat]
    exact no_shutdown hno
  · simp [hbegun]

/-- A permitted action is answered, or waits for the response to its checkpoint. -/
theorem Tracked.action {k : Manager} (h : Tracked k) {a : Action}
    (hpermits : permits k.log (.event (.action a)) = true) :
    ∃ k', onRecordProcessorAction a k = .ok k' ∧ Tracked k' := by
  let begun : Manager := { k with log := k.log ++ [.received a] }
  have hbegin : begun.state.handle a.type.beginInput = (busyState a.type, true) :=
    (h.begin a).trans (if_pos hpermits)
  have hbegins := Library.onRecordProcessorAction_begin (f := recordProcessor a) hbegin
  simp only [permits, h.answered_eq, Bool.and_eq_true, Bool.not_eq_true', Option.isNone_iff_eq_none]
    at hpermits
  obtain ⟨⟨hcallback, hno⟩, -⟩ := hpermits
  obtain ⟨k', hprocess, hk'⟩ := recordProcessor_requested
    (k := { begun with state := busyState a.type }) (a := a) rfl hcallback
  refine ⟨k', hbegins.trans hprocess, ?_⟩
  · rcases hk' with ⟨-, hstate', hcallback', hlog'⟩ |
      ⟨sequenceNumber, hrequested, hstate', hcallback', hlog'⟩
    · refine h.reply hcallback hno hlog' ?_ ?_ ?_ ?_
      · rw [hcallback']
        rfl
      · rw [hcallback']
        rfl
      · rw [hstate', hcallback', trackedState, restState_concat]
      · simp [hcallback']
    · refine h.reply hcallback hno hlog' ?_ ?_ ?_ ?_
      · rw [hcallback']
        rfl
      · rw [hcallback']
        rfl
      · rw [hstate', hcallback']
        rfl
      · rw [hcallback']
        exact fun heq => requested_initialization hrequested (Option.some.inj heq)

/-- A response is let through when a callback waits for it and does not throw. -/
theorem Tracked.response_permitted {k : Manager} (h : Tracked k) (error checkpoint : Value) :
    permits k.log (.event (.response error checkpoint)) =
      k.callback.any fun type => checkpoint.printable || decide (type = .shutdown) := by
  have hrequests := h.requests
  simp only [permits, allows, h.any_shutdown, h.answered]
  cases hc : k.callback with
  | none =>
      rw [hc] at hrequests
      simp only [Option.toList_none, List.length_nil, Nat.add_zero] at hrequests
      simp [hrequests]
  | some type =>
      rw [hc] at hrequests
      simp only [Option.toList_some, List.length_singleton] at hrequests
      simp [hrequests]

/-- The response to a checkpoint completes the action that waits for it. -/
theorem Tracked.response {k : Manager} (h : Tracked k) {type : ActionType}
    (hcallback : k.callback = some type) (error checkpoint : Value)
    (hprints : type = .processRecords → checkpoint.printable = true) :
    ∃ k', onCheckpointAction error checkpoint k = .ok k' ∧ Tracked k' := by
  have htype : type ≠ .initialization := fun heq => h.waiting (heq ▸ hcallback)
  have hanswered := h.answered
  have hrequests := h.requests
  have hstate := h.state
  rw [hcallback] at hanswered hrequests hstate
  refine ⟨_, onCheckpointAction_completes htype hstate hcallback error hprints, ?_⟩
  have hbegun : begun (k.log ++ [.responded error checkpoint] ++ [.sent (.status type)]) =
      begun k.log := by
    rw [begun_append, begun_append]
    exact (List.append_nil _).trans (List.append_nil _)
  refine ⟨?_, ?_, ?_, ?_, ?_, ?_⟩
  · rw [hbegun, hanswered, completed_append, completed_append, List.append_assoc,
      List.append_assoc]
    rfl
  · rw [List.countP_append, List.countP_append, hrequests, List.countP_append, List.countP_append]
    rfl
  · rw [hbegun, hanswered, trackedState, Option.toList_some, restState_concat]
  · simp
  · rw [hbegun]
    exact h.ordered
  · rw [hbegun, hanswered]
    simp

/-- The response throws when no callback waits for it, or in the callback. -/
theorem Tracked.response_error {k : Manager} (h : Tracked k) {error checkpoint : Value}
    (hpermits : permits k.log (.event (.response error checkpoint)) = false) :
    ∃ k', onCheckpointAction error checkpoint k = .error k' ∧
      k'.log = k.log ++ [.responded error checkpoint] := by
  rw [h.response_permitted] at hpermits
  let responded : Manager := { k with log := k.log ++ [.responded error checkpoint] }
  cases hc : k.callback with
  | none =>
      have hfinish : responded.state.handle .finishCheckpoint = (.error, false) := by
        have hstate : responded.state = trackedState (begun k.log) none := hc ▸ h.state
        rw [hstate, trackedState, restState]
        cases (begun k.log).getLast? with
        | none => rfl
        | some type => cases type <;> rfl
      refine ⟨{ responded with state := .error, destroyed := true }, ?_, rfl⟩
      rw [onCheckpointAction, Library.onCheckpointAction, handleStateInput_error (p := responded) hfinish]
      rfl
  | some type =>
      rw [hc, Option.any_some, Bool.or_eq_false_iff, decide_eq_false_iff_not] at hpermits
      have hstate := h.state
      rw [hc] at hstate
      cases type with
      | initialization => exact absurd hc h.waiting
      | shutdown => exact absurd rfl hpermits.2
      | processRecords =>
          rw [onCheckpointAction_callback ActionType.noConfusion hstate hc,
            checkpointCallback_error hpermits.1]
          exact ⟨_, rfl, rfl⟩

/-- The line is let through and leaves a tracked manager, or ends the process without any
message. -/
structure Enforces (s : Session) (l : Line) (s' : Session) : Prop where
  permitted : permits s.manager.log l = true → s'.crashed = false ∧ Tracked s'.manager
  refused : permits s.manager.log l = false → s'.crashed = true ∧ s'.messages = s.messages

theorem Enforces.of_ok {s : Session} {l : Line} {k' : Manager}
    (hpermits : permits s.manager.log l = true) (h : Tracked k') : Enforces s l ⟨k', false⟩ :=
  ⟨fun _ => ⟨rfl, h⟩, fun hno => absurd (hpermits.symm.trans hno) Bool.noConfusion⟩

theorem Enforces.of_error {s : Session} {l : Line} {k' : Manager}
    (hpermits : permits s.manager.log l = false)
    (hmessages : k'.log.filterMap Entry.message? = s.messages) : Enforces s l ⟨k', true⟩ :=
  ⟨fun hyes => absurd (hpermits.symm.trans hyes) Bool.noConfusion, fun _ => ⟨rfl, hmessages⟩⟩

theorem message?_concat (log : List Entry) {e : Entry} (h : e.message? = none) :
    (log ++ [e]).filterMap Entry.message? = log.filterMap Entry.message? := by
  rw [List.filterMap_append, List.filterMap_cons_none h, List.filterMap_nil, List.append_nil]

theorem enforces_action {s : Session} (h : Tracked s.manager) (a : Action) :
    Enforces s (.event (.action a)) (finish (onRecordProcessorAction a s.manager)) := by
  cases hpermits : permits s.manager.log (.event (.action a)) with
  | true =>
      obtain ⟨k', hk', htracked⟩ := h.action hpermits
      rw [hk']
      exact .of_ok hpermits htracked
  | false =>
      let begun : Manager := { s.manager with log := s.manager.log ++ [.received a] }
      have hbegin : begun.state.handle a.type.beginInput = (.error, false) := by
        have hbegin := h.begin a
        rwa [hpermits] at hbegin
      rw [onRecordProcessorAction, Library.onRecordProcessorAction,
        handleStateInput_error (p := begun) hbegin]
      exact .of_error hpermits (message?_concat _ rfl)

theorem enforces_response {s : Session} (h : Tracked s.manager) (error checkpoint : Value) :
    Enforces s (.event (.response error checkpoint))
      (finish (onCheckpointAction error checkpoint s.manager)) := by
  cases hpermits : permits s.manager.log (.event (.response error checkpoint)) with
  | true =>
      have hwaits := hpermits
      rw [h.response_permitted, Option.any_eq_true] at hwaits
      obtain ⟨type, hc, hprints⟩ := hwaits
      rw [Bool.or_eq_true, decide_eq_true_eq] at hprints
      obtain ⟨k', hk', htracked⟩ := h.response hc error checkpoint fun hbatch =>
        hprints.resolve_right (hbatch ▸ ActionType.noConfusion)
      rw [hk']
      exact .of_ok hpermits htracked
  | false =>
      obtain ⟨k', hk', hlog⟩ := h.response_error hpermits
      rw [hk']
      refine .of_error hpermits ?_
      rw [hlog]
      exact message?_concat _ rfl

theorem enforces_closed {s : Session} (h : Tracked s.manager) :
    Enforces s (.event .closed) (finish (Library.onActionEnd s.manager)) := by
  have hpermits : permits s.manager.log (.event .closed) =
      (s.manager.callback.isNone && decide ((begun s.manager.log).getLast? = some .shutdown)) := by
    simp only [permits, allows, h.answered_eq, h.any_shutdown]
  by_cases hended : s.manager.callback = none ∧ (begun s.manager.log).getLast? = some .shutdown
  · have hstate : s.manager.state = .ended := by
      rw [h.state, hended.1, trackedState, restState, hended.2]
      rfl
    rw [hended.1, hended.2] at hpermits
    have hclean : s.manager.state.handle .cleanup = (.ended, true) := by
      rw [hstate]
      rfl
    rw [Library.onActionEnd, handleStateInput_ok (p := s.manager) hclean]
    refine .of_ok hpermits ?_
    exact ⟨h.answered, h.requests, hstate.symm.trans h.state, h.waiting, h.ordered, h.first⟩
  · have hclean : s.manager.state.handle .cleanup = (.error, false) := by
      rw [h.state]
      cases hc : s.manager.callback with
      | some type => cases type <;> rfl
      | none =>
          rw [trackedState, restState]
          cases hlast : (begun s.manager.log).getLast? with
          | none => rfl
          | some type =>
              cases type with
              | shutdown => exact absurd ⟨hc, hlast⟩ hended
              | initialization | processRecords => rfl
    rw [Library.onActionEnd, handleStateInput_error (p := s.manager) hclean]
    refine .of_error ?_ rfl
    rw [hpermits, Bool.and_eq_false_iff, Option.isNone_eq_false_iff, decide_eq_false_iff_not]
    by_cases hc : s.manager.callback = none
    · exact .inr fun hlast => hended ⟨hc, hlast⟩
    · exact .inl (Option.isSome_iff_ne_none.mpr hc)

/-- The manager is the same but for its processor. -/
theorem Tracked.setProcessor {s : Session} (h : Tracked s.manager) (p : Processor) :
    Tracked (s.setProcessor p).manager :=
  ⟨h.answered, h.requests, h.state, h.waiting, h.ordered, h.first⟩

theorem enforces_react {s s' : Session} {l : Line} (halive : s.crashed = false)
    (h : Tracked s.manager) (hs : l.react s = some s') : Enforces s l s' := by
  have hkept (p : Processor) (hpermits : permits s.manager.log l = true) :
      Enforces s l (s.setProcessor p) := by
    have hsame : s.setProcessor p = ⟨(s.setProcessor p).manager, false⟩ := by
      rw [← halive]
      rfl
    rw [hsame]
    exact .of_ok hpermits (h.setProcessor p)
  have hpull (p : Processor) {result : Except String SensorMap}
      (hpermits : permits s.manager.log l = result.isOk) : Enforces s l (s.pulled result p) := by
    cases result with
    | ok newMap => exact hkept p hpermits
    | error reason => exact .of_error hpermits rfl
  cases l with
  | event e =>
      cases e with
      | action a =>
          obtain rfl := Option.some.inj hs
          exact enforces_action h a
      | response error checkpoint =>
          obtain rfl := Option.some.inj hs
          exact enforces_response h error checkpoint
      | closed =>
          obtain rfl := Option.some.inj hs
          exact enforces_closed h
      | settle i result | refreshed result =>
          obtain ⟨p, -, rfl⟩ := Option.map_eq_some_iff.mp hs
          exact hpull p rfl
  | noAction =>
      obtain rfl := Option.some.inj hs
      exact hkept _ rfl
  | unreadable =>
      obtain rfl := Option.some.inj hs
      exact .of_error rfl rfl
  | cutShort records =>
      obtain rfl := Option.some.inj hs
      unfold Kcl.cutShort
      cases hhandle : s.manager.state.handle .beginProcessRecords with
      | mk state valid =>
          cases valid with
          | true =>
              rw [handleStateInput_ok (p := s.manager) hhandle]
              exact .of_error rfl rfl
          | false =>
              rw [handleStateInput_error (p := s.manager) hhandle]
              exact .of_error rfl rfl

/-- What holds of a console, and of the lines that have led to it. -/
structure Enforced (tr : List (Console × Line)) (c : Console) : Prop where
  alive : c.session.crashed = false ↔ ∀ x ∈ tr, permits x.1.session.manager.log x.2 = true
  tracked : c.session.crashed = false → Tracked c.session.manager
  unanswered : c.session.crashed = true → ∃ x l, tr.getLast? = some (x, l) ∧
    c.session.messages = x.session.messages

theorem enforced_run {tr : List (Console × Line)} {c : Console} (h : console.Run tr c) :
    Enforced tr c := by
  refine h.invariant (fun tr c => Enforced tr c) ?_ ?_
  · refine ⟨by simp [console], fun _ => tracked_initial, by simp [console]⟩
  · intro tr c l c' _ hinv hs
    have halive : c.session.crashed = false := by
      obtain ⟨hguard, -⟩ := Option.ite_none_right_eq_some.mp hs
      simp only [Bool.and_eq_true, Bool.not_eq_true'] at hguard
      exact hguard.1
    have hbefore := hinv.alive.mp halive
    have hstep := enforces_react halive (hinv.tracked halive) (console_step hs).1
    cases hpermits : permits c.session.manager.log l with
    | true =>
        obtain ⟨halive', htracked⟩ := hstep.permitted hpermits
        refine ⟨iff_of_true halive' ?_, fun _ => htracked, ?_⟩
        · intro x hx
          rcases List.mem_append.mp hx with hx | hx
          · exact hbefore x hx
          · obtain rfl := List.mem_singleton.mp hx
            exact hpermits
        · intro hcrashed
          exact absurd (halive'.symm.trans hcrashed) Bool.noConfusion
    | false =>
        obtain ⟨hcrashed, hmessages⟩ := hstep.refused hpermits
        refine ⟨iff_of_false (by simp [hcrashed]) ?_, ?_, ?_⟩
        · intro hx
          have hlast := hx (c, l) (List.mem_append_right _ (List.mem_singleton_self _))
          exact absurd (hpermits.symm.trans hlast) Bool.noConfusion
        · intro halive'
          exact absurd (halive'.symm.trans hcrashed) Bool.noConfusion
        · intro _
          exact ⟨c, l, List.getLast?_concat, hmessages⟩

/-- Over every run of the client, whatever lines come and however the pulls end: nothing has
been thrown exactly when every line was one that the protocol permits at its point, sequence
numbers aside, and every pull has succeeded. As long as that is so, the statuses sent are the
actions received, in order, but for the one whose checkpoint is pending; and a line that throws
is not answered. -/
theorem protocol_enforced_iff {tr : List (Console × Line)} {c : Console} (h : console.Run tr c) :
    (c.session.crashed = false ↔ ∀ x ∈ tr, permits x.1.session.manager.log x.2 = true) ∧
    (c.session.crashed = false → begun c.session.manager.log =
      completed c.session.manager.log ++ c.session.manager.callback.toList) ∧
    (c.session.crashed = true → ∃ x l, tr.getLast? = some (x, l) ∧
      c.session.messages = x.session.messages) := by
  have henforced := enforced_run h
  exact ⟨henforced.alive, fun halive => (henforced.tracked halive).answered, henforced.unanswered⟩

/-- A second `initialize` ends a session that has answered the first. -/
theorem protocol_enforced_second_initialize :
    ∃ tr c, console.Run tr c ∧ tr.map Prod.snd = [.event (.action (.initialization "shardId-0")),
        .event (.action (.initialization "shardId-0"))] ∧
      c.session.crashed = true ∧ c.session.messages = [.status .initialization] ∧
      ¬ ∀ x ∈ tr, permits x.1.session.manager.log x.2 = true := by
  have hrun := System.Run.nil.exec (S := console)
    [.event (.action (.initialization "shardId-0")),
      .event (.action (.initialization "shardId-0"))] rfl
  refine ⟨_, _, hrun, rfl, rfl, rfl, ?_⟩
  rw [← (protocol_enforced_iff hrun).1]
  exact Bool.noConfusion

end PlenarioStream.Kcl

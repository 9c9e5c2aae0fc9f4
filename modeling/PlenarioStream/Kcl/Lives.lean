import PlenarioStream.Kcl.Text

/-!
What the texts on standard input say, as lines of the daemon, and which of them the client
survives. The message that it has written last tells the state of the library and its callback,
and so the lines that may come next; whatever may come is answered by one message.
-/
namespace PlenarioStream.Kcl.Text
open Js Consumer Transition Library

section
variable (parse : String → Option Json) (lossy : List UInt8 → String)
  (buffer : Json → Option (List UInt8))

/-- The records that the loop handles, with their sequence numbers, and whether it ends without
an exception. -/
def readRecords (shardId : Value) (records : Json) : Nat → List Json → List (Record × Value) × Bool
  | i, [] =>
      match inRange records i with
      | .ok false => ([], true)
      | _ => ([], false)
  | i, record :: rest =>
      match inRange records i with
      | .error _ => ([], false)
      | .ok false => ([], true)
      | .ok true =>
          match recordData lossy buffer record with
          | .error _ => ([], false)
          | .ok data =>
              let handled := (⟨parse data, textOnly (sequenceNumber record)⟩, sequenceNumber record)
              if logged shardId record then
                let (more, whole) := readRecords shardId records (i + 1) rest
                (handled :: more, whole)
              else ([handled], false)

def readBatch (shardId : Value) (records : Json) : Line :=
  match readRecords parse lossy buffer shardId records 0 (elements records) with
  | (handled, true) => .event (.action (.processRecords (some (handled.map Prod.fst))))
  | (handled, false) => .cutShort (handled.map Prod.fst)

def readAction (shardId : Value) (type : ActionType) (input : Js.Object) : Line :=
  match type with
  | .initialization => .event (.action (.initialization (input.get "shardId").toText))
  | .processRecords =>
      match input.get "records" with
      | .json records =>
          if records.truthy then readBatch parse lossy buffer shardId records
          else .event (.action (.processRecords none))
      | _ => .event (.action (.processRecords none))
  | .shutdown => .event (.action (.shutdown (input.get "reason")))

def readJson (shardId : Value) (action : Json) : Line :=
  match (Value.json action).read "action" with
  | .json (.str actionType) =>
      match ActionType.ofName actionType with
      | some type => readAction parse lossy buffer shardId type (cloneToInput action)
      | none =>
          if actionType = "checkpoint" then
            .event (.response ((Value.json action).read "error")
              ((Value.json action).read "checkpoint"))
          else .unreadable
  | _ => .unreadable

/-- A text as a line, to a client that was given a shard. There is nothing on an empty one. -/
def readLine (shardId : Value) (text : String) : Option Line :=
  if text = "" then none
  else
    match parse text with
    | none => some .unreadable
    | some action =>
        if !action.truthy || !((Value.json action).read "action").truthy then some .noAction
        else some (readJson parse lossy buffer shardId action)

def Input.reading (shardId : Value) : Input → Option Line
  | line text _ => readLine parse lossy buffer shardId text
  | closed => some (.event .closed)
  | flushed _ => none
  | settle i result => some (.event (.settle i result))
  | refreshed result => some (.event (.refreshed result))

end

/-- What an input puts on standard error. -/
def Input.report (parse : String → Option Json) : Input → Option String
  | line text _ =>
      match parse text with
      | none => none
      | some action =>
          if text ≠ "" ∧ (!action.truthy || !((Value.json action).read "action").truthy) then
            some (errorLine text)
          else none
  | _ => none

/-- The actions that the message written last calls for. -/
def begins (last : Option (Library.Message Json)) (type : ActionType) : Bool :=
  match last with
  | none => decide (type = .initialization)
  | some (.checkpoint _) => false
  | some (.status done) => decide (done ≠ .shutdown) && decide (type ≠ .initialization)

def calledFor (last : Option (Library.Message Json)) : Line → Bool
  | .event (.action a) => begins last a.type
  | .event (.response _ checkpoint) =>
      match last with
      | some (.checkpoint .null) => true
      | some (.checkpoint _) => checkpoint.printable
      | _ => false
  | .event .closed =>
      match last with
      | some (.status type) => decide (type = .shutdown)
      | _ => false
  | .event (.settle _ result) | .event (.refreshed result) => result.isOk
  | .noAction => true
  | .unreadable | .cutShort _ => false

def stateAfter : Option (Library.Message Json) → State
  | none => .start
  | some (.checkpoint .null) => .finalCheckpointing
  | some (.checkpoint _) => .checkpointing
  | some (.status type) => doneState type

def callbackAfter : Option (Library.Message Json) → Option ActionType
  | some (.checkpoint .null) => some .shutdown
  | some (.checkpoint _) => some .processRecords
  | _ => none

/-- The message sent last tells the state and the callback. -/
structure Spoken (k : Manager) : Prop where
  state : k.state = stateAfter k.sent.getLast?
  callback : k.callback = callbackAfter k.sent.getLast?

/-- With or without room, a message is sent that leaves such a manager. -/
def Answered (k : Manager) (f : Bool → Except Manager Manager) : Prop :=
  ∃ m k', k'.sent = k.sent ∧ Spoken (k'.send m) ∧ ∀ room, f room = sendAction room m k'

/-- With or without room, the same exception comes before anything is sent. -/
def Thrown (k : Manager) (f : Bool → Except Manager Manager) : Prop :=
  ∃ k', k'.sent = k.sent ∧ ∀ room, f room = .error k'

def Comes (called : Bool) (k : Manager) (f : Bool → Except Manager Manager) : Prop :=
  if called then Answered k f else Thrown k f

theorem spoken_initial : Spoken .initial := ⟨rfl, rfl⟩

theorem Spoken.send_status {k : Manager} {type : ActionType} (hstate : k.state = doneState type)
    (hcallback : k.callback = none) : Spoken (k.send (.status type)) := by
  have hlast : (k.send (.status type)).sent.getLast? = some (.status type) := List.getLast?_concat
  constructor
  · rw [hlast]
    exact hstate
  · rw [hlast]
    exact hcallback

/-- Only a shutdown requests the checkpoint at null. -/
theorem Spoken.send_checkpoint {k : Manager} {type : ActionType} {q : Json}
    (hq : type = .processRecords ∧ q ≠ .null ∨ type = .shutdown ∧ q = .null)
    (hstate : k.state = waitState type) (hcallback : k.callback = some type) :
    Spoken (k.send (.checkpoint q)) := by
  have hlast : (k.send (.checkpoint q)).sent.getLast? = some (.checkpoint q) := List.getLast?_concat
  rcases hq with ⟨rfl, hq⟩ | ⟨rfl, rfl⟩
  · constructor
    · rw [hlast]
      cases q with
      | null => exact absurd rfl hq
      | _ => exact hstate
    · rw [hlast]
      cases q with
      | null => exact absurd rfl hq
      | _ => exact hcallback
  · constructor
    · rw [hlast]
      exact hstate
    · rw [hlast]
      exact hcallback

section
variable {k : Manager} {type : ActionType}

/-- The state machine lets an action begin exactly when the last message calls for it. -/
theorem Spoken.begin (h : Spoken k) (type : ActionType) :
    k.state.handle type.beginInput =
      if begins k.sent.getLast? type then (busyState type, true) else (.error, false) := by
  rw [h.state]
  cases k.sent.getLast? with
  | none => cases type <;> rfl
  | some m =>
      cases m with
      | checkpoint q => cases q <;> cases type <;> rfl
      | status done => cases done <;> cases type <;> rfl

/-- An action is called for only when no callback waits. -/
theorem Spoken.callback_none (h : Spoken k) (hbegins : begins k.sent.getLast? type = true) :
    k.callback = none := by
  rw [h.callback]
  cases hlast : k.sent.getLast? with
  | none => rfl
  | some m =>
      cases m with
      | checkpoint q =>
          rw [hlast] at hbegins
          cases hbegins
      | status done => rfl

theorem recordProcessorCallback_answered (hstate : k.state = busyState type)
    (hcallback : k.callback = none) :
    Answered k fun room => recordProcessorCallback room type k :=
  ⟨.status type, { k with state := doneState type }, rfl, .send_status rfl hcallback,
    fun room => show Library.recordProcessorCallback (sendAction room) type k = _ from
      Library.recordProcessorCallback_busy hstate⟩

theorem checkpoint_answered {q : Json}
    (hq : type = .processRecords ∧ q ≠ .null ∨ type = .shutdown ∧ q = .null)
    (hstate : k.state = busyState type) (hcallback : k.callback = none) :
    Answered k fun room => checkpoint room q type k := by
  have htype : type ≠ .initialization := by
    rcases hq with ⟨rfl, -⟩ | ⟨rfl, -⟩ <;> exact ActionType.noConfusion
  exact ⟨.checkpoint q, { k with state := waitState type, callback := some type }, rfl,
    .send_checkpoint hq rfl rfl, fun room => Library.checkpoint_busy htype hstate hcallback q type⟩

end

section
variable {parse : String → Option Json} {lossy : List UInt8 → String}
  {buffer : Json → Option (List UInt8)}

/-- The loop handles the records that can be read, and leaves the last sequence number. -/
theorem processLoop_eq (shardId : Value) (records : Json) (i : Nat) (elems : List Json)
    (p : Processor) (last : Value) :
    processLoop parse lossy buffer shardId records i elems p last =
      match readRecords parse lossy buffer shardId records i elems with
      | (handled, true) => .ok ((handled.map Prod.fst).foldl processRecord p,
          (handled.getLast?.map Prod.snd).getD last)
      | (handled, false) => .error ((handled.map Prod.fst).foldl processRecord p) := by
  induction elems generalizing i p last with
  | nil =>
      rw [processLoop, readRecords]
      cases inRange records i with
      | error e => rfl
      | ok inside => cases inside <;> rfl
  | cons record rest ih =>
      rw [processLoop, readRecords]
      cases inRange records i with
      | error e => rfl
      | ok inside =>
          cases inside with
          | false => rfl
          | true =>
              cases recordData lossy buffer record with
              | error e => rfl
              | ok data =>
                  simp only
                  split
                  · rw [ih]
                    cases readRecords parse lossy buffer shardId records (i + 1) rest with
                    | mk more whole =>
                        cases whole with
                        | false => rfl
                        | true => cases more <;> simp [List.getLast?_cons]
                  · rfl

/-- The loop over the records of the line has come to its end. -/
def whole : Line → Bool
  | .cutShort _ => false
  | _ => true

/-- The batch is answered when the loop ends, and throws when it does not. -/
theorem processRecords_comes (records : Json) {k : Manager} (hstate : k.state = .processing)
    (hcallback : k.callback = none) :
    Comes (whole (readBatch parse lossy buffer k.shardId records)) k fun room =>
      processRecords parse lossy buffer room records k := by
  simp only [readBatch, processRecords, processLoop_eq]
  cases readRecords parse lossy buffer k.shardId records 0 (elements records) with
  | mk handled ended =>
      cases ended with
      | false =>
          let left : Manager :=
            { k with processor := (handled.map Prod.fst).foldl processRecord k.processor }
          exact ⟨left, rfl, fun _ => rfl⟩
      | true =>
          simp only [whole]
          generalize (handled.map Prod.fst).foldl processRecord k.processor = p
          cases (handled.getLast?.map Prod.snd).getD .undefined with
          | json q =>
              simp only
              by_cases hq : q.truthy = true
              · simp only [hq, if_true]
                have hne : q ≠ .null := by
                  rintro rfl
                  cases hq
                let left : Manager :=
                  { k with processor := { p with checkpoints := p.checkpoints ++ [q.toText] } }
                exact checkpoint_answered (k := left) (.inl ⟨rfl, hne⟩) hstate hcallback
              · simp only [hq, Bool.false_eq_true, if_false]
                exact recordProcessorCallback_answered (k := { k with processor := p }) hstate hcallback
          | undefined | builtin _ =>
              exact recordProcessorCallback_answered (k := { k with processor := p }) hstate hcallback

variable (parse lossy buffer) in
theorem recordProcessor_comes (input : Js.Object) {k : Manager} {type : ActionType}
    (hstate : k.state = busyState type) (hcallback : k.callback = none) :
    Comes (whole (readAction parse lossy buffer k.shardId type input)) k fun room =>
      recordProcessor parse lossy buffer room type input k := by
  have hcomplete := recordProcessorCallback_answered hstate hcallback
  cases type with
  | initialization =>
      exact recordProcessorCallback_answered (k := { k with shardId := input.get "shardId" }) hstate
        hcallback
  | processRecords =>
      simp only [readAction, recordProcessor]
      cases input.get "records" with
      | json records =>
          simp only
          by_cases htruthy : records.truthy = true
          · simp only [htruthy, if_true]
            exact processRecords_comes records hstate hcallback
          · simp only [htruthy, Bool.false_eq_true, if_false]
            exact hcomplete
      | undefined | builtin _ => exact hcomplete
  | shutdown =>
      simp only [readAction, recordProcessor]
      by_cases hreason : (input.get "reason").strictEq (.str "TERMINATE") = true
      · simp only [hreason, if_true]
        exact checkpoint_answered (.inr ⟨rfl, rfl⟩) hstate hcallback
      · simp only [hreason, Bool.false_eq_true, if_false]
        exact hcomplete

theorem calledFor_readAction (last : Option (Library.Message Json)) (shardId : Value)
    (type : ActionType) (input : Js.Object) :
    calledFor last (readAction parse lossy buffer shardId type input) =
      (begins last type && whole (readAction parse lossy buffer shardId type input)) := by
  have hbatch : ∀ records, calledFor last (readBatch parse lossy buffer shardId records) =
      (begins last .processRecords && whole (readBatch parse lossy buffer shardId records)) := by
    intro records
    unfold readBatch
    split
    · exact (Bool.and_true _).symm
    · exact (Bool.and_false _).symm
  cases type with
  | initialization | shutdown => exact (Bool.and_true _).symm
  | processRecords =>
      simp only [readAction]
      split
      · split
        · exact hbatch _
        · exact (Bool.and_true _).symm
      · exact (Bool.and_true _).symm

theorem onRecordProcessorAction_comes (input : Js.Object) {k : Manager} (h : Spoken k)
    (type : ActionType) :
    Comes (calledFor k.sent.getLast? (readAction parse lossy buffer k.shardId type input)) k
      fun room => Library.onRecordProcessorAction
        (recordProcessor parse lossy buffer room type input) type k := by
  rw [calledFor_readAction]
  have hbegin := h.begin type
  cases hbegins : begins k.sent.getLast? type with
  | false =>
      rw [hbegins] at hbegin
      have herror : ∀ room, Library.onRecordProcessorAction
          (recordProcessor parse lossy buffer room type input) type k =
          .error { k with state := .error, destroyed := true } := by
        intro room
        rw [Library.onRecordProcessorAction, handleStateInput_error (p := k) hbegin]
        rfl
      refine ⟨_, ?_, herror⟩
      rfl
  | true =>
      rw [hbegins] at hbegin
      have hcomes := recordProcessor_comes parse lossy buffer input
        (k := { k with state := busyState type }) rfl (h.callback_none hbegins)
      have hprocess : ∀ room, Library.onRecordProcessorAction
          (recordProcessor parse lossy buffer room type input) type k =
          recordProcessor parse lossy buffer room type input { k with state := busyState type } :=
        fun room => Library.onRecordProcessorAction_begin (p := k) hbegin
      simp only [hprocess, Bool.true_and]
      exact hcomes

theorem onCheckpointAction_comes {k : Manager} (h : Spoken k) (error checkpoint : Value) :
    Comes (calledFor k.sent.getLast? (.event (.response error checkpoint))) k fun room =>
      onCheckpointAction room checkpoint k := by
  have hstate := h.state
  have hcallback := h.callback
  have hthrown : k.state.handle .finishCheckpoint = (.error, false) →
      Thrown k fun room => onCheckpointAction room checkpoint k := by
    intro hfinish
    have herror : ∀ room, onCheckpointAction room checkpoint k =
        .error { k with state := .error, destroyed := true } := by
      intro room
      rw [onCheckpointAction, Library.onCheckpointAction, handleStateInput_error (p := k) hfinish]
      rfl
    refine ⟨_, ?_, herror⟩
    rfl
  have hwaits : ∀ type, type ≠ .initialization → k.state = waitState type →
      k.callback = some type → ∀ room, onCheckpointAction room checkpoint k =
        checkpointCallback (recordProcessorCallback room) checkpoint type
          { k with state := busyState type, callback := none } :=
    fun type htype hwait hcall room => onCheckpointAction_wait (p := k) htype hwait hcall
  cases hlast : k.sent.getLast? with
  | none =>
      rw [hlast] at hstate
      exact hthrown (hstate ▸ rfl)
  | some m =>
      rw [hlast] at hstate hcallback
      cases m with
      | status done =>
          refine hthrown ?_
          rw [hstate]
          cases done <;> rfl
      | checkpoint q =>
          by_cases hq : q = .null
          · subst hq
            simp only [hwaits .shutdown ActionType.noConfusion hstate hcallback,
              checkpointCallback_eq (show ActionType.shutdown = .processRecords → _ from ActionType.noConfusion)]
            exact recordProcessorCallback_answered (k := { k with state := _, callback := none }) rfl rfl
          · have hcalled : calledFor (some (.checkpoint q)) (.event (.response error checkpoint)) =
                checkpoint.printable := by
              cases q <;> first | rfl | exact absurd rfl hq
            have hstate : k.state = .checkpointing := by
              rw [hstate]
              cases q <;> first | rfl | exact absurd rfl hq
            have hcallback : k.callback = some .processRecords := by
              rw [hcallback]
              cases q <;> first | rfl | exact absurd rfl hq
            rw [hcalled]
            simp only [hwaits .processRecords ActionType.noConfusion hstate hcallback]
            cases hprints : checkpoint.printable with
            | true =>
                simp only [checkpointCallback_eq fun _ => hprints]
                exact recordProcessorCallback_answered (k := { k with state := _, callback := none })
                  rfl rfl
            | false =>
                simp only [checkpointCallback_error hprints]
                exact ⟨{ k with state := .processing, callback := none }, rfl, fun _ => rfl⟩

theorem onAction_comes {k : Manager} (h : Spoken k) (action : Json) :
    Comes (calledFor k.sent.getLast? (readJson parse lossy buffer k.shardId action)) k
      fun room => onAction parse lossy buffer room action k := by
  have herror : Thrown k fun _ => .error k := ⟨k, rfl, fun _ => rfl⟩
  simp only [readJson, onAction]
  cases (Value.json action).read "action" with
  | json j =>
      cases j with
      | str actionType =>
          simp only
          cases ActionType.ofName actionType with
          | some type => exact onRecordProcessorAction_comes _ h type
          | none =>
              simp only
              by_cases hcheckpoint : actionType = "checkpoint"
              · simp only [if_pos hcheckpoint]
                exact onCheckpointAction_comes h _ _
              · simp only [if_neg hcheckpoint]
                exact herror
      | _ => exact herror
  | _ => exact herror

variable (parse lossy buffer) in
/-- A text without an action changes nothing, and any other is answered or throws. -/
inductive Takes (k : Manager) (text : String) : Option Line → Prop
  | quiet (l : Option Line) (hl : ∀ line ∈ l, line = .noAction)
      (h : ∀ room, (onIOLine parse lossy buffer room text k).1 = .ok k) : Takes k text l
  | comes (l : Line) (h : Comes (calledFor k.sent.getLast? l) k fun room =>
      (onIOLine parse lossy buffer room text k).1) : Takes k text (some l)

variable (parse lossy buffer) in
theorem onIOLine_takes {k : Manager} (h : Spoken k) (text : String) :
    Takes parse lossy buffer k text (readLine parse lossy buffer k.shardId text) := by
  have hline : ∀ room, onIOLine parse lossy buffer room text k =
      if text = "" then (.ok k, [])
      else match parse text with
        | none => (.error k, [])
        | some action =>
            if !action.truthy || !((Value.json action).read "action").truthy then
              (.ok k, [errorLine text])
            else (onAction parse lossy buffer room action k, []) := fun _ => rfl
  rw [readLine]
  by_cases hempty : text = ""
  · rw [if_pos hempty]
    refine .quiet none (fun _ hmem => absurd hmem (Option.not_mem_none _)) fun room => ?_
    rw [hline, if_pos hempty]
  · simp only [if_neg hempty] at hline ⊢
    cases hparse : parse text with
    | none =>
        refine .comes .unreadable ⟨k, rfl, fun room => ?_⟩
        simp only [hline, hparse]
    | some action =>
        simp only [hparse] at hline ⊢
        by_cases haction : (!action.truthy || !((Value.json action).read "action").truthy) = true
        · simp only [if_pos haction] at hline ⊢
          refine .quiet _ (fun line hmem => (Option.some.inj hmem).symm) fun room => ?_
          rw [hline]
        · simp only [if_neg haction] at hline ⊢
          refine .comes _ ?_
          simp only [hline]
          exact onAction_comes h action

theorem onIOLine_report (room : Bool) (text : String) (k : Manager) :
    (onIOLine parse lossy buffer room text k).2 =
      ((Input.line text room).report parse).toList := by
  simp only [onIOLine, Input.report]
  by_cases hempty : text = ""
  · rw [if_pos hempty]
    split <;> simp [hempty]
  · rw [if_neg hempty]
    cases parse text with
    | none => rfl
    | some action =>
        simp only [ne_eq, hempty, not_false_eq_true, true_and]
        split <;> rfl

theorem stateAfter_error (last : Option (Library.Message Json)) :
    (stateAfter last).handle .error = (.error, false) := by
  cases last with
  | none => rfl
  | some m =>
      cases m with
      | checkpoint q => cases q <;> rfl
      | status type => cases type <;> rfl

theorem Spoken.error {k : Manager} (h : Spoken k) :
    handleStateInput .error k = .error { k with state := .error, destroyed := true } := by
  have hhandle : k.state.handle .error = (.error, false) := by
    rw [h.state]
    exact stateAfter_error _
  exact handleStateInput_error (p := k) hhandle

/-- The end of the input is called for by the status of a shutdown. -/
theorem Spoken.closed {k : Manager} (h : Spoken k) :
    Library.onActionEnd k =
      if calledFor k.sent.getLast? (.event .closed) then
        .ok { k with state := .ended, destroyed := true }
      else .error { k with state := .error, destroyed := true } := by
  have hhandle : k.state.handle .cleanup =
      if calledFor k.sent.getLast? (.event .closed) then (.ended, true) else (.error, false) := by
    rw [h.state]
    cases k.sent.getLast? with
    | none => rfl
    | some m =>
        cases m with
        | checkpoint q => cases q <;> rfl
        | status type => cases type <;> rfl
  split
  · rename_i hcalled
    rw [if_pos hcalled] at hhandle
    rw [Library.onActionEnd, handleStateInput_ok (p := k) hhandle]
    rfl
  · rename_i hcalled
    rw [if_neg hcalled] at hhandle
    rw [Library.onActionEnd, handleStateInput_error (p := k) hhandle]
    rfl

variable (parse lossy buffer) in
/-- A step leads to an exception exactly when a write fails or the input is not called for. -/
structure Survives (c : Client) (i : Input) (c' : Client) : Prop where
  crashed : c'.crashed = false ↔ c'.failed = false ∧
    ∀ l ∈ i.reading parse lossy buffer c.manager.shardId,
      calledFor c.manager.sent.getLast? l = true
  spoken : c'.crashed = false → Spoken c'.manager

section
variable {c c' : Client} {i : Input}

theorem Survives.of_ok (hcrashed : c'.crashed = false) (hfailed : c'.failed = false)
    (hcalled : ∀ l ∈ i.reading parse lossy buffer c.manager.shardId,
      calledFor c.manager.sent.getLast? l = true)
    (h : Spoken c'.manager) : Survives parse lossy buffer c i c' :=
  ⟨iff_of_true hcrashed ⟨hfailed, hcalled⟩, fun _ => h⟩

theorem Survives.of_failed (hcrashed : c'.crashed = true) (hfailed : c'.failed = true) :
    Survives parse lossy buffer c i c' :=
  ⟨iff_of_false (by simp [hcrashed]) (by simp [hfailed]), by simp [hcrashed]⟩

theorem Survives.of_thrown (hcrashed : c'.crashed = true) {l : Line}
    (hl : i.reading parse lossy buffer c.manager.shardId = some l)
    (hcalled : calledFor c.manager.sent.getLast? l = false) :
    Survives parse lossy buffer c i c' := by
  refine ⟨iff_of_false (by simp [hcrashed]) ?_, by simp [hcrashed]⟩
  rintro ⟨-, hall⟩
  exact absurd (hcalled.symm.trans (hall l hl)) Bool.noConfusion

/-- Every input of a client that has not thrown. -/
theorem survives_line {text : String} {room : Bool} (h : Spoken c.manager) (errors : List String) :
    Survives parse lossy buffer c (.line text room)
      (c.write (onIOLine parse lossy buffer room text c.manager).1 errors
        (refused room c.manager (outcome (onIOLine parse lossy buffer room text c.manager).1))) := by
  have htakes := onIOLine_takes parse lossy buffer h text
  generalize hread : readLine parse lossy buffer c.manager.shardId text = l at htakes
  have hreading : (Input.line text room).reading parse lossy buffer c.manager.shardId = l := hread
  cases htakes with
  | quiet l hl hk =>
      rw [hk room]
      refine .of_ok rfl ?_ ?_ h
      · simp [Client.write, refused, outcome]
      · rw [hreading]
        intro line hmem
        rw [hl line hmem]
        rfl
  | comes l hcomes =>
      cases hcalled : calledFor c.manager.sent.getLast? l with
      | false =>
          rw [hcalled] at hcomes
          obtain ⟨k', hsent, hthrown⟩ := hcomes
          simp only [hthrown room]
          exact .of_thrown rfl hreading hcalled
      | true =>
          rw [hcalled] at hcomes
          obtain ⟨m, k', hsent, hspoken, hanswered⟩ := hcomes
          simp only [hanswered room]
          cases room with
          | true =>
              refine .of_ok rfl rfl ?_ hspoken
              rw [hreading]
              intro line hmem
              rwa [← Option.some.inj hmem]
          | false =>
              have hrefused : sendAction false m k' =
                  .error { k'.send m with state := .error, destroyed := true } := hspoken.error
              rw [hrefused]
              refine .of_failed rfl ?_
              simp [Client.write, refused, outcome, Manager.send, hsent]

theorem survives_pull {result : Except String SensorMap} {p : Processor} (h : Spoken c.manager)
    (hfailed : c.failed = false) (hread : ∃ l, i.reading parse lossy buffer c.manager.shardId = some l ∧
      ∀ last, calledFor last l = result.isOk) :
    Survives parse lossy buffer c i (c.pulled result p) := by
  obtain ⟨l, hl, hcalled⟩ := hread
  cases result with
  | ok newMap =>
      refine .of_ok rfl hfailed ?_ ⟨h.state, h.callback⟩
      rw [hl]
      intro line hmem
      rw [← Option.some.inj hmem, hcalled]
      rfl
  | error reason => exact .of_thrown rfl hl (hcalled _)

theorem survives_step (hs : (client parse lossy buffer).step c i = some c') (hfailed : c.failed = false)
    (h : Spoken c.manager) : Survives parse lossy buffer c i c' := by
  obtain ⟨hrunning, hs⟩ := Option.ite_none_left_eq_some.mp hs
  cases i with
  | line text room =>
      obtain ⟨-, hs⟩ := Option.ite_none_left_eq_some.mp hs
      obtain rfl := Option.some.inj hs
      exact survives_line h _
  | closed =>
      obtain ⟨-, hs⟩ := Option.ite_none_left_eq_some.mp hs
      obtain rfl := Option.some.inj hs
      rw [h.closed]
      cases hcalled : calledFor c.manager.sent.getLast? (.event .closed) with
      | false => exact .of_thrown rfl rfl hcalled
      | true =>
          refine .of_ok rfl hfailed ?_ ?_
          · intro line hmem
            rwa [← Option.some.inj hmem]
          · have hstate : stateAfter c.manager.sent.getLast? = .ended := by
              cases hlast : c.manager.sent.getLast? with
              | none =>
                  rw [hlast] at hcalled
                  cases hcalled
              | some m =>
                  rw [hlast] at hcalled
                  cases m with
                  | checkpoint q => cases hcalled
                  | status type =>
                      obtain rfl := of_decide_eq_true hcalled
                      rfl
            exact ⟨hstate.symm, h.callback⟩
  | flushed failed =>
      obtain ⟨-, hs⟩ := Option.ite_none_right_eq_some.mp hs
      cases failed with
      | false =>
          obtain rfl := Option.some.inj hs
          refine .of_ok (Bool.not_eq_true _ ▸ hrunning) hfailed ?_ h
          intro line hmem
          exact absurd hmem (Option.not_mem_none _)
      | true =>
          obtain rfl := Option.some.inj hs
          have herror : handleStateInput .error c.manager =
              .error { c.manager with state := .error, destroyed := true } := h.error
          refine .of_failed ?_ rfl
          simp only [Client.write, herror]
          rfl
  | settle n result =>
      obtain ⟨p, -, rfl⟩ := Option.map_eq_some_iff.mp hs
      exact survives_pull h hfailed ⟨_, rfl, fun _ => rfl⟩
  | refreshed result =>
      obtain ⟨p, -, rfl⟩ := Option.map_eq_some_iff.mp hs
      exact survives_pull h hfailed ⟨_, rfl, fun _ => rfl⟩

end

variable {tr : List (Client × Input)} {c : Client}

/-- A client that has not thrown has not failed, and the last message tells its state. -/
theorem alive_run (h : (client parse lossy buffer).Run tr c) :
    (c.crashed = false ↔ c.failed = false ∧
      ∀ x ∈ tr, ∀ l ∈ x.2.reading parse lossy buffer x.1.manager.shardId,
        calledFor x.1.manager.sent.getLast? l = true) ∧
    (c.crashed = false → Spoken c.manager) := by
  induction h with
  | nil => exact ⟨by simp [client, Client.initial], fun _ => spoken_initial⟩
  | @snoc tr c c' i hr hs ih =>
      have hrunning : c.crashed = false :=
        Bool.not_eq_true _ ▸ (Option.ite_none_left_eq_some.mp hs).1
      obtain ⟨hfailed, hbefore⟩ := ih.1.mp hrunning
      have hsurvives := survives_step hs hfailed (ih.2 hrunning)
      refine ⟨?_, hsurvives.spoken⟩
      rw [hsurvives.crashed]
      simp only [List.forall_mem_append, List.forall_mem_singleton]
      exact and_congr_right fun _ => (and_iff_right hbefore).symm

/-- Whatever texts arrive, whatever the runtime makes of them and however the pulls end: the
client has not thrown exactly when no write has failed, every pull has succeeded and the message
that was written last before a line has always called for it. -/
theorem client_lives_iff (h : (client parse lossy buffer).Run tr c) :
    c.crashed = false ↔ c.failed = false ∧
      ∀ x ∈ tr, ∀ l ∈ x.2.reading parse lossy buffer x.1.manager.shardId,
        calledFor x.1.manager.sent.getLast? l = true :=
  (alive_run h).1

/-- The initialization of the tests. -/
def initializing (room : Bool) : Input :=
  .line "\x7b\"action\":\"initialize\",\"shardId\":\"shardId-000001\"\x7d" room

theorem client_lives_initialized :
    ∃ tr c, (client JsonText.parse (fun _ => "") fun _ => none).Run tr c ∧
      tr.map Prod.snd = [initializing true, .flushed false] ∧ c.crashed = false ∧
      ∀ x ∈ tr, ∀ l ∈ x.2.reading JsonText.parse (fun _ => "") (fun _ => none) x.1.manager.shardId,
        calledFor x.1.manager.sent.getLast? l = true := by
  have hlives : ((client JsonText.parse (fun _ => "") fun _ => none).exec .initial
      [initializing true, .flushed false]).any (fun r => !r.2.crashed) = true := by
    decide +kernel
  obtain ⟨⟨tr, c⟩, hexec, halive⟩ := (Option.any_eq_true _ _).mp hlives
  have hrun := System.Run.of_exec hexec
  have halive : c.crashed = false := by simpa using halive
  exact ⟨tr, c, hrun, System.map_snd_of_exec hexec, halive,
    ((client_lives_iff hrun).mp halive).2⟩

end
end PlenarioStream.Kcl.Text

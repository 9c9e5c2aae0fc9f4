import PlenarioStream.Foundation.Json

/-!
The Kinesis client library of `lib/kcl`, which every record processor of the repository runs
on: the state machine, the checkpointer and the manager that dispatches the daemon's actions.

A process is whatever the library drives. It contains what the library keeps itself, and it
comes with the function that writes a message and with the meaning of the callbacks that its
record processor gives to the checkpointer. An exception keeps the state that it leaves behind.
-/
namespace PlenarioStream.Kcl

inductive State
  | uninitialized
  | start
  | initializing
  | ready
  | processing
  | checkpointing
  | shuttingDown
  | finalCheckpointing
  | ended
  | error
deriving DecidableEq

inductive Input
  | beginInitialize
  | finishInitialize
  | beginProcessRecords
  | finishProcessRecords
  | beginShutdown
  | finishShutdown
  | beginCheckpoint
  | finishCheckpoint
  | cleanup
  | error
deriving DecidableEq

/-- The handlers of `KCLStateMachine`: the next state, and whether the input is valid.
Before `run`, which precedes every action, inputs are deferred. -/
def State.handle : State → Input → State × Bool
  | uninitialized, _ => (uninitialized, true)
  | start, .beginInitialize => (initializing, true)
  | initializing, .finishInitialize => (ready, true)
  | ready, .beginProcessRecords => (processing, true)
  | ready, .beginShutdown => (shuttingDown, true)
  | processing, .beginCheckpoint => (checkpointing, true)
  | processing, .finishProcessRecords => (ready, true)
  | checkpointing, .finishCheckpoint => (processing, true)
  | shuttingDown, .beginCheckpoint => (finalCheckpointing, true)
  | shuttingDown, .finishShutdown => (ended, true)
  | finalCheckpointing, .finishCheckpoint => (shuttingDown, true)
  | ended, .cleanup => (ended, true)
  | _, _ => (error, false)

inductive ActionType
  | initialization
  | processRecords
  | shutdown
deriving DecidableEq

def ActionType.beginInput : ActionType → Input
  | initialization => .beginInitialize
  | processRecords => .beginProcessRecords
  | shutdown => .beginShutdown

def ActionType.finishInput : ActionType → Input
  | initialization => .finishInitialize
  | processRecords => .finishProcessRecords
  | shutdown => .finishShutdown

def ActionType.name : ActionType → String
  | initialization => "initialize"
  | processRecords => "processRecords"
  | shutdown => "shutdown"

namespace Library

/-- What the library sends, with sequence numbers of any kind. -/
inductive Message (σ : Type)
  | checkpoint (sequenceNumber : σ)
  | status (responseFor : ActionType)

def Message.map {σ τ : Type} (f : σ → τ) : Message σ → Message τ
  | checkpoint sequenceNumber => .checkpoint (f sequenceNumber)
  | status responseFor => .status responseFor

def Message.toJson {σ : Type} (sequenceNumberJson : σ → Js.Json) : Message σ → Js.Json
  | checkpoint sequenceNumber => .obj [("action", .str "checkpoint"),
      ("checkpoint", sequenceNumberJson sequenceNumber)]
  | status responseFor => .obj [("action", .str "status"), ("responseFor", .str responseFor.name)]

theorem Message.toJson_map {σ τ : Type} (f : σ → τ) (g : τ → Js.Json) (m : Message σ) :
    (m.map f).toJson g = m.toJson (g ∘ f) := by
  cases m <;> rfl

/-- The state of the context, the callback of the checkpointer, and whether the library has
stopped listening. -/
structure Core (κ : Type) where
  state : State
  callback : Option κ
  destroyed : Bool

class Process (P : Type) (κ : outParam Type) where
  core : P → Core κ
  setCore : Core κ → P → P
  core_setCore (c : Core κ) (p : P) : core (setCore c p) = c
  setCore_setCore (c c' : Core κ) (p : P) : setCore c (setCore c' p) = setCore c p

export Process (core setCore)

attribute [simp] Process.core_setCore Process.setCore_setCore

section
variable {P κ σ : Type} [Process P κ]

def cleanup (p : P) : P := setCore { core p with destroyed := true } p

/-- `_handleStateInput`, which cleans up and throws on an invalid input. -/
def handleStateInput (input : Input) (p : P) : Except P P :=
  let (state, valid) := (core p).state.handle input
  let p := setCore { core p with state } p
  if valid then .ok p else .error (cleanup p)

variable (sendAction : Message σ → P → Except P P) (call : κ → P → Except P P)

/-- `KCLManager.prototype.checkpoint`. -/
def sendCheckpoint (sequenceNumber : σ) (p : P) : Except P P := do
  let p ← handleStateInput .beginCheckpoint p
  sendAction (.checkpoint sequenceNumber) p

/-- What `completeCallback` of an action does. -/
def recordProcessorCallback (type : ActionType) (p : P) : Except P P := do
  let p ← handleStateInput type.finishInput p
  sendAction (.status type) p

/-- `Checkpointer.prototype.checkpoint`. While another checkpoint is in progress the
callback is called at once, with an error. -/
def checkpoint (sequenceNumber : σ) (callback : κ) (p : P) : Except P P :=
  match (core p).callback with
  | some _ => call callback p
  | none =>
      sendCheckpoint sendAction sequenceNumber (setCore { core p with callback := some callback } p)

/-- `onCheckpointerResponse`: calling the callback throws when there is none. -/
def onCheckpointerResponse (p : P) : Except P P :=
  match (core p).callback with
  | none => .error p
  | some callback => call callback (setCore { core p with callback := none } p)

def onCheckpointAction (p : P) : Except P P := do
  let p ← handleStateInput .finishCheckpoint p
  onCheckpointerResponse call p

/-- `_onRecordProcessorAction`, with the function of the record processor for the action. -/
def onRecordProcessorAction (recordProcessorFunc : P → Except P P) (type : ActionType) (p : P) :
    Except P P := do
  let p ← handleStateInput type.beginInput p
  recordProcessorFunc p

def onActionEnd (p : P) : Except P P := do
  let p ← handleStateInput .cleanup p
  .ok (cleanup p)

end

/-- The states during an action, after it, and while its checkpoint is requested. -/
def busyState : ActionType → State
  | .initialization => .initializing
  | .processRecords => .processing
  | .shutdown => .shuttingDown

def doneState : ActionType → State
  | .initialization | .processRecords => .ready
  | .shutdown => .ended

def waitState : ActionType → State
  | .initialization => .error
  | .processRecords => .checkpointing
  | .shutdown => .finalCheckpointing

/-- The state after the last of some completed actions. -/
def restState (types : List ActionType) : State :=
  match types.getLast? with
  | none => .start
  | some type => doneState type

theorem restState_concat (types : List ActionType) (type : ActionType) :
    restState (types ++ [type]) = doneState type := by
  rw [restState, List.getLast?_concat]

theorem restState_ne_error (types : List ActionType) : restState types ≠ .error := by
  unfold restState
  split
  · exact State.noConfusion
  · rename_i type _
    cases type <;> exact State.noConfusion

theorem finish_busy (type : ActionType) :
    (busyState type).handle type.finishInput = (doneState type, true) := by
  cases type <;> rfl

theorem beginCheckpoint_busy {type : ActionType} (h : type ≠ .initialization) :
    (busyState type).handle .beginCheckpoint = (waitState type, true) := by
  cases type with
  | initialization => exact absurd rfl h
  | processRecords | shutdown => rfl

theorem finishCheckpoint_wait {type : ActionType} (h : type ≠ .initialization) :
    (waitState type).handle .finishCheckpoint = (busyState type, true) := by
  cases type with
  | initialization => exact absurd rfl h
  | processRecords | shutdown => rfl

/-- Between two actions, one may begin that is the first exactly when it is the
initialization, unless there was a shutdown. -/
theorem begin_rest (types : List ActionType) (type : ActionType) :
    (restState types).handle type.beginInput =
      if types.getLast? ≠ some .shutdown ∧ (type = .initialization ↔ types = []) then
        (busyState type, true)
      else (.error, false) := by
  rcases List.eq_nil_or_concat types with rfl | ⟨types, last, rfl⟩
  · cases type <;> rfl
  · rw [List.concat_eq_append, restState_concat, List.getLast?_concat]
    cases last <;> cases type <;> simp [doneState, ActionType.beginInput, State.handle, busyState]

section
variable {P κ σ : Type} [Process P κ] {p : P} {sendAction : Message σ → P → Except P P}
  {call : κ → P → Except P P} {type : ActionType}

theorem handleStateInput_ok {input : Input} {state : State}
    (h : (core p).state.handle input = (state, true)) :
    handleStateInput input p = .ok (setCore { core p with state } p) := by
  simp only [handleStateInput, h, if_true]

theorem handleStateInput_error {input : Input} {state : State}
    (h : (core p).state.handle input = (state, false)) :
    handleStateInput input p = .error (setCore { core p with state, destroyed := true } p) := by
  simp [handleStateInput, h, cleanup]

/-- Completing an action sends its status. -/
theorem recordProcessorCallback_busy (h : (core p).state = busyState type) :
    recordProcessorCallback sendAction type p =
      sendAction (.status type) (setCore { core p with state := doneState type } p) := by
  have hhandle : (core p).state.handle type.finishInput = (doneState type, true) := by
    rw [h, finish_busy]
  rw [recordProcessorCallback, handleStateInput_ok hhandle]
  rfl

/-- A checkpoint is requested when no other is in progress. -/
theorem checkpoint_busy (htype : type ≠ .initialization) (h : (core p).state = busyState type)
    (hcallback : (core p).callback = none) (sequenceNumber : σ) (callback : κ) :
    checkpoint sendAction call sequenceNumber callback p =
      sendAction (.checkpoint sequenceNumber)
        (setCore { core p with state := waitState type, callback := some callback } p) := by
  have hhandle : (core (setCore { core p with callback := some callback } p)).state.handle
      .beginCheckpoint = (waitState type, true) := by
    rw [Process.core_setCore, h, beginCheckpoint_busy htype]
  rw [checkpoint, hcallback, sendCheckpoint, handleStateInput_ok hhandle]
  simp only [Process.core_setCore, Process.setCore_setCore]
  rfl

/-- The response goes to the callback that waits for it. -/
theorem onCheckpointAction_wait {callback : κ} (htype : type ≠ .initialization)
    (h : (core p).state = waitState type) (hcallback : (core p).callback = some callback) :
    onCheckpointAction call p =
      call callback (setCore { core p with state := busyState type, callback := none } p) := by
  have hhandle : (core p).state.handle .finishCheckpoint = (busyState type, true) := by
    rw [h, finishCheckpoint_wait htype]
  rw [onCheckpointAction, handleStateInput_ok hhandle]
  simp only [bind, Except.bind, onCheckpointerResponse, Process.core_setCore, hcallback,
    Process.setCore_setCore]

theorem onRecordProcessorAction_begin {f : P → Except P P}
    (h : (core p).state.handle type.beginInput = (busyState type, true)) :
    onRecordProcessorAction f type p = f (setCore { core p with state := busyState type } p) := by
  rw [onRecordProcessorAction, handleStateInput_ok h]
  rfl

end

/-- The entries of a log that are actions, and those that are their statuses. -/
class Logged (ε : Type) where
  begun? : ε → Option ActionType
  completed? : ε → Option ActionType

section
variable {ε : Type} [Logged ε]

/-- The types of the actions received, and of those that have their status. -/
def begun (log : List ε) : List ActionType := log.filterMap Logged.begun?

def completed (log : List ε) : List ActionType := log.filterMap Logged.completed?

@[simp] theorem begun_nil : begun ([] : List ε) = [] := rfl

@[simp] theorem completed_nil : completed ([] : List ε) = [] := rfl

@[simp] theorem begun_append (log more : List ε) : begun (log ++ more) = begun log ++ begun more :=
  List.filterMap_append ..

@[simp] theorem completed_append (log more : List ε) :
    completed (log ++ more) = completed log ++ completed more := List.filterMap_append ..

end

def outcome {P : Type} : Except P P → P
  | .ok p | .error p => p

/-- A relation between the process before and after that no change of the core breaks. -/
structure Kept {P κ : Type} [Process P κ] (R : P → P → Prop) : Prop where
  refl : ∀ p, R p p
  trans : ∀ {p q r}, R p q → R q r → R p r
  setCore : ∀ c p, R p (setCore c p)

namespace Kept

section
variable {P κ σ : Type} [Process P κ] {R : P → P → Prop} (h : Kept R)
  {sendAction : Message σ → P → Except P P} {call : κ → P → Except P P}
include h

theorem bind {p : P} {r : Except P P} {f : P → Except P P} (hr : R p (outcome r))
    (hf : ∀ q, R q (outcome (f q))) : R p (outcome (r >>= f)) := by
  cases r with
  | error q => exact hr
  | ok q => exact h.trans hr (hf q)

theorem handleStateInput (input : Input) (p : P) : R p (outcome (handleStateInput input p)) := by
  simp only [Library.handleStateInput, cleanup]
  split
  · exact h.setCore _ _
  · exact h.trans (h.setCore _ _) (h.setCore _ _)

theorem sendCheckpoint (hsend : ∀ m p, R p (outcome (sendAction m p))) (sequenceNumber : σ) (p : P) :
    R p (outcome (sendCheckpoint sendAction sequenceNumber p)) :=
  h.bind (h.handleStateInput _ p) fun q => hsend _ q

theorem recordProcessorCallback (hsend : ∀ m p, R p (outcome (sendAction m p))) (type : ActionType)
    (p : P) : R p (outcome (recordProcessorCallback sendAction type p)) :=
  h.bind (h.handleStateInput _ p) fun q => hsend _ q

theorem checkpoint (hsend : ∀ m p, R p (outcome (sendAction m p)))
    (hcall : ∀ c p, R p (outcome (call c p))) (sequenceNumber : σ) (callback : κ) (p : P) :
    R p (outcome (checkpoint sendAction call sequenceNumber callback p)) := by
  unfold Library.checkpoint
  split
  · exact hcall callback p
  · exact h.trans (h.setCore _ p) (h.sendCheckpoint hsend sequenceNumber _)

theorem onCheckpointAction (hcall : ∀ c p, R p (outcome (call c p))) (p : P) :
    R p (outcome (onCheckpointAction call p)) := by
  refine h.bind (h.handleStateInput _ p) fun q => ?_
  unfold onCheckpointerResponse
  split
  · exact h.refl q
  · exact h.trans (h.setCore _ q) (hcall _ _)

theorem onActionEnd (p : P) : R p (outcome (onActionEnd p)) :=
  h.bind (h.handleStateInput _ p) fun q => h.setCore _ q

end
end Kept

/-- Related processes have the same core, and stay related when it changes. -/
structure Simulation {P Q κ : Type} [Process P κ] [Process Q κ] (S : P → Q → Prop) : Prop where
  core : ∀ {p q}, S p q → core p = core q
  setCore : ∀ {p q} c, S p q → S (setCore c p) (setCore c q)

/-- The same outcome, with related processes. -/
def Both {P Q : Type} (S : P → Q → Prop) : Except P P → Except Q Q → Prop
  | .ok p, .ok q | .error p, .error q => S p q
  | _, _ => False

theorem Both.bind {P Q : Type} {S : P → Q → Prop} {r : Except P P} {r' : Except Q Q}
    {f : P → Except P P} {g : Q → Except Q Q} (h : Both S r r')
    (hf : ∀ {p q}, S p q → Both S (f p) (g q)) : Both S (r >>= f) (r' >>= g) := by
  cases r with
  | error p =>
      cases r' with
      | error q => exact h
      | ok q => exact h.elim
  | ok p =>
      cases r' with
      | error q => exact h.elim
      | ok q => exact hf h

namespace Simulation

section
variable {P Q κ σ τ : Type} [Process P κ] [Process Q κ] {S : P → Q → Prop} (h : Simulation S)
  {sendAction : Message σ → P → Except P P} {sendAction' : Message τ → Q → Except Q Q}
  {call : κ → P → Except P P} {call' : κ → Q → Except Q Q} {p : P} {q : Q}
include h

theorem cleanup (hs : S p q) : S (cleanup p) (cleanup q) := by
  rw [Library.cleanup, Library.cleanup, h.core hs]
  exact h.setCore _ hs

theorem handleStateInput (hs : S p q) (input : Input) :
    Both S (handleStateInput input p) (handleStateInput input q) := by
  simp only [Library.handleStateInput, h.core hs]
  split
  · exact h.setCore _ hs
  · exact h.cleanup (h.setCore _ hs)

theorem recordProcessorCallback (hs : S p q) {type : ActionType}
    (hsend : ∀ {p q}, S p q → Both S (sendAction (.status type) p) (sendAction' (.status type) q)) :
    Both S (recordProcessorCallback sendAction type p) (recordProcessorCallback sendAction' type q) :=
  (h.handleStateInput hs _).bind hsend

theorem checkpoint (hs : S p q) {sequenceNumber : σ} {sequenceNumber' : τ} {callback : κ}
    (hsend : ∀ {p q}, S p q → Both S (sendAction (.checkpoint sequenceNumber) p)
      (sendAction' (.checkpoint sequenceNumber') q))
    (hcall : ∀ {p q}, S p q → Both S (call callback p) (call' callback q)) :
    Both S (checkpoint sendAction call sequenceNumber callback p)
      (checkpoint sendAction' call' sequenceNumber' callback q) := by
  simp only [Library.checkpoint, h.core hs]
  split
  · exact hcall hs
  · exact (h.handleStateInput (h.setCore _ hs) _).bind hsend

theorem onCheckpointAction (hs : S p q)
    (hcall : ∀ {p q} callback, S p q → Both S (call callback p) (call' callback q)) :
    Both S (onCheckpointAction call p) (onCheckpointAction call' q) := by
  refine (h.handleStateInput hs _).bind fun {p q} hs => ?_
  simp only [onCheckpointerResponse, h.core hs]
  split
  · exact hs
  · exact hcall _ (h.setCore _ hs)

theorem onActionEnd (hs : S p q) : Both S (onActionEnd p) (onActionEnd q) :=
  (h.handleStateInput hs _).bind fun hs => h.cleanup hs

end
end Simulation

end Library
end PlenarioStream.Kcl

import PlenarioStream.Consumer.Processor
import PlenarioStream.Kcl.Library

/-!
The client library with the record processor of `sample_kcl_app.js` on top.

A callback is known by the action that it completes, since every callback of the
record processor ends by calling `completeCallback` and does nothing else but log.
The log lists what was received and sent, in order; writes succeed.
-/
namespace PlenarioStream.Kcl
open Js Consumer

/-- The actions of the daemon that the record processor handles. -/
inductive Action
  | initialization (shardId : String)
  | processRecords (records : Option (List Record))
  | shutdown (reason : Value)

def Action.type : Action → ActionType
  | initialization _ => .initialization
  | processRecords _ => .processRecords
  | shutdown _ => .shutdown

abbrev Message := Library.Message (Option String)

inductive Entry
  | received (a : Action)
  | responded (error checkpoint : Value)
  | sent (m : Message)

/-- The library with the record processor. -/
structure Manager extends Library.Core ActionType where
  shardId : Option String
  processor : Processor
  log : List Entry

instance : Library.Process Manager ActionType where
  core := Manager.toCore
  setCore core k := { k with toCore := core }
  core_setCore _ _ := rfl
  setCore_setCore _ _ _ := rfl

def Manager.send (m : Message) (k : Manager) : Manager := { k with log := k.log ++ [.sent m] }

def sendAction (m : Message) (k : Manager) : Except Manager Manager := .ok (k.send m)

/-- What `completeCallback` of an action does. -/
def recordProcessorCallback (type : ActionType) (k : Manager) : Except Manager Manager :=
  Library.recordProcessorCallback sendAction type k

/-- The callbacks of the checkpoints. That of a batch logs the sequence number of the response,
which throws when it has no text. -/
def checkpointCallback {P : Type} (completeCallback : ActionType → P → Except P P)
    (checkpoint : Value) (type : ActionType) (p : P) : Except P P :=
  match type, checkpoint.text with
  | .processRecords, .error _ => .error p
  | _, _ => completeCallback type p

def checkpoint (sequenceNumber : Option String) (type : ActionType) (k : Manager) :
    Except Manager Manager :=
  Library.checkpoint sendAction (checkpointCallback recordProcessorCallback .undefined)
    sequenceNumber type k

/-- The functions of the record processor. -/
def recordProcessor (a : Action) (k : Manager) : Except Manager Manager :=
  match a with
  | .initialization shardId => recordProcessorCallback .initialization { k with shardId := some shardId }
  | .processRecords records =>
      let k := { k with processor := processRecords records k.processor }
      match records.bind checkpointAt with
      | none => recordProcessorCallback .processRecords k
      | some sequenceNumber => checkpoint (some sequenceNumber) .processRecords k
  | .shutdown reason =>
      if reason.strictEq (.str "TERMINATE") then checkpoint none .shutdown k
      else recordProcessorCallback .shutdown k

def onRecordProcessorAction (a : Action) (k : Manager) : Except Manager Manager :=
  Library.onRecordProcessorAction (recordProcessor a) a.type
    { k with log := k.log ++ [.received a] }

def onCheckpointAction (error checkpoint : Value) (k : Manager) : Except Manager Manager :=
  Library.onCheckpointAction (checkpointCallback recordProcessorCallback checkpoint)
    { k with log := k.log ++ [.responded error checkpoint] }

section
variable {P : Type} {completeCallback : ActionType → P → Except P P} {checkpoint : Value}
  {type : ActionType} {p : P}

theorem checkpointCallback_eq (h : type = .processRecords → checkpoint.printable = true) :
    checkpointCallback completeCallback checkpoint type p = completeCallback type p := by
  unfold checkpointCallback
  split
  · rename_i htext
    rw [Value.text_eq (h rfl)] at htext
    cases htext
  · rfl

theorem checkpointCallback_error (h : checkpoint.printable = false) :
    checkpointCallback completeCallback checkpoint .processRecords p = .error p := by
  simp only [checkpointCallback, Value.text_eq_error h]

end

/-- The manager after its constructor and `run`. -/
def Manager.initial : Manager := ⟨⟨.start, none, false⟩, none, .initial, []⟩

end PlenarioStream.Kcl

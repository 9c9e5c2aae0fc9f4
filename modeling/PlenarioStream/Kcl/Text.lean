import PlenarioStream.Foundation.Base64
import PlenarioStream.Foundation.Number
import PlenarioStream.Foundation.Object
import PlenarioStream.Foundation.Text
import PlenarioStream.Kcl.Wire

/-!
The client between its streams. A line of standard input is a text, and what the record
processor reads of it are the values that `JSON.parse` makes of it, whatever they are. A write
may find the buffer of standard output full: the stream keeps the text, but the library takes
it for a failure and throws. Of the lines nothing is kept but what was sent for them.

Three things depend on the runtime: `parse` is `JSON.parse`, `lossy` is the text of bytes that
are not UTF-8, and `buffer` is what `new Buffer` makes of a value that is no text, if anything.
-/
namespace PlenarioStream.Kcl.Text
open Js Consumer Transition Library

/-- The library with the record processor, which keeps the shard as it came and checkpoints at
whatever value the last record has as its sequence number. -/
structure Manager extends Library.Core ActionType where
  shardId : Value
  processor : Processor
  sent : List (Library.Message Json)

instance : Library.Process Manager ActionType where
  core := Manager.toCore
  setCore core k := { k with toCore := core }
  core_setCore _ _ := rfl
  setCore_setCore _ _ _ := rfl

def Manager.initial : Manager := ⟨⟨.start, none, false⟩, .undefined, .initial, []⟩

def Manager.send (m : Library.Message Json) (k : Manager) : Manager := { k with sent := k.sent ++ [m] }

/-- What the callback of `writeLine` does with an error. -/
def sendAction (room : Bool) (m : Library.Message Json) (k : Manager) : Except Manager Manager :=
  if room then .ok (k.send m) else handleStateInput .error (k.send m)

def recordProcessorCallback (room : Bool) (type : ActionType) (k : Manager) :
    Except Manager Manager :=
  Library.recordProcessorCallback (sendAction room) type k

def checkpoint (room : Bool) (sequenceNumber : Json) (type : ActionType) (k : Manager) :
    Except Manager Manager :=
  Library.checkpoint (sendAction room)
    (checkpointCallback (recordProcessorCallback room) .undefined) sequenceNumber type k

def onCheckpointAction (room : Bool) (checkpoint : Value) (k : Manager) : Except Manager Manager :=
  Library.onCheckpointAction (checkpointCallback (recordProcessorCallback room) checkpoint) k

section
variable (parse : String → Option Json) (lossy : List UInt8 → String)
  (buffer : Json → Option (List UInt8))

/-- `new Buffer(record.data, 'base64').toString()`. -/
def recordData (record : Json) : Except Exception String := do
  let data ← (Value.json record).get "data"
  match data with
  | .json (.str s) => .ok (Base64.textOf lossy (Base64.decode s.toList))
  | .json data =>
      match buffer data with
      | some bytes => .ok (Base64.textOf lossy bytes)
      | none => .error .typeError
  | .undefined | .builtin _ => .error .typeError

def sequenceNumber (record : Json) : Value := (Value.json record).read "sequenceNumber"

/-- A sequence number as the record processor of the lines has it. -/
def textOnly : Value → Option String
  | .json (.str s) => some s
  | _ => none

/-- The line that is logged behind a record can be formatted. -/
def logged (shardId : Value) (record : Json) : Bool :=
  shardId.printable && (sequenceNumber record).printable &&
    ((Value.json record).read "partitionKey").printable

/-- The comparison `i < records.length`. -/
def inRange (records : Json) (i : Nat) : Except Exception Bool :=
  match records with
  | .arr elems => .ok (decide (i < elems.length))
  | records => do
      let length ← (Value.json records).get "length"
      let n ← length.number
      .ok (n.greaterThan i)

/-- The properties `0`, `1` and so on, up to the first that is missing. -/
def elements : Json → List Json
  | .arr elems => elems
  | .str s => s.toList.map fun c => .str (String.ofList [c])
  | .obj fields =>
      ((List.range fields.length).map fun i => fields.lookup (toString i)).takeWhile Option.isSome
        |>.filterMap id
  | _ => []

/-- The loop over the records, with the sequence number that it leaves. An exception leaves the
record processor as it is by then; a record that is missing throws. -/
def processLoop (shardId : Value) (records : Json) :
    Nat → List Json → Processor → Value → Except Processor (Processor × Value)
  | i, [], p, last =>
      match inRange records i with
      | .ok false => .ok (p, last)
      | _ => .error p
  | i, record :: rest, p, last =>
      match inRange records i with
      | .error _ => .error p
      | .ok false => .ok (p, last)
      | .ok true =>
          match recordData lossy buffer record with
          | .error _ => .error p
          | .ok data =>
              let p := processRecord p ⟨parse data, textOnly (sequenceNumber record)⟩
              if logged shardId record then
                processLoop shardId records (i + 1) rest p (sequenceNumber record)
              else .error p

def processRecords (room : Bool) (records : Json) (k : Manager) : Except Manager Manager :=
  match processLoop parse lossy buffer k.shardId records 0 (elements records) k.processor
    .undefined with
  | .error p => .error { k with processor := p }
  | .ok (p, last) =>
      match last with
      | .json q =>
          if q.truthy then
            checkpoint room q .processRecords
              { k with processor := { p with checkpoints := p.checkpoints ++ [q.toText] } }
          else recordProcessorCallback room .processRecords { k with processor := p }
      | _ => recordProcessorCallback room .processRecords { k with processor := p }

/-- The functions of the record processor, which read their input. -/
def recordProcessor (room : Bool) (type : ActionType) (input : Js.Object) (k : Manager) :
    Except Manager Manager :=
  match type with
  | .initialization =>
      recordProcessorCallback room .initialization { k with shardId := input.get "shardId" }
  | .processRecords =>
      match input.get "records" with
      | .json records =>
          if records.truthy then processRecords parse lossy buffer room records k
          else recordProcessorCallback room .processRecords k
      | _ => recordProcessorCallback room .processRecords k
  | .shutdown =>
      if (input.get "reason").strictEq (.str "TERMINATE") then checkpoint room .null .shutdown k
      else recordProcessorCallback room .shutdown k

/-- Only an object has an action. Its properties are assigned one by one. -/
def cloneToInput : Json → Js.Object
  | .obj fields =>
      .assignAll .empty ((fields.filter fun field => field.1 != "action").map fun field =>
        (field.1, .json field.2))
  | _ => .empty

/-- The method that would report another action is missing. -/
def onAction (room : Bool) (action : Json) (k : Manager) : Except Manager Manager :=
  match (Value.json action).read "action" with
  | .json (.str actionType) =>
      match ActionType.ofName actionType with
      | some type =>
          Library.onRecordProcessorAction
            (recordProcessor parse lossy buffer room type (cloneToInput action)) type k
      | none =>
          if actionType = "checkpoint" then
            onCheckpointAction room ((Value.json action).read "checkpoint") k
          else .error k
  | _ => .error k

/-- The line that `writeError` puts out. -/
def errorLine (line : String) : String :=
  format "%s\n" [format "Invalid action received: %s" [line]]

/-- An exception, or the manager after the line, and what was written on standard error. -/
def onIOLine (room : Bool) (line : String) (k : Manager) : Except Manager Manager × List String :=
  if line = "" then (.ok k, [])
  else
    match parse line with
    | none => (.error k, [])
    | some action =>
        if !action.truthy || !((Value.json action).read "action").truthy then
          (.ok k, [errorLine line])
        else (onAction parse lossy buffer room action k, [])

/-- The callback of a write that found room comes later, with an error or without. -/
inductive Input
  | line (text : String) (room : Bool)
  | closed
  | flushed (failed : Bool)
  | settle (i : Nat) (result : Except String SensorMap)
  | refreshed (result : Except String SensorMap)

end

/-- Standard output has the text of every write. A client has failed when the callback of a
write has come with an error. -/
structure Client where
  manager : Manager
  crashed : Bool
  stdout : List (List Char)
  stderr : List String
  flushed : Nat
  failed : Bool

def Client.initial : Client := ⟨.initial, false, [], [], 0, false⟩

/-- What a step writes: the records of a batch are handled before it is answered. -/
def written (k k' : Manager) : List (List Char) :=
  ((linesOf k'.processor.world).drop (linesOf k.processor.world).length).map
      (fun line => line.toList ++ ['\n']) ++
    (k'.sent.drop k.sent.length).map fun m => '\n' :: (JsonText.write (m.toJson id) ++ ['\n'])

/-- The client after a step, with what it has written. -/
def Client.write (r : Except Manager Manager) (errors : List String) (failed : Bool) (c : Client) :
    Client :=
  { c with
    manager := outcome r
    crashed := !r.isOk
    stdout := c.stdout ++ written c.manager (outcome r)
    stderr := c.stderr ++ errors
    failed }

/-- A step that has sent a message has failed when there was no room. -/
def refused (room : Bool) (k k' : Manager) : Bool := !room && decide (k.sent.length < k'.sent.length)

/-- A pull ends; the callback of one that has failed throws. -/
def Client.pulled (result : Except String SensorMap) (c : Client) (p : Processor) : Client :=
  if result.isOk then c.write (.ok { c.manager with processor := p }) [] c.failed
  else c.write (.error c.manager) [] c.failed

def client (parse : String → Option Json) (lossy : List UInt8 → String)
    (buffer : Json → Option (List UInt8)) : System Client Input where
  init := .initial
  step c i :=
    if c.crashed then none
    else
      match i with
      | .line text room =>
          if c.manager.destroyed then none
          else
            let (r, errors) := onIOLine parse lossy buffer room text c.manager
            some (c.write r errors (refused room c.manager (outcome r)))
      | .closed =>
          if c.manager.destroyed then none
          else some (c.write (Library.onActionEnd c.manager) [] c.failed)
      | .flushed failed =>
          if c.flushed < c.manager.sent.length then
            let c := { c with flushed := c.flushed + 1 }
            if failed then some (c.write (handleStateInput .error c.manager) [] true)
            else some c
          else none
      | .settle i result =>
          (processor.step c.manager.processor (.settle i result)).map (c.pulled result)
      | .refreshed result =>
          (processor.step c.manager.processor (.refreshed result)).map (c.pulled result)

end PlenarioStream.Kcl.Text

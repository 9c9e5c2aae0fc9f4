import PlenarioStream.Foundation.Transition
import PlenarioStream.Kcl.Manager

/-!
The clickstream consumer, a second record processor on the same client library: records
are gathered in a buffer, a full buffer is handed to a queue with one worker, and the
worker uploads it and then requests a checkpoint at its last record.

Texts are carried by their UTF-8 bytes. A sequence number of the buffer is a string, or
the number 0 as long as no record is stored. A callback is known by the action that it
belongs to, and what is printed to the log file is left out.

The queue is `async.queue` with concurrency 1, and `_commit` is an `async.series`. Of these
the model takes what they document: `push` puts a task at the end of the queue, tasks start in
the order of the queue, each when the worker is free and at a later turn than its `push`, and
the callback of a task is called once, when the worker is done with it; the functions of a
series run one after another, up to the first that fails.
-/
namespace PlenarioStream.ClickStream
open Js Transition Kcl.Library
open Kcl (State Input ActionType)

structure Record where
  data : List UInt8
  sequenceNumber : String

/-- The closure of `recordBuffer`; nothing reads `totalRecords`. -/
structure Buffer where
  records : List (List UInt8)
  firstSequenceNumber : Option String
  lastSequenceNumber : Option String
  currentSize : Nat

def Buffer.cleared : Buffer := ⟨[], none, none, 0⟩

def delimiter : List UInt8 := [10]

def putRecord (data : List UInt8) (seq : String) (b : Buffer) : Buffer :=
  match data with
  | [] => b
  | _ :: _ =>
      { records := b.records ++ [data ++ delimiter]
        firstSequenceNumber := if b.firstSequenceNumber.isNone then some seq else b.firstSequenceNumber
        lastSequenceNumber := some seq
        currentSize := b.currentSize + (data ++ delimiter).length }

/-- `Buffer.concat`, which cuts the bytes off, or fills them up, at the given length. -/
def concat (list : List (List UInt8)) (totalLength : Nat) : List UInt8 :=
  (list.flatten ++ List.replicate totalLength 0).take totalLength

def shouldFlush (size : Nat) (b : Buffer) : Bool := decide (size ≤ b.currentSize)

/-- The text of a sequence number. -/
def numberText : Option String → String
  | none => "0"
  | some seq => seq

/-- A task of the commit queue, and the action whose callback comes with it. -/
structure Commit where
  key : String
  sequenceNumber : Option String
  data : List UInt8
  owner : ActionType

/-- The task that is made of the buffer. -/
def Buffer.commit (shardId : Option String) (owner : ActionType) (b : Buffer) : Commit where
  key := shardId.getD "null" ++ "/" ++ numberText b.firstSequenceNumber ++ "-" ++
    numberText b.lastSequenceNumber
  sequenceNumber := b.lastSequenceNumber
  data := concat b.records b.currentSize
  owner := owner

inductive Action
  | initialization (shardId : String)
  | processRecords (records : Option (List Record))
  | shutdown (reason : Value)

def Action.type : Action → ActionType
  | initialization _ => .initialization
  | processRecords _ => .processRecords
  | shutdown _ => .shutdown

/-- What is received, sent and uploaded, in order. -/
inductive Entry
  | received (a : Action)
  | responded (failed : Bool)
  | checkpoint (sequenceNumber : Option String)
  | status (responseFor : ActionType)
  | upload (c : Commit)
  | uploaded (c : Commit) (failed : Bool)

/-- The worker of the queue, in `_commit`. -/
inductive Worker
  | idle
  | uploading (c : Commit)
  | checkpointing (c : Commit)

def Worker.toList : Worker → List Commit
  | idle => []
  | uploading c | checkpointing c => [c]

/-- The library with the processor. The counters are those of the batch under way; `waiting`
says that the emitter is being initialized. -/
structure Client extends Kcl.Library.Core Commit where
  shardId : Option String
  buffer : Buffer
  queue : List Commit
  worker : Worker
  processedCount : Nat
  total : Nat
  waiting : Bool
  log : List Entry

instance : Process Client Commit where
  core := Client.toCore
  setCore core k := { k with toCore := core }
  core_setCore _ _ := rfl
  setCore_setCore _ _ _ := rfl

def Client.note (e : Entry) (k : Client) : Client := { k with log := k.log ++ [e] }

def sendAction (m : Message (Option String)) (k : Client) : Except Client Client :=
  match m with
  | .checkpoint sequenceNumber => .ok (k.note (.checkpoint sequenceNumber))
  | .status type => .ok (k.note (.status type))

/-- What `completeCallback` of an action does. -/
def recordProcessorCallback (type : ActionType) (k : Client) : Except Client Client :=
  Kcl.Library.recordProcessorCallback sendAction type k

/-- The callback of one record of a batch. -/
def recordCallback (k : Client) : Except Client Client :=
  let k := { k with processedCount := k.processedCount + 1 }
  if k.processedCount = k.total then recordProcessorCallback .processRecords k else .ok k

/-- The callback that was pushed with a task, when the worker is done with it. -/
def commitCallback (c : Commit) (k : Client) : Except Client Client :=
  let k := { k with worker := .idle }
  match c.owner with
  | .processRecords => recordCallback k
  | type => recordProcessorCallback type k

/-- The checkpoint that `_commit` makes after the upload. -/
def checkpoint (c : Commit) (k : Client) : Except Client Client :=
  Kcl.Library.checkpoint sendAction commitCallback c.sequenceNumber c
    { k with worker := .checkpointing c }

def push (owner : ActionType) (k : Client) : Client :=
  { k with queue := k.queue ++ [k.buffer.commit k.shardId owner], buffer := .cleared }

/-- `_processRecord`. -/
def processRecord (size : Nat) (k : Client) (r : Record) : Except Client Client :=
  let k := { k with buffer := putRecord r.data r.sequenceNumber k.buffer }
  if shouldFlush size k.buffer then .ok (push .processRecords k) else recordCallback k

def processRecords (size : Nat) (input : Option (List Record)) (k : Client) : Except Client Client :=
  match input with
  | none => recordProcessorCallback .processRecords k
  | some records =>
      records.foldlM (processRecord size) { k with processedCount := 0, total := records.length }

/-- The functions of the record processor. -/
def recordProcessor (size : Nat) (a : Action) (k : Client) : Except Client Client :=
  match a with
  | .initialization shardId => .ok { k with shardId := some shardId, queue := [], waiting := true }
  | .processRecords records => processRecords size records k
  | .shutdown reason =>
      if reason.strictEq (.str "TERMINATE") then .ok (push .shutdown k)
      else recordProcessorCallback .shutdown k

def onRecordProcessorAction (size : Nat) (a : Action) (k : Client) : Except Client Client :=
  Kcl.Library.onRecordProcessorAction (recordProcessor size a) a.type (k.note (.received a))

def onCheckpointAction (failed : Bool) (k : Client) : Except Client Client :=
  Kcl.Library.onCheckpointAction commitCallback (k.note (.responded failed))

/-- The upload of a task is over. -/
def onUploaded (failed : Bool) (c : Commit) (k : Client) : Except Client Client :=
  let k := k.note (.uploaded c failed)
  if failed then commitCallback c k else checkpoint c k

def Client.initial : Client :=
  ⟨⟨.start, none, false⟩, none, .cleared, [], .idle, 0, 0, false, []⟩

inductive Event
  | action (a : Action)
  | initialized (failed : Bool)
  | start
  | uploaded (failed : Bool)
  | response (failed : Bool)
  | closed

def Entry.begun? : Entry → Option ActionType
  | received a => some a.type
  | _ => none

def Entry.completed? : Entry → Option ActionType
  | status type => some type
  | _ => none

instance : Logged Entry := ⟨Entry.begun?, Entry.completed?⟩

@[simp] theorem logged_begun? (e : Entry) : Logged.begun? e = e.begun? := rfl

@[simp] theorem logged_completed? (e : Entry) : Logged.completed? e = e.completed? := rfl

def Entry.isRequest : Entry → Bool
  | checkpoint _ => true
  | _ => false

def Entry.isResponse : Entry → Bool
  | responded _ => true
  | _ => false

/-- The daemon sends `initialize` first and nothing after `shutdown`, each action when the one
before has its status, and one response for each request. -/
def allows (log : List Entry) : Event → Bool
  | .action a =>
      decide ((begun log).length = (completed log).length) &&
        !(begun log).any (fun type => decide (type = .shutdown)) &&
        (decide (a.type = .initialization) == (begun log).isEmpty)
  | .response _ => decide (log.countP Entry.isResponse < log.countP Entry.isRequest)
  | .closed =>
      decide ((begun log).length = (completed log).length) &&
        (begun log).any (fun type => decide (type = .shutdown))
  | .initialized _ | .start | .uploaded _ => true

/-- How the process ended, if it has: by an exception, or by `process.exit`. -/
inductive End
  | running
  | crashed
  | exited
deriving DecidableEq

structure Session where
  client : Client
  ending : End

def finish : Except Client Client → Session
  | .ok k => ⟨k, .running⟩
  | .error k => ⟨k, .crashed⟩

@[simp] theorem finish_client (r : Except Client Client) : (finish r).client = outcome r := by
  cases r <;> rfl

def react (size : Nat) (k : Client) : Event → Option Session
  | .action a => some (finish (onRecordProcessorAction size a k))
  | .initialized failed =>
      if k.waiting then
        if failed then some ⟨{ k with waiting := false }, .exited⟩
        else some (finish (recordProcessorCallback .initialization { k with waiting := false }))
      else none
  | .start =>
      match k.worker, k.queue with
      | .idle, c :: queue => some ⟨{ k with worker := .uploading c, queue }.note (.upload c), .running⟩
      | _, _ => none
  | .uploaded failed =>
      match k.worker with
      | .uploading c => some (finish (onUploaded failed c k))
      | _ => none
  | .response failed => some (finish (onCheckpointAction failed k))
  | .closed => some (finish (Kcl.Library.onActionEnd k))

/-- After the input has ended the library no longer listens to the daemon. -/
def Event.isDaemon : Event → Bool
  | action _ | response _ | closed => true
  | initialized _ | start | uploaded _ => false

def session (size : Nat) : System Session Event where
  init := ⟨.initial, .running⟩
  step s e :=
    if decide (s.ending = .running) && (!e.isDaemon || !s.client.destroyed) && allows s.client.log e then
      react size s.client e
    else none

end PlenarioStream.ClickStream

import PlenarioStream.Kcl.Restart
import PlenarioStream.Redis.Store

/-!
The record processor of `basic_sample` over the life of a shard. It hands each record to
`update_node` of `redis_pull.js`, waits for none of these calls, and requests a checkpoint
at the last record. A record that is no JSON throws out of `processRecords`, and so does the
reply handler of a call that finds only old observations: either ends the process.

The commands of the calls reach the cache in any order, among those of other processes. A
call whose GET was executed may have sent its SET, so the SET may come after the end of the
process. The instances resume as in `Kcl.deployment`; messages to the socket are listed with
the calls that they report.
-/
namespace PlenarioStream.BasicSample
open Js Transition

/-- A record with its decoded text. -/
structure Record extends Consumer.Record where
  data : String

inductive Action
  | initialization (shardId : String)
  | processRecords (records : Option (List Record))
  | shutdown (reason : Value)

/-- The action without the texts of its records. -/
def Action.plain : Action → Kcl.Action
  | initialization shardId => .initialization shardId
  | processRecords records => .processRecords (records.map (List.map Record.toRecord))
  | shutdown reason => .shutdown reason

/-- A call of `update_node`, with the instance and its invocation of `processRecords` that
made it, and the position of its record in the shard. -/
structure Call where
  life : Nat
  invocation : Nat
  position : Nat
  observation : Json

/-- The library with the processor; the part of the manager that holds the other processor
is not used. `data` lists this variable for every invocation of `processRecords`. The calls
in `started` wait for their GET, and those in `replies` for the reply to their SET. -/
structure Client where
  manager : Kcl.Manager
  life : Nat
  next : Nat
  data : List (Option String)
  started : List Call
  rejected : List Call
  replies : List Call
  emitted : List (Option Call × String)

def Client.initial (life next : Nat) : Client := ⟨.initial, life, next, [], [], [], [], []⟩

def Client.lift (c : Client) : Except Kcl.Manager Kcl.Manager → Except Client Client
  | .ok manager => .ok { c with manager }
  | .error manager => .error { c with manager }

def Client.emit (call : Option Call) (message : String) (c : Client) : Client :=
  { c with emitted := c.emitted ++ [(call, message)] }

/-- A call whose observation has no key is rejected at once. -/
def updateNode (call : Call) (c : Client) : Client :=
  match Redis.keyOf call.observation with
  | .error _ => { c with rejected := c.rejected ++ [call] }
  | .ok _ => { c with started := c.started ++ [call] }

/-- The body of the loop, up to the exception of `JSON.parse`. -/
def processRecord (c : Client) (r : Record) : Except Client Client :=
  let taken := { c with data := c.data.dropLast ++ [some r.data], next := c.next + 1 }
  match r.payload with
  | none => .error taken
  | some observation => .ok (updateNode ⟨c.life, c.data.length - 1, c.next, observation⟩ taken)

/-- The callback of `then`, which reads the variable of its invocation. -/
def onFulfilled (call : Call) (c : Client) : Client :=
  c.emit (some call) ("Latest observation: " ++ c.data[call.invocation]?.join.getD "undefined")

/-- The functions of the record processor. -/
def recordProcessor (a : Action) (c : Client) : Except Client Client :=
  match a with
  | .initialization shardId =>
      let c := c.emit none "Kinesis Connected"
      c.lift (Kcl.recordProcessorCallback .initialization { c.manager with shardId := some shardId })
  | .processRecords none => c.lift (Kcl.recordProcessorCallback .processRecords c.manager)
  | .processRecords (some records) => do
      let c ← records.foldlM processRecord { c with data := c.data ++ [none] }
      match Consumer.checkpointAt (records.map Record.toRecord) with
      | none => c.lift (Kcl.recordProcessorCallback .processRecords c.manager)
      | some sequenceNumber =>
          c.lift (Kcl.checkpoint (some sequenceNumber) .processRecords c.manager)
  | .shutdown reason =>
      if reason.strictEq (.str "TERMINATE") then c.lift (Kcl.checkpoint none .shutdown c.manager)
      else c.lift (Kcl.recordProcessorCallback .shutdown c.manager)

def onRecordProcessorAction (a : Action) (c : Client) : Except Client Client := do
  let c ← c.lift (Kcl.Library.handleStateInput a.plain.type.beginInput
    { c.manager with log := c.manager.log ++ [.received a.plain] })
  recordProcessor a c

inductive Event
  | action (a : Action)
  | response (error checkpoint : Value)
  | closed

def Event.plain : Event → Kcl.Event
  | action a => .action a.plain
  | response error checkpoint => .response error checkpoint
  | closed => .closed

def react (c : Client) : Event → Except Client Client
  | .action a => onRecordProcessorAction a c
  | .response error checkpoint => c.lift (Kcl.onCheckpointAction error checkpoint c.manager)
  | .closed => c.lift (Kcl.Library.onActionEnd c.manager)

def Event.batch : Event → List Record
  | action (.processRecords (some records)) => records
  | _ => []

/-- How a call ends once its GET was executed: the promise is fulfilled whether or not the
SET succeeds, and a handler that throws issues none. -/
inductive Ending
  | written
  | unwritten
  | thrown
deriving DecidableEq

def ending (now : ℚ) (failed : Bool) (call : Redis.Pending) : Ending :=
  match Redis.newValue now call.observation call.reply with
  | .error _ => .thrown
  | .ok _ => if failed then .unwritten else .written

structure Life where
  start : Nat
  given : Nat
  client : Client

/-- The calls waiting at the store belong to this shard's instances or to other processes. -/
structure Deployment where
  client : Client
  crashed : Bool
  start : Nat
  given : Nat
  stored : Nat
  past : List Life
  store : Redis.Store
  owners : List (Option Call)
  ended : List (Call × Ending)

/-- The daemon delivers the next records, sends something else, stores a checkpoint or goes
on with another instance; the cache executes a command; the reply to a SET arrives. -/
inductive Move
  | deliver (n : Nat)
  | daemon (e : Event)
  | store
  | restart
  | get (i : Nat) (failed : Bool)
  | set (i : Nat) (now : ℚ) (failed : Bool)
  | reply (i : Nat)
  | other (observation : Json) (failed : Bool)

namespace Deployment

def position (d : Deployment) : Nat := d.start + d.given

def checkpointed (stream : List Record) (d : Deployment) : Option String → Nat
  | none => d.position
  | some seq => (stream.map fun r => r.sequenceNumber).idxOf (some seq) + 1

def lives (d : Deployment) : List Life := d.past ++ [⟨d.start, d.given, d.client⟩]

/-- What a conforming daemon sends to a process that is there. -/
def receive (e : Event) (d : Deployment) : Option Deployment :=
  if !d.crashed && !d.client.manager.destroyed && Kcl.allows d.client.manager.log e.plain then
    match react d.client e with
    | .ok client => some { d with client }
    | .error client => some { d with client, crashed := true }
  else none

def hasLiving (call : Call) (d : Deployment) : Bool :=
  !d.crashed && call.life == d.client.life

/-- An exception of the handler ends the process; the handler of one that has ended does not
run any more. -/
def settle (call : Call) (e : Ending) (d : Deployment) : Option Deployment :=
  let after := { d with ended := d.ended ++ [(call, e)] }
  if d.hasLiving call then
    if e = .thrown then some { after with crashed := true }
    else some { after with client := { d.client with replies := d.client.replies ++ [call] } }
  else if e = .thrown then none
  else some after

end Deployment

/-- The shard is the list of its records, and the cache may hold anything at first. -/
def deployment (stream : List Record) (initial : String → Redis.Cell) : System Deployment Move where
  init := ⟨.initial 0 0, false, 0, 0, 0, [], (Redis.store initial).init, [], []⟩
  step d
    | .deliver n =>
        let batch := (stream.drop d.position).take n
        (d.receive (.action (.processRecords (some batch)))).map fun d' =>
          { d' with given := d.given + batch.length }
    | .daemon e => if e.batch.isEmpty then d.receive e else none
    | .store =>
        (Kcl.requested d.client.manager.log).map fun q =>
          { d with stored := d.checkpointed stream q }
    | .restart =>
        some { d with
          client := .initial d.lives.length d.stored
          crashed := false
          start := d.stored
          given := 0
          past := d.lives }
    | .get i failed =>
        if d.crashed then none
        else d.client.started[i]?.bind fun call =>
          ((Redis.store initial).step d.store (.get call.observation failed)).map fun store =>
            { d with
              client := { d.client with started := d.client.started.eraseIdx i }
              store
              owners := d.owners ++ [some call] }
    | .set i now failed =>
        d.store.waiting[i]?.bind fun pending =>
          ((Redis.store initial).step d.store (.set i now failed)).bind fun store =>
            let after := { d with store, owners := d.owners.eraseIdx i }
            match d.owners[i]?.join with
            | none => some after
            | some call => after.settle call (ending now failed pending)
    | .reply i =>
        if d.crashed then none
        else d.client.replies[i]?.map fun call =>
          { d with
            client := onFulfilled call { d.client with replies := d.client.replies.eraseIdx i } }
    | .other o failed =>
        match Redis.keyOf o with
        | .error _ => none
        | .ok _ =>
            ((Redis.store initial).step d.store (.get o failed)).map fun store =>
              { d with store, owners := d.owners ++ [none] }

end PlenarioStream.BasicSample

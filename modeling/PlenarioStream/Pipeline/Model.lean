import PlenarioStream.Consumer.Processor
import PlenarioStream.Foundation.Channel
import PlenarioStream.Server.Delivery
import Mathlib.Logic.Function.Basic

/-!
The consumers and the socket server together. Every shard of the stream has a record
processor of its own with one `socket.io-client`, which connects again by itself, and
all of them send to one server. The text of a message is the JSON text of the object
that `format_obs` built, and a connection delivers in order; a message that is still on
its way when the connection breaks is lost, and one that is emitted without a
connection waits for the next. Only the shards know the token of the consumers.
-/
namespace PlenarioStream.Pipeline
open Js Consumer

/-- The prototypes that are not functions, as `JSON.stringify` writes them. -/
def prototypeJson : List (String × Json) :=
  [("Object.prototype", .obj []), ("Array.prototype", .arr []), ("String.prototype", .str ""),
    ("Number.prototype", .num (.ofNat 0)), ("Boolean.prototype", .bool false)]

/-- What becomes of a property in JSON text: `undefined` and functions are left out. -/
def serialize : Value → Option Json
  | .json j => some j.written
  | .undefined => none
  | .builtin name => prototypeJson.lookup name

def serializeField (name : String) (v : Value) : List (String × Json) :=
  match serialize v with
  | some j => [(name, j)]
  | none => []

/-- An object of `format_obs` as the server parses it. -/
def payload (o : Formatted) : Server.Payload where
  fields :=
    ("feature_of_interest", .str o.featureOfInterest) ::
      (serializeField "node_id" o.nodeId ++ serializeField "sensor" o.sensor ++
        serializeField "datetime" o.datetime ++
        [("results", .obj (o.resultsObject.own.entries.flatMap fun e => serializeField e.1 e.2))])

def emitted? : Nat × Effect → Option Formatted
  | (_, .emit o) => some o
  | _ => none

/-- The objects that a processor has passed to `socket.emit`, in order. -/
def emitted (p : Processor) : List Formatted := p.world.trace.filterMap emitted?

/-- The messages that a step of the processor adds. -/
def newMessages (p p' : Processor) : List Server.Payload :=
  ((emitted p').drop (emitted p).length).map payload

structure Shard where
  processor : Processor
  channel : Channel Server.Socket Server.Payload

def Shard.setChannel (channel : Channel Server.Socket Server.Payload) (sh : Shard) : Shard :=
  { sh with channel }

structure State (ι : Type) where
  server : Server.State
  shards : ι → Shard

/-- The shard takes an event of its processor, makes or loses its connection, or its
next message arrives; or the server takes an action of anybody else. -/
inductive Action (ι : Type)
  | process (i : ι) (e : Event)
  | connect (i : ι)
  | drop (i : ι)
  | deliver (i : ι)
  | server (a : Server.Action)

def State.setShard {ι : Type} [DecidableEq ι] (s : State ι) (i : ι) (sh : Shard) : State ι :=
  { s with shards := Function.update s.shards i sh }

/-- Not a message of an authenticated consumer. -/
def foreign (env : Option String) : Server.Action → Bool
  | .internalData k _ => !k.isConsumer env
  | _ => true

def processEvent (e : Event) (sh : Shard) : Option Shard :=
  (processor.step sh.processor e).map fun p =>
    ⟨p, sh.channel.send (newMessages sh.processor p)⟩

/-- The connection is new for the server, whatever it makes of the token. -/
def connect (env : Option String) (query : Server.Handshake) (server : Server.State)
    (sh : Shard) : Option (Server.State × Shard) :=
  match sh.channel with
  | .up _ _ => none
  | .down _ =>
      (Server.step env server (.connect query)).map fun server' =>
        (server', sh.setChannel (sh.channel.connect ⟨server.nextId, query⟩))

def deliver (env : Option String) (server : Server.State) (sh : Shard) :
    Option (Server.State × Shard) :=
  match sh.channel.receive with
  | none => none
  | some (k, d, channel) =>
      (Server.step env server (.internalData k d)).map fun server' =>
        (server', sh.setChannel channel)

def step {ι : Type} [DecidableEq ι] (env : Option String) (query : Server.Handshake)
    (s : State ι) : Action ι → Option (State ι)
  | .process i e => (processEvent e (s.shards i)).map (s.setShard i)
  | .connect i =>
      (connect env query s.server (s.shards i)).map fun r => { s with server := r.1 }.setShard i r.2
  | .drop i => some (s.setShard i ((s.shards i).setChannel (s.shards i).channel.drop))
  | .deliver i =>
      (deliver env s.server (s.shards i)).map fun r => { s with server := r.1 }.setShard i r.2
  | .server a =>
      if foreign env a then (Server.step env s.server a).map fun server => { s with server }
      else none

/-- The handshake is what the server reads of the query that all shards connect with. -/
def pipeline (ι : Type) [DecidableEq ι] (env : Option String) (query : Server.Handshake) :
    Transition.System (State ι) (Action ι) where
  init := ⟨Server.initial, fun _ => ⟨.initial, .down []⟩⟩
  step := step env query

/-- The message that a step brings to the server's handler, with its shard. -/
def message? {ι : Type} (env : Option String) : State ι × Action ι → Option (ι × Server.Payload)
  | (s, .deliver i) =>
      match (s.shards i).channel.receive with
      | some (k, d, _) => if k.isConsumer env then some (i, d) else none
      | none => none
  | _ => none

/-- The messages that the server has handled, each with the shard it came from. -/
def messages {ι : Type} (env : Option String) (tr : List (State ι × Action ι)) :
    List (ι × Server.Payload) := tr.filterMap (message? env)

/-- What a client socket has received from one shard. -/
def stream {ι : Type} [DecidableEq ι] (env : Option String) (tr : List (State ι × Action ι))
    (s : State ι) (i : ι) (k : Server.Socket) : List Server.Payload :=
  (s.server.sent.filterMap (Server.dataFor k)).filterMap fun m =>
    if (messages env tr)[m.1]?.map Prod.fst = some i then some m.2 else none

end PlenarioStream.Pipeline

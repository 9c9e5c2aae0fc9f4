import PlenarioStream.Foundation.Arrays
import PlenarioStream.Foundation.JsonText
import PlenarioStream.Foundation.OrderedMap
import PlenarioStream.Foundation.Text
import PlenarioStream.Foundation.Transition

/-!
The socket server of `elastic_beanstalk_app/index.js` as a step system.

A state holds the two module variables `rooms` and `socket_count` together with
what socket.io and the http client keep for them: the connected sockets, the
room memberships and the validation requests that have not been answered. Every
handler runs to its end before the next event, so each event is one step. Calls
that only log are left out.
-/
namespace PlenarioStream.Server
open Js

/-- Node's query parser yields an array only for a repeated parameter. -/
inductive QueryValue
  | one (s : String)
  | many (first second : String) (rest : List String)
deriving DecidableEq

def QueryValue.text : QueryValue → String
  | one s => s
  | many first second rest => ",".intercalate (first :: second :: rest)

/-- The parameters of `socket.handshake.query` that the server reads. -/
structure Handshake where
  consumerToken : Option QueryValue
  nodes : Option QueryValue
  featuresOfInterest : Option QueryValue
  sensors : Option QueryValue
  sensorNetwork : Option QueryValue
deriving DecidableEq

/-- A client that passes no arguments is streamed everything. -/
def plainClient : Handshake := ⟨none, none, none, none, none⟩

def tokenConsumer (token : String) : Handshake := ⟨some (.one token), none, none, none, none⟩

def truthy : Option QueryValue → Bool
  | none => false
  | some (.one s) => s != ""
  | some (.many _ _ _) => true

/-- JavaScript `==` between a query value and an environment variable. -/
def looseEq (q : Option QueryValue) (env : Option String) : Bool :=
  match q, env with
  | some q, some t => q.text == t
  | none, none => true
  | _, _ => false

structure Args where
  nodes : Option (List String)
  featuresOfInterest : Option (List String)
  sensors : Option (List String)
  sensorNetwork : QueryValue
deriving DecidableEq

/-- One filter of the handshake. The results of the two `replace` calls of the
source are dropped there, so brackets stay in the names. -/
def filterArg (q : Option QueryValue) : Option (List String) :=
  if truthy q then
    match q with
    | some (.one s) => some (split ',' s)
    | some (.many first second rest) => some (first :: second :: rest)
    | none => none
  else none

/-- The `args` object. Strings and arrays have every method that is called on
them, so the `catch` branch is never entered. -/
def parseArgs (h : Handshake) : Args where
  nodes := filterArg h.nodes
  featuresOfInterest := filterArg h.featuresOfInterest
  sensors := filterArg h.sensors
  sensorNetwork := if truthy h.sensorNetwork then h.sensorNetwork.getD (.one "ArrayOfThings")
    else .one "ArrayOfThings"

def stringList (l : List String) : Json := .arr (l.map .str)

def filterField (name : String) : Option (List String) → List (String × Json)
  | some l => [(name, stringList l)]
  | none => []

def QueryValue.toJson : QueryValue → Json
  | one s => .str s
  | many first second rest => stringList (first :: second :: rest)

def Args.toJson (a : Args) : Json :=
  .obj (filterField "nodes" a.nodes ++
    filterField "features_of_interest" a.featuresOfInterest ++
    filterField "sensors" a.sensors ++ [("sensor_network", a.sensorNetwork.toJson)])

def Args.roomName (a : Args) : String := JsonText.stringify a.toJson

/-- An `internal_data` payload is an object, as `format_obs` builds them. -/
structure Payload where
  fields : List (String × Json)

def Payload.get (d : Payload) (name : String) : Value :=
  match d.fields.lookup name with
  | some j => .json j
  | none => .undefined

/-- `(!room_args[field]) || (room_args[field].indexOf(v) > -1)`. -/
def fieldAccepts (roomArgs : Json) (field : String) (v : Value) : Bool :=
  match roomArgs.ownProperty field with
  | some (.arr elems) => decide (indexOf Value.strictEq (elems.map .json) v > -1)
  | some j => !j.truthy
  | none => true

def roomAccepts (roomArgs : Json) (d : Payload) : Bool :=
  fieldAccepts roomArgs "nodes" (d.get "node_id") &&
    fieldAccepts roomArgs "features_of_interest" (d.get "feature_of_interest") &&
    fieldAccepts roomArgs "sensors" (d.get "sensor")

/-- The handler closures of a connection share its socket and its query. -/
structure Socket where
  id : Nat
  handshake : Handshake
deriving DecidableEq

def Socket.args (k : Socket) : Args := parseArgs k.handshake

def Socket.room (k : Socket) : String := k.args.roomName

/-- Whether the connect handler takes its second branch. -/
def Socket.isClient (k : Socket) : Bool := !truthy k.handshake.consumerToken

def Socket.isConsumer (env : Option String) (k : Socket) : Bool :=
  truthy k.handshake.consumerToken && looseEq k.handshake.consumerToken env

inductive ValidationError
  | reported (error : Value)
  | exception (err : Exception)

/-- What the server sends; `message` numbers the handled `internal_data` messages. -/
inductive Outgoing
  | data (message : Nat) (target : Socket) (d : Payload)
  | internalError (target : Socket) (error : ValidationError)

structure State where
  rooms : OrderedMap String Nat
  socketCount : Int
  nextId : Nat
  connected : List Socket
  members : List (Socket × String)
  pending : List Socket
  messages : Nat
  sent : List Outgoing
  alive : Bool

def initial : State where
  rooms := .empty
  socketCount := 0
  nextId := 0
  connected := []
  members := []
  pending := []
  messages := 0
  sent := []
  alive := true

/-- The connect handler. A socket with a wrong token is disconnected before any
handler is registered; a client's validation request is left pending. -/
def connect (env : Option String) (s : State) (h : Handshake) : State :=
  let k : Socket := ⟨s.nextId, h⟩
  let s := { s with nextId := s.nextId + 1 }
  if truthy h.consumerToken then
    if looseEq h.consumerToken env then { s with connected := s.connected ++ [k] } else s
  else { s with connected := s.connected ++ [k], pending := s.pending ++ [k] }

/-- `delete` when the count is at most one or missing, else a decrement. -/
def decrement (rooms : OrderedMap String Nat) (name : String) : OrderedMap String Nat :=
  match rooms.get? name with
  | some n => if n > 1 then rooms.set name (n - 1) else rooms.erase name
  | none => rooms.erase name

def increment (rooms : OrderedMap String Nat) (name : String) : OrderedMap String Nat :=
  match rooms.get? name with
  | some n => if n ≠ 0 then rooms.set name (n + 1) else rooms.set name 1
  | none => rooms.set name 1

/-- The client's own disconnect handler. -/
def onDisconnect (s : State) (k : Socket) : State :=
  { s with rooms := decrement s.rooms k.room, socketCount := s.socketCount - 1 }

/-- socket.io's closing of a socket: leave all rooms, then run the handler. A
socket that is closed already is left alone. -/
def disconnect (s : State) (k : Socket) : State :=
  if k ∈ s.connected then
    let s := { s with
      connected := s.connected.erase k
      members := s.members.filter fun m => m.1 ≠ k }
    if k.isClient then onDisconnect s k else s
  else s

/-- The accepting branch of the response handler, which does not ask whether the
socket is still connected. -/
def join (s : State) (k : Socket) : State :=
  { s with
    members := s.members ++ [(k, k.room)]
    rooms := increment s.rooms k.room
    socketCount := s.socketCount + 1 }

/-- `JSON.parse(output).error`, where the body is `none` when the text is not JSON. -/
def validate (body : Option Json) : Except ValidationError Unit :=
  match body with
  | none => .error (.exception .syntaxError)
  | some j =>
      match Value.get "error" (.json j) with
      | .error e => .error (.exception e)
      | .ok v => if v.truthy then .error (.reported v) else .ok ()

def onResponse (s : State) (k : Socket) (body : Option Json) : State :=
  match validate body with
  | .ok () => join s k
  | .error e => disconnect { s with sent := s.sent ++ [.internalError k e] } k

/-- `io.to(name).emit`: the connected members of a room. -/
def roomSockets (s : State) (name : String) : List Socket :=
  (s.members.filter fun m => m.2 = name ∧ m.1 ∈ s.connected).map Prod.fst

/-- The sockets that get the payload, in the order of `rooms`. A room name is
always the text of an args object, see `room_parses`. -/
def recipients (s : State) (d : Payload) : List Socket :=
  s.rooms.keys.flatMap fun name =>
    match JsonText.parse name with
    | some roomArgs => if roomAccepts roomArgs d then roomSockets s name else []
    | none => []

def onInternalData (s : State) (d : Payload) : State :=
  { s with
    sent := s.sent ++ (recipients s d).map fun k => .data s.messages k d
    messages := s.messages + 1 }

inductive Outcome
  | response (body : Option Json)
  | connectionError

inductive Action
  | connect (h : Handshake)
  | validation (k : Socket) (o : Outcome)
  | disconnect (k : Socket)
  | internalData (k : Socket) (d : Payload)

/-- A failed validation request raises an error event without a listener, which
ends the process. -/
def step (env : Option String) (s : State) : Action → Option State
  | .connect h => if s.alive then some (connect env s h) else none
  | .validation k o =>
      if s.alive ∧ k ∈ s.pending then
        match o with
        | .response body => some (onResponse { s with pending := s.pending.erase k } k body)
        | .connectionError => some { s with alive := false }
      else none
  | .disconnect k => if s.alive ∧ k ∈ s.connected then some (disconnect s k) else none
  | .internalData k d =>
      if s.alive ∧ k ∈ s.connected then
        some (if k.isConsumer env then onInternalData s d else s)
      else none

def server (env : Option String) : Transition.System State Action where
  init := initial
  step := step env

/-- The validation of this socket has been answered and accepted. -/
def Accepted (tr : List (State × Action)) (k : Socket) : Prop :=
  ∃ x body, (x, Action.validation k (.response body)) ∈ tr ∧ validate body = .ok ()

/-- Each filter of the args is absent or lists the payload's value. -/
def Args.Accepts (a : Args) (d : Payload) : Prop :=
  (∀ l, a.nodes = some l → ∃ name ∈ l, d.get "node_id" = .str name) ∧
  (∀ l, a.featuresOfInterest = some l → ∃ name ∈ l, d.get "feature_of_interest" = .str name) ∧
  (∀ l, a.sensors = some l → ∃ name ∈ l, d.get "sensor" = .str name)

end PlenarioStream.Server

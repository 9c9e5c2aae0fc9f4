import PlenarioStream.Foundation.Arrays
import PlenarioStream.Foundation.Object
import PlenarioStream.Foundation.Text
import PlenarioStream.Foundation.Transition

/-!
The observation handling of `mapper.js`.

An observation is whatever JSON value a record carried, and a map is the object
built from the rows of `sensor__sensors`. A handler takes the world it runs in
and returns it with the effects it had; an exception keeps the effects that came
before it. A Postgres pull ends in a later step of its own, so the world also
lists the continuations that wait for one. Every payload handled has a number,
which marks its effects. Calls of `log.info` are left out.
-/
namespace PlenarioStream.Consumer
open Js

abbrev SensorMap := Object

/-- The property read `obs.name`, an exception when `obs` is null. -/
def prop (obs : Json) (name : String) : Except Exception Value := Value.get name (.json obs)

/-- One object of the list that `format_obs` returns. Its `results` are given by the
assignments that fill them. -/
structure Formatted where
  featureOfInterest : String
  nodeId : Value
  sensor : Value
  datetime : Value
  assigned : List (String × Value)

/-- The object `results`. -/
def Formatted.resultsObject (o : Formatted) : Object := Object.empty.assignAll o.assigned

/-- The same taken as a finite map, where every assignment writes its key. -/
def Formatted.results (o : Formatted) : OrderedMap String Value :=
  OrderedMap.empty.setAll o.assigned

/-- The parts of `v.split('.')` at 0 and 1, the latter as the text or key that it
is used for; only strings have a `split`. -/
def featureProperty : Value → Except Exception (String × String)
  | .json (.str s) =>
      let parts := split '.' s
      .ok (parts.head?.getD "undefined", parts.tail.head?.getD "undefined")
  | _ => .error .typeError

/-- `map[obs.sensor]`. -/
def sensorEntry (obs : Json) (map : SensorMap) : Except Exception Value := do
  let sensor ← prop obs "sensor"
  let name ← sensor.text
  .ok (map.get name)

def formatKey (obs : Json) (entry : Value) (acc : List Formatted × List String) (key : String) :
    Except Exception (List Formatted × List String) := do
  let (feature, property) ← featureProperty (← entry.get key)
  let (obsList, features) ←
    if indexOf (· == ·) acc.2 feature < 0 then do
      let nodeId ← prop obs "node_id"
      let sensor ← prop obs "sensor"
      let datetime ← prop obs "datetime"
      .ok (acc.1 ++ [⟨feature, nodeId, sensor, datetime, []⟩], acc.2 ++ [feature])
    else .ok acc
  let value ← (← prop obs "data").get key
  .ok (obsList.modify (indexOf (· == ·) features feature).toNat
    fun o => { o with assigned := o.assigned ++ [(property, value)] }, features)

def formatObs (obs : Json) (map : SensorMap) : Except Exception (List Formatted) := do
  let entry ← sensorEntry obs map
  let keys ← entry.objectKeys
  let (obsList, _) ← keys.foldlM (formatKey obs entry) ([], [])
  .ok obsList

def invalidKey (obs : Json) (map : SensorMap) (keys : List String) (key : String) :
    Except Exception (List String) := do
  let known ← (← sensorEntry obs map).hasProperty key
  .ok (if known then keys else keys ++ [key])

def invalidKeys (obs : Json) (map : SensorMap) : Except Exception (List String) := do
  let keys ← (← prop obs "data").objectKeys
  keys.foldlM (invalidKey obs map) []

/-- `obs.sensor in map`. -/
def sensorIn (obs : Json) (map : SensorMap) : Except Exception Bool := do
  let sensor ← prop obs "sensor"
  let name ← sensor.text
  .ok (map.has name)

/-- The condition under which `parse_insert_emit` pulls a new map. -/
def needsPull (obs : Json) (map : SensorMap) : Except Exception Bool := do
  if ← sensorIn obs map then .ok (decide ((← invalidKeys obs map).length > 0)) else .ok true

inductive Logged
  | exception (e : Exception)
  | rejected (reason : String)

/-- The calls out of the process that handling an observation makes. -/
inductive Effect
  | updateMap
  | redshiftInsert (obs : Json) (map : SensorMap) (misfit : Bool)
  | emit (data : Formatted)
  | post (name : Value) (value : String)
  | stdout (line : String)
  | logError (what : Logged)

structure World where
  blacklist : List Value
  pulls : List (Nat × Json)
  handled : List (Option Json)
  trace : List (Nat × Effect)

def World.record (w : World) (n : Nat) (e : Effect) : World :=
  { w with trace := w.trace ++ [(n, e)] }

inductive MessageType
  | doesNotExist
  | invalidKey (keys : List String)

/-- The sensor has a text, since the check that failed has looked it up in a map. -/
def MessageType.text (sensor : Value) : MessageType → String
  | doesNotExist => "Sensor " ++ sensor.toText ++ " not found in sensor metadata. " ++
      "Please add this sensor."
  | invalidKey keys => "Received data from sensor " ++ sensor.toText ++
      " with unknown key(s) " ++ ",".intercalate keys ++ ". " ++
      "Please update the keys and properties in this sensors metadata."

def sendError (n : Nat) (sensor : Value) (type : MessageType) (w : World) : World :=
  if indexOf Value.strictEq w.blacklist sensor < 0 then
    let w := w.record n (.post sensor (type.text sensor))
    { w with blacklist := w.blacklist ++ [sensor] }
  else w

/-- The post and the `splice` are not guarded. -/
def sendCorrect (n : Nat) (sensor : Value) (w : World) : World :=
  let w := w.record n (.post sensor "resolve")
  { w with blacklist := splice w.blacklist (indexOf Value.strictEq w.blacklist sensor) 1 }

/-- `format_obs`, which prints a line, and the loop that emits its list. -/
def emitFormatted (n : Nat) (obs : Json) (map : SensorMap) (w : World) :
    World × Except Exception Unit :=
  let w := w.record n (.stdout "in format_obs")
  match formatObs obs map with
  | .error e => (w, .error e)
  | .ok obsList => (obsList.foldl (fun w o => w.record n (.emit o)) w, .ok ())

/-- The synchronous part of `parse_insert_emit`. On the slow path it returns
`undefined`, here `none`: the `return true` statements belong to the continuation. -/
def parseInsertEmit (n : Nat) (obs : Json) (map : SensorMap) (w : World) :
    World × Except Exception (Option Bool) :=
  match needsPull obs map with
  | .error e => (w, .error e)
  | .ok true => ({ w.record n .updateMap with pulls := w.pulls ++ [(n, obs)] }, .ok none)
  | .ok false =>
      let (w, out) := emitFormatted n obs map (w.record n (.redshiftInsert obs map false))
      (w, out.map fun _ => some false)

/-- The continuation for a map that the pull fulfilled with. Its value and its
exceptions go to a promise that nothing listens to. -/
def onNewMap (n : Nat) (obs : Json) (newMap : SensorMap) (w : World) : World :=
  match prop obs "sensor", sensorIn obs newMap with
  | .ok sensor, .ok false =>
      (sendError n sensor .doesNotExist w).record n (.redshiftInsert obs newMap true)
  | .ok sensor, .ok true =>
      match invalidKeys obs newMap with
      | .error _ => w
      | .ok (key :: keys) =>
          (sendError n sensor (.invalidKey (key :: keys)) w).record n
            (.redshiftInsert obs newMap true)
      | .ok [] =>
          (emitFormatted n obs newMap
            ((sendCorrect n sensor w).record n (.redshiftInsert obs newMap false))).1
  | _, _ => w

/-- The body of the `try` in `processRecords` with its handler: a payload that is
not JSON is `none`. The second component is what `parse_insert_emit` returned. -/
def handle (payload : Option Json) (map : SensorMap) (w : World) : World × Option Bool :=
  let n := w.handled.length
  let w := { w with handled := w.handled ++ [payload] }
  match payload with
  | none => (w.record n (.logError (.exception .syntaxError)), none)
  | some obs =>
      match parseInsertEmit n obs map w with
      | (w, .ok signal) => (w, signal)
      | (w, .error e) => (w.record n (.logError (.exception e)), none)

/-- The pull at a position ends: fulfilled with a map, or rejected with a reason. -/
def settle (i : Nat) (result : Except String SensorMap) (w : World) : Option World :=
  match w.pulls[i]? with
  | none => none
  | some (n, obs) =>
      let w := { w with pulls := w.pulls.eraseIdx i }
      match result with
      | .error reason => some (w.record n (.logError (.rejected reason)))
      | .ok newMap => some (onNewMap n obs newMap w)

/-- Any payload may be handled with any cached map, and pulls end in any order. -/
inductive Call
  | handle (payload : Option Json) (map : SensorMap)
  | settle (i : Nat) (result : Except String SensorMap)

def World.initial : World := ⟨[], [], [], []⟩

def mapper : Transition.System World Call where
  init := .initial
  step w
    | .handle payload map => some (handle payload map w).1
    | .settle i result => settle i result w

end PlenarioStream.Consumer

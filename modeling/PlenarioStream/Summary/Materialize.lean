import PlenarioStream.Foundation.Arrays
import PlenarioStream.Foundation.Number
import PlenarioStream.Foundation.OrderedMap

/-!
The node summaries of `materialize.js`. Readings and times are values of any kind, and
what the language makes of adding, dividing and comparing them is a parameter; clock
readings are exact numbers of seconds. Addition is total: a call that adds an object
without a primitive value throws and makes no table. Objects are finite maps of their own
keys. The clock is read once for each update, and the line that the exception handler
prints is left out.
-/
namespace PlenarioStream.Summary
open Js

/-- A value may convert to no number, since its conversion may throw. -/
structure Arithmetic (V : Type) where
  undefined : V
  number : ℚ → V
  add : V → V → V
  div : V → V → V
  convert : V → Option Number

structure Event (V : Type) where
  fields : OrderedMap String V

structure Observation (V : Type) where
  val : V
  time : V

structure SensorSummary (V : Type) where
  observations : List (Observation V)
  average : V

structure NodeMeta (V : Type) where
  version : V
  observationTypes : List String

structure Table (V : Type) where
  version : V
  sensors : OrderedMap String (SensorSummary V)

/-- The sensors that a listing of the keys shows. A summary that is assigned to the name
`__proto__` is read there, but as the prototype, which is no key. -/
def Table.listed {V : Type} (table : Table V) : OrderedMap String (SensorSummary V) :=
  table.sensors.erase "__proto__"

section
variable {V : Type} (A : Arithmetic V)

/-- The property read `event[name]`. -/
def Event.read (e : Event V) (name : String) : V := (e.fields.get? name).getD A.undefined

def Event.time (e : Event V) : V := e.read A "time"

def makeSensorSummary (obType : String) (events : List (Event V)) : SensorSummary V :=
  let (observations, sum) := events.foldl
    (fun (acc : List (Observation V) × V) e =>
      (acc.1 ++ [⟨e.read A obType, e.time A⟩], A.add acc.2 (e.read A obType)))
    ([], A.number 0)
  ⟨observations, A.div sum (A.number events.length)⟩

def makeNodeSummary (events : List (Event V)) (nodeMeta : NodeMeta V) : Table V where
  version := nodeMeta.version
  sensors := nodeMeta.observationTypes.foldl
    (fun sensors obType => sensors.set obType (makeSensorSummary A obType events)) .empty

/-- The loop that removes old observations, from the index below the given one down
to 0. It is ended by an exception, at an index without an element or at a time that
cannot be compared. -/
def trim (limit : ℚ) : Nat → List (Observation V) → List (Observation V)
  | 0, observations => observations
  | j + 1, observations =>
      match observations[j]?.bind fun o => A.convert o.time with
      | none => observations
      | some t => trim limit j (if t.lessThan limit then splice observations j 1 else observations)

/-- The loop that recalculates the average. -/
def recalculate (observations : List (Observation V)) : V :=
  A.div (observations.foldl (fun sum o => A.add sum o.val) (A.number 0))
    (A.number observations.length)

/-- The loop that pushes the new observations one by one. -/
def pushNew (obType : String) (events : List (Event V)) (observations : List (Observation V)) :
    List (Observation V) :=
  (List.range events.length).foldl
    (fun observations j =>
      observations ++ ((makeSensorSummary A obType events).observations[j]?).toList)
    observations

/-- The body of the loop over the types. The `try` fails on a sensor that the table
does not have, and leaves the table as it is. -/
def updateSensor (clock : ℚ) (events : List (Event V)) (sensors : OrderedMap String (SensorSummary V))
    (obType : String) : OrderedMap String (SensorSummary V) :=
  let sensors :=
    match sensors.get? obType with
    | none => sensors
    | some s => sensors.set obType
        { s with observations := trim A (clock - 86400) s.observations.length s.observations }
  match sensors.get? obType with
  | some s =>
      let observations := pushNew A obType events s.observations
      sensors.set obType ⟨observations, recalculate A observations⟩
  | none => sensors.set obType (makeSensorSummary A obType events)

def updateNodeSummary (clock : ℚ) (table : Table V) (events : List (Event V))
    (nodeMeta : NodeMeta V) : Table V where
  version := nodeMeta.version
  sensors := nodeMeta.observationTypes.foldl (updateSensor A clock events) table.sensors

/-- One call with its arguments. The clock of the first call is not read. -/
structure Stage (V : Type) where
  clock : ℚ
  events : List (Event V)
  nodeMeta : NodeMeta V

def Stage.types (u : Stage V) : List String := u.nodeMeta.observationTypes

/-- The table after the first call and the updates. -/
def rolling (first : Stage V) (updates : List (Stage V)) : Table V :=
  updates.foldl (fun table u => updateNodeSummary A u.clock table u.events u.nodeMeta)
    (makeNodeSummary A first.events first.nodeMeta)

end
end PlenarioStream.Summary

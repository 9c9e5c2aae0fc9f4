import PlenarioStream.Kcl.Reading
import PlenarioStream.Kcl.Restart

/-!
What a conforming daemon writes, and that it arrives: the actions as JSON, one on a line, with
the data of a record in base64. A session on these texts is the session on the actions, and the
mapper is given what was put into the stream.
-/
namespace PlenarioStream.Kcl.Text
open Js Consumer Transition Library

/-- A record as it was put into the stream. -/
structure DataRecord where
  data : String
  partitionKey : String
  sequenceNumber : String

/-- The lines of the daemon. -/
inductive Sent
  | initialization (shardId : String)
  | processRecords (records : List DataRecord)
  | shutdown (reason : String)
  | checkpoint (sequenceNumber error : Option String)

def DataRecord.toJson (r : DataRecord) : Json :=
  .obj [("data", .str (String.ofList (Base64.encode (Base64.bytesOf r.data)))),
    ("partitionKey", .str r.partitionKey), ("sequenceNumber", .str r.sequenceNumber)]

def Sent.toJson : Sent → Json
  | initialization shardId => .obj [("action", .str "initialize"), ("shardId", .str shardId)]
  | processRecords records =>
      .obj [("action", .str "processRecords"), ("records", .arr (records.map DataRecord.toJson))]
  | shutdown reason => .obj [("action", .str "shutdown"), ("reason", .str reason)]
  | checkpoint sequenceNumber error =>
      .obj [("action", .str "checkpoint"), ("checkpoint", textOrNull sequenceNumber),
        ("error", textOrNull error)]

/-- What can happen in a session with such lines. -/
inductive Move
  | sent (s : Sent)
  | closed
  | settle (i : Nat) (result : Except String SensorMap)
  | refreshed (result : Except String SensorMap)

def Move.input : Move → Input
  | sent s => .line (JsonText.stringify s.toJson) true
  | closed => .closed
  | settle i result => .settle i result
  | refreshed result => .refreshed result

/-- The data that a move carries. -/
def Move.data : Move → List String
  | sent (.processRecords records) => records.map DataRecord.data
  | _ => []

section
variable (parse : String → Option Json)

def DataRecord.record (r : DataRecord) : Record := ⟨parse r.data, some r.sequenceNumber⟩

def Sent.event : Sent → Event
  | initialization shardId => .action (.initialization shardId)
  | processRecords records => .action (.processRecords (some (records.map (DataRecord.record parse))))
  | shutdown reason => .action (.shutdown (.str reason))
  | checkpoint sequenceNumber error =>
      .response (.json (textOrNull error)) (.json (textOrNull sequenceNumber))

def Move.event : Move → Event
  | sent s => s.event parse
  | closed => .closed
  | settle i result => .settle i result
  | refreshed result => .refreshed result

end

section
variable {parse : String → Option Json} {lossy : List UInt8 → String}
  {buffer : Json → Option (List UInt8)}

theorem Sent.toJson_finite (s : Sent) : s.toJson.finite = true := by
  have hnull : ∀ t, (textOrNull t).finite = true := by
    intro t
    cases t <;> rfl
  cases s with
  | initialization _ | shutdown _ => rfl
  | checkpoint sequenceNumber error =>
      simp [toJson, Json.finite, Json.fieldsFinite, hnull]
  | processRecords records =>
      have hall : Json.elemsFinite (records.map DataRecord.toJson) = true := by
        induction records with
        | nil => rfl
        | cons r records ih => exact Bool.and_eq_true_iff.mpr ⟨rfl, ih⟩
      simp [toJson, Json.finite, Json.fieldsFinite, hall]

section
variable (hparse : ∀ j, parse (JsonText.stringify j) = some j.written)
include hparse

end

end
end PlenarioStream.Kcl.Text

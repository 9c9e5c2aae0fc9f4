import PlenarioStream.Consumer.Effects

/-!
The record processor of `sample_kcl_app.js`: its cached map, the batches that the
daemon sends, and the pulls that end between them. A pull may belong to an
observation or to a refresh of the cached map; nothing inside a batch waits for
either. The records handled so far and what `parse_insert_emit` returned for each
are kept, so that they can be spoken of later.
-/
namespace PlenarioStream.Consumer
open Js Transition

/-- The payload is the decoded data as `JSON.parse` reads it, none when it throws. -/
structure Record where
  payload : Option Json
  sequenceNumber : Option String

structure Processor where
  world : World
  map : SensorMap
  refreshes : Nat
  returned : List (SensorMap × Option Bool)
  checkpoints : List String

/-- The body of the loop: only `true` starts a refresh. -/
def processRecord (p : Processor) (r : Record) : Processor :=
  let (world, signal) := handle r.payload p.map p.world
  { p with
    world
    returned := p.returned ++ [(p.map, signal)]
    refreshes := if signal == some true then p.refreshes + 1 else p.refreshes }

/-- The sequence number left by the loop, if it is truthy. -/
def checkpointAt (records : List Record) : Option String :=
  (records.getLast?.bind Record.sequenceNumber).filter (· != "")

/-- The input may lack its records. -/
def processRecords (input : Option (List Record)) (p : Processor) : Processor :=
  match input with
  | none => p
  | some records =>
      let p := records.foldl processRecord p
      { p with checkpoints := p.checkpoints ++ (checkpointAt records).toList }

/-- A refresh ends; a failed one leaves the map. -/
def onRefresh (result : Except String SensorMap) (p : Processor) : Processor :=
  { p with
    refreshes := p.refreshes - 1
    map := match result with
      | .ok newMap => newMap
      | .error _ => p.map }

inductive Event
  | processRecords (input : Option (List Record))
  | settle (i : Nat) (result : Except String SensorMap)
  | refreshed (result : Except String SensorMap)

def Processor.initial : Processor := ⟨.initial, .empty, 0, [], []⟩

def processor : System Processor Event where
  init := .initial
  step p
    | .processRecords input => some (processRecords input p)
    | .settle i result => (settle i result p.world).map fun world => { p with world }
    | .refreshed result => if p.refreshes = 0 then none else some (onRefresh result p)

theorem refreshed_step {p p' : Processor} {result : Except String SensorMap}
    (hs : processor.step p (.refreshed result) = some p') :
    p.refreshes ≠ 0 ∧ p' = onRefresh result p := by
  obtain ⟨hne, hs⟩ := Option.ite_none_left_eq_some.mp hs
  exact ⟨hne, (Option.some.inj hs).symm⟩

/-- The records of a batch. -/
def Event.records : Event → List Record
  | .processRecords (some records) => records
  | _ => []

def Event.checkpoint : Event → Option String
  | .processRecords (some records) => checkpointAt records
  | _ => none

/-- The object `{}` passes the check for every observation of the batch. -/
def CoveredByEmpty (a : Event) : Prop :=
  ∀ r ∈ a.records, ∀ obs, r.payload = some obs → Observation obs →
    needsPull obs .empty = .ok false

theorem processRecord_map (p : Processor) (r : Record) : (processRecord p r).map = p.map := rfl

theorem foldl_processRecord_map (records : List Record) (p : Processor) :
    (records.foldl processRecord p).map = p.map := by
  induction records generalizing p with
  | nil => rfl
  | cons r records ih => rw [List.foldl_cons, ih, processRecord_map]

theorem processRecord_world (p : Processor) (r : Record) :
    (processRecord p r).world = (handle r.payload p.map p.world).1 := rfl

theorem processRecord_returned (p : Processor) (r : Record) :
    (processRecord p r).returned = p.returned ++ [(p.map, signalOf r.payload p.map)] := by
  rw [← handle_snd _ _ p.world]
  rfl

theorem signalOf_ne_true (payload : Option Json) (map : SensorMap) :
    signalOf payload map ≠ some true := by
  cases payload with
  | none => simp [signalOf]
  | some obs =>
      simp only [signalOf]
      split <;> simp

/-- No record starts a refresh. -/
theorem processRecord_refreshes (p : Processor) (r : Record) :
    (processRecord p r).refreshes = p.refreshes := by
  have hne : ((handle r.payload p.map p.world).2 == some true) = false := by
    rw [handle_snd, beq_eq_false_iff_ne]
    exact signalOf_ne_true _ _
  simp only [processRecord, hne, Bool.false_eq_true, if_false]

theorem foldl_processRecord_refreshes (records : List Record) (p : Processor) :
    (records.foldl processRecord p).refreshes = p.refreshes := by
  induction records generalizing p with
  | nil => rfl
  | cons r records ih => rw [List.foldl_cons, ih, processRecord_refreshes]

theorem foldl_processRecord_handled (records : List Record) (p : Processor) :
    (records.foldl processRecord p).world.handled =
      p.world.handled ++ records.map Record.payload := by
  induction records generalizing p with
  | nil => simp
  | cons r records ih =>
      rw [List.foldl_cons, ih, processRecord_world, handle_handled, List.append_assoc]
      rfl

theorem foldl_processRecord_returned (records : List Record) (p : Processor) :
    (records.foldl processRecord p).returned =
      p.returned ++ records.map fun r => (p.map, signalOf r.payload p.map) := by
  induction records generalizing p with
  | nil => simp
  | cons r records ih =>
      rw [List.foldl_cons, ih, processRecord_returned, processRecord_map, List.append_assoc]
      rfl

/-- A batch leaves the effects of earlier records. -/
theorem foldl_processRecord_effectsOf_lt (records : List Record) {p : Processor} {k : Nat}
    (hk : k < p.world.handled.length) :
    (records.foldl processRecord p).world.effectsOf k = p.world.effectsOf k := by
  induction records generalizing p with
  | nil => rfl
  | cons r records ih =>
      have hlt : k < (processRecord p r).world.handled.length := by
        rw [processRecord_world, handle_handled, List.length_append]
        exact Nat.lt_add_right _ hk
      rw [List.foldl_cons, ih hlt, processRecord_world, handle_effectsOf_lt _ _ hk]

/-- At the end of a batch every record in it has had the effects of its own call,
and no others. -/
theorem foldl_processRecord_effectsOf (records : List Record) {p : Processor}
    (h : Numbered p.world) {j : Nat} {r : Record} (hj : records[j]? = some r) :
    (records.foldl processRecord p).world.effectsOf (p.world.handled.length + j) =
      handleEffects r.payload p.map := by
  induction records generalizing p j with
  | nil => simp at hj
  | cons q records ih =>
      have hlen : (processRecord p q).world.handled.length = p.world.handled.length + 1 := by
        rw [processRecord_world, handle_handled, List.length_append, List.length_singleton]
      rw [List.foldl_cons]
      cases j with
      | zero =>
          obtain rfl := Option.some.inj hj
          rw [Nat.add_zero, foldl_processRecord_effectsOf_lt records (by omega),
            processRecord_world, handle_effectsOf_last h]
      | succ j =>
          have hnext := ih (numbered_handle h q.payload p.map) (p := processRecord p q) hj
          rw [hlen] at hnext
          rw [← processRecord_map p q, ← hnext]
          congr 1
          omega

/-- So the processor never leaves its first, empty map. -/
theorem map_eq_empty {tr : List (Processor × Event)} {p : Processor} (h : processor.Run tr p) :
    p.map = .empty ∧ p.refreshes = 0 := by
  refine h.invariant (fun _ p => p.map = .empty ∧ p.refreshes = 0) ⟨rfl, rfl⟩ ?_
  intro tr p a p' _ hinv hs
  obtain ⟨hmap, hzero⟩ := hinv
  cases a with
  | processRecords input =>
      obtain rfl := Option.some.inj hs
      cases input with
      | none => exact ⟨hmap, hzero⟩
      | some records =>
          refine ⟨?_, ?_⟩
          · exact (foldl_processRecord_map records p).trans hmap
          · exact (foldl_processRecord_refreshes records p).trans hzero
  | settle i result =>
      obtain ⟨world, -, rfl⟩ := Option.map_eq_some_iff.mp hs
      exact ⟨hmap, hzero⟩
  | refreshed result => exact absurd hzero (refreshed_step hs).1

theorem foldl_world_invariant (Inv : World → Prop)
    (hhandle : ∀ payload map w, Inv w → Inv (handle payload map w).1) (records : List Record)
    {p : Processor} (h : Inv p.world) : Inv (records.foldl processRecord p).world := by
  induction records generalizing p with
  | nil => exact h
  | cons r records ih => exact ih (hhandle r.payload p.map p.world h)

/-- What the calls of the mapper keep holds in every world of the processor. -/
theorem world_invariant (Inv : World → Prop) (hinit : Inv .initial)
    (hhandle : ∀ payload map w, Inv w → Inv (handle payload map w).1)
    (hsettle : ∀ i result w w', Inv w → settle i result w = some w' → Inv w')
    {tr : List (Processor × Event)} {p : Processor} (h : processor.Run tr p) : Inv p.world := by
  refine h.invariant (fun _ p => Inv p.world) hinit ?_
  intro tr p a p' _ hinv hs
  cases a with
  | processRecords input =>
      obtain rfl := Option.some.inj hs
      cases input with
      | none => exact hinv
      | some records => exact foldl_world_invariant Inv hhandle records hinv
  | settle i result =>
      obtain ⟨world, hworld, rfl⟩ := Option.map_eq_some_iff.mp hs
      exact hsettle i result _ _ hinv hworld
  | refreshed result =>
      obtain ⟨-, rfl⟩ := refreshed_step hs
      exact hinv

theorem numbered_run {tr : List (Processor × Event)} {p : Processor} (h : processor.Run tr p) :
    Numbered p.world :=
  world_invariant Numbered numbered_initial (fun payload map _ hw => numbered_handle hw payload map)
    (fun _ _ _ _ hw hs => numbered_settle hw hs) h

/-- The payloads handled are those of the batches, in order, and each was handled
with the empty map. -/
theorem handled_run {tr : List (Processor × Event)} {p : Processor} (h : processor.Run tr p) :
    p.world.handled = tr.flatMap (fun x => x.2.records.map Record.payload) ∧
    p.returned = p.world.handled.map fun payload => (.empty, signalOf payload .empty) := by
  refine h.invariant (fun tr p =>
    p.world.handled = tr.flatMap (fun x => x.2.records.map Record.payload) ∧
    p.returned = p.world.handled.map fun payload => (.empty, signalOf payload .empty)) ⟨rfl, rfl⟩ ?_
  intro tr p a p' hr hinv hs
  obtain ⟨hhandled, hreturned⟩ := hinv
  rw [List.flatMap_append, List.flatMap_singleton, ← hhandled]
  cases a with
  | processRecords input =>
      obtain rfl := Option.some.inj hs
      cases input with
      | none => exact ⟨by simp [Event.records, processRecords], hreturned⟩
      | some records =>
          have hmap := (map_eq_empty hr).1
          have hnew := foldl_processRecord_handled records p
          refine ⟨hnew, ?_⟩
          change (records.foldl processRecord p).returned =
            (records.foldl processRecord p).world.handled.map _
          rw [foldl_processRecord_returned, hnew, List.map_append, ← hreturned, hmap, List.map_map]
          rfl
  | settle i result =>
      obtain ⟨world, hsettle, rfl⟩ := Option.map_eq_some_iff.mp hs
      obtain ⟨n, obs, -, rfl⟩ := settle_eq_some hsettle
      exact ⟨by simp [Event.records], hreturned⟩
  | refreshed result =>
      obtain ⟨-, rfl⟩ := refreshed_step hs
      exact ⟨by simp [Event.records, onRefresh], hreturned⟩

end PlenarioStream.Consumer

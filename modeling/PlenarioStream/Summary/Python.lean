import PlenarioStream.Summary.Rolling

/-!
The summarizer of `materialize.py`, and when `materialize.js` agrees with it where it
returns. Readings are exact numbers, or values that are no numbers (strings, lists,
`None`), with which Python's `sum` raises. What JavaScript makes of adding or comparing
such a value or of dividing by zero is left open.
-/
namespace PlenarioStream.Summary
open Js

inductive Reading (W : Type)
  | number (q : ℚ)
  | other (w : W)
deriving DecidableEq

/-- JavaScript's arithmetic: exact on numbers, any elsewhere. -/
def Arithmetic.exact {W : Type} (undefined : W) (add div : Reading W → Reading W → Reading W)
    (convert : W → Option Number) : Arithmetic (Reading W) where
  undefined := .other undefined
  number := .number
  add
    | .number a, .number b => .number (a + b)
    | x, y => add x y
  div
    | .number a, .number b => if b = 0 then div (.number a) (.number b) else .number (a / b)
    | x, y => div x y
  convert
    | .number q => some (.finite q)
    | .other w => convert w

namespace Python

inductive Exception
  | keyError (key : String)
  | typeError
  | zeroDivisionError

/-- The dictionary `node_meta`, of which either key may be missing. -/
structure NodeDict (V : Type) where
  version : Option V
  observationTypes : Option (List String)

section
variable {W : Type}

def item {α : Type} (key : String) : Option α → Except Exception α
  | none => .error (.keyError key)
  | some v => .ok v

/-- `event[key]`, which is also what `itemgetter` computes. -/
def get (key : String) (e : Event (Reading W)) : Except Exception (Reading W) :=
  item key (e.fields.get? key)

def add : Reading W → Reading W → Except Exception (Reading W)
  | .number a, .number b => .ok (.number (a + b))
  | _, _ => .error .typeError

/-- True division by a length. -/
def div : Reading W → Nat → Except Exception (Reading W)
  | .number a, n => if n = 0 then .error .zeroDivisionError else .ok (.number (a / n))
  | .other _, _ => .error .typeError

def makeSensorSummary (obType : String) (events : List (Event (Reading W))) :
    Except Exception (SensorSummary (Reading W)) := do
  let observations ← events.mapM fun e => do
    .ok (Observation.mk (← get obType e) (← get "time" e))
  let sum ← events.foldlM (fun sum e => do add sum (← get obType e)) (.number 0)
  .ok ⟨observations, ← div sum events.length⟩

/-- One turn of the dictionary comprehension. -/
def addSensor (events : List (Event (Reading W)))
    (sensors : OrderedMap String (SensorSummary (Reading W))) (obType : String) :
    Except Exception (OrderedMap String (SensorSummary (Reading W))) := do
  .ok (sensors.set obType (← makeSensorSummary obType events))

def createSummary (events : List (Event (Reading W))) (nodeMeta : NodeDict (Reading W)) :
    Except Exception (Table (Reading W)) := do
  let obTypes ← item "observation_types" nodeMeta.observationTypes
  let sensors ← obTypes.foldlM (addSensor events) OrderedMap.empty
  .ok ⟨← item "version" nodeMeta.version, sensors⟩

theorem item_eq_ok {α : Type} {key : String} {o : Option α} {v : α} :
    item key o = .ok v ↔ o = some v := by
  cases o with
  | none => simp [item]
  | some w => simp [item]

theorem add_eq_ok {x y z : Reading W} (h : add x y = .ok z) :
    ∃ a b, x = .number a ∧ y = .number b ∧ z = .number (a + b) := by
  cases x with
  | other w => cases h
  | number a =>
      cases y with
      | other w => cases h
      | number b => exact ⟨a, b, rfl, rfl, (Except.ok.inj h).symm⟩

theorem div_eq_ok {x z : Reading W} {n : Nat} (h : div x n = .ok z) :
    n ≠ 0 ∧ ∃ a, x = .number a ∧ z = .number (a / n) := by
  cases x with
  | other w => cases h
  | number a =>
      by_cases hn : n = 0
      · rw [div, if_pos hn] at h
        cases h
      · rw [div, if_neg hn] at h
        exact ⟨hn, a, rfl, (Except.ok.inj h).symm⟩

theorem makeSensorSummary_eq_ok {obType : String} {events : List (Event (Reading W))}
    {s : SensorSummary (Reading W)} (h : makeSensorSummary obType events = .ok s) :
    ∃ sum, events.mapM (fun e => do .ok (Observation.mk (← get obType e) (← get "time" e))) =
        .ok s.observations ∧
      events.foldlM (fun sum e => do add sum (← get obType e)) (.number 0) = .ok sum ∧
      div sum events.length = .ok s.average := by
  obtain ⟨observations, hobservations, h⟩ := bind_eq_ok.mp h
  obtain ⟨sum, hsum, h⟩ := bind_eq_ok.mp h
  obtain ⟨average, haverage, h⟩ := bind_eq_ok.mp h
  obtain rfl := Except.ok.inj h
  exact ⟨sum, hobservations, hsum, haverage⟩

theorem createSummary_eq_ok {events : List (Event (Reading W))} {nodeMeta : NodeDict (Reading W)}
    {t : Table (Reading W)} (h : createSummary events nodeMeta = .ok t) :
    ∃ types, nodeMeta.observationTypes = some types ∧ nodeMeta.version = some t.version ∧
      types.foldlM (addSensor events) OrderedMap.empty = .ok t.sensors := by
  obtain ⟨types, htypes, h⟩ := bind_eq_ok.mp h
  obtain ⟨sensors, hsensors, h⟩ := bind_eq_ok.mp h
  obtain ⟨version, hversion, h⟩ := bind_eq_ok.mp h
  obtain rfl := Except.ok.inj h
  exact ⟨types, item_eq_ok.mp htypes, item_eq_ok.mp hversion, hsensors⟩

/-- The reading is there, and a number. -/
def Numeric (obType : String) (e : Event (Reading W)) : Prop :=
  ∃ q, get obType e = .ok (.number q)

theorem sum_returns {obType : String} {events : List (Event (Reading W))}
    (h : ∀ e ∈ events, Numeric obType e) (a : ℚ) :
    ∃ q, events.foldlM (fun sum e => do add sum (← get obType e)) (.number a) =
      .ok (.number q) := by
  induction events generalizing a with
  | nil => exact ⟨a, rfl⟩
  | cons e events ih =>
      obtain ⟨b, hb⟩ := h e List.mem_cons_self
      rw [List.foldlM_cons, hb]
      exact ih (fun e he => h e (List.mem_cons_of_mem _ he)) (a + b)

/-- The event has a time, of any kind. -/
def Timed (e : Event (Reading W)) : Prop := ∃ v, get "time" e = .ok v

theorem makeSensorSummary_returns_iff (obType : String) (events : List (Event (Reading W))) :
    (∃ s, makeSensorSummary obType events = .ok s) ↔
      events ≠ [] ∧ ∀ e ∈ events, Numeric obType e ∧ Timed e := by
  refine ⟨?_, ?_⟩
  · rintro ⟨s, hs⟩
    obtain ⟨sum, hobservations, hsum, haverage⟩ := makeSensorSummary_eq_ok hs
    refine ⟨?_, ?_⟩
    · rintro rfl
      exact (div_eq_ok haverage).1 rfl
    · intro e he
      obtain ⟨d, d', hstep⟩ := step_of_foldlM_ok hsum he
      obtain ⟨v, hget, hadd⟩ := bind_eq_ok.mp hstep
      obtain ⟨-, q, -, rfl, -⟩ := add_eq_ok hadd
      obtain ⟨o, ho⟩ := step_of_mapM_ok hobservations he
      obtain ⟨val, hval, hrest⟩ := bind_eq_ok.mp ho
      obtain ⟨time, htime, -⟩ := bind_eq_ok.mp hrest
      exact ⟨⟨q, hget⟩, time, htime⟩
  · rintro ⟨hne, hnumeric⟩
    have hlength : events.length ≠ 0 := fun h => hne (List.eq_nil_of_length_eq_zero h)
    have hmapM : ∃ observations,
        events.mapM (fun e => do .ok (Observation.mk (← get obType e) (← get "time" e))) =
          .ok observations := by
      apply mapM_exists_ok
      intro e he
      obtain ⟨⟨q, hq⟩, time, htime⟩ := hnumeric e he
      exact ⟨⟨.number q, time⟩, by rw [hq, htime]; rfl⟩
    obtain ⟨observations, hobservations⟩ := hmapM
    obtain ⟨q, hsum⟩ := sum_returns (fun e he => (hnumeric e he).1) 0
    refine ⟨⟨observations, .number (q / events.length)⟩, ?_⟩
    rw [makeSensorSummary, hobservations, hsum]
    change (div (.number q) events.length >>= _) = _
    rw [div, if_neg hlength]
    rfl

/-- Python returns exactly when both keys are there and, unless there are no types,
there are events and each has a time and a number of every type. -/
theorem createSummary_returns_iff (events : List (Event (Reading W)))
    (nodeMeta : NodeDict (Reading W)) :
    (∃ t, createSummary events nodeMeta = .ok t) ↔
      nodeMeta.version.isSome ∧ ∃ types, nodeMeta.observationTypes = some types ∧
        ∀ obType ∈ types, events ≠ [] ∧ ∀ e ∈ events, Numeric obType e ∧ Timed e := by
  refine ⟨?_, ?_⟩
  · rintro ⟨t, ht⟩
    obtain ⟨types, htypes, hversion, hsensors⟩ := createSummary_eq_ok ht
    refine ⟨Option.isSome_of_mem hversion, types, htypes, ?_⟩
    intro obType hobType
    obtain ⟨m, m', hstep⟩ := step_of_foldlM_ok hsensors hobType
    obtain ⟨s, hs, -⟩ := bind_eq_ok.mp hstep
    exact (makeSensorSummary_returns_iff obType events).mp ⟨s, hs⟩
  · rintro ⟨hversion, types, htypes, hnumeric⟩
    obtain ⟨version, hversion⟩ := Option.isSome_iff_exists.mp hversion
    have hfold : ∃ sensors, types.foldlM (addSensor events) OrderedMap.empty = .ok sensors := by
      apply foldlM_exists_ok
      intro m obType hobType
      obtain ⟨s, hs⟩ := (makeSensorSummary_returns_iff obType events).mpr (hnumeric obType hobType)
      exact ⟨m.set obType s, by rw [addSensor, hs]; rfl⟩
    obtain ⟨sensors, hsensors⟩ := hfold
    refine ⟨⟨version, sensors⟩, ?_⟩
    rw [createSummary, htypes, hversion]
    change (types.foldlM (addSensor events) OrderedMap.empty >>= _) = _
    rw [hsensors]
    rfl

end
end Python

section
variable {W : Type} (undefined : W) (add div : Reading W → Reading W → Reading W)
  (convert : W → Option Number)

theorem read_of_get {obType : String} {e : Event (Reading W)} {v : Reading W}
    (h : Python.get obType e = .ok v) : e.read (.exact undefined add div convert) obType = v := by
  rw [Event.read, Python.item_eq_ok.mp h]
  rfl

theorem makeSensorSummary_agrees {obType : String} {events : List (Event (Reading W))}
    {s : SensorSummary (Reading W)} (h : Python.makeSensorSummary obType events = .ok s) :
    makeSensorSummary (.exact undefined add div convert) obType events = s := by
  let A : Arithmetic (Reading W) := .exact undefined add div convert
  obtain ⟨sum, hobservations, hsum, haverage⟩ := Python.makeSensorSummary_eq_ok h
  have hsample : events.map (sample A obType) = s.observations := by
    refine map_of_mapM_ok ?_ hobservations
    intro e o ho
    obtain ⟨v, hv, ho⟩ := bind_eq_ok.mp ho
    obtain ⟨time, htime, ho⟩ := bind_eq_ok.mp ho
    obtain rfl := Except.ok.inj ho
    rw [sample, read_of_get undefined add div convert hv, Event.time,
      read_of_get undefined add div convert htime]
  -- the two loops add the same numbers in the same order
  have hfold : events.foldl (fun sum e => A.add sum (e.read A obType)) (.number 0) = sum := by
    refine foldl_of_foldlM_ok ?_ hsum
    intro x e y hy
    obtain ⟨v, hv, hy⟩ := bind_eq_ok.mp hy
    obtain ⟨a, b, rfl, rfl, rfl⟩ := Python.add_eq_ok hy
    rw [read_of_get undefined add div convert hv]
    rfl
  obtain ⟨hlength, q, rfl, hquotient⟩ := Python.div_eq_ok haverage
  have hdiv : A.div (.number q) (.number events.length) = s.average := by
    rw [hquotient]
    exact if_neg (Nat.cast_ne_zero.mpr hlength)
  rw [makeSensorSummary_eq, recalculate, List.foldl_map, List.length_map]
  change SensorSummary.mk _ (A.div
    (events.foldl (fun sum e => A.add sum (e.read A obType)) (.number 0)) (.number events.length)) = s
  rw [hsample, hfold, hdiv]

/-- Where Python returns, the table that JavaScript fills reads the same. -/
theorem createSummary_sensors {events : List (Event (Reading W))}
    {nodeDict : Python.NodeDict (Reading W)} {t : Table (Reading W)}
    (h : Python.createSummary events nodeDict = .ok t) :
    ∃ nodeMeta : NodeMeta (Reading W), nodeDict.version = some nodeMeta.version ∧
      nodeDict.observationTypes = some nodeMeta.observationTypes ∧
      makeNodeSummary (.exact undefined add div convert) events nodeMeta = t := by
  obtain ⟨types, htypes, hversion, hsensors⟩ := Python.createSummary_eq_ok h
  have hfold : types.foldl (fun sensors obType => sensors.set obType
      (makeSensorSummary (.exact undefined add div convert) obType events)) .empty = t.sensors := by
    refine foldl_of_foldlM_ok ?_ hsensors
    intro m obType m' hm
    obtain ⟨s, hs, hm⟩ := bind_eq_ok.mp hm
    rw [makeSensorSummary_agrees undefined add div convert hs]
    exact Except.ok.inj hm
  refine ⟨⟨t.version, types⟩, hversion, htypes, ?_⟩
  rw [makeNodeSummary, hfold]

/-- The table of JavaScript lists the sensors of the dictionary, with the same summaries. -/
structure SameSummary (table dict : Table (Reading W)) : Prop where
  version : table.version = dict.version
  sensors : ∀ s, table.listed.get? s = dict.sensors.get? s

/-- Where `create_summary` returns, `make_node_summary` gives on the same input the same
version, the same types, and for each the same observations and average, exactly when no
type is `__proto__`. -/
theorem summaries_agree_iff {events : List (Event (Reading W))}
    {nodeDict : Python.NodeDict (Reading W)} {t : Table (Reading W)}
    (h : Python.createSummary events nodeDict = .ok t) :
    ∃ nodeMeta : NodeMeta (Reading W), nodeDict.version = some nodeMeta.version ∧
      nodeDict.observationTypes = some nodeMeta.observationTypes ∧
      (SameSummary (makeNodeSummary (.exact undefined add div convert) events nodeMeta) t ↔
        "__proto__" ∉ nodeMeta.observationTypes) := by
  obtain ⟨nodeMeta, hversion, htypes, rfl⟩ := createSummary_sensors undefined add div convert h
  refine ⟨nodeMeta, hversion, htypes, ?_⟩
  have hproto := makeNodeSummary_get? (.exact undefined add div convert) events nodeMeta "__proto__"
  refine ⟨?_, ?_⟩
  · intro hsame hmem
    have hnone := hsame.sensors "__proto__"
    rw [Table.listed, OrderedMap.get?_erase_self, hproto, if_pos hmem] at hnone
    cases hnone
  · intro hmem
    refine ⟨rfl, ?_⟩
    intro s
    rw [Table.listed, OrderedMap.get?_erase]
    by_cases hs : s = "__proto__"
    · rw [if_pos hs, hs, hproto, if_neg hmem]
    · rw [if_neg hs]

/-- An event with a field that is no number. -/
def fooEvent : Event (Reading String) :=
  ⟨OrderedMap.empty.setAll [("id", .other "foo"), ("time", .number 1465570173),
    ("temperature", .number 77), ("pressure", .number 30), ("__proto__", .number 1)]⟩

/-- Strings and `undefined`, which no number is made of. -/
def loose : Arithmetic (Reading String) :=
  .exact "undefined" (fun _ _ => .other "") (fun _ _ => .other "NaN") fun _ => some .nan

/-- A repeated type. -/
theorem summaries_agree_repeated :
    let types := ["temperature", "pressure", "temperature"]
    ∃ t, Python.createSummary [fooEvent, fooEvent] ⟨some (.number 1), some types⟩ = .ok t ∧
      ∃ nodeMeta : NodeMeta (Reading String), some (Reading.number 1) = some nodeMeta.version ∧
        some types = some nodeMeta.observationTypes ∧
        (SameSummary (makeNodeSummary loose [fooEvent, fooEvent] nodeMeta) t ↔
          "__proto__" ∉ nodeMeta.observationTypes) := by
  intro types
  have htime : Python.Timed fooEvent := ⟨.number 1465570173, rfl⟩
  have htemperature : Python.Numeric "temperature" fooEvent := ⟨77, rfl⟩
  have hpressure : Python.Numeric "pressure" fooEvent := ⟨30, rfl⟩
  obtain ⟨t, ht⟩ := (Python.createSummary_returns_iff [fooEvent, fooEvent]
      ⟨some (.number 1), some types⟩).mpr (by
    refine ⟨rfl, types, rfl, ?_⟩
    simp [types, htime, htemperature, hpressure])
  exact ⟨t, ht, summaries_agree_iff "undefined" (fun _ _ => .other "") (fun _ _ => .other "NaN")
    (fun _ => some .nan) ht⟩

/-- Python's dictionary has the key `__proto__`, JavaScript's object does not. -/
theorem summaries_differ_proto :
    ∃ t, Python.createSummary [fooEvent] ⟨some (.number 1), some ["__proto__"]⟩ = .ok t ∧
      ¬ SameSummary (makeNodeSummary loose [fooEvent] ⟨.number 1, ["__proto__"]⟩) t := by
  have htime : Python.Timed fooEvent := ⟨.number 1465570173, rfl⟩
  have hproto : Python.Numeric "__proto__" fooEvent := ⟨1, rfl⟩
  obtain ⟨t, ht⟩ := (Python.createSummary_returns_iff [fooEvent]
      ⟨some (.number 1), some ["__proto__"]⟩).mpr (by
    refine ⟨rfl, ["__proto__"], rfl, ?_⟩
    simp [htime, hproto])
  refine ⟨t, ht, ?_⟩
  obtain ⟨nodeMeta, hversion, htypes, hiff⟩ := createSummary_sensors "undefined"
    (fun _ _ => .other "") (fun _ _ => .other "NaN") (fun _ => some .nan) ht
  obtain ⟨version, types⟩ := nodeMeta
  obtain rfl := Option.some.inj hversion
  obtain rfl := Option.some.inj htypes
  subst hiff
  intro hsame
  have hnone := hsame.sensors "__proto__"
  rw [Table.listed, OrderedMap.get?_erase_self] at hnone
  have hget := makeNodeSummary_get? loose [fooEvent] ⟨.number 1, ["__proto__"]⟩ "__proto__"
  rw [if_pos (List.mem_singleton_self _)] at hget
  exact Option.some_ne_none _ (hget.symm.trans hnone.symm)

end
end PlenarioStream.Summary

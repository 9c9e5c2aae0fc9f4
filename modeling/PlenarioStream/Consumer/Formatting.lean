import PlenarioStream.Consumer.Mapper
import PlenarioStream.Foundation.Grouping
import PlenarioStream.Foundation.Lists

/-!
What the checks and `format_obs` compute for an observation whose map entry has
string values: the checks do not fail, and `format_obs` groups the keys of the
entry by their feature.
-/
namespace PlenarioStream.Consumer
open Js Grouping

/-- The feature and the property that an entry gives to a key. -/
def target (entry : Value) (key : String) : String × String :=
  match featureProperty (entry.read key) with
  | .ok pair => pair
  | .error _ => ("", "")

def featureOf (entry : Value) (key : String) : String := (target entry key).1

def propertyOf (entry : Value) (key : String) : String := (target entry key).2

/-- Every listed key has a string in the entry. -/
def TextKeys (entry : Value) (keys : List String) : Prop :=
  ∀ key ∈ keys, ∃ s, entry.get key = .ok (.str s)

def field (obs : Json) (name : String) : Value := Value.read name (.json obs)

/-- The object that `format_obs` pushes for a new feature. -/
def blank (obs : Json) (feature : String) : Formatted :=
  ⟨feature, field obs "node_id", field obs "sensor", field obs "datetime", []⟩

def fill (entry data : Value) (o : Formatted) (key : String) : Formatted :=
  { o with assigned := o.assigned ++ [(propertyOf entry key, data.read key)] }

/-- The object that ends up in the list for a feature. -/
def formatted (obs : Json) (entry : Value) (keys : List String) (feature : String) : Formatted :=
  (group (featureOf entry) keys feature).foldl (fill entry (field obs "data")) (blank obs feature)

theorem prop_eq_field {obs : Json} (h : (Value.json obs).Readable) (name : String) :
    prop obs name = .ok (field obs name) :=
  Value.get_eq_read h name

/-- Reading the feature and the property of a text key does not fail. -/
theorem target_bind {entry : Value} {key s : String} {β : Type} (h : entry.get key = .ok (.str s))
    (k : String × String → Except Exception β) :
    (entry.get key >>= fun v => featureProperty v >>= k) =
      k (featureOf entry key, propertyOf entry key) := by
  simp only [featureOf, propertyOf, target, Value.read, h]
  rfl

theorem formatKey_eq {obs : Json} {entry : Value} {key s : String}
    (hobs : (Value.json obs).Readable) (hdata : (field obs "data").Readable)
    (hs : entry.get key = .ok (.str s)) (acc : List Formatted × List String) :
    formatKey obs entry acc key =
      .ok (collect (featureOf entry) (blank obs) (fill entry (field obs "data")) acc key) := by
  rw [formatKey, target_bind hs]
  by_cases h : featureOf entry key ∈ acc.2
  · have hneg : ¬ indexOf (· == ·) acc.2 (featureOf entry key) < 0 := by
      rw [indexOf_beq_neg_iff]
      exact not_not_intro h
    simp only [collect, prop_eq_field hobs, Value.get_eq_read hdata, bind, Except.bind,
      if_neg hneg, if_pos h, indexOf_beq_toNat h]
    rfl
  · have hneg := (indexOf_beq_neg_iff acc.2 (featureOf entry key)).mpr h
    have hmem : featureOf entry key ∈ acc.2 ++ [featureOf entry key] := by simp
    simp only [collect, prop_eq_field hobs, Value.get_eq_read hdata, bind, Except.bind,
      if_pos hneg, if_neg h, indexOf_beq_toNat hmem]
    rfl

/-- `format_obs` is a grouping of the keys by their feature. -/
theorem formatObs_eq {obs : Json} {map : SensorMap} {entry : Value} {keys : List String}
    (hobs : (Value.json obs).Readable) (hdata : (field obs "data").Readable)
    (hentry : sensorEntry obs map = .ok entry) (hkeys : entry.objectKeys = .ok keys)
    (htext : TextKeys entry keys) :
    formatObs obs map =
      .ok ((firstKeys (featureOf entry) keys).map (formatted obs entry keys)) := by
  have hfold := foldlM_ok keys (fun acc key hkey => by
    obtain ⟨s, hs⟩ := htext key hkey
    exact formatKey_eq hobs hdata hs acc) ([], [])
  rw [foldl_collect] at hfold
  simp only [formatObs, hentry, hkeys, hfold, bind, Except.bind]
  rfl

/-- The keys of a feature only write into the results of its object. -/
theorem foldl_fill (entry data : Value) (keys : List String) (o : Formatted) :
    keys.foldl (fill entry data) o =
      { o with
        assigned := o.assigned ++ keys.map fun key => (propertyOf entry key, data.read key) } := by
  induction keys generalizing o with
  | nil => rw [List.foldl_nil, List.map_nil, List.append_nil]
  | cons k ks ih =>
      rw [List.foldl_cons, ih, fill, List.append_assoc]
      rfl

/-- What the keys of a feature assign to the results of its object, from left to right. -/
def assignments (obs : Json) (entry : Value) (keys : List String) (feature : String) :
    List (String × Value) :=
  (group (featureOf entry) keys feature).map fun key =>
    (propertyOf entry key, (field obs "data").read key)

theorem formatted_assigned (obs : Json) (entry : Value) (keys : List String) (feature : String) :
    (formatted obs entry keys feature).assigned = assignments obs entry keys feature := by
  rw [formatted, foldl_fill]
  rfl

theorem mem_assignments {obs : Json} {entry : Value} {keys : List String} {feature : String}
    {e : String × Value} :
    e ∈ assignments obs entry keys feature ↔ ∃ key ∈ keys, target entry key = (feature, e.1) ∧
      (field obs "data").read key = e.2 := by
  obtain ⟨property, v⟩ := e
  refine ⟨?_, ?_⟩
  · intro h
    obtain ⟨key, hkey, heq⟩ := List.mem_map.mp h
    obtain ⟨hmem, hfeature⟩ := List.mem_filter.mp hkey
    obtain ⟨rfl, rfl⟩ := Prod.mk.inj heq
    exact ⟨key, hmem, Prod.ext (of_decide_eq_true hfeature) rfl, rfl⟩
  · rintro ⟨key, hkey, htarget, rfl⟩
    have hmem : key ∈ group (featureOf entry) keys feature :=
      List.mem_filter.mpr ⟨hkey, decide_eq_true (congrArg Prod.fst htarget)⟩
    exact List.mem_map.mpr ⟨key, hmem, Prod.ext (congrArg Prod.snd htarget) rfl⟩

/-- The assignment of a key among those of its feature. The later ones are to other
properties if no later key has the same target. -/
theorem assignments_split {obs : Json} {entry : Value} {before after : List String} {key : String}
    (h : ∀ k ∈ after, target entry k ≠ target entry key) :
    assignments obs entry (before ++ key :: after) (featureOf entry key) =
        assignments obs entry before (featureOf entry key) ++
          (propertyOf entry key, (field obs "data").read key) ::
            assignments obs entry after (featureOf entry key) ∧
      ∀ e ∈ assignments obs entry after (featureOf entry key), e.1 ≠ propertyOf entry key := by
  refine ⟨?_, ?_⟩
  · simp [assignments, group]
  · intro e he heq
    obtain ⟨k, hk, htarget, -⟩ := mem_assignments.mp he
    exact h k hk (htarget.trans (congrArg (Prod.mk _) heq))

theorem formatted_featureOfInterest (obs : Json) (entry : Value) (keys : List String)
    (feature : String) : (formatted obs entry keys feature).featureOfInterest = feature := by
  rw [formatted, foldl_fill]
  rfl

def isObject : Json → Bool
  | .obj _ | .arr _ => true
  | _ => false

/-- An object with a string `sensor` and an object `data`. -/
def Observation (obs : Json) : Prop :=
  ∃ fields name data, obs = .obj fields ∧ fields.lookup "sensor" = some (.str name) ∧
    fields.lookup "data" = some data ∧ isObject data = true

/-- Every entry of the map is an object whose own values are strings. -/
def TextEntries (map : SensorMap) : Prop :=
  ∀ name, map.has name = true → (map.get name).isObject = true ∧
    ∃ keys, (map.get name).objectKeys = .ok keys ∧ TextKeys (map.get name) keys

section
variable {obs : Json} {map : SensorMap}

theorem needsPull_eq_false_iff :
    needsPull obs map = .ok false ↔ sensorIn obs map = .ok true ∧ invalidKeys obs map = .ok [] := by
  cases hin : sensorIn obs map with
  | error e => simp [needsPull, hin, bind, Except.bind]
  | ok known =>
      cases known with
      | false => simp [needsPull, hin, bind, Except.bind]
      | true =>
          cases hkeys : invalidKeys obs map with
          | error e => simp [needsPull, hin, hkeys, bind, Except.bind]
          | ok keys => cases keys <;> simp [needsPull, hin, hkeys, bind, Except.bind]

theorem Observation.readable (h : Observation obs) : (Value.json obs).Readable := by
  obtain ⟨fields, -, -, rfl, -⟩ := h
  refine ⟨?_, ?_⟩
  · intro hv
    exact Value.noConfusion hv
  · intro hv
    exact Json.noConfusion (Value.json.inj hv)

theorem Observation.sensor (h : Observation obs) : ∃ name, prop obs "sensor" = .ok (.str name) := by
  obtain ⟨fields, name, -, rfl, hname, -⟩ := h
  exact ⟨name, by rw [prop, Value.get_obj, hname]; rfl⟩

theorem Observation.dataKeys (h : Observation obs) :
    ∃ keys, (field obs "data").objectKeys = .ok keys := by
  obtain ⟨fields, -, data, rfl, -, hdata, hobject⟩ := h
  have hfield : field (.obj fields) "data" = .json data := by
    rw [field, Value.read, Value.get_obj, hdata]
  rw [hfield]
  cases data with
  | obj fields => exact ⟨_, rfl⟩
  | arr elems => exact ⟨_, rfl⟩
  | null | bool | num | infinity | str => exact Bool.noConfusion hobject

theorem Observation.sensorIn_ok (h : Observation obs) (map : SensorMap) :
    ∃ known, sensorIn obs map = .ok known := by
  obtain ⟨name, hname⟩ := h.sensor
  exact ⟨map.has name, by simp only [sensorIn, hname]; rfl⟩

/-- An object with string values has a text for each of its keys. -/
theorem textKeys_obj {fields : List (String × Json)} (h : ∀ f ∈ fields, ∃ s, f.2 = .str s) :
    TextKeys (.json (.obj fields)) (fields.map Prod.fst) := by
  intro key hkey
  have hsome : (fields.lookup key).isSome = true := by
    obtain ⟨f, hf, rfl⟩ := List.mem_map.mp hkey
    exact List.lookup_isSome_iff.mpr ⟨f, hf, by simp⟩
  obtain ⟨j, hj⟩ := Option.isSome_iff_exists.mp hsome
  obtain ⟨s, hs⟩ := h _ (Lists.mem_of_lookup hj)
  refine ⟨s, ?_⟩
  rw [Value.get_obj, hj]
  exact congrArg (fun j => Except.ok (Value.json j)) hs

/-- A map of objects with string values, read from rows of which none replaced its
prototype. The entries that it inherits are functions without own keys. -/
theorem textEntries_of_own (hproto : map.proto = .builtin "Object.prototype")
    (h : ∀ name v, map.own.get? name = some v →
      ∃ fields, v = .json (.obj fields) ∧ ∀ f ∈ fields, ∃ s, f.2 = .str s) : TextEntries map := by
  intro name hhas
  cases hown : map.own.get? name with
  | some v =>
      obtain ⟨fields, rfl, htexts⟩ := h name v hown
      have hget : map.get name = .json (.obj fields) := by simp only [Object.get, hown]
      rw [hget]
      exact ⟨rfl, _, rfl, textKeys_obj htexts⟩
  | none =>
      obtain ⟨member, hmember⟩ : ∃ member, map.get name = .builtin member := by
        simp only [Object.has, hown, hproto, Option.isSome_none, Bool.false_or, Value.hasProperty] at hhas
        by_cases hsetter : name = "__proto__" ∧ map.hasSetter = true
        · exact ⟨"Object.prototype", by simp only [Object.get, hown, if_pos hsetter, hproto]⟩
        · cases hlookup : (builtinMembers "Object.prototype").lookup name with
          | none => simp [hlookup] at hhas
          | some member =>
              refine ⟨member, ?_⟩
              simp only [Object.get, hown, if_neg hsetter, hproto, Value.read, Value.get,
                Value.ofInherited, hlookup]
      rw [hmember]
      exact ⟨rfl, [], rfl, fun key hkey => absurd hkey List.not_mem_nil⟩

/-- The entry that a known sensor is mapped to, which may be inherited, can be
used: its keys have texts and `in` does not throw on it. -/
theorem Observation.entry (h : Observation obs) (hmap : TextEntries map)
    (hin : sensorIn obs map = .ok true) :
    ∃ entry keys, sensorEntry obs map = .ok entry ∧ entry.objectKeys = .ok keys ∧
      TextKeys entry keys ∧ ∀ key, ∃ known, entry.hasProperty key = .ok known := by
  obtain ⟨name, hname⟩ := h.sensor
  have hentry : sensorEntry obs map = .ok (map.get name) := by
    simp only [sensorEntry, hname]
    rfl
  have hknown : map.has name = true := by
    simp only [sensorIn, hname] at hin
    exact Except.ok.inj hin
  obtain ⟨hobject, keys, hkeys, htexts⟩ := hmap name hknown
  exact ⟨_, keys, hentry, hkeys, htexts, fun key => (Value.hasProperty_ok_iff _ key).mpr hobject⟩

theorem Observation.invalidKeys_ok (h : Observation obs) (hmap : TextEntries map)
    (hin : sensorIn obs map = .ok true) : ∃ keys, invalidKeys obs map = .ok keys := by
  obtain ⟨entry, -, hentry, -, -, hhas⟩ := h.entry hmap hin
  obtain ⟨dataKeys, hdataKeys⟩ := h.dataKeys
  simp only [invalidKeys, prop_eq_field h.readable, hdataKeys, bind, Except.bind]
  apply foldlM_exists_ok
  intro keys key _
  obtain ⟨known, hknown⟩ := hhas key
  exact ⟨_, by simp only [invalidKey, hentry, hknown, bind, Except.bind]; rfl⟩

/-- The check of `parse_insert_emit` does not throw. -/
theorem Observation.needsPull_ok (h : Observation obs) (hmap : TextEntries map) :
    ∃ stale, needsPull obs map = .ok stale := by
  obtain ⟨known, hin⟩ := h.sensorIn_ok map
  cases known with
  | false => exact ⟨true, by simp [needsPull, hin, bind, Except.bind]⟩
  | true =>
      obtain ⟨keys, hkeys⟩ := h.invalidKeys_ok hmap hin
      exact ⟨_, by simp only [needsPull, hin, hkeys, bind, Except.bind, if_true]; rfl⟩

/-- Neither does `format_obs`, after a check that passed. -/
theorem Observation.formatObs_ok (h : Observation obs) (hmap : TextEntries map)
    (hcheck : needsPull obs map = .ok false) : ∃ objects, formatObs obs map = .ok objects := by
  obtain ⟨entry, keys, hentry, hkeys, htext, -⟩ := h.entry hmap (needsPull_eq_false_iff.mp hcheck).1
  obtain ⟨dataKeys, hdataKeys⟩ := h.dataKeys
  exact ⟨_, formatObs_eq h.readable (Value.readable_of_objectKeys hdataKeys) hentry hkeys htext⟩

end

/-- The first sensor of the example that `update_map` documents. -/
def tmp112Map : SensorMap :=
  Object.empty.assign "TMP112" (.json (.obj [("Temperature", .str "temperature.temperature")]))

def tmp112Obs : Json :=
  .obj [("sensor", .str "TMP112"), ("data", .obj [("Temperature", .num (.ofNat 37))])]

theorem tmp112Obs_observation : Observation tmp112Obs := ⟨_, _, _, rfl, rfl, rfl, rfl⟩

theorem tmp112Map_textEntries : TextEntries tmp112Map := by
  refine textEntries_of_own rfl ?_
  intro name v hv
  have hassigned := Object.mem_of_own_assignAll (l := [("TMP112", _)]) hv
  obtain ⟨-, rfl⟩ := Prod.mk.inj (List.mem_singleton.mp hassigned)
  exact ⟨_, rfl, by simp⟩

theorem empty_textEntries : TextEntries .empty := by
  refine textEntries_of_own rfl ?_
  rintro name v ⟨⟩

end PlenarioStream.Consumer

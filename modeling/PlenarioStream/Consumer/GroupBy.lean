import PlenarioStream.Consumer.Coverage

/-!
`format_obs` as a group-by, in the terms of a reader of its result: which objects the
list has, in which order, and what each of them holds. Nothing is said of how the loop
finds the object of a feature.
-/
namespace PlenarioStream.Consumer
open Js Grouping

/-- The keys of a map entry, grouped by their features. -/
structure GroupedBy (obs : Json) (entry : Value) (keys : List String) (objects : List Formatted) :
    Prop where
  distinct : (objects.map Formatted.featureOfInterest).Nodup
  features : ∀ feature, feature ∈ objects.map Formatted.featureOfInterest ↔
    ∃ key ∈ keys, featureOf entry key = feature
  ordered : (objects.map Formatted.featureOfInterest).Pairwise fun f g =>
    (keys.map (featureOf entry)).idxOf f < (keys.map (featureOf entry)).idxOf g
  header : ∀ o ∈ objects, o.nodeId = field obs "node_id" ∧ o.sensor = field obs "sensor" ∧
    o.datetime = field obs "datetime"
  properties : ∀ o ∈ objects, ∀ property, property ∈ o.results.keys ↔
    ∃ key ∈ keys, featureOf entry key = o.featureOfInterest ∧ propertyOf entry key = property
  values : ∀ o ∈ objects, ∀ before key after, keys = before ++ key :: after →
    featureOf entry key = o.featureOfInterest → (∀ k ∈ after, target entry k ≠ target entry key) →
      o.results.get? (propertyOf entry key) = some ((field obs "data").read key)

section
variable {obs : Json} {map : SensorMap} {entry : Value} {keys : List String}

theorem formatted_header (obs : Json) (entry : Value) (keys : List String) (feature : String) :
    (formatted obs entry keys feature).nodeId = field obs "node_id" ∧
      (formatted obs entry keys feature).sensor = field obs "sensor" ∧
      (formatted obs entry keys feature).datetime = field obs "datetime" := by
  rw [formatted, foldl_fill]
  exact ⟨rfl, rfl, rfl⟩

theorem formatted_keys (feature property : String) :
    property ∈ (formatted obs entry keys feature).results.keys ↔
      ∃ key ∈ keys, featureOf entry key = feature ∧ propertyOf entry key = property := by
  rw [OrderedMap.mem_keys_iff, Formatted.results, formatted_assigned, OrderedMap.get?_setAll,
    Option.isSome_map, List.getLast?_isSome]
  simp [assignments, group, and_assoc]

/-- For an entry with texts, `format_obs` groups its keys by feature. -/
theorem format_obs_groups (h : Mapped obs map entry keys) (hdata : (field obs "data").Readable) :
    ∃ objects, formatObs obs map = .ok objects ∧ GroupedBy obs entry keys objects := by
  obtain ⟨sensor, hsensor, -⟩ := bind_eq_ok.mp h.found
  have hobs : (Value.json obs).Readable := Value.readable_of_get hsensor
  have hfeatures : ((firstKeys (featureOf entry) keys).map (formatted obs entry keys)).map
      Formatted.featureOfInterest = firstKeys (featureOf entry) keys := by
    rw [List.map_map]
    simp [Function.comp_def, formatted_featureOfInterest]
  refine ⟨_, h.formatObs_eq hobs hdata, ?_, ?_, ?_, ?_, ?_, ?_⟩
  · rw [hfeatures]
    exact firstKeys_nodup keys
  · intro feature
    rw [hfeatures]
    exact mem_firstKeys keys feature
  · rw [hfeatures]
    exact firstKeys_ordered keys
  · intro o ho
    obtain ⟨feature, -, rfl⟩ := List.mem_map.mp ho
    exact formatted_header obs entry keys feature
  · intro o ho property
    obtain ⟨feature, -, rfl⟩ := List.mem_map.mp ho
    rw [formatted_featureOfInterest]
    exact formatted_keys feature property
  · intro o ho before key after hkeys hfeature hlast
    obtain ⟨feature, -, rfl⟩ := List.mem_map.mp ho
    rw [formatted_featureOfInterest] at hfeature
    rw [← hfeature, hkeys]
    exact results_last hlast

end

/-- Two features whose keys interleave. -/
theorem format_obs_groups_weather :
    ∃ objects, formatObs weatherObs weatherMap = .ok objects ∧
      GroupedBy weatherObs (entryOf weatherRows) ["Temp", "rh", "Chip"] objects :=
  format_obs_groups (entryOf_mapped weatherRows_plain rfl)
    ((Value.objectKeys_ok_iff _).mp ⟨_, rfl⟩)

end PlenarioStream.Consumer

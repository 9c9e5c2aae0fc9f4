import PlenarioStream.Consumer.Agreement
import PlenarioStream.Foundation.Lists

/-!
The check of `parse_insert_emit` compares the keys of `obs.data` with the map, by
the operator `in`, while `redshift_insert` and `format_obs` go through the own keys
of the map entry. This module says exactly when an observation that passes the check
has only its reported values written, and when none of them is dropped.
-/
namespace PlenarioStream.Consumer
open Js Grouping

/-- The own keys of `obs.data` are what the check goes through. -/
theorem readable_of_check {obs : Json} {map : SensorMap}
    (h : needsPull obs map = .ok false) :
    (Value.json obs).Readable ∧ (field obs "data").Readable := by
  obtain ⟨data, hdata, hkeys⟩ := bind_eq_ok.mp (needsPull_eq_false_iff.mp h).2
  obtain ⟨dataKeys, hdataKeys, -⟩ := bind_eq_ok.mp hkeys
  exact readable_of_dataKeys (bind_eq_ok.mpr ⟨data, hdata, hdataKeys⟩)

/-- The value of a key that is present in `obs.data`. -/
def Reported (obs : Json) (v : Value) : Prop :=
  ∃ key w, (field obs "data").own key = some w ∧ v = .json w

/-- What is written to Redshift and what is emitted comes from `obs.data`. -/
structure OnlyReported (obs : Json) (map : SensorMap) : Prop where
  inserted : ∀ s ∈ statements obs map, ∀ v ∈ s.values, Reported obs v ∧ v.toText ≠ "undefined"
  emitted : ∀ objects, formatObs obs map = .ok objects → ∀ o ∈ objects, ∀ property v,
    o.results.get? property = some v → Reported obs v

/-- The entry is read from Redshift's side and from the socket server's: a key whose
statement is sent is reported with a text that is not `undefined`, and so is, with any
value, the last key of every feature and property. -/
structure Reports (obs : Json) (entry : Value) (keys : List String) : Prop where
  sent : ∀ key ∈ keys, featureOf entry key ∈ issued obs entry keys →
    ∃ w, (field obs "data").own key = some w ∧ w.toText ≠ "undefined"
  last : ∀ before key after, keys = before ++ key :: after →
    (∀ k ∈ after, target entry k ≠ target entry key) → ∃ w, (field obs "data").own key = some w

section
variable {obs : Json} {map : SensorMap} {entry : Value} {keys : List String}

theorem reported_read_iff (key : String) :
    Reported obs ((field obs "data").read key) ↔ ∃ w, (field obs "data").own key = some w := by
  refine ⟨?_, ?_⟩
  · rintro ⟨key', w, -, hv⟩
    exact ⟨w, Value.read_eq_json_iff.mp hv⟩
  · rintro ⟨w, hw⟩
    exact ⟨key, w, hw, Value.read_eq_json_iff.mpr hw⟩

/-- The values of the statements are the readings at the keys of their features. -/
theorem Mapped.forall_values (h : Mapped obs map entry keys) (P : Value → Prop) :
    (∀ s ∈ statements obs map, ∀ v ∈ s.values, P v) ↔
      ∀ key ∈ keys, featureOf entry key ∈ issued obs entry keys → P ((field obs "data").read key) := by
  rw [h.statements_eq]
  refine ⟨?_, ?_⟩
  · intro hall key hkey hissued
    refine hall _ (List.mem_map_of_mem hissued) _ ?_
    refine List.mem_map_of_mem (List.mem_filter.mpr ⟨hkey, ?_⟩)
    exact decide_eq_true rfl
  · intro hall s hs v hv
    obtain ⟨feature, hissued, rfl⟩ := List.mem_map.mp hs
    obtain ⟨key, hkey, rfl⟩ := List.mem_map.mp hv
    obtain ⟨hmem, hfeature⟩ := List.mem_filter.mp hkey
    exact hall key hmem ((of_decide_eq_true hfeature).symm ▸ hissued)

/-- The last key with its feature and property is the one whose value stays. -/
theorem results_last {before after : List String} {key : String}
    (h : ∀ k ∈ after, target entry k ≠ target entry key) :
    (formatted obs entry (before ++ key :: after) (featureOf entry key)).results.get?
      (propertyOf entry key) = some ((field obs "data").read key) := by
  obtain ⟨hsplit, hafter⟩ := @assignments_split obs _ before _ _ h
  rw [Formatted.results, formatted_assigned, hsplit]
  exact OrderedMap.get?_setAll_last hafter

/-- What stands in the results was read at such a key. -/
theorem last_of_results {feature property : String} {v : Value}
    (h : (formatted obs entry keys feature).results.get? property = some v) :
    ∃ before key after, keys = before ++ key :: after ∧ target entry key = (feature, property) ∧
      (∀ k ∈ after, target entry k ≠ target entry key) ∧ (field obs "data").read key = v := by
  have hkey : ∃ key ∈ keys, target entry key = (feature, property) := by
    rw [Formatted.results, formatted_assigned, OrderedMap.get?_setAll] at h
    obtain ⟨e, he, -⟩ := Option.map_eq_some_iff.mp h
    obtain ⟨hmem, hproperty⟩ := List.mem_filter.mp (List.mem_of_getLast? he)
    obtain ⟨key, hkey, htarget, -⟩ := mem_assignments.mp hmem
    exact ⟨key, hkey, by rw [htarget, of_decide_eq_true hproperty]⟩
  obtain ⟨before, key, after, rfl, htarget, hlast⟩ := Lists.exists_last_split _ hkey
  have hafter : ∀ k ∈ after, target entry k ≠ target entry key := by
    rwa [htarget]
  have hfeature : feature = featureOf entry key := (congrArg Prod.fst htarget).symm
  have hproperty : property = propertyOf entry key := (congrArg Prod.snd htarget).symm
  rw [hfeature, hproperty, results_last hafter] at h
  exact ⟨before, key, after, rfl, htarget, hafter, Option.some.inj h⟩

theorem Mapped.onlyReported_iff (h : Mapped obs map entry keys) (hobs : (Value.json obs).Readable)
    (hdata : (field obs "data").Readable) : OnlyReported obs map ↔ Reports obs entry keys := by
  have hobjects := h.formatObs_eq hobs hdata
  refine ⟨?_, ?_⟩
  · intro honly
    refine ⟨?_, ?_⟩
    · intro key hkey hissued
      obtain ⟨hreported, htext⟩ := (h.forall_values _).mp honly.inserted key hkey hissued
      obtain ⟨w, hw⟩ := (reported_read_iff key).mp hreported
      rw [Value.read_eq_json_iff.mpr hw] at htext
      exact ⟨w, hw, htext⟩
    · intro before key after hsplit hafter
      have hfeature := (mem_firstKeys keys (featureOf entry key)).mpr ⟨key, hsplit ▸ List.mem_append_cons_self, rfl⟩
      refine (reported_read_iff key).mp (honly.emitted _ hobjects _
        (List.mem_map_of_mem hfeature) (propertyOf entry key) _ ?_)
      rw [hsplit]
      exact results_last hafter
  · intro hreports
    refine ⟨?_, ?_⟩
    · rw [h.forall_values]
      intro key hkey hissued
      obtain ⟨w, hw, htext⟩ := hreports.sent key hkey hissued
      rw [Value.read_eq_json_iff.mpr hw]
      exact ⟨⟨key, w, hw, rfl⟩, htext⟩
    · intro objects hobjects' o ho property v hv
      obtain rfl := Except.ok.inj (hobjects.symm.trans hobjects')
      obtain ⟨feature, -, rfl⟩ := List.mem_map.mp ho
      obtain ⟨before, key, after, hsplit, -, hafter, rfl⟩ := last_of_results hv
      exact (reported_read_iff key).mpr (hreports.last before key after hsplit hafter)

/-- When all statements are sent, every key has to be reported. -/
theorem reports_iff (hall : issued obs entry keys = firstKeys (featureOf entry) keys) :
    Reports obs entry keys ↔
      ∀ key ∈ keys, ∃ w, (field obs "data").own key = some w ∧ w.toText ≠ "undefined" := by
  refine ⟨?_, ?_⟩
  · intro h key hkey
    refine h.sent key hkey ?_
    rw [hall]
    exact (mem_firstKeys keys _).mpr ⟨key, hkey, rfl⟩
  · intro h
    refine ⟨fun key hkey _ => h key hkey, ?_⟩
    intro before key after hsplit _
    obtain ⟨w, hw, -⟩ := h key (hsplit ▸ List.mem_append_cons_self)
    exact ⟨w, hw⟩

/-- An observation that passes the check has only its reported values written exactly
when its map entry reports them. If every header value and every reading can be converted
to text, this is to say that each own key of the entry is reported, with a value whose
text is not `undefined`. An entry with a value that is no string has nothing written. -/
theorem only_reported_iff (h : needsPull obs map = .ok false) :
    (onConnect none obs map false).1 =
        (statements obs map).flatMap (fun s => [.query s.text, .done]) ∧
      (OnlyReported obs map ↔ ∀ entry keys, Mapped obs map entry keys → Reports obs entry keys) ∧
      ((∀ entry keys, Mapped obs map entry keys →
          headerPrints obs = true ∧ ∀ key ∈ keys, readingPrints obs key = true) →
        (OnlyReported obs map ↔ ∀ entry keys, Mapped obs map entry keys →
          ∀ key ∈ keys, ∃ w, (field obs "data").own key = some w ∧ w.toText ≠ "undefined")) := by
  obtain ⟨hobs, hdata⟩ := readable_of_check h
  have honly : OnlyReported obs map ↔
      ∀ entry keys, Mapped obs map entry keys → Reports obs entry keys := by
    refine ⟨fun honly entry keys hmapped => (hmapped.onlyReported_iff hobs hdata).mp honly, ?_⟩
    intro hall
    cases hplan : insertPlan obs map with
    | ok plan =>
        have hmapped := Mapped.of_plan hplan
        exact (hmapped.onlyReported_iff hobs hdata).mpr (hall _ _ hmapped)
    | error e =>
        refine ⟨by simp [statements, hplan], ?_⟩
        intro objects hobjects
        obtain ⟨entry, keys, hmapped⟩ := Mapped.of_formatObs hobjects
        rw [hmapped.plan] at hplan
        cases hplan
  refine ⟨onConnect_statements hobs hdata, honly, ?_⟩
  intro hprints
  refine honly.trans (forall_congr' fun entry => forall_congr' fun keys => forall_congr' ?_)
  intro hmapped
  exact reports_iff (issued_eq_iff.mpr (all_prints_iff.mpr (.inr (hprints entry keys hmapped))))

end

theorem tmp112_mapped {data : Json} :
    Mapped (.obj [("sensor", .str "TMP112"), ("data", data)]) tmp112Map
      (.json (.obj [("Temperature", .str "temperature.temperature")])) ["Temperature"] :=
  ⟨rfl, rfl, textKeys_obj (by simp)⟩

/-- A complete reading. -/
theorem only_reported_tmp112 :
    needsPull tmp112Obs tmp112Map = .ok false ∧ OnlyReported tmp112Obs tmp112Map := by
  have honly := (@only_reported_iff tmp112Obs tmp112Map rfl).2.2
  refine ⟨rfl, (honly ?_).mpr ?_⟩
  · intro entry keys hmapped
    obtain ⟨-, rfl⟩ := tmp112_mapped.unique hmapped
    exact ⟨rfl, by decide⟩
  · intro entry keys hmapped key hkey
    obtain ⟨-, rfl⟩ := tmp112_mapped.unique hmapped
    obtain rfl := List.mem_singleton.mp hkey
    exact ⟨.num (.ofNat 37), rfl, by decide⟩

/-- An observation that reports two of the three mapped keys. -/
theorem not_only_reported_partial :
    needsPull weatherObs weatherMap = .ok false ∧ ¬ OnlyReported weatherObs weatherMap := by
  refine ⟨rfl, ?_⟩
  intro honly
  have hmapped : Mapped weatherObs weatherMap (entryOf weatherRows) ["Temp", "rh", "Chip"] :=
    entryOf_mapped weatherRows_plain rfl
  have hissued : "Temperature" ∈ issued weatherObs (entryOf weatherRows) ["Temp", "rh", "Chip"] := by
    decide
  obtain ⟨-, htext⟩ := (hmapped.forall_values _).mp honly.inserted "Chip" (by simp) hissued
  exact htext rfl

section
variable {obs : Json} {map : SensorMap} {entry : Value} {keys : List String}

end

end PlenarioStream.Consumer

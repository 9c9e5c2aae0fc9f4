import PlenarioStream.Consumer.Formatting
import PlenarioStream.Foundation.JsonText

/-!
The callback that `redshift_insert` hands to `rs_pool.connect`. It builds each
statement in three passes over the keys of a map entry, and sends it when it is
complete: a value that has no text makes the callback throw before that.
-/
namespace PlenarioStream.Consumer
open Js Grouping

inductive PoolEffect
  | logError (err : String)
  | query (text : String)
  | done

/-- The four columns that every statement starts with. -/
def headerNames : List String := ["node_id", "datetime", "node_config", "sensor"]

/-- The texts of the four arguments that go into them. -/
def headerTexts (obs : Json) : Except Exception (List String) := do
  let nodeId ← prop obs "node_id"
  let datetime ← prop obs "datetime"
  let nodeConfig ← prop obs "node_config"
  let sensor ← prop obs "sensor"
  .ok [← nodeId.text, ← datetime.text, ← nodeConfig.text, ← sensor.text]

/-- The text of `JSON.stringify(v)`, which is `undefined` for a function. -/
def stringifyText : Value → String
  | .json j => JsonText.stringify j
  | .builtin "Object.prototype" => "\x7b\x7d"
  | _ => "undefined"

def misfitText (obs : Json) : Except Exception String := do
  let header ← headerTexts obs
  let data ← prop obs "data"
  .ok (format ("INSERT INTO unknownfeature " ++ "VALUES ('%s', '%s', '%s', '%s', '%s');")
    (header ++ [stringifyText data]))

def addFeature (entry : Value) (features : List String) (key : String) :
    Except Exception (List String) := do
  let (feature, _) ← featureProperty (← entry.get key)
  .ok (if indexOf (· == ·) features feature < 0 then features ++ [feature] else features)

def addColumn (entry : Value) (feature : String) (acc : String × Nat) (key : String) :
    Except Exception (String × Nat) := do
  let (keyFeature, property) ← featureProperty (← entry.get key)
  if keyFeature == feature then
    .ok ((if acc.2 != 0 then acc.1 ++ ", " else acc.1) ++ property, acc.2 + 1)
  else .ok acc

def addValue (obs : Json) (entry : Value) (feature : String) (text : String) (key : String) :
    Except Exception String := do
  let (keyFeature, _) ← featureProperty (← entry.get key)
  if keyFeature == feature then do
    let value ← (← prop obs "data").get key
    .ok (text ++ (", " ++ (← value.text)))
  else .ok text

def queryText (obs : Json) (entry : Value) (keys : List String) (feature : String) :
    Except Exception String := do
  let text := format "INSERT INTO %s (node_id, datetime, node_config, sensor, "
    [toLowerCase feature]
  let (text, _) ← keys.foldlM (addColumn entry feature) (text, 0)
  let header ← headerTexts obs
  let text := format (text ++ ") " ++ "VALUES ('%s', '%s', '%s', '%s'") header
  let text ← keys.foldlM (addValue obs entry feature) text
  .ok (text ++ ");")

/-- Without a client the call of `query` throws. -/
def insertFeatures (client : Bool) (obs : Json) (entry : Value) (keys : List String) :
    List String → List PoolEffect × Except Exception Unit
  | [] => ([], .ok ())
  | feature :: rest =>
      match queryText obs entry keys feature with
      | .error e => ([], .error e)
      | .ok text =>
          if client then
            let (effects, out) := insertFeatures client obs entry keys rest
            (.query text :: .done :: effects, out)
          else ([], .error .typeError)

def insertMisfit (client : Bool) (obs : Json) : List PoolEffect × Except Exception Unit :=
  match misfitText obs with
  | .error e => ([], .error e)
  | .ok text => if client then ([.query text, .done], .ok ()) else ([], .error .typeError)

/-- What the first pass over the keys finds. -/
def insertPlan (obs : Json) (map : SensorMap) :
    Except Exception (Value × List String × List String) := do
  let entry ← sensorEntry obs map
  let keys ← entry.objectKeys
  let features ← keys.foldlM (addFeature entry) []
  .ok (entry, keys, features)

def insertNormal (client : Bool) (obs : Json) (map : SensorMap) :
    List PoolEffect × Except Exception Unit :=
  match insertPlan obs map with
  | .error e => ([], .error e)
  | .ok (entry, keys, features) => insertFeatures client obs entry keys features

/-- The callback goes on after a failed connect, with no client. -/
def onConnect (err : Option String) (obs : Json) (map : SensorMap) (misfit : Bool) :
    List PoolEffect × Except Exception Unit :=
  let (effects, out) :=
    if misfit then insertMisfit err.isNone obs else insertNormal err.isNone obs map
  ((err.map PoolEffect.logError).toList ++ effects, out)

/-- The header of a statement, if it has one. -/
def headerOf (obs : Json) : List String := headerNames.map fun name => (field obs name).toText

/-- The header values can be converted to text. -/
def headerPrints (obs : Json) : Bool := headerNames.all fun name => (field obs name).printable

/-- The reading at a key can be converted to text. -/
def readingPrints (obs : Json) (key : String) : Bool := ((field obs "data").read key).printable

/-- A statement with the values that follow the header values. -/
structure Statement where
  head : String
  values : List Value

def Statement.text (s : Statement) : String :=
  s.values.foldl (fun text v => text ++ (", " ++ v.toText)) s.head ++ ");"

/-- The text of a statement up to its columns. -/
def columnsHead (entry : Value) (keys : List String) (feature : String) : String :=
  format "INSERT INTO %s (node_id, datetime, node_config, sensor, " [toLowerCase feature] ++
    ", ".intercalate ((group (featureOf entry) keys feature).map (propertyOf entry))

def statementOf (obs : Json) (entry : Value) (keys : List String) (feature : String) : Statement where
  head := format (columnsHead entry keys feature ++ ") " ++ "VALUES ('%s', '%s', '%s', '%s'")
    (headerOf obs)
  values := (group (featureOf entry) keys feature).map fun key => (field obs "data").read key

/-- The statement of a feature can be built. -/
def prints (obs : Json) (entry : Value) (keys : List String) (feature : String) : Bool :=
  headerPrints obs && (group (featureOf entry) keys feature).all (readingPrints obs)

/-- The features whose statements are sent: those before the first one that throws. -/
def issued (obs : Json) (entry : Value) (keys : List String) : List String :=
  (firstKeys (featureOf entry) keys).takeWhile (prints obs entry keys)

/-- The statements that the normal path sends. -/
def statements (obs : Json) (map : SensorMap) : List Statement :=
  match insertPlan obs map with
  | .error _ => []
  | .ok (entry, keys, _) => (issued obs entry keys).map (statementOf obs entry keys)

/-- A map entry whose own values are texts, with its keys. -/
structure Mapped (obs : Json) (map : SensorMap) (entry : Value) (keys : List String) : Prop where
  found : sensorEntry obs map = .ok entry
  listed : entry.objectKeys = .ok keys
  texts : TextKeys entry keys

theorem headerTexts_eq {obs : Json} (hobs : (Value.json obs).Readable) :
    headerTexts obs = if headerPrints obs then .ok (headerOf obs) else .error .typeError := by
  simp only [headerTexts, prop_eq_field hobs, headerPrints, headerOf, headerNames, Value.text,
    List.all_cons, List.all_nil, List.map_cons, List.map_nil, bind, Except.bind]
  cases (field obs "node_id").printable <;> cases (field obs "datetime").printable <;>
    cases (field obs "node_config").printable <;> cases (field obs "sensor").printable <;> rfl

theorem addFeature_foldlM {entry : Value} {keys : List String} (htext : TextKeys entry keys) :
    keys.foldlM (addFeature entry) [] = .ok (firstKeys (featureOf entry) keys) := by
  apply foldlM_ok
  intro features key hkey
  obtain ⟨s, hs⟩ := htext key hkey
  rw [addFeature, target_bind hs, addKey]
  by_cases h : featureOf entry key ∈ features
  · have hneg : ¬ indexOf (· == ·) features (featureOf entry key) < 0 := by
      rw [indexOf_beq_neg_iff]
      exact not_not_intro h
    simp only [if_neg hneg, if_pos h]
  · simp only [if_pos ((indexOf_beq_neg_iff _ _).mpr h), if_neg h]

theorem addColumn_foldlM {entry : Value} {keys : List String} (feature head : String)
    (htext : TextKeys entry keys) :
    keys.foldlM (addColumn entry feature) (head, 0) =
      .ok (head ++ ", ".intercalate
          ((group (featureOf entry) keys feature).map (propertyOf entry)),
        (group (featureOf entry) keys feature).length) := by
  induction keys using List.reverseRecOn with
  | nil => simp [group]; rfl
  | append_singleton keys key ih =>
      obtain ⟨s, hs⟩ := htext key (by simp)
      rw [List.foldlM_append, ih fun k hk => htext k (List.mem_append_left _ hk), group_concat]
      simp only [bind, Except.bind, List.foldlM_cons, List.foldlM_nil]
      rw [addColumn, target_bind hs]
      by_cases h : featureOf entry key = feature
      · simp only [h, beq_self_eq_true, if_true, List.map_append, List.map_singleton,
          intercalate_concat, List.length_map, List.length_append, List.length_singleton]
        by_cases hnil : group (featureOf entry) keys feature = []
        · simp only [hnil, List.map_nil, List.length_nil, bne_self_eq_false, Bool.false_eq_true,
            if_false, String.intercalate_nil, String.append_empty, String.empty_append]
          rfl
        · have hlen : (group (featureOf entry) keys feature).length != 0 := by simpa using hnil
          simp only [hlen, if_true, String.append_assoc]
          rfl
      · simp only [beq_eq_false_iff_ne.mpr h, if_neg h, Bool.false_eq_true, if_false]
        rfl

theorem addValue_eq {obs : Json} {entry : Value} {key s : String} (feature text : String)
    (hobs : (Value.json obs).Readable) (hdata : (field obs "data").Readable)
    (hs : entry.get key = .ok (.str s)) :
    addValue obs entry feature text key =
      if featureOf entry key = feature then
        if readingPrints obs key then .ok (text ++ (", " ++ ((field obs "data").read key).toText))
        else .error .typeError
      else .ok text := by
  rw [addValue, target_bind hs]
  by_cases h : featureOf entry key = feature
  · simp only [h, beq_self_eq_true, if_true, prop_eq_field hobs, Value.get_eq_read hdata,
      readingPrints, bind, Except.bind]
    by_cases hprint : ((field obs "data").read key).printable = true
    · simp only [Value.text_eq hprint]
      exact (if_pos hprint).symm
    · simp only [Value.text_eq_error (Bool.not_eq_true _ ▸ hprint)]
      exact (if_neg hprint).symm
  · simp only [beq_eq_false_iff_ne.mpr h, Bool.false_eq_true, if_false, if_neg h]

/-- The last pass appends the values of a feature, whatever text it starts from, and
throws at the first one that has no text. -/
theorem addValue_foldlM {obs : Json} {entry : Value} {keys : List String} (feature : String)
    (hobs : (Value.json obs).Readable) (hdata : (field obs "data").Readable)
    (htext : TextKeys entry keys) (text : String) :
    keys.foldlM (addValue obs entry feature) text =
      if (group (featureOf entry) keys feature).all (readingPrints obs) then
        .ok (((group (featureOf entry) keys feature).map (field obs "data").read).foldl
          (fun text v => text ++ (", " ++ v.toText)) text)
      else .error .typeError := by
  induction keys generalizing text with
  | nil => rfl
  | cons key keys ih =>
      obtain ⟨s, hs⟩ := htext key List.mem_cons_self
      rw [List.foldlM_cons, addValue_eq feature text hobs hdata hs, group, List.filter_cons]
      by_cases h : featureOf entry key = feature
      · simp only [h, if_true, decide_true, List.all_cons, List.map_cons, List.foldl_cons]
        cases readingPrints obs key with
        | false => rfl
        | true => exact ih (fun k hk => htext k (List.mem_cons_of_mem _ hk)) _
      · simp only [h, if_false, decide_false, Bool.false_eq_true]
        exact ih (fun k hk => htext k (List.mem_cons_of_mem _ hk)) _

section
variable {obs : Json} {map : SensorMap} {entry : Value} {keys : List String}

theorem text_of_featureProperty {v : Value} {pair : String × String}
    (h : featureProperty v = .ok pair) : ∃ s, v = .str s := by
  unfold featureProperty at h
  split at h
  · exact ⟨_, rfl⟩
  · cases h

theorem textKeys_of_featureProperty
    (h : ∀ key ∈ keys, ∃ v pair, entry.get key = .ok v ∧ featureProperty v = .ok pair) :
    TextKeys entry keys := by
  intro key hkey
  obtain ⟨v, pair, hv, hpair⟩ := h key hkey
  obtain ⟨s, rfl⟩ := text_of_featureProperty hpair
  exact ⟨s, hv⟩

theorem Mapped.plan (h : Mapped obs map entry keys) :
    insertPlan obs map = .ok (entry, keys, firstKeys (featureOf entry) keys) := by
  simp only [insertPlan, h.found, h.listed, addFeature_foldlM h.texts, bind, Except.bind]

theorem Mapped.of_plan {features : List String} (h : insertPlan obs map = .ok (entry, keys, features)) :
    Mapped obs map entry keys := by
  obtain ⟨entry', hentry, h⟩ := bind_eq_ok.mp h
  obtain ⟨keys', hkeys, h⟩ := bind_eq_ok.mp h
  obtain ⟨features', hfeatures, h⟩ := bind_eq_ok.mp h
  cases h
  refine ⟨hentry, hkeys, textKeys_of_featureProperty ?_⟩
  intro key hkey
  obtain ⟨acc, acc', hstep⟩ := step_of_foldlM_ok hfeatures hkey
  obtain ⟨v, hv, hstep⟩ := bind_eq_ok.mp hstep
  obtain ⟨pair, hpair, -⟩ := bind_eq_ok.mp hstep
  exact ⟨v, pair, hv, hpair⟩

theorem Mapped.of_formatObs {objects : List Formatted} (h : formatObs obs map = .ok objects) :
    ∃ entry keys, Mapped obs map entry keys := by
  obtain ⟨entry, hentry, h⟩ := bind_eq_ok.mp h
  obtain ⟨keys, hkeys, h⟩ := bind_eq_ok.mp h
  obtain ⟨acc, hacc, -⟩ := bind_eq_ok.mp h
  refine ⟨entry, keys, hentry, hkeys, textKeys_of_featureProperty ?_⟩
  intro key hkey
  obtain ⟨d, d', hstep⟩ := step_of_foldlM_ok hacc hkey
  obtain ⟨v, hv, hstep⟩ := bind_eq_ok.mp hstep
  obtain ⟨pair, hpair, -⟩ := bind_eq_ok.mp hstep
  exact ⟨v, pair, hv, hpair⟩

theorem Mapped.unique {entry' : Value} {keys' : List String} (h : Mapped obs map entry keys)
    (h' : Mapped obs map entry' keys') : entry = entry' ∧ keys = keys' := by
  have hplan := h.plan.symm.trans h'.plan
  cases hplan
  exact ⟨rfl, rfl⟩

/-- Each statement is complete or throws. -/
theorem Mapped.queryText_eq (h : Mapped obs map entry keys) (hobs : (Value.json obs).Readable)
    (hdata : (field obs "data").Readable) (feature : String) :
    queryText obs entry keys feature =
      if prints obs entry keys feature then .ok (statementOf obs entry keys feature).text
      else .error .typeError := by
  simp only [queryText, prints, statementOf, columnsHead, Statement.text,
    addColumn_foldlM feature _ h.texts, headerTexts_eq hobs, bind, Except.bind]
  by_cases hheader : headerPrints obs = true
  · simp only [hheader, if_true, Bool.true_and, addValue_foldlM feature hobs hdata h.texts]
    by_cases hvalues : (group (featureOf entry) keys feature).all (readingPrints obs) = true
    · simp only [if_pos hvalues]
    · simp only [if_neg hvalues]
  · simp only [hheader, Bool.false_and, Bool.false_eq_true, if_false]

theorem Mapped.insertFeatures_eq (h : Mapped obs map entry keys) (hobs : (Value.json obs).Readable)
    (hdata : (field obs "data").Readable) (features : List String) :
    insertFeatures true obs entry keys features =
      ((features.takeWhile (prints obs entry keys)).flatMap fun feature =>
          [.query (statementOf obs entry keys feature).text, .done],
        if features.all (prints obs entry keys) then .ok () else .error .typeError) := by
  induction features with
  | nil => rfl
  | cons feature features ih =>
      rw [insertFeatures, h.queryText_eq hobs hdata, List.takeWhile_cons, List.all_cons]
      cases prints obs entry keys feature with
      | false => rfl
      | true =>
          simp only [if_true, ih]
          rfl

/-- With a client, the normal path sends the statements up to the first that throws. -/
theorem Mapped.onConnect_client (h : Mapped obs map entry keys) (hobs : (Value.json obs).Readable)
    (hdata : (field obs "data").Readable) :
    onConnect none obs map false =
      ((issued obs entry keys).flatMap fun feature =>
          [.query (statementOf obs entry keys feature).text, .done],
        if (firstKeys (featureOf entry) keys).all (prints obs entry keys) then .ok ()
        else .error .typeError) := by
  simp only [onConnect, insertNormal, h.plan, Bool.false_eq_true, if_false, Option.isNone_none,
    h.insertFeatures_eq hobs hdata]
  rfl

/-- Without a client the first statement throws. -/
theorem Mapped.onConnect_error (h : Mapped obs map entry keys) (hobs : (Value.json obs).Readable)
    (hdata : (field obs "data").Readable) (e : String) :
    onConnect (some e) obs map false =
      ([.logError e], if keys = [] then .ok () else .error .typeError) := by
  simp only [onConnect, insertNormal, h.plan, Bool.false_eq_true, if_false]
  cases hfeatures : firstKeys (featureOf entry) keys with
  | nil =>
      rw [if_pos ((firstKeys_eq_nil_iff keys).mp hfeatures)]
      rfl
  | cons feature rest =>
      have hne : keys ≠ [] := by
        intro hnil
        rw [(firstKeys_eq_nil_iff keys).mpr hnil] at hfeatures
        cases hfeatures
      rw [if_neg hne, insertFeatures, h.queryText_eq hobs hdata]
      cases prints obs entry keys feature <;> rfl

/-- With metadata that is no object of texts, the loop is not reached. -/
theorem onConnect_unmapped (h : ∀ entry keys, ¬ Mapped obs map entry keys) (err : Option String) :
    ∃ e, onConnect err obs map false = ((err.map PoolEffect.logError).toList, .error e) := by
  cases hplan : insertPlan obs map with
  | ok plan =>
      obtain ⟨entry, keys, features⟩ := plan
      exact absurd (Mapped.of_plan hplan) (h entry keys)
  | error e =>
      refine ⟨e, ?_⟩
      simp only [onConnect, insertNormal, hplan, Bool.false_eq_true, if_false, List.append_nil]

theorem Mapped.onConnect_nil (h : Mapped obs map entry []) :
    onConnect none obs map false = ([], .ok ()) := by
  simp only [onConnect, insertNormal, h.plan, Bool.false_eq_true, if_false]
  rfl

theorem Mapped.of_onConnect {err : Option String} (h : (onConnect err obs map false).2 = .ok ()) :
    ∃ entry keys, Mapped obs map entry keys := by
  by_contra hnone
  obtain ⟨e, he⟩ := onConnect_unmapped
    (fun entry keys hmapped => hnone ⟨entry, keys, hmapped⟩ : ∀ entry keys, ¬ Mapped obs map entry keys) err
  rw [he] at h
  cases h

/-- The statements sent are those of the normal path, one after the other. -/
theorem onConnect_statements (hobs : (Value.json obs).Readable)
    (hdata : (field obs "data").Readable) :
    (onConnect none obs map false).1 =
      (statements obs map).flatMap fun s => [.query s.text, .done] := by
  unfold statements
  cases hplan : insertPlan obs map with
  | error e =>
      simp only [onConnect, insertNormal, hplan, Bool.false_eq_true, if_false]
      rfl
  | ok plan =>
      obtain ⟨entry, keys, features⟩ := plan
      rw [(Mapped.of_plan hplan).onConnect_client hobs hdata]
      simp only [List.flatMap_map]

/-- The statements and the objects for an entry with texts. -/
theorem Mapped.statements_eq (h : Mapped obs map entry keys) :
    statements obs map = (issued obs entry keys).map (statementOf obs entry keys) := by
  rw [statements, h.plan]

theorem Mapped.formatObs_eq (h : Mapped obs map entry keys) (hobs : (Value.json obs).Readable)
    (hdata : (field obs "data").Readable) :
    formatObs obs map = .ok ((firstKeys (featureOf entry) keys).map (formatted obs entry keys)) :=
  Consumer.formatObs_eq hobs hdata h.found h.listed h.texts

/-- No statement throws when every value can be converted. -/
theorem all_prints_iff :
    (firstKeys (featureOf entry) keys).all (prints obs entry keys) = true ↔
      keys = [] ∨ headerPrints obs = true ∧ ∀ key ∈ keys, readingPrints obs key = true := by
  simp only [List.all_eq_true, prints, Bool.and_eq_true]
  refine ⟨?_, ?_⟩
  · intro hall
    cases keys with
    | nil => exact .inl rfl
    | cons key keys =>
        have hfeature (k : String) (hk : k ∈ key :: keys) :=
          hall _ ((mem_firstKeys (key :: keys) (featureOf entry k)).mpr ⟨k, hk, rfl⟩)
        refine .inr ⟨(hfeature key List.mem_cons_self).1, ?_⟩
        intro k hk
        exact (hfeature k hk).2 k (List.mem_filter.mpr ⟨hk, decide_eq_true rfl⟩)
  · rintro (rfl | ⟨hheader, hreadings⟩) feature hfeature
    · exact absurd hfeature List.not_mem_nil
    · exact ⟨hheader, fun key hkey => hreadings key (List.mem_of_mem_filter hkey)⟩

/-- Then they are all sent. -/
theorem issued_eq_iff :
    issued obs entry keys = firstKeys (featureOf entry) keys ↔
      (firstKeys (featureOf entry) keys).all (prints obs entry keys) = true := by
  rw [issued, List.takeWhile_eq_self_iff, List.all_eq_true]

end

theorem readable_of_dataKeys {obs : Json} {dataKeys : List String}
    (h : (prop obs "data" >>= Value.objectKeys) = .ok dataKeys) :
    (Value.json obs).Readable ∧ (field obs "data").Readable := by
  cases hprop : prop obs "data" with
  | error e => simp [hprop, bind, Except.bind] at h
  | ok v =>
      have hobs := Value.readable_of_get hprop
      rw [prop_eq_field hobs] at h
      exact ⟨hobs, Value.readable_of_objectKeys h⟩

/-- On the misfit path there is one statement, with the text of the data at its end. -/
theorem misfitText_eq {obs : Json} (hobs : (Value.json obs).Readable) :
    misfitText obs =
      if headerPrints obs then
        .ok (format ("INSERT INTO unknownfeature " ++ "VALUES ('%s', '%s', '%s', '%s', '%s');")
          (headerOf obs ++ [stringifyText (field obs "data")]))
      else .error .typeError := by
  simp only [misfitText, headerTexts_eq hobs, prop_eq_field hobs, bind, Except.bind]
  by_cases hheader : headerPrints obs = true
  · simp only [if_pos hheader]
  · simp only [if_neg hheader]

end PlenarioStream.Consumer

import PlenarioStream.Consumer.Redshift

/-!
The agreement of `redshift_insert` with `format_obs`. The statements are compared with
INSERTs given as lists of columns and values, and these with the objects, feature by
feature, for a map entry that gives each key a plain `feature.property`.
-/
namespace PlenarioStream.Consumer
open Js Grouping

/-- An INSERT by its parts: the header values are quoted, the others are not. -/
structure Insert where
  table : String
  columns : List String
  header : List String
  values : List String

def quote (s : String) : String := "'" ++ s ++ "'"

def Insert.text (i : Insert) : String :=
  "INSERT INTO " ++ i.table ++ " (node_id, datetime, node_config, sensor, " ++
    ", ".intercalate i.columns ++ ") VALUES (" ++
    ", ".intercalate (i.header.map quote ++ i.values) ++ ");"

/-- The statement for a feature. -/
def insertOf (obs : Json) (entry : Value) (keys : List String) (feature : String) : Insert where
  table := toLowerCase feature
  columns := (group (featureOf entry) keys feature).map (propertyOf entry)
  header := headerOf obs
  values := (group (featureOf entry) keys feature).map fun key =>
    ((field obs "data").read key).toText

private theorem foldl_intercalate (values : List Value) (head : String) (header : List String)
    (hne : header ≠ []) :
    values.foldl (fun text v => text ++ (", " ++ v.toText)) (head ++ ", ".intercalate header) =
      head ++ ", ".intercalate (header ++ values.map Value.toText) := by
  induction values using List.reverseRecOn with
  | nil => simp
  | append_singleton values v ih =>
      have hlen : (header ++ values.map Value.toText).length != 0 := by simp [hne]
      rw [List.foldl_append, ih, List.map_append, List.map_singleton, ← List.append_assoc,
        intercalate_concat, if_pos hlen]
      simp only [List.foldl_cons, List.foldl_nil, String.append_assoc]

private theorem format_head (table : String) :
    format "INSERT INTO %s (node_id, datetime, node_config, sensor, " [table] =
      "INSERT INTO " ++ table ++ " (node_id, datetime, node_config, sensor, " := by
  have hparts : "INSERT INTO %s (node_id, datetime, node_config, sensor, " =
      "INSERT INTO " ++ ("%s" ++ (" (node_id, datetime, node_config, sensor, " ++ "")) := by simp
  rw [hparts, format_plain_append _ _ (by decide), format_directive_append,
    format_plain_append _ _ (by decide), format_nil]
  simp only [String.append_empty, String.append_assoc]

private theorem format_values {plain : String} (h : '%' ∉ plain.toList) (a b c d : String) :
    format (plain ++ ") " ++ "VALUES ('%s', '%s', '%s', '%s'") [a, b, c, d] =
      plain ++ ") VALUES (" ++ ", ".intercalate ([a, b, c, d].map quote) := by
  have hparts : plain ++ ") " ++ "VALUES ('%s', '%s', '%s', '%s'" =
      plain ++ (") VALUES ('" ++ ("%s" ++ ("', '" ++ ("%s" ++ ("', '" ++ ("%s" ++
        ("', '" ++ ("%s" ++ ("'" ++ ""))))))))) := by simp [String.append_assoc]
  rw [hparts, format_plain_append _ _ h, format_plain_append _ _ (by decide),
    format_directive_append, format_plain_append _ _ (by decide),
    format_directive_append, format_plain_append _ _ (by decide),
    format_directive_append, format_plain_append _ _ (by decide),
    format_directive_append, format_plain_append _ _ (by decide), format_nil]
  apply String.toList_inj.mp
  simp [quote, String.intercalate_cons_cons]

/-- The text that the passes build, by its parts. A directive in a name would be
replaced by the second formatting. -/
theorem statementOf_text {obs : Json} {entry : Value} {keys : List String} {feature : String}
    (hfeature : '%' ∉ (toLowerCase feature).toList)
    (hcolumns : ∀ key ∈ group (featureOf entry) keys feature, '%' ∉ (propertyOf entry key).toList) :
    (statementOf obs entry keys feature).text = (insertOf obs entry keys feature).text := by
  have hplain : '%' ∉ ("INSERT INTO " ++ toLowerCase feature ++
      " (node_id, datetime, node_config, sensor, " ++
      ", ".intercalate (insertOf obs entry keys feature).columns).toList := by
    simp only [String.toList_append, List.mem_append, not_or]
    refine ⟨⟨⟨by decide, hfeature⟩, by decide⟩, ?_⟩
    apply not_mem_intercalate (by decide)
    exact List.forall_mem_map.mpr hcolumns
  have hvalues := foldl_intercalate
    ((group (featureOf entry) keys feature).map fun key => (field obs "data").read key)
    ("INSERT INTO " ++ toLowerCase feature ++ " (node_id, datetime, node_config, sensor, " ++
      ", ".intercalate (insertOf obs entry keys feature).columns ++ ") VALUES (")
    ((insertOf obs entry keys feature).header.map quote) (by simp [insertOf, headerOf, headerNames])
  have hformat := format_values hplain (field obs "node_id").toText (field obs "datetime").toText
    (field obs "node_config").toText (field obs "sensor").toText
  simp only [Statement.text, statementOf, columnsHead, format_head]
  simp only [insertOf, headerOf, headerNames, List.map_cons, List.map_nil, List.map_map]
    at hformat hvalues ⊢
  rw [hformat, hvalues]
  rfl

/-- A plain SQL identifier: letters, digits and underscores, not starting with a digit. -/
def plainName (s : String) : Bool :=
  match s.toList with
  | [] => false
  | c :: cs => (c.isAlpha || c == '_') && cs.all fun d => d.isAlphanum || d == '_'

/-- A key of a map entry with the two names that its text is made of. -/
structure Row where
  key : String
  feature : String
  property : String
deriving DecidableEq

def Row.text (r : Row) : String := r.feature ++ "." ++ r.property

/-- The entry `{ key: 'feature.property', .. }`. -/
def entryOf (rows : List Row) : Value := .json (.obj (rows.map fun r => (r.key, .str r.text)))

structure PlainRows (rows : List Row) : Prop where
  names : ∀ r ∈ rows, plainName r.feature = true ∧ plainName r.property = true
  nodup : (rows.map Row.key).Nodup

theorem not_mem_of_plainName {s : String} (h : plainName s = true) {c : Char}
    (hc : c.isAlphanum = false) (hu : c ≠ '_') : c ∉ s.toList := by
  intro hmem
  unfold plainName at h
  split at h
  · exact Bool.noConfusion h
  · rename_i d ds hs
    rw [hs] at hmem
    simp only [Bool.and_eq_true, List.all_eq_true, Bool.or_eq_true, beq_iff_eq] at h
    rcases List.mem_cons.mp hmem with rfl | hmem
    · rcases h.1 with hd | hd
      · simp [Char.isAlphanum, hd] at hc
      · exact hu hd
    · rcases h.2 c hmem with hd | hd
      · rw [hd] at hc
        exact Bool.noConfusion hc
      · exact hu hd

section
variable {rows : List Row}

theorem entryOf_get (h : PlainRows rows) {r : Row} (hr : r ∈ rows) :
    (entryOf rows).get r.key = .ok (.str r.text) := by
  have hlookup : (rows.map fun r => (r.key, Json.str r.text)).lookup r.key = some (.str r.text) := by
    have hnodup := h.nodup
    clear h
    induction rows with
    | nil => simp at hr
    | cons q rows ih =>
        obtain ⟨hq, hrows⟩ := List.nodup_cons.mp hnodup
        rcases List.mem_cons.mp hr with rfl | hr
        · simp
        · have hne : (r.key == q.key) = false := by
            rw [beq_eq_false_iff_ne]
            intro heq
            exact hq (heq ▸ List.mem_map_of_mem hr)
          simp only [List.map_cons, List.lookup_cons, hne]
          exact ih hr hrows
  rw [entryOf, Value.get_obj, hlookup]
  rfl

theorem entryOf_target (h : PlainRows rows) {r : Row} (hr : r ∈ rows) :
    featureOf (entryOf rows) r.key = r.feature ∧ propertyOf (entryOf rows) r.key = r.property := by
  obtain ⟨hf, hp⟩ := h.names r hr
  have hsplit : split '.' r.text = [r.feature, r.property] :=
    split_pair (not_mem_of_plainName hf (by decide) (by decide))
      (not_mem_of_plainName hp (by decide) (by decide))
  simp [featureOf, propertyOf, target, Value.read, entryOf_get h hr, Value.str, featureProperty, hsplit]

theorem entryOf_objectKeys (rows : List Row) :
    (entryOf rows).objectKeys = .ok (rows.map Row.key) := by
  rw [entryOf, Value.objectKeys_obj, List.map_map]
  rfl

theorem entryOf_textKeys (h : PlainRows rows) : TextKeys (entryOf rows) (rows.map Row.key) := by
  intro key hkey
  obtain ⟨r, hr, rfl⟩ := List.mem_map.mp hkey
  exact ⟨r.text, entryOf_get h hr⟩

/-- Plain names hold no format directive. -/
theorem entryOf_no_percent (h : PlainRows rows) :
    ∀ key ∈ rows.map Row.key, '%' ∉ (featureOf (entryOf rows) key).toList ∧
      '%' ∉ (propertyOf (entryOf rows) key).toList := by
  intro key hkey
  obtain ⟨r, hr, rfl⟩ := List.mem_map.mp hkey
  obtain ⟨hf, hp⟩ := entryOf_target h hr
  rw [hf, hp]
  exact ⟨not_mem_of_plainName (h.names r hr).1 (by decide) (by decide),
    not_mem_of_plainName (h.names r hr).2 (by decide) (by decide)⟩

end

/-- What it means that a statement and an object of `format_obs` hold the same
readings, those of the given rows. -/
structure Agrees (obs : Json) (rows : List Row) (i : Insert) (o : Formatted) : Prop where
  table : i.table = toLowerCase o.featureOfInterest
  header : i.header = headerOf obs
  aligned : i.columns.length = i.values.length
  columns : i.columns = rows.map Row.property
  values : i.values = rows.map fun r => ((field obs "data").read r.key).toText
  results : o.results = OrderedMap.empty.setAll
    (i.columns.zip (rows.map fun r => (field obs "data").read r.key))

theorem agrees_of_feature (obs : Json) {rows : List Row} (h : PlainRows rows) (feature : String) :
    Agrees obs (group Row.feature rows feature)
      (insertOf obs (entryOf rows) (rows.map Row.key) feature)
      (formatted obs (entryOf rows) (rows.map Row.key) feature) := by
  have hgroup : group (featureOf (entryOf rows)) (rows.map Row.key) feature =
      (group Row.feature rows feature).map Row.key :=
    group_map rows (fun r hr => (entryOf_target h hr).1) feature
  have hcolumns : (insertOf obs (entryOf rows) (rows.map Row.key) feature).columns =
      (group Row.feature rows feature).map Row.property := by
    simp only [insertOf, hgroup, List.map_map]
    apply List.map_congr_left
    intro r hr
    exact (entryOf_target h (List.mem_of_mem_filter hr)).2
  have hvalues : (insertOf obs (entryOf rows) (rows.map Row.key) feature).values =
      (group Row.feature rows feature).map fun r => ((field obs "data").read r.key).toText := by
    simp only [insertOf, hgroup, List.map_map]
    rfl
  refine ⟨?_, rfl, ?_, hcolumns, hvalues, ?_⟩
  · rw [formatted_featureOfInterest]
    rfl
  · rw [hcolumns, hvalues, List.length_map, List.length_map]
  · rw [Formatted.results, formatted_assigned, assignments, hcolumns, hgroup, List.map_map, List.zip_map']
    congr 1
    apply List.map_congr_left
    intro r hr
    simp only [Function.comp_apply, (entryOf_target h (List.mem_of_mem_filter hr)).2]

/-- The statements that `redshift_insert` sends and the objects of `format_obs`
correspond one to one, in order and reading by reading. -/
def Corresponds (obs : Json) (map : SensorMap) (rows : List Row) : Prop :=
  ∃ (inserts : List Insert) (objects : List Formatted) (parts : List (List Row)),
    (onConnect none obs map false).1 = inserts.flatMap (fun i => [.query i.text, .done]) ∧
    formatObs obs map = .ok objects ∧
    inserts.length = objects.length ∧ parts.length = objects.length ∧
    (∀ (j : Nat) (i : Insert) (o : Formatted) (part : List Row),
      inserts[j]? = some i → objects[j]? = some o → parts[j]? = some part →
        Agrees obs part i o) ∧
    ∀ r ∈ rows, ∃! j : Nat, ∃ part, parts[j]? = some part ∧ r ∈ part

section
variable {obs : Json} {map : SensorMap} {rows : List Row}

theorem entryOf_mapped (hrows : PlainRows rows) (hentry : sensorEntry obs map = .ok (entryOf rows)) :
    Mapped obs map (entryOf rows) (rows.map Row.key) :=
  ⟨hentry, entryOf_objectKeys rows, entryOf_textKeys hrows⟩

theorem entryOf_firstKeys (hrows : PlainRows rows) :
    firstKeys (featureOf (entryOf rows)) (rows.map Row.key) = firstKeys Row.feature rows :=
  firstKeys_map rows fun _ hr => (entryOf_target hrows hr).1

/-- The statements for an entry of plain names. -/
theorem entryOf_text (hrows : PlainRows rows) {feature : String}
    (hfeature : feature ∈ firstKeys Row.feature rows) :
    (statementOf obs (entryOf rows) (rows.map Row.key) feature).text =
      (insertOf obs (entryOf rows) (rows.map Row.key) feature).text := by
  obtain ⟨r, hr, rfl⟩ := (mem_firstKeys rows feature).mp hfeature
  refine statementOf_text ?_ fun key hkey => ?_
  · exact percent_not_mem_toLowerCase
      (not_mem_of_plainName (hrows.names r hr).1 (by decide) (by decide))
  · exact (entryOf_no_percent hrows key (List.mem_of_mem_filter hkey)).2

theorem corresponds_of_issued (hrows : PlainRows rows) (hobs : (Value.json obs).Readable)
    (hdata : (field obs "data").Readable) (hentry : sensorEntry obs map = .ok (entryOf rows))
    (hissued : issued obs (entryOf rows) (rows.map Row.key) = firstKeys Row.feature rows) :
    Corresponds obs map rows := by
  have hmapped := entryOf_mapped hrows hentry
  have hconnect := congrArg Prod.fst (hmapped.onConnect_client hobs hdata)
  have hformat := hmapped.formatObs_eq hobs hdata
  rw [entryOf_firstKeys hrows] at hformat
  refine ⟨(firstKeys Row.feature rows).map (insertOf obs (entryOf rows) (rows.map Row.key)), _,
    (firstKeys Row.feature rows).map (group Row.feature rows), ?_, hformat, by simp, by simp, ?_, ?_⟩
  · rw [hconnect, hissued, List.flatMap_map]
    apply List.flatMap_congr
    intro feature hfeature
    rw [entryOf_text hrows hfeature]
  · intro j i o part hi ho hpart
    simp only [List.getElem?_map, Option.map_eq_some_iff] at hi ho hpart
    obtain ⟨feature, hj, rfl⟩ := hi
    rw [hj] at ho hpart
    obtain ⟨_, ⟨⟩, rfl⟩ := ho
    obtain ⟨_, ⟨⟩, rfl⟩ := hpart
    exact agrees_of_feature obs hrows feature
  · intro r hr
    obtain ⟨j, hj, hunique⟩ := existsUnique_group (f := Row.feature) rows hr
    refine ⟨j, ?_, ?_⟩
    · refine ⟨_, ?_, hj⟩
      simp
    · intro k hk
      obtain ⟨part, hpart, hmem⟩ := hk
      simp only [List.getElem?_map, Option.map_eq_some_iff] at hpart
      obtain ⟨feature, hk, rfl⟩ := hpart
      obtain ⟨hlt, hget⟩ := List.getElem?_eq_some_iff.mp hk
      have hjk := hunique ⟨k, hlt⟩ (by simpa [List.get_eq_getElem, hget] using hmem)
      exact congrArg Fin.val hjk

/-- There is an object for every feature, so no statement may be missing. -/
theorem issued_of_corresponds (hrows : PlainRows rows) (hobs : (Value.json obs).Readable)
    (hdata : (field obs "data").Readable) (hentry : sensorEntry obs map = .ok (entryOf rows))
    (h : Corresponds obs map rows) :
    issued obs (entryOf rows) (rows.map Row.key) = firstKeys Row.feature rows := by
  obtain ⟨inserts, objects, parts, hconnect, hobjects, hlength, -⟩ := h
  have hmapped := entryOf_mapped hrows hentry
  rw [hmapped.onConnect_client hobs hdata] at hconnect
  rw [hmapped.formatObs_eq hobs hdata] at hobjects
  obtain rfl := Except.ok.inj hobjects
  have heffects := congrArg List.length hconnect
  simp only [List.length_flatMap, List.length_cons, List.length_nil, List.map_const',
    List.sum_replicate_nat] at heffects
  rw [List.length_map, entryOf_firstKeys hrows] at hlength
  have hprefix : issued obs (entryOf rows) (rows.map Row.key) <+: firstKeys Row.feature rows := by
    rw [issued, entryOf_firstKeys hrows]
    exact List.takeWhile_prefix _
  exact hprefix.eq_of_length (by omega)

end

/-- For an entry of plain names, the statements agree with the objects exactly when every
header value and every reading that is mapped can be converted to text. Then the
callback returns, and otherwise it throws. That the keys of `obs.data` can be listed is
what `invalid_keys` has found out before. -/
theorem inserts_agree_iff {obs : Json} {map : SensorMap} {rows : List Row}
    {dataKeys : List String} (hrows : PlainRows rows)
    (hentry : sensorEntry obs map = .ok (entryOf rows))
    (hdata : (prop obs "data" >>= Value.objectKeys) = .ok dataKeys) :
    (Corresponds obs map rows ↔
      rows = [] ∨ headerPrints obs = true ∧ ∀ r ∈ rows, readingPrints obs r.key = true) ∧
    ((onConnect none obs map false).2 = .ok () ↔
      rows = [] ∨ headerPrints obs = true ∧ ∀ r ∈ rows, readingPrints obs r.key = true) := by
  obtain ⟨hobs, hread⟩ := readable_of_dataKeys hdata
  have hall : (firstKeys (featureOf (entryOf rows)) (rows.map Row.key)).all
      (prints obs (entryOf rows) (rows.map Row.key)) = true ↔
        rows = [] ∨ headerPrints obs = true ∧ ∀ r ∈ rows, readingPrints obs r.key = true := by
    rw [all_prints_iff, List.forall_mem_map, List.map_eq_nil_iff]
  refine ⟨?_, ?_⟩
  · rw [← hall, ← issued_eq_iff, entryOf_firstKeys hrows]
    exact ⟨issued_of_corresponds hrows hobs hread hentry,
      corresponds_of_issued hrows hobs hread hentry⟩
  · rw [← hall, (entryOf_mapped hrows hentry).onConnect_client hobs hread]
    split <;> simp_all

/-- Two features whose keys interleave, and a key that is not reported. -/
def weatherRows : List Row :=
  [⟨"Temp", "Temperature", "outside"⟩, ⟨"rh", "humidity", "relative"⟩,
    ⟨"Chip", "Temperature", "inside"⟩]

def weatherMap : SensorMap :=
  Object.empty.assign "BMP340" (entryOf weatherRows)

def weatherObs : Json :=
  .obj [("node_id", .str "00A"), ("node_config", .str "011ab78"),
    ("datetime", .str "2016-08-05T00:00:08.246000"), ("sensor", .str "BMP340"),
    ("data", .obj [("rh", .num (.ofNat 27)), ("Temp", .num (.ofNat 37))])]

theorem weatherRows_plain : PlainRows weatherRows := ⟨by decide, by decide⟩

theorem inserts_agree_weather :
    sensorEntry weatherObs weatherMap = .ok (entryOf weatherRows) ∧
      Corresponds weatherObs weatherMap weatherRows := by
  have hentry : sensorEntry weatherObs weatherMap = .ok (entryOf weatherRows) := rfl
  have hdata : (prop weatherObs "data" >>= Value.objectKeys) = .ok ["rh", "Temp"] := rfl
  refine ⟨hentry, (inserts_agree_iff weatherRows_plain hentry hdata).1.mpr (.inr ⟨rfl, ?_⟩)⟩
  decide

def tmp112Rows : List Row := [⟨"Temperature", "temperature", "temperature"⟩]

theorem tmp112Rows_plain : PlainRows tmp112Rows := ⟨by decide, by decide⟩

/-- A node reports one reading of its sensor TMP112. -/
def nodeObs (nodeId : String) (reading : Json) : Json :=
  .obj [("node_id", .str nodeId), ("node_config", .str "011ab78"),
    ("datetime", .str "2016-08-05T00:00:08.246000"), ("sensor", .str "TMP112"),
    ("data", .obj [("Temperature", reading)])]

/-- A reading that hides `toString` is emitted, and never stored. -/
theorem inserts_disagree_toString :
    let obs := nodeObs "00A" (.obj [("toString", .num (.ofNat 1))])
    needsPull obs tmp112Map = .ok false ∧ sensorEntry obs tmp112Map = .ok (entryOf tmp112Rows) ∧
      ¬ Corresponds obs tmp112Map tmp112Rows := by
  intro obs
  have hentry : sensorEntry obs tmp112Map = .ok (entryOf tmp112Rows) := rfl
  have hdata : (prop obs "data" >>= Value.objectKeys) = .ok ["Temperature"] := rfl
  refine ⟨rfl, hentry, ?_⟩
  intro hagree
  rcases (inserts_agree_iff tmp112Rows_plain hentry hdata).1.mp hagree with hnil | ⟨-, hreadings⟩
  · cases hnil
  · exact Bool.noConfusion (hreadings _ List.mem_cons_self)

end PlenarioStream.Consumer

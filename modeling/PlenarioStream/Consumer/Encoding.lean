import PlenarioStream.Consumer.Agreement
import PlenarioStream.Foundation.Lists
import PlenarioStream.Foundation.Sql

/-!
The texts of `redshift_insert`, read as SQL. The header values, and on the misfit path
the JSON text of the data, stand between quotes that nothing escapes, and the readings
of the normal path stand there without any. The texts say what was meant exactly when
no quoted text holds a quote, no reading is a string, and the metadata has names that
need no quotes.
-/
namespace PlenarioStream.Consumer
open Js Lists Grouping

/-- The SQL literal of a value; functions, lists, objects and infinities have none. -/
def literalOf : Value → Option Sql.Literal
  | .json .null => some .null
  | .json (.bool b) => some (.bool b)
  | .json (.num n) => some (.number n.digits)
  | .json (.str s) => some (.text s.toList)
  | _ => none

/-- A finite number, a boolean or null. -/
def isScalar : Value → Bool
  | .json .null | .json (.bool _) | .json (.num _) => true
  | _ => false

/-- The statement of the misfit path is one INSERT of the five texts. -/
def MisfitEncoded (obs : Json) (map : SensorMap) : Prop :=
  ∃ text, onConnect none obs map true = ([.query text, .done], .ok ()) ∧
    Sql.read text.toList = some ⟨"unknownfeature".toList, [],
      (headerOf obs ++ [stringifyText (field obs "data")]).map fun s => .text s.toList⟩

/-- The statements of the normal path are one INSERT for each feature of the map entry,
of the four header texts and the literals of the readings. -/
def RowsEncoded (obs : Json) (map : SensorMap) : Prop :=
  ∃ (entry : Value) (keys : List String) (text : String → String),
    sensorEntry obs map = .ok entry ∧ entry.objectKeys = .ok keys ∧
    onConnect none obs map false =
      ((firstKeys (featureOf entry) keys).flatMap fun f => [.query (text f), .done], .ok ()) ∧
    ∀ f ∈ firstKeys (featureOf entry) keys, ∃ literals,
      (group (featureOf entry) keys f).mapM
        (fun key => literalOf ((field obs "data").read key)) = some literals ∧
      Sql.read (text f).toList = some ⟨(toLowerCase f).toList,
        (headerNames ++ (group (featureOf entry) keys f).map (propertyOf entry)).map String.toList,
        ((headerOf obs).map fun s => .text s.toList) ++ literals⟩

/-- The entry names tables and columns without quotes, and every reading is a scalar. -/
structure Encodable (obs : Json) (entry : Value) (keys : List String) : Prop where
  header : headerPrints obs = true
  quotes : ∀ s ∈ headerOf obs, '\'' ∉ s.toList
  tables : ∀ key ∈ keys, Sql.IsName (toLowerCase (featureOf entry key)).toList
  columns : ∀ key ∈ keys, Sql.IsName (propertyOf entry key).toList
  scalars : ∀ key ∈ keys, isScalar ((field obs "data").read key) = true

theorem isWord_numLit (n : NumLit) : Sql.IsWord n.digits := by
  refine ⟨n.nonempty, ?_⟩
  intro c hc
  simp [Sql.wordChar, n.numeric c hc]

theorem literal_numLit (n : NumLit) : Sql.literal (.word n.digits) = some (.number n.digits) := by
  have hall : n.digits.all numChar = true := List.all_eq_true.mpr n.numeric
  simp [Sql.literal, hall]

def pieceOf : Value → Sql.Piece
  | .json .null => .word "null".toList .null (by decide) (by decide)
  | .json (.bool true) => .word "true".toList (.bool true) (by decide) (by decide)
  | .json (.bool false) => .word "false".toList (.bool false) (by decide) (by decide)
  | .json (.num n) => .word n.digits (.number n.digits) (isWord_numLit n) (literal_numLit n)
  | v => .raw v.toText.toList

theorem pieceOf_written (v : Value) : (pieceOf v).written = v.toText.toList := by
  cases v with
  | undefined | builtin name => rfl
  | json j =>
      cases j with
      | null | infinity b | str s | arr elems | obj fields => rfl
      | bool b => cases b <;> rfl
      | num n => simp [pieceOf, Sql.Piece.written, Value.toText, Json.toText]

theorem pieceOf_intended {v : Value} {l : Sql.Literal} (h : literalOf v = some l) :
    (pieceOf v).intended = l := by
  cases v with
  | undefined | builtin name => cases h
  | json j =>
      cases j with
      | infinity b | arr elems | obj fields => cases h
      | null | num n | str s => exact Option.some.inj h
      | bool b => cases b <;> exact Option.some.inj h

theorem pieceOf_sound_iff (v : Value) : (pieceOf v).Sound ↔ isScalar v = true := by
  cases v with
  | undefined | builtin name => simp [pieceOf, Sql.Piece.Sound, isScalar]
  | json j =>
      cases j with
      | null | num n | infinity b | str s | arr elems | obj fields =>
          simp [pieceOf, Sql.Piece.Sound, isScalar]
      | bool b => cases b <;> simp [pieceOf, Sql.Piece.Sound, isScalar]

theorem valuesText_eq (p : Sql.Piece) (ps : List Sql.Piece) :
    (", ".intercalate ((p :: ps).map fun q => String.ofList q.written)).toList ++ ");".toList =
      Sql.valuesText p ps := by
  induction ps generalizing p with
  | nil => simp [Sql.valuesText]
  | cons q ps ih =>
      rw [Sql.valuesText, ← ih q, List.map_cons, List.map_cons, String.intercalate_cons_cons]
      simp

theorem columnsText_eq (n : String) (ns : List String) :
    (", ".intercalate (n :: ns)).toList ++ ")".toList =
      Sql.columnsText n.toList (ns.map String.toList) := by
  induction ns generalizing n with
  | nil => simp [Sql.columnsText]
  | cons m ns ih =>
      rw [List.map_cons, Sql.columnsText, ← ih m, String.intercalate_cons_cons]
      simp

theorem quote_eq (s : String) : quote s = String.ofList (Sql.Piece.quoted s.toList).written := by
  apply String.toList_inj.mp
  simp [quote, Sql.Piece.written]

theorem toText_eq (v : Value) : v.toText = String.ofList (pieceOf v).written := by
  rw [pieceOf_written, String.ofList_toList]

theorem format_misfit (a b c d e : String) :
    format ("INSERT INTO unknownfeature " ++ "VALUES ('%s', '%s', '%s', '%s', '%s');") [a, b, c, d, e] =
      "INSERT INTO unknownfeature VALUES (" ++
        ", ".intercalate ([a, b, c, d, e].map quote) ++ ");" := by
  have hparts : "INSERT INTO unknownfeature " ++ "VALUES ('%s', '%s', '%s', '%s', '%s');" =
      "INSERT INTO unknownfeature VALUES ('" ++ ("%s" ++ ("', '" ++ ("%s" ++ ("', '" ++ ("%s" ++
        ("', '" ++ ("%s" ++ ("', '" ++ ("%s" ++ ("');" ++ "")))))))))) := by simp
  rw [hparts, format_plain_append _ _ (by decide), format_directive_append,
    format_plain_append _ _ (by decide), format_directive_append,
    format_plain_append _ _ (by decide), format_directive_append,
    format_plain_append _ _ (by decide), format_directive_append,
    format_plain_append _ _ (by decide), format_directive_append,
    format_plain_append _ _ (by decide), format_nil]
  apply String.toList_inj.mp
  simp [quote, String.intercalate_cons_cons]

/-- The pieces that a statement is made of: quoted texts, then values as they are. -/
def piecesOf (texts : List String) (values : List Value) : List Sql.Piece :=
  (texts.map fun s => .quoted s.toList) ++ values.map pieceOf

theorem piecesOf_cons (s : String) (ss : List String) (values : List Value) :
    piecesOf (s :: ss) values = .quoted s.toList :: piecesOf ss values := rfl

theorem piecesOf_string (texts : List String) (values : List Value) :
    (piecesOf texts values).map (fun q => String.ofList q.written) =
      texts.map quote ++ values.map Value.toText := by
  rw [piecesOf, List.map_append, List.map_map, List.map_map]
  congr 1
  · exact List.map_congr_left fun s _ => (quote_eq s).symm
  · exact List.map_congr_left fun v _ => (toText_eq v).symm

theorem piecesOf_intended {values : List Value} {literals : List Sql.Literal} (texts : List String)
    (h : values.mapM literalOf = some literals) :
    (piecesOf texts values).map Sql.Piece.intended =
      (texts.map fun s => .text s.toList) ++ literals := by
  rw [piecesOf, List.map_append, List.map_map]
  congr 1
  induction values generalizing literals with
  | nil => exact Option.some.inj h
  | cons v values ih =>
      rw [List.mapM_cons] at h
      obtain ⟨l, hl, h⟩ := Option.bind_eq_some_iff.mp h
      obtain ⟨ls, hls, h⟩ := Option.bind_eq_some_iff.mp h
      obtain rfl := Option.some.inj h
      rw [List.map_cons, List.map_cons, pieceOf_intended hl, ih hls]

theorem piecesOf_sound_iff (texts : List String) (values : List Value) :
    (∀ q ∈ piecesOf texts values, q.Sound) ↔
      (∀ s ∈ texts, '\'' ∉ s.toList) ∧ ∀ v ∈ values, isScalar v = true := by
  simp only [piecesOf, List.forall_mem_append, List.forall_mem_map, pieceOf_sound_iff]
  rfl

theorem read_misfit_iff (s : String) (ss : List String) :
    Sql.read ("INSERT INTO unknownfeature VALUES (" ++ ", ".intercalate ((s :: ss).map quote) ++
        ");").toList =
      some ⟨"unknownfeature".toList, [], (s :: ss).map fun t => .text t.toList⟩ ↔
      ∀ t ∈ s :: ss, '\'' ∉ t.toList := by
  have hnone : ([] : List Value).mapM literalOf = some [] := rfl
  have hintended := piecesOf_intended (s :: ss) hnone
  have hstrings := piecesOf_string (s :: ss) []
  have hsound := piecesOf_sound_iff (s :: ss) []
  rw [piecesOf_cons] at hintended hstrings hsound
  rw [List.append_nil] at hintended
  rw [List.map_nil, List.append_nil] at hstrings
  have htext : ("INSERT INTO unknownfeature VALUES (" ++ ", ".intercalate ((s :: ss).map quote) ++
      ");").toList = "INSERT INTO ".toList ++ "unknownfeature".toList ++ " ".toList ++
        ("VALUES (".toList ++ Sql.valuesText (.quoted s.toList) (piecesOf ss [])) := by
    rw [← valuesText_eq, hstrings]
    simp
  rw [htext, ← hintended, Sql.read_values_iff (by decide), hsound]
  simp

theorem Insert.text_toList (i : Insert) :
    i.text.toList = "INSERT INTO ".toList ++ i.table.toList ++
      " (node_id, datetime, node_config, sensor, ".toList ++ (", ".intercalate i.columns).toList ++
      ") VALUES (".toList ++ (", ".intercalate (i.header.map quote ++ i.values)).toList ++
      ");".toList := by
  delta Insert.text
  simp only [String.toList_append]

theorem columnsText_header {columns : List String} (hne : columns ≠ []) :
    Sql.columnsText "node_id".toList
        ((["datetime", "node_config", "sensor"] ++ columns).map String.toList) =
      "node_id, datetime, node_config, sensor, ".toList ++ (", ".intercalate columns).toList ++
        ")".toList := by
  have hjoin : ", ".intercalate ("node_id" :: (["datetime", "node_config", "sensor"] ++ columns)) =
      "node_id, datetime, node_config, sensor, " ++ ", ".intercalate columns := by
    cases columns with
    | nil => exact absurd rfl hne
    | cons c columns =>
        apply String.toList_inj.mp
        simp [String.intercalate_cons_cons]
  rw [← columnsText_eq, hjoin, String.toList_append]

/-- The text of a statement, as the reader of SQL takes it apart. -/
theorem Insert.text_sql {table : String} {columns : List String} (hne : columns ≠ []) (s : String)
    (ss : List String) (values : List Value) :
    (Insert.text ⟨table, columns, s :: ss, values.map Value.toText⟩).toList =
      "INSERT INTO ".toList ++ table.toList ++ " ".toList ++ ("(".toList ++
        (Sql.columnsText "node_id".toList
          ((["datetime", "node_config", "sensor"] ++ columns).map String.toList) ++
        (" ".toList ++ ("VALUES (".toList ++
          Sql.valuesText (.quoted s.toList) (piecesOf ss values))))) := by
  have hstrings := piecesOf_string (s :: ss) values
  rw [piecesOf_cons] at hstrings
  have hopen : " (node_id, datetime, node_config, sensor, ".toList =
      " ".toList ++ ("(".toList ++ "node_id, datetime, node_config, sensor, ".toList) := by decide
  have hclose : ") VALUES (".toList = ")".toList ++ (" ".toList ++ "VALUES (".toList) := by decide
  rw [← valuesText_eq, hstrings, columnsText_header hne, Insert.text_toList, hopen, hclose]
  simp only [List.append_assoc]

theorem isName_columns {columns : List String} (h : ∀ c ∈ columns, Sql.IsName c.toList) :
    ∀ m ∈ (headerNames ++ columns).map String.toList, Sql.IsName m := by
  have hheader : ∀ c ∈ headerNames, Sql.IsName c.toList := by decide
  exact List.forall_mem_map.mpr (List.forall_mem_append.mpr ⟨hheader, h⟩)

/-- The same for a statement with columns, and values behind the quoted texts. -/
theorem read_insert_iff {table : String} {columns : List String} {values : List Value}
    {literals : List Sql.Literal} (htable : Sql.IsName table.toList) (hne : columns ≠ [])
    (hcolumns : ∀ c ∈ columns, Sql.IsName c.toList) (s : String) (ss : List String)
    (hliterals : values.mapM literalOf = some literals) :
    Sql.read (Insert.text ⟨table, columns, s :: ss, values.map Value.toText⟩).toList =
      some ⟨table.toList, (headerNames ++ columns).map String.toList,
        ((s :: ss).map fun t => .text t.toList) ++ literals⟩ ↔
      (∀ t ∈ s :: ss, '\'' ∉ t.toList) ∧ ∀ v ∈ values, isScalar v = true := by
  rw [← piecesOf_intended (s :: ss) hliterals, ← piecesOf_sound_iff, piecesOf_cons,
    Insert.text_sql hne]
  exact Sql.read_columns_iff htable (isName_columns hcolumns) _ _

theorem misfit_encoded_iff {obs : Json} (hobs : (Value.json obs).Readable) (map : SensorMap) :
    MisfitEncoded obs map ↔ headerPrints obs = true ∧
      ∀ s ∈ headerOf obs ++ [stringifyText (field obs "data")], '\'' ∉ s.toList := by
  have hread := read_misfit_iff (field obs "node_id").toText [(field obs "datetime").toText,
    (field obs "node_config").toText, (field obs "sensor").toText, stringifyText (field obs "data")]
  by_cases hheader : headerPrints obs = true
  · have hconnect : onConnect none obs map true = ([.query ("INSERT INTO unknownfeature VALUES (" ++
        ", ".intercalate ((headerOf obs ++ [stringifyText (field obs "data")]).map quote) ++ ");"),
        .done], .ok ()) := by
      have htext := format_misfit (field obs "node_id").toText (field obs "datetime").toText
        (field obs "node_config").toText (field obs "sensor").toText (stringifyText (field obs "data"))
      simp only [onConnect, insertMisfit, misfitText_eq hobs, if_true, if_pos hheader]
      exact congrArg (fun text => ([PoolEffect.query text, .done], Except.ok ())) htext
    refine ⟨?_, ?_⟩
    · rintro ⟨text, htext, hencoded⟩
      rw [hconnect] at htext
      obtain ⟨heffects, -⟩ := Prod.mk.inj htext
      obtain rfl := PoolEffect.query.inj (List.cons.inj heffects).1
      exact ⟨hheader, hread.mp hencoded⟩
    · rintro ⟨-, hquotes⟩
      exact ⟨_, hconnect, hread.mpr hquotes⟩
  · refine iff_of_false ?_ fun h => hheader h.1
    rintro ⟨text, htext, -⟩
    simp only [onConnect, insertMisfit, misfitText_eq hobs, if_true, if_neg hheader] at htext
    cases htext

/-- The statements that a list of effects was made of. -/
theorem texts_of_effects {text text' : String → String} {fs : List String}
    (h : (fs.flatMap fun f => [PoolEffect.query (text f), .done]) =
      fs.flatMap fun f => [.query (text' f), .done]) : ∀ f ∈ fs, text f = text' f := by
  induction fs with
  | nil => intro f hf; exact absurd hf List.not_mem_nil
  | cons f fs ih =>
      simp only [List.flatMap_cons, List.cons_append, List.nil_append, List.cons.injEq,
        PoolEffect.query.injEq, true_and] at h
      exact List.forall_mem_cons.mpr ⟨h.1, ih h.2⟩

theorem literalOf_of_isScalar {v : Value} (h : isScalar v = true) : ∃ l, literalOf v = some l := by
  cases v with
  | undefined | builtin name => cases h
  | json j =>
      cases j with
      | null | bool b | num n | str s => exact ⟨_, rfl⟩
      | infinity b | arr elems | obj fields => cases h

theorem literals_of_scalars {values : List Value} (h : ∀ v ∈ values, isScalar v = true) :
    ∃ literals, values.mapM literalOf = some literals := by
  induction values with
  | nil => exact ⟨[], rfl⟩
  | cons v values ih =>
      obtain ⟨hv, hvalues⟩ := List.forall_mem_cons.mp h
      obtain ⟨literals, hliterals⟩ := ih hvalues
      obtain ⟨l, hl⟩ := literalOf_of_isScalar hv
      rw [List.mapM_cons, hl, hliterals]
      exact ⟨_, rfl⟩

/-- A scalar has a text. -/
theorem printable_of_isScalar {v : Value} (h : isScalar v = true) : v.printable = true := by
  cases v with
  | undefined | builtin name => rfl
  | json j =>
      cases j with
      | null | bool b | num n | infinity b | str s => rfl
      | arr elems | obj fields => cases h

section
variable {obs : Json} {map : SensorMap} {entry : Value} {keys : List String}

/-- A reading that has a literal was found in an object. -/
theorem readable_of_literal {key : String} {l : Sql.Literal}
    (h : literalOf ((field obs "data").read key) = some l) : (field obs "data").Readable := by
  refine @Value.readable_of_read _ key ?_
  intro hundefined
  rw [hundefined] at h
  cases h

/-- The statement of a feature whose names need no quotes. -/
theorem read_feature_iff {f : String} (hf : f ∈ firstKeys (featureOf entry) keys)
    (htable : Sql.IsName (toLowerCase f).toList)
    (hcolumns : ∀ key ∈ group (featureOf entry) keys f, Sql.IsName (propertyOf entry key).toList) :
    (∃ literals,
      (group (featureOf entry) keys f).mapM
        (fun key => literalOf ((field obs "data").read key)) = some literals ∧
      Sql.read (statementOf obs entry keys f).text.toList = some ⟨(toLowerCase f).toList,
        (headerNames ++ (group (featureOf entry) keys f).map (propertyOf entry)).map String.toList,
        ((headerOf obs).map fun s => .text s.toList) ++ literals⟩) ↔
      (∀ s ∈ headerOf obs, '\'' ∉ s.toList) ∧
        ∀ key ∈ group (featureOf entry) keys f, isScalar ((field obs "data").read key) = true := by
  have hpercent : ∀ s : String, Sql.IsName s.toList → '%' ∉ s.toList := fun s hs hmem =>
    absurd ((Sql.isWord_of_isName hs).2 _ hmem) (by decide)
  obtain ⟨key, hkey, rfl⟩ := (mem_firstKeys keys f).mp hf
  have hne : (group (featureOf entry) keys (featureOf entry key)).map (propertyOf entry) ≠ [] := by
    refine List.ne_nil_of_mem (List.mem_map_of_mem (List.mem_filter.mpr ⟨hkey, ?_⟩))
    exact decide_eq_true rfl
  have hmapM : (group (featureOf entry) keys (featureOf entry key)).mapM
      (fun key => literalOf ((field obs "data").read key)) =
        ((group (featureOf entry) keys (featureOf entry key)).map (field obs "data").read).mapM
          literalOf := by
    rw [List.mapM_map]
    rfl
  have hparts : insertOf obs entry keys (featureOf entry key) =
      ⟨toLowerCase (featureOf entry key),
        (group (featureOf entry) keys (featureOf entry key)).map (propertyOf entry), headerOf obs,
        ((group (featureOf entry) keys (featureOf entry key)).map (field obs "data").read).map
          Value.toText⟩ := by
    rw [insertOf, List.map_map]
    rfl
  have hscalars : (∀ k ∈ group (featureOf entry) keys (featureOf entry key),
      isScalar ((field obs "data").read k) = true) ↔
        ∀ v ∈ (group (featureOf entry) keys (featureOf entry key)).map (field obs "data").read,
          isScalar v = true := by
    rw [List.forall_mem_map]
  rw [statementOf_text (hpercent _ htable) fun k hk => hpercent _ (hcolumns k hk), hmapM, hparts,
    hscalars]
  refine ⟨?_, ?_⟩
  · rintro ⟨literals, hliterals, hencoded⟩
    exact (read_insert_iff htable hne (List.forall_mem_map.mpr hcolumns) _ _ hliterals).mp hencoded
  · intro hsound
    obtain ⟨literals, hliterals⟩ := literals_of_scalars hsound.2
    exact ⟨literals, hliterals,
      (read_insert_iff htable hne (List.forall_mem_map.mpr hcolumns) _ _ hliterals).mpr hsound⟩

theorem encodable_of_encoded (hobs : (Value.json obs).Readable) (hne : keys ≠ [])
    (hentry : sensorEntry obs map = .ok entry) (hkeys : entry.objectKeys = .ok keys)
    {text : String → String}
    (hconnect : onConnect none obs map false =
      ((firstKeys (featureOf entry) keys).flatMap fun f => [.query (text f), .done], .ok ()))
    (hencoded : ∀ f ∈ firstKeys (featureOf entry) keys, ∃ literals,
      (group (featureOf entry) keys f).mapM
        (fun key => literalOf ((field obs "data").read key)) = some literals ∧
      Sql.read (text f).toList = some ⟨(toLowerCase f).toList,
        (headerNames ++ (group (featureOf entry) keys f).map (propertyOf entry)).map String.toList,
        ((headerOf obs).map fun s => .text s.toList) ++ literals⟩) :
    Mapped obs map entry keys ∧ Encodable obs entry keys := by
  obtain ⟨entry', keys', hmapped⟩ := Mapped.of_onConnect (congrArg Prod.snd hconnect)
  obtain rfl := Except.ok.inj (hentry.symm.trans hmapped.found)
  obtain rfl := Except.ok.inj (hkeys.symm.trans hmapped.listed)
  have hself (key : String) (hkey : key ∈ keys) :
      featureOf entry key ∈ firstKeys (featureOf entry) keys ∧
        key ∈ group (featureOf entry) keys (featureOf entry key) :=
    ⟨(mem_firstKeys keys _).mpr ⟨key, hkey, rfl⟩, List.mem_filter.mpr ⟨hkey, decide_eq_true rfl⟩⟩
  have hdata : (field obs "data").Readable := by
    obtain ⟨key, hkey⟩ := List.exists_mem_of_ne_nil keys hne
    obtain ⟨literals, hliterals, -⟩ := hencoded _ (hself key hkey).1
    obtain ⟨l, hl⟩ := exists_of_mapM_some hliterals key (hself key hkey).2
    exact readable_of_literal hl
  rw [hmapped.onConnect_client hobs hdata] at hconnect
  have hall : (firstKeys (featureOf entry) keys).all (prints obs entry keys) = true := by
    by_contra hfalse
    rw [if_neg hfalse] at hconnect
    cases (Prod.mk.inj hconnect).2
  rw [issued_eq_iff.mpr hall] at hconnect
  have htexts := texts_of_effects (Prod.mk.inj hconnect).1
  have hnames (f : String) (hf : f ∈ firstKeys (featureOf entry) keys) :
      Sql.IsName (toLowerCase f).toList ∧
        ∀ key ∈ group (featureOf entry) keys f, Sql.IsName (propertyOf entry key).toList := by
    obtain ⟨literals, -, hread⟩ := hencoded f hf
    obtain ⟨htable, hcolumns⟩ := Sql.names_of_read hread
    refine ⟨htable, fun key hkey => hcolumns _ ?_⟩
    exact List.mem_map_of_mem (List.mem_append_right _ (List.mem_map_of_mem hkey))
  have hsound (key : String) (hkey : key ∈ keys) := by
    have hread := hencoded _ (hself key hkey).1
    rw [← htexts _ (hself key hkey).1] at hread
    obtain ⟨htable, hcolumns⟩ := hnames _ (hself key hkey).1
    exact (read_feature_iff (hself key hkey).1 htable hcolumns).mp hread
  obtain ⟨key, hkey⟩ := List.exists_mem_of_ne_nil keys hne
  rcases all_prints_iff.mp hall with hnil | ⟨hheader, -⟩
  · exact absurd hnil hne
  · exact ⟨hmapped, hheader, (hsound key hkey).1, fun k hk => (hnames _ (hself k hk).1).1,
      fun k hk => (hnames _ (hself k hk).1).2 k (hself k hk).2,
      fun k hk => (hsound k hk).2 k (hself k hk).2⟩

theorem encoded_of_encodable (hobs : (Value.json obs).Readable) (hmapped : Mapped obs map entry keys)
    (hne : keys ≠ []) (h : Encodable obs entry keys) : RowsEncoded obs map := by
  obtain ⟨key, hkey⟩ := List.exists_mem_of_ne_nil keys hne
  obtain ⟨l, hl⟩ := literalOf_of_isScalar (h.scalars key hkey)
  have hall : (firstKeys (featureOf entry) keys).all (prints obs entry keys) = true :=
    all_prints_iff.mpr (.inr ⟨h.header, fun k hk => printable_of_isScalar (h.scalars k hk)⟩)
  have hconnect := hmapped.onConnect_client hobs (readable_of_literal hl)
  rw [if_pos hall, issued_eq_iff.mpr hall] at hconnect
  refine ⟨entry, keys, _, hmapped.found, hmapped.listed, hconnect, ?_⟩
  intro f hf
  obtain ⟨k, hk, rfl⟩ := (mem_firstKeys keys f).mp hf
  refine (read_feature_iff hf (h.tables k hk) fun q hq =>
    h.columns q (List.mem_of_mem_filter hq)).mpr ⟨h.quotes, ?_⟩
  exact fun q hq => h.scalars q (List.mem_of_mem_filter hq)

end

/-- The texts of both paths are faithful exactly when the header values can be converted
to text, no quoted text holds a quote, and on the normal path, unless there is nothing to
insert, the metadata has texts that name tables and columns without quotes and every
reading is a finite number, a boolean or null. -/
theorem sql_faithful_iff {obs : Json} (hobs : (Value.json obs).Readable) (map : SensorMap) :
    (MisfitEncoded obs map ↔ headerPrints obs = true ∧
      ∀ s ∈ headerOf obs ++ [stringifyText (field obs "data")], '\'' ∉ s.toList) ∧
    (RowsEncoded obs map ↔ ∃ entry keys, Mapped obs map entry keys ∧
      (keys = [] ∨ Encodable obs entry keys)) := by
  refine ⟨misfit_encoded_iff hobs map, ?_, ?_⟩
  · rintro ⟨entry, keys, text, hentry, hkeys, hconnect, hencoded⟩
    by_cases hne : keys = []
    · subst hne
      exact ⟨entry, [], ⟨hentry, hkeys, fun key hkey => absurd hkey List.not_mem_nil⟩, .inl rfl⟩
    · obtain ⟨hmapped, hencodable⟩ := encodable_of_encoded hobs hne hentry hkeys hconnect hencoded
      exact ⟨entry, keys, hmapped, .inr hencodable⟩
  · rintro ⟨entry, keys, hmapped, hkeys⟩
    by_cases hne : keys = []
    · subst hne
      refine ⟨entry, [], fun _ => "", hmapped.found, hmapped.listed, hmapped.onConnect_nil, ?_⟩
      exact fun f hf => absurd hf List.not_mem_nil
    · exact encoded_of_encodable hobs hmapped hne (hkeys.resolve_left hne)

theorem nodeObs_readable (nodeId : String) (reading : Json) :
    (Value.json (nodeObs nodeId reading)).Readable :=
  (Value.objectKeys_ok_iff _).mp ⟨_, rfl⟩

theorem sql_faithful_tmp112 :
    MisfitEncoded (nodeObs "00A" (.num (.ofNat 37))) tmp112Map ∧
      RowsEncoded (nodeObs "00A" (.num (.ofNat 37))) tmp112Map := by
  obtain ⟨hmisfit, hnormal⟩ := sql_faithful_iff (nodeObs_readable "00A" (.num (.ofNat 37))) tmp112Map
  have hheader : ∀ s ∈ headerOf (nodeObs "00A" (.num (.ofNat 37))), '\'' ∉ s.toList := by decide
  refine ⟨hmisfit.mpr ⟨rfl, ?_⟩, hnormal.mpr ⟨_, _, entryOf_mapped tmp112Rows_plain rfl, .inr ?_⟩⟩
  · exact List.forall_mem_append.mpr ⟨hheader, by decide⟩
  · exact ⟨rfl, hheader, by decide, by decide, by decide⟩

/-- A quote in the name of a node ends the literal. -/
theorem not_faithful_quote : ¬ MisfitEncoded (nodeObs "O'Hare" (.num (.ofNat 37))) tmp112Map := by
  rw [misfit_encoded_iff (nodeObs_readable _ _)]
  intro hencoded
  exact hencoded.2 "O'Hare" List.mem_cons_self (by decide)

end PlenarioStream.Consumer

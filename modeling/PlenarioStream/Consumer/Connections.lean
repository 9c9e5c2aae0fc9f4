import PlenarioStream.Consumer.Pools
import PlenarioStream.Foundation.Lists

/-!
Connections are given back and failures stay where they occur, as far as the callbacks
allow it. `redshift_insert` calls `done` once for every feature of the sensor, which is
the right number for one feature only; and every branch that handles an error goes on
to use the client or the result that the error came instead of.
-/
namespace PlenarioStream.Consumer
open Js Lists Transition Grouping

section
variable {obs : Json} {map : SensorMap}

theorem Mapped.exists_iff {entry : Value} {keys : List String} (h : Mapped obs map entry keys)
    (P : Value → List String → Prop) :
    (∃ entry keys, Mapped obs map entry keys ∧ P entry keys) ↔ P entry keys := by
  refine ⟨?_, fun hp => ⟨entry, keys, h, hp⟩⟩
  rintro ⟨entry', keys', h', hp⟩
  obtain ⟨rfl, rfl⟩ := h.unique h'
  exact hp

/-- The misfit path sends its statement, unless a header value has no text. -/
theorem onConnect_misfit (hobs : (Value.json obs).Readable) (map : SensorMap) (err : Option String) :
    ∃ text, onConnect err obs map true =
      match err with
      | none =>
          if headerPrints obs then ([.query text, .done], .ok ()) else ([], .error .typeError)
      | some e => ([.logError e], .error .typeError) := by
  obtain ⟨text, htext⟩ : ∃ text, misfitText obs =
      if headerPrints obs then .ok text else .error .typeError := ⟨_, misfitText_eq hobs⟩
  refine ⟨text, ?_⟩
  by_cases hheader : headerPrints obs = true
  · cases err <;> simp only [onConnect, insertMisfit, htext, if_pos hheader] <;> rfl
  · cases err <;> simp only [onConnect, insertMisfit, htext, if_neg hheader] <;> rfl

end

theorem countP_done_flatMap (text : String → String) (features : List String) :
    (features.flatMap fun f => [PoolEffect.query (text f), .done]).countP PoolEffect.isDone =
      features.length := by
  induction features with
  | nil => rfl
  | cons f fs ih =>
      rw [List.flatMap_cons, List.countP_append, ih, List.length_cons, Nat.add_comm]
      rfl

namespace InsertCall
variable {c : InsertCall}

/-- One statement is sent: that of the first feature of the sensor, which is the only one
or is followed by one whose statement cannot be built. -/
def OneStatement (c : InsertCall) : Prop :=
  ∃ entry keys, Mapped c.obs c.map entry keys ∧ ∃ feature rest,
    firstKeys (featureOf entry) keys = feature :: rest ∧
      prints c.obs entry keys feature = true ∧
      ∀ next ∈ rest.head?, prints c.obs entry keys next = false

theorem length_issued_eq_one_iff {obs : Json} {entry : Value} {keys : List String} :
    (issued obs entry keys).length = 1 ↔ ∃ feature rest,
      firstKeys (featureOf entry) keys = feature :: rest ∧ prints obs entry keys feature = true ∧
        ∀ next ∈ rest.head?, prints obs entry keys next = false := by
  unfold issued
  cases firstKeys (featureOf entry) keys with
  | nil => simp
  | cons feature rest =>
      cases hfirst : prints obs entry keys feature with
      | false => simp [hfirst]
      | true =>
          cases rest with
          | nil => simp [hfirst]
          | cons next rest => cases hnext : prints obs entry keys next <;> simp [hfirst, hnext]

theorem Coherent.data_readable (h : c.Coherent) (hm : c.misfit = false) :
    (field c.obs "data").Readable :=
  (readable_of_check (h.checked hm)).2

/-- What the callback does, once it is called. -/
theorem Coherent.onConnect_cases (h : c.Coherent) (err : Option String) :
    (c.misfit = true ∧ ∃ text, onConnect err c.obs c.map c.misfit =
      match err with
      | none =>
          if headerPrints c.obs then ([.query text, .done], .ok ()) else ([], .error .typeError)
      | some e => ([.logError e], .error .typeError)) ∨
    (c.misfit = false ∧ ∃ entry keys, Mapped c.obs c.map entry keys ∧
      onConnect err c.obs c.map c.misfit =
        match err with
        | none => ((issued c.obs entry keys).flatMap fun feature =>
              [.query (statementOf c.obs entry keys feature).text, .done],
            if (firstKeys (featureOf entry) keys).all (prints c.obs entry keys) then .ok ()
            else .error .typeError)
        | some e => ([.logError e], if keys = [] then .ok () else .error .typeError)) ∨
    (c.misfit = false ∧ (∀ entry keys, ¬ Mapped c.obs c.map entry keys) ∧
      ∃ e, onConnect err c.obs c.map c.misfit = ((err.map PoolEffect.logError).toList, .error e)) := by
  cases hm : c.misfit with
  | true => exact .inl ⟨rfl, onConnect_misfit h.readable c.map err⟩
  | false =>
      refine .inr ?_
      by_cases hmapped : ∃ entry keys, Mapped c.obs c.map entry keys
      · obtain ⟨entry, keys, hmapped⟩ := hmapped
        refine .inl ⟨rfl, entry, keys, hmapped, ?_⟩
        cases err with
        | none => exact hmapped.onConnect_client h.readable (h.data_readable hm)
        | some e => exact hmapped.onConnect_error h.readable (h.data_readable hm) e
      · have hnone : ∀ entry keys, ¬ Mapped c.obs c.map entry keys :=
          fun entry keys hk => hmapped ⟨entry, keys, hk⟩
        exact .inr ⟨rfl, hnone, onConnect_unmapped hnone err⟩

/-- The client is given back once, by a misfit with a header or by one statement. -/
def ReleasesOnce (c : InsertCall) : Prop :=
  (c.misfit = true ∧ headerPrints c.obs = true) ∨ (c.misfit = false ∧ c.OneStatement)

/-- With a client. -/
theorem Coherent.released_once_iff (h : c.Coherent) :
    (onConnect none c.obs c.map c.misfit).1.countP PoolEffect.isDone = 1 ↔ c.ReleasesOnce := by
  unfold ReleasesOnce
  rcases h.onConnect_cases none with ⟨hm, text, hconnect⟩ | ⟨hm, entry, keys, hmapped, hconnect⟩ |
    ⟨hm, hnone, e, hconnect⟩
  · rw [hconnect]
    by_cases hheader : headerPrints c.obs = true
    · simp [hheader, hm, PoolEffect.isDone]
    · simp [hheader, hm]
  · have hone := (hmapped.exists_iff fun entry keys => ∃ feature rest,
      firstKeys (featureOf entry) keys = feature :: rest ∧
        prints c.obs entry keys feature = true ∧
        ∀ next ∈ rest.head?, prints c.obs entry keys next = false).symm
    rw [hconnect, countP_done_flatMap, length_issued_eq_one_iff]
    simp only [hm, Bool.false_eq_true, false_and, true_and, false_or]
    exact hone
  · rw [hconnect]
    refine iff_of_false (by simp) ?_
    rintro (⟨htrue, -⟩ | ⟨-, entry, keys, hk, -⟩)
    · exact Bool.noConfusion (hm.symm.trans htrue)
    · exact hnone entry keys hk

/-- Without one. -/
theorem Coherent.not_released (h : c.Coherent) (e : String) :
    (onConnect (some e) c.obs c.map c.misfit).1 = [.logError e] := by
  rcases h.onConnect_cases (some e) with ⟨-, text, hconnect⟩ | ⟨-, entry, keys, -, hconnect⟩ |
    ⟨-, -, e', hconnect⟩
  · rw [hconnect]
  · rw [hconnect]
  · rw [hconnect]
    rfl

/-- The callback can do its work: there is a client and every value has a text, or there
is nothing to do. -/
def Works (c : InsertCall) (err : Option String) : Prop :=
  (c.misfit = true → err = none ∧ headerPrints c.obs = true) ∧
    (c.misfit = false → ∃ entry keys, Mapped c.obs c.map entry keys ∧
      (keys = [] ∨ err = none ∧ headerPrints c.obs = true ∧
        ∀ key ∈ keys, readingPrints c.obs key = true))

theorem Coherent.quiet_iff (h : c.Coherent) (err : Option String) :
    exceptionOf (onConnect err c.obs c.map c.misfit).2 = none ↔ c.Works err := by
  unfold Works
  rcases h.onConnect_cases err with ⟨hm, text, hconnect⟩ | ⟨hm, entry, keys, hmapped, hconnect⟩ |
    ⟨hm, hnone, e, hconnect⟩
  · rw [hconnect]
    cases err with
    | some e => simp [hm, exceptionOf]
    | none => by_cases hheader : headerPrints c.obs = true <;> simp [hm, hheader, exceptionOf]
  · have hworks := hmapped.exists_iff fun _ keys => keys = [] ∨ err = none ∧
      headerPrints c.obs = true ∧ ∀ key ∈ keys, readingPrints c.obs key = true
    rw [hconnect]
    simp only [hm, hworks, Bool.false_eq_true, false_imp_iff, true_and, forall_const]
    cases err with
    | none =>
        simp only [true_and, ← @all_prints_iff c.obs entry keys]
        by_cases hall : (firstKeys (featureOf entry) keys).all (prints c.obs entry keys) = true <;>
          simp [hall, exceptionOf]
    | some e => by_cases hkeys : keys = [] <;> simp [hkeys, exceptionOf]
  · rw [hconnect]
    refine iff_of_false (by simp [exceptionOf]) ?_
    intro hworks
    obtain ⟨entry, keys, hk, -⟩ := hworks.2 hm
    exact hnone entry keys hk

end InsertCall

/-- Clients obtained less calls of `done`. -/
def InsertCall.out (c : InsertCall) : Int :=
  (if c.connected = some none then 1 else 0) - c.effects.countP PoolEffect.isDone

def UpdateCall.out (c : UpdateCall) : Int :=
  (if c.connected = some none then 1 else 0) - c.released

/-- The query of the call is under way. -/
def UpdateCall.querying (c : UpdateCall) : Bool := c.connected = some none ∧ c.answered.isNone

def InsertCall.ReleasedOnce (c : InsertCall) : Prop :=
  c.connected = some none → c.effects.countP PoolEffect.isDone = 1

/-- Every client is given back once: by an insert when its callback returns, by a pull
when its query is answered. So the clients checked out are those of the queries that
`update_map` has under way. -/
structure Conserved (p : Pools) : Prop where
  inserts : ∀ c ∈ p.inserts, c.ReleasedOnce
  updates : ∀ c ∈ p.updates, c.connected = some none →
    c.released = if c.answered.isSome then 1 else 0
  redshift : (p.inserts.map InsertCall.out).sum = 0
  postgres : (p.updates.map UpdateCall.out).sum = p.updates.countP UpdateCall.querying

/-- A client that an insert obtains is for a misfit with a header, or for one statement. -/
def OneRelease (p : Pools) : PoolEvent → Prop
  | .connectInsert j none => ∀ c, p.inserts[j]? = some c → c.ReleasesOnce
  | _ => True

theorem InsertCall.Coherent.out_eq_zero {c : InsertCall} (h : c.Coherent) (hone : c.ReleasedOnce) :
    c.out = 0 := by
  unfold InsertCall.out
  cases hconnected : c.connected with
  | none => simp [h.waiting hconnected]
  | some err =>
      cases err with
      | none => simp [hone hconnected]
      | some e =>
          rw [h.acted _ hconnected, h.not_released e]
          simp [PoolEffect.isDone]

theorem UpdateCall.Coherent.out_eq {c : UpdateCall} (h : c.Coherent) :
    c.out = if c.querying then 1 else 0 := by
  unfold UpdateCall.out UpdateCall.querying
  rw [h.released]
  cases hanswered : c.answered with
  | none => simp
  | some result =>
      have hclient := h.order (by simp [hanswered])
      simp [hclient]

/-- What a pull does is always right. -/
theorem conserved_iff {p : Pools} (h : p.Coherent) :
    Conserved p ↔ ∀ c ∈ p.inserts, c.ReleasedOnce := by
  refine ⟨Conserved.inserts, ?_⟩
  intro hone
  refine ⟨hone, fun c hc _ => (h.updates c hc).released, ?_, ?_⟩
  · have hsum := sum_map_eq_countP (q := fun _ => false)
      fun c hc => (h.inserts c hc).out_eq_zero (hone c hc)
    simpa using hsum
  · exact sum_map_eq_countP fun c hc => (h.updates c hc).out_eq

section
variable {p : Pools}

theorem releasedOnce_advance (h : ∀ c ∈ p.inserts, c.ReleasedOnce) (w : World) :
    ∀ c ∈ (p.advance w).inserts, c.ReleasedOnce := by
  intro c hc
  rcases List.mem_append.mp hc with hc | hc
  · exact h c hc
  · obtain ⟨e, -, he⟩ := List.mem_filterMap.mp hc
    obtain ⟨-, -, -, -, -, rfl⟩ := insertCall?_eq_some he
    rintro ⟨⟩

/-- One step. -/
theorem releasedOnce_step_iff {p' : Pools} {e : PoolEvent} (hp : p.Coherent)
    (h : ∀ c ∈ p.inserts, c.ReleasedOnce) (hs : PoolStep p e p') :
    (∀ c ∈ p'.inserts, c.ReleasedOnce) ↔ OneRelease p e := by
  cases hs with
  | handle payload map => exact iff_of_true (releasedOnce_advance h _) trivial
  | resume => exact iff_of_true (releasedOnce_advance h _) trivial
  | refresh | connectUpdate | answerUpdate => exact iff_of_true h trivial
  | answerInsert j k err c hc =>
      have hcalled : (c.queryCallback k err).ReleasedOnce := h c (List.mem_of_getElem? hc)
      exact iff_of_true ((forall_mem_set_iff h hc).mpr hcalled) trivial
  | connectInsert j err c hc hfirst =>
      have hcoherent := hp.inserts c (List.mem_of_getElem? hc)
      have heffects : (c.connectCallback err).1.effects = (onConnect err c.obs c.map c.misfit).1 :=
        (coherent_connectInsert hcoherent hfirst err).acted err rfl
      refine (forall_mem_set_iff h hc).trans ?_
      cases err with
      | some e =>
          refine iff_of_true ?_ trivial
          rintro ⟨⟩
      | none =>
          have honce : (c.connectCallback none).1.ReleasedOnce ↔ c.ReleasesOnce := by
            rw [← hcoherent.released_once_iff, ← heffects]
            exact ⟨fun hone => hone rfl, fun hone _ => hone⟩
          exact honce.trans (forall_getElem?_iff (P := InsertCall.ReleasesOnce) hc).symm

end

/-- Over every run: connections are conserved exactly when every client that
`redshift_insert` obtains is for a misfit with a header, or for a sensor of whose
features the first, and no other, has its statement sent. -/
theorem connections_conserved_iff {tr : List (Pools × PoolEvent)} {p : Pools} (h : pools.Run tr p) :
    pools.Always (fun _ p => Conserved p) tr ↔ ∀ x ∈ tr, OneRelease x.1 x.2 := by
  refine h.always_iff (fun _ p => Conserved p) OneRelease ?_ ?_
  · exact (conserved_iff (coherent_run .nil)).mpr fun c hc => absurd hc List.not_mem_nil
  · intro tr p e p' hrun hall hs
    rw [conserved_iff (coherent_run (hrun.snoc hs))]
    exact releasedOnce_step_iff (coherent_run hrun) (hall.last hrun).inserts (poolStep_cases hs).2

def tmp112Row : SensorRow :=
  ⟨.str "TMP112", .obj [("Temperature", .str "temperature.temperature")]⟩

/-- An observation of an unknown sensor, up to the insert with the map that was pulled. -/
def pulledInsert (obs : Json) (row : SensorRow) : List PoolEvent :=
  [.handle (some obs) .empty, .connectUpdate 0 none, .answerUpdate 0 (.ok [row]), .resume 0,
    .connectInsert 0 none]

/-- A sensor with one feature. -/
theorem connections_conserved_tmp112 :
    ∃ tr p, pools.Run tr p ∧ tr.map Prod.snd = pulledInsert tmp112Obs tmp112Row ∧
      p.inserts.length = 1 ∧ pools.Always (fun _ p => Conserved p) tr := by
  have hrun := System.Run.nil.exec (S := pools) (pulledInsert tmp112Obs tmp112Row) rfl
  refine ⟨_, _, hrun, rfl, rfl, (connections_conserved_iff hrun).mpr ?_⟩
  intro x hx
  simp only [List.nil_append, List.mem_cons, List.not_mem_nil, or_false] at hx
  rcases hx with rfl | rfl | rfl | rfl | rfl
  · trivial
  · trivial
  · trivial
  · trivial
  · rintro c ⟨⟩
    exact .inr ⟨rfl, _, _, tmp112_mapped, "temperature", [], rfl, rfl, by simp⟩

def weatherRow : SensorRow :=
  ⟨.str "BMP340", .obj (weatherRows.map fun r => (r.key, .str r.text))⟩

theorem weather_mapped :
    Mapped weatherObs weatherMap (entryOf weatherRows) (weatherRows.map Row.key) :=
  entryOf_mapped weatherRows_plain rfl

/-- The client of an insert for two features is given back twice. -/
theorem released_twice_weather :
    ∃ tr p, pools.Run tr p ∧ tr.map Prod.snd = pulledInsert weatherObs weatherRow ∧
      p.inserts.map (fun c => c.effects.countP PoolEffect.isDone) = [2] ∧
      ¬ pools.Always (fun _ p => Conserved p) tr := by
  have hrun := System.Run.nil.exec (S := pools) (pulledInsert weatherObs weatherRow) rfl
  have htwice : (onConnect none weatherObs weatherMap false).1.countP PoolEffect.isDone = 2 := by
    have hcheck : needsPull weatherObs weatherMap = .ok false := rfl
    obtain ⟨hobs, hdata⟩ := readable_of_check hcheck
    rw [weather_mapped.onConnect_client hobs hdata, countP_done_flatMap]
    rfl
  refine ⟨_, _, hrun, rfl, congrArg (fun n => [n]) htwice, ?_⟩
  intro hall
  have honce := (hall.last hrun).inserts _ List.mem_cons_self rfl
  exact absurd (htwice.symm.trans honce) (by decide)

/-- The name of a row as a property key. -/
def SensorRow.key (row : SensorRow) : String := (Value.json row.name).toText

def SensorRow.assignment (row : SensorRow) : String × Value :=
  (row.key, .json row.observedProperties)

/-- The last row of a name. -/
def lastRow (rows : List SensorRow) (name : String) : Option Json :=
  ((rows.filter fun row => row.key = name).getLast?).map SensorRow.observedProperties

/-- The rows can be stored in an object: the names have texts, and the last row that is
named like the setter `__proto__` comes after one that removes the setter. -/
structure Storable (rows : List SensorRow) : Prop where
  names : ∀ row ∈ rows, (Value.json row.name).printable = true
  proto : ∀ before row after, rows = before ++ row :: after → row.key = "__proto__" →
    (∀ r ∈ after, r.key ≠ "__proto__") →
      ∃ r ∈ before, r.key = "__proto__" ∧ Object.frees (.json r.observedProperties) = true

theorem foldlM_addRow (rows : List SensorRow) (map : SensorMap) :
    rows.foldlM addRow map =
      if ∀ row ∈ rows, (Value.json row.name).printable = true then
        .ok (map.assignAll (rows.map SensorRow.assignment))
      else .error .typeError := by
  induction rows generalizing map with
  | nil => rfl
  | cons row rows ih =>
      rw [List.foldlM_cons]
      by_cases hname : (Value.json row.name).printable = true
      · have hstep : addRow map row = .ok (map.assign row.key (.json row.observedProperties)) :=
          bind_eq_ok.mpr ⟨_, Value.text_eq hname, rfl⟩
        rw [hstep]
        simp only [bind, Except.bind, ih, List.forall_mem_cons, hname, true_and]
        rfl
      · have hstep : addRow map row = .error .typeError := by
          rw [addRow, Value.text_eq_error (Bool.not_eq_true _ ▸ hname)]
          rfl
        rw [hstep, if_neg fun hall => hname (hall row List.mem_cons_self)]
        rfl

theorem mapOfRows_eq_ok_iff {rows : List SensorRow} {map : SensorMap} :
    mapOfRows rows = .ok map ↔ (∀ row ∈ rows, (Value.json row.name).printable = true) ∧
      Object.empty.assignAll (rows.map SensorRow.assignment) = map := by
  rw [mapOfRows, foldlM_addRow]
  by_cases hnames : ∀ row ∈ rows, (Value.json row.name).printable = true
  · rw [if_pos hnames, Except.ok.injEq, and_iff_right hnames]
  · rw [if_neg hnames]
    exact iff_of_false (by simp) fun h => hnames h.1

theorem lastRow_split {before after : List SensorRow} {row : SensorRow}
    (h : ∀ r ∈ after, r.key ≠ row.key) :
    lastRow (before ++ row :: after) row.key = some row.observedProperties := by
  have hafter : (row :: after).filter (fun r => decide (r.key = row.key)) = [row] := by
    simpa using h
  rw [lastRow, List.filter_append, hafter, List.getLast?_concat]
  rfl

theorem lastRow_eq_none {rows : List SensorRow} {name : String} (h : ∀ r ∈ rows, r.key ≠ name) :
    lastRow rows name = none := by
  have hnil : rows.filter (fun r => decide (r.key = name)) = [] := by simpa using h
  rw [lastRow, hnil]
  rfl

/-- The object is the table of the rows unless the setter keeps the last row out. -/
theorem table_iff (rows : List SensorRow) :
    (∀ name, (Object.empty.assignAll (rows.map SensorRow.assignment)).own.get? name =
        (lastRow rows name).map Value.json) ↔
      ∀ before row after, rows = before ++ row :: after → row.key = "__proto__" →
        (∀ r ∈ after, r.key ≠ "__proto__") →
          ∃ r ∈ before, r.key = "__proto__" ∧ Object.frees (.json r.observedProperties) = true := by
  have hlast : ∀ before row after, (∀ r ∈ after, r.key ≠ row.key) →
      ((Object.empty.assignAll ((before ++ row :: after).map SensorRow.assignment)).own.get? row.key =
          (lastRow (before ++ row :: after) row.key).map Value.json ↔
        (row.key = "__proto__" → ∃ r ∈ before, r.key = "__proto__" ∧
          Object.frees (.json r.observedProperties) = true)) := by
    intro before row after hafter
    have hother : ∀ e ∈ after.map SensorRow.assignment, e.1 ≠ row.key :=
      List.forall_mem_map.mpr hafter
    rw [lastRow_split hafter, List.map_append, List.map_cons, Option.map_some]
    refine (Object.own_assignAll_eq_some_iff hother).trans ?_
    simp [SensorRow.assignment]
  refine ⟨?_, ?_⟩
  · rintro htable before row after rfl hname hafter
    exact (hlast before row after (hname ▸ hafter)).mp (htable row.key) hname
  · intro hproto name
    by_cases hname : ∃ row ∈ rows, row.key = name
    · obtain ⟨before, row, after, rfl, rfl, hafter⟩ := exists_last_split _ hname
      exact (hlast before row after hafter).mpr fun h => hproto before row after rfl h (h ▸ hafter)
    · push Not at hname
      rw [lastRow_eq_none hname, Object.own_assignAll_of_not_mem _ (List.forall_mem_map.mpr hname)]
      rfl

/-- The promise of `update_map` is fulfilled with the table of the rows when there are
rows, rejected when there was an error, and pending before. -/
structure UpdateCall.Settled (c : UpdateCall) : Prop where
  fulfilled : (∃ map, c.promise = some (.ok map)) ↔
    c.connected = some none ∧ ∃ rows, c.answered = some (.ok rows)
  table : ∀ map rows, c.promise = some (.ok map) → c.answered = some (.ok rows) →
    ∀ name, map.own.get? name = (lastRow rows name).map Value.json
  rejected : (∃ reason, c.promise = some (.error reason)) ↔
    (∃ e, c.connected = some (some e)) ∨ ∃ e, c.answered = some (.error e)

structure InsertCall.ErrorsLogged (c : InsertCall) : Prop where
  connect : ∀ e, c.connected = some (some e) → .logError e ∈ c.effects
  query : ∀ k e, (k, some e) ∈ c.answers → ∃ text, (text, e) ∈ c.logged

structure Contained (p : Pools) : Prop where
  quiet : p.escaped = none
  settled : ∀ c ∈ p.updates, c.Settled
  logged : ∀ c ∈ p.inserts, c.ErrorsLogged

/-- The databases do not fail, except for an insert that has nothing to write; the rows of
an answer can be stored, and what an insert goes through can be read and has a text. -/
def NoFailure (p : Pools) : PoolEvent → Prop
  | .connectUpdate _ err => err = none
  | .answerUpdate _ result => ∃ rows, result = .ok rows ∧ Storable rows
  | .connectInsert j err => ∀ c, p.inserts[j]? = some c → c.Works err
  | _ => True

/-- The rows that the call was answered can be stored. -/
def UpdateCall.Stores (c : UpdateCall) : Prop := ∀ rows, c.answered = some (.ok rows) → Storable rows

/-- A promise whose rows are still awaited, or will never come, is settled as it should be. -/
theorem UpdateCall.Coherent.settled_of_no_rows {c : UpdateCall} (h : c.Coherent)
    (hrows : ∀ rows, c.answered ≠ some (.ok rows)) : c.Settled := by
  have hpromise := h.promise
  cases hconnected : c.connected with
  | none =>
      have hanswered := h.not_answered hconnected
      simp only [hconnected, hanswered, settlement] at hpromise
      refine ⟨?_, ?_, ?_⟩ <;> simp [hpromise, hconnected, hanswered]
  | some err =>
      cases err with
      | some e =>
          simp only [hconnected, settlement] at hpromise
          refine ⟨?_, ?_, ?_⟩ <;> simp [hpromise, hconnected]
      | none =>
          cases hanswered : c.answered with
          | none =>
              simp only [hconnected, hanswered, settlement] at hpromise
              refine ⟨?_, ?_, ?_⟩ <;> simp [hpromise, hconnected, hanswered]
          | some result =>
              cases result with
              | error e =>
                  simp only [hconnected, hanswered, settlement] at hpromise
                  refine ⟨?_, ?_, ?_⟩ <;> simp [hpromise, hconnected, hanswered]
              | ok rows => exact absurd hanswered (hrows rows)

theorem UpdateCall.Coherent.settled_iff {c : UpdateCall} (h : c.Coherent) : c.Settled ↔ c.Stores := by
  by_cases hrows : ∃ rows, c.answered = some (.ok rows)
  · obtain ⟨rows, hanswered⟩ := hrows
    have hconnected := h.order (by simp [hanswered])
    have hpromise := h.promise
    simp only [hconnected, hanswered, settlement] at hpromise
    have hstores : c.Stores ↔ Storable rows := by simp [UpdateCall.Stores, hanswered]
    rw [hstores]
    cases hmap : mapOfRows rows with
    | error e =>
        simp only [hmap] at hpromise
        refine iff_of_false ?_ ?_
        · intro hsettled
          obtain ⟨map, hfulfilled⟩ := hsettled.fulfilled.mpr ⟨hconnected, rows, hanswered⟩
          rw [hpromise] at hfulfilled
          cases hfulfilled
        · intro hstorable
          rw [mapOfRows_eq_ok_iff.mpr ⟨hstorable.names, rfl⟩] at hmap
          cases hmap
    | ok map =>
        simp only [hmap] at hpromise
        obtain ⟨hnames, rfl⟩ := mapOfRows_eq_ok_iff.mp hmap
        refine ⟨fun hsettled => ⟨hnames, ?_⟩, fun hstorable => ⟨?_, ?_, ?_⟩⟩
        · exact (table_iff rows).mp (hsettled.table _ rows hpromise hanswered)
        · simp [hpromise, hconnected, hanswered]
        · intro map' rows' hmap' hrows'
          rw [hpromise] at hmap'
          rw [hanswered] at hrows'
          obtain rfl := Except.ok.inj (Option.some.inj hmap')
          obtain rfl := Except.ok.inj (Option.some.inj hrows')
          exact (table_iff rows).mpr hstorable.proto
        · simp [hpromise, hconnected, hanswered]
  · push Not at hrows
    exact iff_of_true (h.settled_of_no_rows hrows) fun rows hanswered => absurd hanswered (hrows rows)

theorem InsertCall.Coherent.errorsLogged {c : InsertCall} (h : c.Coherent) : c.ErrorsLogged := by
  refine ⟨?_, h.heard⟩
  intro e hconnected
  rw [h.acted _ hconnected, h.not_released e]
  exact List.mem_singleton_self _

/-- What is logged is always right, and what is settled is when the rows can be stored. -/
theorem contained_iff {p : Pools} (h : p.Coherent) :
    Contained p ↔ p.escaped = none ∧ ∀ c ∈ p.updates, c.Stores := by
  refine ⟨fun hc => ⟨hc.quiet, fun c hmem => (h.updates c hmem).settled_iff.mp (hc.settled c hmem)⟩, ?_⟩
  rintro ⟨hquiet, hstores⟩
  exact ⟨hquiet, fun c hc => (h.updates c hc).settled_iff.mpr (hstores c hc),
    fun c hc => (h.inserts c hc).errorsLogged⟩

section
variable {p p' : Pools} {e : PoolEvent}

theorem stores_advance (h : ∀ c ∈ p.updates, c.Stores) (w : World) :
    ∀ c ∈ (p.advance w).updates, c.Stores := by
  intro c hc
  rcases List.mem_append.mp hc with hc | hc
  · exact h c hc
  · obtain ⟨⟨n, e⟩, -, he⟩ := List.mem_filterMap.mp hc
    unfold updateCall? at he
    split at he
    · obtain rfl := Option.some.inj he
      rintro rows ⟨⟩
    · cases he

/-- One step, from a state without an escaped exception. -/
theorem contained_step_iff (hp : p.Coherent) (hquiet : p.escaped = none)
    (hstores : ∀ c ∈ p.updates, c.Stores) (hs : PoolStep p e p') :
    (p'.escaped = none ∧ ∀ c ∈ p'.updates, c.Stores) ↔ NoFailure p e := by
  cases hs with
  | handle | resume => exact iff_of_true ⟨hquiet, stores_advance hstores _⟩ trivial
  | refresh =>
      refine iff_of_true ⟨hquiet, List.forall_mem_append.mpr ⟨hstores, ?_⟩⟩ trivial
      rw [List.forall_mem_singleton]
      rintro rows ⟨⟩
  | answerInsert => exact iff_of_true ⟨rfl, hstores⟩ trivial
  | connectUpdate j err c hc hfirst =>
      have hnone := (hp.updates c (List.mem_of_getElem? hc)).not_answered hfirst
      have hset : ∀ c' ∈ (p.putUpdate j (c.connectCallback err)).updates, c'.Stores := by
        refine forall_mem_set hstores ?_ j
        intro rows hrows
        cases err <;> simp [UpdateCall.connectCallback, UpdateCall.settle, hnone] at hrows
      refine (and_iff_left hset).trans ?_
      cases err <;> simp [Pools.putUpdate, UpdateCall.connectCallback, NoFailure, exceptionOf]
  | answerUpdate j result c hc hclient hfirst =>
      cases result with
      | error e => simp [Pools.putUpdate, UpdateCall.queryCallback, NoFailure, exceptionOf]
      | ok rows =>
          have hset := forall_mem_set_iff (P := UpdateCall.Stores)
            (y := (c.queryCallback (.ok rows)).1) hstores hc
          have hone : (c.queryCallback (.ok rows)).1.Stores ↔ Storable rows := by
            cases hmap : mapOfRows rows <;>
              simp [UpdateCall.Stores, UpdateCall.queryCallback, hmap, UpdateCall.settle]
          have hnames : exceptionOf (c.queryCallback (.ok rows)).2 = none ↔
              ∃ map, mapOfRows rows = .ok map := by
            cases hmap : mapOfRows rows <;> simp [UpdateCall.queryCallback, hmap, exceptionOf]
          refine (and_congr hnames (hset.trans hone)).trans ?_
          simp only [NoFailure, Except.ok.injEq, exists_eq_left', and_iff_right_iff_imp]
          exact fun hstorable => ⟨_, mapOfRows_eq_ok_iff.mpr ⟨hstorable.names, rfl⟩⟩
  | connectInsert j err c hc hfirst =>
      have hworks := (hp.inserts c (List.mem_of_getElem? hc)).quiet_iff err
      refine (and_iff_left hstores).trans ?_
      exact hworks.trans (forall_getElem?_iff (P := fun c => c.Works err) hc).symm

end

/-- Over every run: failures are contained exactly when there are none that a callback
has to work around, the rows of `sensor__sensors` can be stored, and the values that an
insert goes through can be read and converted to text. -/
theorem failures_contained_iff {tr : List (Pools × PoolEvent)} {p : Pools} (h : pools.Run tr p) :
    pools.Always (fun _ p => Contained p) tr ↔ ∀ x ∈ tr, NoFailure x.1 x.2 := by
  refine h.always_iff (fun _ p => Contained p) NoFailure ?_ ?_
  · exact (contained_iff (coherent_run .nil)).mpr ⟨rfl, fun c hc => absurd hc List.not_mem_nil⟩
  · intro tr p e p' hrun hall hs
    obtain ⟨hquiet, hstores⟩ := (contained_iff (coherent_run hrun)).mp (hall.last hrun)
    rw [contained_iff (coherent_run (hrun.snoc hs))]
    exact contained_step_iff (coherent_run hrun) hquiet hstores (poolStep_cases hs).2

/-- Both databases answer. -/
theorem failures_contained_tmp112 :
    ∃ tr p, pools.Run tr p ∧ tr.map Prod.snd = pulledInsert tmp112Obs tmp112Row ∧
      (∃ c ∈ p.updates, c.promise = some (.ok tmp112Map)) ∧
      pools.Always (fun _ p => Contained p) tr := by
  have hrun := System.Run.nil.exec (S := pools) (pulledInsert tmp112Obs tmp112Row) rfl
  refine ⟨_, _, hrun, rfl, ⟨_, List.mem_cons_self, rfl⟩, (failures_contained_iff hrun).mpr ?_⟩
  intro x hx
  simp only [List.nil_append, List.mem_cons, List.not_mem_nil, or_false] at hx
  rcases hx with rfl | rfl | rfl | rfl | rfl
  · trivial
  · rfl
  · refine ⟨_, rfl, by decide, ?_⟩
    intro before row after hrows hname
    have hmem : row ∈ [tmp112Row] := hrows ▸ List.mem_append_right _ List.mem_cons_self
    rw [List.mem_singleton.mp hmem] at hname
    exact absurd hname (by decide)
  · trivial
  · rintro c ⟨⟩
    refine ⟨fun _ => ⟨rfl, rfl⟩, fun _ => ⟨_, _, tmp112_mapped, .inr ⟨rfl, rfl, by decide⟩⟩⟩

/-- A pull that gets no client ends the process. -/
theorem failure_escapes_connect :
    ∃ tr p, pools.Run tr p ∧
      tr.map Prod.snd = [.handle (some tmp112Obs) .empty, .connectUpdate 0 (some "timeout")] ∧
      p.escaped = some .typeError ∧ ¬ pools.Always (fun _ p => Contained p) tr := by
  have hrun := System.Run.nil.exec (S := pools)
    [.handle (some tmp112Obs) .empty, .connectUpdate 0 (some "timeout")] rfl
  refine ⟨_, _, hrun, rfl, rfl, ?_⟩
  intro hall
  cases (hall.last hrun).quiet

end PlenarioStream.Consumer

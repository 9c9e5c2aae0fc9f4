import Mathlib.Data.List.TakeWhile
import PlenarioStream.Summary.Retention

/-!
The summarizer of `materialize-with-tests.js` beside that of `materialize.js`. It removes old
observations from the front only, and an update that lists a new type puts the whole summary
where the other one puts the list, so that the next update of this type finds nothing to push
to. The averages are missing.
-/
namespace PlenarioStream.Summary.WithTests
open Js Lists Transition
variable {V : Type} (A : Arithmetic V)

/-- The value of `observations`: a list, or a summary that holds one. -/
inductive Entry (V : Type)
  | list (observations : List (Observation V))
  | summary (observations : List (Observation V))

structure Table (V : Type) where
  version : V
  sensors : OrderedMap String (Entry V)

def makeSensorSummary (obType : String) (events : List (Event V)) : List (Observation V) :=
  events.foldl (fun observations e => observations ++ [⟨e.read A obType, e.time A⟩]) []

def makeNodeSummary (events : List (Event V)) (nodeMeta : NodeMeta V) : Table V where
  version := nodeMeta.version
  sensors := nodeMeta.observationTypes.foldl
    (fun sensors obType => sensors.set obType (.list (makeSensorSummary A obType events))) .empty

/-- The loop that removes the first element as long as it is old. On an empty list its guard
throws, as it does at a time that cannot be compared, and the exception is caught. -/
def dropOld (limit : ℚ) : List (Observation V) → List (Observation V)
  | [] => []
  | o :: rest => if A.older limit o.time then dropOld limit rest else o :: rest

/-- The loop that pushes the new observations one by one. -/
def pushNew (obType : String) (events : List (Event V)) (observations : List (Observation V)) :
    List (Observation V) :=
  (List.range events.length).foldl
    (fun observations j => observations ++ ((makeSensorSummary A obType events)[j]?).toList)
    observations

/-- The body of the loop over the types. In front of a summary the guard throws and nothing is
removed; a summary has no `push`, and the first call of it is not caught. -/
def updateSensor (clock : ℚ) (events : List (Event V)) (sensors : OrderedMap String (Entry V))
    (obType : String) : Except (OrderedMap String (Entry V)) (OrderedMap String (Entry V)) :=
  match sensors.get? obType with
  | none => .ok (sensors.set obType (.summary (makeSensorSummary A obType events)))
  | some (.list observations) =>
      .ok (sensors.set obType (.list (pushNew A obType events (dropOld A (clock - 86400) observations))))
  | some (.summary _) => if events.isEmpty then .ok sensors else .error sensors

/-- An exception leaves the table as far as it was updated. -/
def updateNodeSummary (clock : ℚ) (table : Table V) (events : List (Event V))
    (nodeMeta : NodeMeta V) : Except (Table V) (Table V) :=
  match nodeMeta.observationTypes.foldlM (updateSensor A clock events) table.sensors with
  | .ok sensors => .ok ⟨nodeMeta.version, sensors⟩
  | .error sensors => .error ⟨nodeMeta.version, sensors⟩

/-- Both tables; an exception ends the script. -/
structure Tables (V : Type) where
  tests : Table V
  table : Summary.Table V
  thrown : Bool

def tables (first : Stage V) : System (Tables V) (Stage V) where
  init := ⟨makeNodeSummary A first.events first.nodeMeta,
    Summary.makeNodeSummary A first.events first.nodeMeta, false⟩
  step s u :=
    if s.thrown then none
    else
      let table := Summary.updateNodeSummary A u.clock s.table u.events u.nodeMeta
      match updateNodeSummary A u.clock s.tests u.events u.nodeMeta with
      | .ok tests => some ⟨tests, table, false⟩
      | .error tests => some ⟨tests, table, true⟩

/-- The same observations for the same sensors, in lists. -/
structure Agree (tests : Table V) (table : Summary.Table V) : Prop where
  version : tests.version = table.version
  sensors : ∀ s, tests.sensors.get? s = (table.sensors.get? s).map fun summary =>
    Entry.list summary.observations

/-- The old observations stand in front of the others, which can all be compared; or neither
loop reaches an old one, the first from the front and the second from the end. -/
def OldFirst (limit : ℚ) (observations : List (Observation V)) : Prop :=
  (∃ old recent, observations = old ++ recent ∧ (∀ o ∈ old, A.older limit o.time = true) ∧
    ∀ o ∈ recent, A.comparable o.time = true ∧ A.older limit o.time = false) ∨
  ((∀ o, observations.head? = some o → A.older limit o.time = false) ∧
    ∀ before o after, observations = before ++ o :: after →
      (∀ x ∈ after, A.comparable x.time = true) → A.older limit o.time = false)

/-- The update lists types that the table has, with their old observations in front. -/
def Listed (s : Tables V) (u : Stage V) : Prop :=
  ∀ t ∈ u.types, ∃ summary, s.table.sensors.get? t = some summary ∧
    OldFirst A (u.clock - 86400) summary.observations

section
variable {A}

theorem makeSensorSummary_eq (obType : String) (events : List (Event V)) :
    makeSensorSummary A obType events = events.map (sample A obType) := by
  have hfold : ∀ (events : List (Event V)) (observations : List (Observation V)),
      events.foldl (fun observations e => observations ++ [⟨e.read A obType, e.time A⟩]) observations =
        observations ++ events.map (sample A obType) := by
    intro events
    induction events with
    | nil => intro observations; simp
    | cons e events ih =>
        intro observations
        rw [List.foldl_cons, ih]
        simp [sample]
  exact (hfold events []).trans (List.nil_append _)

theorem pushNew_eq (obType : String) (events : List (Event V)) (observations : List (Observation V)) :
    pushNew A obType events observations = observations ++ events.map (sample A obType) := by
  have hsame : pushNew A obType events observations = Summary.pushNew A obType events observations := by
    simp only [pushNew, Summary.pushNew, makeSensorSummary_eq, Summary.makeSensorSummary_eq]
  rw [hsame, Summary.pushNew_eq]

theorem dropOld_eq (limit : ℚ) (observations : List (Observation V)) :
    dropOld A limit observations = observations.dropWhile fun o => A.older limit o.time := by
  induction observations with
  | nil => rfl
  | cons o rest ih =>
      rw [dropOld, List.dropWhile_cons, ih]

theorem comparable_of_older {limit : ℚ} {v : V} (h : A.older limit v = true) :
    A.comparable v = true := by
  by_contra hno
  exact not_numeric_of_not_comparable (Bool.not_eq_true _ ▸ hno) (numeric_of_older h)

/-- Behind old observations nothing that cannot be compared follows, if the loops agree. -/
theorem comparable_of_dropOld {limit : ℚ} {o : Observation V} {observations : List (Observation V)}
    (h : dropOld A limit (o :: observations) = window A Observation.time limit (o :: observations))
    (ho : A.older limit o.time = true) : ∀ x ∈ observations, A.comparable x.time = true := by
  intro x hx
  by_contra hno
  obtain ⟨before, after, rfl⟩ := List.append_of_mem hx
  rw [← List.cons_append, window_append_cons (Bool.not_eq_true _ ▸ hno), dropOld_eq] at h
  have hhead := List.head?_dropWhile_not (fun o : Observation V => A.older limit o.time)
    (o :: before ++ x :: after)
  rw [h, List.cons_append, List.head?_cons] at hhead
  exact Bool.false_ne_true (hhead.symm.trans ho)

theorem dropOld_eq_window_iff (limit : ℚ) (observations : List (Observation V)) :
    dropOld A limit observations = window A Observation.time limit observations ↔
      OldFirst A limit observations := by
  rw [OldFirst, ← window_eq_self_iff]
  refine ⟨?_, ?_⟩
  · intro h
    cases observations with
    | nil => exact .inr ⟨by simp, rfl⟩
    | cons o rest =>
        by_cases ho : A.older limit o.time = true
        · have hrest := comparable_of_dropOld h ho
          refine .inl ⟨(o :: rest).takeWhile fun o => A.older limit o.time,
            (o :: rest).dropWhile fun o => A.older limit o.time,
            List.takeWhile_append_dropWhile.symm, ?_, ?_⟩
          · intro x hx
            exact List.mem_takeWhile_imp (p := fun o : Observation V => A.older limit o.time) hx
          · have hall : ∀ x ∈ o :: rest, A.comparable x.time = true := by
              intro x hx
              rcases List.mem_cons.mp hx with rfl | hx
              · exact comparable_of_older ho
              · exact hrest x hx
            intro x hx
            rw [← dropOld_eq, h, window_of_comparable hall] at hx
            obtain ⟨hx, hrecent⟩ := List.mem_filter.mp hx
            exact ⟨hall x hx, by simpa using hrecent⟩
        · refine .inr ⟨?_, ?_⟩
          · intro x hx
            obtain rfl := Option.some.inj hx
            exact Bool.not_eq_true _ ▸ ho
          · rw [← h, dropOld_eq, List.dropWhile_cons, if_neg ho]
  · rintro (⟨old, recent, rfl, hold, hrecent⟩ | ⟨hhead, hself⟩)
    · have hall : ∀ o ∈ old ++ recent, A.comparable o.time = true := by
        intro o ho
        rcases List.mem_append.mp ho with ho | ho
        · exact comparable_of_older (hold o ho)
        · exact (hrecent o ho).1
      have hnone : old.filter (fun o => !A.older limit o.time) = [] := by
        rw [List.filter_eq_nil_iff]
        intro o ho
        simp [hold o ho]
      have hkeep : recent.filter (fun o => !A.older limit o.time) = recent := by
        rw [List.filter_eq_self]
        intro o ho
        simp [(hrecent o ho).2]
      rw [dropOld_eq, List.dropWhile_append_of_pos hold, window_of_comparable hall,
        List.filter_append, hnone, hkeep, List.nil_append]
      refine dropWhile_of_head ?_
      intro o ho
      exact (hrecent o (List.mem_of_head? ho)).2
    · rw [dropOld_eq, hself]
      exact dropWhile_of_head hhead

/-- What an update that is not thrown out of makes of one sensor. -/
def nextEntry (A : Arithmetic V) (clock : ℚ) (events : List (Event V)) (obType : String) :
    Option (Entry V) → Entry V
  | none => .summary (events.map (sample A obType))
  | some (.list observations) =>
      .list (dropOld A (clock - 86400) observations ++ events.map (sample A obType))
  | some (.summary observations) => .summary observations

/-- The update has something to push to a sensor that holds a summary. -/
def Pushes (events : List (Event V)) (types : List String) (sensors : OrderedMap String (Entry V)) :
    Prop :=
  events ≠ [] ∧ ∃ t ∈ types, ∃ observations, sensors.get? t = some (.summary observations)

theorem updateSensor_error {clock : ℚ} {events : List (Event V)}
    {sensors : OrderedMap String (Entry V)} {t : String} {observations : List (Observation V)}
    (h : sensors.get? t = some (.summary observations)) (hevents : events ≠ []) :
    updateSensor A clock events sensors t = .error sensors := by
  have hnonempty : events.isEmpty = false := List.isEmpty_eq_false_iff.mpr hevents
  simp [updateSensor, h, hnonempty]

theorem updateSensor_ok (clock : ℚ) {events : List (Event V)} {sensors : OrderedMap String (Entry V)}
    {t : String} (h : ¬ Pushes events [t] sensors) :
    ∃ sensors', updateSensor A clock events sensors t = .ok sensors' ∧
      ∀ k, sensors'.get? k =
        if k = t then some (nextEntry A clock events t (sensors.get? t)) else sensors.get? k := by
  cases hget : sensors.get? t with
  | none =>
      have hstep : updateSensor A clock events sensors t =
          .ok (sensors.set t (.summary (makeSensorSummary A t events))) := by
        simp only [updateSensor, hget]
      refine ⟨_, hstep, ?_⟩
      intro k
      rw [OrderedMap.get?_set, nextEntry, makeSensorSummary_eq]
  | some entry =>
      cases entry with
      | list observations =>
          have hstep : updateSensor A clock events sensors t = .ok (sensors.set t
              (.list (pushNew A t events (dropOld A (clock - 86400) observations)))) := by
            simp only [updateSensor, hget]
          refine ⟨_, hstep, ?_⟩
          intro k
          rw [OrderedMap.get?_set, nextEntry, pushNew_eq]
      | summary observations =>
          have hevents : events = [] := by
            by_contra hne
            exact h ⟨hne, t, List.mem_singleton_self t, observations, hget⟩
          refine ⟨sensors, by simp [updateSensor, hget, hevents], ?_⟩
          intro k
          by_cases hk : k = t
          · rw [if_pos hk, nextEntry, hk, hget]
          · rw [if_neg hk]

theorem update_ok (clock : ℚ) {events : List (Event V)} {types : List String} (hnodup : types.Nodup)
    {sensors : OrderedMap String (Entry V)} (h : ¬ Pushes events types sensors) :
    ∃ sensors', types.foldlM (updateSensor A clock events) sensors = .ok sensors' ∧
      ∀ k, sensors'.get? k =
        if k ∈ types then some (nextEntry A clock events k (sensors.get? k)) else sensors.get? k := by
  induction types generalizing sensors with
  | nil => exact ⟨sensors, rfl, fun k => by simp⟩
  | cons t types ih =>
      obtain ⟨hfresh, hnodup⟩ := List.nodup_cons.mp hnodup
      have hone : ¬ Pushes events [t] sensors := by
        rintro ⟨hevents, u, hu, hget⟩
        exact h ⟨hevents, u, List.mem_cons.mpr (.inl (List.mem_singleton.mp hu)), hget⟩
      obtain ⟨middle, hmiddle, hget⟩ := updateSensor_ok clock hone
      have hrest : ¬ Pushes events types middle := by
        rintro ⟨hevents, u, hu, observations, hobs⟩
        rw [hget, if_neg (by rintro rfl; exact hfresh hu)] at hobs
        exact h ⟨hevents, u, List.mem_cons_of_mem _ hu, observations, hobs⟩
      obtain ⟨sensors', hfold, hsensors⟩ := ih hnodup hrest
      refine ⟨sensors', ?_, ?_⟩
      · rw [List.foldlM_cons, hmiddle]
        exact hfold
      · intro k
        rw [hsensors, hget]
        by_cases hk : k = t
        · subst hk
          simp [hfresh]
        · simp [hk]

theorem update_error (clock : ℚ) {events : List (Event V)} {types : List String}
    {sensors : OrderedMap String (Entry V)} (h : Pushes events types sensors) :
    ∃ sensors', types.foldlM (updateSensor A clock events) sensors = .error sensors' := by
  obtain ⟨hevents, u, hu, observations, hget⟩ := h
  induction types generalizing sensors with
  | nil => exact absurd hu List.not_mem_nil
  | cons t types ih =>
      rw [List.foldlM_cons]
      by_cases hone : Pushes events [t] sensors
      · obtain ⟨-, s, hs, l, hl⟩ := hone
        rw [List.mem_singleton.mp hs] at hl
        rw [updateSensor_error hl hevents]
        exact ⟨sensors, rfl⟩
      · obtain ⟨middle, hmiddle, hkeep⟩ := updateSensor_ok (A := A) clock hone
        have hne : u ≠ t := by
          rintro rfl
          exact hone ⟨hevents, u, List.mem_singleton_self u, observations, hget⟩
        rw [hmiddle]
        refine ih ((List.mem_cons.mp hu).resolve_left hne) ?_
        rw [hkeep, if_neg hne, hget]

/-- What a step does, for metadata without repetition. -/
theorem tables_step {first : Stage V} {s s' : Tables V} {u : Stage V} (hnodup : u.types.Nodup)
    (hs : (tables A first).step s u = some s') :
    s.thrown = false ∧
      s'.table = Summary.updateNodeSummary A u.clock s.table u.events u.nodeMeta ∧
      s'.tests.version = u.nodeMeta.version ∧
      (s'.thrown = true ↔ Pushes u.events u.types s.tests.sensors) ∧
      (s'.thrown = false → ∀ k, s'.tests.sensors.get? k =
        if k ∈ u.types then some (nextEntry A u.clock u.events k (s.tests.sensors.get? k))
        else s.tests.sensors.get? k) := by
  obtain ⟨hthrown, hs⟩ := Option.ite_none_left_eq_some.mp hs
  refine ⟨Bool.not_eq_true _ ▸ hthrown, ?_⟩
  by_cases hpushes : Pushes u.events u.types s.tests.sensors
  · obtain ⟨sensors, hfold⟩ := update_error (A := A) u.clock hpushes
    have hupdate : updateNodeSummary A u.clock s.tests u.events u.nodeMeta =
        .error ⟨u.nodeMeta.version, sensors⟩ := by
      rw [Stage.types] at hfold
      rw [updateNodeSummary, hfold]
    rw [hupdate] at hs
    obtain rfl := Option.some.inj hs
    exact ⟨rfl, rfl, by simp [hpushes], Bool.noConfusion⟩
  · obtain ⟨sensors, hfold, hsensors⟩ := update_ok (A := A) u.clock hnodup hpushes
    have hupdate : updateNodeSummary A u.clock s.tests u.events u.nodeMeta =
        .ok ⟨u.nodeMeta.version, sensors⟩ := by
      rw [Stage.types] at hfold
      rw [updateNodeSummary, hfold]
    rw [hupdate] at hs
    obtain rfl := Option.some.inj hs
    exact ⟨rfl, rfl, by simp [hpushes], fun _ => hsensors⟩

theorem makeNodeSummary_get? (events : List (Event V)) (nodeMeta : NodeMeta V) (s : String) :
    (makeNodeSummary A events nodeMeta).sensors.get? s =
      if s ∈ nodeMeta.observationTypes then some (.list (makeSensorSummary A s events)) else none :=
  OrderedMap.get?_foldl_update_twice
    (g := fun obType _ => Entry.list (makeSensorSummary A obType events))
    (fun sensors obType k => OrderedMap.get?_set sensors obType k _) (fun _ _ => rfl) _ _ s

theorem agree_init (first : Stage V) :
    Agree (makeNodeSummary A first.events first.nodeMeta)
      (Summary.makeNodeSummary A first.events first.nodeMeta) := by
  refine ⟨rfl, ?_⟩
  intro s
  rw [makeNodeSummary_get?, Summary.makeNodeSummary_get?]
  by_cases hs : s ∈ first.nodeMeta.observationTypes
  · simp [hs, makeSensorSummary_eq, Summary.makeSensorSummary_eq]
  · simp [hs]

theorem nextEntry_eq_iff (clock : ℚ) (events : List (Event V)) (t : String)
    (old : Option (SensorSummary V)) :
    nextEntry A clock events t (old.map fun summary => .list summary.observations) =
        .list (nextSummary A clock events t old).observations ↔
      ∃ summary, old = some summary ∧ OldFirst A (clock - 86400) summary.observations := by
  cases old with
  | none => simp [nextEntry]
  | some summary =>
      rw [Option.map_some, nextEntry, nextSummary, Entry.list.injEq, List.append_left_inj,
        dropOld_eq_window_iff]
      simp

/-- After an update of tables that agree, they agree again exactly when it lists types that
are in the table with their old observations in front. -/
theorem agree_step {first : Stage V} {s s' : Tables V} {u : Stage V} (hnodup : u.types.Nodup)
    (h : Agree s.tests s.table) (hs : (tables A first).step s u = some s') :
    s'.thrown = false ∧ Agree s'.tests s'.table ↔ Listed A s u := by
  obtain ⟨-, htable, hversion, hthrown, htests⟩ := tables_step hnodup hs
  have hnone : ¬ Pushes u.events u.types s.tests.sensors := by
    rintro ⟨-, t, -, observations, hget⟩
    rw [h.sensors] at hget
    obtain ⟨summary, -, hlist⟩ := Option.map_eq_some_iff.mp hget
    cases hlist
  have halive : s'.thrown = false := by
    rw [← Bool.not_eq_true, hthrown]
    exact hnone
  have hafter := updateNodeSummary_get? A s.table hnodup
  refine ⟨?_, ?_⟩
  · intro hagree t ht
    have hsensor := hagree.2.sensors t
    rw [htests halive, if_pos ht, htable, hafter, if_pos ht, h.sensors, Option.map_some,
      Option.some.injEq] at hsensor
    exact (nextEntry_eq_iff _ _ _ _).mp hsensor
  · intro hlisted
    refine ⟨halive, ?_, ?_⟩
    · rw [hversion, htable]
      rfl
    · intro t
      rw [htests halive, htable, hafter, h.sensors]
      by_cases ht : t ∈ u.types
      · rw [if_pos ht, if_pos ht, Option.map_some, Option.some.injEq]
        exact (nextEntry_eq_iff _ _ _ _).mpr (hlisted t ht)
      · rw [if_neg ht, if_neg ht]

/-- Over every run of updates with metadata without repetition: both summarizers hold the same
observations in all tables of the run, without an exception, exactly when every update lists
only types that are in the table already, whose old observations stand in front of the others. -/
theorem tests_agree_iff {first : Stage V} {tr : List (Tables V × Stage V)} {s : Tables V}
    (h : (tables A first).Run tr s) (hmeta : ∀ x ∈ tr, x.2.types.Nodup) :
    (tables A first).Always (fun _ s => s.thrown = false ∧ Agree s.tests s.table) tr ↔
      ∀ x ∈ tr, Listed A x.1 x.2 := by
  induction h with
  | nil =>
      rw [System.Always.nil]
      exact ⟨fun _ x hx => absurd hx List.not_mem_nil, fun _ => ⟨rfl, agree_init first⟩⟩
  | @snoc tr s s' u hr hs ih =>
      have hbefore := ih fun x hx => hmeta x (List.mem_append_left _ hx)
      have hu : u.types.Nodup := hmeta (s, u) (List.mem_append_right _ (List.mem_singleton_self _))
      have hsplit : (∀ x ∈ tr ++ [(s, u)], Listed A x.1 x.2) ↔
          (∀ x ∈ tr, Listed A x.1 x.2) ∧ Listed A s u := by
        simp [or_imp, forall_and]
      rw [System.Always.snoc hr hs, hsplit, ← hbefore]
      exact and_congr_right fun hall => agree_step hu (hall.last hr).2 hs

/-- A third reading of the first sensor, when the first one has expired. -/
def thirdStage : Stage (Option ℚ) where
  clock := 100000
  events := [reading 100000 "temperature" 91]
  nodeMeta := ⟨some 2, ["temperature"]⟩

theorem tests_agree_third :
    ∃ tr s, (tables optional firstStage).Run tr s ∧ tr.map Prod.snd = [thirdStage] ∧
      (∀ x ∈ tr, x.2.types.Nodup) ∧
      (tables optional firstStage).Always (fun _ s => s.thrown = false ∧ Agree s.tests s.table) tr := by
  have hrun := System.Run.nil.exec (S := tables optional firstStage) [thirdStage] rfl
  have hmeta : ∀ x ∈ [((tables optional firstStage).init, thirdStage)], x.2.types.Nodup := by
    intro x hx
    obtain rfl := List.mem_singleton.mp hx
    decide
  refine ⟨_, _, hrun, rfl, hmeta, (tests_agree_iff hrun hmeta).mpr ?_⟩
  intro x hx t ht
  obtain rfl := List.mem_singleton.mp hx
  obtain rfl := List.mem_singleton.mp ht
  refine ⟨_, firstStage_observations,
    .inl ⟨[⟨some 77, some 1000⟩], [⟨some 85, some 90000⟩], rfl, ?_, ?_⟩⟩
  · intro o ho
    obtain rfl := List.mem_singleton.mp ho
    norm_num [thirdStage, Arithmetic.older, optional, Number.lessThan]
  · intro o ho
    obtain rfl := List.mem_singleton.mp ho
    norm_num [thirdStage, Arithmetic.older, Arithmetic.comparable, optional, Number.lessThan]

/-- Some update has events and lists a type that the first call did not list, and an update
before it did. -/
def Relisted (first : Stage V) (updates : List (Stage V)) : Prop :=
  ∃ before u after, updates = before ++ u :: after ∧ u.events ≠ [] ∧
    ∃ t ∈ u.types, t ∉ first.types ∧ ∃ v ∈ before, t ∈ v.types

theorem relisted_concat (first : Stage V) (updates : List (Stage V)) (u : Stage V) :
    Relisted first (updates ++ [u]) ↔ Relisted first updates ∨
      (u.events ≠ [] ∧ ∃ t ∈ u.types, t ∉ first.types ∧ ∃ v ∈ updates, t ∈ v.types) := by
  refine ⟨?_, ?_⟩
  · rintro ⟨before, w, after, hsplit, hw⟩
    rcases List.eq_nil_or_concat after with rfl | ⟨after, v, rfl⟩
    · obtain ⟨rfl, hlast⟩ := List.append_inj' hsplit rfl
      obtain rfl := List.singleton_inj.mp hlast
      exact .inr hw
    · rw [List.concat_eq_append, ← List.cons_append, ← List.append_assoc] at hsplit
      obtain ⟨rfl, -⟩ := List.append_inj' hsplit rfl
      exact .inl ⟨before, w, after, rfl, hw⟩
  · rintro (⟨before, w, after, rfl, hw⟩ | hu)
    · exact ⟨before, w, after ++ [u], by simp, hw⟩
    · exact ⟨updates, u, [], rfl, hu⟩

/-- The shapes of the entries tell where their types were listed first. -/
structure Shaped (first : Stage V) (updates : List (Stage V)) (sensors : OrderedMap String (Entry V)) :
    Prop where
  list : ∀ t, (∃ observations, sensors.get? t = some (.list observations)) ↔ t ∈ first.types
  summary : ∀ t, (∃ observations, sensors.get? t = some (.summary observations)) ↔
    t ∉ first.types ∧ ∃ v ∈ updates, t ∈ v.types

theorem nextEntry_shape (clock : ℚ) (events : List (Event V)) (t : String) (old : Option (Entry V)) :
    ((∃ observations, nextEntry A clock events t old = .list observations) ↔
      ∃ observations, old = some (.list observations)) ∧
    ((∃ observations, nextEntry A clock events t old = .summary observations) ↔
      ¬ ∃ observations, old = some (.list observations)) := by
  cases old with
  | none => simp [nextEntry]
  | some entry => cases entry <;> simp [nextEntry]

theorem Shaped.update {first : Stage V} {updates : List (Stage V)}
    {sensors sensors' : OrderedMap String (Entry V)} {u : Stage V}
    (h : Shaped first updates sensors)
    (hget : ∀ k, sensors'.get? k =
      if k ∈ u.types then some (nextEntry A u.clock u.events k (sensors.get? k))
      else sensors.get? k) : Shaped first (updates ++ [u]) sensors' := by
  refine ⟨?_, ?_⟩
  · intro t
    rw [hget]
    by_cases ht : t ∈ u.types
    · simp only [if_pos ht, Option.some.injEq]
      rw [(nextEntry_shape u.clock u.events t _).1, h.list]
    · simp only [if_neg ht]
      exact h.list t
  · intro t
    rw [hget]
    by_cases ht : t ∈ u.types
    · simp only [if_pos ht, Option.some.injEq]
      rw [(nextEntry_shape u.clock u.events t _).2, h.list]
      simp [ht]
    · simp only [if_neg ht]
      rw [h.summary]
      simp [ht, or_and_right, exists_or]

/-- Over every run of updates with metadata without repetition: an exception ends it exactly
when an update with events lists a type that the first call did not list and an earlier update
did. -/
theorem update_throws_iff {first : Stage V} {tr : List (Tables V × Stage V)} {s : Tables V}
    (h : (tables A first).Run tr s) (hmeta : ∀ x ∈ tr, x.2.types.Nodup) :
    s.thrown = true ↔ Relisted first (tr.map Prod.snd) := by
  suffices hboth : (s.thrown = true ↔ Relisted first (tr.map Prod.snd)) ∧
      (s.thrown = false → Shaped first (tr.map Prod.snd) s.tests.sensors) from hboth.1
  induction h with
  | nil =>
      refine ⟨?_, ?_⟩
      · simp [tables, Relisted]
      · intro _
        have hget : ∀ t, (makeNodeSummary A first.events first.nodeMeta).sensors.get? t =
            if t ∈ first.types then some (.list (makeSensorSummary A t first.events)) else none :=
          makeNodeSummary_get? first.events first.nodeMeta
        refine ⟨?_, ?_⟩
        · intro t
          change (∃ observations, (makeNodeSummary A first.events first.nodeMeta).sensors.get? t = _) ↔ _
          rw [hget]
          by_cases ht : t ∈ first.types <;> simp [ht]
        · intro t
          change (∃ observations, (makeNodeSummary A first.events first.nodeMeta).sensors.get? t = _) ↔ _
          rw [hget]
          by_cases ht : t ∈ first.types <;> simp [ht]
  | @snoc tr s s' u hr hs ih =>
      obtain ⟨hthrown, hshaped⟩ := ih fun x hx => hmeta x (List.mem_append_left _ hx)
      have hu : u.types.Nodup := hmeta (s, u) (List.mem_append_right _ (List.mem_singleton_self _))
      obtain ⟨halive, -, -, hpushes, hget⟩ := tables_step hu hs
      have hshaped := hshaped halive
      rw [halive] at hthrown
      rw [List.map_append, List.map_cons, List.map_nil]
      refine ⟨?_, ?_⟩
      · rw [hpushes, relisted_concat, ← hthrown, Pushes]
        simp only [hshaped.summary, Bool.false_eq_true, false_or]
      · intro halive'
        exact hshaped.update (hget halive')

/-- The humidity, which the second stage has added, comes again. -/
theorem update_throws_second_time :
    ∃ tr s, (tables optional firstStage).Run tr s ∧
      tr.map Prod.snd = [secondStage, secondStage] ∧ s.thrown = true := by
  have hrun := System.Run.nil.exec (S := tables optional firstStage) [secondStage, secondStage] rfl
  refine ⟨_, _, hrun, rfl, (update_throws_iff hrun ?_).mpr ?_⟩
  · intro x hx
    have hstage : x.2 ∈ [secondStage, secondStage] := List.mem_map_of_mem (f := Prod.snd) hx
    have hsame : x.2 = secondStage := by simpa using hstage
    rw [hsame]
    decide
  · exact ⟨[secondStage], secondStage, [], rfl, List.cons_ne_nil _ _, "humidity", by decide, by decide,
      secondStage, List.mem_singleton_self _, by decide⟩

end
end PlenarioStream.Summary.WithTests

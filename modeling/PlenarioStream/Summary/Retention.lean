import PlenarioStream.Foundation.Transition
import PlenarioStream.Summary.Rolling

/-!
What an update without new events leaves of a summary. The comment in
`update_node_summary` excepts that case from the removal of old observations, but the
loop below it does not: it runs for every update, and the average of what is left may
be one of nothing. Metadata may list a type more than once here.
-/
namespace PlenarioStream.Summary
open Js Transition
variable {V : Type} (A : Arithmetic V)

/-- The table of a first call, kept up to date by any further calls. -/
def summaries (first : Stage V) : System (Table V) (Stage V) where
  init := makeNodeSummary A first.events first.nodeMeta
  step table u := some (updateNodeSummary A u.clock table u.events u.nodeMeta)

def Observed (table : Table V) (s : String) : Prop :=
  ∃ summary, table.sensors.get? s = some summary ∧ summary.observations ≠ []

/-- An update without events has kept the summary of a sensor, and since there was an
observation of the sensor its average was divided by the number of some. -/
structure SummaryKept (s : String) (tr : List (Table V × Stage V)) (table : Table V) : Prop where
  kept : ∀ x u, tr.getLast? = some (x, u) → u.events = [] → s ∈ u.types → Observed x s →
    table.sensors.get? s = x.sensors.get? s
  divided : (∃ x ∈ tr, Observed x.1 s) → ∃ summary, table.sensors.get? s = some summary ∧
    summary.observations.length ≠ 0 ∧ summary.average = recalculate A summary.observations

/-- An update without events finds no observation of the sensor that is older than a day,
but for those that stand in front of one whose time cannot be compared. -/
def InWindow (s : String) (table : Table V) (u : Stage V) : Prop :=
  u.events = [] → s ∈ u.types → ∀ summary, table.sensors.get? s = some summary →
    ∀ before o after, summary.observations = before ++ o :: after →
      (∀ x ∈ after, A.comparable x.time = true) → A.older (u.clock - 86400) o.time = false

section
variable {A} {clock : ℚ} {events : List (Event V)} {s : String}

theorem nextSummary_average (obType : String) (old : Option (SensorSummary V)) :
    (nextSummary A clock events obType old).average =
      recalculate A (nextSummary A clock events obType old).observations := by
  cases old with
  | none => simp only [nextSummary, makeSensorSummary_eq]
  | some old => rfl

theorem nextSummary_ne_nil (obType : String) (old : Option (SensorSummary V)) (h : events ≠ []) :
    (nextSummary A clock events obType old).observations ≠ [] := by
  cases old with
  | none => simpa [nextSummary, makeSensorSummary_eq] using h
  | some old => simp [nextSummary, h]

/-- Without events a second update at the same clock changes nothing more. -/
theorem nextSummary_nil_twice (obType : String) (old : Option (SensorSummary V)) :
    nextSummary A clock [] obType (some (nextSummary A clock [] obType old)) =
      nextSummary A clock [] obType old := by
  cases old with
  | none => simp [nextSummary, makeSensorSummary_eq]
  | some old => simp [nextSummary, window_window]

theorem foldl_updateSensor_of_not_mem {types : List String} (h : s ∉ types)
    (sensors : OrderedMap String (SensorSummary V)) :
    (types.foldl (updateSensor A clock events) sensors).get? s = sensors.get? s := by
  induction types generalizing sensors with
  | nil => rfl
  | cons t types ih =>
      obtain ⟨hne, hnot⟩ := not_or.mp (mt List.mem_cons.mpr h)
      rw [List.foldl_cons, ih hnot, updateSensor_get?, if_neg hne]

/-- An update without events cuts the summary of a listed sensor, however often it is
listed. -/
theorem foldl_updateSensor_nil (types : List String) (sensors : OrderedMap String (SensorSummary V)) :
    (types.foldl (updateSensor A clock []) sensors).get? s =
      if s ∈ types then some (nextSummary A clock [] s (sensors.get? s)) else sensors.get? s :=
  OrderedMap.get?_foldl_update_twice
    (fun sensors obType k => updateSensor_get? A clock [] sensors obType k)
    (fun obType old => nextSummary_nil_twice obType old) types sensors s

theorem foldl_updateSensor_ne_nil {types : List String} (hs : s ∈ types) (hevents : events ≠ [])
    (sensors : OrderedMap String (SensorSummary V)) :
    ∃ summary, (types.foldl (updateSensor A clock events) sensors).get? s = some summary ∧
      summary.observations ≠ [] := by
  induction types generalizing sensors with
  | nil => exact absurd hs List.not_mem_nil
  | cons t types ih =>
      rw [List.foldl_cons]
      by_cases hmem : s ∈ types
      · exact ih hmem _
      · obtain rfl := (List.mem_cons.mp hs).resolve_right hmem
        rw [foldl_updateSensor_of_not_mem hmem, updateSensor_get?, if_pos rfl]
        exact ⟨_, rfl, nextSummary_ne_nil s _ hevents⟩

/-- Every average is that of the observations it stands with. -/
def Averaged (A : Arithmetic V) (sensors : OrderedMap String (SensorSummary V)) : Prop :=
  ∀ s summary, sensors.get? s = some summary → summary.average = recalculate A summary.observations

theorem averaged_updateSensor {sensors : OrderedMap String (SensorSummary V)}
    (h : Averaged A sensors) (obType : String) :
    Averaged A (updateSensor A clock events sensors obType) := by
  intro s summary hsummary
  rw [updateSensor_get?] at hsummary
  by_cases hs : s = obType
  · rw [if_pos hs] at hsummary
    rw [← Option.some.inj hsummary]
    exact nextSummary_average obType _
  · rw [if_neg hs] at hsummary
    exact h s summary hsummary

theorem averaged_foldl {step : OrderedMap String (SensorSummary V) → String →
      OrderedMap String (SensorSummary V)}
    (hstep : ∀ sensors obType, Averaged A sensors → Averaged A (step sensors obType))
    (types : List String) {sensors : OrderedMap String (SensorSummary V)} (h : Averaged A sensors) :
    Averaged A (types.foldl step sensors) := by
  induction types generalizing sensors with
  | nil => exact h
  | cons t types ih => exact ih (hstep sensors t h)

end

theorem averaged_run {first : Stage V} {tr : List (Table V × Stage V)} {table : Table V}
    (h : (summaries A first).Run tr table) : Averaged A table.sensors := by
  refine h.invariant (fun _ table => Averaged A table.sensors) ?_ ?_
  · refine averaged_foldl ?_ _ fun s summary hs => absurd hs (by simp)
    intro sensors obType hsensors s summary hsummary
    rw [OrderedMap.get?_set] at hsummary
    by_cases hs : s = obType
    · rw [if_pos hs] at hsummary
      rw [← Option.some.inj hsummary, makeSensorSummary_eq]
    · rw [if_neg hs] at hsummary
      exact hsensors s summary hsummary
  · intro tr table u table' _ hinv hs
    obtain rfl := Option.some.inj hs
    exact averaged_foldl (fun _ obType hsensors => averaged_updateSensor hsensors obType) _ hinv

section
variable {A} {s : String}

/-- An update without events keeps a summary exactly when nothing old in it is reached. -/
theorem kept_iff {table : Table V} {u : Stage V} (haveraged : Averaged A table.sensors)
    (hevents : u.events = []) (hs : s ∈ u.types) {summary : SensorSummary V}
    (hsummary : table.sensors.get? s = some summary) :
    (updateNodeSummary A u.clock table u.events u.nodeMeta).sensors.get? s = some summary ↔
      ∀ before o after, summary.observations = before ++ o :: after →
        (∀ x ∈ after, A.comparable x.time = true) → A.older (u.clock - 86400) o.time = false := by
  have hget : (updateNodeSummary A u.clock table u.events u.nodeMeta).sensors.get? s =
      some (nextSummary A u.clock [] s (some summary)) := by
    rw [hevents, ← hsummary]
    exact (foldl_updateSensor_nil u.types table.sensors).trans (if_pos hs)
  rw [hget, Option.some.injEq, ← window_eq_self_iff]
  refine ⟨?_, ?_⟩
  · intro hnext
    have hobs := congrArg SensorSummary.observations hnext
    simpa only [nextSummary, List.map_nil, List.append_nil] using hobs
  · intro hwindow
    simp only [nextSummary, hwindow, List.map_nil, List.append_nil]
    rw [← haveraged s summary hsummary]

/-- An update keeps a sensor observed, if it meets the condition. -/
theorem observed_update {table : Table V} {u : Stage V} (haveraged : Averaged A table.sensors)
    (hwindow : InWindow A s table u) (h : Observed table s) :
    Observed (updateNodeSummary A u.clock table u.events u.nodeMeta) s := by
  obtain ⟨summary, hsummary, hne⟩ := h
  by_cases hs : s ∈ u.types
  · by_cases hevents : u.events = []
    · exact ⟨summary, (kept_iff haveraged hevents hs hsummary).mpr
        (hwindow hevents hs summary hsummary), hne⟩
    · exact foldl_updateSensor_ne_nil hs hevents table.sensors
  · exact ⟨summary, (foldl_updateSensor_of_not_mem hs table.sensors).trans hsummary, hne⟩

end

/-- Over every run of updates: updates without events keep the summary of a sensor, and
its average is never divided by zero once it is observed, exactly when no such update
finds an old observation of it that it removes. -/
theorem summary_kept_iff {first : Stage V} {tr : List (Table V × Stage V)} {table : Table V}
    (h : (summaries A first).Run tr table) (s : String) :
    (summaries A first).Always (SummaryKept A s) tr ↔ ∀ x ∈ tr, InWindow A s x.1 x.2 := by
  refine h.always_iff (SummaryKept A s) (InWindow A s) ?_ ?_
  · refine ⟨fun x u hlast => by simp at hlast, ?_⟩
    rintro ⟨x, hx, -⟩
    exact absurd hx List.not_mem_nil
  · intro tr table u table' hrun hall hs
    have haveraged := averaged_run A hrun
    have haveraged' := averaged_run A (hrun.snoc hs)
    obtain rfl := Option.some.inj hs
    refine ⟨?_, ?_⟩
    · intro hkept hevents hmem summary hsummary before o after hsplit
      have hobserved : Observed table s := ⟨summary, hsummary, by simp [hsplit]⟩
      have hsame := hkept.kept table u List.getLast?_concat hevents hmem hobserved
      exact (kept_iff haveraged hevents hmem hsummary).mp (hsame.trans hsummary) before o after hsplit
    · intro hwindow
      refine ⟨?_, ?_⟩
      · intro x v hlast hevents hmem hobserved
        obtain ⟨rfl, rfl⟩ := Prod.mk.inj (Option.some.inj (List.getLast?_concat.symm.trans hlast))
        obtain ⟨summary, hsummary, -⟩ := hobserved
        rw [hsummary]
        exact (kept_iff haveraged hevents hmem hsummary).mpr (hwindow hevents hmem summary hsummary)
      · rintro ⟨x, hx, hobserved⟩
        have hlast : Observed table s := by
          rcases List.mem_append.mp hx with hx | hx
          · obtain ⟨summary, hsummary, hne, -⟩ := (hall.last hrun).divided ⟨x, hx, hobserved⟩
            exact ⟨summary, hsummary, fun hnil => hne (congrArg List.length hnil)⟩
          · obtain rfl := List.mem_singleton.mp hx
            exact hobserved
        obtain ⟨summary, hsummary, hne⟩ := observed_update haveraged hwindow hlast
        exact ⟨summary, hsummary, fun hzero => hne (List.length_eq_zero_iff.mp hzero),
          haveraged' s summary hsummary⟩

/-- A call without new data. -/
def idleStage (clock : ℚ) : Stage (Option ℚ) := ⟨clock, [], ⟨some 1, ["temperature"]⟩⟩

theorem firstStage_observations :
    (makeNodeSummary optional firstStage.events firstStage.nodeMeta).sensors.get? "temperature" =
      some ⟨[⟨some 77, some 1000⟩, ⟨some 85, some 90000⟩], some 81⟩ := by
  have hget := makeNodeSummary_get? optional firstStage.events firstStage.nodeMeta "temperature"
  rw [if_pos (by decide)] at hget
  have hvalue : ∀ time q : ℚ, (reading time "temperature" q).read optional "temperature" = some q := by
    intro time q
    simp [reading, Event.read]
  rw [hget, makeSensorSummary_eq]
  simp only [firstStage, sample, reading_time, hvalue, recalculate, List.map_cons, List.map_nil,
    List.foldl_cons, List.foldl_nil, List.length_cons, List.length_nil]
  norm_num [optional]

/-- An update within the day of the first observation. -/
theorem summary_kept_same_day :
    ∃ tr table, (summaries optional firstStage).Run tr table ∧
      (∃ x ∈ tr, x.2.events = [] ∧ Observed x.1 "temperature") ∧
      (summaries optional firstStage).Always (SummaryKept optional "temperature") tr := by
  have hrun := System.Run.nil.exec (S := summaries optional firstStage) [idleStage 50000] rfl
  refine ⟨_, _, hrun, ⟨_, List.mem_singleton_self _, rfl, _, firstStage_observations, by simp⟩, ?_⟩
  refine (summary_kept_iff optional hrun "temperature").mpr ?_
  intro x hx
  obtain rfl := List.mem_singleton.mp hx
  intro _ _ summary hsummary before o after hsplit _
  obtain rfl := Option.some.inj (firstStage_observations.symm.trans hsummary)
  have ho : o ∈ before ++ o :: after := by simp
  rw [← hsplit] at ho
  simp only [List.mem_cons, List.not_mem_nil, or_false] at ho
  rcases ho with rfl | rfl <;>
    norm_num [idleStage, Arithmetic.older, optional, Number.lessThan]

/-- Two days later the update removes everything, and divides by zero. -/
theorem summary_erased_next_day :
    ∃ tr table, (summaries optional firstStage).Run tr table ∧
      (∀ x ∈ tr, x.2.events = [] ∧ Observed x.1 "temperature") ∧
      table.sensors.get? "temperature" = some ⟨[], optional.div (some 0) (some 0)⟩ ∧
      ¬ (summaries optional firstStage).Always (SummaryKept optional "temperature") tr := by
  have hrun := System.Run.nil.exec (S := summaries optional firstStage) [idleStage 200000] rfl
  have hget := @foldl_updateSensor_nil _ optional 200000 "temperature" ["temperature"]
    (makeNodeSummary optional firstStage.events firstStage.nodeMeta).sensors
  rw [if_pos (by simp), firstStage_observations] at hget
  have herased : (updateNodeSummary optional 200000
      (makeNodeSummary optional firstStage.events firstStage.nodeMeta) [] ⟨some 1, ["temperature"]⟩
      ).sensors.get? "temperature" = some ⟨[], optional.div (some 0) (some 0)⟩ := by
    have hold : window optional Observation.time (200000 - 86400)
        [⟨some 77, some 1000⟩, ⟨some 85, some 90000⟩] = [] := by
      norm_num [window, List.rdropWhile, List.rtakeWhile, Arithmetic.comparable, Arithmetic.older,
        optional, Number.lessThan]
    refine hget.trans ?_
    simp only [nextSummary, hold]
    norm_num [recalculate, optional]
  refine ⟨_, _, hrun, ?_, herased, ?_⟩
  · intro x hx
    obtain rfl := List.mem_singleton.mp hx
    exact ⟨rfl, _, firstStage_observations, by simp⟩
  · intro hall
    have hkept := (hall.last hrun).kept _ _ rfl rfl (by decide)
      ⟨_, firstStage_observations, by simp⟩
    have hnil := herased.symm.trans (hkept.trans firstStage_observations)
    simp at hnil

end PlenarioStream.Summary

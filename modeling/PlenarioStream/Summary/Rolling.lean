import PlenarioStream.Foundation.Lists
import PlenarioStream.Summary.Materialize
import Mathlib.Data.List.DropRight
import Mathlib.Data.List.Induction
import Mathlib.Tactic.NormNum

/-!
A table kept up to date by `update_node_summary` is the table that
`make_sensor_summary` would build at once: for each sensor, from the events of its
updates that were inside the one day window at the last of them. An event whose time
is no number is in no window and is never removed, so this is so exactly as long as
there is none.
-/
namespace PlenarioStream.Summary
open Js Lists
variable {V : Type} (A : Arithmetic V)

namespace Arithmetic

/-- A comparison of the value does not throw. -/
def comparable (v : V) : Bool := (A.convert v).isSome

/-- `v < limit`, where it can be compared. -/
def older (limit : ℚ) (v : V) : Bool := (A.convert v).any (Number.lessThan limit)

/-- `v >= limit`, where it can be compared. -/
def atLeast (limit : ℚ) (v : V) : Bool := (A.convert v).any (Number.atLeast limit)

/-- The value is a number, or is compared as one. -/
def Numeric (v : V) : Prop := ∃ t, A.convert v = some t ∧ t ≠ .nan

end Arithmetic

section
variable {A} {limit : ℚ} {v : V}

theorem not_numeric_of_not_comparable (h : A.comparable v = false) : ¬ A.Numeric v := by
  rintro ⟨t, ht, -⟩
  simp [Arithmetic.comparable, ht] at h

theorem numeric_of_older (h : A.older limit v = true) : A.Numeric v := by
  obtain ⟨t, ht, hless⟩ := (Option.any_eq_true _ _).mp h
  refine ⟨t, ht, ?_⟩
  rintro rfl
  cases hless

theorem numeric_of_atLeast (h : A.atLeast limit v = true) : A.Numeric v := by
  obtain ⟨t, ht, hle⟩ := (Option.any_eq_true _ _).mp h
  refine ⟨t, ht, ?_⟩
  rintro rfl
  cases hle

/-- The two comparisons exclude each other, and leave out nothing that is numeric. -/
theorem atLeast_eq_not_older (h : A.Numeric v) : A.atLeast limit v = !A.older limit v := by
  obtain ⟨t, ht, hnan⟩ := h
  rw [Arithmetic.atLeast, Arithmetic.older, ht]
  cases t with
  | nan => exact absurd rfl hnan
  | negInfinity | infinity => rfl
  | finite q =>
      change decide (limit ≤ q) = !decide (q < limit)
      rw [← decide_not, decide_eq_decide, not_lt]

theorem atLeast_mono {limit' : ℚ} (hle : limit ≤ limit') (h : A.atLeast limit' v = true) :
    A.atLeast limit v = true := by
  obtain ⟨t, ht, hat⟩ := (Option.any_eq_true _ _).mp h
  refine (Option.any_eq_true _ _).mpr ⟨t, ht, ?_⟩
  cases t with
  | nan | negInfinity => cases hat
  | infinity => rfl
  | finite q => exact (Number.atLeast_finite _ _).mpr (hle.trans ((Number.atLeast_finite _ _).mp hat))

end

/-- What the loop leaves of a list: all of it up to the last time that cannot be compared,
and after that what is not old. -/
def window {α : Type} (time : α → V) (limit : ℚ) (l : List α) : List α :=
  l.rdropWhile (fun a => A.comparable (time a)) ++
    (l.rtakeWhile fun a => A.comparable (time a)).filter fun a => !A.older limit (time a)

section
variable {A} {α β : Type} {time : α → V} {limit : ℚ}

@[simp] theorem window_nil : window A time limit [] = [] := rfl

theorem window_concat (l : List α) (a : α) :
    window A time limit (l ++ [a]) =
      if A.comparable (time a) then
        window A time limit l ++ if A.older limit (time a) then [] else [a]
      else l ++ [a] := by
  rw [window, List.rdropWhile_concat, List.rtakeWhile_concat]
  by_cases h : A.comparable (time a) = true
  · rw [if_pos h, if_pos h, if_pos h, List.filter_append, ← List.append_assoc]
    by_cases hold : A.older limit (time a) = true <;> simp [window, hold]
  · rw [if_neg h, if_neg h, if_neg h]
    exact List.append_nil _

theorem window_map (f : β → α) (l : List β) :
    window A time limit (l.map f) = (window A (fun b => time (f b)) limit l).map f := by
  induction l using List.reverseRecOn with
  | nil => rfl
  | append_singleton l b ih =>
      rw [List.map_append, List.map_singleton, window_concat, window_concat, ih]
      by_cases h : A.comparable (time (f b)) = true
      · by_cases hold : A.older limit (time (f b)) = true <;> simp [h, hold]
      · simp [h]

theorem window_sublist (l : List α) : (window A time limit l).Sublist l := by
  conv_rhs => rw [← List.rdropWhile_append_rtakeWhile (p := fun a => A.comparable (time a)) (l := l)]
  exact (List.Sublist.refl _).append List.filter_sublist

theorem window_ne_concat (l : List α) (a : α) : window A time limit l ≠ l ++ [a] := by
  intro h
  have hlen : (window A time limit l).length ≤ l.length := (window_sublist l).length_le
  rw [h, List.length_append, List.length_singleton] at hlen
  omega

/-- The window holds everything that is not old. -/
theorem mem_window {l : List α} {a : α} (ha : a ∈ l) (hold : A.older limit (time a) = false) :
    a ∈ window A time limit l := by
  rw [← List.rdropWhile_append_rtakeWhile (p := fun a => A.comparable (time a)) (l := l)] at ha
  rcases List.mem_append.mp ha with ha | ha
  · exact List.mem_append_left _ ha
  · exact List.mem_append_right _ (List.mem_filter.mpr ⟨ha, by simp [hold]⟩)

theorem window_window (l : List α) :
    window A time limit (window A time limit l) = window A time limit l := by
  induction l using List.reverseRecOn with
  | nil => rfl
  | append_singleton l a ih =>
      rw [window_concat]
      by_cases h : A.comparable (time a) = true
      · by_cases hold : A.older limit (time a) = true
        · simp only [h, hold, if_true, List.append_nil, ih]
        · simp only [h, hold, if_true, Bool.false_eq_true, if_false, window_concat, ih]
      · simp only [h, Bool.false_eq_true, if_false, window_concat]

/-- A time that cannot be compared keeps everything in front of it. -/
theorem window_append_cons {a : α} (ha : A.comparable (time a) = false) (before after : List α) :
    window A time limit (before ++ a :: after) = before ++ a :: window A time limit after := by
  induction after using List.reverseRecOn with
  | nil => rw [window_concat, ha, if_neg Bool.false_ne_true, window_nil]
  | append_singleton after b ih =>
      have hsplit : before ++ a :: (after ++ [b]) = (before ++ a :: after) ++ [b] := by simp
      rw [hsplit, window_concat, window_concat, ih]
      by_cases hb : A.comparable (time b) = true
      · rw [if_pos hb, if_pos hb, List.append_assoc, List.cons_append]
      · rw [if_neg hb, if_neg hb, hsplit]

/-- Nothing is removed exactly when what is old stands in front of a time that cannot be
compared. -/
theorem window_eq_self_iff (l : List α) :
    window A time limit l = l ↔ ∀ before a after, l = before ++ a :: after →
      (∀ b ∈ after, A.comparable (time b) = true) → A.older limit (time a) = false := by
  induction l using List.reverseRecOn with
  | nil => simp
  | append_singleton l b ih =>
      rw [window_concat]
      refine ⟨?_, ?_⟩
      · intro h before a after hsplit hafter
        rcases List.eq_nil_or_concat after with rfl | ⟨after, c, rfl⟩
        · obtain ⟨rfl, hb⟩ := List.append_inj' hsplit rfl
          obtain rfl := List.singleton_inj.mp hb
          by_contra hold
          have hold : A.older limit (time b) = true := Bool.not_eq_false _ ▸ hold
          have hb : A.comparable (time b) = true := by
            by_contra hno
            exact not_numeric_of_not_comparable (Bool.not_eq_true _ ▸ hno) (numeric_of_older hold)
          rw [if_pos hb, if_pos hold, List.append_nil] at h
          exact window_ne_concat _ _ h
        · rw [List.concat_eq_append, ← List.cons_append, ← List.append_assoc] at hsplit
          obtain ⟨rfl, hb⟩ := List.append_inj' hsplit rfl
          obtain rfl := List.singleton_inj.mp hb
          rw [List.concat_eq_append] at hafter
          rw [if_pos (hafter b (by simp))] at h
          by_cases hold : A.older limit (time b) = true
          · rw [if_pos hold, List.append_nil] at h
            exact absurd h (window_ne_concat _ _)
          · rw [if_neg hold, List.append_left_inj] at h
            exact ih.mp h before a after rfl fun c hc => hafter c (List.mem_append_left _ hc)
      · intro h
        by_cases hb : A.comparable (time b) = true
        · have hold : A.older limit (time b) = false := h l b [] rfl (by simp)
          rw [if_pos hb, hold, if_neg Bool.false_ne_true, ih.mpr]
          intro before a after hsplit hafter
          refine h before a (after ++ [b]) (by simp [hsplit]) ?_
          intro c hc
          rcases List.mem_append.mp hc with hc | hc
          · exact hafter c hc
          · rwa [List.mem_singleton.mp hc]
        · rw [if_neg hb]

theorem window_of_comparable {l : List α} (h : ∀ a ∈ l, A.comparable (time a) = true) :
    window A time limit l = l.filter fun a => !A.older limit (time a) := by
  rw [window, List.rdropWhile_eq_nil_iff.mpr h, List.rtakeWhile_eq_self_iff.mpr h, List.nil_append]

/-- Of numeric times the window is what its name says. -/
theorem window_eq_filter {l : List α} (h : ∀ a ∈ l, A.Numeric (time a)) :
    window A time limit l = l.filter fun a => A.atLeast limit (time a) := by
  have hall : ∀ a ∈ l, A.comparable (time a) = true := by
    intro a ha
    by_contra hno
    exact not_numeric_of_not_comparable (Bool.not_eq_true _ ▸ hno) (h a ha)
  rw [window_of_comparable hall]
  refine List.filter_congr ?_
  intro a ha
  rw [atLeast_eq_not_older (h a ha)]

end

/-- The observation made from an event. -/
def sample (obType : String) (e : Event V) : Observation V := ⟨e.read A obType, e.time A⟩

theorem makeSensorSummary_eq (obType : String) (events : List (Event V)) :
    makeSensorSummary A obType events =
      ⟨events.map (sample A obType), recalculate A (events.map (sample A obType))⟩ := by
  have hfold : ∀ (events : List (Event V)) (acc : List (Observation V) × V),
      events.foldl (fun (acc : List (Observation V) × V) e =>
        (acc.1 ++ [⟨e.read A obType, e.time A⟩], A.add acc.2 (e.read A obType))) acc =
      (acc.1 ++ events.map (sample A obType),
        (events.map (sample A obType)).foldl (fun sum o => A.add sum o.val) acc.2) := by
    intro events
    induction events with
    | nil => intro acc; simp
    | cons e events ih =>
        intro acc
        rw [List.foldl_cons, ih]
        simp [sample]
  simp only [makeSensorSummary, hfold, recalculate, List.nil_append, List.length_map]

/-- Removing from the end leaves the indices below untouched. -/
theorem trim_of_le (limit : ℚ) {j : Nat} {observations : List (Observation V)}
    (hj : j ≤ observations.length) :
    trim A limit j observations =
      window A Observation.time limit (observations.take j) ++ observations.drop j := by
  induction j generalizing observations with
  | zero => simp [trim]
  | succ j ih =>
      have hlt : j < observations.length := hj
      have htake : observations.take (j + 1) = observations.take j ++ [observations[j]] := by
        rw [List.take_append_getElem hlt]
      rw [trim, List.getElem?_eq_getElem hlt, Option.bind_some, htake, window_concat,
        Arithmetic.comparable, Arithmetic.older]
      cases hconvert : A.convert observations[j].time with
      | none => simp
      | some t =>
          cases hold : t.lessThan limit with
          | true =>
              have hsplice := splice_natCast (Nat.le_of_lt hlt) 1
              have hlen : (observations.take j).length = j :=
                List.length_take_of_le (Nat.le_of_lt hlt)
              simp only [if_true, hsplice, Option.isSome_some, Option.any_some, hold]
              rw [ih (by rw [List.length_append, hlen]; exact Nat.le_add_right _ _),
                List.take_left' hlen, List.drop_left' hlen, List.append_nil]
          | false =>
              simp only [Bool.false_eq_true, if_false, if_true, Option.isSome_some, Option.any_some,
                hold]
              rw [ih (Nat.le_of_lt hlt), List.drop_eq_getElem_cons hlt, List.append_assoc,
                List.singleton_append]

theorem trim_eq_window (limit : ℚ) (observations : List (Observation V)) :
    trim A limit observations.length observations = window A Observation.time limit observations := by
  rw [trim_of_le A limit (Nat.le_refl _), List.take_length, List.drop_length, List.append_nil]

theorem pushNew_eq (obType : String) (events : List (Event V))
    (observations : List (Observation V)) :
    pushNew A obType events observations = observations ++ events.map (sample A obType) := by
  have hfold : ∀ (l : List (Observation V)) (n : Nat),
      (List.range n).foldl (fun acc j => acc ++ (l[j]?).toList) observations =
        observations ++ l.take n := by
    intro l n
    induction n with
    | zero => simp
    | succ n ih =>
        rw [List.range_succ, List.foldl_append, ih, List.foldl_cons, List.foldl_nil,
          List.append_assoc, ← List.take_add_one]
  rw [pushNew, makeSensorSummary_eq, hfold, List.take_of_length_le (by simp)]

/-- What an update makes of the summary of one sensor. -/
def nextSummary (clock : ℚ) (events : List (Event V)) (obType : String) :
    Option (SensorSummary V) → SensorSummary V
  | none => makeSensorSummary A obType events
  | some s =>
      let observations := window A Observation.time (clock - 86400) s.observations ++
        events.map (sample A obType)
      ⟨observations, recalculate A observations⟩

theorem updateSensor_get? (clock : ℚ) (events : List (Event V))
    (sensors : OrderedMap String (SensorSummary V)) (obType k : String) :
    (updateSensor A clock events sensors obType).get? k =
      if k = obType then some (nextSummary A clock events obType (sensors.get? obType))
      else sensors.get? k := by
  cases h : sensors.get? obType with
  | none =>
      simp only [updateSensor, h, OrderedMap.get?_set]
      rfl
  | some s =>
      simp only [updateSensor, h, OrderedMap.get?_set_self, OrderedMap.get?_set, pushNew_eq,
        trim_eq_window, nextSummary]
      by_cases hk : k = obType <;> simp [hk]

/-- An update of a summary made from some events is the summary of those that are left,
followed by the new ones. -/
theorem nextSummary_make (clock : ℚ) (old events : List (Event V)) (obType : String) :
    nextSummary A clock events obType (some (makeSensorSummary A obType old)) =
      makeSensorSummary A obType
        (window A (Event.time A) (clock - 86400) old ++ events) := by
  have hold : window A Observation.time (clock - 86400) (old.map (sample A obType)) =
      (window A (Event.time A) (clock - 86400) old).map (sample A obType) := window_map _ _
  simp only [nextSummary, makeSensorSummary_eq, hold, List.map_append]

theorem updateNodeSummary_get? (table : Table V) {u : Stage V} (h : u.types.Nodup) (s : String) :
    (updateNodeSummary A u.clock table u.events u.nodeMeta).sensors.get? s =
      if s ∈ u.types then some (nextSummary A u.clock u.events s (table.sensors.get? s))
      else table.sensors.get? s :=
  OrderedMap.get?_foldl_update
    (fun sensors obType k => updateSensor_get? A u.clock u.events sensors obType k) _ h _ s

theorem makeNodeSummary_get? (events : List (Event V)) (nodeMeta : NodeMeta V) (s : String) :
    (makeNodeSummary A events nodeMeta).sensors.get? s =
      if s ∈ nodeMeta.observationTypes then some (makeSensorSummary A s events) else none :=
  OrderedMap.get?_foldl_update_twice (g := fun obType _ => makeSensorSummary A obType events)
    (fun sensors obType k => OrderedMap.get?_set sensors obType k _) (fun _ _ => rfl) _ _ s

/-- The events that the summary of a sensor is made from, one stage further. -/
def retain (s : String) (old : Option (List (Event V))) (u : Stage V) : Option (List (Event V)) :=
  if s ∈ u.types then
    some (window A (Event.time A) (u.clock - 86400) (old.getD []) ++ u.events)
  else old

def retained (s : String) (stages : List (Stage V)) : Option (List (Event V)) :=
  stages.foldl (retain A s) none

theorem retained_concat (s : String) (stages : List (Stage V)) (u : Stage V) :
    retained A s (stages ++ [u]) = retain A s (retained A s stages) u := by
  simp [retained]

theorem rolling_concat (first : Stage V) (updates : List (Stage V)) (u : Stage V) :
    rolling A first (updates ++ [u]) =
      updateNodeSummary A u.clock (rolling A first updates) u.events u.nodeMeta := by
  simp [rolling]

/-- At every stage the table holds the summaries of the retained events. -/
theorem rolling_get? (first : Stage V) (updates : List (Stage V))
    (hupdates : ∀ u ∈ updates, u.types.Nodup) (s : String) :
    (rolling A first updates).sensors.get? s =
      (retained A s (first :: updates)).map (makeSensorSummary A s) := by
  induction updates using List.reverseRecOn with
  | nil =>
      rw [rolling, List.foldl_nil, makeNodeSummary_get?, retained, List.foldl_cons,
        List.foldl_nil, retain, Stage.types]
      by_cases h : s ∈ first.nodeMeta.observationTypes <;> simp [h]
  | append_singleton updates u ih =>
      have hbefore := ih fun v hv => hupdates v (List.mem_append_left _ hv)
      have hu : u.types.Nodup := hupdates u (by simp)
      rw [rolling_concat, updateNodeSummary_get? A _ hu, hbefore, ← List.cons_append,
        retained_concat, retain]
      by_cases h : s ∈ u.types
      · rw [if_pos h, if_pos h]
        cases retained A s (first :: updates) with
        | none => rfl
        | some old => exact congrArg some (nextSummary_make A u.clock old u.events s)
      · rw [if_neg h, if_neg h]

section
variable {first : Stage V} {updates : List (Stage V)} {s : String}

/-- All events of the stages that list a sensor. -/
def eventsOf (s : String) (stages : List (Stage V)) : List (Event V) :=
  (stages.filter fun u => s ∈ u.types).flatMap Stage.events

theorem eventsOf_concat (stages : List (Stage V)) (u : Stage V) :
    eventsOf s (stages ++ [u]) =
      if s ∈ u.types then eventsOf s stages ++ u.events else eventsOf s stages := by
  by_cases h : s ∈ u.types <;> simp [eventsOf, h]

variable {A}

theorem retained_isSome_iff (stages : List (Stage V)) :
    (retained A s stages).isSome = true ↔ ∃ u ∈ stages, s ∈ u.types := by
  induction stages using List.reverseRecOn with
  | nil => simp [retained]
  | append_singleton stages u ih =>
      rw [retained_concat, retain]
      by_cases h : s ∈ u.types
      · simp [h]
      · simp [h, ih, or_and_right, exists_or]

theorem retained_subset (stages : List (Stage V)) :
    ∀ e ∈ (retained A s stages).getD [], e ∈ eventsOf s stages := by
  induction stages using List.reverseRecOn with
  | nil => simp [retained]
  | append_singleton stages u ih =>
      intro e he
      rw [retained_concat, retain] at he
      rw [eventsOf_concat]
      by_cases h : s ∈ u.types
      · rw [if_pos h, Option.getD_some] at he
        rw [if_pos h]
        rcases List.mem_append.mp he with he | he
        · exact List.mem_append_left _ (ih e ((window_sublist _).subset he))
        · exact List.mem_append_right _ he
      · rw [if_neg h] at he ⊢
        exact ih e he

/-- An event whose time is no number is never removed. -/
theorem mem_retained {stages : List (Stage V)} {e : Event V} (he : e ∈ eventsOf s stages)
    (htime : ¬ A.Numeric (e.time A)) : e ∈ (retained A s stages).getD [] := by
  induction stages using List.reverseRecOn with
  | nil => simp [eventsOf] at he
  | append_singleton stages u ih =>
      rw [eventsOf_concat] at he
      rw [retained_concat, retain]
      by_cases h : s ∈ u.types
      · rw [if_pos h] at he ⊢
        rcases List.mem_append.mp he with he | he
        · refine List.mem_append_left _ (mem_window (ih he) ?_)
          exact Bool.eq_false_iff.mpr fun hold => htime (numeric_of_older hold)
        · exact List.mem_append_right _ he
      · rw [if_neg h] at he ⊢
        exact ih he

/-- Cutting at a later clock forgets that the events were cut before. -/
theorem retained_filter (hclock : (updates.map Stage.clock).Pairwise (· ≤ ·)) {c : ℚ}
    (hc : ∀ u ∈ updates, u.clock ≤ c)
    (htimes : ∀ e ∈ eventsOf s (first :: updates), A.Numeric (e.time A)) :
    ((retained A s (first :: updates)).getD []).filter (fun e => A.atLeast (c - 86400) (e.time A)) =
      (eventsOf s (first :: updates)).filter fun e => A.atLeast (c - 86400) (e.time A) := by
  induction updates using List.reverseRecOn with
  | nil =>
      by_cases h : s ∈ first.types <;> simp [retained, retain, eventsOf, h]
  | append_singleton updates u ih =>
      rw [← List.cons_append, eventsOf_concat] at htimes
      have hsmaller : ∀ e ∈ eventsOf s (first :: updates), A.Numeric (e.time A) := by
        intro e he
        apply htimes
        by_cases h : s ∈ u.types
        · rw [if_pos h]
          exact List.mem_append_left _ he
        · rwa [if_neg h]
      have hbefore := ih (by
          rw [List.map_append] at hclock
          exact (List.pairwise_append.mp hclock).1)
        (fun v hv => hc v (List.mem_append_left _ hv)) hsmaller
      have hu : u.clock ≤ c := hc u (by simp)
      rw [← List.cons_append, eventsOf_concat, retained_concat, retain]
      by_cases h : s ∈ u.types
      · have hwindow : window A (Event.time A) (u.clock - 86400)
              ((retained A s (first :: updates)).getD []) =
            ((retained A s (first :: updates)).getD []).filter
              fun e => A.atLeast (u.clock - 86400) (e.time A) :=
          window_eq_filter fun e he => hsmaller e (retained_subset _ e he)
        have htwice : ∀ old : List (Event V),
            (old.filter fun e => A.atLeast (u.clock - 86400) (e.time A)).filter
                (fun e => A.atLeast (c - 86400) (e.time A)) =
              old.filter fun e => A.atLeast (c - 86400) (e.time A) := by
          intro old
          rw [List.filter_filter]
          apply List.filter_congr
          intro e _
          have hlater : u.clock - 86400 ≤ c - 86400 := sub_le_sub_right hu _
          simpa using atLeast_mono hlater
        rw [if_pos h, if_pos h, Option.getD_some, List.filter_append, List.filter_append, hwindow,
          htwice, hbefore]
      · rw [if_neg h, if_neg h, hbefore]

/-- Stages that do not list the sensor leave its events alone. -/
theorem retained_append_of_not_mem (stages after : List (Stage V)) (h : ∀ u ∈ after, s ∉ u.types) :
    retained A s (stages ++ after) = retained A s stages := by
  induction after using List.reverseRecOn with
  | nil => simp
  | append_singleton after u ih =>
      rw [← List.append_assoc, retained_concat, retain, if_neg (h u (by simp))]
      exact ih fun v hv => h v (List.mem_append_left _ hv)

/-- The events retained at the last stage that lists the sensor. -/
theorem retained_split {stages before after : List (Stage V)} {u : Stage V}
    (hsplit : stages = before ++ u :: after) (hu : s ∈ u.types) (hafter : ∀ v ∈ after, s ∉ v.types) :
    retained A s stages =
      some (window A (Event.time A) (u.clock - 86400) ((retained A s before).getD []) ++
        u.events) := by
  have hlast : before ++ u :: after = before ++ [u] ++ after := by simp
  rw [hsplit, hlast, retained_append_of_not_mem _ _ hafter, retained_concat, retain, if_pos hu]

/-- They are those of the window exactly when all times are numbers. -/
theorem makeSensorSummary_retained_iff (hclock : (updates.map Stage.clock).Pairwise (· ≤ ·))
    {before after : List (Stage V)} {u : Stage V}
    (hsplit : first :: updates = before ++ u :: after) :
    makeSensorSummary A s
          (window A (Event.time A) (u.clock - 86400) ((retained A s before).getD []) ++ u.events) =
        makeSensorSummary A s
          ((eventsOf s before).filter (fun e => A.atLeast (u.clock - 86400) (e.time A)) ++
            u.events) ↔
      ∀ e ∈ eventsOf s before, A.Numeric (e.time A) := by
  refine ⟨?_, ?_⟩
  · intro h e he
    by_contra htime
    have hobs := congrArg SensorSummary.observations h
    simp only [makeSensorSummary_eq, List.map_append, List.append_left_inj] at hobs
    have hwindow : e ∈ window A (Event.time A) (u.clock - 86400) ((retained A s before).getD []) :=
      mem_window (mem_retained he htime)
        (Bool.eq_false_iff.mpr fun hold => htime (numeric_of_older hold))
    have hsample := List.mem_map_of_mem (f := sample A s) hwindow
    rw [hobs] at hsample
    obtain ⟨e', he', hsame⟩ := List.mem_map.mp hsample
    have htimes : e'.time A = e.time A := congrArg Observation.time hsame
    exact htime (htimes ▸ numeric_of_atLeast (List.mem_filter.mp he').2)
  · intro htimes
    have hwindow : window A (Event.time A) (u.clock - 86400) ((retained A s before).getD []) =
        ((retained A s before).getD []).filter fun e => A.atLeast (u.clock - 86400) (e.time A) :=
      window_eq_filter fun e he => htimes e (retained_subset _ e he)
    rw [hwindow]
    cases before with
    | nil => simp [retained, eventsOf]
    | cons v before =>
        rw [List.cons_append] at hsplit
        obtain ⟨rfl, rfl⟩ := List.cons.inj hsplit
        rw [List.map_append, List.map_cons] at hclock
        obtain ⟨hbefore, -, hle⟩ := List.pairwise_append.mp hclock
        have hc : ∀ w ∈ before, w.clock ≤ u.clock := fun w hw =>
          hle _ (List.mem_map_of_mem hw) _ List.mem_cons_self
        rw [retained_filter hbefore hc htimes]

end

/-- The table is as if made at once: the sensors are the types that occurred; each is
summarized from the events since it was first listed with a time in the window of its last
update, and the new ones; and the version is the last. -/
structure EqualsBatch (first : Stage V) (updates : List (Stage V)) : Prop where
  sensors : ∀ s, s ∈ (rolling A first updates).sensors.keys ↔ ∃ u ∈ first :: updates, s ∈ u.types
  summaries : ∀ s before u after, first :: updates = before ++ u :: after → s ∈ u.types →
    (∀ v ∈ after, s ∉ v.types) →
      (rolling A first updates).sensors.get? s = some (makeSensorSummary A s
        ((((before.filter fun v => s ∈ v.types).flatMap Stage.events).filter
          fun e => A.atLeast (u.clock - 86400) (e.time A)) ++ u.events))
  version : (rolling A first updates).version =
    ((first :: updates).getLast (List.cons_ne_nil _ _)).nodeMeta.version

/-- The rolling summary equals a batch summary. Over any updates with nondecreasing clocks
and metadata without repetition this is so exactly when the events of each call that lists
a type which a later call lists again have times that are numbers. -/
theorem rolling_eq_batch_iff (first : Stage V) (updates : List (Stage V))
    (hclock : (updates.map Stage.clock).Pairwise (· ≤ ·))
    (hmeta : ∀ u ∈ first :: updates, u.types.Nodup) :
    EqualsBatch A first updates ↔
      ∀ before v after, first :: updates = before ++ v :: after →
        (∃ u ∈ after, ∃ s ∈ v.types, s ∈ u.types) → ∀ e ∈ v.events, A.Numeric (e.time A) := by
  have hget := rolling_get? A first updates fun u hu => hmeta u (List.mem_cons_of_mem _ hu)
  refine ⟨?_, ?_⟩
  · intro h before v after hsplit hrelisted e he
    obtain ⟨w, hw, s, hsv, hsw⟩ := hrelisted
    -- the last call that lists the type
    obtain ⟨between, u, rest, rfl, hu, hrest⟩ := exists_last_split
      (fun u : Stage V => s ∈ u.types) ⟨w, hw, hsw⟩
    have hlast : first :: updates = (before ++ v :: between) ++ u :: rest := by
      rw [hsplit, List.append_assoc]
      rfl
    have hsummary := h.summaries s _ u rest hlast hu hrest
    rw [hget, retained_split hlast hu hrest, Option.map_some, Option.some.injEq] at hsummary
    refine (makeSensorSummary_retained_iff hclock hlast).mp hsummary e ?_
    exact List.mem_flatMap.mpr ⟨v, List.mem_filter.mpr ⟨by simp, by simpa using hsv⟩, he⟩
  · intro h
    refine ⟨?_, ?_, ?_⟩
    · intro s
      rw [OrderedMap.mem_keys_iff, hget, Option.isSome_map, retained_isSome_iff]
    · intro s before u after hsplit hu hafter
      rw [hget, retained_split hsplit hu hafter, Option.map_some, Option.some.injEq]
      refine (makeSensorSummary_retained_iff hclock hsplit).mpr ?_
      intro e he
      obtain ⟨v, hv, hev⟩ := List.mem_flatMap.mp he
      obtain ⟨hmem, hsv⟩ := List.mem_filter.mp hv
      obtain ⟨pre, post, rfl⟩ := List.append_of_mem hmem
      refine h pre v (post ++ u :: after) ?_ ⟨u, by simp, s, by simpa using hsv, hu⟩ e hev
      rw [hsplit, List.append_assoc]
      rfl
    · rcases List.eq_nil_or_concat updates with rfl | ⟨updates, u, rfl⟩
      · rfl
      · rw [List.concat_eq_append, rolling_concat]
        simp [updateNodeSummary]

/-- Readings that are numbers or missing; a missing one makes the sum missing. -/
def optional : Arithmetic (Option ℚ) where
  undefined := none
  number := some
  add x y := x.bind fun a => y.map (a + ·)
  div x y := x.bind fun a => y.map (a / ·)
  convert
    | none => some .nan
    | some q => some (.finite q)

/-- An event with its time and a reading. -/
def reading (time : ℚ) (name : String) (q : ℚ) : Event (Option ℚ) :=
  ⟨(OrderedMap.empty.set "time" (some time)).set name (some q)⟩

/-- The first table of a node with one sensor. -/
def firstStage : Stage (Option ℚ) where
  clock := 0
  events := [reading 1000 "temperature" 77, reading 90000 "temperature" 85]
  nodeMeta := ⟨some 1, ["temperature"]⟩

/-- It gets a second one when the first reading has expired. -/
def secondStage : Stage (Option ℚ) where
  clock := 100000
  events := [⟨(reading 100000 "temperature" 91).fields.set "humidity" (some 50)⟩]
  nodeMeta := ⟨some 2, ["temperature", "humidity"]⟩

theorem reading_time {time q : ℚ} : (reading time "temperature" q).time optional = some time := by
  have hne : ¬ "time" = "temperature" := by decide
  simp [reading, Event.time, Event.read, OrderedMap.get?_set, hne]

theorem rolling_second_sensor :
    (([secondStage].map Stage.clock).Pairwise (· ≤ ·)) ∧
    (∀ u ∈ [firstStage, secondStage], u.types.Nodup) ∧ EqualsBatch optional firstStage [secondStage] := by
  have hclock : ([secondStage].map Stage.clock).Pairwise (· ≤ ·) := List.pairwise_singleton _ _
  have hmeta : ∀ u ∈ [firstStage, secondStage], u.types.Nodup := by decide
  refine ⟨hclock, hmeta, (rolling_eq_batch_iff optional firstStage [secondStage] hclock hmeta).mpr ?_⟩
  intro before v after hsplit hrelisted e he
  cases before with
  | nil =>
      obtain ⟨rfl, -⟩ := List.cons.inj hsplit
      simp only [firstStage, List.mem_cons, List.not_mem_nil, or_false] at he
      rcases he with rfl | rfl <;> exact ⟨_, congrArg optional.convert reading_time, Number.noConfusion⟩
  | cons w before =>
      -- nothing comes after the second stage
      obtain ⟨-, hrest⟩ := List.cons.inj hsplit
      cases before with
      | nil =>
          obtain ⟨-, rfl⟩ := List.cons.inj hrest
          obtain ⟨u, hu, -⟩ := hrelisted
          exact absurd hu List.not_mem_nil
      | cons x before => exact absurd (congrArg List.length hrest) (by simp)

/-- An event with a timestamp under another name. -/
def timestampStage : Stage (Option ℚ) where
  clock := 0
  events := [⟨OrderedMap.empty.setAll [("timestamp", some 1465573173), ("temperature", some 72),
    ("pressure", some 25)]⟩]
  nodeMeta := ⟨some 1, ["temperature", "pressure"]⟩

/-- It is kept, although it has no time in the window. -/
theorem timestamp_not_batch :
    ¬ EqualsBatch optional timestampStage [⟨1465573200, [], ⟨some 1, ["temperature", "pressure"]⟩⟩] := by
  have hclock : ([⟨1465573200, [], ⟨some 1, ["temperature", "pressure"]⟩⟩].map
      (Stage.clock (V := Option ℚ))).Pairwise (· ≤ ·) := List.pairwise_singleton _ _
  intro h
  have hnumeric := (rolling_eq_batch_iff optional timestampStage _ hclock (by decide)).mp h []
    timestampStage _ rfl ⟨_, List.mem_singleton_self _, "temperature", by decide, by decide⟩ _
    (List.mem_singleton_self _)
  obtain ⟨t, ht, hnan⟩ := hnumeric
  exact hnan (Option.some.inj ht).symm

end PlenarioStream.Summary

import PlenarioStream.Consumer.Processor

/-!
Whether the processor refreshes a stale map. The signal that should tell it so is
the value of a continuation and never reaches the loop, so no refresh is started
and the cached map stays empty; the documented behaviour is met exactly as long as
the empty object covers every observation.
-/
namespace PlenarioStream.Consumer
open Js Transition

/-- Some refresh of the cached map has completed. -/
def RefreshDone (tr : List (Processor × Event)) : Prop :=
  ∃ x ∈ tr, ∃ newMap, x.2 = .refreshed (.ok newMap)

/-- The documented behaviour when Postgres holds the given table: every observation
is signalled as the cached map covers it or not, and after a refresh the map is the
table, with which covered observations need no pull. -/
structure Refreshing (table : SensorMap) (tr : List (Processor × Event)) (p : Processor) :
    Prop where
  signalled : ∀ (n : Nat) obs map signal, p.world.handled[n]? = some (some obs) → Observation obs →
    p.returned[n]? = some (map, signal) → ∃ stale, needsPull obs map = .ok stale ∧ signal = some stale
  refreshed : RefreshDone tr → p.map = table
  served : RefreshDone tr → ∀ obs, Observation obs → needsPull obs table = .ok false →
    handleEffects (some obs) p.map = .redshiftInsert obs table false :: emissions obs table

theorem not_refreshDone {tr : List (Processor × Event)} {p : Processor} (h : processor.Run tr p) :
    ¬ RefreshDone tr := by
  intro hdone
  obtain ⟨⟨q, a⟩, hx, newMap, ha⟩ := hdone
  obtain ⟨before, y, hq, hy, -⟩ := h.step_of_mem hx
  obtain rfl : a = .refreshed (.ok newMap) := ha
  exact (refreshed_step hy).1 (map_eq_empty hq).2

/-- The signal is right only for an observation that the map covers. -/
theorem signalOf_eq_iff {obs : Json} {map : SensorMap} (hobs : Observation obs)
    (hmap : TextEntries map) :
    (∃ stale, needsPull obs map = .ok stale ∧ signalOf (some obs) map = some stale) ↔
      needsPull obs map = .ok false := by
  obtain ⟨stale, hcheck⟩ := hobs.needsPull_ok hmap
  refine ⟨?_, ?_⟩
  · intro hsignal
    obtain ⟨stale', hcheck', hsignal⟩ := hsignal
    cases stale' with
    | true => exact absurd hsignal (signalOf_ne_true _ _)
    | false => exact hcheck'
  · intro hcover
    obtain ⟨objects, hobjects⟩ := hobs.formatObs_ok hmap hcover
    exact ⟨false, hcover, by simp [signalOf, hcover, hobjects]⟩

theorem refreshing_iff {tr : List (Processor × Event)} {p : Processor} (h : processor.Run tr p)
    (table : SensorMap) :
    Refreshing table tr p ↔ ∀ x ∈ tr, CoveredByEmpty x.2 := by
  obtain ⟨hhandled, hreturned⟩ := handled_run h
  refine ⟨?_, ?_⟩
  · intro hrefresh x hx r hr obs hpayload hobs
    have hmem : some obs ∈ p.world.handled := by
      rw [hhandled, List.mem_flatMap]
      exact ⟨x, hx, List.mem_map.mpr ⟨r, hr, hpayload⟩⟩
    obtain ⟨n, hn⟩ := List.getElem?_of_mem hmem
    apply (signalOf_eq_iff hobs empty_textEntries).mp
    exact hrefresh.signalled n obs _ _ hn hobs (by rw [hreturned, List.getElem?_map, hn]; rfl)
  · intro hcover
    refine ⟨?_, fun hdone => absurd hdone (not_refreshDone h),
      fun hdone => absurd hdone (not_refreshDone h)⟩
    intro n obs map signal hn hobs hsignal
    rw [hreturned, List.getElem?_map, hn] at hsignal
    obtain ⟨rfl, rfl⟩ := Prod.mk.inj (Option.some.inj hsignal)
    apply (signalOf_eq_iff hobs empty_textEntries).mpr
    have hmem := List.mem_of_getElem? hn
    rw [hhandled, List.mem_flatMap] at hmem
    obtain ⟨x, hx, hpayload⟩ := hmem
    obtain ⟨r, hr, hpayload⟩ := List.mem_map.mp hpayload
    exact hcover x hx r hr obs hpayload hobs

/-- The processor behaves as documented, whatever Postgres holds, exactly in the
runs in which the empty object covers every observation. -/
theorem refresh_iff {tr : List (Processor × Event)} {p : Processor} (h : processor.Run tr p)
    (table : SensorMap) :
    processor.Always (Refreshing table) tr ↔ ∀ x ∈ tr, CoveredByEmpty x.2 := by
  refine ⟨?_, ?_⟩
  · intro hall
    exact (refreshing_iff h table).mp (hall.last h)
  · intro hcover q y hq hy
    exact (refreshing_iff hy table).mpr fun x hx => hcover x (hq.subset hx)

theorem refresh_inherited :
    ∃ tr p, processor.Run tr p ∧ p.world.handled.length = 1 ∧
      processor.Always (Refreshing tmp112Map) tr := by
  let obs : Json := .obj [("sensor", .str "valueOf"), ("data", .obj [])]
  have hrun := System.Run.nil.exec (S := processor)
    [.processRecords (some [⟨some obs, some "1"⟩])] rfl
  refine ⟨_, _, hrun, rfl, (refresh_iff hrun tmp112Map).mpr ?_⟩
  intro x hx
  obtain rfl := List.mem_singleton.mp hx
  intro r hr o ho _
  obtain rfl := List.mem_singleton.mp hr
  obtain rfl := Option.some.inj ho
  rfl

/-- A sensor that Postgres knows reports twice. Its first record ends in a pull that
finds the table, but the second one is pulled for again. -/
def secondReport : List Event :=
  [.processRecords (some [⟨some tmp112Obs, some "1"⟩]), .settle 0 (.ok tmp112Map),
    .processRecords (some [⟨some tmp112Obs, some "2"⟩])]

theorem not_refreshed_second_report :
    ∃ tr p, processor.exec processor.init secondReport = some (tr, p) ∧ processor.Run tr p ∧
      needsPull tmp112Obs tmp112Map = .ok false ∧ p.world.pulls = [(1, tmp112Obs)] ∧
      ¬ processor.Always (Refreshing tmp112Map) tr := by
  have hexec : ∃ tr p, processor.exec processor.init secondReport = some (tr, p) ∧
      p.world.pulls = [(1, tmp112Obs)] ∧ p.world.handled[0]? = some (some tmp112Obs) ∧
      p.returned[0]? = some (.empty, none) := ⟨_, _, rfl, rfl, rfl, rfl⟩
  obtain ⟨tr, p, hexec, hpulls, hhandled, hreturned⟩ := hexec
  have hrun := System.Run.of_exec hexec
  refine ⟨tr, p, hexec, hrun, rfl, hpulls, ?_⟩
  intro hall
  obtain ⟨stale, -, hnone⟩ :=
    (hall.last hrun).signalled 0 _ _ _ hhandled tmp112Obs_observation hreturned
  exact absurd hnone.symm (Option.some_ne_none stale)

end PlenarioStream.Consumer

import PlenarioStream.Consumer.Effects

/-!
Every observation takes one route. Over any run of the mapper, a payload whose
consulted pull succeeds is written once, as a misfit exactly when the last map
consulted for it fails the check, and what `format_obs` gives for that map is
emitted otherwise. The route depends on the map and not on where it came from.
-/
namespace PlenarioStream.Consumer
open Js Transition

def Effect.insert? : Effect → Option (Json × SensorMap × Bool)
  | redshiftInsert obs map misfit => some (obs, map, misfit)
  | _ => none

def Effect.emit? : Effect → Option Formatted
  | emit data => some data
  | _ => none

def inserts (effects : List Effect) : List (Json × SensorMap × Bool) :=
  effects.filterMap Effect.insert?

def emitted (effects : List Effect) : List Formatted := effects.filterMap Effect.emit?

/-- The effects are those of one write with the given map, a misfit when the check
fails on it, and of the emissions that belong to it. -/
def Routed (obs : Json) (map : SensorMap) (effects : List Effect) : Prop :=
  ∃ misfit, needsPull obs map = .ok misfit ∧ inserts effects = [(obs, map, misfit)] ∧
    (misfit = false → formatObs obs map = .ok (emitted effects)) ∧
    (misfit = true → emitted effects = [])

/-- The calls on observations, with maps as `update_map` documents them. -/
def Call.Documented : Call → Prop
  | .handle payload map => (∃ obs, payload = some obs ∧ Observation obs) ∧ TextEntries map
  | .settle _ (.ok map) => TextEntries map
  | .settle _ (.error _) => True

/-- In this step the cached map passes the check for the payload of the given number. -/
def UsesCached (n : Nat) (obs : Json) (map : SensorMap) (x : World × Call) : Prop :=
  x.2 = .handle (some obs) map ∧ x.1.handled.length = n ∧ needsPull obs map = .ok false

/-- In this step the pull of the given number ends with the map. -/
def UsesPulled (n : Nat) (obs : Json) (map : SensorMap) (x : World × Call) : Prop :=
  ∃ i, x.2 = .settle i (.ok map) ∧ x.1.pulls[i]? = some (n, obs)

/-- In this step the pull of the given number fails. -/
def PullFails (n : Nat) (x : World × Call) : Prop :=
  ∃ i reason obs, x.2 = .settle i (.error reason) ∧ x.1.pulls[i]? = some (n, obs)

/-- The last map consulted for a payload. -/
def Consulted (tr : List (World × Call)) (n : Nat) (obs : Json) (map : SensorMap) : Prop :=
  ∃ x ∈ tr, UsesCached n obs map x ∨ UsesPulled n obs map x

@[simp] theorem inserts_cons (e : Effect) (effects : List Effect) :
    inserts (e :: effects) = e.insert?.toList ++ inserts effects := by
  unfold inserts
  cases h : e.insert? <;> simp [h]

@[simp] theorem emitted_cons (e : Effect) (effects : List Effect) :
    emitted (e :: effects) = e.emit?.toList ++ emitted effects := by
  unfold emitted
  cases h : e.emit? <;> simp [h]

theorem emissions_inserts (obs : Json) (map : SensorMap) : inserts (emissions obs map) = [] := by
  unfold emissions
  cases formatObs obs map with
  | error e => rfl
  | ok objects =>
      rw [inserts_cons, inserts, List.filterMap_map]
      exact List.filterMap_eq_nil_iff.mpr fun o _ => rfl

theorem emissions_emitted {obs : Json} {map : SensorMap} {objects : List Formatted}
    (h : formatObs obs map = .ok objects) : emitted (emissions obs map) = objects := by
  simp only [emissions, h]
  rw [emitted_cons, emitted, List.filterMap_map]
  exact List.filterMap_some

/-- The fast path. -/
theorem handleEffects_routed {obs : Json} {map : SensorMap} (hobs : Observation obs)
    (hmap : TextEntries map) (hcheck : needsPull obs map = .ok false) :
    Routed obs map (handleEffects (some obs) map) := by
  obtain ⟨objects, hobjects⟩ := hobs.formatObs_ok hmap hcheck
  have heffects : handleEffects (some obs) map =
      .redshiftInsert obs map false :: emissions obs map := by
    simp [handleEffects, hcheck, hobjects]
  rw [heffects]
  refine ⟨false, hcheck, ?_, ?_, ?_⟩
  · rw [inserts_cons, emissions_inserts]
    rfl
  · intro _
    rw [emitted_cons, emissions_emitted hobjects, hobjects]
    rfl
  · intro h
    exact Bool.noConfusion h

/-- The slow path. The request for the map came before. -/
theorem settleEffects_routed {obs : Json} {map : SensorMap} (blacklist : List Value)
    (hobs : Observation obs) (hmap : TextEntries map) :
    Routed obs map (.updateMap :: settleEffects blacklist obs (.ok map)) := by
  obtain ⟨name, hsensor⟩ := hobs.sensor
  obtain ⟨misfit, hcheck⟩ := hobs.needsPull_ok hmap
  cases misfit with
  | true =>
      obtain ⟨type, houtcome⟩ := outcomeOf_error hsensor hcheck
      refine ⟨true, hcheck, ?_, fun h => Bool.noConfusion h, fun _ => ?_⟩
      · simp only [settleEffects, houtcome, inserts]
        split <;> rfl
      · simp only [settleEffects, houtcome, emitted]
        split <;> rfl
  | false =>
      obtain ⟨objects, hobjects⟩ := hobs.formatObs_ok hmap hcheck
      have houtcome := outcomeOf_fixed_iff.mpr ⟨hsensor, hcheck⟩
      refine ⟨false, hcheck, ?_, fun _ => ?_, fun h => Bool.noConfusion h⟩
      · simp only [settleEffects, houtcome, List.cons_append, List.nil_append, inserts_cons,
          emissions_inserts]
        rfl
      · simp only [settleEffects, houtcome, List.cons_append, List.nil_append, emitted_cons,
          emissions_emitted hobjects, hobjects]
        rfl

/-- A payload that waits has only asked for a map, and one whose last map is known
has taken its route; no payload is forgotten. -/
structure RouteInv (tr : List (World × Call)) (w : World) : Prop where
  numbered : Numbered w
  pending : ∀ p ∈ w.pulls, w.handled[p.1]? = some (some p.2) ∧ Observation p.2 ∧
    w.effectsOf p.1 = [.updateMap]
  nodup : w.waiting.Nodup
  consulted : ∀ n obs map, Consulted tr n obs map →
    n < w.handled.length ∧ n ∉ w.waiting ∧ Routed obs map (w.effectsOf n)
  settled : ∀ n obs, w.handled[n]? = some (some obs) →
    n ∈ w.waiting ∨ (∃ x ∈ tr, PullFails n x) ∨ ∃ map, Consulted tr n obs map

theorem consulted_snoc {tr : List (World × Call)} {x : World × Call} {n : Nat} {obs : Json}
    {map : SensorMap} :
    Consulted (tr ++ [x]) n obs map ↔
      Consulted tr n obs map ∨ UsesCached n obs map x ∨ UsesPulled n obs map x := by
  simp [Consulted, or_and_right, exists_or]

section
variable {tr : List (World × Call)} {w : World} {obs : Json} {map : SensorMap} {misfit : Bool}

theorem newPull_of_check (n : Nat) (h : needsPull obs map = .ok misfit) :
    newPull n (some obs) map = if misfit then [(n, obs)] else [] := by
  cases misfit <;> simp [newPull, h]

theorem handle_waiting (h : needsPull obs map = .ok misfit) :
    (handle (some obs) map w).1.waiting =
      w.waiting ++ if misfit then [w.handled.length] else [] := by
  rw [World.waiting, handle_pulls, newPull_of_check _ h, List.map_append, World.waiting]
  cases misfit <;> rfl

theorem consulted_handle (h : RouteInv tr w) (hobs : Observation obs) (hmap : TextEntries map)
    (hcheck : needsPull obs map = .ok misfit) {n : Nat} {o : Json} {m : SensorMap}
    (hconsulted : Consulted (tr ++ [(w, .handle (some obs) map)]) n o m) :
    n < (handle (some obs) map w).1.handled.length ∧ n ∉ (handle (some obs) map w).1.waiting ∧
      Routed o m ((handle (some obs) map w).1.effectsOf n) := by
  rw [handle_handled, List.length_append, List.length_singleton, handle_waiting hcheck]
  rcases consulted_snoc.mp hconsulted with hbefore | ⟨hcall, hn, hpass⟩ | ⟨i, hcall, -⟩
  · obtain ⟨hlt, hnot, hrouted⟩ := h.consulted n o m hbefore
    refine ⟨Nat.lt_succ_of_lt hlt, ?_, by rwa [handle_effectsOf_lt _ _ hlt]⟩
    intro hmem
    rcases List.mem_append.mp hmem with hmem | hmem
    · exact hnot hmem
    · cases misfit with
      | false => exact absurd hmem List.not_mem_nil
      | true => exact absurd (List.mem_singleton.mp hmem) (Nat.ne_of_lt hlt)
  · obtain ⟨ho, rfl⟩ := Call.handle.inj hcall
    obtain rfl := Option.some.inj ho
    obtain rfl := Except.ok.inj (hcheck.symm.trans hpass)
    subst hn
    refine ⟨Nat.lt_succ_self _, by simpa using length_not_waiting h.numbered, ?_⟩
    rw [handle_effectsOf_last h.numbered]
    exact handleEffects_routed hobs hmap hcheck
  · exact Call.noConfusion hcall

theorem settled_handle (h : RouteInv tr w) (hcheck : needsPull obs map = .ok misfit) {n : Nat}
    {o : Json} (hn : (handle (some obs) map w).1.handled[n]? = some (some o)) :
    n ∈ (handle (some obs) map w).1.waiting ∨
      (∃ x ∈ tr ++ [(w, .handle (some obs) map)], PullFails n x) ∨
      ∃ m, Consulted (tr ++ [(w, .handle (some obs) map)]) n o m := by
  rw [handle_handled] at hn
  rw [handle_waiting hcheck]
  rcases getElem?_push hn with ⟨-, hn⟩ | ⟨rfl, ho⟩
  · rcases h.settled n o hn with hmem | ⟨x, hx, hfails⟩ | ⟨m, hm⟩
    · exact .inl (List.mem_append_left _ hmem)
    · exact .inr (.inl ⟨x, List.mem_append_left _ hx, hfails⟩)
    · exact .inr (.inr ⟨m, consulted_snoc.mpr (.inl hm)⟩)
  · obtain rfl := Option.some.inj ho
    cases misfit with
    | true => exact .inl (List.mem_append_right _ (List.mem_singleton_self _))
    | false => exact .inr (.inr ⟨map, consulted_snoc.mpr (.inr (.inl ⟨rfl, rfl, hcheck⟩))⟩)

/-- The part of the invariant about the pulls holds in every run. -/
theorem asked_of_pending {w : World} (h : Pending w) (hobs : ∀ p ∈ w.pulls, Observation p.2) :
    ∀ p ∈ w.pulls, w.handled[p.1]? = some (some p.2) ∧ Observation p.2 ∧
      w.effectsOf p.1 = [.updateMap] := by
  intro p hp
  obtain ⟨hget, -, hasked⟩ := h.asked p hp
  exact ⟨hget, hobs p hp, hasked⟩

theorem routeInv_handle (h : RouteInv tr w) (hpending : Pending (handle (some obs) map w).1)
    (hobs : Observation obs) (hmap : TextEntries map) :
    RouteInv (tr ++ [(w, .handle (some obs) map)]) (handle (some obs) map w).1 := by
  obtain ⟨misfit, hcheck⟩ := hobs.needsPull_ok hmap
  refine ⟨hpending.numbered, asked_of_pending hpending ?_, hpending.nodup,
    fun n o m => consulted_handle h hobs hmap hcheck, fun n o => settled_handle h hcheck⟩
  intro p hp
  rw [handle_pulls, newPull_of_check _ hcheck, List.mem_append] at hp
  rcases hp with hp | hp
  · exact (h.pending p hp).2.1
  · cases misfit with
    | false => exact absurd hp List.not_mem_nil
    | true =>
        obtain rfl := List.mem_singleton.mp hp
        exact hobs

theorem routeInv_settle (h : RouteInv tr w) (hpending : Pending w) {i : Nat}
    {result : Except String SensorMap} {w' : World} (hcall : (Call.settle i result).Documented) (hs : settle i result w = some w') :
    RouteInv (tr ++ [(w, .settle i result)]) w' := by
  obtain ⟨n, obs, hpull, hhandled, hpulls, heffects⟩ := settle_fields hs
  obtain ⟨hn, hobs, hasked⟩ := h.pending (n, obs) (List.mem_of_getElem? hpull)
  have hold : ∀ k, k ≠ n → w'.effectsOf k = w.effectsOf k := fun k hk => by
    rw [heffects, if_neg hk]
  have hwaiting := mem_waiting_settle hpending hpull hpulls
  have hpending' := pending_settle hpending hs
  refine ⟨hpending'.numbered, asked_of_pending hpending' ?_, hpending'.nodup, ?_, ?_⟩
  · intro p hp
    rw [hpulls] at hp
    exact (h.pending p (List.mem_of_mem_eraseIdx hp)).2.1
  · intro k o m hconsulted
    rw [hhandled]
    rcases consulted_snoc.mp hconsulted with hbefore | ⟨hcall, -⟩ | ⟨i', heq, hget⟩
    · obtain ⟨hlt, hnot, hrouted⟩ := h.consulted k o m hbefore
      have hne : k ≠ n := fun hkn =>
        hnot (hkn ▸ List.mem_map_of_mem (List.mem_of_getElem? hpull))
      exact ⟨hlt, fun hmem => hnot ((hwaiting k).mp hmem).2, by rwa [hold k hne]⟩
    · exact Call.noConfusion hcall
    · -- the pull of this very payload: its route is complete now
      obtain ⟨rfl, rfl⟩ := Call.settle.inj heq
      rw [hpull] at hget
      obtain ⟨rfl, rfl⟩ := Prod.mk.inj (Option.some.inj hget)
      refine ⟨(List.getElem?_eq_some_iff.mp hn).1, fun hmem => ((hwaiting _).mp hmem).1 rfl, ?_⟩
      rw [heffects, if_pos rfl, hasked]
      exact settleEffects_routed w.blacklist hobs hcall
  · intro k o hk
    rw [hhandled] at hk
    rcases h.settled k o hk with hmem | ⟨x, hx, hfails⟩ | ⟨m, hm⟩
    · by_cases hne : k = n
      · subst hne
        obtain rfl := Option.some.inj (Option.some.inj (hn.symm.trans hk))
        cases result with
        | error reason =>
            exact .inr (.inl ⟨_, List.mem_append_right _ (List.mem_singleton_self _),
              i, reason, obs, rfl, hpull⟩)
        | ok m => exact .inr (.inr ⟨m, consulted_snoc.mpr (.inr (.inr ⟨i, rfl, hpull⟩))⟩)
      · exact .inl ((hwaiting k).mpr ⟨hne, hmem⟩)
    · exact .inr (.inl ⟨x, List.mem_append_left _ hx, hfails⟩)
    · exact .inr (.inr ⟨m, consulted_snoc.mpr (.inl hm)⟩)

theorem routeInv_run (h : mapper.Run tr w) (hcalls : ∀ x ∈ tr, x.2.Documented) : RouteInv tr w := by
  refine h.invariant_where (fun _ a => a.Documented) RouteInv ?_ ?_ hcalls
  · refine ⟨numbered_initial, ?_, List.nodup_nil, ?_, ?_⟩
    · intro p hp
      exact absurd hp List.not_mem_nil
    · intro n obs map hconsulted
      obtain ⟨x, hx, -⟩ := hconsulted
      exact absurd hx List.not_mem_nil
    · intro n obs hn
      exact absurd hn (by simp [mapper, World.initial])
  · intro tr w a w' hrun hinv hcall hs
    have hpending := pending_run hrun
    cases a with
    | handle payload map =>
        obtain ⟨⟨obs, rfl, hobs⟩, hmap⟩ := hcall
        obtain rfl := Option.some.inj hs
        exact routeInv_handle hinv (pending_handle hpending _ _) hobs hmap
    | settle i result => exact routeInv_settle hinv hpending hcall hs

end

/-- Over any run on documented observations and maps, in any order of the pulls:
a payload whose consulted pull, if any, has succeeded took exactly one route, that
of the last map consulted for it. A map that covers an observation gives the same
route from the cache and from Postgres. -/
theorem one_route {tr : List (World × Call)} {w : World} (h : mapper.Run tr w)
    (hcalls : ∀ x ∈ tr, x.2.Documented) :
    (∀ n obs, w.handled[n]? = some (some obs) → (∀ p ∈ w.pulls, p.1 ≠ n) →
      (∀ x ∈ tr, ¬ PullFails n x) →
        ∃ map, Consulted tr n obs map ∧ Routed obs map (w.effectsOf n)) ∧
    ∀ n n' obs map, (∃ x ∈ tr, UsesCached n obs map x) → (∃ x ∈ tr, UsesPulled n' obs map x) →
      needsPull obs map = .ok false →
        inserts (w.effectsOf n) = inserts (w.effectsOf n') ∧
        emitted (w.effectsOf n) = emitted (w.effectsOf n') := by
  have hinv := routeInv_run h hcalls
  refine ⟨?_, ?_⟩
  · intro n obs hn hpulls hfails
    rcases hinv.settled n obs hn with hmem | ⟨x, hx, hfail⟩ | ⟨map, hmap⟩
    · obtain ⟨p, hp, hpn⟩ := List.mem_map.mp hmem
      exact absurd hpn (hpulls p hp)
    · exact absurd hfail (hfails x hx)
    · exact ⟨map, hmap, (hinv.consulted n obs map hmap).2.2⟩
  · intro n n' obs map hcached hpulled hcheck
    obtain ⟨x, hx, hcached⟩ := hcached
    obtain ⟨y, hy, hpulled⟩ := hpulled
    obtain ⟨_, hcheck₁, hins₁, hemit₁, -⟩ :=
      (hinv.consulted n obs map ⟨x, hx, .inl hcached⟩).2.2
    obtain ⟨_, hcheck₂, hins₂, hemit₂, -⟩ :=
      (hinv.consulted n' obs map ⟨y, hy, .inr hpulled⟩).2.2
    obtain rfl := Except.ok.inj (hcheck₁.symm.trans hcheck)
    obtain rfl := Except.ok.inj (hcheck₂.symm.trans hcheck)
    exact ⟨hins₁.trans hins₂.symm, Except.ok.inj ((hemit₁ rfl).symm.trans (hemit₂ rfl))⟩

/-- The sensor is unknown at first, and known to the cache when it reports again. -/
def lateMetadata : List Call :=
  [.handle (some tmp112Obs) .empty, .settle 0 (.ok tmp112Map), .handle (some tmp112Obs) tmp112Map]

private theorem lateMetadata_run :
    ∃ tr w, mapper.exec mapper.init lateMetadata = some (tr, w) ∧
      w.handled = [some tmp112Obs, some tmp112Obs] ∧ w.pulls = [] ∧
      (∃ x ∈ tr, UsesCached 1 tmp112Obs tmp112Map x) ∧
      ∃ x ∈ tr, UsesPulled 0 tmp112Obs tmp112Map x := by
  refine ⟨_, _, rfl, rfl, rfl, ?_, ?_⟩
  · exact ⟨_, .tail _ (.tail _ (.head _)), rfl, rfl, rfl⟩
  · exact ⟨_, .tail _ (.head _), 0, rfl, rfl⟩

theorem one_route_late_metadata :
    ∃ tr w, mapper.Run tr w ∧ (∀ x ∈ tr, x.2.Documented) ∧
      (∃ map, Consulted tr 0 tmp112Obs map ∧ Routed tmp112Obs map (w.effectsOf 0)) ∧
      (∃ map, Consulted tr 1 tmp112Obs map ∧ Routed tmp112Obs map (w.effectsOf 1)) ∧
      emitted (w.effectsOf 1) = emitted (w.effectsOf 0) := by
  obtain ⟨tr, w, hexec, hhandled, hpulls, hcached, hpulled⟩ := lateMetadata_run
  have hrun := System.Run.of_exec hexec
  have hcalls : ∀ x ∈ tr, x.2.Documented := by
    intro x hx
    have hcall := System.mem_of_exec hexec hx
    simp only [lateMetadata, List.mem_cons, List.not_mem_nil, or_false] at hcall
    rcases hcall with hcall | hcall | hcall
    · rw [hcall]
      exact ⟨⟨_, rfl, tmp112Obs_observation⟩, empty_textEntries⟩
    · rw [hcall]
      exact tmp112Map_textEntries
    · rw [hcall]
      exact ⟨⟨_, rfl, tmp112Obs_observation⟩, tmp112Map_textEntries⟩
  have hnone : ∀ n, ∀ x ∈ tr, ¬ PullFails n x := by
    intro n x hx hfails
    obtain ⟨i, reason, obs, hcall, -⟩ := hfails
    have hmem := System.mem_of_exec hexec hx
    rw [hcall] at hmem
    simp [lateMetadata] at hmem
  have hroute := one_route hrun hcalls
  refine ⟨tr, w, hrun, hcalls, ?_, ?_, ?_⟩
  · exact hroute.1 0 _ (by rw [hhandled]; rfl) (by simp [hpulls]) (hnone 0)
  · exact hroute.1 1 _ (by rw [hhandled]; rfl) (by simp [hpulls]) (hnone 1)
  · exact (hroute.2 1 0 _ _ hcached hpulled rfl).2

end PlenarioStream.Consumer

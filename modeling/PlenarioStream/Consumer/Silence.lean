import PlenarioStream.Consumer.Coverage
import PlenarioStream.Consumer.Routing

/-!
No observation vanishes silently, as far as the maps that Postgres returns allow it.
An exception of the synchronous path ends in the handler of `processRecords`, which
logs it. The rejection handler beside the continuation of a pull does not see the
exceptions of the continuation itself, so these are lost.
-/
namespace PlenarioStream.Consumer
open Js Transition

/-- The continuation of a pull, with the exception that it may end in. -/
def continuation (n : Nat) (obs : Json) (newMap : SensorMap) (w : World) :
    World × Except Exception Unit :=
  match prop obs "sensor", sensorIn obs newMap with
  | .error e, _ | .ok _, .error e => (w, .error e)
  | .ok sensor, .ok false =>
      ((sendError n sensor .doesNotExist w).record n (.redshiftInsert obs newMap true), .ok ())
  | .ok sensor, .ok true =>
      match invalidKeys obs newMap with
      | .error e => (w, .error e)
      | .ok (key :: keys) =>
          ((sendError n sensor (.invalidKey (key :: keys)) w).record n
            (.redshiftInsert obs newMap true), .ok ())
      | .ok [] =>
          emitFormatted n obs newMap
            ((sendCorrect n sensor w).record n (.redshiftInsert obs newMap false))

/-- The model of the continuation forgets its exception, as the program does. -/
theorem onNewMap_eq_continuation (n : Nat) (obs : Json) (newMap : SensorMap) (w : World) :
    onNewMap n obs newMap w = (continuation n obs newMap w).1 := by
  unfold onNewMap continuation
  cases prop obs "sensor" with
  | error e => rfl
  | ok sensor =>
      cases sensorIn obs newMap with
      | error e => rfl
      | ok known =>
          cases known with
          | false => rfl
          | true =>
              cases invalidKeys obs newMap with
              | error e => rfl
              | ok keys => cases keys <;> rfl

def exceptionOf {α : Type} : Except Exception α → Option Exception
  | .ok _ => none
  | .error e => some e

/-- The exception that a call raises, with the number of the payload it belongs to. -/
def raised (w : World) : Call → Option (Nat × Exception)
  | .handle none _ => some (w.handled.length, .syntaxError)
  | .handle (some obs) map =>
      (exceptionOf (parseInsertEmit w.handled.length obs map
        { w with handled := w.handled ++ [some obs] }).2).map fun e => (w.handled.length, e)
  | .settle i (.ok newMap) =>
      match w.pulls[i]? with
      | none => none
      | some (n, obs) => (exceptionOf (continuation n obs newMap w).2).map fun e => (n, e)
  | .settle _ (.error _) => none

/-- A call of `redshift_insert` or of `log.error`. -/
def Effect.heard : Effect → Bool
  | redshiftInsert _ _ _ | logError _ => true
  | _ => false

/-- Every payload that waits for no pull was written or logged, and every exception
raised so far was logged. -/
structure Heard (tr : List (World × Call)) (w : World) : Prop where
  ended : ∀ n obs, w.handled[n]? = some (some obs) → n ∉ w.waiting →
    ∃ e ∈ w.effectsOf n, e.heard = true
  logged : ∀ x ∈ tr, ∀ n e, raised x.1 x.2 = some (n, e) →
    .logError (.exception e) ∈ w.effectsOf n

/-- The continuation can work with the observation and the map: if the map has the
sensor, the keys of `obs.data` can be listed, `in` works on the entry if there are
any, and an entry that passes the check has texts only. -/
structure Workable (obs : Json) (newMap : SensorMap) : Prop where
  data : sensorIn obs newMap = .ok true → (field obs "data").Readable
  entry : sensorIn obs newMap = .ok true → (field obs "data").objectKeys ≠ .ok [] →
    ∀ entry, sensorEntry obs newMap = .ok entry → entry.isObject = true
  texts : needsPull obs newMap = .ok false → ∃ entry keys, Mapped obs newMap entry keys

/-- The pulls that end in this call find a map that their observations can work with. -/
def PullWorkable (w : World) : Call → Prop
  | .settle i (.ok newMap) => ∀ n obs, w.pulls[i]? = some (n, obs) → Workable obs newMap
  | .settle _ (.error _) | .handle _ _ => True

section
variable {obs : Json} {map : SensorMap}

theorem invalidKey_ok_iff {entry : Value} (hentry : sensorEntry obs map = .ok entry)
    (acc : List String) (key : String) :
    (∃ keys, invalidKey obs map acc key = .ok keys) ↔ entry.isObject = true := by
  have hbody : invalidKey obs map acc key =
      (entry.hasProperty key >>= fun known => .ok (if known then acc else acc ++ [key])) := by
    rw [invalidKey, hentry]
    rfl
  rw [← Value.hasProperty_ok_iff entry key, hbody]
  refine ⟨?_, ?_⟩
  · rintro ⟨keys, hkeys⟩
    obtain ⟨known, hknown, -⟩ := bind_eq_ok.mp hkeys
    exact ⟨known, hknown⟩
  · rintro ⟨known, hknown⟩
    exact ⟨_, bind_eq_ok.mpr ⟨known, hknown, rfl⟩⟩

/-- The check of a known sensor throws when the keys of `obs.data` cannot be listed,
and when there are keys but no object to look them up in. -/
theorem invalidKeys_ok_iff {entry : Value} (hobs : (Value.json obs).Readable)
    (hentry : sensorEntry obs map = .ok entry) :
    (∃ keys, invalidKeys obs map = .ok keys) ↔
      (field obs "data").Readable ∧
        ((field obs "data").objectKeys ≠ .ok [] → entry.isObject = true) := by
  have hbody : invalidKeys obs map =
      ((field obs "data").objectKeys >>= fun keys => keys.foldlM (invalidKey obs map) []) := by
    rw [invalidKeys, prop_eq_field hobs]
    rfl
  rw [← Value.objectKeys_ok_iff, hbody]
  refine ⟨?_, ?_⟩
  · rintro ⟨keys, hkeys⟩
    obtain ⟨dataKeys, hdataKeys, hkeys⟩ := bind_eq_ok.mp hkeys
    refine ⟨⟨dataKeys, hdataKeys⟩, ?_⟩
    intro hne
    obtain ⟨key, hmem⟩ := List.exists_mem_of_ne_nil dataKeys fun hnil => hne (hnil ▸ hdataKeys)
    obtain ⟨acc, acc', hstep⟩ := step_of_foldlM_ok hkeys hmem
    exact (invalidKey_ok_iff hentry acc key).mp ⟨acc', hstep⟩
  · rintro ⟨⟨dataKeys, hdataKeys⟩, hobject⟩
    have hfold : ∃ keys, dataKeys.foldlM (invalidKey obs map) [] = .ok keys := by
      apply foldlM_exists_ok
      intro acc key hmem
      refine (invalidKey_ok_iff hentry acc key).mpr (hobject ?_)
      rw [hdataKeys]
      intro hnil
      rw [Except.ok.inj hnil] at hmem
      exact absurd hmem List.not_mem_nil
    obtain ⟨keys, hkeys⟩ := hfold
    exact ⟨keys, bind_eq_ok.mpr ⟨dataKeys, hdataKeys, hkeys⟩⟩

theorem formatObs_ok_iff (hobs : (Value.json obs).Readable) (hdata : (field obs "data").Readable) :
    (∃ objects, formatObs obs map = .ok objects) ↔ ∃ entry keys, Mapped obs map entry keys := by
  refine ⟨?_, ?_⟩
  · rintro ⟨objects, hobjects⟩
    exact Mapped.of_formatObs hobjects
  · rintro ⟨entry, keys, hmapped⟩
    exact ⟨_, hmapped.formatObs_eq hobs hdata⟩

/-- The continuation of a pull raises nothing exactly when it can work with the map. -/
theorem continuation_ok_iff (n : Nat) (w : World) (hnamed : Named obs) :
    (continuation n obs map w).2 = .ok () ↔ Workable obs map := by
  have hobs := hnamed.readable
  obtain ⟨entry, hentry⟩ : ∃ entry, sensorEntry obs map = .ok entry := ⟨_, hnamed.sensorEntry_eq map⟩
  obtain ⟨known, hin⟩ : ∃ known, sensorIn obs map = .ok known := ⟨_, hnamed.sensorIn_eq map⟩
  cases known with
  | false =>
      have hstale : needsPull obs map ≠ .ok false := by simp [needsPull, hin, bind, Except.bind]
      have hok : (continuation n obs map w).2 = .ok () := by
        simp only [continuation, prop_eq_field hobs, hin]
      refine ⟨fun _ => ⟨?_, ?_, fun h => absurd h hstale⟩, fun _ => hok⟩
      · simp [hin]
      · simp [hin]
  | true =>
      have hkeys := invalidKeys_ok_iff hobs hentry
      cases hinvalid : invalidKeys obs map with
      | error e =>
          simp only [hinvalid] at hkeys
          simp only [continuation, prop_eq_field hobs, hin, hinvalid]
          refine ⟨?_, ?_⟩
          · intro h
            cases h
          · intro hwork
            obtain ⟨keys, hcontra⟩ := hkeys.mpr
              ⟨hwork.data hin, fun hne => hwork.entry hin hne entry hentry⟩
            cases hcontra
      | ok keys =>
          obtain ⟨hdata, hobject⟩ := hkeys.mp ⟨keys, hinvalid⟩
          have hwork : Workable obs map ↔
              (needsPull obs map = .ok false → ∃ entry keys, Mapped obs map entry keys) := by
            refine ⟨fun h => h.texts, fun h => ⟨fun _ => hdata, ?_, h⟩⟩
            intro _ hne entry' hentry'
            obtain rfl := Except.ok.inj (hentry.symm.trans hentry')
            exact hobject hne
          rw [hwork, needsPull_eq_false_iff]
          cases keys with
          | cons key keys =>
              simp [continuation, prop_eq_field hobs, hin, hinvalid]
          | nil =>
              simp only [continuation, prop_eq_field hobs, hin, hinvalid, emitFormatted_snd,
                and_self, forall_const]
              rw [← formatObs_ok_iff hobs hdata]
              cases formatObs obs map <;> simp [Except.map]

end

theorem exceptionOf_eq_some {α : Type} {r : Except Exception α} {e : Exception} :
    exceptionOf r = some e ↔ r = .error e := by
  cases r <;> simp [exceptionOf]

/-- The handler of `processRecords` logs what the synchronous path raises. -/
theorem logged_handle {w : World} {payload : Option Json} {map : SensorMap} {n : Nat}
    {e : Exception} (h : raised w (.handle payload map) = some (n, e)) :
    n = w.handled.length ∧ .logError (.exception e) ∈ handleEffects payload map := by
  cases payload with
  | none =>
      obtain ⟨rfl, rfl⟩ := Prod.mk.inj (Option.some.inj h)
      exact ⟨rfl, List.mem_singleton_self _⟩
  | some obs =>
      obtain ⟨e', he', hpair⟩ := Option.map_eq_some_iff.mp h
      obtain ⟨rfl, rfl⟩ := Prod.mk.inj hpair
      rw [exceptionOf_eq_some] at he'
      refine ⟨rfl, ?_⟩
      cases hneeds : needsPull obs map with
      | error e =>
          simp only [parseInsertEmit, hneeds, Except.error.injEq] at he'
          simp [handleEffects, hneeds, he']
      | ok stale =>
          cases stale with
          | true => simp [parseInsertEmit, hneeds] at he'
          | false =>
              rw [parseInsertEmit_fast _ _ hneeds] at he'
              cases hformat : formatObs obs map with
              | ok objects => simp [hformat, Except.map] at he'
              | error e =>
                  simp only [hformat, Except.map, Except.error.injEq] at he'
                  simp [handleEffects, hneeds, hformat, he']

/-- A payload that opens no pull is written or logged at once. -/
theorem heard_handleEffects {obs : Json} {map : SensorMap} (h : needsPull obs map ≠ .ok true) :
    ∃ e ∈ handleEffects (some obs) map, e.heard = true := by
  cases hneeds : needsPull obs map with
  | error e => exact ⟨_, by simp [handleEffects, hneeds]; rfl, rfl⟩
  | ok stale =>
      cases stale with
      | true => exact absurd hneeds h
      | false => exact ⟨.redshiftInsert obs map false, by simp [handleEffects, hneeds], rfl⟩

/-- The end of a pull logs a rejection and nothing else. -/
theorem not_logged_settle (blacklist : List Value) (obs : Json) (newMap : SensorMap) (e : Logged) :
    Effect.logError e ∉ settleEffects blacklist obs (.ok newMap) := by
  have hemissions : Effect.logError e ∉ emissions obs newMap := by
    unfold emissions
    cases formatObs obs newMap <;> simp
  cases houtcome : outcomeOf obs newMap with
  | none => simp [settleEffects, houtcome]
  | some outcome =>
      cases outcome with
      | error sensor type =>
          simp only [settleEffects, houtcome, List.mem_append, List.mem_singleton, not_or]
          refine ⟨?_, Effect.noConfusion⟩
          split <;> simp
      | fixed sensor => simp [settleEffects, houtcome, hemissions]

/-- A continuation that raises nothing has written the observation. -/
theorem heard_settleEffects {n : Nat} {obs : Json} {newMap : SensorMap} {w : World}
    (blacklist : List Value) (h : (continuation n obs newMap w).2 = .ok ()) :
    ∃ e ∈ settleEffects blacklist obs (.ok newMap), e.heard = true := by
  unfold continuation at h
  cases hsensor : prop obs "sensor" with
  | error e => simp [hsensor] at h
  | ok sensor =>
      cases hin : sensorIn obs newMap with
      | error e => simp [hsensor, hin] at h
      | ok known =>
          cases known with
          | false =>
              exact ⟨.redshiftInsert obs newMap true,
                by simp [settleEffects, outcomeOf, hsensor, hin], rfl⟩
          | true =>
              cases hkeys : invalidKeys obs newMap with
              | error e => simp [hsensor, hin, hkeys] at h
              | ok keys =>
                  cases keys with
                  | nil =>
                      exact ⟨.redshiftInsert obs newMap false,
                        by simp [settleEffects, outcomeOf, hsensor, hin, hkeys], rfl⟩
                  | cons key keys =>
                      exact ⟨.redshiftInsert obs newMap true,
                        by simp [settleEffects, outcomeOf, hsensor, hin, hkeys], rfl⟩

section
variable {tr : List (World × Call)} {w w' : World}

theorem heard_handle (h : Heard tr w) (hw : Pending w) (payload : Option Json) (map : SensorMap) :
    Heard (tr ++ [(w, .handle payload map)]) (handle payload map w).1 := by
  refine ⟨?_, ?_⟩
  · intro n obs hn hwaiting
    rw [World.waiting, handle_pulls, List.map_append, List.mem_append, not_or] at hwaiting
    rw [handle_handled] at hn
    rcases getElem?_push hn with ⟨hlt, hn⟩ | ⟨rfl, rfl⟩
    · rw [handle_effectsOf_lt payload map hlt]
      exact h.ended n obs hn hwaiting.1
    · rw [handle_effectsOf_last hw.numbered]
      apply heard_handleEffects
      intro hpull
      simp [newPull, hpull] at hwaiting
  · intro x hx n e hraised
    rw [handle_effectsOf]
    rcases List.mem_append.mp hx with hx | hx
    · have hlogged := h.logged x hx n e hraised
      split
      · exact List.mem_append_left _ hlogged
      · exact hlogged
    · obtain rfl := List.mem_singleton.mp hx
      obtain ⟨rfl, hlogged⟩ := logged_handle hraised
      rw [if_pos rfl]
      exact List.mem_append_right _ hlogged

/-- The pull of a payload ends. The other payloads are as they were. -/
theorem heard_settle_of {i n : Nat} {obs : Json} {result : Except String SensorMap}
    (h : Heard tr w) (hw : Pending w) (hpull : w.pulls[i]? = some (n, obs))
    (hs : settle i result w = some w')
    (hheard : ∃ e ∈ settleEffects w.blacklist obs result, e.heard = true)
    (hraised : raised w (.settle i result) = none) :
    Heard (tr ++ [(w, .settle i result)]) w' := by
  obtain ⟨n', obs', hpull', hhandled, hpulls, heffects⟩ := settle_fields hs
  obtain ⟨rfl, rfl⟩ := Prod.mk.inj (Option.some.inj (hpull.symm.trans hpull'))
  refine ⟨?_, ?_⟩
  · intro k o hk hwaiting
    rw [hhandled] at hk
    rw [heffects]
    by_cases hkn : k = n
    · obtain ⟨e, he, hheard⟩ := hheard
      rw [if_pos hkn]
      exact ⟨e, List.mem_append_right _ he, hheard⟩
    · rw [if_neg hkn]
      rw [mem_waiting_settle hw hpull hpulls] at hwaiting
      exact h.ended k o hk fun hmem => hwaiting ⟨hkn, hmem⟩
  · intro x hx k e hx'
    rw [heffects]
    rcases List.mem_append.mp hx with hx | hx
    · have hlogged := h.logged x hx k e hx'
      split
      · exact List.mem_append_left _ hlogged
      · exact hlogged
    · obtain rfl := List.mem_singleton.mp hx
      rw [hraised] at hx'
      cases hx'

theorem raised_settle {i n : Nat} {obs : Json} {newMap : SensorMap}
    (hpull : w.pulls[i]? = some (n, obs)) :
    raised w (.settle i (.ok newMap)) =
      (exceptionOf (continuation n obs newMap w).2).map fun e => (n, e) := by
  simp only [raised, hpull]

/-- A pull that ends with a map keeps the property exactly when the continuation can
work with it. -/
theorem heard_settle_iff {i n : Nat} {obs : Json} {newMap : SensorMap} (h : Heard tr w)
    (hw : Pending w) (hpull : w.pulls[i]? = some (n, obs))
    (hs : settle i (.ok newMap) w = some w') :
    Heard (tr ++ [(w, .settle i (.ok newMap))]) w' ↔ Workable obs newMap := by
  obtain ⟨-, hnamed, hasked⟩ := hw.asked _ (List.mem_of_getElem? hpull)
  rw [← continuation_ok_iff n w hnamed]
  refine ⟨?_, ?_⟩
  · intro hheard
    cases hraised : (continuation n obs newMap w).2 with
    | ok u => rfl
    | error e =>
        -- nothing has been logged about this payload, and nothing is now
        have hlogged := hheard.logged _ (List.mem_append_right _ (List.mem_singleton_self _)) n e
          (by rw [raised_settle hpull, hraised]; rfl)
        obtain ⟨n', obs', hpull', -, -, heffects⟩ := settle_fields hs
        obtain ⟨rfl, rfl⟩ := Prod.mk.inj (Option.some.inj (hpull.symm.trans hpull'))
        rw [heffects, if_pos rfl, hasked, List.mem_append] at hlogged
        rcases hlogged with hlogged | hlogged
        · cases List.mem_singleton.mp hlogged
        · exact absurd hlogged (not_logged_settle _ _ _ _)
  · intro hok
    refine heard_settle_of h hw hpull hs (heard_settleEffects w.blacklist hok) ?_
    rw [raised_settle hpull, hok]
    rfl

theorem heard_step_iff {a : Call} (h : Heard tr w) (hw : Pending w)
    (hs : mapper.step w a = some w') : Heard (tr ++ [(w, a)]) w' ↔ PullWorkable w a := by
  cases a with
  | handle payload map =>
      obtain rfl := Option.some.inj hs
      exact iff_of_true (heard_handle h hw payload map) trivial
  | settle i result =>
      obtain ⟨n, obs, hpull, -⟩ := settle_eq_some hs
      cases result with
      | error reason =>
          refine iff_of_true (heard_settle_of h hw hpull hs ?_ rfl) trivial
          exact ⟨.logError (.rejected reason), List.mem_singleton_self _, rfl⟩
      | ok newMap =>
          rw [heard_settle_iff h hw hpull hs]
          refine ⟨?_, ?_⟩
          · intro hwork n' obs' hpull'
            obtain ⟨rfl, rfl⟩ := Prod.mk.inj (Option.some.inj (hpull.symm.trans hpull'))
            exact hwork
          · intro hwork
            exact hwork n obs hpull

end

/-- Over every run, with any payloads and maps and the pulls ending in any order: no
observation vanishes silently, and no exception is swallowed, in any state that the run
passes, exactly when every pull that succeeds ends with a map that its continuation can
work with. -/
theorem no_silent_loss_iff {tr : List (World × Call)} {w : World} (h : mapper.Run tr w) :
    mapper.Always Heard tr ↔ ∀ x ∈ tr, PullWorkable x.1 x.2 := by
  refine h.always_iff Heard PullWorkable ?_ ?_
  · refine ⟨?_, ?_⟩
    · intro n obs hn
      exact absurd hn (by simp [mapper, World.initial])
    · intro x hx
      exact absurd hx List.not_mem_nil
  · intro tr w a w' hrun hall hs
    exact heard_step_iff (hall.last hrun) (pending_run hrun) hs

theorem tmp112_workable : Workable tmp112Obs tmp112Map := by
  refine ⟨?_, ?_, ?_⟩
  · intro _
    exact (Value.objectKeys_ok_iff _).mp ⟨_, rfl⟩
  · intro _ _ entry hentry
    obtain rfl := Except.ok.inj (tmp112_mapped.found.symm.trans hentry)
    rfl
  · intro _
    exact ⟨_, _, tmp112_mapped⟩

/-- The sensor is unknown at first, and the pulled map has it. -/
theorem no_silent_loss_tmp112 :
    ∃ tr w, mapper.Run tr w ∧ w.handled = [some tmp112Obs] ∧ w.pulls = [] ∧
      mapper.Always Heard tr := by
  have hrun := System.Run.nil.exec (S := mapper)
    [.handle (some tmp112Obs) .empty, .settle 0 (.ok tmp112Map)] rfl
  refine ⟨_, _, hrun, rfl, rfl, (no_silent_loss_iff hrun).mpr ?_⟩
  intro x hx
  simp only [List.nil_append, List.mem_cons, List.not_mem_nil, or_false] at hx
  rcases hx with rfl | rfl
  · trivial
  · intro n obs hpull
    obtain ⟨-, rfl⟩ := Prod.mk.inj (Option.some.inj hpull)
    exact tmp112_workable

/-- An observation without data, of a sensor that only the pulled map has: the check
throws inside the continuation. -/
theorem silent_loss_no_data :
    ∃ tr w, mapper.Run tr w ∧ w.handled = [some (.obj [("sensor", .str "TMP112")])] ∧
      w.pulls = [] ∧ w.effectsOf 0 = [.updateMap] ∧ ¬ Heard tr w := by
  have hrun := System.Run.nil.exec (S := mapper)
    [.handle (some (.obj [("sensor", .str "TMP112")])) .empty, .settle 0 (.ok tmp112Map)] rfl
  refine ⟨_, _, hrun, rfl, rfl, rfl, ?_⟩
  intro hheard
  obtain ⟨e, he, hinsert⟩ := hheard.ended 0 _ rfl List.not_mem_nil
  obtain rfl := List.mem_singleton.mp he
  cases hinsert

end PlenarioStream.Consumer

import PlenarioStream.Consumer.Formatting

/-!
What one step of the mapper does to its world, said once: handling a payload adds
the effects of its number and perhaps a pull, and the end of a pull adds effects
of the number it belongs to and may change the blacklist. The effects and the
change depend on nothing else in the world.
-/
namespace PlenarioStream.Consumer
open Js

/-- Record several effects of one number. -/
def World.add (w : World) (n : Nat) (effects : List Effect) : World :=
  { w with trace := w.trace ++ effects.map fun e => (n, e) }

/-- The effects of one number, in order. -/
def World.effectsOf (w : World) (n : Nat) : List Effect :=
  (w.trace.filter fun e => e.1 = n).map Prod.snd

/-- What printing and emitting the list of `format_obs` adds. -/
def emissions (obs : Json) (map : SensorMap) : List Effect :=
  .stdout "in format_obs" ::
    match formatObs obs map with
    | .ok objects => objects.map .emit
    | .error _ => []

def handleEffects (payload : Option Json) (map : SensorMap) : List Effect :=
  match payload with
  | none => [.logError (.exception .syntaxError)]
  | some obs =>
      match needsPull obs map with
      | .error e => [.logError (.exception e)]
      | .ok true => [.updateMap]
      | .ok false =>
          .redshiftInsert obs map false :: (emissions obs map ++
            match formatObs obs map with
            | .ok _ => []
            | .error e => [.logError (.exception e)])

/-- The pull that a payload opens. -/
def newPull (n : Nat) (payload : Option Json) (map : SensorMap) : List (Nat × Json) :=
  match payload with
  | none => []
  | some obs =>
      match needsPull obs map with
      | .ok true => [(n, obs)]
      | _ => []

def signalOf (payload : Option Json) (map : SensorMap) : Option Bool :=
  match payload with
  | none => none
  | some obs =>
      match needsPull obs map, formatObs obs map with
      | .ok false, .ok _ => some false
      | _, _ => none

inductive Outcome
  | error (sensor : Value) (type : MessageType)
  | fixed (sensor : Value)

/-- The branch that a pulled map leads to, none when a check throws. -/
def outcomeOf (obs : Json) (newMap : SensorMap) : Option Outcome :=
  match prop obs "sensor", sensorIn obs newMap with
  | .ok sensor, .ok false => some (.error sensor .doesNotExist)
  | .ok sensor, .ok true =>
      match invalidKeys obs newMap with
      | .error _ => none
      | .ok (key :: keys) => some (.error sensor (.invalidKey (key :: keys)))
      | .ok [] => some (.fixed sensor)
  | _, _ => none

def settleOutcome (obs : Json) : Except String SensorMap → Option Outcome
  | .error _ => none
  | .ok newMap => outcomeOf obs newMap

def settleEffects (blacklist : List Value) (obs : Json) : Except String SensorMap → List Effect
  | .error reason => [.logError (.rejected reason)]
  | .ok newMap =>
      match outcomeOf obs newMap with
      | none => []
      | some (.error sensor type) =>
          (if indexOf Value.strictEq blacklist sensor < 0 then [.post sensor (type.text sensor)]
            else []) ++ [.redshiftInsert obs newMap true]
      | some (.fixed sensor) =>
          [.post sensor "resolve", .redshiftInsert obs newMap false] ++ emissions obs newMap

/-- The edit of the blacklist that belongs to an outcome. -/
def editBlacklist (blacklist : List Value) : Option Outcome → List Value
  | none => blacklist
  | some (.error sensor _) =>
      if indexOf Value.strictEq blacklist sensor < 0 then blacklist ++ [sensor] else blacklist
  | some (.fixed sensor) => splice blacklist (indexOf Value.strictEq blacklist sensor) 1

section
variable (w : World) (n : Nat) (effects : List Effect)

@[simp] theorem World.add_blacklist : (w.add n effects).blacklist = w.blacklist := rfl
@[simp] theorem World.add_pulls : (w.add n effects).pulls = w.pulls := rfl
@[simp] theorem World.add_handled : (w.add n effects).handled = w.handled := rfl

theorem World.record_eq_add (e : Effect) : w.record n e = w.add n [e] := rfl

@[simp] theorem World.add_nil : w.add n [] = w := by
  simp [World.add]

@[simp] theorem World.add_add (more : List Effect) :
    (w.add n effects).add n more = w.add n (effects ++ more) := by
  simp [World.add]

theorem World.effectsOf_add (k : Nat) :
    (w.add n effects).effectsOf k = if k = n then w.effectsOf k ++ effects else w.effectsOf k := by
  by_cases h : k = n
  · subst h
    simp [World.add, World.effectsOf, List.filter_map, Function.comp_def]
  · have hn : ∀ e ∈ effects.map fun e => (n, e), ¬ decide (e.1 = k) = true := by
      intro e he
      obtain ⟨f, -, rfl⟩ := List.mem_map.mp he
      simpa using Ne.symm h
    rw [if_neg h, World.effectsOf, World.add, List.filter_append, List.filter_eq_nil_iff.mpr hn,
      List.append_nil]
    rfl

end

theorem emitFormatted_fst (n : Nat) (obs : Json) (map : SensorMap) (w : World) :
    (emitFormatted n obs map w).1 = w.add n (emissions obs map) := by
  have hfold : ∀ (objects : List Formatted) (w : World),
      objects.foldl (fun w o => w.record n (.emit o)) w = w.add n (objects.map .emit) := by
    intro objects
    induction objects with
    | nil => intro w; simp
    | cons o objects ih =>
        intro w
        rw [List.foldl_cons, ih, World.record_eq_add, World.add_add]
        rfl
  unfold emitFormatted emissions
  cases formatObs obs map with
  | error e => rfl
  | ok objects =>
      simp only [hfold]
      rw [World.record_eq_add, World.add_add]
      rfl

theorem emitFormatted_snd (n : Nat) (obs : Json) (map : SensorMap) (w : World) :
    (emitFormatted n obs map w).2 = (formatObs obs map).map fun _ => () := by
  unfold emitFormatted
  cases formatObs obs map <;> rfl

theorem parseInsertEmit_fast {obs : Json} {map : SensorMap} (n : Nat) (w : World)
    (h : needsPull obs map = .ok false) :
    parseInsertEmit n obs map w =
      (w.add n (.redshiftInsert obs map false :: emissions obs map),
        (formatObs obs map).map fun _ => some false) := by
  simp only [parseInsertEmit, h, emitFormatted_fst, emitFormatted_snd, World.record_eq_add,
    World.add_add, List.singleton_append]
  cases formatObs obs map <;> rfl

theorem handle_fst (payload : Option Json) (map : SensorMap) (w : World) :
    (handle payload map w).1 =
      { w with
        handled := w.handled ++ [payload]
        pulls := w.pulls ++ newPull w.handled.length payload map }.add
          w.handled.length (handleEffects payload map) := by
  cases payload with
  | none => simp [handle, World.record_eq_add, newPull, handleEffects]
  | some obs =>
      cases hneeds : needsPull obs map with
      | error e =>
          simp [handle, parseInsertEmit, hneeds, World.record_eq_add, newPull, handleEffects]
      | ok stale =>
          cases stale with
          | true =>
              simp [handle, parseInsertEmit, hneeds, World.record, World.add, newPull, handleEffects]
          | false =>
              simp only [handle, parseInsertEmit_fast _ _ hneeds, newPull, handleEffects, hneeds,
                List.append_nil]
              cases formatObs obs map with
              | error e => simp [Except.map, World.record_eq_add]
              | ok objects => simp [Except.map]

/-- The caller sees `false` on the fast path, and nothing otherwise. -/
theorem handle_snd (payload : Option Json) (map : SensorMap) (w : World) :
    (handle payload map w).2 = signalOf payload map := by
  cases payload with
  | none => rfl
  | some obs =>
      cases hneeds : needsPull obs map with
      | error e => simp [handle, parseInsertEmit, hneeds, signalOf]
      | ok stale =>
          cases stale with
          | true => simp [handle, parseInsertEmit, hneeds, signalOf]
          | false =>
              simp only [handle, parseInsertEmit_fast _ _ hneeds, signalOf, hneeds]
              cases formatObs obs map <;> rfl

theorem sendError_eq (n : Nat) (sensor : Value) (type : MessageType) (w : World) :
    sendError n sensor type w =
      { w with blacklist := editBlacklist w.blacklist (some (.error sensor type)) }.add n
        (if indexOf Value.strictEq w.blacklist sensor < 0 then [.post sensor (type.text sensor)]
          else []) := by
  by_cases h : indexOf Value.strictEq w.blacklist sensor < 0
  · simp [sendError, editBlacklist, h, World.record, World.add]
  · simp [sendError, editBlacklist, h]

theorem sendCorrect_eq (n : Nat) (sensor : Value) (w : World) :
    sendCorrect n sensor w =
      { w with blacklist := editBlacklist w.blacklist (some (.fixed sensor)) }.add n
        [.post sensor "resolve"] := rfl

theorem onNewMap_eq (n : Nat) (obs : Json) (newMap : SensorMap) (w : World) :
    onNewMap n obs newMap w =
      { w with blacklist := editBlacklist w.blacklist (outcomeOf obs newMap) }.add n
        (settleEffects w.blacklist obs (.ok newMap)) := by
  cases hsensor : prop obs "sensor" with
  | error e => simp [onNewMap, outcomeOf, settleEffects, hsensor, editBlacklist]
  | ok sensor =>
      cases hin : sensorIn obs newMap with
      | error e => simp [onNewMap, outcomeOf, settleEffects, hsensor, hin, editBlacklist]
      | ok known =>
          cases known with
          | false =>
              simp only [onNewMap, outcomeOf, settleEffects, hsensor, hin, sendError_eq,
                World.record_eq_add, World.add_add]
          | true =>
              cases hkeys : invalidKeys obs newMap with
              | error e => simp [onNewMap, outcomeOf, settleEffects, hsensor, hin, hkeys, editBlacklist]
              | ok keys =>
                  cases keys with
                  | nil =>
                      simp only [onNewMap, outcomeOf, settleEffects, hsensor, hin, hkeys,
                        emitFormatted_fst, sendCorrect_eq, World.record_eq_add, World.add_add,
                        List.cons_append, List.nil_append]
                  | cons key keys =>
                      simp only [onNewMap, outcomeOf, settleEffects, hsensor, hin, hkeys,
                        sendError_eq, World.record_eq_add, World.add_add]

/-- A pull that ends adds the effects of its number and edits the blacklist. -/
theorem settle_eq_some {i : Nat} {result : Except String SensorMap} {w w' : World}
    (h : settle i result w = some w') :
    ∃ n obs, w.pulls[i]? = some (n, obs) ∧
      w' = { w with
        pulls := w.pulls.eraseIdx i
        blacklist := editBlacklist w.blacklist (settleOutcome obs result) }.add
          n (settleEffects w.blacklist obs result) := by
  unfold settle at h
  cases hpull : w.pulls[i]? with
  | none => simp [hpull] at h
  | some pull =>
      obtain ⟨n, obs⟩ := pull
      refine ⟨n, obs, rfl, ?_⟩
      simp only [hpull] at h
      cases result with
      | error reason =>
          obtain rfl := Option.some.inj h
          rfl
      | ok newMap =>
          obtain rfl := Option.some.inj h
          rw [onNewMap_eq]
          rfl

/-- The same, field by field. -/
theorem settle_fields {i : Nat} {result : Except String SensorMap} {w w' : World}
    (h : settle i result w = some w') :
    ∃ n obs, w.pulls[i]? = some (n, obs) ∧ w'.handled = w.handled ∧
      w'.pulls = w.pulls.eraseIdx i ∧
      ∀ k, w'.effectsOf k =
        if k = n then w.effectsOf k ++ settleEffects w.blacklist obs result else w.effectsOf k := by
  obtain ⟨n, obs, hpull, rfl⟩ := settle_eq_some h
  refine ⟨n, obs, hpull, rfl, rfl, ?_⟩
  intro k
  rw [World.effectsOf_add]
  rfl

theorem handle_handled (payload : Option Json) (map : SensorMap) (w : World) :
    (handle payload map w).1.handled = w.handled ++ [payload] := by
  rw [handle_fst]
  rfl

theorem handle_pulls (payload : Option Json) (map : SensorMap) (w : World) :
    (handle payload map w).1.pulls = w.pulls ++ newPull w.handled.length payload map := by
  rw [handle_fst]
  rfl

theorem handle_effectsOf (payload : Option Json) (map : SensorMap) (w : World) (k : Nat) :
    (handle payload map w).1.effectsOf k =
      if k = w.handled.length then w.effectsOf k ++ handleEffects payload map
      else w.effectsOf k := by
  rw [handle_fst, World.effectsOf_add]
  rfl

theorem fst_of_mem_newPull {n : Nat} {payload : Option Json} {map : SensorMap} {p : Nat × Json}
    (h : p ∈ newPull n payload map) : p.1 = n := by
  cases payload with
  | none => simp [newPull] at h
  | some obs =>
      simp only [newPull] at h
      split at h
      · rw [List.mem_singleton.mp h]
      · simp at h

/-- Pulls and effects belong to payloads that were handled. -/
structure Numbered (w : World) : Prop where
  pulls : ∀ p ∈ w.pulls, p.1 < w.handled.length
  fresh : ∀ n, w.handled.length ≤ n → w.effectsOf n = []

theorem numbered_initial : Numbered .initial :=
  ⟨fun _ hp => absurd hp List.not_mem_nil, fun _ _ => rfl⟩

theorem numbered_handle {w : World} (h : Numbered w) (payload : Option Json) (map : SensorMap) :
    Numbered (handle payload map w).1 := by
  refine ⟨?_, ?_⟩
  · intro p hp
    rw [handle_handled, List.length_append, List.length_singleton]
    rw [handle_pulls, List.mem_append] at hp
    rcases hp with hp | hp
    · exact Nat.lt_succ_of_lt (h.pulls p hp)
    · rw [fst_of_mem_newPull hp]
      exact Nat.lt_succ_self _
  · intro n hn
    rw [handle_handled, List.length_append, List.length_singleton] at hn
    rw [handle_effectsOf, if_neg (by omega)]
    exact h.fresh n (by omega)

theorem numbered_settle {w w' : World} (h : Numbered w) {i : Nat}
    {result : Except String SensorMap} (hs : settle i result w = some w') : Numbered w' := by
  obtain ⟨n, obs, hpull, hhandled, hpulls, heffects⟩ := settle_fields hs
  have hn : n < w.handled.length := h.pulls _ (List.mem_of_getElem? hpull)
  refine ⟨?_, ?_⟩
  · intro p hp
    rw [hpulls] at hp
    rw [hhandled]
    exact h.pulls p (List.mem_of_mem_eraseIdx hp)
  · intro k hk
    rw [hhandled] at hk
    rw [heffects, if_neg (Nat.ne_of_gt (Nat.lt_of_lt_of_le hn hk))]
    exact h.fresh k hk

/-- The effects of the newest payload are its own. -/
theorem handle_effectsOf_last {w : World} (h : Numbered w) (payload : Option Json)
    (map : SensorMap) :
    (handle payload map w).1.effectsOf w.handled.length = handleEffects payload map := by
  rw [handle_effectsOf, if_pos rfl, h.fresh _ Nat.le.refl, List.nil_append]

theorem handle_effectsOf_lt (payload : Option Json) (map : SensorMap) {w : World} {k : Nat}
    (hk : k < w.handled.length) : (handle payload map w).1.effectsOf k = w.effectsOf k := by
  rw [handle_effectsOf, if_neg (Nat.ne_of_lt hk)]

/-- The numbers of the payloads that wait for a pull. -/
def World.waiting (w : World) : List Nat := w.pulls.map Prod.fst

/-- The sensor of an observation can be looked up in a map. -/
structure Named (obs : Json) : Prop where
  readable : (Value.json obs).Readable
  printable : (field obs "sensor").printable = true

/-- A payload that waits for a pull is an observation and has only asked for a map. -/
structure Pending (w : World) : Prop where
  numbered : Numbered w
  asked : ∀ p ∈ w.pulls, w.handled[p.1]? = some (some p.2) ∧ Named p.2 ∧
    w.effectsOf p.1 = [.updateMap]
  nodup : w.waiting.Nodup

theorem length_not_waiting {w : World} (h : Numbered w) : w.handled.length ∉ w.waiting := by
  intro hmem
  obtain ⟨p, hp, hn⟩ := List.mem_map.mp hmem
  exact Nat.ne_of_lt (h.pulls p hp) hn

theorem newPull_cases (n : Nat) (payload : Option Json) (map : SensorMap) :
    newPull n payload map = [] ∨
      ∃ obs, payload = some obs ∧ needsPull obs map = .ok true ∧
        newPull n payload map = [(n, obs)] := by
  cases payload with
  | none => exact .inl rfl
  | some obs =>
      simp only [newPull]
      split
      · exact .inr ⟨obs, rfl, ‹_›, rfl⟩
      · exact .inl rfl

section
variable {obs : Json} {map : SensorMap}

theorem Named.sensorIn_eq (h : Named obs) (map : SensorMap) :
    sensorIn obs map = .ok (map.has (field obs "sensor").toText) := by
  rw [sensorIn, prop_eq_field h.readable]
  exact bind_eq_ok.mpr ⟨_, rfl, bind_eq_ok.mpr ⟨_, Value.text_eq h.printable, rfl⟩⟩

theorem Named.sensorEntry_eq (h : Named obs) (map : SensorMap) :
    sensorEntry obs map = .ok (map.get (field obs "sensor").toText) := by
  rw [sensorEntry, prop_eq_field h.readable]
  exact bind_eq_ok.mpr ⟨_, rfl, bind_eq_ok.mpr ⟨_, Value.text_eq h.printable, rfl⟩⟩

/-- The check begins with the sensor. -/
theorem named_of_needsPull {stale : Bool} (h : needsPull obs map = .ok stale) : Named obs := by
  obtain ⟨known, hknown, -⟩ := bind_eq_ok.mp h
  obtain ⟨sensor, hsensor, hknown⟩ := bind_eq_ok.mp hknown
  obtain ⟨name, hname, -⟩ := bind_eq_ok.mp hknown
  have hobs := Value.readable_of_get hsensor
  obtain rfl := Except.ok.inj ((prop_eq_field hobs "sensor").symm.trans hsensor)
  exact ⟨hobs, (Value.text_eq_ok_iff.mp hname).1⟩

end

theorem pending_initial : Pending .initial :=
  ⟨numbered_initial, fun _ hp => absurd hp List.not_mem_nil, List.nodup_nil⟩

theorem pending_handle {w : World} (h : Pending w) (payload : Option Json) (map : SensorMap) :
    Pending (handle payload map w).1 := by
  refine ⟨numbered_handle h.numbered payload map, ?_, ?_⟩
  · intro p hp
    rw [handle_pulls, List.mem_append] at hp
    rw [handle_handled]
    rcases hp with hp | hp
    · obtain ⟨hget, hread, heffects⟩ := h.asked p hp
      have hlt := (List.getElem?_eq_some_iff.mp hget).1
      refine ⟨?_, hread, ?_⟩
      · rw [List.getElem?_append_left hlt, hget]
      · rw [handle_effectsOf_lt _ _ hlt, heffects]
    · rcases newPull_cases w.handled.length payload map with hnil | ⟨obs, rfl, hcheck, hone⟩
      · rw [hnil] at hp
        exact absurd hp List.not_mem_nil
      · rw [hone] at hp
        obtain rfl := List.mem_singleton.mp hp
        refine ⟨List.getElem?_concat_length, named_of_needsPull hcheck, ?_⟩
        rw [handle_effectsOf_last h.numbered, handleEffects, hcheck]
  · rw [World.waiting, handle_pulls, List.map_append]
    rcases newPull_cases w.handled.length payload map with hnil | ⟨obs, rfl, -, hone⟩
    · rw [hnil, List.map_nil, List.append_nil]
      exact h.nodup
    · rw [hone, List.map_singleton, ← List.concat_eq_append]
      exact h.nodup.concat (length_not_waiting h.numbered)

/-- The payload whose pull ends does not wait any more, all others do. -/
theorem mem_waiting_settle {w w' : World} (h : Pending w) {i n : Nat} {obs : Json}
    (hpull : w.pulls[i]? = some (n, obs)) (hpulls : w'.pulls = w.pulls.eraseIdx i) (k : Nat) :
    k ∈ w'.waiting ↔ k ≠ n ∧ k ∈ w.waiting := by
  have herase : w'.waiting = w.waiting.eraseIdx i := by
    rw [World.waiting, hpulls, World.waiting, List.eraseIdx_eq_take_drop_succ,
      List.eraseIdx_eq_take_drop_succ, List.map_append, List.map_take, List.map_drop]
  have hget : w.waiting[i]? = some n := by
    rw [World.waiting, List.getElem?_map, hpull]
    rfl
  obtain ⟨hi, hfst⟩ := List.getElem?_eq_some_iff.mp hget
  rw [herase, ← h.nodup.erase_getElem i hi, hfst, h.nodup.mem_erase_iff]

theorem pending_settle {w w' : World} (h : Pending w) {i : Nat}
    {result : Except String SensorMap} (hs : settle i result w = some w') : Pending w' := by
  obtain ⟨n, obs, hpull, hhandled, hpulls, heffects⟩ := settle_fields hs
  refine ⟨numbered_settle h.numbered hs, ?_, ?_⟩
  · intro p hp
    have hne := ((mem_waiting_settle h hpull hpulls p.1).mp (List.mem_map_of_mem hp)).1
    rw [hpulls] at hp
    obtain ⟨hget, hread, hasked⟩ := h.asked p (List.mem_of_mem_eraseIdx hp)
    exact ⟨by rw [hhandled, hget], hread, by rw [heffects, if_neg hne, hasked]⟩
  · rw [World.waiting, hpulls]
    exact h.nodup.sublist ((List.eraseIdx_sublist _ _).map _)

theorem pending_run {tr : List (World × Call)} {w : World} (h : mapper.Run tr w) : Pending w := by
  refine h.invariant (fun _ w => Pending w) pending_initial ?_
  intro tr w a w' _ hinv hs
  cases a with
  | handle payload map =>
      obtain rfl := Option.some.inj hs
      exact pending_handle hinv payload map
  | settle i result => exact pending_settle hinv hs

/-- A pulled map leads to the branch that fixes the sensor when the check passes on it. -/
theorem outcomeOf_fixed_iff {obs : Json} {newMap : SensorMap} {sensor : Value} :
    outcomeOf obs newMap = some (.fixed sensor) ↔
      prop obs "sensor" = .ok sensor ∧ needsPull obs newMap = .ok false := by
  rw [needsPull_eq_false_iff, outcomeOf]
  cases prop obs "sensor" with
  | error e => simp
  | ok v =>
      cases sensorIn obs newMap with
      | error e => simp
      | ok known =>
          cases known with
          | false => simp
          | true =>
              cases invalidKeys obs newMap with
              | error e => simp
              | ok keys => cases keys <;> simp

/-- And to an error branch when it fails. -/
theorem outcomeOf_error {obs : Json} {newMap : SensorMap} {sensor : Value}
    (hsensor : prop obs "sensor" = .ok sensor) (hcheck : needsPull obs newMap = .ok true) :
    ∃ type, outcomeOf obs newMap = some (.error sensor type) := by
  unfold needsPull at hcheck
  unfold outcomeOf
  cases hin : sensorIn obs newMap with
  | error e => simp [hin, bind, Except.bind] at hcheck
  | ok known =>
      cases known with
      | false => exact ⟨_, by simp [hsensor]; rfl⟩
      | true =>
          cases hkeys : invalidKeys obs newMap with
          | error e => simp [hin, hkeys, bind, Except.bind] at hcheck
          | ok keys =>
              cases keys with
              | nil => simp [hin, hkeys, bind, Except.bind] at hcheck
              | cons key keys => exact ⟨_, by simp [hsensor]; rfl⟩

end PlenarioStream.Consumer

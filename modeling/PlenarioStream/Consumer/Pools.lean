import PlenarioStream.Consumer.Encoding
import PlenarioStream.Consumer.Silence

/-!
The callbacks that `update_map` and `redshift_insert` hand to their connection pools,
over whole runs. Each call keeps what its callbacks were given and what they did. They
are called in any order, between the steps of the mapper, whose calls of the two
functions start them; an exception that leaves a callback has no handler and ends the
process. Without a client the callback has no client to query, and without a result no
rows to go through.
-/
namespace PlenarioStream.Consumer
open Js Transition Grouping

/-- A row of `sensor__sensors`. -/
structure SensorRow where
  name : Json
  observedProperties : Json

/-- The body of the loop over the rows. -/
def addRow (map : SensorMap) (row : SensorRow) : Except Exception SensorMap := do
  let name ← (Value.json row.name).text
  .ok (map.assign name (.json row.observedProperties))

/-- The object that the loop fills. -/
def mapOfRows (rows : List SensorRow) : Except Exception SensorMap := rows.foldlM addRow .empty

/-- A call of `update_map`. The owner is the payload whose continuation waits for the
promise, if it is not the record processor. -/
structure UpdateCall where
  owner : Option Nat
  connected : Option (Option String)
  answered : Option (Except String (List SensorRow))
  released : Nat
  promise : Option (Except String SensorMap)

def UpdateCall.start (owner : Option Nat) : UpdateCall := ⟨owner, none, none, 0, none⟩

/-- The first settlement of a promise counts. -/
def UpdateCall.settle (c : UpdateCall) (result : Except String SensorMap) : UpdateCall :=
  { c with promise := c.promise <|> some result }

/-- The second argument of `reject`, the error, is dropped. -/
def UpdateCall.connectCallback (c : UpdateCall) (err : Option String) :
    UpdateCall × Except Exception Unit :=
  let c := { c with connected := some err }
  match err with
  | some _ => (c.settle (.error "error connecting client in update_map "), .error .typeError)
  | none => (c, .ok ())

def UpdateCall.queryCallback (c : UpdateCall) (result : Except String (List SensorRow)) :
    UpdateCall × Except Exception Unit :=
  let c := { c with answered := some result, released := c.released + 1 }
  match result with
  | .error _ => (c.settle (.error "error running query in update_map "), .error .typeError)
  | .ok rows =>
      match mapOfRows rows with
      | .error e => (c, .error e)
      | .ok map => (c.settle (.ok map), .ok ())

/-- A call of `redshift_insert`. An answer has the position of its query, and what is
logged for one is the text and the error. -/
structure InsertCall where
  obs : Json
  map : SensorMap
  misfit : Bool
  connected : Option (Option String)
  effects : List PoolEffect
  answers : List (Nat × Option String)
  logged : List (String × String)

def InsertCall.start (obs : Json) (map : SensorMap) (misfit : Bool) : InsertCall :=
  ⟨obs, map, misfit, none, [], [], []⟩

def InsertCall.connectCallback (c : InsertCall) (err : Option String) :
    InsertCall × Except Exception Unit :=
  let (effects, out) := onConnect err c.obs c.map c.misfit
  ({ c with connected := some err, effects := c.effects ++ effects }, out)

/-- The table in the text of a failed query. The callbacks of the loop share the
variable `feature`, which holds the last one when they are called. -/
def InsertCall.table (c : InsertCall) : String :=
  if c.misfit then "unknownfeature"
  else
    match insertPlan c.obs c.map with
    | .ok (_, _, features) => toLowerCase (features.getLast?.getD "undefined")
    | .error _ => "undefined"

def InsertCall.queryCallback (c : InsertCall) (k : Nat) (err : Option String) : InsertCall :=
  { c with
    answers := c.answers ++ [(k, err)]
    logged := c.logged ++
      (err.map fun e => ("error inserting data into " ++ c.table ++ " table ", e)).toList }

def PoolEffect.isDone : PoolEffect → Bool
  | done => true
  | _ => false

def PoolEffect.isQuery : PoolEffect → Bool
  | query _ => true
  | _ => false

structure Pools where
  world : World
  updates : List UpdateCall
  inserts : List InsertCall
  escaped : Option Exception

def updateCall? : Nat × Effect → Option UpdateCall
  | (n, .updateMap) => some (.start (some n))
  | _ => none

def insertCall? : Nat × Effect → Option InsertCall
  | (_, .redshiftInsert obs map misfit) => some (.start obs map misfit)
  | _ => none

/-- The mapper moves on, and the calls it has made are started. -/
def Pools.advance (p : Pools) (w : World) : Pools :=
  let effects := w.trace.drop p.world.trace.length
  { p with
    world := w
    updates := p.updates ++ effects.filterMap updateCall?
    inserts := p.inserts ++ effects.filterMap insertCall? }

/-- The callbacks are named by the position of their call. A refresh is a call of
`update_map` by the record processor, and a promise resumes the payload that owns it. -/
inductive PoolEvent
  | handle (payload : Option Json) (map : SensorMap)
  | refresh
  | connectUpdate (j : Nat) (err : Option String)
  | answerUpdate (j : Nat) (result : Except String (List SensorRow))
  | resume (j : Nat)
  | connectInsert (j : Nat) (err : Option String)
  | answerInsert (j k : Nat) (err : Option String)

def Pools.putUpdate (p : Pools) (j : Nat) (r : UpdateCall × Except Exception Unit) : Pools :=
  { p with updates := p.updates.set j r.1, escaped := exceptionOf r.2 }

def Pools.putInsert (p : Pools) (j : Nat) (r : InsertCall × Except Exception Unit) : Pools :=
  { p with inserts := p.inserts.set j r.1, escaped := exceptionOf r.2 }

/-- Every callback is called once at most, and a query only has one when there was a
client to query. -/
def Pools.act (p : Pools) : PoolEvent → Option Pools
  | .handle payload map => some (p.advance (handle payload map p.world).1)
  | .refresh => some { p with updates := p.updates ++ [.start none] }
  | .connectUpdate j err =>
      match p.updates[j]? with
      | none => none
      | some c => if c.connected.isNone then some (p.putUpdate j (c.connectCallback err)) else none
  | .answerUpdate j result =>
      match p.updates[j]? with
      | none => none
      | some c =>
          if c.connected = some none ∧ c.answered.isNone then
            some (p.putUpdate j (c.queryCallback result))
          else none
  | .resume j =>
      match p.updates[j]? with
      | some ⟨some n, _, _, _, some result⟩ =>
          (settle (p.world.pulls.findIdx fun q => q.1 == n) result p.world).map p.advance
      | _ => none
  | .connectInsert j err =>
      match p.inserts[j]? with
      | none => none
      | some c => if c.connected.isNone then some (p.putInsert j (c.connectCallback err)) else none
  | .answerInsert j k err =>
      match p.inserts[j]? with
      | none => none
      | some c =>
          if k < c.effects.countP PoolEffect.isQuery ∧ k ∉ c.answers.map Prod.fst then
            some (p.putInsert j (c.queryCallback k err, .ok ()))
          else none

def Pools.initial : Pools := ⟨.initial, [], [], none⟩

def pools : System Pools PoolEvent where
  init := .initial
  step p e := if p.escaped.isNone then p.act e else none

/-- What a step can do. -/
inductive PoolStep (p : Pools) : PoolEvent → Pools → Prop
  | handle (payload : Option Json) (map : SensorMap) :
      PoolStep p (.handle payload map) (p.advance (handle payload map p.world).1)
  | refresh : PoolStep p .refresh { p with updates := p.updates ++ [.start none] }
  | connectUpdate (j : Nat) (err : Option String) (c : UpdateCall) (hc : p.updates[j]? = some c)
      (hfirst : c.connected = none) :
      PoolStep p (.connectUpdate j err) (p.putUpdate j (c.connectCallback err))
  | answerUpdate (j : Nat) (result : Except String (List SensorRow)) (c : UpdateCall)
      (hc : p.updates[j]? = some c) (hclient : c.connected = some none)
      (hfirst : c.answered = none) :
      PoolStep p (.answerUpdate j result) (p.putUpdate j (c.queryCallback result))
  | resume (j n i : Nat) (result : Except String SensorMap) (c : UpdateCall) (w : World)
      (hc : p.updates[j]? = some c) (howner : c.owner = some n) (hpromise : c.promise = some result)
      (hw : settle i result p.world = some w) : PoolStep p (.resume j) (p.advance w)
  | connectInsert (j : Nat) (err : Option String) (c : InsertCall) (hc : p.inserts[j]? = some c)
      (hfirst : c.connected = none) :
      PoolStep p (.connectInsert j err) (p.putInsert j (c.connectCallback err))
  | answerInsert (j k : Nat) (err : Option String) (c : InsertCall) (hc : p.inserts[j]? = some c)
      (hquery : k < c.effects.countP PoolEffect.isQuery) (hfirst : k ∉ c.answers.map Prod.fst) :
      PoolStep p (.answerInsert j k err) (p.putInsert j (c.queryCallback k err, .ok ()))

theorem poolStep_of_act {p p' : Pools} {e : PoolEvent} (h : p.act e = some p') :
    PoolStep p e p' := by
  cases e with
  | handle payload map =>
      obtain rfl := Option.some.inj h
      exact .handle payload map
  | refresh =>
      obtain rfl := Option.some.inj h
      exact .refresh
  | connectUpdate j err =>
      cases hc : p.updates[j]? with
      | none => simp [Pools.act, hc] at h
      | some c =>
          simp only [Pools.act, hc] at h
          obtain ⟨hfirst, h⟩ := Option.ite_none_right_eq_some.mp h
          obtain rfl := Option.some.inj h
          exact .connectUpdate j err c hc (Option.isNone_iff_eq_none.mp hfirst)
  | answerUpdate j result =>
      cases hc : p.updates[j]? with
      | none => simp [Pools.act, hc] at h
      | some c =>
          simp only [Pools.act, hc] at h
          obtain ⟨⟨hclient, hfirst⟩, h⟩ := Option.ite_none_right_eq_some.mp h
          obtain rfl := Option.some.inj h
          exact .answerUpdate j result c hc hclient (Option.isNone_iff_eq_none.mp hfirst)
  | resume j =>
      simp only [Pools.act] at h
      split at h
      · rename_i hc
        obtain ⟨w, hw, rfl⟩ := Option.map_eq_some_iff.mp h
        exact .resume j _ _ _ _ w hc rfl rfl hw
      · cases h
  | connectInsert j err =>
      cases hc : p.inserts[j]? with
      | none => simp [Pools.act, hc] at h
      | some c =>
          simp only [Pools.act, hc] at h
          obtain ⟨hfirst, h⟩ := Option.ite_none_right_eq_some.mp h
          obtain rfl := Option.some.inj h
          exact .connectInsert j err c hc (Option.isNone_iff_eq_none.mp hfirst)
  | answerInsert j k err =>
      cases hc : p.inserts[j]? with
      | none => simp [Pools.act, hc] at h
      | some c =>
          simp only [Pools.act, hc] at h
          obtain ⟨⟨hquery, hfirst⟩, h⟩ := Option.ite_none_right_eq_some.mp h
          obtain rfl := Option.some.inj h
          exact .answerInsert j k err c hc hquery hfirst

/-- Nothing happens after an exception has escaped. -/
theorem poolStep_cases {p p' : Pools} {e : PoolEvent} (h : pools.step p e = some p') :
    p.escaped = none ∧ PoolStep p e p' := by
  obtain ⟨halive, hact⟩ := Option.ite_none_right_eq_some.mp h
  exact ⟨Option.isNone_iff_eq_none.mp halive, poolStep_of_act hact⟩

theorem mapper_run {tr : List (Pools × PoolEvent)} {p : Pools} (h : pools.Run tr p) :
    ∃ calls, mapper.Run calls p.world := by
  refine h.invariant (fun _ p => ∃ calls, mapper.Run calls p.world) ⟨[], .nil⟩ ?_
  rintro tr p e p' - ⟨calls, hcalls⟩ hs
  cases (poolStep_cases hs).2 with
  | handle payload map => exact ⟨_, hcalls.snoc (a := .handle payload map) rfl⟩
  | resume j n i result c w hc howner hpromise hw =>
      have hstep : mapper.step p.world (.settle i result) = some w := hw
      exact ⟨_, hcalls.snoc hstep⟩
  | refresh | connectUpdate | answerUpdate | connectInsert | answerInsert => exact ⟨calls, hcalls⟩

/-- The settlement that the two outcomes lead to. -/
def settlement : Option (Option String) → Option (Except String (List SensorRow)) →
    Option (Except String SensorMap)
  | some (some _), _ => some (.error "error connecting client in update_map ")
  | some none, some (.error _) => some (.error "error running query in update_map ")
  | some none, some (.ok rows) =>
      match mapOfRows rows with
      | .error _ => none
      | .ok map => some (.ok map)
  | _, _ => none

structure UpdateCall.Coherent (c : UpdateCall) : Prop where
  order : c.answered ≠ none → c.connected = some none
  released : c.released = if c.answered.isSome then 1 else 0
  promise : c.promise = settlement c.connected c.answered

/-- The observation can be read, and passes the check when it is no misfit. -/
structure InsertCall.Coherent (c : InsertCall) : Prop where
  readable : (Value.json c.obs).Readable
  checked : c.misfit = false → needsPull c.obs c.map = .ok false
  waiting : c.connected = none → c.effects = []
  acted : ∀ err, c.connected = some err → c.effects = (onConnect err c.obs c.map c.misfit).1
  heard : ∀ k e, (k, some e) ∈ c.answers → ∃ text, (text, e) ∈ c.logged

structure Pools.Coherent (p : Pools) : Prop where
  updates : ∀ c ∈ p.updates, c.Coherent
  inserts : ∀ c ∈ p.inserts, c.Coherent

section
variable {c : UpdateCall}

theorem updateCall_start (owner : Option Nat) : (UpdateCall.start owner).Coherent :=
  ⟨fun h => absurd rfl h, rfl, rfl⟩

theorem UpdateCall.Coherent.not_answered (h : c.Coherent) (hfirst : c.connected = none) :
    c.answered = none := by
  by_contra hne
  rw [h.order hne] at hfirst
  cases hfirst

theorem coherent_connectUpdate (h : c.Coherent) (hfirst : c.connected = none) (err : Option String) :
    (c.connectCallback err).1.Coherent := by
  have hanswered := h.not_answered hfirst
  have hpromise : c.promise = none := by
    rw [h.promise, hfirst]
    rfl
  cases err with
  | none =>
      refine ⟨fun _ => rfl, h.released, ?_⟩
      simp only [UpdateCall.connectCallback, hpromise, hanswered]
      rfl
  | some e =>
      refine ⟨fun hne => absurd hanswered hne, h.released, ?_⟩
      simp only [UpdateCall.connectCallback, UpdateCall.settle, hpromise]
      rfl

theorem coherent_answerUpdate (h : c.Coherent) (hclient : c.connected = some none)
    (hfirst : c.answered = none) (result : Except String (List SensorRow)) :
    (c.queryCallback result).1.Coherent := by
  have hpromise : c.promise = none := by
    rw [h.promise, hclient, hfirst]
    rfl
  have hreleased : c.released = 0 := by
    rw [h.released, hfirst]
    rfl
  cases result with
  | error e =>
      refine ⟨fun _ => hclient, ?_, ?_⟩
      · simp [UpdateCall.queryCallback, UpdateCall.settle, hreleased]
      · simp [UpdateCall.queryCallback, UpdateCall.settle, hpromise, hclient, settlement]
  | ok rows =>
      cases hmap : mapOfRows rows with
      | error e =>
          refine ⟨fun _ => ?_, ?_, ?_⟩
          · simpa [UpdateCall.queryCallback, hmap] using hclient
          · simp [UpdateCall.queryCallback, hmap, hreleased]
          · simp [UpdateCall.queryCallback, hmap, hpromise, hclient, settlement]
      | ok map =>
          refine ⟨fun _ => ?_, ?_, ?_⟩
          · simpa [UpdateCall.queryCallback, UpdateCall.settle, hmap] using hclient
          · simp [UpdateCall.queryCallback, UpdateCall.settle, hmap, hreleased]
          · simp [UpdateCall.queryCallback, UpdateCall.settle, hmap, hpromise, hclient, settlement]

end

section
variable {c : InsertCall}

theorem insertCall_start {obs : Json} {map : SensorMap} {misfit : Bool}
    (hobs : (Value.json obs).Readable) (hcheck : misfit = false → needsPull obs map = .ok false) :
    (InsertCall.start obs map misfit).Coherent := by
  refine ⟨hobs, hcheck, fun _ => rfl, ?_, fun _ _ h => absurd h List.not_mem_nil⟩
  rintro err ⟨⟩

theorem coherent_connectInsert (h : c.Coherent) (hfirst : c.connected = none) (err : Option String) :
    (c.connectCallback err).1.Coherent := by
  refine ⟨h.readable, h.checked, ?_, ?_, h.heard⟩
  · rintro ⟨⟩
  · rintro err' ⟨⟩
    simp only [InsertCall.connectCallback, h.waiting hfirst, List.nil_append]

theorem coherent_answerInsert (h : c.Coherent) (k : Nat) (err : Option String) :
    (c.queryCallback k err).Coherent := by
  refine ⟨h.readable, h.checked, h.waiting, h.acted, ?_⟩
  intro k' e hmem
  simp only [InsertCall.queryCallback, List.mem_append, List.mem_singleton] at hmem ⊢
  rcases hmem with hmem | hmem
  · obtain ⟨text, htext⟩ := h.heard k' e hmem
    exact ⟨text, .inl htext⟩
  · obtain ⟨-, rfl⟩ := Prod.mk.inj hmem
    exact ⟨_, .inr (List.mem_singleton_self _)⟩

end

theorem not_inserted_emissions (obs o : Json) (map m : SensorMap) (misfit : Bool) :
    Effect.redshiftInsert o m misfit ∉ emissions obs map := by
  unfold emissions
  cases formatObs obs map <;> simp

theorem inserted_handle {payload : Option Json} {map m : SensorMap} {o : Json} {misfit : Bool}
    (h : .redshiftInsert o m misfit ∈ handleEffects payload map) :
    needsPull o m = .ok false := by
  cases payload with
  | none => simp [handleEffects] at h
  | some obs =>
      cases hneeds : needsPull obs map with
      | error e => simp [handleEffects, hneeds] at h
      | ok stale =>
          cases stale with
          | true => simp [handleEffects, hneeds] at h
          | false =>
              simp only [handleEffects, hneeds, List.mem_cons, Effect.redshiftInsert.injEq,
                List.mem_append, not_inserted_emissions, false_or] at h
              rcases h with ⟨rfl, rfl, -⟩ | h
              · exact hneeds
              · split at h <;> simp at h

theorem inserted_settle {blacklist : List Value} {obs o : Json} {result : Except String SensorMap}
    {m : SensorMap} {misfit : Bool}
    (h : .redshiftInsert o m misfit ∈ settleEffects blacklist obs result) :
    o = obs ∧ (misfit = false → needsPull o m = .ok false) := by
  cases result with
  | error reason => simp [settleEffects] at h
  | ok newMap =>
      cases houtcome : outcomeOf obs newMap with
      | none => simp [settleEffects, houtcome] at h
      | some outcome =>
          cases outcome with
          | error sensor type =>
              simp only [settleEffects, houtcome, List.mem_append, List.mem_singleton,
                Effect.redshiftInsert.injEq] at h
              rcases h with h | ⟨rfl, -, rfl⟩
              · split at h <;> simp at h
              · exact ⟨rfl, fun hfalse => Bool.noConfusion hfalse⟩
          | fixed sensor =>
              simp only [settleEffects, houtcome, List.mem_append, List.mem_cons,
                List.not_mem_nil, or_false, Effect.redshiftInsert.injEq, not_inserted_emissions,
                reduceCtorEq, false_or] at h
              obtain ⟨rfl, rfl, -⟩ := h
              exact ⟨rfl, fun _ => (outcomeOf_fixed_iff.mp houtcome).2⟩

theorem insertCall?_eq_some {e : Nat × Effect} {c : InsertCall} (h : insertCall? e = some c) :
    ∃ n obs map misfit, e = (n, .redshiftInsert obs map misfit) ∧ c = .start obs map misfit := by
  unfold insertCall? at h
  split at h
  · exact ⟨_, _, _, _, rfl, (Option.some.inj h).symm⟩
  · cases h

theorem coherent_advance {p : Pools} {w : World} {n : Nat} {effects : List Effect} (h : p.Coherent)
    (htrace : w.trace = p.world.trace ++ effects.map fun e => (n, e))
    (hnew : ∀ obs map misfit, .redshiftInsert obs map misfit ∈ effects →
      (Value.json obs).Readable ∧ (misfit = false → needsPull obs map = .ok false)) :
    (p.advance w).Coherent := by
  have hdrop : w.trace.drop p.world.trace.length = effects.map fun e => (n, e) := by
    rw [htrace, List.drop_left]
  refine ⟨?_, ?_⟩
  · intro c hc
    rcases List.mem_append.mp hc with hc | hc
    · exact h.updates c hc
    · obtain ⟨⟨k, e⟩, -, he⟩ := List.mem_filterMap.mp hc
      unfold updateCall? at he
      split at he
      · obtain rfl := Option.some.inj he
        exact updateCall_start _
      · cases he
  · intro c hc
    rcases List.mem_append.mp hc with hc | hc
    · exact h.inserts c hc
    · rw [hdrop] at hc
      obtain ⟨e, hmem, he⟩ := List.mem_filterMap.mp hc
      obtain ⟨k, obs, map, misfit, rfl, rfl⟩ := insertCall?_eq_some he
      obtain ⟨e', he', hpair⟩ := List.mem_map.mp hmem
      obtain ⟨-, rfl⟩ := Prod.mk.inj hpair
      obtain ⟨hobs, hcheck⟩ := hnew obs map misfit he'
      exact insertCall_start hobs hcheck

theorem coherent_putUpdate {p : Pools} (h : p.Coherent) {r : UpdateCall × Except Exception Unit}
    (hr : r.1.Coherent) (j : Nat) : (p.putUpdate j r).Coherent :=
  ⟨forall_mem_set h.updates hr j, h.inserts⟩

theorem coherent_putInsert {p : Pools} (h : p.Coherent) {r : InsertCall × Except Exception Unit}
    (hr : r.1.Coherent) (j : Nat) : (p.putInsert j r).Coherent :=
  ⟨h.updates, forall_mem_set h.inserts hr j⟩

theorem coherent_step {p p' : Pools} {e : PoolEvent} (h : p.Coherent) (hw : Pending p.world)
    (hs : PoolStep p e p') : p'.Coherent := by
  cases hs with
  | handle payload map =>
      refine coherent_advance h (n := p.world.handled.length)
        (congrArg World.trace (handle_fst payload map p.world)) ?_
      intro obs map misfit hmem
      have hcheck := inserted_handle hmem
      exact ⟨(named_of_needsPull hcheck).readable, fun _ => hcheck⟩
  | refresh =>
      refine ⟨?_, h.inserts⟩
      intro c hc
      rcases List.mem_append.mp hc with hc | hc
      · exact h.updates c hc
      · rw [List.mem_singleton.mp hc]
        exact updateCall_start none
  | connectUpdate j err c hc hfirst =>
      exact coherent_putUpdate h (coherent_connectUpdate (h.updates c (List.mem_of_getElem? hc))
        hfirst err) j
  | answerUpdate j result c hc hclient hfirst =>
      exact coherent_putUpdate h (coherent_answerUpdate (h.updates c (List.mem_of_getElem? hc))
        hclient hfirst result) j
  | resume j n i result c w hc howner hpromise hw' =>
      obtain ⟨k, obs, hpull, rfl⟩ := settle_eq_some hw'
      refine coherent_advance h (n := k) rfl ?_
      intro o m misfit hmem
      obtain ⟨rfl, hcheck⟩ := inserted_settle hmem
      exact ⟨(hw.asked _ (List.mem_of_getElem? hpull)).2.1.readable, hcheck⟩
  | connectInsert j err c hc hfirst =>
      exact coherent_putInsert h (coherent_connectInsert (h.inserts c (List.mem_of_getElem? hc))
        hfirst err) j
  | answerInsert j k err c hc hquery hfirst =>
      exact coherent_putInsert h (coherent_answerInsert (h.inserts c (List.mem_of_getElem? hc))
        k err) j

theorem coherent_run {tr : List (Pools × PoolEvent)} {p : Pools} (h : pools.Run tr p) :
    p.Coherent := by
  refine h.invariant (fun _ p => p.Coherent) ?_ ?_
  · exact ⟨fun _ hc => absurd hc List.not_mem_nil, fun _ hc => absurd hc List.not_mem_nil⟩
  · intro tr p e p' hrun hp hs
    obtain ⟨calls, hcalls⟩ := mapper_run hrun
    exact coherent_step hp (pending_run hcalls) (poolStep_cases hs).2

end PlenarioStream.Consumer

import PlenarioStream.Pipeline.Streams

/-!
From the record to the client. Every object that a client is sent was built from an
observation of some shard with a map that passes the check, and passes the client's
filter; the stream of a shard arrives in order and without repetition, and it is whole
exactly under the conditions that `Serves` names.
-/
namespace PlenarioStream.Pipeline
open Js Consumer Transition

variable {ι : Type} [DecidableEq ι] {env : Option String} {query : Server.Handshake}

/-- Received and owed messages along a stretch of a run, against those owed before it and
the new ones. -/
structure Stretch (env : Option String) (i : ι) (k : Server.Socket)
    (tr more : List (State ι × Action ι)) (s t : State ι) (new : List Server.Payload) : Prop where
  emitted : emittedBy t i = emittedBy s i ++ new
  sublist : (stream env (tr ++ more) t i k ++ owed t i k).Sublist
    (stream env tr s i k ++ (owed s i k ++ taken k new))
  complete : stream env (tr ++ more) t i k ++ owed t i k =
      stream env tr s i k ++ (owed s i k ++ taken k new) ↔
    ∀ x ∈ more, Serves env i k x.1 x.2

theorem Stretch.snoc {i : ι} {k : Server.Socket} {tr more : List (State ι × Action ι)}
    {s x t : State ι} {a : Action ι} {new newer : List Server.Payload}
    (h : Stretch env i k tr more s x new) (hb : Balance env i k x a t newer)
    (hstream : stream env (tr ++ more ++ [(x, a)]) t i k =
      stream env (tr ++ more) x i k ++ got env x a i k) :
    Stretch env i k tr (more ++ [(x, a)]) s t (new ++ newer) := by
  have hlast : (stream env (tr ++ more) x i k ++ (got env x a i k ++ owed t i k)).Sublist
      (stream env (tr ++ more) x i k ++ (owed x i k ++ taken k newer)) :=
    hb.sublist.append_left _
  have hfirst : (stream env (tr ++ more) x i k ++ (owed x i k ++ taken k newer)).Sublist
      (stream env tr s i k ++ (owed s i k ++ taken k (new ++ newer))) := by
    simpa only [taken_append, List.append_assoc] using h.sublist.append_right (taken k newer)
  have hmiddle : stream env (tr ++ more) x i k ++ (owed x i k ++ taken k newer) =
      stream env tr s i k ++ (owed s i k ++ taken k (new ++ newer)) ↔
      ∀ y ∈ more, Serves env i k y.1 y.2 := by
    rw [← h.complete, taken_append, ← List.append_assoc, ← List.append_assoc, ← List.append_assoc,
      List.append_cancel_right_eq, List.append_assoc]
  refine ⟨?_, ?_, ?_⟩
  · rw [hb.emitted, h.emitted, List.append_assoc]
  · rw [← List.append_assoc, hstream, List.append_assoc]
    exact hlast.trans hfirst
  · rw [← List.append_assoc, hstream, List.append_assoc, hlast.eq_iff_of_trans hfirst,
      List.append_cancel_left_eq, hb.complete, hmiddle]
    simp [or_imp, forall_and, and_comm]

theorem stretch {tr more : List (State ι × Action ι)} {s t : State ι}
    (h : (pipeline ι env query).Run tr s) (hmore : (pipeline ι env query).Run (tr ++ more) t)
    (i : ι) (k : Server.Socket) : ∃ new, Stretch env i k tr more s t new := by
  induction more using List.reverseRecOn generalizing t with
  | nil =>
      rw [List.append_nil] at hmore
      obtain rfl := h.unique hmore
      exact ⟨[], by simp, by simp, by simp⟩
  | append_singleton more last ih =>
      rw [← List.append_assoc] at hmore
      obtain ⟨hx, hs⟩ := hmore.snoc_inv
      obtain ⟨new, hnew⟩ := ih hx
      obtain ⟨newer, hnewer⟩ := balance_step hx hs i k
      exact ⟨new ++ newer, hnew.snoc hnewer (stream_step hx hs i k)⟩

/-- Along any stretch of a run, a client that takes some messages of a shard receives them
in order, each at most once, and none that was not owed or emitted. It receives all but
those still on their way exactly when no such message is in flight when the connection of
the shard breaks, and the client is connected, in its room and with an entry for it
whenever one arrives over an authenticated connection. -/
theorem stream_complete_iff {tr more : List (State ι × Action ι)} {s t : State ι}
    (h : (pipeline ι env query).Run tr s) (hmore : (pipeline ι env query).Run (tr ++ more) t)
    (i : ι) (k : Server.Socket) :
    ∃ new, emittedBy t i = emittedBy s i ++ new ∧
      (stream env (tr ++ more) t i k ++ owed t i k).Sublist
        (stream env tr s i k ++ (owed s i k ++ taken k new)) ∧
      (stream env (tr ++ more) t i k ++ owed t i k =
          stream env tr s i k ++ (owed s i k ++ taken k new) ↔
        ∀ x ∈ more, Serves env i k x.1 x.2) := by
  obtain ⟨new, hnew⟩ := stretch h hmore i k
  exact ⟨new, hnew.emitted, hnew.sublist, hnew.complete⟩

/-- The object carries the header of the observation. -/
def HeaderOf (obs : Json) (o : Formatted) : Prop :=
  prop obs "node_id" = .ok o.nodeId ∧ prop obs "sensor" = .ok o.sensor ∧
    prop obs "datetime" = .ok o.datetime

theorem forall_mem_modify {l : List Formatted} {i : Nat} {f : Formatted → Formatted}
    {P : Formatted → Prop} (hf : ∀ o, P o → P (f o)) (h : ∀ o ∈ l, P o) :
    ∀ o ∈ l.modify i f, P o := by
  induction l generalizing i with
  | nil => simp
  | cons o l ih =>
      have hl : ∀ q ∈ l, P q := fun q hq => h q (List.mem_cons_of_mem o hq)
      cases i with
      | zero =>
          intro q hq
          rcases List.mem_cons.mp hq with rfl | hq
          · exact hf o (h o List.mem_cons_self)
          · exact hl q hq
      | succ i =>
          intro q hq
          rcases List.mem_cons.mp hq with rfl | hq
          · exact h q List.mem_cons_self
          · exact ih hl q hq

theorem formatKey_header {obs : Json} {entry : Value} {acc acc' : List Formatted × List String}
    {key : String} (h : formatKey obs entry acc key = .ok acc')
    (hacc : ∀ o ∈ acc.1, HeaderOf obs o) : ∀ o ∈ acc'.1, HeaderOf obs o := by
  obtain ⟨v, hv, h⟩ := bind_eq_ok.mp h
  obtain ⟨⟨feature, property⟩, hfeature, h⟩ := bind_eq_ok.mp h
  -- The last statement writes a result, and leaves the headers.
  have write {r : List Formatted × List String} (hr : ∀ o ∈ r.1, HeaderOf obs o)
      (hw : (do
        let data ← prop obs "data"
        let value ← data.get key
        .ok (r.1.modify (indexOf (· == ·) r.2 feature).toNat
          fun o => { o with assigned := o.assigned ++ [(property, value)] }, r.2)) =
        (.ok acc' : Except Exception (List Formatted × List String))) :
      ∀ o ∈ acc'.1, HeaderOf obs o := by
    obtain ⟨data, -, hw⟩ := bind_eq_ok.mp hw
    obtain ⟨value, -, hw⟩ := bind_eq_ok.mp hw
    obtain rfl := Except.ok.inj hw
    exact forall_mem_modify (fun o ho => ho) hr
  dsimp only at h
  split at h
  · obtain ⟨nodeId, hnode, h⟩ := bind_eq_ok.mp h
    obtain ⟨sensor, hsensor, h⟩ := bind_eq_ok.mp h
    obtain ⟨datetime, hdatetime, h⟩ := bind_eq_ok.mp h
    obtain ⟨r, hr, h⟩ := bind_eq_ok.mp h
    obtain rfl := Except.ok.inj hr
    refine write ?_ h
    intro o ho
    rcases List.mem_append.mp ho with ho | ho
    · exact hacc o ho
    · obtain rfl := List.mem_singleton.mp ho
      exact ⟨hnode, hsensor, hdatetime⟩
  · obtain ⟨r, hr, h⟩ := bind_eq_ok.mp h
    obtain rfl := Except.ok.inj hr
    exact write hacc h

theorem formatObs_header {obs : Json} {map : SensorMap} {objects : List Formatted}
    (h : formatObs obs map = .ok objects) : ∀ o ∈ objects, HeaderOf obs o := by
  obtain ⟨entry, hentry, h⟩ := bind_eq_ok.mp h
  obtain ⟨keys, hkeys, h⟩ := bind_eq_ok.mp h
  obtain ⟨⟨obsList, features⟩, hfold, h⟩ := bind_eq_ok.mp h
  obtain rfl := Except.ok.inj h
  have hall : ∀ (keys : List String) (acc : List Formatted × List String),
      keys.foldlM (formatKey obs entry) acc = .ok (obsList, features) →
      (∀ o ∈ acc.1, HeaderOf obs o) → ∀ o ∈ obsList, HeaderOf obs o := by
    intro keys
    induction keys with
    | nil =>
        intro acc h hacc
        obtain rfl := Except.ok.inj h
        exact hacc
    | cons key keys ih =>
        intro acc h hacc
        rw [List.foldlM_cons] at h
        obtain ⟨acc', hacc', h⟩ := bind_eq_ok.mp h
        exact ih acc' h (formatKey_header hacc' hacc)
  exact hall keys _ hfold (by simp)

/-- The object was built from a handled observation with a map that passes the check. -/
def Sourced (w : World) (o : Formatted) : Prop :=
  ∃ obs map objects, some obs ∈ w.handled ∧ needsPull obs map = .ok false ∧
    formatObs obs map = .ok objects ∧ o ∈ objects

theorem emit_mem_emissions {obs : Json} {map : SensorMap} {o : Formatted}
    (h : Effect.emit o ∈ emissions obs map) :
    ∃ objects, formatObs obs map = .ok objects ∧ o ∈ objects := by
  unfold emissions at h
  cases hformat : formatObs obs map with
  | error e => simp [hformat] at h
  | ok objects => exact ⟨objects, rfl, by simpa [hformat] using h⟩

theorem emit_mem_handleEffects {payload : Option Json} {map : SensorMap} {o : Formatted}
    (h : Effect.emit o ∈ handleEffects payload map) :
    ∃ obs objects, payload = some obs ∧ needsPull obs map = .ok false ∧
      formatObs obs map = .ok objects ∧ o ∈ objects := by
  cases payload with
  | none => simp [handleEffects] at h
  | some obs =>
      simp only [handleEffects] at h
      split at h
      · simp at h
      · simp at h
      · rename_i hcheck
        have hmem : Effect.emit o ∈ emissions obs map := by
          rcases List.mem_append.mp ((List.mem_cons.mp h).resolve_left Effect.noConfusion) with h | h
          · exact h
          · split at h <;> simp at h
        obtain ⟨objects, hformat, ho⟩ := emit_mem_emissions hmem
        exact ⟨obs, objects, rfl, hcheck, hformat, ho⟩

theorem emit_mem_settleEffects {blacklist : List Value} {obs : Json}
    {result : Except String SensorMap} {o : Formatted}
    (h : Effect.emit o ∈ settleEffects blacklist obs result) :
    ∃ newMap objects, needsPull obs newMap = .ok false ∧ formatObs obs newMap = .ok objects ∧
      o ∈ objects := by
  cases result with
  | error reason => simp [settleEffects] at h
  | ok newMap =>
      simp only [settleEffects] at h
      split at h
      · simp at h
      · split at h <;> simp at h
      · rename_i sensor hfixed
        have hmem : Effect.emit o ∈ emissions obs newMap := by simpa using h
        obtain ⟨objects, hformat, ho⟩ := emit_mem_emissions hmem
        exact ⟨newMap, objects, (outcomeOf_fixed_iff.mp hfixed).2, hformat, ho⟩

/-- Every emitted object has its source. -/
structure AllSourced (w : World) : Prop where
  pending : Pending w
  sourced : ∀ n o, (n, Effect.emit o) ∈ w.trace → Sourced w o

theorem Sourced.mono {w w' : World} {o : Formatted} (h : Sourced w o)
    (hw : ∀ payload ∈ w.handled, payload ∈ w'.handled) : Sourced w' o := by
  obtain ⟨obs, map, objects, hobs, hrest⟩ := h
  exact ⟨obs, map, objects, hw _ hobs, hrest⟩

theorem allSourced_handle {w : World} (h : AllSourced w) (payload : Option Json)
    (map : SensorMap) : AllSourced (handle payload map w).1 := by
  refine ⟨pending_handle h.pending payload map, ?_⟩
  intro n o hmem
  rw [handle_fst] at hmem ⊢
  rcases List.mem_append.mp hmem with hold | hnew
  · exact (h.sourced n o hold).mono fun _ hp => List.mem_append_left _ hp
  · obtain ⟨e, he, heq⟩ := List.mem_map.mp hnew
    cases heq
    obtain ⟨obs, objects, rfl, hrest⟩ := emit_mem_handleEffects he
    exact ⟨obs, map, objects, List.mem_append_right _ (List.mem_singleton_self _), hrest⟩

theorem allSourced_settle {w w' : World} (h : AllSourced w) {i : Nat}
    {result : Except String SensorMap} (hs : settle i result w = some w') : AllSourced w' := by
  refine ⟨pending_settle h.pending hs, ?_⟩
  obtain ⟨n, obs, hpull, rfl⟩ := settle_eq_some hs
  intro m o hmem
  rcases List.mem_append.mp hmem with hold | hnew
  · exact h.sourced m o hold
  · obtain ⟨e, he, heq⟩ := List.mem_map.mp hnew
    cases heq
    obtain ⟨newMap, objects, hrest⟩ := emit_mem_settleEffects he
    have hobs := (h.pending.asked _ (List.mem_of_getElem? hpull)).1
    exact ⟨obs, newMap, objects, List.mem_of_getElem? hobs, hrest⟩

theorem allSourced {tr : List (Processor × Event)} {p : Processor} (h : processor.Run tr p) :
    AllSourced p.world :=
  world_invariant AllSourced ⟨pending_initial, fun _ _ hmem => absurd hmem List.not_mem_nil⟩
    (fun payload map _ hw => allSourced_handle hw payload map)
    (fun _ _ _ _ hw hs => allSourced_settle hw hs) h

/-- The filters of the args, asked of the observation and the feature behind an object. -/
def AsksFor (a : Server.Args) (obs : Json) (o : Formatted) : Prop :=
  (∀ l, a.nodes = some l → ∃ name ∈ l, prop obs "node_id" = .ok (.str name)) ∧
  (∀ l, a.featuresOfInterest = some l → o.featureOfInterest ∈ l) ∧
  (∀ l, a.sensors = some l → ∃ name ∈ l, prop obs "sensor" = .ok (.str name))

/-- No prototype has the header fields, so what is read there is data or nothing. -/
theorem serialize_prop {obs : Json} {name : String} {v : Value} {j : Json}
    (hname : name = "node_id" ∨ name = "sensor") (h : prop obs name = .ok v)
    (hj : serialize v = some j) : ∃ k, v = .json k ∧ k.written = j := by
  have hinherited : Value.ofInherited obs.inherited name = .undefined := by
    rcases hname with rfl | rfl <;> cases obs <;> rfl
  cases v with
  | undefined => cases hj
  | json k => exact ⟨k, rfl, Option.some.inj hj⟩
  | builtin b =>
      unfold prop Value.get at h
      cases obs with
      | null => cases h
      | bool | num | infinity | str | arr | obj =>
          simp only [hinherited] at h
          split at h <;> cases h

theorem payload_get (o : Formatted) :
    (payload o).get "feature_of_interest" = .str o.featureOfInterest ∧
    (payload o).get "node_id" = ((serialize o.nodeId).map Value.json).getD .undefined ∧
    (payload o).get "sensor" = ((serialize o.sensor).map Value.json).getD .undefined := by
  refine ⟨rfl, ?_, ?_⟩
  · cases hn : serialize o.nodeId <;> cases hs : serialize o.sensor <;>
      cases hd : serialize o.datetime <;>
      simp [Server.Payload.get, payload, serializeField, hn, hs, hd, List.lookup_cons]
  · cases hn : serialize o.nodeId <;> cases hs : serialize o.sensor <;>
      cases hd : serialize o.datetime <;>
      simp [Server.Payload.get, payload, serializeField, hn, hs, hd, List.lookup_cons]

theorem prop_of_payload {obs : Json} {name field : String} {v : Value}
    (hname : field = "node_id" ∨ field = "sensor") (h : prop obs field = .ok v)
    (hget : ((serialize v).map Value.json).getD .undefined = .str name) :
    prop obs field = .ok (.str name) := by
  cases hj : serialize v with
  | none => simp [hj, Value.str] at hget
  | some j =>
      rw [hj] at hget
      obtain ⟨k, rfl, hwritten⟩ := serialize_prop hname h hj
      rw [h, Json.eq_str_of_written (hwritten.trans (Value.json.inj hget))]
      rfl

theorem asksFor_of_accepts {a : Server.Args} {obs : Json} {o : Formatted} (ho : HeaderOf obs o)
    (h : a.Accepts (payload o)) : AsksFor a obs o := by
  obtain ⟨hnodes, hfeatures, hsensors⟩ := h
  obtain ⟨hfeature, hnode, hsensor⟩ := payload_get o
  refine ⟨?_, ?_, ?_⟩
  · intro l hl
    obtain ⟨name, hmem, hget⟩ := hnodes l hl
    exact ⟨name, hmem, prop_of_payload (.inl rfl) ho.1 (hnode.symm.trans hget)⟩
  · intro l hl
    obtain ⟨name, hmem, hget⟩ := hfeatures l hl
    obtain rfl : o.featureOfInterest = name := by
      simpa [Value.str] using hfeature.symm.trans hget
    exact hmem
  · intro l hl
    obtain ⟨name, hmem, hget⟩ := hsensors l hl
    exact ⟨name, hmem, prop_of_payload (.inr rfl) ho.2.1 (hsensor.symm.trans hget)⟩

/-- A message that was sent to a client is in the client's stream of its shard. -/
theorem mem_stream_of_sent {tr : List (State ι × Action ι)} {s : State ι}
    (h : (pipeline ι env query).Run tr s) {n : Nat} {k : Server.Socket} {d : Server.Payload}
    (hsent : Server.Outgoing.data n k d ∈ s.server.sent) :
    k.isClient = true ∧ k.args.Accepts d ∧
      ∃ i, (messages env tr)[n]? = some (i, d) ∧ d ∈ stream env tr s i k := by
  obtain ⟨pre, x, c, ⟨rest, hrest⟩, hc, hn, hk, -, hd⟩ :=
    (Server.sound (server_run h)).justified n k d hsent
  have hhandled : (Server.handled env (serverSteps query tr))[n]? = some d := by
    have hone : Server.handled env [(x, .internalData c d)] = [d] := by simp [Server.handled, hc]
    rw [← hrest, Server.handled, List.filterMap_append, List.filterMap_append]
    change (Server.handled env pre ++ Server.handled env [(x, .internalData c d)] ++ _)[n]? = _
    rw [hone, hn, List.getElem?_append_left (by simp), List.getElem?_concat_length]
  rw [handled_serverSteps h, List.getElem?_map, Option.map_eq_some_iff] at hhandled
  obtain ⟨⟨i, e⟩, hmessage, rfl⟩ := hhandled
  refine ⟨hk, hd, i, hmessage, ?_⟩
  refine List.mem_filterMap.mpr ⟨(n, e), ?_, ?_⟩
  · exact List.mem_filterMap.mpr ⟨_, hsent, Server.dataFor_eq_some.mpr rfl⟩
  · rw [hmessage]
    exact if_pos rfl

theorem stream_sublist {tr : List (State ι × Action ι)} {s : State ι}
    (h : (pipeline ι env query).Run tr s) (i : ι) (k : Server.Socket) :
    (stream env tr s i k).Sublist (taken k (emittedBy s i)) := by
  obtain ⟨new, hnew⟩ := stretch System.Run.nil (by simpa using h) i k
  have hemitted : emittedBy s i = new := hnew.emitted
  rw [hemitted]
  exact (List.sublist_append_left _ _).trans hnew.sublist

/-- Whatever the shards, the server, the clients and the network do: the objects that a
client receives of one shard are, in order and without repetition, among those that the
shard emitted and the client's filter takes; and each object that is sent to anybody goes to
a client and was built by `format_obs` from an observation that some shard took from its
stream, with a map on which the check passes, such that the observation's own node and
sensor and the object's feature are among those the client asked for. -/
theorem stream_sound {tr : List (State ι × Action ι)} {s : State ι}
    (h : (pipeline ι env query).Run tr s) :
    (∀ i k, (stream env tr s i k).Sublist (taken k (emittedBy s i))) ∧
    ∀ n k d, Server.Outgoing.data n k d ∈ s.server.sent → k.isClient = true ∧
      ∃ i obs map objects o, (messages env tr)[n]? = some (i, d) ∧
        some obs ∈ (s.shards i).processor.world.handled ∧ needsPull obs map = .ok false ∧
        formatObs obs map = .ok objects ∧ o ∈ objects ∧ d = payload o ∧ AsksFor k.args obs o := by
  refine ⟨stream_sublist h, ?_⟩
  intro n k d hsent
  obtain ⟨hk, hd, i, hmessage, hmem⟩ := mem_stream_of_sent h hsent
  have hemitted : d ∈ emittedBy s i :=
    List.mem_of_mem_filter ((stream_sublist h i k).subset hmem)
  obtain ⟨o, ho, rfl⟩ := List.mem_map.mp hemitted
  obtain ⟨⟨m, e⟩, he, heo⟩ := List.mem_filterMap.mp ho
  obtain rfl : e = .emit o := by
    unfold emitted? at heo
    split at heo <;> cases heo
    cases ‹_ = _›
    rfl
  obtain ⟨obs, map, objects, hobs, hcheck, hformat, hobject⟩ :=
    (allSourced (processor_run h i)).sourced m o he
  exact ⟨hk, i, obs, map, objects, o, hmessage, hobs, hcheck, hformat, hobject, rfl,
    asksFor_of_accepts (formatObs_header hformat o hobject) hd⟩

def onlyClient : Server.Socket := ⟨0, Server.plainClient⟩

/-- A client and a shard, whose first report waits for a map. -/
def setUp : List (Action Unit) :=
  [.server (.connect Server.plainClient),
    .server (.validation onlyClient (.response (some (.obj [])))), .connect (),
    .process () (.processRecords (some [⟨some tmp112Obs, some "1"⟩]))]

def report : List (Action Unit) := [.process () (.settle 0 (.ok tmp112Map)), .deliver ()]

def tmp112Message : Server.Payload :=
  ⟨[("feature_of_interest", .str "temperature"), ("sensor", .str "TMP112"),
    ("results", .obj [("temperature", .num (.ofNat 37))])]⟩

private theorem setUp_report_run :
    ∃ tr more s t, (pipeline Unit (some "token") (Server.tokenConsumer "token")).Run tr s ∧
      (pipeline Unit (some "token") (Server.tokenConsumer "token")).Run (tr ++ more) t ∧
      tr.map Prod.snd = setUp ∧ more.map Prod.snd = report ∧
      emittedBy s () = [] ∧ emittedBy t () = [tmp112Message] ∧
      stream (some "token") tr s () onlyClient = [] ∧ owed s () onlyClient = [] ∧
      owed t () onlyClient = [] ∧ ∀ x ∈ more, Serves (some "token") () onlyClient x.1 x.2 := by
  have h := System.Run.nil.exec
    (S := pipeline Unit (some "token") (Server.tokenConsumer "token")) setUp rfl
  have hmore := h.exec report rfl
  refine ⟨_, _, _, _, h, hmore, rfl, rfl, rfl, rfl, rfl, rfl, rfl, ?_⟩
  rw [List.forall_mem_cons, List.forall_mem_singleton]
  refine ⟨trivial, ?_⟩
  rintro - peer d channel hreceive -
  obtain ⟨rfl, -⟩ := Prod.mk.inj (Option.some.inj hreceive)
  refine ⟨by decide, ?_, ?_, ?_⟩
  · exact List.mem_cons_self
  · exact List.mem_cons_self
  · exact (Server.mem_keys_increment _ _ _).mpr (.inl rfl)

theorem onlyClient_takes (l : List Server.Payload) : taken onlyClient l = l := by
  refine List.filter_eq_self.mpr ?_
  intro d _
  exact decide_eq_true (Server.plainClient_accepts 0 d)

theorem stream_complete_first_report :
    ∃ tr s, (pipeline Unit (some "token") (Server.tokenConsumer "token")).Run tr s ∧
      tr.map Prod.snd = setUp ++ report ∧
      stream (some "token") tr s () onlyClient = [tmp112Message] := by
  obtain ⟨tr, more, s, t, h, hmore, htr, hacts, hs, ht, hstream, hbefore, hafter, hserves⟩ :=
    setUp_report_run
  obtain ⟨new, hnew, -, hiff⟩ := stream_complete_iff h hmore () onlyClient
  have heq := hiff.mpr hserves
  rw [hs, ht, List.nil_append] at hnew
  rw [hafter, hstream, hbefore, List.append_nil, ← hnew, onlyClient_takes] at heq
  exact ⟨tr ++ more, t, hmore, by rw [List.map_append, htr, hacts], heq⟩

theorem sent_of_mem_stream {tr : List (State ι × Action ι)} {s : State ι} {i : ι}
    {k : Server.Socket} {d : Server.Payload} (h : d ∈ stream env tr s i k) :
    ∃ n, Server.Outgoing.data n k d ∈ s.server.sent := by
  obtain ⟨⟨n, e⟩, hmem, hd⟩ := List.mem_filterMap.mp h
  obtain ⟨-, hd⟩ := Option.ite_none_right_eq_some.mp hd
  obtain rfl := Option.some.inj hd
  obtain ⟨o, ho, hdata⟩ := List.mem_filterMap.mp hmem
  obtain rfl := Server.dataFor_eq_some.mp hdata
  exact ⟨n, ho⟩

theorem stream_sound_first_report :
    ∃ tr s n, (pipeline Unit (some "token") (Server.tokenConsumer "token")).Run tr s ∧
      Server.Outgoing.data n onlyClient tmp112Message ∈ s.server.sent ∧
      ∃ obs map objects o, some obs ∈ (s.shards ()).processor.world.handled ∧
        needsPull obs map = .ok false ∧ formatObs obs map = .ok objects ∧ o ∈ objects ∧
        tmp112Message = payload o := by
  obtain ⟨tr, more, s, t, h, hmore, -, -, hs, ht, hstream, hbefore, hafter, hserves⟩ :=
    setUp_report_run
  obtain ⟨new, hnew⟩ := stretch h hmore () onlyClient
  have hall := hnew.emitted
  have heq := hnew.complete.mpr hserves
  rw [hs, ht, List.nil_append] at hall
  rw [hafter, hstream, hbefore, List.append_nil, ← hall, onlyClient_takes] at heq
  have hmem : tmp112Message ∈ stream (some "token") (tr ++ more) t () onlyClient := by
    rw [heq]
    exact List.mem_singleton_self _
  obtain ⟨n, hsent⟩ := sent_of_mem_stream hmem
  obtain ⟨-, i, obs, map, objects, o, -, hobs, hcheck, hformat, ho, hpayload, -⟩ :=
    (stream_sound hmore).2 n onlyClient tmp112Message hsent
  exact ⟨tr ++ more, t, n, hmore, hsent, obs, map, objects, o, hobs, hcheck, hformat, ho, hpayload⟩

end PlenarioStream.Pipeline

import PlenarioStream.Pipeline.Steps

/-!
What a client receives of one shard, compared with what that shard emitted. Along any
stretch of a run, received messages followed by those still on their way are a sublist of
the messages owed before followed by the new ones that the client's filter takes. Nothing
is missing exactly when no connection of the shard broke with such a message in flight and
the client was being served whenever one arrived.
-/
namespace PlenarioStream.Pipeline
open Js Consumer Lists Transition

variable {ι : Type} [DecidableEq ι] {env : Option String} {query : Server.Handshake}

instance (a : Server.Args) (d : Server.Payload) : Decidable (a.Accepts d) :=
  decidable_of_iff _ (Server.roomAccepts_iff a d)

/-- The messages of a shard, in the order in which they were emitted. -/
def emittedBy (s : State ι) (i : ι) : List Server.Payload :=
  (emitted (s.shards i).processor).map payload

def taken (k : Server.Socket) (l : List Server.Payload) : List Server.Payload :=
  l.filter fun d => k.args.Accepts d

/-- The messages for a client that have been emitted and have not arrived yet. -/
def owed (s : State ι) (i : ι) (k : Server.Socket) : List Server.Payload :=
  taken k (s.shards i).channel.pending

/-- The client is connected, has joined its room, and the room has its entry. -/
def Served (s : Server.State) (k : Server.Socket) : Prop :=
  k ∈ s.connected ∧ (k, k.room) ∈ s.members ∧ k.room ∈ s.rooms.keys

instance (s : Server.State) (k : Server.Socket) : Decidable (Served s k) :=
  inferInstanceAs (Decidable (_ ∧ _ ∧ _))

/-- The step keeps nothing of the shard from the client. -/
def Serves (env : Option String) (i : ι) (k : Server.Socket) (s : State ι) : Action ι → Prop
  | .drop j => j = i → ∀ d ∈ (s.shards i).channel.inFlight, ¬ k.args.Accepts d
  | .deliver j => j = i → ∀ peer d channel,
      (s.shards i).channel.receive = some (peer, d, channel) → k.args.Accepts d →
        peer.isConsumer env = true ∧ Served s.server k
  | _ => True

@[simp] theorem taken_append (k : Server.Socket) (l m : List Server.Payload) :
    taken k (l ++ m) = taken k l ++ taken k m := List.filter_append ..

theorem taken_cons (k : Server.Socket) (d : Server.Payload) (l : List Server.Payload) :
    taken k (d :: l) = taken k [d] ++ taken k l := taken_append k [d] l

@[simp] theorem taken_nil (k : Server.Socket) : taken k [] = [] := rfl

theorem taken_singleton (k : Server.Socket) (d : Server.Payload) :
    taken k [d] = if k.args.Accepts d then [d] else [] := by
  by_cases h : k.args.Accepts d <;> simp [taken, h]

/-- The emissions of a world only grow. -/
theorem trace_prefix {p p' : Processor} {e : Event} (h : processor.step p e = some p') :
    p.world.trace <+: p'.world.trace := by
  have hhandle (payload : Option Json) (map : SensorMap) (w : World) :
      w.trace <+: (handle payload map w).1.trace := by
    rw [handle_fst]
    exact List.prefix_append _ _
  cases e with
  | processRecords input =>
      obtain rfl := Option.some.inj h
      cases input with
      | none => exact List.prefix_rfl
      | some records =>
          exact foldl_world_invariant (fun w => p.world.trace <+: w.trace)
            (fun payload map w hw => hw.trans (hhandle payload map w)) records List.prefix_rfl
  | settle i result =>
      obtain ⟨world, hworld, rfl⟩ := Option.map_eq_some_iff.mp h
      obtain ⟨n, obs, -, rfl⟩ := settle_eq_some hworld
      exact List.prefix_append _ _
  | refreshed result =>
      obtain ⟨-, rfl⟩ := refreshed_step h
      exact List.prefix_rfl

theorem emitted_step {p p' : Processor} {e : Event} (h : processor.step p e = some p') :
    (emitted p').map payload = (emitted p).map payload ++ newMessages p p' := by
  obtain ⟨more, hmore⟩ := trace_prefix h
  have hemitted : emitted p' = emitted p ++ more.filterMap emitted? := by
    rw [emitted, ← hmore, List.filterMap_append]
    rfl
  rw [newMessages, hemitted, List.drop_left, List.map_append]

theorem mem_recipients_iff_served {tr : List (Server.State × Server.Action)} {s : Server.State}
    (h : (Server.server env).Run tr s) (d : Server.Payload) (k : Server.Socket) :
    k ∈ Server.recipients s d ↔ Served s k ∧ k.args.Accepts d := by
  have inv := Server.admitted h
  rw [Server.mem_recipients_iff inv]
  refine ⟨?_, ?_⟩
  · rintro ⟨hc, ha, hd, hroom⟩
    exact ⟨⟨hc, inv.accepted_member k ha hc, hroom⟩, hd⟩
  · rintro ⟨⟨hc, hm, hroom⟩, hd⟩
    exact ⟨hc, inv.member_accepted _ hm, hd, hroom⟩

/-- The payload that a step of the server sends to a client. -/
def arrival (env : Option String) (s : Server.State) (k : Server.Socket) :
    Server.Action → Option Server.Payload
  | .internalData c d => if c.isConsumer env = true ∧ k ∈ Server.recipients s d then some d else none
  | _ => none

/-- A step appends at most one message to what a client has been sent. -/
theorem sent_step {tr : List (Server.State × Server.Action)} {s s' : Server.State}
    {a : Server.Action} (h : (Server.server env).Run tr s)
    (hs : (Server.server env).step s a = some s') (k : Server.Socket) :
    s'.sent.filterMap (Server.dataFor k) = s.sent.filterMap (Server.dataFor k) ++
      (arrival env s k a).toList.map fun d => (s.messages, d) := by
  cases Server.step_cases hs with
  | reject j body e hj hv => simp [arrival, Server.refusing, Server.dataFor]
  | disconnect j hj => simp [arrival]
  | deliver c d hc hcons =>
      have hnew : ((Server.recipients s d).map fun j => Server.Outgoing.data s.messages j d).filterMap
          (Server.dataFor k) = if k ∈ Server.recipients s d then [(s.messages, d)] else [] := by
        rw [List.filterMap_map]
        exact filterMap_single k (s.messages, d) (Server.recipients_nodup (Server.admitted h) d)
      simp only [Server.onInternalData, List.filterMap_append, hnew, arrival, hcons, true_and]
      by_cases hk : k ∈ Server.recipients s d <;> simp [hk]
  | ignore c d hc hcons => simp [arrival, hcons]
  | _ => simp [arrival, Server.join, Server.answering]

/-- What a step of the pipeline adds to the stream of a shard. -/
def got (env : Option String) (s : State ι) (a : Action ι) (i : ι) (k : Server.Socket) :
    List Server.Payload :=
  match message? env (s, a) with
  | some (j, d) => if j = i ∧ k ∈ Server.recipients s.server d then [d] else []
  | none => []

theorem got_of_message {s : State ι} {a : Action ι} {j : ι} {d : Server.Payload}
    (h : message? env (s, a) = some (j, d)) (i : ι) (k : Server.Socket) :
    got env s a i k = if j = i ∧ k ∈ Server.recipients s.server d then [d] else [] := by
  simp only [got, h]

theorem got_of_none {s : State ι} {a : Action ι} (h : message? env (s, a) = none) (i : ι)
    (k : Server.Socket) : got env s a i k = [] := by
  simp only [got, h]

theorem messages_length {tr : List (State ι × Action ι)} {s : State ι}
    (h : (pipeline ι env query).Run tr s) : s.server.messages = (messages env tr).length := by
  rw [(Server.sound (server_run h)).counted, handled_serverSteps h, List.length_map]

/-- What was sent before a message does not come from that message's shard. -/
theorem stream_old {tr : List (State ι × Action ι)} {s : State ι}
    (h : (pipeline ι env query).Run tr s) (more : List (ι × Server.Payload)) (i : ι)
    (k : Server.Socket) :
    (s.server.sent.filterMap (Server.dataFor k)).filterMap (fun m =>
      if (messages env tr ++ more)[m.1]?.map Prod.fst = some i then some m.2 else none) =
      stream env tr s i k := by
  unfold stream
  refine List.filterMap_congr ?_
  intro m hm
  obtain ⟨o, ho, hom⟩ := List.mem_filterMap.mp hm
  obtain rfl := Server.dataFor_eq_some.mp hom
  have hlt := (Server.sound (server_run h)).numbered _ _ _ ho
  rw [List.getElem?_append_left (messages_length h ▸ hlt)]

theorem stream_step {tr : List (State ι × Action ι)} {s s' : State ι} {a : Action ι}
    (h : (pipeline ι env query).Run tr s) (hs : (pipeline ι env query).step s a = some s')
    (i : ι) (k : Server.Socket) :
    stream env (tr ++ [(s, a)]) s' i k = stream env tr s i k ++ got env s a i k := by
  -- A step without a message for the handler sends nothing to anybody.
  have quiet (hno : message? env (s, a) = none) (hsame :
      s'.server.sent.filterMap (Server.dataFor k) = s.server.sent.filterMap (Server.dataFor k)) :
      stream env (tr ++ [(s, a)]) s' i k = stream env tr s i k ++ got env s a i k := by
    have hmsg : messages env (tr ++ [(s, a)]) = messages env tr := by
      rw [messages, filterMap_concat, hno]
      simp [messages]
    rw [got_of_none hno, List.append_nil, stream, stream, hmsg, hsame]
  cases step_cases hs with
  | process j e p hp => exact quiet rfl rfl
  | drop j => exact quiet rfl rfl
  | connect j server hserver =>
      refine quiet rfl ?_
      simpa [arrival] using sent_step (server_run h) hserver k
  | server b server hb hserver =>
      refine quiet rfl ?_
      have hno : arrival env s.server k b = none := by
        cases b with
        | internalData c d =>
            have hc : c.isConsumer env = false := by simpa [foreign] using hb
            simp [arrival, hc]
        | _ => rfl
      simpa [hno] using sent_step (server_run h) hserver k
  | deliver j c d channel server hr hserver =>
      have hsent := sent_step (server_run h) hserver k
      cases hc : c.isConsumer env with
      | false =>
          refine quiet (by simp [message?, hr, hc]) ?_
          simpa [arrival, hc] using hsent
      | true =>
          have hmessage : message? env (s, Action.deliver j) = some (j, d) := by
            simp [message?, hr, hc]
          have hmsg : messages env (tr ++ [(s, Action.deliver j)]) = messages env tr ++ [(j, d)] := by
            rw [messages, filterMap_concat, hmessage]
            rfl
          have hfrom : (messages env tr ++ [(j, d)])[s.server.messages]?.map Prod.fst = some j := by
            rw [messages_length h, List.getElem?_concat_length]
            rfl
          rw [stream, hmsg, setShard_server, hsent, List.filterMap_append, stream_old h,
            got_of_message hmessage]
          congr 1
          by_cases hk : k ∈ Server.recipients s.server d
          · have harrival : arrival env s.server k (.internalData c d) = some d := if_pos ⟨hc, hk⟩
            rw [harrival]
            by_cases hij : j = i
            · rw [if_pos ⟨hij, hk⟩, ← hij]
              exact List.filterMap_cons_some (if_pos hfrom)
            · rw [if_neg fun hand => hij hand.1]
              exact List.filterMap_cons_none (if_neg fun heq => hij (Option.some.inj (hfrom.symm.trans heq)))
          · simp [arrival, hk]

theorem owed_setShard_ne {s t : State ι} {i j : ι} (hj : i ≠ j) (ht : t.shards = s.shards)
    (sh : Shard) (k : Server.Socket) : owed (t.setShard j sh) i k = owed s i k := by
  rw [owed, owed, setShard_ne _ hj, ht]

theorem emittedBy_setChannel {s t : State ι} {j : ι} (ht : t.shards = s.shards)
    (channel : Channel Server.Socket Server.Payload) (i : ι) :
    emittedBy (t.setShard j ((s.shards j).setChannel channel)) i = emittedBy s i := by
  by_cases hij : i = j
  · subst hij
    rw [emittedBy, setShard_self]
    rfl
  · rw [emittedBy, setShard_ne _ hij, ht]
    rfl

theorem owed_setChannel {s t : State ι} (i : ι) (channel : Channel Server.Socket Server.Payload)
    (k : Server.Socket) :
    owed (t.setShard i ((s.shards i).setChannel channel)) i k = taken k channel.pending := by
  rw [owed, setShard_self, setChannel_channel]

/-- What one step does for one shard and one client: new messages may be emitted, and a
message that is due may be lost or missed, which the step does not do exactly when it
serves the client. -/
structure Balance (env : Option String) (i : ι) (k : Server.Socket) (s : State ι) (a : Action ι)
    (s' : State ι) (new : List Server.Payload) : Prop where
  emitted : emittedBy s' i = emittedBy s i ++ new
  sublist : (got env s a i k ++ owed s' i k).Sublist (owed s i k ++ taken k new)
  complete : got env s a i k ++ owed s' i k = owed s i k ++ taken k new ↔ Serves env i k s a

theorem Balance.of_eq {i : ι} {k : Server.Socket} {s s' : State ι} {a : Action ι}
    {new : List Server.Payload} (hemitted : emittedBy s' i = emittedBy s i ++ new)
    (heq : got env s a i k ++ owed s' i k = owed s i k ++ taken k new)
    (hserves : Serves env i k s a) : Balance env i k s a s' new :=
  ⟨hemitted, heq ▸ List.Sublist.refl _, iff_of_true heq hserves⟩

/-- A step of another shard. -/
theorem Balance.other {i j : ι} {k : Server.Socket} {s t : State ι} {a : Action ι} (hj : i ≠ j)
    (ht : t.shards = s.shards) (sh : Shard) (hgot : got env s a i k = [])
    (hserves : Serves env i k s a) : Balance env i k s a (t.setShard j sh) [] := by
  refine .of_eq ?_ ?_ hserves
  · rw [emittedBy, setShard_ne _ hj, ht, List.append_nil]
    rfl
  · rw [hgot, owed_setShard_ne hj ht, taken_nil, List.nil_append, List.append_nil]

theorem balance_process {s : State ι} {j : ι} {e : Event} {p : Processor}
    (hp : processor.step (s.shards j).processor e = some p) (i : ι) (k : Server.Socket) :
    ∃ new, Balance env i k s (.process j e)
      (s.setShard j ⟨p, (s.shards j).channel.send (newMessages (s.shards j).processor p)⟩) new := by
  by_cases hij : i = j
  · subst hij
    refine ⟨newMessages (s.shards i).processor p, .of_eq ?_ ?_ trivial⟩
    · rw [emittedBy, setShard_self]
      exact emitted_step hp
    · rw [owed, setShard_self, Channel.pending_send, taken_append]
      rfl
  · exact ⟨[], .other hij rfl _ rfl trivial⟩

theorem balance_connect (s : State ι) (j : ι) (server : Server.State) (peer : Server.Socket)
    (i : ι) (k : Server.Socket) :
    Balance env i k s (.connect j) ({ s with server }.setShard j
      ((s.shards j).setChannel ((s.shards j).channel.connect peer))) [] := by
  by_cases hij : i = j
  · subst hij
    refine .of_eq ?_ ?_ trivial
    · rw [List.append_nil, emittedBy_setChannel (s := s) (t := { s with server }) rfl]
    · rw [owed_setChannel, Channel.pending_connect, got_of_none rfl, taken_nil, List.append_nil]
      rfl
  · exact .other (s := s) (t := { s with server }) hij rfl _ (got_of_none rfl i k) trivial

theorem balance_drop (s : State ι) (j i : ι) (k : Server.Socket) :
    Balance env i k s (.drop j)
      (s.setShard j ((s.shards j).setChannel (s.shards j).channel.drop)) [] := by
  by_cases hij : i = j
  · subst hij
    have hsplit : owed s i k = taken k (s.shards i).channel.inFlight ++
        taken k (s.shards i).channel.drop.pending := by
      rw [owed, Channel.pending_drop, taken_append]
    refine ⟨?_, ?_, ?_⟩
    · rw [List.append_nil, emittedBy_setChannel rfl]
    · rw [owed_setChannel, got_of_none rfl, hsplit, taken_nil, List.append_nil]
      exact List.sublist_append_right _ _
    · rw [owed_setChannel, got_of_none rfl, hsplit, taken_nil, List.append_nil, List.nil_append,
        List.self_eq_append_left]
      simp [taken, Serves]
  · exact .other hij rfl _ (got_of_none rfl i k) fun h => absurd h.symm hij

/-- The next message of a shard arrives at the client exactly when its connection is
authenticated, the client is being served and its filter takes the message. -/
theorem got_deliver {tr : List (State ι × Action ι)} {s : State ι}
    (h : (pipeline ι env query).Run tr s) {j : ι} {peer : Server.Socket} {d : Server.Payload}
    {channel : Channel Server.Socket Server.Payload}
    (hr : (s.shards j).channel.receive = some (peer, d, channel)) (i : ι) (k : Server.Socket) :
    got env s (.deliver j) i k =
      if j = i ∧ peer.isConsumer env = true ∧ Served s.server k then taken k [d] else [] := by
  have hrec := mem_recipients_iff_served (server_run h) d k
  cases hp : peer.isConsumer env with
  | true =>
      have hmessage : message? env (s, .deliver j) = some (j, d) := by simp [message?, hr, hp]
      rw [got_of_message hmessage, taken_singleton]
      by_cases hserved : Served s.server k
      · by_cases hd : k.args.Accepts d <;> simp [hrec, hserved, hd]
      · simp [hrec, hserved]
  | false =>
      have hmessage : message? env (s, .deliver j) = none := by simp [message?, hr, hp]
      rw [got_of_none hmessage]
      simp

theorem balance_deliver {tr : List (State ι × Action ι)} {s : State ι}
    (h : (pipeline ι env query).Run tr s) {j : ι} {peer : Server.Socket} {d : Server.Payload}
    {channel : Channel Server.Socket Server.Payload} (server : Server.State)
    (hr : (s.shards j).channel.receive = some (peer, d, channel)) (i : ι) (k : Server.Socket) :
    Balance env i k s (.deliver j)
      ({ s with server }.setShard j ((s.shards j).setChannel channel)) [] := by
  by_cases hij : i = j
  · subst hij
    have hserves : Serves env i k s (.deliver i) ↔
        (k.args.Accepts d → peer.isConsumer env = true ∧ Served s.server k) := by
      simp only [Serves, hr, true_imp_iff, Option.some.injEq, Prod.mk.injEq]
      refine ⟨fun hall hd => hall peer d channel ⟨rfl, rfl, rfl⟩ hd, ?_⟩
      rintro hone p e c ⟨rfl, rfl, rfl⟩ he
      exact hone he
    have howed : owed s i k = taken k [d] ++ taken k channel.pending := by
      rw [owed, Channel.pending_receive hr, taken_cons]
    refine ⟨?_, ?_, ?_⟩
    · rw [List.append_nil, emittedBy_setChannel (s := s) (t := { s with server }) rfl]
    · rw [owed_setChannel, got_deliver h hr, howed, taken_nil, List.append_nil]
      refine List.Sublist.append_right ?_ _
      split
      · exact List.Sublist.refl _
      · exact List.nil_sublist _
    · rw [owed_setChannel, got_deliver h hr, howed, taken_nil, List.append_nil,
        List.append_cancel_right_eq, hserves]
      by_cases hd : k.args.Accepts d
      · simp [taken_singleton, hd]
      · simp [taken_singleton, hd]
  · refine .other (s := s) (t := { s with server }) hij rfl _ ?_ fun h => absurd h.symm hij
    rw [got_deliver h hr, if_neg fun hand => hij hand.1.symm]

theorem balance_step {tr : List (State ι × Action ι)} {s s' : State ι} {a : Action ι}
    (h : (pipeline ι env query).Run tr s) (hs : (pipeline ι env query).step s a = some s')
    (i : ι) (k : Server.Socket) : ∃ new, Balance env i k s a s' new := by
  cases step_cases hs with
  | process j e p hp => exact balance_process hp i k
  | connect j server hserver => exact ⟨[], balance_connect s j server _ i k⟩
  | drop j => exact ⟨[], balance_drop s j i k⟩
  | deliver j peer d channel server hr hserver => exact ⟨[], balance_deliver h server hr i k⟩
  | server b server hb hserver =>
      refine ⟨[], .of_eq (List.append_nil _).symm ?_ trivial⟩
      rw [got_of_none rfl, taken_nil, List.append_nil]
      rfl

end PlenarioStream.Pipeline

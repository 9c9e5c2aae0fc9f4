import PlenarioStream.Server.Invariants

/-!
Which sockets an `internal_data` payload reaches. The recipients are exactly the
connected, accepted sockets whose filter takes the payload and whose room still
has an entry in `rooms`. Soundness of delivery needs nothing about the counts;
completeness holds exactly as long as no closing socket takes away the entry of
a room in which another connected socket is a member.
-/
namespace PlenarioStream.Server
open Js Transition

variable {env : Option String}

theorem indexOf_strings_iff (l : List String) (v : Value) :
    indexOf Value.strictEq ((l.map Json.str).map Value.json) v > -1 ↔
      ∃ name ∈ l, v = .str name := by
  have hneg := indexOf_neg_iff Value.strictEq ((l.map Json.str).map Value.json) v
  refine ⟨?_, ?_⟩
  · intro h
    by_contra hno
    have hall : ∀ y ∈ (l.map Json.str).map Value.json, Value.strictEq y v = false := by
      intro y hy
      obtain ⟨j, hj, rfl⟩ := List.mem_map.mp hy
      obtain ⟨name, hname, rfl⟩ := List.mem_map.mp hj
      rw [Bool.eq_false_iff, Ne, Value.strictEq_str_iff]
      intro hv
      exact hno ⟨name, hname, hv⟩
    have := hneg.mpr hall
    omega
  · rintro ⟨name, hname, hv⟩
    by_contra hle
    have hall := hneg.mp (by omega) (.json (.str name))
      (List.mem_map_of_mem (List.mem_map_of_mem hname))
    rw [(Value.strictEq_str_iff name v).mpr hv] at hall
    exact Bool.noConfusion hall

theorem fieldAccepts_iff {roomArgs : Json} {field : String} {filter : Option (List String)}
    (h : roomArgs.ownProperty field = filter.map stringList) (v : Value) :
    fieldAccepts roomArgs field v = true ↔ ∀ l, filter = some l → ∃ name ∈ l, v = .str name := by
  cases filter with
  | none => simp [fieldAccepts, h]
  | some l =>
      simp only [fieldAccepts, h, Option.map_some, stringList, decide_eq_true_eq,
        indexOf_strings_iff]
      simp

theorem ownProperty_toJson (a : Args) :
    a.toJson.ownProperty "nodes" = a.nodes.map stringList ∧
    a.toJson.ownProperty "features_of_interest" = a.featuresOfInterest.map stringList ∧
    a.toJson.ownProperty "sensors" = a.sensors.map stringList := by
  obtain ⟨n, f, t, net⟩ := a
  cases n <;> cases f <;> cases t <;>
    simp [Args.toJson, Json.ownProperty, filterField, List.lookup_cons]

/-- The test on the decoded room name is the filter of the args behind it. -/
theorem roomAccepts_iff (a : Args) (d : Payload) :
    roomAccepts a.toJson d = true ↔ a.Accepts d := by
  obtain ⟨hn, hf, hs⟩ := ownProperty_toJson a
  simp only [roomAccepts, Bool.and_eq_true, fieldAccepts_iff hn, fieldAccepts_iff hf,
    fieldAccepts_iff hs, Args.Accepts, and_assoc]

theorem mem_roomSockets (s : State) (name : String) (k : Socket) :
    k ∈ roomSockets s name ↔ (k, name) ∈ s.members ∧ k ∈ s.connected := by
  simp only [roomSockets, List.mem_map, List.mem_filter, decide_eq_true_eq, Prod.exists,
    exists_and_right, exists_eq_right]
  refine ⟨?_, ?_⟩
  · rintro ⟨r, hm, rfl, hc⟩
    exact ⟨hm, hc⟩
  · rintro ⟨hm, hc⟩
    exact ⟨name, hm, rfl, hc⟩

/-- The sockets that the handler reaches for one room. -/
def roomRecipients (s : State) (d : Payload) (name : String) : List Socket :=
  match JsonText.parse name with
  | some roomArgs => if roomAccepts roomArgs d then roomSockets s name else []
  | none => []

theorem recipients_eq (s : State) (d : Payload) :
    recipients s d = s.rooms.keys.flatMap (roomRecipients s d) := rfl

theorem mem_roomRecipients {tr : List (State × Action)} {s : State}
    (inv : Admitted (Accepted tr) s) (d : Payload) (name : String) (k : Socket) :
    k ∈ roomRecipients s d name ↔
      name = k.room ∧ k ∈ s.connected ∧ Accepted tr k ∧ k.args.Accepts d := by
  refine ⟨?_, ?_⟩
  · intro hk
    have hmem : (k, name) ∈ s.members ∧ k ∈ s.connected := by
      rw [← mem_roomSockets]
      unfold roomRecipients at hk
      split at hk
      · split at hk
        · exact hk
        · simp at hk
      · simp at hk
    have hname : name = k.room := inv.member_room _ hmem.1
    have hparse : JsonText.parse name = some k.args.toJson := by
      rw [hname]
      exact JsonText.parse_stringify_of_finite k.args.toJson_finite
    refine ⟨hname, hmem.2, inv.member_accepted _ hmem.1, ?_⟩
    rw [← roomAccepts_iff]
    by_contra hno
    simp [roomRecipients, hparse, hno] at hk
  · rintro ⟨rfl, hc, ha, hd⟩
    have hparse : JsonText.parse k.room = some k.args.toJson :=
      JsonText.parse_stringify_of_finite k.args.toJson_finite
    simp only [roomRecipients, hparse, (roomAccepts_iff _ _).mpr hd, if_true]
    exact (mem_roomSockets _ _ _).mpr ⟨inv.accepted_member k ha hc, hc⟩

theorem mem_recipients_iff {tr : List (State × Action)} {s : State}
    (inv : Admitted (Accepted tr) s) (d : Payload) (k : Socket) :
    k ∈ recipients s d ↔
      k ∈ s.connected ∧ Accepted tr k ∧ k.args.Accepts d ∧ k.room ∈ s.rooms.keys := by
  simp only [recipients_eq, List.mem_flatMap, mem_roomRecipients inv]
  refine ⟨?_, ?_⟩
  · rintro ⟨name, hn, rfl, hc, ha, hd⟩
    exact ⟨hc, ha, hd, hn⟩
  · rintro ⟨hc, ha, hd, hn⟩
    exact ⟨k.room, hn, rfl, hc, ha, hd⟩

/-- A socket is a member of its own room only, so no payload is doubled. -/
theorem recipients_nodup {tr : List (State × Action)} {s : State}
    (inv : Admitted (Accepted tr) s) (d : Payload) : (recipients s d).Nodup := by
  rw [recipients_eq, List.nodup_flatMap]
  refine ⟨?_, ?_⟩
  · intro name _
    have hsub : (roomSockets s name).Nodup :=
      inv.members_nodup.sublist (List.filter_sublist.map _)
    unfold roomRecipients
    split
    · split
      · exact hsub
      · exact List.nodup_nil
    · exact List.nodup_nil
  · refine s.rooms.nodup.imp ?_
    intro a b hab k ha hb
    rw [mem_roomRecipients inv] at ha hb
    exact hab (ha.1.trans hb.1.symm)

/-- The payloads that authenticated consumers have sent, in the order handled. -/
def handled (env : Option String) (tr : List (State × Action)) : List Payload :=
  tr.filterMap fun x =>
    match x.2 with
    | .internalData k d => if k.isConsumer env then some d else none
    | _ => none

def dataFor (k : Socket) : Outgoing → Option (Nat × Payload)
  | .data n j d => if j = k then some (n, d) else none
  | .internalError _ _ => none

theorem dataFor_eq_some {k : Socket} {o : Outgoing} {x : Nat × Payload} :
    dataFor k o = some x ↔ o = .data x.1 k x.2 := by
  cases o with
  | internalError j e => simp [dataFor]
  | data n j d =>
      simp only [dataFor, Option.ite_none_right_eq_some, Option.some.injEq, Outgoing.data.injEq]
      refine ⟨?_, ?_⟩
      · rintro ⟨rfl, rfl⟩
        exact ⟨rfl, rfl, rfl⟩
      · rintro ⟨rfl, rfl, rfl⟩
        exact ⟨rfl, rfl⟩

/-- What justifies sending message `n` with payload `d` to `k`: an authenticated
consumer sent it as the `n`-th message, after `k` was accepted. -/
def Justified (env : Option String) (tr : List (State × Action)) (n : Nat) (k : Socket)
    (d : Payload) : Prop :=
  ∃ pre x c, pre ++ [(x, Action.internalData c d)] <+: tr ∧ c.isConsumer env = true ∧
    n = (handled env pre).length ∧ k.isClient = true ∧ Accepted pre k ∧ k.args.Accepts d

theorem Justified.mono {tr tr' : List (State × Action)} {n : Nat} {k : Socket} {d : Payload}
    (h : Justified env tr n k d) (htr : tr <+: tr') : Justified env tr' n k d := by
  obtain ⟨pre, x, c, hpre, hc, hn, hk, ha, hd⟩ := h
  exact ⟨pre, x, c, hpre.trans htr, hc, hn, hk, ha, hd⟩

/-- What has been sent so far, socket by socket. -/
structure Sound (env : Option String) (tr : List (State × Action)) (s : State) : Prop where
  counted : s.messages = (handled env tr).length
  justified : ∀ n k d, Outgoing.data n k d ∈ s.sent → Justified env tr n k d
  numbered : ∀ n k d, Outgoing.data n k d ∈ s.sent → n < s.messages
  ordered : ∀ k, (s.sent.filterMap (dataFor k)).Pairwise fun a b => a.1 < b.1

theorem handled_snoc_other {tr : List (State × Action)} {s : State} {a : Action}
    (h : ∀ k d, a = .internalData k d → k.isConsumer env = false) :
    handled env (tr ++ [(s, a)]) = handled env tr := by
  unfold handled
  rw [List.filterMap_append]
  cases a with
  | internalData k d => simp [h k d rfl]
  | _ => simp

/-- A step that sends no data and handles no message keeps soundness. -/
theorem Sound.quiet {tr : List (State × Action)} {s s' : State} {a : Action}
    (inv : Sound env tr s) (ha : ∀ k d, a = .internalData k d → k.isConsumer env = false)
    (hm : s'.messages = s.messages) (extra : List Outgoing) (hs : s'.sent = s.sent ++ extra)
    (hextra : ∀ n k d, Outgoing.data n k d ∉ extra) : Sound env (tr ++ [(s, a)]) s' := by
  have hold {n : Nat} {k : Socket} {d : Payload} (h : Outgoing.data n k d ∈ s'.sent) :
      Outgoing.data n k d ∈ s.sent := by
    rw [hs, List.mem_append] at h
    exact h.resolve_right (hextra n k d)
  refine ⟨?_, ?_, ?_, ?_⟩
  · rw [hm, inv.counted, handled_snoc_other ha]
  · intro n k d h
    exact (inv.justified n k d (hold h)).mono (List.prefix_append _ _)
  · intro n k d h
    rw [hm]
    exact inv.numbered n k d (hold h)
  · intro k
    have hnil : extra.filterMap (dataFor k) = [] := by
      rw [List.filterMap_eq_nil_iff]
      intro o ho
      cases o with
      | internalError _ _ => rfl
      | data n j d => exact absurd ho (hextra n j d)
    rw [hs, List.filterMap_append, hnil, List.append_nil]
    exact inv.ordered k

theorem Sound.deliver {tr : List (State × Action)} {s : State} (inv : Sound env tr s)
    (adm : Admitted (Accepted tr) s) (c : Socket) (d : Payload) (hc : c.isConsumer env = true) :
    Sound env (tr ++ [(s, .internalData c d)]) (onInternalData s d) := by
  have hnew {n : Nat} {k : Socket} {e : Payload}
      (h : Outgoing.data n k e ∈ (recipients s d).map fun k => Outgoing.data s.messages k d) :
      n = s.messages ∧ e = d ∧ k ∈ recipients s d := by
    obtain ⟨j, hj, heq⟩ := List.mem_map.mp h
    cases heq
    exact ⟨rfl, rfl, hj⟩
  refine ⟨?_, ?_, ?_, ?_⟩
  · simp [onInternalData, handled, inv.counted, hc]
  · intro n k e h
    rcases List.mem_append.mp h with h | h
    · exact (inv.justified n k e h).mono (List.prefix_append _ _)
    · obtain ⟨rfl, rfl, hk⟩ := hnew h
      obtain ⟨_, ha, hd, _⟩ := (mem_recipients_iff adm _ k).mp hk
      exact ⟨tr, s, c, List.prefix_rfl, hc, inv.counted, adm.accepted_client k ha, ha, hd⟩
  · intro n k e h
    rcases List.mem_append.mp h with h | h
    · exact Nat.lt_succ_of_lt (inv.numbered n k e h)
    · rw [(hnew h).1]
      exact Nat.lt_succ_self _
  · intro k
    change ((s.sent ++ (recipients s d).map fun k => Outgoing.data s.messages k d).filterMap
      (dataFor k)).Pairwise _
    rw [List.filterMap_append, List.pairwise_append]
    refine ⟨inv.ordered k, ?_, ?_⟩
    · -- The recipients have no duplicates, so at most one of them is `k`.
      rw [List.filterMap_map, List.pairwise_filterMap]
      refine (recipients_nodup adm d).imp ?_
      intro i j hij x hx y hy
      obtain ⟨-, hi, -⟩ := Outgoing.data.inj (dataFor_eq_some.mp hx)
      obtain ⟨-, hj, -⟩ := Outgoing.data.inj (dataFor_eq_some.mp hy)
      exact absurd (hi.trans hj.symm) hij
    · intro x hx y hy
      obtain ⟨o, ho, hox⟩ := List.mem_filterMap.mp hx
      obtain ⟨p, hp, hpy⟩ := List.mem_filterMap.mp hy
      obtain rfl := dataFor_eq_some.mp hox
      obtain rfl := dataFor_eq_some.mp hpy
      rw [(hnew hp).1]
      exact inv.numbered x.1 k x.2 ho

theorem sound_step {tr : List (State × Action)} {s s' : State} {a : Action}
    (inv : Sound env tr s) (adm : Admitted (Accepted tr) s) (h : Steps env s a s') :
    Sound env (tr ++ [(s, a)]) s' := by
  cases h with
  | reject k body e hk hv =>
      exact inv.quiet (by simp) (by simp [refusing]) [.internalError k e] (by simp [refusing])
        (by simp)
  | disconnect k hk =>
      exact inv.quiet (by simp) (by simp) [] (by simp) (by simp)
  | deliver c d hk hc => exact inv.deliver adm c d hc
  | ignore c d hk hc =>
      refine inv.quiet ?_ rfl [] (by simp) (by simp)
      intro k e he
      cases he
      exact hc
  | _ => exact inv.quiet (by simp) rfl [] (by simp [join, answering]) (by simp)

theorem sound {tr : List (State × Action)} {s : State} (h : (server env).Run tr s) :
    Sound env tr s := by
  refine h.invariant (Sound env) ?_ ?_
  · constructor <;> simp [server, initial, handled]
  · intro tr s a s' hr inv hs
    exact sound_step inv (admitted hr) (step_cases hs)

/-- Every data event carries the payload of a message that an authenticated
consumer sent after its target, a client, had been accepted, and the payload
passes the target's own filter. A socket gets the messages by increasing number,
so none twice and none out of order. Anybody else's `internal_data` and a connect
with a wrong token change neither `rooms` nor what is sent. -/
theorem delivery_sound (env : Option String) (tr : List (State × Action)) (s : State)
    (h : (server env).Run tr s) :
    (∀ n k d, Outgoing.data n k d ∈ s.sent → Justified env tr n k d) ∧
    (∀ k, (s.sent.filterMap (dataFor k)).Pairwise fun a b => a.1 < b.1) ∧
    (∀ k d s', k.isConsumer env = false →
      (server env).step s (.internalData k d) = some s' → s' = s) ∧
    (∀ hs s', truthy hs.consumerToken = true → looseEq hs.consumerToken env = false →
      (server env).step s (.connect hs) = some s' →
        s'.rooms = s.rooms ∧ s'.sent = s.sent ∧ s'.connected = s.connected) := by
  refine ⟨(sound h).justified, (sound h).ordered, ?_, ?_⟩
  · intro k d s' hk hs
    cases step_cases hs with
    | deliver _ _ _ hc => simp [hk] at hc
    | ignore _ _ _ _ => rfl
  · intro hs s' ht he hstep
    have hc : (fresh s hs).isConsumer env = false := by
      simp [Socket.isConsumer, fresh, he]
    have hk : (fresh s hs).isClient = false := by simp [Socket.isClient, fresh, ht]
    cases step_cases hstep with
    | consumer _ hc' => simp [hc] at hc'
    | wrongToken _ _ _ => exact ⟨rfl, rfl, rfl⟩
    | client _ hk' => simp [hk] at hk'

theorem plainClient_accepts (n : Nat) (d : Payload) :
    (⟨n, plainClient⟩ : Socket).args.Accepts d := by
  simp [Socket.args, parseArgs, plainClient, filterArg, truthy, Args.Accepts]

/-- A consumer with its token and a client that was accepted. -/
private theorem streaming_run :
    ∃ tr s, (server (some "token")).Run tr s ∧ s.alive = true ∧ s.messages = 0 ∧
      ⟨0, tokenConsumer "token"⟩ ∈ s.connected ∧ ⟨1, plainClient⟩ ∈ s.connected ∧
      Accepted tr ⟨1, plainClient⟩ ∧ (⟨1, plainClient⟩ : Socket).room ∈ s.rooms.keys := by
  refine ⟨_, _, System.Run.exec .nil
    [.connect (tokenConsumer "token"), .connect plainClient,
      .validation ⟨1, plainClient⟩ (.response (some (.obj [])))] rfl, rfl, rfl, ?_, ?_, ?_, ?_⟩
  · exact List.mem_append_left _ (List.mem_singleton_self _)
  · exact List.mem_append_right _ (List.mem_singleton_self _)
  · exact ⟨_, some (.obj []), List.mem_cons_of_mem _ (List.mem_cons_of_mem _
      (List.mem_singleton_self _)), rfl⟩
  · exact (mem_keys_increment _ _ _).mpr (.inl rfl)

theorem delivery_sound_first_message :
    ∃ tr s k d, (server (some "token")).Run tr s ∧ Outgoing.data 0 k d ∈ s.sent ∧
      Justified (some "token") tr 0 k d := by
  obtain ⟨tr, s, h, halive, hmsg, hc, hk, ha, hroom⟩ := streaming_run
  let k : Socket := ⟨1, plainClient⟩
  let d : Payload := ⟨[("node_id", .str "00A")]⟩
  have hrec : k ∈ recipients s d :=
    (mem_recipients_iff (admitted h) d k).mpr ⟨hk, ha, plainClient_accepts 1 d, hroom⟩
  have hcons : (⟨0, tokenConsumer "token"⟩ : Socket).isConsumer (some "token") = true := by decide
  have hstep : (server (some "token")).step s (.internalData ⟨0, tokenConsumer "token"⟩ d) =
      some (onInternalData s d) := by
    simp [server, step, halive, hc, hcons]
  have hmem : Outgoing.data 0 k d ∈ (onInternalData s d).sent :=
    List.mem_append_right _ (List.mem_map.mpr ⟨k, hrec, by rw [hmsg]⟩)
  have hrun := h.snoc hstep
  exact ⟨_, _, k, d, hrun, hmem, (delivery_sound _ _ _ hrun).1 _ _ _ hmem⟩

/-- Were `d` to arrive as `internal_data` now, every connected socket that was
accepted and whose filter takes `d` would be sent it. -/
def DeliversAll (tr : List (State × Action)) (s : State) : Prop :=
  ∀ k d, k ∈ s.connected → Accepted tr k → k.args.Accepts d →
    Outgoing.data s.messages k d ∈ (onInternalData s d).sent

/-- Every connected socket that was accepted has an entry for its room. -/
def RoomsKept (tr : List (State × Action)) (s : State) : Prop :=
  ∀ k ∈ s.connected, Accepted tr k → k.room ∈ s.rooms.keys

theorem filterArg_ne_nil {q : Option QueryValue} {l : List String} (h : filterArg q = some l) :
    l ≠ [] := by
  unfold filterArg at h
  split at h
  · split at h
    · cases h
      simp [split]
    · cases h
      simp
    · cases h
  · cases h

/-- Some name that a filter takes; any will do when there is no filter. -/
def someName (filter : Option (List String)) : String := (filter.bind List.head?).getD ""

theorem someName_mem {q : Option QueryValue} {l : List String} (h : filterArg q = some l) :
    someName (filterArg q) ∈ l := by
  obtain ⟨name, rest, rfl⟩ := List.exists_cons_of_ne_nil (filterArg_ne_nil h)
  simp [someName, h]

/-- A payload that passes all filters of the args. -/
def somePayload (a : Args) : Payload :=
  ⟨[("node_id", .str (someName a.nodes)),
    ("feature_of_interest", .str (someName a.featuresOfInterest)),
    ("sensor", .str (someName a.sensors))]⟩

theorem accepts_somePayload (k : Socket) : k.args.Accepts (somePayload k.args) := by
  refine ⟨fun l hl => ⟨_, someName_mem hl, ?_⟩, fun l hl => ⟨_, someName_mem hl, ?_⟩,
    fun l hl => ⟨_, someName_mem hl, ?_⟩⟩ <;> rfl

theorem deliversAll_iff {tr : List (State × Action)} {s : State} (h : (server env).Run tr s) :
    DeliversAll tr s ↔ RoomsKept tr s := by
  refine ⟨?_, ?_⟩
  · intro hall k hc ha
    have hsent := hall k (somePayload k.args) hc ha (accepts_somePayload k)
    rcases List.mem_append.mp hsent with hold | hnew
    · exact absurd ((sound h).numbered _ _ _ hold) (Nat.lt_irrefl _)
    · obtain ⟨j, hj, heq⟩ := List.mem_map.mp hnew
      cases heq
      exact ((mem_recipients_iff (admitted h) _ _).mp hj).2.2.2
  · intro hkept k d hc ha hd
    refine List.mem_append_right _ (List.mem_map.mpr ⟨k, ?_, rfl⟩)
    exact (mem_recipients_iff (admitted h) d k).mpr ⟨hc, ha, hd, hkept k hc ha⟩

/-- The client socket that a step closes: one that disconnects, or one that the
server disconnects because its validation is refused. -/
def Closes (s : State) (a : Action) (k : Socket) : Prop :=
  k ∈ s.connected ∧ k.isClient = true ∧
    (a = .disconnect k ∨ ∃ body e, a = .validation k (.response body) ∧ validate body = .error e)

/-- A closing socket leaves a count in `rooms`, or nobody else is in its room. -/
def KeepsRoom (s : State) (a : Action) : Prop :=
  ∀ k, Closes s a k →
    1 < (s.rooms.get? k.room).getD 0 ∨ ∀ j ∈ s.connected, j ≠ k → (j, k.room) ∉ s.members

theorem keepsRoom_iff {s : State} {a : Action} {k : Socket} (h : ∀ j, Closes s a j ↔ j = k) :
    KeepsRoom s a ↔ (1 < (s.rooms.get? k.room).getD 0 ∨
      ∀ j ∈ s.connected, j ≠ k → (j, k.room) ∉ s.members) := by
  simp only [KeepsRoom, h, forall_eq]

theorem closes_disconnect_iff {s : State} {k : Socket} (hk : k ∈ s.connected)
    (hc : k.isClient = true) (j : Socket) : Closes s (.disconnect k) j ↔ j = k := by
  refine ⟨?_, ?_⟩
  · rintro ⟨-, -, h | ⟨_, _, h, -⟩⟩
    · cases h
      rfl
    · cases h
  · rintro rfl
    exact ⟨hk, hc, .inl rfl⟩

theorem closes_reject_iff {s : State} {k : Socket} {body : Option Json} {e : ValidationError}
    (hk : k ∈ s.connected) (hc : k.isClient = true) (hv : validate body = .error e) (j : Socket) :
    Closes s (.validation k (.response body)) j ↔ j = k := by
  refine ⟨?_, ?_⟩
  · rintro ⟨-, -, h | ⟨_, _, h, -⟩⟩
    · cases h
    · cases h
      rfl
  · rintro rfl
    exact ⟨hk, hc, .inr ⟨body, e, rfl, hv⟩⟩

/-- What remains after `k` is closed in a state that agrees with `s` on the
sockets, the memberships and the rooms. -/
theorem roomsKept_close {tr : List (State × Action)} {s t : State} {a : Action} {k : Socket}
    (num : Numbered s) (adm : Admitted (Accepted tr) s) (kept : RoomsKept tr s)
    (hcon : t.connected = s.connected) (hrooms : t.rooms = s.rooms)
    (hk : k ∈ s.connected) (hcl : k.isClient = true) (hacc : ∀ j, ¬ Accepts a j) :
    RoomsKept (tr ++ [(s, a)]) (disconnect t k) ↔
      (1 < (s.rooms.get? k.room).getD 0 ∨
        ∀ j ∈ s.connected, j ≠ k → (j, k.room) ∉ s.members) := by
  have hacc' (j : Socket) : Accepted (tr ++ [(s, a)]) j ↔ Accepted tr j := by
    rw [accepted_snoc, or_iff_left (hacc j)]
  have hrooms' : (disconnect t k).rooms = decrement s.rooms k.room := by
    rw [disconnect_rooms, hcon, hrooms, if_pos ⟨hk, hcl⟩]
  simp only [RoomsKept, disconnect_connected, hcon, hrooms', hacc',
    num.connected.nodup.mem_erase_iff]
  refine ⟨?_, ?_⟩
  · intro h
    by_cases hother : ∀ j ∈ s.connected, j ≠ k → (j, k.room) ∉ s.members
    · exact .inr hother
    · push Not at hother
      obtain ⟨j, hj, hne, hm⟩ := hother
      have hroom : k.room = j.room := adm.member_room _ hm
      have hin := h j ⟨hne, hj⟩ (adm.member_accepted _ hm)
      rw [← hroom, mem_keys_decrement_iff] at hin
      exact .inl hin
  · rintro h j ⟨hne, hj⟩ hja
    by_cases hroom : j.room = k.room
    · rw [hroom, mem_keys_decrement_iff]
      refine h.resolve_right fun hno => hno j hj hne ?_
      rw [← hroom]
      exact adm.accepted_member j hja hj
    · exact (mem_keys_decrement_ne hroom).mpr (kept j hj hja)

/-- A step keeps the entries of all connected members exactly when it meets
`KeepsRoom`: only closing a socket can take an entry away. -/
theorem roomsKept_step {tr : List (State × Action)} {s s' : State} {a : Action}
    (num : Numbered s) (adm : Admitted (Accepted tr) s) (kept : RoomsKept tr s)
    (h : Steps env s a s') : RoomsKept (tr ++ [(s, a)]) s' ↔ KeepsRoom s a := by
  -- Steps that close no socket meet the condition and keep the entries.
  have open_ (hcl : ∀ k, ¬ Closes s a k) (hkept : RoomsKept (tr ++ [(s, a)]) s') :
      RoomsKept (tr ++ [(s, a)]) s' ↔ KeepsRoom s a :=
    iff_of_true hkept fun k hk => absurd hk (hcl k)
  have same (hacc : ∀ j, ¬ Accepts a j) (hcon : ∀ j ∈ s'.connected, Accepted tr j →
      j ∈ s.connected) (hrooms : s'.rooms = s.rooms) : RoomsKept (tr ++ [(s, a)]) s' := by
    intro j hj hja
    rw [accepted_snoc, or_iff_left (hacc j)] at hja
    rw [hrooms]
    exact kept j (hcon j hj hja) hja
  cases h with
  | consumer hs _ | client hs _ =>
      exact open_ (by simp [Closes])
        (same (by simp [Accepts]) (fun _ hj hja => adm.mem_of_mem_fresh hja hj) rfl)
  | wrongToken hs _ _ =>
      exact open_ (by simp [Closes]) (same (by simp [Accepts]) (fun _ hj _ => hj) rfl)
  | accept k body hk hv =>
      refine open_ (by simp [Closes, hv]) ?_
      intro j hj hja
      refine (mem_keys_increment _ _ _).mpr ?_
      rcases (accepted_snoc _ _ _ _).mp hja with hja | ⟨_, heq, _⟩
      · exact .inr (kept j hj hja)
      · cases heq
        exact .inl rfl
  | reject k body e hk hv =>
      have hno := not_accepts_reject (k := k) hv
      by_cases hc : k ∈ s.connected
      · have hcl := adm.pending_client k hk
        rw [keepsRoom_iff (closes_reject_iff hc hcl hv)]
        exact roomsKept_close num adm kept rfl rfl hc hcl hno
      · have hsame : disconnect (refusing s k e) k = refusing s k e := if_neg hc
        refine open_ ?_ (same hno ?_ (by rw [hsame]; rfl))
        · rintro j ⟨hj, -, h | ⟨_, _, h, -⟩⟩
          · cases h
          · cases h
            exact hc hj
        · intro j hj _
          rw [hsame] at hj
          exact hj
  | crash k _ =>
      exact open_ (by simp [Closes]) (same (by simp [Accepts]) (fun _ hj _ => hj) rfl)
  | disconnect k hk =>
      cases hcl : k.isClient with
      | true =>
          rw [keepsRoom_iff (closes_disconnect_iff hk hcl)]
          exact roomsKept_close num adm kept rfl rfl hk hcl (by simp [Accepts])
      | false =>
          refine open_ ?_ (same (by simp [Accepts]) ?_ ?_)
          · rintro j ⟨-, hj, h | ⟨_, _, h, -⟩⟩
            · cases h
              simp [hcl] at hj
            · cases h
          · intro j hj _
            rw [disconnect_connected] at hj
            exact List.mem_of_mem_erase hj
          · rw [disconnect_rooms, if_neg (by simp [hcl])]
  | deliver _ _ _ _ | ignore _ _ _ _ =>
      exact open_ (by simp [Closes]) (same (by simp [Accepts]) (fun _ hj _ => hj) rfl)

/-- Delivery is complete in every state of a run exactly when, at each closing of
a client socket in it, the count of its room is above one or no other connected
socket is in that room. -/
theorem delivery_complete_iff (env : Option String) (tr : List (State × Action)) (s : State)
    (h : (server env).Run tr s) :
    (server env).Always DeliversAll tr ↔ ∀ x ∈ tr, KeepsRoom x.1 x.2 := by
  rw [System.Always.congr fun _ _ hr => deliversAll_iff hr]
  refine h.always_iff RoomsKept KeepsRoom ?_ ?_
  · simp [RoomsKept, server, initial]
  · intro tr s a s' hr hall hs
    exact roomsKept_step (numbered hr) (admitted hr) (hall.last hr) (step_cases hs)

/-- Of two accepted clients one leaves, and the other is still served. -/
theorem delivery_complete_two_clients :
    ∃ tr s, (server none).Run tr s ∧ (server none).Always DeliversAll tr ∧
      s.connected = [⟨0, plainClient⟩] := by
  let accepting : Outcome := .response (some (.obj []))
  have hrun := System.Run.exec (S := server none) .nil [.connect plainClient,
    .validation ⟨0, plainClient⟩ accepting, .connect plainClient,
    .validation ⟨1, plainClient⟩ accepting, .disconnect ⟨1, plainClient⟩] rfl
  have hokay : validate (some (.obj [])) = .ok () := rfl
  refine ⟨_, _, hrun, (delivery_complete_iff none _ _ hrun).mpr ?_, rfl⟩
  simp only [List.nil_append, List.forall_mem_cons, List.not_mem_nil, false_imp_iff,
    implies_true, and_true]
  refine ⟨?_, ?_, ?_, ?_, ?_⟩
  · simp [KeepsRoom, Closes]
  · simp [KeepsRoom, Closes, accepting, hokay]
  · simp [KeepsRoom, Closes]
  · simp [KeepsRoom, Closes, accepting, hokay]
  · rintro k ⟨-, -, hk | ⟨_, _, hk, -⟩⟩
    · cases hk
      exact .inl (by decide)
    · cases hk

/-- A client that leaves before its own validation is answered takes the entry of
the room away from another client, which was accepted and gets nothing more. -/
theorem delivery_incomplete_early_disconnect :
    ∃ tr s s', (server (some "token")).Run tr s ∧
      tr.map Prod.snd = [.connect (tokenConsumer "token"), .connect plainClient,
        .validation ⟨1, plainClient⟩ (.response (some (.obj []))),
        .connect plainClient, .disconnect ⟨2, plainClient⟩] ∧
      ¬ DeliversAll tr s ∧
      (⟨1, plainClient⟩ : Socket) ∈ s.connected ∧ Accepted tr ⟨1, plainClient⟩ ∧
      (server (some "token")).step s (.internalData ⟨0, tokenConsumer "token"⟩
        (somePayload (⟨1, plainClient⟩ : Socket).args)) = some s' ∧ s'.sent = [] := by
  obtain ⟨tr, s, hrun, hacts, hconsumer, hclient, hacc, halive, hsent, hkeys⟩ :
      ∃ tr s, (server (some "token")).Run tr s ∧
        tr.map Prod.snd = [.connect (tokenConsumer "token"), .connect plainClient,
          .validation ⟨1, plainClient⟩ (.response (some (.obj []))),
          .connect plainClient, .disconnect ⟨2, plainClient⟩] ∧
        (⟨0, tokenConsumer "token"⟩ : Socket) ∈ s.connected ∧
        (⟨1, plainClient⟩ : Socket) ∈ s.connected ∧ Accepted tr ⟨1, plainClient⟩ ∧
        s.alive = true ∧ s.sent = [] ∧ s.rooms.keys = [] := by
    refine ⟨_, _, System.Run.exec .nil [.connect (tokenConsumer "token"), .connect plainClient,
      .validation ⟨1, plainClient⟩ (.response (some (.obj []))),
      .connect plainClient, .disconnect ⟨2, plainClient⟩] rfl, rfl, ?_, ?_, ?_, rfl, rfl, rfl⟩
    · exact List.mem_cons_self
    · exact List.mem_cons_of_mem _ (List.mem_singleton_self _)
    · exact ⟨_, some (.obj []), List.mem_cons_of_mem _ (List.mem_cons_of_mem _
        List.mem_cons_self), rfl⟩
  have hcons : (⟨0, tokenConsumer "token"⟩ : Socket).isConsumer (some "token") = true := by decide
  refine ⟨tr, s, onInternalData s (somePayload (⟨1, plainClient⟩ : Socket).args), hrun, hacts,
    fun hall => ?_, hclient, hacc, ?_, ?_⟩
  · have hkept := (deliversAll_iff hrun).mp hall ⟨1, plainClient⟩ hclient hacc
    simp [hkeys] at hkept
  · simp [server, step, halive, hconsumer, hcons]
  · simp [onInternalData, recipients, hkeys, hsent]

end PlenarioStream.Server

import PlenarioStream.Server.Model

/-!
What one step of the server can do, and the invariants of every run that do not
depend on the reference counts being right: sockets are fresh, a membership
follows an accepted validation and names the socket's own room, and a connected
socket that was accepted is a member.
-/
namespace PlenarioStream.Server
open Js Transition

variable {env : Option String}

section Disconnect
variable (s : State) (k : Socket)

@[simp] theorem disconnect_connected : (disconnect s k).connected = s.connected.erase k := by
  unfold disconnect
  by_cases hk : k ∈ s.connected
  · cases hc : k.isClient <;> simp [hk, onDisconnect]
  · simp [hk, List.erase_of_not_mem hk]

@[simp] theorem disconnect_pending : (disconnect s k).pending = s.pending := by
  unfold disconnect onDisconnect
  repeat' split
  all_goals rfl

@[simp] theorem disconnect_nextId : (disconnect s k).nextId = s.nextId := by
  unfold disconnect onDisconnect
  repeat' split
  all_goals rfl

@[simp] theorem disconnect_sent : (disconnect s k).sent = s.sent := by
  unfold disconnect onDisconnect
  repeat' split
  all_goals rfl

@[simp] theorem disconnect_messages : (disconnect s k).messages = s.messages := by
  unfold disconnect onDisconnect
  repeat' split
  all_goals rfl

theorem disconnect_members : (disconnect s k).members =
    if k ∈ s.connected then s.members.filter (fun m => m.1 ≠ k) else s.members := by
  unfold disconnect
  by_cases hk : k ∈ s.connected
  · cases hc : k.isClient <;> simp [hk, onDisconnect]
  · simp [hk]

theorem disconnect_rooms : (disconnect s k).rooms =
    if k ∈ s.connected ∧ k.isClient = true then decrement s.rooms k.room else s.rooms := by
  unfold disconnect
  by_cases hk : k ∈ s.connected
  · cases hc : k.isClient <;> simp [hk, onDisconnect]
  · simp [hk]

theorem disconnect_socketCount : (disconnect s k).socketCount =
    if k ∈ s.connected ∧ k.isClient = true then s.socketCount - 1 else s.socketCount := by
  unfold disconnect
  by_cases hk : k ∈ s.connected
  · cases hc : k.isClient <;> simp [hk, onDisconnect]
  · simp [hk]

end Disconnect

/-- The state while a validation response of `k` is being handled. -/
def answering (s : State) (k : Socket) : State := { s with pending := s.pending.erase k }

/-- As `answering`, after the error has been sent. -/
def refusing (s : State) (k : Socket) (e : ValidationError) : State :=
  { s with pending := s.pending.erase k, sent := s.sent ++ [.internalError k e] }

/-- The socket that the next connect creates. -/
def fresh (s : State) (h : Handshake) : Socket := ⟨s.nextId, h⟩

/-- The enabled steps, one constructor for each way through the handlers. -/
inductive Steps (env : Option String) (s : State) : Action → State → Prop
  | consumer (h : Handshake) (hc : (fresh s h).isConsumer env = true) :
      Steps env s (.connect h)
        { s with nextId := s.nextId + 1, connected := s.connected ++ [fresh s h] }
  | wrongToken (h : Handshake) (hc : (fresh s h).isConsumer env = false)
      (hk : (fresh s h).isClient = false) :
      Steps env s (.connect h) { s with nextId := s.nextId + 1 }
  | client (h : Handshake) (hk : (fresh s h).isClient = true) :
      Steps env s (.connect h)
        { s with
          nextId := s.nextId + 1
          connected := s.connected ++ [fresh s h]
          pending := s.pending ++ [fresh s h] }
  | accept (k : Socket) (body : Option Json) (hk : k ∈ s.pending)
      (hv : validate body = .ok ()) :
      Steps env s (.validation k (.response body)) (join (answering s k) k)
  | reject (k : Socket) (body : Option Json) (e : ValidationError) (hk : k ∈ s.pending)
      (hv : validate body = .error e) :
      Steps env s (.validation k (.response body)) (disconnect (refusing s k e) k)
  | crash (k : Socket) (hk : k ∈ s.pending) :
      Steps env s (.validation k .connectionError) { s with alive := false }
  | disconnect (k : Socket) (hk : k ∈ s.connected) :
      Steps env s (.disconnect k) (disconnect s k)
  | deliver (k : Socket) (d : Payload) (hk : k ∈ s.connected) (hc : k.isConsumer env = true) :
      Steps env s (.internalData k d) (onInternalData s d)
  | ignore (k : Socket) (d : Payload) (hk : k ∈ s.connected) (hc : k.isConsumer env = false) :
      Steps env s (.internalData k d) s

theorem step_cases {s s' : State} {a : Action} (h : (server env).step s a = some s') :
    Steps env s a s' := by
  change step env s a = some s' at h
  cases a with
  | connect hs =>
      simp only [step] at h
      split at h
      · cases h
        cases ht : truthy hs.consumerToken with
        | false =>
            have hk : (fresh s hs).isClient = true := by simp [Socket.isClient, fresh, ht]
            simpa [connect, ht, fresh] using Steps.client hs hk
        | true =>
            cases he : looseEq hs.consumerToken env with
            | true =>
                have hc : (fresh s hs).isConsumer env = true := by
                  simp [Socket.isConsumer, fresh, ht, he]
                simpa [connect, ht, he, fresh] using Steps.consumer hs hc
            | false =>
                have hc : (fresh s hs).isConsumer env = false := by
                  simp [Socket.isConsumer, fresh, ht, he]
                have hk : (fresh s hs).isClient = false := by simp [Socket.isClient, fresh, ht]
                simpa [connect, ht, he] using Steps.wrongToken hs hc hk
      · cases h
  | validation k o =>
      simp only [step] at h
      split at h
      · rename_i hen
        cases o with
        | connectionError =>
            cases h
            exact .crash k hen.2
        | response body =>
            cases h
            cases hv : validate body with
            | ok u =>
                have hres : onResponse { s with pending := s.pending.erase k } k body =
                    join (answering s k) k := by simp only [onResponse, hv]; rfl
                rw [hres]
                exact .accept k body hen.2 hv
            | error e =>
                have hres : onResponse { s with pending := s.pending.erase k } k body =
                    Server.disconnect (refusing s k e) k := by simp only [onResponse, hv]; rfl
                rw [hres]
                exact .reject k body e hen.2 hv
      · cases h
  | disconnect k =>
      simp only [step] at h
      split at h
      · rename_i hen
        cases h
        exact .disconnect k hen.2
      · cases h
  | internalData k d =>
      simp only [step] at h
      split at h
      · rename_i hen
        cases h
        cases hc : k.isConsumer env with
        | true => simpa using Steps.deliver k d hen.2 hc
        | false => simpa using Steps.ignore k d hen.2 hc
      · cases h

/-- Sockets of a list, each numbered by an earlier connect. -/
structure Issued (n : Nat) (l : List Socket) : Prop where
  lt : ∀ k ∈ l, k.id < n
  nodup : l.Nodup

namespace Issued
variable {n : Nat} {l : List Socket}

theorem succ (h : Issued n l) : Issued (n + 1) l :=
  ⟨fun k hk => Nat.lt_succ_of_lt (h.lt k hk), h.nodup⟩

theorem not_mem (h : Issued n l) (hs : Handshake) : (⟨n, hs⟩ : Socket) ∉ l :=
  fun hm => Nat.lt_irrefl _ (h.lt _ hm)

theorem append (h : Issued n l) (hs : Handshake) : Issued (n + 1) (l ++ [⟨n, hs⟩]) := by
  refine ⟨?_, ?_⟩
  · intro k hk
    rcases List.mem_append.mp hk with hk | hk
    · exact Nat.lt_succ_of_lt (h.lt k hk)
    · obtain rfl := List.mem_singleton.mp hk
      exact Nat.lt_succ_self _
  · rw [List.nodup_append_comm]
    exact List.nodup_cons.mpr ⟨h.not_mem hs, h.nodup⟩

theorem erase (h : Issued n l) (k : Socket) : Issued n (l.erase k) :=
  ⟨fun j hj => h.lt j (List.mem_of_mem_erase hj), h.nodup.erase k⟩

end Issued

structure Numbered (s : State) : Prop where
  connected : Issued s.nextId s.connected
  pending : Issued s.nextId s.pending

theorem numbered_step {s s' : State} {a : Action} (inv : Numbered s) (h : Steps env s a s') :
    Numbered s' := by
  cases h with
  | consumer hs _ => exact ⟨inv.connected.append hs, inv.pending.succ⟩
  | wrongToken hs _ _ => exact ⟨inv.connected.succ, inv.pending.succ⟩
  | client hs _ => exact ⟨inv.connected.append hs, inv.pending.append hs⟩
  | accept k _ _ _ => exact ⟨inv.connected, inv.pending.erase k⟩
  | reject k _ _ _ _ =>
      refine ⟨?_, ?_⟩
      · simpa [refusing] using inv.connected.erase k
      · simpa [refusing] using inv.pending.erase k
  | crash _ _ => exact ⟨inv.connected, inv.pending⟩
  | disconnect k _ =>
      refine ⟨?_, ?_⟩
      · simpa using inv.connected.erase k
      · simpa using inv.pending
  | deliver _ _ _ _ => exact ⟨inv.connected, inv.pending⟩
  | ignore _ _ _ _ => exact inv

theorem numbered {tr : List (State × Action)} {s : State} (h : (server env).Run tr s) :
    Numbered s := by
  refine h.invariant (fun _ s => Numbered s) ?_ ?_
  · exact ⟨⟨by simp [server, initial], by simp [server, initial]⟩,
      ⟨by simp [server, initial], by simp [server, initial]⟩⟩
  · intro tr s a s' _ inv hs
    exact numbered_step inv (step_cases hs)

/-- The sockets that an action accepts: at most the one whose response it is. -/
def Accepts (a : Action) (k : Socket) : Prop :=
  ∃ body, a = .validation k (.response body) ∧ validate body = .ok ()

theorem accepted_snoc (tr : List (State × Action)) (s : State) (a : Action) (k : Socket) :
    Accepted (tr ++ [(s, a)]) k ↔ Accepted tr k ∨ Accepts a k := by
  simp only [Accepted, Accepts, List.mem_append, List.mem_singleton, Prod.mk.injEq]
  refine ⟨?_, ?_⟩
  · rintro ⟨x, body, hx | ⟨rfl, rfl⟩, hv⟩
    · exact .inl ⟨x, body, hx, hv⟩
    · exact .inr ⟨body, rfl, hv⟩
  · rintro (⟨x, body, hx, hv⟩ | ⟨body, rfl, hv⟩)
    · exact ⟨x, body, .inl hx, hv⟩
    · exact ⟨s, body, .inr ⟨rfl, rfl⟩, hv⟩

theorem not_accepts_reject {k : Socket} {body : Option Json} {e : ValidationError}
    (hv : validate body = .error e) (j : Socket) :
    ¬ Accepts (.validation k (.response body)) j := by
  rintro ⟨_, heq, hok⟩
  cases heq
  rw [hv] at hok
  cases hok

/-- How the set of accepted sockets relates to what the server knows. -/
structure Admitted (A : Socket → Prop) (s : State) : Prop where
  pending_client : ∀ k ∈ s.pending, k.isClient = true
  accepted_client : ∀ k, A k → k.isClient = true
  accepted_lt : ∀ k, A k → k.id < s.nextId
  accepted_not_pending : ∀ k, A k → k ∉ s.pending
  member_room : ∀ m ∈ s.members, m.2 = m.1.room
  member_accepted : ∀ m ∈ s.members, A m.1
  members_nodup : (s.members.map Prod.fst).Nodup
  accepted_member : ∀ k, A k → k ∈ s.connected → (k, k.room) ∈ s.members

namespace Admitted
variable {A : Socket → Prop} {s : State}

theorem not_member_of_pending (inv : Admitted A s) {k : Socket} (hk : k ∈ s.pending) :
    k ∉ s.members.map Prod.fst := by
  intro hm
  obtain ⟨m, hmem, rfl⟩ := List.mem_map.mp hm
  exact inv.accepted_not_pending _ (inv.member_accepted m hmem) hk

/-- No socket is accepted before it connects. -/
theorem mem_of_mem_fresh (inv : Admitted A s) {l : List Socket} {hs : Handshake} {k : Socket}
    (hk : A k) (hm : k ∈ l ++ [fresh s hs]) : k ∈ l := by
  rcases List.mem_append.mp hm with hm | hm
  · exact hm
  · obtain rfl := List.mem_singleton.mp hm
    exact absurd (inv.accepted_lt _ hk) (Nat.lt_irrefl _)

/-- Closing a socket keeps the relation, whether or not it had joined. -/
theorem disconnect (inv : Admitted A s) (num : Numbered s) (k : Socket) :
    Admitted A (disconnect s k) where
  pending_client := by simpa using inv.pending_client
  accepted_client := inv.accepted_client
  accepted_lt := by simpa using inv.accepted_lt
  accepted_not_pending := by simpa using inv.accepted_not_pending
  member_room := by
    intro m hm
    rw [disconnect_members] at hm
    split at hm
    · exact inv.member_room m (List.mem_of_mem_filter hm)
    · exact inv.member_room m hm
  member_accepted := by
    intro m hm
    rw [disconnect_members] at hm
    split at hm
    · exact inv.member_accepted m (List.mem_of_mem_filter hm)
    · exact inv.member_accepted m hm
  members_nodup := by
    rw [disconnect_members]
    split
    · exact inv.members_nodup.sublist (List.filter_sublist.map _)
    · exact inv.members_nodup
  accepted_member := by
    intro j hj hc
    rw [disconnect_connected, num.connected.nodup.mem_erase_iff] at hc
    rw [disconnect_members]
    split
    · exact List.mem_filter.mpr ⟨inv.accepted_member j hj hc.2, by simpa using hc.1⟩
    · exact inv.accepted_member j hj hc.2

theorem answering (inv : Admitted A s) (k : Socket) : Admitted A (answering s k) :=
  { inv with
    pending_client := fun j hj => inv.pending_client j (List.mem_of_mem_erase hj)
    accepted_not_pending := fun j hj hm =>
      inv.accepted_not_pending j hj (List.mem_of_mem_erase hm) }

theorem join (inv : Admitted A s) (num : Numbered s) {k : Socket} (hk : k ∈ s.pending) :
    Admitted (fun j => A j ∨ j = k) (join (Server.answering s k) k) where
  pending_client := (inv.answering k).pending_client
  accepted_client := by
    rintro j (hj | rfl)
    · exact inv.accepted_client j hj
    · exact inv.pending_client _ hk
  accepted_lt := by
    rintro j (hj | rfl)
    · exact inv.accepted_lt j hj
    · exact num.pending.lt _ hk
  accepted_not_pending := by
    rintro j (hj | rfl)
    · exact (inv.answering k).accepted_not_pending j hj
    · exact num.pending.nodup.not_mem_erase
  member_room := by
    intro m hm
    rcases List.mem_append.mp hm with hm | hm
    · exact inv.member_room m hm
    · obtain rfl := List.mem_singleton.mp hm
      rfl
  member_accepted := by
    intro m hm
    rcases List.mem_append.mp hm with hm | hm
    · exact .inl (inv.member_accepted m hm)
    · obtain rfl := List.mem_singleton.mp hm
      exact .inr rfl
  members_nodup := OrderedMap.nodup_append_entry _ _ _ inv.members_nodup
    (inv.not_member_of_pending hk)
  accepted_member := by
    rintro j (hj | rfl) hc
    · exact List.mem_append_left _ (inv.accepted_member j hj hc)
    · exact List.mem_append_right _ (List.mem_singleton_self _)

end Admitted

theorem admitted_step {A : Socket → Prop} {s s' : State} {a : Action} (num : Numbered s)
    (inv : Admitted A s) (h : Steps env s a s') :
    Admitted (fun k => A k ∨ Accepts a k) s' := by
  -- Only the accepting response changes the set of accepted sockets.
  have same (hno : ∀ k, ¬ Accepts a k) (inv' : Admitted A s') :
      Admitted (fun k => A k ∨ Accepts a k) s' := by
    simpa only [hno, or_false] using inv'
  cases h with
  | consumer hs hc =>
      exact same (by simp [Accepts]) { inv with
        accepted_lt := fun k hk => Nat.lt_succ_of_lt (inv.accepted_lt k hk)
        accepted_member := fun k hk hm => inv.accepted_member k hk (inv.mem_of_mem_fresh hk hm) }
  | wrongToken hs hc hk =>
      exact same (by simp [Accepts]) { inv with
        accepted_lt := fun k hk => Nat.lt_succ_of_lt (inv.accepted_lt k hk) }
  | client hs hk =>
      refine same (by simp [Accepts]) { inv with
        pending_client := ?_
        accepted_lt := fun k hk => Nat.lt_succ_of_lt (inv.accepted_lt k hk)
        accepted_not_pending := fun k hk hm =>
          inv.accepted_not_pending k hk (inv.mem_of_mem_fresh hk hm)
        accepted_member := fun k hk hm => inv.accepted_member k hk (inv.mem_of_mem_fresh hk hm) }
      intro k hm
      rcases List.mem_append.mp hm with hm | hm
      · exact inv.pending_client k hm
      · obtain rfl := List.mem_singleton.mp hm
        exact hk
  | accept k body hk hv =>
      have hacc (j : Socket) : Accepts (.validation k (.response body)) j ↔ j = k := by
        simp only [Accepts, Action.validation.injEq, Outcome.response.injEq]
        refine ⟨?_, ?_⟩
        · rintro ⟨_, ⟨rfl, _⟩, _⟩
          rfl
        · rintro rfl
          exact ⟨body, ⟨rfl, rfl⟩, hv⟩
      simpa only [hacc] using inv.join num hk
  | reject k body e hk hv =>
      have num' : Numbered (refusing s k e) := ⟨num.connected, num.pending.erase k⟩
      have inv' : Admitted A (refusing s k e) := { inv.answering k with }
      exact same (not_accepts_reject hv) (inv'.disconnect num' k)
  | crash k hk => exact same (by simp [Accepts]) { inv with }
  | disconnect k hk => exact same (by simp [Accepts]) (inv.disconnect num k)
  | deliver k d hk hc => exact same (by simp [Accepts]) { inv with }
  | ignore k d hk hc => exact same (by simp [Accepts]) inv

theorem admitted {tr : List (State × Action)} {s : State} (h : (server env).Run tr s) :
    Admitted (Accepted tr) s := by
  refine h.invariant (fun tr s => Admitted (Accepted tr) s) ?_ ?_
  · constructor <;> simp [server, initial, Accepted]
  · intro tr s a s' hr inv hs
    have hset : Accepted (tr ++ [(s, a)]) = fun k => Accepted tr k ∨ Accepts a k := by
      funext k
      exact propext (accepted_snoc tr s a k)
    rw [hset]
    exact admitted_step (numbered hr) inv (step_cases hs)

/-- Counts are positive and every key is the text of an args object. -/
structure RoomTable (rooms : OrderedMap String Nat) : Prop where
  positive : ∀ name n, rooms.get? name = some n → 0 < n
  named : ∀ name ∈ rooms.keys, ∃ a : Args, name = a.roomName

theorem decrement_get? (rooms : OrderedMap String Nat) (name other : String) :
    (decrement rooms name).get? other =
      if other = name then
        (rooms.get? name).bind fun n => if n > 1 then some (n - 1) else none
      else rooms.get? other := by
  unfold decrement
  cases h : rooms.get? name with
  | none => simp [OrderedMap.get?_erase]
  | some n => by_cases hn : n > 1 <;> simp [hn, OrderedMap.get?_erase, OrderedMap.get?_set]

theorem increment_get? (rooms : OrderedMap String Nat) (name other : String) :
    (increment rooms name).get? other =
      if other = name then some ((rooms.get? name).getD 0 + 1) else rooms.get? other := by
  unfold increment
  cases h : rooms.get? name with
  | none => simp [OrderedMap.get?_set]
  | some n => by_cases hn : n = 0 <;> simp [hn, OrderedMap.get?_set]

/-- The deleting branch is the one taken at a count of one or without an entry. -/
theorem mem_keys_decrement_iff (rooms : OrderedMap String Nat) (name : String) :
    name ∈ (decrement rooms name).keys ↔ 1 < (rooms.get? name).getD 0 := by
  rw [OrderedMap.mem_keys_iff, decrement_get?, if_pos rfl]
  cases hg : rooms.get? name with
  | none => simp
  | some n => by_cases hn : n > 1 <;> simp [hn]

theorem mem_keys_decrement_ne {rooms : OrderedMap String Nat} {name other : String}
    (h : other ≠ name) : other ∈ (decrement rooms name).keys ↔ other ∈ rooms.keys := by
  rw [OrderedMap.mem_keys_iff, decrement_get?, if_neg h, OrderedMap.mem_keys_iff]

theorem mem_keys_increment (rooms : OrderedMap String Nat) (name other : String) :
    other ∈ (increment rooms name).keys ↔ other = name ∨ other ∈ rooms.keys := by
  rw [OrderedMap.mem_keys_iff, increment_get?, OrderedMap.mem_keys_iff]
  by_cases h : other = name <;> simp [h]

namespace RoomTable
variable {rooms : OrderedMap String Nat}

theorem decrement (h : RoomTable rooms) (name : String) : RoomTable (decrement rooms name) := by
  refine ⟨?_, ?_⟩
  · intro other n hn
    rw [decrement_get?] at hn
    split at hn
    · obtain ⟨m, _, hm⟩ := Option.bind_eq_some_iff.mp hn
      split at hm
      · cases hm
        omega
      · cases hm
    · exact h.positive other n hn
  · intro other ho
    rw [OrderedMap.mem_keys_iff, decrement_get?] at ho
    split at ho
    · rename_i heq
      subst heq
      apply h.named
      rw [OrderedMap.mem_keys_iff]
      cases hg : rooms.get? other <;> simp_all
    · exact h.named other ((rooms.mem_keys_iff other).mpr ho)

theorem increment (h : RoomTable rooms) (a : Args) : RoomTable (increment rooms a.roomName) := by
  refine ⟨?_, ?_⟩
  · intro other n hn
    rw [increment_get?] at hn
    split at hn
    · cases hn
      omega
    · exact h.positive other n hn
  · intro other ho
    rw [OrderedMap.mem_keys_iff, increment_get?] at ho
    split at ho
    · rename_i heq
      exact ⟨a, heq⟩
    · exact h.named other ((rooms.mem_keys_iff other).mpr ho)

end RoomTable

/-- What a step does to the room table. -/
theorem rooms_step {s s' : State} {a : Action} (h : Steps env s a s') :
    s'.rooms = s.rooms ∨ (∃ k : Socket, s'.rooms = decrement s.rooms k.room) ∨
      ∃ k : Socket, s'.rooms = increment s.rooms k.room := by
  cases h with
  | accept k _ _ _ => exact .inr (.inr ⟨k, rfl⟩)
  | reject k _ e _ _ =>
      rw [disconnect_rooms]
      split
      · exact .inr (.inl ⟨k, rfl⟩)
      · exact .inl rfl
  | disconnect k _ =>
      rw [disconnect_rooms]
      split
      · exact .inr (.inl ⟨k, rfl⟩)
      · exact .inl rfl
  | _ => exact .inl rfl

theorem roomTable {tr : List (State × Action)} {s : State} (h : (server env).Run tr s) :
    RoomTable s.rooms := by
  refine h.invariant (fun _ s => RoomTable s.rooms) ?_ ?_
  · constructor <;> simp [server, initial]
  · intro tr s a s' _ inv hs
    rcases rooms_step (step_cases hs) with h | ⟨k, h⟩ | ⟨k, h⟩
    · rw [h]
      exact inv
    · rw [h]
      exact inv.decrement _
    · rw [h]
      exact inv.increment k.args

theorem stringList_finite (l : List String) : (stringList l).finite = true := by
  have helems : Json.elemsFinite (l.map .str) = true := by
    induction l with
    | nil => rfl
    | cons s l ih => exact ih
  exact helems

/-- A room name is written without loss: it has no numbers in it. -/
theorem Args.toJson_finite (a : Args) : a.toJson.finite = true := by
  have happend : ∀ l m : List (String × Json), Json.fieldsFinite l = true →
      Json.fieldsFinite m = true → Json.fieldsFinite (l ++ m) = true := by
    intro l m hl hm
    induction l with
    | nil => exact hm
    | cons f l ih =>
        obtain ⟨hf, hl⟩ := Bool.and_eq_true_iff.mp hl
        exact Bool.and_eq_true_iff.mpr ⟨hf, ih hl⟩
  have hfilter : ∀ name l, Json.fieldsFinite (filterField name l) = true := by
    intro name l
    cases l with
    | none => rfl
    | some l => exact Bool.and_eq_true_iff.mpr ⟨stringList_finite l, rfl⟩
  have hnetwork : a.sensorNetwork.toJson.finite = true := by
    cases a.sensorNetwork with
    | one s => rfl
    | many first second rest => exact stringList_finite _
  exact happend _ _ (happend _ _ (happend _ _ (hfilter _ _) (hfilter _ _)) (hfilter _ _))
    (Bool.and_eq_true_iff.mpr ⟨hnetwork, rfl⟩)

/-- In every reachable state `JSON.parse` succeeds on every room name. -/
theorem room_parses {tr : List (State × Action)} {s : State} (h : (server env).Run tr s)
    (name : String) (hn : name ∈ s.rooms.keys) :
    ∃ a : Args, name = a.roomName ∧ JsonText.parse name = some a.toJson := by
  obtain ⟨a, rfl⟩ := (roomTable h).named name hn
  exact ⟨a, rfl, JsonText.parse_stringify_of_finite a.toJson_finite⟩

end PlenarioStream.Server

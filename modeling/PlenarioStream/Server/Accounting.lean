import PlenarioStream.Foundation.Lists
import PlenarioStream.Server.Invariants

/-!
Accounting for `rooms` and `socket_count`. A join adds one to both counts and a
client's closing takes one from both, but nothing ties the two together: a
closing socket may never have joined, and a refused one never will. The two
balances below say exactly what the counts are off by.
-/
namespace PlenarioStream.Server
open Js Transition

variable {env : Option String}

/-- The socket whose validation an action refuses. -/
def refused : Action → Option Socket
  | .validation k (.response body) =>
      match validate body with
      | .ok () => none
      | .error _ => some k
  | _ => none

/-- The client socket that an action closes in a state. -/
def closed (s : State) (a : Action) : Option Socket :=
  let target := match a with
    | .disconnect k => some k
    | a => refused a
  target.filter fun k => decide (k ∈ s.connected) && k.isClient

/-- The count of a room, 0 when there is no entry. -/
def roomCount (s : State) (room : String) : Nat := (s.rooms.get? room).getD 0

def inRoom (room : String) (k : Socket) : Bool := k.isClient && k.room == room

def refusedIn (tr : List (State × Action)) (room : String) : Nat :=
  tr.countP fun x => (refused x.2).any (inRoom room)

/-- Closings that found no entry of their room to take one from. -/
def unmatchedIn (tr : List (State × Action)) (room : String) : Nat :=
  tr.countP fun x => (closed x.1 x.2).any (inRoom room) && roomCount x.1 room == 0

def refusals (tr : List (State × Action)) : Nat := tr.countP fun x => (refused x.2).isSome

/-- For each room, and for the server as a whole. -/
structure Balance (tr : List (State × Action)) (s : State) : Prop where
  room : ∀ room, roomCount s room + s.pending.countP (inRoom room) + refusedIn tr room =
    s.connected.countP (inRoom room) + unmatchedIn tr room
  total : s.socketCount + s.pending.length + refusals tr =
    (s.connected.countP fun k => k.isClient : Nat)

theorem roomCount_decrement (rooms : OrderedMap String Nat) (name room : String) :
    ((decrement rooms name).get? room).getD 0 =
      (rooms.get? room).getD 0 - if room = name then 1 else 0 := by
  rw [decrement_get?]
  by_cases h : room = name
  · subst h
    cases hg : rooms.get? room with
    | none => simp
    | some n => by_cases hn : n > 1 <;> simp [hn]; omega
  · simp [h]

theorem roomCount_increment (rooms : OrderedMap String Nat) (name room : String) :
    ((increment rooms name).get? room).getD 0 =
      (rooms.get? room).getD 0 + if room = name then 1 else 0 := by
  rw [increment_get?]
  by_cases h : room = name <;> simp [h]

theorem inRoom_client {k : Socket} (hk : k.isClient = true) (room : String) :
    inRoom room k = decide (room = k.room) := by
  simp [inRoom, hk, Bool.beq_eq_decide_eq, eq_comm]

section Close
variable {s t : State} {k : Socket}

/-- Closing a connected client, in a state that agrees with `s` on the sockets and
the rooms: its room loses one where there is an entry. -/
theorem roomCount_close (hcon : t.connected = s.connected) (hrooms : t.rooms = s.rooms)
    (hk : k ∈ s.connected) (hc : k.isClient = true) (room : String) :
    roomCount (disconnect t k) room + s.connected.countP (inRoom room) =
      roomCount s room + (disconnect t k).connected.countP (inRoom room) +
        if (inRoom room k && roomCount s room == 0) = true then 1 else 0 := by
  have hcount : roomCount (disconnect t k) room =
      roomCount s room - if inRoom room k = true then 1 else 0 := by
    simp only [roomCount, disconnect_rooms, hcon, hrooms, hk, hc, and_self, if_true,
      roomCount_decrement, inRoom_client hc, decide_eq_true_eq]
  have herase := Lists.countP_erase_add hk (inRoom room)
  rw [disconnect_connected, hcon, hcount]
  by_cases hr : inRoom room k = true
  · by_cases hz : roomCount s room = 0 <;> simp [hr, hz] at herase ⊢ <;> omega
  · simp [hr] at herase ⊢
    omega

theorem socketCount_close (hcon : t.connected = s.connected)
    (hsc : t.socketCount = s.socketCount) (hk : k ∈ s.connected) (hc : k.isClient = true) :
    (disconnect t k).socketCount + (s.connected.countP fun k => k.isClient : Nat) =
      s.socketCount + ((disconnect t k).connected.countP fun k => k.isClient : Nat) := by
  have herase := Lists.countP_erase_add hk fun k => k.isClient
  have hcount : (disconnect t k).socketCount = s.socketCount - 1 := by
    rw [disconnect_socketCount, hcon, if_pos ⟨hk, hc⟩, hsc]
  rw [disconnect_connected, hcon, hcount]
  simp only [hc, if_true] at herase
  omega

end Close

theorem refusedIn_snoc (tr : List (State × Action)) (s : State) (a : Action) (room : String) :
    refusedIn (tr ++ [(s, a)]) room =
      refusedIn tr room + if (refused a).any (inRoom room) = true then 1 else 0 := by
  simp [refusedIn, List.countP_append, List.countP_singleton]

theorem unmatchedIn_snoc (tr : List (State × Action)) (s : State) (a : Action) (room : String) :
    unmatchedIn (tr ++ [(s, a)]) room = unmatchedIn tr room +
      if ((closed s a).any (inRoom room) && roomCount s room == 0) = true then 1 else 0 := by
  simp only [unmatchedIn, List.countP_append, List.countP_singleton]

theorem refusals_snoc (tr : List (State × Action)) (s : State) (a : Action) :
    refusals (tr ++ [(s, a)]) = refusals tr + if (refused a).isSome = true then 1 else 0 := by
  simp only [refusals, List.countP_append, List.countP_singleton]

/-- A step that refuses and closes nobody keeps the balance if it moves both sides
of it alike. -/
theorem Balance.move {tr : List (State × Action)} {s s' : State} {a : Action}
    (inv : Balance tr s) (hr : refused a = none) (hc : closed s a = none)
    (hroom : ∀ room, roomCount s' room + s'.pending.countP (inRoom room) +
        s.connected.countP (inRoom room) =
      roomCount s room + s.pending.countP (inRoom room) + s'.connected.countP (inRoom room))
    (htotal : s'.socketCount + s'.pending.length +
        (s.connected.countP fun k => k.isClient : Nat) =
      s.socketCount + s.pending.length + (s'.connected.countP fun k => k.isClient : Nat)) :
    Balance (tr ++ [(s, a)]) s' := by
  refine ⟨?_, ?_⟩
  · intro room
    have h := inv.room room
    have hmove := hroom room
    simp only [refusedIn_snoc, unmatchedIn_snoc, hr, hc, Option.any_none, Bool.false_and,
      Bool.false_eq_true, if_false]
    omega
  · have h := inv.total
    simp only [refusals_snoc, hr, Option.isSome_none, Bool.false_eq_true, if_false]
    omega

private theorem consumer_not_client {k : Socket} (h : k.isConsumer env = true) :
    k.isClient = false := by
  simp only [Socket.isConsumer, Bool.and_eq_true] at h
  simp [Socket.isClient, h.1]

private theorem inRoom_not_client {k : Socket} (h : k.isClient = false) (room : String) :
    inRoom room k = false := by
  simp [inRoom, h]

section Step
variable {tr : List (State × Action)} {s : State} {k : Socket}

theorem Balance.accept {body : Option Json} (inv : Balance tr s) (hcl : k.isClient = true)
    (hk : k ∈ s.pending) (hv : validate body = .ok ()) :
    Balance (tr ++ [(s, .validation k (.response body))]) (join (answering s k) k) := by
  refine inv.move (by simp [refused, hv]) (by simp [closed, refused, hv]) (fun room => ?_) ?_
  · have herase := Lists.countP_erase_add hk (inRoom room)
    have hcount := roomCount_increment s.rooms k.room room
    rw [inRoom_client hcl] at herase
    simp only [join, answering, roomCount, hcount, decide_eq_true_eq] at herase ⊢
    omega
  · have hlen := List.length_erase_of_mem hk
    have hpos := List.length_pos_of_mem hk
    simp only [join, answering, hlen]
    omega

/-- A refusal answers one request. It closes the socket if that is still connected. -/
theorem Balance.reject {body : Option Json} {e : ValidationError} (inv : Balance tr s)
    (hcl : k.isClient = true) (hk : k ∈ s.pending) (hv : validate body = .error e) :
    Balance (tr ++ [(s, .validation k (.response body))]) (disconnect (refusing s k e) k) := by
  have hlen : (refusing s k e).pending.length + 1 = s.pending.length := by
    have hpos := List.length_pos_of_mem hk
    simp only [refusing, List.length_erase_of_mem hk]
    omega
  by_cases hc : k ∈ s.connected
  · refine ⟨?_, ?_⟩
    · intro room
      have h := inv.room room
      have herase := Lists.countP_erase_add hk (inRoom room)
      have hclose := roomCount_close (s := s) (t := refusing s k e) rfl rfl hc hcl room
      simp only [refusedIn_snoc, unmatchedIn_snoc, refused, closed, hv, hc, hcl,
        Option.filter_some, decide_true, Bool.and_self, if_true, Option.any_some,
        disconnect_pending]
      simp only [refusing] at hclose ⊢
      omega
    · have h := inv.total
      have hclose := socketCount_close (s := s) (t := refusing s k e) rfl rfl hc hcl
      simp only [refusals_snoc, refused, hv, Option.isSome_some, if_true, disconnect_pending]
      push_cast
      omega
  · have hsame : disconnect (refusing s k e) k = refusing s k e := if_neg hc
    rw [hsame]
    refine ⟨?_, ?_⟩
    · intro room
      have h := inv.room room
      have herase := Lists.countP_erase_add hk (inRoom room)
      simp only [refusedIn_snoc, unmatchedIn_snoc, refused, closed, hv, hc,
        Option.filter_some, decide_false, Bool.false_and, Bool.false_eq_true, if_false,
        Option.any_some, Option.any_none]
      simp only [refusing, roomCount] at h ⊢
      omega
    · have h := inv.total
      simp only [refusals_snoc, refused, hv, Option.isSome_some, if_true]
      simp only [refusing] at hlen ⊢
      push_cast
      omega

theorem Balance.disconnect_client (inv : Balance tr s) (hk : k ∈ s.connected)
    (hcl : k.isClient = true) : Balance (tr ++ [(s, .disconnect k)]) (disconnect s k) := by
  refine ⟨?_, ?_⟩
  · intro room
    have h := inv.room room
    have hclose := roomCount_close (t := s) rfl rfl hk hcl room
    simp only [refusedIn_snoc, unmatchedIn_snoc, refused, closed, hk, hcl,
      Option.filter_some, decide_true, Bool.and_self, if_true, Option.any_some,
      Option.any_none, Bool.false_eq_true, if_false, disconnect_pending]
    omega
  · have h := inv.total
    have hclose := socketCount_close (t := s) rfl rfl hk hcl
    simp only [refusals_snoc, refused, Option.isSome_none, Bool.false_eq_true, if_false,
      disconnect_pending]
    omega

/-- The closing of a consumer counts nowhere. -/
theorem Balance.disconnect_consumer (inv : Balance tr s) (hk : k ∈ s.connected)
    (hcl : k.isClient = false) : Balance (tr ++ [(s, .disconnect k)]) (disconnect s k) := by
  refine inv.move rfl (by simp [closed, hcl]) (fun room => ?_) ?_
  · have herase := Lists.countP_erase_add hk (inRoom room)
    simp only [inRoom_not_client hcl, Bool.false_eq_true, if_false] at herase
    simp only [roomCount, disconnect_rooms, hcl, disconnect_pending, disconnect_connected,
      Bool.false_eq_true, and_false, if_false]
    omega
  · have herase := Lists.countP_erase_add hk fun k => k.isClient
    simp only [hcl, Bool.false_eq_true, if_false] at herase
    simp only [disconnect_socketCount, hcl, disconnect_pending, disconnect_connected,
      Bool.false_eq_true, and_false, if_false]
    omega

theorem balance_step {s' : State} {a : Action} (adm : Admitted (Accepted tr) s)
    (inv : Balance tr s) (h : Steps env s a s') : Balance (tr ++ [(s, a)]) s' := by
  cases h with
  | consumer hs hc =>
      have hcl := consumer_not_client hc
      refine inv.move rfl rfl (fun room => ?_) ?_
      · simp [roomCount, List.countP_append, inRoom_not_client hcl]
      · simp [List.countP_append, hcl]
  | wrongToken hs hc hk => exact inv.move rfl rfl (fun _ => rfl) rfl
  | client hs hk =>
      refine inv.move rfl rfl (fun room => ?_) ?_
      · simp only [roomCount, List.countP_append]
        omega
      · simp only [List.countP_append, List.length_append, List.countP_singleton, hk]
        simp
        omega
  | accept k body hk hv => exact inv.accept (adm.pending_client k hk) hk hv
  | reject k body e hk hv => exact inv.reject (adm.pending_client k hk) hk hv
  | crash k hk => exact inv.move rfl rfl (fun _ => rfl) rfl
  | disconnect k hk =>
      cases hcl : k.isClient with
      | true => exact inv.disconnect_client hk hcl
      | false => exact inv.disconnect_consumer hk hcl
  | deliver k d hk hc => exact inv.move rfl rfl (fun _ => rfl) rfl
  | ignore k d hk hc => exact inv.move rfl rfl (fun _ => rfl) rfl

end Step

theorem balance {tr : List (State × Action)} {s : State} (h : (server env).Run tr s) :
    Balance tr s := by
  refine h.invariant Balance ?_ ?_
  · constructor
    · intro room
      simp [server, initial, roomCount, refusedIn, unmatchedIn]
    · simp [server, initial, refusals]
  · intro tr s a s' hr inv hs
    exact balance_step (admitted hr) inv (step_cases hs)

theorem roomCount_eq_zero_iff {s : State} (h : RoomTable s.rooms) (room : String) :
    roomCount s room = 0 ↔ room ∉ s.rooms.keys := by
  rw [OrderedMap.mem_keys_iff, roomCount]
  cases hg : s.rooms.get? room with
  | none => simp
  | some n => simpa using Nat.pos_iff_ne_zero.mp (h.positive room n hg)

theorem closed_client {s : State} {a : Action} {k : Socket} (h : closed s a = some k) :
    k.isClient = true := by
  obtain ⟨_, hk⟩ := Option.filter_eq_some_iff.mp h
  simp only [Bool.and_eq_true] at hk
  exact hk.2

/-- No client socket is connected and no validation request is pending. -/
def Quiescent (s : State) : Prop := (∀ k ∈ s.connected, k.isClient = false) ∧ s.pending = []

/-- The step refuses nobody, and a client that it closes has an entry for its room. -/
def Balanced (s : State) (a : Action) : Prop :=
  refused a = none ∧ ∀ k, closed s a = some k → k.room ∈ s.rooms.keys

theorem refusals_eq_zero_iff (tr : List (State × Action)) :
    refusals tr = 0 ↔ ∀ x ∈ tr, refused x.2 = none := by
  simp [refusals, List.countP_eq_zero]

/-- No closing of the run went unmatched exactly when each one found an entry. -/
theorem unmatchedIn_eq_zero_iff {tr : List (State × Action)} {s : State}
    (h : (server env).Run tr s) :
    (∀ room, unmatchedIn tr room = 0) ↔
      ∀ x ∈ tr, ∀ k, closed x.1 x.2 = some k → k.room ∈ x.1.rooms.keys := by
  have table (x : State × Action) (hx : x ∈ tr) : RoomTable x.1.rooms := by
    obtain ⟨p, _, hp, _, _⟩ := h.step_of_mem (x := x.1) (a := x.2) hx
    exact roomTable hp
  simp only [unmatchedIn, List.countP_eq_zero]
  refine ⟨?_, ?_⟩
  · intro hzero x hx k hk
    by_contra hno
    have hcount := (roomCount_eq_zero_iff (table x hx) k.room).mpr hno
    have hroom : inRoom k.room k = true := by simp [inRoom, closed_client hk]
    exact hzero k.room x hx (by simp [hk, hroom, hcount])
  · intro hall room x hx hbad
    simp only [Bool.and_eq_true, Option.any_eq_true, beq_iff_eq] at hbad
    obtain ⟨⟨k, hk, hroom⟩, hcount⟩ := hbad
    have heq : k.room = room := by
      simp only [inRoom, Bool.and_eq_true, beq_iff_eq] at hroom
      exact hroom.2
    rw [← heq, roomCount_eq_zero_iff (table x hx)] at hcount
    exact hcount (hall x hx k hk)

/-- When all clients are gone and all validations answered, nothing is left in
`rooms` and `socket_count` is 0 exactly when no validation of the run was refused
and every client that closed found an entry of its room. -/
theorem no_leak_iff (env : Option String) (tr : List (State × Action)) (s : State)
    (h : (server env).Run tr s) (hq : Quiescent s) :
    (s.rooms.keys = [] ∧ s.socketCount = 0) ↔ ∀ x ∈ tr, Balanced x.1 x.2 := by
  have hbal := balance h
  have hclients : (s.connected.countP fun k => k.isClient) = 0 :=
    List.countP_eq_zero.mpr fun k hk => by simp [hq.1 k hk]
  have hroom (room : String) : roomCount s room + refusedIn tr room = unmatchedIn tr room := by
    have hb := hbal.room room
    have hzero : s.connected.countP (inRoom room) = 0 :=
      List.countP_eq_zero.mpr fun k hk => by simp [inRoom, hq.1 k hk]
    simpa [hq.2, hzero] using hb
  have htotal : s.socketCount + refusals tr = 0 := by
    have hb := hbal.total
    rw [hclients, hq.2] at hb
    simpa using hb
  have hkeys : s.rooms.keys = [] ↔ ∀ room, roomCount s room = 0 := by
    simp only [roomCount_eq_zero_iff (roomTable h)]
    exact List.eq_nil_iff_forall_not_mem
  have hrefused : (∀ x ∈ tr, refused x.2 = none) → ∀ room, refusedIn tr room = 0 := by
    intro hall room
    exact List.countP_eq_zero.mpr fun x hx => by simp [hall x hx]
  refine ⟨?_, ?_⟩
  · rintro ⟨hempty, hcount⟩
    have hno := (refusals_eq_zero_iff tr).mp (by omega)
    have hun := (unmatchedIn_eq_zero_iff h).mp fun room => by
      rw [← hroom room, hkeys.mp hempty room, hrefused hno room]
    exact fun x hx => ⟨hno x hx, hun x hx⟩
  · intro hall
    have hno : ∀ x ∈ tr, refused x.2 = none := fun x hx => (hall x hx).1
    have hun := (unmatchedIn_eq_zero_iff h).mpr fun x hx => (hall x hx).2
    refine ⟨hkeys.mpr fun room => ?_, ?_⟩
    · have hb := hroom room
      rw [hun room] at hb
      omega
    · have hz := (refusals_eq_zero_iff tr).mpr hno
      omega

/-- One client that is accepted and then leaves. -/
theorem no_leak_one_client :
    ∃ tr s, (server none).Run tr s ∧ Quiescent s ∧ (∀ x ∈ tr, Balanced x.1 x.2) ∧
      s.rooms.keys = [] ∧ s.socketCount = 0 := by
  obtain ⟨tr, s, hrun, hcon, hpending, hempty⟩ : ∃ tr s, (server none).Run tr s ∧
      s.connected = [] ∧ s.pending = [] ∧ s.rooms.keys = [] ∧ s.socketCount = 0 :=
    ⟨_, _, System.Run.exec .nil [.connect plainClient,
      .validation ⟨0, plainClient⟩ (.response (some (.obj []))), .disconnect ⟨0, plainClient⟩] rfl,
      rfl, rfl, rfl, rfl⟩
  have hq : Quiescent s := ⟨by simp [hcon], hpending⟩
  exact ⟨tr, s, hrun, hq, (no_leak_iff none tr s hrun hq).mp hempty, hempty⟩

/-- A client that leaves before its validation is answered is still counted when
the answer accepts it: its room stays in `rooms` with nobody left. -/
theorem leak_late_response :
    ∃ tr s, (server none).Run tr s ∧
      tr.map Prod.snd = [.connect plainClient, .disconnect ⟨0, plainClient⟩,
        .validation ⟨0, plainClient⟩ (.response (some (.obj [])))] ∧
      Quiescent s ∧ ¬ (s.rooms.keys = [] ∧ s.socketCount = 0) := by
  refine ⟨_, _, System.Run.exec .nil [.connect plainClient, .disconnect ⟨0, plainClient⟩,
    .validation ⟨0, plainClient⟩ (.response (some (.obj [])))] rfl, rfl, ⟨?_, rfl⟩, ?_⟩
  · rintro k ⟨⟩
  · rintro ⟨hkeys, -⟩
    cases hkeys

end PlenarioStream.Server

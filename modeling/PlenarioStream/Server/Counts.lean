import PlenarioStream.Foundation.Reflected
import PlenarioStream.Server.Accounting

/-!
The counts of `index.js` in closed form. The disconnect handler deletes the entry of a
room that is down to one, or that has none, so the count of a room is a counter that stays
at zero: it is the greatest surplus of accepted over closed sockets of the room in any
final stretch of the run. `socket_count` has no such floor and is the plain difference.
-/
namespace PlenarioStream.Server
open Js Transition

variable {env : Option String}

/-- The socket whose validation an action accepts. -/
def accepted : Action → Option Socket
  | .validation k (.response body) =>
      match validate body with
      | .ok () => some k
      | .error _ => none
  | _ => none

/-- What a step should do to a count of the sockets that satisfy the predicate. -/
def change (p : Socket → Bool) (x : State × Action) : ℤ :=
  (if (accepted x.2).any p then 1 else 0) - (if (closed x.1 x.2).any p then 1 else 0)

def changes (p : Socket → Bool) (tr : List (State × Action)) : List ℤ := tr.map (change p)

theorem changes_concat (p : Socket → Bool) (tr : List (State × Action)) (x : State × Action) :
    changes p (tr ++ [x]) = changes p tr ++ [change p x] := by
  simp [changes]

/-- A step moves every room's count by its change, but not below zero, and `socket_count`
by that of all client sockets. -/
structure Moves (s : State) (a : Action) (s' : State) : Prop where
  room : ∀ room, roomCount s' room = ((roomCount s room : ℤ) + change (inRoom room) (s, a)).toNat
  total : s'.socketCount = s.socketCount + change Socket.isClient (s, a)

theorem Moves.still {s s' : State} {a : Action} (hacc : accepted a = none)
    (hclosed : closed s a = none) (hrooms : s'.rooms = s.rooms)
    (hcount : s'.socketCount = s.socketCount) : Moves s a s' := by
  refine ⟨?_, ?_⟩
  · intro room
    simp [change, hacc, hclosed, roomCount, hrooms]
  · simp [change, hacc, hclosed, hcount]

theorem Moves.join {s : State} {a : Action} {k : Socket} (hk : k.isClient = true)
    (hacc : accepted a = some k) (hclosed : closed s a = none) :
    Moves s a (join (answering s k) k) := by
  refine ⟨?_, ?_⟩
  · intro room
    have hcount : roomCount (Server.join (answering s k) k) room =
        roomCount s room + if room = k.room then 1 else 0 := roomCount_increment s.rooms k.room room
    rw [hcount]
    by_cases hroom : room = k.room <;> simp [change, hacc, hclosed, inRoom_client hk, hroom]
  · simp [change, hacc, hclosed, hk, Server.join, answering]

/-- A client socket closes in a state that agrees with `s` on the sockets and the counts. -/
theorem Moves.close {s t : State} {a : Action} {k : Socket} (hk : k.isClient = true)
    (hmem : k ∈ s.connected) (hcon : t.connected = s.connected) (hrooms : t.rooms = s.rooms)
    (hcount : t.socketCount = s.socketCount) (hacc : accepted a = none)
    (hclosed : closed s a = some k) : Moves s a (disconnect t k) := by
  refine ⟨?_, ?_⟩
  · intro room
    have hroom : roomCount (disconnect t k) room =
        roomCount s room - if room = k.room then 1 else 0 := by
      simp only [roomCount, disconnect_rooms, hcon, hrooms, hmem, hk, and_self, if_true,
        roomCount_decrement]
    rw [hroom]
    by_cases hname : room = k.room <;> simp [change, hacc, hclosed, inRoom_client hk, hname]
    omega
  · rw [disconnect_socketCount, hcon, if_pos ⟨hmem, hk⟩, hcount]
    simp [change, hacc, hclosed, hk]
    omega

theorem moves_step {tr : List (State × Action)} {s s' : State} {a : Action}
    (adm : Admitted (Accepted tr) s) (h : Steps env s a s') : Moves s a s' := by
  cases h with
  | accept k body hk hv =>
      have hclosed : closed s (.validation k (.response body)) = none := by
        simp [closed, refused, hv]
      exact .join (adm.pending_client k hk) (by simp [accepted, hv]) hclosed
  | reject k body e hk hv =>
      have hacc : accepted (.validation k (.response body)) = none := by simp [accepted, hv]
      have hcl := adm.pending_client k hk
      by_cases hmem : k ∈ s.connected
      · exact .close hcl hmem rfl rfl rfl hacc (by simp [closed, refused, hv, hmem, hcl])
      · have hsame : disconnect (refusing s k e) k = refusing s k e := if_neg hmem
        rw [hsame]
        exact .still hacc (by simp [closed, refused, hv, hmem]) rfl rfl
  | disconnect k hk =>
      cases hcl : k.isClient with
      | true => exact .close hcl hk rfl rfl rfl rfl (by simp [closed, hk, hcl])
      | false =>
          refine .still rfl (by simp [closed, hcl]) ?_ ?_
          · rw [disconnect_rooms, if_neg (by simp [hcl])]
          · rw [disconnect_socketCount, if_neg (by simp [hcl])]
  | _ => exact .still rfl rfl rfl rfl

/-- In every reachable state, the count that `rooms` holds for a room is the greatest
surplus of accepted over closed client sockets of that room in any final stretch of the run;
the room has an entry exactly when there is such a surplus; and `socket_count` is the
difference over the whole run, over all rooms. -/
theorem counts_closed_form {tr : List (State × Action)} {s : State}
    (h : (server env).Run tr s) :
    (∀ room, IsGreatest (Reflected.finalSums (changes (inRoom room) tr)) (roomCount s room : ℤ)) ∧
    (∀ room, room ∈ s.rooms.keys ↔ 0 < roomCount s room) ∧
    s.socketCount = (changes Socket.isClient tr).sum := by
  have hall : (∀ room, roomCount s room = Reflected.count (changes (inRoom room) tr)) ∧
      s.socketCount = (changes Socket.isClient tr).sum := by
    refine h.invariant (fun tr s => (∀ room, roomCount s room =
      Reflected.count (changes (inRoom room) tr)) ∧
        s.socketCount = (changes Socket.isClient tr).sum) ⟨fun room => rfl, rfl⟩ ?_
    intro tr s a s' hr hinv hs
    have hmoves := moves_step (admitted hr) (step_cases hs)
    refine ⟨?_, ?_⟩
    · intro room
      rw [changes_concat, Reflected.count_concat, hmoves.room, hinv.1]
    · rw [changes_concat, List.sum_append, hmoves.total, hinv.2]
      simp
  refine ⟨?_, ?_, hall.2⟩
  · intro room
    rw [hall.1]
    exact Reflected.count_isGreatest _
  · intro room
    have htable := roomTable h
    rw [OrderedMap.mem_keys_iff, roomCount]
    cases hget : s.rooms.get? room with
    | none => simp
    | some n => simpa using htable.positive room n hget

/-- A client that leaves before it is accepted keeps a surplus of one, for good. -/
theorem counts_closed_form_early_disconnect :
    ∃ tr s, (server none).Run tr s ∧
      tr.map Prod.snd = [.connect plainClient, .disconnect ⟨0, plainClient⟩,
        .validation ⟨0, plainClient⟩ (.response (some (.obj [])))] ∧
      s.connected = [] ∧ s.socketCount = 0 ∧ (changes Socket.isClient tr).sum = 0 ∧
      IsGreatest (Reflected.finalSums (changes (inRoom (⟨0, plainClient⟩ : Socket).room) tr))
        (roomCount s (⟨0, plainClient⟩ : Socket).room : ℤ) ∧
      0 < roomCount s (⟨0, plainClient⟩ : Socket).room := by
  have hrun := System.Run.nil.exec (S := server none)
    [.connect plainClient, .disconnect ⟨0, plainClient⟩,
      .validation ⟨0, plainClient⟩ (.response (some (.obj [])))] rfl
  obtain ⟨hrooms, hkeys, htotal⟩ := counts_closed_form hrun
  refine ⟨_, _, hrun, rfl, rfl, rfl, htotal.symm.trans rfl, hrooms _, (hkeys _).mp ?_⟩
  exact (mem_keys_increment _ _ _).mpr (.inl rfl)

end PlenarioStream.Server

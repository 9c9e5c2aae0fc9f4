import Mathlib.Data.List.Basic
import Mathlib.Data.List.Infix
import Mathlib.Tactic.Common

/-!
One end of a connection that keeps its messages in order. While it is down, messages
wait in a buffer; a new connection takes the buffer over, and what is in flight when a
connection breaks is lost. What the two ends see of each other is compared message by
message: a list of received messages against the list it should be.
-/
universe u v

/-- The peer is known only while the connection is up. -/
inductive Channel (κ : Type u) (α : Type v)
  | down (buffer : List α)
  | up (peer : κ) (wire : List α)

namespace Channel
variable {κ : Type u} {α : Type v}

/-- The messages that were sent and have been neither received nor lost. -/
def pending : Channel κ α → List α
  | down buffer => buffer
  | up _ wire => wire

def send (messages : List α) : Channel κ α → Channel κ α
  | down buffer => down (buffer ++ messages)
  | up peer wire => up peer (wire ++ messages)

def connect (peer : κ) (c : Channel κ α) : Channel κ α := up peer c.pending

/-- The messages in flight are gone. -/
def inFlight : Channel κ α → List α
  | down _ => []
  | up _ wire => wire

def drop : Channel κ α → Channel κ α
  | down buffer => down buffer
  | up _ _ => down []

/-- The peer, its next message and the channel without it. -/
def receive : Channel κ α → Option (κ × α × Channel κ α)
  | up peer (a :: wire) => some (peer, a, up peer wire)
  | _ => none

@[simp] theorem pending_send (messages : List α) (c : Channel κ α) :
    (c.send messages).pending = c.pending ++ messages := by
  cases c <;> rfl

@[simp] theorem pending_connect (peer : κ) (c : Channel κ α) :
    (c.connect peer).pending = c.pending := rfl

theorem pending_drop (c : Channel κ α) : c.pending = c.inFlight ++ c.drop.pending := by
  cases c with
  | down buffer => rfl
  | up peer wire => exact (List.append_nil wire).symm

theorem pending_receive {c c' : Channel κ α} {peer : κ} {a : α}
    (h : c.receive = some (peer, a, c')) : c.pending = a :: c'.pending := by
  unfold receive at h
  split at h
  · cases h
    rfl
  · cases h

end Channel

/-- Two sublists compose to the whole list only when each of them is whole. -/
theorem List.Sublist.eq_iff_of_trans {α : Type u} {a b c : List α} (hab : a.Sublist b)
    (hbc : b.Sublist c) : a = c ↔ a = b ∧ b = c := by
  refine ⟨?_, ?_⟩
  · rintro rfl
    exact ⟨hab.antisymm hbc, hbc.antisymm hab⟩
  · rintro ⟨rfl, rfl⟩
    rfl

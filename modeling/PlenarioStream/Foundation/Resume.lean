import Mathlib.Data.List.Count
import Mathlib.Data.List.Range
import PlenarioStream.Foundation.Transition

/-!
Reading a sequence in stretches. A reader starts at the stored position, reads on from
there, and stores its position or does not, until it is replaced by another. A position
is read once, and once more for each reader that is replaced after it has read the position
and before it has stored it.
-/
namespace Resume
open Transition

/-- The stretches of earlier readers are given by their first position and their length. -/
structure Reader where
  start : Nat
  given : Nat
  stored : Nat
  past : List (Nat × Nat)

inductive Move
  | read (n : Nat)
  | store
  | restart

def Reader.position (r : Reader) : Nat := r.start + r.given

def Reader.stretches (r : Reader) : List (Nat × Nat) := r.past ++ [(r.start, r.given)]

/-- The positions in the order in which they were read. -/
def Reader.positions (r : Reader) : List Nat := r.stretches.flatMap fun p => List.range' p.1 p.2

def reader : System Reader Move where
  init := ⟨0, 0, 0, []⟩
  step r
    | .read n => some { r with given := r.given + n }
    | .store => some { r with stored := r.position }
    | .restart => some ⟨r.stored, 0, r.stored, r.stretches⟩

/-- A reader is replaced that has read the position and not stored it. -/
def repeats (n : Nat) (x : Reader × Move) : Bool :=
  match x.2 with
  | .restart => decide (x.1.stored ≤ n ∧ n < x.1.position)
  | _ => false

theorem positions_eq (r : Reader) :
    r.positions = (r.past.flatMap fun p => List.range' p.1 p.2) ++ List.range' r.start r.given := by
  simp [Reader.positions, Reader.stretches]

theorem positions_read (r : Reader) (n : Nat) :
    ({ r with given := r.given + n } : Reader).positions =
      r.positions ++ List.range' r.position n := by
  simp only [positions_eq, Reader.position, List.append_assoc]
  rw [List.range'_append_1]

theorem positions_restart (r : Reader) :
    (⟨r.stored, 0, r.stored, r.stretches⟩ : Reader).positions = r.positions := by
  rw [positions_eq, List.range'_zero, List.append_nil]
  rfl

section
variable {tr : List (Reader × Move)} {r : Reader}

theorem stored_bounds (h : reader.Run tr r) : r.start ≤ r.stored ∧ r.stored ≤ r.position := by
  refine h.invariant (fun _ r => r.start ≤ r.stored ∧ r.stored ≤ r.position) ⟨le_rfl, le_rfl⟩ ?_
  intro tr r a r' _ hinv hs
  cases a with
  | read n =>
      obtain rfl := Option.some.inj hs
      exact ⟨hinv.1, hinv.2.trans (by simp only [Reader.position]; omega)⟩
  | store =>
      obtain rfl := Option.some.inj hs
      exact ⟨Nat.le_add_right _ _, le_rfl⟩
  | restart =>
      obtain rfl := Option.some.inj hs
      exact ⟨le_rfl, le_rfl⟩

theorem count_range' (n start len : Nat) :
    (List.range' start len).count n = if start ≤ n ∧ n < start + len then 1 else 0 := by
  rw [List.Nodup.count List.nodup_range']
  simp only [List.mem_range'_1]

/-- How often a position has been read. -/
theorem count_positions (h : reader.Run tr r) (n : Nat) :
    r.positions.count n = (if n < r.position then 1 else 0) + tr.countP (repeats n) := by
  refine h.invariant (fun tr r => r.positions.count n =
    (if n < r.position then 1 else 0) + tr.countP (repeats n)) rfl ?_
  intro tr r a r' hr hinv hs
  have hbounds := stored_bounds hr
  rw [List.countP_append, List.countP_singleton]
  cases a with
  | read m =>
      obtain rfl := Option.some.inj hs
      have hposition : ({ r with given := r.given + m } : Reader).position = r.position + m :=
        (Nat.add_assoc _ _ _).symm
      have hkept : repeats n (r, .read m) = false := rfl
      rw [positions_read, List.count_append, count_range', hinv, hposition, hkept,
        if_neg Bool.false_ne_true]
      split_ifs <;> omega
  | store =>
      obtain rfl := Option.some.inj hs
      exact hinv
  | restart =>
      obtain rfl := Option.some.inj hs
      have hposition : (⟨r.stored, 0, r.stored, r.stretches⟩ : Reader).position = r.stored := rfl
      have hagain : repeats n (r, .restart) = decide (r.stored ≤ n ∧ n < r.position) := rfl
      rw [positions_restart, hinv, hposition, hagain]
      simp only [decide_eq_true_eq]
      split_ifs <;> omega

/-- Every position that some reader has passed has been read. -/
theorem mem_positions (h : reader.Run tr r) {n : Nat} (hn : n < r.position) : n ∈ r.positions := by
  rw [← List.count_pos_iff, count_positions h, if_pos hn]
  omega

/-- The positions come in their order, each once, if no reader is replaced that has read
more than it has stored. -/
theorem positions_eq_range (h : reader.Run tr r)
    (hclean : ∀ x ∈ tr, x.2 = .restart → x.1.stored = x.1.position) :
    r.positions = List.range r.position := by
  refine h.invariant_where (fun r a => a = .restart → r.stored = r.position)
    (fun _ r => r.positions = List.range r.position) rfl ?_ hclean
  intro tr r a r' _ hinv hclean hs
  cases a with
  | read n =>
      obtain rfl := Option.some.inj hs
      have happend := List.range'_append_1 (s := 0) (m := r.position) (n := n)
      rw [Nat.zero_add] at happend
      rw [positions_read, hinv, List.range_eq_range', List.range_eq_range', happend]
      rw [Reader.position, Nat.add_assoc]
      rfl
  | store =>
      obtain rfl := Option.some.inj hs
      exact hinv
  | restart =>
      obtain rfl := Option.some.inj hs
      rw [positions_restart, hinv, ← hclean rfl]
      rfl

/-- As many positions as the reader has passed have been read exactly when no reader is
replaced that has read more than it has stored. -/
theorem length_positions_iff (h : reader.Run tr r) :
    r.positions.length = r.position ↔ ∀ x ∈ tr, x.2 = .restart → x.1.stored = x.1.position := by
  refine ⟨?_, ?_⟩
  · intro hlen x hx hrestart
    obtain ⟨p, y, hp, -, -⟩ := h.step_of_mem hx
    by_contra hne
    have hlt : x.1.stored < x.1.position := lt_of_le_of_ne (stored_bounds hp).2 hne
    have hsubset : List.range r.position ⊆ r.positions := by
      intro n hn
      exact mem_positions h (List.mem_range.mp hn)
    have hperm : (List.range r.position).Perm r.positions :=
      (List.subperm_of_subset List.nodup_range hsubset).perm_of_length_le
        (by rw [hlen, List.length_range])
    have hpos : 0 < tr.countP (repeats x.1.stored) :=
      List.countP_pos_iff.mpr ⟨x, hx, by simp [repeats, hrestart, hlt]⟩
    have hcount := count_positions h x.1.stored
    rw [← hperm.count_eq, List.range_eq_range', count_range'] at hcount
    simp only [Nat.zero_le, true_and, Nat.zero_add] at hcount
    omega
  · intro hclean
    rw [positions_eq_range h hclean, List.length_range]

/-- A sequence at consecutive positions. -/
theorem filterMap_range' {α : Type} (l : List α) (start len : Nat) :
    (List.range' start len).filterMap (fun n => l[n]?) = (l.drop start).take len := by
  induction len generalizing start with
  | zero => simp
  | succ len ih =>
      rw [List.range'_succ]
      cases hget : l[start]? with
      | none =>
          have hlen : l.length ≤ start := List.getElem?_eq_none_iff.mp hget
          rw [List.filterMap_cons_none hget, ih, List.drop_of_length_le hlen,
            List.drop_of_length_le (by omega), List.take_nil, List.take_nil]
      | some x =>
          obtain ⟨hlt, rfl⟩ := List.getElem?_eq_some_iff.mp hget
          rw [List.filterMap_cons_some hget, ih, List.drop_eq_getElem_cons hlt, List.take_succ_cons]

end
end Resume

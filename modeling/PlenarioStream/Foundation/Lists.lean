import Mathlib.Algebra.Ring.Int.Defs
import Mathlib.Data.List.Basic
import Mathlib.Data.List.Forall2
import Mathlib.Data.List.Perm.Basic
import Mathlib.Data.List.TakeWhile
import Mathlib.Tactic.Common

/-!
Lists: the last element with a property, elements taken out at a position, and filters
and counts of what is left.
-/
namespace Lists
variable {α β : Type}

/-- A list with an element that satisfies a predicate has a last one. -/
theorem exists_last_split (P : α → Prop) [DecidablePred P] {l : List α}
    (h : ∃ a ∈ l, P a) : ∃ before a after, l = before ++ a :: after ∧ P a ∧ ∀ b ∈ after, ¬ P b := by
  induction l with
  | nil => simp at h
  | cons a l ih =>
      by_cases hl : ∃ b ∈ l, P b
      · obtain ⟨before, b, after, rfl, hb, hafter⟩ := ih hl
        exact ⟨a :: before, b, after, rfl, hb, hafter⟩
      · obtain ⟨b, hb, hP⟩ := h
        rcases List.mem_cons.mp hb with rfl | hb
        · exact ⟨[], b, l, rfl, hP, fun c hc hPc => hl ⟨c, hc, hPc⟩⟩
        · exact absurd ⟨b, hb, hP⟩ hl

theorem exists_of_mapM_some {f : α → Option β} {l : List α} {l' : List β}
    (h : l.mapM f = some l') : ∀ a ∈ l, ∃ b, f a = some b := by
  induction l generalizing l' with
  | nil => exact fun a ha => absurd ha List.not_mem_nil
  | cons a l ih =>
      rw [List.mapM_cons] at h
      obtain ⟨b, hb, h⟩ := Option.bind_eq_some_iff.mp h
      obtain ⟨bs, hbs, -⟩ := Option.bind_eq_some_iff.mp h
      exact List.forall_mem_cons.mpr ⟨⟨b, hb⟩, ih hbs⟩

theorem filterMap_concat (f : α → Option β) (l : List α) (a : α) :
    (l ++ [a]).filterMap f = l.filterMap f ++ (f a).toList := by
  rw [List.filterMap_append]
  cases h : f a <;> simp [h]

theorem filterMap_single [DecidableEq α] (a : α) (b : β) {l : List α}
    (h : l.Nodup) :
    (l.filterMap fun x => if x = a then some b else none) = if a ∈ l then [b] else [] := by
  induction l with
  | nil => rfl
  | cons x l ih =>
      obtain ⟨hx, hl⟩ := List.nodup_cons.mp h
      rw [List.filterMap_cons, ih hl]
      by_cases hxa : x = a
      · subst hxa
        simp [hx]
      · simp [hxa, Ne.symm hxa]

theorem countP_filter_not (p q : α → Bool) (l : List α) :
    (l.filter q).countP p + (l.filter fun a => !q a).countP p = l.countP p := by
  rw [← List.countP_append, (List.filter_append_perm q l).countP_eq]

theorem countP_eraseIdx (p : α → Bool) {l : List α} {i : Nat} {a : α}
    (h : l[i]? = some a) : l.countP p = (l.eraseIdx i).countP p + if p a then 1 else 0 := by
  obtain ⟨hlt, rfl⟩ := List.getElem?_eq_some_iff.mp h
  rw [← (List.getElem_cons_eraseIdx_perm hlt).countP_eq, List.countP_cons]

/-- How a count changes when one of the elements goes. -/
theorem countP_erase_add [DecidableEq α] {l : List α} {a : α} (h : a ∈ l) (p : α → Bool) :
    (l.erase a).countP p + (if p a = true then 1 else 0) = l.countP p := by
  rw [(List.perm_cons_erase h).countP_eq p, List.countP_cons]

theorem mem_of_lookup [DecidableEq α] {l : List (α × β)} {a : α} {b : β}
    (h : l.lookup a = some b) : (a, b) ∈ l := by
  obtain ⟨before, after, rfl, -⟩ := List.lookup_eq_some_iff.mp h
  exact List.mem_append_cons_self

theorem getElem?_filter (p : α → Bool) {l : List α} {i : Nat} {a : α}
    (h : l[i]? = some a) (ha : p a = true) : (l.filter p)[(l.take i).countP p]? = some a := by
  induction l generalizing i with
  | nil => simp at h
  | cons b l ih =>
      cases i with
      | zero =>
          obtain rfl := Option.some.inj h
          simp [ha]
      | succ i =>
          have hrest := ih (i := i) (by simpa using h)
          cases hb : p b with
          | true => simpa [hb] using hrest
          | false => simpa [hb] using hrest

theorem filter_eraseIdx (p : α → Bool) {l : List α} {i : Nat} {a : α}
    (h : l[i]? = some a) :
    (l.eraseIdx i).filter p =
      if p a then (l.filter p).eraseIdx ((l.take i).countP p) else l.filter p := by
  induction l generalizing i with
  | nil => simp at h
  | cons b l ih =>
      cases i with
      | zero =>
          obtain rfl := Option.some.inj h
          cases ha : p b <;> simp [ha]
      | succ i =>
          have hrest := ih (i := i) (by simpa using h)
          cases hb : p b <;> cases ha : p a <;> simp_all

theorem forall₂_eraseIdx {R : α → β → Prop} {l : List α} {l' : List β}
    (h : List.Forall₂ R l l') (i : Nat) : List.Forall₂ R (l.eraseIdx i) (l'.eraseIdx i) := by
  rw [List.eraseIdx_eq_take_drop_succ, List.eraseIdx_eq_take_drop_succ]
  exact List.rel_append (List.forall₂_take i h) (List.forall₂_drop (i + 1) h)

theorem le_length_takeWhile_iff (p : α → Bool) (l : List α) (n : Nat) :
    n ≤ (l.takeWhile p).length ↔ n ≤ l.length ∧ ∀ x ∈ l.take n, p x = true := by
  induction l generalizing n with
  | nil => simp
  | cons a l ih =>
      cases n with
      | zero => simp
      | succ n =>
          cases ha : p a with
          | true => simp [ha, ih]
          | false => simp [ha]

theorem dropWhile_of_head {p : α → Bool} {l : List α}
    (h : ∀ a, l.head? = some a → p a = false) : l.dropWhile p = l := by
  cases l with
  | nil => rfl
  | cons a l => rw [List.dropWhile_cons, h a rfl, if_neg Bool.false_ne_true]

theorem sum_map_eq_countP {f : α → Int} {q : α → Bool} {l : List α}
    (h : ∀ a ∈ l, f a = if q a then 1 else 0) : (l.map f).sum = l.countP q := by
  induction l with
  | nil => rfl
  | cons a l ih =>
      obtain ⟨ha, hl⟩ := List.forall_mem_cons.mp h
      rw [List.map_cons, List.sum_cons, ih hl, ha, List.countP_cons]
      cases q a <;> simp [Int.add_comm]

end Lists

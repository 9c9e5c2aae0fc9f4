import Mathlib.Data.List.Basic
import Mathlib.Tactic.Common

/-!
`indexOf` and `splice` on arrays, with the index arithmetic of JavaScript: a
missing element has index -1, and a negative start counts from the end. Equality
is a parameter, so that strict equality of any kind of value can be used. A
`forEach` is a monadic fold, which ends at the first exception.
-/
namespace Js
universe u
variable {α : Type u}

def indexOf (eq : α → α → Bool) (xs : List α) (x : α) : Int :=
  match xs.findIdx? fun y => eq y x with
  | some i => i
  | none => -1

def splice (xs : List α) (start : Int) (deleteCount : Nat) : List α :=
  let i := if start < 0 then (xs.length + start).toNat else min start.toNat xs.length
  xs.take i ++ xs.drop (i + deleteCount)

theorem indexOf_neg_iff (eq : α → α → Bool) (xs : List α) (x : α) :
    indexOf eq xs x < 0 ↔ ∀ y ∈ xs, eq y x = false := by
  unfold indexOf
  cases h : xs.findIdx? fun y => eq y x with
  | none =>
      have hall := List.findIdx?_eq_none_iff.mp h
      simpa using hall
  | some i =>
      obtain ⟨hi, heq, -⟩ := List.findIdx?_eq_some_iff_getElem.mp h
      refine ⟨?_, ?_⟩
      · intro hneg
        exact absurd hneg (Int.not_lt.mpr (Int.natCast_nonneg i))
      · intro hall
        rw [hall _ (List.getElem_mem hi)] at heq
        exact Bool.noConfusion heq

theorem indexOf_beq_neg_iff [DecidableEq α] (xs : List α) (x : α) :
    indexOf (· == ·) xs x < 0 ↔ x ∉ xs := by
  rw [indexOf_neg_iff]
  simp only [beq_eq_false_iff_ne]
  exact ⟨fun h hx => h x hx rfl, fun h y hy hyx => h (hyx ▸ hy)⟩

theorem indexOf_beq_toNat [DecidableEq α] {xs : List α} {x : α} (h : x ∈ xs) :
    (indexOf (· == ·) xs x).toNat = xs.idxOf x := by
  have hfind : xs.findIdx? (fun y => y == x) = some (xs.findIdx fun y => y == x) := by
    rw [List.findIdx?_eq_some_iff_findIdx_eq]
    exact ⟨List.findIdx_lt_length.mpr ⟨x, h, by simp⟩, rfl⟩
  rw [indexOf, hfind]
  rfl

theorem splice_natCast {xs : List α} {i : Nat} (h : i ≤ xs.length) (deleteCount : Nat) :
    splice xs i deleteCount = xs.take i ++ xs.drop (i + deleteCount) := by
  simp only [splice, Int.not_lt.mpr (Int.natCast_nonneg _), if_false, Int.toNat_natCast,
    Nat.min_eq_left h]

/-- Removing one element at the index of a member is removing its first occurrence. -/
theorem splice_indexOf (eq : α → α → Bool) (xs : List α) (x : α)
    (h : ∃ y ∈ xs, eq y x = true) :
    splice xs (indexOf eq xs x) 1 = xs.eraseP fun y => eq y x := by
  have hlt : xs.findIdx (fun y => eq y x) < xs.length := List.findIdx_lt_length.mpr h
  have hfind : xs.findIdx? (fun y => eq y x) = some (xs.findIdx fun y => eq y x) := by
    rw [List.findIdx?_eq_some_iff_findIdx_eq]
    exact ⟨hlt, rfl⟩
  rw [indexOf, hfind, List.eraseP_eq_eraseIdx, hfind]
  simp only [splice_natCast (Nat.le_of_lt hlt), List.eraseIdx_eq_take_drop_succ]

/-- Start -1 addresses the last element, whatever it is. -/
theorem splice_neg_one (xs : List α) : splice xs (-1) 1 = xs.dropLast := by
  have hlen : ((xs.length : Int) + -1).toNat = xs.length - 1 := by omega
  cases xs with
  | nil => rfl
  | cons x xs =>
      simp only [splice, show ((-1 : Int) < 0) from by decide, if_true, hlen]
      rw [List.dropLast_eq_take, List.drop_eq_nil_of_le (by simp), List.append_nil]

/-- An index of an array after a `push` is an old one or the last. -/
theorem getElem?_push {xs : List α} {x y : α} {i : Nat} (h : (xs ++ [x])[i]? = some y) :
    (i < xs.length ∧ xs[i]? = some y) ∨ (i = xs.length ∧ y = x) := by
  by_cases hi : i < xs.length
  · rw [List.getElem?_append_left hi] at h
    exact .inl ⟨hi, h⟩
  · have hlast : i = xs.length := by
      have hrange := (List.getElem?_eq_some_iff.mp h).1
      rw [List.length_append, List.length_singleton] at hrange
      omega
    rw [hlast, List.getElem?_concat_length] at h
    exact .inr ⟨hlast, (Option.some.inj h).symm⟩

section
variable {P : α → Prop} {xs : List α} {i : Nat}

theorem forall_mem_set {y : α} (hxs : ∀ x ∈ xs, P x) (hy : P y) (i : Nat) :
    ∀ x ∈ xs.set i y, P x := by
  intro x hx
  rcases List.mem_or_eq_of_mem_set hx with hx | rfl
  · exact hxs x hx
  · exact hy

theorem forall_mem_set_iff {x y : α} (hxs : ∀ x ∈ xs, P x) (hi : xs[i]? = some x) :
    (∀ x ∈ xs.set i y, P x) ↔ P y := by
  obtain ⟨hlt, -⟩ := List.getElem?_eq_some_iff.mp hi
  exact ⟨fun h => h y (List.mem_set hlt y), fun hy => forall_mem_set hxs hy i⟩

theorem forall_getElem?_iff {x : α} (hi : xs[i]? = some x) :
    (∀ y, xs[i]? = some y → P y) ↔ P x := by
  simp [hi]

end

theorem bind_eq_ok {ε β γ : Type u} {x : Except ε β} {f : β → Except ε γ} {c : γ} :
    (x >>= f) = .ok c ↔ ∃ b, x = .ok b ∧ f b = .ok c := by
  cases x with
  | error e => simp [bind, Except.bind]
  | ok b => simp [bind, Except.bind]

/-- A `forEach` whose body never throws is a plain fold. -/
theorem foldlM_ok {β ε : Type u} {step : β → α → Except ε β} {pure : β → α → β} (xs : List α)
    (h : ∀ b, ∀ x ∈ xs, step b x = .ok (pure b x)) (b : β) :
    xs.foldlM step b = .ok (xs.foldl pure b) := by
  induction xs generalizing b with
  | nil => rfl
  | cons x xs ih =>
      rw [List.foldlM_cons, h b x List.mem_cons_self, List.foldl_cons]
      exact ih (fun b y hy => h b y (List.mem_cons_of_mem _ hy)) (pure b x)

/-- A loop that ends is the loop of its steps' results. -/
theorem foldl_of_foldlM_ok {β ε : Type u} {step : β → α → Except ε β} {pure : β → α → β}
    (h : ∀ b x c, step b x = .ok c → pure b x = c) {xs : List α} {b c : β}
    (hxs : xs.foldlM step b = .ok c) : xs.foldl pure b = c := by
  induction xs generalizing b with
  | nil => exact Except.ok.inj hxs
  | cons x xs ih =>
      rw [List.foldlM_cons] at hxs
      obtain ⟨d, hd, hxs⟩ := bind_eq_ok.mp hxs
      rw [List.foldl_cons, h b x d hd]
      exact ih hxs

/-- No step of a loop that ends has thrown. -/
theorem step_of_foldlM_ok {β ε : Type u} {step : β → α → Except ε β} {xs : List α} {b c : β}
    (hxs : xs.foldlM step b = .ok c) {x : α} (hx : x ∈ xs) : ∃ d d', step d x = .ok d' := by
  induction xs generalizing b with
  | nil => exact absurd hx List.not_mem_nil
  | cons y xs ih =>
      rw [List.foldlM_cons] at hxs
      obtain ⟨d, hd, hxs⟩ := bind_eq_ok.mp hxs
      rcases List.mem_cons.mp hx with rfl | hx
      · exact ⟨b, d, hd⟩
      · exact ih hxs hx

theorem foldlM_exists_ok {β ε : Type u} {step : β → α → Except ε β} (xs : List α)
    (h : ∀ b, ∀ x ∈ xs, ∃ c, step b x = .ok c) (b : β) : ∃ c, xs.foldlM step b = .ok c := by
  induction xs generalizing b with
  | nil => exact ⟨b, rfl⟩
  | cons x xs ih =>
      obtain ⟨c, hc⟩ := h b x List.mem_cons_self
      rw [List.foldlM_cons, hc]
      exact ih (fun b y hy => h b y (List.mem_cons_of_mem _ hy)) c

theorem map_of_mapM_ok {β ε : Type u} {f : α → Except ε β} {g : α → β}
    (h : ∀ x y, f x = .ok y → g x = y) {xs : List α} {ys : List β}
    (hxs : xs.mapM f = .ok ys) : xs.map g = ys := by
  induction xs generalizing ys with
  | nil => exact Except.ok.inj hxs
  | cons x xs ih =>
      rw [List.mapM_cons] at hxs
      obtain ⟨y, hy, hxs⟩ := bind_eq_ok.mp hxs
      obtain ⟨zs, hzs, hxs⟩ := bind_eq_ok.mp hxs
      rw [List.map_cons, h x y hy, ih hzs]
      exact Except.ok.inj hxs

theorem step_of_mapM_ok {β ε : Type u} {f : α → Except ε β} {xs : List α} {ys : List β}
    (hxs : xs.mapM f = .ok ys) {x : α} (hx : x ∈ xs) : ∃ y, f x = .ok y := by
  induction xs generalizing ys with
  | nil => exact absurd hx List.not_mem_nil
  | cons z xs ih =>
      rw [List.mapM_cons] at hxs
      obtain ⟨y, hy, hxs⟩ := bind_eq_ok.mp hxs
      obtain ⟨zs, hzs, -⟩ := bind_eq_ok.mp hxs
      rcases List.mem_cons.mp hx with rfl | hx
      · exact ⟨y, hy⟩
      · exact ih hzs hx

theorem mapM_exists_ok {β ε : Type u} {f : α → Except ε β} (xs : List α)
    (h : ∀ x ∈ xs, ∃ y, f x = .ok y) : ∃ ys, xs.mapM f = .ok ys := by
  induction xs with
  | nil => exact ⟨[], rfl⟩
  | cons x xs ih =>
      obtain ⟨y, hy⟩ := h x List.mem_cons_self
      obtain ⟨ys, hys⟩ := ih fun z hz => h z (List.mem_cons_of_mem _ hz)
      rw [List.mapM_cons, hy, hys]
      exact ⟨y :: ys, rfl⟩

end Js

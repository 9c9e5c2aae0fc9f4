import Mathlib.Algebra.GroupWithZero.Nat
import Mathlib.Data.List.Flatten
import Mathlib.Data.List.Induction
import Mathlib.Tactic.Common

/-!
A list cut into chunks from the front: a chunk is closed as soon as the weight of its
elements reaches a given size, and what is left stays open. Cutting can go on where it
stopped, so the chunks do not depend on the portions in which the elements arrive.
-/
namespace Chunks
universe u
variable {α : Type u} (size : Nat) (weight : α → Nat)

def total (xs : List α) : Nat := (xs.map weight).sum

/-- One more element after some closed chunks and an open one. -/
def push (acc : List (List α) × List α) (x : α) : List (List α) × List α :=
  if size ≤ total weight (acc.2 ++ [x]) then (acc.1 ++ [acc.2 ++ [x]], [])
  else (acc.1, acc.2 ++ [x])

def chunks (xs : List α) : List (List α) × List α := xs.foldl (push size weight) ([], [])

@[simp] theorem total_nil : total weight [] = 0 := rfl

@[simp] theorem total_append (xs ys : List α) :
    total weight (xs ++ ys) = total weight xs + total weight ys := by
  simp [total]

theorem chunks_append (xs ys : List α) :
    chunks size weight (xs ++ ys) = ys.foldl (push size weight) (chunks size weight xs) :=
  List.foldl_append

theorem chunks_concat (xs : List α) (x : α) :
    chunks size weight (xs ++ [x]) = push size weight (chunks size weight xs) x :=
  chunks_append size weight xs [x]

/-- Nothing is lost, repeated or moved. -/
theorem flatten_chunks (xs : List α) :
    (chunks size weight xs).1.flatten ++ (chunks size weight xs).2 = xs := by
  induction xs using List.reverseRecOn with
  | nil => rfl
  | append_singleton xs x ih =>
      rw [chunks_concat, push]
      split
      · rw [List.flatten_concat, List.append_nil, ← List.append_assoc, ih]
      · rw [← List.append_assoc, ih]

theorem rest_lt (hsize : 0 < size) (xs : List α) :
    total weight (chunks size weight xs).2 < size := by
  induction xs using List.reverseRecOn with
  | nil => exact hsize
  | append_singleton xs x _ =>
      rw [chunks_concat, push]
      split
      · exact hsize
      · rename_i hopen
        exact Nat.lt_of_not_le hopen

/-- A closed chunk has reached the size, and had not before its last element. -/
theorem chunk_bounds (hsize : 0 < size) {xs chunk : List α}
    (h : chunk ∈ (chunks size weight xs).1) :
    size ≤ total weight chunk ∧ total weight chunk.dropLast < size := by
  induction xs using List.reverseRecOn with
  | nil => exact absurd h List.not_mem_nil
  | append_singleton xs x ih =>
      rw [chunks_concat, push] at h
      split at h
      · rename_i hreached
        rcases List.mem_append.mp h with h | h
        · exact ih h
        · rw [List.mem_singleton.mp h, List.dropLast_concat]
          exact ⟨hreached, rest_lt size weight hsize xs⟩
      · exact ih h

/-- Parts may be left out of a concatenation exactly when they are empty. -/
theorem flatMap_filter_eq_iff {β : Type u} (p : α → Bool) (f : α → List β) (xs : List α) :
    (xs.filter p).flatMap f = xs.flatMap f ↔ ∀ x ∈ xs, p x = false → f x = [] := by
  have hle : ∀ xs : List α, ((xs.filter p).flatMap f).length ≤ (xs.flatMap f).length := by
    intro xs
    exact (List.filter_sublist.flatMap f).length_le
  induction xs with
  | nil => simp
  | cons x xs ih =>
      cases hx : p x with
      | true => simp [hx, ih]
      | false =>
          rw [List.filter_cons_of_neg (by simp [hx]), List.flatMap_cons, List.forall_mem_cons]
          refine Iff.trans ⟨?_, ?_⟩ (and_congr_right fun _ => ih)
          · intro heq
            have hlen := congrArg List.length heq
            rw [List.length_append] at hlen
            have hnil : f x = [] := List.length_eq_zero_iff.mp (by have := hle xs; omega)
            rw [hnil, List.nil_append] at heq
            exact ⟨fun _ => hnil, heq⟩
          · rintro ⟨hnil, heq⟩
            rw [hnil hx, heq, List.nil_append]

end Chunks

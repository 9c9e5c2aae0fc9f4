import Mathlib.Algebra.BigOperators.Group.List.Basic
import Mathlib.Algebra.Ring.Int.Defs
import Mathlib.Data.List.Infix
import Mathlib.Order.Bounds.Basic
import Mathlib.Tactic.Common

/-!
A counter that is moved up and down and stays at zero when it would fall below. Its value
is the greatest sum of the changes over any final stretch of them: what was taken away
while it stood at zero is forgotten, and nothing else is.
-/
namespace Reflected

def count (changes : List ℤ) : ℕ := changes.foldl (fun n d => ((n : ℤ) + d).toNat) 0

@[simp] theorem count_nil : count [] = 0 := rfl

@[simp] theorem count_concat (changes : List ℤ) (d : ℤ) :
    count (changes ++ [d]) = ((count changes : ℤ) + d).toNat := by
  simp [count]

/-- The sums over the final stretches, the empty one included. -/
def finalSums (changes : List ℤ) : Set ℤ := { x | ∃ final, final <:+ changes ∧ x = final.sum }

theorem zero_mem_finalSums (changes : List ℤ) : 0 ∈ finalSums changes :=
  ⟨[], List.nil_suffix, rfl⟩

theorem mem_finalSums_concat {changes : List ℤ} {d x : ℤ} :
    x ∈ finalSums (changes ++ [d]) ↔ x = 0 ∨ ∃ y ∈ finalSums changes, x = y + d := by
  refine ⟨?_, ?_⟩
  · rintro ⟨final, hfinal, rfl⟩
    rcases List.suffix_concat_iff.mp hfinal with rfl | ⟨rest, rfl, hrest⟩
    · exact .inl rfl
    · exact .inr ⟨rest.sum, ⟨rest, hrest, rfl⟩, by simp⟩
  · rintro (rfl | ⟨y, ⟨final, hfinal, rfl⟩, rfl⟩)
    · exact zero_mem_finalSums _
    · exact ⟨final ++ [d], List.suffix_concat_iff.mpr (.inr ⟨final, rfl, hfinal⟩), by simp⟩

theorem count_isGreatest (changes : List ℤ) : IsGreatest (finalSums changes) (count changes : ℤ) := by
  induction changes using List.reverseRecOn with
  | nil =>
      refine ⟨zero_mem_finalSums [], ?_⟩
      rintro x ⟨final, hfinal, rfl⟩
      obtain rfl := List.suffix_nil.mp hfinal
      exact le_refl _
  | append_singleton changes d ih =>
      rw [count_concat]
      refine ⟨?_, ?_⟩
      · rw [mem_finalSums_concat]
        by_cases hneg : (count changes : ℤ) + d ≤ 0
        · exact .inl (by omega)
        · exact .inr ⟨count changes, ih.1, by omega⟩
      · intro x hx
        rcases mem_finalSums_concat.mp hx with rfl | ⟨y, hy, rfl⟩
        · omega
        · have := ih.2 hy
          omega

end Reflected

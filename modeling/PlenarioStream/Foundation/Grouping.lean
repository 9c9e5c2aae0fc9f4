import Mathlib.Data.List.Basic
import Mathlib.Data.List.Induction
import Mathlib.Data.List.Nodup
import Mathlib.Tactic.Common

/-!
Grouping a list by a key, in the order in which the keys first occur. The groups
are described by two independent passes, one that lists the keys and one that
filters, and by a single pass that fills two parallel arrays.
-/
namespace Grouping
universe u v w
variable {α : Type u} {κ : Type v} {γ : Type w} [DecidableEq κ]

def addKey (f : α → κ) (ks : List κ) (a : α) : List κ :=
  if f a ∈ ks then ks else ks ++ [f a]

def firstKeys (f : α → κ) (l : List α) : List κ := l.foldl (addKey f) []

def group (f : α → κ) (l : List α) (k : κ) : List α := l.filter fun a => f a = k

/-- One step of the single pass: make the item of a new key, then extend the item
found at the position of the key. -/
def collect (f : α → κ) (new : κ → γ) (extend : γ → α → γ) (acc : List γ × List κ) (a : α) :
    List γ × List κ :=
  let acc := if f a ∈ acc.2 then acc else (acc.1 ++ [new (f a)], acc.2 ++ [f a])
  (acc.1.modify (acc.2.idxOf (f a)) fun g => extend g a, acc.2)

variable {f : α → κ}

theorem firstKeys_concat (l : List α) (a : α) :
    firstKeys f (l ++ [a]) = addKey f (firstKeys f l) a := by
  simp [firstKeys]

theorem mem_firstKeys (l : List α) (k : κ) : k ∈ firstKeys f l ↔ ∃ a ∈ l, f a = k := by
  induction l using List.reverseRecOn with
  | nil => simp [firstKeys]
  | append_singleton l a ih =>
      rw [firstKeys_concat, addKey]
      by_cases h : f a ∈ firstKeys f l
      · rw [if_pos h, ih]
        refine ⟨?_, ?_⟩
        · intro hk
          obtain ⟨b, hb, hk⟩ := hk
          exact ⟨b, List.mem_append_left _ hb, hk⟩
        · intro hk
          obtain ⟨b, hb, rfl⟩ := hk
          rcases List.mem_append.mp hb with hb | hb
          · exact ⟨b, hb, rfl⟩
          · obtain rfl := List.mem_singleton.mp hb
            exact ih.mp h
      · rw [if_neg h, List.mem_append, ih, List.mem_singleton]
        simp [or_and_right, exists_or, eq_comm]

theorem firstKeys_eq_nil_iff (l : List α) : firstKeys f l = [] ↔ l = [] := by
  refine ⟨?_, ?_⟩
  · intro h
    apply List.eq_nil_iff_forall_not_mem.mpr
    intro a ha
    have hmem := (mem_firstKeys (f := f) l (f a)).mpr ⟨a, ha, rfl⟩
    rw [h] at hmem
    exact absurd hmem List.not_mem_nil
  · rintro rfl
    rfl

theorem firstKeys_nodup (l : List α) : (firstKeys f l).Nodup := by
  induction l using List.reverseRecOn with
  | nil => exact List.nodup_nil
  | append_singleton l a ih =>
      rw [firstKeys_concat, addKey]
      by_cases h : f a ∈ firstKeys f l
      · rw [if_pos h]
        exact ih
      · rw [if_neg h, ← List.concat_eq_append]
        exact ih.concat h

/-- The keys stand in the order of their first occurrences. -/
theorem firstKeys_ordered (l : List α) :
    (firstKeys f l).Pairwise fun k k' => (l.map f).idxOf k < (l.map f).idxOf k' := by
  induction l using List.reverseRecOn with
  | nil => exact List.Pairwise.nil
  | append_singleton l a ih =>
      have hkeep : ∀ k ∈ firstKeys f l, ((l ++ [a]).map f).idxOf k = (l.map f).idxOf k := by
        intro k hk
        obtain ⟨b, hb, rfl⟩ := (mem_firstKeys l k).mp hk
        rw [List.map_append, List.idxOf_append_of_mem (List.mem_map_of_mem hb)]
      have hold : (firstKeys f l).Pairwise fun k k' =>
          ((l ++ [a]).map f).idxOf k < ((l ++ [a]).map f).idxOf k' := by
        refine List.Pairwise.imp_of_mem ?_ ih
        intro k k' hk hk' hlt
        rwa [hkeep k hk, hkeep k' hk']
      rw [firstKeys_concat, addKey]
      by_cases h : f a ∈ firstKeys f l
      · rwa [if_pos h]
      · rw [if_neg h, List.pairwise_append]
        refine ⟨hold, List.pairwise_singleton _ _, ?_⟩
        intro k hk k' hk'
        obtain rfl := List.mem_singleton.mp hk'
        have hnew : f a ∉ l.map f := by
          intro hmem
          obtain ⟨b, hb, hfb⟩ := List.mem_map.mp hmem
          exact h ((mem_firstKeys l (f a)).mpr ⟨b, hb, hfb⟩)
        obtain ⟨b, hb, rfl⟩ := (mem_firstKeys l k).mp hk
        rw [hkeep _ hk, List.map_append, List.idxOf_append_of_notMem hnew]
        exact Nat.lt_of_lt_of_le (List.idxOf_lt_length_of_mem (List.mem_map_of_mem hb))
          (Nat.le_add_right _ _)

theorem group_concat (l : List α) (a : α) (k : κ) :
    group f (l ++ [a]) k = if f a = k then group f l k ++ [a] else group f l k := by
  by_cases h : f a = k <;> simp [group, h]

theorem group_eq_nil {l : List α} {k : κ} (h : k ∉ firstKeys f l) : group f l k = [] := by
  rw [mem_firstKeys] at h
  rw [group, List.filter_eq_nil_iff]
  intro a ha hk
  exact h ⟨a, ha, of_decide_eq_true hk⟩

/-- Keys read through another list give the same grouping. -/
theorem firstKeys_map {β : Type w} {g : β → α} {h : β → κ} (l : List β)
    (hf : ∀ b ∈ l, f (g b) = h b) : firstKeys f (l.map g) = firstKeys h l := by
  induction l using List.reverseRecOn with
  | nil => rfl
  | append_singleton l b ih =>
      have hl := ih fun b hb => hf b (List.mem_append_left _ hb)
      rw [List.map_append, List.map_singleton, firstKeys_concat, firstKeys_concat, hl, addKey, addKey,
        hf b (by simp)]

theorem group_map {β : Type w} {g : β → α} {h : β → κ} (l : List β)
    (hf : ∀ b ∈ l, f (g b) = h b) (k : κ) : group f (l.map g) k = (group h l k).map g := by
  rw [group, List.filter_map, group]
  congr 1
  apply List.filter_congr
  intro b hb
  simp [hf b hb]

/-- Every element lies in exactly one group. -/
theorem existsUnique_group (l : List α) {a : α} (ha : a ∈ l) :
    ∃! j : Fin (firstKeys f l).length, a ∈ group f l ((firstKeys f l).get j) := by
  obtain ⟨j, hj⟩ := List.get_of_mem ((mem_firstKeys l (f a)).mpr ⟨a, ha, rfl⟩)
  refine ⟨j, ?_, ?_⟩
  · simp only [group, List.mem_filter, decide_eq_true_eq]
    exact ⟨ha, hj.symm⟩
  · intro i hi
    simp only [group, List.mem_filter, decide_eq_true_eq] at hi
    apply (firstKeys_nodup l).injective_get
    rw [hj, hi.2]

theorem modify_map_idxOf {ks : List κ} (hks : ks.Nodup) (item : κ → γ) (change : γ → γ) (k : κ) :
    (ks.map item).modify (ks.idxOf k) change =
      ks.map fun k' => if k' = k then change (item k') else item k' := by
  induction ks with
  | nil => simp
  | cons k' ks ih =>
      obtain ⟨hk', hks⟩ := List.nodup_cons.mp hks
      by_cases h : k' = k
      · subst h
        rw [List.idxOf_cons_self, List.map_cons, List.modify_zero_cons, List.map_cons, if_pos rfl]
        congr 1
        apply List.map_congr_left
        intro x hx
        have hne : x ≠ k' := fun hxk => hk' (hxk ▸ hx)
        rw [if_neg hne]
      · rw [List.idxOf_cons_ne _ h, List.map_cons, List.modify_succ_cons, ih hks, List.map_cons,
          if_neg h]

/-- The single pass computes what the two passes describe. -/
theorem foldl_collect (new : κ → γ) (extend : γ → α → γ) (l : List α) :
    l.foldl (collect f new extend) ([], []) =
      ((firstKeys f l).map fun k => (group f l k).foldl extend (new k), firstKeys f l) := by
  induction l using List.reverseRecOn with
  | nil => rfl
  | append_singleton l a ih =>
      rw [List.foldl_append, ih, List.foldl_cons, List.foldl_nil, collect]
      have hitem : ∀ k, (group f (l ++ [a]) k).foldl extend (new k) =
          if k = f a then extend ((group f l k).foldl extend (new k)) a
          else (group f l k).foldl extend (new k) := by
        intro k
        rw [group_concat]
        by_cases h : f a = k
        · rw [if_pos h, if_pos h.symm, List.foldl_append, List.foldl_cons, List.foldl_nil]
        · rw [if_neg h, if_neg (Ne.symm h)]
      simp only [hitem]
      by_cases h : f a ∈ firstKeys f l
      · simp only [if_pos h, firstKeys_concat, addKey]
        rw [modify_map_idxOf (firstKeys_nodup l)]
      · have hnew : [new (f a)] = [f a].map fun k => (group f l k).foldl extend (new k) := by
          simp [group_eq_nil h]
        have hnodup := firstKeys_nodup (f := f) (l ++ [a])
        rw [firstKeys_concat, addKey, if_neg h] at hnodup
        simp only [if_neg h, firstKeys_concat, addKey]
        rw [hnew, ← List.map_append, modify_map_idxOf hnodup]

end Grouping

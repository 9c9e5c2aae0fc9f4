import Mathlib.Data.List.Basic
import Mathlib.Data.List.Induction
import Mathlib.Data.List.Nodup
import Mathlib.Tactic.Common

/-!
Finite maps that remember the order in which their keys were first written, as
the own properties of a JavaScript object do. Writing an existing key keeps its
position, writing a new one appends it, and removing a key forgets it.
-/
universe u v

/-- No key occurs twice, so a lookup never depends on the position of an entry. -/
structure OrderedMap (κ : Type u) (α : Type v) where
  entries : List (κ × α)
  nodup : (entries.map Prod.fst).Nodup

namespace OrderedMap
variable {κ : Type u} {α : Type v}

def empty : OrderedMap κ α := ⟨[], List.nodup_nil⟩

def keys (m : OrderedMap κ α) : List κ := m.entries.map Prod.fst

@[simp] theorem keys_empty : (empty : OrderedMap κ α).keys = [] := rfl

/-- Replace the value at a key that is present. -/
def replaceEntries [DecidableEq κ] (k : κ) (v : α) (l : List (κ × α)) : List (κ × α) :=
  l.map fun e => if e.1 = k then (k, v) else e

theorem replaceEntries_fst [DecidableEq κ] (k : κ) (v : α) (l : List (κ × α)) :
    (replaceEntries k v l).map Prod.fst = l.map Prod.fst := by
  induction l with
  | nil => rfl
  | cons e l ih =>
      by_cases h : e.1 = k
      · simpa [replaceEntries, h] using ih
      · simpa [replaceEntries, h] using ih

theorem nodup_append_entry (l : List (κ × α)) (k : κ) (v : α)
    (hl : (l.map Prod.fst).Nodup) (hk : k ∉ l.map Prod.fst) :
    ((l ++ [(k, v)]).map Prod.fst).Nodup := by
  rw [List.map_append, List.map_singleton]
  exact List.nodup_append.mpr ⟨hl, List.nodup_singleton k, fun a ha b hb hab => by
    obtain rfl := List.mem_singleton.mp hb
    exact hk (hab ▸ ha)⟩

section
variable [DecidableEq κ]

def get? (m : OrderedMap κ α) (k : κ) : Option α := m.entries.lookup k

def set (m : OrderedMap κ α) (k : κ) (v : α) : OrderedMap κ α :=
  if h : k ∈ m.entries.map Prod.fst then
    ⟨replaceEntries k v m.entries, by rw [replaceEntries_fst]; exact m.nodup⟩
  else ⟨m.entries ++ [(k, v)], nodup_append_entry _ k v m.nodup h⟩

def erase (m : OrderedMap κ α) (k : κ) : OrderedMap κ α :=
  ⟨m.entries.filter fun e => e.1 ≠ k, m.nodup.sublist (List.filter_sublist.map _)⟩

/-- Write the pairs from left to right, so that the last one at a key wins. -/
def setAll (m : OrderedMap κ α) (l : List (κ × α)) : OrderedMap κ α :=
  l.foldl (fun m e => m.set e.1 e.2) m

@[simp] theorem get?_empty (k : κ) : (empty : OrderedMap κ α).get? k = none := rfl

theorem mem_keys_iff (m : OrderedMap κ α) (k : κ) : k ∈ m.keys ↔ (m.get? k).isSome = true := by
  rw [keys, get?, List.lookup_isSome_iff, List.mem_map]
  refine ⟨?_, ?_⟩
  · rintro ⟨e, he, rfl⟩
    exact ⟨e, he, by simp⟩
  · rintro ⟨e, he, hk⟩
    exact ⟨e, he, (eq_of_beq hk).symm⟩

theorem get?_eq_none_iff (m : OrderedMap κ α) (k : κ) : m.get? k = none ↔ k ∉ m.keys := by
  rw [mem_keys_iff, Bool.not_eq_true, Option.isSome_eq_false_iff, Option.isNone_iff_eq_none]

theorem lookup_replaceEntries_self (k : κ) (v : α) (l : List (κ × α))
    (h : k ∈ l.map Prod.fst) : (replaceEntries k v l).lookup k = some v := by
  induction l with
  | nil => simp at h
  | cons e l ih =>
      obtain ⟨a, b⟩ := e
      by_cases he : a = k
      · simp [replaceEntries, he]
      · have hl : k ∈ l.map Prod.fst := by
          rcases List.mem_cons.mp h with hk | hk
          · exact absurd hk.symm he
          · exact hk
        have hb : (k == a) = false := by simpa using Ne.symm he
        simpa [replaceEntries, he, List.lookup_cons, hb] using ih hl

theorem lookup_replaceEntries_ne {k k' : κ} (v : α) (l : List (κ × α)) (h : k' ≠ k) :
    (replaceEntries k v l).lookup k' = l.lookup k' := by
  induction l with
  | nil => rfl
  | cons e l ih =>
      obtain ⟨a, b⟩ := e
      simp only [replaceEntries] at ih
      by_cases he : a = k
      · have hb : (k' == k) = false := by simpa using h
        simp [replaceEntries, he, List.lookup_cons, hb, ih]
      · simp [replaceEntries, he, List.lookup_cons, ih]

@[simp] theorem get?_set_self (m : OrderedMap κ α) (k : κ) (v : α) :
    (m.set k v).get? k = some v := by
  unfold set get?
  split
  · exact lookup_replaceEntries_self k v _ ‹_›
  · have hnone : m.entries.lookup k = none := (get?_eq_none_iff m k).mpr ‹_›
    simp [List.lookup_append, hnone]

theorem get?_set_ne (m : OrderedMap κ α) {k k' : κ} (v : α) (h : k' ≠ k) :
    (m.set k v).get? k' = m.get? k' := by
  unfold set get?
  split
  · exact lookup_replaceEntries_ne v _ h
  · have hb : (k' == k) = false := by simpa using h
    simp [List.lookup_append, List.lookup_cons, hb]

theorem get?_set (m : OrderedMap κ α) (k k' : κ) (v : α) :
    (m.set k v).get? k' = if k' = k then some v else m.get? k' := by
  by_cases h : k' = k
  · rw [h, if_pos rfl, get?_set_self]
  · rw [if_neg h, get?_set_ne m v h]

@[simp] theorem get?_erase_self (m : OrderedMap κ α) (k : κ) : (m.erase k).get? k = none := by
  rw [get?_eq_none_iff]
  simp [keys, erase]

theorem get?_erase_ne (m : OrderedMap κ α) {k k' : κ} (h : k' ≠ k) :
    (m.erase k).get? k' = m.get? k' := by
  change (m.entries.filter fun e => e.1 ≠ k).lookup k' = m.entries.lookup k'
  induction m.entries with
  | nil => rfl
  | cons e l ih =>
      obtain ⟨a, b⟩ := e
      by_cases he : a = k
      · have hb : (k' == k) = false := by simpa using h
        simpa [List.lookup_cons, he, hb] using ih
      · cases hk : k' == a with
        | true => simp [List.lookup_cons, he, hk]
        | false => simpa [List.lookup_cons, he, hk] using ih

theorem get?_erase (m : OrderedMap κ α) (k k' : κ) :
    (m.erase k).get? k' = if k' = k then none else m.get? k' := by
  by_cases h : k' = k
  · rw [h, if_pos rfl, get?_erase_self]
  · rw [if_neg h, get?_erase_ne m h]

/-- The last pair written at a key is the one found there. -/
theorem get?_setAll (l : List (κ × α)) (k : κ) :
    ((empty : OrderedMap κ α).setAll l).get? k =
      ((l.filter fun e => e.1 = k).getLast?).map Prod.snd := by
  induction l using List.reverseRecOn with
  | nil => rfl
  | append_singleton l e ih =>
      have hset : (empty : OrderedMap κ α).setAll (l ++ [e]) = (empty.setAll l).set e.1 e.2 := by
        rw [setAll, List.foldl_append]
        rfl
      rw [hset, get?_set, ih, List.filter_append]
      by_cases he : e.1 = k
      · have hfilter : [e].filter (fun e => decide (e.1 = k)) = [e] := by simp [he]
        rw [if_pos he.symm, hfilter, List.getLast?_concat]
        rfl
      · have hfilter : [e].filter (fun e => decide (e.1 = k)) = [] := by simp [he]
        rw [if_neg fun h => he h.symm, hfilter, List.append_nil]

theorem get?_setAll_last {before after : List (κ × α)} {k : κ} {v : α} (h : ∀ e ∈ after, e.1 ≠ k) :
    ((empty : OrderedMap κ α).setAll (before ++ (k, v) :: after)).get? k = some v := by
  have hafter : ((k, v) :: after).filter (fun e => decide (e.1 = k)) = [(k, v)] := by
    simpa using h
  rw [get?_setAll, List.filter_append, hafter, List.getLast?_concat]
  rfl

/-- Updating the keys of a list without repetition one after the other updates each
of them once, from its first value. -/
theorem get?_foldl_update {f : OrderedMap κ α → κ → OrderedMap κ α} {g : κ → Option α → α}
    (hf : ∀ m t k, (f m t).get? k = if k = t then some (g t (m.get? t)) else m.get? k)
    (ts : List κ) (hts : ts.Nodup) (m : OrderedMap κ α) (k : κ) :
    (ts.foldl f m).get? k = if k ∈ ts then some (g k (m.get? k)) else m.get? k := by
  induction ts generalizing m with
  | nil => simp
  | cons t ts ih =>
      obtain ⟨ht, hts⟩ := List.nodup_cons.mp hts
      rw [List.foldl_cons, ih hts, hf]
      by_cases hkt : k = t
      · subst hkt
        simp [ht]
      · simp [hkt]

/-- An update that changes nothing the second time may meet a key more than once. -/
theorem get?_foldl_update_twice {f : OrderedMap κ α → κ → OrderedMap κ α} {g : κ → Option α → α}
    (hf : ∀ m t k, (f m t).get? k = if k = t then some (g t (m.get? t)) else m.get? k)
    (htwice : ∀ t o, g t (some (g t o)) = g t o) (ts : List κ) (m : OrderedMap κ α) (k : κ) :
    (ts.foldl f m).get? k = if k ∈ ts then some (g k (m.get? k)) else m.get? k := by
  induction ts generalizing m with
  | nil => simp
  | cons t ts ih =>
      rw [List.foldl_cons, ih, hf]
      by_cases hkt : k = t
      · subst hkt
        by_cases hmem : k ∈ ts
        · simp [hmem, htwice]
        · simp [hmem]
      · simp [hkt]

end
end OrderedMap

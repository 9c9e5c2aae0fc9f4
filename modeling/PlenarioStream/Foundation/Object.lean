import PlenarioStream.Foundation.Json
import PlenarioStream.Foundation.OrderedMap
import Mathlib.Data.List.Induction

/-!
An object that a program fills by assignments to computed keys. It starts as the
literal without properties. As long as nothing shadows the setter that it inherits
under the name `__proto__`, an assignment to this name makes no property: an object
or null becomes the prototype, and any other value is ignored.
-/
namespace Js

structure Object where
  own : OrderedMap String Value
  proto : Value

namespace Object

def empty : Object := ⟨.empty, .builtin "Object.prototype"⟩

/-- A prototype that hides the setter, or is none. -/
def frees (v : Value) : Bool :=
  match v with
  | .json .null => true
  | v => (v.own "__proto__").isSome

def hasSetter (o : Object) : Bool := (o.own.get? "__proto__").isNone && !frees o.proto

/-- The assignment `o[key] = v`. That the name and the length of a function are read-only,
should one become the prototype, is left out. -/
def assign (o : Object) (key : String) (v : Value) : Object :=
  if key = "__proto__" ∧ o.hasSetter then
    if v.isObject || frees v then { o with proto := v } else o
  else { o with own := o.own.set key v }

/-- The assignments of a list, from left to right. -/
def assignAll (o : Object) (l : List (String × Value)) : Object :=
  l.foldl (fun o e => o.assign e.1 e.2) o

/-- The property read `o[key]`. -/
def get (o : Object) (key : String) : Value :=
  match o.own.get? key with
  | some v => v
  | none => if key = "__proto__" ∧ o.hasSetter then o.proto else o.proto.read key

/-- The operator `key in o`. -/
def has (o : Object) (key : String) : Bool :=
  (o.own.get? key).isSome || o.proto.hasProperty key matches .ok true

section
variable {o : Object} {key : String} {v : Value}

theorem not_hasSetter_of_own (h : o.own.get? "__proto__" = some v) : o.hasSetter = false := by
  simp [hasSetter, h]

theorem own_proto_of_hasSetter (h : o.hasSetter = true) : o.own.get? "__proto__" = none := by
  cases hown : o.own.get? "__proto__" with
  | none => rfl
  | some v =>
      rw [not_hasSetter_of_own hown] at h
      cases h

theorem assign_setter (h : key = "__proto__" ∧ o.hasSetter = true) :
    o.assign key v = if v.isObject || frees v then { o with proto := v } else o := if_pos h

theorem assign_own (h : ¬ (key = "__proto__" ∧ o.hasSetter = true)) :
    o.assign key v = { o with own := o.own.set key v } := if_neg h

/-- An assignment leaves the own properties with other names. -/
theorem own_assign_ne {k : String} (h : k ≠ key) : (o.assign key v).own.get? k = o.own.get? k := by
  by_cases hsetter : key = "__proto__" ∧ o.hasSetter = true
  · rw [assign_setter hsetter]
    split <;> rfl
  · rw [assign_own hsetter]
    exact OrderedMap.get?_set_ne _ v h

theorem own_assign_self :
    (o.assign key v).own.get? key = if key = "__proto__" ∧ o.hasSetter then none else some v := by
  by_cases hsetter : key = "__proto__" ∧ o.hasSetter = true
  · rw [if_pos hsetter, assign_setter hsetter]
    obtain ⟨rfl, hset⟩ := hsetter
    have hown := own_proto_of_hasSetter hset
    split <;> exact hown
  · rw [if_neg hsetter, assign_own hsetter]
    exact OrderedMap.get?_set_self _ key v

/-- A value that is no object cannot free an object of its setter. -/
theorem frees_of_isObject_or (h : (v.isObject || frees v) = false) : frees v = false := by
  simp_all

theorem hasSetter_assign :
    (o.assign key v).hasSetter = (o.hasSetter && !(key = "__proto__" && frees v)) := by
  by_cases hkey : key = "__proto__"
  · subst hkey
    cases hset : o.hasSetter with
    | true =>
        have hown := own_proto_of_hasSetter hset
        rw [assign_setter ⟨rfl, hset⟩]
        cases hvalue : v.isObject || frees v with
        | true => simp [hasSetter, hown]
        | false => simp [hset, frees_of_isObject_or hvalue]
    | false =>
        rw [assign_own (by simp [hset]), not_hasSetter_of_own (OrderedMap.get?_set_self _ _ v)]
        rfl
  · rw [assign_own fun h => hkey h.1]
    simp [hasSetter, OrderedMap.get?_set_ne _ v (Ne.symm hkey), hkey]

end

section
variable {l : List (String × Value)} {key : String} {v : Value}

@[simp] theorem assignAll_nil (o : Object) : o.assignAll [] = o := rfl

theorem assignAll_append (o : Object) (l l' : List (String × Value)) :
    o.assignAll (l ++ l') = (o.assignAll l).assignAll l' := List.foldl_append

theorem assignAll_concat (o : Object) (l : List (String × Value)) (e : String × Value) :
    o.assignAll (l ++ [e]) = (o.assignAll l).assign e.1 e.2 := assignAll_append o l [e]

theorem hasSetter_assignAll (l : List (String × Value)) :
    (empty.assignAll l).hasSetter = true ↔ ∀ e ∈ l, e.1 = "__proto__" → frees e.2 = false := by
  induction l using List.reverseRecOn with
  | nil => exact iff_of_true rfl fun e he => absurd he List.not_mem_nil
  | append_singleton l e ih =>
      rw [assignAll_concat, hasSetter_assign, Bool.and_eq_true, ih, List.forall_mem_append,
        List.forall_mem_singleton]
      simp [imp_iff_not_or]

theorem own_assignAll_of_not_mem (o : Object) (h : ∀ e ∈ l, e.1 ≠ key) :
    (o.assignAll l).own.get? key = o.own.get? key := by
  induction l using List.reverseRecOn with
  | nil => rfl
  | append_singleton l e ih =>
      obtain ⟨hl, he⟩ := List.forall_mem_append.mp h
      rw [assignAll_concat, own_assign_ne (List.forall_mem_singleton.mp he).symm, ih hl]

/-- The last assignment to a name decides. It makes a property unless it finds the setter. -/
theorem own_assignAll {before after : List (String × Value)} (h : ∀ e ∈ after, e.1 ≠ key) :
    (empty.assignAll (before ++ (key, v) :: after)).own.get? key =
      if key = "__proto__" ∧ (empty.assignAll before).hasSetter then none else some v := by
  rw [assignAll_append, ← List.singleton_append, assignAll_append, own_assignAll_of_not_mem _ h]
  exact own_assign_self

/-- So a value is found again at its name when it was assigned last, and the setter was
gone before if the name is that of the setter. -/
theorem own_assignAll_eq_some_iff {before after : List (String × Value)}
    (h : ∀ e ∈ after, e.1 ≠ key) {w : Value} :
    (empty.assignAll (before ++ (key, v) :: after)).own.get? key = some w ↔
      v = w ∧ (key = "__proto__" → ∃ e ∈ before, e.1 = "__proto__" ∧ frees e.2 = true) := by
  have hset := hasSetter_assignAll before
  rw [own_assignAll h]
  by_cases hkey : key = "__proto__"
  · cases hsetter : (empty.assignAll before).hasSetter with
    | true =>
        have hnone := hset.mp hsetter
        simp only [hkey, and_self, if_true, reduceCtorEq, false_iff, forall_const, not_and]
        rintro - ⟨e, he, hname, hfrees⟩
        rw [hnone e he hname] at hfrees
        cases hfrees
    | false =>
        simp only [hsetter, Bool.false_eq_true, false_iff] at hset
        push Not at hset
        simpa [hkey, hsetter] using fun _ : v = w => hset
  · simp [hkey]

/-- Every own property has a value that was assigned to it. -/
theorem mem_of_own_assignAll (h : (empty.assignAll l).own.get? key = some v) : (key, v) ∈ l := by
  induction l using List.reverseRecOn with
  | nil => cases h
  | append_singleton l e ih =>
      rw [assignAll_concat] at h
      by_cases he : key = e.1
      · subst he
        rw [own_assign_self] at h
        obtain ⟨-, hv⟩ := Option.ite_none_left_eq_some.mp h
        obtain rfl := Option.some.inj hv
        exact List.mem_append_right _ (List.mem_singleton_self _)
      · rw [own_assign_ne he] at h
        exact List.mem_append_left _ (ih h)

end

end Object
end Js

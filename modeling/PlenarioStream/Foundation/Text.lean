import Mathlib.Data.List.Basic
import Mathlib.Tactic.Common

/-!
`String.prototype.split` at a single character, `toLowerCase` and `util.format`.
Only ASCII letters have a lower case here, and only the directives `%s` and `%%`
of a format are known; its arguments are given as the texts they convert to.
-/
namespace Js

def split (sep : Char) (s : String) : List String :=
  (s.toList.splitOn sep).map String.ofList

def toLowerCase (s : String) : String := String.ofList (s.toList.map Char.toLower)

/-- Arguments that no directive consumes are appended, each after a blank. -/
def formatChars : List Char → List String → List Char
  | [], args => args.flatMap fun a => ' ' :: a.toList
  | '%' :: 's' :: rest, a :: args => a.toList ++ formatChars rest args
  | '%' :: '%' :: rest, args => '%' :: formatChars rest args
  | c :: rest, args => c :: formatChars rest args

def format (f : String) (args : List String) : String :=
  String.ofList (formatChars f.toList args)

theorem formatChars_append_plain (cs rest : List Char) (args : List String)
    (h : '%' ∉ cs) : formatChars (cs ++ rest) args = cs ++ formatChars rest args := by
  induction cs with
  | nil => rfl
  | cons c cs ih =>
      have hc : c ≠ '%' := fun hc => h (hc ▸ List.mem_cons_self)
      have hcs : '%' ∉ cs := fun hm => h (List.mem_cons_of_mem _ hm)
      rw [List.cons_append, formatChars.eq_def]
      simp [hc, ih hcs]

@[simp] theorem formatChars_directive (rest : List Char) (a : String) (args : List String) :
    formatChars ('%' :: 's' :: rest) (a :: args) = a.toList ++ formatChars rest args := by
  simp [formatChars]

/-- A text with one separator splits into the two parts around it. -/
theorem split_pair {sep : Char} {s t : String} (hs : sep ∉ s.toList) (ht : sep ∉ t.toList) :
    split sep (s ++ String.ofList [sep] ++ t) = [s, t] := by
  have hchars : (s ++ String.ofList [sep] ++ t).toList = s.toList ++ sep :: t.toList := by simp
  rw [split, hchars, List.splitOn_append_cons_self_of_not_mem hs, List.splitOn_eq_singleton ht]
  simp

/-- Splitting at the separator undoes joining with it, and the other way round. -/
theorem split_intercalate {sep : Char} {parts : List String} (hne : parts ≠ [])
    (h : ∀ s ∈ parts, sep ∉ s.toList) : split sep ((String.ofList [sep]).intercalate parts) = parts := by
  rw [split, String.toList_intercalate, String.toList_ofList, List.splitOn_intercalate]
  · simp [Function.comp_def]
  · intro l hl
    obtain ⟨s, hs, rfl⟩ := List.mem_map.mp hl
    exact h s hs
  · simpa using hne

theorem intercalate_split (sep : Char) (s : String) :
    (String.ofList [sep]).intercalate (split sep s) = s := by
  apply String.toList_inj.mp
  rw [String.toList_intercalate, split, List.map_map]
  simp [Function.comp_def]

theorem toLower_ne_percent {c : Char} (h : c ≠ '%') : c.toLower ≠ '%' := by
  intro hc
  unfold Char.toLower at hc
  split at hc
  · -- a letter moves up by 32 and lands on a letter
    rename_i hrange
    obtain ⟨hlo, hhi⟩ := hrange
    have hval := congrArg (fun d : Char => d.val.toNat) hc
    rw [ge_iff_le, UInt32.le_iff_toNat_le] at hlo
    rw [UInt32.le_iff_toNat_le] at hhi
    simp [UInt32.toNat_add] at hval hlo hhi
    omega
  · exact h hc

theorem percent_not_mem_toLowerCase {s : String} (h : '%' ∉ s.toList) :
    '%' ∉ (toLowerCase s).toList := by
  intro hmem
  rw [toLowerCase, String.toList_ofList, List.mem_map] at hmem
  obtain ⟨c, hc, hlower⟩ := hmem
  refine toLower_ne_percent (c := c) ?_ hlower
  intro hpercent
  exact h (hpercent ▸ hc)

theorem not_mem_intercalate {c : Char} {sep : String} {parts : List String}
    (hsep : c ∉ sep.toList) (hparts : ∀ s ∈ parts, c ∉ s.toList) :
    c ∉ (sep.intercalate parts).toList := by
  induction parts with
  | nil => simp
  | cons s parts ih =>
      have hs := hparts s List.mem_cons_self
      have hrest := ih fun t ht => hparts t (List.mem_cons_of_mem _ ht)
      cases parts with
      | nil => simpa using hs
      | cons t parts =>
          rw [String.intercalate_cons_cons]
          simp only [String.toList_append, List.mem_append, not_or]
          exact ⟨⟨hs, hsep⟩, hrest⟩

/-- Joining part by part: the separator stands before every part but the first. -/
theorem intercalate_concat (sep : String) (parts : List String) (s : String) :
    sep.intercalate (parts ++ [s]) =
      (if parts.length != 0 then sep.intercalate parts ++ sep else "") ++ s := by
  cases parts with
  | nil => simp
  | cons t parts =>
      rw [String.intercalate_append_of_ne_nil (List.cons_ne_nil t parts) (List.cons_ne_nil s [])]
      simp

/-- A plain text in front of a format is printed as it is. -/
theorem format_plain_append {s : String} (f : String) (args : List String) (h : '%' ∉ s.toList) :
    format (s ++ f) args = s ++ format f args := by
  rw [format, String.toList_append, formatChars_append_plain _ _ _ h, String.ofList_append,
    String.ofList_toList]
  rfl

/-- A directive takes the first argument. -/
theorem format_directive_append (f a : String) (args : List String) :
    format ("%s" ++ f) (a :: args) = a ++ format f args := by
  have hchars : ("%s" ++ f).toList = '%' :: 's' :: f.toList := by simp
  rw [format, hchars, formatChars_directive, String.ofList_append, String.ofList_toList]
  rfl

@[simp] theorem format_nil : format "" [] = "" := rfl

end Js

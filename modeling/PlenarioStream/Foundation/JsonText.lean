import PlenarioStream.Foundation.Json
import Mathlib.Data.List.TakeWhile

/-!
The compact text that `JSON.stringify` writes and its reading by `JSON.parse`.
The reader is total on texts and agrees with `JSON.parse` on compact texts whose
numerals have the form in which numbers are printed; the main result is that it undoes
the writer on every JSON value, up to the infinities, which are written as `null`.
-/

namespace Js.JsonText
open Js

/-- The characters with a two-character escape, and the letter that stands for each. -/
def escapes : List (Char × Char) :=
  [('"', '"'), ('\\', '\\'), ('\x08', 'b'), ('\x0c', 'f'), ('\n', 'n'), ('\r', 'r'), ('\t', 't')]

def hexDigit (n : Nat) : Char := Nat.digitChar n

def hexValue (c : Char) : Option Nat := (List.range 16).find? fun n => hexDigit n == c

def escapeChar (c : Char) : List Char :=
  match escapes.lookup c with
  | some e => ['\\', e]
  | none =>
      if c.toNat < 32 then ['\\', 'u', '0', '0', hexDigit (c.toNat / 16), hexDigit (c.toNat % 16)]
      else [c]

def writeString (s : String) : List Char := '"' :: (s.toList.flatMap escapeChar ++ ['"'])

def unescape (e : Char) : Option Char :=
  if e == '/' then some '/' else (escapes.find? fun p => p.2 == e).map Prod.fst

def unicodeEscape (a b c d : Char) : Option Char := do
  let w ← hexValue a
  let x ← hexValue b
  let y ← hexValue c
  let z ← hexValue d
  some (Char.ofNat (((w * 16 + x) * 16 + y) * 16 + z))

/-- Reads the rest of a string literal, its closing quote included. -/
def readString : List Char → Option (List Char × List Char)
  | [] => none
  | c :: rest =>
      if c = '"' then some ([], rest)
      else if c = '\\' then
        match rest with
        | 'u' :: w :: x :: y :: z :: rest => do
            let c ← unicodeEscape w x y z
            (readString rest).map fun r => (c :: r.1, r.2)
        | e :: rest => do
            let c ← unescape e
            (readString rest).map fun r => (c :: r.1, r.2)
        | [] => none
      else if c.toNat < 32 then none
      else (readString rest).map fun r => (c :: r.1, r.2)

mutual

def write : Json → List Char
  | .null | .infinity _ => ['n', 'u', 'l', 'l']
  | .bool true => ['t', 'r', 'u', 'e']
  | .bool false => ['f', 'a', 'l', 's', 'e']
  | .num n => n.digits
  | .str s => writeString s
  | .arr [] => ['[', ']']
  | .arr (j :: rest) => '[' :: (write j ++ writeElems rest)
  | .obj [] => ['{', '}']
  | .obj ((k, j) :: rest) => '{' :: (writeString k ++ ':' :: (write j ++ writeFields rest))

/-- The elements after the first one, with the closing bracket. -/
def writeElems : List Json → List Char
  | [] => [']']
  | j :: rest => ',' :: (write j ++ writeElems rest)

def writeFields : List (String × Json) → List Char
  | [] => ['}']
  | (k, j) :: rest => ',' :: (writeString k ++ ':' :: (write j ++ writeFields rest))

end

def readLiteral (lit cs : List Char) (j : Json) : Option (Json × List Char) :=
  if lit.isPrefixOf cs then some (j, cs.drop lit.length) else none

def readNumber (cs : List Char) : Option (Json × List Char) :=
  if h : cs.takeWhile numChar ≠ [] then
    some (.num ⟨cs.takeWhile numChar, h, fun _ hc => List.mem_takeWhile_imp hc⟩,
      cs.dropWhile numChar)
  else none

/-- Reads the quoted name and the colon that open a property. -/
def readName (cs : List Char) : Option (String × List Char) :=
  match cs with
  | '"' :: cs =>
      match readString cs with
      | some (k, ':' :: rest) => some (String.ofList k, rest)
      | _ => none
  | _ => none

mutual

/-- The fuel bounds the nesting and the number of elements still to be read. -/
def read : Nat → List Char → Option (Json × List Char)
  | 0, _ => none
  | _ + 1, [] => none
  | fuel + 1, c :: cs =>
      if c = 'n' then readLiteral ['u', 'l', 'l'] cs .null
      else if c = 't' then readLiteral ['r', 'u', 'e'] cs (.bool true)
      else if c = 'f' then readLiteral ['a', 'l', 's', 'e'] cs (.bool false)
      else if c = '"' then (readString cs).map fun r => (.str (String.ofList r.1), r.2)
      else if c = '[' then
        if cs.head? = some ']' then some (.arr [], cs.tail)
        else do
          let (j, cs) ← read fuel cs
          let (rest, cs) ← readElems fuel cs
          some (.arr (j :: rest), cs)
      else if c = '{' then
        if cs.head? = some '}' then some (.obj [], cs.tail)
        else do
          let (k, cs) ← readName cs
          let (j, cs) ← read fuel cs
          let (rest, cs) ← readFields fuel cs
          some (.obj ((k, j) :: rest), cs)
      else readNumber (c :: cs)

def readElems : Nat → List Char → Option (List Json × List Char)
  | 0, _ => none
  | _ + 1, [] => none
  | fuel + 1, c :: cs =>
      if c = ']' then some ([], cs)
      else if c = ',' then do
        let (j, cs) ← read fuel cs
        let (rest, cs) ← readElems fuel cs
        some (j :: rest, cs)
      else none

def readFields : Nat → List Char → Option (List (String × Json) × List Char)
  | 0, _ => none
  | _ + 1, [] => none
  | fuel + 1, c :: cs =>
      if c = '}' then some ([], cs)
      else if c = ',' then do
        let (k, cs) ← readName cs
        let (j, cs) ← read fuel cs
        let (rest, cs) ← readFields fuel cs
        some ((k, j) :: rest, cs)
      else none

end

def stringify (j : Json) : String := String.ofList (write j)

/-- A text is a JSON value when reading it leaves nothing behind. -/
def parse (text : String) : Option Json :=
  match read (text.toList.length + 1) text.toList with
  | some (j, []) => some j
  | _ => none

theorem hexValue_hexDigit : ∀ n, n < 16 → hexValue (hexDigit n) = some n := by decide

private theorem escapes_lookup_none {c : Char} (h : escapes.lookup c = none) :
    c ≠ '"' ∧ c ≠ '\\' := by
  constructor <;> rintro rfl <;> simp [escapes] at h

private theorem mem_escapes {c e : Char} (h : escapes.lookup c = some e) : (c, e) ∈ escapes := by
  obtain ⟨l₁, l₂, hl, -⟩ := List.lookup_eq_some_iff.mp h
  rw [hl]
  simp

private theorem unescape_of_escapes {c e : Char} (h : escapes.lookup c = some e) :
    unescape e = some c ∧ e ≠ 'u' := by
  have hmem := mem_escapes h
  simp only [escapes, List.mem_cons, Prod.mk.injEq, List.not_mem_nil, or_false] at hmem
  rcases hmem with ⟨rfl, rfl⟩ | ⟨rfl, rfl⟩ | ⟨rfl, rfl⟩ | ⟨rfl, rfl⟩ | ⟨rfl, rfl⟩ | ⟨rfl, rfl⟩ |
    ⟨rfl, rfl⟩ <;> decide

private theorem unicodeEscape_low {c : Char} (h : c.toNat < 32) :
    unicodeEscape '0' '0' (hexDigit (c.toNat / 16)) (hexDigit (c.toNat % 16)) = some c := by
  have h0 : hexValue '0' = some 0 := by decide
  have hc : Char.ofNat (c.toNat / 16 * 16 + c.toNat % 16) = c := by
    rw [Nat.div_add_mod']
    exact Char.ofNat_toNat c
  simp [unicodeEscape, h0, hexValue_hexDigit (c.toNat / 16) (by omega),
    hexValue_hexDigit (c.toNat % 16) (by omega), hc]

theorem readString_escapeChar (c : Char) (rest : List Char) :
    readString (escapeChar c ++ rest) = (readString rest).map fun r => (c :: r.1, r.2) := by
  unfold escapeChar
  cases h : escapes.lookup c with
  | some e =>
      obtain ⟨hu, he⟩ := unescape_of_escapes h
      rw [readString.eq_def]
      simp [hu, he]
  | none =>
      obtain ⟨hq, hb⟩ := escapes_lookup_none h
      by_cases hc : c.toNat < 32
      · rw [readString.eq_def]
        simp [hc, unicodeEscape_low hc]
      · rw [readString.eq_def]
        simp [hq, hb, hc]

theorem readString_flatMap (cs rest : List Char) :
    readString (cs.flatMap escapeChar ++ '"' :: rest) = some (cs, rest) := by
  induction cs with
  | nil => simp [readString.eq_def]
  | cons c cs ih =>
      rw [List.flatMap_cons, List.append_assoc, readString_escapeChar, ih]
      rfl

/-- A string literal stands on one line. -/
theorem newline_not_mem_writeString (s : String) : '\n' ∉ writeString s := by
  have hletters : ∀ p ∈ escapes, p.2 ≠ '\n' := by decide
  have hdigits : ∀ n, n < 16 → hexDigit n ≠ '\n' := by decide
  have hescape : ∀ c, '\n' ∉ escapeChar c := by
    intro c hmem
    unfold escapeChar at hmem
    split at hmem
    · rename_i e he
      have hne := hletters _ (mem_escapes he)
      simp only [List.mem_cons, List.not_mem_nil, or_false] at hmem
      rcases hmem with hmem | hmem
      · exact absurd hmem (by decide)
      · exact hne hmem.symm
    · rename_i he
      split at hmem
      · have hhigh := hdigits (c.toNat / 16) (by omega)
        have hlow := hdigits (c.toNat % 16) (by omega)
        simp [hhigh.symm, hlow.symm] at hmem
      · rw [← List.mem_singleton.mp hmem] at he
        exact absurd he (by decide)
  intro hmem
  simp only [writeString, List.mem_cons, List.mem_append, List.mem_flatMap, List.not_mem_nil,
    or_false] at hmem
  rcases hmem with hquote | ⟨c, -, hc⟩ | hquote
  · exact absurd hquote (by decide)
  · exact hescape c hc
  · exact absurd hquote (by decide)

theorem readName_writeString (k : String) (rest : List Char) :
    readName (writeString k ++ ':' :: rest) = some (k, rest) := by
  have h : writeString k ++ ':' :: rest =
      '"' :: (k.toList.flatMap escapeChar ++ '"' :: (':' :: rest)) := by
    simp [writeString]
  rw [h, readName, readString_flatMap]
  simp

/-- A number followed by such a rest ends where its digits end. -/
def Stops (rest : List Char) : Prop := ∀ c ∈ rest.head?, numChar c = false

theorem readNumber_digits (n : NumLit) (rest : List Char) (h : Stops rest) :
    readNumber (n.digits ++ rest) = some (.num n, rest) := by
  have htake : rest.takeWhile numChar = [] := by
    cases rest with
    | nil => rfl
    | cons c rest => simp [h c rfl]
  have hdrop : rest.dropWhile numChar = rest := by
    cases rest with
    | nil => rfl
    | cons c rest => simp [h c rfl]
  simp [readNumber, List.takeWhile_append_of_pos n.numeric,
    List.dropWhile_append_of_pos n.numeric, htake, hdrop, n.nonempty]

private theorem stops_writeElems (l : List Json) (rest : List Char) :
    Stops (writeElems l ++ rest) := by
  cases l <;> simp [Stops, writeElems, numChar]

private theorem stops_writeFields (l : List (String × Json)) (rest : List Char) :
    Stops (writeFields l ++ rest) := by
  rcases l with _ | ⟨⟨k, j⟩, l⟩ <;> simp [Stops, writeFields, numChar]

/-- No written value can be mistaken for the end of an array. -/
private theorem write_head (j : Json) (rest : List Char) :
    (write j ++ rest).head? ≠ some ']' := by
  cases j with
  | null | infinity => simp [write]
  | bool b => cases b <;> simp [write]
  | num n =>
      obtain ⟨c, cs, hcs⟩ := List.exists_cons_of_ne_nil n.nonempty
      have hc := n.numeric c (by simp [hcs])
      rintro h
      simp only [write, hcs, List.cons_append, List.head?_cons, Option.some.injEq] at h
      rw [h] at hc
      exact absurd hc (by decide)
  | str s => simp [write, writeString]
  | arr l => cases l <;> simp [write]
  | obj l => rcases l with _ | ⟨⟨k, j⟩, l⟩ <;> simp [write]

private theorem read_number (n : NumLit) (fuel : Nat) (rest : List Char) (h : Stops rest) :
    read (fuel + 1) (n.digits ++ rest) = some (.num n, rest) := by
  have hread := readNumber_digits n rest h
  obtain ⟨c, cs, hcs⟩ := List.exists_cons_of_ne_nil n.nonempty
  have hc := n.numeric c (by simp [hcs])
  have hne (d : Char) (hd : numChar d = false) : c ≠ d := by
    rintro rfl
    rw [hc] at hd
    exact Bool.noConfusion hd
  rw [hcs, List.cons_append] at hread ⊢
  rw [read, if_neg (hne 'n' (by decide)), if_neg (hne 't' (by decide)),
    if_neg (hne 'f' (by decide)), if_neg (hne '"' (by decide)), if_neg (hne '[' (by decide)),
    if_neg (hne '{' (by decide)), hread]

mutual

/-- The written length is fuel enough, since every level and every element costs
at least one character. -/
theorem read_write : ∀ (j : Json) (fuel : Nat) (rest : List Char),
    (write j).length ≤ fuel → Stops rest → read fuel (write j ++ rest) = some (j.written, rest)
  | j, 0, rest, h, _ => by
      have hnil : write j = [] := List.eq_nil_of_length_eq_zero (Nat.le_zero.mp h)
      exact absurd hnil (by
        cases j with
        | bool b => cases b <;> simp [write]
        | num n => simpa [write] using n.nonempty
        | arr l => cases l <;> simp [write]
        | obj l => rcases l with _ | ⟨⟨k, j⟩, l⟩ <;> simp [write]
        | _ => simp [write, writeString])
  | .null, fuel + 1, rest, _, _ | .infinity _, fuel + 1, rest, _, _
  | .bool true, fuel + 1, rest, _, _ | .bool false, fuel + 1, rest, _, _ => by
      simp [write, read, readLiteral, List.isPrefixOf, Json.written]
  | .num n, fuel + 1, rest, _, hr => read_number n fuel rest hr
  | .str s, fuel + 1, rest, _, _ => by
      have hs := readString_flatMap s.toList rest
      simp [write, writeString, read, hs, Json.written]
  | .arr [], fuel + 1, rest, _, _ => by
      simp [write, read, Json.written, Json.writtenElems]
  | .arr (j :: l), fuel + 1, rest, h, hr => by
      simp only [write, List.length_cons, List.length_append] at h
      have hj := read_write j fuel (writeElems l ++ rest) (by omega) (stops_writeElems l rest)
      have hl := readElems_writeElems l fuel rest (by omega)
      have hhead := write_head j (writeElems l ++ rest)
      simp only [write, List.cons_append, List.append_assoc, read, Char.reduceEq, if_false, if_true,
        if_neg hhead, hj, hl, Option.bind_eq_bind, Option.bind_some, Json.written, Json.writtenElems]
  | .obj [], fuel + 1, rest, _, _ => by
      simp [write, read, Json.written, Json.writtenFields]
  | .obj ((k, j) :: l), fuel + 1, rest, h, hr => by
      simp only [write, List.length_cons, List.length_append] at h
      have hj := read_write j fuel (writeFields l ++ rest) (by omega) (stops_writeFields l rest)
      have hl := readFields_writeFields l fuel rest (by omega)
      have hk := readName_writeString k (write j ++ (writeFields l ++ rest))
      have hhead : (writeString k ++ ':' :: (write j ++ (writeFields l ++ rest))).head? ≠
          some '}' := by simp [writeString]
      simp only [write, List.cons_append, List.append_assoc, read, Char.reduceEq, if_false, if_true,
        if_neg hhead, hk, hj, hl, Option.bind_eq_bind, Option.bind_some, Json.written,
        Json.writtenFields]

theorem readElems_writeElems : ∀ (l : List Json) (fuel : Nat) (rest : List Char),
    (writeElems l).length ≤ fuel →
      readElems fuel (writeElems l ++ rest) = some (Json.writtenElems l, rest)
  | [], 0, _, h | _ :: _, 0, _, h => by simp [writeElems] at h
  | [], fuel + 1, rest, _ => by simp [writeElems, readElems, Json.writtenElems]
  | j :: l, fuel + 1, rest, h => by
      simp only [writeElems, List.length_cons, List.length_append] at h
      have hj := read_write j fuel (writeElems l ++ rest) (by omega) (stops_writeElems l rest)
      have hl := readElems_writeElems l fuel rest (by omega)
      simp [writeElems, readElems, hj, hl, Json.writtenElems]

theorem readFields_writeFields : ∀ (l : List (String × Json)) (fuel : Nat) (rest : List Char),
    (writeFields l).length ≤ fuel →
      readFields fuel (writeFields l ++ rest) = some (Json.writtenFields l, rest)
  | [], 0, _, h | (_, _) :: _, 0, _, h => by simp [writeFields] at h
  | [], fuel + 1, rest, _ => by simp [writeFields, readFields, Json.writtenFields]
  | (k, j) :: l, fuel + 1, rest, h => by
      simp only [writeFields, List.length_cons, List.length_append] at h
      have hj := read_write j fuel (writeFields l ++ rest) (by omega) (stops_writeFields l rest)
      have hl := readFields_writeFields l fuel rest (by omega)
      have hk := readName_writeString k (write j ++ (writeFields l ++ rest))
      simp [writeFields, readFields, hk, hj, hl, Json.writtenFields]

end

/-- `JSON.parse` undoes `JSON.stringify`, but for the infinities. -/
theorem parse_stringify (j : Json) : parse (stringify j) = some j.written := by
  have h := read_write j ((write j).length + 1) [] (Nat.le_succ _) (by simp [Stops])
  rw [List.append_nil] at h
  simp [parse, stringify, h]

theorem parse_stringify_of_finite {j : Json} (hfinite : j.finite = true) :
    parse (stringify j) = some j := by
  rw [parse_stringify, Json.written_of_finite j hfinite]

end Js.JsonText

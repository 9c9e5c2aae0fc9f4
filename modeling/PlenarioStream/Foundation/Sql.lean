import PlenarioStream.Foundation.Json

/-!
Reading a text as one SQL statement `INSERT INTO table (columns) VALUES (values);`,
where the column list may be missing. A string literal stands between single quotes,
and a quote inside it is doubled; there are no other escapes. Texts are lists of
characters.
-/
namespace Sql

inductive Token
  | word (w : List Char)
  | text (s : List Char)
  | symbol (c : Char)
deriving DecidableEq

def isSpace (c : Char) : Bool := c == ' ' || c == '\n' || c == '\t' || c == '\r'

/-- A name opens with a letter of any alphabet or an underscore. -/
def nameStart (c : Char) : Bool := c.isAlpha || c == '_' || decide (128 ≤ c.toNat)

def nameChar (c : Char) : Bool := nameStart c || c.isDigit || c == '$'

/-- A name without quotes. Keywords are not told from names. -/
def IsName : List Char → Prop
  | [] => False
  | c :: cs => nameStart c = true ∧ ∀ d ∈ cs, nameChar d = true

theorem isName_cons_iff {c : Char} {cs : List Char} :
    (nameStart c && cs.all nameChar) = true ↔ IsName (c :: cs) := by
  simp [IsName]

instance : (w : List Char) → Decidable (IsName w)
  | [] => instDecidableFalse
  | _ :: _ => decidable_of_iff _ isName_cons_iff

/-- Names, keywords and numbers are made of these. -/
def wordChar (c : Char) : Bool := nameChar c || Js.numChar c

def IsWord (w : List Char) : Prop := w ≠ [] ∧ ∀ c ∈ w, wordChar c = true

theorem isWord_iff {w : List Char} : (!w.isEmpty && w.all wordChar) = true ↔ IsWord w := by
  simp [IsWord]

instance (w : List Char) : Decidable (IsWord w) := decidable_of_iff _ isWord_iff

/-- Where the reader is: between tokens, in a word, in a string literal, or behind a
quote in a string literal. -/
inductive Mode
  | between
  | word (w : List Char)
  | text (s : List Char)
  | quote (s : List Char)

/-- The token that ends when its mode is left. -/
def Mode.emit : Mode → List Token
  | word w => [.word w]
  | quote s => [.text s]
  | between | text _ => []

/-- Every character that is no quote, no blank and not part of a word is a symbol. -/
def lex : Mode → List Char → Option (List Token)
  | .text _, [] => none
  | m, [] => some m.emit
  | .text s, c :: cs => if c = '\'' then lex (.quote s) cs else lex (.text (s ++ [c])) cs
  | .quote s, c :: cs =>
      if c = '\'' then lex (.text (s ++ ['\''])) cs
      else if wordChar c then (lex (.word [c]) cs).map (.text s :: ·)
      else if isSpace c then (lex .between cs).map (.text s :: ·)
      else (lex .between cs).map (.text s :: .symbol c :: ·)
  | .word w, c :: cs =>
      if c = '\'' then (lex (.text []) cs).map (.word w :: ·)
      else if wordChar c then lex (.word (w ++ [c])) cs
      else if isSpace c then (lex .between cs).map (.word w :: ·)
      else (lex .between cs).map (.word w :: .symbol c :: ·)
  | .between, c :: cs =>
      if c = '\'' then lex (.text []) cs
      else if wordChar c then lex (.word [c]) cs
      else if isSpace c then lex .between cs
      else (lex .between cs).map (.symbol c :: ·)

inductive Literal
  | text (s : List Char)
  | number (digits : List Char)
  | bool (b : Bool)
  | null
deriving DecidableEq

/-- Keywords are read in any case. -/
def keyword (w : List Char) (k : String) : Bool := w.map Char.toUpper == k.toList

def literal : Token → Option Literal
  | .text s => some (.text s)
  | .word w =>
      if w.all Js.numChar then some (.number w)
      else if keyword w "NULL" then some .null
      else if keyword w "TRUE" then some (.bool true)
      else if keyword w "FALSE" then some (.bool false)
      else none
  | .symbol _ => none

def name : Token → Option (List Char)
  | .word w => if IsName w then some w else none
  | .text _ | .symbol _ => none

/-- The items of a list up to its closing bracket, and what follows it. -/
def items : List Token → Option (List Token × List Token)
  | t :: .symbol c :: rest =>
      if c = ',' then (items rest).map fun r => (t :: r.1, r.2)
      else if c = ')' then some ([t], rest)
      else none
  | _ => none

structure Statement where
  table : List Char
  columns : List (List Char)
  values : List Literal
deriving DecidableEq

/-- The values up to the end of the statement, behind the opening bracket. -/
def readValues (tokens : List Token) : Option (List Literal) := do
  let (list, rest) ← items tokens
  if rest = [.symbol ';'] then list.mapM literal else none

/-- The statement from the keyword `VALUES` on. -/
def readRows (table : List Char) (columns : List (List Char)) : List Token → Option Statement
  | .word w :: .symbol c :: rest =>
      if keyword w "VALUES" && c == '(' then
        (readValues rest).map fun values => ⟨table, columns, values⟩
      else none
  | _ => none

def readInsert : List Token → Option Statement
  | .word w :: .word v :: table :: .symbol c :: rest =>
      if keyword w "INSERT" && keyword v "INTO" && c == '(' then do
        let table ← name table
        let (list, rest) ← items rest
        readRows table (← list.mapM name) rest
      else none
  | .word w :: .word v :: table :: rest =>
      if keyword w "INSERT" && keyword v "INTO" then do readRows (← name table) [] rest else none
  | _ => none

def read (text : List Char) : Option Statement := (lex .between text).bind readInsert

theorem isWord_of_isName {w : List Char} (h : IsName w) : IsWord w := by
  cases w with
  | nil => exact h.elim
  | cons c cs =>
      refine ⟨List.cons_ne_nil c cs, List.forall_mem_cons.mpr ⟨?_, ?_⟩⟩
      · simp [wordChar, nameChar, h.1]
      · intro d hd
        simp [wordChar, h.2 d hd]

theorem ne_quote_of_wordChar {c : Char} (h : wordChar c = true) : c ≠ '\'' := by
  rintro rfl
  exact absurd h (by decide)

theorem lex_between_cons (c : Char) (cs : List Char) :
    lex .between (c :: cs) =
      if c = '\'' then lex (.text []) cs
      else if wordChar c then lex (.word [c]) cs
      else if isSpace c then lex .between cs
      else (lex .between cs).map (.symbol c :: ·) := rfl

theorem lex_word_cons (w : List Char) (c : Char) (cs : List Char) :
    lex (.word w) (c :: cs) =
      if c = '\'' then (lex (.text []) cs).map (.word w :: ·)
      else if wordChar c then lex (.word (w ++ [c])) cs
      else if isSpace c then (lex .between cs).map (.word w :: ·)
      else (lex .between cs).map (.word w :: .symbol c :: ·) := rfl

theorem lex_quote_cons (s : List Char) (c : Char) (cs : List Char) :
    lex (.quote s) (c :: cs) =
      if c = '\'' then lex (.text (s ++ ['\''])) cs
      else if wordChar c then (lex (.word [c]) cs).map (.text s :: ·)
      else if isSpace c then (lex .between cs).map (.text s :: ·)
      else (lex .between cs).map (.text s :: .symbol c :: ·) := rfl

theorem lex_text_cons (s : List Char) (c : Char) (cs : List Char) :
    lex (.text s) (c :: cs) =
      if c = '\'' then lex (.quote s) cs else lex (.text (s ++ [c])) cs := rfl

theorem lex_word_leave {w cs : List Char} {c : Char} (hc : wordChar c = false) :
    lex (.word w) (c :: cs) = (lex .between (c :: cs)).map (.word w :: ·) := by
  by_cases hquote : c = '\''
  · simp [lex_word_cons, lex_between_cons, hquote]
  · by_cases hspace : isSpace c = true
    · simp [lex_word_cons, lex_between_cons, hquote, hc, hspace]
    · simp [lex_word_cons, lex_between_cons, hquote, hc, hspace, Function.comp_def]

theorem lex_quote_leave {s cs : List Char} {c : Char} (hc : c ≠ '\'') :
    lex (.quote s) (c :: cs) = (lex .between (c :: cs)).map (.text s :: ·) := by
  by_cases hword : wordChar c = true
  · simp [lex_quote_cons, lex_between_cons, hc, hword]
  · by_cases hspace : isSpace c = true
    · simp [lex_quote_cons, lex_between_cons, hc, hword, hspace]
    · simp [lex_quote_cons, lex_between_cons, hc, hword, hspace, Function.comp_def]

/-- In a word, the rest of the word is read on to its end. -/
theorem lex_word_rest {w v cs : List Char} {c : Char} (hv : ∀ d ∈ v, wordChar d = true)
    (hc : wordChar c = false) :
    lex (.word w) (v ++ c :: cs) = (lex .between (c :: cs)).map (.word (w ++ v) :: ·) := by
  induction v generalizing w with
  | nil => rw [List.append_nil, List.nil_append, lex_word_leave hc]
  | cons d v ih =>
      have hd : wordChar d = true := hv d List.mem_cons_self
      have hquote := ne_quote_of_wordChar hd
      have hstep : lex (.word w) (d :: (v ++ c :: cs)) = lex (.word (w ++ [d])) (v ++ c :: cs) := by
        simp [lex_word_cons, hquote, hd]
      rw [List.cons_append, hstep, ih fun e he => hv e (List.mem_cons_of_mem _ he),
        List.append_assoc, List.singleton_append]

theorem lex_word {w cs : List Char} {c : Char} (hw : IsWord w) (hc : wordChar c = false) :
    lex .between (w ++ c :: cs) = (lex .between (c :: cs)).map (.word w :: ·) := by
  cases w with
  | nil => exact absurd rfl hw.1
  | cons d v =>
      have hd : wordChar d = true := hw.2 d List.mem_cons_self
      have hquote := ne_quote_of_wordChar hd
      have hstep : lex .between (d :: (v ++ c :: cs)) = lex (.word [d]) (v ++ c :: cs) := by
        simp [lex_between_cons, hquote, hd]
      rw [List.cons_append, hstep, lex_word_rest (fun e he => hw.2 e (List.mem_cons_of_mem _ he)) hc,
        List.singleton_append]

theorem lex_text_rest {s t cs : List Char} {c : Char} (ht : '\'' ∉ t) (hc : c ≠ '\'') :
    lex (.text s) (t ++ '\'' :: c :: cs) = (lex .between (c :: cs)).map (.text (s ++ t) :: ·) := by
  induction t generalizing s with
  | nil => rw [List.append_nil, List.nil_append, lex_text_cons, if_pos rfl,
      lex_quote_leave hc]
  | cons d t ih =>
      obtain ⟨hd, ht⟩ := not_or.mp (mt List.mem_cons.mpr ht)
      rw [List.cons_append, lex_text_cons, if_neg fun h => hd h.symm, ih ht, List.append_assoc,
        List.singleton_append]

theorem lex_text {s cs : List Char} {c : Char} (hs : '\'' ∉ s) (hc : c ≠ '\'') :
    lex .between ('\'' :: (s ++ '\'' :: c :: cs)) =
      (lex .between (c :: cs)).map (.text s :: ·) := by
  rw [lex_between_cons, if_pos rfl, lex_text_rest hs hc, List.nil_append]

theorem lex_space {cs : List Char} : lex .between (' ' :: cs) = lex .between cs := rfl

theorem lex_symbol {cs : List Char} {c : Char} (hc : c ∈ ['(', ')', ',', ';']) :
    lex .between (c :: cs) = (lex .between cs).map (.symbol c :: ·) := by
  simp only [List.mem_cons, List.not_mem_nil, or_false] at hc
  rcases hc with rfl | rfl | rfl | rfl <;> rfl

/-- A quote in a literal is written twice. -/
def escape (s : List Char) : List Char := s.flatMap fun c => if c = '\'' then ['\'', '\''] else [c]

theorem lex_word_head {w cs : List Char} {tokens : List Token}
    (h : lex (.word w) cs = some tokens) : ∃ v more, tokens = .word v :: more := by
  induction cs generalizing w tokens with
  | nil =>
      obtain rfl := Option.some.inj h
      exact ⟨w, [], rfl⟩
  | cons c cs ih =>
      by_cases hc : wordChar c = true
      · have hquote := ne_quote_of_wordChar hc
        simp only [lex_word_cons, if_neg hquote, if_pos hc] at h
        exact ih h
      · rw [lex_word_leave (Bool.not_eq_true _ ▸ hc)] at h
        obtain ⟨more, -, rfl⟩ := Option.map_eq_some_iff.mp h
        exact ⟨w, more, rfl⟩

/-- A literal ends at the first quote that is not doubled. -/
theorem lex_text_inv {acc cs : List Char} {tokens : List Token}
    (h : lex (.text acc) cs = some tokens) :
    ∃ s rest more, cs = escape s ++ '\'' :: rest ∧ tokens = .text (acc ++ s) :: more ∧
      lex .between rest = some more := by
  induction hn : cs.length using Nat.strongRecOn generalizing acc cs with
  | ind n ih =>
      cases cs with
      | nil => cases h
      | cons c cs =>
          by_cases hc : c = '\''
          · subst hc
            rw [lex_text_cons, if_pos rfl] at h
            cases cs with
            | nil =>
                obtain rfl := Option.some.inj h
                exact ⟨[], [], [], rfl, by simp [Mode.emit], rfl⟩
            | cons d cs =>
                by_cases hd : d = '\''
                · subst hd
                  rw [lex_quote_cons, if_pos rfl] at h
                  obtain ⟨s, rest, more, rfl, rfl, hmore⟩ := ih cs.length
                    (by simp only [List.length_cons] at hn; omega) h rfl
                  exact ⟨'\'' :: s, rest, more, by simp [escape], by simp, hmore⟩
                · rw [lex_quote_leave hd] at h
                  obtain ⟨more, hmore, rfl⟩ := Option.map_eq_some_iff.mp h
                  exact ⟨[], d :: cs, more, rfl, by simp, hmore⟩
          · rw [lex_text_cons, if_neg hc] at h
            obtain ⟨s, rest, more, rfl, rfl, hmore⟩ := ih cs.length
              (by simp only [List.length_cons] at hn; omega) h rfl
            exact ⟨c :: s, rest, more, by simp [escape, hc], by simp, hmore⟩

/-- The text of a string literal that is the first token. -/
theorem lex_between_inv {cs s : List Char} {more : List Token}
    (h : lex .between cs = some (.text s :: more)) :
    ∃ blanks rest, (∀ c ∈ blanks, isSpace c = true) ∧
      cs = blanks ++ '\'' :: (escape s ++ '\'' :: rest) ∧ lex .between rest = some more := by
  induction cs with
  | nil => cases h
  | cons c cs ih =>
      by_cases hquote : c = '\''
      · subst hquote
        rw [lex_between_cons, if_pos rfl] at h
        obtain ⟨t, rest, more', rfl, htokens, hmore⟩ := lex_text_inv h
        obtain ⟨htext, rfl⟩ := List.cons.inj htokens
        obtain rfl : s = t := Token.text.inj htext
        exact ⟨[], rest, by simp, rfl, hmore⟩
      · by_cases hword : wordChar c = true
        · rw [lex_between_cons, if_neg hquote, if_pos hword] at h
          obtain ⟨v, more', htokens⟩ := lex_word_head h
          cases htokens
        · rw [lex_between_cons, if_neg hquote, if_neg hword] at h
          by_cases hspace : isSpace c = true
          · rw [if_pos hspace] at h
            obtain ⟨blanks, rest, hblanks, rfl, hmore⟩ := ih h
            exact ⟨c :: blanks, rest, List.forall_mem_cons.mpr ⟨hspace, hblanks⟩, rfl, hmore⟩
          · rw [if_neg hspace] at h
            obtain ⟨more', -, htokens⟩ := Option.map_eq_some_iff.mp h
            cases htokens

/-- After quotes that open a text, its escaped form never meets the text itself. -/
theorem quotes_escape_ne {x s r r' : List Char} {c : Char} (hx : x ≠ [])
    (hquotes : ∀ d ∈ x, d = '\'') (hc : c ≠ '\'') :
    s ++ '\'' :: c :: r' ≠ x ++ (escape s ++ '\'' :: r) := by
  induction s generalizing x with
  | nil =>
      intro h
      cases x with
      | nil => exact hx rfl
      | cons d x =>
          have htail := (List.cons.inj h).2
          cases x with
          | nil => exact hc (List.cons.inj htail).1
          | cons e x =>
              have he := (List.cons.inj htail).1
              exact hc (he.trans (hquotes e (by simp)))
  | cons a s ih =>
      intro h
      cases x with
      | nil => exact hx rfl
      | cons d x =>
          rw [List.cons_append, List.cons_append] at h
          obtain ⟨hd, htail⟩ := List.cons.inj h
          have ha : a = '\'' := hd.trans (hquotes d List.mem_cons_self)
          refine ih (x := x ++ ['\'', '\'']) (by simp) ?_ ?_
          · intro e he
            simp only [List.mem_append, List.mem_cons, List.not_mem_nil, or_false, or_self] at he
            rcases he with he | he
            · exact hquotes e (List.mem_cons_of_mem _ he)
            · exact he
          · rw [htail]
            simp [escape, ha]

/-- A text between quotes is read as itself only if it has no quote. -/
theorem not_mem_of_escape {s r r' : List Char} {c : Char} (hc : c ≠ '\'')
    (h : s ++ '\'' :: c :: r' = escape s ++ '\'' :: r) : '\'' ∉ s := by
  induction s with
  | nil => exact List.not_mem_nil
  | cons a s ih =>
      by_cases ha : a = '\''
      · subst ha
        have htail : s ++ '\'' :: c :: r' = ['\''] ++ (escape s ++ '\'' :: r) := by
          simpa [escape] using h
        exact absurd htail (quotes_escape_ne (by simp) (by simp) hc)
      · have htail : s ++ '\'' :: c :: r' = escape s ++ '\'' :: r := by
          simpa [escape, ha] using h
        rw [List.mem_cons, not_or]
        exact ⟨fun h => ha h.symm, ih htail⟩

/-- A text without quotes around it is never read as itself: it would have to consist
of blanks and quotes, and what follows it does not. -/
theorem raw_ne_escape {x s r r' : List Char} {c : Char} (hx : x ≠ [])
    (hchars : ∀ d ∈ x, isSpace d = true ∨ d = '\'') (hspace : isSpace c = false)
    (hc : c ≠ '\'') : s ++ c :: r' ≠ x ++ (escape s ++ r) := by
  induction s generalizing x with
  | nil =>
      intro h
      cases x with
      | nil => exact hx rfl
      | cons d x =>
          have hd := (List.cons.inj h).1
          rcases hchars d List.mem_cons_self with hblank | hquote
          · exact absurd hblank (by simp [← hd, hspace])
          · exact hc (hd.trans hquote)
  | cons a s ih =>
      intro h
      cases x with
      | nil => exact hx rfl
      | cons d x =>
          rw [List.cons_append, List.cons_append] at h
          obtain ⟨hd, htail⟩ := List.cons.inj h
          have ha : isSpace a = true ∨ a = '\'' := hd ▸ hchars d List.mem_cons_self
          let y : List Char := if a = '\'' then ['\'', '\''] else [a]
          have hescape : escape (a :: s) = y ++ escape s := rfl
          have hy : y ≠ [] ∧ ∀ e ∈ y, e = a := by
            by_cases hquote : a = '\''
            · simp [y, hquote]
            · simp [y, hquote]
          refine ih (x := x ++ y) (by simp [hy.1]) ?_ ?_
          · intro e he
            rcases List.mem_append.mp he with he | he
            · exact hchars e (List.mem_cons_of_mem _ he)
            · rw [hy.2 e he]
              exact ha
          · rw [htail, hescape]
            simp [List.append_assoc]

/-- A value as it is put into a list: a text between quotes, a word that is a literal,
or a text as it stands. -/
inductive Piece
  | quoted (s : List Char)
  | word (w : List Char) (l : Literal) (hw : IsWord w) (hl : literal (.word w) = some l)
  | raw (s : List Char)

namespace Piece

def written : Piece → List Char
  | quoted s => '\'' :: (s ++ ['\''])
  | word w _ _ _ => w
  | raw s => s

def intended : Piece → Literal
  | quoted s | raw s => .text s
  | word _ l _ _ => l

def Sound : Piece → Prop
  | quoted s => '\'' ∉ s
  | word _ _ _ _ => True
  | raw _ => False

end Piece

/-- The list with its closing bracket, and the end of the statement. -/
def valuesText : Piece → List Piece → List Char
  | p, [] => p.written ++ ")".toList ++ ";".toList
  | p, q :: ps => p.written ++ ", ".toList ++ valuesText q ps

theorem text_of_literal {t : Token} {s : List Char} (h : literal t = some (.text s)) :
    t = .text s := by
  cases t with
  | text u => rw [Literal.text.inj (Option.some.inj h)]
  | symbol c => cases h
  | word w =>
      simp only [literal] at h
      split at h
      · cases h
      · split at h
        · cases h
        · split at h
          · cases h
          · split at h <;> cases h

section
variable {p q : Piece} {ps : List Piece} {c : Char} {cs : List Char}

theorem lex_sound (hp : p.Sound) (hc : c ∈ [',', ')']) (cs : List Char) :
    ∃ t, literal t = some p.intended ∧
      lex .between (p.written ++ c :: cs) = (lex .between (c :: cs)).map (t :: ·) := by
  have hboth : c ≠ '\'' ∧ wordChar c = false := by
    simp only [List.mem_cons, List.not_mem_nil, or_false] at hc
    rcases hc with rfl | rfl <;> decide
  cases p with
  | quoted s =>
      refine ⟨.text s, rfl, ?_⟩
      rw [← lex_text hp hboth.1]
      simp [Piece.written]
  | word w l hw hl => exact ⟨.word w, hl, lex_word hw hboth.2⟩
  | raw s => exact hp.elim

theorem sound_of_lex {t : Token} {more : List Token} (hc : c ∈ [',', ')'])
    (hlex : lex .between (p.written ++ c :: cs) = some (t :: more))
    (ht : literal t = some p.intended) : p.Sound := by
  have hboth : c ≠ '\'' ∧ isSpace c = false := by
    simp only [List.mem_cons, List.not_mem_nil, or_false] at hc
    rcases hc with rfl | rfl <;> decide
  cases p with
  | quoted s =>
      obtain rfl := text_of_literal ht
      obtain ⟨blanks, rest, hblanks, htext, -⟩ := lex_between_inv hlex
      cases blanks with
      | cons b blanks =>
          have hb : '\'' = b := (List.cons.inj htext).1
          exact absurd (hblanks b List.mem_cons_self) (hb ▸ by decide)
      | nil =>
          have htail : s ++ '\'' :: c :: cs = escape s ++ '\'' :: rest := by
            simpa [Piece.written] using htext
          exact not_mem_of_escape hboth.1 htail
  | word w l hw hl => trivial
  | raw s =>
      obtain rfl := text_of_literal ht
      obtain ⟨blanks, rest, hblanks, htext, -⟩ := lex_between_inv hlex
      have hraw : s ++ c :: cs = (blanks ++ ['\'']) ++ (escape s ++ '\'' :: rest) := by
        simpa [Piece.written] using htext
      refine absurd hraw (raw_ne_escape (by simp) ?_ hboth.2 hboth.1)
      intro d hd
      rcases List.mem_append.mp hd with hd | hd
      · exact .inl (hblanks d hd)
      · exact .inr (List.mem_singleton.mp hd)

theorem readValues_last (t : Token) :
    readValues [t, .symbol ')', .symbol ';'] = (literal t).map fun l => [l] := by
  cases h : literal t <;> simp [readValues, items, h]

theorem readValues_cons (t : Token) (tokens : List Token) :
    readValues (t :: .symbol ',' :: tokens) =
      (literal t).bind fun l => (readValues tokens).map (l :: ·) := by
  cases h : items tokens with
  | none => cases literal t <;> simp [readValues, items, h]
  | some r =>
      by_cases hrest : r.2 = [.symbol ';']
      · cases hl : literal t <;> cases hm : r.1.mapM literal <;>
          simp [readValues, items, h, hrest, hl, hm]
      · cases literal t <;> simp [readValues, items, h, hrest]

/-- The first literal that is read comes from the first token. -/
theorem literal_of_readValues {tokens : List Token} {l : Literal} {ls : List Literal}
    (h : readValues tokens = some (l :: ls)) : ∃ t more, tokens = t :: more ∧ literal t = some l := by
  cases tokens with
  | nil => cases h
  | cons t more =>
      refine ⟨t, more, rfl, ?_⟩
      obtain ⟨r, hr, h⟩ := Option.bind_eq_some_iff.mp h
      obtain ⟨-, h⟩ := Option.ite_none_right_eq_some.mp h
      have hfirst : ∃ list, r.1 = t :: list := by
        cases more with
        | nil => cases hr
        | cons u more =>
            cases u with
            | word w | text s => cases hr
            | symbol d =>
                simp only [items] at hr
                split at hr
                · obtain ⟨r', -, rfl⟩ := Option.map_eq_some_iff.mp hr
                  exact ⟨r'.1, rfl⟩
                · obtain ⟨-, hr⟩ := Option.ite_none_right_eq_some.mp hr
                  exact ⟨[], by rw [← Option.some.inj hr]⟩
      obtain ⟨list, hlist⟩ := hfirst
      rw [hlist, List.mapM_cons] at h
      obtain ⟨l', hl', h⟩ := Option.bind_eq_some_iff.mp h
      obtain ⟨ls', -, h⟩ := Option.bind_eq_some_iff.mp h
      obtain ⟨rfl, -⟩ := List.cons.inj (Option.some.inj h)
      exact hl'

/-- The first value of a list is sound if it is read as intended. -/
theorem sound_of_readValues {ls : List Literal} (hc : c ∈ [',', ')'])
    (h : (lex .between (p.written ++ c :: cs)).bind readValues = some (p.intended :: ls)) :
    p.Sound := by
  obtain ⟨tokens, hlex, hread⟩ := Option.bind_eq_some_iff.mp h
  obtain ⟨t, more, rfl, ht⟩ := literal_of_readValues hread
  exact sound_of_lex hc hlex ht

/-- A list of values is read as intended exactly when every value is sound. -/
theorem readValues_iff (p : Piece) (ps : List Piece) :
    (lex .between (valuesText p ps)).bind readValues = some ((p :: ps).map Piece.intended) ↔
      ∀ q ∈ p :: ps, q.Sound := by
  induction ps generalizing p with
  | nil =>
      rw [List.forall_mem_singleton]
      have htext : valuesText p [] = p.written ++ ')' :: [';'] := by simp [valuesText]
      rw [htext]
      refine ⟨sound_of_readValues (by simp), ?_⟩
      intro hp
      obtain ⟨t, ht, hlex⟩ := lex_sound (c := ')') hp (by simp) [';']
      have hend : lex .between [')', ';'] = some [.symbol ')', .symbol ';'] := rfl
      rw [hlex, hend, Option.map_some, Option.bind_some, readValues_last, ht]
      rfl
  | cons q ps ih =>
      have htext : valuesText p (q :: ps) = p.written ++ ',' :: (' ' :: valuesText q ps) := by
        simp [valuesText]
      rw [List.forall_mem_cons, htext]
      -- once the first value is read, the rest of the list is read from a clean state
      have hstep : p.Sound → (lex .between (p.written ++ ',' :: (' ' :: valuesText q ps))).bind
          readValues = ((lex .between (valuesText q ps)).bind readValues).map (p.intended :: ·) := by
        intro hp
        obtain ⟨t, ht, hlex⟩ := lex_sound (c := ',') hp (by simp) (' ' :: valuesText q ps)
        rw [hlex, lex_symbol (by simp), lex_space]
        cases lex .between (valuesText q ps) with
        | none => rfl
        | some tokens => simp [readValues_cons, ht]
      refine ⟨?_, ?_⟩
      · intro h
        have hp := sound_of_readValues (by simp) h
        rw [hstep hp, List.map_cons] at h
        obtain ⟨ls, hls, heq⟩ := Option.map_eq_some_iff.mp h
        exact ⟨hp, (ih q).mp (hls.trans (congrArg some (List.cons.inj heq).2))⟩
      · rintro ⟨hp, hrest⟩
        rw [hstep hp, (ih q).mpr hrest]
        rfl

end

/-- The list of column names with its closing bracket. -/
def columnsText : List Char → List (List Char) → List Char
  | n, [] => n ++ ")".toList
  | n, m :: ns => n ++ ", ".toList ++ columnsText m ns

theorem lex_columns {n : List Char} {ns : List (List Char)} (hn : ∀ m ∈ n :: ns, IsWord m) :
    ∃ list, (∀ tokens, items (list ++ tokens) = some ((n :: ns).map .word, tokens)) ∧
      ∀ cs, lex .between (columnsText n ns ++ cs) = (lex .between cs).map (list ++ ·) := by
  induction ns generalizing n with
  | nil =>
      refine ⟨[.word n, .symbol ')'], fun tokens => by simp [items], ?_⟩
      intro cs
      have htext : columnsText n [] ++ cs = n ++ ')' :: cs := by simp [columnsText]
      rw [htext, lex_word (hn n (by simp)) (by decide), lex_symbol (by simp), Option.map_map]
      rfl
  | cons m ns ih =>
      obtain ⟨list, hitems, hlex⟩ := ih (n := m) fun k hk => hn k (List.mem_cons_of_mem _ hk)
      refine ⟨.word n :: .symbol ',' :: list, fun tokens => by simp [items, hitems], ?_⟩
      intro cs
      have htext : columnsText n (m :: ns) ++ cs = n ++ ',' :: (' ' :: (columnsText m ns ++ cs)) := by
        simp [columnsText]
      rw [htext, lex_word (hn n (by simp)) (by decide), lex_symbol (by simp), lex_space, hlex,
        Option.map_map, Option.map_map]
      rfl

theorem name_word {n : List Char} (h : IsName n) : name (.word n) = some n := if_pos h

theorem mapM_name {ns : List (List Char)} (h : ∀ n ∈ ns, IsName n) :
    (ns.map Token.word).mapM name = some ns := by
  induction ns with
  | nil => rfl
  | cons n ns ih =>
      obtain ⟨hn, hns⟩ := List.forall_mem_cons.mp h
      rw [List.map_cons, List.mapM_cons, name_word hn, ih hns]
      rfl

theorem isName_of_name {t : Token} {n : List Char} (h : name t = some n) : IsName n := by
  cases t with
  | word w =>
      obtain ⟨hw, heq⟩ := Option.ite_none_right_eq_some.mp h
      exact Option.some.inj heq ▸ hw
  | text s | symbol c => cases h

theorem isName_of_mapM {tokens : List Token} {ns : List (List Char)}
    (h : tokens.mapM name = some ns) : ∀ n ∈ ns, IsName n := by
  induction tokens generalizing ns with
  | nil =>
      obtain rfl := Option.some.inj h
      exact fun n hn => absurd hn List.not_mem_nil
  | cons t tokens ih =>
      rw [List.mapM_cons] at h
      obtain ⟨n, hn, h⟩ := Option.bind_eq_some_iff.mp h
      obtain ⟨ns, hns, h⟩ := Option.bind_eq_some_iff.mp h
      obtain rfl := Option.some.inj h
      exact List.forall_mem_cons.mpr ⟨isName_of_name hn, ih hns⟩

theorem readRows_names {table : List Char} {columns : List (List Char)} {tokens : List Token}
    {st : Statement} (h : readRows table columns tokens = some st) :
    st.table = table ∧ st.columns = columns := by
  unfold readRows at h
  split at h
  · obtain ⟨-, h⟩ := Option.ite_none_right_eq_some.mp h
    obtain ⟨values, -, rfl⟩ := Option.map_eq_some_iff.mp h
    exact ⟨rfl, rfl⟩
  · cases h

/-- The table and the columns of a statement that can be read are names. -/
theorem names_of_read {text : List Char} {st : Statement} (h : read text = some st) :
    IsName st.table ∧ ∀ c ∈ st.columns, IsName c := by
  obtain ⟨tokens, -, h⟩ := Option.bind_eq_some_iff.mp h
  unfold readInsert at h
  split at h
  · obtain ⟨-, h⟩ := Option.ite_none_right_eq_some.mp h
    obtain ⟨table, htable, h⟩ := Option.bind_eq_some_iff.mp h
    obtain ⟨r, -, h⟩ := Option.bind_eq_some_iff.mp h
    obtain ⟨columns, hcolumns, h⟩ := Option.bind_eq_some_iff.mp h
    obtain ⟨hst, hcols⟩ := readRows_names h
    rw [hst, hcols]
    exact ⟨isName_of_name htable, isName_of_mapM hcolumns⟩
  · obtain ⟨-, h⟩ := Option.ite_none_right_eq_some.mp h
    obtain ⟨table, htable, h⟩ := Option.bind_eq_some_iff.mp h
    obtain ⟨hst, hcols⟩ := readRows_names h
    rw [hst, hcols]
    exact ⟨isName_of_name htable, fun c hc => absurd hc List.not_mem_nil⟩
  · cases h

private theorem lex_head {table cs : List Char} (htable : IsWord table) :
    lex .between ("INSERT INTO ".toList ++ table ++ " ".toList ++ cs) =
      (lex .between cs).map (.word "INSERT".toList :: .word "INTO".toList :: .word table :: ·) := by
  have htext : "INSERT INTO ".toList ++ table ++ " ".toList ++ cs =
      "INSERT".toList ++ ' ' :: ("INTO".toList ++ ' ' :: (table ++ ' ' :: cs)) := by simp
  rw [htext, lex_word (by decide) (by decide), lex_space, lex_word (by decide) (by decide), lex_space,
    lex_word htable (by decide), lex_space, Option.map_map, Option.map_map]
  rfl

private theorem lex_values (cs : List Char) :
    lex .between ("VALUES (".toList ++ cs) =
      (lex .between cs).map (.word "VALUES".toList :: .symbol '(' :: ·) := by
  have htext : "VALUES (".toList ++ cs = "VALUES".toList ++ ' ' :: ('(' :: cs) := by simp
  rw [htext, lex_word (by decide) (by decide), lex_space, lex_symbol (by simp), Option.map_map]
  rfl

private theorem insert_keywords : keyword "INSERT".toList "INSERT" = true ∧
    keyword "INTO".toList "INTO" = true ∧ keyword "VALUES".toList "VALUES" = true := by decide

theorem read_values {table : List Char} (htable : IsName table) (cs : List Char) :
    read ("INSERT INTO ".toList ++ table ++ " ".toList ++ ("VALUES (".toList ++ cs)) =
      ((lex .between cs).bind readValues).map fun values => ⟨table, [], values⟩ := by
  rw [read, lex_head (isWord_of_isName htable), lex_values]
  cases lex .between cs with
  | none => rfl
  | some tokens =>
      simp only [Option.map_some, readInsert, readRows, insert_keywords, Bool.and_self, if_true,
        beq_self_eq_true, name_word htable, bind, Option.bind]

theorem read_columns {table n : List Char} {ns : List (List Char)} (htable : IsName table)
    (hn : ∀ m ∈ n :: ns, IsName m) (cs : List Char) :
    read ("INSERT INTO ".toList ++ table ++ " ".toList ++
        ("(".toList ++ (columnsText n ns ++ (" ".toList ++ ("VALUES (".toList ++ cs))))) =
      ((lex .between cs).bind readValues).map fun values => ⟨table, n :: ns, values⟩ := by
  obtain ⟨list, hitems, hlex⟩ := lex_columns fun m hm => isWord_of_isName (hn m hm)
  have hopen : ∀ cs, lex .between ("(".toList ++ cs) = (lex .between cs).map (.symbol '(' :: ·) :=
    fun cs => rfl
  have hspace : ∀ cs, lex .between (" ".toList ++ cs) = lex .between cs := fun cs => rfl
  rw [read, lex_head (isWord_of_isName htable), hopen, hlex, hspace, lex_values]
  cases lex .between cs with
  | none => rfl
  | some tokens =>
      simp only [Option.map_some, readInsert, readRows, insert_keywords, Bool.and_self, if_true,
        beq_self_eq_true, name_word htable, hitems, mapM_name hn, bind, Option.bind]

theorem read_values_iff {table : List Char} (htable : IsName table) (p : Piece) (ps : List Piece) :
    read ("INSERT INTO ".toList ++ table ++ " ".toList ++ ("VALUES (".toList ++ valuesText p ps)) =
      some ⟨table, [], (p :: ps).map Piece.intended⟩ ↔ ∀ q ∈ p :: ps, q.Sound := by
  rw [read_values htable, ← readValues_iff]
  cases (lex .between (valuesText p ps)).bind readValues <;> simp

theorem read_columns_iff {table n : List Char} {ns : List (List Char)} (htable : IsName table)
    (hn : ∀ m ∈ n :: ns, IsName m) (p : Piece) (ps : List Piece) :
    read ("INSERT INTO ".toList ++ table ++ " ".toList ++ ("(".toList ++ (columnsText n ns ++
        (" ".toList ++ ("VALUES (".toList ++ valuesText p ps))))) =
      some ⟨table, n :: ns, (p :: ps).map Piece.intended⟩ ↔ ∀ q ∈ p :: ps, q.Sound := by
  rw [read_columns htable hn, ← readValues_iff]
  cases (lex .between (valuesText p ps)).bind readValues <;> simp

end Sql

import Mathlib.Algebra.GroupWithZero.Nat
import Mathlib.Algebra.Order.BigOperators.Group.List
import Mathlib.Algebra.Order.Group.Nat
import Mathlib.Data.List.Basic
import Mathlib.Data.List.Infix
import Mathlib.Data.List.TakeWhile
import Mathlib.Tactic.Common

/-!
Reading the text of a URL: its path segments and the pairs of its query, each decoded.
Percent escapes stand for bytes and runs of them for UTF-8, where an ill-formed
sequence gives one replacement character; a percent sign without two hexadecimal
digits is left as it is. A pair is split at its first equals sign, and empty pairs do
not count. Nothing here depends on what a URL is for.
-/
namespace Url

def hexDigit (c : Char) : Option Nat :=
  if '0' ≤ c ∧ c ≤ '9' then some (c.toNat - 48)
  else if 'a' ≤ c ∧ c ≤ 'f' then some (c.toNat - 87)
  else if 'A' ≤ c ∧ c ≤ 'F' then some (c.toNat - 55)
  else none

/-- A sequence of bytes that needs some more, the next of them within the bounds. -/
structure Unfinished where
  code : Nat
  needed : Nat
  lower : Nat
  upper : Nat

def replacement : Char := Char.ofNat 0xFFFD

/-- A byte at the start of a sequence. -/
def lead (b : Nat) : Option Unfinished × List Char :=
  if b < 0x80 then (none, [Char.ofNat b])
  else if 0xC2 ≤ b ∧ b ≤ 0xDF then (some ⟨b % 32, 1, 0x80, 0xBF⟩, [])
  else if 0xE0 ≤ b ∧ b ≤ 0xEF then
    (some ⟨b % 16, 2, if b = 0xE0 then 0xA0 else 0x80, if b = 0xED then 0x9F else 0xBF⟩, [])
  else if 0xF0 ≤ b ∧ b ≤ 0xF4 then
    (some ⟨b % 8, 3, if b = 0xF0 then 0x90 else 0x80, if b = 0xF4 then 0x8F else 0xBF⟩, [])
  else (none, [replacement])

def feed (b : Nat) : Option Unfinished → Option Unfinished × List Char
  | none => lead b
  | some u =>
      if u.lower ≤ b ∧ b ≤ u.upper then
        let code := u.code * 64 + b % 64
        if u.needed ≤ 1 then (none, [Char.ofNat code])
        else (some ⟨code, u.needed - 1, 0x80, 0xBF⟩, [])
      else ((lead b).1, replacement :: (lead b).2)

def flush : Option Unfinished → List Char
  | none => []
  | some _ => [replacement]

/-- A character that is not escaped ends a run of bytes. -/
def decodeFrom : Option Unfinished → List Char → List Char
  | u, [] => flush u
  | u, '%' :: a :: b :: rest =>
      match hexDigit a, hexDigit b with
      | some x, some y =>
          (feed (16 * x + y) u).2 ++ decodeFrom (feed (16 * x + y) u).1 rest
      | _, _ => flush u ++ '%' :: decodeFrom none (a :: b :: rest)
  | u, c :: rest => flush u ++ c :: decodeFrom none rest

def decode (cs : List Char) : List Char := decodeFrom none cs

/-- There is an escape in the text. -/
def Escaped (cs : List Char) : Prop :=
  ∃ a b, ['%', a, b] <:+: cs ∧ (hexDigit a).isSome = true ∧ (hexDigit b).isSome = true

theorem Escaped.mono {cs ds : List Char} (h : Escaped cs) (hsub : cs <:+: ds) : Escaped ds := by
  obtain ⟨a, b, hin, hdigits⟩ := h
  exact ⟨a, b, hin.trans hsub, hdigits⟩

theorem escaped_cons {c : Char} {cs : List Char} (h : Escaped (c :: cs)) :
    Escaped cs ∨ ∃ a b rest, c = '%' ∧ cs = a :: b :: rest ∧ (hexDigit a).isSome = true ∧
      (hexDigit b).isSome = true := by
  obtain ⟨a, b, hin, ha, hb⟩ := h
  rcases List.infix_cons_iff.mp hin with hstart | hin
  · obtain ⟨rest, hrest⟩ := hstart
    obtain ⟨rfl, rfl⟩ := List.cons.inj hrest
    exact .inr ⟨a, b, rest, rfl, rfl, ha, hb⟩
  · exact .inl ⟨a, b, hin, ha, hb⟩

theorem not_escaped_of_not_mem {cs : List Char} (h : '%' ∉ cs) : ¬ Escaped cs := by
  rintro ⟨a, b, hin, -⟩
  exact h (hin.subset List.mem_cons_self)

theorem decodeFrom_of_not_escaped (u : Option Unfinished) {cs : List Char} (h : ¬ Escaped cs) :
    decodeFrom u cs = flush u ++ cs := by
  induction cs generalizing u with
  | nil => simp [decodeFrom]
  | cons c cs ih =>
      have hcs : ¬ Escaped cs := fun hesc => h (hesc.mono (List.infix_cons cs.infix_rfl))
      have hrest := ih none hcs
      unfold decodeFrom
      split
      · contradiction
      · rename_i a b rest heq
        obtain ⟨rfl, rfl⟩ := List.cons.inj heq
        split
        · rename_i x y hx hy
          refine absurd ?_ h
          exact ⟨a, b, ⟨[], rest, rfl⟩, by simp [hx], by simp [hy]⟩
        · rw [hrest]
          rfl
      · rename_i heq
        obtain ⟨rfl, rfl⟩ := List.cons.inj heq
        rw [hrest]
        rfl

/-- The characters that are still to come of what has been read. -/
def waiting (u : Option Unfinished) : Nat := (flush u).length

theorem lead_length (b : Nat) : (lead b).2.length + waiting (lead b).1 ≤ 1 := by
  unfold lead
  split_ifs <;> simp [waiting, flush]

theorem feed_length (b : Nat) (u : Option Unfinished) :
    (feed b u).2.length + waiting (feed b u).1 ≤ waiting u + 1 := by
  cases u with
  | none =>
      have hlead := lead_length b
      simp only [feed, waiting, flush, List.length_nil] at hlead ⊢
      omega
  | some u =>
      have hlead := lead_length b
      simp only [feed]
      split_ifs
      · simp [waiting, flush]
      · simp [waiting, flush]
      · simp only [waiting, flush, List.length_cons, List.length_nil] at hlead ⊢
        omega

/-- Decoding never makes a text longer, and every escape makes it shorter. -/
theorem decodeFrom_length (u : Option Unfinished) (cs : List Char) :
    (decodeFrom u cs).length ≤ waiting u + cs.length ∧
      (Escaped cs → (decodeFrom u cs).length + 2 ≤ waiting u + cs.length) := by
  fun_induction decodeFrom u cs with
  | case1 u =>
      refine ⟨Nat.le_refl _, ?_⟩
      rintro ⟨a, b, hin, -⟩
      exact absurd (List.eq_nil_of_infix_nil hin) (List.cons_ne_nil _ _)
  | case2 u a b rest x y hx hy ih =>
      have hfeed := feed_length (16 * x + y) u
      have hrest := ih.1
      simp only [List.length_append, List.length_cons] at hrest ⊢
      refine ⟨by omega, fun _ => by omega⟩
  | case3 u a b rest hdigits ih =>
      obtain ⟨hle, hlt⟩ := ih
      simp only [waiting, List.length_append, List.length_cons, flush, List.length_nil] at hle hlt ⊢
      refine ⟨by omega, ?_⟩
      intro hesc
      rcases escaped_cons hesc with hesc | ⟨a', b', rest', -, heq, ha, hb⟩
      · have hshort := hlt hesc
        omega
      · obtain ⟨rfl, hcons⟩ := List.cons.inj heq
        obtain ⟨rfl, -⟩ := List.cons.inj hcons
        obtain ⟨x, hx⟩ := Option.isSome_iff_exists.mp ha
        obtain ⟨y, hy⟩ := Option.isSome_iff_exists.mp hb
        exact absurd hy (hdigits x y hx)
  | case4 u c rest hno ih =>
      obtain ⟨hle, hlt⟩ := ih
      simp only [waiting, List.length_append, List.length_cons, flush, List.length_nil] at hle hlt ⊢
      refine ⟨by omega, ?_⟩
      intro hesc
      rcases escaped_cons hesc with hesc | ⟨a', b', rest', hc, heq, -⟩
      · have hshort := hlt hesc
        omega
      · exact absurd heq (hno a' b' rest' hc)

theorem decode_of_not_escaped {cs : List Char} (h : ¬ Escaped cs) : decode cs = cs :=
  decodeFrom_of_not_escaped none h

theorem decode_length_le (cs : List Char) : (decode cs).length ≤ cs.length := by
  have hle := (decodeFrom_length none cs).1
  rwa [waiting, flush, List.length_nil, Nat.zero_add] at hle

/-- A text that keeps its length has no escape. -/
theorem not_escaped_of_length {cs : List Char} (h : cs.length ≤ (decode cs).length) :
    ¬ Escaped cs := by
  intro hesc
  have hlt := (decodeFrom_length none cs).2 hesc
  rw [waiting, flush, List.length_nil, Nat.zero_add] at hlt
  unfold decode at h
  omega

def afterScheme : List Char → List Char
  | ':' :: '/' :: '/' :: rest => rest
  | _ :: rest => afterScheme rest
  | [] => []

/-- The path and the query, without the host before them and the fragment behind. -/
def target (url : List Char) : List Char :=
  ((afterScheme url).takeWhile (· ≠ '#')).dropWhile fun c => c ≠ '/' ∧ c ≠ '?'

def segments (url : List Char) : List (List Char) :=
  (((target url).takeWhile (· ≠ '?')).splitOn '/').map decode

def query (url : List Char) : List Char := ((target url).dropWhile (· ≠ '?')).drop 1

def readPair (piece : List Char) : List Char × List Char :=
  (decode (piece.takeWhile (· ≠ '=')), decode ((piece.dropWhile (· ≠ '=')).drop 1))

def readQuery (cs : List Char) : List (List Char × List Char) :=
  ((cs.splitOn '&').filter fun piece => !piece.isEmpty).map readPair

def parameters (url : List Char) : List (List Char × List Char) := readQuery (query url)

/-- The segment behind the first one of a name. -/
def segmentAfter (name : List Char) : List (List Char) → Option (List Char)
  | a :: b :: rest => if a = name then some b else segmentAfter name (b :: rest)
  | _ => none

def writePair (p : List Char × List Char) : List Char := p.1 ++ '=' :: p.2

def writeQuery (ps : List (List Char × List Char)) : List Char := ['&'].intercalate (ps.map writePair)

/-- The characters of a pair, with its equals sign. -/
def pairLength (p : List Char × List Char) : Nat := p.1.length + p.2.length + 1

/-- A name that is read as it is written. -/
structure PlainName (name : List Char) : Prop where
  separators : ∀ c ∈ ['&', '=', '#'], c ∉ name
  unescaped : ¬ Escaped name

structure PlainValue (value : List Char) : Prop where
  separators : ∀ c ∈ ['&', '#'], c ∉ value
  unescaped : ¬ Escaped value

theorem readPair_writePair {p : List Char × List Char} (hname : PlainName p.1)
    (hvalue : PlainValue p.2) : readPair (writePair p) = p := by
  have hne : ∀ c ∈ p.1, decide (c ≠ '=') = true := by
    intro c hc
    refine decide_eq_true ?_
    rintro rfl
    exact hname.separators '=' (by simp) hc
  have htake : (writePair p).takeWhile (· ≠ '=') = p.1 := by
    rw [writePair, List.takeWhile_append_of_pos hne]
    simp
  have hdrop : (writePair p).dropWhile (· ≠ '=') = '=' :: p.2 := by
    rw [writePair, List.dropWhile_append_of_pos hne]
    simp
  rw [readPair, htake, hdrop, List.drop_succ_cons, List.drop_zero,
    decode_of_not_escaped hname.unescaped, decode_of_not_escaped hvalue.unescaped]

/-- A pair with a value has an equals sign that neither part counts. If the two parts
account for everything else, then the value is as it was written. -/
theorem readPair_cases {piece : List Char} (h : (readPair piece).2 ≠ []) :
    pairLength (readPair piece) ≤ piece.length ∧
      (piece.length ≤ pairLength (readPair piece) →
        ¬ Escaped (readPair piece).2 ∧ (readPair piece).2 ⊆ piece) := by
  obtain ⟨name, hname⟩ : ∃ name, piece.takeWhile (· ≠ '=') = name := ⟨_, rfl⟩
  have hsplit := List.takeWhile_append_dropWhile (p := (· ≠ '=')) (l := piece)
  cases hdrop : piece.dropWhile (· ≠ '=') with
  | nil => exact absurd (by rw [readPair, hdrop]; rfl) h
  | cons d value =>
      have hpair : readPair piece = (decode name, decode value) := by
        rw [readPair, hname, hdrop, List.drop_succ_cons, List.drop_zero]
      rw [hname, hdrop] at hsplit
      have hlength := congrArg List.length hsplit
      have hle := decode_length_le name
      have hle' := decode_length_le value
      simp only [hpair, pairLength, List.length_append, List.length_cons] at hlength ⊢
      refine ⟨by omega, ?_⟩
      intro hall
      have hunescaped : ¬ Escaped value := not_escaped_of_length (by omega)
      rw [decode_of_not_escaped hunescaped]
      refine ⟨hunescaped, ?_⟩
      intro c hc
      rw [← hsplit]
      exact List.mem_append_right _ (List.mem_cons_of_mem _ hc)

theorem mem_of_mem_splitOn {a c : Char} {l piece : List Char} (h : piece ∈ l.splitOn a)
    (hc : c ∈ piece) : c ∈ l ∧ c ≠ a := by
  induction l generalizing piece with
  | nil =>
      rw [List.mem_singleton.mp h] at hc
      exact absurd hc List.not_mem_nil
  | cons x l ih =>
      rw [List.splitOn_cons_eq_if_modifyHead] at h
      split at h
      · rcases List.mem_cons.mp h with rfl | h
        · exact absurd hc List.not_mem_nil
        · exact ⟨List.mem_cons_of_mem _ (ih h hc).1, (ih h hc).2⟩
      · rename_i hx
        obtain ⟨first, rest, hrest⟩ := List.exists_cons_of_ne_nil (List.splitOn_ne_nil a l)
        rw [hrest] at h ih
        rcases List.mem_cons.mp h with rfl | h
        · rcases List.mem_cons.mp hc with rfl | hc
          · exact ⟨List.mem_cons_self, by simpa using hx⟩
          · have hfirst := ih List.mem_cons_self hc
            exact ⟨List.mem_cons_of_mem _ hfirst.1, hfirst.2⟩
        · have hmem := ih (List.mem_cons_of_mem _ h) hc
          exact ⟨List.mem_cons_of_mem _ hmem.1, hmem.2⟩

theorem mem_intercalate {a c : Char} {ls : List (List Char)} (h : c ∈ [a].intercalate ls) :
    c = a ∨ ∃ l ∈ ls, c ∈ l := by
  induction ls with
  | nil => exact absurd h List.not_mem_nil
  | cons l ls ih =>
      cases ls with
      | nil => exact .inr ⟨l, List.mem_singleton_self l, by simpa using h⟩
      | cons m ls =>
          rw [List.intercalate_cons_cons, List.mem_append, List.mem_append, List.mem_singleton] at h
          rcases h with (h | h) | h
          · exact .inr ⟨l, List.mem_cons_self, h⟩
          · exact .inl h
          · rcases ih h with h | ⟨k, hk, hc⟩
            · exact .inl h
            · exact .inr ⟨k, List.mem_cons_of_mem _ hk, hc⟩

/-- Joining adds one character between any two texts. -/
theorem length_intercalate {a : Char} {ls : List (List Char)} (h : ls ≠ []) :
    ([a].intercalate ls).length + 1 = (ls.map List.length).sum + ls.length := by
  induction ls with
  | nil => exact absurd rfl h
  | cons l ls ih =>
      cases ls with
      | nil => simp
      | cons m ls =>
          have hrest := ih (List.cons_ne_nil m ls)
          simp only [List.intercalate_cons_cons, List.length_append, List.map_cons, List.sum_cons,
            List.length_cons, List.length_nil] at hrest ⊢
          omega

theorem splitOn_lengths (a : Char) (l : List Char) :
    ((l.splitOn a).map List.length).sum + (l.splitOn a).length = l.length + 1 := by
  rw [← length_intercalate (a := a) (List.splitOn_ne_nil a l), List.intercalate_splitOn]

theorem le_of_sum_le {α : Type} {f g : α → Nat} {l : List α} (hle : ∀ a ∈ l, f a ≤ g a)
    (hsum : (l.map g).sum ≤ (l.map f).sum) : ∀ a ∈ l, g a ≤ f a := by
  intro a ha
  by_contra hlt
  exact absurd (List.sum_lt_sum _ _ hle ⟨a, ha, Nat.lt_of_not_le hlt⟩) (Nat.not_lt.mpr hsum)

theorem writeQuery_length {ps : List (List Char × List Char)} (h : ps ≠ []) :
    (writeQuery ps).length + 1 = (ps.map pairLength).sum + ps.length := by
  rw [writeQuery, length_intercalate (by simpa using h), List.map_map, List.length_map]
  congr 2
  apply List.map_congr_left
  intro p _
  simp only [Function.comp_apply, writePair, pairLength, List.length_append, List.length_cons]
  omega

/-- Plain values are read back. -/
theorem readQuery_writeQuery {ps : List (List Char × List Char)} (hnames : ∀ p ∈ ps, PlainName p.1)
    (hvalues : ∀ p ∈ ps, PlainValue p.2) :
    readQuery ((writeQuery ps).takeWhile (· ≠ '#')) = ps := by
  cases hps : ps with
  | nil => rfl
  | cons p rest =>
      rw [← hps]
      have hchars : ∀ piece ∈ ps.map writePair, '&' ∉ piece ∧ '#' ∉ piece := by
        intro piece hpiece
        obtain ⟨p, hp, rfl⟩ := List.mem_map.mp hpiece
        have hname := (hnames p hp).separators
        have hvalue := (hvalues p hp).separators
        simp only [writePair, List.mem_append, List.mem_cons, not_or]
        exact ⟨⟨hname '&' (by simp), by decide, hvalue '&' (by simp)⟩,
          hname '#' (by simp), by decide, hvalue '#' (by simp)⟩
      have hsplit : (writeQuery ps).splitOn '&' = ps.map writePair :=
        List.splitOn_intercalate '&' (fun l hl => (hchars l hl).1) (by simp [hps])
      have hfragment : (writeQuery ps).takeWhile (· ≠ '#') = writeQuery ps := by
        rw [List.takeWhile_eq_self_iff]
        intro c hc
        refine decide_eq_true ?_
        rintro rfl
        rcases mem_intercalate hc with hand | ⟨piece, hpiece, hmem⟩
        · exact absurd hand (by decide)
        · exact (hchars piece hpiece).2 hmem
      have hfilter : (ps.map writePair).filter (fun piece => !piece.isEmpty) = ps.map writePair := by
        rw [List.filter_eq_self]
        intro piece hpiece
        obtain ⟨p, -, rfl⟩ := List.mem_map.mp hpiece
        simp [writePair]
      rw [readQuery, hfragment, hsplit, hfilter, List.map_map]
      calc ps.map (readPair ∘ writePair) = ps.map id :=
            List.map_congr_left fun p hp => readPair_writePair (hnames p hp) (hvalues p hp)
        _ = ps := List.map_id ps

/-- Pieces that are read as the pairs of a query are not longer than these in total, if
the text they come from is not. -/
theorem pieces_sum_le {ps : List (List Char × List Char)} {pieces : List (List Char)} {q : List Char}
    (hpieces : pieces.Sublist (q.splitOn '&')) (hperm : (pieces.map readPair).Perm ps)
    (hne : ps ≠ []) (hq : q.length ≤ (writeQuery ps).length) :
    (pieces.map List.length).sum ≤ (pieces.map fun piece => pairLength (readPair piece)).sum := by
  have hread : (pieces.map fun piece => pairLength (readPair piece)).sum =
      (ps.map pairLength).sum := by
    have hsum := (hperm.map pairLength).sum_nat
    rwa [List.map_map] at hsum
  have hwritten := writeQuery_length hne
  have hall := splitOn_lengths '&' q
  have hsome : (pieces.map List.length).sum ≤ ((q.splitOn '&').map List.length).sum :=
    (hpieces.map _).sum_le_sum fun _ _ => Nat.zero_le _
  have hcount : ps.length ≤ (q.splitOn '&').length := by
    rw [← hperm.length_eq, List.length_map]
    exact hpieces.length_le
  omega

/-- A written query that is cut at a fragment is read back, in some order, exactly when
its values are plain. What is read back would otherwise be too short in total. -/
theorem readQuery_perm_iff {ps : List (List Char × List Char)} (hnames : ∀ p ∈ ps, PlainName p.1)
    (hvalues : ∀ p ∈ ps, p.2 ≠ []) :
    (readQuery ((writeQuery ps).takeWhile (· ≠ '#'))).Perm ps ↔ ∀ p ∈ ps, PlainValue p.2 := by
  refine ⟨?_, fun h => by rw [readQuery_writeQuery hnames h]⟩
  intro hperm p hp
  obtain ⟨q, hq⟩ : ∃ q, (writeQuery ps).takeWhile (· ≠ '#') = q := ⟨_, rfl⟩
  have hcut : q.length ≤ (writeQuery ps).length := hq ▸ (List.takeWhile_sublist _).length_le
  rw [hq, readQuery] at hperm
  have hsub : ((q.splitOn '&').filter fun piece => !piece.isEmpty).Sublist (q.splitOn '&') :=
    List.filter_sublist
  -- each piece is at least as long as what is read from it, and all together are not longer
  have hpiece : ∀ piece ∈ (q.splitOn '&').filter fun piece => !piece.isEmpty,
      pairLength (readPair piece) ≤ piece.length := by
    intro piece hmem
    have hread := hperm.subset (List.mem_map_of_mem hmem)
    exact (readPair_cases (hvalues _ hread)).1
  have hexact := le_of_sum_le hpiece (pieces_sum_le hsub hperm (List.ne_nil_of_mem hp) hcut)
  obtain ⟨piece, hmem, rfl⟩ := List.mem_map.mp (hperm.symm.subset hp)
  obtain ⟨hunescaped, hchars⟩ := (readPair_cases (hvalues _ hp)).2 (hexact piece hmem)
  refine ⟨?_, hunescaped⟩
  intro c hc hvalue
  obtain ⟨hin, hne⟩ := mem_of_mem_splitOn (hsub.subset hmem) (hchars hvalue)
  rcases List.mem_cons.mp hc with rfl | hc
  · exact hne rfl
  · rw [List.mem_singleton.mp hc, ← hq] at hin
    simpa using List.mem_takeWhile_imp hin

theorem writeQuery_cons (p : List Char × List Char) (ps : List (List Char × List Char)) :
    writeQuery (p :: ps) = writePair p ++ ps.flatMap fun q => '&' :: writePair q := by
  induction ps generalizing p with
  | nil => simp [writeQuery]
  | cons q ps ih =>
      have hrest := ih q
      simp only [writeQuery, List.map_cons, List.intercalate_cons_cons, List.flatMap_cons] at hrest ⊢
      rw [hrest]
      simp

theorem takeWhile_append_stop {q : Char → Bool} {c : Char} (hc : q c = false) (l r : List Char) :
    (l ++ c :: r).takeWhile q = l.takeWhile q := by
  induction l with
  | nil => simp [hc]
  | cons d l ih =>
      rw [List.cons_append, List.takeWhile_cons, List.takeWhile_cons, ih]

theorem head_splitOn (a : Char) (l : List Char) :
    ∃ rest, l.splitOn a = l.takeWhile (· ≠ a) :: rest := by
  induction l with
  | nil => exact ⟨[], rfl⟩
  | cons c l ih =>
      obtain ⟨rest, hrest⟩ := ih
      rw [List.splitOn_cons_eq_if_modifyHead, hrest]
      by_cases h : c = a
      · exact ⟨_, by simp [h]; rfl⟩
      · exact ⟨rest, by simp [h]⟩

/-- What stops the reading of a segment. -/
def stop (c : Char) : Bool := c = '/' ∨ c = '?' ∨ c = '#'

/-- A text that is cut and decoded is the same exactly when neither does anything. -/
theorem decode_takeWhile_eq_iff (q : Char → Bool) (cs : List Char) :
    decode (cs.takeWhile q) = cs ↔ (∀ c ∈ cs, q c = true) ∧ ¬ Escaped cs := by
  refine ⟨?_, ?_⟩
  · intro h
    have hle := decode_length_le (cs.takeWhile q)
    rw [h] at hle
    have hself : cs.takeWhile q = cs := (List.takeWhile_sublist q).eq_of_length_le hle
    refine ⟨List.takeWhile_eq_self_iff.mp hself, ?_⟩
    rw [hself] at h
    exact not_escaped_of_length (Nat.le_of_eq (congrArg List.length h).symm)
  · rintro ⟨hall, hunescaped⟩
    rw [List.takeWhile_eq_self_iff.mpr hall, decode_of_not_escaped hunescaped]

/-- The host ends at the first slash. -/
theorem target_eq {host : List Char} (hhost : ∀ c ∈ host, stop c = false) (rest : List Char) :
    target ("http://".toList ++ host ++ '/' :: rest) = '/' :: rest.takeWhile (· ≠ '#') := by
  have hscheme : afterScheme ("http://".toList ++ host ++ '/' :: rest) = host ++ '/' :: rest := by
    simp [afterScheme]
  have hfragment : ∀ c ∈ host, decide (c ≠ '#') = true := by
    intro c hc
    have hstop := hhost c hc
    simp only [stop, decide_eq_false_iff_not, not_or] at hstop
    exact decide_eq_true hstop.2.2
  have hslash : ∀ c ∈ host, decide (c ≠ '/' ∧ c ≠ '?') = true := by
    intro c hc
    have hstop := hhost c hc
    simp only [stop, decide_eq_false_iff_not, not_or] at hstop
    exact decide_eq_true ⟨hstop.1, hstop.2.1⟩
  rw [target, hscheme, List.takeWhile_append_of_pos hfragment, List.dropWhile_append_of_pos hslash]
  simp

/-- A segment behind a path without a query is read up to the first character that
stops it. -/
theorem segments_append {url before seg after : List Char}
    (htarget : target url = (before ++ '/' :: (seg ++ '/' :: after)).takeWhile (· ≠ '#'))
    (hbefore : ∀ c ∈ before, c ≠ '?' ∧ c ≠ '#') :
    ∃ rest, segments url =
      (before.splitOn '/').map decode ++ decode (seg.takeWhile fun c => !stop c) :: rest := by
  obtain ⟨q, hq⟩ : ∃ q : Char → Bool, (fun c => decide (decide (c ≠ '?') = true ∧
      decide (c ≠ '#') = true)) = q := ⟨_, rfl⟩
  have hpass : ∀ c, q c = true ↔ c ≠ '?' ∧ c ≠ '#' := by
    intro c
    rw [← hq]
    simp
  have hpath : (target url).takeWhile (· ≠ '?') =
      before ++ '/' :: (seg ++ '/' :: after).takeWhile q := by
    rw [htarget, List.takeWhile_takeWhile, hq,
      List.takeWhile_append_of_pos fun c hc => (hpass c).mpr (hbefore c hc),
      List.takeWhile_cons_of_pos ((hpass '/').mpr (by decide))]
  have hstop : (fun c => decide (decide (c ≠ '/') = true ∧ q c = true)) = fun c => !stop c := by
    funext c
    simp [hpass, stop]
  have hslash : (!stop '/') = false := by decide
  obtain ⟨rest, hrest⟩ := head_splitOn '/' ((seg ++ '/' :: after).takeWhile q)
  rw [List.takeWhile_takeWhile, hstop, takeWhile_append_stop (q := fun c => !stop c) hslash] at hrest
  refine ⟨rest.map decode, ?_⟩
  rw [segments, hpath, List.splitOn_append_cons_self, hrest, List.map_append, List.map_cons]

/-- The query begins behind a path without a question mark. -/
theorem query_append {url path after : List Char} (htarget : target url =
    (path ++ '?' :: after).takeWhile (· ≠ '#')) (hpath : ∀ c ∈ path, c ≠ '?' ∧ c ≠ '#') :
    query url = after.takeWhile (· ≠ '#') := by
  have hfragment : ∀ c ∈ path, decide (c ≠ '#') = true :=
    fun c hc => decide_eq_true (hpath c hc).2
  have hmark : ∀ c ∈ path, decide (c ≠ '?') = true := fun c hc => decide_eq_true (hpath c hc).1
  rw [query, htarget, List.takeWhile_append_of_pos hfragment, List.dropWhile_append_of_pos hmark]
  simp

end Url

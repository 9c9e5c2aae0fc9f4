import Mathlib.Data.List.TakeWhile

/-!
Base64 between bytes and characters, and the text of bytes in UTF-8. The writer pads its
last group; the reader ends at the first padding, passes over characters that are no
letters of the alphabet and takes the letters of the URL-safe alphabet as well.
-/
namespace Js.Base64

def alphabet : List Char :=
  "ABCDEFGHIJKLMNOPQRSTUVWXYZabcdefghijklmnopqrstuvwxyz0123456789+/".toList

def letter (n : Nat) : Char := alphabet.getD n '='

def value (c : Char) : Option Nat :=
  if c = '-' then some 62 else if c = '_' then some 63 else alphabet.idxOf? c

/-- Three bytes are four numbers below 64. -/
def sextets : List UInt8 → List Nat
  | [] => []
  | [a] => [a.toNat / 4, a.toNat % 4 * 16]
  | [a, b] => [a.toNat / 4, a.toNat % 4 * 16 + b.toNat / 16, b.toNat % 16 * 4]
  | a :: b :: c :: rest =>
      a.toNat / 4 :: (a.toNat % 4 * 16 + b.toNat / 16) :: (b.toNat % 16 * 4 + c.toNat / 64) ::
        c.toNat % 64 :: sextets rest

/-- The bytes of the numbers; what is left over at the end is dropped. -/
def ofSextets : List Nat → List UInt8
  | w :: x :: y :: z :: rest =>
      .ofNat (w * 4 + x / 16) :: .ofNat (x % 16 * 16 + y / 4) :: .ofNat (y % 4 * 64 + z) :: ofSextets rest
  | [w, x, y] => [.ofNat (w * 4 + x / 16), .ofNat (x % 16 * 16 + y / 4)]
  | [w, x] => [.ofNat (w * 4 + x / 16)]
  | _ => []

def padding (bytes : List UInt8) : List Char := List.replicate ((3 - bytes.length % 3) % 3) '='

def encode (bytes : List UInt8) : List Char := (sextets bytes).map letter ++ padding bytes

def decode (text : List Char) : List UInt8 :=
  ofSextets ((text.takeWhile (· != '=')).filterMap value)

theorem value_letter : ∀ n, n < 64 → value (letter n) = some n := by decide +kernel

theorem letter_ne_padding : ∀ n, n < 64 → (letter n != '=') = true := by decide +kernel

theorem sextets_lt (bytes : List UInt8) : ∀ n ∈ sextets bytes, n < 64 := by
  induction bytes using sextets.induct with
  | case1 => simp [sextets]
  | case2 a =>
      have ha := a.toNat_lt
      simp only [sextets, List.forall_mem_cons]
      exact ⟨by omega, by omega, fun _ h => absurd h List.not_mem_nil⟩
  | case3 a b =>
      have ha := a.toNat_lt
      have hb := b.toNat_lt
      simp only [sextets, List.forall_mem_cons]
      exact ⟨by omega, by omega, by omega, fun _ h => absurd h List.not_mem_nil⟩
  | case4 a b c rest ih =>
      have ha := a.toNat_lt
      have hb := b.toNat_lt
      have hc := c.toNat_lt
      simp only [sextets, List.forall_mem_cons]
      exact ⟨by omega, by omega, by omega, by omega, ih⟩

theorem ofNat_eq {n : Nat} {a : UInt8} (h : n = a.toNat) : UInt8.ofNat n = a := by
  rw [h]
  exact UInt8.ofNat_toNat

theorem ofSextets_sextets (bytes : List UInt8) : ofSextets (sextets bytes) = bytes := by
  induction bytes using sextets.induct with
  | case1 => rfl
  | case2 a =>
      have ha := a.toNat_lt
      rw [sextets, ofSextets, ofNat_eq (a := a) (by omega)]
  | case3 a b =>
      have ha := a.toNat_lt
      have hb := b.toNat_lt
      rw [sextets, ofSextets, ofNat_eq (a := a) (by omega), ofNat_eq (a := b) (by omega)]
  | case4 a b c rest ih =>
      have ha := a.toNat_lt
      have hb := b.toNat_lt
      have hc := c.toNat_lt
      rw [sextets, ofSextets, ofNat_eq (a := a) (by omega), ofNat_eq (a := b) (by omega),
        ofNat_eq (a := c) (by omega), ih]

theorem filterMap_letters {ns : List Nat} (h : ∀ n ∈ ns, n < 64) :
    (ns.map letter).filterMap value = ns := by
  induction ns with
  | nil => rfl
  | cons n ns ih =>
      obtain ⟨hn, hns⟩ := List.forall_mem_cons.mp h
      rw [List.map_cons, List.filterMap_cons_some (value_letter n hn), ih hns]

/-- Reading undoes writing. -/
@[simp] theorem decode_encode (bytes : List UInt8) : decode (encode bytes) = bytes := by
  have hletters : ∀ c ∈ (sextets bytes).map letter, (c != '=') = true := by
    intro c hc
    obtain ⟨n, hn, rfl⟩ := List.mem_map.mp hc
    exact letter_ne_padding n (sextets_lt bytes n hn)
  have hpadding : (padding bytes).takeWhile (· != '=') = [] := by
    rw [padding]
    cases (3 - bytes.length % 3) % 3 with
    | zero => rfl
    | succ n => rfl
  rw [decode, encode, List.takeWhile_append_of_pos hletters, hpadding, List.append_nil,
    filterMap_letters (sextets_lt bytes), ofSextets_sextets]

/-- The text of bytes, by `lossy` when they are no UTF-8. -/
def textOf (lossy : List UInt8 → String) (bytes : List UInt8) : String :=
  (String.fromUTF8? ⟨bytes.toArray⟩).getD (lossy bytes)

def bytesOf (text : String) : List UInt8 := text.toUTF8.data.toList

@[simp] theorem textOf_bytesOf (lossy : List UInt8 → String) (text : String) :
    textOf lossy (bytesOf text) = text := by
  have hbytes : (⟨(bytesOf text).toArray⟩ : ByteArray) = text.toByteArray := rfl
  rw [textOf, hbytes, String.fromUTF8?, dif_pos text.isValidUTF8]
  rfl

end Js.Base64

import PlenarioStream.Foundation.Json
import Mathlib.Algebra.Order.Ring.Rat

/-!
The number that a JavaScript value converts to, and the comparison of a value with
a number. Numbers are exact: a finite one is a rational.
-/

namespace Js

inductive Number
  | nan
  | negInfinity
  | finite (q : ℚ)
  | infinity
deriving DecidableEq

namespace Number

def neg : Number → Number
  | nan => nan
  | negInfinity => infinity
  | finite q => finite (-q)
  | infinity => negInfinity

/-- `n < limit` for a finite limit; a comparison with NaN is false. -/
def lessThan (limit : ℚ) : Number → Bool
  | nan | infinity => false
  | negInfinity => true
  | finite q => decide (q < limit)

/-- `n >= limit`, which is not the negation: it is false of NaN as well. -/
def atLeast (limit : ℚ) : Number → Bool
  | nan | negInfinity => false
  | infinity => true
  | finite q => decide (limit ≤ q)

/-- `limit < n`. -/
def greaterThan (limit : ℚ) : Number → Bool
  | nan | negInfinity => false
  | infinity => true
  | finite q => decide (limit < q)

theorem lessThan_finite (limit q : ℚ) : (finite q).lessThan limit = true ↔ q < limit :=
  decide_eq_true_iff

theorem atLeast_finite (limit q : ℚ) : (finite q).atLeast limit = true ↔ limit ≤ q :=
  decide_eq_true_iff

end Number

def digitValue (c : Char) : Option Nat :=
  if c.isDigit then some (c.toNat - '0'.toNat)
  else if 'a' ≤ c ∧ c ≤ 'f' then some (c.toNat - 'a'.toNat + 10)
  else if 'A' ≤ c ∧ c ≤ 'F' then some (c.toNat - 'A'.toNat + 10)
  else none

def addDigit (base n : Nat) (c : Char) : Option Nat :=
  match digitValue c with
  | some d => if d < base then some (base * n + d) else none
  | none => none

/-- A non-empty sequence of digits. -/
def readDigits (base : Nat) (cs : List Char) : Option Nat :=
  if cs.isEmpty then none else cs.foldlM (addDigit base) 0

def readExponent : List Char → Option Int
  | [] => some 0
  | _ :: '-' :: cs => (readDigits 10 cs).map fun n => -(n : Int)
  | _ :: '+' :: cs => (readDigits 10 cs).map Int.ofNat
  | _ :: cs => (readDigits 10 cs).map Int.ofNat

/-- Digits with at most one point among them and perhaps an exponent. -/
def readDecimal (cs : List Char) : Option ℚ := do
  let (mantissa, exponent) := cs.span fun c => c != 'e' && c != 'E'
  let (whole, fraction) := mantissa.span fun c => c != '.'
  let n ← readDigits 10 (whole ++ fraction.tail)
  let e ← readExponent exponent
  let shift := e - fraction.tail.length
  some (if 0 ≤ shift then ((n * 10 ^ shift.toNat : Nat) : ℚ) else mkRat n (10 ^ (-shift).toNat))

def readUnsigned (cs : List Char) : Number :=
  if cs = "Infinity".toList then .infinity
  else match readDecimal cs with
    | some q => .finite q
    | none => .nan

def readSigned : List Char → Number
  | '-' :: cs => (readUnsigned cs).neg
  | '+' :: cs => readUnsigned cs
  | cs => readUnsigned cs

def isSpace (c : Char) : Bool :=
  c.isWhitespace || c == '\x0b' || c == '\x0c' || c == '\u00a0' || c == '\u1680' ||
    (decide ('\u2000' ≤ c) && decide (c ≤ '\u200a')) || c == '\u2028' || c == '\u2029' ||
    c == '\u202f' || c == '\u205f' || c == '\u3000' || c == '\ufeff'

def trimSpace (cs : List Char) : List Char :=
  ((cs.dropWhile isSpace).reverse.dropWhile isSpace).reverse

def readRadix (base : Nat) (cs : List Char) : Number :=
  match readDigits base cs with
  | some n => .finite n
  | none => .nan

/-- `Number(text)`: blank text is 0, and text that is not a numeral is NaN. -/
def numberOfText (text : String) : Number :=
  match trimSpace text.toList with
  | [] => .finite 0
  | '0' :: 'x' :: cs | '0' :: 'X' :: cs => readRadix 16 cs
  | '0' :: 'o' :: cs | '0' :: 'O' :: cs => readRadix 8 cs
  | '0' :: 'b' :: cs | '0' :: 'B' :: cs => readRadix 2 cs
  | cs => readSigned cs

/-- What the conversion of an operand of `<` returns when it does not throw. Objects and
arrays go through their text. -/
def Value.toNumber : Value → Number
  | .undefined => .nan
  | .builtin name => numberOfText (Value.builtin name).toText
  | .json .null => .finite 0
  | .json (.bool b) => .finite (if b then 1 else 0)
  | .json (.num n) => readSigned n.digits
  | .json (.infinity negative) => if negative then .negInfinity else .infinity
  | .json j => numberOfText j.toText

/-- The conversion of an operand of `<`. -/
def Value.number (v : Value) : Except Exception Number :=
  if v.printable then .ok v.toNumber else .error .typeError

end Js

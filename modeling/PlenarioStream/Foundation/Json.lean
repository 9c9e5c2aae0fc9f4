import Mathlib.Data.List.Basic
import Mathlib.Tactic.Common

/-!
JavaScript values as a program meets them that handles data parsed from JSON:
JSON trees, `undefined`, and the functions a property read can find on a
prototype. Property reads, the `in` operator, `Object.keys`, truthiness, strict
equality and conversion to text follow ECMAScript 2015.

An object lists its own properties in enumeration order. Two objects or arrays
parsed from different texts are never strictly equal. No property that comes from a
text is a function, so an object with a `toString` of its own has no text.
-/

namespace Js

def numChar (c : Char) : Bool := c.isDigit || c == '-' || c == '+' || c == '.' || c == 'e'

/-- A finite number is carried by its JavaScript decimal text, which determines it. -/
structure NumLit where
  digits : List Char
  nonempty : digits ≠ []
  numeric : ∀ c ∈ digits, numChar c = true
deriving DecidableEq

namespace NumLit

def ofNat (n : Nat) : NumLit where
  digits := Nat.toDigits 10 n
  nonempty := Nat.toDigits_ne_nil
  numeric := fun c hc => by
    have hd := Nat.isDigit_of_mem_toDigits (by decide) (by decide) hc
    simp [numChar, hd]

def isZero (n : NumLit) : Bool := n.digits == ['0'] || n.digits == ['-', '0']

end NumLit

/-- What `JSON.parse` returns. A numeral that is too large for a number is an infinity. -/
inductive Json
  | null
  | bool (b : Bool)
  | num (n : NumLit)
  | infinity (negative : Bool)
  | str (s : String)
  | arr (elems : List Json)
  | obj (fields : List (String × Json))

/-- A built-in function or prototype is known by its name alone. -/
inductive Value
  | undefined
  | json (j : Json)
  | builtin (name : String)

inductive Exception
  | typeError
  | syntaxError
deriving DecidableEq

def methods (names : List String) : List (String × String) := names.map fun n => (n, n)

/-- The properties inherited from a built-in prototype, with the values found there. -/
def objectPrototype : List (String × String) :=
  [("constructor", "Object"), ("__proto__", "Object.prototype")] ++
    methods ["toString", "toLocaleString", "valueOf", "hasOwnProperty", "isPrototypeOf",
      "propertyIsEnumerable", "__defineGetter__", "__defineSetter__", "__lookupGetter__",
      "__lookupSetter__"]

def functionPrototype : List (String × String) :=
  [("constructor", "Function"), ("__proto__", "Function.prototype")] ++
    methods ["apply", "bind", "call", "toString", "length", "name", "arguments", "caller"]

/-- The own properties of the function `Object`. -/
def objectStatics : List (String × String) :=
  methods ["prototype", "assign", "create", "defineProperties", "defineProperty", "freeze",
    "getOwnPropertyDescriptor", "getOwnPropertyNames", "getOwnPropertySymbols",
    "getPrototypeOf", "is", "isExtensible", "isFrozen", "isSealed", "keys",
    "preventExtensions", "seal", "setPrototypeOf"]

def arrayPrototype : List (String × String) :=
  [("constructor", "Array"), ("__proto__", "Array.prototype")] ++
    methods ["concat", "copyWithin", "entries", "every", "fill", "filter", "find", "findIndex",
      "forEach", "indexOf", "join", "keys", "lastIndexOf", "map", "pop", "push", "reduce",
      "reduceRight", "reverse", "shift", "slice", "some", "sort", "splice", "toLocaleString",
      "toString", "unshift", "values"]

def stringPrototype : List (String × String) :=
  [("constructor", "String"), ("__proto__", "String.prototype")] ++
    methods ["charAt", "charCodeAt", "codePointAt", "concat", "endsWith", "includes", "indexOf",
      "lastIndexOf", "localeCompare", "match", "normalize", "repeat", "replace", "search",
      "slice", "split", "startsWith", "substring", "toLocaleLowerCase", "toLocaleUpperCase",
      "toLowerCase", "toString", "toUpperCase", "trim", "valueOf"]

def numberPrototype : List (String × String) :=
  [("constructor", "Number"), ("__proto__", "Number.prototype")] ++
    methods ["toExponential", "toFixed", "toLocaleString", "toPrecision", "toString", "valueOf"]

def booleanPrototype : List (String × String) :=
  [("constructor", "Boolean"), ("__proto__", "Boolean.prototype")] ++
    methods ["toString", "valueOf"]

def builtinMembers (name : String) : List (String × String) :=
  if name == "Object.prototype" then objectPrototype
  else if name == "Object" then objectStatics ++ functionPrototype ++ objectPrototype
  else functionPrototype ++ objectPrototype

def arrayGet (elems : List Json) (key : String) : Option Json :=
  (elems.zipIdx.find? fun p => key == toString p.2).map Prod.fst

namespace Json

def inherited : Json → List (String × String)
  | null => []
  | bool _ => booleanPrototype ++ objectPrototype
  | num _ | infinity _ => numberPrototype ++ objectPrototype
  | str _ => stringPrototype ++ objectPrototype
  | arr _ => arrayPrototype ++ objectPrototype
  | obj _ => objectPrototype

def ownProperty (key : String) : Json → Option Json
  | obj fields => fields.lookup key
  | arr elems =>
      if key == "length" then some (num (.ofNat elems.length)) else arrayGet elems key
  | str s =>
      if key == "length" then some (num (.ofNat s.length))
      else arrayGet (s.toList.map fun c => str (String.ofList [c])) key
  | _ => none

def truthy : Json → Bool
  | null => false
  | bool b => b
  | num n => !n.isZero
  | str s => s != ""
  | infinity _ | arr _ | obj _ => true

/-- `===` between values that come from different parsed texts. -/
def strictEq : Json → Json → Bool
  | null, null => true
  | bool a, bool b => a == b
  | num a, num b => a == b
  | infinity a, infinity b => a == b
  | str a, str b => a == b
  | _, _ => false

mutual

/-- What `String(j)` returns when it does not throw. -/
def toText : Json → String
  | null => "null"
  | bool b => if b then "true" else "false"
  | num n => String.ofList n.digits
  | infinity negative => if negative then "-Infinity" else "Infinity"
  | str s => s
  | arr elems => ",".intercalate (elemTexts elems)
  | obj _ => "[object Object]"

/-- `join` prints nothing for a null element. -/
def elemTexts : List Json → List String
  | [] => []
  | null :: rest => "" :: elemTexts rest
  | j :: rest => toText j :: elemTexts rest

end

mutual

/-- `String(j)` does not throw. -/
def printable : Json → Bool
  | arr elems => elemsPrintable elems
  | obj fields => (fields.lookup "toString").isNone
  | null | bool _ | num _ | infinity _ | str _ => true

def elemsPrintable : List Json → Bool
  | [] => true
  | j :: rest => printable j && elemsPrintable rest

end

mutual

/-- No infinity is in the value. -/
def finite : Json → Bool
  | infinity _ => false
  | arr elems => elemsFinite elems
  | obj fields => fieldsFinite fields
  | null | bool _ | num _ | str _ => true

def elemsFinite : List Json → Bool
  | [] => true
  | j :: rest => finite j && elemsFinite rest

def fieldsFinite : List (String × Json) → Bool
  | [] => true
  | (_, j) :: rest => finite j && fieldsFinite rest

end

mutual

/-- What is read again of a value that was written as JSON: an infinity is written as null. -/
def written : Json → Json
  | null => null
  | bool b => bool b
  | num n => num n
  | infinity _ => null
  | str s => str s
  | arr elems => arr (writtenElems elems)
  | obj fields => obj (writtenFields fields)

def writtenElems : List Json → List Json
  | [] => []
  | j :: rest => written j :: writtenElems rest

def writtenFields : List (String × Json) → List (String × Json)
  | [] => []
  | (k, j) :: rest => (k, written j) :: writtenFields rest

end

mutual

theorem finite_written : ∀ j : Json, j.written.finite = true
  | null | bool _ | num _ | infinity _ | str _ => rfl
  | arr elems => elemsFinite_written elems
  | obj fields => fieldsFinite_written fields

theorem elemsFinite_written : ∀ elems : List Json, elemsFinite (writtenElems elems) = true
  | [] => rfl
  | j :: rest => Bool.and_eq_true_iff.mpr ⟨finite_written j, elemsFinite_written rest⟩

theorem fieldsFinite_written : ∀ fields : List (String × Json),
    fieldsFinite (writtenFields fields) = true
  | [] => rfl
  | (_, j) :: rest => Bool.and_eq_true_iff.mpr ⟨finite_written j, fieldsFinite_written rest⟩

end

mutual

theorem written_of_finite : ∀ j : Json, j.finite = true → j.written = j
  | null, _ | bool _, _ | num _, _ | str _, _ => rfl
  | infinity _, h => Bool.noConfusion h
  | arr elems, h => congrArg arr (writtenElems_of_finite elems h)
  | obj fields, h => congrArg obj (writtenFields_of_finite fields h)

theorem writtenElems_of_finite : ∀ elems : List Json,
    elemsFinite elems = true → writtenElems elems = elems
  | [], _ => rfl
  | j :: rest, h => by
      obtain ⟨hj, hrest⟩ := Bool.and_eq_true_iff.mp h
      rw [writtenElems, written_of_finite j hj, writtenElems_of_finite rest hrest]

theorem writtenFields_of_finite : ∀ fields : List (String × Json),
    fieldsFinite fields = true → writtenFields fields = fields
  | [], _ => rfl
  | (k, j) :: rest, h => by
      obtain ⟨hj, hrest⟩ := Bool.and_eq_true_iff.mp h
      rw [writtenFields, written_of_finite j hj, writtenFields_of_finite rest hrest]

end

/-- Writing a second time changes nothing. -/
@[simp] theorem written_written (j : Json) : j.written.written = j.written :=
  written_of_finite _ (finite_written j)

theorem eq_str_of_written {j : Json} {s : String} (h : j.written = str s) : j = str s := by
  cases j with
  | str t => exact h
  | _ => cases h

theorem writtenElems_eq_map (elems : List Json) : writtenElems elems = elems.map written := by
  induction elems with
  | nil => rfl
  | cons j rest ih => rw [writtenElems, ih, List.map_cons]

theorem lookup_writtenFields (fields : List (String × Json)) (key : String) :
    (writtenFields fields).lookup key = (fields.lookup key).map written := by
  induction fields with
  | nil => rfl
  | cons field rest ih =>
      obtain ⟨name, j⟩ := field
      rw [writtenFields, List.lookup_cons, List.lookup_cons, ih]
      cases key == name <;> rfl

end Json

/-- The texts of the prototypes; those of the other built-ins are alike. -/
def prototypeTexts : List (String × String) :=
  [("Object.prototype", "[object Object]"), ("Array.prototype", ""), ("String.prototype", ""),
    ("Number.prototype", "0"), ("Boolean.prototype", "false"),
    ("Function.prototype", "function () \x7b [native code] \x7d")]

namespace Value

def str (s : String) : Value := .json (.str s)

def truthy : Value → Bool
  | undefined => false
  | json j => j.truthy
  | builtin _ => true

def strictEq : Value → Value → Bool
  | undefined, undefined => true
  | json a, json b => a.strictEq b
  | builtin a, builtin b => a == b
  | _, _ => false

/-- What the conversion to text returns when it does not throw. -/
def toText : Value → String
  | undefined => "undefined"
  | json j => j.toText
  | builtin name =>
      match prototypeTexts.lookup name with
      | some text => text
      | none => "function " ++ name ++ "() \x7b [native code] \x7d"

def printable : Value → Bool
  | json j => j.printable
  | undefined | builtin _ => true

/-- `String(v)`, which is also the conversion of a property key. -/
def text (v : Value) : Except Exception String :=
  if v.printable then .ok v.toText else .error .typeError

/-- The value of an inherited property, `undefined` when there is none. -/
def ofInherited (members : List (String × String)) (key : String) : Value :=
  match members.lookup key with
  | some name => builtin name
  | none => undefined

/-- The property read `v[key]`. -/
def get (key : String) : Value → Except Exception Value
  | undefined | json .null => .error .typeError
  | json j =>
      match j.ownProperty key with
      | some w => .ok (json w)
      | none => .ok (ofInherited j.inherited key)
  | builtin name => .ok (ofInherited (builtinMembers name) key)

/-- The operator `key in v`, which sees inherited properties and rejects primitives. -/
def hasProperty (key : String) : Value → Except Exception Bool
  | json (.obj fields) =>
      .ok ((fields.lookup key).isSome || (objectPrototype.lookup key).isSome)
  | json (.arr elems) =>
      .ok (((Json.arr elems).ownProperty key).isSome ||
        ((arrayPrototype ++ objectPrototype).lookup key).isSome)
  | builtin name => .ok ((builtinMembers name).lookup key).isSome
  | _ => .error .typeError

/-- `Object.keys(v)`: own enumerable keys only. -/
def objectKeys : Value → Except Exception (List String)
  | undefined | json .null => .error .typeError
  | json (.obj fields) => .ok (fields.map Prod.fst)
  | json (.arr elems) => .ok ((List.range elems.length).map toString)
  | json (.str s) => .ok ((List.range s.length).map toString)
  | json _ | builtin _ => .ok []

theorem text_eq {v : Value} (h : v.printable = true) : v.text = .ok v.toText := if_pos h

theorem text_eq_ok_iff {v : Value} {s : String} :
    v.text = .ok s ↔ v.printable = true ∧ v.toText = s := by
  by_cases h : v.printable = true
  · simp [text, h]
  · simp [text, h]

theorem text_eq_error {v : Value} (h : v.printable = false) : v.text = .error .typeError := by
  rw [text, h]
  rfl

/-- The values whose properties can be read. -/
def Readable (v : Value) : Prop := v ≠ undefined ∧ v ≠ json .null

def isObject : Value → Bool
  | json (.obj _) | json (.arr _) | builtin _ => true
  | _ => false

theorem hasProperty_ok_iff (v : Value) (key : String) :
    (∃ known, v.hasProperty key = .ok known) ↔ v.isObject = true := by
  cases v with
  | undefined | builtin name => simp [hasProperty, isObject]
  | json j => cases j <;> simp [hasProperty, isObject]

theorem objectKeys_ok_iff (v : Value) : (∃ keys, v.objectKeys = .ok keys) ↔ v.Readable := by
  cases v with
  | undefined | builtin name => simp [objectKeys, Readable]
  | json j => cases j <;> simp [objectKeys, Readable]

@[simp] theorem get_obj (key : String) (fields : List (String × Json)) :
    get key (json (.obj fields)) =
      .ok (match fields.lookup key with
        | some w => json w
        | none => ofInherited objectPrototype key) := by
  simp only [get, Json.ownProperty, Json.inherited]
  cases fields.lookup key <;> rfl

@[simp] theorem objectKeys_obj (fields : List (String × Json)) :
    objectKeys (json (.obj fields)) = .ok (fields.map Prod.fst) := rfl

/-- Only equal values are strictly equal, and not all of those. -/
theorem eq_of_strictEq {a b : Value} (h : a.strictEq b = true) : a = b := by
  unfold strictEq at h
  split at h
  · rfl
  · rename_i j k
    unfold Json.strictEq at h
    split at h <;> simp_all
  · rw [eq_of_beq h]
  · exact Bool.noConfusion h

theorem strictEq_str_iff (name : String) (v : Value) :
    strictEq (json (.str name)) v = true ↔ v = str name := by
  cases v with
  | undefined => simp [strictEq, str]
  | builtin n => simp [strictEq, str]
  | json j =>
      cases j <;> simp [strictEq, Json.strictEq, str]
      exact eq_comm

/-- The property read where it does not fail. -/
def read (key : String) (v : Value) : Value :=
  match v.get key with
  | .ok w => w
  | .error _ => undefined

theorem get_eq_read {v : Value} (h : v.Readable) (key : String) : v.get key = .ok (v.read key) := by
  obtain ⟨hundef, hnull⟩ := h
  unfold read
  cases v with
  | undefined => exact absurd rfl hundef
  | builtin name => rfl
  | json j =>
      cases j with
      | null => exact absurd rfl hnull
      | bool | num | infinity | str | arr | obj =>
          simp only [get]
          split <;> rfl

/-- A read that finds something was a read of an object or a primitive. -/
theorem readable_of_read {v : Value} {key : String} (h : v.read key ≠ undefined) : v.Readable := by
  refine ⟨?_, ?_⟩
  · rintro rfl
    exact h rfl
  · rintro rfl
    exact h rfl

theorem readable_of_get {v w : Value} {key : String} (h : v.get key = .ok w) : v.Readable := by
  refine ⟨?_, ?_⟩
  · intro hv
    simp [hv, get] at h
  · intro hv
    simp [hv, get] at h

theorem readable_of_objectKeys {v : Value} {keys : List String} (h : v.objectKeys = .ok keys) :
    v.Readable := by
  refine ⟨?_, ?_⟩
  · intro hv
    simp [hv, objectKeys] at h
  · intro hv
    simp [hv, objectKeys] at h

/-- The own property of a value, as `hasOwnProperty` sees it. -/
def own (key : String) : Value → Option Json
  | json j => j.ownProperty key
  | undefined | builtin _ => none

theorem ofInherited_ne_json (members : List (String × String)) (key : String) (j : Json) :
    ofInherited members key ≠ json j := by
  unfold ofInherited
  split <;> exact Value.noConfusion

/-- What a read finds is JSON exactly for an own property. -/
theorem read_eq_json_iff {v : Value} {key : String} {w : Json} :
    v.read key = json w ↔ v.own key = some w := by
  cases v with
  | undefined => simp [read, get, own]
  | builtin name => simp [read, get, own, ofInherited_ne_json]
  | json j =>
      cases hown : j.ownProperty key with
      | some u => cases j <;> simp_all [read, get, own, Json.ownProperty]
      | none => cases j <;> simp_all [read, get, own, ofInherited_ne_json]

end Value
end Js

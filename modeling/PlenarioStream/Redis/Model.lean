import PlenarioStream.Foundation.Arrays
import PlenarioStream.Foundation.Number
import PlenarioStream.Foundation.OrderedMap
import PlenarioStream.Foundation.Transition

/-!
`update_node` of `redis_pull.js`, which keeps the observations of the last hour
under the id of their node.

The commands of a call name the key of its own id and no other, so the store is
the cell of one key. A stored text is known by what `JSON.parse` reads from it,
since nothing else is done with it; of what `JSON.stringify` writes, this is the
value itself, but for its infinities. The clock is read once for each call. An
exception in the reply handler of the GET reaches nobody: the call then issues no
SET, and its promise is never settled.
-/
namespace PlenarioStream.Redis
open Js

/-- A text of the store; none when `JSON.parse` throws on it. -/
structure Text where
  parsed : Option Json

def stringify (value : Json) : Text := ⟨some value.written⟩

/-- The key is absent or holds a text. A failed GET has the reply of an absent key. -/
abbrev Cell := Option Text

/-- `observation['id']` as a key. -/
def keyOf (observation : Json) : Except Exception String := do
  let id ← Value.get "id" (.json observation)
  id.text

/-- The calls on an id. One on null, or with an id that has no text, throws before its GET. -/
def hasKey (id : String) (observation : Json) : Bool :=
  match keyOf observation with
  | .ok key => key == id
  | .error _ => false

/-- What is not an array has neither the `splice` that the loop calls nor the `push`
after it. -/
def arrayOf : Value → Except Exception (List Json)
  | .json (.arr elems) => .ok elems
  | _ => .error .typeError

/-- `value_JSON['Last_hour']`, as far as the rest of the call can use it. -/
def lastHour (value : Json) : Except Exception (List Json) := do
  arrayOf (← Value.get "Last_hour" (.json value))

/-- The loop that removes the first element as long as it is old. Its guard reads
the element at 0, which throws when the list has become empty. -/
def trim (limit : ℚ) : List Json → Except Exception (List Json)
  | [] => .error .typeError
  | o :: rest => do
      let time ← Value.get "time" (.json o)
      if (← time.number).lessThan limit then trim limit rest else .ok (o :: rest)

/-- The list of the parsed value is changed in place. -/
def setLastHour (observations : List Json) : Json → Json
  | .obj fields => .obj (OrderedMap.replaceEntries "Last_hour" (.arr observations) fields)
  | value => value

/-- The value that a call writes, from the reply of its GET. -/
def newValue (now : ℚ) (observation : Json) : Cell → Except Exception Json
  | none => .ok (.obj [("Last_hour", .arr [observation])])
  | some text =>
      match text.parsed with
      | none => .error .syntaxError
      | some value => do
          let observations ← trim (now - 3600) (← lastHour value)
          .ok (setLastHour (observations ++ [observation]) value)

/-- A call without another one between its GET and its SET; a result means that the
promise is fulfilled. -/
def updateNode (now : ℚ) (observation : Json) (cell : Cell) : Except Exception Cell := do
  let _ ← keyOf observation
  let value ← newValue now observation cell
  .ok (some (stringify value))

/-- The list that a reader of the cell finds. -/
def Cell.observations (cell : Cell) : Option (List Json) := do
  let text ← cell
  let value ← text.parsed
  (lastHour value).toOption

/-- The time of an observation as a comparison takes it. -/
def timeOf (observation : Json) : Except Exception Number := do
  let time ← Value.get "time" (.json observation)
  time.number

/-- The time can be compared. -/
def Comparable (observation : Json) : Prop := ∃ n, timeOf observation = .ok n

/-- `observation['time'] < now - 3600`. -/
def older (now : ℚ) (observation : Json) : Bool :=
  match timeOf observation with
  | .ok n => n.lessThan (now - 3600)
  | .error _ => false

/-- The guard of the loop can be evaluated on the element and is false. -/
def Recent (now : ℚ) (observation : Json) : Prop :=
  Comparable observation ∧ older now observation = false

theorem older_eq {o : Json} {n : Number} (h : timeOf o = .ok n) (now : ℚ) :
    older now o = n.lessThan (now - 3600) := by
  rw [older, h]

theorem comparable_of_older {now : ℚ} {o : Json} (h : older now o = true) : Comparable o := by
  unfold older at h
  split at h
  · exact ⟨_, ‹_›⟩
  · cases h

/-- The guard of the loop. -/
theorem trim_cons (limit : ℚ) (o : Json) (rest : List Json) :
    trim limit (o :: rest) = timeOf o >>= fun n =>
      if n.lessThan limit then trim limit rest else .ok (o :: rest) := by
  rw [trim, timeOf, bind_assoc]

theorem trim_older {now : ℚ} {o : Json} (h : older now o = true) (rest : List Json) :
    trim (now - 3600) (o :: rest) = trim (now - 3600) rest := by
  obtain ⟨n, hn⟩ := comparable_of_older h
  rw [older_eq hn] at h
  rw [trim_cons, hn]
  exact if_pos h

theorem trim_recent {now : ℚ} {o : Json} (h : Recent now o) (rest : List Json) :
    trim (now - 3600) (o :: rest) = .ok (o :: rest) := by
  obtain ⟨⟨n, hn⟩, hold⟩ := h
  rw [older_eq hn] at hold
  rw [trim_cons, hn]
  exact if_neg (by simp [hold])

theorem trim_not_comparable {o : Json} (h : ¬ Comparable o) (limit : ℚ) (rest : List Json) :
    ∃ e, trim limit (o :: rest) = .error e := by
  rw [trim_cons]
  cases hn : timeOf o with
  | ok n => exact absurd ⟨n, hn⟩ h
  | error e => exact ⟨e, rfl⟩

theorem trim_append {now : ℚ} {dropped : List Json} (h : ∀ d ∈ dropped, older now d = true)
    (rest : List Json) : trim (now - 3600) (dropped ++ rest) = trim (now - 3600) rest := by
  induction dropped with
  | nil => rfl
  | cons d dropped ih =>
      obtain ⟨hd, hdropped⟩ := List.forall_mem_cons.mp h
      rw [List.cons_append, trim_older hd, ih hdropped]

/-- The first observation that is not old decides what becomes of the loop. -/
inductive Front (now : ℚ) (observations : List Json) : Prop
  | old (h : ∀ o ∈ observations, older now o = true)
  | recent (dropped : List Json) (o : Json) (rest : List Json)
      (hsplit : observations = dropped ++ o :: rest)
      (hdropped : ∀ d ∈ dropped, older now d = true) (ho : Recent now o)
  | incomparable (dropped : List Json) (o : Json) (rest : List Json)
      (hsplit : observations = dropped ++ o :: rest)
      (hdropped : ∀ d ∈ dropped, older now d = true) (ho : ¬ Comparable o)

theorem front (now : ℚ) (observations : List Json) : Front now observations := by
  induction observations with
  | nil => exact .old fun o ho => absurd ho List.not_mem_nil
  | cons o rest ih =>
      cases hold : older now o with
      | false =>
          by_cases hcomparable : Comparable o
          · exact .recent [] o rest rfl (by simp) ⟨hcomparable, hold⟩
          · exact .incomparable [] o rest rfl (by simp) hcomparable
      | true =>
          cases ih with
          | old h => exact .old (List.forall_mem_cons.mpr ⟨hold, h⟩)
          | recent dropped p tail hsplit hdropped hp =>
              exact .recent (o :: dropped) p tail (by rw [hsplit]; rfl)
                (List.forall_mem_cons.mpr ⟨hold, hdropped⟩) hp
          | incomparable dropped p tail hsplit hdropped hp =>
              exact .incomparable (o :: dropped) p tail (by rw [hsplit]; rfl)
                (List.forall_mem_cons.mpr ⟨hold, hdropped⟩) hp

/-- The loop ends normally at the first element that is not old, if there is one
and its time can be compared. -/
theorem trim_eq_ok {now : ℚ} {observations kept : List Json} :
    trim (now - 3600) observations = .ok kept ↔
      ∃ dropped o rest, observations = dropped ++ o :: rest ∧ kept = o :: rest ∧
        (∀ d ∈ dropped, older now d = true) ∧ Recent now o := by
  refine ⟨?_, ?_⟩
  · intro h
    cases front now observations with
    | old hold =>
        have htrim := trim_append hold []
        rw [List.append_nil, h] at htrim
        cases htrim
    | recent dropped o rest hsplit hdropped ho =>
        rw [hsplit, trim_append hdropped, trim_recent ho] at h
        exact ⟨dropped, o, rest, hsplit, (Except.ok.inj h).symm, hdropped, ho⟩
    | incomparable dropped o rest hsplit hdropped ho =>
        obtain ⟨e, herror⟩ := trim_not_comparable ho (now - 3600) rest
        rw [hsplit, trim_append hdropped, herror] at h
        cases h
  · intro h
    obtain ⟨dropped, o, rest, rfl, rfl, hdropped, ho⟩ := h
    rw [trim_append hdropped, trim_recent ho]

/-- An index is a numeral. -/
theorem arrayGet_lastHour (elems : List Json) : arrayGet elems "Last_hour" = none := by
  have hnone : (elems.zipIdx.find? fun p => "Last_hour" == toString p.2) = none := by
    rw [List.find?_eq_none]
    intro p _ heq
    have hdigits : "Last_hour".toList = Nat.toDigits 10 p.2 := by
      rw [eq_of_beq heq]
      exact String.toList_ofList
    have hmem : 'L' ∈ Nat.toDigits 10 p.2 := by
      rw [← hdigits]
      decide
    exact absurd (Nat.isDigit_of_mem_toDigits (by decide) (by decide) hmem) (by decide)
  rw [arrayGet, hnone]
  rfl

theorem arrayOf_ofInherited (members : List (String × String)) (key : String) :
    arrayOf (Value.ofInherited members key) = .error .typeError := by
  unfold Value.ofInherited
  cases members.lookup key <;> rfl

theorem arrayOf_eq_ok {v : Value} {elems : List Json} (h : arrayOf v = .ok elems) :
    v = .json (.arr elems) := by
  unfold arrayOf at h
  split at h
  · rw [Except.ok.inj h]
  · simp at h

/-- Only an object can hold the list. -/
theorem lastHour_eq_ok {value : Json} {observations : List Json} :
    lastHour value = .ok observations ↔
      ∃ fields, value = .obj fields ∧ fields.lookup "Last_hour" = some (.arr observations) := by
  refine ⟨?_, ?_⟩
  · intro h
    cases value with
    | null | bool _ | num _ | infinity _ | str _ | arr _ =>
        simp [lastHour, Value.get, Json.ownProperty, arrayGet_lastHour, arrayOf_ofInherited, bind,
          Except.bind] at h
    | obj fields =>
        refine ⟨fields, rfl, ?_⟩
        simp only [lastHour, Value.get_obj, bind, Except.bind] at h
        cases hlookup : fields.lookup "Last_hour" with
        | none => simp [hlookup, arrayOf_ofInherited] at h
        | some j =>
            rw [hlookup] at h
            rw [Value.json.inj (arrayOf_eq_ok h)]
  · intro h
    obtain ⟨fields, rfl, hlookup⟩ := h
    simp only [lastHour, Value.get_obj, hlookup, bind, Except.bind]
    rfl

theorem lastHour_setLastHour {value : Json} {observations : List Json}
    (h : lastHour value = .ok observations) (new : List Json) :
    lastHour (setLastHour new value).written = .ok (new.map Json.written) := by
  obtain ⟨fields, rfl, hlookup⟩ := lastHour_eq_ok.mp h
  have hmem : "Last_hour" ∈ fields.map Prod.fst := by
    obtain ⟨before, after, rfl, -⟩ := List.lookup_eq_some_iff.mp hlookup
    simp
  refine lastHour_eq_ok.mpr ⟨_, rfl, ?_⟩
  rw [Json.lookup_writtenFields, OrderedMap.lookup_replaceEntries_self _ _ _ hmem, Option.map_some,
    Json.written, Json.writtenElems_eq_map]

theorem observations_eq_some {cell : Cell} {l : List Json} :
    cell.observations = some l ↔
      ∃ value, cell = some ⟨some value⟩ ∧ lastHour value = .ok l := by
  refine ⟨?_, ?_⟩
  · intro h
    rcases cell with _ | ⟨_ | value⟩
    · simp [Cell.observations] at h
    · simp [Cell.observations] at h
    · refine ⟨value, rfl, ?_⟩
      change (lastHour value).toOption = some l at h
      cases hl : lastHour value with
      | error e => simp [hl, Except.toOption] at h
      | ok l' =>
          rw [hl] at h
          rw [Option.some.inj h]
  · intro h
    obtain ⟨value, rfl, hl⟩ := h
    change (lastHour value).toOption = some l
    rw [hl]
    rfl

/-- What a call that is fulfilled does to the list. -/
inductive Extends (now : ℚ) (observation : Json) (cell cell' : Cell) : Prop
  | first (hcell : cell = none) (hnew : cell'.observations = some [observation.written])
  | push (dropped : List Json) (o : Json) (rest : List Json)
      (hcell : cell.observations = some (dropped ++ o :: rest))
      (hdropped : ∀ d ∈ dropped, older now d = true) (ho : Recent now o)
      (hnew : cell'.observations = some ((o :: rest ++ [observation]).map Json.written))

theorem exists_keyOf {id : String} {observation : Json} (h : hasKey id observation = true) :
    ∃ key, keyOf observation = .ok key := by
  unfold hasKey at h
  split at h
  · exact ⟨_, ‹_›⟩
  · cases h

/-- A call on an absent key is fulfilled. -/
theorem updateNode_none {id : String} {observation : Json} (hkey : hasKey id observation = true)
    (now : ℚ) :
    ∃ cell', updateNode now observation none = .ok cell' ∧
      cell'.observations = some [observation.written] := by
  obtain ⟨key, hkey⟩ := exists_keyOf hkey
  exact ⟨_, by rw [updateNode, hkey]; rfl, rfl⟩

/-- So is a call that finds something recent behind the old. -/
theorem updateNode_recent {id : String} {now : ℚ} {cell : Cell} {dropped rest : List Json}
    {o observation : Json} (hkey : hasKey id observation = true)
    (hcell : cell.observations = some (dropped ++ o :: rest))
    (hdropped : ∀ d ∈ dropped, older now d = true) (ho : Recent now o) :
    ∃ cell', updateNode now observation cell = .ok cell' ∧
      cell'.observations = some ((o :: rest ++ [observation]).map Json.written) := by
  obtain ⟨key, hkey⟩ := exists_keyOf hkey
  obtain ⟨value, rfl, hlast⟩ := observations_eq_some.mp hcell
  have htrim := trim_eq_ok.mpr ⟨dropped, o, rest, rfl, rfl, hdropped, ho⟩
  refine ⟨some (stringify (setLastHour (o :: rest ++ [observation]) value)), ?_, ?_⟩
  · simp only [updateNode, newValue, hkey, hlast, htrim, bind, Except.bind]
  · exact observations_eq_some.mpr ⟨_, rfl, lastHour_setLastHour hlast _⟩

/-- And there are no others. -/
theorem newValue_extends {now : ℚ} {observation value : Json} {cell : Cell}
    (h : newValue now observation cell = .ok value) :
    Extends now observation cell (some (stringify value)) := by
  rcases cell with _ | ⟨_ | stored⟩
  · obtain rfl := Except.ok.inj h
    exact .first rfl rfl
  · cases h
  · have hnew : (lastHour stored >>= fun l => trim (now - 3600) l >>= fun kept =>
        .ok (setLastHour (kept ++ [observation]) stored)) = .ok value := h
    obtain ⟨l, hlast, hnew⟩ := bind_eq_ok.mp hnew
    obtain ⟨kept, htrim, hnew⟩ := bind_eq_ok.mp hnew
    obtain rfl := Except.ok.inj hnew
    obtain ⟨dropped, o, rest, rfl, rfl, hdropped, ho⟩ := trim_eq_ok.mp htrim
    exact .push dropped o rest (observations_eq_some.mpr ⟨stored, rfl, hlast⟩) hdropped ho
      (observations_eq_some.mpr ⟨_, rfl, lastHour_setLastHour hlast _⟩)

theorem updateNode_extends {now : ℚ} {observation : Json} {cell cell' : Cell}
    (h : updateNode now observation cell = .ok cell') : Extends now observation cell cell' := by
  obtain ⟨key, -, h⟩ := bind_eq_ok.mp h
  obtain ⟨value, hvalue, h⟩ := bind_eq_ok.mp h
  obtain rfl := Except.ok.inj h
  exact newValue_extends hvalue

/-- An observation of the node of the test data. -/
def fooAt (time : Nat) : Json := .obj [("id", .str "foo"), ("time", .num (.ofNat time))]

theorem fooAt_hasKey (time : Nat) : hasKey "foo" (fooAt time) = true := rfl

theorem fooAt_comparable (time : Nat) : Comparable (fooAt time) := ⟨_, rfl⟩

theorem fooAt_written (time : Nat) : (fooAt time).written = fooAt time := rfl

/-- The cell after the first call on an absent key. -/
def firstCell (observation : Json) : Cell := some (stringify (.obj [("Last_hour", .arr [observation])]))

end PlenarioStream.Redis

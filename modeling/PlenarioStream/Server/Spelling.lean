import PlenarioStream.Server.Delivery

/-!
The spellings that a client may give a filter in: the names joined by commas, the same
text in square brackets, or the parameter repeated. The parser takes the brackets off
with `replace`, whose result it drops, so that the second spelling names other nodes,
features or sensors than the first and the third.
-/
namespace PlenarioStream.Server
open Js Transition

inductive Spelling
  | joined
  | bracketed
  | repeated
deriving DecidableEq

/-- A filter that a client wants, and how it spells it. -/
structure SpelledFilter where
  names : List String
  spelling : Spelling
  nonempty : names ≠ []
  plain : ∀ name ∈ names, name ≠ "" ∧ ∀ c ∈ [',', '[', ']'], c ∉ name.toList
  several : spelling = .repeated → 2 ≤ names.length

def SpelledFilter.value (f : SpelledFilter) : QueryValue :=
  match f.spelling, f.names with
  | .repeated, first :: second :: rest => .many first second rest
  | .bracketed, names => .one ("[" ++ ",".intercalate names ++ "]")
  | _, names => .one (",".intercalate names)

/-- A client and the filters that it wants. -/
structure Wish where
  nodes : Option SpelledFilter
  featuresOfInterest : Option SpelledFilter
  sensors : Option SpelledFilter
  sensorNetwork : Option QueryValue

def Wish.handshake (w : Wish) : Handshake where
  consumerToken := none
  nodes := w.nodes.map SpelledFilter.value
  featuresOfInterest := w.featuresOfInterest.map SpelledFilter.value
  sensors := w.sensors.map SpelledFilter.value
  sensorNetwork := w.sensorNetwork

/-- The args that the wish is for, however it is spelled. -/
def Wish.args (w : Wish) : Args where
  nodes := w.nodes.map SpelledFilter.names
  featuresOfInterest := w.featuresOfInterest.map SpelledFilter.names
  sensors := w.sensors.map SpelledFilter.names
  sensorNetwork := (parseArgs w.handshake).sensorNetwork

/-- A client with the wish gets the args it is for, hence the room and the messages. -/
structure Understood (w : Wish) : Prop where
  args : parseArgs w.handshake = w.args
  room : ∀ id, Socket.room ⟨id, w.handshake⟩ = w.args.roomName
  delivered : ∀ (env : Option String) (tr : List (State × Action)) (s : State),
    (server env).Run tr s → ∀ id d, ⟨id, w.handshake⟩ ∈ recipients s d ↔
      ⟨id, w.handshake⟩ ∈ s.connected ∧ Accepted tr ⟨id, w.handshake⟩ ∧ w.args.Accepts d ∧
        w.args.roomName ∈ s.rooms.keys

/-- No filter is spelled with brackets. -/
def Wish.Unbracketed (w : Wish) : Prop :=
  ∀ f, w.nodes = some f ∨ w.featuresOfInterest = some f ∨ w.sensors = some f →
    f.spelling ≠ .bracketed

namespace SpelledFilter

theorem no_comma (f : SpelledFilter) : ∀ name ∈ f.names, ',' ∉ name.toList :=
  fun name hname => (f.plain name hname).2 ',' (by simp)

theorem joined_ne_empty (f : SpelledFilter) : ",".intercalate f.names ≠ "" := by
  intro hempty
  have hsplit : f.names = split ',' "" := by
    rw [← hempty]
    exact (split_intercalate f.nonempty f.no_comma).symm
  have hmem : "" ∈ f.names := by
    rw [hsplit]
    exact List.mem_singleton_self _
  exact (f.plain "" hmem).1 rfl

theorem filterArg_one {s : String} (h : s ≠ "") : filterArg (some (.one s)) = some (split ',' s) := by
  simp [filterArg, truthy, h]

/-- The first name of a bracketed list starts with the bracket. -/
theorem bracketed_ne (f : SpelledFilter) :
    split ',' ("[" ++ ",".intercalate f.names ++ "]") ≠ f.names := by
  intro hsplit
  have hjoined : ",".intercalate f.names = "[" ++ ",".intercalate f.names ++ "]" := by
    have hback := intercalate_split ',' ("[" ++ ",".intercalate f.names ++ "]")
    rw [hsplit] at hback
    exact hback
  have hlength := congrArg (fun s => s.toList.length) hjoined
  simp at hlength
  omega

theorem filterArg_value_iff (f : SpelledFilter) :
    filterArg (some f.value) = some f.names ↔ f.spelling ≠ .bracketed := by
  have hjoined : filterArg (some (.one (",".intercalate f.names))) = some f.names := by
    rw [filterArg_one f.joined_ne_empty]
    exact congrArg some (split_intercalate f.nonempty f.no_comma)
  unfold value
  cases hspelling : f.spelling with
  | joined => exact iff_of_true hjoined Spelling.noConfusion
  | bracketed =>
      have hne : "[" ++ ",".intercalate f.names ++ "]" ≠ "" := by
        intro hempty
        have hlength := congrArg (fun s => s.toList.length) hempty
        simp at hlength
      refine iff_of_false ?_ (fun hn => hn rfl)
      rw [filterArg_one hne]
      exact fun hsome => f.bracketed_ne (Option.some.inj hsome)
  | repeated =>
      have hseveral := f.several hspelling
      cases hnames : f.names with
      | nil => exact absurd hnames f.nonempty
      | cons first names =>
          cases names with
          | nil => simp [hnames] at hseveral
          | cons second rest => exact iff_of_true rfl Spelling.noConfusion

theorem filterArg_map_iff (o : Option SpelledFilter) :
    filterArg (o.map value) = o.map names ↔ ∀ f, o = some f → f.spelling ≠ .bracketed := by
  cases o with
  | none =>
      refine iff_of_true rfl ?_
      rintro f ⟨⟩
  | some f =>
      rw [Option.map_some, Option.map_some, filterArg_value_iff]
      refine ⟨?_, fun h => h f rfl⟩
      rintro h g ⟨⟩
      exact h

end SpelledFilter

/-- A wish is understood exactly when none of its filters is in brackets. -/
theorem spelling_understood_iff (w : Wish) : Understood w ↔ w.Unbracketed := by
  have hfilters : parseArgs w.handshake = w.args ↔ w.Unbracketed := by
    have hparts : parseArgs w.handshake = w.args ↔
        filterArg w.handshake.nodes = w.args.nodes ∧
        filterArg w.handshake.featuresOfInterest = w.args.featuresOfInterest ∧
        filterArg w.handshake.sensors = w.args.sensors := by
      simp only [parseArgs, Wish.args, Args.mk.injEq, and_true]
    rw [hparts]
    simp only [Wish.handshake, Wish.args, SpelledFilter.filterArg_map_iff, Wish.Unbracketed, or_imp,
      forall_and]
  refine ⟨fun h => hfilters.mp h.args, ?_⟩
  intro h
  have hargs := hfilters.mpr h
  have hroom : ∀ id, Socket.room ⟨id, w.handshake⟩ = w.args.roomName :=
    fun id => congrArg Args.roomName hargs
  refine ⟨hargs, hroom, ?_⟩
  intro env tr s hrun id d
  rw [mem_recipients_iff (admitted hrun), hroom, Socket.args, hargs]

/-- Two nodes in brackets. -/
def bracketedWish : Wish where
  nodes := some ⟨["00A", "00B"], .bracketed, by simp, by simp, by simp⟩
  featuresOfInterest := none
  sensors := none
  sensorNetwork := none

theorem bracketed_not_understood :
    bracketedWish.handshake.nodes = some (.one "[00A,00B]") ∧
      bracketedWish.args.nodes = some ["00A", "00B"] ∧
      (parseArgs bracketedWish.handshake).nodes = some ["[00A", "00B]"] ∧
      ¬ Understood bracketedWish := by
  have hparsed : (parseArgs bracketedWish.handshake).nodes = some ["[00A", "00B]"] := rfl
  refine ⟨rfl, rfl, hparsed, ?_⟩
  intro h
  rw [h.args] at hparsed
  exact absurd hparsed (by decide)

end PlenarioStream.Server

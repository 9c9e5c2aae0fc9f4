import PlenarioStream.Foundation.Lists
import PlenarioStream.Redis.Interleaved
import Mathlib.Logic.Function.Basic

/-!
`redis_pull.js` as a whole: calls of `update_node` and `pull_node` for any number of
nodes, whose commands interleave on one store. A GET or SET may fail; the reply of a
failed GET is that of an absent key, and a call whose SET failed is fulfilled all the
same. Each call reads the clock once, at any value.
-/
namespace PlenarioStream.Redis
open Js Lists Transition

/-- A call of `update_node` that has the reply of its GET. -/
structure Pending where
  observation : Json
  key : String
  reply : Cell

/-- The store with the calls that are under way, what was written to it, and how the
calls ended. A call without a key is rejected at once, and one whose handler throws never
ends. -/
structure Store where
  cells : String → Cell
  waiting : List Pending
  written : List (String × Json)
  fulfilled : List Json
  stuck : List Json
  rejected : List Json
  pulled : List (String × Cell)

inductive StoreCommand
  | get (observation : Json) (failed : Bool)
  | set (i : Nat) (now : ℚ) (failed : Bool)
  | pull (id : String) (failed : Bool)

def replyOf (cells : String → Cell) (key : String) (failed : Bool) : Cell :=
  if failed then none else cells key

def Store.write (s : Store) (key : String) (observation value : Json) (failed : Bool) : Store :=
  if failed then s
  else { s with
    cells := Function.update s.cells key (some (stringify value))
    written := s.written ++ [(key, observation)] }

/-- The handler of the GET's reply together with the SET that it issues. -/
def Store.finish (s : Store) (i : Nat) (call : Pending) (now : ℚ) (failed : Bool) : Store :=
  let s := { s with waiting := s.waiting.eraseIdx i }
  match newValue now call.observation call.reply with
  | .error _ => { s with stuck := s.stuck ++ [call.observation] }
  | .ok value =>
      { s with fulfilled := s.fulfilled ++ [call.observation] }.write call.key call.observation
        value failed

/-- `pull_node` is fulfilled with the text of the reply, and rejected without one. -/
def store (initial : String → Cell) : System Store StoreCommand where
  init := ⟨initial, [], [], [], [], [], []⟩
  step s
    | .get o failed =>
        match keyOf o with
        | .error _ => some { s with rejected := s.rejected ++ [o] }
        | .ok key => some { s with waiting := s.waiting ++ [⟨o, key, replyOf s.cells key failed⟩] }
    | .set i now failed => s.waiting[i]?.map fun call => s.finish i call now failed
    | .pull id failed => some { s with pulled := s.pulled ++ [(id, replyOf s.cells id failed)] }

/-- The observations written to an id, oldest first, as they are read again. -/
def Store.writtenTo (s : Store) (id : String) : List Json :=
  s.written.filterMap fun w => if w.1 = id then some w.2.written else none

/-- What the list of an id can hold: what was there at first and what was written since. -/
def Store.history (initial : String → Cell) (s : Store) (id : String) : List Json :=
  ((initial id).observations.getD []).map Json.written ++ s.writtenTo id

/-- The cell holds only observations of its own history, in its order, up to the infinities
that a text had at first. -/
def InHistory (history : List Json) (cell : Cell) : Prop :=
  ∀ l, cell.observations = some l → (l.map Json.written).Sublist history

theorem InHistory.none (history : List Json) : InHistory history none := by
  intro l hl
  cases hl

theorem InHistory.mono {history history' : List Json} {cell : Cell} (h : InHistory history cell)
    (hsub : history.Sublist history') : InHistory history' cell :=
  fun l hl => (h l hl).trans hsub

theorem inHistory_replyOf {history : List Json} {cells : String → Cell} {key : String}
    (h : InHistory history (cells key)) (failed : Bool) :
    InHistory history (replyOf cells key failed) := by
  cases failed with
  | true => exact .none history
  | false => exact h

/-- A call writes what it keeps of its reply, and its own observation. -/
theorem observations_newValue {now : ℚ} {o value : Json} {reply : Cell}
    (h : newValue now o reply = .ok value) :
    Cell.observations (some (stringify value)) = some ((base now reply ++ [o]).map Json.written) :=
  (newValue_extends h).observations

theorem base_sublist {history : List Json} {cell : Cell} (h : InHistory history cell) (now : ℚ) :
    ((base now cell).map Json.written).Sublist history := by
  cases hobs : cell.observations with
  | none =>
      rw [base, hobs]
      exact List.nil_sublist _
  | some l =>
      rw [base, hobs]
      exact ((List.dropWhile_sublist _).map _).trans (h l hobs)

/-- Cells, replies and pulled texts are all in the history of their ids, and the last
write to an id is the last of its list. -/
structure Consistent (initial : String → Cell) (s : Store) : Prop where
  cell : ∀ id, InHistory (s.history initial id) (s.cells id)
  reply : ∀ call ∈ s.waiting, InHistory (s.history initial call.key) call.reply
  pulled : ∀ p ∈ s.pulled, InHistory (s.history initial p.1) p.2
  last : ∀ id o, (s.writtenTo id).getLast? = some o →
    ∃ l, (s.cells id).observations = some l ∧ l.getLast? = some o

theorem writtenTo_concat (s : Store) (key id : String) (o : Json) :
    ({ s with written := s.written ++ [(key, o)] } : Store).writtenTo id =
      if key = id then s.writtenTo id ++ [o.written] else s.writtenTo id := by
  by_cases h : key = id <;> simp [Store.writtenTo, h]

theorem consistent_write {initial : String → Cell} {s : Store} (h : Consistent initial s)
    {call : Pending} (hcall : InHistory (s.history initial call.key) call.reply) {now : ℚ}
    {value : Json} (hvalue : newValue now call.observation call.reply = .ok value)
    (failed : Bool) : Consistent initial (s.write call.key call.observation value failed) := by
  cases failed with
  | true => exact h
  | false =>
      have hwritten (id : String) :
          (s.write call.key call.observation value false).writtenTo id =
            if call.key = id then s.writtenTo id ++ [call.observation.written]
            else s.writtenTo id :=
        writtenTo_concat s call.key id call.observation
      have hgrows (id : String) : (s.history initial id).Sublist
          ((s.write call.key call.observation value false).history initial id) := by
        rw [Store.history, Store.history, hwritten]
        refine List.Sublist.append_left ?_ _
        split
        · exact List.sublist_append_left _ _
        · exact List.Sublist.refl _
      have hnew := observations_newValue hvalue
      have hcell (id : String) : (s.write call.key call.observation value false).cells id =
          if id = call.key then some (stringify value) else s.cells id :=
        Function.update_apply s.cells call.key (some (stringify value)) id
      refine ⟨?_, ?_, ?_, ?_⟩
      · intro id
        rw [hcell]
        by_cases hid : id = call.key
        · subst hid
          rw [if_pos rfl]
          intro l hl
          obtain rfl := Option.some.inj (hnew.symm.trans hl)
          have hagain : Json.written ∘ Json.written = Json.written :=
            funext fun o => o.written_written
          rw [Store.history, hwritten, if_pos rfl, ← List.append_assoc, List.map_map, hagain,
            List.map_append]
          exact (base_sublist hcall now).append_right _
        · rw [if_neg hid]
          exact (h.cell id).mono (hgrows id)
      · intro other hother
        exact (h.reply other hother).mono (hgrows _)
      · intro p hp
        exact (h.pulled p hp).mono (hgrows _)
      · intro id o ho
        rw [hwritten] at ho
        rw [hcell]
        by_cases hid : id = call.key
        · subst hid
          rw [if_pos rfl, List.getLast?_concat] at ho
          obtain rfl := Option.some.inj ho
          rw [if_pos rfl]
          exact ⟨_, hnew, by rw [List.map_append]; exact List.getLast?_concat⟩
        · rw [if_neg (Ne.symm hid)] at ho
          rw [if_neg hid]
          exact h.last id o ho

theorem consistent_step {initial : String → Cell} {s s' : Store} {a : StoreCommand}
    (h : Consistent initial s) (hs : (store initial).step s a = some s') :
    Consistent initial s' := by
  cases a with
  | get o failed =>
      simp only [store] at hs
      cases hkey : keyOf o with
      | error e =>
          rw [hkey] at hs
          obtain rfl := Option.some.inj hs
          exact ⟨h.cell, h.reply, h.pulled, h.last⟩
      | ok key =>
          rw [hkey] at hs
          obtain rfl := Option.some.inj hs
          refine ⟨h.cell, ?_, h.pulled, h.last⟩
          intro call hcall
          rcases List.mem_append.mp hcall with hcall | hcall
          · exact h.reply call hcall
          · obtain rfl := List.mem_singleton.mp hcall
            exact inHistory_replyOf (h.cell key) failed
  | set i now failed =>
      obtain ⟨call, hcall, rfl⟩ := Option.map_eq_some_iff.mp hs
      have hmem := List.mem_of_getElem? hcall
      have hrest : ∀ other ∈ s.waiting.eraseIdx i, InHistory (s.history initial other.key) other.reply :=
        fun other hother => h.reply other (List.mem_of_mem_eraseIdx hother)
      unfold Store.finish
      cases hvalue : newValue now call.observation call.reply with
      | error e => exact ⟨h.cell, hrest, h.pulled, h.last⟩
      | ok value =>
          let t : Store := { s with
            waiting := s.waiting.eraseIdx i
            fulfilled := s.fulfilled ++ [call.observation] }
          have ht : Consistent initial t := ⟨h.cell, hrest, h.pulled, h.last⟩
          exact consistent_write ht (h.reply call hmem) hvalue failed
  | pull id failed =>
      obtain rfl := Option.some.inj hs
      refine ⟨h.cell, h.reply, ?_, h.last⟩
      intro p hp
      rcases List.mem_append.mp hp with hp | hp
      · exact h.pulled p hp
      · obtain rfl := List.mem_singleton.mp hp
        exact inHistory_replyOf (h.cell id) failed

theorem consistent_run {initial : String → Cell} {tr : List (Store × StoreCommand)} {s : Store}
    (h : (store initial).Run tr s) : Consistent initial s := by
  refine h.invariant (fun _ s => Consistent initial s) ?_ ?_
  · have hstart (id : String) : InHistory ((store initial).init.history initial id) (initial id) := by
      intro l hl
      rw [Store.history, hl]
      exact List.sublist_append_left _ _
    refine ⟨hstart, ?_, ?_, ?_⟩
    · exact fun call hcall => absurd hcall List.not_mem_nil
    · exact fun p hp => absurd hp List.not_mem_nil
    · intro id o ho
      cases ho
  · intro tr s a s' _ hinv hs
    exact consistent_step hinv hs

/-- The calls under way and the writes done name the keys of their own observations. -/
structure Keyed (s : Store) : Prop where
  waiting : ∀ call ∈ s.waiting, keyOf call.observation = .ok call.key
  written : ∀ w ∈ s.written, keyOf w.2 = .ok w.1

theorem keyed_run {initial : String → Cell} {tr : List (Store × StoreCommand)} {s : Store}
    (h : (store initial).Run tr s) : Keyed s := by
  refine h.invariant (fun _ s => Keyed s) ⟨by simp [store], by simp [store]⟩ ?_
  intro tr s a s' _ hinv hs
  cases a with
  | get o failed =>
      simp only [store] at hs
      cases hkey : keyOf o with
      | error e =>
          rw [hkey] at hs
          obtain rfl := Option.some.inj hs
          exact ⟨hinv.waiting, hinv.written⟩
      | ok key =>
          rw [hkey] at hs
          obtain rfl := Option.some.inj hs
          refine ⟨?_, hinv.written⟩
          intro call hcall
          rcases List.mem_append.mp hcall with hcall | hcall
          · exact hinv.waiting call hcall
          · obtain rfl := List.mem_singleton.mp hcall
            exact hkey
  | set i now failed =>
      obtain ⟨call, hcall, rfl⟩ := Option.map_eq_some_iff.mp hs
      have hrest : ∀ other ∈ s.waiting.eraseIdx i, keyOf other.observation = .ok other.key :=
        fun other hother => hinv.waiting other (List.mem_of_mem_eraseIdx hother)
      unfold Store.finish
      cases newValue now call.observation call.reply with
      | error e => exact ⟨hrest, hinv.written⟩
      | ok value =>
          cases failed with
          | true => exact ⟨hrest, hinv.written⟩
          | false =>
              refine ⟨hrest, ?_⟩
              intro w hw
              rcases List.mem_append.mp hw with hw | hw
              · exact hinv.written w hw
              · obtain rfl := List.mem_singleton.mp hw
                exact hinv.waiting call (List.mem_of_getElem? hcall)
  | pull id failed =>
      obtain rfl := Option.some.inj hs
      exact ⟨hinv.waiting, hinv.written⟩

/-- Over every interleaving of the calls on any number of nodes, with failing commands and
any clock readings: the list that is stored for a node, and every list that `pull_node`
yields for it, holds observations of that node only, each written once, in the order in
which they were written after those that were there at first; and the list ends with the
observation that was written last. All are compared as JSON writes them. -/
theorem store_in_order {initial : String → Cell} {tr : List (Store × StoreCommand)} {s : Store}
    (h : (store initial).Run tr s) :
    (∀ id l, (s.cells id).observations = some l →
      (l.map Json.written).Sublist (s.history initial id)) ∧
    (∀ p ∈ s.pulled, ∀ l, p.2.observations = some l →
      (l.map Json.written).Sublist (s.history initial p.1)) ∧
    (∀ id o, (s.writtenTo id).getLast? = some o →
      ∃ l, (s.cells id).observations = some l ∧ l.getLast? = some o) ∧
    ∀ w ∈ s.written, keyOf w.2 = .ok w.1 :=
  ⟨(consistent_run h).cell, (consistent_run h).pulled, (consistent_run h).last,
    (keyed_run h).written⟩

/-- Two nodes; the call for the first one is done when the second still waits. -/
theorem store_in_order_two_nodes :
    ∃ tr s, (store fun _ => none).Run tr s ∧
      tr.map Prod.snd = [.get (fooAt 1000) false, .get (.obj [("id", .str "bar")]) false,
        .set 0 1001 false, .pull "foo" false] ∧
      (s.cells "foo").observations = some [fooAt 1000] ∧
      [fooAt 1000].Sublist (s.history (fun _ => none) "foo") := by
  have hrun := System.Run.nil.exec (S := store fun _ => none)
    [.get (fooAt 1000) false, .get (.obj [("id", .str "bar")]) false,
      .set 0 1001 false, .pull "foo" false] rfl
  exact ⟨_, _, hrun, rfl, rfl, (store_in_order hrun).1 "foo" _ rfl⟩

/-- The part of a state that concerns one id. -/
def Store.only (initial : String → Cell) (id : String) (s : Store) : Store where
  cells := Function.update initial id (s.cells id)
  waiting := s.waiting.filter fun call => call.key = id
  written := s.written.filter fun w => w.1 = id
  fulfilled := s.fulfilled.filter (hasKey id)
  stuck := s.stuck.filter (hasKey id)
  rejected := []
  pulled := s.pulled.filter fun p => p.1 = id

/-- The command of an id that a command is, if any; a waiting call is counted among those
of the same id. -/
def ownCommand (id : String) (s : Store) : StoreCommand → Option StoreCommand
  | .get o failed => if hasKey id o then some (.get o failed) else none
  | .set i now failed =>
      match s.waiting[i]? with
      | some call =>
          if call.key = id then
            some (.set ((s.waiting.take i).countP fun call => call.key = id) now failed)
          else none
      | none => none
  | .pull key failed => if key = id then some (.pull key failed) else none

theorem hasKey_of_keyOf {o : Json} {key : String} (h : keyOf o = .ok key) (id : String) :
    hasKey id o = decide (key = id) := by
  rw [hasKey, h]
  rfl

section Only
variable {initial : String → Cell} {s : Store} {id : String}

@[simp] theorem replyOf_update (failed : Bool) :
    replyOf (Function.update initial id (s.cells id)) id failed = replyOf s.cells id failed := by
  simp [replyOf]

theorem only_get (o : Json) (key : String) (failed : Bool) :
    ({ s with waiting := s.waiting ++ [⟨o, key, replyOf s.cells key failed⟩] } : Store).only
        initial id =
      if key = id then
        { s.only initial id with
          waiting := (s.only initial id).waiting ++
            [⟨o, id, replyOf (s.only initial id).cells id failed⟩] }
      else s.only initial id := by
  by_cases hid : key = id
  · subst hid
    simp [Store.only]
  · simp [Store.only, hid]

theorem only_write_self (observation value : Json) (failed : Bool) :
    (s.write id observation value failed).only initial id =
      (s.only initial id).write id observation value failed := by
  cases failed <;> simp [Store.write, Store.only]

theorem only_write_ne {key : String} (h : key ≠ id) (observation value : Json) (failed : Bool) :
    (s.write key observation value failed).only initial id = s.only initial id := by
  cases failed <;> simp [Store.write, Store.only, h, Ne.symm h]

theorem only_finish_self {i : Nat} {call : Pending} (hcall : s.waiting[i]? = some call)
    (hkey : keyOf call.observation = .ok call.key) (hid : call.key = id) (now : ℚ)
    (failed : Bool) :
    (s.finish i call now failed).only initial id =
      (s.only initial id).finish ((s.waiting.take i).countP fun call => call.key = id) call now
        failed := by
  have hhas : hasKey id call.observation = true := by rw [hasKey_of_keyOf hkey, hid]; simp
  have hwaiting : (s.waiting.eraseIdx i).filter (fun call => decide (call.key = id)) =
      (s.waiting.filter fun call => decide (call.key = id)).eraseIdx
        ((s.waiting.take i).countP fun call => decide (call.key = id)) := by
    rw [filter_eraseIdx _ hcall, if_pos (by simp [hid])]
  unfold Store.finish
  cases newValue now call.observation call.reply with
  | error e => simp [Store.only, hwaiting, hhas]
  | ok value =>
      subst hid
      simp only [only_write_self]
      simp [Store.only, hwaiting, hhas]

theorem only_finish_ne {i : Nat} {call : Pending} (hcall : s.waiting[i]? = some call)
    (hkey : keyOf call.observation = .ok call.key) (hid : call.key ≠ id) (now : ℚ)
    (failed : Bool) : (s.finish i call now failed).only initial id = s.only initial id := by
  have hhas : hasKey id call.observation = false := by rw [hasKey_of_keyOf hkey]; simp [hid]
  have hwaiting : (s.waiting.eraseIdx i).filter (fun call => decide (call.key = id)) =
      s.waiting.filter fun call => decide (call.key = id) := by
    rw [filter_eraseIdx _ hcall, if_neg (by simp [hid])]
  unfold Store.finish
  cases newValue now call.observation call.reply with
  | error e => simp [Store.only, hwaiting, hhas]
  | ok value =>
      simp only [only_write_ne hid]
      simp [Store.only, hwaiting, hhas]

end Only

/-- The commands of other nodes may be left out of any run: those of one node alone are a
run too, with the same list, pulled texts, calls under way and calls ended for it. So
whatever holds of a node in all runs of its own commands holds of it among any others. -/
theorem nodes_independent {initial : String → Cell} {tr : List (Store × StoreCommand)} {s : Store}
    (h : (store initial).Run tr s) (id : String) :
    (store initial).Run
      (tr.filterMap fun x => (ownCommand id x.1 x.2).map fun a => (x.1.only initial id, a))
      (s.only initial id) := by
  refine h.project (Store.only initial id) (ownCommand id) ?_ ?_
  · simp [store, Store.only]
  · intro tr s a s' hr hs
    cases a with
    | get o failed =>
        simp only [store] at hs
        cases hkey : keyOf o with
        | error e =>
            rw [hkey] at hs
            obtain rfl := Option.some.inj hs
            simp [ownCommand, hasKey, hkey, Store.only]
        | ok key =>
            rw [hkey] at hs
            obtain rfl := Option.some.inj hs
            rw [ownCommand, hasKey_of_keyOf hkey, only_get]
            by_cases hid : key = id
            · subst hid
              simp [store, hkey]
            · simp [hid]
    | set i now failed =>
        obtain ⟨call, hcall, rfl⟩ := Option.map_eq_some_iff.mp hs
        have hkey := (keyed_run hr).waiting call (List.mem_of_getElem? hcall)
        by_cases hid : call.key = id
        · rw [only_finish_self hcall hkey hid]
          have hget := getElem?_filter (fun call : Pending => decide (call.key = id)) hcall
            (by simp [hid])
          simp only [ownCommand, hcall, hid, if_true, store]
          exact Option.map_eq_some_iff.mpr ⟨call, hget, rfl⟩
        · simp only [ownCommand, hcall, hid, if_false]
          exact only_finish_ne hcall hkey hid now failed
    | pull key failed =>
        obtain rfl := Option.some.inj hs
        by_cases hid : key = id
        · subst hid
          simp [ownCommand, store, Store.only]
        · simp [ownCommand, hid, Store.only]

/-- The second node's call leaves the first one's run. -/
theorem nodes_independent_two_nodes :
    ∃ tr s, (store fun _ => none).Run tr s ∧ tr.length = 4 ∧
      (tr.filterMap fun x => (ownCommand "foo" x.1 x.2).map fun a =>
        (x.1.only (fun _ => none) "foo", a)).map Prod.snd =
        [.get (fooAt 1000) false, .set 0 1001 false, .pull "foo" false] ∧
      (store fun _ => none).Run
        (tr.filterMap fun x => (ownCommand "foo" x.1 x.2).map fun a =>
          (x.1.only (fun _ => none) "foo", a)) (s.only (fun _ => none) "foo") := by
  have hrun := System.Run.nil.exec (S := store fun _ => none)
    [.get (.obj [("id", .str "bar")]) false, .get (fooAt 1000) false, .set 1 1001 false,
      .pull "foo" false] rfl
  exact ⟨_, _, hrun, rfl, rfl, nodes_independent hrun "foo"⟩

end PlenarioStream.Redis

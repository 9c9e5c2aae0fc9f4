import PlenarioStream.Kcl.Enforcement

/-!
Reading standard output back. The channel carries lines of the mapper between those of
the manager, and the manager puts an empty line before each of its own. A reader that
takes the lines one by one, as JSON, and passes over those that are not messages still
recovers exactly the messages that were sent, in order.
-/
namespace PlenarioStream.Kcl
open Js Consumer Transition

def ActionType.ofName (name : String) : Option ActionType :=
  [.initialization, .processRecords, .shutdown].find? fun type => type.name == name

/-- A message by its action and the field that goes with it. -/
def Message.ofJson (j : Json) : Option Message :=
  match j.ownProperty "action" with
  | some (.str action) =>
      if action = "checkpoint" then
        match j.ownProperty "checkpoint" with
        | some (.str sequenceNumber) => some (.checkpoint (some sequenceNumber))
        | some .null => some (.checkpoint none)
        | _ => none
      else if action = "status" then
        match j.ownProperty "responseFor" with
        | some (.str name) => (ActionType.ofName name).map .status
        | _ => none
      else none
  | _ => none

def readMessage (line : List Char) : Option Message :=
  (JsonText.parse (String.ofList line)).bind Message.ofJson

/-- The messages on a text, line by line. -/
def readMessages (text : List Char) : List Message := (text.splitOn '\n').filterMap readMessage

theorem ofJson_toJson (m : Message) : Message.ofJson m.toJson = some m := by
  cases m with
  | checkpoint sequenceNumber => cases sequenceNumber <;> rfl
  | status type => cases type <;> rfl

theorem Message.toJson_finite (m : Message) : m.toJson.finite = true := by
  cases m with
  | checkpoint sequenceNumber => cases sequenceNumber <;> rfl
  | status type => rfl

theorem readMessage_message (m : Message) : readMessage (Write.message m).line = some m := by
  have hparse : JsonText.parse (String.ofList (JsonText.write m.toJson)) = some m.toJson :=
    JsonText.parse_stringify_of_finite m.toJson_finite
  rw [readMessage, Write.line, hparse]
  exact ofJson_toJson m

theorem readMessage_nil : readMessage [] = none := rfl

theorem readMessage_format_obs : readMessage (Write.log "in format_obs").line = none := by decide

/-- Reading skips the empty lines between the writes. -/
theorem readMessages_text {ws : List Write} (hws : ∀ w ∈ ws, '\n' ∉ w.line) :
    readMessages (ws.flatMap Write.text) = ws.filterMap fun w => readMessage w.line := by
  induction ws with
  | nil => rfl
  | cons w ws ih =>
      obtain ⟨hw, hws⟩ := List.forall_mem_cons.mp hws
      have hrest := ih hws
      unfold readMessages at hrest ⊢
      cases w with
      | log l =>
          have htext : ((Write.log l :: ws).flatMap Write.text) =
              (Write.log l).line ++ '\n' :: ws.flatMap Write.text := by simp [Write.text, Write.line]
          rw [htext, List.splitOn_append_cons_self_of_not_mem hw, List.filterMap_cons, hrest,
            List.filterMap_cons]
      | message m =>
          have htext : ((Write.message m :: ws).flatMap Write.text) =
              [] ++ '\n' :: ((Write.message m).line ++ '\n' :: ws.flatMap Write.text) := by
            simp [Write.text, Write.line]
          rw [htext, List.splitOn_append_cons_self_of_not_mem List.not_mem_nil,
            List.filterMap_cons_none readMessage_nil, List.splitOn_append_cons_self_of_not_mem hw,
            List.filterMap_cons, hrest, List.filterMap_cons]

/-- The writes are those of the mapper and, in order, those of the manager. -/
structure Ordered (c : Console) : Prop where
  written : Written c
  messages : c.stdout.filterMap (fun w => readMessage w.line) = c.session.messages

theorem readMessage_written {s s' : Session} {l : Line} (h : l.react s = some s') :
    (written s s').filterMap (fun w => readMessage w.line) =
      s'.messages.drop s.messages.length := by
  have hadvances := advances_react h
  have hlines : ∀ line ∈ s'.lines.drop s.lines.length, line = "in format_obs" := by
    intro line hline
    rw [hadvances.lines, List.drop_left] at hline
    exact eq_of_mem_stepLines hline
  have hlog : ((s'.lines.drop s.lines.length).map Write.log).filterMap
      (fun w => readMessage w.line) = [] := by
    rw [List.filterMap_eq_nil_iff]
    intro w hw
    obtain ⟨line, hline, rfl⟩ := List.mem_map.mp hw
    rw [hlines line hline]
    exact readMessage_format_obs
  have hmessage : ((fun w => readMessage w.line) ∘ Write.message) = some := by
    funext m
    exact readMessage_message m
  rw [written, List.filterMap_append, hlog, List.nil_append, List.filterMap_map, hmessage,
    List.filterMap_some]

theorem ordered_run {tr : List (Console × Line)} {c : Console} (h : console.Run tr c) :
    Ordered c := by
  refine h.invariant (fun _ c => Ordered c) ⟨written_run .nil, rfl⟩ ?_
  intro tr c l c' hr hinv hs
  obtain ⟨hreact, hstdout⟩ := console_step hs
  refine ⟨written_run (hr.snoc hs), ?_⟩
  obtain ⟨more, hmore⟩ := (advances_react hreact).log
  have hmessages : c'.session.messages = c.session.messages ++ more.filterMap Entry.message? := by
    rw [Session.messages, ← hmore, List.filterMap_append]
    rfl
  rw [hstdout, List.filterMap_append, hinv.messages, readMessage_written hreact, hmessages,
    List.drop_left]

/-- Whatever lines the daemon sends and whatever the mapper prints: standard output, read
line by line, yields the messages of the manager in the order in which they were sent, none
missing and none besides. -/
theorem stdout_read_back {tr : List (Console × Line)} {c : Console} (h : console.Run tr c) :
    readMessages (c.stdout.flatMap Write.text) = c.session.messages := by
  have hordered := ordered_run h
  rw [readMessages_text hordered.written.one_line, hordered.messages]

/-- The line of `format_obs` comes between the messages. -/
theorem stdout_read_back_format_obs :
    ∃ tr c, console.Run tr c ∧ tr.map Prod.snd = oneObservation (.ok tmp112Map) ∧
      c.session.lines = ["in format_obs"] ∧
      readMessages (c.stdout.flatMap Write.text) =
        [.status .initialization, .checkpoint (some "1"), .status .processRecords] := by
  have hrun := System.Run.nil.exec (S := console) (oneObservation (.ok tmp112Map)) rfl
  exact ⟨_, _, hrun, rfl, rfl, stdout_read_back hrun⟩

end PlenarioStream.Kcl

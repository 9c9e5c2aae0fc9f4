import PlenarioStream.Consumer.Silence
import PlenarioStream.Foundation.JsonText
import PlenarioStream.Kcl.Protocol

/-!
Standard output, which is the channel to the daemon. The manager writes its messages
there, and `format_obs` prints a line of its own. The daemon need not conform here: it
sends any lines at any time, and an exception ends the process.
-/
namespace PlenarioStream.Kcl
open Js Consumer Transition Library

def textOrNull : Option String → Json
  | some s => .str s
  | none => .null

def Message.toJson (m : Message) : Json := Library.Message.toJson textOrNull m

/-- A call of `console.log`, or of `writeLine` with the text of a message. -/
inductive Write
  | log (line : String)
  | message (m : Message)

/-- The line that a write puts out. -/
def Write.line : Write → List Char
  | log line => line.toList
  | message m => JsonText.write m.toJson

def Write.text : Write → List Char
  | log line => line.toList ++ ['\n']
  | message m => '\n' :: (JsonText.write m.toJson ++ ['\n'])

def Entry.message? : Entry → Option Message
  | sent m => some m
  | _ => none

def printed? : Nat × Effect → Option String
  | (_, .stdout line) => some line
  | _ => none

/-- The lines that the mapper has printed. -/
def linesOf (w : World) : List String := w.trace.filterMap printed?

def Session.lines (s : Session) : List String := linesOf s.manager.processor.world

def Session.messages (s : Session) : List Message := s.manager.log.filterMap Entry.message?

/-- What a step writes: the records of a batch are handled before it is answered. -/
def written (s s' : Session) : List Write :=
  (s'.lines.drop s.lines.length).map .log ++ (s'.messages.drop s.messages.length).map .message

/-- A line of the daemon may also have no action, which is only reported; be no JSON or
have an unknown action, for which the method to report it is missing; or have a batch
in which the record behind the given ones has no data. -/
inductive Line
  | event (e : Event)
  | noAction
  | unreadable
  | cutShort (records : List Record)

def cutShort (records : List Record) (k : Manager) : Except Manager Manager := do
  let k ← handleStateInput .beginProcessRecords k
  .error { k with processor := records.foldl processRecord k.processor }

def Line.isPull : Line → Bool
  | event e => e.isPull
  | _ => false

def Line.react (s : Session) : Line → Option Session
  | event e => Kcl.react s e
  | noAction => some s
  | unreadable => some { s with crashed := true }
  | cutShort records => some (finish (Kcl.cutShort records s.manager))

structure Console where
  session : Session
  stdout : List Write

def console : System Console Line where
  init := ⟨⟨.initial, false⟩, []⟩
  step c l :=
    if !c.session.crashed && (l.isPull || !c.session.manager.destroyed) then
      (l.react c.session).map fun s => ⟨s, c.stdout ++ written c.session s⟩
    else none

/-- Every line that is not empty is the text of a message that was sent, and the mapper
has printed nothing. -/
structure OnlyMessages (c : Console) : Prop where
  lines : ∀ line ∈ (c.stdout.flatMap Write.text).splitOn '\n', line ≠ [] →
    ∃ m, .sent m ∈ c.session.manager.log ∧ line = (JsonText.stringify m.toJson).toList
  silent : c.session.lines = []

/-- No observation of the batch passes the check of `parse_insert_emit`. -/
def QuietBatch (s : Session) (records : List Record) : Prop :=
  (s.manager.state.handle .beginProcessRecords).2 = true →
    ∀ r ∈ records, ∀ obs, r.payload = some obs →
      needsPull obs s.manager.processor.map ≠ .ok false

/-- No observation that this step handles passes the check, with the cached map or with
a pulled one. -/
def Quiet (s : Session) : Line → Prop
  | .event (.action (.processRecords (some records))) | .cutShort records => QuietBatch s records
  | .event (.settle i (.ok newMap)) => ∀ n obs,
      s.manager.processor.world.pulls[i]? = some (n, obs) → needsPull obs newMap ≠ .ok false
  | _ => True

theorem newline_not_mem_message (m : Message) : '\n' ∉ JsonText.write m.toJson := by
  have hstring := JsonText.newline_not_mem_writeString
  cases m with
  | status type =>
      simp [Message.toJson, Library.Message.toJson, JsonText.write, JsonText.writeFields, hstring]
  | checkpoint sequenceNumber =>
      cases sequenceNumber <;>
        simp [Message.toJson, Library.Message.toJson, textOrNull, JsonText.write,
          JsonText.writeFields, hstring]

theorem message_head (m : Message) : (JsonText.write m.toJson).head? = some '{' := by
  cases m <;> simp [Message.toJson, Library.Message.toJson, JsonText.write]

theorem mem_lines_iff {line : List Char} (hne : line ≠ []) {ws : List Write}
    (hws : ∀ w ∈ ws, '\n' ∉ w.line) :
    line ∈ (ws.flatMap Write.text).splitOn '\n' ↔ ∃ w ∈ ws, line = w.line := by
  induction ws with
  | nil => simp [hne]
  | cons w ws ih =>
      obtain ⟨hw, hws⟩ := List.forall_mem_cons.mp hws
      have hrest := ih hws
      cases w with
      | log l =>
          have htext : ((Write.log l :: ws).flatMap Write.text) =
              (Write.log l).line ++ '\n' :: ws.flatMap Write.text := by simp [Write.text, Write.line]
          rw [htext, List.splitOn_append_cons_self_of_not_mem hw, List.mem_cons, hrest]
          simp
      | message m =>
          have htext : ((Write.message m :: ws).flatMap Write.text) =
              [] ++ '\n' :: ((Write.message m).line ++ '\n' :: ws.flatMap Write.text) := by
            simp [Write.text, Write.line]
          rw [htext, List.splitOn_append_cons_self_of_not_mem List.not_mem_nil,
            List.splitOn_append_cons_self_of_not_mem hw, List.mem_cons, List.mem_cons, hrest]
          simp [hne]

/-- The line of an observation that passes the check. -/
def linesFor (obs : Json) (map : SensorMap) : List String :=
  match needsPull obs map with
  | .ok false => ["in format_obs"]
  | _ => []

def payloadLines (map : SensorMap) : Option Json → List String
  | none => []
  | some obs => linesFor obs map

def resultLines (obs : Json) : Except String SensorMap → List String
  | .error _ => []
  | .ok newMap => linesFor obs newMap

theorem linesFor_eq_nil_iff (obs : Json) (map : SensorMap) :
    linesFor obs map = [] ↔ needsPull obs map ≠ .ok false := by
  unfold linesFor
  split <;> simp_all

theorem eq_of_mem_linesFor {obs : Json} {map : SensorMap} {line : String}
    (h : line ∈ linesFor obs map) : line = "in format_obs" := by
  unfold linesFor at h
  split at h
  · exact List.mem_singleton.mp h
  · exact absurd h List.not_mem_nil

theorem lines_add (w : World) (n : Nat) (effects : List Consumer.Effect) :
    linesOf (w.add n effects) =
      linesOf w ++ effects.filterMap fun e => printed? (n, e) := by
  rw [linesOf, World.add, List.filterMap_append, List.filterMap_map]
  rfl

theorem emissions_lines (n : Nat) (obs : Json) (map : SensorMap) :
    (emissions obs map).filterMap (fun e => printed? (n, e)) = ["in format_obs"] := by
  unfold emissions
  cases formatObs obs map with
  | error e => rfl
  | ok objects => simp [printed?, List.filterMap_map]

theorem handle_lines (payload : Option Json) (map : SensorMap) (w : World) :
    linesOf (handle payload map w).1 = linesOf w ++ payloadLines map payload := by
  rw [handle_fst, lines_add]
  congr 1
  cases payload with
  | none => rfl
  | some obs =>
      cases hneeds : needsPull obs map with
      | error e => simp [handleEffects, payloadLines, linesFor, hneeds, printed?]
      | ok stale =>
          cases stale with
          | true => simp [handleEffects, payloadLines, linesFor, hneeds, printed?]
          | false =>
              have hinsert : printed? (w.handled.length, .redshiftInsert obs map false) = none := rfl
              simp only [handleEffects, payloadLines, linesFor, hneeds, List.filterMap_cons, hinsert,
                List.filterMap_append, emissions_lines]
              cases formatObs obs map <;> rfl

theorem settleEffects_lines (n : Nat) (blacklist : List Value) (obs : Json)
    (result : Except String SensorMap) :
    (settleEffects blacklist obs result).filterMap (fun e => printed? (n, e)) =
      resultLines obs result := by
  cases result with
  | error reason => rfl
  | ok newMap =>
      by_cases hcheck : needsPull obs newMap = .ok false
      · obtain ⟨sensor, hsensor⟩ : ∃ sensor, prop obs "sensor" = .ok sensor :=
          ⟨_, prop_eq_field (named_of_needsPull hcheck).readable "sensor"⟩
        have houtcome := outcomeOf_fixed_iff.mpr ⟨hsensor, hcheck⟩
        have hpost : printed? (n, .post sensor "resolve") = none := rfl
        have hinsert : printed? (n, .redshiftInsert obs newMap false) = none := rfl
        simp only [settleEffects, houtcome, List.cons_append, List.nil_append, List.filterMap_cons,
          hpost, hinsert, emissions_lines, resultLines, linesFor, hcheck]
      · rw [resultLines, (linesFor_eq_nil_iff obs newMap).mpr hcheck]
        cases houtcome : outcomeOf obs newMap with
        | none => simp only [settleEffects, houtcome, List.filterMap_nil]
        | some outcome =>
            cases outcome with
            | fixed sensor => exact absurd (outcomeOf_fixed_iff.mp houtcome).2 hcheck
            | error sensor type =>
                simp only [settleEffects, houtcome]
                split <;> rfl

theorem settle_lines {i : Nat} {result : Except String SensorMap} {w w' : World}
    (h : settle i result w = some w') :
    ∃ n obs, w.pulls[i]? = some (n, obs) ∧
      linesOf w' = linesOf w ++ resultLines obs result := by
  obtain ⟨n, obs, hpull, rfl⟩ := settle_eq_some h
  refine ⟨n, obs, hpull, ?_⟩
  rw [lines_add, settleEffects_lines]
  rfl

theorem foldl_processRecord_lines (records : List Record) (p : Processor) :
    linesOf (records.foldl processRecord p).world =
      linesOf p.world ++ (records.map Record.payload).flatMap (payloadLines p.map) := by
  induction records generalizing p with
  | nil => simp
  | cons r records ih =>
      rw [List.foldl_cons, ih, processRecord_world, handle_lines, processRecord_map]
      simp

/-- The log goes on, and the record processor is kept. -/
structure Grows (k k' : Manager) : Prop where
  log : k.log <+: k'.log
  processor : k'.processor = k.processor

theorem kept_grows : Kept Grows where
  refl _ := ⟨List.prefix_rfl, rfl⟩
  trans h h' := ⟨h.log.trans h'.log, h'.processor.trans h.processor⟩
  setCore _ _ := ⟨List.prefix_rfl, rfl⟩

theorem finish_manager (r : Except Manager Manager) : (finish r).manager = outcome r := by
  cases r <;> rfl

theorem grows_sendAction (m : Message) (k : Manager) : Grows k (outcome (sendAction m k)) :=
  ⟨List.prefix_append _ _, rfl⟩

theorem grows_recordProcessorCallback (type : ActionType) (k : Manager) :
    Grows k (outcome (recordProcessorCallback type k)) :=
  kept_grows.recordProcessorCallback grows_sendAction type k

theorem grows_checkpointCallback (checkpoint : Value) (type : ActionType) (k : Manager) :
    Grows k (outcome (checkpointCallback recordProcessorCallback checkpoint type k)) := by
  unfold checkpointCallback
  split
  · exact kept_grows.refl k
  · exact grows_recordProcessorCallback _ k

theorem grows_checkpoint (sequenceNumber : Option String) (type : ActionType) (k : Manager) :
    Grows k (outcome (checkpoint sequenceNumber type k)) :=
  kept_grows.checkpoint grows_sendAction (grows_checkpointCallback .undefined) sequenceNumber type k

theorem grows_onCheckpointAction (error checkpoint : Value) (k : Manager) :
    Grows k (outcome (onCheckpointAction error checkpoint k)) := by
  have hresponded : Grows k { k with log := k.log ++ [.responded error checkpoint] } :=
    ⟨List.prefix_append _ _, rfl⟩
  exact kept_grows.trans hresponded
    (kept_grows.onCheckpointAction (grows_checkpointCallback checkpoint) _)

/-- What an action does to the record processor. -/
def Action.apply (a : Action) (p : Processor) : Processor :=
  match a with
  | .processRecords records => Consumer.processRecords records p
  | _ => p

theorem grows_recordProcessor (a : Action) (k : Manager) :
    Grows { k with processor := a.apply k.processor } (outcome (recordProcessor a k)) := by
  cases a with
  | initialization shardId =>
      have hcallback := grows_recordProcessorCallback .initialization
        { k with shardId := some shardId }
      exact ⟨hcallback.log, hcallback.processor⟩
  | processRecords records =>
      simp only [recordProcessor]
      split
      · exact grows_recordProcessorCallback _ _
      · exact grows_checkpoint _ _ _
  | shutdown reason =>
      simp only [recordProcessor]
      split
      · exact grows_checkpoint _ _ k
      · exact grows_recordProcessorCallback _ k

/-- An action is only handled when the state machine lets it begin. -/
theorem onRecordProcessorAction_grows (a : Action) (k : Manager) :
    k.log <+: (outcome (onRecordProcessorAction a k)).log ∧
      (outcome (onRecordProcessorAction a k)).processor =
        if (k.state.handle a.type.beginInput).2 then a.apply k.processor else k.processor := by
  have hreceived : k.log <+: k.log ++ [.received a] := List.prefix_append _ _
  let begun : Manager := { k with log := k.log ++ [.received a] }
  cases hhandle : k.state.handle a.type.beginInput with
  | mk state valid =>
      cases valid with
      | false =>
          have herror : onRecordProcessorAction a k = .error { begun with state, destroyed := true } := by
            rw [onRecordProcessorAction, Library.onRecordProcessorAction,
              handleStateInput_error (p := begun) hhandle]
            rfl
          rw [herror]
          exact ⟨hreceived, rfl⟩
      | true =>
          have hok : onRecordProcessorAction a k = recordProcessor a { begun with state } := by
            rw [onRecordProcessorAction, Library.onRecordProcessorAction,
              handleStateInput_ok (p := begun) hhandle]
            rfl
          have hgrows := grows_recordProcessor a { begun with state }
          rw [hok]
          exact ⟨hreceived.trans hgrows.log, hgrows.processor⟩

theorem processRecords_lines (records : List Record) (p : Processor) :
    linesOf (processRecords (some records) p).world =
      linesOf p.world ++ (records.map Record.payload).flatMap (payloadLines p.map) :=
  foldl_processRecord_lines records p

def batchLines (s : Session) (records : List Record) : List String :=
  if (s.manager.state.handle .beginProcessRecords).2 then
    (records.map Record.payload).flatMap (payloadLines s.manager.processor.map)
  else []

/-- The lines that a step prints. -/
def stepLines (s : Session) : Line → List String
  | .event (.action (.processRecords (some records))) | .cutShort records => batchLines s records
  | .event (.settle i result) =>
      match s.manager.processor.world.pulls[i]? with
      | none => []
      | some (_, obs) => resultLines obs result
  | _ => []

structure Advances (s s' : Session) (lines : List String) : Prop where
  log : s.manager.log <+: s'.manager.log
  lines : s'.lines = s.lines ++ lines

theorem Advances.of_log_eq {s s' : Session} {lines : List String}
    (hlog : s'.manager.log = s.manager.log) (hlines : s'.lines = s.lines ++ lines) :
    Advances s s' lines :=
  ⟨hlog ▸ List.prefix_rfl, hlines⟩

theorem Grows.advances {s : Session} {r : Except Manager Manager}
    (h : Grows s.manager (outcome r)) : Advances s (finish r) [] := by
  rw [← finish_manager] at h
  refine ⟨h.log, ?_⟩
  rw [Session.lines, h.processor, List.append_nil]
  rfl

theorem advances_action (s : Session) (a : Action) :
    Advances s (finish (onRecordProcessorAction a s.manager)) (stepLines s (.event (.action a))) := by
  obtain ⟨hlog, hprocessor⟩ := onRecordProcessorAction_grows a s.manager
  rw [← finish_manager] at hlog hprocessor
  refine ⟨hlog, ?_⟩
  rw [Session.lines, hprocessor]
  cases a with
  | initialization shardId | shutdown reason =>
      simp only [Action.apply, ite_self, stepLines, List.append_nil]
      rfl
  | processRecords input =>
      cases input with
      | none =>
          simp only [Action.apply, processRecords, ite_self, stepLines, List.append_nil]
          rfl
      | some records =>
          have hbatch : stepLines s (.event (.action (.processRecords (some records)))) =
              if (s.manager.state.handle (Action.processRecords (some records)).type.beginInput).2 then
                (records.map Record.payload).flatMap (payloadLines s.manager.processor.map)
              else [] := rfl
          rw [hbatch]
          split
          · exact processRecords_lines records s.manager.processor
          · rw [List.append_nil]
            rfl

theorem advances_cutShort (s : Session) (records : List Record) :
    Advances s (finish (cutShort records s.manager)) (batchLines s records) := by
  simp only [cutShort, handleStateInput, batchLines]
  cases hvalid : (s.manager.state.handle .beginProcessRecords).2 with
  | false => exact .of_log_eq rfl (List.append_nil _).symm
  | true => exact .of_log_eq rfl (foldl_processRecord_lines records _)

theorem advances_react {s s' : Session} {l : Line} (h : l.react s = some s') :
    Advances s s' (stepLines s l) := by
  cases l with
  | noAction =>
      obtain rfl := Option.some.inj h
      exact .of_log_eq rfl (List.append_nil _).symm
  | unreadable =>
      obtain rfl := Option.some.inj h
      exact .of_log_eq rfl (List.append_nil _).symm
  | cutShort records =>
      obtain rfl := Option.some.inj h
      exact advances_cutShort s records
  | event e =>
      cases e with
      | action a =>
          obtain rfl := Option.some.inj h
          exact advances_action s a
      | response error checkpoint =>
          obtain rfl := Option.some.inj h
          exact (grows_onCheckpointAction error checkpoint s.manager).advances
      | closed =>
          obtain rfl := Option.some.inj h
          exact Grows.advances (kept_grows.onActionEnd s.manager)
      | settle i result =>
          obtain ⟨p, hp, rfl⟩ := Option.map_eq_some_iff.mp h
          obtain ⟨w, hw, rfl⟩ := Option.map_eq_some_iff.mp hp
          obtain ⟨n, obs, hpull, hlines⟩ := settle_lines hw
          cases result with
          | error reason =>
              refine .of_log_eq rfl ?_
              simp only [stepLines, hpull, resultLines, List.append_nil]
              rfl
          | ok newMap =>
              refine .of_log_eq rfl ?_
              simp only [stepLines, hpull]
              exact hlines
      | refreshed result =>
          obtain ⟨p, hp, rfl⟩ := Option.map_eq_some_iff.mp h
          obtain ⟨-, rfl⟩ := refreshed_step hp
          cases result <;> exact .of_log_eq rfl (List.append_nil _).symm

theorem eq_of_mem_stepLines {s : Session} {l : Line} {line : String} (h : line ∈ stepLines s l) :
    line = "in format_obs" := by
  have hbatch : ∀ records, line ∈ batchLines s records → line = "in format_obs" := by
    intro records hmem
    unfold batchLines at hmem
    split at hmem
    · obtain ⟨payload, -, hline⟩ := List.mem_flatMap.mp hmem
      cases payload with
      | none => exact absurd hline List.not_mem_nil
      | some obs => exact eq_of_mem_linesFor hline
    · exact absurd hmem List.not_mem_nil
  unfold stepLines at h
  split at h
  · exact hbatch _ h
  · exact hbatch _ h
  · split at h
    · exact absurd h List.not_mem_nil
    · rename_i i result _ n obs _
      cases result with
      | error reason => exact absurd h List.not_mem_nil
      | ok newMap => exact eq_of_mem_linesFor h
  · exact absurd h List.not_mem_nil

theorem batchLines_eq_nil_iff (s : Session) (records : List Record) :
    batchLines s records = [] ↔ QuietBatch s records := by
  unfold batchLines QuietBatch
  split
  · rename_i hvalid
    rw [List.flatMap_eq_nil_iff, List.forall_mem_map]
    simp only [hvalid, forall_const]
    refine forall_congr' fun r => forall_congr' fun _ => ?_
    cases hpayload : r.payload with
    | none => simp [payloadLines]
    | some obs => simp [payloadLines, linesFor_eq_nil_iff]
  · rename_i hvalid
    exact iff_of_true rfl fun h => absurd h hvalid

/-- A quiet step prints nothing. -/
theorem stepLines_eq_nil_iff (s : Session) (l : Line) : stepLines s l = [] ↔ Quiet s l := by
  cases l with
  | noAction | unreadable => exact iff_of_true rfl trivial
  | cutShort records => exact batchLines_eq_nil_iff s records
  | event e =>
      cases e with
      | response | closed | refreshed => exact iff_of_true rfl trivial
      | action a =>
          cases a with
          | initialization | shutdown => exact iff_of_true rfl trivial
          | processRecords input =>
              cases input with
              | none => exact iff_of_true rfl trivial
              | some records => exact batchLines_eq_nil_iff s records
      | settle i result =>
          cases result with
          | error reason =>
              refine iff_of_true ?_ trivial
              simp only [stepLines]
              split <;> rfl
          | ok newMap =>
              simp only [stepLines, Quiet]
              cases hpull : s.manager.processor.world.pulls[i]? with
              | none => simp
              | some pull =>
                  obtain ⟨n, obs⟩ := pull
                  simp only [resultLines, linesFor_eq_nil_iff, Option.some.injEq, Prod.mk.injEq]
                  refine ⟨?_, fun hall => hall n obs ⟨rfl, rfl⟩⟩
                  rintro hobs _ _ ⟨rfl, rfl⟩
                  exact hobs

/-- What was printed and what was sent has been written, and nothing else. -/
structure Written (c : Console) : Prop where
  logged : ∀ line, .log line ∈ c.stdout ↔ line ∈ c.session.lines
  printed : ∀ line ∈ c.session.lines, line = "in format_obs"
  sent : ∀ m, .message m ∈ c.stdout → .sent m ∈ c.session.manager.log

theorem mem_written {s s' : Session} {lines : List String} (h : Advances s s' lines) :
    (∀ line, .log line ∈ written s s' ↔ line ∈ lines) ∧
      ∀ m, .message m ∈ written s s' → .sent m ∈ s'.manager.log := by
  have hlines : s'.lines.drop s.lines.length = lines := by rw [h.lines, List.drop_left]
  refine ⟨?_, ?_⟩
  · intro line
    rw [written, hlines, List.mem_append]
    refine ⟨?_, fun hline => .inl (List.mem_map_of_mem hline)⟩
    rintro (hmem | hmem)
    · obtain ⟨line', hline, heq⟩ := List.mem_map.mp hmem
      obtain rfl := Write.log.inj heq
      exact hline
    · obtain ⟨m, -, hm⟩ := List.mem_map.mp hmem
      cases hm
  · intro m hm
    rcases List.mem_append.mp hm with hm | hm
    · obtain ⟨line, -, hline⟩ := List.mem_map.mp hm
      cases hline
    · obtain ⟨m', hm', heq⟩ := List.mem_map.mp hm
      obtain rfl := Write.message.inj heq
      obtain ⟨entry, hentry, hsent⟩ := List.mem_filterMap.mp (List.mem_of_mem_drop hm')
      unfold Entry.message? at hsent
      split at hsent
      · obtain rfl := Option.some.inj hsent
        exact hentry
      · cases hsent

/-- A step of the console writes what the step of its session adds. -/
theorem console_step {c c' : Console} {l : Line} (h : console.step c l = some c') :
    l.react c.session = some c'.session ∧ c'.stdout = c.stdout ++ written c.session c'.session := by
  obtain ⟨-, h⟩ := Option.ite_none_right_eq_some.mp h
  obtain ⟨s, hs, rfl⟩ := Option.map_eq_some_iff.mp h
  exact ⟨hs, rfl⟩

theorem written_run {tr : List (Console × Line)} {c : Console} (h : console.Run tr c) :
    Written c := by
  refine h.invariant (fun _ c => Written c) ?_ ?_
  · refine ⟨?_, ?_, ?_⟩ <;> simp [console, Session.lines, linesOf, Manager.initial,
      Processor.initial, World.initial]
  · intro tr c l c' _ hc hs
    obtain ⟨hreact, hstdout⟩ := console_step hs
    have hadvances := advances_react hreact
    obtain ⟨hlog, hmessage⟩ := mem_written hadvances
    refine ⟨?_, ?_, ?_⟩
    · intro line
      rw [hstdout, List.mem_append, hc.logged, hlog, hadvances.lines, List.mem_append]
    · intro line hline
      rw [hadvances.lines, List.mem_append] at hline
      rcases hline with hline | hline
      · exact hc.printed line hline
      · exact eq_of_mem_stepLines hline
    · intro m hm
      rw [hstdout, List.mem_append] at hm
      rcases hm with hm | hm
      · exact hadvances.log.subset (hc.sent m hm)
      · exact hmessage m hm

theorem Written.one_line {c : Console} (h : Written c) : ∀ w ∈ c.stdout, '\n' ∉ w.line := by
  intro w hw
  cases w with
  | log line =>
      rw [h.printed line ((h.logged line).mp hw)]
      decide
  | message m => exact newline_not_mem_message m

/-- When the mapper has printed nothing, there is nothing but messages. -/
theorem onlyMessages_iff {c : Console} (h : Written c) : OnlyMessages c ↔ c.session.lines = [] := by
  refine ⟨OnlyMessages.silent, ?_⟩
  intro hsilent
  refine ⟨?_, hsilent⟩
  intro line hmem hne
  obtain ⟨w, hw, rfl⟩ := (mem_lines_iff hne h.one_line).mp hmem
  cases w with
  | log line =>
      have hprinted := (h.logged line).mp hw
      rw [hsilent] at hprinted
      exact absurd hprinted List.not_mem_nil
  | message m => exact ⟨m, h.sent m hw, by simp [Write.line, JsonText.stringify]⟩

/-- Over every run: only messages go to standard output exactly when no observation
that a step handles passes the check. -/
theorem stdout_messages_iff {tr : List (Console × Line)} {c : Console} (h : console.Run tr c) :
    console.Always (fun _ c => OnlyMessages c) tr ↔ ∀ x ∈ tr, Quiet x.1.session x.2 := by
  refine h.always_iff (fun _ c => OnlyMessages c) (fun c l => Quiet c.session l) ?_ ?_
  · exact (onlyMessages_iff (written_run .nil)).mpr rfl
  · intro tr c l c' hrun hall hs
    have hlines := (advances_react (console_step hs).1).lines
    rw [onlyMessages_iff (written_run (hrun.snoc hs)), hlines, (hall.last hrun).silent,
      List.nil_append, stepLines_eq_nil_iff]

/-- One observation of a sensor that is not in the cached map, up to the end of its pull. -/
def oneObservation (result : Except String SensorMap) : List Line :=
  [.event (.action (.initialization "shardId-0")),
    .event (.action (.processRecords (some [⟨some tmp112Obs, some "1"⟩]))),
    .event (.response (.json .null) (.json (.str "1"))), .event (.settle 0 result)]

/-- The pull fails. -/
theorem stdout_messages_no_map :
    ∃ tr c, console.Run tr c ∧ tr.map Prod.snd = oneObservation (.error "timeout") ∧
      c.session.messages = [.status .initialization, .checkpoint (some "1"), .status .processRecords] ∧
      console.Always (fun _ c => OnlyMessages c) tr := by
  have hrun := System.Run.nil.exec (S := console) (oneObservation (.error "timeout")) rfl
  refine ⟨_, _, hrun, rfl, rfl, (stdout_messages_iff hrun).mpr ?_⟩
  intro x hx
  simp only [List.nil_append, List.mem_cons, List.not_mem_nil, or_false] at hx
  rcases hx with rfl | rfl | rfl | rfl
  · trivial
  · intro _ r hr obs hobs
    obtain rfl := List.mem_singleton.mp hr
    obtain rfl := Option.some.inj hobs
    exact fun hcheck => Bool.noConfusion (Except.ok.inj hcheck)
  · trivial
  · trivial

/-- The pull succeeds, and its continuation prints a line. -/
theorem stdout_line_of_format_obs :
    ∃ tr c, console.Run tr c ∧ tr.map Prod.snd = oneObservation (.ok tmp112Map) ∧
      "in format_obs".toList ∈ (c.stdout.flatMap Write.text).splitOn '\n' ∧
      ¬ console.Always (fun _ c => OnlyMessages c) tr := by
  have hrun := System.Run.nil.exec (S := console) (oneObservation (.ok tmp112Map)) rfl
  have hwritten := written_run hrun
  have hlog := (hwritten.logged "in format_obs").mpr (List.mem_singleton_self _)
  have hline := (mem_lines_iff (by decide) hwritten.one_line).mpr ⟨_, hlog, rfl⟩
  refine ⟨_, _, hrun, rfl, hline, ?_⟩
  intro hall
  obtain ⟨m, -, hm⟩ := (hall.last hrun).lines _ hline (by decide)
  have hhead := message_head m
  rw [JsonText.stringify, String.toList_ofList] at hm
  rw [← hm] at hhead
  exact absurd hhead (by decide)

end PlenarioStream.Kcl

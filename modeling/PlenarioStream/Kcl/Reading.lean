import PlenarioStream.Kcl.Lives

/-!
What the texts on standard input are to the client on lines. Every run of the client on its
streams is one of the console on the readings of its texts, with the same output, up to the
write that fails, as long as the client checkpoints at sequence numbers that are texts.
-/
namespace PlenarioStream.Kcl.Text
open Js Consumer Transition Library

section
variable (parse : String → Option Json) (lossy : List UInt8 → String)
  (buffer : Json → Option (List UInt8))

/-- The last sequence number of the batch is a text, if it is anything. -/
def plainBatch (shardId : Value) (records : Json) : Bool :=
  match readRecords parse lossy buffer shardId records 0 (elements records) with
  | (handled, true) =>
      handled.getLast?.all fun last => (textOnly last.2).isSome || !last.2.truthy
  | (_, false) => true

def Input.plain (shardId : Value) : Input → Bool
  | line text _ =>
      (parse text).all fun action =>
        match (cloneToInput action).get "records" with
        | .json records => plainBatch parse lossy buffer shardId records
        | _ => true
  | _ => true

end

/-- The manager on texts has sent the same messages as the one on lines. -/
structure Heard (d : Kcl.Manager) (k : Manager) : Prop where
  core : d.toCore = k.toCore
  processor : k.processor = d.processor
  shardId : k.shardId.toText = d.shardId.getD "undefined"
  sent : k.sent = (d.log.filterMap Entry.message?).map (.map textOrNull)

/-- The client on its streams as the console, up to the write that fails. -/
structure Simulates (c : Client) (d : Console) : Prop where
  stdout : c.stdout = d.stdout.map Write.text
  heard : c.failed = false → Heard d.session.manager c.manager ∧ c.crashed = d.session.crashed
  failed : c.failed = true → c.crashed = true ∧ d.session.crashed = false ∧
    c.manager.sent = d.session.messages.map (.map textOrNull)

theorem heard_initial : Heard .initial .initial := ⟨rfl, rfl, rfl, rfl⟩

theorem simulation_heard : Simulation Heard where
  core h := h.core
  setCore _ h := ⟨rfl, h.processor, h.shardId, h.sent⟩

section
variable {d : Kcl.Manager} {k : Manager}

/-- Entries that are no messages make no difference. -/
theorem Heard.skip (h : Heard d k) {e : Entry} (he : e.message? = none) :
    Heard { d with log := d.log ++ [e] } k := by
  refine ⟨h.core, h.processor, h.shardId, ?_⟩
  rw [message?_concat _ he]
  exact h.sent

theorem Heard.send (h : Heard d k) (m : Message) : Heard (d.send m) (k.send (.map textOrNull m)) := by
  refine ⟨h.core, h.processor, h.shardId, ?_⟩
  rw [Manager.send, h.sent, Kcl.Manager.send, List.filterMap_append, List.map_append]
  rfl

theorem recordProcessorCallback_heard (h : Heard d k) (type : ActionType) :
    Both Heard (Kcl.recordProcessorCallback type d) (recordProcessorCallback true type k) :=
  simulation_heard.recordProcessorCallback h fun h => h.send (.status type)

theorem checkpointCallback_heard (h : Heard d k) (checkpoint : Value) (type : ActionType) :
    Both Heard (checkpointCallback Kcl.recordProcessorCallback checkpoint type d)
      (checkpointCallback (recordProcessorCallback true) checkpoint type k) := by
  unfold checkpointCallback
  split
  · exact h
  · exact recordProcessorCallback_heard h _

theorem checkpoint_heard (h : Heard d k) (sequenceNumber : Option String) (type : ActionType) :
    Both Heard (Kcl.checkpoint sequenceNumber type d)
      (checkpoint true (textOrNull sequenceNumber) type k) :=
  simulation_heard.checkpoint h (fun h => h.send (.checkpoint sequenceNumber))
    fun h => checkpointCallback_heard h _ type

theorem onCheckpointAction_heard (h : Heard d k) (error checkpoint : Value) :
    Both Heard (Kcl.onCheckpointAction error checkpoint d) (onCheckpointAction true checkpoint k) :=
  simulation_heard.onCheckpointAction (h.skip rfl) fun type h => checkpointCallback_heard h _ type

end

section
variable {parse : String → Option Json} {lossy : List UInt8 → String}
  {buffer : Json → Option (List UInt8)}

variable (parse lossy buffer) in
theorem readRecords_textOnly (shardId : Value) (records : Json) (i : Nat) (elems : List Json) :
    ∀ x ∈ (readRecords parse lossy buffer shardId records i elems).1,
      x.1.sequenceNumber = textOnly x.2 := by
  induction elems generalizing i with
  | nil =>
      rw [readRecords]
      split <;> exact fun x hx => absurd hx List.not_mem_nil
  | cons record rest ih =>
      rw [readRecords]
      split
      · exact fun x hx => absurd hx List.not_mem_nil
      · exact fun x hx => absurd hx List.not_mem_nil
      · split
        · exact fun x hx => absurd hx List.not_mem_nil
        · split
          · intro x hx
            rcases List.mem_cons.mp hx with rfl | hx
            · rfl
            · exact ih _ x hx
          · intro x hx
            obtain rfl := List.mem_singleton.mp hx
            rfl

variable {d : Kcl.Manager} {k : Manager}

/-- What is checkpointed after the records, by either record processor. -/
theorem last_heard {handled : List (Record × Value)}
    (htext : ∀ x ∈ handled, x.1.sequenceNumber = textOnly x.2)
    (hplain : handled.getLast?.all (fun last => (textOnly last.2).isSome || !last.2.truthy) = true) :
    (∃ s, checkpointAt (handled.map Prod.fst) = some s ∧ s ≠ "" ∧
        (handled.getLast?.map Prod.snd).getD .undefined = .json (.str s)) ∨
      (checkpointAt (handled.map Prod.fst) = none ∧
        ((handled.getLast?.map Prod.snd).getD .undefined).truthy = false) := by
  rw [checkpointAt, List.getLast?_map]
  cases hlast : handled.getLast? with
  | none => exact .inr ⟨rfl, rfl⟩
  | some x =>
      rw [hlast, Option.all_some, Bool.or_eq_true, Bool.not_eq_true'] at hplain
      have hx := htext x (List.mem_of_getLast? hlast)
      simp only [Option.map_some, Option.bind_some, Option.getD_some, hx]
      cases hsome : textOnly x.2 with
      | none =>
          rw [hsome] at hplain
          exact .inr ⟨rfl, hplain.resolve_left Bool.noConfusion⟩
      | some s =>
          have hvalue : x.2 = .json (.str s) := by
            unfold textOnly at hsome
            split at hsome
            · rename_i hv
              rw [hv, Option.some.inj hsome]
            · cases hsome
          rw [hvalue]
          by_cases hs : s = ""
          · subst hs
            exact .inr ⟨rfl, rfl⟩
          · exact .inl ⟨s, by simp [hs], hs, rfl⟩

theorem processRecords_heard (h : Heard d k) (records : Json)
    (hplain : plainBatch parse lossy buffer k.shardId records = true) :
    (∃ batch, readBatch parse lossy buffer k.shardId records =
        .event (.action (.processRecords (some batch))) ∧
      Both Heard (Kcl.recordProcessor (.processRecords (some batch)) d)
        (processRecords parse lossy buffer true records k)) ∨
    (∃ batch, readBatch parse lossy buffer k.shardId records = .cutShort batch ∧
      Both Heard (.error { d with processor := batch.foldl processRecord d.processor })
        (processRecords parse lossy buffer true records k)) := by
  have htext := readRecords_textOnly parse lossy buffer k.shardId records 0 (elements records)
  simp only [plainBatch] at hplain
  simp only [readBatch, processRecords, processLoop_eq]
  cases hread : readRecords parse lossy buffer k.shardId records 0 (elements records) with
  | mk handled ended =>
      rw [hread] at htext hplain
      have hfold : Heard { d with processor := (handled.map Prod.fst).foldl processRecord d.processor }
          { k with processor := (handled.map Prod.fst).foldl processRecord k.processor } :=
        ⟨h.core, by rw [h.processor], h.shardId, h.sent⟩
      cases ended with
      | false => exact .inr ⟨_, rfl, hfold⟩
      | true =>
          refine .inl ⟨_, rfl, ?_⟩
          simp only [Kcl.recordProcessor, Consumer.processRecords, Option.bind_some]
          rcases last_heard htext hplain with ⟨s, hat, hne, hlast⟩ | ⟨hat, hlast⟩
          · have htruthy : (Json.str s).truthy = true := by simpa [Json.truthy] using hne
            simp only [hat, hlast, htruthy, if_true]
            refine checkpoint_heard ?_ (some s) .processRecords
            exact ⟨h.core, by rw [h.processor]; rfl, h.shardId, h.sent⟩
          · have hkept : Heard { d with processor :=
                  { (handled.map Prod.fst).foldl processRecord d.processor with
                    checkpoints := ((handled.map Prod.fst).foldl processRecord d.processor).checkpoints ++
                      [] } }
                { k with processor := (handled.map Prod.fst).foldl processRecord k.processor } :=
              ⟨h.core, by rw [List.append_nil, h.processor], h.shardId, h.sent⟩
            simp only [hat, Option.toList_none]
            have hcomplete := recordProcessorCallback_heard hkept .processRecords
            cases hv : (handled.getLast?.map Prod.snd).getD .undefined with
            | json q =>
                rw [hv] at hlast
                have hfalsy : q.truthy = false := hlast
                simp only [hfalsy, Bool.false_eq_true, if_false]
                exact hcomplete
            | undefined | builtin _ => exact hcomplete

/-- The action begins for both managers, or for none. -/
theorem begin_heard (h : Heard d k) (type : ActionType) {f : Kcl.Manager → Except Kcl.Manager Kcl.Manager}
    {g : Manager → Except Manager Manager}
    (hf : ∀ {d' k'}, Heard d' k' → k'.shardId = k.shardId → Both Heard (f d') (g k')) :
    Both Heard (handleStateInput type.beginInput d >>= f)
      (Library.onRecordProcessorAction g type k) := by
  have hcore : core d = core k := h.core
  rw [Library.onRecordProcessorAction]
  cases hhandle : (core k).state.handle type.beginInput with
  | mk state valid =>
      cases valid with
      | true =>
          rw [handleStateInput_ok hhandle, handleStateInput_ok (hcore ▸ hhandle), hcore]
          exact hf (simulation_heard.setCore _ h) rfl
      | false =>
          rw [handleStateInput_error hhandle, handleStateInput_error (hcore ▸ hhandle), hcore]
          exact simulation_heard.setCore _ h

theorem onRecordProcessorAction_heard {s : Session} (h : Heard s.manager k) (type : ActionType)
    (input : Js.Object)
    (hplain : ∀ records, input.get "records" = .json records →
      plainBatch parse lossy buffer k.shardId records = true) :
    ∃ r, (readAction parse lossy buffer k.shardId type input).react s = some (finish r) ∧
      Both Heard r (Library.onRecordProcessorAction
        (recordProcessor parse lossy buffer true type input) type k) := by
  have hwith : ∀ a : Action, a.type = type →
      (∀ {d' k'}, Heard d' k' → k'.shardId = k.shardId → Both Heard (Kcl.recordProcessor a d')
        (recordProcessor parse lossy buffer true type input k')) →
      Both Heard (Kcl.onRecordProcessorAction a s.manager) (Library.onRecordProcessorAction
        (recordProcessor parse lossy buffer true type input) type k) := by
    rintro a rfl hsame
    exact begin_heard (h.skip (e := .received a) rfl) a.type hsame
  cases type with
  | initialization =>
      refine ⟨_, rfl, hwith _ rfl fun {d' k'} h _ => ?_⟩
      exact recordProcessorCallback_heard
        (d := { d' with shardId := some (input.get "shardId").toText })
        (k := { k' with shardId := input.get "shardId" }) ⟨h.core, h.processor, rfl, h.sent⟩
        .initialization
  | processRecords =>
      have hnone : (∀ k', recordProcessor parse lossy buffer true .processRecords input k' =
            recordProcessorCallback true .processRecords k') →
          Both Heard (Kcl.onRecordProcessorAction (.processRecords none) s.manager)
            (Library.onRecordProcessorAction
              (recordProcessor parse lossy buffer true .processRecords input) .processRecords k) := by
        intro hcomplete
        refine hwith (.processRecords none) rfl fun h _ => ?_
        rw [hcomplete]
        exact recordProcessorCallback_heard h .processRecords
      rw [readAction]
      cases hinput : input.get "records" with
      | json records =>
          simp only
          by_cases htruthy : records.truthy = true
          · have hprocess : ∀ k', recordProcessor parse lossy buffer true .processRecords input k' =
                processRecords parse lossy buffer true records k' := by
              intro k'
              simp only [recordProcessor, hinput, if_pos htruthy]
            rw [if_pos htruthy]
            have hbatch := hplain records hinput
            rcases processRecords_heard h records hbatch with ⟨batch, hline, -⟩ | ⟨batch, hline, -⟩
            · rw [hline]
              refine ⟨_, rfl, hwith _ rfl fun {d' k'} h' hshard => ?_⟩
              rw [← hshard] at hline hbatch
              rw [hprocess]
              rcases processRecords_heard h' records hbatch with ⟨again, hagain, hboth⟩ |
                ⟨again, hagain, -⟩
              · obtain rfl : again = batch := by simpa using hagain.symm.trans hline
                exact hboth
              · cases hagain.symm.trans hline
            · rw [hline]
              refine ⟨_, rfl, begin_heard h .processRecords fun {d' k'} h' hshard => ?_⟩
              rw [← hshard] at hline hbatch
              rw [hprocess]
              rcases processRecords_heard h' records hbatch with ⟨again, hagain, -⟩ |
                ⟨again, hagain, hboth⟩
              · cases hagain.symm.trans hline
              · obtain rfl : again = batch := by simpa using hagain.symm.trans hline
                exact hboth
          · rw [if_neg htruthy]
            refine ⟨_, rfl, hnone fun k' => ?_⟩
            simp only [recordProcessor, hinput, if_neg htruthy]
      | undefined | builtin _ =>
          refine ⟨_, rfl, hnone fun k' => ?_⟩
          simp only [recordProcessor, hinput]
  | shutdown =>
      refine ⟨_, rfl, hwith _ rfl fun h _ => ?_⟩
      simp only [Kcl.recordProcessor, recordProcessor]
      split
      · exact checkpoint_heard h none .shutdown
      · exact recordProcessorCallback_heard h .shutdown

/-- What a line does to a session, if there is anything on it. -/
def advance (l : Option Line) (s : Session) : Option Session :=
  match l with
  | none => some s
  | some l => l.react s

theorem readJson_heard {s : Session} (h : Heard s.manager k) (action : Json)
    (hplain : ∀ records, (cloneToInput action).get "records" = .json records →
      plainBatch parse lossy buffer k.shardId records = true) :
    ∃ r, (readJson parse lossy buffer k.shardId action).react s = some (finish r) ∧
      Both Heard r (onAction parse lossy buffer true action k) := by
  have hunreadable : ∃ r, Line.unreadable.react s = some (finish r) ∧ Both Heard r (.error k) :=
    ⟨.error s.manager, rfl, h⟩
  simp only [readJson, onAction]
  cases (Value.json action).read "action" with
  | json j =>
      cases j with
      | str actionType =>
          simp only
          cases ActionType.ofName actionType with
          | some type => exact onRecordProcessorAction_heard h type _ hplain
          | none =>
              simp only
              by_cases hcheckpoint : actionType = "checkpoint"
              · rw [if_pos hcheckpoint, if_pos hcheckpoint]
                exact ⟨_, rfl, onCheckpointAction_heard h _ _⟩
              · rw [if_neg hcheckpoint, if_neg hcheckpoint]
                exact hunreadable
      | _ => exact hunreadable
  | _ => exact hunreadable

theorem onIOLine_heard {text : String} {room : Bool} {s : Session} (halive : s.crashed = false)
    (h : Heard s.manager k)
    (hplain : (Input.line text room).plain parse lossy buffer k.shardId = true) :
    ∃ r, advance (readLine parse lossy buffer k.shardId text) s = some (finish r) ∧
      Both Heard r (onIOLine parse lossy buffer true text k).1 := by
  have hsame : s = finish (.ok s.manager) := by
    rw [finish, ← halive]
  have hquiet : ∃ r, some s = some (finish r) ∧ Both Heard r (.ok k) :=
    ⟨.ok s.manager, congrArg some hsame, h⟩
  rw [readLine, onIOLine]
  by_cases hempty : text = ""
  · rw [if_pos hempty, if_pos hempty]
    exact hquiet
  · rw [if_neg hempty, if_neg hempty]
    cases hparse : parse text with
    | none => exact ⟨.error s.manager, rfl, h⟩
    | some action =>
        simp only
        by_cases haction :
            (!action.truthy || !((Value.json action).read "action").truthy) = true
        · rw [if_pos haction, if_pos haction]
          exact hquiet
        · rw [if_neg haction, if_neg haction]
          refine readJson_heard h action fun records hrecords => ?_
          rw [Input.plain, hparse, Option.all_some, hrecords] at hplain
          exact hplain

/-- A step of the client is one of the console, or none when there is nothing to read. -/
def Steps (l : Option Line) (d d' : Console) : Prop :=
  match l with
  | none => d' = d
  | some l => console.step d l = some d'

def Console.advance (d : Console) (s : Session) : Console := ⟨s, d.stdout ++ Kcl.written d.session s⟩

theorem steps_of_advance {d : Console} {l : Option Line} {s : Session}
    (halive : d.session.crashed = false)
    (hopen : d.session.manager.destroyed = false ∨ ∀ line ∈ l, line.isPull = true)
    (h : Text.advance l d.session = some s) : Steps l d (Console.advance d s) := by
  cases l with
  | none =>
      obtain rfl := Option.some.inj h
      simp [Steps, Console.advance, Kcl.written]
  | some l =>
      have hguard : (!d.session.crashed && (l.isPull || !d.session.manager.destroyed)) = true := by
        rw [halive]
        cases hopen with
        | inl hopen => simp [hopen]
        | inr hpull => simp [hpull l rfl]
      have hreact : l.react d.session = some s := h
      simp only [Steps, console, hguard, if_true, hreact, Option.map_some]
      rfl

theorem messageText (m : Message) :
    '\n' :: (JsonText.write ((Message.map textOrNull m).toJson id) ++ ['\n']) =
      (Write.message m).text := by
  rw [Message.toJson_map]
  rfl

/-- The same is written when the same is printed and sent. -/
theorem written_heard {s t : Session} {k l : Manager}
    (hprocessor : k.processor = s.manager.processor) (hprocessor' : l.processor = t.manager.processor)
    (hsent : k.sent = s.messages.map (.map textOrNull))
    (hsent' : l.sent = t.messages.map (.map textOrNull)) :
    written k l = (Kcl.written s t).map Write.text := by
  rw [written, Kcl.written, List.map_append, List.map_map, List.map_map, hprocessor, hprocessor',
    hsent, hsent', List.length_map, ← List.map_drop, List.map_map]
  congr 1
  refine List.map_congr_left fun m _ => ?_
  exact messageText m

/-- The client has gone on as the console has. -/
theorem Simulates.advance {c : Client} {d : Console} (h : Simulates c d) (hfailed : c.failed = false)
    {r : Except Kcl.Manager Kcl.Manager} {r' : Except Manager Manager} (hr : Both Heard r r')
    (errors : List String) : Simulates (c.write r' errors false) (Console.advance d (finish r)) := by
  have hheard := (h.heard hfailed).1
  have houtcome : Heard (finish r).manager (outcome r') ∧ (!r'.isOk) = (finish r).crashed := by
    cases r <;> cases r' <;> first | exact ⟨hr, rfl⟩ | exact hr.elim
  refine ⟨?_, fun _ => houtcome, fun hno => Bool.noConfusion hno⟩
  rw [Client.write, Console.advance, List.map_append, ← h.stdout]
  exact congrArg _ (written_heard hheard.processor houtcome.1.processor hheard.sent houtcome.1.sent)

/-- The message that there was no room for is on standard output, and the client has thrown. -/
theorem Simulates.refuse {c : Client} {d : Console} (h : Simulates c d) (hfailed : c.failed = false)
    {d' : Kcl.Manager} {k : Manager} (hk : Heard d' k) (errors : List String) :
    Simulates (c.write (.error { k with state := .error, destroyed := true }) errors true)
      (Console.advance d (finish (.ok d'))) := by
  have hheard := (h.heard hfailed).1
  refine ⟨?_, fun hno => Bool.noConfusion hno, fun _ => ⟨rfl, rfl, hk.sent⟩⟩
  rw [Client.write, Console.advance, List.map_append, ← h.stdout]
  exact congrArg _ (written_heard (t := finish (.ok d'))
    (l := { k with state := .error, destroyed := true }) hheard.processor hk.processor hheard.sent hk.sent)

section
variable {c c' : Client} {d : Console} {i : Input}

theorem line_step {text : String} {room : Bool} (h : Simulates c d) (hfailed : c.failed = false)
    (hspoken : Spoken c.manager) (halive : d.session.crashed = false)
    (hopen : c.manager.destroyed = false)
    (hplain : (Input.line text room).plain parse lossy buffer c.manager.shardId = true)
    (errors : List String) :
    ∃ d', Steps (readLine parse lossy buffer c.manager.shardId text) d d' ∧
      Simulates (c.write (onIOLine parse lossy buffer room text c.manager).1 errors
        (refused room c.manager (outcome (onIOLine parse lossy buffer room text c.manager).1))) d' := by
  have hheard := (h.heard hfailed).1
  have hdopen : d.session.manager.destroyed = false := by
    rw [hheard.core]
    exact hopen
  obtain ⟨r, hadvance, hr⟩ := onIOLine_heard halive hheard hplain
  refine ⟨Console.advance d (finish r), steps_of_advance halive (.inl hdopen) hadvance, ?_⟩
  have hquiet : (∀ room, (onIOLine parse lossy buffer room text c.manager).1 =
        (onIOLine parse lossy buffer true text c.manager).1) →
      (outcome (onIOLine parse lossy buffer true text c.manager).1).sent = c.manager.sent →
      Simulates (c.write (onIOLine parse lossy buffer room text c.manager).1 errors
        (refused room c.manager (outcome (onIOLine parse lossy buffer room text c.manager).1)))
        (Console.advance d (finish r)) := by
    intro hroom hsent
    have hrefused : refused room c.manager
        (outcome (onIOLine parse lossy buffer true text c.manager).1) = false := by
      simp [refused, hsent]
    rw [hroom, hrefused]
    exact h.advance hfailed hr errors
  have htakes := onIOLine_takes parse lossy buffer hspoken text
  generalize readLine parse lossy buffer c.manager.shardId text = l at htakes
  cases htakes with
  | quiet l hl hk => exact hquiet (fun room => (hk room).trans (hk true).symm) (by rw [hk true]; rfl)
  | comes l hcomes =>
      cases hcalled : calledFor c.manager.sent.getLast? l with
      | false =>
          rw [hcalled] at hcomes
          obtain ⟨k', hsent, hthrown⟩ := hcomes
          have herror : (onIOLine parse lossy buffer true text c.manager).1 = .error k' := hthrown true
          refine hquiet (fun room => (hthrown room).trans herror.symm) ?_
          rw [herror]
          exact hsent
      | true =>
          rw [hcalled] at hcomes
          obtain ⟨m, k', hsent, hnext, hanswered⟩ := hcomes
          have hok : (onIOLine parse lossy buffer true text c.manager).1 = .ok (k'.send m) :=
            hanswered true
          cases room with
          | true =>
              rw [hok]
              rw [hok] at hr
              exact h.advance hfailed hr errors
          | false =>
              have hrefused : (onIOLine parse lossy buffer false text c.manager).1 =
                  .error { k'.send m with state := .error, destroyed := true } :=
                (hanswered false).trans hnext.error
              have hsends : refused false c.manager
                  (outcome (.error { k'.send m with state := .error, destroyed := true })) = true := by
                simp [refused, outcome, Manager.send, hsent]
              rw [hok] at hr
              rw [hrefused, hsends]
              cases r with
              | error d' => exact hr.elim
              | ok d' => exact h.refuse hfailed hr errors

theorem pull_step {e : Event} {result : Except String SensorMap} (h : Simulates c d)
    (hfailed : c.failed = false) (halive : d.session.crashed = false) (he : e.isPull = true)
    {pe : Consumer.Event}
    (hreact : Kcl.react d.session e =
      (processor.step d.session.manager.processor pe).map (d.session.pulled result))
    (hs : (processor.step c.manager.processor pe).map (c.pulled result) = some c') :
    ∃ d', Steps (some (.event e)) d d' ∧ Simulates c' d' := by
  obtain ⟨p, hp, rfl⟩ := Option.map_eq_some_iff.mp hs
  have hheard := (h.heard hfailed).1
  rw [hheard.processor] at hp
  rw [hp, Option.map_some] at hreact
  have hpull : ∀ line ∈ some (Line.event e), line.isPull = true := by
    intro line hline
    rw [← Option.some.inj hline]
    exact he
  cases result with
  | ok newMap =>
      have hset : d.session.pulled (.ok newMap) p =
          finish (.ok { d.session.manager with processor := p }) := by
        rw [finish, ← halive]
        rfl
      rw [hset] at hreact
      refine ⟨_, steps_of_advance halive (.inr hpull) hreact, ?_⟩
      simp only [Client.pulled, Except.isOk, Except.toBool, if_true, hfailed]
      have hboth : Both Heard (.ok { d.session.manager with processor := p })
          (.ok { c.manager with processor := p }) :=
        ⟨hheard.core, rfl, hheard.shardId, hheard.sent⟩
      exact h.advance hfailed hboth []
  | error reason =>
      refine ⟨_, steps_of_advance halive (.inr hpull) hreact, ?_⟩
      simp only [Client.pulled, Except.isOk, Except.toBool, Bool.false_eq_true, if_false, hfailed]
      have hboth : Both Heard (.error d.session.manager) (.error c.manager) := hheard
      exact h.advance hfailed hboth []

/-- A write that ends with an error throws and puts out nothing. -/
theorem flush_step (h : Simulates c d) (hfailed : c.failed = false) (hspoken : Spoken c.manager)
    (halive : d.session.crashed = false) :
    Simulates (c.write (handleStateInput .error c.manager) [] true) d := by
  rw [hspoken.error]
  refine ⟨?_, fun hno => Bool.noConfusion hno, fun _ => ⟨rfl, halive, (h.heard hfailed).1.sent⟩⟩
  have hwritten : written c.manager
      (outcome (.error { c.manager with state := .error, destroyed := true })) = [] := by
    simp [written, outcome]
  rw [Client.write, hwritten, List.append_nil, h.stdout]

theorem client_step (h : Simulates c d) (hspoken : c.crashed = false → Spoken c.manager)
    (hplain : i.plain parse lossy buffer c.manager.shardId = true)
    (hs : (client parse lossy buffer).step c i = some c') :
    ∃ d', Steps (i.reading parse lossy buffer c.manager.shardId) d d' ∧ Simulates c' d' := by
  obtain ⟨hrunning, hs⟩ := Option.ite_none_left_eq_some.mp hs
  have hrunning : c.crashed = false := Bool.not_eq_true _ ▸ hrunning
  have hspoken := hspoken hrunning
  have hfailed : c.failed = false := by
    cases hfailed : c.failed with
    | false => rfl
    | true => exact absurd (hrunning.symm.trans (h.failed hfailed).1) Bool.noConfusion
  obtain ⟨hheard, hcrashed⟩ := h.heard hfailed
  have halive : d.session.crashed = false := hcrashed.symm.trans hrunning
  cases i with
  | line text room =>
      obtain ⟨hopen, hs⟩ := Option.ite_none_left_eq_some.mp hs
      obtain rfl := Option.some.inj hs
      exact line_step h hfailed hspoken halive (Bool.not_eq_true _ ▸ hopen) hplain _
  | closed =>
      obtain ⟨hopen, hs⟩ := Option.ite_none_left_eq_some.mp hs
      obtain rfl := Option.some.inj hs
      have hdopen : d.session.manager.destroyed = false := by
        rw [hheard.core]
        exact Bool.not_eq_true _ ▸ hopen
      refine ⟨_, steps_of_advance halive (.inl hdopen) rfl, ?_⟩
      rw [hfailed]
      exact h.advance hfailed (simulation_heard.onActionEnd hheard) []
  | flushed failed =>
      obtain ⟨-, hs⟩ := Option.ite_none_right_eq_some.mp hs
      have hsame : Simulates { c with flushed := c.flushed + 1 } d := ⟨h.stdout, h.heard, h.failed⟩
      cases failed with
      | true =>
          obtain rfl := Option.some.inj hs
          exact ⟨d, rfl, flush_step hsame hfailed hspoken halive⟩
      | false =>
          obtain rfl := Option.some.inj hs
          exact ⟨d, rfl, hsame⟩
  | settle n result => exact pull_step h hfailed halive rfl rfl hs
  | refreshed result => exact pull_step h hfailed halive rfl rfl hs

theorem step_stderr (hs : (client parse lossy buffer).step c i = some c') :
    c'.stderr = c.stderr ++ (i.report parse).toList := by
  obtain ⟨-, hs⟩ := Option.ite_none_left_eq_some.mp hs
  have hpulled : ∀ result p, (c.pulled result p).stderr = c.stderr ++ [] := by
    intro result p
    unfold Client.pulled
    split <;> rfl
  cases i with
  | line text room =>
      obtain ⟨-, hs⟩ := Option.ite_none_left_eq_some.mp hs
      obtain rfl := Option.some.inj hs
      exact congrArg _ (onIOLine_report room text c.manager)
  | closed =>
      obtain ⟨-, hs⟩ := Option.ite_none_left_eq_some.mp hs
      obtain rfl := Option.some.inj hs
      rfl
  | flushed failed =>
      obtain ⟨-, hs⟩ := Option.ite_none_right_eq_some.mp hs
      cases failed with
      | true =>
          obtain rfl := Option.some.inj hs
          rfl
      | false =>
          obtain rfl := Option.some.inj hs
          exact (List.append_nil _).symm
  | settle n result | refreshed result =>
      obtain ⟨p, -, rfl⟩ := Option.map_eq_some_iff.mp hs
      exact hpulled result p

end

variable {tr : List (Client × Input)} {c : Client}

theorem simulates_run (h : (client parse lossy buffer).Run tr c)
    (hplain : ∀ x ∈ tr, x.2.plain parse lossy buffer x.1.manager.shardId = true) :
    ∃ lines d, console.Run lines d ∧
      lines.map Prod.snd =
        tr.filterMap (fun x => x.2.reading parse lossy buffer x.1.manager.shardId) ∧
      Simulates c d := by
  induction h with
  | nil => exact ⟨[], _, .nil, rfl, rfl, fun _ => ⟨heard_initial, rfl⟩, fun hno => Bool.noConfusion hno⟩
  | @snoc tr c c' i hr hs ih =>
      obtain ⟨hbefore, hlast⟩ := List.forall_mem_append.mp hplain
      obtain ⟨lines, d, hd, hlines, hsim⟩ := ih hbefore
      obtain ⟨d', hsteps, hsim'⟩ := client_step hsim (alive_run hr).2
        (hlast (c, i) (List.mem_singleton_self _)) hs
      cases hread : i.reading parse lossy buffer c.manager.shardId with
      | none =>
          rw [hread] at hsteps
          obtain rfl : d' = d := hsteps
          exact ⟨lines, d', hd, by simp [hlines, hread], hsim'⟩
      | some l =>
          rw [hread] at hsteps
          exact ⟨lines ++ [(d, l)], d', hd.snoc hsteps, by simp [hlines, hread], hsim'⟩

theorem stderr_run (h : (client parse lossy buffer).Run tr c) :
    c.stderr = tr.filterMap fun x => x.2.report parse := by
  induction h with
  | nil => rfl
  | @snoc tr c c' i _ hs ih =>
      rw [step_stderr hs, ih, List.filterMap_append]
      cases hreport : i.report parse <;> simp [hreport]

/-- Every run of the client on its streams in which batches end with sequence numbers that are
texts, or none, is one of the console on the lines that its texts are: the output is the same,
and so is the manager as long as no write fails. The first write that fails throws, though the
console goes on and the message is on standard output. Standard error has the texts without an
action. -/
theorem texts_refine_lines (h : (client parse lossy buffer).Run tr c)
    (hplain : ∀ x ∈ tr, x.2.plain parse lossy buffer x.1.manager.shardId = true) :
    (∃ lines d, console.Run lines d ∧
      lines.map Prod.snd =
        tr.filterMap (fun x => x.2.reading parse lossy buffer x.1.manager.shardId) ∧
      Simulates c d) ∧
    c.stderr = tr.filterMap fun x => x.2.report parse :=
  ⟨simulates_run h hplain, stderr_run h⟩

/-- There is no room for the status of the initialization. -/
theorem texts_refine_lines_no_room :
    ∃ tr c lines d, (client JsonText.parse (fun _ => "") fun _ => none).Run tr c ∧
      tr.map Prod.snd = [initializing false] ∧ console.Run lines d ∧ c.crashed = true ∧
      d.session.crashed = false ∧ c.stdout = d.stdout.map Write.text ∧
      c.manager.sent = d.session.messages.map (.map textOrNull) := by
  have hfails : ((client JsonText.parse (fun _ => "") fun _ => none).exec .initial
      [initializing false]).any (fun r => r.2.failed && r.1.all fun x =>
        x.2.plain JsonText.parse (fun _ => "") (fun _ => none) x.1.manager.shardId) = true := by
    decide +kernel
  obtain ⟨⟨tr, c⟩, hexec, hfailed⟩ := (Option.any_eq_true _ _).mp hfails
  rw [Bool.and_eq_true, List.all_eq_true] at hfailed
  have hrun := System.Run.of_exec hexec
  obtain ⟨⟨lines, d, hd, -, hsim⟩, -⟩ := texts_refine_lines hrun hfailed.2
  obtain ⟨hcrashed, halive, hmessages⟩ := hsim.failed hfailed.1
  exact ⟨tr, c, lines, d, hrun, System.map_snd_of_exec hexec, hd, hcrashed, halive, hsim.stdout,
    hmessages⟩

end
end PlenarioStream.Kcl.Text

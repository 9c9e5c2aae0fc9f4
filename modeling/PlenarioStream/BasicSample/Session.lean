import PlenarioStream.BasicSample.Model

/-!
One instance. The loop over a batch starts a call for each record up to the first that is
no JSON. As long as there is none, the manager goes through the states that it has with the
other processor, so all that holds of `Kcl.session` holds here.
-/
namespace PlenarioStream.BasicSample
open Js Transition
open Kcl.Library (Simulation Both)

def Record.readable (r : Record) : Bool := r.payload.isSome

/-- The calls that the loop makes. -/
def callsFrom (life invocation : Nat) : Nat → List Record → List Call
  | _, [] => []
  | position, r :: records =>
      match r.payload with
      | none => []
      | some observation =>
          ⟨life, invocation, position, observation⟩ :: callsFrom life invocation (position + 1) records

/-- The call gets as far as its GET. -/
def Call.hasKey (call : Call) : Bool := (Redis.keyOf call.observation).toOption.isSome

def Client.made (c : Client) (records : List Record) : List Call :=
  callsFrom c.life (c.data.length - 1) c.next records

/-- The client after a loop that ends normally. -/
def taken (records : List Record) (c : Client) : Client :=
  { c with
    data := records.foldl (fun data r => data.dropLast ++ [some r.data]) c.data
    next := c.next + records.length
    started := c.started ++ (c.made records).filter Call.hasKey
    rejected := c.rejected ++ (c.made records).filter fun call => !call.hasKey }

theorem updateNode_eq (call : Call) (c : Client) :
    updateNode call c =
      if call.hasKey then { c with started := c.started ++ [call] }
      else { c with rejected := c.rejected ++ [call] } := by
  rw [updateNode, Call.hasKey]
  cases Redis.keyOf call.observation <;> rfl

theorem processRecord_some {r : Record} {o : Json} (h : r.payload = some o) (c : Client) :
    processRecord c r = .ok (taken [r] c) := by
  have hmade : c.made [r] = [⟨c.life, c.data.length - 1, c.next, o⟩] := by
    simp [Client.made, callsFrom, h]
  simp only [processRecord, h, updateNode_eq, taken, hmade]
  split <;> rename_i hkey <;> simp [hkey]

theorem taken_taken (r : Record) (records : List Record) (h : r.readable = true) (c : Client) :
    taken records (taken [r] c) = taken (r :: records) c := by
  obtain ⟨o, ho⟩ := Option.isSome_iff_exists.mp h
  have hmade : c.made (r :: records) = c.made [r] ++ (taken [r] c).made records := by
    simp [Client.made, callsFrom, ho, taken]
  simp only [taken] at hmade ⊢
  simp [hmade, Nat.add_assoc, Nat.add_comm 1]

theorem loop_readable {records : List Record} (h : ∀ r ∈ records, r.readable = true) (c : Client) :
    records.foldlM processRecord c = .ok (taken records c) := by
  induction records generalizing c with
  | nil => simp [taken, Client.made, callsFrom, pure, Except.pure]
  | cons r records ih =>
      obtain ⟨o, ho⟩ := Option.isSome_iff_exists.mp (h r List.mem_cons_self)
      rw [List.foldlM_cons, processRecord_some ho]
      have hrest := ih (fun s hs => h s (List.mem_cons_of_mem _ hs)) (taken [r] c)
      rw [taken_taken r records (h r List.mem_cons_self)] at hrest
      exact hrest

/-- The loop ends with an exception at the first record that is no JSON. -/
theorem loop_unreadable {before after : List Record} {r : Record}
    (h : ∀ s ∈ before, s.readable = true) (hr : r.readable = false) (c : Client) :
    (before ++ r :: after).foldlM processRecord c = .error { taken before c with
      data := (taken before c).data.dropLast ++ [some r.data]
      next := (taken before c).next + 1 } := by
  have hnone : r.payload = none := Option.isSome_eq_false_iff.mp hr |> Option.isNone_iff_eq_none.mp
  rw [List.foldlM_append, loop_readable h]
  simp only [bind, Except.bind, List.foldlM_cons, processRecord, hnone]

/-- Any batch is readable, or is cut at the first record that is not. -/
theorem readable_or_cut (records : List Record) :
    (∀ r ∈ records, r.readable = true) ∨
      ∃ before r after, records = before ++ r :: after ∧ (∀ s ∈ before, s.readable = true) ∧
        r.readable = false := by
  induction records with
  | nil => exact .inl fun r hr => absurd hr List.not_mem_nil
  | cons r records ih =>
      cases hr : r.readable with
      | false => exact .inr ⟨[], r, records, rfl, fun s hs => absurd hs List.not_mem_nil, hr⟩
      | true =>
          rcases ih with hall | ⟨before, s, after, rfl, hbefore, hs⟩
          · exact .inl (List.forall_mem_cons.mpr ⟨hr, hall⟩)
          · exact .inr ⟨r :: before, s, after, rfl, List.forall_mem_cons.mpr ⟨hr, hbefore⟩, hs⟩

def idle (k : Kcl.Manager) : Kcl.Manager := { k with processor := .initial }

theorem simulation_idle : Simulation fun k k' : Kcl.Manager => k = idle k' where
  core h := h ▸ rfl
  setCore _ h := h ▸ rfl

section
variable {k k' : Kcl.Manager} (h : k = idle k')
include h

theorem recordProcessorCallback_idle (type : Kcl.ActionType) :
    Both (fun k k' => k = idle k') (Kcl.recordProcessorCallback type k)
      (Kcl.recordProcessorCallback type k') :=
  simulation_idle.recordProcessorCallback h fun h => h ▸ rfl

theorem checkpointCallback_idle (checkpoint : Value) (type : Kcl.ActionType) :
    Both (fun k k' => k = idle k')
      (Kcl.checkpointCallback Kcl.recordProcessorCallback checkpoint type k)
      (Kcl.checkpointCallback Kcl.recordProcessorCallback checkpoint type k') := by
  unfold Kcl.checkpointCallback
  split
  · exact h
  · exact recordProcessorCallback_idle h _

theorem checkpoint_idle (sequenceNumber : Option String) (type : Kcl.ActionType) :
    Both (fun k k' => k = idle k') (Kcl.checkpoint sequenceNumber type k)
      (Kcl.checkpoint sequenceNumber type k') :=
  simulation_idle.checkpoint h (fun h => h ▸ rfl) fun h => checkpointCallback_idle h _ type

theorem onCheckpointAction_idle (error checkpoint : Value) :
    Both (fun k k' => k = idle k') (Kcl.onCheckpointAction error checkpoint k)
      (Kcl.onCheckpointAction error checkpoint k') :=
  simulation_idle.onCheckpointAction (h ▸ rfl) fun type h => checkpointCallback_idle h _ type

end

/-- The manager of a client is that of the other processor's, for the same outcome. -/
abbrev Mirrors : Except Client Client → Except Kcl.Manager Kcl.Manager → Prop :=
  Both fun c k => c.manager = idle k

theorem mirrors_lift (c : Client) {r q : Except Kcl.Manager Kcl.Manager}
    (h : Both (fun k k' => k = idle k') r q) : Mirrors (c.lift r) q := by
  cases r <;> cases q <;> exact h

theorem mirrors_recordProcessor {a : Action} (hbatch : ∀ r ∈ (Event.action a).batch, r.readable = true)
    {c : Client} {k : Kcl.Manager} (h : c.manager = idle k) :
    Mirrors (recordProcessor a c) (Kcl.recordProcessor a.plain k) := by
  cases a with
  | initialization shardId =>
      have hmanager : ({ (c.emit none "Kinesis Connected").manager with shardId := some shardId } :
          Kcl.Manager) = idle { k with shardId := some shardId } := by
        rw [Client.emit, h]
        rfl
      exact mirrors_lift _ (recordProcessorCallback_idle hmanager _)
  | processRecords records =>
      cases records with
      | none => exact mirrors_lift c (recordProcessorCallback_idle h _)
      | some records =>
          let processor := Consumer.processRecords (some (records.map Record.toRecord)) k.processor
          let k' : Kcl.Manager := { k with processor }
          have hloop := loop_readable hbatch { c with data := c.data ++ [none] }
          have hmanager : (taken records { c with data := c.data ++ [none] }).manager = idle k' := h
          simp only [recordProcessor, Kcl.recordProcessor, Action.plain, Event.batch] at hloop ⊢
          rw [hloop]
          simp only [bind, Except.bind, Option.map_some, Option.bind_some]
          cases Consumer.checkpointAt (records.map Record.toRecord) with
          | none => exact mirrors_lift _ (recordProcessorCallback_idle hmanager _)
          | some sequenceNumber => exact mirrors_lift _ (checkpoint_idle hmanager _ _)
  | shutdown reason =>
      simp only [recordProcessor, Kcl.recordProcessor, Action.plain]
      split
      · exact mirrors_lift c (checkpoint_idle h _ _)
      · exact mirrors_lift c (recordProcessorCallback_idle h _)

theorem mirrors_onRecordProcessorAction {a : Action}
    (hbatch : ∀ r ∈ (Event.action a).batch, r.readable = true) {c : Client} {k : Kcl.Manager}
    (h : c.manager = idle k) :
    Mirrors (onRecordProcessorAction a c) (Kcl.onRecordProcessorAction a.plain k) := by
  have hreceived : ({ c.manager with log := c.manager.log ++ [.received a.plain] } : Kcl.Manager) =
      idle { k with log := k.log ++ [.received a.plain] } := by
    rw [h]
    rfl
  exact (mirrors_lift c (simulation_idle.handleStateInput hreceived _)).bind fun hck =>
    mirrors_recordProcessor hbatch hck

theorem mirrors_react {e : Event} (hbatch : ∀ r ∈ e.batch, r.readable = true) {c : Client}
    {k : Kcl.Manager} (h : c.manager = idle k) :
    ∃ r, Kcl.react ⟨k, false⟩ e.plain = some (Kcl.finish r) ∧ Mirrors (react c e) r := by
  cases e with
  | action a => exact ⟨_, rfl, mirrors_onRecordProcessorAction hbatch h⟩
  | response error checkpoint =>
      exact ⟨_, rfl, mirrors_lift c (onCheckpointAction_idle h error checkpoint)⟩
  | closed => exact ⟨_, rfl, mirrors_lift c (simulation_idle.onActionEnd h)⟩

theorem lift_ok {c c' : Client} {r : Except Kcl.Manager Kcl.Manager} (h : c.lift r = .ok c') :
    c' = { c with manager := c'.manager } := by
  cases r with
  | error k => cases h
  | ok k =>
      obtain rfl := Except.ok.inj h
      rfl

/-- An action goes to the record processor with a manager that has let it begin. -/
theorem onRecordProcessorAction_ok {a : Action} {c c' : Client}
    (h : onRecordProcessorAction a c = .ok c') :
    ∃ manager, recordProcessor a { c with manager } = .ok c' := by
  rw [onRecordProcessorAction] at h
  cases hbegin : Kcl.Library.handleStateInput a.plain.type.beginInput
      ({ c.manager with log := c.manager.log ++ [.received a.plain] } : Kcl.Manager) with
  | error manager =>
      rw [hbegin] at h
      cases h
  | ok manager =>
      rw [hbegin] at h
      exact ⟨manager, h⟩

/-- A batch that is answered has started its calls. -/
theorem batch_ok {records : List Record} (hbatch : ∀ r ∈ records, r.readable = true) {c c' : Client}
    (h : react c (.action (.processRecords (some records))) = .ok c') :
    c' = { taken records { c with data := c.data ++ [none] } with manager := c'.manager } := by
  obtain ⟨manager, h⟩ := onRecordProcessorAction_ok h
  have hloop := loop_readable hbatch { c with manager, data := c.data ++ [none] }
  simp only [recordProcessor] at h
  rw [hloop] at h
  simp only [bind, Except.bind] at h
  split at h <;> exact lift_ok h

/-- The parts that events without records leave alone. -/
structure Keeps (c c' : Client) : Prop where
  life : c'.life = c.life
  next : c'.next = c.next
  data : c.data <+: c'.data
  started : c'.started = c.started
  rejected : c'.rejected = c.rejected
  replies : c'.replies = c.replies
  emitted : ∀ call text, (some call, text) ∈ c'.emitted → (some call, text) ∈ c.emitted

theorem Keeps.of_lift {c c' : Client} {r : Except Kcl.Manager Kcl.Manager} (h : c.lift r = .ok c') :
    Keeps c c' := by
  rw [lift_ok h]
  exact ⟨rfl, rfl, List.prefix_rfl, rfl, rfl, rfl, fun _ _ hmem => hmem⟩

theorem keeps_recordProcessor {a : Action} (hbatch : (Event.action a).batch = []) {c c' : Client}
    (h : recordProcessor a c = .ok c') : Keeps c c' := by
  cases a with
  | initialization shardId =>
      have hkept := Keeps.of_lift h
      refine ⟨hkept.life, hkept.next, hkept.data, hkept.started, hkept.rejected, hkept.replies, ?_⟩
      intro call text hmem
      simpa [Client.emit] using hkept.emitted call text hmem
  | processRecords records =>
      cases records with
      | none => exact Keeps.of_lift h
      | some records =>
          obtain rfl : records = [] := hbatch
          have hkept : Keeps { c with data := c.data ++ [none] } c' := Keeps.of_lift h
          exact ⟨hkept.life, hkept.next, (List.prefix_append _ _).trans hkept.data, hkept.started,
            hkept.rejected, hkept.replies, hkept.emitted⟩
  | shutdown reason =>
      simp only [recordProcessor] at h
      split at h <;> exact Keeps.of_lift h

theorem keeps_react {e : Event} (hbatch : e.batch = []) {c c' : Client} (h : react c e = .ok c') :
    Keeps c c' := by
  cases e with
  | action a =>
      obtain ⟨manager, h⟩ := onRecordProcessorAction_ok h
      have hkept := keeps_recordProcessor hbatch h
      exact ⟨hkept.life, hkept.next, hkept.data, hkept.started, hkept.rejected, hkept.replies,
        hkept.emitted⟩
  | response error checkpoint => exact Keeps.of_lift h
  | closed => exact Keeps.of_lift h

/-- A batch that is not JSON throughout ends in the loop. -/
theorem batch_error {before after : List Record} {r : Record}
    (hbefore : ∀ s ∈ before, s.readable = true) (hr : r.readable = false) {c : Client}
    (hbegin : (c.manager.state.handle .beginProcessRecords).2 = true) :
    ∃ c', react c (.action (.processRecords (some (before ++ r :: after)))) = .error c' ∧
      Kcl.requested c'.manager.log = none ∧
      c'.life = c.life ∧ c'.replies = c.replies ∧ c'.emitted = c.emitted ∧
      c'.started = c.started ++ (callsFrom c.life c.data.length c.next before).filter Call.hasKey ∧
      c'.rejected = c.rejected ++
        (callsFrom c.life c.data.length c.next before).filter fun call => !call.hasKey := by
  let a : Action := .processRecords (some (before ++ r :: after))
  let manager : Kcl.Manager := { c.manager with
    state := (c.manager.state.handle .beginProcessRecords).1
    log := c.manager.log ++ [.received a.plain] }
  let received : Kcl.Manager := { c.manager with log := c.manager.log ++ [.received a.plain] }
  have hok : Kcl.Library.handleStateInput a.plain.type.beginInput received = .ok manager := by
    have hhandle : received.state.handle .beginProcessRecords = (manager.state, true) := by
      rw [← hbegin]
    exact Kcl.Library.handleStateInput_ok (p := received) hhandle
  let ended := taken before { c with manager, data := c.data ++ [none] }
  have hprocess : recordProcessor a { c with manager } =
      .error { ended with data := ended.data.dropLast ++ [some r.data], next := ended.next + 1 } := by
    simp only [recordProcessor, a]
    rw [loop_unreadable hbefore hr { c with manager, data := c.data ++ [none] }]
    rfl
  have hreact : react c (.action a) =
      .error { ended with data := ended.data.dropLast ++ [some r.data], next := ended.next + 1 } := by
    rw [react, onRecordProcessorAction, hok]
    exact hprocess
  refine ⟨_, hreact, ?_, rfl, rfl, rfl, ?_, ?_⟩
  · simp [ended, taken, manager, Kcl.requested]
  · simp [ended, taken, Client.made]
  · simp [ended, taken, Client.made]

end PlenarioStream.BasicSample

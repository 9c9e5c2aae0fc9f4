import PlenarioStream.Foundation.Resume
import PlenarioStream.Kcl.Stdout

/-!
The client over the life of a shard. As the checkpointer documents it, an instance that
shuts down for whatever reason is followed by another, which resumes after the most recent
checkpoint. An instance may end at any point; one that ends in the middle of a batch is one
that was given the first part of it. The daemon stores a checkpoint while its request is
pending, or never, and its response need not tell which.
-/
namespace PlenarioStream.Kcl
open Js Consumer Transition Library

/-- What an instance was given, and the payloads it has handled. -/
structure Life where
  start : Nat
  given : Nat
  handled : List (Option Json)

/-- The instance under way, the position after the most recent checkpoint, and the
instances before. -/
structure Deployment where
  session : Session
  start : Nat
  given : Nat
  stored : Nat
  past : List Life

/-- The daemon delivers the next records of the shard, or sends something else. -/
inductive Move
  | deliver (n : Nat)
  | daemon (e : Event)
  | store
  | restart

def Event.batch : Event → List Record
  | .action (.processRecords (some records)) => records
  | _ => []

/-- The checkpoint that was requested last, as long as nothing came after it. -/
def requested (log : List Entry) : Option (Option String) :=
  match log.getLast? with
  | some (.sent (.checkpoint sequenceNumber)) => some sequenceNumber
  | _ => none

namespace Deployment

def position (d : Deployment) : Nat := d.start + d.given

/-- Without a sequence number, the checkpoint is at the end of the records delivered. -/
def checkpointed (stream : List Record) (d : Deployment) : Option String → Nat
  | none => d.position
  | some seq => (stream.map Record.sequenceNumber).idxOf (some seq) + 1

def life (d : Deployment) : Life := ⟨d.start, d.given, d.session.manager.processor.world.handled⟩

def lives (d : Deployment) : List Life := d.past ++ [d.life]

/-- The payloads that all instances have handled, one after another. -/
def handled (d : Deployment) : List (Option Json) := d.lives.flatMap Life.handled

/-- The positions of the shard at which they were read. -/
def positions (d : Deployment) : List Nat :=
  d.lives.flatMap fun l => List.range' l.start l.given

def reader (d : Deployment) : Resume.Reader :=
  ⟨d.start, d.given, d.stored, d.past.map fun l => (l.start, l.given)⟩

end Deployment

def deployment (stream : List Record) : System Deployment Move where
  init := ⟨session.init, 0, 0, 0, []⟩
  step d
    | .deliver n =>
        let batch := (stream.drop d.position).take n
        (session.step d.session (.action (.processRecords (some batch)))).map fun s =>
          { d with session := s, given := d.given + batch.length }
    | .daemon e =>
        if e.batch.isEmpty then (session.step d.session e).map fun s => { d with session := s }
        else none
    | .store =>
        (requested d.session.manager.log).map fun q => { d with stored := d.checkpointed stream q }
    | .restart => some ⟨session.init, d.stored, 0, d.stored, d.lives⟩

/-- The instance ends after it was given the record at a position, and before a checkpoint
beyond it was stored. -/
def endsBefore (n : Nat) (x : Deployment × Move) : Bool :=
  match x.2 with
  | .restart => decide (x.1.stored ≤ n ∧ n < x.1.position)
  | _ => false

theorem Transcripts.requested_eq_none {as : List Action} {log : List Entry}
    (h : Transcripts as log) : requested log = none := by
  cases h with
  | nil => rfl
  | @snoc as log t a _ ht =>
      rw [requested]
      cases ht with
      | plain _ => simp
      | checkpointed _ _ _ _ => simp

/-- Only the last action may have its request pending. -/
theorem Phase.required {as : List Action} {a : Action} {k : Manager} (h : Phase (as ++ [a]) k)
    {q : Option String} (hq : requested k.log = some q) : a.required = some q := by
  cases h with
  | idle hlog _ _ => simp [hlog.requested_eq_none] at hq
  | waiting done b seq log has _ hrequired hlog _ _ _ =>
      obtain ⟨-, hlast⟩ := List.append_inj' has rfl
      obtain rfl : a = b := by simpa using hlast
      have hseq : requested k.log = some seq := by simp [requested, hlog]
      rw [hrequired, ← hseq, hq]

theorem Action.apply_handled (a : Action) (p : Processor) :
    (a.apply p).world.handled =
      p.world.handled ++ (Event.action a).batch.map Record.payload := by
  cases a with
  | initialization _ | shutdown _ => exact (List.append_nil _).symm
  | processRecords input =>
      cases input with
      | none => exact (List.append_nil _).symm
      | some records => exact foldl_processRecord_handled records p

theorem kept_log : Kept fun k k' : Manager => k'.log = k.log where
  refl _ := rfl
  trans h h' := h'.trans h
  setCore _ _ := rfl

section
variable {tr : List (Session × Event)} {s s' : Session}

theorem begin_valid {a : Action} (hr : session.Run tr s)
    (hs : session.step s (.action a) = some s') :
    (s.manager.state.handle a.type.beginInput).2 = true := by
  obtain ⟨-, hallows, -⟩ := session_step hs
  cases (sound_run hr).phase with
  | idle hlog hstate _ => rw [hstate, restState_begin hlog hallows]
  | waiting done b seq log has hdone hrequired hlog hstate hcallback hopen =>
      rw [hlog] at hallows
      simp [allows, not_answered_waiting hdone] at hallows

theorem session_handled {e : Event} (hr : session.Run tr s) (hs : session.step s e = some s') :
    s'.manager.processor.world.handled =
      s.manager.processor.world.handled ++ e.batch.map Record.payload := by
  obtain ⟨-, hallows, hreact⟩ := session_step hs
  cases e with
  | action a =>
      have hvalid := begin_valid hr hs
      obtain rfl := Option.some.inj hreact
      rw [finish_manager, (onRecordProcessorAction_grows a s.manager).2, if_pos hvalid,
        a.apply_handled]
  | response error checkpoint =>
      obtain rfl := Option.some.inj hreact
      rw [finish_manager, (grows_onCheckpointAction error checkpoint s.manager).processor]
      exact (List.append_nil _).symm
  | closed =>
      obtain rfl := Option.some.inj hreact
      rw [finish_manager, (kept_grows.onActionEnd s.manager).processor]
      exact (List.append_nil _).symm
  | settle i result =>
      obtain ⟨p, hp, rfl⟩ := Option.map_eq_some_iff.mp hreact
      obtain ⟨world, hworld, rfl⟩ := Option.map_eq_some_iff.mp hp
      obtain ⟨n, obs, -, rfl⟩ := settle_eq_some hworld
      rw [pulled_ok hallows]
      exact (List.append_nil _).symm
  | refreshed result =>
      obtain ⟨p, hp, rfl⟩ := Option.map_eq_some_iff.mp hreact
      obtain ⟨-, rfl⟩ := refreshed_step hp
      rw [pulled_ok hallows]
      exact (List.append_nil _).symm

/-- A request that is pending belongs to the action that came, or was pending before. -/
theorem session_requested {e : Event} (hr : session.Run tr s) (hs : session.step s e = some s')
    {q : Option String} (hq : requested s'.manager.log = some q) :
    match e with
    | .action a => a.required = some q
    | _ => requested s.manager.log = some q := by
  have hsound := sound_run hr
  obtain ⟨-, hallows, hreact⟩ := session_step hs
  cases e with
  | action a =>
      have hphase := (sound_action hsound hs).phase
      rw [actionsOf_concat] at hphase
      exact hphase.required hq
  | response error checkpoint =>
      rw [(sound_response hsound hs).2.requested_eq_none] at hq
      cases hq
  | closed =>
      obtain rfl := Option.some.inj hreact
      rwa [finish_manager, kept_log.onActionEnd] at hq
  | settle i result =>
      obtain ⟨p, -, rfl⟩ := Option.map_eq_some_iff.mp hreact
      rwa [pulled_ok hallows] at hq
  | refreshed result =>
      obtain ⟨p, -, rfl⟩ := Option.map_eq_some_iff.mp hreact
      rwa [pulled_ok hallows] at hq

end

/-- The payloads of consecutive records of the shard. -/
def stretch (stream : List Record) (start given : Nat) : List (Option Json) :=
  ((stream.drop start).take given).map Record.payload

structure Faithful (stream : List Record) (d : Deployment) : Prop where
  reachable : ∃ tr, session.Run tr d.session
  request : ∀ q, requested d.session.manager.log = some q → d.checkpointed stream q = d.position
  within : d.position ≤ stream.length
  stored : d.stored ≤ stream.length
  handled : ∀ l ∈ d.lives, l.handled = stretch stream l.start l.given

theorem stretch_append (stream : List Record) (start given n : Nat) :
    stretch stream start given ++ ((stream.drop (start + given)).take n).map Record.payload =
      stretch stream start (given + ((stream.drop (start + given)).take n).length) := by
  have htake : (stream.drop (start + given)).take n =
      (stream.drop (start + given)).take ((stream.drop (start + given)).take n).length := by
    rw [List.take_eq_take_iff, List.length_take]
    omega
  rw [stretch, stretch, List.take_add, List.drop_drop, ← htake, List.map_append]

section
variable {stream : List Record}

theorem required_of_batch_nil {a : Action} {q : Option String}
    (hbatch : (Event.action a).batch = []) (h : a.required = some q) : q = none := by
  cases a with
  | initialization _ => cases h
  | processRecords input =>
      cases input with
      | none => cases h
      | some records =>
          obtain rfl : records = [] := hbatch
          cases h
  | shutdown reason =>
      obtain ⟨-, h⟩ := Option.ite_none_right_eq_some.mp h
      exact (Option.some.inj h).symm

/-- The sequence number of the last record of a batch is found at its position. -/
theorem position_of_last (hseq : (stream.map Record.sequenceNumber).Nodup) {start n : Nat}
    {r : Record} (hlast : ((stream.drop start).take n).getLast? = some r) :
    (stream.map Record.sequenceNumber).idxOf r.sequenceNumber + 1 =
      start + ((stream.drop start).take n).length := by
  have hne : (stream.drop start).take n ≠ [] := by
    intro hnil
    simp [hnil] at hlast
  have hpos := List.length_pos_iff.mpr hne
  have hlen : ((stream.drop start).take n).length = min n (stream.length - start) := by simp
  rw [List.getLast?_eq_getElem?, List.getElem?_take_of_lt (by omega), List.getElem?_drop] at hlast
  obtain ⟨hlt, hget⟩ := List.getElem?_eq_some_iff.mp hlast
  have hidx := hseq.idxOf_getElem (start + (((stream.drop start).take n).length - 1))
    (by rw [List.length_map]; exact hlt)
  rw [List.getElem_map, hget] at hidx
  omega

variable {d d' : Deployment}

theorem forall_mem_lives {P : Life → Prop} :
    (∀ l ∈ d.lives, P l) ↔ (∀ l ∈ d.past, P l) ∧ P d.life := by
  simp [Deployment.lives, or_imp, forall_and]

theorem faithful_deliver (hseq : (stream.map Record.sequenceNumber).Nodup) (h : Faithful stream d)
    {n : Nat} (hs : (deployment stream).step d (.deliver n) = some d') : Faithful stream d' := by
  obtain ⟨s', hstep, rfl⟩ := Option.map_eq_some_iff.mp hs
  obtain ⟨tr, hr⟩ := h.reachable
  have hwithin := h.within
  obtain ⟨hpast, hlife⟩ := forall_mem_lives.mp h.handled
  constructor
  · exact ⟨_, hr.snoc hstep⟩
  · intro q hq
    have hrequired : (((stream.drop d.position).take n).getLast?).map Record.sequenceNumber = some q :=
      session_requested hr hstep hq
    obtain ⟨r, hlast, rfl⟩ := Option.map_eq_some_iff.mp hrequired
    cases hnumber : r.sequenceNumber with
    | none => rfl
    | some seq =>
        rw [Deployment.checkpointed, ← hnumber, position_of_last hseq hlast]
        exact Nat.add_assoc _ _ _
  · simp only [Deployment.position, List.length_take, List.length_drop] at hwithin ⊢
    omega
  · exact h.stored
  · refine forall_mem_lives.mpr ⟨hpast, ?_⟩
    calc s'.manager.processor.world.handled
        = d.life.handled ++ ((stream.drop d.position).take n).map Record.payload :=
          session_handled hr hstep
      _ = stretch stream d.start d.given ++ ((stream.drop d.position).take n).map Record.payload := by
          rw [hlife]
          rfl
      _ = _ := stretch_append stream d.start d.given n

theorem faithful_daemon (h : Faithful stream d) {e : Event}
    (hs : (deployment stream).step d (.daemon e) = some d') : Faithful stream d' := by
  obtain ⟨hbatch, hs⟩ := Option.ite_none_right_eq_some.mp hs
  obtain ⟨s', hstep, rfl⟩ := Option.map_eq_some_iff.mp hs
  obtain ⟨tr, hr⟩ := h.reachable
  obtain ⟨hpast, hlife⟩ := forall_mem_lives.mp h.handled
  rw [List.isEmpty_iff] at hbatch
  refine ⟨⟨_, hr.snoc hstep⟩, ?_, h.within, h.stored, forall_mem_lives.mpr ⟨hpast, ?_⟩⟩
  · intro q hq
    have hrequested := session_requested hr hstep hq
    cases e with
    | action a =>
        obtain rfl := required_of_batch_nil hbatch hrequested
        rfl
    | response _ _ | closed | settle _ _ | refreshed _ => exact h.request q hrequested
  · rw [Deployment.life, session_handled hr hstep, hbatch, List.map_nil, List.append_nil]
    exact hlife

theorem faithful_step (hseq : (stream.map Record.sequenceNumber).Nodup) (h : Faithful stream d)
    {a : Move} (hs : (deployment stream).step d a = some d') : Faithful stream d' := by
  cases a with
  | deliver n => exact faithful_deliver hseq h hs
  | daemon e => exact faithful_daemon h hs
  | store =>
      obtain ⟨q, hq, rfl⟩ := Option.map_eq_some_iff.mp hs
      exact ⟨h.reachable, h.request, h.within, (h.request q hq).trans_le h.within, h.handled⟩
  | restart =>
      obtain rfl := Option.some.inj hs
      refine ⟨⟨[], .nil⟩, ?_, h.stored, h.stored, forall_mem_lives.mpr ⟨h.handled, ?_⟩⟩
      · intro q hq
        cases hq
      · simp [Deployment.life, stretch, session, Manager.initial, Processor.initial, World.initial]

theorem faithful_run (hseq : (stream.map Record.sequenceNumber).Nodup)
    {tr : List (Deployment × Move)} (h : (deployment stream).Run tr d) : Faithful stream d := by
  refine h.invariant (fun _ d => Faithful stream d) ?_ ?_
  · refine ⟨⟨[], .nil⟩, ?_, Nat.zero_le _, Nat.zero_le _, ?_⟩
    · intro q hq
      cases hq
    · intro l hl
      obtain rfl := List.mem_singleton.mp hl
      simp [deployment, Deployment.life, stretch, session, Manager.initial, Processor.initial,
        World.initial]
  · intro tr d a d' _ hinv hs
    exact faithful_step hseq hinv hs

/-- What a move is to the reader of the shard. -/
def Move.read (stream : List Record) (d : Deployment) : Move → Option Resume.Move
  | deliver n => some (.read ((stream.drop d.position).take n).length)
  | daemon _ => none
  | store => some .store
  | restart => some .restart

/-- Every run of the deployment is one of the reader. -/
theorem reader_run (hseq : (stream.map Record.sequenceNumber).Nodup)
    {tr : List (Deployment × Move)} (h : (deployment stream).Run tr d) :
    Resume.reader.Run (tr.filterMap fun x => (x.2.read stream x.1).map fun b => (x.1.reader, b))
      d.reader := by
  refine h.project (T := Resume.reader) Deployment.reader (fun d a => a.read stream d) rfl ?_
  intro tr d a d' hr hs
  cases a with
  | deliver n =>
      obtain ⟨s', -, rfl⟩ := Option.map_eq_some_iff.mp hs
      rfl
  | daemon e =>
      obtain ⟨-, hs⟩ := Option.ite_none_right_eq_some.mp hs
      obtain ⟨s', -, rfl⟩ := Option.map_eq_some_iff.mp hs
      rfl
  | store =>
      obtain ⟨q, hq, rfl⟩ := Option.map_eq_some_iff.mp hs
      rw [(faithful_run hseq hr).request q hq]
      rfl
  | restart =>
      obtain rfl := Option.some.inj hs
      simp [Move.read, Resume.reader, Deployment.reader, Resume.Reader.stretches, Deployment.lives,
        Deployment.life]

theorem reader_positions (d : Deployment) : d.reader.positions = d.positions := by
  simp [Deployment.reader, Resume.Reader.positions, Resume.Reader.stretches, Deployment.positions,
    Deployment.lives, Deployment.life, List.flatMap_map]

/-- The payloads that were handled are those at the positions that were read. -/
theorem Faithful.handled_eq (h : Faithful stream d) :
    d.handled = (d.positions.filterMap fun n => stream[n]?).map Record.payload := by
  rw [Deployment.handled, Deployment.positions, List.filterMap_flatMap, List.map_flatMap]
  refine List.flatMap_congr ?_
  intro l hl
  rw [h.handled l hl, Resume.filterMap_range']
  rfl

theorem countP_repeats (tr : List (Deployment × Move)) (n : Nat) :
    (tr.filterMap fun x => (x.2.read stream x.1).map fun b => (x.1.reader, b)).countP
      (Resume.repeats n) = tr.countP (endsBefore n) := by
  rw [List.countP_filterMap]
  refine List.countP_congr ?_
  intro x _
  obtain ⟨d, a⟩ := x
  cases a <;> rfl

theorem count_positions (hseq : (stream.map Record.sequenceNumber).Nodup)
    {tr : List (Deployment × Move)} (h : (deployment stream).Run tr d) (n : Nat) :
    d.positions.count n = (if n < d.position then 1 else 0) + tr.countP (endsBefore n) := by
  rw [← reader_positions, Resume.count_positions (reader_run hseq h), countP_repeats]
  rfl

/-- Whatever the daemon sends, stores and answers, and whenever instances end: the payloads
handled by all instances, one after another, are those of the records at certain positions
of the shard; every position that the instance under way has passed is among them, and
every position counts once for being passed and once more for each instance that ended
after the record was given and before a checkpoint beyond it was stored. -/
theorem handled_at_least_once (hseq : (stream.map Record.sequenceNumber).Nodup)
    {tr : List (Deployment × Move)} (h : (deployment stream).Run tr d) :
    d.handled = (d.positions.filterMap fun n => stream[n]?).map Record.payload ∧
    d.stored ≤ d.position ∧ d.position ≤ stream.length ∧
    ∀ n, d.positions.count n = (if n < d.position then 1 else 0) + tr.countP (endsBefore n) := by
  have hfaithful := faithful_run hseq h
  exact ⟨hfaithful.handled_eq, (Resume.stored_bounds (reader_run hseq h)).2, hfaithful.within,
    count_positions hseq h⟩

/-- Two records that are no JSON. -/
def twoRecords : List Record := [⟨none, some "1"⟩, ⟨none, some "2"⟩]

/-- The first instance ends while its checkpoint is pending, so the first record is handled
again. -/
theorem handled_at_least_once_pending :
    ∃ tr d, (deployment twoRecords).Run tr d ∧
      tr.map Prod.snd = [.daemon (.action (.initialization "shardId-0")), .deliver 1, .restart,
        .daemon (.action (.initialization "shardId-0")), .deliver 2, .store] ∧
      d.positions = [0, 0, 1] ∧ d.stored = 2 ∧
      d.positions.count 0 = (if 0 < d.position then 1 else 0) + tr.countP (endsBefore 0) := by
  have hrun := System.Run.nil.exec (S := deployment twoRecords)
    [.daemon (.action (.initialization "shardId-0")), .deliver 1, .restart,
      .daemon (.action (.initialization "shardId-0")), .deliver 2, .store] rfl
  exact ⟨_, _, hrun, rfl, rfl, rfl, (handled_at_least_once (by decide) hrun).2.2.2 0⟩

/-- Nothing was read beyond the end of the shard. -/
theorem lt_length_of_mem_positions (hseq : (stream.map Record.sequenceNumber).Nodup)
    {tr : List (Deployment × Move)} (h : (deployment stream).Run tr d) {n : Nat}
    (hn : n ∈ d.positions) : n < stream.length := by
  have hcount := count_positions hseq h n
  have hpos := List.count_pos_iff.mpr hn
  by_cases hlt : n < d.position
  · exact hlt.trans_le (faithful_run hseq h).within
  · rw [if_neg hlt] at hcount
    obtain ⟨x, hx, hends⟩ := List.countP_pos_iff.mp (show 0 < tr.countP (endsBefore n) by omega)
    obtain ⟨p, y, hp, -, -⟩ := h.step_of_mem hx
    have hpassed : n < x.1.position := by
      unfold endsBefore at hends
      split at hends
      · exact (decide_eq_true_iff.mp hends).2
      · cases hends
    exact hpassed.trans_le (faithful_run hseq hp).within

theorem length_handled (hseq : (stream.map Record.sequenceNumber).Nodup)
    {tr : List (Deployment × Move)} (h : (deployment stream).Run tr d) :
    d.handled.length = d.positions.length := by
  rw [(faithful_run hseq h).handled_eq, List.length_map, List.length_filterMap_eq_countP,
    List.countP_eq_length]
  intro n hn
  simpa using lt_length_of_mem_positions hseq h hn

theorem forall_mem_moves {tr : List (Deployment × Move)} :
    (∀ y ∈ tr.filterMap fun x => (x.2.read stream x.1).map fun b => (x.1.reader, b),
        y.2 = .restart → y.1.stored = y.1.position) ↔
      ∀ x ∈ tr, x.2 = .restart → x.1.stored = x.1.position := by
  refine ⟨?_, ?_⟩
  · intro h x hx hrestart
    refine h (x.1.reader, .restart) (List.mem_filterMap.mpr ⟨x, hx, ?_⟩) rfl
    rw [hrestart]
    rfl
  · intro h y hy hrestart
    obtain ⟨⟨d, a⟩, hx, hread⟩ := List.mem_filterMap.mp hy
    obtain ⟨b, hb, rfl⟩ := Option.map_eq_some_iff.mp hread
    obtain rfl : b = .restart := hrestart
    refine h (d, a) hx ?_
    cases a with
    | restart => rfl
    | deliver _ | daemon _ | store => cases hb

/-- All instances together have handled the records of the shard that were passed exactly
once and in order, if and only if no instance ended that had been given records beyond the
checkpoint stored by then. -/
theorem handled_exactly_once_iff (hseq : (stream.map Record.sequenceNumber).Nodup)
    {tr : List (Deployment × Move)} (h : (deployment stream).Run tr d) :
    d.handled = (stream.take d.position).map Record.payload ↔
      ∀ x ∈ tr, x.2 = .restart → x.1.stored = x.1.position := by
  have hreader := reader_run hseq h
  rw [← @forall_mem_moves stream tr]
  refine ⟨?_, ?_⟩
  · intro heq
    rw [← Resume.length_positions_iff hreader, reader_positions, ← length_handled hseq h, heq,
      List.length_map, List.length_take]
    exact Nat.min_eq_left (faithful_run hseq h).within
  · intro hclean
    rw [(faithful_run hseq h).handled_eq, ← reader_positions, Resume.positions_eq_range hreader hclean,
      List.range_eq_range', Resume.filterMap_range', List.drop_zero]
    rfl

/-- The checkpoint of the first record is stored, although the daemon reports an error, and
the next instance goes on with the second. -/
theorem handled_exactly_once_stored :
    ∃ tr d, (deployment twoRecords).Run tr d ∧
      tr.map Prod.snd = [.daemon (.action (.initialization "shardId-0")), .deliver 1, .store,
        .daemon (.response (.str "ThrottlingException") .undefined), .restart,
        .daemon (.action (.initialization "shardId-0")), .deliver 2] ∧
      d.position = 2 ∧ d.handled = (twoRecords.take d.position).map Record.payload := by
  have hrun := System.Run.nil.exec (S := deployment twoRecords)
    [.daemon (.action (.initialization "shardId-0")), .deliver 1, .store,
      .daemon (.response (.str "ThrottlingException") .undefined), .restart,
      .daemon (.action (.initialization "shardId-0")), .deliver 2] rfl
  refine ⟨_, _, hrun, rfl, rfl, (handled_exactly_once_iff (by decide) hrun).mpr ?_⟩
  intro x hx hrestart
  simp only [List.nil_append, List.mem_cons, List.not_mem_nil, or_false] at hx
  rcases hx with rfl | rfl | rfl | rfl | rfl | rfl | rfl
  case inr.inr.inr.inr.inl => rfl
  all_goals cases hrestart

end

end PlenarioStream.Kcl

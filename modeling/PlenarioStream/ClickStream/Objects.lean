import PlenarioStream.ClickStream.Protocol
import PlenarioStream.Foundation.Chunks

/-!
What is uploaded. The objects are the chunks of the records that the shard has delivered,
cut where the buffer has reached its size, whatever the batches were; their keys and
sequence numbers are those of the first and last record stored in them. A checkpoint is
requested when the object was uploaded, but objects before it may be missing.
-/
namespace PlenarioStream.ClickStream
open Js Transition Kcl.Library
open Kcl (State Input ActionType)

/-- The bytes that a record adds to the buffer. -/
def Record.line (r : Record) : List UInt8 :=
  match r.data with
  | [] => []
  | _ :: _ => r.data ++ delimiter

def Record.size (r : Record) : Nat := r.line.length

def bytes (records : List Record) : List UInt8 := records.flatMap Record.line

/-- The records that are stored at all. -/
def kept (records : List Record) : List Record := records.filter fun r => !r.data.isEmpty

/-- The object that is to be made of some records. -/
def commitOf (shardId : Option String) (owner : ActionType) (records : List Record) : Commit where
  key := shardId.getD "null" ++ "/" ++ numberText ((kept records).head?.map Record.sequenceNumber) ++
    "-" ++ numberText ((kept records).getLast?.map Record.sequenceNumber)
  sequenceNumber := (kept records).getLast?.map Record.sequenceNumber
  data := bytes records
  owner := owner

def bufferOf (records : List Record) : Buffer :=
  records.foldl (fun b r => putRecord r.data r.sequenceNumber b) .cleared

theorem bufferOf_concat (records : List Record) (r : Record) :
    bufferOf (records ++ [r]) = putRecord r.data r.sequenceNumber (bufferOf records) := by
  rw [bufferOf, List.foldl_append]
  rfl

theorem kept_concat (records : List Record) (r : Record) :
    kept (records ++ [r]) = if r.data = [] then kept records else kept records ++ [r] := by
  cases hdata : r.data <;> simp [kept, hdata]

theorem bytes_concat (records : List Record) (r : Record) :
    bytes (records ++ [r]) = bytes records ++ r.line := by
  simp [bytes]

/-- The fields of the buffer, in terms of the records that were put. -/
structure Holds (records : List Record) (b : Buffer) : Prop where
  bytes : b.records.flatten = bytes records
  size : b.currentSize = (ClickStream.bytes records).length
  first : b.firstSequenceNumber = (kept records).head?.map Record.sequenceNumber
  last : b.lastSequenceNumber = (kept records).getLast?.map Record.sequenceNumber

theorem bufferOf_holds (records : List Record) : Holds records (bufferOf records) := by
  induction records using List.reverseRecOn with
  | nil => exact ⟨rfl, rfl, rfl, rfl⟩
  | append_singleton records r ih =>
      rw [bufferOf_concat]
      cases hdata : r.data with
      | nil =>
          have hline : r.line = [] := by simp [Record.line, hdata]
          have hkept : kept (records ++ [r]) = kept records := by simp [kept_concat, hdata]
          refine ⟨?_, ?_, ?_, ?_⟩
          · rw [bytes_concat, hline, List.append_nil]
            exact ih.bytes
          · rw [bytes_concat, hline, List.append_nil]
            exact ih.size
          · rw [hkept]
            exact ih.first
          · rw [hkept]
            exact ih.last
      | cons x xs =>
          have hline : r.line = (x :: xs) ++ delimiter := by simp [Record.line, hdata]
          have hkept : kept (records ++ [r]) = kept records ++ [r] := by simp [kept_concat, hdata]
          refine ⟨?_, ?_, ?_, ?_⟩
          · rw [bytes_concat, hline, ← ih.bytes]
            simp [putRecord]
          · rw [bytes_concat, hline, List.length_append, ← ih.size]
            rfl
          · rw [hkept]
            simp only [putRecord, ih.first]
            cases kept records <;> simp
          · rw [hkept]
            simp [putRecord]

/-- Nothing is cut off, and nothing filled up, when the buffer is read. -/
theorem concat_eq {list : List (List UInt8)} {totalLength : Nat}
    (h : totalLength = list.flatten.length) : concat list totalLength = list.flatten := by
  rw [concat, h, List.take_left]

theorem commit_bufferOf (shardId : Option String) (owner : ActionType) (records : List Record) :
    (bufferOf records).commit shardId owner = commitOf shardId owner records := by
  have h := bufferOf_holds records
  have hdata : concat (bufferOf records).records (bufferOf records).currentSize = bytes records := by
    rw [concat_eq (by rw [h.bytes, h.size]), h.bytes]
  simp only [Buffer.commit, commitOf, h.first, h.last, hdata]

theorem total_size (records : List Record) :
    Chunks.total Record.size records = (bytes records).length := by
  rw [Chunks.total, bytes, List.length_flatMap]
  rfl

theorem shouldFlush_bufferOf (size : Nat) (records : List Record) :
    shouldFlush size (bufferOf records) = decide (size ≤ Chunks.total Record.size records) := by
  rw [shouldFlush, (bufferOf_holds records).size, total_size]

def Entry.records : Entry → List Record
  | received (.processRecords (some records)) => records
  | _ => []

/-- The records that the daemon has delivered. -/
def given (log : List Entry) : List Record := log.flatMap Entry.records

def Entry.upload? : Entry → Option Commit
  | upload c => some c
  | _ => none

/-- The objects whose upload has begun. -/
def attempted (log : List Entry) : List Commit := log.filterMap Entry.upload?

theorem attempted_concat (log : List Entry) (e : Entry) :
    attempted (log ++ [e]) = attempted log ++ e.upload?.toList := by
  cases h : e.upload? <;> simp [attempted, h]

def Entry.isTerminate : Entry → Bool
  | received (.shutdown reason) => reason.strictEq (.str "TERMINATE")
  | _ => false

def terminated (log : List Entry) : Bool := log.any Entry.isTerminate

/-- The objects that are to be made of the records delivered so far: one of each chunk, and
one of the rest when the shard is at its end. -/
def objects (size : Nat) (shardId : Option String) (log : List Entry) : List Commit :=
  (Chunks.chunks size Record.size (given log)).1.map (commitOf shardId .processRecords) ++
    if terminated log then
      [commitOf shardId .shutdown (Chunks.chunks size Record.size (given log)).2]
    else []

/-- The commits that were started or wait are the objects, and the rest is in the buffer. -/
structure Cut (size : Nat) (k : Client) : Prop where
  objects : attempted k.log ++ k.queue = objects size k.shardId k.log
  buffer : k.buffer = if terminated k.log then .cleared
    else bufferOf (Chunks.chunks size Record.size (given k.log)).2

def Entry.isQuiet : Entry → Bool
  | received _ | upload _ => false
  | responded _ | checkpoint _ | status _ | uploaded _ _ => true

/-- A part of the client leaves the buffer and the queue, and notes neither actions nor
uploads that begin. -/
structure Frame (k k' : Client) : Prop where
  buffer : k'.buffer = k.buffer
  queue : k'.queue = k.queue
  shardId : k'.shardId = k.shardId
  log : ∃ more, k'.log = k.log ++ more ∧ ∀ e ∈ more, e.isQuiet = true

theorem Frame.of_log_eq {k k' : Client} (hbuffer : k'.buffer = k.buffer) (hqueue : k'.queue = k.queue)
    (hshardId : k'.shardId = k.shardId) (hlog : k'.log = k.log) : Frame k k' :=
  ⟨hbuffer, hqueue, hshardId, [], hlog.trans (List.append_nil _).symm, by simp⟩

theorem Frame.trans {k k' k'' : Client} (h : Frame k k') (h' : Frame k' k'') : Frame k k'' := by
  obtain ⟨more, hmore, hquiet⟩ := h.log
  obtain ⟨more', hmore', hquiet'⟩ := h'.log
  refine ⟨h'.buffer.trans h.buffer, h'.queue.trans h.queue, h'.shardId.trans h.shardId,
    more ++ more', ?_, ?_⟩
  · rw [hmore', hmore, List.append_assoc]
  · intro e he
    exact (List.mem_append.mp he).elim (hquiet e) (hquiet' e)

theorem frame_note {k : Client} {e : Entry} (h : e.isQuiet = true) : Frame k (k.note e) :=
  ⟨rfl, rfl, rfl, [e], rfl, by simpa using h⟩

section
variable {log more : List Entry}

theorem attempted_quiet (h : ∀ e ∈ more, e.isQuiet = true) :
    attempted (log ++ more) = attempted log := by
  have hnone : attempted more = [] := by
    refine List.filterMap_eq_nil_iff.mpr ?_
    intro e he
    have hquiet := h e he
    cases e with
    | received _ | upload _ => cases hquiet
    | responded _ | checkpoint _ | status _ | uploaded _ _ => rfl
  rw [attempted, List.filterMap_append, ← attempted, ← attempted, hnone, List.append_nil]

theorem given_quiet (h : ∀ e ∈ more, e.isQuiet = true) : given (log ++ more) = given log := by
  have hnil : given more = [] := by
    refine List.flatMap_eq_nil_iff.mpr ?_
    intro e he
    have hquiet := h e he
    cases e with
    | received _ | upload _ => cases hquiet
    | responded _ | checkpoint _ | status _ | uploaded _ _ => rfl
  rw [given, List.flatMap_append, ← given, ← given, hnil, List.append_nil]

theorem terminated_quiet (h : ∀ e ∈ more, e.isQuiet = true) :
    terminated (log ++ more) = terminated log := by
  have hfalse : terminated more = false := by
    refine List.any_eq_false.mpr ?_
    intro e he
    have hquiet := h e he
    cases e with
    | received _ | upload _ => cases hquiet
    | responded _ | checkpoint _ | status _ | uploaded _ _ => exact Bool.noConfusion
  rw [terminated, List.any_append, ← terminated, ← terminated, hfalse, Bool.or_false]

theorem objects_quiet (h : ∀ e ∈ more, e.isQuiet = true) (size : Nat) (shardId : Option String) :
    objects size shardId (log ++ more) = objects size shardId log := by
  simp only [objects, given_quiet h, terminated_quiet h]

end

theorem Cut.frame {size : Nat} {k k' : Client} (h : Cut size k) (hframe : Frame k k') :
    Cut size k' := by
  obtain ⟨more, hmore, hquiet⟩ := hframe.log
  refine ⟨?_, ?_⟩
  · rw [hmore, attempted_quiet hquiet, objects_quiet hquiet, hframe.queue, hframe.shardId]
    exact h.objects
  · rw [hmore, given_quiet hquiet, terminated_quiet hquiet, hframe.buffer]
    exact h.buffer

theorem kept_frame : Kept Frame where
  refl _ := .of_log_eq rfl rfl rfl rfl
  trans h h' := h.trans h'
  setCore _ _ := .of_log_eq rfl rfl rfl rfl

theorem frame_sendAction (m : Message (Option String)) (k : Client) :
    Frame k (outcome (sendAction m k)) := by
  cases m <;> exact frame_note rfl

theorem frame_recordProcessorCallback (type : ActionType) (k : Client) :
    Frame k (outcome (recordProcessorCallback type k)) :=
  kept_frame.recordProcessorCallback frame_sendAction type k

theorem Cut.completed {size : Nat} {type : ActionType} {k k' : Client} (h : Cut size k)
    (hk : recordProcessorCallback type k = .ok k') : Cut size k' := by
  have hframe := frame_recordProcessorCallback type k
  rw [hk] at hframe
  exact h.frame hframe

theorem frame_recordCallback (k : Client) : Frame k (outcome (recordCallback k)) := by
  simp only [recordCallback]
  have hcount : Frame k { k with processedCount := k.processedCount + 1 } := .of_log_eq rfl rfl rfl rfl
  split
  · exact hcount.trans (frame_recordProcessorCallback _ _)
  · exact hcount

theorem frame_commitCallback (c : Commit) (k : Client) :
    Frame k (outcome (commitCallback c k)) := by
  have hidle : Frame k { k with worker := .idle } := .of_log_eq rfl rfl rfl rfl
  unfold commitCallback
  cases c.owner with
  | processRecords => exact hidle.trans (frame_recordCallback _)
  | initialization | shutdown => exact hidle.trans (frame_recordProcessorCallback _ _)

theorem frame_checkpoint (c : Commit) (k : Client) : Frame k (outcome (checkpoint c k)) := by
  have hworker : Frame k { k with worker := .checkpointing c } := .of_log_eq rfl rfl rfl rfl
  exact hworker.trans (kept_frame.checkpoint frame_sendAction frame_commitCallback _ c _)

theorem frame_onUploaded (failed : Bool) (c : Commit) (k : Client) :
    Frame k (outcome (onUploaded failed c k)) := by
  have hnote : Frame k (k.note (.uploaded c failed)) := frame_note rfl
  cases failed with
  | true => exact hnote.trans (frame_commitCallback c _)
  | false => exact hnote.trans (frame_checkpoint c _)

theorem frame_onCheckpointAction (failed : Bool) (k : Client) :
    Frame k (outcome (onCheckpointAction failed k)) := by
  have hnote : Frame k (k.note (.responded failed)) := frame_note rfl
  exact hnote.trans (kept_frame.onCheckpointAction frame_commitCallback _)

/-- The chunks closed so far are commits after the given ones, and the open one is in the
buffer. -/
structure Chunked (started : List Commit) (acc : List (List Record) × List Record) (k : Client) :
    Prop where
  closed : started ++ k.queue = acc.1.map (commitOf k.shardId .processRecords)
  buffer : k.buffer = bufferOf acc.2

theorem chunked_processRecord {size : Nat} {started : List Commit}
    {acc : List (List Record) × List Record} {k k' : Client} {r : Record}
    (h : Chunked started acc k) (hk : processRecord size k r = .ok k') :
    Chunked started (Chunks.push size Record.size acc r) k' ∧ k'.shardId = k.shardId ∧
      ∃ more, k'.log = k.log ++ more ∧ ∀ e ∈ more, e.isQuiet = true := by
  have hput : putRecord r.data r.sequenceNumber k.buffer = bufferOf (acc.2 ++ [r]) := by
    rw [h.buffer, bufferOf_concat]
  simp only [processRecord, hput, shouldFlush_bufferOf, decide_eq_true_eq] at hk
  rw [Chunks.push]
  by_cases hfull : size ≤ Chunks.total Record.size (acc.2 ++ [r])
  · rw [if_pos hfull] at hk ⊢
    obtain rfl := Except.ok.inj hk
    refine ⟨⟨?_, rfl⟩, rfl, [], (List.append_nil _).symm, by simp⟩
    simp only [push, commit_bufferOf, ← List.append_assoc, h.closed, List.map_append, List.map_cons,
      List.map_nil]
  · rw [if_neg hfull] at hk ⊢
    have hframe := frame_recordCallback { k with buffer := bufferOf (acc.2 ++ [r]) }
    rw [hk] at hframe
    refine ⟨⟨?_, hframe.buffer⟩, hframe.shardId, hframe.log⟩
    rw [show k'.queue = k.queue from hframe.queue, show k'.shardId = k.shardId from hframe.shardId]
    exact h.closed

theorem chunked_loop {size : Nat} {started : List Commit} (records : List Record)
    {acc : List (List Record) × List Record} {k k' : Client} (h : Chunked started acc k)
    (hk : records.foldlM (processRecord size) k = .ok k') :
    Chunked started (records.foldl (Chunks.push size Record.size) acc) k' ∧
      k'.shardId = k.shardId ∧ ∃ more, k'.log = k.log ++ more ∧ ∀ e ∈ more, e.isQuiet = true := by
  induction records generalizing k acc with
  | nil =>
      obtain rfl := Except.ok.inj hk
      exact ⟨h, rfl, [], (List.append_nil _).symm, by simp⟩
  | cons r records ih =>
      rw [List.foldlM_cons] at hk
      cases hone : processRecord size k r with
      | error e =>
          rw [hone] at hk
          cases hk
      | ok k₁ =>
          rw [hone] at hk
          obtain ⟨hone, hshard, more, hmore, hquiet⟩ := chunked_processRecord h hone
          obtain ⟨hall, hshard', more', hmore', hquiet'⟩ := ih hone hk
          refine ⟨hall, hshard'.trans hshard, more ++ more', ?_, ?_⟩
          · rw [hmore', hmore, List.append_assoc]
          · intro e he
            exact (List.mem_append.mp he).elim (hquiet e) (hquiet' e)

/-- After the shutdown there are no records to come. -/
theorem not_terminated {k : Client} {a : Action}
    (hallows : allows k.log (.action a) = true) : terminated k.log = false := by
  simp only [allows, Bool.and_eq_true, Bool.not_eq_true', List.any_eq_false,
    decide_eq_true_eq] at hallows
  refine List.any_eq_false.mpr ?_
  intro e he hterminate
  cases e with
  | received b =>
      cases b with
      | shutdown reason =>
          exact hallows.1.2 .shutdown (List.mem_filterMap.mpr ⟨_, he, rfl⟩) rfl
      | initialization _ | processRecords _ => cases hterminate
  | responded _ | checkpoint _ | status _ | upload _ | uploaded _ _ => cases hterminate

theorem given_of_begun_nil {log : List Entry} (h : begun log = []) : given log = [] := by
  refine List.flatMap_eq_nil_iff.mpr ?_
  intro e he
  have hnone := List.filterMap_eq_nil_iff.mp h e he
  cases e with
  | received a => cases hnone
  | responded _ | checkpoint _ | status _ | upload _ | uploaded _ _ => rfl

/-- An action without records that does not end the shard. -/
theorem cut_received {size : Nat} {k : Client} {a : Action} (h : Cut size k)
    (hrecords : (Entry.received a).records = []) (hterminate : (Entry.received a).isTerminate = false)
    (state : State) : Cut size { k with state, log := k.log ++ [.received a] } := by
  have hgiven : given (k.log ++ [.received a]) = given k.log := by simp [given, hrecords]
  have hstill : terminated (k.log ++ [.received a]) = terminated k.log := by
    simp [terminated, hterminate]
  have hattempted : attempted (k.log ++ [.received a]) = attempted k.log := by
    simp [attempted_concat, Entry.upload?]
  have hobjects := h.objects
  have hbuffer := h.buffer
  refine ⟨?_, ?_⟩
  · simp only [hattempted, objects, hgiven, hstill]
    exact hobjects
  · simp only [hgiven, hstill]
    exact hbuffer

theorem cut_action {size : Nat} {k k' : Client} {a : Action} (htracked : Tracked none k)
    (h : Cut size k) (hallows : allows k.log (.action a) = true)
    (hk : onRecordProcessorAction size a k = .ok k') : Cut size k' := by
  have hopen := not_terminated hallows
  have hqueue := htracked.pending_nil.2
  have hobjects := h.objects
  have hbuffer := h.buffer
  rw [hqueue, List.append_nil] at hobjects
  rw [hopen, if_neg Bool.false_ne_true] at hbuffer
  rw [objects, hopen, if_neg Bool.false_ne_true, List.append_nil] at hobjects
  rw [onRecordProcessorAction_eq size htracked hallows] at hk
  have hattempted : attempted (k.log ++ [.received a]) = attempted k.log := by
    simp [attempted_concat, Entry.upload?]
  cases a with
  | initialization shardId =>
      obtain rfl := Except.ok.inj hk
      simp only [allows, Action.type, decide_true, Bool.and_eq_true, beq_iff_eq] at hallows
      have hgiven := given_of_begun_nil (List.isEmpty_iff.mp hallows.2.symm)
      rw [hgiven] at hobjects
      have hsame : given (k.log ++ [.received (.initialization shardId)]) = [] := by
        simpa [given, Entry.records] using hgiven
      have hstill : terminated (k.log ++ [.received (.initialization shardId)]) = false := by
        simpa [terminated, Entry.isTerminate] using hopen
      refine ⟨?_, ?_⟩
      · simp only [hattempted, hobjects, objects, hsame, hstill]
        rfl
      · simp only [hsame, hstill, hbuffer, hgiven]
        rfl
  | processRecords input =>
      cases input with
      | none =>
          exact (cut_received (a := .processRecords none) h rfl rfl .processing).completed hk
      | some records =>
          have hchunked : Chunked (attempted k.log) (Chunks.chunks size Record.size (given k.log))
              { k with
                state := .processing
                processedCount := 0
                total := records.length
                log := k.log ++ [.received (.processRecords (some records))] } := by
            refine ⟨?_, hbuffer⟩
            rw [← hobjects, hqueue, List.append_nil]
          obtain ⟨⟨hclosed, hrest⟩, -, more, hmore, hquiet⟩ := chunked_loop records hchunked hk
          rw [← Chunks.chunks_append] at hclosed hrest
          have hgiven : given k'.log = given k.log ++ records := by
            rw [hmore, given_quiet hquiet]
            simp [given, Entry.records]
          have hstill : terminated k'.log = false := by
            rw [hmore, terminated_quiet hquiet]
            simpa [terminated, Entry.isTerminate] using hopen
          refine ⟨?_, ?_⟩
          · rw [objects, hgiven, hstill, if_neg Bool.false_ne_true, List.append_nil, ← hclosed, hmore,
              attempted_quiet hquiet, hattempted]
          · rw [hgiven, hstill, if_neg Bool.false_ne_true]
            exact hrest
  | shutdown reason =>
      by_cases hreason : reason.strictEq (.str "TERMINATE") = true
      · obtain rfl := Except.ok.inj ((if_pos hreason).symm.trans hk)
        have hgiven : given (k.log ++ [.received (.shutdown reason)]) = given k.log := by
          simp [given, Entry.records]
        have hend : terminated (k.log ++ [.received (.shutdown reason)]) = true := by
          simp [terminated, Entry.isTerminate, hreason]
        refine ⟨?_, ?_⟩
        · simp only [push, objects, hattempted, hgiven, hend, if_true, hqueue, List.nil_append, hobjects,
            hbuffer, commit_bufferOf]
        · simp only [push, hend, if_true]
      · have hother : (Entry.received (.shutdown reason)).isTerminate = false :=
          Bool.eq_false_iff.mpr hreason
        exact (cut_received h rfl hother .shuttingDown).completed ((if_neg hreason).symm.trans hk)

theorem cut_start {size : Nat} {k : Client} {c : Commit} {queue : List Commit} (h : Cut size k)
    (hqueue : k.queue = c :: queue) :
    Cut size ({ k with worker := .uploading c, queue }.note (.upload c)) := by
  have hgiven : given (k.log ++ [.upload c]) = given k.log := by simp [given, Entry.records]
  have hstill : terminated (k.log ++ [.upload c]) = terminated k.log := by
    simp [terminated, Entry.isTerminate]
  have hattempted : attempted (k.log ++ [.upload c]) = attempted k.log ++ [c] :=
    attempted_concat _ _
  have hobjects := h.objects
  have hbuffer := h.buffer
  refine ⟨?_, ?_⟩
  · simp only [Client.note, hattempted, objects, hgiven, hstill]
    rw [List.append_assoc, List.singleton_append, ← hqueue]
    exact hobjects
  · simp only [Client.note, hgiven, hstill]
    exact hbuffer

theorem cut_step {size : Nat} {s s' : Session} {e : Event} {current : Option ActionType}
    (htracked : Tracked current s.client) (h : Cut size s.client)
    (hs : (session size).step s e = some s') : Cut size s'.client := by
  obtain ⟨-, hlistens, hallows, hreact⟩ := session_cases hs
  cases e with
  | action a =>
      have hlen : (begun s.client.log).length = (completed s.client.log).length := by
        simp only [allows, Bool.and_eq_true, decide_eq_true_eq] at hallows
        exact hallows.1.1
      obtain rfl := htracked.current_eq_none hlen
      obtain ⟨k', -, hk', -⟩ := tracked_action size htracked (hlistens rfl) hallows
      obtain rfl := Option.some.inj hreact
      rw [hk']
      exact cut_action htracked h hallows hk'
  | initialized failed =>
      obtain ⟨-, hreact⟩ := Option.ite_none_right_eq_some.mp hreact
      have hframe : Frame s.client { s.client with waiting := false } := .of_log_eq rfl rfl rfl rfl
      cases failed with
      | true =>
          obtain rfl := Option.some.inj hreact
          exact h.frame hframe
      | false =>
          obtain rfl := Option.some.inj hreact
          rw [finish_client]
          exact h.frame (hframe.trans (frame_recordProcessorCallback _ _))
  | start =>
      simp only [react] at hreact
      split at hreact
      · rename_i c queue _ hqueue
        obtain rfl := Option.some.inj hreact
        exact cut_start h hqueue
      · cases hreact
  | uploaded failed =>
      simp only [react] at hreact
      split at hreact
      · obtain rfl := Option.some.inj hreact
        rw [finish_client]
        exact h.frame (frame_onUploaded failed _ _)
      · cases hreact
  | response failed =>
      obtain rfl := Option.some.inj hreact
      rw [finish_client]
      exact h.frame (frame_onCheckpointAction failed _)
  | closed =>
      obtain rfl := Option.some.inj hreact
      rw [finish_client]
      exact h.frame (kept_frame.onActionEnd _)

theorem cut_run {size : Nat} {tr : List (Session × Event)} {s : Session}
    (h : (session size).Run tr s) : Cut size s.client := by
  refine h.invariant (fun _ s => Cut size s.client) ⟨rfl, rfl⟩ ?_
  intro tr s e s' hr hinv hs
  obtain ⟨-, current, k, htracked, -, -, hsame⟩ := tracked_run hr
  obtain rfl := hsame (session_cases hs).1
  exact cut_step htracked hinv hs

theorem bytes_append (records more : List Record) :
    bytes (records ++ more) = bytes records ++ bytes more := List.flatMap_append

theorem bytes_flatten (chunks : List (List Record)) : bytes chunks.flatten = chunks.flatMap bytes := by
  rw [bytes, List.flatMap_def, List.map_flatten, List.flatten_flatten, List.map_map]
  rfl

/-- The objects and what is left in the buffer hold the lines of the records, in order. -/
theorem Cut.bytes_eq {size : Nat} {k : Client} (h : Cut size k) :
    (attempted k.log ++ k.queue).flatMap Commit.data ++ k.buffer.records.flatten =
      bytes (given k.log) := by
  have hgiven : bytes (given k.log) =
      bytes (Chunks.chunks size Record.size (given k.log)).1.flatten ++
        bytes (Chunks.chunks size Record.size (given k.log)).2 := by
    rw [← bytes_append, Chunks.flatten_chunks]
  have hdata : ∀ owner (chunks : List (List Record)),
      (chunks.map (commitOf k.shardId owner)).flatMap Commit.data = bytes chunks.flatten := by
    intro owner chunks
    rw [bytes_flatten, List.flatMap_map]
    rfl
  rw [h.objects, h.buffer, ClickStream.objects, List.flatMap_append, hdata, hgiven]
  cases terminated k.log with
  | true => simp [commitOf, Buffer.cleared]
  | false => simp [(bufferOf_holds _).bytes]

theorem size_le_of_mem_objects {size : Nat} (hsize : 0 < size) {shardId : Option String}
    {log : List Entry} {c : Commit} (hc : c ∈ objects size shardId log)
    (howner : c.owner = .processRecords) : size ≤ c.data.length := by
  rcases List.mem_append.mp hc with hc | hc
  · obtain ⟨chunk, hchunk, rfl⟩ := List.mem_map.mp hc
    have hbounds := Chunks.chunk_bounds size Record.size hsize hchunk
    rw [total_size] at hbounds
    exact hbounds.1
  · split at hc
    · rw [List.mem_singleton.mp hc] at howner
      cases howner
    · exact absurd hc List.not_mem_nil

/-- Over every run with a conforming daemon, whatever the batches and however the uploads end:
the commits that were started or wait are the chunks of the records that the shard has
delivered, in order, each with its bytes, its key and the sequence number of its last
record; together with the buffer they hold every line once. A commit of a batch has at
least the given size, and the buffer less. -/
theorem uploads_are_chunks {size : Nat} {tr : List (Session × Event)} {s : Session}
    (h : (session size).Run tr s) :
    attempted s.client.log ++ s.client.queue = objects size s.client.shardId s.client.log ∧
    (attempted s.client.log ++ s.client.queue).flatMap Commit.data ++
      s.client.buffer.records.flatten = bytes (given s.client.log) ∧
    (0 < size → s.client.buffer.records.flatten.length < size ∧
      ∀ c ∈ attempted s.client.log ++ s.client.queue, c.owner = .processRecords →
        size ≤ c.data.length) := by
  have hcut := cut_run h
  refine ⟨hcut.objects, hcut.bytes_eq, ?_⟩
  intro hsize
  refine ⟨?_, ?_⟩
  · rw [hcut.buffer]
    split
    · exact hsize
    · rw [(bufferOf_holds _).bytes, ← total_size]
      exact Chunks.rest_lt size Record.size hsize _
  · intro c hc howner
    rw [hcut.objects] at hc
    exact size_le_of_mem_objects hsize hc howner

/-- Three records in two batches make a full object and one at the end. -/
theorem uploads_are_chunks_two_batches :
    ∃ tr s, (session 5).Run tr s ∧
      tr.map Prod.snd = [.action (.initialization "shardId-0"), .initialized false,
        .action (.processRecords (some [⟨[97, 98], "1"⟩])),
        .action (.processRecords (some [⟨[99, 100], "2"⟩, ⟨[101], "3"⟩])), .start, .uploaded false,
        .response false, .action (.shutdown (.str "TERMINATE"))] ∧
      objects 5 s.client.shardId s.client.log =
        [⟨"shardId-0/1-2", some "2", [97, 98, 10, 99, 100, 10], .processRecords⟩,
          ⟨"shardId-0/3-3", some "3", [101, 10], .shutdown⟩] ∧
      attempted s.client.log ++ s.client.queue = objects 5 s.client.shardId s.client.log := by
  have hrun := System.Run.nil.exec (S := session 5)
    [.action (.initialization "shardId-0"), .initialized false,
      .action (.processRecords (some [⟨[97, 98], "1"⟩])),
      .action (.processRecords (some [⟨[99, 100], "2"⟩, ⟨[101], "3"⟩])), .start, .uploaded false,
      .response false, .action (.shutdown (.str "TERMINATE"))] rfl
  exact ⟨_, _, hrun, rfl, rfl, (uploads_are_chunks hrun).1⟩

end PlenarioStream.ClickStream

import PlenarioStream.ClickStream.Objects

/-!
What a checkpoint vouches for. The worker uploads one object after another and requests a
checkpoint when the upload of an object has succeeded; a failed upload is given up. So when
a checkpoint is requested, all records up to it are stored exactly when no upload has
failed so far.
-/
namespace PlenarioStream.ClickStream
open Js Transition Kcl.Library
open Kcl (State Input ActionType)

def Entry.outcome? : Entry → Option (Commit × Bool)
  | uploaded c failed => some (c, failed)
  | _ => none

/-- The uploads that have ended, and whether they failed. -/
def outcomes (log : List Entry) : List (Commit × Bool) := log.filterMap Entry.outcome?

theorem outcomes_concat (log : List Entry) (e : Entry) :
    outcomes (log ++ [e]) = outcomes log ++ e.outcome?.toList := by
  cases h : e.outcome? <;> simp [outcomes, h]

/-- The objects that are stored. -/
def stored (log : List Entry) : List Commit :=
  ((outcomes log).filter fun o => !o.2).map Prod.fst

def Worker.uploading? : Worker → Option Commit
  | uploading c => some c
  | idle | checkpointing _ => none

/-- Every upload that has begun has ended, but for that of the worker; and a checkpoint is
that of the last one. -/
structure Sequential (k : Client) : Prop where
  attempted : attempted k.log = (outcomes k.log).map Prod.fst ++ k.worker.uploading?.toList
  last : ∀ c, k.worker = .checkpointing c → (outcomes k.log).getLast? = some (c, false)

/-- A part of the client leaves the worker, and no upload begins or ends. -/
structure Still (k k' : Client) : Prop where
  worker : k'.worker = k.worker
  attempted : attempted k'.log = attempted k.log
  outcomes : outcomes k'.log = outcomes k.log

theorem Still.trans {k k' k'' : Client} (h : Still k k') (h' : Still k' k'') : Still k k'' :=
  ⟨h'.worker.trans h.worker, h'.attempted.trans h.attempted, h'.outcomes.trans h.outcomes⟩

theorem Still.of_log_eq {k k' : Client} (hworker : k'.worker = k.worker) (hlog : k'.log = k.log) :
    Still k k' := ⟨hworker, by rw [hlog], by rw [hlog]⟩

theorem still_note {k : Client} {e : Entry} (hupload : e.upload? = none) (houtcome : e.outcome? = none) :
    Still k (k.note e) := by
  refine ⟨rfl, ?_, ?_⟩
  · simp [Client.note, attempted_concat, hupload]
  · simp [Client.note, outcomes_concat, houtcome]

theorem Sequential.still {k k' : Client} (h : Sequential k) (hstill : Still k k') : Sequential k' := by
  refine ⟨?_, ?_⟩
  · rw [hstill.attempted, hstill.outcomes, hstill.worker]
    exact h.attempted
  · rw [hstill.worker, hstill.outcomes]
    exact h.last

theorem kept_still : Kept Still where
  refl _ := .of_log_eq rfl rfl
  trans h h' := h.trans h'
  setCore _ _ := .of_log_eq rfl rfl

theorem still_sendAction (m : Message (Option String)) (k : Client) :
    Still k (outcome (sendAction m k)) := by
  cases m <;> exact still_note rfl rfl

theorem still_recordProcessorCallback (type : ActionType) (k : Client) :
    Still k (outcome (recordProcessorCallback type k)) :=
  kept_still.recordProcessorCallback still_sendAction type k

theorem still_recordCallback (k : Client) : Still k (outcome (recordCallback k)) := by
  simp only [recordCallback]
  have hcount : Still k { k with processedCount := k.processedCount + 1 } := .of_log_eq rfl rfl
  split
  · exact hcount.trans (still_recordProcessorCallback _ _)
  · exact hcount

theorem still_processRecord (size : Nat) (k : Client) (r : Record) :
    Still k (outcome (processRecord size k r)) := by
  simp only [processRecord]
  split
  · exact .of_log_eq rfl rfl
  · have hput : Still k { k with buffer := putRecord r.data r.sequenceNumber k.buffer } :=
      .of_log_eq rfl rfl
    exact hput.trans (still_recordCallback _)

theorem still_loop (size : Nat) (records : List Record) (k : Client) :
    Still k (outcome (records.foldlM (processRecord size) k)) := by
  induction records generalizing k with
  | nil => exact .of_log_eq rfl rfl
  | cons r records ih =>
      rw [List.foldlM_cons]
      exact kept_still.bind (still_processRecord size k r) ih

theorem still_recordProcessor (size : Nat) (a : Action) (k : Client) :
    Still k (outcome (recordProcessor size a k)) := by
  cases a with
  | initialization shardId => exact .of_log_eq rfl rfl
  | processRecords input =>
      cases input with
      | none => exact still_recordProcessorCallback _ k
      | some records =>
          have hbatch : Still k { k with processedCount := 0, total := records.length } :=
            .of_log_eq rfl rfl
          exact hbatch.trans (still_loop size records _)
  | shutdown reason =>
      simp only [recordProcessor]
      split
      · exact .of_log_eq rfl rfl
      · exact still_recordProcessorCallback _ k

theorem still_onRecordProcessorAction (size : Nat) (a : Action) (k : Client) :
    Still k (outcome (onRecordProcessorAction size a k)) := by
  have hnote : Still k (k.note (.received a)) := still_note rfl rfl
  exact hnote.trans (kept_still.bind (kept_still.handleStateInput _ _) (still_recordProcessor size a))

theorem still_commitCallback (c : Commit) (k : Client) :
    Still { k with worker := .idle } (outcome (commitCallback c k)) := by
  unfold commitCallback
  cases c.owner with
  | processRecords => exact still_recordCallback _
  | initialization | shutdown => exact still_recordProcessorCallback _ _

/-- The worker has ended the upload of its commit. -/
theorem Sequential.ended {k : Client} {c : Commit} (h : Sequential k)
    (hworker : k.worker = .uploading c) (failed : Bool) :
    ClickStream.attempted (k.note (.uploaded c failed)).log =
        (outcomes (k.note (.uploaded c failed)).log).map Prod.fst ∧
      (outcomes (k.note (.uploaded c failed)).log).getLast? = some (c, failed) := by
  have hattempted := h.attempted
  rw [hworker] at hattempted
  simp [Client.note, attempted_concat, outcomes_concat, Entry.upload?, Entry.outcome?, hattempted,
    Worker.uploading?]

theorem sequential_step {size : Nat} {s s' : Session} {e : Event} {current : Option ActionType}
    (htracked : Tracked current s.client) (h : Sequential s.client)
    (hs : (session size).step s e = some s') : Sequential s'.client := by
  obtain ⟨-, -, hallows, hreact⟩ := session_cases hs
  cases e with
  | action a =>
      obtain rfl := Option.some.inj hreact
      rw [finish_client]
      exact h.still (still_onRecordProcessorAction size a _)
  | initialized failed =>
      obtain ⟨-, hreact⟩ := Option.ite_none_right_eq_some.mp hreact
      have hstill : Still s.client { s.client with waiting := false } := .of_log_eq rfl rfl
      cases failed with
      | true =>
          obtain rfl := Option.some.inj hreact
          exact h.still hstill
      | false =>
          obtain rfl := Option.some.inj hreact
          rw [finish_client]
          exact h.still (hstill.trans (still_recordProcessorCallback _ _))
  | start =>
      simp only [react] at hreact
      split at hreact
      · rename_i c queue hworker _
        obtain rfl := Option.some.inj hreact
        have hattempted := h.attempted
        rw [hworker] at hattempted
        refine ⟨?_, fun d hd => Worker.noConfusion hd⟩
        simpa [Client.note, attempted_concat, outcomes_concat, Entry.upload?, Entry.outcome?,
          Worker.uploading?] using hattempted
      · cases hreact
  | uploaded failed =>
      simp only [react] at hreact
      split at hreact
      · rename_i c hworker
        obtain rfl := Option.some.inj hreact
        obtain ⟨hattempted, hlast⟩ := h.ended hworker failed
        cases failed with
        | true =>
            rw [finish_client]
            refine Sequential.still (k := { s.client.note (.uploaded c true) with worker := .idle })
              ⟨?_, fun d hd => Worker.noConfusion hd⟩ (still_commitCallback c _)
            rw [hattempted]
            exact (List.append_nil _).symm
        | false =>
            have hnote : Tracked current (s.client.note (.uploaded c false)) :=
              htracked.note rfl rfl rfl rfl
            simp only [onUploaded, Bool.false_eq_true, if_false]
            rw [hnote.checkpoint hworker]
            refine ⟨?_, ?_⟩
            · simpa [finish, attempted_concat, outcomes_concat, Entry.upload?, Entry.outcome?,
                Worker.uploading?] using hattempted
            · intro d hd
              obtain rfl : c = d := by simpa [finish] using hd
              simpa [finish, outcomes_concat, Entry.outcome?] using hlast
      · cases hreact
  | response failed =>
      obtain ⟨c, hworker, hstep⟩ := htracked.response hallows
      obtain rfl := Option.some.inj hreact
      rw [hstep, finish_client]
      have hattempted := h.attempted
      rw [hworker] at hattempted
      refine Sequential.still ⟨?_, fun d hd => Worker.noConfusion hd⟩ (still_commitCallback c _)
      simpa [attempted_concat, outcomes_concat, Entry.upload?, Entry.outcome?, Worker.uploading?]
        using hattempted
  | closed =>
      obtain rfl := Option.some.inj hreact
      rw [finish_client]
      exact h.still (kept_still.onActionEnd _)

theorem sequential_run {size : Nat} {tr : List (Session × Event)} {s : Session}
    (h : (session size).Run tr s) : Sequential s.client := by
  refine h.invariant (fun _ s => Sequential s.client) ⟨rfl, fun c hc => Worker.noConfusion hc⟩ ?_
  intro tr s e s' hr hinv hs
  obtain ⟨-, current, k, htracked, -, -, hsame⟩ := tracked_run hr
  obtain rfl := hsame (session_cases hs).1
  exact sequential_step htracked hinv hs

/-- The pieces into which the records are cut, each with the action that it is uploaded for. -/
def pieces (size : Nat) (log : List Entry) : List (ActionType × List Record) :=
  (Chunks.chunks size Record.size (given log)).1.map (fun chunk => (.processRecords, chunk)) ++
    if terminated log then [(.shutdown, (Chunks.chunks size Record.size (given log)).2)] else []

theorem objects_eq_pieces (size : Nat) (shardId : Option String) (log : List Entry) :
    objects size shardId log = (pieces size log).map fun p => commitOf shardId p.1 p.2 := by
  rw [objects, pieces, List.map_append, List.map_map]
  cases terminated log <;> rfl

theorem given_eq_pieces (size : Nat) (log : List Entry) :
    ∃ rest, given log = (pieces size log).flatMap Prod.snd ++ rest := by
  have hchunks := Chunks.flatten_chunks size Record.size (given log)
  have hclosed : ((Chunks.chunks size Record.size (given log)).1.map
      (fun chunk => (ActionType.processRecords, chunk))).flatMap Prod.snd =
        (Chunks.chunks size Record.size (given log)).1.flatten := by
    rw [List.flatMap_map]
    exact List.flatMap_id
  rw [pieces, List.flatMap_append, hclosed]
  cases terminated log with
  | true => exact ⟨[], by simp [hchunks]⟩
  | false => exact ⟨_, by simpa using hchunks.symm⟩

theorem data_pieces (shardId : Option String) (ps : List (ActionType × List Record)) :
    (ps.map fun p => commitOf shardId p.1 p.2).flatMap Commit.data = bytes (ps.flatMap Prod.snd) := by
  induction ps with
  | nil => rfl
  | cons p ps ih => rw [List.map_cons, List.flatMap_cons, ih, List.flatMap_cons, bytes_append]; rfl

/-- Only the last piece may be one that ends the shard. -/
theorem owner_of_not_last {size : Nat} {log : List Entry} {before after : List (ActionType × List Record)}
    {p q : ActionType × List Record} (h : pieces size log = before ++ p :: after) (hq : q ∈ before) :
    q.1 = .processRecords := by
  have hclosed : before <+: (Chunks.chunks size Record.size (given log)).1.map
      fun chunk => (ActionType.processRecords, chunk) := by
    rw [pieces] at h
    cases hend : terminated log with
    | true =>
        rw [hend, if_pos rfl] at h
        have hdrop := congrArg List.dropLast h
        rw [List.dropLast_concat, List.dropLast_append_of_ne_nil (List.cons_ne_nil _ _)] at hdrop
        exact ⟨_, hdrop.symm⟩
    | false =>
        rw [hend, if_neg Bool.false_ne_true, List.append_nil] at h
        exact ⟨_, h.symm⟩
  obtain ⟨chunk, -, rfl⟩ := List.mem_map.mp (hclosed.subset hq)
  rfl

/-- While the checkpoint of an object is requested, the object is a piece of the records that
the shard has delivered, and everything up to its last record is stored exactly when no
upload has failed so far. -/
theorem checkpoint_vouches_iff {size : Nat} (hsize : 0 < size) {tr : List (Session × Event)}
    {s : Session} (h : (session size).Run tr s) {c : Commit}
    (hworker : s.client.worker = .checkpointing c) :
    ∃ before chunk rest, given s.client.log = before ++ chunk ++ rest ∧
      c = commitOf s.client.shardId c.owner chunk ∧
      ((stored s.client.log).flatMap Commit.data = bytes (before ++ chunk) ↔
        ∀ o ∈ outcomes s.client.log, o.2 = false) := by
  have hseq := sequential_run h
  have hobjects := (cut_run h).objects
  have hattempted := hseq.attempted
  obtain ⟨ended, hended⟩ := List.getLast?_eq_some_iff.mp (hseq.last c hworker)
  rw [hworker] at hattempted
  simp only [Worker.uploading?, Option.toList_none, List.append_nil] at hattempted
  -- the pieces are those of the uploads that have ended, that of the checkpoint, and the others
  rw [objects_eq_pieces, hattempted, hended, List.map_append, List.append_assoc] at hobjects
  obtain ⟨before, after, hpieces, hbefore, hafter⟩ := List.map_eq_append_iff.mp hobjects.symm
  obtain ⟨p, after, rfl, hp, -⟩ := List.map_eq_cons_iff.mp hafter
  obtain rfl : commitOf s.client.shardId p.1 p.2 = c := hp
  obtain ⟨rest, hrest⟩ := given_eq_pieces size s.client.log
  rw [hpieces, List.flatMap_append, List.flatMap_cons, List.append_assoc, List.append_assoc,
    ← List.append_assoc] at hrest
  refine ⟨before.flatMap Prod.snd, p.2, after.flatMap Prod.snd ++ rest, hrest, rfl, ?_⟩
  have hall : (outcomes s.client.log).flatMap (fun o => o.1.data) =
      bytes (before.flatMap Prod.snd ++ p.2) := by
    have hdata := data_pieces s.client.shardId before
    rw [hbefore, List.flatMap_map] at hdata
    rw [hended, List.flatMap_append, hdata, bytes_append]
    simp [commitOf]
  rw [stored, List.flatMap_map, ← hall, Chunks.flatMap_filter_eq_iff]
  refine forall_congr' fun o => forall_congr' fun ho => ?_
  simp only [Bool.not_eq_false']
  refine ⟨?_, ?_⟩
  · intro hempty
    rw [← Bool.not_eq_true]
    intro hfailed
    have hmem : o ∈ ended := by
      rw [hended] at ho
      rcases List.mem_append.mp ho with ho | ho
      · exact ho
      · rw [List.mem_singleton.mp ho] at hfailed
        cases hfailed
    have hcommit : o.1 ∈ before.map fun p => commitOf s.client.shardId p.1 p.2 := by
      rw [hbefore]
      exact List.mem_map_of_mem hmem
    obtain ⟨q, hq, hqo⟩ := List.mem_map.mp hcommit
    have howner : o.1.owner = .processRecords := by
      rw [← hqo]
      exact owner_of_not_last hpieces hq
    have hobject : o.1 ∈ objects size s.client.shardId s.client.log := by
      rw [objects_eq_pieces, hpieces, List.map_append]
      exact List.mem_append_left _ hcommit
    have hlarge := size_le_of_mem_objects hsize hobject howner
    rw [hempty hfailed, List.length_nil] at hlarge
    omega
  · intro hok hfailed
    rw [hok] at hfailed
    cases hfailed

/-- The first upload fails, and the checkpoint of the second record is requested all the
same. -/
theorem checkpoint_vouches_not_after_failure :
    ∃ tr s c, (session 3).Run tr s ∧ s.client.worker = .checkpointing c ∧
      c.sequenceNumber = some "2" ∧ ∃ before chunk rest,
        given s.client.log = before ++ chunk ++ rest ∧ c = commitOf s.client.shardId c.owner chunk ∧
        (stored s.client.log).flatMap Commit.data ≠ bytes (before ++ chunk) := by
  have hrun := System.Run.nil.exec (S := session 3)
    [.action (.initialization "shardId-0"), .initialized false,
      .action (.processRecords (some twoClicks)), .start, .uploaded true, .start, .uploaded false] rfl
  obtain ⟨before, chunk, rest, hgiven, hcommit, hiff⟩ :=
    checkpoint_vouches_iff (by decide) hrun rfl
  refine ⟨_, _, _, hrun, rfl, rfl, before, chunk, rest, hgiven, hcommit, ?_⟩
  intro hall
  exact absurd (hiff.mp hall _ List.mem_cons_self) Bool.noConfusion

end PlenarioStream.ClickStream

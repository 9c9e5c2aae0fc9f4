import PlenarioStream.ClickStream.Protocol

/-!
Whether an action is answered. What the emitter, the worker and the daemon's responses can
still do for an action is bounded, and as long as it is not answered one of them can go on;
only a batch without records leaves nothing that could happen, and no status either.
-/
namespace PlenarioStream.ClickStream
open Js Transition Kcl.Library
open Kcl (State Input ActionType)

/-- The events that belong to the action under way. -/
def Event.isInternal : Event → Bool
  | initialized _ | start | uploaded _ | response _ => true
  | action _ | closed => false

/-- The steps that the worker has still to make for its commit. -/
def Worker.rank : Worker → Nat
  | idle => 0
  | checkpointing _ => 1
  | uploading _ => 2

/-- The steps that are still to be made for the action under way, at most. -/
def Client.work (k : Client) : Nat :=
  k.waiting.toNat + (3 * k.queue.length + k.worker.rank)

theorem kept_work : Kept fun k k' : Client => k'.work = k.work where
  refl _ := rfl
  trans h h' := h'.trans h
  setCore _ _ := rfl

theorem work_recordProcessorCallback (type : ActionType) (k : Client) :
    (outcome (recordProcessorCallback type k)).work = k.work := by
  have hsend : ∀ m k, (outcome (sendAction m k)).work = k.work := by
    intro m k
    cases m <;> rfl
  exact kept_work.recordProcessorCallback hsend type k

theorem work_commitCallback (c : Commit) (k : Client) :
    (outcome (commitCallback c k)).work = ({ k with worker := .idle } : Client).work := by
  unfold commitCallback
  cases c.owner with
  | initialization | shutdown => exact work_recordProcessorCallback _ _
  | processRecords =>
      simp only [recordCallback]
      split
      · exact work_recordProcessorCallback _ _
      · rfl

theorem work_worker_lt {k : Client} {w : Worker} (h : w.rank < k.worker.rank) :
    ({ k with worker := w } : Client).work < k.work := by
  have hwork : ({ k with worker := w } : Client).work =
      k.waiting.toNat + (3 * k.queue.length + w.rank) := rfl
  rw [hwork, Client.work]
  omega

theorem work_step {size : Nat} {s s' : Session} {e : Event} {current : Option ActionType}
    (h : Tracked current s.client) (he : e.isInternal = true)
    (hs : (session size).step s e = some s') : s'.client.work < s.client.work := by
  obtain ⟨-, -, hallows, hreact⟩ := session_cases hs
  cases e with
  | action a | closed => cases he
  | initialized failed =>
      obtain ⟨hwaiting, hreact⟩ := Option.ite_none_right_eq_some.mp hreact
      have hlt : ({ s.client with waiting := false } : Client).work < s.client.work := by
        simp [Client.work, hwaiting]
      cases failed with
      | true =>
          obtain rfl := Option.some.inj hreact
          exact hlt
      | false =>
          obtain rfl := Option.some.inj hreact
          rw [finish_client, work_recordProcessorCallback]
          exact hlt
  | start =>
      simp only [react] at hreact
      split at hreact
      · rename_i c queue hworker hqueue
        obtain rfl := Option.some.inj hreact
        simp only [Client.work, Client.note, hworker, hqueue, Worker.rank, List.length_cons]
        omega
      · cases hreact
  | uploaded failed =>
      simp only [react] at hreact
      split at hreact
      · rename_i c hworker
        obtain rfl := Option.some.inj hreact
        have hrank : ∀ w : Worker, w.rank < 2 → w.rank < s.client.worker.rank := by
          intro w hw
          rwa [hworker]
        cases failed with
        | true =>
            simp only [onUploaded, if_true]
            rw [finish_client, work_commitCallback]
            exact work_worker_lt (k := s.client) (hrank .idle Nat.two_pos)
        | false =>
            have hnote : Tracked current (s.client.note (.uploaded c false)) :=
              h.note rfl rfl rfl rfl
            simp only [onUploaded, Bool.false_eq_true, if_false]
            rw [hnote.checkpoint hworker]
            exact work_worker_lt (k := s.client) (hrank (.checkpointing c) Nat.one_lt_two)
      · cases hreact
  | response failed =>
      obtain ⟨c, hworker, hstep⟩ := h.response hallows
      obtain rfl := Option.some.inj hreact
      rw [hstep, finish_client, work_commitCallback]
      exact work_worker_lt (k := s.client) (by rw [hworker]; exact Nat.one_pos)

/-- Steps for the action under way, one after another, use up the work. -/
theorem work_exec {size : Nat} (es : List Event) (hes : ∀ e ∈ es, e.isInternal = true)
    {tr more : List (Session × Event)} {s s' : Session} (h : (session size).Run tr s)
    (hexec : (session size).exec s es = some (more, s')) :
    es.length + s'.client.work ≤ s.client.work := by
  induction es generalizing tr more s with
  | nil =>
      simp only [System.exec, Option.some.injEq, Prod.mk.injEq] at hexec
      rw [← hexec.2, List.length_nil, Nat.zero_add]
  | cons e es ih =>
      obtain ⟨t, rest, hs, hrest, -⟩ := System.exec_cons hexec
      obtain ⟨-, current, k, htracked, -, -, hsame⟩ := tracked_run h
      obtain rfl := hsame (session_cases hs).1
      have hone := work_step htracked (hes e List.mem_cons_self) hs
      have hmore := ih (fun e he => hes e (List.mem_cons_of_mem _ he)) (h.snoc hs) hrest
      rw [List.length_cons]
      omega

section
variable {size : Nat} {current : Option ActionType} {s : Session}

theorem enabled {e : Event} (hrunning : s.ending = .running)
    (hlistens : e.isDaemon = true → s.client.destroyed = false)
    (hallows : allows s.client.log e = true) (hreact : react size s.client e ≠ none) :
    (session size).step s e ≠ none := by
  have hguard : (decide (s.ending = .running) && (!e.isDaemon || !s.client.destroyed) &&
      allows s.client.log e) = true := by
    rw [hallows, decide_eq_true hrunning]
    cases hdaemon : e.isDaemon with
    | false => rfl
    | true => rw [hlistens hdaemon]; rfl
  rw [show (session size).step s e = react size s.client e from if_pos hguard]
  exact hreact

/-- As long as commits are pending, the worker or the daemon can go on. -/
theorem enabled_of_pending (size : Nat) (h : Tracked current s.client) (hrunning : s.ending = .running)
    (hpending : s.client.pending ≠ []) : ∃ e, (session size).step s e ≠ none := by
  cases hworker : s.client.worker with
  | idle =>
      cases hqueue : s.client.queue with
      | nil => simp [Client.pending, hworker, hqueue, Worker.toList] at hpending
      | cons c queue =>
          refine ⟨.start, enabled hrunning Bool.noConfusion rfl ?_⟩
          simp [react, hworker, hqueue]
  | uploading c =>
      refine ⟨.uploaded false, enabled hrunning Bool.noConfusion rfl ?_⟩
      simp [react, hworker]
  | checkpointing c =>
      obtain ⟨hcurrent, -⟩ := h.worker_owner (c := c) (by rw [hworker]; rfl)
      refine ⟨.response false, enabled hrunning ?_ ?_ (Option.some_ne_none _)⟩
      · intro _
        rw [← Bool.not_eq_true]
        intro hdestroyed
        rw [h.listening hdestroyed] at hcurrent
        cases hcurrent
      · have hrequests := h.requests
        rw [h.callback, hworker] at hrequests
        simp only [Worker.requested, Option.toList_some, List.length_singleton] at hrequests
        simp only [allows, decide_eq_true_eq]
        omega

/-- When nothing is pending and the emitter is there, an action without status leaves nothing
to happen. -/
theorem stuck_of_pending_nil {type : ActionType} (h : Tracked (some type) s.client)
    (hpending : s.client.pending = []) (hwaiting : s.client.waiting = false) (e : Event) :
    (session size).step s e = none := by
  obtain ⟨hworker, hqueue⟩ := List.append_eq_nil_iff.mp hpending
  have hlen : (begun s.client.log).length ≠ (completed s.client.log).length := by
    rw [h.answered]
    simp
  by_contra hne
  obtain ⟨s', hs⟩ := Option.ne_none_iff_exists'.mp hne
  obtain ⟨-, -, hallows, hreact⟩ := session_cases hs
  cases e with
  | action a | closed => simp [allows, hlen] at hallows
  | initialized failed => simp [react, hwaiting] at hreact
  | start => simp [react, hqueue] at hreact
  | uploaded failed =>
      simp only [react] at hreact
      split at hreact
      · rename_i c hc
        rw [hc] at hworker
        cases hworker
      · cases hreact
  | response failed =>
      obtain ⟨c, hc, -⟩ := h.response hallows
      rw [hc] at hworker
      cases hworker

end

theorem getLast?_begun (log : List Entry) :
    (begun log).getLast? = (lastReceived log).map Action.type := by
  have hbegun : begun log = (log.filterMap Entry.received?).map Action.type := by
    rw [begun, List.map_filterMap]
    congr 1
    funext e
    cases e <;> rfl
  rw [hbegun, List.getLast?_map, lastReceived]

/-- While an action of a running client is without its status, nothing at all can happen
exactly when the action is a batch without records. Otherwise something can, and whatever is
done for the action, the steps are bounded in advance. -/
theorem stuck_iff_no_records {size : Nat} {tr : List (Session × Event)} {s : Session}
    (h : (session size).Run tr s) (hrunning : s.ending = .running)
    (hopen : (begun s.client.log).length ≠ (completed s.client.log).length) :
    ((∀ e, (session size).step s e = none) ↔
      lastReceived s.client.log = some (.processRecords (some []))) ∧
    ∀ es more s', (∀ e ∈ es, e.isInternal = true) → (session size).exec s es = some (more, s') →
      es.length + s'.client.work ≤ s.client.work := by
  refine ⟨?_, fun es more s' hes hexec => work_exec es hes h hexec⟩
  obtain ⟨-, current, k, htracked, -, -, hsame⟩ := tracked_run h
  obtain rfl := hsame hrunning
  cases current with
  | none =>
      refine absurd ?_ hopen
      rw [htracked.answered, Option.toList_none, List.append_nil]
  | some type =>
      have hlast : (lastReceived s.client.log).map Action.type = some type := by
        rw [← getLast?_begun, htracked.answered]
        exact List.getLast?_concat
      refine ⟨?_, ?_⟩
      · intro hstuck
        by_cases hpending : s.client.pending = []
        · cases type with
          | initialization =>
              have hwaiting := htracked.waiting.mpr rfl
              refine absurd (hstuck (.initialized false)) (enabled hrunning Bool.noConfusion rfl ?_)
              simp [react, hwaiting]
          | processRecords =>
              obtain ⟨records, hreceived, htotal⟩ := htracked.batch rfl
              rw [(htracked.counted rfl).2 hpending] at htotal
              rw [hreceived, List.length_eq_zero_iff.mp htotal.symm]
          | shutdown =>
              have hone := htracked.final rfl
              rw [hpending] at hone
              cases hone
        · obtain ⟨e, he⟩ := enabled_of_pending size htracked hrunning hpending
          exact absurd (hstuck e) he
      · intro hreceived e
        rw [hreceived] at hlast
        obtain rfl := Option.some.inj hlast
        obtain ⟨records, hrecords, htotal⟩ := htracked.batch rfl
        rw [hreceived] at hrecords
        obtain rfl : records = [] := by simpa using hrecords.symm
        have hcount := (htracked.counted rfl).1
        rw [htotal, List.length_nil] at hcount
        have hwaiting : s.client.waiting = false := by
          rw [← Bool.not_eq_true, htracked.waiting]
          intro hinit
          cases hinit
        exact stuck_of_pending_nil htracked (List.length_eq_zero_iff.mp (by omega)) hwaiting e

/-- A batch without records is the last that such a client receives. -/
theorem stuck_on_empty_batch :
    ∃ tr s, (session 3).Run tr s ∧ s.ending = .running ∧
      tr.map Prod.snd = [.action (.initialization "shardId-0"), .initialized false,
        .action (.processRecords (some [])) ] ∧
      completed s.client.log = [.initialization] ∧ ∀ e, (session 3).step s e = none := by
  have hrun := System.Run.nil.exec (S := session 3)
    [.action (.initialization "shardId-0"), .initialized false,
      .action (.processRecords (some []))] rfl
  exact ⟨_, _, hrun, rfl, rfl, rfl,
    (stuck_iff_no_records hrun rfl (by decide)).1.mpr rfl⟩

end PlenarioStream.ClickStream

import PlenarioStream.BasicSample.Shard

/-!
The calls of `update_node` that the instances make. Each time a record is read there is one
call for it, unless the first record that is no JSON comes before; and a call waits for a
command of the cache, was left by its instance, or has ended, each exactly once.
-/
namespace PlenarioStream.BasicSample
open Js Lists Transition

def Life.calls (l : Life) : List Call := l.client.started ++ l.client.rejected

/-- All calls made so far: those that no GET was executed for, those between their GET and
their SET, and those that have ended. -/
def Deployment.calls (d : Deployment) : List Call :=
  d.lives.flatMap Life.calls ++ (d.owners.filterMap id ++ d.ended.map Prod.fst)

def Deployment.reader (d : Deployment) : Resume.Reader :=
  ⟨d.start, d.given, d.stored, d.past.map fun l => (l.start, l.given)⟩

/-- The instance ends after it was given the record at a position, and before a checkpoint
beyond it was stored. -/
def endsBefore (n : Nat) (x : Deployment × Move) : Bool :=
  match x.2 with
  | .restart => decide (x.1.stored ≤ n ∧ n < x.1.position)
  | _ => false

def Move.read (stream : List Record) (d : Deployment) : Move → Option Resume.Move
  | deliver n => some (.read ((stream.drop d.position).take n).length)
  | store => some .store
  | restart => some .restart
  | daemon _ | get _ _ | set _ _ _ | reply _ | other _ _ => none

theorem map_position_callsFrom (life invocation : Nat) {records : List Record}
    (h : ∀ r ∈ records, r.readable = true) (position : Nat) :
    (callsFrom life invocation position records).map Call.position =
      List.range' position records.length := by
  induction records generalizing position with
  | nil => rfl
  | cons r records ih =>
      obtain ⟨o, ho⟩ := Option.isSome_iff_exists.mp (h r List.mem_cons_self)
      simp only [callsFrom, ho, List.map_cons, List.length_cons, List.range'_succ]
      rw [ih fun s hs => h s (List.mem_cons_of_mem _ hs)]

/-- Each call has the instance, the invocation and the record that it was made for. -/
theorem mem_callsFrom {life invocation position : Nat} {records : List Record} {call : Call}
    (h : call ∈ callsFrom life invocation position records) :
    call.life = life ∧ call.invocation = invocation ∧ position ≤ call.position ∧
      ∃ r, records[call.position - position]? = some r ∧ r.payload = some call.observation := by
  induction records generalizing position with
  | nil => exact absurd h List.not_mem_nil
  | cons r records ih =>
      cases hr : r.payload with
      | none => simp [callsFrom, hr] at h
      | some o =>
          simp only [callsFrom, hr, List.mem_cons] at h
          rcases h with rfl | h
          · exact ⟨rfl, rfl, Nat.le_refl _, r, by simp, hr⟩
          · obtain ⟨hlife, hinvocation, hle, s, hs, hpayload⟩ := ih h
            refine ⟨hlife, hinvocation, Nat.le_of_succ_le hle, s, ?_, hpayload⟩
            have hindex : call.position - position = call.position - (position + 1) + 1 := by omega
            rw [hindex, List.getElem?_cons_succ, hs]

section
variable {stream : List Record} {initial : String → Redis.Cell} {d d' : Deployment}
  {tr : List (Deployment × Move)}

/-- What a delivery does: the instance has made the calls for the part of the batch in front
of the first record that is no JSON, and has ended if that is not the whole. -/
theorem deliver_cases (h : Faithful stream d) {n : Nat}
    (hs : (deployment stream initial).step d (.deliver n) = some d') :
    ∃ client crashed before,
      d' = { d with
        client, crashed, given := d.given + ((stream.drop d.position).take n).length } ∧
      before <+: (stream.drop d.position).take n ∧ (∀ s ∈ before, s.readable = true) ∧
      d.position + before.length = min (d.position + ((stream.drop d.position).take n).length)
        (clean stream) ∧
      (crashed = false → before = (stream.drop d.position).take n ∧
        client.data = before.foldl (fun data r => data.dropLast ++ [some r.data])
          (d.client.data ++ [none])) ∧
      client.life = d.client.life ∧ client.replies = d.client.replies ∧
      client.emitted = d.client.emitted ∧
      client.started = d.client.started ++
        (callsFrom d.client.life d.client.data.length d.position before).filter Call.hasKey ∧
      client.rejected = d.client.rejected ++
        (callsFrom d.client.life d.client.data.length d.position before).filter
          fun call => !call.hasKey := by
  obtain ⟨d₀, hreceive, rfl⟩ := Option.map_eq_some_iff.mp hs
  obtain ⟨hcrashed, -, -⟩ := receive_guard hreceive
  obtain ⟨hclean, hnext⟩ := h.alive hcrashed
  rcases readable_or_cut ((stream.drop d.position).take n) with hbatch |
    ⟨before, r, after, hcut, hbefore, hr⟩
  · obtain ⟨client, hreact, rfl, -, -⟩ :=
      receive_readable (e := .action (.processRecords (some _))) hbatch (h.running hcrashed) hreceive
    have hclient := batch_ok hbatch hreact
    refine ⟨client, d.crashed, _, rfl, List.prefix_rfl, hbatch,
      (Nat.min_eq_left (clean_readable hclean hbatch)).symm, ?_⟩
    rw [hclient]
    refine ⟨fun _ => ⟨rfl, rfl⟩, rfl, rfl, rfl, ?_, ?_⟩
    · simp [taken, Client.made, hnext]
    · simp [taken, Client.made, hnext]
  · have hend := clean_cut hclean hcut hbefore hr
    rw [hcut] at hreceive
    obtain ⟨client, rfl, -, hclient⟩ := receive_unreadable hbefore hr (h.running hcrashed) hreceive
    rw [hnext] at hclient
    refine ⟨client, true, before, rfl, ?_, hbefore, ?_, Bool.noConfusion, hclient⟩
    · rw [hcut]
      exact List.prefix_append _ _
    · rw [hend, hcut, List.length_append]
      exact (Nat.min_eq_right (by omega)).symm

theorem reader_run (hseq : (stream.map fun r => r.sequenceNumber).Nodup)
    (h : (deployment stream initial).Run tr d) :
    Resume.reader.Run (tr.filterMap fun x => (x.2.read stream x.1).map fun b => (x.1.reader, b))
      d.reader := by
  refine h.project (T := Resume.reader) Deployment.reader (fun d a => a.read stream d) rfl ?_
  intro tr d a d' hr hs
  have hfaithful := faithful_run hseq hr
  cases a with
  | deliver n =>
      obtain ⟨client, crashed, before, rfl, -⟩ := deliver_cases hfaithful hs
      rfl
  | daemon e =>
      obtain ⟨-, hreceive⟩ := Option.ite_none_right_eq_some.mp hs
      rcases receive_eq hreceive with ⟨client, -, rfl⟩ | ⟨client, -, rfl⟩ <;> rfl
  | store =>
      obtain ⟨q, hq, rfl⟩ := Option.map_eq_some_iff.mp hs
      rw [(hfaithful.request q hq).1]
      rfl
  | restart =>
      obtain rfl := Option.some.inj hs
      simp [Move.read, Resume.reader, Deployment.reader, Resume.Reader.stretches, Deployment.lives]
  | get _ _ | set _ _ _ | reply _ | other _ _ =>
      have hframe := frame_cache rfl hs
      simp only [Move.read, Deployment.reader, hframe.start, hframe.given, hframe.stored, hframe.past]

theorem countP_calls (p : Call → Bool) (d : Deployment) :
    d.calls.countP p = (d.past.flatMap Life.calls).countP p +
      ((d.client.started.countP p + d.client.rejected.countP p) +
        ((d.owners.filterMap id).countP p + (d.ended.map Prod.fst).countP p)) := by
  simp [Deployment.calls, Deployment.lives, Life.calls, Nat.add_assoc]

theorem calls_settle {call : Call} {e : Ending} (hs : d.settle call e = some d') :
    d'.client.started = d.client.started ∧ d'.client.rejected = d.client.rejected ∧
      d'.past = d.past ∧ d'.owners = d.owners ∧ d'.ended = d.ended ++ [(call, e)] := by
  unfold Deployment.settle at hs
  split at hs
  · split at hs
    · obtain rfl := Option.some.inj hs
      exact ⟨rfl, rfl, rfl, rfl, rfl⟩
    · obtain rfl := Option.some.inj hs
      exact ⟨rfl, rfl, rfl, rfl, rfl⟩
  · obtain ⟨-, hs⟩ := Option.ite_none_left_eq_some.mp hs
    obtain rfl := Option.some.inj hs
    exact ⟨rfl, rfl, rfl, rfl, rfl⟩

theorem owners_eraseIdx (p : Call → Bool) {i : Nat} :
    (d.owners.filterMap id).countP p =
      ((d.owners.eraseIdx i).filterMap id).countP p + d.owners[i]?.join.toList.countP p := by
  have hcount : ∀ l : List (Option Call), (l.filterMap id).countP p =
      l.countP fun owner => (owner.map p).getD false := by
    intro l
    exact List.countP_filterMap ..
  rw [hcount, hcount]
  cases howner : d.owners[i]? with
  | none =>
      rw [List.eraseIdx_of_length_le (List.getElem?_eq_none_iff.mp howner)]
      rfl
  | some owner =>
      rw [countP_eraseIdx _ howner]
      cases owner <;> simp

/-- Commands of the cache move calls on, and neither make nor lose one. -/
theorem countP_calls_cache (p : Call → Bool) {a : Move} (ha : a.isCache = true)
    (hs : (deployment stream initial).step d a = some d') : d'.calls.countP p = d.calls.countP p := by
  rw [countP_calls, countP_calls]
  cases a with
  | deliver _ | daemon _ | store | restart => cases ha
  | get i failed =>
      obtain ⟨-, hs⟩ := Option.ite_none_left_eq_some.mp hs
      obtain ⟨call, hcall, hs⟩ := Option.bind_eq_some_iff.mp hs
      obtain ⟨s, -, rfl⟩ := Option.map_eq_some_iff.mp hs
      rw [countP_eraseIdx p hcall]
      simp only [List.filterMap_append, List.filterMap_cons, List.filterMap_nil, id,
        List.countP_append, List.countP_singleton]
      omega
  | set i now failed =>
      obtain ⟨pending, -, hs⟩ := Option.bind_eq_some_iff.mp hs
      obtain ⟨s, -, hs⟩ := Option.bind_eq_some_iff.mp hs
      rw [owners_eraseIdx p (d := d) (i := i)]
      simp only at hs
      split at hs
      · rename_i hnone
        obtain rfl := Option.some.inj hs
        rw [hnone]
        simp
      · rename_i call hcall
        obtain ⟨hstarted, hrejected, hpast, howners, hended⟩ := calls_settle hs
        rw [hstarted, hrejected, hpast, howners, hended, hcall]
        simp only [List.map_append, List.map_cons, List.map_nil, List.countP_append,
          Option.toList_some]
        omega
  | reply i =>
      obtain ⟨-, hs⟩ := Option.ite_none_left_eq_some.mp hs
      obtain ⟨call, -, rfl⟩ := Option.map_eq_some_iff.mp hs
      rfl
  | other o failed =>
      simp only [deployment] at hs
      split at hs
      · cases hs
      · obtain ⟨s, -, rfl⟩ := Option.map_eq_some_iff.mp hs
        simp

/-- A delivery makes one call for each of its positions in front of the first record that is
no JSON. -/
theorem countP_calls_deliver (h : Faithful stream d) {m : Nat}
    (hs : (deployment stream initial).step d (.deliver m) = some d') (n : Nat) :
    d'.calls.countP (fun call => call.position = n) =
        d.calls.countP (fun call => call.position = n) +
          (if n < clean stream then (List.range' d.position ((stream.drop d.position).take m).length).count n
            else 0) ∧
      d'.reader.positions =
        d.reader.positions ++ List.range' d.position ((stream.drop d.position).take m).length := by
  obtain ⟨client, crashed, before, rfl, -, hreadable, hend, -, -, -, -, hstarted, hrejected⟩ :=
    deliver_cases h hs
  refine ⟨?_, Resume.positions_read d.reader _⟩
  have hmade : (callsFrom d.client.life d.client.data.length d.position before).countP
      (fun call => call.position = n) =
        if d.position ≤ n ∧ n < d.position + before.length then 1 else 0 := by
    rw [← Resume.count_range', ← map_position_callsFrom _ _ hreadable, List.count, List.countP_map]
    rfl
  rw [← countP_filter_not _ Call.hasKey] at hmade
  rw [countP_calls, countP_calls, hstarted, hrejected, List.countP_append, List.countP_append,
    Resume.count_range']
  dsimp only
  split_ifs at hmade ⊢ <;> omega

/-- The number of calls made for a position is that of its readings, if it lies in front of
the first record that is no JSON, and otherwise 0. -/
theorem countP_calls_eq (hseq : (stream.map fun r => r.sequenceNumber).Nodup)
    (h : (deployment stream initial).Run tr d) (n : Nat) :
    d.calls.countP (fun call => call.position = n) =
      if n < clean stream then d.reader.positions.count n else 0 := by
  refine h.invariant (fun _ d => d.calls.countP (fun call => call.position = n) =
    if n < clean stream then d.reader.positions.count n else 0) ?_ ?_
  · simp [countP_calls, deployment, Client.initial, Resume.Reader.positions,
      Resume.Reader.stretches, Deployment.reader]
  · intro tr d a d' hr hinv hs
    have hfaithful := faithful_run hseq hr
    cases a with
    | deliver m =>
        obtain ⟨hcalls, hread⟩ := countP_calls_deliver hfaithful hs n
        rw [hcalls, hread, hinv, List.count_append]
        split_ifs <;> rfl
    | daemon e =>
        obtain ⟨hbatch, hreceive⟩ := Option.ite_none_right_eq_some.mp hs
        rw [List.isEmpty_iff] at hbatch
        obtain ⟨client, hreact, rfl, -, -⟩ := receive_readable
          (by rw [hbatch]; exact fun r hr => absurd hr List.not_mem_nil)
          (hfaithful.running (receive_guard hreceive).1) hreceive
        have hkept := keeps_react hbatch hreact
        rw [countP_calls] at hinv ⊢
        rw [hkept.started, hkept.rejected]
        exact hinv
    | store =>
        obtain ⟨q, -, rfl⟩ := Option.map_eq_some_iff.mp hs
        exact hinv
    | restart =>
        obtain rfl := Option.some.inj hs
        have hcalls : d.calls = d.lives.flatMap Life.calls ++ (d.owners.filterMap id ++
            d.ended.map Prod.fst) := rfl
        have hreader := Resume.positions_restart d.reader
        rw [countP_calls]
        rw [hcalls, ← hreader, List.countP_append, List.countP_append] at hinv
        simpa [Client.initial, Deployment.reader, Resume.Reader.stretches, Deployment.lives] using hinv
    | get _ _ | set _ _ _ | reply _ | other _ _ =>
        have hframe := frame_cache rfl hs
        have hreader : d'.reader = d.reader := by
          simp only [Deployment.reader, hframe.start, hframe.given, hframe.stored, hframe.past]
        rw [countP_calls_cache _ rfl hs, hreader, hinv]

theorem callsFrom_mono (life invocation : Nat) {records batch : List Record}
    (h : records <+: batch) (position : Nat) :
    callsFrom life invocation position records <+: callsFrom life invocation position batch := by
  obtain ⟨rest, rfl⟩ := h
  induction records generalizing position with
  | nil => exact List.nil_prefix
  | cons r records ih =>
      rw [List.cons_append]
      cases hr : r.payload with
      | none => simp [callsFrom, hr]
      | some o =>
          simp only [callsFrom, hr]
          exact List.cons_prefix_cons.mpr ⟨rfl, ih (position + 1)⟩

/-- The batch of a delivery. -/
def batchAt (stream : List Record) (d : Deployment) (n : Nat) : List Record :=
  (stream.drop d.position).take n

/-- The call was made in the delivery of `n` records in the state `x`. -/
def MadeIn (stream : List Record) (x : Deployment) (n : Nat) (call : Call) : Prop :=
  call ∈ callsFrom x.client.life x.client.data.length x.position (batchAt stream x n)

def Made (stream : List Record) (tr : List (Deployment × Move)) (call : Call) : Prop :=
  ∃ x n, (x, .deliver n) ∈ tr ∧ MadeIn stream x n call

theorem Made.snoc {call : Call} (h : Made stream tr call) (y : Deployment × Move) :
    Made stream (tr ++ [y]) call := by
  obtain ⟨x, n, hx, hmade⟩ := h
  exact ⟨x, n, List.mem_append_left _ hx, hmade⟩

theorem MadeIn.position {x : Deployment} {n : Nat} {call : Call} (h : MadeIn stream x n call) :
    ∃ r, stream[call.position]? = some r ∧ r.payload = some call.observation := by
  obtain ⟨-, -, hle, r, hr, hpayload⟩ := mem_callsFrom h
  obtain ⟨hlt, hget⟩ := List.getElem?_eq_some_iff.mp hr
  rw [batchAt, List.getElem?_take_of_lt (by rw [batchAt, List.length_take] at hlt; omega),
    List.getElem?_drop] at hr
  rw [Nat.add_sub_cancel' hle] at hr
  exact ⟨r, hr, hpayload⟩

theorem forall_calls_cache (P : Call → Prop) {a : Move} (ha : a.isCache = true)
    (hs : (deployment stream initial).step d a = some d') :
    (∀ call ∈ d'.calls, P call) ↔ ∀ call ∈ d.calls, P call := by
  classical
  have hcount := countP_calls_cache (fun call => !decide (P call)) ha hs
  have hzero : ∀ d : Deployment, (∀ call ∈ d.calls, P call) ↔
      d.calls.countP (fun call => !decide (P call)) = 0 := by
    intro d
    simp [List.countP_eq_zero]
  rw [hzero, hzero, hcount]

theorem mem_calls {call : Call} :
    call ∈ d.calls ↔ (∃ l ∈ d.past, call ∈ l.calls) ∨ call ∈ d.client.started ∨
      call ∈ d.client.rejected ∨ some call ∈ d.owners ∨ call ∈ d.ended.map Prod.fst := by
  simp [Deployment.calls, Deployment.lives, Life.calls]

theorem made_run (hseq : (stream.map fun r => r.sequenceNumber).Nodup)
    (h : (deployment stream initial).Run tr d) : ∀ call ∈ d.calls, Made stream tr call := by
  refine h.invariant (fun tr d => ∀ call ∈ d.calls, Made stream tr call) ?_ ?_
  · intro call hcall
    simp [mem_calls, deployment, Client.initial] at hcall
  · intro tr d a d' hr hinv hs
    have hfaithful := faithful_run hseq hr
    have hkept : ∀ call ∈ d.calls, Made stream (tr ++ [(d, a)]) call :=
      fun call hcall => (hinv call hcall).snoc _
    cases a with
    | deliver n =>
        obtain ⟨client, crashed, before, rfl, hprefix, -, -, -, -, -, -, hstarted, hrejected⟩ :=
          deliver_cases hfaithful hs
        have hmade : ∀ call ∈ callsFrom d.client.life d.client.data.length d.position before,
            Made stream (tr ++ [(d, .deliver n)]) call := by
          intro call hcall
          exact ⟨d, n, List.mem_append_right _ (List.mem_singleton_self _),
            (callsFrom_mono _ _ hprefix _).subset hcall⟩
        intro call hcall
        rw [mem_calls, hstarted, hrejected, List.mem_append, List.mem_append, List.mem_filter,
          List.mem_filter] at hcall
        rcases hcall with hcall | (hcall | hcall) | (hcall | hcall) | hcall | hcall
        · exact hkept call (mem_calls.mpr (.inl hcall))
        · exact hkept call (mem_calls.mpr (.inr (.inl hcall)))
        · exact hmade call hcall.1
        · exact hkept call (mem_calls.mpr (.inr (.inr (.inl hcall))))
        · exact hmade call hcall.1
        · exact hkept call (mem_calls.mpr (.inr (.inr (.inr (.inl hcall)))))
        · exact hkept call (mem_calls.mpr (.inr (.inr (.inr (.inr hcall)))))
    | daemon e =>
        obtain ⟨hbatch, hreceive⟩ := Option.ite_none_right_eq_some.mp hs
        rw [List.isEmpty_iff] at hbatch
        obtain ⟨client, hreact, rfl, -, -⟩ := receive_readable
          (by rw [hbatch]; exact fun r hr => absurd hr List.not_mem_nil)
          (hfaithful.running (receive_guard hreceive).1) hreceive
        have hclient := keeps_react hbatch hreact
        intro call hcall
        rw [mem_calls, hclient.started, hclient.rejected] at hcall
        exact hkept call (mem_calls.mpr hcall)
    | store =>
        obtain ⟨q, -, rfl⟩ := Option.map_eq_some_iff.mp hs
        exact hkept
    | restart =>
        obtain rfl := Option.some.inj hs
        intro call hcall
        refine hkept call ?_
        simpa [Deployment.calls, Deployment.lives, Life.calls, Client.initial] using hcall
    | get _ _ | set _ _ _ | reply _ | other _ _ =>
        exact (forall_calls_cache _ rfl hs).mpr hkept

def Ending.isWritten : Ending → Bool
  | written => true
  | unwritten | thrown => false

/-- The observations that the calls have written. -/
def Deployment.written (d : Deployment) : List Json :=
  (d.ended.filter fun e => e.2.isWritten).map fun e => e.1.observation

/-- The owners stand in the order of the waiting calls. -/
structure Aligned (d : Deployment) : Prop where
  owners : List.Forall₂ (fun owner p => ∀ call ∈ owner, call.observation = p.observation)
    d.owners d.store.waiting
  started : ∀ call ∈ d.client.started, call.hasKey = true
  written : d.written.Sublist (d.store.written.map Prod.snd)

theorem store_get {s s' : Redis.Store} {o : Json} {key : String} {failed : Bool}
    (hkey : Redis.keyOf o = .ok key)
    (hs : (Redis.store initial).step s (.get o failed) = some s') :
    s'.waiting = s.waiting ++ [⟨o, key, Redis.replyOf s.cells key failed⟩] ∧
      s'.written = s.written := by
  simp only [Redis.store, hkey] at hs
  obtain rfl := Option.some.inj hs
  exact ⟨rfl, rfl⟩

theorem store_set {s s' : Redis.Store} {i : Nat} {now : ℚ} {failed : Bool} {p : Redis.Pending}
    (hp : s.waiting[i]? = some p) (hs : (Redis.store initial).step s (.set i now failed) = some s') :
    s'.waiting = s.waiting.eraseIdx i ∧
      s'.written = s.written ++
        if (ending now failed p).isWritten then [(p.key, p.observation)] else [] := by
  simp only [Redis.store, hp, Option.map_some, Option.some.injEq] at hs
  obtain rfl := hs
  cases hvalue : Redis.newValue now p.observation p.reply with
  | error e => simp [Redis.Store.finish, ending, hvalue, Ending.isWritten]
  | ok value =>
      cases failed <;> simp [Redis.Store.finish, Redis.Store.write, ending, hvalue, Ending.isWritten]

theorem Aligned.get (h : Aligned d) {owner : Option Call} {o : Json} {key : String}
    {failed : Bool} {s : Redis.Store} (hkey : Redis.keyOf o = .ok key)
    (hs : (Redis.store initial).step d.store (.get o failed) = some s)
    (howner : ∀ call ∈ owner, call.observation = o) {client : Client}
    (hstarted : ∀ call ∈ client.started, call ∈ d.client.started) :
    Aligned { d with client, store := s, owners := d.owners ++ [owner] } := by
  obtain ⟨hwaiting, hwritten⟩ := store_get hkey hs
  refine ⟨?_, fun call hcall => h.started call (hstarted call hcall), ?_⟩
  · have happend := List.rel_append h.owners (List.Forall₂.cons (b :=
      (⟨o, key, Redis.replyOf d.store.cells key failed⟩ : Redis.Pending)) howner .nil)
    exact hwaiting ▸ happend
  · have hsub := h.written
    rw [← hwritten] at hsub
    exact hsub

theorem store_settle {call : Call} {e : Ending} (hs : d.settle call e = some d') :
    d'.store = d.store := by
  unfold Deployment.settle at hs
  split at hs
  · split at hs <;> rw [← Option.some.inj hs]
  · obtain ⟨-, hs⟩ := Option.ite_none_left_eq_some.mp hs
    rw [← Option.some.inj hs]

theorem aligned_set (h : Aligned d) {i : Nat} {now : ℚ} {failed : Bool}
    (hs : (deployment stream initial).step d (.set i now failed) = some d') : Aligned d' := by
  obtain ⟨pending, hpending, hs⟩ := Option.bind_eq_some_iff.mp hs
  obtain ⟨s, hstore, hs⟩ := Option.bind_eq_some_iff.mp hs
  obtain ⟨hwaiting, hwritten⟩ := store_set hpending hstore
  have howners := forall₂_eraseIdx h.owners i
  rw [← hwaiting] at howners
  have hgrows : d.written.Sublist (s.written.map Prod.snd) := by
    rw [hwritten, List.map_append]
    exact h.written.trans (List.sublist_append_left _ _)
  simp only at hs
  split at hs
  · obtain rfl := Option.some.inj hs
    exact ⟨howners, h.started, hgrows⟩
  · rename_i call hcall
    have howner : d.owners[i]? = some (some call) := by simpa [Option.join_eq_some_iff] using hcall
    have hzip : (some call, pending) ∈ d.owners.zip d.store.waiting :=
      List.mem_of_getElem? (List.getElem?_zip_eq_some.mpr ⟨howner, hpending⟩)
    have hobservation : call.observation = pending.observation :=
      List.forall₂_zip h.owners hzip call rfl
    obtain ⟨hstarted, -, -, hsame, hended⟩ := calls_settle hs
    have hstored := store_settle hs
    refine ⟨?_, ?_, ?_⟩
    · rw [hsame, hstored]
      exact howners
    · rw [hstarted]
      exact h.started
    · rw [Deployment.written, hended, hstored, hwritten, List.filter_append, List.map_append,
        List.map_append]
      refine h.written.append ?_
      cases hwrote : (ending now failed pending).isWritten <;> simp [hobservation, hwrote]

theorem aligned_run (hseq : (stream.map fun r => r.sequenceNumber).Nodup)
    (h : (deployment stream initial).Run tr d) : Aligned d := by
  have hinit : Aligned (deployment stream initial).init :=
    ⟨.nil, fun _ hc => absurd hc List.not_mem_nil, List.nil_sublist []⟩
  refine h.invariant (fun _ d => Aligned d) hinit ?_
  intro tr d a d' hr hinv hs
  have hfaithful := faithful_run hseq hr
  cases a with
  | deliver n =>
      obtain ⟨client, crashed, before, rfl, -, -, -, -, -, -, -, hstarted, -⟩ :=
        deliver_cases hfaithful hs
      refine ⟨hinv.owners, ?_, hinv.written⟩
      intro call hcall
      rw [hstarted] at hcall
      rcases List.mem_append.mp hcall with hcall | hcall
      · exact hinv.started call hcall
      · exact (List.mem_filter.mp hcall).2
  | daemon e =>
      obtain ⟨hbatch, hreceive⟩ := Option.ite_none_right_eq_some.mp hs
      rw [List.isEmpty_iff] at hbatch
      obtain ⟨client, hreact, rfl, -, -⟩ := receive_readable
        (by rw [hbatch]; exact fun r hr => absurd hr List.not_mem_nil)
        (hfaithful.running (receive_guard hreceive).1) hreceive
      refine ⟨hinv.owners, ?_, hinv.written⟩
      intro call hcall
      rw [(keeps_react hbatch hreact).started] at hcall
      exact hinv.started call hcall
  | store =>
      obtain ⟨q, -, rfl⟩ := Option.map_eq_some_iff.mp hs
      exact ⟨hinv.owners, hinv.started, hinv.written⟩
  | restart =>
      obtain rfl := Option.some.inj hs
      exact ⟨hinv.owners, fun _ hc => absurd hc List.not_mem_nil, hinv.written⟩
  | get i failed =>
      obtain ⟨-, hs⟩ := Option.ite_none_left_eq_some.mp hs
      obtain ⟨call, hcall, hs⟩ := Option.bind_eq_some_iff.mp hs
      obtain ⟨s, hstore, rfl⟩ := Option.map_eq_some_iff.mp hs
      have hkey := hinv.started call (List.mem_of_getElem? hcall)
      rw [Call.hasKey] at hkey
      cases hok : Redis.keyOf call.observation with
      | error e =>
          rw [hok] at hkey
          cases hkey
      | ok key =>
          refine hinv.get hok hstore ?_ fun c hc => List.mem_of_mem_eraseIdx hc
          intro c hc
          rw [Option.some.inj hc]
  | set i now failed => exact aligned_set hinv hs
  | reply i =>
      obtain ⟨-, hs⟩ := Option.ite_none_left_eq_some.mp hs
      obtain ⟨call, -, rfl⟩ := Option.map_eq_some_iff.mp hs
      exact ⟨hinv.owners, hinv.started, hinv.written⟩
  | other o failed =>
      simp only [deployment] at hs
      split at hs
      · cases hs
      · rename_i key hkey
        obtain ⟨s, hstore, rfl⟩ := Option.map_eq_some_iff.mp hs
        exact hinv.get hkey hstore (fun c hc => absurd hc (Option.not_mem_none c)) fun c hc => hc

theorem countP_repeats (tr : List (Deployment × Move)) (n : Nat) :
    (tr.filterMap fun x => (x.2.read stream x.1).map fun b => (x.1.reader, b)).countP
      (Resume.repeats n) = tr.countP (endsBefore n) := by
  rw [List.countP_filterMap]
  refine List.countP_congr ?_
  intro x _
  obtain ⟨d, a⟩ := x
  cases a <;> rfl

theorem call_lt_clean (hseq : (stream.map fun r => r.sequenceNumber).Nodup)
    (h : (deployment stream initial).Run tr d) {call : Call} (hcall : call ∈ d.calls) :
    call.position < clean stream := by
  have hcount := countP_calls_eq hseq h call.position
  have hpos : 0 < d.calls.countP fun c => c.position = call.position :=
    List.countP_pos_iff.mpr ⟨call, hcall, by simp⟩
  by_contra hge
  rw [if_neg hge] at hcount
  omega

/-- Whatever the daemon and the cache do and whenever instances end: no checkpoint passes the
first record that is no JSON, an instance that was given it has ended, and no call was made
for it or for any record behind it. -/
theorem never_past_unreadable (hseq : (stream.map fun r => r.sequenceNumber).Nodup)
    (h : (deployment stream initial).Run tr d) :
    d.stored ≤ clean stream ∧ (clean stream < d.position → d.crashed = true) ∧
      ∀ call ∈ d.calls, call.position < clean stream := by
  have hfaithful := faithful_run hseq h
  refine ⟨hfaithful.stored, ?_, fun call hcall => call_lt_clean hseq h hcall⟩
  intro hlt
  by_contra hcrashed
  have hle := (hfaithful.alive (Bool.not_eq_true _ ▸ hcrashed)).1
  omega

/-- An observation, and a text that is no JSON. -/
def twoTexts : List Record :=
  [⟨⟨some (Redis.fooAt 1000), some "1"⟩, "\x7b\"id\":\"foo\",\"time\":1000\x7d"⟩, ⟨⟨none, some "2"⟩, "?"⟩]

/-- The first instance ends in the batch of both; the second one gets the first record alone. -/
theorem never_past_unreadable_second :
    ∃ tr d, (deployment twoTexts fun _ => none).Run tr d ∧
      tr.map Prod.snd = [.daemon (.action (.initialization "shardId-0")), .deliver 2, .restart,
        .daemon (.action (.initialization "shardId-0")), .deliver 1, .store] ∧
      clean twoTexts = 1 ∧ d.stored = 1 ∧ d.calls.map Call.position = [0, 0] ∧
      d.stored ≤ clean twoTexts ∧ ∀ call ∈ d.calls, call.position < clean twoTexts := by
  have hrun := System.Run.nil.exec (S := deployment twoTexts fun _ => none)
    [.daemon (.action (.initialization "shardId-0")), .deliver 2, .restart,
      .daemon (.action (.initialization "shardId-0")), .deliver 1, .store] rfl
  obtain ⟨hstored, -, hcalls⟩ := never_past_unreadable (by decide) hrun
  exact ⟨_, _, hrun, rfl, rfl, rfl, rfl, hstored, hcalls⟩

/-- Every call is accounted for. In front of the first record that is no JSON, the calls made
for a record are as many as its readings: one if the instance under way has passed it, and
one more for each instance that ended after it was given the record and before a checkpoint
beyond it was stored. Each call has the observation of its record; and what the calls have
written, the store has written in the same order. -/
theorem calls_accounted (hseq : (stream.map fun r => r.sequenceNumber).Nodup)
    (h : (deployment stream initial).Run tr d) :
    (∀ n, d.calls.countP (fun call => call.position = n) =
      if n < clean stream then (if n < d.position then 1 else 0) + tr.countP (endsBefore n)
      else 0) ∧
    (∀ call ∈ d.calls, ∃ r, stream[call.position]? = some r ∧ r.payload = some call.observation) ∧
    d.written.Sublist (d.store.written.map Prod.snd) := by
  refine ⟨?_, ?_, (aligned_run hseq h).written⟩
  · intro n
    rw [countP_calls_eq hseq h, Resume.count_positions (reader_run hseq h), countP_repeats]
    rfl
  · intro call hcall
    obtain ⟨x, n, -, hmade⟩ := made_run hseq h call hcall
    exact hmade.position

/-- The first instance ends when its call has written, but before its checkpoint is stored, so
the record is written once more; the second GET fails. -/
theorem calls_accounted_twice :
    ∃ tr d, (deployment twoTexts fun _ => none).Run tr d ∧
      tr.map Prod.snd = [.daemon (.action (.initialization "shardId-0")), .deliver 1, .get 0 false,
        .set 0 1000 false, .restart, .daemon (.action (.initialization "shardId-0")), .deliver 1,
        .get 0 true, .set 0 1001 false, .reply 0, .store] ∧
      d.written = [Redis.fooAt 1000, Redis.fooAt 1000] ∧
      d.calls.countP (fun call => call.position = 0) = 2 ∧ d.position = 1 ∧
      tr.countP (endsBefore 0) = 1 := by
  have hrun := System.Run.nil.exec (S := deployment twoTexts fun _ => none)
    [.daemon (.action (.initialization "shardId-0")), .deliver 1, .get 0 false, .set 0 1000 false,
      .restart, .daemon (.action (.initialization "shardId-0")), .deliver 1, .get 0 true,
      .set 0 1001 false, .reply 0, .store] rfl
  exact ⟨_, _, hrun, rfl, rfl, (calls_accounted (by decide) hrun).1 0, rfl, rfl⟩

end
end PlenarioStream.BasicSample

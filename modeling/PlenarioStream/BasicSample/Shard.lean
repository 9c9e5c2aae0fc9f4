import PlenarioStream.BasicSample.Session
import PlenarioStream.Foundation.Lists

/-!
The instances on one shard. What the checkpoints pass is clean: no instance gets beyond the
first record that is no JSON, because the instance that is given this record ends before it
requests a checkpoint, and so does each that comes after it.
-/
namespace PlenarioStream.BasicSample
open Js Lists Transition

/-- The number of records before the first that is no JSON. -/
def clean (stream : List Record) : Nat := (stream.takeWhile Record.readable).length

section
variable {stream : List Record}

theorem clean_readable {start n : Nat} (hstart : start ≤ clean stream)
    (h : ∀ r ∈ (stream.drop start).take n, r.readable = true) :
    start + ((stream.drop start).take n).length ≤ clean stream := by
  obtain ⟨hlen, hfirst⟩ := (le_length_takeWhile_iff _ _ _).mp hstart
  refine (le_length_takeWhile_iff _ _ _).mpr ⟨?_, ?_⟩
  · rw [List.length_take, List.length_drop]
    omega
  · intro r hr
    have htake : (stream.drop start).take ((stream.drop start).take n).length =
        (stream.drop start).take n := by
      rw [List.take_eq_take_iff, List.length_take]
      omega
    rw [List.take_add, htake] at hr
    rcases List.mem_append.mp hr with hr | hr
    · exact hfirst r hr
    · exact h r hr

/-- The first record that is no JSON is the one at which a batch is cut. -/
theorem clean_cut {start n : Nat} {before after : List Record} {r : Record}
    (hstart : start ≤ clean stream) (hbatch : (stream.drop start).take n = before ++ r :: after)
    (hbefore : ∀ s ∈ before, s.readable = true) (hr : r.readable = false) :
    start + before.length = clean stream := by
  obtain ⟨hlen, hfirst⟩ := (le_length_takeWhile_iff _ _ _).mp hstart
  have hsplit : stream = (stream.take start ++ before) ++ r :: (after ++ (stream.drop start).drop n) :=
    calc stream = stream.take start ++ stream.drop start := (List.take_append_drop _ _).symm
      _ = stream.take start ++ ((stream.drop start).take n ++ (stream.drop start).drop n) := by
          rw [List.take_append_drop n]
      _ = _ := by simp [hbatch]
  have hall : ∀ s ∈ stream.take start ++ before, s.readable = true := by
    intro s hs
    rcases List.mem_append.mp hs with hs | hs
    · exact hfirst s hs
    · exact hbefore s hs
  have hwhile : stream.takeWhile (·.readable) = stream.take start ++ before :=
    calc stream.takeWhile (·.readable)
        = ((stream.take start ++ before) ++
            r :: (after ++ (stream.drop start).drop n)).takeWhile (·.readable) :=
          congrArg (List.takeWhile (·.readable)) hsplit
      _ = (stream.take start ++ before) ++
            (r :: (after ++ (stream.drop start).drop n)).takeWhile (·.readable) :=
          List.takeWhile_append_of_pos hall
      _ = stream.take start ++ before := by
          rw [List.takeWhile_cons_of_neg (by simp [hr]), List.append_nil]
  rw [clean, hwhile, List.length_append, List.length_take_of_le hlen]

end

/-- A process that is there runs the library as `Kcl.session` does. -/
def Running (d : Deployment) : Prop :=
  ∃ tr k, Kcl.session.Run tr ⟨k, false⟩ ∧ d.client.manager = idle k

section
variable {stream : List Record} {initial : String → Redis.Cell} {d d' : Deployment}

theorem receive_guard {e : Event} (hs : d.receive e = some d') :
    d.crashed = false ∧ d.client.manager.destroyed = false ∧
      Kcl.allows d.client.manager.log e.plain = true := by
  obtain ⟨hguard, -⟩ := Option.ite_none_right_eq_some.mp hs
  simpa [and_assoc] using hguard

theorem receive_eq {e : Event} (hs : d.receive e = some d') :
    (∃ client, react d.client e = .ok client ∧ d' = { d with client }) ∨
      ∃ client, react d.client e = .error client ∧ d' = { d with client, crashed := true } := by
  obtain ⟨-, hs⟩ := Option.ite_none_right_eq_some.mp hs
  cases hreact : react d.client e with
  | ok client =>
      rw [hreact] at hs
      exact .inl ⟨client, rfl, (Option.some.inj hs).symm⟩
  | error client =>
      rw [hreact] at hs
      exact .inr ⟨client, rfl, (Option.some.inj hs).symm⟩

theorem plain_isPull (e : Event) : e.plain.isPull = false := by cases e <;> rfl

/-- What the process receives, `Kcl.session` receives. -/
theorem session_enabled {e : Event} {k : Kcl.Manager} (hmanager : d.client.manager = idle k)
    (hs : d.receive e = some d') :
    Kcl.session.step ⟨k, false⟩ e.plain = Kcl.react ⟨k, false⟩ e.plain := by
  obtain ⟨-, hopen, hallows⟩ := receive_guard hs
  rw [hmanager] at hopen hallows
  have hopen : k.destroyed = false := hopen
  have hallows : Kcl.allows k.log e.plain = true := hallows
  refine if_pos ?_
  simp [plain_isPull, hopen, hallows]

/-- Without a record that is no JSON the process goes on, and the session with it. -/
theorem receive_readable {e : Event} (hbatch : ∀ r ∈ e.batch, r.readable = true) (h : Running d)
    (hs : d.receive e = some d') :
    ∃ client, react d.client e = .ok client ∧ d' = { d with client } ∧ Running d' ∧
      ∀ q, Kcl.requested client.manager.log = some q →
        (∃ a, e = .action a ∧ a.plain.required = some q) ∨
          (∀ a, e ≠ .action a) ∧ Kcl.requested d.client.manager.log = some q := by
  obtain ⟨tr, k, hr, hmanager⟩ := h
  obtain ⟨r, hreact, hmirrors⟩ := mirrors_react hbatch hmanager
  have hstep : Kcl.session.step ⟨k, false⟩ e.plain = some (Kcl.finish r) :=
    (session_enabled hmanager hs).trans hreact
  have halive := (Kcl.sound_run (hr.snoc hstep)).alive
  cases r with
  | error k' => cases halive
  | ok k' =>
      rcases receive_eq hs with ⟨client, hclient, rfl⟩ | ⟨client, hclient, rfl⟩
      · rw [hclient] at hmirrors
        have hmirrors : client.manager = idle k' := hmirrors
        refine ⟨client, hclient, rfl, ⟨_, k', hr.snoc hstep, hmirrors⟩, ?_⟩
        intro q hq
        rw [hmirrors] at hq
        have hrequested := Kcl.session_requested hr hstep (q := q) hq
        rw [hmanager]
        cases e with
        | action a => exact .inl ⟨a, rfl, hrequested⟩
        | response _ _ | closed => exact .inr ⟨fun a => Event.noConfusion, hrequested⟩
      · rw [hclient] at hmirrors
        exact hmirrors.elim

/-- A record that is no JSON ends the process before a checkpoint is requested. -/
theorem receive_unreadable {before after : List Record} {r : Record}
    (hbefore : ∀ s ∈ before, s.readable = true) (hr : r.readable = false) (h : Running d)
    (hs : d.receive (.action (.processRecords (some (before ++ r :: after)))) = some d') :
    ∃ client, d' = { d with client, crashed := true } ∧
      Kcl.requested client.manager.log = none ∧ client.life = d.client.life ∧
      client.replies = d.client.replies ∧ client.emitted = d.client.emitted ∧
      client.started = d.client.started ++
        (callsFrom d.client.life d.client.data.length d.client.next before).filter Call.hasKey ∧
      client.rejected = d.client.rejected ++
        (callsFrom d.client.life d.client.data.length d.client.next before).filter
          fun call => !call.hasKey := by
  obtain ⟨tr, k, hrun, hmanager⟩ := h
  have hstep := session_enabled hmanager hs
  have hbegin : (d.client.manager.state.handle .beginProcessRecords).2 = true := by
    rw [hmanager]
    exact Kcl.begin_valid (a := .processRecords _) hrun hstep
  obtain ⟨client, hreact, hclient⟩ := @batch_error before after r hbefore hr _ hbegin
  rcases receive_eq hs with ⟨client', hok, -⟩ | ⟨client', herror, rfl⟩
  · rw [hreact] at hok
    cases hok
  · rw [hreact] at herror
    obtain rfl := Except.error.inj herror
    exact ⟨client, rfl, hclient⟩

structure Faithful (stream : List Record) (d : Deployment) : Prop where
  running : d.crashed = false → Running d
  request : ∀ q, Kcl.requested d.client.manager.log = some q →
    d.checkpointed stream q = d.position ∧ d.position ≤ clean stream
  within : d.position ≤ stream.length
  stored : d.stored ≤ clean stream
  alive : d.crashed = false → d.position ≤ clean stream ∧ d.client.next = d.position

/-- What the commands of the cache leave alone. -/
structure Frame (d d' : Deployment) : Prop where
  manager : d'.client.manager = d.client.manager
  next : d'.client.next = d.client.next
  start : d'.start = d.start
  given : d'.given = d.given
  stored : d'.stored = d.stored
  past : d'.past = d.past
  crashed : d'.crashed = false → d.crashed = false

theorem Frame.position (h : Frame d d') : d'.position = d.position := by
  rw [Deployment.position, Deployment.position, h.start, h.given]

theorem Faithful.frame (h : Faithful stream d) (hframe : Frame d d') : Faithful stream d' := by
  have hposition := hframe.position
  refine ⟨?_, ?_, ?_, ?_, ?_⟩
  · intro hcrashed
    rw [Running, hframe.manager]
    exact h.running (hframe.crashed hcrashed)
  · intro q hq
    rw [hframe.manager] at hq
    rw [hposition]
    cases q with
    | none => exact ⟨hposition, (h.request none hq).2⟩
    | some seq => exact h.request (some seq) hq
  · rw [hposition]
    exact h.within
  · rw [hframe.stored]
    exact h.stored
  · intro hcrashed
    rw [hposition, hframe.next]
    exact h.alive (hframe.crashed hcrashed)

theorem frame_settle {call : Call} {e : Ending} (hs : d.settle call e = some d') : Frame d d' := by
  unfold Deployment.settle at hs
  split at hs
  · split at hs
    · obtain rfl := Option.some.inj hs
      exact ⟨rfl, rfl, rfl, rfl, rfl, rfl, Bool.noConfusion⟩
    · obtain rfl := Option.some.inj hs
      exact ⟨rfl, rfl, rfl, rfl, rfl, rfl, id⟩
  · obtain ⟨-, hs⟩ := Option.ite_none_left_eq_some.mp hs
    obtain rfl := Option.some.inj hs
    exact ⟨rfl, rfl, rfl, rfl, rfl, rfl, id⟩

/-- The commands of the cache, and the replies to them. -/
def Move.isCache : Move → Bool
  | get _ _ | set _ _ _ | reply _ | other _ _ => true
  | deliver _ | daemon _ | store | restart => false

theorem frame_cache {a : Move} (ha : a.isCache = true)
    (hs : (deployment stream initial).step d a = some d') : Frame d d' := by
  cases a with
  | deliver _ | daemon _ | store | restart => cases ha
  | get i failed =>
      obtain ⟨-, hs⟩ := Option.ite_none_left_eq_some.mp hs
      obtain ⟨call, -, hs⟩ := Option.bind_eq_some_iff.mp hs
      obtain ⟨s, -, rfl⟩ := Option.map_eq_some_iff.mp hs
      exact ⟨rfl, rfl, rfl, rfl, rfl, rfl, id⟩
  | set i now failed =>
      obtain ⟨pending, -, hs⟩ := Option.bind_eq_some_iff.mp hs
      obtain ⟨s, -, hs⟩ := Option.bind_eq_some_iff.mp hs
      simp only at hs
      split at hs
      · obtain rfl := Option.some.inj hs
        exact ⟨rfl, rfl, rfl, rfl, rfl, rfl, id⟩
      · have hframe := frame_settle hs
        exact ⟨hframe.manager, hframe.next, hframe.start, hframe.given, hframe.stored,
          hframe.past, hframe.crashed⟩
  | reply i =>
      obtain ⟨-, hs⟩ := Option.ite_none_left_eq_some.mp hs
      obtain ⟨call, -, rfl⟩ := Option.map_eq_some_iff.mp hs
      exact ⟨rfl, rfl, rfl, rfl, rfl, rfl, id⟩
  | other o failed =>
      simp only [deployment] at hs
      split at hs
      · cases hs
      · obtain ⟨s, -, rfl⟩ := Option.map_eq_some_iff.mp hs
        exact ⟨rfl, rfl, rfl, rfl, rfl, rfl, id⟩

theorem length_batch (stream : List Record) (start n : Nat) (h : start ≤ stream.length) :
    start + ((stream.drop start).take n).length ≤ stream.length := by
  rw [List.length_take, List.length_drop]
  omega

/-- The request for a batch is one for its end. -/
theorem checkpointed_batch (hseq : (stream.map fun r => r.sequenceNumber).Nodup) {n : Nat}
    {q : Option String}
    (hq : (Action.processRecords (some ((stream.drop d.position).take n))).plain.required = some q)
    (hd : d'.position = d.position + ((stream.drop d.position).take n).length) :
    d'.checkpointed stream q = d'.position := by
  cases q with
  | none => rfl
  | some seq =>
      have hplain : (stream.map Record.toRecord).map Consumer.Record.sequenceNumber =
          stream.map fun r => r.sequenceNumber := List.map_map
      have hslice : ((stream.drop d.position).take n).map Record.toRecord =
          ((stream.map Record.toRecord).drop d.position).take n := by
        rw [List.map_take, List.map_drop]
      obtain ⟨r, hlast, hr⟩ := Option.map_eq_some_iff.mp hq
      change (((stream.drop d.position).take n).map Record.toRecord).getLast? = some r at hlast
      rw [hslice] at hlast
      have hnodup : ((stream.map Record.toRecord).map Consumer.Record.sequenceNumber).Nodup := by
        rw [hplain]
        exact hseq
      have hposition := Kcl.position_of_last hnodup hlast
      rw [← hslice, List.length_map, hplain, hr] at hposition
      rw [hd, Deployment.checkpointed, hposition]

theorem faithful_deliver (hseq : (stream.map fun r => r.sequenceNumber).Nodup)
    (h : Faithful stream d) {n : Nat}
    (hs : (deployment stream initial).step d (.deliver n) = some d') : Faithful stream d' := by
  obtain ⟨d₀, hreceive, rfl⟩ := Option.map_eq_some_iff.mp hs
  obtain ⟨hcrashed, -, -⟩ := receive_guard hreceive
  obtain ⟨hclean, hnext⟩ := h.alive hcrashed
  have hwithin := length_batch stream d.position n h.within
  have hadd : ∀ m, d.start + (d.given + m) = d.position + m := fun m => (Nat.add_assoc _ _ _).symm
  rcases readable_or_cut ((stream.drop d.position).take n) with hbatch |
    ⟨before, r, after, hcut, hbefore, hr⟩
  · obtain ⟨client, hreact, rfl, hrunning, hrequest⟩ :=
      receive_readable (e := .action (.processRecords (some _))) hbatch (h.running hcrashed) hreceive
    have hpassed := clean_readable hclean hbatch
    refine ⟨fun _ => hrunning, ?_, ?_, h.stored, ?_⟩
    · intro q hq
      rcases hrequest q hq with ⟨a, ha, hrequired⟩ | ⟨hno, -⟩
      · obtain rfl := Event.action.inj ha
        exact ⟨checkpointed_batch hseq hrequired (hadd _), (hadd _).trans_le hpassed⟩
      · exact absurd rfl (hno _)
    · exact (hadd _).trans_le hwithin
    · intro _
      refine ⟨(hadd _).trans_le hpassed, ?_⟩
      have hclient := batch_ok hbatch hreact
      rw [hclient]
      exact (congrArg (· + _) hnext).trans (hadd _).symm
  · rw [hcut] at hreceive hwithin ⊢
    obtain ⟨client, rfl, hrequest, -⟩ :=
      receive_unreadable hbefore hr (h.running hcrashed) hreceive
    refine ⟨Bool.noConfusion, ?_, (hadd _).trans_le hwithin, h.stored, Bool.noConfusion⟩
    intro q hq
    rw [hrequest] at hq
    cases hq

theorem plain_batch_nil {a : Action} (h : (Event.action a).batch = []) :
    (Kcl.Event.action a.plain).batch = [] := by
  cases a with
  | initialization _ | shutdown _ => rfl
  | processRecords records =>
      cases records with
      | none => rfl
      | some records =>
          obtain rfl : records = [] := h
          rfl

theorem faithful_daemon (h : Faithful stream d) {e : Event}
    (hs : (deployment stream initial).step d (.daemon e) = some d') : Faithful stream d' := by
  obtain ⟨hbatch, hreceive⟩ := Option.ite_none_right_eq_some.mp hs
  obtain ⟨hcrashed, -, -⟩ := receive_guard hreceive
  rw [List.isEmpty_iff] at hbatch
  obtain ⟨client, hreact, rfl, hrunning, hrequest⟩ := receive_readable
    (by rw [hbatch]; exact fun r hr => absurd hr List.not_mem_nil) (h.running hcrashed) hreceive
  obtain ⟨hclean, hnext⟩ := h.alive hcrashed
  refine ⟨fun _ => hrunning, ?_, h.within, h.stored, ?_⟩
  · intro q hq
    rcases hrequest q hq with ⟨a, rfl, hrequired⟩ | ⟨-, hbefore⟩
    · obtain rfl := Kcl.required_of_batch_nil (plain_batch_nil hbatch) hrequired
      exact ⟨rfl, hclean⟩
    · cases q with
      | none => exact ⟨rfl, hclean⟩
      | some seq => exact h.request (some seq) hbefore
  · intro _
    exact ⟨hclean, (keeps_react hbatch hreact).next.trans hnext⟩

theorem clean_le_length (stream : List Record) : clean stream ≤ stream.length :=
  (List.takeWhile_sublist _).length_le

theorem faithful_step (hseq : (stream.map fun r => r.sequenceNumber).Nodup)
    (h : Faithful stream d) {a : Move} (hs : (deployment stream initial).step d a = some d') :
    Faithful stream d' := by
  cases a with
  | deliver n => exact faithful_deliver hseq h hs
  | daemon e => exact faithful_daemon h hs
  | store =>
      obtain ⟨q, hq, rfl⟩ := Option.map_eq_some_iff.mp hs
      obtain ⟨hposition, hclean⟩ := h.request q hq
      exact ⟨h.running, h.request, h.within, hposition.trans_le hclean, h.alive⟩
  | restart =>
      obtain rfl := Option.some.inj hs
      refine ⟨fun _ => ⟨[], .initial, .nil, rfl⟩, ?_, ?_, h.stored, fun _ => ⟨h.stored, rfl⟩⟩
      · intro q hq
        cases hq
      · exact h.stored.trans (clean_le_length stream)
  | get _ _ | set _ _ _ | reply _ | other _ _ => exact h.frame (frame_cache rfl hs)

theorem faithful_run (hseq : (stream.map fun r => r.sequenceNumber).Nodup)
    {tr : List (Deployment × Move)} (h : (deployment stream initial).Run tr d) :
    Faithful stream d := by
  refine h.invariant (fun _ d => Faithful stream d) ?_ ?_
  · refine ⟨fun _ => ⟨[], .initial, .nil, rfl⟩, ?_, Nat.zero_le _, Nat.zero_le _,
      fun _ => ⟨Nat.zero_le _, rfl⟩⟩
    intro q hq
    cases hq
  · intro tr d a d' _ hinv hs
    exact faithful_step hseq hinv hs

end
end PlenarioStream.BasicSample

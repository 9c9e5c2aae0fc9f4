import PlenarioStream.Consumer.Processor

/-!
When a checkpoint is safe. A batch is checkpointed as soon as its loop is over,
and an observation that the cached map does not cover is written only when a pull
has ended, which is later. The cached map stays empty, so a checkpoint is safe
only if the empty object covers every observation handled before it.
-/
namespace PlenarioStream.Consumer
open Js Transition

/-- The write of a payload has been requested, normal or misfit. -/
def Written (w : World) (n : Nat) : Prop :=
  ∃ obs map misfit, Effect.redshiftInsert obs map misfit ∈ w.effectsOf n

def AllWritten (w : World) : Prop :=
  ∀ n obs, w.handled[n]? = some (some obs) → Observation obs → Written w n

/-- If the last step sent a checkpoint, all observations handled until then,
those of its own batch included, have been written. -/
def CheckpointSafe (tr : List (Processor × Event)) (p : Processor) : Prop :=
  ∀ x a, tr.getLast? = some (x, a) → a.checkpoint ≠ none → AllWritten p.world

/-- The daemon numbers its records. -/
def Sequenced (a : Event) : Prop :=
  ∀ r ∈ a.records, ∃ seq, r.sequenceNumber = some seq ∧ seq ≠ ""

theorem written_add {w : World} {k : Nat} (h : Written w k) (n : Nat) (effects : List Effect) :
    Written (w.add n effects) k := by
  obtain ⟨obs, map, misfit, hmem⟩ := h
  refine ⟨obs, map, misfit, ?_⟩
  rw [World.effectsOf_add]
  split
  · exact List.mem_append_left _ hmem
  · exact hmem

theorem allWritten_settle {w w' : World} (h : AllWritten w) {i : Nat}
    {result : Except String SensorMap} (hs : settle i result w = some w') : AllWritten w' := by
  obtain ⟨n, obs, -, rfl⟩ := settle_eq_some hs
  intro k o hk hobs
  exact written_add (h k o hk hobs) n _

theorem allWritten_handle {w : World} (h : AllWritten w) (hw : Numbered w) {payload : Option Json}
    {map : SensorMap}
    (hcover : ∀ obs, payload = some obs → Observation obs → needsPull obs map = .ok false) :
    AllWritten (handle payload map w).1 := by
  intro k o hk hobs
  rw [handle_handled] at hk
  rcases getElem?_push hk with ⟨hlt, hk⟩ | ⟨rfl, rfl⟩
  · obtain ⟨obs, m, misfit, hmem⟩ := h k o hk hobs
    exact ⟨obs, m, misfit, by rwa [handle_effectsOf_lt _ _ hlt]⟩
  · refine ⟨o, map, false, ?_⟩
    rw [handle_effectsOf_last hw, handleEffects, hcover o rfl hobs]
    exact List.mem_cons_self

theorem allWritten_foldl {p : Processor} (records : List Record) (h : AllWritten p.world)
    (hw : Numbered p.world)
    (hcover : ∀ r ∈ records, ∀ obs, r.payload = some obs → Observation obs →
      needsPull obs p.map = .ok false) :
    AllWritten (records.foldl processRecord p).world := by
  induction records generalizing p with
  | nil => exact h
  | cons r records ih =>
      refine ih (allWritten_handle h hw (hcover r List.mem_cons_self)) (numbered_handle hw _ _) ?_
      intro q hq
      exact hcover q (List.mem_cons_of_mem _ hq)

theorem allWritten_of_covered {tr : List (Processor × Event)} {p : Processor}
    (h : processor.Run tr p) (hcover : ∀ x ∈ tr, CoveredByEmpty x.2) : AllWritten p.world := by
  refine h.invariant_where (fun _ a => CoveredByEmpty a) (fun _ p => AllWritten p.world) ?_ ?_ hcover
  · intro n obs hn
    exact absurd hn (by simp [processor, Processor.initial, World.initial])
  · intro tr p a p' hr hinv hcover hs
    cases a with
    | processRecords input =>
        obtain rfl := Option.some.inj hs
        cases input with
        | none => exact hinv
        | some records =>
            refine allWritten_foldl records hinv (numbered_run hr) ?_
            rw [(map_eq_empty hr).1]
            exact hcover
    | settle i result =>
        obtain ⟨world, hsettle, rfl⟩ := Option.map_eq_some_iff.mp hs
        exact allWritten_settle hinv hsettle
    | refreshed result =>
        obtain ⟨-, rfl⟩ := refreshed_step hs
        exact hinv

theorem batch_of_mem_records {a : Event} {r : Record} (hr : r ∈ a.records) :
    ∃ records, a = .processRecords (some records) ∧ r ∈ records := by
  cases a with
  | settle i result => exact absurd hr List.not_mem_nil
  | refreshed result => exact absurd hr List.not_mem_nil
  | processRecords input =>
      cases input with
      | none => exact absurd hr List.not_mem_nil
      | some records => exact ⟨records, rfl, hr⟩

/-- A batch of numbered records is checkpointed, unless it is empty. -/
theorem checkpoint_ne_none {a : Event} (h : Sequenced a) {r : Record} (hr : r ∈ a.records) :
    a.checkpoint ≠ none := by
  obtain ⟨records, rfl, hr⟩ := batch_of_mem_records hr
  have hne : records ≠ [] := List.ne_nil_of_mem hr
  obtain ⟨seq, hseq, hfull⟩ := h (records.getLast hne) (List.getLast_mem hne)
  have hsome : checkpointAt records = some seq := by
    simp [checkpointAt, List.getLast?_eq_some_getLast hne, hseq, hfull]
  exact ne_of_eq_of_ne hsome (Option.some_ne_none seq)

/-- An observation that the cached map does not cover is not written by the end of
its batch. -/
theorem covered_of_allWritten {p : Processor} {records : List Record} (hw : Numbered p.world)
    (hmap : p.map = .empty) (h : AllWritten (records.foldl processRecord p).world) :
    CoveredByEmpty (.processRecords (some records)) := by
  intro r hr obs hpayload hobs
  obtain ⟨j, hj⟩ : ∃ j : Nat, records[j]? = some r := List.getElem?_of_mem hr
  have heffects := foldl_processRecord_effectsOf records hw hj
  have hget : (records.foldl processRecord p).world.handled[p.world.handled.length + j]? =
      some (some obs) := by
    rw [foldl_processRecord_handled, List.getElem?_append_right (Nat.le_add_right _ _),
      Nat.add_sub_cancel_left, List.getElem?_map, hj, Option.map_some, hpayload]
  obtain ⟨obs', map, misfit, hmem⟩ := h _ _ hget hobs
  rw [heffects, hpayload, hmap] at hmem
  obtain ⟨stale, hcheck⟩ := hobs.needsPull_ok empty_textEntries
  cases stale with
  | false => exact hcheck
  | true => simp [handleEffects, hcheck] at hmem

/-- The checkpoints of a run are safe if the empty object covers every observation
in it, and only then when the records are numbered. -/
theorem checkpoint_safe_iff {tr : List (Processor × Event)} {p : Processor}
    (h : processor.Run tr p) :
    ((∀ x ∈ tr, CoveredByEmpty x.2) → processor.Always CheckpointSafe tr) ∧
    ((∀ x ∈ tr, Sequenced x.2) → processor.Always CheckpointSafe tr →
      ∀ x ∈ tr, CoveredByEmpty x.2) := by
  refine ⟨?_, ?_⟩
  · intro hcover q y hq hy x a _ _
    exact allWritten_of_covered hy fun x hx => hcover x (hq.subset hx)
  · intro hseq hsafe x hx
    obtain ⟨p, a⟩ := x
    obtain ⟨q, y, hq, hy, hprefix⟩ := h.step_of_mem hx
    intro r hr obs hpayload hobs
    have hwritten : AllWritten y.world :=
      hsafe _ y hprefix (hq.snoc hy) p a (by simp) (checkpoint_ne_none (hseq _ hx) hr)
    obtain ⟨records, rfl, hr⟩ := batch_of_mem_records hr
    obtain rfl := Option.some.inj hy
    exact covered_of_allWritten (numbered_run hq) (map_eq_empty hq).1 hwritten
      r hr obs hpayload hobs

/-- One record whose sensor has an inherited name is safe to checkpoint. -/
theorem checkpoint_safe_inherited :
    ∃ tr p, processor.Run tr p ∧ p.checkpoints = ["1"] ∧ processor.Always CheckpointSafe tr := by
  let obs : Json := .obj [("sensor", .str "valueOf"), ("data", .obj [])]
  have hrun := System.Run.nil.exec (S := processor)
    [.processRecords (some [⟨some obs, some "1"⟩])] rfl
  refine ⟨_, _, hrun, rfl, (checkpoint_safe_iff hrun).1 ?_⟩
  intro x hx
  obtain rfl := List.mem_singleton.mp hx
  intro r hr o ho _
  obtain rfl := List.mem_singleton.mp hr
  obtain rfl := Option.some.inj ho
  rfl

/-- The first record of a sensor from the documented example is checkpointed before
anything was written. -/
theorem checkpoint_unsafe_first_record :
    ∃ p, processor.Run [(.initial, .processRecords (some [⟨some tmp112Obs, some "1"⟩]))] p ∧
      p.checkpoints = ["1"] ∧
      ¬ processor.Always CheckpointSafe
        [(.initial, .processRecords (some [⟨some tmp112Obs, some "1"⟩]))] := by
  have hrun := System.Run.nil.exec (S := processor)
    [.processRecords (some [⟨some tmp112Obs, some "1"⟩])] rfl
  refine ⟨_, hrun, rfl, ?_⟩
  intro hsafe
  obtain ⟨obs, map, misfit, hmem⟩ :=
    hsafe.last hrun _ _ rfl (by decide) 0 tmp112Obs rfl tmp112Obs_observation
  replace hmem : Effect.redshiftInsert obs map misfit ∈ [Effect.updateMap] := hmem
  exact Effect.noConfusion (List.mem_singleton.mp hmem)

end PlenarioStream.Consumer

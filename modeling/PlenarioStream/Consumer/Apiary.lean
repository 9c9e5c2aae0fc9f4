import PlenarioStream.Consumer.Blacklist
import PlenarioStream.Consumer.Processor

/-!
The messages to apiary, over runs of the whole consumer. `send_correct` posts its
`resolve` whether or not the sensor is in the blacklist, and the messages follow
their protocol exactly in the runs where a pull that finds nothing wrong with a sensor
comes after one that did.
-/
namespace PlenarioStream.Consumer
open Js Transition

def Effect.post? : Effect → Option (Value × String)
  | post name value => some (name, value)
  | _ => none

def posted (effects : List Effect) : List (Value × String) := effects.filterMap Effect.post?

/-- Everything posted to apiary, oldest first. -/
def World.posts (w : World) : List (Value × String) := posted (w.trace.map Prod.snd)

/-- The last message about a sensor. -/
def lastPost (posts : List (Value × String)) (sensor : Value) : Option String :=
  ((posts.filter fun m => m.1.strictEq sensor).getLast?).map Prod.snd

/-- An error message about the sensor was posted and not resolved since. -/
def ErrorPending (posts : List (Value × String)) (sensor : Value) : Prop :=
  ∃ text, lastPost posts sensor = some text ∧ text ≠ "resolve"

/-- Every `resolve` answers an error message about its sensor. -/
def Lawful (posts : List (Value × String)) : Prop :=
  ∀ before after sensor, posts = before ++ (sensor, "resolve") :: after → ErrorPending before sensor

/-- What an outcome posts. -/
def newPosts (blacklist : List Value) : Option Outcome → List (Value × String)
  | none => []
  | some (.error sensor type) =>
      if indexOf Value.strictEq blacklist sensor < 0 then [(sensor, type.text sensor)] else []
  | some (.fixed sensor) => [(sensor, "resolve")]

private theorem append_ne_resolve {a : String} (ha : a.toList.head? ≠ some 'r')
    (hne : a.toList ≠ []) (b : String) : a ++ b ≠ "resolve" := by
  intro h
  have hhead := congrArg (fun s => s.toList.head?) h
  rw [String.toList_append, List.head?_append_of_ne_nil _ hne] at hhead
  exact ha hhead

theorem text_ne_resolve (type : MessageType) (sensor : Value) : type.text sensor ≠ "resolve" := by
  cases type with
  | doesNotExist =>
      change "Sensor " ++ sensor.toText ++ " not found in sensor metadata. " ++
        "Please add this sensor." ≠ "resolve"
      rw [String.append_assoc, String.append_assoc]
      exact append_ne_resolve (by decide) (by decide) _
  | invalidKey keys =>
      change "Received data from sensor " ++ sensor.toText ++ " with unknown key(s) " ++
        ",".intercalate keys ++ ". " ++
        "Please update the keys and properties in this sensors metadata." ≠ "resolve"
      rw [String.append_assoc, String.append_assoc, String.append_assoc, String.append_assoc]
      exact append_ne_resolve (by decide) (by decide) _

@[simp] theorem posted_cons (e : Effect) (effects : List Effect) :
    posted (e :: effects) = e.post?.toList ++ posted effects := by
  unfold posted
  cases h : e.post? <;> simp [h]

@[simp] theorem posted_append (effects more : List Effect) :
    posted (effects ++ more) = posted effects ++ posted more :=
  List.filterMap_append

theorem posts_add (w : World) (n : Nat) (effects : List Effect) :
    (w.add n effects).posts = w.posts ++ posted effects := by
  rw [World.posts, World.add, List.map_append, posted_append, List.map_map]
  have hsnd : effects.map (Prod.snd ∘ fun e => (n, e)) = effects := List.map_id effects
  rw [hsnd]
  rfl

theorem emissions_posted (obs : Json) (map : SensorMap) : posted (emissions obs map) = [] := by
  unfold emissions
  cases formatObs obs map with
  | error e => rfl
  | ok objects =>
      rw [posted_cons, posted, List.filterMap_map]
      exact List.filterMap_eq_nil_iff.mpr fun o _ => rfl

theorem handleEffects_posted (payload : Option Json) (map : SensorMap) :
    posted (handleEffects payload map) = [] := by
  cases payload with
  | none => rfl
  | some obs =>
      simp only [handleEffects]
      cases needsPull obs map with
      | error e => rfl
      | ok stale =>
          cases stale with
          | true => rfl
          | false =>
              simp only [posted_cons, posted_append, emissions_posted]
              cases formatObs obs map <;> rfl

theorem settleEffects_posted (blacklist : List Value) (obs : Json)
    (result : Except String SensorMap) :
    posted (settleEffects blacklist obs result) =
      newPosts blacklist (settleOutcome obs result) := by
  cases result with
  | error reason => rfl
  | ok newMap =>
      simp only [settleEffects, settleOutcome]
      cases outcomeOf obs newMap with
      | none => rfl
      | some o =>
          cases o with
          | error sensor type =>
              simp only [newPosts]
              split <;> rfl
          | fixed sensor =>
              simp only [posted_append, emissions_posted]
              rfl

theorem lastPost_concat (posts : List (Value × String)) (sensor : Value) (text : String)
    (v : Value) :
    lastPost (posts ++ [(sensor, text)]) v =
      if sensor.strictEq v = true then some text else lastPost posts v := by
  cases hv : sensor.strictEq v <;> simp [lastPost, hv]

theorem errorPending_concat_error {posts : List (Value × String)} {sensor : Value} {text : String}
    (htext : text ≠ "resolve") (v : Value) :
    ErrorPending (posts ++ [(sensor, text)]) v ↔
      ErrorPending posts v ∨ sensor.strictEq v = true := by
  rw [ErrorPending, lastPost_concat]
  cases hv : sensor.strictEq v <;> simp [ErrorPending, htext]

theorem errorPending_concat_resolve {posts : List (Value × String)} {sensor : Value} (v : Value) :
    ErrorPending (posts ++ [(sensor, "resolve")]) v ↔
      ErrorPending posts v ∧ sensor.strictEq v = false := by
  rw [ErrorPending, lastPost_concat]
  cases hv : sensor.strictEq v <;> simp [ErrorPending]

/-- A message is lawful after lawful ones unless it is a `resolve` without an error. -/
theorem lawful_concat {posts : List (Value × String)} (h : Lawful posts) (sensor : Value)
    (text : String) :
    Lawful (posts ++ [(sensor, text)]) ↔ (text = "resolve" → ErrorPending posts sensor) := by
  refine ⟨?_, ?_⟩
  · intro hlawful htext
    subst htext
    exact hlawful posts [] sensor rfl
  · intro hlast before after s hsplit
    rcases List.eq_nil_or_concat after with rfl | ⟨init, last, rfl⟩
    · obtain ⟨rfl, heq⟩ := List.append_inj' hsplit rfl
      obtain ⟨rfl, rfl⟩ := Prod.mk.inj (List.singleton_inj.mp heq)
      exact hlast rfl
    · rw [List.concat_eq_append, ← List.cons_append, ← List.append_assoc] at hsplit
      exact h before init s (List.append_inj' hsplit rfl).1

/-- The outcome that a step of the consumer completes. -/
def eventOutcome (p : Processor) : Event → Option Outcome
  | .settle i result => stepOutcome (p.world, .settle i result)
  | _ => none

/-- What the latest of the pulls that were about a sensor has found. -/
def latestReport (tr : List (Processor × Event)) (sensor : Value) : Option Outcome :=
  ((tr.filterMap fun x => eventOutcome x.1 x.2).filter fun o => o.sensor.strictEq sensor).getLast?

/-- If a pulled map has everything that the observation of a sensor needs, the pull before
it about this sensor has found the sensor or a key missing. -/
def FixesAnError (tr : List (Processor × Event)) (p : Processor) (a : Event) : Prop :=
  ∀ sensor, eventOutcome p a = some (.fixed sensor) →
    ∃ same type, latestReport tr sensor = some (.error same type)

/-- While every fix has fixed an error, the list holds the sensors with an open error
message, which are those whose latest report was an error. -/
structure PostsMatch (tr : List (Processor × Event)) (p : Processor) : Prop where
  distinct : Distinct p.world.blacklist
  open_iff : ∀ v, Listed p.world.blacklist v ↔ ErrorPending p.world.posts v
  latest_iff : ∀ v, Listed p.world.blacklist v ↔
    ∃ sensor type, latestReport tr v = some (.error sensor type)

theorem posts_handle (payload : Option Json) (map : SensorMap) (w : World) :
    (handle payload map w).1.posts = w.posts := by
  rw [handle_fst, posts_add, handleEffects_posted, List.append_nil]
  rfl

/-- Only the end of a pull posts anything or edits the list. -/
theorem event_step {p p' : Processor} {a : Event} (hs : processor.step p a = some p') :
    p'.world.blacklist = editBlacklist p.world.blacklist (eventOutcome p a) ∧
    p'.world.posts = p.world.posts ++ newPosts p.world.blacklist (eventOutcome p a) := by
  cases a with
  | processRecords input =>
      obtain rfl := Option.some.inj hs
      simp only [eventOutcome, editBlacklist, newPosts, List.append_nil]
      cases input with
      | none => exact ⟨rfl, rfl⟩
      | some records =>
          refine foldl_world_invariant
            (fun w => w.blacklist = p.world.blacklist ∧ w.posts = p.world.posts) ?_ records ⟨rfl, rfl⟩
          intro payload map w hw
          refine ⟨?_, (posts_handle payload map w).trans hw.2⟩
          rw [handle_fst]
          exact hw.1
  | settle i result =>
      obtain ⟨world, hsettle, rfl⟩ := Option.map_eq_some_iff.mp hs
      obtain ⟨n, obs, hpull, rfl⟩ := settle_eq_some hsettle
      have houtcome : eventOutcome p (.settle i result) = settleOutcome obs result := by
        simp [eventOutcome, stepOutcome, hpull]
      rw [houtcome, posts_add, settleEffects_posted]
      exact ⟨rfl, rfl⟩
  | refreshed result =>
      obtain ⟨-, rfl⟩ := refreshed_step hs
      simp only [eventOutcome, editBlacklist, newPosts, List.append_nil]
      exact ⟨rfl, rfl⟩

theorem postsMatch_initial : PostsMatch [] .initial := by
  refine ⟨List.Pairwise.nil, ?_, ?_⟩
  · intro v
    simp [Listed, ErrorPending, lastPost, World.posts, posted, Processor.initial, World.initial]
  · intro v
    simp [Listed, latestReport, Processor.initial, World.initial]

/-- The latest report about a sensor changes only by a report about it. -/
theorem latestReport_concat (tr : List (Processor × Event)) (p : Processor) (a : Event) (v : Value) :
    latestReport (tr ++ [(p, a)]) v =
      match eventOutcome p a with
      | none => latestReport tr v
      | some o => if o.sensor.strictEq v = true then some o else latestReport tr v := by
  cases ho : eventOutcome p a with
  | none => simp [latestReport, List.filterMap_append, ho]
  | some o => cases hv : o.sensor.strictEq v <;> simp [latestReport, List.filterMap_append, ho, hv]

section
variable {tr : List (Processor × Event)} {p p' : Processor} {a : Event}

/-- A step without a report changes neither the messages nor the list. -/
theorem postsMatch_none (hmatch : PostsMatch tr p) (ho : eventOutcome p a = none)
    (hlist : p'.world.blacklist = p.world.blacklist) (hposts : p'.world.posts = p.world.posts) :
    PostsMatch (tr ++ [(p, a)]) p' := by
  refine ⟨?_, ?_, ?_⟩
  · rw [hlist]
    exact hmatch.distinct
  · rw [hlist, hposts]
    exact hmatch.open_iff
  · intro v
    rw [hlist, latestReport_concat, ho]
    exact hmatch.latest_iff v

/-- An error keeps the messages lawful and the list that of the open errors. -/
theorem postsMatch_error {sensor : Value} {type : MessageType} (hmatch : PostsMatch tr p)
    (hlawful : Lawful p.world.posts) (ho : eventOutcome p a = some (.error sensor type))
    (hlist : p'.world.blacklist = editBlacklist p.world.blacklist (some (.error sensor type)))
    (hposts : p'.world.posts =
      p.world.posts ++ newPosts p.world.blacklist (some (.error sensor type))) :
    Lawful p'.world.posts ∧ PostsMatch (tr ++ [(p, a)]) p' := by
  have hdistinct : Distinct p'.world.blacklist := by
    rw [hlist]
    exact distinct_edit hmatch.distinct _
  have hlatest : ∀ v, Listed p'.world.blacklist v ↔
      ∃ s t, latestReport (tr ++ [(p, a)]) v = some (.error s t) := by
    intro v
    rw [hlist, listed_error, latestReport_concat, ho, hmatch.latest_iff]
    cases hv : sensor.strictEq v <;> simp [Outcome.sensor, hv]
  by_cases hindex : indexOf Value.strictEq p.world.blacklist sensor < 0
  · have htext := text_ne_resolve type sensor
    rw [newPosts, if_pos hindex] at hposts
    refine ⟨?_, hdistinct, ?_, hlatest⟩
    · rw [hposts, lawful_concat hlawful]
      exact fun h => absurd h htext
    · intro v
      rw [hlist, hposts, listed_error, errorPending_concat_error htext, hmatch.open_iff]
  · rw [newPosts, if_neg hindex, List.append_nil] at hposts
    refine ⟨by rwa [hposts], hdistinct, ?_, hlatest⟩
    rw [hlist, hposts, editBlacklist, if_neg hindex]
    exact hmatch.open_iff

/-- A fix of a sensor with an open error closes it. -/
theorem postsMatch_fixed {sensor : Value} (hmatch : PostsMatch tr p)
    (ho : eventOutcome p a = some (.fixed sensor)) (hlisted : Listed p.world.blacklist sensor)
    (hlist : p'.world.blacklist = editBlacklist p.world.blacklist (some (.fixed sensor)))
    (hposts : p'.world.posts = p.world.posts ++ [(sensor, "resolve")]) :
    PostsMatch (tr ++ [(p, a)]) p' := by
  refine ⟨?_, ?_, ?_⟩
  · rw [hlist]
    exact distinct_edit hmatch.distinct _
  · intro v
    rw [hlist, hposts, listed_fixed hmatch.distinct hlisted, errorPending_concat_resolve,
      hmatch.open_iff]
  · intro v
    rw [hlist, listed_fixed hmatch.distinct hlisted, latestReport_concat, ho, hmatch.latest_iff]
    cases hv : sensor.strictEq v <;> simp [Outcome.sensor, hv]

/-- One step: the messages stay lawful exactly when a fix in it fixes an error, and then the
list stays that of the open errors. -/
theorem lawful_step (hmatch : PostsMatch tr p) (hlawful : Lawful p.world.posts)
    (hs : processor.step p a = some p') :
    (Lawful p'.world.posts ↔ FixesAnError tr p a) ∧
      (FixesAnError tr p a → PostsMatch (tr ++ [(p, a)]) p') := by
  obtain ⟨hlist, hposts⟩ := event_step hs
  unfold FixesAnError
  cases ho : eventOutcome p a with
  | none =>
      rw [ho] at hlist hposts
      simp only [editBlacklist, newPosts, List.append_nil] at hlist hposts
      refine ⟨iff_of_true (by rwa [hposts]) ?_, fun _ => postsMatch_none hmatch ho hlist hposts⟩
      intro sensor hfixed
      exact absurd hfixed.symm (Option.some_ne_none _)
  | some o =>
      rw [ho] at hlist hposts
      cases o with
      | error s type =>
          obtain ⟨hlawful', hmatch'⟩ := postsMatch_error hmatch hlawful ho hlist hposts
          refine ⟨iff_of_true hlawful' ?_, fun _ => hmatch'⟩
          intro sensor hfixed
          exact Outcome.noConfusion (Option.some.inj hfixed)
      | fixed s =>
          have honly : (∀ sensor, some (Outcome.fixed s) = some (.fixed sensor) →
              ∃ same type, latestReport tr sensor = some (.error same type)) ↔
                Listed p.world.blacklist s := by
            simp [hmatch.latest_iff]
          rw [newPosts] at hposts
          rw [honly]
          refine ⟨?_, fun hlisted => postsMatch_fixed hmatch ho hlisted hlist hposts⟩
          rw [hposts, lawful_concat hlawful, hmatch.open_iff]
          simp

end

/-- Along every run of the consumer the messages follow the protocol exactly when each pull
that finds nothing wrong with a sensor comes after one that did, as the last about it. -/
theorem apiary_protocol_iff {tr : List (Processor × Event)} {p : Processor}
    (h : processor.Run tr p) :
    processor.Always (fun _ p => Lawful p.world.posts) tr ↔
      ∀ before x after, tr = before ++ x :: after → FixesAnError before x.1 x.2 := by
  refine h.always_iff_each (fun _ p => Lawful p.world.posts) PostsMatch FixesAnError
    ⟨?_, postsMatch_initial⟩ ?_
  · intro before after sensor hsplit
    exact absurd hsplit (by simp [processor, Processor.initial, World.initial, World.posts, posted])
  · intro tr p a p' _ hlawful hmatch hs
    exact lawful_step hmatch hlawful hs

/-- A step without a report, or with an error, fixes nothing. -/
theorem fixesAnError_of_ne {tr : List (Processor × Event)} {p : Processor} {a : Event}
    (h : ∀ sensor, eventOutcome p a ≠ some (.fixed sensor)) : FixesAnError tr p a := by
  intro sensor hfixed
  exact absurd hfixed (h sensor)

/-- A sensor is reported as missing, and as fixed when it reports again. -/
theorem apiary_protocol_one_sensor :
    ∃ tr p, processor.Run tr p ∧ p.world.posts.length = 2 ∧
      processor.Always (fun _ p => Lawful p.world.posts) tr := by
  have hfirst := (System.Run.nil (S := processor)).snoc
    (a := .processRecords (some [⟨some tmp112Obs, some "1"⟩])) rfl
  have hmissing := hfirst.snoc (a := .settle 0 (.ok .empty)) rfl
  have hsecond := hmissing.snoc (a := .processRecords (some [⟨some tmp112Obs, some "2"⟩])) rfl
  have hfixed := hsecond.snoc (a := .settle 0 (.ok tmp112Map)) rfl
  refine ⟨_, _, hfixed, rfl, (apiary_protocol_iff hfixed).mpr ?_⟩
  open System in
  refine Each.snoc.mpr ⟨Each.snoc.mpr ⟨Each.snoc.mpr ⟨Each.snoc.mpr ⟨Each.nil, ?_⟩, ?_⟩, ?_⟩, ?_⟩
  · exact fixesAnError_of_ne fun sensor h => Option.some_ne_none _ h.symm
  · exact fixesAnError_of_ne fun sensor h => Outcome.noConfusion (Option.some.inj h)
  · exact fixesAnError_of_ne fun sensor h => Option.some_ne_none _ h.symm
  · intro sensor h
    obtain rfl := Outcome.fixed.inj (Option.some.inj h)
    exact ⟨_, _, rfl⟩

/-- The first record of a sensor that Postgres knows. -/
def firstReport : List Event :=
  [.processRecords (some [⟨some tmp112Obs, some "1"⟩]), .settle 0 (.ok tmp112Map)]

/-- It is answered by a `resolve` although no error was ever posted. -/
theorem resolve_without_error :
    ∃ tr p, processor.exec processor.init firstReport = some (tr, p) ∧ processor.Run tr p ∧
      p.world.posts = [(.str "TMP112", "resolve")] ∧
      ¬ processor.Always (fun _ p => Lawful p.world.posts) tr := by
  have hexec : ∃ tr p, processor.exec processor.init firstReport = some (tr, p) ∧
      p.world.posts = [(.str "TMP112", "resolve")] := ⟨_, _, rfl, rfl⟩
  obtain ⟨tr, p, hexec, hposts⟩ := hexec
  have hrun := System.Run.of_exec hexec
  refine ⟨tr, p, hexec, hrun, hposts, ?_⟩
  intro hall
  obtain ⟨text, htext, -⟩ := hall.last hrun [] [] (.str "TMP112") hposts
  exact absurd htext.symm (Option.some_ne_none text)

end PlenarioStream.Consumer

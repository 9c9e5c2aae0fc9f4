import PlenarioStream.Consumer.Effects

/-!
The blacklist. `send_correct` removes an element whether or not the sensor is in
the list; when it is not, the element removed is the last one. The list is
accurate along a run of the mapper exactly when that does no harm. Sensors are
compared as `indexOf` compares them.
-/
namespace PlenarioStream.Consumer
open Js Transition

/-- `indexOf` finds the sensor in the list. -/
def Listed (blacklist : List Value) (sensor : Value) : Prop :=
  ∃ y ∈ blacklist, y.strictEq sensor = true

/-- No sensor is found at two places. -/
def Distinct (blacklist : List Value) : Prop :=
  blacklist.Pairwise fun a b => a.strictEq b = false

theorem indexOf_neg_iff_not_listed (blacklist : List Value) (sensor : Value) :
    indexOf Value.strictEq blacklist sensor < 0 ↔ ¬ Listed blacklist sensor := by
  rw [indexOf_neg_iff]
  simp [Listed]

section
variable {blacklist : List Value} {sensor : Value}

theorem edit_fixed_listed (h : Listed blacklist sensor) :
    editBlacklist blacklist (some (.fixed sensor)) =
      blacklist.eraseP fun y => y.strictEq sensor :=
  splice_indexOf Value.strictEq blacklist sensor h

/-- The index -1 of a sensor that is not listed addresses the last element. -/
theorem edit_fixed_not_listed (h : ¬ Listed blacklist sensor) :
    editBlacklist blacklist (some (.fixed sensor)) = blacklist.dropLast := by
  have hindex : indexOf Value.strictEq blacklist sensor = -1 := by
    have hnone : blacklist.findIdx? (fun y => y.strictEq sensor) = none := by
      rw [List.findIdx?_eq_none_iff]
      intro y hy
      exact Bool.eq_false_iff.mpr fun heq => h ⟨y, hy, heq⟩
    rw [indexOf, hnone]
  rw [editBlacklist, hindex, splice_neg_one]

theorem listed_error (type : MessageType) (v : Value) :
    Listed (editBlacklist blacklist (some (.error sensor type))) v ↔
      Listed blacklist v ∨ sensor.strictEq v = true := by
  by_cases h : Listed blacklist sensor
  · rw [editBlacklist, if_neg fun hneg => (indexOf_neg_iff_not_listed _ _).mp hneg h]
    refine ⟨?_, ?_⟩
    · exact Or.inl
    · intro hv
      rcases hv with hv | hv
      · exact hv
      · obtain rfl := Value.eq_of_strictEq hv
        exact h
  · rw [editBlacklist, if_pos ((indexOf_neg_iff_not_listed _ _).mpr h)]
    simp [Listed, or_and_right, exists_or]

private theorem not_mem_eraseP {l : List Value} (hl : Distinct l) {y : Value}
    (hy : y ∈ l.eraseP fun y => y.strictEq sensor) : y.strictEq sensor = false := by
  induction l with
  | nil => simp at hy
  | cons a l ih =>
      obtain ⟨ha, hl⟩ := List.pairwise_cons.mp hl
      cases hp : a.strictEq sensor with
      | true =>
          have herase : (a :: l).eraseP (fun y => y.strictEq sensor) = l := by
            simp [hp]
          rw [herase] at hy
          obtain rfl := Value.eq_of_strictEq hp
          apply Bool.eq_false_iff.mpr
          intro hya
          obtain rfl := Value.eq_of_strictEq hya
          exact Bool.false_ne_true ((ha _ hy).symm.trans hp)
      | false =>
          have herase : (a :: l).eraseP (fun y => y.strictEq sensor) =
              a :: l.eraseP fun y => y.strictEq sensor := by
            simp [hp]
          rw [herase] at hy
          rcases List.mem_cons.mp hy with rfl | hy
          · exact hp
          · exact ih hl hy

theorem listed_fixed (hd : Distinct blacklist) (h : Listed blacklist sensor) (v : Value) :
    Listed (editBlacklist blacklist (some (.fixed sensor))) v ↔
      Listed blacklist v ∧ sensor.strictEq v = false := by
  rw [edit_fixed_listed h]
  refine ⟨?_, ?_⟩
  · intro hv
    obtain ⟨y, hy, hyv⟩ := hv
    refine ⟨⟨y, List.mem_of_mem_eraseP hy, hyv⟩, ?_⟩
    have hne := not_mem_eraseP hd hy
    obtain rfl := Value.eq_of_strictEq hyv
    apply Bool.eq_false_iff.mpr
    intro hs
    obtain rfl := Value.eq_of_strictEq hs
    exact Bool.false_ne_true (hne.symm.trans hs)
  · intro hv
    obtain ⟨⟨y, hy, hyv⟩, hne⟩ := hv
    refine ⟨y, (List.mem_eraseP_of_neg ?_).mpr hy, hyv⟩
    intro hys
    obtain rfl := Value.eq_of_strictEq hys
    exact Bool.false_ne_true (hne.symm.trans hyv)

/-- An element that is not found by itself is not missed. -/
theorem listed_dropLast (hlast : ∀ z, blacklist.getLast? = some z → z.strictEq z = false)
    (v : Value) : Listed blacklist.dropLast v ↔ Listed blacklist v := by
  refine ⟨?_, ?_⟩
  · intro hv
    obtain ⟨y, hy, hyv⟩ := hv
    exact ⟨y, List.dropLast_subset _ hy, hyv⟩
  · intro hv
    obtain ⟨y, hy, hyv⟩ := hv
    refine ⟨y, ?_, hyv⟩
    cases hz : blacklist.getLast? with
    | none =>
        rw [List.getLast?_eq_none_iff.mp hz] at hy
        exact absurd hy List.not_mem_nil
    | some z =>
        obtain ⟨before, hbefore⟩ := List.getLast?_eq_some_iff.mp hz
        rw [hbefore] at hy ⊢
        rw [List.dropLast_concat]
        rcases List.mem_append.mp hy with hy | hy
        · exact hy
        · obtain rfl := List.mem_singleton.mp hy
          obtain rfl := Value.eq_of_strictEq hyv
          exact absurd (hyv.symm.trans (hlast _ hz)) Bool.noConfusion

theorem distinct_edit (hd : Distinct blacklist) (o : Option Outcome) :
    Distinct (editBlacklist blacklist o) := by
  cases o with
  | none => exact hd
  | some o =>
      cases o with
      | error s type =>
          rw [editBlacklist]
          by_cases h : indexOf Value.strictEq blacklist s < 0
          · rw [if_pos h]
            refine List.pairwise_append.mpr ⟨hd, List.pairwise_singleton _ _, ?_⟩
            intro a ha b hb
            obtain rfl := List.mem_singleton.mp hb
            exact (indexOf_neg_iff _ _ _).mp h a ha
          · rw [if_neg h]
            exact hd
      | fixed s =>
          by_cases h : Listed blacklist s
          · rw [edit_fixed_listed h]
            exact hd.sublist List.eraseP_sublist
          · rw [edit_fixed_not_listed h]
            exact hd.sublist (List.dropLast_sublist _)

end

def Outcome.sensor : Outcome → Value
  | error sensor _ => sensor
  | fixed sensor => sensor

/-- The slow-path outcome that a step completes. -/
def stepOutcome : World × Call → Option Outcome
  | (w, .settle i result) => w.pulls[i]?.bind fun p => settleOutcome p.2 result
  | (_, .handle _ _) => none

/-- The latest outcome for one sensor. -/
def latestOutcome (tr : List (World × Call)) (sensor : Value) : Option Outcome :=
  ((tr.filterMap stepOutcome).filter fun o => o.sensor.strictEq sensor).getLast?

/-- A sensor is listed exactly when its latest outcome was an error. -/
def Accurate (tr : List (World × Call)) (w : World) : Prop :=
  ∀ v, Listed w.blacklist v ↔ ∃ sensor type, latestOutcome tr v = some (.error sensor type)

/-- A sensor that the step fixes is listed before, or there is no last element that
could be removed in its place and be missed. -/
def KeepsOthers (w : World) (a : Call) : Prop :=
  ∀ sensor, stepOutcome (w, a) = some (.fixed sensor) →
    Listed w.blacklist sensor ∨ ∀ z, w.blacklist.getLast? = some z → z.strictEq z = false

theorem blacklist_step {w w' : World} {a : Call} (hs : mapper.step w a = some w') :
    w'.blacklist = editBlacklist w.blacklist (stepOutcome (w, a)) := by
  cases a with
  | handle payload map =>
      obtain rfl := Option.some.inj hs
      rw [handle_fst]
      rfl
  | settle i result =>
      obtain ⟨n, obs, hpull, rfl⟩ := settle_eq_some hs
      simp [stepOutcome, hpull]

theorem distinct_run {tr : List (World × Call)} {w : World} (h : mapper.Run tr w) :
    Distinct w.blacklist := by
  refine h.invariant (fun _ w => Distinct w.blacklist) ?_ ?_
  · exact List.Pairwise.nil
  · intro tr w a w' _ hinv hs
    rw [blacklist_step hs]
    exact distinct_edit hinv _

theorem latestOutcome_snoc_none (tr : List (World × Call)) {x : World × Call}
    (hx : stepOutcome x = none) (v : Value) :
    latestOutcome (tr ++ [x]) v = latestOutcome tr v := by
  simp [latestOutcome, List.filterMap_append, hx]

/-- The latest outcome for a sensor changes only by an outcome for that sensor. -/
theorem latestOutcome_snoc_some (tr : List (World × Call)) {x : World × Call} {o : Outcome}
    (hx : stepOutcome x = some o) (v : Value) :
    latestOutcome (tr ++ [x]) v =
      if o.sensor.strictEq v = true then some o else latestOutcome tr v := by
  cases hv : o.sensor.strictEq v <;> simp [latestOutcome, List.filterMap_append, hx, hv]

section
variable {tr : List (World × Call)} {w w' : World} {a : Call}

theorem accurate_of_none (hacc : Accurate tr w) (hs : mapper.step w a = some w')
    (ho : stepOutcome (w, a) = none) : Accurate (tr ++ [(w, a)]) w' := by
  intro v
  rw [blacklist_step hs, ho, latestOutcome_snoc_none tr ho]
  exact hacc v

theorem accurate_of_error {sensor : Value} {type : MessageType} (hacc : Accurate tr w)
    (hs : mapper.step w a = some w') (ho : stepOutcome (w, a) = some (.error sensor type)) :
    Accurate (tr ++ [(w, a)]) w' := by
  intro v
  rw [blacklist_step hs, ho, listed_error, latestOutcome_snoc_some tr ho, hacc v]
  cases hv : sensor.strictEq v <;> simp [Outcome.sensor, hv]

/-- Removing a listed sensor keeps the list accurate. -/
theorem accurate_of_fixed_listed {sensor : Value} (hd : Distinct w.blacklist)
    (hacc : Accurate tr w) (hs : mapper.step w a = some w')
    (ho : stepOutcome (w, a) = some (.fixed sensor)) (hlisted : Listed w.blacklist sensor) :
    Accurate (tr ++ [(w, a)]) w' := by
  intro v
  rw [blacklist_step hs, ho, listed_fixed hd hlisted, latestOutcome_snoc_some tr ho, hacc v]
  cases hv : sensor.strictEq v <;> simp [Outcome.sensor, hv]

/-- Otherwise it stays accurate exactly when the last element is never missed. -/
theorem accurate_iff_of_fixed_not_listed {sensor : Value} (hd : Distinct w.blacklist)
    (hacc : Accurate tr w) (hs : mapper.step w a = some w')
    (ho : stepOutcome (w, a) = some (.fixed sensor)) (hlisted : ¬ Listed w.blacklist sensor) :
    Accurate (tr ++ [(w, a)]) w' ↔
      ∀ z, w.blacklist.getLast? = some z → z.strictEq z = false := by
  have hlist : w'.blacklist = w.blacklist.dropLast := by
    rw [blacklist_step hs, ho, edit_fixed_not_listed hlisted]
  have hlatest : ∀ v, sensor.strictEq v = false →
      latestOutcome (tr ++ [(w, a)]) v = latestOutcome tr v := by
    intro v hv
    rw [latestOutcome_snoc_some tr ho, Outcome.sensor, hv, if_neg Bool.false_ne_true]
  have hother : ∀ v, Listed w.blacklist v → sensor.strictEq v = false := by
    intro v hv
    apply Bool.eq_false_iff.mpr
    intro hsv
    obtain rfl := Value.eq_of_strictEq hsv
    exact hlisted hv
  refine ⟨?_, ?_⟩
  · intro hacc' z hz
    apply Bool.eq_false_iff.mpr
    intro hzz
    have hlistedz : Listed w.blacklist z := ⟨z, List.mem_of_getLast? hz, hzz⟩
    obtain ⟨y, hy, hyz⟩ : Listed w'.blacklist z := by
      rw [hacc' z, hlatest z (hother z hlistedz), ← hacc z]
      exact hlistedz
    obtain ⟨before, hbefore⟩ := List.getLast?_eq_some_iff.mp hz
    rw [hlist, hbefore, List.dropLast_concat] at hy
    rw [Distinct, hbefore] at hd
    have hfalse := (List.pairwise_append.mp hd).2.2 y hy z (List.mem_singleton_self z)
    exact Bool.false_ne_true (hfalse.symm.trans hyz)
  · intro hlast v
    rw [hlist, listed_dropLast hlast, latestOutcome_snoc_some tr ho]
    cases hv : sensor.strictEq v with
    | false => simpa [Outcome.sensor, hv] using hacc v
    | true =>
        obtain rfl := Value.eq_of_strictEq hv
        simpa [Outcome.sensor, hv] using hlisted

end

/-- The blacklist is accurate all along a run exactly when every sensor that is
fixed is listed at that moment, or nothing can be lost in its place. -/
theorem blacklist_accurate_iff {tr : List (World × Call)} {w : World} (h : mapper.Run tr w) :
    mapper.Always Accurate tr ↔ ∀ x ∈ tr, KeepsOthers x.1 x.2 := by
  refine h.always_iff Accurate KeepsOthers ?_ ?_
  · intro v
    simp [Listed, latestOutcome, mapper, World.initial]
  · intro tr w a w' hr hall hs
    have hacc := hall.last hr
    have hd := distinct_run hr
    unfold KeepsOthers
    cases ho : stepOutcome (w, a) with
    | none =>
        refine iff_of_true (accurate_of_none hacc hs ho) ?_
        intro sensor hfixed
        exact absurd hfixed.symm (Option.some_ne_none _)
    | some o =>
        cases o with
        | error s type =>
            refine iff_of_true (accurate_of_error hacc hs ho) ?_
            intro sensor hfixed
            exact Outcome.noConfusion (Option.some.inj hfixed)
        | fixed s =>
            by_cases hlisted : Listed w.blacklist s
            · refine iff_of_true (accurate_of_fixed_listed hd hacc hs ho hlisted) ?_
              intro sensor hfixed
              obtain rfl := Outcome.fixed.inj (Option.some.inj hfixed)
              exact .inl hlisted
            · rw [accurate_iff_of_fixed_not_listed hd hacc hs ho hlisted]
              refine ⟨?_, ?_⟩
              · intro hlast sensor _
                exact .inr hlast
              · intro hkeeps
                exact (hkeeps s rfl).resolve_left hlisted

/-- A sensor of the documented example that Postgres does not know. -/
def bmp340Obs : Json := .obj [("sensor", .str "BMP340"), ("data", .obj [])]

/-- A sensor is reported as missing, then added to Postgres. -/
theorem blacklist_accurate_one_sensor :
    ∃ tr w, mapper.Run tr w ∧ w.blacklist = [] ∧
      (∃ x ∈ tr, Listed x.1.blacklist (.str "TMP112")) ∧ mapper.Always Accurate tr := by
  have hrun := System.Run.nil.exec (S := mapper)
    [.handle (some tmp112Obs) .empty, .settle 0 (.ok .empty), .handle (some tmp112Obs) .empty,
      .settle 0 (.ok tmp112Map)] rfl
  refine ⟨_, _, hrun, rfl, ?_, (blacklist_accurate_iff hrun).mpr ?_⟩
  · exact ⟨_, .tail _ (.tail _ (.head _)), _, .head _, rfl⟩
  · intro x hx sensor hfixed
    rcases List.mem_cons.mp hx with rfl | hx
    · exact absurd hfixed.symm (Option.some_ne_none _)
    rcases List.mem_cons.mp hx with rfl | hx
    · exact Outcome.noConfusion (Option.some.inj hfixed)
    rcases List.mem_cons.mp hx with rfl | hx
    · exact absurd hfixed.symm (Option.some_ne_none _)
    obtain rfl := List.mem_singleton.mp hx
    obtain rfl := Outcome.fixed.inj (Option.some.inj hfixed)
    exact .inl ⟨_, .head _, rfl⟩

/-- One sensor is missing in Postgres; another one, never listed, is fixed by a pull. -/
def fixedUnlisted : List Call :=
  [.handle (some bmp340Obs) .empty, .settle 0 (.ok .empty), .handle (some tmp112Obs) .empty,
    .settle 0 (.ok tmp112Map)]

/-- The missing sensor is then removed from the list, although nothing was said
about it. -/
theorem blacklist_loses_other_sensor :
    ∃ tr w, mapper.exec mapper.init fixedUnlisted = some (tr, w) ∧ mapper.Run tr w ∧
      w.blacklist = [] ∧
      latestOutcome tr (.str "BMP340") = some (.error (.str "BMP340") .doesNotExist) ∧
      ¬ mapper.Always Accurate tr := by
  have hexec : ∃ tr w, mapper.exec mapper.init fixedUnlisted = some (tr, w) ∧ w.blacklist = [] ∧
      latestOutcome tr (.str "BMP340") = some (.error (.str "BMP340") .doesNotExist) :=
    ⟨_, _, rfl, rfl, rfl⟩
  obtain ⟨tr, w, hexec, hlist, hlatest⟩ := hexec
  have hrun := System.Run.of_exec hexec
  refine ⟨tr, w, hexec, hrun, hlist, hlatest, ?_⟩
  intro hall
  obtain ⟨y, hy, -⟩ := (hall.last hrun (.str "BMP340")).mpr ⟨_, _, hlatest⟩
  rw [hlist] at hy
  exact absurd hy List.not_mem_nil

end PlenarioStream.Consumer

import PlenarioStream.Redis.Model

/-!
Calls of `update_node` on one id, one after the other. The stored list is always a
suffix of the observations that were written, so nothing recent is lost. A call
makes progress exactly when the key is absent or the old observations of the list are
followed by a recent one, and the list holds only the last hour exactly as long as the
old observations come first.
-/
namespace PlenarioStream.Redis
open Js Transition

structure Update where
  observation : Json
  now : ℚ

/-- The cell, and the observations of the calls that were fulfilled, as they were written. -/
structure Serial where
  cell : Cell
  completed : List Json

def serial (id : String) : System Serial Update where
  init := ⟨none, []⟩
  step s u :=
    if hasKey id u.observation then
      match updateNode u.now u.observation s.cell with
      | .ok cell => some ⟨cell, s.completed ++ [u.observation.written]⟩
      | .error _ => some s
    else none

/-- The call terminates without an exception and writes a list that ends with its
observation. -/
def Progress (now : ℚ) (observation : Json) (cell : Cell) : Prop :=
  ∃ cell' before, updateNode now observation cell = .ok cell' ∧
    cell'.observations = some (before ++ [observation.written])

/-- The number of completed observations that are no longer in the list. -/
def Serial.dropped (s : Serial) : Nat :=
  s.completed.length - (s.cell.observations.getD []).length

/-- The observation at the position was in the list before the step and is not after it,
and it was older than an hour. -/
def DropsOld (id : String) (i : Nat) (o : Json) (x : Serial × Update) : Prop :=
  ∃ s', (serial id).step x.1 x.2 = some s' ∧ x.1.dropped ≤ i ∧ i < s'.dropped ∧
    older x.2.now o = true

theorem serial_step {id : String} {s s' : Serial} {u : Update}
    (h : (serial id).step s u = some s') :
    hasKey id u.observation = true ∧
      ((∃ cell, updateNode u.now u.observation s.cell = .ok cell ∧
          s' = ⟨cell, s.completed ++ [u.observation.written]⟩) ∨
        (∃ e, updateNode u.now u.observation s.cell = .error e ∧ s' = s)) := by
  obtain ⟨hkey, h⟩ := Option.ite_none_right_eq_some.mp h
  refine ⟨hkey, ?_⟩
  cases hupdate : updateNode u.now u.observation s.cell with
  | ok cell =>
      rw [hupdate] at h
      exact .inl ⟨cell, rfl, (Option.some.inj h).symm⟩
  | error e =>
      rw [hupdate] at h
      exact .inr ⟨e, rfl, (Option.some.inj h).symm⟩

/-- The key is absent until something is written, and then holds a non-empty suffix
of what was written. -/
inductive Kept (s : Serial) : Prop
  | nothing (hcell : s.cell = none) (hcompleted : s.completed = [])
  | suffix (gone l : List Json) (hcell : s.cell.observations = some l) (hne : l ≠ [])
      (hcompleted : s.completed = gone ++ l) (hwritten : l.map Json.written = l)

theorem dropped_eq {s : Serial} {gone l : List Json} (hcell : s.cell.observations = some l)
    (hcompleted : s.completed = gone ++ l) : s.dropped = gone.length := by
  rw [Serial.dropped, hcell, hcompleted, List.length_append, Option.getD_some, Nat.add_sub_cancel]

/-- One call that is fulfilled: the list stays a suffix, and what it loses is old. -/
theorem kept_update {s : Serial} {u : Update} {cell : Cell} (h : Kept s)
    (hupdate : updateNode u.now u.observation s.cell = .ok cell) :
    Kept ⟨cell, s.completed ++ [u.observation.written]⟩ ∧
      ∀ i o, i < Serial.dropped ⟨cell, s.completed ++ [u.observation.written]⟩ →
        (s.completed ++ [u.observation.written])[i]? = some o →
          (i < s.dropped ∧ s.completed[i]? = some o) ∨
          (s.dropped ≤ i ∧ older u.now o = true) := by
  cases updateNode_extends hupdate with
  | first hnone hnew =>
      have hcompleted : s.completed = [] := by
        cases h with
        | nothing _ hcompleted => exact hcompleted
        | suffix gone l hcell => simp [hnone, Cell.observations] at hcell
      refine ⟨.suffix [] [u.observation.written] hnew (List.cons_ne_nil _ _) (by rw [hcompleted])
        (by simp), ?_⟩
      intro i o hi
      rw [dropped_eq hnew (by rw [hcompleted])] at hi
      exact absurd hi (Nat.not_lt_zero i)
  | push dropped p rest hcell hdropped hp hnew =>
      cases h with
      | nothing hnone => simp [hnone, Cell.observations] at hcell
      | suffix gone l hl hne hcompleted hwritten =>
          obtain rfl := Option.some.inj (hl.symm.trans hcell)
          rw [List.map_append] at hwritten
          obtain ⟨-, hkept⟩ := List.append_inj' hwritten (by simp)
          rw [List.map_append, hkept] at hnew
          have hnext : s.completed ++ [u.observation.written] =
              (gone ++ dropped) ++ (p :: rest ++ [u.observation.written]) := by
            simp [hcompleted]
          refine ⟨.suffix (gone ++ dropped) _ hnew (by simp) hnext ?_, ?_⟩
          · rw [List.map_append, hkept]
            simp
          · intro i o hi ho
            rw [dropped_eq hnew hnext, List.length_append] at hi
            rw [dropped_eq hl hcompleted]
            by_cases hlt : i < gone.length
            · refine .inl ⟨hlt, ?_⟩
              rw [hnext, List.append_assoc, List.getElem?_append_left hlt] at ho
              rw [hcompleted, List.getElem?_append_left hlt, ho]
            · have hge := Nat.le_of_not_lt hlt
              refine .inr ⟨hge, hdropped o ?_⟩
              rw [hnext, List.append_assoc, List.getElem?_append_right hge,
                List.getElem?_append_left (by omega)] at ho
              exact List.mem_of_getElem? ho

/-- What holds along every run. -/
structure History (id : String) (tr : List (Serial × Update)) (s : Serial) : Prop where
  kept : Kept s
  dropped : ∀ i o, i < s.dropped → s.completed[i]? = some o → ∃ x ∈ tr, DropsOld id i o x

theorem history_step {id : String} {tr : List (Serial × Update)} {s s' : Serial} {u : Update}
    (h : History id tr s) (hs : (serial id).step s u = some s') :
    History id (tr ++ [(s, u)]) s' := by
  have hlast : (s, u) ∈ tr ++ [(s, u)] := List.mem_append_right _ (List.mem_singleton_self _)
  obtain ⟨-, ⟨cell, hupdate, rfl⟩ | ⟨e, -, rfl⟩⟩ := serial_step hs
  · obtain ⟨hkept, hdropped⟩ := kept_update h.kept hupdate
    refine ⟨hkept, ?_⟩
    intro i o hi ho
    rcases hdropped i o hi ho with ⟨hlt, ho⟩ | ⟨hge, hold⟩
    · obtain ⟨x, hx, hdrops⟩ := h.dropped i o hlt ho
      exact ⟨x, List.mem_append_left _ hx, hdrops⟩
    · exact ⟨(s, u), hlast, _, hs, hge, hi, hold⟩
  · refine ⟨h.kept, ?_⟩
    intro i o hi ho
    obtain ⟨x, hx, hdrops⟩ := h.dropped i o hi ho
    exact ⟨x, List.mem_append_left _ hx, hdrops⟩

theorem history_run {id : String} {tr : List (Serial × Update)} {s : Serial}
    (h : (serial id).Run tr s) : History id tr s := by
  refine h.invariant (History id) ?_ fun tr s u s' _ hinv hs => history_step hinv hs
  refine ⟨.nothing rfl rfl, ?_⟩
  intro i o hi
  exact absurd hi (Nat.not_lt_zero i)

/-- What is stored is read as it was written. -/
theorem written_of_stored {id : String} {tr : List (Serial × Update)} {s : Serial}
    (h : (serial id).Run tr s) {l : List Json} (hl : s.cell.observations = some l) :
    l.map Json.written = l := by
  cases (history_run h).kept with
  | nothing hnone => simp [hnone, Cell.observations] at hl
  | suffix gone l' hl' _ _ hwritten =>
      obtain rfl := Option.some.inj (hl.symm.trans hl')
      exact hwritten

/-- The first observation behind the old ones. -/
theorem find?_not_older {now : ℚ} {dropped rest : List Json} {o : Json}
    (hdropped : ∀ d ∈ dropped, older now d = true) (ho : older now o = false) :
    (dropped ++ o :: rest).find? (fun d => !older now d) = some o := by
  have hnone : dropped.find? (fun d => !older now d) = none := by
    rw [List.find?_eq_none]
    intro d hd
    simp [hdropped d hd]
  rw [List.find?_append, hnone, List.find?_cons_of_pos (by simp [ho])]
  rfl

/-- Whatever the key holds, a call makes progress exactly when the key is absent or the list
has something that is not older than an hour, and the first such observation has a time that
can be compared. -/
theorem progress_iff {id : String} {observation : Json} (hkey : hasKey id observation = true)
    (now : ℚ) (cell : Cell) :
    Progress now observation cell ↔ cell = none ∨
      ∃ l, cell.observations = some l ∧
        ∃ o, l.find? (fun o => !older now o) = some o ∧ Comparable o := by
  refine ⟨?_, ?_⟩
  · intro hprogress
    obtain ⟨cell', -, hupdate, -⟩ := hprogress
    cases updateNode_extends hupdate with
    | first hnone _ => exact .inl hnone
    | push dropped o rest hcell hdropped ho _ =>
        exact .inr ⟨_, hcell, o, find?_not_older hdropped ho.2, ho.1⟩
  · intro hcond
    rcases hcond with hnone | ⟨l, hl, o, hfind, ho⟩
    · obtain ⟨cell', hupdate, hnew⟩ := updateNode_none hkey now
      exact ⟨cell', [], by rw [hnone, hupdate], hnew⟩
    · obtain ⟨hold, dropped, rest, rfl, hdropped⟩ := List.find?_eq_some_iff_append.mp hfind
      have hrecent : Recent now o := ⟨ho, by simpa using hold⟩
      obtain ⟨cell', hupdate, hnew⟩ := updateNode_recent hkey hl (by simpa using hdropped) hrecent
      rw [List.map_append] at hnew
      exact ⟨cell', _, hupdate, hnew⟩

theorem progress_within_hour :
    ∃ tr s, (serial "foo").Run tr s ∧ s.cell ≠ none ∧ Progress 1465571173 (fooAt 1465571173) s.cell := by
  have hrun := System.Run.nil.exec (S := serial "foo") [⟨fooAt 1465570173, 1465570173⟩] rfl
  refine ⟨_, _, hrun, Option.some_ne_none _,
    (progress_iff (fooAt_hasKey 1465571173) _ _).mpr (.inr ⟨[fooAt 1465570173], rfl, ?_⟩)⟩
  exact ⟨_, @find?_not_older _ [] _ _ (by simp) (by decide +kernel), fooAt_comparable _⟩

/-- After an hour without an observation every further call throws. -/
theorem no_progress_after_hour :
    ∃ tr s, (serial "foo").Run tr s ∧ ¬ Progress 1465573774 (fooAt 1465573774) s.cell := by
  have hrun := System.Run.nil.exec (S := serial "foo") [⟨fooAt 1465570173, 1465570173⟩] rfl
  refine ⟨_, _, hrun, ?_⟩
  intro hprogress
  obtain ⟨cell', -, hupdate, -⟩ := hprogress
  have hold : older 1465573774 (fooAt 1465570173) = true := by decide +kernel
  cases updateNode_extends hupdate with
  | first hnone _ => exact absurd hnone (Option.some_ne_none _)
  | push dropped o rest hcell _ ho _ =>
      have hmem : o ∈ [fooAt 1465570173] := by
        rw [Option.some.inj (show some [fooAt 1465570173] = _ from hcell)]
        simp
      rw [List.mem_singleton.mp hmem] at ho
      exact Bool.noConfusion (hold.symm.trans ho.2)

/-- Whatever the times and the clocks: the list is a suffix of what was written, not
empty once anything was; what it has lost was old when it was lost; and a call
that throws leaves the cell. -/
theorem window_kept {id : String} {tr : List (Serial × Update)} {s : Serial}
    (h : (serial id).Run tr s) :
    (s.completed = [] → s.cell = none) ∧
    (s.completed ≠ [] → ∃ l, s.cell.observations = some l ∧ l ≠ [] ∧ l <:+ s.completed) ∧
    (∀ i o, i < s.dropped → s.completed[i]? = some o → ∃ x ∈ tr, DropsOld id i o x) ∧
    (∀ x ∈ tr, ∀ e, updateNode x.2.now x.2.observation x.1.cell = .error e →
      (serial id).step x.1 x.2 = some x.1) := by
  have hinv := history_run h
  refine ⟨?_, ?_, hinv.dropped, ?_⟩
  · intro hnil
    cases hinv.kept with
    | nothing hcell _ => exact hcell
    | suffix gone l _ hne hcompleted _ =>
        rw [hnil] at hcompleted
        exact absurd (List.append_eq_nil_iff.mp hcompleted.symm).2 hne
  · intro hne
    cases hinv.kept with
    | nothing _ hnil => exact absurd hnil hne
    | suffix gone l hcell hl hcompleted _ => exact ⟨l, hcell, hl, gone, hcompleted.symm⟩
  · intro x hx e herror
    obtain ⟨p, y, -, hy, -⟩ := h.step_of_mem hx
    obtain ⟨-, ⟨cell, hok, -⟩ | ⟨-, -, rfl⟩⟩ := serial_step hy
    · rw [hok] at herror
      cases herror
    · exact hy

/-- Such a call as a step. -/
theorem serial_recent {id : String} {dropped rest : List Json} {o : Json} (s : Serial) (u : Update)
    (hkey : hasKey id u.observation = true)
    (hcell : s.cell.observations = some (dropped ++ o :: rest))
    (hdropped : ∀ d ∈ dropped, older u.now d = true) (ho : Recent u.now o) :
    ∃ cell, (serial id).step s u = some ⟨cell, s.completed ++ [u.observation.written]⟩ ∧
      cell.observations = some ((o :: rest ++ [u.observation]).map Json.written) := by
  obtain ⟨cell, hupdate, hnew⟩ := updateNode_recent hkey hcell hdropped ho
  refine ⟨cell, ?_, hnew⟩
  change (if hasKey id u.observation then _ else none) = _
  rw [if_pos hkey, hupdate]

/-- Three calls by their observations and clocks, with the cells in between. -/
def threeCalls (a b c : Update) (cell : Cell) : List (Serial × Update) :=
  [(⟨none, []⟩, a), (⟨firstCell a.observation, [a.observation]⟩, b),
    (⟨cell, [a.observation, b.observation]⟩, c)]

/-- When the third observation comes, the first one is dropped. -/
theorem hour_run :
    ∃ cell cell', (serial "foo").Run
        (threeCalls ⟨fooAt 1000, 1000⟩ ⟨fooAt 4000, 4000⟩ ⟨fooAt 4700, 4700⟩ cell)
        ⟨cell', [fooAt 1000, fooAt 4000, fooAt 4700]⟩ ∧
      cell.observations = some [fooAt 1000, fooAt 4000] ∧
      cell'.observations = some [fooAt 4000, fooAt 4700] := by
  have h₁ := System.Run.nil.exec (S := serial "foo") [⟨fooAt 1000, 1000⟩] rfl
  have hcell₁ : (firstCell (fooAt 1000)).observations = some ([] ++ [fooAt 1000]) := rfl
  obtain ⟨cell₂, hs₂, hcell₂⟩ := serial_recent ⟨_, [fooAt 1000]⟩ ⟨fooAt 4000, 4000⟩
    (fooAt_hasKey 4000) hcell₁ (by simp) ⟨fooAt_comparable 1000, by decide +kernel⟩
  obtain ⟨cell₃, hs₃, hcell₃⟩ := serial_recent ⟨cell₂, [fooAt 1000, fooAt 4000]⟩ ⟨fooAt 4700, 4700⟩
    (fooAt_hasKey 4700) (show cell₂.observations = some ([fooAt 1000] ++ [fooAt 4000]) from hcell₂)
    (by decide +kernel) ⟨fooAt_comparable 4000, by decide +kernel⟩
  exact ⟨cell₂, cell₃, (h₁.snoc hs₂).snoc hs₃, hcell₂, hcell₃⟩

theorem window_kept_hour :
    ∃ tr s, (serial "foo").Run tr s ∧ s.dropped = 1 ∧ ∃ x ∈ tr, DropsOld "foo" 0 (fooAt 1000) x := by
  obtain ⟨cell, cell', hrun, -, hcell⟩ := hour_run
  have hdropped := dropped_eq (s := ⟨cell', [fooAt 1000] ++ [fooAt 4000, fooAt 4700]⟩) hcell rfl
  refine ⟨_, _, hrun, hdropped, (window_kept hrun).2.2.1 0 (fooAt 1000) ?_ rfl⟩
  exact Nat.lt_of_lt_of_eq Nat.one_pos hdropped.symm

/-- `observation['time'] >= now - 3600`. -/
def fresh (now : ℚ) (observation : Json) : Bool :=
  match timeOf observation with
  | .ok n => n.atLeast (now - 3600)
  | .error _ => false

/-- The time is a number. -/
def Timed (o : Json) : Prop := ∃ q, timeOf o = .ok (.finite q)

theorem older_eq_false_iff {o : Json} (h : Timed o) (now : ℚ) :
    older now o = false ↔ fresh now o = true := by
  obtain ⟨q, hq⟩ := h
  rw [← Bool.not_eq_true, older_eq hq, fresh, hq, Number.lessThan_finite, Number.atLeast_finite,
    not_lt]

/-- If the call is fulfilled, everything in the list but the observation just pushed is
from the last hour. -/
def FreshAfter (s : Serial) (u : Update) (s' : Serial) : Prop :=
  (∃ cell, updateNode u.now u.observation s.cell = .ok cell) →
    ∀ l, s'.cell.observations = some l → ∀ o ∈ l.dropLast, fresh u.now o = true

def Fresh (tr : List (Serial × Update)) (s : Serial) : Prop :=
  ∀ x u, tr.getLast? = some (x, u) → FreshAfter x u s

/-- The list that a call finds has its old observations in front, and everything behind
them is from the last hour; or the first one behind them has a time that cannot be compared,
so that the call is not fulfilled. -/
def OldFirst (s : Serial) (u : Update) : Prop :=
  ∀ l, s.cell.observations = some l → ∃ front back, l = front ++ back ∧
    (∀ o ∈ front, older u.now o = true) ∧
      ((∀ o ∈ back, fresh u.now o = true) ∨ ∃ o ∈ back.head?, ¬ Comparable o)

/-- What the loop leaves of such a list is from the last hour. -/
theorem recent_of_split {now : ℚ} {front back dropped rest : List Json} {o : Json}
    (h : front ++ back = dropped ++ o :: rest) (hfront : ∀ d ∈ front, older now d = true)
    (ho : older now o = false) : ∀ p ∈ o :: rest, p ∈ back := by
  intro p hp
  rcases List.append_eq_append_iff.mp h with ⟨more, -, rfl⟩ | ⟨more, rfl, hrest⟩
  · exact List.mem_append_right _ hp
  · cases more with
    | nil =>
        rw [hrest] at hp
        exact hp
    | cons d more =>
        obtain ⟨rfl, -⟩ := List.cons.inj hrest
        have hold := hfront o (List.mem_append_right _ List.mem_cons_self)
        exact Bool.noConfusion (hold.symm.trans ho)

/-- A call on the id that throws has found nothing recent, or nothing comparable in front of it. -/
theorem oldFirst_of_error {id : String} {s : Serial} {u : Update} {e : Exception}
    (hkey : hasKey id u.observation = true)
    (herror : updateNode u.now u.observation s.cell = .error e) : OldFirst s u := by
  intro l hl
  cases front u.now l with
  | old hold => exact ⟨l, [], (List.append_nil l).symm, hold, .inl (by simp)⟩
  | recent dropped o rest hsplit hdropped ho =>
      obtain ⟨cell, hok, -⟩ := updateNode_recent hkey (hsplit ▸ hl) hdropped ho
      rw [hok] at herror
      cases herror
  | incomparable dropped o rest hsplit hdropped ho =>
      exact ⟨dropped, o :: rest, hsplit, hdropped, .inr ⟨o, rfl, ho⟩⟩

/-- One step: trimming the front leaves the last hour exactly when the old ones were
in front. -/
theorem freshAfter_iff {id : String} {s s' : Serial} {u : Update}
    (hwritten : ∀ l, s.cell.observations = some l → l.map Json.written = l)
    (hs : (serial id).step s u = some s') : FreshAfter s u s' ↔ OldFirst s u := by
  obtain ⟨hkey, ⟨cell, hupdate, rfl⟩ | ⟨e, herror, rfl⟩⟩ := serial_step hs
  · cases updateNode_extends hupdate with
    | first hnone hnew =>
        refine iff_of_true ?_ ?_
        · intro _ l hl o ho
          obtain rfl := Option.some.inj (hnew.symm.trans hl)
          exact absurd ho List.not_mem_nil
        · intro l hl
          simp [hnone, Cell.observations] at hl
    | push dropped o rest hcell hdropped ho hnew =>
        have hkept : (o :: rest).map Json.written = o :: rest := by
          have hall := hwritten _ hcell
          rw [List.map_append] at hall
          exact (List.append_inj' hall (by simp)).2
        have hlast : ((o :: rest ++ [u.observation]).map Json.written).dropLast = o :: rest := by
          rw [List.map_append, hkept]
          exact List.dropLast_concat
        refine ⟨?_, ?_⟩
        · intro hfresh l hl
          obtain rfl := Option.some.inj (hcell.symm.trans hl)
          refine ⟨dropped, o :: rest, rfl, hdropped, .inl ?_⟩
          intro p hp
          exact hfresh ⟨cell, hupdate⟩ _ hnew p (hlast.symm ▸ hp)
        · intro hfirst _ l hl p hp
          obtain rfl := Option.some.inj (hnew.symm.trans hl)
          rw [hlast] at hp
          obtain ⟨front, back, hsplit, hfront, hback⟩ := hfirst _ hcell
          cases hback with
          | inl hback => exact hback p (recent_of_split hsplit.symm hfront ho.2 p hp)
          | inr hback =>
              -- The first observation that is not old would be another one.
              obtain ⟨q, hq, hincomparable⟩ := hback
              obtain ⟨tail, rfl⟩ := List.head?_eq_some_iff.mp hq
              have hold : older u.now q = false := by
                rw [← Bool.not_eq_true]
                exact fun h => hincomparable (comparable_of_older h)
              have hfind := @find?_not_older _ _ tail _ hfront hold
              rw [← hsplit, find?_not_older hdropped ho.2] at hfind
              obtain rfl := Option.some.inj hfind
              exact absurd ho.1 hincomparable
  · refine iff_of_true ?_ (oldFirst_of_error hkey herror)
    intro hok
    obtain ⟨cell, hok⟩ := hok
    rw [hok] at herror
    cases herror

/-- The list holds only the last hour after every call of a run exactly when every
call finds the old observations in front. -/
theorem last_hour_iff {id : String} {tr : List (Serial × Update)} {s : Serial}
    (h : (serial id).Run tr s) :
    (serial id).Always Fresh tr ↔ ∀ x ∈ tr, OldFirst x.1 x.2 := by
  refine h.always_last_iff FreshAfter OldFirst ?_
  intro p x u y hp hs _
  exact freshAfter_iff (fun l hl => written_of_stored hp hl) hs

/-- When the observations come in the order of their times, old ones are in front. -/
theorem oldFirst_of_sorted {s : Serial} (u : Update)
    (h : ∀ l, s.cell.observations = some l → (∀ o ∈ l, Timed o) ∧
      l.Pairwise fun a b =>
        ∀ p q, timeOf a = .ok (.finite p) → timeOf b = .ok (.finite q) → p ≤ q) :
    OldFirst s u := by
  intro l hl
  suffices hsplit : ∃ front back, l = front ++ back ∧ (∀ o ∈ front, older u.now o = true) ∧
      ∀ o ∈ back, fresh u.now o = true by
    obtain ⟨front, back, hl, hfront, hback⟩ := hsplit
    exact ⟨front, back, hl, hfront, .inl hback⟩
  obtain ⟨htimed, hsorted⟩ := h l hl
  clear h hl
  induction l with
  | nil => exact ⟨[], [], rfl, by simp, by simp⟩
  | cons a l ih =>
      obtain ⟨ha, hl⟩ := List.forall_mem_cons.mp htimed
      obtain ⟨hfirst, hsorted⟩ := List.pairwise_cons.mp hsorted
      cases hold : older u.now a with
      | true =>
          obtain ⟨front, back, rfl, hfront, hback⟩ := ih hl hsorted
          exact ⟨a :: front, back, rfl, List.forall_mem_cons.mpr ⟨hold, hfront⟩, hback⟩
      | false =>
          have hrecent := (older_eq_false_iff ha u.now).mp hold
          refine ⟨[], a :: l, rfl, by simp, List.forall_mem_cons.mpr ⟨hrecent, ?_⟩⟩
          intro b hb
          obtain ⟨p, hp⟩ := ha
          obtain ⟨q, hq⟩ := hl b hb
          simp only [fresh, hp, Number.atLeast_finite] at hrecent
          simp only [fresh, hq, Number.atLeast_finite]
          exact hrecent.trans (hfirst b hb p q hp hq)

theorem last_hour_in_order :
    ∃ tr s, (serial "foo").Run tr s ∧ s.completed = [fooAt 1000, fooAt 4000, fooAt 4700] ∧
      (serial "foo").Always Fresh tr := by
  have h₁ : timeOf (fooAt 1000) = .ok (.finite 1000) := by decide +kernel
  have h₂ : timeOf (fooAt 4000) = .ok (.finite 4000) := by decide +kernel
  obtain ⟨cell, cell', hrun, hcell, -⟩ := hour_run
  refine ⟨_, _, hrun, rfl, (last_hour_iff hrun).mpr ?_⟩
  intro x hx
  simp only [threeCalls, List.mem_cons, List.not_mem_nil, or_false] at hx
  rcases hx with rfl | rfl | rfl
  · intro l hl
    cases hl
  · apply oldFirst_of_sorted
    intro l hl
    cases hl
    exact ⟨List.forall_mem_singleton.mpr ⟨_, h₁⟩, List.pairwise_singleton _ _⟩
  · apply oldFirst_of_sorted
    intro l hl
    obtain rfl := Option.some.inj (hcell.symm.trans hl)
    refine ⟨?_, List.pairwise_pair.mpr ?_⟩
    · intro o ho
      simp only [List.mem_cons, List.not_mem_nil, or_false] at ho
      rcases ho with rfl | rfl
      · exact ⟨_, h₁⟩
      · exact ⟨_, h₂⟩
    · intro p q hp hq
      obtain rfl := Number.finite.inj (Except.ok.inj (h₁.symm.trans hp))
      obtain rfl := Number.finite.inj (Except.ok.inj (h₂.symm.trans hq))
      decide +kernel

/-- A late observation stays behind a recent one for more than an hour. -/
theorem not_last_hour_late :
    ∃ tr s, (serial "foo").Run tr s ∧ ¬ (serial "foo").Always Fresh tr := by
  have h₁ := System.Run.nil.exec (S := serial "foo") [⟨fooAt 4000, 4000⟩] rfl
  have hcell₁ : (firstCell (fooAt 4000)).observations = some ([] ++ [fooAt 4000]) := rfl
  obtain ⟨cell₂, hs₂, hcell₂⟩ := serial_recent ⟨_, [fooAt 4000]⟩ ⟨fooAt 300, 4000⟩
    (fooAt_hasKey 300) hcell₁ (by simp) ⟨fooAt_comparable 4000, by decide +kernel⟩
  obtain ⟨cell₃, hs₃, hcell₃⟩ := serial_recent ⟨cell₂, [fooAt 4000, fooAt 300]⟩
    ⟨fooAt 4001, 4001⟩ (fooAt_hasKey 4001)
    (show cell₂.observations = some ([] ++ [fooAt 4000, fooAt 300]) from hcell₂) (by simp)
    ⟨fooAt_comparable 4000, by decide +kernel⟩
  have hrun := (h₁.snoc hs₂).snoc hs₃
  refine ⟨_, _, hrun, ?_⟩
  intro hall
  obtain ⟨-, ⟨cell, hupdate, -⟩ | ⟨-, -, hsame⟩⟩ := serial_step hs₃
  · have hlate := hall.last hrun _ _ List.getLast?_concat ⟨cell, hupdate⟩ _ hcell₃ (fooAt 300)
      (by simp [fooAt_written])
    exact absurd hlate (by decide +kernel)
  · simp at hsame

end PlenarioStream.Redis

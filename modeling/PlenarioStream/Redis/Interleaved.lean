import PlenarioStream.Redis.Model
import Mathlib.Data.List.DropRight
import Mathlib.Data.List.Perm.Basic

/-!
Calls of `update_node` on one id whose GETs and SETs interleave. Each call writes
what it makes of the reply it got, however old the reply is. No update is lost
exactly when every call that writes finds the cell as it read it: the result is
then that of the calls one after the other. All calls read the same clock.
-/
namespace PlenarioStream.Redis
open Js Transition

/-- A call waits from the reply of its GET to its SET. -/
structure Shared where
  cell : Cell
  waiting : List (Json × Cell)
  started : List Json
  fulfilled : List Json
  failed : List Json

inductive Command
  | get (observation : Json)
  | set (i : Nat)

def interleaved (id : String) (now : ℚ) (initial : Cell) : System Shared Command where
  init := ⟨initial, [], [], [], []⟩
  step s
    | .get o =>
        if hasKey id o then
          some { s with waiting := s.waiting ++ [(o, s.cell)], started := s.started ++ [o] }
        else none
    | .set i =>
        match s.waiting[i]? with
        | none => none
        | some (o, reply) =>
            match updateNode now o reply with
            | .ok cell => some
                { s with cell, waiting := s.waiting.eraseIdx i, fulfilled := s.fulfilled ++ [o] }
            | .error _ => some
                { s with waiting := s.waiting.eraseIdx i, failed := s.failed ++ [o] }

/-- The calls one after the other. -/
def serially (now : ℚ) (cell : Cell) (order : List Json) : Except Exception Cell :=
  order.foldlM (fun cell o => updateNode now o cell) cell

/-- Every call's observation is in the list, and the cell is what some serial order of
the calls leaves. -/
def NoLostUpdate (now : ℚ) (initial : Cell) (s : Shared) : Prop :=
  (∀ o ∈ s.started, ∃ l, s.cell.observations = some l ∧ o.written ∈ l) ∧
  ∃ order, order.Perm s.started ∧ serially now initial order = .ok s.cell

/-- The call that writes in this step got the present cell as its reply. -/
def Undisturbed (x : Shared × Command) : Prop :=
  ∀ i o reply, x.2 = .set i → x.1.waiting[i]? = some (o, reply) → reply = x.1.cell

/-- The part of the list that a call would keep. -/
def base (now : ℚ) (cell : Cell) : List Json :=
  (cell.observations.getD []).dropWhile (older now)

/-- What is left of these when they are read again. -/
def kept (now : ℚ) (cell : Cell) : List Json :=
  ((base now cell).map Json.written).dropWhile (older now)

/-- A fulfilled call pushes its observation to what it keeps. -/
theorem Extends.observations {now : ℚ} {o : Json} {cell cell' : Cell}
    (h : Extends now o cell cell') :
    cell'.observations = some ((base now cell ++ [o]).map Json.written) := by
  cases h with
  | first hcell hnew =>
      rw [hnew, hcell]
      rfl
  | push dropped p rest hcell hdropped hp hnew =>
      rw [hnew, base, hcell, Option.getD_some, List.dropWhile_append_of_pos hdropped,
        List.dropWhile_cons, hp.2, if_neg Bool.false_ne_true]

/-- The next call finds something recent. -/
theorem Extends.base_ne_nil {now : ℚ} {p : Json} {cell cell' : Cell}
    (h : Extends now p cell cell') {l : List Json} (hl : cell.observations = some l) :
    base now cell ≠ [] := by
  cases h with
  | first hcell _ => simp [hcell, Cell.observations] at hl
  | push dropped o rest hcell hdropped ho _ =>
      rw [base, hcell, Option.getD_some, List.dropWhile_append_of_pos hdropped, List.dropWhile_cons,
        ho.2, if_neg Bool.false_ne_true]
      exact List.cons_ne_nil _ _

theorem mem_kept_written {now : ℚ} {cell : Cell} {o : Json} (h : o ∈ kept now cell) :
    o.written = o := by
  obtain ⟨p, -, rfl⟩ := List.mem_map.mp ((List.dropWhile_sublist _).subset h)
  exact p.written_written

theorem serially_concat {now : ℚ} {initial cell : Cell} {order : List Json} {o : Json} :
    serially now initial (order ++ [o]) = .ok cell ↔
      ∃ mid, serially now initial order = .ok mid ∧ updateNode now o mid = .ok cell := by
  simp only [serially, List.foldlM_append, List.foldlM_cons, List.foldlM_nil, bind_pure]
  cases order.foldlM (fun cell o => updateNode now o cell) initial with
  | error e => simp [bind, Except.bind]
  | ok mid => simp [bind, Except.bind]

theorem serially_singleton {now : ℚ} {initial cell : Cell} {o : Json}
    (h : serially now initial [o] = .ok cell) :
    cell.observations = some ((base now initial).map Json.written ++ [o.written]) := by
  obtain ⟨mid, hmid, hupdate⟩ := serially_concat.mp (show serially now initial ([] ++ [o]) = _ from h)
  obtain rfl := Except.ok.inj hmid
  rw [(updateNode_extends hupdate).observations, List.map_append]
  rfl

/-- The calls of a serial order at one clock drop nothing of each other, and only the first
two of them anything else. -/
theorem serially_observations {now : ℚ} {initial cell : Cell} {order : List Json} {o : Json}
    (hne : order ≠ []) (h : serially now initial (order ++ [o]) = .ok cell) :
    cell.observations = some (kept now initial ++ (order ++ [o]).map Json.written) ∧
      base now cell = kept now initial ++ (order ++ [o]).map Json.written := by
  induction order using List.reverseRecOn generalizing o cell with
  | nil => exact absurd rfl hne
  | append_singleton order p ih =>
      obtain ⟨mid, hmid, hupdate⟩ := serially_concat.mp h
      have hextends := updateNode_extends hupdate
      have hmem : ∃ l, mid.observations = some l ∧
          base now mid = kept now initial ++ (order ++ [p]).map Json.written := by
        by_cases hfirst : order = []
        · subst hfirst
          have hobs := serially_singleton hmid
          have hrecent := hextends.base_ne_nil hobs
          refine ⟨_, hobs, ?_⟩
          rw [base, hobs, Option.getD_some, List.dropWhile_append] at hrecent ⊢
          rw [← kept] at hrecent ⊢
          split
          · rename_i hempty
            rw [if_pos hempty] at hrecent
            rw [List.isEmpty_iff.mp hempty, List.nil_append]
            cases hold : older now p.written with
            | true => simp [hold] at hrecent
            | false => simp [hold]
          · rfl
        · obtain ⟨hobs, hbase⟩ := ih hfirst hmid
          exact ⟨_, hobs, hbase⟩
      obtain ⟨l, hl, hbase⟩ := hmem
      have hrecent := hextends.base_ne_nil hl
      have hobs : cell.observations =
          some (kept now initial ++ (order ++ [p] ++ [o]).map Json.written) := by
        rw [hextends.observations, hbase, List.map_append, List.map_append,
          @List.map_append _ _ _ (order ++ [p]), List.map_map, ← List.append_assoc]
        congr 2
        · congr 1
          · exact (List.map_congr_left fun q hq => mem_kept_written hq).trans (List.map_id' _)
          · exact List.map_congr_left fun q _ => q.written_written
      refine ⟨hobs, ?_⟩
      -- What the last call has kept begins with something recent, and so does the list now.
      have hagain : (base now mid).dropWhile (older now) = base now mid :=
        List.dropWhile_idempotent _ _
      rw [base, hobs, Option.getD_some, List.map_append, ← List.append_assoc, ← hbase,
        List.dropWhile_append, hagain, if_neg (by simpa using hrecent)]

/-- A cell that is left by two serial orders does not tell them apart by their lengths. -/
theorem serially_length {now : ℚ} {initial cell : Cell} {as bs : List Json} {a b : Json}
    (ha : serially now initial (as ++ [a]) = .ok cell)
    (hb : serially now initial (bs ++ [b]) = .ok cell) : as.length = bs.length := by
  have hone {o p : Json} {order : List Json} (hone : serially now initial [o] = .ok cell)
      (hmore : serially now initial (order ++ [p]) = .ok cell) : order = [] := by
    by_contra hne
    obtain ⟨hobs, hbase⟩ := serially_observations hne hmore
    have hsame := Option.some.inj ((serially_singleton hone).symm.trans hobs)
    have hlen := congrArg List.length hsame
    have hpos := List.length_pos_iff.mpr hne
    -- The list begins with something recent, so what the first call kept still does.
    cases hkept : (base now initial).map Json.written with
    | nil =>
        rw [kept, hkept] at hlen
        simp only [List.dropWhile_nil, List.nil_append, List.length_map, List.length_append,
          List.length_singleton] at hlen
        omega
    | cons q tail =>
        have hq : older now q = false := by
          have hhead := List.head?_dropWhile_not (older now) (cell.observations.getD [])
          rw [← base, hbase, ← hsame, hkept] at hhead
          exact hhead
        have hall : kept now initial = q :: tail := by
          rw [kept, hkept, List.dropWhile_cons, hq, if_neg Bool.false_ne_true]
        rw [hall, hkept] at hlen
        simp only [List.length_map, List.length_append, List.length_singleton] at hlen
        omega
  by_cases has : as = []
  · subst has
    rw [hone ha hb]
  · by_cases hbs : bs = []
    · subst hbs
      rw [hone hb ha]
    · have hsame := Option.some.inj
        ((serially_observations has ha).1.symm.trans (serially_observations hbs hb).1)
      simpa using congrArg List.length (List.append_cancel_left hsame)

theorem mem_serially {now : ℚ} {initial cell : Cell} {order : List Json}
    (h : serially now initial order = .ok cell) {o : Json} (ho : o ∈ order) :
    ∃ l, cell.observations = some l ∧ o.written ∈ l := by
  obtain rfl | ⟨order, p, rfl⟩ := List.eq_nil_or_concat order
  · exact absurd ho List.not_mem_nil
  · rw [List.concat_eq_append] at h ho
    by_cases hne : order = []
    · subst hne
      obtain rfl := List.mem_singleton.mp ho
      exact ⟨_, serially_singleton h, by simp⟩
    · exact ⟨_, (serially_observations hne h).1,
        List.mem_append_right _ (List.mem_map_of_mem ho)⟩

/-- The cell is what a serial order of fewer calls leaves. -/
def Behind (now : ℚ) (initial : Cell) (n : Nat) (cell : Cell) : Prop :=
  ∃ order, serially now initial order = .ok cell ∧ order.length < n

theorem Behind.mono {now : ℚ} {initial cell : Cell} {n m : Nat} (h : Behind now initial n cell)
    (hle : n ≤ m) : Behind now initial m cell := by
  obtain ⟨order, hserial, hlt⟩ := h
  exact ⟨order, hserial, hlt.trans_le hle⟩

/-- The same of a cell that some call has written. -/
def Short (now : ℚ) (initial : Cell) (n : Nat) (cell : Cell) : Prop :=
  ∃ order o, serially now initial (order ++ [o]) = .ok cell ∧ order.length + 1 < n

theorem Behind.update {now : ℚ} {initial reply cell : Cell} {n : Nat} {o : Json}
    (h : Behind now initial n reply) (hupdate : updateNode now o reply = .ok cell) :
    Short now initial (n + 1) cell := by
  obtain ⟨order, hserial, hlt⟩ := h
  exact ⟨order, o, serially_concat.mpr ⟨reply, hserial, hupdate⟩, Nat.succ_lt_succ hlt⟩

theorem Short.behind {now : ℚ} {initial cell : Cell} {n : Nat} (h : Short now initial n cell) :
    Behind now initial n cell := by
  obtain ⟨order, o, hserial, hlt⟩ := h
  exact ⟨_, hserial, by simpa using hlt⟩

/-- A reply that is no longer the cell is behind the calls fulfilled since. Once such a
reply has been used, the cell and all replies stay behind. -/
structure Tally (now : ℚ) (initial : Cell) (tr : List (Shared × Command)) (s : Shared) : Prop where
  cell : Behind now initial (s.fulfilled.length + 1) s.cell
  reply : ∀ p ∈ s.waiting, p.2 = s.cell ∨ Behind now initial s.fulfilled.length p.2
  calls : (s.fulfilled ++ s.failed ++ s.waiting.map Prod.fst).Perm s.started
  serial : (∀ x ∈ tr, Undisturbed x) → serially now initial s.fulfilled = .ok s.cell
  short : s.failed = [] → (∃ x ∈ tr, ¬ Undisturbed x) →
    Short now initial s.fulfilled.length s.cell ∧
      ∀ p ∈ s.waiting, Behind now initial s.fulfilled.length p.2

theorem interleaved_get {id : String} {now : ℚ} {initial : Cell} {s s' : Shared} {o : Json}
    (h : (interleaved id now initial).step s (.get o) = some s') :
    s' = { s with waiting := s.waiting ++ [(o, s.cell)], started := s.started ++ [o] } := by
  obtain ⟨-, h⟩ := Option.ite_none_right_eq_some.mp h
  exact (Option.some.inj h).symm

theorem interleaved_set {id : String} {now : ℚ} {initial : Cell} {s s' : Shared} {i : Nat}
    (h : (interleaved id now initial).step s (.set i) = some s') :
    ∃ o reply, s.waiting[i]? = some (o, reply) ∧
      ((∃ cell, updateNode now o reply = .ok cell ∧ s' =
          { s with cell, waiting := s.waiting.eraseIdx i, fulfilled := s.fulfilled ++ [o] }) ∨
        (∃ e, updateNode now o reply = .error e ∧ s' =
          { s with waiting := s.waiting.eraseIdx i, failed := s.failed ++ [o] })) := by
  change (match s.waiting[i]? with | none => none | some (o, reply) => _) = some s' at h
  cases hcall : s.waiting[i]? with
  | none =>
      rw [hcall] at h
      cases h
  | some call =>
      obtain ⟨o, reply⟩ := call
      refine ⟨o, reply, rfl, ?_⟩
      simp only [hcall] at h
      cases hupdate : updateNode now o reply with
      | ok cell =>
          rw [hupdate] at h
          exact .inl ⟨cell, rfl, (Option.some.inj h).symm⟩
      | error e =>
          rw [hupdate] at h
          exact .inr ⟨e, rfl, (Option.some.inj h).symm⟩

section
variable {now : ℚ} {initial : Cell} {tr : List (Shared × Command)} {s : Shared}

theorem Tally.reply_behind (h : Tally now initial tr s) {p : Json × Cell} (hp : p ∈ s.waiting) :
    Behind now initial (s.fulfilled.length + 1) p.2 := by
  rcases h.reply p hp with hcell | hbehind
  · rw [hcell]
    exact h.cell
  · exact hbehind.mono (Nat.le_succ _)

theorem tally_get (h : Tally now initial tr s) (o : Json) :
    Tally now initial (tr ++ [(s, .get o)])
      { s with waiting := s.waiting ++ [(o, s.cell)], started := s.started ++ [o] } := by
  have hsteps : (∃ x ∈ tr ++ [(s, .get o)], ¬ Undisturbed x) → ∃ x ∈ tr, ¬ Undisturbed x := by
    intro hx
    obtain ⟨x, hx, hdist⟩ := hx
    rcases List.mem_append.mp hx with hx | hx
    · exact ⟨x, hx, hdist⟩
    · obtain rfl := List.mem_singleton.mp hx
      exact absurd (fun i p reply hset => Command.noConfusion hset) hdist
  refine ⟨h.cell, ?_, ?_, ?_, ?_⟩
  · intro p hp
    rcases List.mem_append.mp hp with hp | hp
    · exact h.reply p hp
    · rw [List.mem_singleton.mp hp]
      exact .inl rfl
  · rw [List.map_append, ← List.append_assoc]
    exact h.calls.append_right _
  · intro hall
    exact h.serial fun x hx => hall x (List.mem_append_left _ hx)
  · intro hfailed hdist
    obtain ⟨hcell, hreply⟩ := h.short hfailed (hsteps hdist)
    refine ⟨hcell, ?_⟩
    intro p hp
    rcases List.mem_append.mp hp with hp | hp
    · exact hreply p hp
    · rw [List.mem_singleton.mp hp]
      exact hcell.behind

/-- The calls of a state after one of them has left the waiting ones. -/
theorem calls_erase {i : Nat} {o : Json} {reply : Cell} (hcall : s.waiting[i]? = some (o, reply)) :
    (o :: (s.waiting.eraseIdx i).map Prod.fst).Perm (s.waiting.map Prod.fst) := by
  obtain ⟨hi, hget⟩ := List.getElem?_eq_some_iff.mp hcall
  have hperm := (List.getElem_cons_eraseIdx_perm hi).map Prod.fst
  rwa [List.map_cons, hget] at hperm

theorem tally_fulfilled (h : Tally now initial tr s) {i : Nat} {o : Json} {reply cell : Cell}
    (hcall : s.waiting[i]? = some (o, reply)) (hupdate : updateNode now o reply = .ok cell) :
    Tally now initial (tr ++ [(s, .set i)])
      { s with cell, waiting := s.waiting.eraseIdx i, fulfilled := s.fulfilled ++ [o] } := by
  have hmem := List.mem_of_getElem? hcall
  have hlen : (s.fulfilled ++ [o]).length = s.fulfilled.length + 1 := List.length_append
  have hreply : ∀ p ∈ s.waiting.eraseIdx i, Behind now initial (s.fulfilled ++ [o]).length p.2 := by
    intro p hp
    rw [hlen]
    exact h.reply_behind (List.mem_of_mem_eraseIdx hp)
  refine ⟨?_, fun p hp => .inr (hreply p hp), ?_, ?_, ?_⟩
  · rw [hlen]
    exact ((h.reply_behind hmem).update hupdate).behind
  · have hmove : (s.fulfilled ++ [o] ++ s.failed ++ (s.waiting.eraseIdx i).map Prod.fst).Perm
        (s.fulfilled ++ s.failed ++ o :: (s.waiting.eraseIdx i).map Prod.fst) := by
      simp only [List.append_assoc, List.singleton_append]
      exact List.perm_middle.symm.append_left _
    exact hmove.trans (((calls_erase hcall).append_left _).trans h.calls)
  · intro hall
    have heq := hall (s, .set i) (List.mem_append_right _ (List.mem_singleton_self _)) i o reply rfl hcall
    have hserial := h.serial fun x hx => hall x (List.mem_append_left _ hx)
    exact serially_concat.mpr ⟨s.cell, hserial, heq ▸ hupdate⟩
  · intro hfailed hdist
    refine ⟨?_, hreply⟩
    rw [hlen]
    refine Behind.update ?_ hupdate
    obtain ⟨x, hx, hdist⟩ := hdist
    rcases List.mem_append.mp hx with hx | hx
    · exact (h.short hfailed ⟨x, hx, hdist⟩).2 _ hmem
    · obtain rfl := List.mem_singleton.mp hx
      rcases h.reply _ hmem with heq | hbehind
      · refine absurd ?_ hdist
        intro j p r hj hp
        obtain rfl := Command.set.inj hj
        obtain ⟨-, rfl⟩ := Prod.mk.inj (Option.some.inj (hcall.symm.trans hp))
        exact heq
      · exact hbehind

theorem tally_failed (h : Tally now initial tr s) {i : Nat} {o : Json} {reply : Cell}
    (hcall : s.waiting[i]? = some (o, reply)) :
    Tally now initial (tr ++ [(s, .set i)])
      { s with waiting := s.waiting.eraseIdx i, failed := s.failed ++ [o] } := by
  refine ⟨h.cell, ?_, ?_, ?_, ?_⟩
  · intro p hp
    exact h.reply p (List.mem_of_mem_eraseIdx hp)
  · have hmove : s.fulfilled ++ (s.failed ++ [o]) ++ (s.waiting.eraseIdx i).map Prod.fst =
        s.fulfilled ++ s.failed ++ o :: (s.waiting.eraseIdx i).map Prod.fst := by simp
    rw [hmove]
    exact ((calls_erase hcall).append_left _).trans h.calls
  · intro hall
    exact h.serial fun x hx => hall x (List.mem_append_left _ hx)
  · intro hfailed
    exact absurd hfailed (by simp)

theorem tally_run {id : String} (h : (interleaved id now initial).Run tr s) :
    Tally now initial tr s := by
  refine h.invariant (Tally now initial) ?_ ?_
  · refine ⟨⟨[], rfl, Nat.one_pos⟩, fun p hp => absurd hp List.not_mem_nil, .nil, fun _ => rfl, ?_⟩
    intro _ hdist
    obtain ⟨x, hx, -⟩ := hdist
    exact absurd hx List.not_mem_nil
  · intro tr s a s' _ hinv hs
    cases a with
    | get o =>
        obtain rfl := interleaved_get hs
        exact tally_get hinv o
    | set i =>
        obtain ⟨o, reply, hcall, ⟨cell, hupdate, rfl⟩ | ⟨e, -, rfl⟩⟩ := interleaved_set hs
        · exact tally_fulfilled hinv hcall hupdate
        · exact tally_failed hinv hcall

/-- Once all calls are fulfilled, no update is lost exactly when every one of them
wrote over the cell that it had read. -/
theorem no_lost_update_iff {id : String} (h : (interleaved id now initial).Run tr s)
    (hwaiting : s.waiting = []) (hfailed : s.failed = []) :
    NoLostUpdate now initial s ↔ ∀ x ∈ tr, Undisturbed x := by
  have hinv := tally_run h
  have hcalls : s.fulfilled.Perm s.started := by
    have hall := hinv.calls
    rwa [hwaiting, hfailed, List.append_nil, List.map_nil, List.append_nil] at hall
  refine ⟨?_, ?_⟩
  · intro hkept x hx
    by_contra hdist
    obtain ⟨-, order, horder, hserial⟩ := hkept
    obtain ⟨before, o, hshort, hlt⟩ := (hinv.short hfailed ⟨x, hx, hdist⟩).1
    rw [(hcalls.trans horder.symm).length_eq] at hlt
    obtain rfl | ⟨order, p, rfl⟩ := List.eq_nil_or_concat order
    · exact absurd hlt (Nat.not_lt_zero _)
    · rw [List.concat_eq_append] at hserial hlt
      have hlen := serially_length hshort hserial
      rw [List.length_append, List.length_singleton] at hlt
      omega
  · intro hall
    have hserial := hinv.serial hall
    exact ⟨fun o ho => mem_serially hserial (hcalls.mem_iff.mpr ho), s.fulfilled, hcalls, hserial⟩

end

/-- Two calls, the second of which starts when the first is fulfilled. -/
theorem no_lost_update_serial :
    ∃ tr s, (interleaved "foo" 1001 none).Run tr s ∧ s.started = [fooAt 1000, fooAt 1001] ∧
      NoLostUpdate 1001 none s := by
  let a := fooAt 1000
  let b := fooAt 1001
  have hrun : (interleaved "foo" 1001 none).Run
      [(⟨none, [], [], [], []⟩, .get a), (⟨none, [(a, none)], [a], [], []⟩, .set 0),
        (⟨firstCell a, [], [a], [a], []⟩, .get b)]
      ⟨firstCell a, [(b, firstCell a)], [a, b], [a], []⟩ :=
    System.Run.nil.exec (S := interleaved "foo" 1001 none) [.get a, .set 0, .get b] rfl
  have hcell : (firstCell a).observations = some ([] ++ [a]) := rfl
  have hrecent : Recent 1001 a := ⟨fooAt_comparable 1000, by decide +kernel⟩
  obtain ⟨cell, hupdate, -⟩ := updateNode_recent (fooAt_hasKey 1001) hcell (by simp) hrecent
  have hs : (interleaved "foo" 1001 none).step
      ⟨firstCell a, [(b, firstCell a)], [a, b], [a], []⟩ (.set 0) =
        some ⟨cell, [], [a, b], [a, b], []⟩ := by
    change (match updateNode 1001 b (firstCell a) with
      | .ok cell => _
      | .error _ => _) = _
    rw [hupdate]
    rfl
  refine ⟨_, _, hrun.snoc hs, rfl, (no_lost_update_iff (hrun.snoc hs) rfl rfl).mpr ?_⟩
  intro x hx i o reply hset hreply
  simp only [List.cons_append, List.nil_append, List.mem_cons, List.not_mem_nil, or_false] at hx
  rcases hx with rfl | rfl | rfl | rfl
  · cases hset
  · cases hset
    cases hreply
    rfl
  · cases hset
  · cases hset
    cases hreply
    rfl

/-- Two calls that both read the absent key: the second SET overwrites the first. -/
theorem lost_update_two_gets :
    ∃ tr s, (interleaved "foo" 1001 none).Run tr s ∧ s.started = [fooAt 1000, fooAt 1001] ∧
      s.waiting = [] ∧ s.failed = [] ∧ ¬ NoLostUpdate 1001 none s := by
  have hrun := System.Run.nil.exec (S := interleaved "foo" 1001 none)
    [.get (fooAt 1000), .get (fooAt 1001), .set 0, .set 0] rfl
  refine ⟨_, _, hrun, rfl, rfl, rfl, ?_⟩
  intro hkept
  obtain ⟨l, hl, hmem⟩ := hkept.1 (fooAt 1000) List.mem_cons_self
  obtain rfl : [fooAt 1001] = l := Option.some.inj hl
  have htime := congrArg timeOf (List.mem_singleton.mp hmem)
  exact absurd htime (by decide +kernel)

end PlenarioStream.Redis

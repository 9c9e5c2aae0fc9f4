import PlenarioStream.BasicSample.Calls

/-!
What the socket is told. The callback of a call reads the variable `data` of its invocation
when the promise is fulfilled, and by then the loop has left the last text of the batch in it:
the message for every record of a batch carries the text of the last one.
-/
namespace PlenarioStream.BasicSample
open Js Transition

section
variable {stream : List Record} {initial : String → Redis.Cell} {d d' : Deployment}
  {tr : List (Deployment × Move)}

/-- The message for a call carries the last text of the batch in which the call was made. -/
def Reported (stream : List Record) (tr : List (Deployment × Move)) (call : Call) (text : String) :
    Prop :=
  ∃ x n r, (x, .deliver n) ∈ tr ∧ MadeIn stream x n call ∧ (batchAt stream x n).getLast? = some r ∧
    text = "Latest observation: " ++ r.data

theorem Reported.snoc {call : Call} {text : String} (h : Reported stream tr call text)
    (y : Deployment × Move) : Reported stream (tr ++ [y]) call text := by
  obtain ⟨x, n, r, hx, hmade, hlast, htext⟩ := h
  exact ⟨x, n, r, List.mem_append_left _ hx, hmade, hlast, htext⟩

/-- The variable of an invocation of the instance under way keeps the last text of its batch. -/
structure Spoken (stream : List Record) (tr : List (Deployment × Move)) (d : Deployment) : Prop where
  life : d.client.life = d.past.length
  earlier : ∀ x ∈ tr, x.1.client.life ≤ d.client.life
  text : d.crashed = false → ∀ x n, (x, .deliver n) ∈ tr → x.client.life = d.client.life →
    ∀ r, (batchAt stream x n).getLast? = some r →
      d.client.data[x.client.data.length]? = some (some r.data)
  replies : ∀ call ∈ d.client.replies, call.life = d.client.life ∧ Made stream tr call
  emitted : ∀ l ∈ d.lives, ∀ call text, (some call, text) ∈ l.client.emitted →
    Reported stream tr call text

theorem Spoken.snoc (h : Spoken stream tr d) {a : Move} (hlife : d'.client.life = d.client.life)
    (hpast : d'.past = d.past) (hcrashed : d'.crashed = false → d.crashed = false)
    (hdata : d'.crashed = false → d.client.data <+: d'.client.data)
    (hdeliver : d'.crashed = false → ∀ n, a = .deliver n → ∀ r, (batchAt stream d n).getLast? = some r →
      d'.client.data[d.client.data.length]? = some (some r.data))
    (hreplies : ∀ call ∈ d'.client.replies, call ∈ d.client.replies ∨
      call.life = d.client.life ∧ Made stream tr call)
    (hemitted : ∀ call text, (some call, text) ∈ d'.client.emitted →
      (some call, text) ∈ d.client.emitted ∨ Reported stream tr call text) :
    Spoken stream (tr ++ [(d, a)]) d' := by
  refine ⟨?_, ?_, ?_, ?_, ?_⟩
  · rw [hlife, hpast, h.life]
  · intro x hx
    rw [hlife]
    rcases List.mem_append.mp hx with hx | hx
    · exact h.earlier x hx
    · rw [List.mem_singleton.mp hx]
  · intro halive x n hx hsame r hr
    rcases List.mem_append.mp hx with hx | hx
    · have htext := h.text (hcrashed halive) x n hx (hsame.trans hlife) r hr
      obtain ⟨hlt, -⟩ := List.getElem?_eq_some_iff.mp htext
      obtain ⟨more, hmore⟩ := hdata halive
      rw [← hmore, List.getElem?_append_left hlt]
      exact htext
    · obtain ⟨rfl, rfl⟩ := Prod.mk.inj (List.mem_singleton.mp hx)
      exact hdeliver halive n rfl r hr
  · intro call hcall
    rw [hlife]
    rcases hreplies call hcall with hcall | ⟨hcall, hmade⟩
    · exact ⟨(h.replies call hcall).1, (h.replies call hcall).2.snoc _⟩
    · exact ⟨hcall, hmade.snoc _⟩
  · intro l hl call text htext
    rw [Deployment.lives, hpast] at hl
    rcases List.mem_append.mp hl with hl | hl
    · exact (h.emitted l (List.mem_append_left _ hl) call text htext).snoc _
    · rw [List.mem_singleton.mp hl] at htext
      rcases hemitted call text htext with htext | hreported
      · exact (h.emitted _ (List.mem_append_right _ (List.mem_singleton_self _)) call text htext).snoc _
      · exact hreported.snoc _

/-- The loop replaces the last entry by the last text. -/
theorem foldl_data (records : List Record) (data : List (Option String)) (first : Option String) :
    records.foldl (fun data r => data.dropLast ++ [some r.data]) (data ++ [first]) =
      data ++ [(records.getLast?.map fun r => some r.data).getD first] := by
  rcases List.eq_nil_or_concat records with rfl | ⟨records, r, rfl⟩
  · rfl
  · rw [List.concat_eq_append, List.foldl_append, List.getLast?_concat]
    have hdrop : ∀ (records : List Record) (first : Option String),
        (records.foldl (fun data r => data.dropLast ++ [some r.data]) (data ++ [first])).dropLast =
          data := by
      intro records
      induction records with
      | nil => intro first; simp
      | cons s records ih =>
          intro first
          rw [List.foldl_cons, List.dropLast_concat]
          exact ih _
    simp [hdrop]

theorem spoken_deliver (hfaithful : Faithful stream d) (h : Spoken stream tr d) {n : Nat}
    (hs : (deployment stream initial).step d (.deliver n) = some d') :
    Spoken stream (tr ++ [(d, .deliver n)]) d' := by
  have hcrashed : d.crashed = false := by
    obtain ⟨d₀, hreceive, -⟩ := Option.map_eq_some_iff.mp hs
    exact (receive_guard hreceive).1
  obtain ⟨client, crashed, before, rfl, -, -, -, hall, hlife, hreplies, hemitted, -, -⟩ :=
    deliver_cases hfaithful hs
  have hdata : crashed = false → client.data = d.client.data ++
      [((batchAt stream d n).getLast?.map fun r => some r.data).getD none] := by
    intro halive
    obtain ⟨hbefore, hdata⟩ := hall halive
    rw [hdata, foldl_data, hbefore]
    rfl
  refine h.snoc hlife rfl (fun _ => hcrashed) ?_ ?_ ?_ ?_
  · intro halive
    rw [hdata halive]
    exact List.prefix_append _ _
  · intro halive m hm r hr
    obtain rfl := Move.deliver.inj hm
    rw [hdata halive, hr]
    simp
  · intro call hcall
    rw [hreplies] at hcall
    exact .inl hcall
  · intro call text htext
    rw [hemitted] at htext
    exact .inl htext

/-- The reply to a SET comes when the loop has ended. -/
theorem reported_reply (h : Spoken stream tr d) (hcrashed : d.crashed = false) {call : Call}
    (hcall : call ∈ d.client.replies) :
    Reported stream tr call
      ("Latest observation: " ++ d.client.data[call.invocation]?.join.getD "undefined") := by
  obtain ⟨hlife, x, n, hx, hmade⟩ := h.replies call hcall
  obtain ⟨hlife', hinvocation, -, r, hr, -⟩ := mem_callsFrom hmade
  have hne : batchAt stream x n ≠ [] := by
    intro hnil
    simp [hnil] at hr
  obtain ⟨last, hlast⟩ := Option.isSome_iff_exists.mp (List.getLast?_isSome.mpr hne)
  refine ⟨x, n, last, hx, hmade, hlast, ?_⟩
  rw [hinvocation, h.text hcrashed x n hx (hlife'.symm.trans hlife) last hlast]
  rfl

/-- A call that ends has its reply only if its instance is the one under way. -/
theorem speech_settle {call : Call} {e : Ending} (hs : d.settle call e = some d') :
    d'.client.life = d.client.life ∧ d'.past = d.past ∧ (d'.crashed = false → d.crashed = false) ∧
      d'.client.data = d.client.data ∧ d'.client.emitted = d.client.emitted ∧
      ∀ c ∈ d'.client.replies, c ∈ d.client.replies ∨ c = call ∧ call.life = d.client.life := by
  unfold Deployment.settle at hs
  split at hs
  · rename_i hliving
    have hlife : call.life = d.client.life := by
      simp only [Deployment.hasLiving, Bool.and_eq_true, beq_iff_eq] at hliving
      exact hliving.2
    split at hs
    · obtain rfl := Option.some.inj hs
      exact ⟨rfl, rfl, Bool.noConfusion, rfl, rfl, fun c hc => .inl hc⟩
    · obtain rfl := Option.some.inj hs
      refine ⟨rfl, rfl, id, rfl, rfl, ?_⟩
      intro c hc
      rcases List.mem_append.mp hc with hc | hc
      · exact .inl hc
      · exact .inr ⟨List.mem_singleton.mp hc, hlife⟩
  · obtain ⟨-, hs⟩ := Option.ite_none_left_eq_some.mp hs
    obtain rfl := Option.some.inj hs
    exact ⟨rfl, rfl, id, rfl, rfl, fun c hc => .inl hc⟩

theorem spoken_step (hseq : (stream.map fun r => r.sequenceNumber).Nodup)
    (hr : (deployment stream initial).Run tr d) (h : Spoken stream tr d) {a : Move}
    (hs : (deployment stream initial).step d a = some d') : Spoken stream (tr ++ [(d, a)]) d' := by
  have hfaithful := faithful_run hseq hr
  cases a with
  | deliver n => exact spoken_deliver hfaithful h hs
  | daemon e =>
      obtain ⟨hbatch, hreceive⟩ := Option.ite_none_right_eq_some.mp hs
      rw [List.isEmpty_iff] at hbatch
      obtain ⟨client, hreact, rfl, -, -⟩ := receive_readable
        (by rw [hbatch]; exact fun r hr => absurd hr List.not_mem_nil)
        (hfaithful.running (receive_guard hreceive).1) hreceive
      have hkept := keeps_react hbatch hreact
      refine h.snoc hkept.life rfl id (fun _ => hkept.data) (fun _ n hn => Move.noConfusion hn) ?_ ?_
      · intro call hcall
        rw [hkept.replies] at hcall
        exact .inl hcall
      · exact fun call text htext => .inl (hkept.emitted call text htext)
  | store =>
      obtain ⟨q, -, rfl⟩ := Option.map_eq_some_iff.mp hs
      exact h.snoc rfl rfl id (fun _ => List.prefix_rfl) (fun _ n hn => Move.noConfusion hn)
        (fun _ hcall => .inl hcall) fun _ _ htext => .inl htext
  | restart =>
      obtain rfl := Option.some.inj hs
      have hlater : ∀ x ∈ tr ++ [(d, .restart)], x.1.client.life < d.lives.length := by
        intro x hx
        have hle : x.1.client.life ≤ d.client.life := by
          rcases List.mem_append.mp hx with hx | hx
          · exact h.earlier x hx
          · rw [List.mem_singleton.mp hx]
        rw [h.life] at hle
        simp only [Deployment.lives, List.length_append, List.length_singleton]
        omega
      refine ⟨rfl, fun x hx => (hlater x hx).le, ?_, fun _ hcall => absurd hcall List.not_mem_nil, ?_⟩
      · intro _ x n hx hsame
        exact absurd hsame (hlater (x, .deliver n) hx).ne
      · intro l hl call text htext
        rcases List.mem_append.mp hl with hl | hl
        · exact (h.emitted l hl call text htext).snoc _
        · rw [List.mem_singleton.mp hl] at htext
          exact absurd htext List.not_mem_nil
  | get i failed =>
      obtain ⟨-, hs⟩ := Option.ite_none_left_eq_some.mp hs
      obtain ⟨call, -, hs⟩ := Option.bind_eq_some_iff.mp hs
      obtain ⟨s, -, rfl⟩ := Option.map_eq_some_iff.mp hs
      exact h.snoc rfl rfl id (fun _ => List.prefix_rfl) (fun _ n hn => Move.noConfusion hn)
        (fun _ hcall => .inl hcall) fun _ _ htext => .inl htext
  | set i now failed =>
      obtain ⟨pending, -, hs⟩ := Option.bind_eq_some_iff.mp hs
      obtain ⟨s, -, hs⟩ := Option.bind_eq_some_iff.mp hs
      simp only at hs
      split at hs
      · obtain rfl := Option.some.inj hs
        exact h.snoc rfl rfl id (fun _ => List.prefix_rfl) (fun _ n hn => Move.noConfusion hn)
          (fun _ hcall => .inl hcall) fun _ _ htext => .inl htext
      · rename_i call hcall
        have howner : some call ∈ d.owners := by
          refine List.mem_of_getElem? (i := i) ?_
          simpa [Option.join_eq_some_iff] using hcall
        have hmade := made_run hseq hr call (mem_calls.mpr (.inr (.inr (.inr (.inl howner)))))
        obtain ⟨hlife, hpast, hcrashed, hdata, hemitted, hreplies⟩ := speech_settle hs
        refine h.snoc hlife hpast hcrashed (fun _ => hdata ▸ List.prefix_rfl)
          (fun _ n hn => Move.noConfusion hn) ?_ fun _ _ htext => .inl (hemitted ▸ htext)
        intro c hc
        rcases hreplies c hc with hc | ⟨rfl, hsame⟩
        · exact .inl hc
        · exact .inr ⟨hsame, hmade⟩
  | reply i =>
      obtain ⟨hcrashed, hs⟩ := Option.ite_none_left_eq_some.mp hs
      obtain ⟨call, hcall, rfl⟩ := Option.map_eq_some_iff.mp hs
      have hreported := reported_reply h (Bool.not_eq_true _ ▸ hcrashed) (List.mem_of_getElem? hcall)
      refine h.snoc rfl rfl id (fun _ => List.prefix_rfl) (fun _ n hn => Move.noConfusion hn)
        (fun c hc => .inl (List.mem_of_mem_eraseIdx hc)) ?_
      intro c text htext
      rcases List.mem_append.mp htext with htext | htext
      · exact .inl htext
      · obtain ⟨hc, rfl⟩ := Prod.mk.inj (List.mem_singleton.mp htext)
        obtain rfl := Option.some.inj hc
        exact .inr hreported
  | other o failed =>
      simp only [deployment] at hs
      split at hs
      · cases hs
      · obtain ⟨s, -, rfl⟩ := Option.map_eq_some_iff.mp hs
        exact h.snoc rfl rfl id (fun _ => List.prefix_rfl) (fun _ n hn => Move.noConfusion hn)
          (fun _ hcall => .inl hcall) fun _ _ htext => .inl htext

theorem spoken_run (hseq : (stream.map fun r => r.sequenceNumber).Nodup)
    (h : (deployment stream initial).Run tr d) : Spoken stream tr d := by
  refine h.invariant (fun tr d => Spoken stream tr d) ?_ ?_
  · refine ⟨rfl, fun x hx => absurd hx List.not_mem_nil, fun _ x n hx => absurd hx List.not_mem_nil,
      fun _ hcall => absurd hcall List.not_mem_nil, ?_⟩
    intro l hl call text htext
    rw [List.mem_singleton.mp hl] at htext
    exact absurd htext List.not_mem_nil
  · intro tr d a d' hr hinv hs
    exact spoken_step hseq hr hinv hs

/-- Whatever order the replies of the cache come in and whenever instances end: the message
that a call leads to carries the text of the last record of the batch in which the call was
made. So it carries the text of its own record exactly when that text is the last one's. -/
theorem messages_carry_last_text (hseq : (stream.map fun r => r.sequenceNumber).Nodup)
    (h : (deployment stream initial).Run tr d) {l : Life} (hl : l ∈ d.lives) {call : Call}
    {text : String} (htext : (some call, text) ∈ l.client.emitted) :
    ∃ x n r own, (x, .deliver n) ∈ tr ∧ MadeIn stream x n call ∧
      (batchAt stream x n).getLast? = some r ∧ text = "Latest observation: " ++ r.data ∧
      stream[call.position]? = some own ∧
      (text = "Latest observation: " ++ own.data ↔ own.data = r.data) := by
  obtain ⟨x, n, r, hx, hmade, hlast, rfl⟩ := (spoken_run hseq h).emitted l hl call text htext
  obtain ⟨own, hown, -⟩ := hmade.position
  refine ⟨x, n, r, own, hx, hmade, hlast, rfl, hown, ?_⟩
  rw [String.append_right_inj, eq_comm]

/-- Two readings of a node. -/
def twoReadings : List Record :=
  [⟨⟨some (Redis.fooAt 1000), some "1"⟩, "first"⟩, ⟨⟨some (Redis.fooAt 1001), some "2"⟩, "second"⟩]

/-- The calls of one batch: both messages carry the second text. -/
theorem messages_carry_last_text_twice :
    ∃ tr d, (deployment twoReadings fun _ => none).Run tr d ∧
      tr.map Prod.snd = [.daemon (.action (.initialization "shardId-0")), .deliver 2, .get 0 false,
        .get 0 false, .set 0 1001 false, .set 0 1001 false, .reply 0, .reply 0] ∧
      d.client.emitted.map Prod.snd = ["Kinesis Connected", "Latest observation: second",
        "Latest observation: second"] ∧
      ∃ x n r own, (x, .deliver n) ∈ tr ∧ MadeIn twoReadings x n ⟨0, 0, 0, Redis.fooAt 1000⟩ ∧
        (batchAt twoReadings x n).getLast? = some r ∧
        "Latest observation: second" = "Latest observation: " ++ r.data ∧
        twoReadings[0]? = some own ∧
        ("Latest observation: second" = "Latest observation: " ++ own.data ↔ own.data = r.data) := by
  have hrun := System.Run.nil.exec (S := deployment twoReadings fun _ => none)
    [.daemon (.action (.initialization "shardId-0")), .deliver 2, .get 0 false, .get 0 false,
      .set 0 1001 false, .set 0 1001 false, .reply 0, .reply 0] rfl
  refine ⟨_, _, hrun, rfl, rfl, ?_⟩
  exact messages_carry_last_text (by decide) hrun (List.mem_singleton_self _)
    (List.mem_cons_of_mem _ List.mem_cons_self)

end
end PlenarioStream.BasicSample

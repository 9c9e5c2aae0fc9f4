import PlenarioStream.Server.Accounting

/-!
What the outcome of a validation request does to the client and to the counts. An
accepting response joins the client and counts it once. A refusing one closes the
socket, whose disconnect handler then takes a client away that was never counted; and
a request that fails without a response has no listener for its error at all.
-/
namespace PlenarioStream.Server
open Js Transition

variable {env : Option String}

structure Joined (s : State) (k : Socket) (s' : State) : Prop where
  member : s'.members = s.members ++ [(k, k.room)]
  rooms : ∀ room, roomCount s' room = roomCount s room + if room = k.room then 1 else 0
  total : s'.socketCount = s.socketCount + 1
  silent : s'.sent = s.sent

structure Refused (s : State) (k : Socket) (s' : State) : Prop where
  error : ∃ e, s'.sent = s.sent ++ [.internalError k e]
  closed : k ∉ s'.connected
  rooms : s'.rooms = s.rooms
  total : s'.socketCount = s.socketCount

/-- The server runs on, and the client has either joined or been refused. -/
structure Isolated (s : State) (k : Socket) (s' : State) : Prop where
  alive : s'.alive = true
  either : Joined s k s' ∨ Refused s k s'
  single : ¬ (Joined s k s' ∧ Refused s k s')

/-- The last step was not a validation outcome that went wrong. -/
def OutcomesIsolated (tr : List (State × Action)) (s' : State) : Prop :=
  ∀ s a, tr.getLast? = some (s, a) → ∀ k o, a = .validation k o → Isolated s k s'

/-- The outcome is an accepting response, or any response to a client that has closed
its connection itself. -/
def Answered (s : State) : Action → Prop
  | .validation k (.response body) => validate body = .ok () ∨ k ∉ s.connected
  | .validation _ .connectionError => False
  | _ => True

theorem alive_of_step {s s' : State} {a : Action} (h : (server env).step s a = some s') :
    s.alive = true := by
  change step env s a = some s' at h
  cases a with
  | connect hs =>
      obtain ⟨halive, -⟩ := Option.ite_none_right_eq_some.mp h
      exact halive
  | validation k o =>
      obtain ⟨hguard, -⟩ := Option.ite_none_right_eq_some.mp h
      exact hguard.1
  | disconnect k =>
      obtain ⟨hguard, -⟩ := Option.ite_none_right_eq_some.mp h
      exact hguard.1
  | internalData k d =>
      obtain ⟨hguard, -⟩ := Option.ite_none_right_eq_some.mp h
      exact hguard.1

section
variable {s s' : State} {k : Socket}

theorem not_joined_and_refused : ¬ (Joined s k s' ∧ Refused s k s') := by
  rintro ⟨hjoined, hrefused⟩
  have htotal := hjoined.total.symm.trans hrefused.total
  omega

theorem isolated_accept (halive : s.alive = true) : Isolated s k (join (answering s k) k) := by
  refine ⟨halive, .inl ⟨rfl, ?_, rfl, rfl⟩, not_joined_and_refused⟩
  intro room
  exact roomCount_increment s.rooms k.room room

/-- A refused client that is still connected is taken off the counts. -/
theorem not_isolated_reject {e : ValidationError} (hcl : k.isClient = true) (hc : k ∈ s.connected) :
    ¬ Isolated s k (disconnect (refusing s k e) k) := by
  have htotal : (disconnect (refusing s k e) k).socketCount = s.socketCount - 1 := by
    rw [disconnect_socketCount]
    exact if_pos ⟨hc, hcl⟩
  intro h
  rcases h.either with hjoined | hrefused
  · have hcount := hjoined.total
    omega
  · have hcount := hrefused.total
    omega

theorem isolated_reject {e : ValidationError} (halive : s.alive = true) (hc : k ∉ s.connected) :
    Isolated s k (disconnect (refusing s k e) k) := by
  have hsame : disconnect (refusing s k e) k = refusing s k e := if_neg hc
  rw [hsame]
  exact ⟨halive, .inr ⟨⟨e, rfl⟩, hc, rfl, rfl⟩, not_joined_and_refused⟩

theorem not_isolated_crash : ¬ Isolated s k { s with alive := false } := by
  intro h
  exact Bool.noConfusion h.alive

end

/-- One step. -/
theorem isolated_step_iff {tr : List (State × Action)} {s s' : State} {a : Action}
    (hrun : (server env).Run tr s) (hs : (server env).step s a = some s') :
    (∀ k o, a = .validation k o → Isolated s k s') ↔ Answered s a := by
  have halive := alive_of_step hs
  cases step_cases hs with
  | accept k body hk hv =>
      refine iff_of_true ?_ (.inl hv)
      rintro _ _ ⟨⟩
      exact isolated_accept halive
  | reject k body e hk hv =>
      refine ⟨?_, ?_⟩
      · intro hall
        refine .inr fun hc => ?_
        exact not_isolated_reject ((admitted hrun).pending_client k hk) hc (hall k _ rfl)
      · rintro hanswered _ _ ⟨⟩
        rcases hanswered with hok | hc
        · rw [hv] at hok
          cases hok
        · exact isolated_reject halive hc
  | crash k hk =>
      refine iff_of_false ?_ not_false
      intro hall
      exact not_isolated_crash (hall k _ rfl)
  | consumer | wrongToken | client | disconnect | deliver | ignore =>
      refine iff_of_true ?_ trivial
      rintro _ _ ⟨⟩

/-- Over every run: each outcome of a validation request leaves the server running, and
joins the client or refuses it without a change of the counts, exactly when it is an
accepting response, or a response to a client that is already gone. -/
theorem validation_isolated_iff {tr : List (State × Action)} {s : State}
    (h : (server env).Run tr s) :
    (server env).Always OutcomesIsolated tr ↔ ∀ x ∈ tr, Answered x.1 x.2 := by
  refine h.always_last_iff (fun s a s' => ∀ k o, a = .validation k o → Isolated s k s') Answered ?_
  intro p x a y hp hs _
  exact isolated_step_iff hp hs

/-- A client that is accepted. -/
theorem validation_isolated_accept :
    ∃ tr s, (server none).Run tr s ∧ s.socketCount = 1 ∧
      (server none).Always OutcomesIsolated tr := by
  have hrun := System.Run.nil.exec (S := server none)
    [.connect plainClient, .validation ⟨0, plainClient⟩ (.response (some (.obj [])))] rfl
  refine ⟨_, _, hrun, rfl, (validation_isolated_iff hrun).mpr ?_⟩
  intro x hx
  simp only [List.nil_append, List.mem_cons, List.not_mem_nil, or_false] at hx
  rcases hx with rfl | rfl
  · trivial
  · exact .inl rfl

/-- A client that is refused takes its room away from another one. -/
theorem validation_not_isolated_reject :
    ∃ tr s, (server none).Run tr s ∧
      tr.map Prod.snd = [.connect plainClient,
        .validation ⟨0, plainClient⟩ (.response (some (.obj []))), .connect plainClient,
        .validation ⟨1, plainClient⟩ (.response (some (.obj [("error", .str "no such node")])))] ∧
      s.connected = [⟨0, plainClient⟩] ∧ s.rooms.keys = [] ∧ s.socketCount = 0 ∧
      ¬ (server none).Always OutcomesIsolated tr := by
  have hrun := System.Run.nil.exec (S := server none)
    [.connect plainClient, .validation ⟨0, plainClient⟩ (.response (some (.obj []))),
      .connect plainClient,
      .validation ⟨1, plainClient⟩ (.response (some (.obj [("error", .str "no such node")])))] rfl
  refine ⟨_, _, hrun, rfl, rfl, rfl, rfl, ?_⟩
  intro hall
  have hisolated := hall.last hrun _ _ rfl _ _ rfl
  rcases hisolated.either with hjoined | hrefused
  · exact absurd hjoined.total (by decide)
  · exact absurd hrefused.total (by decide)

end PlenarioStream.Server

import PlenarioStream.Foundation.Lists
import PlenarioStream.Pipeline.Model

/-!
What one step of the whole pipeline does, said once, and its two projections: the
server sees a run of its own, and so does every record processor.
-/
namespace PlenarioStream.Pipeline
open Js Consumer Lists Transition

variable {ι : Type} [DecidableEq ι] {env : Option String} {query : Server.Handshake}

@[simp] theorem setShard_server (s : State ι) (i : ι) (sh : Shard) :
    (s.setShard i sh).server = s.server := rfl

@[simp] theorem setShard_self (s : State ι) (i : ι) (sh : Shard) :
    (s.setShard i sh).shards i = sh := by
  simp [State.setShard]

theorem setShard_ne (s : State ι) {i j : ι} (h : j ≠ i) (sh : Shard) :
    (s.setShard i sh).shards j = s.shards j := by
  simp [State.setShard, Function.update_of_ne h]

@[simp] theorem setChannel_processor (channel : Channel Server.Socket Server.Payload)
    (sh : Shard) : (sh.setChannel channel).processor = sh.processor := rfl

@[simp] theorem setChannel_channel (channel : Channel Server.Socket Server.Payload)
    (sh : Shard) : (sh.setChannel channel).channel = channel := rfl

/-- The enabled steps, one constructor for each kind of action. -/
inductive Steps (env : Option String) (query : Server.Handshake) (s : State ι) :
    Action ι → State ι → Prop
  | process (i : ι) (e : Event) (p : Processor)
      (hp : processor.step (s.shards i).processor e = some p) :
      Steps env query s (.process i e)
        (s.setShard i ⟨p, (s.shards i).channel.send (newMessages (s.shards i).processor p)⟩)
  | connect (i : ι) (server : Server.State)
      (hs : (Server.server env).step s.server (.connect query) = some server) :
      Steps env query s (.connect i)
        ({ s with server }.setShard i ((s.shards i).setChannel
          ((s.shards i).channel.connect ⟨s.server.nextId, query⟩)))
  | drop (i : ι) :
      Steps env query s (.drop i)
        (s.setShard i ((s.shards i).setChannel (s.shards i).channel.drop))
  | deliver (i : ι) (k : Server.Socket) (d : Server.Payload)
      (channel : Channel Server.Socket Server.Payload) (server : Server.State)
      (hr : (s.shards i).channel.receive = some (k, d, channel))
      (hs : (Server.server env).step s.server (.internalData k d) = some server) :
      Steps env query s (.deliver i)
        ({ s with server }.setShard i ((s.shards i).setChannel channel))
  | server (a : Server.Action) (server : Server.State) (ha : foreign env a = true)
      (hs : (Server.server env).step s.server a = some server) :
      Steps env query s (.server a) { s with server }

theorem step_cases {s s' : State ι} {a : Action ι}
    (h : (pipeline ι env query).step s a = some s') : Steps env query s a s' := by
  change step env query s a = some s' at h
  cases a with
  | process i e =>
      obtain ⟨sh, hsh, rfl⟩ := Option.map_eq_some_iff.mp h
      obtain ⟨p, hp, rfl⟩ := Option.map_eq_some_iff.mp hsh
      exact .process i e p hp
  | connect i =>
      obtain ⟨r, hr, rfl⟩ := Option.map_eq_some_iff.mp h
      unfold connect at hr
      split at hr
      · cases hr
      · obtain ⟨server, hs, rfl⟩ := Option.map_eq_some_iff.mp hr
        exact .connect i server hs
  | drop i =>
      obtain rfl := Option.some.inj h
      exact .drop i
  | deliver i =>
      obtain ⟨r, hr, rfl⟩ := Option.map_eq_some_iff.mp h
      unfold deliver at hr
      split at hr
      · cases hr
      · rename_i k d channel hreceive
        obtain ⟨server, hs, rfl⟩ := Option.map_eq_some_iff.mp hr
        exact .deliver i k d channel server hreceive hs
  | server a =>
      simp only [step] at h
      split at h
      · obtain ⟨server, hs, rfl⟩ := Option.map_eq_some_iff.mp h
        exact .server a server ‹_› hs
      · cases h

/-- The action of the server that a step of the pipeline contains. -/
def serverAction (query : Server.Handshake) (s : State ι) : Action ι → Option Server.Action
  | .connect _ => some (.connect query)
  | .deliver i => (s.shards i).channel.receive.map fun r => .internalData r.1 r.2.1
  | .server a => some a
  | .process _ _ | .drop _ => none

def serverSteps (query : Server.Handshake) (tr : List (State ι × Action ι)) :
    List (Server.State × Server.Action) :=
  tr.filterMap fun x => (serverAction query x.1 x.2).map fun a => (x.1.server, a)

def processorEvent (i : ι) (_ : State ι) : Action ι → Option Event
  | .process j e => if j = i then some e else none
  | _ => none

def processorSteps (i : ι) (tr : List (State ι × Action ι)) : List (Processor × Event) :=
  tr.filterMap fun x => (processorEvent i x.1 x.2).map fun e => ((x.1.shards i).processor, e)

/-- The server does not see what the consumers do among themselves. -/
theorem server_run {tr : List (State ι × Action ι)} {s : State ι}
    (h : (pipeline ι env query).Run tr s) :
    (Server.server env).Run (serverSteps query tr) s.server := by
  refine h.project State.server (serverAction query) rfl ?_
  intro tr s a s' _ hs
  cases step_cases hs with
  | process i e p hp => rfl
  | drop i => rfl
  | connect i server hserver => exact hserver
  | deliver i k d channel server hr hserver =>
      rw [serverAction, hr]
      exact hserver
  | server a server ha hserver => exact hserver

theorem setShard_processor {s t : State ι} {i j : ι} (ht : t.shards = s.shards)
    (channel : Channel Server.Socket Server.Payload) :
    ((t.setShard j ((s.shards j).setChannel channel)).shards i).processor =
      (s.shards i).processor := by
  by_cases hij : i = j
  · subst hij
    rw [setShard_self, setChannel_processor]
  · rw [setShard_ne _ hij, ht]

/-- A record processor only sees its own events. -/
theorem processor_run {tr : List (State ι × Action ι)} {s : State ι}
    (h : (pipeline ι env query).Run tr s) (i : ι) :
    processor.Run (processorSteps i tr) (s.shards i).processor := by
  refine h.project (T := processor) (fun s => (s.shards i).processor) (processorEvent i) rfl ?_
  intro tr s a s' _ hs
  cases step_cases hs with
  | process j e p hp =>
      by_cases hij : j = i
      · subst hij
        simpa [processorEvent] using hp
      · simp [processorEvent, hij, setShard_ne _ (Ne.symm hij)]
  | connect j server hserver => exact setShard_processor (t := { s with server }) rfl _
  | drop j => exact setShard_processor rfl _
  | deliver j k d channel server hr hserver => exact setShard_processor (t := { s with server }) rfl _
  | server a server ha hserver => rfl

/-- The messages are those that the server handles on its own run. -/
theorem handled_serverSteps {tr : List (State ι × Action ι)} {s : State ι}
    (h : (pipeline ι env query).Run tr s) :
    Server.handled env (serverSteps query tr) = (messages env tr).map Prod.snd := by
  refine h.invariant (fun tr _ =>
    Server.handled env (serverSteps query tr) = (messages env tr).map Prod.snd) rfl ?_
  intro tr s a s' _ hinv hs
  rw [serverSteps, filterMap_concat, messages, filterMap_concat, List.map_append, Server.handled,
    List.filterMap_append]
  change Server.handled env (serverSteps query tr) ++ _ = (messages env tr).map Prod.snd ++ _
  rw [hinv, List.append_cancel_left_eq]
  cases step_cases hs with
  | process i e p hp => rfl
  | drop i => rfl
  | connect i server hserver => rfl
  | deliver i k d channel server hr hserver =>
      cases hk : k.isConsumer env <;> simp [serverAction, message?, hr, hk]
  | server a server ha hserver =>
      cases a with
      | internalData k d =>
          have hk : k.isConsumer env = false := by simpa [foreign] using ha
          simp [serverAction, message?, hk]
      | _ => rfl

end PlenarioStream.Pipeline

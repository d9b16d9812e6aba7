import AnimusCore.Lib.Transition
import Mathlib.Data.List.Infix

/-! A client that makes one call after another of a service that also takes steps of its
own. A service that keeps to a sequential contract gives every client the replies of that
contract, however its own steps fall between the calls, and no client waits for ever. -/

set_option autoImplicit false

namespace AnimusCore.Lib

section

variable (State Action Reading Request Reply : Type)

/-- A call returns at once or stays under way until `reply` has its result. The reading is
what a call takes from its surroundings. -/
structure Service where
  begin : State → Request → Reading → Option (State × Option Reply)
  step : State → Action → Option State
  reply : State → Request → Option Reply

structure Client where
  state : State
  current : Option Request := none
  todo : List Request
  replies : List Reply := []

inductive ClientAction where
  | call (reading : Reading)
  | inner (action : Action)
  | returns

end

section

variable {State Action Reading Request Reply Contract : Type}

def Client.done (client : Client State Request Reply) : Bool :=
  client.current.isNone && client.todo.isEmpty

/-- A call still to be made counts twice, one under way once. -/
def Client.waiting (client : Client State Request Reply) : Nat :=
  client.current.toList.length + 2 * client.todo.length

namespace Service

variable (service : Service State Action Reading Request Reply)

def clientStep (client : Client State Request Reply) :
    ClientAction Action Reading → Option (Client State Request Reply)
  | .call reading =>
    match client.current, client.todo with
    | none, request :: rest =>
      (service.begin client.state request reading).map fun (state, result) =>
        match result with
        | none => { client with state, current := some request, todo := rest }
        | some reply => { client with state, todo := rest, replies := client.replies ++ [reply] }
    | _, _ => none
  | .inner action => (service.step client.state action).map fun state => { client with state }
  | .returns =>
    match client.current with
    | some request =>
      (service.reply client.state request).map fun reply =>
        { client with current := none, replies := client.replies ++ [reply] }
    | none => none

/-- The service's own steps are those its surroundings permit. -/
def Permits (permitted : State → Action → Prop) (client : Client State Request Reply) :
    ClientAction Action Reading → Prop
  | .inner action => permitted client.state action
  | .call _ | .returns => True

end Service

/-- However far a client has come with these calls, it can be served to the end. -/
def Service.Completes (service : Service State Action Reading Request Reply)
    (permitted : State → Action → Prop) (start : State) (todo : List Request) : Prop :=
  ∀ client : Client State Request Reply,
    Reaches service.clientStep (Service.Permits permitted) { state := start, todo := todo } client →
    ∃ finish, Reaches service.clientStep (Service.Permits permitted) client finish ∧ finish.done = true

/-- The replies of a contract to a list of calls; `none` where it says nothing. -/
def contractRun (call : Contract → Request → Option (Reply × Contract)) :
    Contract → List Request → Option (List Reply)
  | _, [] => some []
  | contract, request :: rest => do
      let (reply, next) ← call contract request
      let replies ← contractRun call next rest
      return reply :: replies

/-- What the contract says of the service's states between the calls and during one. -/
structure Keeps (service : Service State Action Reading Request Reply)
    (permitted : State → Action → Prop) (call : Contract → Request → Option (Reply × Contract))
    (Rests : State → Contract → Prop) (Busy : State → Contract → Request → Prop) : Prop where
  rests_step : ∀ {state next contract action}, Rests state contract → permitted state action →
    service.step state action = some next → Rests next contract
  busy_step : ∀ {state next contract request action}, Busy state contract request →
    permitted state action → service.step state action = some next → Busy next contract request
  begins : ∀ {state contract request reply after}, Rests state contract →
    call contract request = some (reply, after) →
    ∃ reading begun, service.begin state request reading = some begun
  atOnce : ∀ {state contract request reply after reading next result}, Rests state contract →
    call contract request = some (reply, after) →
    service.begin state request reading = some (next, some result) →
    result = reply ∧ Rests next after
  underWay : ∀ {state contract request reply after reading next}, Rests state contract →
    call contract request = some (reply, after) →
    service.begin state request reading = some (next, none) → Busy next contract request
  replies : ∀ {state contract request reply after result}, Busy state contract request →
    call contract request = some (reply, after) → service.reply state request = some result →
    result = reply ∧ Rests state after
  finishes : ∀ {state contract request}, Busy state contract request →
    ∃ next, Reaches service.step permitted state next ∧ (service.reply next request).isSome = true

variable {service : Service State Action Reading Request Reply}
  {permitted : State → Action → Prop} {call : Contract → Request → Option (Reply × Contract)}
  {Rests : State → Contract → Prop} {Busy : State → Contract → Request → Prop}
  {client next : Client State Request Reply} {expected : List Reply}

/-- The replies so far and those the contract has for the rest are the expected ones. -/
def OnTrack (call : Contract → Request → Option (Reply × Contract))
    (Rests : State → Contract → Prop) (Busy : State → Contract → Request → Prop)
    (expected : List Reply) (client : Client State Request Reply) : Prop :=
  ∃ contract rest, contractRun call contract (client.current.toList ++ client.todo) = some rest ∧
    client.replies ++ rest = expected ∧
    match client.current with
    | none => Rests client.state contract
    | some request => Busy client.state contract request

theorem contractRun_cons {contract : Contract} {request : Request} {requests : List Request}
    {replies : List Reply} (run : contractRun call contract (request :: requests) = some replies) :
    ∃ reply after rest, call contract request = some (reply, after) ∧
      contractRun call after requests = some rest ∧ replies = reply :: rest := by
  obtain ⟨⟨reply, after⟩, called, continued⟩ := Option.bind_eq_some_iff.mp run
  obtain ⟨rest, ran, same⟩ := Option.bind_eq_some_iff.mp continued
  cases same
  exact ⟨reply, after, rest, called, ran, rfl⟩

theorem contractRun_of_call {contract after : Contract} {request : Request} {reply : Reply}
    {requests : List Request} (called : call contract request = some (reply, after))
    (ran : ∃ replies, contractRun call after requests = some replies) :
    ∃ replies, contractRun call contract (request :: requests) = some replies := by
  obtain ⟨replies, ran⟩ := ran
  refine ⟨reply :: replies, ?_⟩
  rw [contractRun, called]
  exact congrArg (Option.bind · _) ran

theorem OnTrack.step (keeps : Keeps service permitted call Rests Busy) {action : ClientAction Action Reading}
    (track : OnTrack call Rests Busy expected client) (allowed : Service.Permits permitted client action)
    (took : service.clientStep client action = some next) : OnTrack call Rests Busy expected next := by
  obtain ⟨state, current, todo, replies⟩ := client
  obtain ⟨contract, rest, run, total, holds⟩ := track
  cases action with
  | call reading =>
    cases current with
    | some request => cases took
    | none =>
      cases todo with
      | nil => cases took
      | cons request todo =>
        obtain ⟨⟨begun, result⟩, began, rfl⟩ := Option.map_eq_some_iff.mp took
        obtain ⟨reply, after, others, called, ran, rfl⟩ := contractRun_cons run
        cases result with
        | none => exact ⟨contract, _, run, total, keeps.underWay holds called began⟩
        | some result =>
          obtain ⟨rfl, rests⟩ := keeps.atOnce holds called began
          refine ⟨after, others, ran, ?_, rests⟩
          rw [List.append_assoc]
          exact total
  | inner action =>
    obtain ⟨moved, stepped, rfl⟩ := Option.map_eq_some_iff.mp took
    refine ⟨contract, rest, run, total, ?_⟩
    cases current with
    | none => exact keeps.rests_step holds allowed stepped
    | some request => exact keeps.busy_step holds allowed stepped
  | returns =>
    cases current with
    | none => cases took
    | some request =>
      obtain ⟨result, replied, rfl⟩ := Option.map_eq_some_iff.mp took
      obtain ⟨reply, after, others, called, ran, rfl⟩ := contractRun_cons run
      obtain ⟨rfl, rests⟩ := keeps.replies holds called replied
      refine ⟨after, others, ran, ?_, rests⟩
      rw [List.append_assoc]
      exact total

theorem Reaches.inner {start finish : State} (path : Reaches service.step permitted start finish)
    (client : Client State Request Reply) :
    Reaches service.clientStep (Service.Permits permitted) { client with state := start }
      { client with state := finish } := by
  induction path with
  | refl => exact .refl
  | step _ allowed ran ih =>
    have moved : service.clientStep { client with state := _ } (.inner _) = _ := congrArg (Option.map _) ran
    exact .step ih (show Service.Permits permitted _ (.inner _) from allowed) moved

/-- A client on its way gets its next reply. -/
theorem OnTrack.advances (keeps : Keeps service permitted call Rests Busy)
    (track : OnTrack call Rests Busy expected client) (more : client.done = false) :
    ∃ later, Reaches service.clientStep (Service.Permits permitted) client later ∧
      later.waiting < client.waiting := by
  obtain ⟨state, current, todo, replies⟩ := client
  obtain ⟨contract, rest, run, -, holds⟩ := track
  cases current with
  | some request =>
    obtain ⟨finish, path, replied⟩ := keeps.finishes holds
    obtain ⟨reply, replied⟩ := Option.isSome_iff_exists.mp replied
    have returned : service.clientStep ⟨finish, some request, todo, replies⟩ .returns = _ :=
      congrArg (Option.map _) replied
    have free : Service.Permits permitted ⟨finish, some request, todo, replies⟩
        (.returns : ClientAction Action Reading) := trivial
    refine ⟨_, .step (path.inner ⟨state, some request, todo, replies⟩) free returned, ?_⟩
    simp [Client.waiting]
  | none =>
    cases todo with
    | nil => cases more
    | cons request todo =>
      obtain ⟨reply, after, others, called, -, -⟩ := contractRun_cons run
      obtain ⟨reading, ⟨begun, result⟩, began⟩ := keeps.begins holds called
      have started : service.clientStep ⟨state, none, request :: todo, replies⟩
          (.call reading) = _ := congrArg (Option.map _) began
      have free : Service.Permits permitted ⟨state, none, request :: todo, replies⟩
          (.call reading : ClientAction Action Reading) := trivial
      refine ⟨_, .single free started, ?_⟩
      cases result with
      | none =>
        simp only [Client.waiting, Option.toList, List.length_cons, List.length_nil]
        omega
      | some reply => simp [Client.waiting]

variable {start : State} {contract : Contract} {todo : List Request}

variable (keeps : Keeps service permitted call Rests Busy)
include keeps

theorem Keeps.onTrack (rests : Rests start contract) (run : contractRun call contract todo = some expected)
    (path : Reaches service.clientStep (Service.Permits permitted) { state := start, todo := todo } client) :
    OnTrack call Rests Busy expected client :=
  path.invariant ⟨contract, expected, run, rfl, rests⟩ fun _ _ _ track allowed ran => track.step keeps allowed ran

/-- Whatever steps the service took in between, a client that is done has the replies of
the contract. -/
theorem Keeps.replies_eq (rests : Rests start contract) (run : contractRun call contract todo = some expected)
    (path : Reaches service.clientStep (Service.Permits permitted) { state := start, todo := todo } client)
    (done : client.done = true) : client.replies = expected := by
  obtain ⟨last, rest, ran, total, -⟩ := keeps.onTrack rests run path
  rw [Client.done, Bool.and_eq_true, Option.isNone_iff_eq_none, List.isEmpty_iff] at done
  rw [done.1, done.2] at ran
  cases ran
  rw [← total, List.append_nil]

theorem OnTrack.completes (track : OnTrack call Rests Busy expected client) :
    ∃ finish, Reaches service.clientStep (Service.Permits permitted) client finish ∧ finish.done = true := by
  induction left : client.waiting using Nat.strongRecOn generalizing client with
  | ind left ih =>
    cases more : client.done with
    | true => exact ⟨client, .refl, more⟩
    | false =>
      obtain ⟨later, path, less⟩ := track.advances keeps more
      have onward : OnTrack call Rests Busy expected later := path.invariant track fun _ _ _ track allowed ran =>
          track.step keeps allowed ran
      obtain ⟨finish, longer, done⟩ := ih _ (left ▸ less) onward rfl
      exact ⟨finish, path.trans longer, done⟩

theorem Keeps.completes (rests : Rests start contract) (run : contractRun call contract todo = some expected) :
    service.Completes permitted start todo :=
  fun _ path => (keeps.onTrack rests run path).completes keeps

end

end AnimusCore.Lib

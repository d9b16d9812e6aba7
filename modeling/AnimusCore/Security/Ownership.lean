import AnimusCore.Security.System

/-! Every address in use belongs to the tenant it is used for: the registry, the client
table and the calls under way only hold engines that were created for their tenant, and
the registry only engines that exist. -/

set_option autoImplicit false

namespace AnimusCore.Security

open Lib Lib.Ring Function

/-- The calls that end in an operation on the engine of the token's tenant. -/
def Call.operates : Call → Bool
  | .dispatch _ | .submit _ => true
  | .createTenant _ _ | .createExecutionTenant _ => false

theorem Request.subject_of_operates {request : Request} (operates : request.call.operates = true) :
    request.subject = request.token.tenantId := by
  rcases request with ⟨token, call⟩
  cases call with
  | dispatch | submit => rfl
  | createTenant | createExecutionTenant => cases operates

def Phase.Owned (created : List UInt32) : Phase → Prop
  | .binding _ tenantId engine => created[engine]? = some tenantId
  | .dispatching request engine _ | .operating request engine _ =>
    request.call.operates = true ∧ created[engine]? = some request.token.tenantId
  | _ => True

section

variable {created later : List UInt32}

theorem getElem?_of_isPrefix {address : Address} {tenantId : UInt32} (grown : created <+: later)
    (here : created[address]? = some tenantId) : later[address]? = some tenantId := by
  obtain ⟨inside, same⟩ := List.getElem?_eq_some_iff.mp here
  rw [List.prefix_iff_getElem?.mp grown address inside, same]

theorem Phase.Owned.mono {phase : Phase} (grown : created <+: later)
    (owned : phase.Owned created) : phase.Owned later := by
  cases phase with
  | binding => exact getElem?_of_isPrefix grown owned
  | dispatching | operating => exact ⟨owned.1, getElem?_of_isPrefix grown owned.2⟩
  | idle | creating | resolving | auditing | returning => trivial

theorem Request.Opens.owned {request : Request} {registered : Option Address} {phase : Phase}
    (opens : request.Opens registered phase)
    (own : ∀ address, registered = some address → created[address]? = some request.subject) :
    phase.Owned created := by
  rcases request with ⟨token, call⟩
  cases opens with
  | @dispatching engine operation _ found same =>
    cases same
    exact ⟨rfl, own engine found⟩
  | @binding tenantId engine _ found same =>
    cases same
    exact own engine found
  | unauthorized | unregistered | unlicensed | creating | resolving => trivial

theorem ExecutionClient.opening_owned {token : AccessToken} (order : OrderRequest) {client : Option Address}
    (latencyNs : UInt64) (own : ∀ address, client = some address → created[address]? = some token.tenantId) :
    (ExecutionClient.opening token order client latencyNs).Owned created := by
  cases client with
  | none => trivial
  | some engine => exact ⟨rfl, own engine rfl⟩

end

namespace System

variable {Thread : Type}

structure Owned (system : System Thread) : Prop where
  registry : ∀ tenantId address, system.registry tenantId = some address → system.created[address]? = some tenantId
  live : ∀ tenantId address, system.registry tenantId = some address → (system.heap address).isSome = true
  clients : ∀ tenantId address, system.clients tenantId = some address → system.created[address]? = some tenantId
  phases : ∀ thread, (system.phases thread).Owned system.created

theorem Owned.initial (entries : Nat → Entry Thread) : (initial entries).Owned where
  registry := fun _ _ none => nomatch none
  live := fun _ _ none => nomatch none
  clients := fun _ _ none => nomatch none
  phases := fun _ => trivial

variable {system next : System Thread}

variable {address : Address}

private theorem isSome_update {heap : Address → Option (Hosted Thread)} (live : (heap address).isSome = true)
    (changed : Address) (hosted : Hosted Thread) : (update heap changed (some hosted) address).isSome = true := by
  by_cases same : address = changed
  · rw [same, update_self]
    rfl
  · rw [update_of_ne same]
    exact live

theorem Owned.setHosted (owned : system.Owned) (address : Address) (hosted : Hosted Thread) :
    Owned { system with heap := update system.heap address (some hosted) } where
  registry := owned.registry
  live := fun tenantId other found => isSome_update (owned.live tenantId other found) _ _
  clients := owned.clients
  phases := owned.phases

theorem Owned.ne_of_registry (owned : system.Owned) {tenantId other : UInt32} {engine : Address}
    (different : other ≠ tenantId) (registered : system.registry tenantId = some address)
    (belongs : system.created[engine]? = some other) : engine ≠ address := by
  intro same
  have own := owned.registry tenantId address registered
  rw [same, own, Option.some.injEq] at belongs
  exact different belongs.symm

theorem Owned.host (owned : system.Owned) (tenantId : UInt32) (capacity : Nat)
    (cells : Cells Thread) : (system.host tenantId capacity cells).Owned where
  registry := by
    have grown : system.created <+: system.created ++ [tenantId] := List.prefix_append _ _
    refine (forall_update_iff system.registry fun other found =>
      ∀ address, found = some address → (system.created ++ [tenantId])[address]? = some other).mpr ⟨?_, ?_⟩
    · intro address new
      rw [Option.some.injEq] at new
      rw [← new, List.getElem?_concat_length]
    · intro other _ address old
      exact getElem?_of_isPrefix grown (owned.registry other address old)
  live := by
    refine (forall_update_iff system.registry fun other found => ∀ address,
      found = some address → (update system.heap system.created.length _ address).isSome = true).mpr ⟨?_, ?_⟩
    · intro address new
      rw [Option.some.injEq] at new
      rw [← new, update_self]
      rfl
    · intro other _ address old
      exact isSome_update (owned.live other address old) _ _
  clients := fun other address found =>
    getElem?_of_isPrefix (List.prefix_append _ _) (owned.clients other address found)
  phases := fun other => (owned.phases other).mono (List.prefix_append _ _)

theorem exists_removeTenant (system : System Thread) (tenantId : UInt32) :
    ∃ registry heap, system.removeTenant tenantId = { system with registry, heap } := by
  rw [System.removeTenant]
  split
  case h_1 => exact ⟨system.registry, system.heap, rfl⟩
  case h_2 => exact ⟨_, _, rfl⟩

theorem removeTenant_registry_of_ne {tenantId other : UInt32} (different : other ≠ tenantId) :
    (system.removeTenant tenantId).registry other = system.registry other := by
  rw [System.removeTenant]
  split
  case h_1 => rfl
  case h_2 => exact update_of_ne different _ _

theorem Owned.removeTenant (owned : system.Owned) (tenantId : UInt32) : (system.removeTenant tenantId).Owned := by
  rw [System.removeTenant]
  split
  case h_1 => exact owned
  case h_2 removed registered =>
    refine ⟨?_, ?_, owned.clients, owned.phases⟩
    · exact (forall_update_iff system.registry fun other found => ∀ address,
        found = some address → system.created[address]? = some other).mpr ⟨fun _ none => (nomatch none), fun other
        _ => owned.registry other⟩
    · refine (forall_update_iff system.registry fun other found => ∀ address,
        found = some address → (update system.heap removed none address).isSome = true).mpr ⟨fun _ none =>
        (nomatch none), ?_⟩
      intro other different address found
      -- An engine belongs to one tenant only.
      have apart := owned.ne_of_registry different registered (owned.registry other address found)
      rw [update_of_ne apart]
      exact owned.live other address found

theorem Owned.setClient (owned : system.Owned) {tenantId : UInt32} {engine : Address}
    (own : system.created[engine]? = some tenantId) :
    Owned { system with clients := update system.clients tenantId (some engine) } where
  registry := owned.registry
  live := owned.live
  clients := by
    refine (forall_update_iff system.clients fun other found => ∀ address,
      found = some address → system.created[address]? = some other).mpr ⟨fun address new => ?_, fun other _ =>
      owned.clients other⟩
    rw [Option.some.injEq] at new
    rw [← new]
    exact own
  phases := owned.phases

variable [DecidableEq Thread] {thread : Thread}

theorem Owned.goTo (owned : system.Owned) (thread : Thread) (phase : Phase)
    (own : phase.Owned system.created) : (system.goTo thread phase).Owned where
  registry := owned.registry
  live := owned.live
  clients := owned.clients
  phases := (forall_update_iff _ _).mpr ⟨own, fun other _ => owned.phases other⟩

variable {request : Request} {operation : Operation} {move : Move Thread} {allocates : Bool}

theorem Hosted.operate_phase {hosted after : Hosted Thread} {phase : Phase}
    (operated : hosted.operate thread request address operation move allocates = some (after, phase)) :
    (∃ reply, phase = .auditing request .allowed reply) ∨ phase = .operating request address operation ∨
      phase = .returning request .threw ∧ ∀ action, move ≠ .steps action := by
  unfold Hosted.operate at operated
  split at operated
  case h_1 =>
    obtain ⟨engine, -, same⟩ := Option.map_eq_some_iff.mp operated
    obtain ⟨-, rfl⟩ := same
    split
    case h_1 reply _ => exact .inl ⟨_, rfl⟩
    case h_2 => exact .inr (.inl rfl)
  case h_7 => cases operated
  all_goals
    cases operated
    exact .inr (.inr ⟨rfl, fun _ same => nomatch same⟩)

theorem operate_cases (operated : system.operate thread request address operation move allocates = some next) :
    ∃ hosted after phase, system.heap address = some hosted ∧
      hosted.operate thread request address operation move allocates = some (after, phase) ∧
      next = { system.touch thread address with
        heap := update system.heap address (some after)
        phases := update system.phases thread phase } := by
  obtain ⟨hosted, here, mapped⟩ := Option.bind_eq_some_iff.mp operated
  obtain ⟨⟨after, phase⟩, ran, same⟩ := Option.map_eq_some_iff.mp mapped
  exact ⟨hosted, after, phase, here, ran, same.symm⟩

omit [DecidableEq Thread] in
theorem Owned.target (owned : system.Owned)
    (here : (system.phases thread).target = some (request, address, operation)) :
    request.call.operates = true ∧ system.created[address]? = some request.token.tenantId := by
  have own := owned.phases thread
  cases phase : system.phases thread <;> rw [phase] at own here <;> cases here <;> exact own

theorem Owned.operate (owned : system.Owned)
    (target : (system.phases thread).target = some (request, address, operation))
    (operated : system.operate thread request address operation move allocates = some next) : next.Owned := by
  obtain ⟨hosted, after, phase, -, ran, rfl⟩ := operate_cases operated
  have ownPhase : phase.Owned system.created := by
    rcases Hosted.operate_phase ran with ⟨reply, rfl⟩ | rfl | ⟨rfl, -⟩
    · trivial
    · exact owned.target target
    · trivial
  have moved := (owned.setHosted address after).goTo thread phase ownPhase
  exact { moved with }

theorem Owned.touch (owned : system.Owned) (thread : Thread) (address : Address) :
    (system.touch thread address).Owned :=
  { owned with }

theorem Owned.ends (owned : system.Owned) (thread : Thread) (request : Request) (reply : Reply) :
    (system.ends thread request reply).Owned :=
  have moved := owned.goTo thread .idle trivial
  { moved with }

theorem Owned.step {capacity : Capacity} {action : Action Thread} (owned : system.Owned)
    (stepped : system.step capacity action = some next) : next.Owned := by
  cases step_cases stepped with
  | @call thread request =>
    have moved := owned.goTo thread _ ((request.opens _ system.blocked).owned (owned.registry request.subject))
    exact { moved with }
  | createThrows | bindThrows | returns => exact owned.ends _ _ _
  | createFinds | bindFinds => exact owned.goTo _ _ trivial
  | creates => exact ((owned.host _ _ _).touch _ _).goTo _ _ trivial
  | @binds thread token tenantId engine binding =>
    have own := owned.phases thread
    rw [binding] at own
    exact (owned.setClient own).goTo _ _ trivial
  | resolve =>
    exact owned.goTo _ _ (ExecutionClient.opening_owned _ _ (owned.clients _))
  | invoke here operated | proceed here _ operated => exact owned.operate (by rw [here]; rfl) operated
  | throws throwing operated => exact owned.operate (Phase.target_of_throwing throwing) operated
  | @audit thread request _ reply =>
    have moved := owned.goTo thread (.returning request reply) trivial
    exact { moved with }
  | worker => exact owned.setHosted _ _
  | drain | setLicenseRequired | setLicensed =>
    exact { owned with }
  | registryKeeps => exact owned
  | registryCreates => exact owned.host _ _ _
  | removes => exact owned.removeTenant _

theorem owned_of_reaches {capacity : Capacity} {allowed : System Thread → Action Thread → Prop}
    {entries : Nat → Entry Thread} (run : Reaches (step capacity) allowed (initial entries) system) : system.Owned :=
  run.invariant (.initial entries) fun _ _ _ owned _ stepped => owned.step stepped

end System

end AnimusCore.Security

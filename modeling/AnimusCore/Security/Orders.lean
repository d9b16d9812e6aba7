import AnimusCore.Security.Ownership

/-! Which engine an order is recorded into. The execution gateway keeps the engine of a
tenant in its own table, so the two tables agree only as long as nobody removes a tenant
that has a client. -/

set_option autoImplicit false

namespace AnimusCore.Security

open Lib Lib.Ring Function

/-- A call on behalf of the tenant stands at the engine that is registered for it. -/
def Phase.Wired (tenant : UInt32) (registered : Option Address) : Phase → Prop
  | .binding _ tenantId engine => tenantId = tenant → registered = some engine
  | .dispatching request engine _ | .operating request engine _ =>
    request.token.tenantId = tenant → registered = some engine
  | _ => True

/-- An order of the tenant is being executed with this engine. -/
def Phase.Executes (tenant : UInt32) (engine : Address) (phase : Phase) : Prop :=
  ∃ token order operation, token.tenantId = tenant ∧ (phase = .dispatching ⟨token, .submit order⟩ engine operation ∨
      phase = .operating ⟨token, .submit order⟩ engine operation)

section

variable {tenant : UInt32} {registered : Option Address}

theorem Phase.Executes.wired {engine : Address} {phase : Phase} (executes : phase.Executes tenant engine)
    (wired : phase.Wired tenant registered) : registered = some engine := by
  obtain ⟨token, order, operation, own, rfl | rfl⟩ := executes
  · exact wired own
  · exact wired own

theorem Phase.Wired.register {phase : Phase} (wired : phase.Wired tenant none) : phase.Wired tenant registered := by
  cases phase with
  | binding | dispatching | operating => exact fun same => nomatch wired same
  | idle | creating | resolving | auditing | returning => trivial

theorem Request.Opens.wired {request : Request} {registry : UInt32 → Option Address} {phase : Phase}
    (opens : request.Opens (registry request.subject) phase) : phase.Wired tenant (registry tenant) := by
  rcases request with ⟨token, call⟩
  cases opens with
  | dispatching _ found same | binding _ found same =>
    cases same
    intro own
    rw [← own]
    exact found
  | unauthorized | unregistered | unlicensed | creating | resolving => trivial

end

namespace System

variable {Thread : Type}

/-- Calls are atomic: none begins while another one is under way. -/
def Serial (system : System Thread) : Action Thread → Prop
  | .call _ _ | .registryCreate _ _ _ | .registryRemove _ =>
    ∀ thread, system.phases thread = .idle
  | _ => True

/-- The tenant is not removed while it has an execution client. -/
def KeepsClient (tenant : UInt32) (system : System Thread) (action : Action Thread) : Prop :=
  action = .registryRemove tenant → system.clients tenant = none

structure Wired (tenant : UInt32) (system : System Thread) : Prop where
  owned : system.Owned
  client : ∀ address, system.clients tenant = some address → system.registry tenant = some address
  phases : ∀ thread, (system.phases thread).Wired tenant (system.registry tenant)

variable {tenant : UInt32} {system next : System Thread}

theorem Wired.initial (entries : Nat → Entry Thread) : (initial entries).Wired tenant where
  owned := .initial entries
  client := fun _ none => nomatch none
  phases := fun _ => trivial

section
variable (wired : system.Wired tenant)
include wired

theorem Wired.setHosted (address : Address) (hosted : Hosted Thread) :
    Wired tenant { system with heap := update system.heap address (some hosted) } where
  owned := wired.owned.setHosted address hosted
  client := wired.client
  phases := wired.phases

theorem Wired.host {tenantId : UInt32} (absent : system.registry tenantId = none) (capacity : Nat)
    (cells : Cells Thread) : (system.host tenantId capacity cells).Wired tenant where
  owned := wired.owned.host tenantId capacity cells
  client := fun address bound => by
    have registered := wired.client address bound
    by_cases same : tenant = tenantId
    · rw [same, absent] at registered
      cases registered
    · exact (update_of_ne same _ _).trans registered
  phases := fun thread => by
    by_cases same : tenant = tenantId
    · have before := wired.phases thread
      rw [same, absent] at before
      rw [same]
      exact before.register
    · have before := wired.phases thread
      rw [show (system.host tenantId capacity cells).registry tenant = system.registry tenant from
        update_of_ne same _ _]
      exact before

theorem Wired.removeTenant {tenantId : UInt32}
    (unused : tenantId = tenant → (∀ thread, system.phases thread = .idle) ∧ system.clients tenant = none) :
    (system.removeTenant tenantId).Wired tenant := by
  have same : (system.removeTenant tenantId).clients = system.clients ∧
      (system.removeTenant tenantId).phases = system.phases := by
    obtain ⟨_, _, removed⟩ := system.exists_removeTenant tenantId
    rw [removed]
    exact ⟨rfl, rfl⟩
  constructor
  · exact wired.owned.removeTenant tenantId
  · intro address bound
    rw [same.1] at bound
    by_cases same : tenant = tenantId
    · rw [(unused same.symm).2] at bound
      cases bound
    · rw [removeTenant_registry_of_ne same]
      exact wired.client address bound
  · intro thread
    rw [same.2]
    by_cases same : tenant = tenantId
    · rw [(unused same.symm).1 thread]
      trivial
    · rw [removeTenant_registry_of_ne same]
      exact wired.phases thread

theorem Wired.setClient {tenantId : UInt32} {engine : Address} (own : system.created[engine]? = some tenantId)
    (registered : tenantId = tenant → system.registry tenant = some engine) :
    Wired tenant { system with clients := update system.clients tenantId (some engine) } where
  owned := wired.owned.setClient own
  client := fun address (bound : update system.clients tenantId (some engine) tenant = some address) => by
    by_cases same : tenant = tenantId
    · subst same
      rw [update_self] at bound
      rw [← bound]
      exact registered rfl
    · rw [update_of_ne same] at bound
      exact wired.client address bound
  phases := wired.phases

end

section

variable [DecidableEq Thread] {thread : Thread}

variable (wired : system.Wired tenant)
include wired

theorem Wired.goTo (thread : Thread) (phase : Phase) (own : phase.Owned system.created)
    (here : phase.Wired tenant (system.registry tenant)) : (system.goTo thread phase).Wired tenant where
  owned := wired.owned.goTo thread phase own
  client := wired.client
  phases := (forall_update_iff _ _).mpr ⟨here, fun other _ => wired.phases other⟩

theorem Wired.touch (thread : Thread) (address : Address) : (system.touch thread address).Wired tenant :=
  ⟨wired.owned.touch thread address, wired.client, wired.phases⟩

theorem Wired.ends (thread : Thread) (request : Request) (reply : Reply) :
    (system.ends thread request reply).Wired tenant :=
  have moved := wired.goTo thread .idle trivial trivial
  ⟨wired.owned.ends thread request reply, moved.client, moved.phases⟩

omit [DecidableEq Thread] in
theorem Wired.target {request : Request} {address : Address} {operation : Operation}
    (here : (system.phases thread).target = some (request, address, operation))
    (same : request.token.tenantId = tenant) : system.registry tenant = some address := by
  have wires := wired.phases thread
  cases phase : system.phases thread <;> rw [phase] at wires here <;> cases here <;> exact wires same

theorem Wired.operate {request : Request} {address : Address} {operation : Operation}
    {move : Move Thread} {allocates : Bool}
    (target : (system.phases thread).target = some (request, address, operation))
    (operated : system.operate thread request address operation move allocates = some next) : next.Wired tenant := by
  have owned := wired.owned.operate target operated
  obtain ⟨hosted, after, phase, -, ran, rfl⟩ := operate_cases operated
  have settled : phase.Owned system.created ∧ phase.Wired tenant (system.registry tenant) := by
    rcases Hosted.operate_phase ran with ⟨reply, rfl⟩ | rfl | ⟨rfl, -⟩
    · exact ⟨trivial, trivial⟩
    · exact ⟨wired.owned.target target, wired.target target⟩
    · exact ⟨trivial, trivial⟩
  have moved := (wired.setHosted address after).goTo thread phase settled.1 settled.2
  exact ⟨owned, moved.client, moved.phases⟩

theorem Wired.step {capacity : Capacity} {action : Action Thread} (unused : action = .registryRemove tenant →
      (∀ thread, system.phases thread = .idle) ∧ system.clients tenant = none)
    (stepped : system.step capacity action = some next) : next.Wired tenant := by
  have owned := wired.owned.step stepped
  cases step_cases stepped with
  | @call thread request =>
    have opens := request.opens (system.registry request.subject) system.blocked
    have moved := wired.goTo thread _ (opens.owned (wired.owned.registry request.subject)) opens.wired
    exact ⟨owned, moved.client, moved.phases⟩
  | createThrows | bindThrows | returns => exact wired.ends _ _ _
  | createFinds | bindFinds => exact wired.goTo _ _ trivial trivial
  | creates _ absent => exact ((wired.host absent _ _).touch _ _).goTo _ _ trivial trivial
  | @binds thread token tenantId engine binding =>
    have own := wired.owned.phases thread
    have here := wired.phases thread
    rw [binding] at own here
    exact (wired.setClient own here).goTo _ _ trivial trivial
  | @resolve thread token order latencyNs =>
    refine wired.goTo _ _ (ExecutionClient.opening_owned _ _ (wired.owned.clients _)) ?_
    cases bound : system.clients token.tenantId with
    | none => trivial
    | some engine =>
      intro same
      rw [same] at bound
      exact wired.client engine bound
  | invoke here operated | proceed here _ operated => exact wired.operate (by rw [here]; rfl) operated
  | throws throwing operated => exact wired.operate (Phase.target_of_throwing throwing) operated
  | worker => exact wired.setHosted _ _
  | @audit thread request _ reply =>
    have moved := wired.goTo thread (.returning request reply) trivial trivial
    exact ⟨owned, moved.client, moved.phases⟩
  | drain | setLicenseRequired | setLicensed =>
    exact ⟨owned, wired.client, wired.phases⟩
  | registryKeeps => exact wired
  | registryCreates absent => exact wired.host absent _ _
  | removes => exact wired.removeTenant fun same => unused (congrArg Action.registryRemove same)

end

/-- Orders go through the registered engine, which exists; without one they are denied
and change no engine. -/
structure OrdersLive (capacity : Capacity) [DecidableEq Thread] (tenant : UInt32)
    (system : System Thread) : Prop where
  registered : ∀ thread engine, (system.phases thread).Executes tenant engine →
    system.registry tenant = some engine ∧ (system.heap engine).isSome = true
  denied : system.registry tenant = none → ∀ thread token order latencyNs next,
    token.tenantId = tenant → system.phases thread = .resolving token order →
    system.step capacity (.resolve thread latencyNs) = some next →
    next.phases thread = .auditing ⟨token, .submit order⟩ .denied (.report false none) ∧
      next.heap = system.heap

theorem orders_use_registered_engine [DecidableEq Thread] (capacity : Capacity)
    (entries : Nat → Entry Thread) (tenant : UInt32) (system : System Thread)
    (run : Reaches (step capacity) (fun state action => state.Serial action ∧ state.KeepsClient tenant action)
      (initial entries) system) : system.OrdersLive capacity tenant := by
  have wired : system.Wired tenant := run.invariant (.initial entries) fun _ _ _ wired permitted stepped =>
      wired.step (fun removes => ⟨by rw [removes] at permitted; exact permitted.1, permitted.2 removes⟩) stepped
  constructor
  · intro thread engine executes
    have registered := executes.wired (wired.phases thread)
    exact ⟨registered, wired.owned.live tenant engine registered⟩
  · intro unregistered thread token order latencyNs next own resolving stepped
    have unbound : system.clients token.tenantId = none := by
      rw [own]
      cases bound : system.clients tenant with
      | none => rfl
      | some address =>
        have registered := wired.client address bound
        rw [unregistered] at registered
        cases registered
    cases step_cases stepped with
    | resolve here =>
      rw [resolving] at here
      cases here
      rw [unbound]
      exact ⟨update_self _ _ _, rfl⟩

def sampleCapacity : Capacity := ⟨4, isPow2_four⟩

def sampleEntry : Entry Unit := ⟨⟨0, 0, 0, .recordEvent, .denied⟩, ()⟩

def sampleCells : Cells Unit :=
  ⟨fun _ => ⟨⟨0, 0, 0, 0⟩, (), (0, 0)⟩, fun _ => ⟨0, 0, 0, 0, 0, 0⟩⟩

def sampleAdmin : AccessToken := ⟨7, 1, .admin⟩

def sampleOrder : OrderRequest := ⟨1, 2, .buy, .limit, 3, 4⟩

def sampleSetup : List (Action Unit) :=
  [.registryCreate 7 4 (some sampleCells),
    .call () ⟨sampleAdmin, .createExecutionTenant 7⟩, .bind () true, .audit () 0, .finish ()]

def sampleSubmit : List (Action Unit) :=
  [.call () ⟨sampleAdmin, .submit sampleOrder⟩, .resolve () 5]

def ordersTo (engine : Address) (system : System Unit) : Bool :=
  decide (system.phases () = .dispatching ⟨sampleAdmin, .submit sampleOrder⟩ engine
    (.record (ExecutionClient.latencyEvent sampleOrder 5)))

def isSerial (system : System Unit) : Action Unit → Bool
  | .call _ _ | .registryCreate _ _ _ | .registryRemove _ => decide (system.phases () = .idle)
  | _ => true

private theorem serial_of_isSerial {system : System Unit} {action : Action Unit}
    (serial : isSerial system action = true) : system.Serial action := by
  cases action with
  | call | registryCreate | registryRemove => exact fun _ => of_decide_eq_true serial
  | _ => trivial

def isKeeping (system : System Unit) (action : Action Unit) : Bool :=
  isSerial system action &&
    match action with
    | .registryRemove _ => decide (system.clients 7 = none)
    | _ => true

private theorem keeping_of_isKeeping (system : System Unit) (action : Action Unit)
    (keeping : isKeeping system action = true) : system.Serial action ∧ system.KeepsClient 7 action := by
  obtain ⟨serial, keeps⟩ := (Bool.and_eq_true _ _).mp keeping
  refine ⟨serial_of_isSerial serial, ?_⟩
  rintro rfl
  exact of_decide_eq_true keeps

/-- The tenant is removed and created again before it gets its client. -/
theorem orders_use_registered_engine_recreated :
    ∃ system : System Unit, ordersTo 1 system = true ∧ system.OrdersLive sampleCapacity 7 := by
  have executed : (executeIf (step sampleCapacity) isKeeping (initial fun _ => sampleEntry)
      (.registryCreate 7 4 (some sampleCells) :: .registryRemove 7 :: (sampleSetup ++ sampleSubmit))).any
        (ordersTo 1) = true := by decide
  obtain ⟨system, run, executes⟩ := exists_reaches_of_executeIf keeping_of_isKeeping executed
  exact ⟨system, executes, orders_use_registered_engine sampleCapacity _ 7 system run⟩

/-- After its removal the tenant's orders still go to the engine that was destroyed, and
after it is created again, too. -/
theorem orders_reach_destroyed_engine :
    (∃ system : System Unit, Reaches (step sampleCapacity) Serial (initial fun _ => sampleEntry)
        system ∧ ordersTo 0 system = true ∧ system.registry 7 = none ∧ (system.heap 0).isNone = true) ∧
      ∃ system : System Unit, Reaches (step sampleCapacity) Serial (initial fun _ => sampleEntry)
        system ∧ ordersTo 0 system = true ∧ system.registry 7 = some 1 := by
  have removed : (executeIf (step sampleCapacity) isSerial (initial fun _ => sampleEntry)
      (sampleSetup ++ .registryRemove 7 :: sampleSubmit)).any (fun system => ordersTo 0 system &&
        decide (system.registry 7 = none ∧ (system.heap 0).isNone = true)) = true := by decide
  have recreated : (executeIf (step sampleCapacity) isSerial (initial fun _ => sampleEntry)
      (sampleSetup ++ .registryRemove 7 :: .registryCreate 7 4 (some sampleCells) ::
        sampleSubmit)).any (fun system => ordersTo 0 system &&
          decide (system.registry 7 = some 1)) = true := by decide
  constructor
  · obtain ⟨system, run, found⟩ := exists_reaches_of_executeIf (fun _ _ => serial_of_isSerial) removed
    obtain ⟨orders, gone⟩ := (Bool.and_eq_true _ _).mp found
    exact ⟨system, run, orders, of_decide_eq_true gone⟩
  · obtain ⟨system, run, found⟩ := exists_reaches_of_executeIf (fun _ _ => serial_of_isSerial) recreated
    obtain ⟨orders, other⟩ := (Bool.and_eq_true _ _).mp found
    exact ⟨system, run, orders, of_decide_eq_true other⟩

end System

end AnimusCore.Security

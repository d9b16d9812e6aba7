import AnimusCore.Engine.Machine
import AnimusCore.Security.AuditLog

/-! `TenantRegistry`, `SecureTelemetryGateway` and `SecureExecutionGateway` over one
registry, with the engines they own. A call is a sequence of steps: the checks it begins
with, a critical section of the registry or of the client table, the steps of an engine
operation, the append to the audit trail and the return. Calls of different threads
interleave, and so do the engines' workers. -/

set_option autoImplicit false

namespace AnimusCore.Security

open Engine Lib Lib.Ring Function

inductive OrderSide where
  | buy
  | sell
  deriving DecidableEq

inductive OrderType where
  | market
  | limit
  deriving DecidableEq

inductive ExecStatus where
  | accepted
  | rejected
  | filled
  | partiallyFilled
  deriving DecidableEq

structure OrderRequest where
  clientOrderId : UInt64
  instrumentId : UInt32
  side : OrderSide
  type : OrderType
  priceTicks : UInt64
  quantity : UInt64
  deriving DecidableEq

structure ExecutionReport where
  clientOrderId : UInt64
  instrumentId : UInt32
  filledQuantity : UInt64
  avgPriceTicks : UInt64
  status : ExecStatus
  deriving DecidableEq

def LoopbackBrokerGateway.submitOrder (request : OrderRequest) : Bool × ExecutionReport :=
  (true,
    { clientOrderId := request.clientOrderId
      instrumentId := request.instrumentId
      filledQuantity := request.quantity
      avgPriceTicks := request.priceTicks
      status := .filled })

def kExecutionLatencyEventId : UInt32 := 0xE0000001

/-- What `ExecutionClient::submit` records after the broker has answered. -/
def ExecutionClient.latencyEvent (request : OrderRequest) (latencyNs : UInt64) : RawEvent where
  eventId := kExecutionLatencyEventId
  traceId := (request.clientOrderId &&& 0xFFFFFFFF).toUInt32
  metricValue := latencyNs

/-- What `authorize_and_dispatch` hands to an engine. -/
inductive Operation where
  | record (event : RawEvent)
  | addRule (arguments : RuleArguments)
  | pollSignals (maxCount : Nat)
  | startPersistence
  | stopPersistence
  deriving DecidableEq

inductive Call where
  | dispatch (operation : Operation)
  | createTenant (newTenantId : UInt32) (bufferCapacity : UInt64)
  | createExecutionTenant (tenantId : UInt32)
  | submit (order : OrderRequest)
  deriving DecidableEq

structure Request where
  token : AccessToken
  call : Call
  deriving DecidableEq

/-- The value of a call and what it wrote to its output; `threw` is an exception. -/
inductive Reply where
  | flag (ok : Bool)
  | signals (out : List ThreatSignal)
  | report (ok : Bool) (out : Option ExecutionReport)
  | threw
  deriving DecidableEq

inductive Gateway where
  | telemetry
  | execution
  deriving DecidableEq

def Operation.permission : Operation → Permission
  | .record _ => .recordEvent
  | .addRule _ => .addRule
  | .pollSignals _ => .pollSignals
  | .startPersistence | .stopPersistence => .managePersistence

def Call.permission : Call → Permission
  | .dispatch operation => operation.permission
  | .createTenant _ _ | .createExecutionTenant _ => .manageTenants
  | .submit _ => .submitOrder

def Call.gateway : Call → Gateway
  | .dispatch _ | .createTenant _ _ => .telemetry
  | .createExecutionTenant _ | .submit _ => .execution

/-- What a call returns that does not get to its engine. -/
def Call.refusal : Call → Reply
  | .dispatch (.pollSignals _) => .signals []
  | .dispatch _ | .createTenant _ _ | .createExecutionTenant _ => .flag false
  | .submit _ => .report false none

/-- The result of `submit` is the broker's, whatever the engine made of the sample. -/
def Call.reply : Call → Reply → Reply
  | .submit order, _ =>
    let (accepted, report) := LoopbackBrokerGateway.submitOrder order
    .report accepted (some report)
  | _, reply => reply

def Request.allowed (request : Request) : Bool :=
  RbacPolicy.isAllowed request.token.role request.call.permission

/-- The tenant whose engine the call is about: the token's own, or the one that an
administrator names. -/
def Request.subject (request : Request) : UInt32 :=
  match request.call with
  | .dispatch _ | .submit _ => request.token.tenantId
  | .createTenant newTenantId _ => newTenantId
  | .createExecutionTenant tenantId => tenantId

/-- An `Engine` object. Engines are numbered in the order of their creation. -/
abbrev Address := Nat

structure Hosted (Thread : Type) where
  capacity : Nat
  engine : Engine.State Thread

inductive Phase where
  | idle
  | creating (token : AccessToken) (newTenantId : UInt32) (bufferCapacity : UInt64)
  | binding (token : AccessToken) (tenantId : UInt32) (engine : Address)
  | resolving (token : AccessToken) (order : OrderRequest)
  | dispatching (request : Request) (engine : Address) (operation : Operation)
  | operating (request : Request) (engine : Address) (operation : Operation)
  | auditing (request : Request) (outcome : AuditOutcome) (reply : Reply)
  | returning (request : Request) (reply : Reply)
  deriving DecidableEq

def Phase.request : Phase → Option Request
  | .idle => none
  | .creating token newTenantId bufferCapacity =>
    some ⟨token, .createTenant newTenantId bufferCapacity⟩
  | .binding token tenantId _ => some ⟨token, .createExecutionTenant tenantId⟩
  | .resolving token order => some ⟨token, .submit order⟩
  | .dispatching request _ _ | .operating request _ _ | .auditing request _ _
  | .returning request _ => some request

/-- The checks that a call begins with; `registered` is the engine of its subject, and
`blocked` says that a license is required and missing. -/
def Request.opening (request : Request) (registered : Option Address) (blocked : Bool) : Phase :=
  let denied := Phase.auditing request .denied request.call.refusal
  match request.call with
  | .dispatch operation =>
    match if request.allowed then registered else none with
    | some engine => .dispatching request engine operation
    | none => denied
  | .createTenant newTenantId bufferCapacity =>
    if request.allowed then .creating request.token newTenantId bufferCapacity else denied
  | .createExecutionTenant tenantId =>
    match if request.allowed then registered else none with
    | some engine => .binding request.token tenantId engine
    | none => denied
  | .submit order =>
    if request.allowed && !blocked then .resolving request.token order else denied

/-- `submit` behind its lookup of the tenant's client. -/
def ExecutionClient.opening (token : AccessToken) (order : OrderRequest)
    (client : Option Address) (latencyNs : UInt64) : Phase :=
  match client with
  | some engine =>
    .dispatching ⟨token, .submit order⟩ engine (.record (latencyEvent order latencyNs))
  | none => .auditing ⟨token, .submit order⟩ .denied (Call.submit order).refusal

section

variable {Thread : Type} [DecidableEq Thread]

def Operation.action (thread : Thread) (cycles : UInt64) (allocates : Bool) : Operation → Engine.Action Thread
  | .record event => .record thread event cycles
  | .addRule arguments => .addRule arguments allocates
  | .pollSignals maxCount => .pollSignals thread maxCount
  | .startPersistence => .startPersistence
  | .stopPersistence => .stopPersistence

/-- The steps that a thread takes inside its operation. -/
def Operation.proceeds (thread : Thread) : Operation → Engine.Action Thread → Bool
  | .record _, .resume other _ => other = thread
  | .record _, .ring party | .record _, .ringSpurious party => party = .caller thread
  | .pollSignals _, .resume other _ => other = thread
  | .pollSignals _, .signalRing party | .pollSignals _, .signalRingSpurious party =>
    party = .caller thread
  | .startPersistence, .control | .stopPersistence, .control => true
  | _, _ => false

def ofWorker : Engine.Action Thread → Bool
  | .ring party | .ringSpurious party | .signalRing party | .signalRingSpurious party =>
    party = .worker
  | .tryOpen _ | .sleep | .clock _ | .work | .writeFails => true
  | _ => false

def Operation.result (thread : Thread) (allocates : Bool) (before after : Engine.State Thread) :
    Operation → Option Reply
  | .record _ =>
    match after.callers thread with
    | .idle => some (.flag ((after.calls.getLast?).any fun call => call.pushed ≠ 0))
    | _ => none
  | .addRule arguments => some (.flag (Engine.addRule before.rules arguments allocates).1)
  | .pollSignals _ =>
    match after.callers thread with
    | .idle => some (.signals ((after.polls.getLast?).elim [] Prod.snd))
    | _ => none
  | .startPersistence | .stopPersistence =>
    if after.unoccupied then some (.flag true) else none

/-- How an operation goes on: by a step of the engine or by an exception, which no gateway
catches. `start_persistence` throws where the path cannot be copied or the thread cannot be
started, and where two calls of `stop_persistence` overlap both may join the worker. -/
inductive Move (Thread : Type) where
  | steps (action : Engine.Action Thread)
  | startThrows
  | joinThrows

def Phase.throwing : Phase → Option (Request × Address × Operation × Move Thread)
  | .operating request address .startPersistence =>
    some (request, address, .startPersistence, .startThrows)
  | .dispatching request address .stopPersistence =>
    some (request, address, .stopPersistence, .joinThrows)
  | _ => none

/-- One step of an operation on an engine, and where its thread stands then. -/
def Hosted.operate (hosted : Hosted Thread) (thread : Thread) (request : Request)
    (address : Address) (operation : Operation) (move : Move Thread) (allocates : Bool) :
    Option (Hosted Thread × Phase) :=
  match move, hosted.engine.control with
  | .steps action, _ =>
    (Engine.step RingBuffer.machine hosted.capacity hosted.engine action).map fun engine =>
      ({ hosted with engine },
        match operation.result thread allocates hosted.engine engine with
        | some reply => .auditing request .allowed (request.call.reply reply)
        | none => .operating request address operation)
  -- Where the thread is what failed, `running_` stays set.
  | .startThrows, .startStore | .startThrows, .startSpawn =>
    some ({ hosted with engine := { hosted.engine with control := .idle } }, .returning request .threw)
  | .joinThrows, .stopLoad _ | .joinThrows, .stopStore _ | .joinThrows, .stopJoin _ =>
    some (hosted, .returning request .threw)
  | _, _ => none

end

/-- An audit event, and for the record of the run who appended it. -/
structure Entry (Thread : Type) where
  event : AuditEvent
  caller : Thread
  deriving DecidableEq

/-- What happened during a call: whether its subject had an engine when it began, and
the engines its steps created or changed. -/
structure Account where
  existed : Bool := false
  touched : List Address := []

structure Return (Thread : Type) where
  thread : Thread
  request : Request
  reply : Reply
  account : Account

/-- The registry and the client table hold addresses; an address without an engine
dangles. `created` records for which tenant each engine was created, the last two fields
record the run. -/
structure System (Thread : Type) where
  registry : UInt32 → Option Address := fun _ => none
  heap : Address → Option (Hosted Thread) := fun _ => none
  created : List UInt32 := []
  clients : UInt32 → Option Address := fun _ => none
  requireLicense : Bool := false
  licensed : Bool := false
  logs : Gateway → BoundedAuditLog (Entry Thread)
  phases : Thread → Phase := fun _ => .idle
  accounts : Thread → Account := fun _ => {}
  returned : List (Return Thread) := []

structure Cells (Thread : Type) where
  records : Nat → Record Thread
  signals : Nat → ThreatSignal

inductive Action (Thread : Type) where
  | call (thread : Thread) (request : Request)
  | create (thread : Thread) (allocated : Option (Cells Thread))
  | bind (thread : Thread) (allocates : Bool)
  | resolve (thread : Thread) (latencyNs : UInt64)
  | invoke (thread : Thread) (cycles : UInt64) (allocates : Bool)
  | proceed (thread : Thread) (action : Engine.Action Thread)
  | throws (thread : Thread)
  | worker (address : Address) (action : Engine.Action Thread)
  | audit (thread : Thread) (cycles : UInt64)
  | finish (thread : Thread)
  | drain (gateway : Gateway) (hasOut : Bool) (maxCount : Nat)
  | registryCreate (tenantId : UInt32) (bufferCapacity : UInt64) (allocated : Option (Cells Thread))
  | registryRemove (tenantId : UInt32)
  | setLicenseRequired (required : Bool)
  | setLicensed (licensed : Bool)

namespace System

variable {Thread : Type}

section
variable (system : System Thread)

def host (tenantId : UInt32) (capacity : Nat) (cells : Cells Thread) : System Thread :=
  { system with
    registry := update system.registry tenantId (some system.created.length)
    heap := update system.heap system.created.length (some ⟨capacity, Engine.initial cells.records cells.signals⟩)
    created := system.created ++ [tenantId] }

/-- `none` is a call that does not return, `some none` one that throws. -/
def createTenant (tenantId : UInt32) (bufferCapacity : UInt64) (allocated : Option (Cells Thread)) :
    Option (Option (System Thread)) :=
  match system.registry tenantId with
  | some _ => some (some system)
  | none =>
    (RingBuffer.roundUpPow2 bufferCapacity.toNat).map fun capacity =>
      allocated.map (system.host tenantId capacity)

/-- Destroys the tenant's engine; whoever still refers to it refers to nothing. -/
def removeTenant (tenantId : UInt32) : System Thread :=
  match system.registry tenantId with
  | none => system
  | some address =>
    { system with
      registry := update system.registry tenantId none
      heap := update system.heap address none }

def blocked : Bool := system.requireLicense && !system.licensed

end

variable [DecidableEq Thread]

section
variable (system : System Thread)

def goTo (thread : Thread) (phase : Phase) : System Thread :=
  { system with phases := update system.phases thread phase }

def touch (thread : Thread) (address : Address) : System Thread :=
  { system with
    accounts := update system.accounts thread
      { system.accounts thread with touched := (system.accounts thread).touched ++ [address] } }

def ends (thread : Thread) (request : Request) (reply : Reply) : System Thread :=
  { system.goTo thread .idle with
    returned := system.returned ++ [⟨thread, request, reply, system.accounts thread⟩] }

def call (thread : Thread) (request : Request) : Option (System Thread) :=
  match system.phases thread with
  | .idle =>
    let registered := system.registry request.subject
    some { system.goTo thread (request.opening registered system.blocked) with
      accounts := update system.accounts thread { existed := registered.isSome } }
  | _ => none

def create (thread : Thread) (allocated : Option (Cells Thread)) : Option (System Thread) :=
  match system.phases thread with
  | .creating token newTenantId bufferCapacity =>
    let request : Request := ⟨token, .createTenant newTenantId bufferCapacity⟩
    (system.createTenant newTenantId bufferCapacity allocated).map fun created =>
      match created with
      | none => system.ends thread request .threw
      | some next =>
        let next := if (system.registry newTenantId).isSome then next
          else next.touch thread system.created.length
        next.goTo thread (.auditing request .allowed (.flag true))
  | _ => none

/-- The client table gets an entry unless it has one; a failed allocation throws. -/
def bind (thread : Thread) (allocates : Bool) : Option (System Thread) :=
  match system.phases thread with
  | .binding token tenantId engine =>
    let request : Request := ⟨token, .createExecutionTenant tenantId⟩
    let done := Phase.auditing request .allowed (.flag true)
    match system.clients tenantId, allocates with
    | some _, _ => some (system.goTo thread done)
    | none, true =>
      let clients := update system.clients tenantId (some engine)
      some ({ system with clients }.goTo thread done)
    | none, false => some (system.ends thread request .threw)
  | _ => none

def resolve (thread : Thread) (latencyNs : UInt64) : Option (System Thread) :=
  match system.phases thread with
  | .resolving token order =>
    some (system.goTo thread (ExecutionClient.opening token order (system.clients token.tenantId) latencyNs))
  | _ => none

/-- A step on an engine that has been destroyed is undefined. -/
def operate (thread : Thread) (request : Request) (address : Address) (operation : Operation)
    (move : Move Thread) (allocates : Bool) : Option (System Thread) :=
  (system.heap address).bind fun hosted =>
    (hosted.operate thread request address operation move allocates).map fun (hosted, phase) =>
      { system.touch thread address with
        heap := update system.heap address (some hosted)
        phases := update system.phases thread phase }

def invoke (thread : Thread) (cycles : UInt64) (allocates : Bool) : Option (System Thread) :=
  match system.phases thread with
  | .dispatching request address operation =>
    system.operate thread request address operation (.steps (operation.action thread cycles allocates)) allocates
  | _ => none

def proceed (thread : Thread) (action : Engine.Action Thread) : Option (System Thread) :=
  match system.phases thread with
  | .operating request address operation =>
    if operation.proceeds thread action then
      system.operate thread request address operation (.steps action) true
    else none
  | _ => none

def throws (thread : Thread) : Option (System Thread) :=
  (system.phases thread).throwing.bind fun (request, address, operation, move) =>
    system.operate thread request address operation move true

def worker (address : Address) (action : Engine.Action Thread) : Option (System Thread) :=
  if ofWorker action then
    (system.heap address).bind fun hosted =>
      (Engine.step RingBuffer.machine hosted.capacity hosted.engine action).map fun engine =>
        { system with heap := update system.heap address (some { hosted with engine }) }
  else none

end

def audit (capacity : Capacity) (system : System Thread) (thread : Thread) (cycles : UInt64) :
    Option (System Thread) :=
  match system.phases thread with
  | .auditing request outcome reply =>
    let event : AuditEvent :=
      { timestampCycles := cycles
        tenantId := request.token.tenantId
        principalId := request.token.principalId
        permission := request.call.permission
        outcome }
    let gateway := request.call.gateway
    some { system.goTo thread (.returning request reply) with
      logs := update system.logs gateway ((system.logs gateway).append capacity ⟨event, thread⟩) }
  | _ => none

def step (capacity : Capacity) (system : System Thread) : Action Thread → Option (System Thread)
  | .call thread request => system.call thread request
  | .create thread allocated => system.create thread allocated
  | .bind thread allocates => system.bind thread allocates
  | .resolve thread latencyNs => system.resolve thread latencyNs
  | .invoke thread cycles allocates => system.invoke thread cycles allocates
  | .proceed thread action => system.proceed thread action
  | .throws thread => system.throws thread
  | .worker address action => system.worker address action
  | .audit thread cycles => system.audit capacity thread cycles
  | .finish thread =>
    match system.phases thread with
    | .returning request reply => some (system.ends thread request reply)
    | _ => none
  | .drain gateway hasOut maxCount =>
    some { system with
      logs := update system.logs gateway ((system.logs gateway).drain capacity hasOut maxCount).2 }
  | .registryCreate tenantId bufferCapacity allocated =>
    (system.createTenant tenantId bufferCapacity allocated).map fun created =>
      created.getD system
  | .registryRemove tenantId => some (system.removeTenant tenantId)
  | .setLicenseRequired required => some { system with requireLicense := required }
  | .setLicensed licensed => some { system with licensed }

/-- No tenant, no client, two empty trails. -/
def initial (entries : Nat → Entry Thread) : System Thread where
  logs := fun _ => { entries }

end System

/-- The engine that a call works on or is about to. -/
def Phase.target : Phase → Option (Request × Address × Operation)
  | .dispatching request address operation | .operating request address operation =>
    some (request, address, operation)
  | _ => none

theorem Phase.target_of_throwing {Thread : Type} {phase : Phase} {request : Request} {address : Address}
    {operation : Operation} {move : Move Thread}
    (throwing : phase.throwing = some (request, address, operation, move)) :
    phase.target = some (request, address, operation) := by
  unfold Phase.throwing at throwing
  split at throwing <;> cases throwing <;> rfl

inductive Request.Opens (request : Request) (registered : Option Address) : Phase → Prop where
  | unauthorized : request.allowed = false → Opens request registered (.auditing request .denied request.call.refusal)
  | unregistered : registered = none → (∀ tenantId requested, request.call ≠ .createTenant tenantId requested) →
      Opens request registered (.auditing request .denied request.call.refusal)
  | unlicensed {order : OrderRequest} : request.call = .submit order →
      Opens request registered (.auditing request .denied request.call.refusal)
  | dispatching {engine : Address} {operation : Operation} : request.allowed = true →
      registered = some engine → request.call = .dispatch operation →
      Opens request registered (.dispatching request engine operation)
  | creating {tenantId : UInt32} {requested : UInt64} : request.allowed = true →
      request.call = .createTenant tenantId requested →
      Opens request registered (.creating request.token tenantId requested)
  | binding {tenantId : UInt32} {engine : Address} : request.allowed = true →
      registered = some engine → request.call = .createExecutionTenant tenantId →
      Opens request registered (.binding request.token tenantId engine)
  | resolving {order : OrderRequest} : request.allowed = true → request.call = .submit order →
      Opens request registered (.resolving request.token order)

theorem Request.opens (request : Request) (registered : Option Address) (blocked : Bool) :
    request.Opens registered (request.opening registered blocked) := by
  rcases request with ⟨token, call⟩
  cases granted : Request.allowed ⟨token, call⟩ with
  | false => cases call <;> simpa [Request.opening, granted] using .unauthorized granted
  | true =>
    cases call with
    | dispatch operation =>
      cases registered with
      | none => simpa [Request.opening, granted] using .unregistered rfl (by simp)
      | some engine => simpa [Request.opening, granted] using .dispatching granted rfl rfl
    | createTenant tenantId requested =>
      simpa [Request.opening, granted] using .creating granted rfl
    | createExecutionTenant tenantId =>
      cases registered with
      | none => simpa [Request.opening, granted] using .unregistered rfl (by simp)
      | some engine => simpa [Request.opening, granted] using .binding granted rfl rfl
    | submit order =>
      cases blocked with
      | true => simpa [Request.opening, granted] using .unlicensed rfl
      | false => simpa [Request.opening, granted] using .resolving granted rfl

namespace System

variable {Thread : Type} [DecidableEq Thread]

inductive Step (capacity : Capacity) (system : System Thread) : Action Thread → System Thread → Prop where
  | call {thread : Thread} {request : Request} : system.phases thread = .idle →
      Step capacity system (.call thread request)
        { system.goTo thread (request.opening (system.registry request.subject) system.blocked) with
          accounts := update system.accounts thread { existed := (system.registry request.subject).isSome } }
  | createThrows {thread : Thread} {token : AccessToken} {tenantId : UInt32} {requested : UInt64} :
      system.phases thread = .creating token tenantId requested →
      Step capacity system (.create thread none) (system.ends thread ⟨token, .createTenant tenantId requested⟩ .threw)
  | createFinds {thread : Thread} {token : AccessToken} {tenantId : UInt32} {requested : UInt64}
      {allocated : Option (Cells Thread)} :
      system.phases thread = .creating token tenantId requested →
      Step capacity system (.create thread allocated) (system.goTo thread
          (.auditing ⟨token, .createTenant tenantId requested⟩ .allowed (.flag true)))
  | creates {thread : Thread} {token : AccessToken} {tenantId : UInt32} {requested : UInt64}
      {size : Nat} {cells : Cells Thread} :
      system.phases thread = .creating token tenantId requested →
      system.registry tenantId = none →
      Step capacity system (.create thread (some cells))
        (((system.host tenantId size cells).touch thread system.created.length).goTo thread
          (.auditing ⟨token, .createTenant tenantId requested⟩ .allowed (.flag true)))
  | bindThrows {thread : Thread} {token : AccessToken} {tenantId : UInt32} {engine : Address} :
      system.phases thread = .binding token tenantId engine →
      Step capacity system (.bind thread false) (system.ends thread ⟨token, .createExecutionTenant tenantId⟩ .threw)
  | bindFinds {thread : Thread} {token : AccessToken} {tenantId : UInt32} {engine : Address} {allocates : Bool} :
      system.phases thread = .binding token tenantId engine →
      Step capacity system (.bind thread allocates) (system.goTo thread
          (.auditing ⟨token, .createExecutionTenant tenantId⟩ .allowed (.flag true)))
  | binds {thread : Thread} {token : AccessToken} {tenantId : UInt32} {engine : Address} :
      system.phases thread = .binding token tenantId engine → system.clients tenantId = none →
      Step capacity system (.bind thread true)
        ({ system with clients := update system.clients tenantId (some engine) }.goTo
          thread (.auditing ⟨token, .createExecutionTenant tenantId⟩ .allowed (.flag true)))
  | resolve {thread : Thread} {token : AccessToken} {order : OrderRequest} {latencyNs : UInt64} :
      system.phases thread = .resolving token order →
      Step capacity system (.resolve thread latencyNs) (system.goTo thread
          (ExecutionClient.opening token order (system.clients token.tenantId) latencyNs))
  | invoke {thread : Thread} {request : Request} {address : Address} {operation : Operation}
      {cycles : UInt64} {allocates : Bool} {next : System Thread} :
      system.phases thread = .dispatching request address operation →
      system.operate thread request address operation
        (.steps (operation.action thread cycles allocates)) allocates = some next →
      Step capacity system (.invoke thread cycles allocates) next
  | proceed {thread : Thread} {request : Request} {address : Address} {operation : Operation}
      {action : Engine.Action Thread} {next : System Thread} :
      system.phases thread = .operating request address operation →
      operation.proceeds thread action = true →
      system.operate thread request address operation (.steps action) true = some next →
      Step capacity system (.proceed thread action) next
  | throws {thread : Thread} {request : Request} {address : Address} {operation : Operation}
      {move : Move Thread} {next : System Thread} :
      (system.phases thread).throwing = some (request, address, operation, move) →
      system.operate thread request address operation move true = some next →
      Step capacity system (.throws thread) next
  | worker {address : Address} {action : Engine.Action Thread} {hosted : Hosted Thread}
      {engine : Engine.State Thread} : ofWorker action = true →
      system.heap address = some hosted →
      Engine.step RingBuffer.machine hosted.capacity hosted.engine action = some engine →
      Step capacity system (.worker address action)
        { system with heap := update system.heap address (some { hosted with engine }) }
  | audit {thread : Thread} {request : Request} {outcome : AuditOutcome} {reply : Reply}
      {cycles : UInt64} : system.phases thread = .auditing request outcome reply →
      Step capacity system (.audit thread cycles)
        { system.goTo thread (.returning request reply) with
          logs := update system.logs request.call.gateway ((system.logs request.call.gateway).append capacity
              ⟨⟨cycles, request.token.tenantId, request.token.principalId,
                request.call.permission, outcome⟩, thread⟩) }
  | returns {thread : Thread} {request : Request} {reply : Reply} : system.phases thread = .returning request reply →
      Step capacity system (.finish thread) (system.ends thread request reply)
  | drain {gateway : Gateway} {hasOut : Bool} {maxCount : Nat} : Step capacity system (.drain gateway hasOut maxCount)
        { system with
          logs := update system.logs gateway ((system.logs gateway).drain capacity hasOut maxCount).2 }
  | registryKeeps {tenantId : UInt32} {requested : UInt64} {allocated : Option (Cells Thread)} :
      Step capacity system (.registryCreate tenantId requested allocated) system
  | registryCreates {tenantId : UInt32} {requested : UInt64} {size : Nat} {cells : Cells Thread} :
      system.registry tenantId = none →
      Step capacity system (.registryCreate tenantId requested (some cells)) (system.host tenantId size cells)
  | removes {tenantId : UInt32} : Step capacity system (.registryRemove tenantId) (system.removeTenant tenantId)
  | setLicenseRequired {required : Bool} :
      Step capacity system (.setLicenseRequired required) { system with requireLicense := required }
  | setLicensed {licensed : Bool} : Step capacity system (.setLicensed licensed) { system with licensed }

theorem step_cases {capacity : Capacity} {system next : System Thread} {action : Action Thread}
    (stepped : system.step capacity action = some next) : Step capacity system action next := by
  cases action with
  | call thread request =>
    simp only [step, System.call] at stepped
    split at stepped
    case h_1 idle =>
      cases stepped
      exact .call idle
    case h_2 => cases stepped
  | create thread allocated =>
    simp only [step, create] at stepped
    split at stepped
    case h_1 token tenantId requested creating =>
      cases registered : system.registry tenantId with
      | some address =>
        simp only [createTenant, registered, Option.map_some, Option.isSome_some, ↓reduceIte] at stepped
        cases stepped
        exact .createFinds creating
      | none =>
        simp only [createTenant, registered, Option.isSome_none, Bool.false_eq_true, ↓reduceIte] at stepped
        obtain ⟨created, made, rfl⟩ := Option.map_eq_some_iff.mp stepped
        obtain ⟨size, -, rfl⟩ := Option.map_eq_some_iff.mp made
        cases allocated with
        | none => exact .createThrows creating
        | some cells => exact .creates creating registered
    case h_2 => cases stepped
  | bind thread allocates =>
    simp only [step, bind] at stepped
    split at stepped
    case h_1 token tenantId engine binding =>
      split at stepped
      case h_1 =>
        cases stepped
        exact .bindFinds binding
      case h_2 absent =>
        cases stepped
        exact .binds binding absent
      case h_3 =>
        cases stepped
        exact .bindThrows binding
    case h_2 => cases stepped
  | resolve thread latencyNs =>
    simp only [step, resolve] at stepped
    split at stepped
    case h_1 token order resolving =>
      cases stepped
      exact .resolve resolving
    case h_2 => cases stepped
  | invoke thread cycles allocates =>
    simp only [step, invoke] at stepped
    split at stepped
    case h_1 request address operation dispatching => exact .invoke dispatching stepped
    case h_2 => cases stepped
  | proceed thread action =>
    simp only [step, proceed] at stepped
    split at stepped
    case h_1 request address operation operating =>
      split at stepped
      case isTrue proceeds => exact .proceed operating proceeds stepped
      case isFalse => cases stepped
    case h_2 => cases stepped
  | throws thread =>
    obtain ⟨_, throwing, operated⟩ := Option.bind_eq_some_iff.mp stepped
    exact .throws throwing operated
  | worker address action =>
    simp only [step, worker] at stepped
    split at stepped
    case isTrue own =>
      obtain ⟨hosted, here, stepped⟩ := Option.bind_eq_some_iff.mp stepped
      obtain ⟨engine, ran, rfl⟩ := Option.map_eq_some_iff.mp stepped
      exact .worker own here ran
    case isFalse => cases stepped
  | audit thread cycles =>
    simp only [step, audit] at stepped
    split at stepped
    case h_1 request outcome reply auditing =>
      cases stepped
      exact .audit auditing
    case h_2 => cases stepped
  | finish thread =>
    simp only [step] at stepped
    split at stepped
    case h_1 request reply returning =>
      cases stepped
      exact .returns returning
    case h_2 => cases stepped
  | drain gateway hasOut maxCount =>
    cases stepped
    exact .drain
  | registryCreate tenantId requested allocated =>
    simp only [step, createTenant] at stepped
    split at stepped
    case h_1 =>
      cases stepped
      exact .registryKeeps
    case h_2 absent =>
      obtain ⟨created, made, rfl⟩ := Option.map_eq_some_iff.mp stepped
      obtain ⟨size, -, rfl⟩ := Option.map_eq_some_iff.mp made
      cases allocated with
      | none => exact .registryKeeps
      | some cells => exact .registryCreates absent
  | registryRemove tenantId =>
    cases stepped
    exact .removes
  | setLicenseRequired required =>
    cases stepped
    exact .setLicenseRequired
  | setLicensed licensed =>
    cases stepped
    exact .setLicensed

end System

end AnimusCore.Security

import AnimusCore.Lib.Projection
import AnimusCore.Security.Orders

/-! What a tenant sees. Its engine, its client and its calls are a private service: a
machine of its own that no step of another tenant moves. -/

set_option autoImplicit false

namespace AnimusCore.Security

open Lib Lib.Ring Function List

def Request.serves (tenant : UInt32) (request : Request) : Bool :=
  decide (request.token.tenantId = tenant) && request.call.operates

def Phase.serves (tenant : UInt32) (phase : Phase) : Bool :=
  phase.request.any (Request.serves tenant)

def Phase.shown (tenant : UInt32) (phase : Phase) : Phase :=
  if phase.serves tenant then phase else .idle

section

variable {tenant : UInt32} {phase : Phase} {request : Request}

theorem Phase.serves_eq (here : phase.request = some request) : phase.serves tenant = request.serves tenant := by
  rw [Phase.serves, here, Option.any_some]

theorem Phase.shown_of_serves (serves : phase.serves tenant = true) : phase.shown tenant = phase :=
  if_pos serves

theorem Phase.shown_of_not_serves (serves : phase.serves tenant = false) : phase.shown tenant = .idle := by
  rw [Phase.shown, serves, if_neg Bool.false_ne_true]

theorem Phase.request_of_target {engine : Address} {operation : Operation}
    (target : phase.target = some (request, engine, operation)) : phase.request = some request := by
  cases phase <;> cases target <;> rfl

theorem Request.serves_iff : request.serves tenant = true ↔
      request.token.tenantId = tenant ∧ request.call.operates = true := by
  rw [Request.serves, Bool.and_eq_true, decide_eq_true_iff]

theorem Request.Opens.request_eq {registered : Option Address}
    (opens : request.Opens registered phase) : phase.request = some request := by
  rcases request with ⟨token, call⟩
  cases opens with
  | unauthorized | unregistered | unlicensed | dispatching => rfl
  | creating _ same | binding _ _ same | resolving _ same =>
    cases same
    rfl

theorem ExecutionClient.opening_request (token : AccessToken) (order : OrderRequest)
    (client : Option Address) (latencyNs : UInt64) :
    (ExecutionClient.opening token order client latencyNs).request = some ⟨token, .submit order⟩ := by
  cases client <;> rfl

end

structure Private (Thread : Type) where
  hosted : Option (Hosted Thread)
  requireLicense : Bool
  licensed : Bool
  phases : Thread → Phase
  replies : List (Thread × Request × Reply)

namespace Private

inductive Action (Thread : Type) where
  | call (thread : Thread) (request : Request)
  | resolve (thread : Thread) (latencyNs : UInt64)
  | invoke (thread : Thread) (cycles : UInt64) (allocates : Bool)
  | proceed (thread : Thread) (action : Engine.Action Thread)
  | throws (thread : Thread)
  | worker (action : Engine.Action Thread)
  | audit (thread : Thread)
  | finish (thread : Thread)
  | setLicenseRequired (required : Bool)
  | setLicensed (licensed : Bool)

variable {Thread : Type} [DecidableEq Thread]

def goTo (service : Private Thread) (thread : Thread) (phase : Phase) : Private Thread :=
  { service with phases := update service.phases thread phase }

def operate (address : Address) (service : Private Thread) (thread : Thread) (request : Request)
    (operation : Operation) (move : Move Thread) (allocates : Bool) : Option (Private Thread) :=
  service.hosted.bind fun hosted =>
    (hosted.operate thread request address operation move allocates).map fun (hosted, phase) =>
      { service.goTo thread phase with hosted := some hosted }

def step (address : Address) (service : Private Thread) : Action Thread → Option (Private Thread)
  | .call thread request =>
    match service.phases thread with
    | .idle => some (service.goTo thread (request.opening (some address)
        (service.requireLicense && !service.licensed)))
    | _ => none
  | .resolve thread latencyNs =>
    match service.phases thread with
    | .resolving token order => some (service.goTo thread
        (ExecutionClient.opening token order (some address) latencyNs))
    | _ => none
  | .invoke thread cycles allocates =>
    match service.phases thread with
    | .dispatching request _ operation => service.operate address thread request operation
        (.steps (operation.action thread cycles allocates)) allocates
    | _ => none
  | .proceed thread action =>
    match service.phases thread with
    | .operating request _ operation =>
      if operation.proceeds thread action then
        service.operate address thread request operation (.steps action) true
      else none
    | _ => none
  | .throws thread =>
    (service.phases thread).throwing.bind fun (request, _, operation, move) =>
      service.operate address thread request operation move true
  | .worker action =>
    if ofWorker action then
      service.hosted.bind fun hosted =>
        (Engine.step RingBuffer.machine hosted.capacity hosted.engine action).map fun engine =>
          { service with hosted := some { hosted with engine } }
    else none
  | .audit thread =>
    match service.phases thread with
    | .auditing request _ reply => some (service.goTo thread (.returning request reply))
    | _ => none
  | .finish thread =>
    match service.phases thread with
    | .returning request reply =>
      some { service.goTo thread .idle with
        replies := service.replies ++ [(thread, request, reply)] }
    | _ => none
  | .setLicenseRequired required => some { service with requireLicense := required }
  | .setLicensed licensed => some { service with licensed }

end Private

namespace System

variable {Thread : Type}

/-- The operations of a tenant that have returned, with what they returned. -/
def replies (tenant : UInt32) (system : System Thread) : List (Thread × Request × Reply) :=
  (system.returned.filter fun returned => returned.request.serves tenant).map
    fun returned => (returned.thread, returned.request, returned.reply)

def service (tenant : UInt32) (address : Address) (system : System Thread) : Private Thread where
  hosted := system.heap address
  requireLicense := system.requireLicense
  licensed := system.licensed
  phases := fun thread => (system.phases thread).shown tenant
  replies := system.replies tenant

def shows (tenant : UInt32) (address : Address) (system : System Thread) :
    Action Thread → Option (Private.Action Thread)
  | .call thread request => if request.serves tenant then some (.call thread request) else none
  | .resolve thread latencyNs =>
    if (system.phases thread).serves tenant then some (.resolve thread latencyNs) else none
  | .invoke thread cycles allocates =>
    if (system.phases thread).serves tenant then some (.invoke thread cycles allocates) else none
  | .proceed thread action =>
    if (system.phases thread).serves tenant then some (.proceed thread action) else none
  | .throws thread => if (system.phases thread).serves tenant then some (.throws thread) else none
  | .audit thread _ =>
    if (system.phases thread).serves tenant then some (.audit thread) else none
  | .finish thread =>
    if (system.phases thread).serves tenant then some (.finish thread) else none
  | .worker engine action => if engine = address then some (.worker action) else none
  | .setLicenseRequired required => some (.setLicenseRequired required)
  | .setLicensed licensed => some (.setLicensed licensed)
  | .create _ _ | .bind _ _ | .drain _ _ _ | .registryCreate _ _ _ | .registryRemove _ => none

/-- The tenant has an engine, and its client is bound to it. -/
structure Serving (tenant : UInt32) (address : Address) (system : System Thread) : Prop where
  wired : system.Wired tenant
  registered : system.registry tenant = some address
  bound : system.clients tenant = some address

variable {tenant : UInt32} {address : Address} {system next : System Thread}

private theorem service_heap_of_ne {engine : Address} (different : engine ≠ address) (hosted : Option (Hosted Thread)) :
    service tenant address { system with heap := update system.heap engine hosted } =
      system.service tenant address := by
  simp only [service, replies, update_of_ne different.symm]

private theorem service_host (address_lt : address < system.created.length) (tenantId : UInt32)
    (capacity : Nat) (cells : Cells Thread) :
    (system.host tenantId capacity cells).service tenant address = system.service tenant address :=
  service_heap_of_ne (Nat.ne_of_gt address_lt) _

private theorem service_removeTenant {tenantId : UInt32} (owned : system.Owned)
    (registered : system.registry tenant = some address) (different : tenantId ≠ tenant) :
    (system.removeTenant tenantId).service tenant address = system.service tenant address := by
  rw [System.removeTenant]
  split
  case h_1 => rfl
  case h_2 removed found =>
    have apart := owned.ne_of_registry different registered (owned.registry tenantId removed found)
    exact service_heap_of_ne apart none

theorem Serving.address_lt (serving : system.Serving tenant address) : address < system.created.length :=
  (List.getElem?_eq_some_iff.mp (serving.wired.owned.registry tenant address serving.registered)).1

section

variable [DecidableEq Thread] {thread : Thread}

private theorem service_goTo (thread : Thread) (phase : Phase) : (system.goTo thread phase).service tenant address =
      (system.service tenant address).goTo thread (phase.shown tenant) := by
  have phases : (fun other => (update system.phases thread phase other).shown tenant) =
      update (fun other => (system.phases other).shown tenant) thread (phase.shown tenant) := by
    funext other
    by_cases same : other = thread
    · rw [same, update_self, update_self]
    · rw [update_of_ne same, update_of_ne same]
  simp only [service, replies, goTo, Private.goTo, phases]

private theorem service_goTo_of_serves {phase : Phase} (serves : phase.serves tenant = true) :
    (system.goTo thread phase).service tenant address = (system.service tenant address).goTo thread phase := by
  rw [service_goTo, Phase.shown_of_serves serves]

private theorem service_goTo_of_hidden {phase : Phase} (before : (system.phases thread).serves tenant = false)
    (after : phase.serves tenant = false) :
    (system.goTo thread phase).service tenant address = system.service tenant address := by
  rw [service_goTo, Phase.shown_of_not_serves after, ← Phase.shown_of_not_serves before]
  simp only [Private.goTo, service, update_eq_self]

variable {request : Request}

private theorem service_ends_of_hidden {reply : Reply}
    (here : (system.phases thread).request = some request) (other : request.serves tenant = false) :
    (system.ends thread request reply).service tenant address = system.service tenant address := by
  have before : (system.phases thread).serves tenant = false := (Phase.serves_eq here).trans other
  have moved : (system.goTo thread .idle).service tenant address =
      system.service tenant address := service_goTo_of_hidden before rfl
  rw [← moved]
  simp only [service, replies, ends, goTo, filter_append, filter_cons, other,
    filter_nil, Bool.false_eq_true, ↓reduceIte, append_nil]

variable {capacity : Capacity} {action : Action Thread}

section
variable (serving : system.Serving tenant address)
include serving

theorem Serving.step (keeps : action ≠ .registryRemove tenant)
    (stepped : system.step capacity action = some next) : next.Serving tenant address := by
  have registered := serving.registered
  have bound := serving.bound
  refine ⟨serving.wired.step (fun removes => absurd removes keeps) stepped, ?_, ?_⟩
  · cases step_cases stepped with
    | creates _ absent | registryCreates absent =>
      have different : tenant ≠ _ := fun same => by
        rw [same, absent] at registered
        cases registered
      exact (update_of_ne different _ _).trans registered
    | invoke _ operated | proceed _ _ operated | throws _ operated =>
      obtain ⟨_, _, _, -, -, rfl⟩ := operate_cases operated
      exact registered
    | removes =>
      have different : tenant ≠ _ := fun same => keeps (congrArg Action.registryRemove same.symm)
      exact (removeTenant_registry_of_ne different).trans registered
    | _ => exact registered
  · cases step_cases stepped with
    | binds _ absent =>
      have different : tenant ≠ _ := fun same => by
        rw [same, absent] at bound
        cases bound
      exact (update_of_ne different _ _).trans bound
    | invoke _ operated | proceed _ _ operated | throws _ operated =>
      obtain ⟨_, _, _, -, -, rfl⟩ := operate_cases operated
      exact bound
    | @removes tenantId =>
      obtain ⟨_, _, removed⟩ := system.exists_removeTenant tenantId
      rw [removed]
      exact bound
    | _ => exact bound

theorem Serving.operate_hidden {engine : Address} {operation : Operation} {move : Move Thread}
    {allocates : Bool} (target : (system.phases thread).target = some (request, engine, operation))
    (unseen : (system.phases thread).serves tenant = false)
    (operated : system.operate thread request engine operation move allocates = some next) :
    next.service tenant address = system.service tenant address := by
  have own := serving.wired.owned.target target
  have other : request.serves tenant = false :=
    (Phase.serves_eq (Phase.request_of_target target)).symm.trans unseen
  obtain ⟨hosted, after, phase, -, ran, rfl⟩ := operate_cases operated
  have different : request.token.tenantId ≠ tenant := fun same => by
    rw [Request.serves_iff.mpr ⟨same, own.1⟩] at other
    cases other
  have apart := serving.wired.owned.ne_of_registry different serving.registered own.2
  have still : phase.serves tenant = false := by
    rcases Hosted.operate_phase ran with ⟨reply, rfl⟩ | rfl | ⟨rfl, -⟩ <;> exact other
  exact (service_heap_of_ne apart _).trans (service_goTo_of_hidden unseen still)

theorem Serving.hidden (keeps : action ≠ .registryRemove tenant) (stepped : system.step capacity action = some next)
    (unseen : system.shows tenant address action = none) :
    next.service tenant address = system.service tenant address := by
  have owned := serving.wired.owned
  cases step_cases stepped with
  | @call thread request idle =>
    have other : request.serves tenant = false := by simpa [shows] using unseen
    have opens := request.opens (system.registry request.subject) system.blocked
    exact service_goTo_of_hidden (by rw [idle]; rfl) ((Phase.serves_eq opens.request_eq).trans other)
  | createThrows creating => exact service_ends_of_hidden (by rw [creating]; rfl) (Bool.and_false _)
  | createFinds creating =>
    exact service_goTo_of_hidden (by rw [creating]; exact Bool.and_false _) (Bool.and_false _)
  | @creates thread token tenantId requested size cells creating =>
    have moved : ((system.host tenantId size cells).goTo thread (.auditing
        ⟨token, .createTenant tenantId requested⟩ .allowed (.flag true))).service tenant address =
          (system.host tenantId size cells).service tenant address :=
      service_goTo_of_hidden (by rw [System.host, creating]; exact Bool.and_false _) (Bool.and_false _)
    exact moved.trans (service_host serving.address_lt tenantId size cells)
  | bindThrows binding => exact service_ends_of_hidden (by rw [binding]; rfl) (Bool.and_false _)
  | bindFinds binding | binds binding =>
    exact service_goTo_of_hidden (by rw [binding]; exact Bool.and_false _) (Bool.and_false _)
  | @resolve thread token order latencyNs resolving =>
    have other : (system.phases thread).serves tenant = false := by simpa [shows] using unseen
    have here : (system.phases thread).request = some ⟨token, .submit order⟩ := by
      rw [resolving]
      rfl
    exact service_goTo_of_hidden other ((Phase.serves_eq
      (ExecutionClient.opening_request _ _ _ _)).trans ((Phase.serves_eq here).symm.trans other))
  | invoke here operated | proceed here _ operated =>
    exact serving.operate_hidden (by rw [here]; rfl) (by simpa [shows] using unseen) operated
  | throws throwing operated =>
    exact serving.operate_hidden (Phase.target_of_throwing throwing) (by simpa [shows] using unseen) operated
  | @worker engine =>
    have apart : engine ≠ address := by simpa [shows] using unseen
    exact service_heap_of_ne apart _
  | @audit thread request outcome reply cycles auditing =>
    have other : (system.phases thread).serves tenant = false := by simpa [shows] using unseen
    refine service_goTo_of_hidden other ?_
    rw [auditing] at other
    exact other
  | @returns thread request reply returning =>
    have other : (system.phases thread).serves tenant = false := by simpa [shows] using unseen
    have here : (system.phases thread).request = some request := by rw [returning]; rfl
    exact service_ends_of_hidden here ((Phase.serves_eq here).symm.trans other)
  | drain | registryKeeps => rfl
  | registryCreates => exact service_host serving.address_lt _ _ _
  | removes =>
    exact service_removeTenant owned serving.registered fun same => keeps (congrArg Action.registryRemove same)
  | setLicenseRequired | setLicensed => cases unseen

end

theorem Serving.operate_seen {engine : Address} {operation : Operation} {move : Move Thread}
    {allocates : Bool} (serving : system.Serving tenant address)
    (target : (system.phases thread).target = some (request, engine, operation))
    (seen : (system.phases thread).serves tenant = true)
    (operated : system.operate thread request engine operation move allocates = some next) :
    (system.service tenant address).operate address thread request operation move allocates =
      some (next.service tenant address) := by
  have serves : request.serves tenant = true :=
    (Phase.serves_eq (Phase.request_of_target target)).symm.trans seen
  have registered := serving.wired.target target (Request.serves_iff.mp serves).1
  obtain rfl : engine = address := Option.some.inj (registered.symm.trans serving.registered)
  obtain ⟨hosted, after, phase, found, ran, rfl⟩ := operate_cases operated
  have still : phase.serves tenant = true := by
    rcases Hosted.operate_phase ran with ⟨reply, rfl⟩ | rfl | ⟨rfl, -⟩ <;> exact serves
  have moved : (system.goTo thread phase).service tenant engine =
      (system.service tenant engine).goTo thread phase := service_goTo_of_serves still
  have hosts : (system.service tenant engine).hosted = some hosted := found
  rw [Private.operate, hosts, Option.bind_some, ran, Option.map_some]
  dsimp only
  rw [← moved]
  simp only [service, replies, goTo, touch, update_self]

theorem Serving.seen {shown : Private.Action Thread} (serving : system.Serving tenant address)
    (stepped : system.step capacity action = some next) (seen : system.shows tenant address action = some shown) :
    (system.service tenant address).step address shown = some (next.service tenant address) := by
  -- A serving thread is shown where it stands.
  have stands {thread : Thread} {phase : Phase} (here : system.phases thread = phase)
      (serves : (system.phases thread).serves tenant = true) :
      (system.service tenant address).phases thread = phase :=
    (Phase.shown_of_serves serves).trans here
  cases step_cases stepped with
  | @call thread request idle =>
    obtain ⟨serves, ⟨⟩⟩ := Option.ite_none_right_eq_some.mp seen
    obtain ⟨own, operates⟩ := Request.serves_iff.mp serves
    have opens := request.opens (some address) system.blocked
    have phase : (system.service tenant address).phases thread = .idle := by
      change (system.phases thread).shown tenant = _
      rw [idle]
      rfl
    rw [Request.subject_of_operates operates, own, serving.registered]
    simp only [Private.step, phase]
    change _ = some ((system.goTo thread (request.opening (some address) system.blocked)).service tenant address)
    rw [service_goTo_of_serves ((Phase.serves_eq opens.request_eq).trans serves)]
    rfl
  | @resolve thread token order latencyNs resolving =>
    obtain ⟨serves, ⟨⟩⟩ := Option.ite_none_right_eq_some.mp seen
    have here : (system.phases thread).request = some ⟨token, .submit order⟩ := by
      rw [resolving]
      rfl
    have same := (Phase.serves_eq here).symm.trans serves
    have own : token.tenantId = tenant := (Request.serves_iff.mp same).1
    simp only [Private.step, stands resolving serves]
    rw [own, serving.bound, service_goTo_of_serves
      ((Phase.serves_eq (ExecutionClient.opening_request _ _ _ _)).trans same)]
  | @invoke thread request engine operation cycles allocates _ dispatching operated =>
    obtain ⟨serves, ⟨⟩⟩ := Option.ite_none_right_eq_some.mp seen
    simp only [Private.step, stands dispatching serves]
    exact serving.operate_seen (by rw [dispatching]; rfl) serves operated
  | @proceed thread request engine operation action _ operating proceeds operated =>
    obtain ⟨serves, ⟨⟩⟩ := Option.ite_none_right_eq_some.mp seen
    simp only [Private.step, stands operating serves, proceeds, ↓reduceIte]
    exact serving.operate_seen (by rw [operating]; rfl) serves operated
  | throws throwing operated =>
    obtain ⟨serves, ⟨⟩⟩ := Option.ite_none_right_eq_some.mp seen
    rw [Private.step, stands rfl serves, throwing]
    exact serving.operate_seen (Phase.target_of_throwing throwing) serves operated
  | @worker engine action hosted after own found ran =>
    obtain ⟨rfl, ⟨⟩⟩ := Option.ite_none_right_eq_some.mp seen
    have hosts : (system.service tenant engine).hosted = some hosted := found
    simp only [Private.step, own, ↓reduceIte, hosts, Option.bind_some, ran, Option.map_some]
    simp only [service, replies, update_self]
  | @audit thread request outcome reply cycles auditing =>
    obtain ⟨serves, ⟨⟩⟩ := Option.ite_none_right_eq_some.mp seen
    simp only [Private.step, stands auditing serves]
    rw [auditing] at serves
    have later : (Phase.returning request reply).serves tenant = true := serves
    exact congrArg some (service_goTo_of_serves later).symm
  | @returns thread request reply returning =>
    obtain ⟨serves, ⟨⟩⟩ := Option.ite_none_right_eq_some.mp seen
    simp only [Private.step, stands returning serves]
    rw [returning] at serves
    have same : request.serves tenant = true := serves
    have moved : (system.goTo thread .idle).service tenant address =
        (system.service tenant address).goTo thread .idle := service_goTo thread .idle
    rw [← moved]
    simp only [service, replies, ends, goTo, filter_append, filter_cons, same,
      ↓reduceIte, filter_nil, map_append, map_cons, map_nil]
  | setLicenseRequired | setLicensed =>
    cases seen
    rfl
  | createThrows | createFinds | creates | bindThrows | bindFinds | binds | drain | registryKeeps
  | registryCreates | removes => cases seen

theorem Serving.execute {start finish : System Thread} {history : List (Action Thread)}
    (serving : start.Serving tenant address) (keeps : ∀ action ∈ history, action ≠ .registryRemove tenant)
    (run : Lib.execute (System.step capacity) start history = some finish) : finish.Serving tenant address := by
  have path : Reaches (System.step capacity) (fun _ action => action ≠ .registryRemove tenant)
      start finish := execute_reaches_of_forall (fun action member _ => keeps action member) run
  exact path.invariant serving fun _ _ _ serving keeps stepped => serving.step keeps stepped

private theorem projects_service (capacity : Capacity) (tenant : UInt32) (address : Address) :
    Projects (step capacity) (shows tenant address) (Serving tenant address : System Thread → Prop)
      (fun action => action ≠ .registryRemove tenant) (service tenant address) (Private.step address) where
  kept := fun serving keeps stepped => serving.step keeps stepped
  hidden := fun serving keeps stepped unseen => serving.hidden keeps stepped unseen
  seen := fun serving _ stepped seen => serving.seen stepped seen

end

theorem tenant_noninterference [DecidableEq Thread] (capacity : Capacity)
    (entries : Nat → Entry Thread) (tenant : UInt32) (address : Address)
    (start left right : System Thread) (leftHistory rightHistory : List (Action Thread))
    (reached : Reaches (step capacity) Always (initial entries) start) (idle : ∀ thread, start.phases thread = .idle)
    (registered : start.registry tenant = some address) (bound : start.clients tenant = some address)
    (leftKeeps : ∀ action ∈ leftHistory, action ≠ .registryRemove tenant)
    (rightKeeps : ∀ action ∈ rightHistory, action ≠ .registryRemove tenant)
    (leftRun : execute (step capacity) start leftHistory = some left)
    (rightRun : execute (step capacity) start rightHistory = some right)
    (same : observed (step capacity) (shows tenant address) start leftHistory =
      observed (step capacity) (shows tenant address) start rightHistory) :
    left.replies tenant = right.replies tenant ∧ left.heap address = right.heap address ∧
      left.registry tenant = right.registry tenant ∧ left.clients tenant = right.clients tenant := by
  have serving : start.Serving tenant address := by
    refine ⟨⟨owned_of_reaches reached, ?_, ?_⟩, registered, bound⟩
    · intro other found
      rw [← found, registered, bound]
    · intro thread
      rw [idle thread]
      trivial
  have agree := (projects_service capacity tenant address).agree serving leftKeeps rightKeeps leftRun rightRun same
  have leftServing := serving.execute leftKeeps leftRun
  have rightServing := serving.execute rightKeeps rightRun
  refine ⟨congrArg Private.replies agree, congrArg Private.hosted agree, ?_, ?_⟩
  · rw [leftServing.registered, rightServing.registered]
  · rw [leftServing.bound, rightServing.bound]

def sampleStart : System Unit :=
  finalState (step sampleCapacity) (initial fun _ => sampleEntry) sampleSetup

def sampleRecord : List (Action Unit) :=
  [.call () ⟨⟨7, 2, .operator⟩, .dispatch (.record ⟨1, 2, 3⟩)⟩, .invoke () 9 true,
    .proceed () (.ring (.caller ())), .proceed () (.ring (.caller ())),
    .proceed () (.ring (.caller ())), .proceed () (.ring (.caller ())),
    .proceed () (.ring (.caller ())), .proceed () (.resume () 0), .audit () 10, .finish ()]

def sampleForeign : List (Action Unit) :=
  [.call () ⟨⟨9, 3, .admin⟩, .createTenant 8 4⟩, .create () (some sampleCells), .audit () 1,
    .finish (), .call () ⟨⟨9, 3, .admin⟩, .createTenant 7 2⟩, .create () none, .audit () 2,
    .finish ()]

theorem tenant_noninterference_second_tenant : ∃ left right : System Unit,
      execute (step sampleCapacity) sampleStart sampleRecord = some left ∧
      execute (step sampleCapacity) sampleStart (sampleForeign ++ sampleRecord) = some right ∧
      left.replies 7 = right.replies 7 ∧ left.heap 0 = right.heap 0 ∧
      left.registry 7 = right.registry 7 ∧ left.clients 7 = right.clients 7 := by
  have reached : Reaches (step sampleCapacity) Always (initial fun _ => sampleEntry) sampleStart :=
    finalState_reaches (by decide)
  obtain ⟨left, leftRun⟩ := Option.isSome_iff_exists.mp
    (show (execute (step sampleCapacity) sampleStart sampleRecord).isSome = true by decide)
  obtain ⟨right, rightRun⟩ := Option.isSome_iff_exists.mp
    (show (execute (step sampleCapacity) sampleStart (sampleForeign ++ sampleRecord)).isSome = true by decide)
  have keeps : ∀ action ∈ sampleForeign ++ sampleRecord, action ≠ .registryRemove 7 := by
    intro action member same
    rw [same] at member
    simp [sampleForeign, sampleRecord] at member
  refine ⟨left, right, leftRun, rightRun, ?_⟩
  exact tenant_noninterference sampleCapacity _ 7 0 sampleStart left right sampleRecord
    (sampleForeign ++ sampleRecord) reached (fun () => by decide) (by decide) (by decide)
    (fun action member => keeps action (mem_append_right _ member)) keeps leftRun rightRun rfl

end System

end AnimusCore.Security

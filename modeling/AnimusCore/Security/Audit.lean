import AnimusCore.Security.Orders
import Mathlib.Data.List.Forall2

/-! The audit trails. A call that returns has appended one event, which says what the call
did; what the trail loses is accounted for. A call that ends in an exception appends
nothing, and one that asks for more than `2 ^ 63` cells does not return. -/

set_option autoImplicit false

namespace AnimusCore.Security

open Lib Lib.Ring Function List

/-- The role permits the call, and it got to what it is about. -/
def Request.Granted (request : Request) (account : Account) : Prop :=
  request.allowed = true ∧
    match request.call with
    | .dispatch _ | .submit _ => account.touched ≠ []
    | .createTenant _ _ => True
    | .createExecutionTenant _ => account.existed = true

/-- The outcome tells what happened, and only engines of the call's subject were touched. -/
structure Justified (created : List UInt32) (request : Request) (account : Account)
    (outcome : AuditOutcome) : Prop where
  allowed_iff : outcome = .allowed ↔ request.Granted account
  own : ∀ address ∈ account.touched, created[address]? = some request.subject
  untouched : outcome = .denied → account.touched = []

structure Describes (created : List UInt32) (call : Request × Account) (event : AuditEvent) : Prop where
  tenant : event.tenantId = call.1.token.tenantId
  principal : event.principalId = call.1.token.principalId
  permission : event.permission = call.1.call.permission
  outcome : Justified created call.1 call.2 event.outcome

/-- The account agrees with how far the call has come. -/
def Phase.Accounted (created : List UInt32) (account : Account) : Phase → Prop
  | .idle | .returning _ _ => True
  | .creating token tenantId requested =>
    Request.allowed ⟨token, .createTenant tenantId requested⟩ = true ∧ account.touched = [] ∧
      requested.toNat ≤ 2 ^ 63
  | .binding token tenantId _ =>
    Request.allowed ⟨token, .createExecutionTenant tenantId⟩ = true ∧ account.touched = [] ∧ account.existed = true
  | .resolving token order =>
    Request.allowed ⟨token, .submit order⟩ = true ∧ account.touched = []
  | .dispatching request _ _ => request.allowed = true ∧ account.touched = []
  | .operating request _ _ => request.allowed = true ∧ account.touched ≠ [] ∧
      ∀ address ∈ account.touched, created[address]? = some request.subject
  | .auditing request outcome _ => Justified created request account outcome

/-- The call is in the code of its gateway, not inside an engine. -/
def Phase.InGateway : Phase → Prop
  | .creating _ _ _ | .binding _ _ _ | .resolving _ _ | .auditing _ _ _ | .returning _ _ => True
  | .idle | .dispatching _ _ _ | .operating _ _ _ => False

def Phase.current (gateway : Gateway) (account : Account) : Phase → List (Request × Account)
  | .returning request _ =>
    if request.call.gateway = gateway then [(request, account)] else []
  | _ => []

section

variable {created later : List UInt32} {request : Request} {account : Account} {outcome : AuditOutcome}

theorem Justified.mono (grown : created <+: later) (justified : Justified created request account outcome) :
    Justified later request account outcome where
  allowed_iff := justified.allowed_iff
  own := fun address member => getElem?_of_isPrefix grown (justified.own address member)
  untouched := justified.untouched

theorem Describes.mono {call : Request × Account} {event : AuditEvent}
    (grown : created <+: later) (describes : Describes created call event) : Describes later call event where
  tenant := describes.tenant
  principal := describes.principal
  permission := describes.permission
  outcome := describes.outcome.mono grown

variable {phase : Phase}

theorem Phase.Accounted.mono (grown : created <+: later)
    (accounted : phase.Accounted created account) : phase.Accounted later account := by
  cases phase with
  | operating =>
    exact ⟨accounted.1, accounted.2.1, fun address member =>
      getElem?_of_isPrefix grown (accounted.2.2 address member)⟩
  | auditing => exact Justified.mono grown accounted
  | idle | returning | creating | binding | resolving | dispatching => exact accounted

theorem Justified.denied (untouched : account.touched = []) (refused : ¬ request.Granted account) :
    Justified created request account .denied where
  allowed_iff := ⟨fun same => (nomatch same), fun granted => absurd granted refused⟩
  own := by
    rw [untouched]
    exact fun _ member => nomatch member
  untouched := fun _ => untouched

theorem Justified.allowed (granted : request.Granted account)
    (own : ∀ address ∈ account.touched, created[address]? = some request.subject) :
    Justified created request account .allowed where
  allowed_iff := ⟨fun _ => granted, fun _ => rfl⟩
  own := own
  untouched := fun same => nomatch same

theorem Request.not_granted_of_untouched (operates : request.call.operates = true)
    (untouched : account.touched = []) : ¬ request.Granted account := by
  rcases request with ⟨token, call⟩
  cases call with
  | dispatch | submit => exact fun granted => granted.2 untouched
  | createTenant | createExecutionTenant => cases operates

theorem Request.granted_of_touched (operates : request.call.operates = true) (allowed : request.allowed = true)
    (touched : account.touched ≠ []) : request.Granted account := by
  rcases request with ⟨token, call⟩
  cases call with
  | dispatch | submit => exact ⟨allowed, touched⟩
  | createTenant | createExecutionTenant => cases operates

section
variable {registered : Option Address} (opens : request.Opens registered phase)
include opens

theorem Request.Opens.accounted
    (sized : ∀ tenantId requested, request.call = .createTenant tenantId requested → requested.toNat ≤ 2 ^ 63) :
    phase.Accounted created { existed := registered.isSome } := by
  rcases request with ⟨token, call⟩
  cases opens with
  | unauthorized refused =>
    refine Justified.denied rfl fun granted => ?_
    rw [granted.1] at refused
    cases refused
  | unregistered absent other =>
    refine Justified.denied rfl fun granted => ?_
    cases call with
    | dispatch | submit => exact granted.2 rfl
    | createTenant => exact other _ _ rfl
    | createExecutionTenant =>
      subst absent
      cases granted.2
  | unlicensed same =>
    cases same
    exact Justified.denied rfl (not_granted_of_untouched rfl rfl)
  | dispatching allowed => exact ⟨allowed, rfl⟩
  | creating allowed same =>
    cases same
    exact ⟨allowed, rfl, sized _ _ rfl⟩
  | resolving allowed same =>
    cases same
    exact ⟨allowed, rfl⟩
  | binding allowed found same =>
    cases same
    exact ⟨allowed, rfl, by rw [found]; rfl⟩

theorem Request.Opens.current_eq (gateway : Gateway) : phase.current gateway account = [] := by
  cases opens <;> rfl

end

theorem ExecutionClient.opening_accounted {token : AccessToken} {order : OrderRequest}
    (allowed : Request.allowed ⟨token, .submit order⟩ = true) (untouched : account.touched = [])
    (client : Option Address) (latencyNs : UInt64) :
    (ExecutionClient.opening token order client latencyNs).Accounted created account := by
  cases client with
  | none => exact Justified.denied untouched (Request.not_granted_of_untouched rfl untouched)
  | some engine => exact ⟨allowed, untouched⟩

end

namespace System

variable {Thread : Type} [DecidableEq Thread]

def audited (system : System Thread) (thread : Thread) (gateway : Gateway) : List (Request × Account) :=
  ((system.returned.filter fun returned =>
      returned.thread = thread ∧ returned.request.call.gateway = gateway).map
    fun returned => (returned.request, returned.account)) ++
    (system.phases thread).current gateway (system.accounts thread)

def eventsBy (system : System Thread) (thread : Thread) (gateway : Gateway) : List AuditEvent :=
  ((system.logs gateway).appended.filter fun entry => entry.caller = thread).map Entry.event

structure Audited (system : System Thread) : Prop where
  owned : system.Owned
  phases : ∀ thread, (system.phases thread).Accounted system.created (system.accounts thread)
  events : ∀ thread gateway, List.Forall₂ (Describes system.created)
    (system.audited thread gateway) (system.eventsBy thread gateway)

variable {system next : System Thread} {thread : Thread}

theorem Audited.initial (entries : Nat → Entry Thread) : (initial entries).Audited where
  owned := .initial entries
  phases := fun _ => trivial
  events := fun _ _ => .nil

section
variable (audited : system.Audited)
include audited

theorem Audited.frame (owned : next.Owned) (grown : system.created <+: next.created)
    (phases : next.phases = system.phases) (accounts : next.accounts = system.accounts)
    (returned : next.returned = system.returned)
    (logs : ∀ gateway, (next.logs gateway).appended = (system.logs gateway).appended) : next.Audited where
  owned := owned
  phases := fun other => by
    rw [phases, accounts]
    exact (audited.phases other).mono grown
  events := fun other gateway => by
    have before := audited.events other gateway
    simp only [System.audited, eventsBy, phases, accounts, returned, logs] at before ⊢
    exact before.imp fun _ _ describes => describes.mono grown

theorem Audited.move (owned : next.Owned) {phase : Phase} {account : Account}
    (grown : system.created <+: next.created) (phases : next.phases = update system.phases thread phase)
    (accounts : next.accounts = update system.accounts thread account)
    (returned : next.returned = system.returned) (logs : next.logs = system.logs)
    (before : ∀ gateway, (system.phases thread).current gateway (system.accounts thread) = [])
    (after : ∀ gateway, phase.current gateway account = [])
    (accounted : phase.Accounted next.created account) : next.Audited where
  owned := owned
  phases := fun other => by
    rw [phases, accounts]
    by_cases same : other = thread
    · rw [same, update_self, update_self]
      exact accounted
    · rw [update_of_ne same, update_of_ne same]
      exact (audited.phases other).mono grown
  events := fun other gateway => by
    have earlier := audited.events other gateway
    have same : next.audited other gateway = system.audited other gateway := by
      simp only [System.audited, phases, accounts, returned]
      by_cases same : other = thread
      · rw [same, update_self, update_self, before, after]
      · rw [update_of_ne same, update_of_ne same]
    rw [same, eventsBy, logs]
    exact earlier.imp fun _ _ describes => describes.mono grown

theorem Audited.moveOn (owned : next.Owned) {phase : Phase} (created : next.created = system.created)
    (phases : next.phases = update system.phases thread phase) (accounts : next.accounts = system.accounts)
    (returned : next.returned = system.returned) (logs : next.logs = system.logs)
    (before : ∀ gateway, (system.phases thread).current gateway (system.accounts thread) = [])
    (after : ∀ gateway, phase.current gateway (system.accounts thread) = [])
    (accounted : phase.Accounted system.created (system.accounts thread)) : next.Audited := by
  refine audited.move owned (created ▸ prefix_rfl) phases ?_ returned logs before after ?_
  · rw [accounts, update_eq_self]
  · rw [created]
    exact accounted

theorem Audited.returns {request : Request} {reply : Reply}
    (returning : system.phases thread = .returning request reply) : (system.ends thread request reply).Audited where
  owned := audited.owned.ends thread request reply
  phases := (forall_update_iff system.phases fun other phase =>
    phase.Accounted system.created (system.accounts other)).mpr ⟨trivial, fun other _ => audited.phases other⟩
  events := fun other gateway => by
    have same : (system.ends thread request reply).audited other gateway = system.audited other gateway := by
      simp only [System.audited, ends, goTo, filter_append, map_append, append_assoc, append_cancel_left_eq]
      by_cases same : other = thread
      · subst same
        rw [update_self, returning]
        by_cases here : request.call.gateway = gateway <;>
          simp [Phase.current, here]
      · rw [update_of_ne same]
        simp [Ne.symm same]
    rw [same]
    exact audited.events other gateway

end

private theorem eventsBy_append {capacity : Capacity} (gateway : Gateway) (event : AuditEvent)
    (logs : next.logs = update system.logs gateway ((system.logs gateway).append capacity ⟨event, thread⟩))
    (other : Thread) (log : Gateway) : next.eventsBy other log = system.eventsBy other log ++
      if other = thread ∧ gateway = log then [event] else [] := by
  rw [eventsBy, eventsBy, logs]
  by_cases here : log = gateway
  · subst here
    by_cases same : thread = other
    · simp [same]
    · simp [same, Ne.symm same]
  · rw [update_of_ne here, if_neg fun both => here both.2.symm, append_nil]

theorem Audited.audit (audited : system.Audited) {capacity : Capacity} {cycles : UInt64}
    (stepped : system.step capacity (.audit thread cycles) = some next) : next.Audited := by
  have owned := audited.owned.step stepped
  cases step_cases stepped with
  | @audit _ request outcome reply _ auditing =>
    have justified := audited.phases thread
    rw [auditing] at justified
    refine ⟨owned, ?_, ?_⟩
    · exact (forall_update_iff system.phases fun other phase =>
        phase.Accounted system.created (system.accounts other)).mpr ⟨trivial, fun other _ => audited.phases other⟩
    · intro other gateway
      -- The call joins the audited ones where its event joins the trail.
      have calls : System.audited
          { system.goTo thread (.returning request reply) with
            logs := update system.logs request.call.gateway ((system.logs request.call.gateway).append capacity
                ⟨⟨cycles, request.token.tenantId, request.token.principalId,
                  request.call.permission, outcome⟩, thread⟩) } other gateway =
          system.audited other gateway ++
            if other = thread ∧ request.call.gateway = gateway then
              [(request, system.accounts thread)] else [] := by
        simp only [System.audited, goTo, append_assoc, append_cancel_left_eq]
        by_cases same : other = thread
        · subst same
          simp [auditing, Phase.current]
        · simp [same]
      rw [calls, eventsBy_append _ _ rfl]
      refine rel_append (audited.events other gateway) ?_
      split
      case isTrue => exact .cons ⟨rfl, rfl, rfl, justified⟩ .nil
      case isFalse => exact .nil

theorem Audited.operate (audited : system.Audited) {request : Request} {address : Address} {operation : Operation}
    {action : Engine.Action Thread} {allocates : Bool}
    (target : (system.phases thread).target = some (request, address, operation)) (allowed : request.allowed = true)
    (touched : ∀ engine ∈ (system.accounts thread).touched, system.created[engine]? = some request.subject)
    (before : ∀ gateway, (system.phases thread).current gateway (system.accounts thread) = [])
    (operated : system.operate thread request address operation (.steps action) allocates = some next) :
    next.Audited := by
  have own := audited.owned.target target
  have owned := audited.owned.operate target operated
  obtain ⟨hosted, after, phase, -, ran, rfl⟩ := operate_cases operated
  have touchedOwn : ∀ engine ∈ (system.accounts thread).touched ++ [address],
      system.created[engine]? = some request.subject := by
    intro engine member
    rcases mem_append.mp member with earlier | last
    · exact touched engine earlier
    · rw [mem_singleton.mp last, Request.subject_of_operates own.1]
      exact own.2
  have some : (system.accounts thread).touched ++ [address] ≠ [] := by simp
  refine audited.move owned prefix_rfl rfl rfl rfl rfl before ?_ ?_
  · rcases Hosted.operate_phase ran with ⟨reply, rfl⟩ | rfl | ⟨-, throws⟩
    · exact fun _ => rfl
    · exact fun _ => rfl
    · exact absurd rfl (throws action)
  · rcases Hosted.operate_phase ran with ⟨reply, rfl⟩ | rfl | ⟨-, throws⟩
    · exact Justified.allowed (Request.granted_of_touched own.1 allowed some) touchedOwn
    · exact ⟨allowed, some, touchedOwn⟩
    · exact absurd rfl (throws action)

end System

/-- No call ends in an exception, and none asks for a ring that its constructor cannot
size. -/
def Action.regular {Thread : Type} : Action Thread → Bool
  | .call _ ⟨_, .createTenant _ requested⟩ => decide (requested.toNat ≤ 2 ^ 63)
  | .create _ allocated => allocated.isSome
  | .bind _ allocates => allocates
  | .throws _ => false
  | _ => true

namespace System

variable {Thread : Type} [DecidableEq Thread] {system next : System Thread} {thread : Thread}

variable {capacity : Capacity}

theorem Audited.step {action : Action Thread} (audited : system.Audited) (regular : action.regular = true)
    (stepped : system.step capacity action = some next) : next.Audited := by
  have owned := audited.owned.step stepped
  have phases := audited.phases
  cases step_cases stepped with
  | @call thread request idle =>
    have opens := request.opens (system.registry request.subject) system.blocked
    refine audited.move owned prefix_rfl rfl rfl rfl rfl (fun _ => by rw [idle]; rfl) opens.current_eq
      (opens.accounted fun tenantId requested same => ?_)
    obtain ⟨token, call⟩ := request
    subst same
    exact of_decide_eq_true regular
  | createThrows | bindThrows | throws => cases regular
  | @createFinds thread token tenantId requested _ creating =>
    have here := phases thread
    rw [creating] at here
    refine audited.moveOn owned rfl rfl rfl rfl rfl (fun _ => by rw [creating]; rfl)
      (fun _ => rfl) (Justified.allowed ⟨here.1, trivial⟩ ?_)
    rw [here.2.1]
    exact fun _ member => nomatch member
  | @creates thread token tenantId requested size cells creating absent =>
    have here := phases thread
    rw [creating] at here
    refine audited.move owned (prefix_append _ _) rfl rfl rfl rfl
      (fun _ => by rw [creating]; rfl) (fun _ => rfl) (Justified.allowed ⟨here.1, trivial⟩ ?_)
    intro address member
    rw [show (system.host tenantId size cells).accounts thread = system.accounts thread from rfl,
      here.2.1, nil_append, mem_singleton] at member
    rw [member]
    exact List.getElem?_concat_length
  | @bindFinds thread token tenantId engine _ binding
  | @binds thread token tenantId engine binding =>
    have here := phases thread
    rw [binding] at here
    refine audited.moveOn owned rfl rfl rfl rfl rfl (fun _ => by rw [binding]; rfl)
      (fun _ => rfl) (Justified.allowed ⟨here.1, here.2.2⟩ ?_)
    rw [here.2.1]
    exact fun _ member => nomatch member
  | @resolve thread token order latencyNs resolving =>
    have here := phases thread
    rw [resolving] at here
    exact audited.moveOn owned rfl rfl rfl rfl rfl (fun _ => by rw [resolving]; rfl)
      (fun _ => by cases system.clients token.tenantId <;> rfl)
      (ExecutionClient.opening_accounted here.1 here.2 _ _)
  | @invoke thread request address operation _ _ _ dispatching operated =>
    have here := phases thread
    rw [dispatching] at here
    refine audited.operate (by rw [dispatching]; rfl) here.1 ?_ (fun _ => by rw [dispatching]; rfl) operated
    rw [here.2]
    exact fun _ member => nomatch member
  | @proceed thread request address operation _ _ operating _ operated =>
    have here := phases thread
    rw [operating] at here
    exact audited.operate (by rw [operating]; rfl) here.1 here.2.2 (fun _ => by rw [operating]; rfl) operated
  | audit => exact audited.audit stepped
  | returns returning => exact audited.returns returning
  | worker | setLicenseRequired | setLicensed =>
    exact audited.frame owned prefix_rfl rfl rfl rfl fun _ => rfl
  | @drain gateway hasOut maxCount =>
    exact audited.frame owned prefix_rfl rfl rfl rfl ((forall_update_iff system.logs fun log trail =>
        trail.appended = (system.logs log).appended).mpr ⟨BoundedAuditLog.drain_appended _ _ _, fun _ _ => rfl⟩)
  | registryKeeps => exact audited
  | registryCreates =>
    exact audited.frame owned (prefix_append _ _) rfl rfl rfl fun _ => rfl
  | @removes tenantId =>
    obtain ⟨_, _, removed⟩ := system.exists_removeTenant tenantId
    rw [removed] at owned ⊢
    exact audited.frame owned prefix_rfl rfl rfl rfl fun _ => rfl

private theorem log_step {action : Action Thread} (stepped : system.step capacity action = some next)
    (gateway : Gateway) : next.logs gateway = system.logs gateway ∨ ∃ appendOrDrain,
      (system.logs gateway).step capacity appendOrDrain = some (next.logs gateway) := by
  -- Only one of the trails is used.
  have used {other : Gateway} {log : BoundedAuditLog (Entry Thread)}
      {appendOrDrain : BoundedAuditLog.Action (Entry Thread)}
      (logged : (system.logs other).step capacity appendOrDrain = some log) :
      update system.logs other log gateway = system.logs gateway ∨ ∃ appendOrDrain,
        (system.logs gateway).step capacity appendOrDrain = some (update system.logs other log gateway) := by
    by_cases same : gateway = other
    · subst same
      rw [update_self]
      exact .inr ⟨_, logged⟩
    · exact .inl (update_of_ne same _ _)
  cases step_cases stepped with
  | audit => exact @used _ _ (.append _) rfl
  | @drain _ hasOut maxCount => exact @used _ _ (.drain hasOut maxCount) rfl
  | invoke _ operated | proceed _ _ operated | throws _ operated =>
    obtain ⟨_, _, _, -, -, rfl⟩ := operate_cases operated
    exact .inl rfl
  | @removes tenantId =>
    obtain ⟨_, _, removed⟩ := system.exists_removeTenant tenantId
    rw [removed]
    exact .inl rfl
  | _ => exact .inl rfl

private theorem log_reaches {allowed : System Thread → Action Thread → Prop} {entries : Nat → Entry Thread}
    (run : Reaches (step capacity) allowed (initial entries) system) (gateway : Gateway) :
    Reaches (BoundedAuditLog.step capacity) Always { entries } (system.logs gateway) := by
  induction run with
  | refl => exact .refl
  | step _ _ stepped ih =>
    rcases log_step stepped gateway with same | ⟨appendOrDrain, logged⟩
    · rw [same]
      exact ih
    · exact ih.trans (.single trivial logged)

end System

def Action.caller {Thread : Type} : Action Thread → Option Thread
  | .call thread _ | .create thread _ | .bind thread _ | .resolve thread _ | .invoke thread _ _
  | .proceed thread _ | .throws thread | .audit thread _ | .finish thread => some thread
  | .worker _ _ | .drain _ _ _ | .registryCreate _ _ _ | .registryRemove _
  | .setLicenseRequired _ | .setLicensed _ => none

namespace System

variable {Thread : Type} [DecidableEq Thread] {system next : System Thread} {thread : Thread}

/-- An engine that a call's step creates or changes is in the call's account. -/
theorem touched_of_heap_ne {capacity : Capacity} {action : Action Thread} {address : Address}
    (stepped : system.step capacity action = some next) (own : action.caller = some thread)
    (changed : next.heap address ≠ system.heap address) : address ∈ (next.accounts thread).touched := by
  have operates {request : Request} {engine : Address} {operation : Operation}
      {move : Move Thread} {allocates : Bool}
      (operated : system.operate thread request engine operation move allocates = some next) :
      address ∈ (next.accounts thread).touched := by
    obtain ⟨_, after, _, -, -, rfl⟩ := operate_cases operated
    have same : address = engine := by
      by_contra different
      exact changed (update_of_ne different _ _)
    simp [touch, same]
  cases step_cases stepped with
  | creates =>
    cases own
    have same : address = system.created.length := by
      by_contra different
      exact changed (update_of_ne different _ _)
    simp [touch, goTo, same]
  | invoke _ operated | proceed _ _ operated | throws _ operated =>
    cases own
    exact operates operated
  | call | createThrows | createFinds | bindThrows | bindFinds | binds | resolve | audit
  | returns => exact absurd rfl changed
  | worker | drain | registryKeeps | registryCreates | removes | setLicenseRequired
  | setLicensed => cases own

private theorem goes_on (audited : system.Audited) (capacity : Capacity) (inGateway : (system.phases thread).InGateway) :
    ∃ action, action.caller = some thread ∧ action.regular = true ∧ (system.step capacity action).isSome = true := by
  cases here : system.phases thread with
  | creating token tenantId requested =>
    have accounted := audited.phases thread
    rw [here] at accounted
    have rounded : (RingBuffer.roundUpPow2 requested.toNat).isSome = true :=
      RingBuffer.roundUpFrom_isSome accounted.2.2 (by decide) (Nat.zero_le 63)
    let cells : Cells Thread := ⟨fun _ => ⟨⟨0, 0, 0, 0⟩, thread, (0, 0)⟩, fun _ => ⟨0, 0, 0, 0, 0, 0⟩⟩
    refine ⟨.create thread (some cells), rfl, rfl, ?_⟩
    cases registered : system.registry tenantId with
    | none => simp only [step, create, here, createTenant, registered, Option.isSome_map, rounded]
    | some engine =>
      simp only [step, create, here, createTenant, registered, Option.map_some, Option.isSome_some]
  | binding token tenantId engine =>
    refine ⟨.bind thread true, rfl, rfl, ?_⟩
    cases bound : system.clients tenantId <;>
      simp only [step, bind, here, bound, Option.isSome_some]
  | resolving token order =>
    exact ⟨.resolve thread 0, rfl, rfl, by
      simp only [step, resolve, here, Option.isSome_some]⟩
  | auditing request outcome reply =>
    exact ⟨.audit thread 0, rfl, rfl, by simp only [step, audit, here, Option.isSome_some]⟩
  | returning request reply =>
    exact ⟨.finish thread, rfl, rfl, by simp only [step, here, Option.isSome_some]⟩
  | idle | dispatching | operating =>
    rw [here] at inGateway
    cases inGateway

/-- Each audited call of each thread has one event, which describes it; a call goes on to
its append; only the account's engines change; the trails are accounted for. -/
structure AuditExact (capacity : Capacity) (entries : Nat → Entry Thread) (system : System Thread) : Prop where
  events : ∀ thread gateway, List.Forall₂ (Describes system.created)
    (system.audited thread gateway) (system.eventsBy thread gateway)
  goesOn : ∀ thread, (system.phases thread).InGateway → ∃ action,
    action.caller = some thread ∧ action.regular = true ∧ (system.step capacity action).isSome = true
  touched : ∀ action next thread address, system.step capacity action = some next →
    action.caller = some thread → next.heap address ≠ system.heap address →
    address ∈ (next.accounts thread).touched
  accounts : ∀ gateway, ∃ lost, BoundedAuditLog.Accounts capacity { entries } (system.logs gateway) lost

theorem audit_complete_and_exact (capacity : Capacity) (entries : Nat → Entry Thread) (system : System Thread)
    (run : Reaches (step capacity) (fun _ action => action.regular = true) (initial entries) system)
    (fits : ∀ gateway, (system.logs gateway).appended.length < wordSize) : system.AuditExact capacity entries := by
  have audited : system.Audited := run.invariant (.initial entries) fun _ _ _ audited regular stepped =>
      audited.step regular stepped
  constructor
  · exact audited.events
  · intro thread inGateway
    exact goes_on audited capacity inGateway
  · intro action next thread address stepped own changed
    exact touched_of_heap_ne stepped own changed
  · intro gateway
    exact BoundedAuditLog.exists_accounts (log_reaches run gateway) (fits gateway)

def sampleDenied : List (Action Unit) :=
  [.call () ⟨⟨7, 2, .viewer⟩, .dispatch .startPersistence⟩, .audit () 2, .finish ()]

def sampleTrail : List (Action Unit) :=
  sampleSetup ++ [.call () ⟨sampleAdmin, .dispatch (.addRule ⟨1, 2, 3, 0, 4⟩)⟩, .invoke () 0 true,
    .audit () 1, .finish ()] ++ sampleDenied ++ sampleDenied ++ sampleDenied ++ sampleDenied ++
    [.drain .telemetry true 2]

theorem audit_complete_and_exact_lossy :
    ∃ system : System Unit, Reaches (step sampleCapacity) (fun _ action => action.regular = true)
      (initial fun _ => sampleEntry) system ∧
      (system.logs .telemetry).appended.map (fun entry => entry.event.outcome) =
        [.allowed, .denied, .denied, .denied, .denied] ∧
      (system.logs .telemetry).dropped = 1 ∧ (system.logs .telemetry).drained.length = 2 ∧
      system.AuditExact sampleCapacity fun _ => sampleEntry := by
  have executed : (executeIf (step sampleCapacity) (fun _ => Action.regular) (initial fun _ => sampleEntry)
      sampleTrail).any (fun system => decide ((∀ gateway ∈ [Gateway.telemetry, .execution],
        (system.logs gateway).appended.length < wordSize) ∧
        (system.logs .telemetry).appended.map (fun entry => entry.event.outcome) =
          [.allowed, .denied, .denied, .denied, .denied] ∧
        (system.logs .telemetry).dropped = 1 ∧ (system.logs .telemetry).drained.length = 2)) = true := by decide
  obtain ⟨system, run, found⟩ := exists_reaches_of_executeIf (fun _ _ regular => regular) executed
  obtain ⟨fits, outcomes, dropped, drained⟩ := of_decide_eq_true found
  refine ⟨system, run, outcomes, dropped, drained, audit_complete_and_exact sampleCapacity _ system run ?_⟩
  exact fun gateway => fits gateway (by cases gateway <;> simp)

/-- No memory can hold `2 ^ 62` cells, and the system may have no thread left: the
exception leaves the call without an event. -/
theorem audit_misses_thrown_calls :
    (∃ system : System Unit, Reaches (step sampleCapacity) Always (initial fun _ => sampleEntry) system ∧
      system.returned.map Return.request = [⟨sampleAdmin, .createTenant 8 0x4000000000000000⟩] ∧
      system.phases () = .idle ∧ (system.logs .telemetry).appended = []) ∧
    ∃ system : System Unit, Reaches (step sampleCapacity) Always (initial fun _ => sampleEntry) system ∧
      system.returned.map Return.request = [⟨sampleAdmin, .dispatch .startPersistence⟩] ∧
      system.phases () = .idle ∧ (system.logs .telemetry).appended = [] := by
  constructor
  · have executed : (execute (step sampleCapacity) (initial fun _ => sampleEntry)
        [.call () ⟨sampleAdmin, .createTenant 8 0x4000000000000000⟩, .create () none]).any
          (fun system => decide (system.returned.map Return.request =
            [⟨sampleAdmin, .createTenant 8 0x4000000000000000⟩] ∧ system.phases () = .idle ∧
              (system.logs .telemetry).appended = [])) = true := by decide
    obtain ⟨system, run, found⟩ := exists_reaches_of_execute executed
    exact ⟨system, run, of_decide_eq_true found⟩
  · have executed : (execute (step sampleCapacity) (initial fun _ => sampleEntry)
        [.registryCreate 7 4 (some sampleCells), .call () ⟨sampleAdmin, .dispatch .startPersistence⟩,
          .invoke () 0 true, .proceed () .control, .proceed () .control, .throws (), .finish ()]).any
          (fun system => decide (system.returned.map Return.request =
            [⟨sampleAdmin, .dispatch .startPersistence⟩] ∧ system.phases () = .idle ∧
              (system.logs .telemetry).appended = [])) = true := by decide
    obtain ⟨system, run, found⟩ := exists_reaches_of_execute executed
    exact ⟨system, run, of_decide_eq_true found⟩

end System

end AnimusCore.Security

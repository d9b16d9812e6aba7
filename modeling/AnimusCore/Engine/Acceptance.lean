import AnimusCore.Engine.Roles

/-! The records of a thread in ring-position order are the events its calls reported, in
call order, followed by those of the call it is in. -/

set_option autoImplicit false

namespace AnimusCore.Engine

open RingBuffer Function

section

variable {Thread : Type}

def View.records (view : View Thread) : List (Record Thread) :=
  view.ring.claims.map Prod.snd

/-- The push in this phase has claimed its position. -/
def counted {T : Type} : Phase T → Nat
  | .claimed _ _ | .pushed _ => 1
  | _ => 0

/-- The events of the call a thread is in that have claimed a position. -/
def View.inFlight (view : View Thread) (thread : Thread) : List RawEvent :=
  match view.callers thread with
  | .recording events pushed _ =>
    events.take (pushed + counted (view.ring.phases (.caller thread)))
  | _ => []

theorem inFlight_of_recording {view : View Thread} {thread : Thread} {events : List RawEvent} {pushed : Nat}
    {began : Nat × Nat} (recording : view.callers thread = .recording events pushed began) :
    view.inFlight thread = events.take (pushed + counted (view.ring.phases (.caller thread))) := by
  rw [View.inFlight, recording]

variable [DecidableEq Thread]

def recordedBy (records : List (Record Thread)) (thread : Thread) : List RawEvent :=
  (records.filter fun record => record.caller = thread).map Record.event

/-- The events that the returned calls of a thread reported as recorded. -/
def accepted (calls : List (Call Thread)) (thread : Thread) : List RawEvent :=
  (calls.filter fun call => call.thread = thread).flatMap fun call =>
    call.events.take call.pushed

theorem recordedBy_append (first second : List (Record Thread)) (thread : Thread) :
    recordedBy (first ++ second) thread = recordedBy first thread ++ recordedBy second thread := by
  rw [recordedBy, List.filter_append, List.map_append]
  rfl

private theorem recordedBy_singleton {record : Record Thread} {thread : Thread} :
    recordedBy [record] thread = if record.caller = thread then [record.event] else [] := by
  by_cases own : record.caller = thread <;> simp [recordedBy, own]

private theorem accepted_concat {calls : List (Call Thread)} {call : Call Thread} {thread : Thread} :
    accepted (calls ++ [call]) thread = accepted calls thread ++
      if call.thread = thread then call.events.take call.pushed else [] := by
  by_cases own : call.thread = thread <;> simp [accepted, List.filter_append, own]

def Accepts (view : View Thread) : Prop :=
  ∀ thread, recordedBy view.records thread = accepted view.calls thread ++ view.inFlight thread

end

variable {Thread : Type} [DecidableEq Thread] {view after : View Thread} {action : Action Thread} {thread : Thread}

theorem Accepts.initial (records : Nat → Record Thread) (signals : Nat → ThreatSignal) :
    Accepts (initial records signals).view :=
  fun _ => rfl

omit [DecidableEq Thread] in
private theorem inFlight_effect {ring : Summary (Party Thread) (Record Thread)}
    (same : counted (ring.phases (.caller thread)) = counted (view.ring.phases (.caller thread))) :
    View.inFlight { view with ring } thread = view.inFlight thread := by
  unfold View.inFlight
  rw [same]

private theorem counted_go {ring : Summary (Party Thread) (Record Thread)} {party : Party Thread}
    {phase : Phase (Record Thread)} (same : counted phase = counted (ring.phases party)) (other : Party Thread) :
    counted ((ring.go party phase).phases other) = counted (ring.phases other) := by
  rw [go_phases]
  split
  case isTrue here => rw [here, same]
  case isFalse => rfl

theorem Accepts.claim (accepts : Accepts view) (roles : Roles view) {party : Party Thread}
    {record : Record Thread} (phase : view.ring.phases party = .unclaimed record) : Accepts { view with
      ring := { view.ring.go party (.claimed record view.ring.claims.length) with
        claims := view.ring.claims ++ [(party, record)] } } := by
  obtain ⟨owner, rfl, events, pushed, recording, found, own⟩ := roles.offers phase
  intro thread
  have before := accepts thread
  have grown : View.records { view with
      ring := { view.ring.go (.caller owner) (.claimed record view.ring.claims.length) with
        claims := view.ring.claims ++ [(.caller owner, record)] } } =
      view.records ++ [record] := List.map_append
  rw [grown, recordedBy_append, before, List.append_assoc, recordedBy_singleton, own]
  congr 1
  by_cases here : owner = thread
  · subst here
    simp only [View.inFlight, recording, phase, go_phases_self, counted]
    rw [List.take_add_one, found]
    rfl
  · rw [if_neg here, List.append_nil]
    refine (inFlight_effect ?_).symm
    rw [go_phases, if_neg]
    simpa using fun same => here same.symm

theorem Accepts.ring (accepts : Accepts view) (roles : Roles view) {party : Party Thread}
    {ring : Summary (Party Thread) (Record Thread)} (effect : Effect view.ring party ring) :
    Accepts { view with ring } := by
  have still : ∀ ring, ring.claims = view.ring.claims →
      (∀ other, counted (ring.phases other) = counted (view.ring.phases other)) →
      Accepts { view with ring } := by
    intro ring claims same thread
    rw [inFlight_effect (same _), View.records, claims]
    exact accepts thread
  cases effect with
  | moves => exact accepts
  | claims phase => exact accepts.claim roles phase
  | publishes phase | refuses phase | takes phase | retires phase | empty phase =>
    refine still _ rfl (counted_go ?_)
    rw [phase]
    rfl

section
omit [DecidableEq Thread]

theorem Records.inFlight {events : List RawEvent} {pushed : Nat} {began : Nat × Nat}
    {cycles : UInt64} (records : Records view action thread events pushed began cycles) :
    view.inFlight thread = events.take pushed := by
  cases records with
  | record idle | recordBatch idle => simp [View.inFlight, idle]
  | resume recording phase => rw [inFlight_of_recording recording, phase, counted]

private theorem inFlight_of_not_recording
    (loose : ∀ events pushed began, view.callers thread ≠ .recording events pushed began) :
    view.inFlight thread = [] := by
  unfold View.inFlight
  split
  case h_1 recording => exact absurd recording (loose _ _ _)
  case h_2 => rfl

theorem Polls.inFlight {maxCount : Nat} {out : List ThreatSignal}
    (polls : Polls view action thread maxCount out) : view.inFlight thread = [] := by
  cases polls with
  | pollSignals idle => exact inFlight_of_not_recording (by simp [idle])
  | resume polling => exact inFlight_of_not_recording (by simp [polling])

end

variable (accepts : Accepts view)
include accepts

theorem Accepts.returns {events : List RawEvent} {pushed : Nat}
    (inFlight : view.inFlight thread = events.take pushed) : Accepts (view.returns thread events pushed) := by
  intro other
  have before := accepts other
  change recordedBy view.records other = accepted (view.calls ++ [⟨thread, events, pushed⟩]) other ++ _
  rw [before, accepted_concat, List.append_assoc]
  congr 1
  by_cases here : thread = other
  · subst here
    rw [if_pos rfl, inFlight]
    simp [View.inFlight, Core.returns]
  · rw [if_neg here, List.nil_append]
    simp only [View.inFlight, Core.returns]
    rw [update_of_ne (Ne.symm here)]

theorem Accepts.setCaller {next : Caller} (before : view.inFlight thread = [])
    (loose : ∀ events pushed began, next ≠ .recording events pushed began) :
    Accepts { view with callers := update view.callers thread next } := by
  intro other
  have same : View.inFlight { view with callers := update view.callers thread next } other = view.inFlight other := by
    by_cases here : other = thread
    · subst here
      rw [before]
      refine inFlight_of_not_recording fun events pushed began => ?_
      simpa using loose events pushed began
    · simp only [View.inFlight]
      rw [update_of_ne here]
  rw [same]
  exact accepts other

theorem Accepts.caller (step : CallerStep view action after) : Accepts after := by
  cases step with
  | @pushes _ thread events pushed began _ _ records found =>
    intro other
    have before := accepts other
    refine before.trans (congrArg _ ?_)
    by_cases here : other = thread
    · subst here
      rw [records.inFlight]
      simp [View.inFlight, go_phases_self, counted]
    · simp only [View.inFlight]
      rw [update_of_ne here, go_phases, if_neg (by simpa using here)]
  | returns records => exact accepts.returns records.inFlight
  | refused recording phase =>
    refine accepts.returns ?_
    rw [inFlight_of_recording recording, phase]
    rfl
  | @pops _ thread maxCount out polls =>
    have called : Accepts { view with
        callers := update view.callers thread (.polling maxCount out) } :=
      accepts.setCaller polls.inFlight (by simp)
    exact called
  | filled polls => exact accepts.setCaller polls.inFlight (by simp)
  | empty polling =>
    exact accepts.setCaller (inFlight_of_not_recording (by simp [polling])) (by simp)

theorem Accepts.worker (step : WorkerStep view action after) : Accepts after := by
  have emitted : ∀ {view : View Thread}, Accepts view → ∀ done rest snapshot signals,
      Accepts (view.emit done rest snapshot signals) := by
    intro view accepts done rest snapshot signals
    cases signals <;> exact accepts
  cases step with
  | pops =>
    intro thread
    have before := accepts thread
    refine before.trans (congrArg _ ?_)
    simp only [View.inFlight]
    rw [go_phases, if_neg (by simp)]
  | evaluates =>
    refine emitted ?_ _ _ _ _
    exact accepts
  | signals => exact emitted accepts _ _ _ _
  | _ => exact accepts

theorem Accepts.step (roles : Roles view) (step : Step view action after) : Accepts after := by
  cases step with
  | ring effect => exact accepts.ring roles effect
  | signalRing | ringSpurious | signalRingSpurious => exact accepts
  | caller step => exact accepts.caller step
  | worker step => exact accepts.worker step
  | control step | register step => cases step <;> exact accepts

end AnimusCore.Engine

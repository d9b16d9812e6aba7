import AnimusCore.Engine.Views
import AnimusCore.RingBuffer.SingleReader

/-! Who uses which ring. Callers push on the event ring and pop from the signal ring, the
worker the other way round, and each is in a call exactly where its own program point
says so. -/

set_option autoImplicit false

namespace AnimusCore.Engine

open RingBuffer

section

variable {Thread : Type}

def View.Offers (view : View Thread) (thread : Thread) (record : Record Thread) : Prop :=
  ∃ events pushed, view.callers thread = .recording events pushed record.began ∧
    events[pushed]? = some record.event ∧ record.caller = thread

def View.Emits (view : View Thread) (signal : ThreatSignal) : Prop :=
  ∃ done rest snapshot signals, view.worker = .signalling done rest snapshot (signal :: signals)

structure Roles (view : View Thread) : Prop where
  sound : Sound view.ring
  signalSound : Sound view.signalRing
  single : SingleReader .worker view.ring
  owned : ∀ claim ∈ view.ring.claims, claim.1 = .caller claim.2.caller
  worker_reads : (view.ring.phases .worker).Reads (∃ batch, view.worker = .popping batch)
  caller_writes : ∀ thread, (view.ring.phases (.caller thread)).Writes (view.Offers thread)
  worker_writes : (view.signalRing.phases .worker).Writes view.Emits
  caller_reads : ∀ thread, (view.signalRing.phases (.caller thread)).Reads
    (∃ maxCount out, view.callers thread = .polling maxCount out)

end

variable {Thread : Type} [DecidableEq Thread] {view after : View Thread} {action : Action Thread} {thread : Thread}

omit [DecidableEq Thread] in
theorem Roles.initial (records : Nat → Record Thread) (signals : Nat → ThreatSignal) :
    Roles (initial records signals).view where
  sound := Sound.initial
  signalSound := Sound.initial
  single := SingleReader.initial
  owned := nofun
  worker_reads := trivial
  caller_writes _ := trivial
  worker_writes := trivial
  caller_reads _ := trivial

variable {party : Party Thread} {record : Record Thread}

omit [DecidableEq Thread] in
/-- A position that is not published and belongs to the thread is the one the thread is
filling. -/
theorem Roles.filling (roles : Roles view) {pos : Nat} (found : view.ring.claims[pos]? = some (party, record))
    (fresh : pos ∉ view.ring.published) : view.ring.phases (.caller record.caller) = .claimed record pos := by
  have own := roles.owned _ (List.mem_of_getElem? found)
  obtain ⟨owner, value, holds⟩ := roles.sound.writers pos (List.getElem?_eq_some_iff.mp found).1 fresh
  have claimed := (roles.sound.claimed owner value pos holds).1
  rw [found, Option.some.injEq, Prod.mk.injEq] at claimed
  rw [← own, claimed.1, claimed.2]
  exact holds

omit [DecidableEq Thread] in
/-- Only callers claim positions, and for the record they offer. -/
theorem Roles.offers (roles : Roles view) (phase : view.ring.phases party = .unclaimed record) :
    ∃ thread, party = .caller thread ∧ view.Offers thread record := by
  cases party with
  | worker =>
    have reads := roles.worker_reads
    rw [phase] at reads
    exact reads.elim
  | caller thread =>
    have writes := roles.caller_writes thread
    rw [phase] at writes
    exact ⟨thread, rfl, writes⟩

/-- A caller between two pushes or pops is in neither ring. -/
structure CallerRests (view : View Thread) (thread : Thread) : Prop where
  ring : (view.ring.phases (.caller thread)).resting = true
  signalRing : (view.signalRing.phases (.caller thread)).resting = true

section
variable (roles : Roles view)
include roles

section
omit [DecidableEq Thread]

theorem Roles.ring_rests (loose : ∀ events pushed began, view.callers thread ≠ .recording events pushed began) :
    (view.ring.phases (.caller thread)).resting = true := by
  refine (roles.caller_writes thread).resting ?_
  rintro record ⟨events, pushed, recording, -⟩
  exact loose events pushed record.began recording

theorem Roles.signalRing_rests (loose : ∀ maxCount out, view.callers thread ≠ .polling maxCount out) :
    (view.signalRing.phases (.caller thread)).resting = true := by
  refine (roles.caller_reads thread).resting ?_
  rintro ⟨maxCount, out, polling⟩
  exact loose maxCount out polling

theorem Roles.records_rest {events : List RawEvent} {pushed : Nat} {began : Nat × Nat} {cycles : UInt64}
    (records : Records view action thread events pushed began cycles) : CallerRests view thread := by
  cases records with
  | record idle | recordBatch idle =>
    exact ⟨roles.ring_rests (by simp [idle]), roles.signalRing_rests (by simp [idle])⟩
  | resume recording phase =>
    exact ⟨by rw [phase]; rfl, roles.signalRing_rests (by simp [recording])⟩

theorem Roles.polls_rest {maxCount : Nat} {out : List ThreatSignal}
    (polls : Polls view action thread maxCount out) : CallerRests view thread := by
  cases polls with
  | pollSignals idle =>
    exact ⟨roles.ring_rests (by simp [idle]), roles.signalRing_rests (by simp [idle])⟩
  | resume polling phase => exact ⟨roles.ring_rests (by simp [polling]), by rw [phase]; rfl⟩

end

theorem Roles.callers (rests : CallerRests view thread) (next : Caller) :
    Roles { view with callers := Function.update view.callers thread next } where
  __ := roles
  caller_writes other := by
    by_cases here : other = thread
    · subst here
      exact (roles.caller_writes other).of_resting rests.ring
    · refine (roles.caller_writes other).mono ?_
      rintro record ⟨events, pushed, recording, rest⟩
      exact ⟨events, pushed, (Function.update_of_ne here _ _).trans recording, rest⟩
  caller_reads other := by
    by_cases here : other = thread
    · subst here
      exact (roles.caller_reads other).of_resting rests.signalRing
    · refine (roles.caller_reads other).mono ?_
      rintro ⟨maxCount, out, polling⟩
      exact ⟨maxCount, out, (Function.update_of_ne here _ _).trans polling⟩

theorem Roles.push (rests : CallerRests view thread) (offers : view.Offers thread record) :
    Roles { view with ring := view.ring.go (.caller thread) (.unclaimed record) } where
  __ := roles
  sound := roles.sound.push rests.ring record
  single := roles.single.go (fun _ => trivial) (by simp) (by simp)
  worker_reads := by
    exact roles.worker_reads
  caller_writes other := by
    rw [go_phases]
    split
    case isTrue here =>
      cases here
      exact offers
    case isFalse => exact roles.caller_writes other

theorem Roles.pop (rests : CallerRests view thread) {maxCount : Nat} {out : List ThreatSignal}
    (polling : view.callers thread = .polling maxCount out) :
    Roles { view with signalRing := view.signalRing.go (.caller thread) .seeking } where
  __ := roles
  signalSound := roles.signalSound.pop rests.signalRing
  worker_writes := by
    exact roles.worker_writes
  caller_reads other := by
    rw [go_phases]
    split
    case isTrue here =>
      cases here
      exact ⟨maxCount, out, polling⟩
    case isFalse => exact roles.caller_reads other

theorem Roles.caller (step : CallerStep view action after) : Roles after := by
  cases step with
  | @pushes _ thread events pushed began _ _ records found _ =>
    have rests := roles.records_rest records
    have called := roles.callers rests (.recording events pushed began)
    exact called.push ⟨rests.ring, rests.signalRing⟩ ⟨_, _, Function.update_self _ _ _, found, rfl⟩
  | returns records _ => exact { roles.callers (roles.records_rest records) .idle with }
  | @refused thread _ _ _ _ _ recording phase =>
    have rests : CallerRests view thread := ⟨by rw [phase]; rfl, roles.signalRing_rests (by simp [recording])⟩
    exact { roles.callers rests .idle with }
  | @pops _ thread maxCount out polls _ _ =>
    have rests := roles.polls_rest polls
    have called := roles.callers rests (.polling maxCount out)
    exact called.pop ⟨rests.ring, rests.signalRing⟩ (Function.update_self _ _ _)
  | filled polls _ => exact { roles.callers (roles.polls_rest polls) .idle with }
  | @empty thread _ _ _ polling phase =>
    have rests : CallerRests view thread := ⟨roles.ring_rests (by simp [polling]), by rw [phase]; rfl⟩
    exact { roles.callers rests .idle with }

end

structure WorkerRests (view : View Thread) : Prop where
  ring : (view.ring.phases .worker).resting = true
  signalRing : (view.signalRing.phases .worker).resting = true

section
variable (roles : Roles view)
include roles

section
omit [DecidableEq Thread]

theorem Roles.worker_rests (idle : ∀ batch, view.worker ≠ .popping batch)
    (quiet : ∀ done rest snapshot signals, view.worker ≠ .signalling done rest snapshot signals) :
    WorkerRests view where
  ring := roles.worker_reads.resting fun ⟨batch, popping⟩ => idle batch popping
  signalRing := roles.worker_writes.resting fun _ ⟨_, _, _, _, signalling⟩ =>
    quiet _ _ _ _ signalling

theorem Roles.popping_rests {batch : List (Record Thread)} (popping : view.worker = .popping batch)
    (rests : (view.ring.phases .worker).resting = true) : WorkerRests view where
  ring := rests
  signalRing := roles.worker_writes.resting fun _ ⟨_, _, _, _, signalling⟩ => by
    simp [popping] at signalling

theorem Roles.collects_rest {batch : List (Record Thread)} (collects : Collects view action batch) :
    WorkerRests view := by
  cases collects with
  | item popping phase => exact roles.popping_rests popping (by rw [phase]; rfl)
  | opening here | reopening here | written here | again here =>
    exact roles.worker_rests (by simp [here]) (by simp [here])

end

/-- At each of its own steps the worker is in neither ring. -/
theorem Roles.worker_step_rests (step : WorkerStep view action after) : WorkerRests view := by
  cases step with
  | pops collects | filled collects => exact roles.collects_rest collects
  | openFails here =>
    rcases here with here | here <;>
      exact roles.worker_rests (by simp [here]) (by simp [here])
  | drained popping phase | ends popping _ phase =>
    exact roles.popping_rests popping (by rw [phase]; rfl)
  | signals signalling rests =>
    refine ⟨roles.worker_reads.resting fun ⟨batch, popping⟩ => ?_, rests⟩
    simp [signalling] at popping
  | sleep here | retries here | givesUp here | rulesLock here | cepRulesLock here
  | readClock here | evaluates here | evaluated here | stores here | writeFails here
  | exits here => exact roles.worker_rests (by simp [here]) (by simp [here])

omit [DecidableEq Thread] in
theorem Roles.setWorker (rests : WorkerRests view) (next : Worker Thread) : Roles { view with worker := next } where
  __ := roles
  worker_reads := roles.worker_reads.of_resting rests.ring
  worker_writes := roles.worker_writes.of_resting rests.signalRing

theorem Roles.emit (rests : WorkerRests view) {done rest : List (Record Thread)} {snapshot : Snapshot}
    (signals : List ThreatSignal) : Roles (view.emit done rest snapshot signals) := by
  cases signals with
  | nil => exact roles.setWorker rests _
  | cons signal signals =>
    have moved := roles.setWorker rests (.signalling done rest snapshot (signal :: signals))
    refine { moved with signalSound := ?_, worker_writes := ?_, caller_reads := ?_ }
    · exact roles.signalSound.push rests.signalRing signal
    · exact ⟨done, rest, snapshot, signals, rfl⟩
    · intro thread
      exact roles.caller_reads thread

theorem Roles.worker (step : WorkerStep view action after) : Roles after := by
  have rests := roles.worker_step_rests step
  cases step with
  | @pops _ batch =>
    have moved := roles.setWorker rests (.popping batch)
    refine { moved with sound := ?_, single := ?_, worker_reads := ?_, caller_writes := ?_ }
    · exact roles.sound.pop rests.ring
    · refine roles.single.go (fun other => absurd rfl other) ?_ (by simp)
      intro pos _ holds
      have resting := rests.ring
      simp [holds, Phase.resting] at resting
    · exact ⟨batch, rfl⟩
    · intro thread
      exact roles.caller_writes thread
  | evaluates =>
    refine Roles.emit ?_ ?_ _
    · exact { roles with }
    · exact ⟨rests.ring, rests.signalRing⟩
  | signals => exact roles.emit rests _
  | stores => exact { roles.setWorker rests _ with }
  | _ => exact roles.setWorker rests _

end

omit [DecidableEq Thread] in
theorem Roles.control (roles : Roles view) (step : ControlStep view action after) : Roles after := by
  cases step with
  | startSpawn _ here =>
    have moved := roles.setWorker (roles.worker_rests (by simp [here]) (by simp [here])) .opening
    exact { moved with }
  | stopJoin _ here =>
    have moved := roles.setWorker (roles.worker_rests (by simp [here]) (by simp [here])) .absent
    exact { moved with }
  | _ => exact { roles with }

theorem Roles.owned_effect (roles : Roles view) {ring : Summary (Party Thread) (Record Thread)}
    (effect : Effect view.ring party ring) : ∀ claim ∈ ring.claims, claim.1 = .caller claim.2.caller := by
  refine effect.forall_claims roles.owned fun record phase => ?_
  obtain ⟨thread, rfl, events, pushed, -, -, own⟩ := roles.offers phase
  exact congrArg Party.caller own.symm

theorem Roles.step (roles : Roles view) (step : Step view action after) : Roles after := by
  cases step with
  | ring effect =>
    exact { roles with
      sound := roles.sound.effect effect
      single := roles.single.effect effect
      owned := roles.owned_effect effect
      worker_reads := effect.reads roles.worker_reads
      caller_writes := fun thread => effect.writes (roles.caller_writes thread) }
  | signalRing effect =>
    exact { roles with
      signalSound := roles.signalSound.effect effect
      worker_writes := effect.writes roles.worker_writes
      caller_reads := fun thread => effect.reads (roles.caller_reads thread) }
  | ringSpurious | signalRingSpurious => exact roles
  | caller step => exact roles.caller step
  | worker step => exact roles.worker step
  | control step => exact roles.control step
  | register step =>
    cases step with
    | addRule | addCepRule => exact { roles with }

end AnimusCore.Engine

import AnimusCore.Fallback.Unbounded

/-! What can end the worker of the fallback. Windows are never empty and signals take any
number, so `_evaluate` always returns; `struct.pack` is the only call that raises, and it does
for a record with a number out of its field's range. -/

set_option autoImplicit false

namespace AnimusCore.Fallback.Unbounded

open Lib List

def TelemetryRecord.Fits (record : TelemetryRecord) : Prop :=
  (0 ≤ record.eventId ∧ record.eventId < 2 ^ 32) ∧ (0 ≤ record.traceId ∧ record.traceId < 2 ^ 32) ∧
    0 ≤ record.metricValue ∧ record.metricValue < 2 ^ 64

instance : DecidablePred TelemetryRecord.Fits :=
  fun _ => inferInstanceAs (Decidable (_ ∧ _))

theorem TelemetryRecord.isSome_pack (record : TelemetryRecord) : record.pack.isSome ↔ record.Fits := by
  unfold TelemetryRecord.pack TelemetryRecord.Fits
  split
  case isTrue fits => exact ⟨fun _ => fits, fun _ => rfl⟩
  case isFalse wide => exact ⟨nofun, fun fits => absurd fits wide⟩

theorem CepRule.evict_ne_nil {rule : CepRule} (positive : 1 ≤ rule.windowSize) {nowMs : Int} {last : Entry}
    (now : last.timestampMs = nowMs) (window : List Entry) : rule.evict nowMs (window ++ [last]) ≠ [] := by
  induction window with
  | nil =>
    have stays : rule.leaves nowMs 1 last = false := by
      unfold CepRule.leaves
      split
      · exact decide_eq_false (by omega)
      · exact decide_eq_false (by omega)
    simp [CepRule.evict, stays]
  | cons front rest ih =>
    rw [cons_append, CepRule.evict]
    split
    · exact ih
    · exact cons_ne_nil _ _

theorem CepRule.isSome_aggregate (rule : CepRule) {values : List Int} (nonempty : values ≠ []) :
    (rule.aggregate values).isSome := by
  obtain ⟨first, rest, rfl⟩ := exists_cons_of_ne_nil nonempty
  unfold CepRule.aggregate
  split
  · rfl
  · split
    · rfl
    · split
      · rfl
      · rfl

theorem CepRuleState.exists_onEvent {state : CepRuleState} (positive : 1 ≤ state.rule.windowSize)
    (value nowMs : Int) : ∃ result next, state.onEvent value nowMs = some (result, next) ∧
      next.rule = state.rule := by
  have nonempty := CepRule.evict_ne_nil positive
    (show Entry.timestampMs ⟨state.sequence + 1, nowMs, value⟩ = nowMs from rfl) state.window
  have values : (state.rule.evict nowMs (state.window ++
      [⟨state.sequence + 1, nowMs, value⟩])).map Entry.value ≠ [] :=
    mt map_eq_nil_iff.mp nonempty
  obtain ⟨result, found⟩ := Option.isSome_iff_exists.mp (state.rule.isSome_aggregate values)
  have fed : state.onEvent value nowMs = some (result, { state with
      window := state.rule.evict nowMs (state.window ++ [⟨state.sequence + 1, nowMs, value⟩])
      sequence := state.sequence + 1 }) := by
    simp only [CepRuleState.onEvent, found, Option.map_some]
  exact ⟨result, _, fed, rfl⟩

def Positive (rules : List CepRuleState) : Prop := ∀ rule ∈ rules, 1 ≤ rule.rule.windowSize

variable {state : State}

theorem State.exists_cepRuleTurn (positive : Positive state.cepRules) (batch : Batch) {place : Nat}
    (inside : place < state.cepRules.length) :
    ∃ cepRules signals, state.cepRuleTurn batch place = some { state with cepRules, signals } ∧
      Positive cepRules ∧ cepRules.length = state.cepRules.length := by
  have member := getElem_mem inside
  simp only [State.cepRuleTurn, List.getElem?_eq_getElem inside, Option.bind_some]
  generalize state.cepRules[place] = rule at member ⊢
  split
  · exact ⟨_, _, rfl, positive, rfl⟩
  · obtain ⟨⟨matched, aggregated⟩, next, fed, same⟩ :=
      rule.exists_onEvent (positive rule member) batch.record.metricValue batch.nowMs
    rw [fed]
    refine ⟨_, _, rfl, fun other inside => ?_, length_set⟩
    rcases mem_or_eq_of_mem_set inside with before | rfl
    · exact positive other before
    · rw [same]
      exact positive rule member

namespace Worker

def held : Worker → List TelemetryRecord
  | readClock batch => batch
  | nextRecord _ _ rest => rest
  | rules batch _ | takeCepRules batch | cepRules batch _ | write batch =>
    batch.record :: batch.rest
  | _ => []

def unwritten : Worker → List TelemetryRecord
  | write batch => [batch.record]
  | _ => []

/-- Nobody records while there is a worker, so a queue it has found empty stays empty. -/
def Valid (items : List TelemetryRecord) (places : Nat) : Worker → Prop
  | readClock batch => batch = [] → items = []
  | nextRecord filled _ rest => filled = false → rest = [] ∧ items = []
  | rules batch _ | takeCepRules batch | write batch => batch.filled = true
  | cepRules batch left => batch.filled = true ∧ ∀ place ∈ left, place < places
  | testRunning | exited => items = []
  | raised => False
  | opening | popping | sleeping => True

end Worker

def State.held (state : State) : List TelemetryRecord :=
  match state.worker with
  | none => []
  | some worker => worker.held

def State.unwritten (state : State) : List TelemetryRecord :=
  match state.worker with
  | none => []
  | some worker => worker.unwritten

structure Sound (state : State) : Prop where
  idle : state.worker = none ↔ state.running = false ∧ state.joining = false
  stopping : state.joining = true → state.running = false
  started : state.worker ≠ none → state.started = true
  drained : state.started = true → state.worker = none → state.ring.items = []
  valid : ∀ worker, state.worker = some worker → worker.Valid state.ring.items state.cepRules.length
  positive : Positive state.cepRules
  fits : ∀ record ∈ state.accepted, record.Fits
  split : ∃ done, state.logFile.map some = done.map TelemetryRecord.pack ∧
    state.accepted = done ++ (state.held ++ state.ring.items) ∧
    state.evaluated = done ++ state.unwritten

/-- How far the worker is from its end, once `stop_logging` was called. -/
def Worker.rank (ruleCount cepCount : Nat) : Worker → Nat
  | opening | sleeping => ruleCount + cepCount + 9
  | popping => ruleCount + cepCount + 8
  | readClock _ => ruleCount + cepCount + 7
  | nextRecord _ _ _ => ruleCount + cepCount + 6
  | rules _ left => left.length + cepCount + 5
  | takeCepRules _ => cepCount + 4
  | cepRules _ left => left.length + 3
  | write _ | testRunning => 2
  | exited | raised => 1

def Worker.inBatch : Worker → Bool
  | readClock batch => !batch.isEmpty
  | nextRecord filled _ _ => filled
  | rules _ _ | takeCepRules _ | cepRules _ _ | write _ => true
  | _ => false

/-- Records weigh more in the queue than with the worker. -/
def State.distance (state : State) : Nat ×ₗ Nat :=
  match state.worker with
  | none => toLex (0, 0)
  | some worker =>
    toLex (3 * state.ring.items.length + (worker.held.length + worker.inBatch.toNat),
      worker.rank state.rules.length state.cepRules.length)

/-- What a step of the worker leaves to the client, and its progress. -/
structure Advances (state next : State) : Prop where
  sound : Sound next
  running : next.running = state.running
  joining : next.joining = state.joining
  started : next.started = state.started
  accepted : next.accepted = state.accepted
  closer : state.running = false → next.distance < state.distance

variable {next : State} {after : Worker} {batch : Batch}

section
variable {state : State} {worker : Worker}

theorem State.held_of (active : state.worker = some worker) : state.held = worker.held := by
  rw [State.held, active]

theorem State.unwritten_of (active : state.worker = some worker) : state.unwritten = worker.unwritten := by
  rw [State.unwritten, active]

section
variable (sound : Sound state)
include sound

section
variable (active : state.worker = some worker)
include active

theorem Sound.busy : ¬ (state.running = false ∧ state.joining = false) := by
  rw [← sound.idle, active]
  exact Option.some_ne_none worker

theorem Sound.proceed (there : next.worker = some after) (running : next.running = state.running)
    (joining : next.joining = state.joining) (started : next.started = state.started)
    (accepted : next.accepted = state.accepted)
    (valid : after.Valid next.ring.items next.cepRules.length) (positive : Positive next.cepRules)
    (split : ∃ done, next.logFile.map some = done.map TelemetryRecord.pack ∧
      next.accepted = done ++ (after.held ++ next.ring.items) ∧
      next.evaluated = done ++ after.unwritten) : Sound next where
  idle := by
    rw [there, running, joining]
    exact ⟨nofun, fun idle => absurd idle (sound.busy active)⟩
  stopping := by
    rw [joining, running]
    exact sound.stopping
  started _ := by
    rw [started]
    exact sound.started (by rw [active]; exact Option.some_ne_none worker)
  drained _ none := by
    rw [there] at none
    cases none
  valid other same := by
    rw [there] at same
    cases same
    exact valid
  positive := positive
  fits := by
    rw [accepted]
    exact sound.fits
  split := by
    rw [next.held_of there, next.unwritten_of there]
    exact split

theorem Sound.split_of : ∃ done, state.logFile.map some = done.map TelemetryRecord.pack ∧
      state.accepted = done ++ (worker.held ++ state.ring.items) ∧ state.evaluated = done ++ worker.unwritten := by
  rw [← state.held_of active, ← state.unwritten_of active]
  exact sound.split

theorem Sound.move {cepRules : List CepRuleState} (signals : BoundedQueue ThreatSignal)
    (positive : Positive cepRules) (same : cepRules.length = state.cepRules.length)
    (held : after.held = worker.held) (unwritten : after.unwritten = worker.unwritten)
    (valid : after.Valid state.ring.items state.cepRules.length)
    (closer : state.running = false → after.inBatch.toNat < worker.inBatch.toNat ∨
      after.inBatch = worker.inBatch ∧ after.rank state.rules.length state.cepRules.length <
        worker.rank state.rules.length state.cepRules.length) :
    Advances state ({ state with cepRules, signals }.goTo after) where
  sound := by
    have split := sound.split_of active
    rw [← held, ← unwritten] at split
    exact sound.proceed active rfl rfl rfl rfl rfl (same.symm ▸ valid) positive split
  running := rfl
  joining := rfl
  started := rfl
  accepted := rfl
  closer stopping := by
    rw [State.distance, State.distance, active]
    simp only [State.goTo, same, held]
    rw [Prod.Lex.toLex_lt_toLex]
    rcases closer stopping with less | ⟨batch, less⟩
    · exact .inl (by omega)
    · exact .inr ⟨by rw [batch], less⟩

theorem Sound.goTo (held : after.held = worker.held) (unwritten : after.unwritten = worker.unwritten)
    (valid : after.Valid state.ring.items state.cepRules.length)
    (closer : state.running = false → after.inBatch.toNat < worker.inBatch.toNat ∨
      after.inBatch = worker.inBatch ∧ after.rank state.rules.length state.cepRules.length <
        worker.rank state.rules.length state.cepRules.length) : Advances state (state.goTo after) :=
  sound.move active state.signals sound.positive rfl held unwritten valid closer

end

theorem Sound.clock {batch : List TelemetryRecord} (active : state.worker = some (.readClock batch))
    (nowMs : Int) : Advances state (state.goTo (.nextRecord (!batch.isEmpty) nowMs batch)) := by
  refine sound.goTo active rfl rfl ?_ fun _ => .inr ⟨rfl, Nat.lt_succ_self _⟩
  intro unfilled
  have empty : batch = [] := by simpa using unfilled
  exact ⟨empty, sound.valid _ active empty⟩

theorem Sound.pop (active : state.worker = some .popping) :
    Advances state ({ state with ring := (state.ring.popBatch 1024).2 }.goTo
      (.readClock (state.ring.popBatch 1024).1)) where
  sound := by
    obtain ⟨done, log, accepted, evaluated⟩ := sound.split_of active
    refine sound.proceed active rfl rfl rfl rfl rfl ?_ sound.positive ⟨done, log, ?_, evaluated⟩
    · intro empty
      have none : state.ring.items = [] := by simpa [BoundedQueue.popBatch] using empty
      simp [State.goTo, BoundedQueue.popBatch, none]
    · rw [Worker.held, State.goTo, BoundedQueue.popBatch, take_append_drop]
      exact accepted
  running := rfl
  joining := rfl
  started := rfl
  accepted := rfl
  closer _ := by
    rw [State.distance, State.distance, active]
    simp only [State.goTo, Worker.held, Worker.inBatch, Worker.rank, BoundedQueue.popBatch,
      length_take, length_drop, length_nil, Bool.toNat_false]
    rw [Prod.Lex.toLex_lt_toLex]
    rcases Nat.eq_zero_or_pos state.ring.items.length with empty | positive
    · have none := eq_nil_of_length_eq_zero empty
      exact .inr ⟨by simp [none], Nat.lt_succ_self _⟩
    · have flag := Bool.toNat_le (!(state.ring.items.take 1024).isEmpty)
      exact .inl (by dsimp only; omega)

theorem Sound.finishRecord (active : state.worker = some (.write batch)) {bytes : List UInt8}
    (packed : batch.record.pack = some bytes) :
    Advances state ({ state with logFile := state.logFile ++ [bytes] }.goTo
      (.nextRecord batch.filled batch.nowMs batch.rest)) where
  sound := by
    obtain ⟨done, log, accepted, evaluated⟩ := sound.split_of active
    refine sound.proceed active rfl rfl rfl rfl rfl ?_ sound.positive ⟨done ++ [batch.record], ?_, ?_, ?_⟩
    · intro unfilled
      rw [show batch.filled = true from sound.valid _ active] at unfilled
      cases unfilled
    · change (state.logFile ++ [bytes]).map some = _
      rw [map_append, map_append, log, map_singleton, map_singleton, packed]
    · rw [append_assoc]
      exact accepted
    · exact evaluated.trans (append_nil _).symm
  running := rfl
  joining := rfl
  started := rfl
  accepted := rfl
  closer _ := by
    rw [State.distance, State.distance, active]
    simp only [State.goTo, Worker.held, Worker.inBatch, length_cons, Bool.toNat_true]
    rw [Prod.Lex.toLex_lt_toLex]
    have flag := Bool.toNat_le batch.filled
    exact .inl (by dsimp only; omega)

theorem Sound.finishEvaluate (active : state.worker = some (.cepRules batch [])) :
    Advances state ({ state with evaluated := state.evaluated ++ [batch.record] }.goTo (.write batch)) where
  sound := by
    obtain ⟨done, log, accepted, evaluated⟩ := sound.split_of active
    refine sound.proceed active rfl rfl rfl rfl rfl (sound.valid _ active).1 sound.positive ⟨done, log, accepted, ?_⟩
    exact congrArg (· ++ [batch.record]) (evaluated.trans (append_nil _))
  running := rfl
  joining := rfl
  started := rfl
  accepted := rfl
  closer _ := by
    rw [State.distance, State.distance, active]
    exact Prod.Lex.toLex_lt_toLex.mpr (.inr ⟨rfl, Nat.lt_succ_self _⟩)

/-- The worker can take its next step, and does not raise. -/
theorem Sound.work (active : state.worker = some worker) (waits : ∀ batch, worker ≠ .readClock batch)
    (ends : worker ≠ .exited) : ∃ next, state.work = some next ∧ Advances state next := by
  have valid := sound.valid _ active
  simp only [State.work, active]
  cases worker with
  | readClock batch => exact absurd rfl (waits batch)
  | exited => exact absurd rfl ends
  | raised => exact valid.elim
  | opening | sleeping =>
    exact ⟨_, rfl, sound.goTo active rfl rfl trivial fun _ => .inr ⟨rfl, Nat.lt_succ_self _⟩⟩
  | popping => exact ⟨_, rfl, sound.pop active⟩
  | nextRecord filled nowMs rest =>
    cases rest with
    | cons record rest =>
      cases filled with
      | false => cases (valid rfl).1
      | true =>
        exact ⟨_, rfl, sound.goTo active rfl rfl rfl fun _ => .inr ⟨rfl, Nat.lt_succ_self _⟩⟩
    | nil =>
      refine ⟨_, rfl, ?_⟩
      cases filled with
      | true => exact sound.goTo active rfl rfl trivial fun _ => .inl Nat.zero_lt_one
      | false =>
        exact sound.goTo active rfl rfl (valid rfl).2 fun _ => .inr ⟨rfl, Nat.lt_add_left _ (show 2 < 6 by decide)⟩
  | rules batch left =>
    cases left with
    | nil =>
      exact ⟨_, rfl, sound.goTo active rfl rfl valid
        fun _ => .inr ⟨rfl, Nat.add_lt_add_of_le_of_lt (Nat.le_add_left ..) (by decide)⟩⟩
    | cons rule left =>
      refine ⟨_, rfl, ?_⟩
      obtain ⟨signals, same⟩ : ∃ signals, state.ruleTurn batch rule = { state with signals } := by
        unfold State.ruleTurn
        split
        · exact ⟨_, rfl⟩
        · split <;> exact ⟨_, rfl⟩
      rw [same]
      refine sound.move active signals sound.positive rfl rfl rfl valid fun _ => .inr ⟨rfl, ?_⟩
      simp only [Worker.rank, length_cons]
      omega
  | takeCepRules batch =>
    refine ⟨_, rfl, sound.goTo active rfl rfl ⟨valid, fun place => mem_range.mp⟩ fun _ => .inr ⟨rfl, ?_⟩⟩
    simp only [Worker.rank, length_range]
    omega
  | cepRules batch left =>
    cases left with
    | nil => exact ⟨_, rfl, sound.finishEvaluate active⟩
    | cons place left =>
      rw [Worker.Valid, forall_mem_cons] at valid
      obtain ⟨cepRules, signals, turned, positive, same⟩ := state.exists_cepRuleTurn sound.positive batch valid.2.1
      simp only [turned]
      exact ⟨_, rfl, sound.move active signals positive same rfl rfl ⟨valid.1, valid.2.2⟩
        fun _ => .inr ⟨rfl, Nat.lt_succ_self _⟩⟩
  | write batch =>
    obtain ⟨done, -, accepted, -⟩ := sound.split_of active
    have member : batch.record ∈ state.accepted := by simp [accepted, Worker.held]
    obtain ⟨bytes, packed⟩ := Option.isSome_iff_exists.mp (batch.record.isSome_pack.mpr (sound.fits _ member))
    simp only [packed]
    exact ⟨_, rfl, sound.finishRecord active packed⟩
  | testRunning =>
    refine ⟨_, rfl, ?_⟩
    cases running : state.running with
    | true =>
      exact sound.goTo active rfl rfl trivial fun stopped => by
        rw [running] at stopped
        cases stopped
    | false => exact sound.goTo active rfl rfl valid fun _ => .inr ⟨rfl, Nat.lt_succ_self _⟩

end

theorem Sound.recordEvent (sound : Sound state) (fresh : state.started = false) {record : TelemetryRecord}
    (fits : (state.ring.push record).1 = true → record.Fits) : Sound (state.recordEvent record) := by
  have absent : state.worker = none := by
    by_contra present
    rw [sound.started present] at fresh
    cases fresh
  by_cases full : state.ring.items.length ≥ state.ring.capacity
  · simp only [State.recordEvent, BoundedQueue.push, if_pos full, Bool.false_eq_true, if_false]
    exact { sound with }
  · simp only [BoundedQueue.push, if_neg full, forall_const] at fits
    simp only [State.recordEvent, BoundedQueue.push, if_neg full, if_true]
    refine { sound with drained := fun started => ?_, valid := fun worker same => ?_
                        fits := fun other inside => ?_, split := ?_ }
    · rw [show state.started = true from started] at fresh
      cases fresh
    · rw [show state.worker = some worker from same] at absent
      cases absent
    · rcases mem_append.mp inside with before | last
      · exact sound.fits other before
      · rw [mem_singleton.mp last]
        exact fits
    · obtain ⟨done, log, accepted, evaluated⟩ := sound.split
      refine ⟨done, log, ?_, evaluated⟩
      rw [accepted, append_assoc, append_assoc]
      rfl

theorem Worker.Valid.mono {items : List TelemetryRecord} {places more : Nat}
    (valid : worker.Valid items places) (le : places ≤ more) : worker.Valid items more := by
  cases worker with
  | cepRules batch left =>
    exact ⟨valid.1, fun place inside => Nat.lt_of_lt_of_le (valid.2 place inside) le⟩
  | _ => exact valid

variable (sound : Sound state)
include sound

theorem Sound.addRule (rule : RuleThreshold) : Sound (state.addRule rule) := by
  unfold State.addRule
  split
  · exact sound
  · exact { sound with }

theorem Sound.addCepRule (rule : CepRule) : Sound (state.addCepRule rule) := by
  unfold State.addCepRule
  split
  · exact sound
  split
  · exact sound
  split
  · exact sound
  refine { sound with valid := fun worker active => ?_, positive := fun other inside => ?_ }
  · rw [length_append]
    exact (sound.valid worker active).mono (Nat.le_add_right ..)
  · rcases mem_append.mp inside with before | last
    · exact sound.positive other before
    · rw [mem_singleton.mp last]
      exact le_max_left ..

theorem Sound.startLogging (free : state.joining = false) : Sound state.startLogging := by
  unfold State.startLogging
  split
  · exact sound
  case isFalse off =>
    have absent := sound.idle.mpr ⟨Bool.eq_false_iff.mpr off, free⟩
    obtain ⟨done, log, accepted, evaluated⟩ := sound.split
    rw [State.held, absent] at accepted
    rw [State.unwritten, absent] at evaluated
    exact {
      idle := ⟨nofun, fun idle => by cases idle.1⟩
      stopping := fun joining => by
        rw [show state.joining = true from joining] at free
        cases free
      started := fun _ => rfl
      drained := nofun
      valid := fun worker same => by
        cases same
        exact trivial
      positive := sound.positive
      fits := sound.fits
      split := ⟨done, log, accepted, evaluated⟩ }

theorem Sound.stopLogging : Sound state.stopLogging := by
  unfold State.stopLogging
  split
  case isFalse => exact sound
  case isTrue on =>
    refine { sound with idle := ?_, stopping := fun _ => rfl }
    refine ⟨fun absent => ?_, fun idle => by cases idle.2⟩
    rw [(sound.idle.mp absent).1] at on
    cases on

theorem Sound.join (joined : state.join = some next) :
    Sound next ∧ next.worker = none ∧ next.accepted = state.accepted := by
  unfold State.join at joined
  split at joined
  case h_1 joining active =>
    cases joined
    refine ⟨{ sound with
      idle := ⟨fun _ => ⟨sound.stopping joining, rfl⟩, fun _ => rfl⟩
      stopping := nofun
      started := fun present => absurd rfl present
      drained := fun _ _ => sound.valid _ active
      valid := nofun
      split := sound.split_of active }, rfl, rfl⟩
  case h_2 joining active => exact (sound.valid _ active).elim
  case h_3 => cases joined

end

def State.Stopped (state : State) : Prop :=
  state.started = true ∧ state.running = false ∧ state.joining = false

theorem Sound.init (capacity : Nat) : Sound (init capacity) where
  idle := ⟨fun _ => ⟨rfl, rfl⟩, fun _ => rfl⟩
  stopping _ := rfl
  started present := absurd rfl present
  drained := nofun
  valid := nofun
  positive := nofun
  fits := nofun
  split := ⟨[], rfl, rfl, rfl⟩

private theorem of_call {called : State} (returned : state.call called = some next) :
    state.joining = false ∧ next = called := by
  unfold State.call at returned
  split at returned
  case isTrue => cases returned
  case isFalse free =>
    cases returned
    exact ⟨Bool.eq_false_iff.mpr free, rfl⟩

theorem State.recordEvent_accepted (state : State) (record : TelemetryRecord) : (state.recordEvent record).accepted =
      if (state.ring.push record).1 then state.accepted ++ [record] else state.accepted :=
  rfl

theorem State.ruleTurn_accepted (state : State) (batch : Batch) (rule : RuleThreshold) :
    (state.ruleTurn batch rule).accepted = state.accepted := by
  unfold ruleTurn
  split_ifs <;> rfl

theorem State.cepRuleTurn_accepted {place : Nat}
    (turned : state.cepRuleTurn batch place = some next) : next.accepted = state.accepted := by
  obtain ⟨rule, -, evaluated⟩ := Option.bind_eq_some_iff.mp turned
  split_ifs at evaluated
  · cases evaluated
    rfl
  · obtain ⟨-, -, rfl⟩ := Option.map_eq_some_iff.mp evaluated
    rfl

theorem State.work_accepted (worked : state.work = some next) : next.accepted = state.accepted := by
  unfold work at worked
  split at worked
  case h_9 batch rule left active =>
    cases worked
    exact state.ruleTurn_accepted batch rule
  case h_12 batch place left active =>
    split at worked <;> cases worked
    case h_1 => rfl
    case h_2 turn turned =>
      change turn.accepted = state.accepted
      exact cepRuleTurn_accepted turned
  case h_14 => split at worked <;> cases worked <;> rfl
  all_goals cases worked <;> rfl

private theorem step_accepted {action : Action} (ran : step state action = some next) : state.accepted ⊆ next.accepted := by
  cases action with
  | recordEvent record =>
    obtain ⟨-, rfl⟩ := of_call ran
    rw [State.recordEvent_accepted]
    split_ifs
    · exact subset_append_left _ _
    · exact List.Subset.refl _
  | addRule rule =>
    obtain ⟨-, rfl⟩ := of_call ran
    unfold State.addRule
    split_ifs <;> exact List.Subset.refl _
  | addCepRule rule =>
    obtain ⟨-, rfl⟩ := of_call ran
    unfold State.addCepRule
    split_ifs <;> exact List.Subset.refl _
  | pollSignals maxCount =>
    obtain ⟨-, rfl⟩ := of_call ran
    exact List.Subset.refl _
  | startLogging =>
    obtain ⟨-, rfl⟩ := of_call ran
    unfold State.startLogging
    split_ifs <;> exact List.Subset.refl _
  | stopLogging =>
    obtain ⟨-, rfl⟩ := of_call ran
    unfold State.stopLogging
    split_ifs <;> exact List.Subset.refl _
  | join =>
    simp only [step, State.join] at ran
    split at ran <;> cases ran <;> exact List.Subset.refl _
  | clock nowMs =>
    simp only [step, State.clock] at ran
    split at ran <;> cases ran
    exact List.Subset.refl _
  | work =>
    rw [State.work_accepted ran]
    exact List.Subset.refl _

theorem Sound.step {action : Action} (sound : Sound state) (first : EventsFirst state action)
    (ran : Unbounded.step state action = some next) (fits : ∀ record ∈ next.accepted, record.Fits) : Sound next := by
  cases action with
  | recordEvent record =>
    obtain ⟨-, rfl⟩ := of_call ran
    refine sound.recordEvent (Bool.not_eq_eq_eq_not.mp first) fun pushed => fits record ?_
    rw [State.recordEvent_accepted, if_pos pushed]
    exact mem_append_right _ (mem_singleton_self _)
  | addRule rule =>
    obtain ⟨-, rfl⟩ := of_call ran
    exact sound.addRule rule
  | addCepRule rule =>
    obtain ⟨-, rfl⟩ := of_call ran
    exact sound.addCepRule rule
  | pollSignals maxCount =>
    obtain ⟨-, rfl⟩ := of_call ran
    exact { sound with }
  | startLogging =>
    obtain ⟨free, rfl⟩ := of_call ran
    exact sound.startLogging free
  | stopLogging =>
    obtain ⟨-, rfl⟩ := of_call ran
    exact sound.stopLogging
  | join => exact (sound.join ran).1
  | clock nowMs =>
    simp only [Unbounded.step, State.clock] at ran
    split at ran <;> cases ran
    case h_1 batch active => exact (sound.clock active nowMs).sound
  | work =>
    cases active : state.worker with
    | none => simp [Unbounded.step, State.work, active] at ran
    | some worker =>
      have able : (∀ batch, worker ≠ .readClock batch) ∧ worker ≠ .exited := by
        constructor
        · rintro batch rfl
          simp [Unbounded.step, State.work, active] at ran
        · rintro rfl
          simp [Unbounded.step, State.work, active] at ran
      obtain ⟨after, worked, advances⟩ := sound.work active able.1 able.2
      cases worked.symm.trans ran
      exact advances.sound

structure Stopping (accepted : List TelemetryRecord) (state : State) : Prop where
  sound : Sound state
  running : state.running = false
  started : state.started = true
  accepted_eq : state.accepted = accepted

section
variable {accepted : List TelemetryRecord} {state next : State}

theorem Stopping.step (stopping : Stopping accepted state) (advances : Advances state next) :
    Stopping accepted next ∧ next.distance < state.distance :=
  ⟨⟨advances.sound, advances.running.trans stopping.running,
    advances.started.trans stopping.started, advances.accepted.trans stopping.accepted_eq⟩,
    advances.closer stopping.running⟩

theorem Stopping.advances (stopping : Stopping accepted state) (busy : state.worker ≠ none) :
    ∃ action next, EventsFirst state action ∧ Unbounded.step state action = some next ∧
      Stopping accepted next ∧ next.distance < state.distance := by
  have sound := stopping.sound
  obtain ⟨worker, active⟩ := Option.ne_none_iff_exists'.mp busy
  have joining : state.joining = true :=
    Bool.eq_true_of_not_eq_false fun off => sound.busy active ⟨stopping.running, off⟩
  by_cases waits : ∃ batch, worker = .readClock batch
  · obtain ⟨batch, rfl⟩ := waits
    refine ⟨.clock 0, _, rfl, ?_, stopping.step (sound.clock active 0)⟩
    simp only [Unbounded.step, State.clock, active]
  by_cases ends : worker = .exited
  · subst ends
    have joined : state.join = some { state with joining := false, worker := none } := by
      simp only [State.join, joining, active]
    obtain ⟨after, -, same⟩ := sound.join joined
    refine ⟨.join, _, rfl, joined, ⟨after, stopping.running, stopping.started, same.trans stopping.accepted_eq⟩, ?_⟩
    rw [State.distance, State.distance, active, show state.ring.items = [] from sound.valid _ active]
    exact Prod.Lex.toLex_lt_toLex.mpr (.inr ⟨rfl, Nat.zero_lt_one⟩)
  · obtain ⟨next, worked, advances⟩ := sound.work active (fun batch same => waits ⟨batch, same⟩) ends
    exact ⟨.work, next, rfl, worked, stopping.step advances⟩

/-- Once it was told to stop, the worker ends and `stop_logging` returns. -/
theorem Sound.returns (sound : Sound state) (joining : state.joining = true) :
    ∃ finish, Reaches Unbounded.step EventsFirst state finish ∧ finish.Stopped ∧
      finish.accepted = state.accepted := by
  have active : state.worker ≠ none := by
    rw [Ne, sound.idle, joining]
    simp
  obtain ⟨finish, path, stopping, ended⟩ := Reaches.progress State.distance
    (show Stopping state.accepted state from ⟨sound, sound.stopping joining, sound.started active, rfl⟩)
    (fun _ stopping busy => stopping.advances busy)
  exact ⟨finish, path, ⟨stopping.started, stopping.sound.idle.mp ended⟩, stopping.accepted_eq⟩

end

/-- The worker is not ended by an error, `stop_logging` returns, and by then every accepted
event was evaluated and written. -/
structure Survives (state : State) : Prop where
  alive : state.worker ≠ some .raised
  complete : state.Stopped → state.evaluated = state.accepted ∧
    state.logFile.map some = state.accepted.map TelemetryRecord.pack
  returns : state.joining = true → ∃ finish, Reaches step EventsFirst state finish ∧
    finish.Stopped ∧ finish.accepted = state.accepted

theorem Sound.survives (sound : Sound state) : Survives state where
  alive raised := sound.valid _ raised
  complete stopped := by
    have absent := sound.idle.mpr stopped.2
    obtain ⟨done, log, accepted, evaluated⟩ := sound.split
    rw [State.held, absent, sound.drained stopped.1 absent, append_nil, append_nil] at accepted
    rw [State.unwritten, absent, append_nil] at evaluated
    rw [accepted]
    exact ⟨evaluated, log⟩
  returns := sound.returns

/-- The engine survives when each event it accepted fits its record. An event that does not
has no record, so the log is then never complete. -/
theorem fitting_events_survive (capacity : Nat) (state : State)
    (reached : Reaches step EventsFirst (init capacity) state) :
    ((∀ record ∈ state.accepted, record.Fits) → Survives state) ∧
      (state.logFile.map some = state.accepted.map TelemetryRecord.pack →
        ∀ record ∈ state.accepted, record.Fits) := by
  constructor
  · intro fits
    have sound : (∀ record ∈ state.accepted, record.Fits) → Sound state := by
      apply Reaches.invariant reached
      · exact fun _ => Sound.init capacity
      · intro before action after sound first advanced fits
        exact (sound fun record inside => fits record (step_accepted advanced inside)).step first
          advanced fits
    exact (sound fits).survives
  · intro complete record inside
    have packed : record.pack ∈ state.accepted.map TelemetryRecord.pack := mem_map.mpr ⟨record, inside, rfl⟩
    rw [← complete] at packed
    obtain ⟨bytes, -, same⟩ := mem_map.mp packed
    rw [← record.isSome_pack, ← same]
    rfl

/-- From `start_logging` on with one batch of the given size: the worker's steps to its end. -/
def drainOnce (records : Nat) : List Action :=
  [.startLogging, .stopLogging, .work, .work, .clock 0] ++
    (List.replicate records [.work, .work, .work, .work, .work]).flatten ++
    [.work, .work, .clock 0, .work, .work, .join]

theorem fitting_events_survive_two : ∃ state, Reaches step EventsFirst (init 4) state ∧ state.accepted.length = 2 ∧
      state.Stopped ∧ Survives state := by
  have passes : ((executeIf step eventsFirst (init 4) ([.recordEvent ⟨5, 1, 2, 3⟩,
      .recordEvent ⟨6, 4294967295, 0, 18446744073709551615⟩] ++ drainOnce 2)).any
      fun state => state.accepted.length == 2 && ((state.started && (!state.running &&
        !state.joining)) && decide (∀ record ∈ state.accepted, record.Fits))) = true := by
    decide
  obtain ⟨state, reached, tested⟩ := exists_reaches_of_executeIf (fun _ _ => id) passes
  simp only [Bool.and_eq_true, beq_iff_eq, Bool.not_eq_true', decide_eq_true_eq] at tested
  exact ⟨state, reached, tested.1, tested.2.1, (fitting_events_survive 4 state reached).1 tested.2.2⟩

/-- An event id of 33 bits ends the worker at the first record. `stop_logging` returns, and
neither that event nor the one behind it was written. -/
theorem oversized_event_stops : ∃ state, Reaches step EventsFirst (init 4) state ∧ state.accepted.length = 2 ∧
      state.Stopped ∧ state.evaluated.length = 1 ∧ state.logFile = [] := by
  have passes : ((executeIf step eventsFirst (init 4) ([.recordEvent ⟨5, 4294967296, 2, 3⟩,
      .recordEvent ⟨6, 1, 2, 3⟩, .startLogging, .work, .work, .clock 0, .work, .work, .work,
      .work, .work, .stopLogging, .join])).any
      fun state => state.accepted.length == 2 && ((state.started && (!state.running &&
        !state.joining)) && (state.evaluated.length == 1 && state.logFile.isEmpty))) = true := by
    decide
  obtain ⟨state, reached, tested⟩ := exists_reaches_of_executeIf (fun _ _ => id) passes
  simp only [Bool.and_eq_true, beq_iff_eq, Bool.not_eq_true', List.isEmpty_iff] at tested
  exact ⟨state, reached, tested.1, tested.2.1, tested.2.2⟩

end AnimusCore.Fallback.Unbounded

import AnimusCore.Engine.Roles

/-! Where the records are. What the worker has popped is what it has evaluated, followed
by what it still holds; what it has evaluated is what it has written, followed by what
it still has to write, unless a write failed. -/

set_option autoImplicit false

namespace AnimusCore.Engine

open RingBuffer List

section

variable {Thread : Type}

def Worker.unevaluated : Worker Thread → List (Record Thread)
  | .popping batch | .rulesLock batch | .cepRulesLock batch _ | .readClock batch _ _ => batch
  | .evaluating _ rest _ | .signalling _ rest _ _ => rest
  | _ => []

def Worker.evaluated : Worker Thread → List (Record Thread)
  | .evaluating done _ _ | .signalling done _ _ _ => done
  | .writing _ rest => rest
  | _ => []

/-- A popped value that the caller has not looked at. -/
def handed {T : Type} : Phase T → List T
  | .popped out => [out]
  | _ => []

/-- The worker's `item` on its way into the batch. -/
def View.item (view : View Thread) : List (Record Thread) :=
  match view.worker with
  | .popping _ => handed (view.ring.phases .worker)
  | _ => []

def View.popped (view : View Thread) : List (Record Thread) :=
  view.ring.retired.map fun entry => entry.2.2

def View.evaluatedRecords (view : View Thread) : List (Record Thread) :=
  view.evaluations.map Evaluation.record

structure Conserved (view : View Thread) : Prop where
  popped : view.popped = view.evaluatedRecords ++ (view.worker.unevaluated ++ view.item)
  logged : (view.logFile ++ view.worker.evaluated).Sublist view.evaluatedRecords

def Written (view : View Thread) : Prop :=
  view.evaluatedRecords = view.logFile ++ view.worker.evaluated

structure SameWorker (view after : View Thread) : Prop where
  unevaluated : after.worker.unevaluated ++ after.item = view.worker.unevaluated ++ view.item
  evaluated : after.worker.evaluated = view.worker.evaluated
  popped : after.popped = view.popped
  logFile : after.logFile = view.logFile
  evaluations : after.evaluations = view.evaluations

theorem Conserved.frame {view after : View Thread} (conserved : Conserved view)
    (same : SameWorker view after) : Conserved after where
  popped := by
    rw [same.popped, same.unevaluated, View.evaluatedRecords, same.evaluations]
    exact conserved.popped
  logged := by
    rw [same.logFile, same.evaluated, View.evaluatedRecords, same.evaluations]
    exact conserved.logged

theorem Written.frame {view after : View Thread} (written : Written view)
    (same : SameWorker view after) : Written after := by
  unfold Written View.evaluatedRecords
  rw [same.logFile, same.evaluated, same.evaluations]
  exact written

theorem Conserved.initial (records : Nat → Record Thread) (signals : Nat → ThreatSignal) :
    Conserved (initial records signals).view :=
  ⟨rfl, List.Sublist.slnil⟩

end

variable {Thread : Type} [DecidableEq Thread] {view after : View Thread} {action : Action Thread}

omit [DecidableEq Thread] in
private theorem sameWorker_control (step : ControlStep view action after) : SameWorker view after := by
  cases step with
  | startSpawn _ here | stopJoin _ here =>
    constructor <;> simp [here, View.item, View.popped, Worker.unevaluated, Worker.evaluated]
  | _ => exact ⟨rfl, rfl, rfl, rfl, rfl⟩

omit [DecidableEq Thread] in
private theorem sameWorker_register (step : RegisterStep view action after) : SameWorker view after := by
  cases step with
  | addRule | addCepRule => exact ⟨rfl, rfl, rfl, rfl, rfl⟩

private theorem item_go_caller {thread : Thread} {phase : Phase (Record Thread)} {callers : Thread → Caller} :
    View.item { view with ring := view.ring.go (.caller thread) phase, callers } = view.item := by
  unfold View.item
  rw [go_phases, if_neg (by simp)]

private theorem sameWorker_caller (step : CallerStep view action after) : SameWorker view after := by
  cases step with
  | pushes =>
    refine ⟨?_, rfl, rfl, rfl, rfl⟩
    rw [item_go_caller]
  | _ => exact ⟨rfl, rfl, rfl, rfl, rfl⟩

/-- Retiring a position hands its record to the worker. -/
theorem Roles.popped_effect (roles : Roles view) {party : Party Thread}
    {ring : Summary (Party Thread) (Record Thread)} (effect : Effect view.ring party ring) :
    ∃ new, View.popped { view with ring } = view.popped ++ new ∧ View.item { view with ring } = view.item ++ new := by
  have reads := roles.worker_reads
  by_cases own : party = .worker
  · subst own
    cases effect with
    | moves => exact ⟨[], by simp, by simp⟩
    | claims phase | publishes phase | refuses phase =>
      rw [phase] at reads
      exact reads.elim
    | takes phase | empty phase =>
      refine ⟨[], by simp [View.popped, Summary.go], ?_⟩
      cases here : view.worker <;> simp [View.item, here, go_phases_self, phase, handed]
    | @retires owner pos out phase found =>
      rw [phase] at reads
      obtain ⟨batch, popping⟩ := reads
      refine ⟨[out], by simp [View.popped], ?_⟩
      simp [View.item, popping, go_phases_self, phase, handed]
  · refine ⟨[], ?_, ?_⟩
    · rw [append_nil]
      cases effect with
      | retires phase => exact absurd (roles.single.reads_only (.inr ⟨_, phase⟩)) own
      | _ => rfl
    · rw [append_nil]
      unfold View.item
      rw [effect.phases_of_ne (Ne.symm own)]

omit [DecidableEq Thread] in
theorem Collects.held {batch : List (Record Thread)} (collects : Collects view action batch) :
    view.worker.unevaluated ++ view.item = batch ∧ view.worker.evaluated = [] := by
  cases collects with
  | item popping phase =>
    simp [View.item, popping, phase, handed, Worker.unevaluated, Worker.evaluated]
  | opening here | reopening here | written here | again here =>
    simp [View.item, here, Worker.unevaluated, Worker.evaluated]

theorem emit_held {done rest : List (Record Thread)} {snapshot : Snapshot} (signals : List ThreatSignal) :
    (view.emit done rest snapshot signals).worker.unevaluated = rest ∧
      (view.emit done rest snapshot signals).worker.evaluated = done ∧
      (view.emit done rest snapshot signals).item = [] ∧ (view.emit done rest snapshot signals).popped = view.popped ∧
      (view.emit done rest snapshot signals).logFile = view.logFile ∧
      (view.emit done rest snapshot signals).evaluations = view.evaluations := by
  cases signals <;> exact ⟨rfl, rfl, rfl, rfl, rfl, rfl⟩

/-- A step of the worker pops nothing, and what it evaluates comes from the front of what
it holds. -/
theorem WorkerStep.evaluates_front (step : WorkerStep view action after) : after.popped = view.popped ∧
      ∃ new, after.evaluatedRecords = view.evaluatedRecords ++ new ∧ view.worker.unevaluated ++ view.item =
          new ++ (after.worker.unevaluated ++ after.item) := by
  cases step with
  | pops collects =>
    refine ⟨rfl, [], (append_nil _).symm, ?_⟩
    rw [collects.held.1]
    simp [View.item, go_phases_self, handed, Worker.unevaluated]
  | filled collects =>
    refine ⟨rfl, [], (append_nil _).symm, ?_⟩
    rw [collects.held.1]
    simp [View.item, Worker.unevaluated]
  | openFails here =>
    refine ⟨rfl, [], (append_nil _).symm, ?_⟩
    rcases here with here | here <;> simp [View.item, here, Worker.unevaluated]
  | drained here phase | ends here _ phase =>
    refine ⟨rfl, [], (append_nil _).symm, ?_⟩
    simp [View.item, here, phase, handed, Worker.unevaluated]
  | @evaluates done rest record snapshot signals cepRules here fired =>
    refine ⟨(emit_held signals).2.2.2.1, [record], ?_, ?_⟩
    · unfold View.evaluatedRecords
      rw [(emit_held signals).2.2.2.2.2, map_append]
      rfl
    · rw [(emit_held signals).1, (emit_held signals).2.2.1]
      simp [View.item, here, Worker.unevaluated]
  | @signals done rest snapshot signals here =>
    refine ⟨(emit_held signals.tail).2.2.2.1, [], ?_, ?_⟩
    · unfold View.evaluatedRecords
      rw [(emit_held signals.tail).2.2.2.2.2, append_nil]
    · rw [(emit_held signals.tail).1, (emit_held signals.tail).2.2.1]
      simp [View.item, here, Worker.unevaluated]
  | sleep here | retries here | givesUp here | rulesLock here | cepRulesLock here
  | readClock here | evaluated here | stores here | writeFails here | exits here =>
    refine ⟨rfl, [], (append_nil _).symm, ?_⟩
    simp [View.item, here, Worker.unevaluated]

/-- What a step of the worker evaluates it has to write; only a failed write gives up
records. -/
theorem WorkerStep.writes_front (step : WorkerStep view action after) :
    ∃ new, after.evaluatedRecords = view.evaluatedRecords ++ new ∧
      (after.logFile ++ after.worker.evaluated = view.logFile ++ view.worker.evaluated ++ new ∨
        action = .writeFails ∧ after.logFile = view.logFile ∧ after.worker.evaluated = []) := by
  cases step with
  | pops collects | filled collects =>
    refine ⟨[], (append_nil _).symm, .inl ?_⟩
    rw [collects.held.2]
    simp [Worker.evaluated]
  | openFails here =>
    refine ⟨[], (append_nil _).symm, .inl ?_⟩
    rcases here with here | here <;> simp [here, Worker.evaluated]
  | @evaluates done rest record snapshot signals cepRules here fired =>
    refine ⟨[record], ?_, .inl ?_⟩
    · unfold View.evaluatedRecords
      rw [(emit_held signals).2.2.2.2.2, map_append]
      rfl
    · rw [(emit_held signals).2.1, (emit_held signals).2.2.2.2.1]
      simp [here, Worker.evaluated]
  | @signals done rest snapshot signals here =>
    refine ⟨[], ?_, .inl ?_⟩
    · unfold View.evaluatedRecords
      rw [(emit_held signals.tail).2.2.2.2.2, append_nil]
    · rw [(emit_held signals.tail).2.1, (emit_held signals.tail).2.2.2.2.1]
      simp [here, Worker.evaluated]
  | writeFails here => exact ⟨[], (append_nil _).symm, .inr ⟨rfl, rfl, rfl⟩⟩
  | sleep here | retries here | givesUp here | drained here | ends here | rulesLock here
  | cepRulesLock here | readClock here | evaluated here | stores here | exits here =>
    refine ⟨[], (append_nil _).symm, .inl ?_⟩
    simp [here, Worker.evaluated]

theorem Roles.sameWorker (roles : Roles view) (step : Step view action after) :
    SameWorker view after ∨ WorkerStep view action after ∨ ∃ new, after.popped = view.popped ++ new ∧
        after.worker.unevaluated ++ after.item = view.worker.unevaluated ++ view.item ++ new ∧
        after.worker = view.worker ∧ after.logFile = view.logFile ∧ after.evaluations = view.evaluations := by
  cases step with
  | ring effect =>
    obtain ⟨new, popped, item⟩ := roles.popped_effect effect
    refine .inr (.inr ⟨new, popped, ?_, rfl, rfl, rfl⟩)
    rw [item, append_assoc]
  | signalRing | ringSpurious | signalRingSpurious => exact .inl ⟨rfl, rfl, rfl, rfl, rfl⟩
  | caller step => exact .inl (sameWorker_caller step)
  | worker step => exact .inr (.inl step)
  | control step => exact .inl (sameWorker_control step)
  | register step => exact .inl (sameWorker_register step)

theorem Conserved.step (conserved : Conserved view) (roles : Roles view)
    (step : Step view action after) : Conserved after := by
  rcases roles.sameWorker step with same | own | ⟨new, popped, held, worker, logFile, evaluations⟩
  · exact conserved.frame same
  · obtain ⟨popped, new, evaluated, held⟩ := own.evaluates_front
    refine ⟨?_, ?_⟩
    · rw [popped, conserved.popped, held, evaluated, append_assoc]
    · obtain ⟨more, grown, logged | ⟨-, logFile, given⟩⟩ := own.writes_front
      · rw [grown, logged]
        exact conserved.logged.append (List.Sublist.refl more)
      · rw [grown, logFile, given, append_nil]
        have kept := (sublist_append_left view.logFile _).trans conserved.logged
        exact kept.trans (sublist_append_left _ _)
  · refine ⟨?_, ?_⟩
    · rw [popped, conserved.popped, held, View.evaluatedRecords, View.evaluatedRecords, evaluations, append_assoc]
    · rw [logFile, worker, View.evaluatedRecords, evaluations]
      exact conserved.logged

theorem Written.step (written : Written view) (roles : Roles view)
    (stores : action ≠ .writeFails) (step : Step view action after) : Written after := by
  rcases roles.sameWorker step with same | own | ⟨-, -, -, worker, logFile, evaluations⟩
  · exact written.frame same
  · obtain ⟨new, grown, logged | ⟨fails, -⟩⟩ := own.writes_front
    · unfold Written
      rw [grown, logged, written]
    · exact absurd fails stores
  · unfold Written View.evaluatedRecords
    rw [logFile, worker, evaluations]
    exact written

end AnimusCore.Engine

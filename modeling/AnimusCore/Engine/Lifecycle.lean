import AnimusCore.Engine.Views

/-! The life of the worker thread. `start_persistence` spawns a worker only where there is
none, and a worker leaves only after `stop_persistence` has cleared the flag. -/

set_option autoImplicit false

namespace AnimusCore.Engine

section

variable {Thread : Type}

def Worker.alive : Worker Thread → Bool
  | .absent | .exited => false
  | _ => true

/-- Between calls the flag tells whether there is a worker. -/
def Control.Agrees (running : Bool) (worker : Worker Thread) : Control Thread → Prop
  | .idle | .startLoad | .stopLoad _ | .stopped _ =>
    running = true ∧ worker.alive = true ∨ running = false ∧ worker = .absent
  | .startStore => running = false ∧ worker = .absent
  | .startSpawn => running = true ∧ worker = .absent
  | .stopStore _ => running = true ∧ worker.alive = true
  | .stopJoin _ => running = false ∧ worker ≠ .absent

def Lifecycle (view : View Thread) : Prop :=
  view.control.Agrees view.running view.worker

theorem Control.Agrees.worker {running : Bool} {worker next : Worker Thread} {control : Control Thread}
    (agrees : control.Agrees running worker) (was : worker.alive = true)
    (is : next.alive = true ∨ running = false ∧ next = .exited) : control.Agrees running next := by
  have present : worker ≠ .absent := by
    rintro rfl
    cases was
  have present' : next ≠ .absent := by
    rintro rfl
    rcases is with alive | ⟨-, exited⟩
    · cases alive
    · cases exited
  cases control with
  | idle | startLoad | stopLoad | stopped =>
    rcases agrees with ⟨up, -⟩ | ⟨-, absent⟩
    · refine .inl ⟨up, is.resolve_right ?_⟩
      rintro ⟨down, -⟩
      rw [up] at down
      cases down
    · exact absurd absent present
  | startStore | startSpawn => exact absurd agrees.2 present
  | stopStore =>
    refine ⟨agrees.1, is.resolve_right ?_⟩
    rintro ⟨down, -⟩
    rw [agrees.1] at down
    cases down
  | stopJoin => exact ⟨agrees.1, present'⟩

end

variable {Thread : Type} [DecidableEq Thread] {view after : View Thread} {action : Action Thread}

private theorem emit_alive {done rest : List (Record Thread)} {snapshot : Snapshot} (signals : List ThreatSignal) :
    (view.emit done rest snapshot signals).worker.alive = true ∧
      (view.emit done rest snapshot signals).control = view.control ∧
      (view.emit done rest snapshot signals).running = view.running := by
  cases signals <;> exact ⟨rfl, rfl, rfl⟩

/-- The worker leaves only when it finds the flag cleared. -/
theorem WorkerStep.alive (step : WorkerStep view action after) :
    view.worker.alive = true ∧ after.control = view.control ∧ after.running = view.running ∧
      (after.worker.alive = true ∨ view.running = false ∧ after.worker = .exited) := by
  cases step with
  | pops collects | filled collects =>
    refine ⟨?_, rfl, rfl, .inl rfl⟩
    cases collects with
    | opening here | reopening here | item here | written here | again here =>
      rw [here]
      rfl
  | openFails here =>
    refine ⟨?_, rfl, rfl, .inl rfl⟩
    rcases here with here | here <;> rw [here] <;> rfl
  | givesUp here stopping | exits here stopping =>
    refine ⟨?_, rfl, rfl, .inr ⟨stopping, rfl⟩⟩
    rw [here]
    rfl
  | evaluates here | signals here =>
    refine ⟨?_, (emit_alive _).2.1, (emit_alive _).2.2, .inl (emit_alive _).1⟩
    rw [here]
    rfl
  | sleep here | retries here | drained here | ends here | rulesLock here | cepRulesLock here
  | readClock here | evaluated here | stores here | writeFails here =>
    refine ⟨?_, rfl, rfl, .inl rfl⟩
    rw [here]
    rfl

theorem Lifecycle.worker (life : Lifecycle view) (step : WorkerStep view action after) : Lifecycle after := by
  obtain ⟨was, control, running, is⟩ := step.alive
  unfold Lifecycle
  rw [control, running]
  exact Control.Agrees.worker life was is

omit [DecidableEq Thread] in
theorem Lifecycle.control (life : Lifecycle view) (step : ControlStep view action after) : Lifecycle after := by
  unfold Lifecycle at life
  cases step with
  | startPersistence free | stopPersistence free =>
    unfold Core.unoccupied at free
    split at free
    case h_1 here =>
      rw [here] at life
      exact life
    case h_2 here =>
      rw [here] at life
      exact life
    case h_3 => cases free
  | started here | unstarted here =>
    rw [here] at life
    exact life
  | starts here off =>
    rw [here] at life
    refine ⟨off, (life.resolve_left ?_).2⟩
    rintro ⟨on, -⟩
    rw [off] at on
    cases on
  | startStore here =>
    rw [here] at life
    exact ⟨rfl, life.2⟩
  | startSpawn here =>
    rw [here] at life
    exact .inl ⟨life.1, rfl⟩
  | stops here on =>
    rw [here] at life
    refine life.resolve_right ?_
    rintro ⟨off, -⟩
    rw [off] at on
    cases on
  | stopStore here =>
    rw [here] at life
    refine ⟨rfl, fun absent => ?_⟩
    obtain ⟨-, alive⟩ := life
    rw [absent] at alive
    cases alive
  | stopJoin here =>
    rw [here] at life
    exact .inr ⟨life.1, rfl⟩
  | unjoinable here absent =>
    rw [here] at life
    exact absurd absent life.2

theorem Lifecycle.step (life : Lifecycle view) (step : Step view action after) : Lifecycle after := by
  cases step with
  | ring | signalRing | ringSpurious | signalRingSpurious => exact life
  | caller step | register step => cases step <;> exact life
  | worker step => exact life.worker step
  | control step => exact life.control step

end AnimusCore.Engine

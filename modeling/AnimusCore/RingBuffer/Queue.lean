import AnimusCore.RingBuffer.Progress
import AnimusCore.RingBuffer.Serial

/-! The ring for threads that take turns: between the calls it holds a list of pending
records, a push appends to it or finds it full, and a pop takes its front or finds it
empty. -/

set_option autoImplicit false

namespace AnimusCore.RingBuffer

open Lib Lib.Ring

variable {Thread T : Type} {capacity : Nat}

def Access.Pushes (value : T) : Access T → Prop
  | .pushLoadPos given | .pushLoadSeq given _ | .pushExchange given _ | .pushWrite given _
  | .pushPublish given _ => given = value
  | _ => False

def Access.Pops : Access T → Prop
  | .popLoadPos | .popLoadSeq _ | .popExchange _ | .popRead _ | .popRetire _ _ => True
  | _ => False

def Holds (capacity : Nat) (state : State Thread T) (items : List T) : Prop :=
  ∃ queue : Fifo T capacity, Inv state queue ∧
    (∀ thread, (state.threads thread).resting = true) ∧ queue.pending = items

/-- The thread is in a call, the only one, and these records are pending. -/
structure Calling (capacity : Nat) (call : Access T → Prop) (thread : Thread)
    (state : State Thread T) (items : List T) : Prop where
  queue : ∃ queue : Fifo T capacity, Inv state queue ∧ queue.pending = items
  inside : call (state.threads thread)
  busy : (state.threads thread).resting = false

variable {state after : State Thread T} {thread actor : Thread} {items : List T} {value : T}
  {queue next : Fifo T capacity} {log : List (Outcome T)} {outcome : Outcome T}

theorem Access.Pushes.busy {access : Access T} (pushes : access.Pushes value) : access.resting = false := by
  cases access <;> first | rfl | cases pushes

theorem Access.Pops.busy {access : Access T} (pops : access.Pops) : access.resting = false := by
  cases access <;> first | rfl | cases pops

theorem Behaves.unique (behaves : Behaves log queue) (also : Behaves log next) : next = queue := by
  obtain ⟨pushed, taken⟩ := behaves.contents
  obtain ⟨pushed', taken'⟩ := also.contents
  exact Fifo.ext (pushed'.trans pushed.symm) (taken'.trans taken.symm)

theorem Behaves.responds (behaves : Behaves log queue)
    (later : Behaves (log ++ [outcome]) next) : Responds queue outcome next := by
  generalize whole : log ++ [outcome] = all at later
  cases later with
  | start => simp at whole
  | call earlier responds =>
    obtain ⟨rfl, last⟩ := List.append_inj' whole rfl
    cases last
    rw [← behaves.unique earlier]
    exact responds

private theorem pending_push (pushed : queue.push value = some next) :
    queue.pending.length < capacity ∧ next.pending = queue.pending ++ [value] := by
  obtain ⟨values, taken⟩ := Fifo.of_push_eq_some pushed
  have room := next.bounded
  have ordered := queue.taken_le
  rw [values, taken, List.length_append, List.length_singleton] at room
  rw [Fifo.pending, Fifo.pending, values, taken, List.length_drop, List.drop_append_of_le_length ordered]
  exact ⟨by omega, rfl⟩

private theorem pending_push_none (refused : queue.push value = none) : ¬ queue.pending.length < capacity := by
  intro room
  rw [Fifo.pending, List.length_drop] at room
  rw [Fifo.push, dif_pos (by omega)] at refused
  cases refused

private theorem pending_pop (popped : queue.pop = some (value, next)) : queue.pending = value :: next.pending := by
  obtain ⟨values, taken, front⟩ := Fifo.of_pop_eq_some popped
  obtain ⟨inside, found⟩ := List.getElem?_eq_some_iff.mp front
  rw [Fifo.pending, Fifo.pending, values, taken, List.drop_eq_getElem_cons inside, found]

private theorem pending_pop_none (refused : queue.pop = none) : queue.pending = [] := by
  rw [Fifo.pending, List.drop_eq_nil_iff]
  by_contra more
  rw [Fifo.pop, dif_pos (by omega)] at refused
  cases refused

theorem holds_initial (admitted : Admitted capacity) (data : Nat → T) :
    Holds capacity (initial data : State Thread T) [] :=
  ⟨Fifo.empty, ⟨.start, .initial admitted data, .inl ⟨fun _ => rfl, rfl, rfl⟩⟩, fun _ => rfl, rfl⟩

theorem Holds.resting (holds : Holds capacity state items) (thread : Thread) :
    (state.threads thread).resting = true := by
  obtain ⟨queue, -, rest, -⟩ := holds
  exact rest thread

variable [DecidableEq Thread]

/-- An access of the thread, or an exchange of it that fails for no reason. -/
def Moves (capacity : Nat) (thread : Thread) (state after : State Thread T) : Prop :=
  state.access machine capacity thread = some after ∨ state.exchangeFails thread = some after

theorem Moves.busy (moves : Moves capacity thread state after) : (state.threads thread).resting = false := by
  rcases moves with ran | failed
  · exact busy_of_access ran
  · exact busy_of_exchangeFails failed

theorem Moves.threads_of_ne (moves : Moves capacity actor state after) {other : Thread}
    (different : other ≠ actor) : after.threads other = state.threads other := by
  rcases moves with ran | failed
  · have stepped : step machine capacity state (.access actor) = some after := ran
    exact step_threads_of_ne stepped different
  · have stepped : step machine capacity state (.spurious actor) = some after := failed
    exact step_threads_of_ne stepped different

theorem Holds.not_moves (holds : Holds capacity state items) {size : Nat} : ¬ Moves size thread state after := by
  intro moves
  have busy := moves.busy
  rw [holds.resting thread] at busy
  cases busy

theorem Holds.exists_begin (holds : Holds capacity state items) (thread : Thread)
    (first : Access T) : ∃ after, state.begin thread first = some after :=
  ⟨_, if_pos (holds.resting thread)⟩

theorem threads_of_begin {first : Access T} (ran : state.begin thread first = some after) :
    after.threads thread = first := by
  unfold State.begin at ran
  split at ran <;> cases ran
  exact Function.update_self ..

section
variable (holds : Holds capacity state items)
include holds

theorem Holds.begin {call : Access T → Prop} (first : Access T) (opens : call first) (busy : first.resting = false)
    (follows : ∀ queue : Fifo T capacity, state.Counts queue.pushed.length queue.taken → first.Follows state queue)
    (ran : state.begin thread first = some after) : Calling capacity call thread after items := by
  obtain ⟨queue, inv, rest, pending⟩ := holds
  have kept := inv.begin rest (follows queue) ran
  have here := threads_of_begin ran
  refine ⟨⟨queue, kept, pending⟩, ?_, ?_⟩ <;> rw [here]
  · exact opens
  · exact busy

theorem Holds.push (ran : state.begin thread (.pushLoadPos value) = some after) :
    Calling capacity (Access.Pushes value) thread after items :=
  holds.begin (.pushLoadPos value) rfl rfl (fun _ counts => counts) ran

theorem Holds.pop (ran : state.begin thread .popLoadPos = some after) :
    Calling capacity Access.Pops thread after items :=
  holds.begin .popLoadPos trivial rfl (fun _ counts => counts) ran

end

section

variable {call : Access T → Prop}

/-- Only the caller has accesses to make. -/
theorem Calling.eq_of_moves (calling : Calling capacity call thread state items) {size : Nat}
    (moves : Moves size actor state after) : actor = thread := by
  by_contra different
  obtain ⟨⟨queue, inv, -⟩, -, busy⟩ := calling
  have active := moves.busy
  rw [(inv.active busy).1 actor different] at active
  cases active

theorem Calling.can_access (calling : Calling capacity call thread state items)
    (admitted : Admitted capacity) (two : 2 ≤ capacity) : ∃ after, state.access machine capacity thread = some after ∧
      (after.threads thread).remaining < (state.threads thread).remaining := by
  obtain ⟨⟨queue, inv, -⟩, -, busy⟩ := calling
  obtain ⟨after, ran⟩ := exists_access busy
  obtain ⟨next, -, less⟩ := inv.access admitted two ran
  exact ⟨after, ran, less⟩

end

private theorem access_pushes {counting : Counting} {size : Nat} (pushes : (state.threads thread).Pushes value)
    (ran : state.access counting size thread = some after) :
    (after.threads thread).Pushes value ∧ after.log = state.log ∨
      ∃ outcome, (outcome = .pushed value ∨ outcome = .full value) ∧
        after.threads thread = .returned outcome ∧ after.log = state.log ++ [outcome] := by
  cases here : state.threads thread <;> rw [here] at pushes <;> cases pushes <;>
    simp only [State.access, State.exchangeFails, here] at ran
  case pushLoadSeq pos =>
    split at ran
    · cases ran
      exact .inl ⟨by simp [State.goTo, Access.Pushes], rfl⟩
    · split at ran <;> cases ran
      · exact .inr ⟨_, .inr rfl, Function.update_self .., rfl⟩
      · exact .inl ⟨by simp [State.goTo, Access.Pushes], rfl⟩
  case pushExchange pos =>
    split at ran <;> cases ran <;> exact .inl ⟨by simp [State.goTo, Access.Pushes], rfl⟩
  case pushPublish pos =>
    cases ran
    exact .inr ⟨_, .inl rfl, Function.update_self .., rfl⟩
  all_goals
    cases ran
    exact .inl ⟨by simp [State.goTo, Access.Pushes], rfl⟩

private theorem access_pops {counting : Counting} {size : Nat} (pops : (state.threads thread).Pops)
    (ran : state.access counting size thread = some after) : (after.threads thread).Pops ∧ after.log = state.log ∨
      ∃ outcome, (outcome = .empty ∨ ∃ out, outcome = .popped out) ∧
        after.threads thread = .returned outcome ∧ after.log = state.log ++ [outcome] := by
  cases here : state.threads thread <;> rw [here] at pops <;> cases pops <;>
    simp only [State.access, State.exchangeFails, here] at ran
  case popLoadSeq pos =>
    split at ran
    · cases ran
      exact .inl ⟨by simp [State.goTo, Access.Pops], rfl⟩
    · split at ran <;> cases ran
      · exact .inr ⟨_, .inl rfl, Function.update_self .., rfl⟩
      · exact .inl ⟨by simp [State.goTo, Access.Pops], rfl⟩
  case popExchange pos =>
    split at ran <;> cases ran <;> exact .inl ⟨by simp [State.goTo, Access.Pops], rfl⟩
  case popRetire pos out =>
    cases ran
    exact .inr ⟨_, .inr ⟨out, rfl⟩, Function.update_self .., rfl⟩
  all_goals
    cases ran
    exact .inl ⟨by simp [State.goTo, Access.Pops], rfl⟩

private theorem exchangeFails_pushes (pushes : (state.threads thread).Pushes value)
    (failed : state.exchangeFails thread = some after) :
    (after.threads thread).Pushes value ∧ after.log = state.log := by
  cases here : state.threads thread <;> rw [here] at pushes <;> cases pushes <;>
    simp only [State.exchangeFails, here] at failed <;> cases failed
  exact ⟨by simp [State.goTo, Access.Pushes], rfl⟩

private theorem exchangeFails_pops (pops : (state.threads thread).Pops)
    (failed : state.exchangeFails thread = some after) : (after.threads thread).Pops ∧ after.log = state.log := by
  cases here : state.threads thread <;> rw [here] at pops <;> cases pops <;>
    simp only [State.exchangeFails, here] at failed <;> cases failed
  exact ⟨by simp [State.goTo, Access.Pops], rfl⟩

/-- What the accesses of a kind of call do: the call goes on, or it returns with an
outcome of its own, which the log records. -/
def Runs (call : Access T → Prop) (ends : Outcome T → Prop) (thread : Thread) (state after : State Thread T) : Prop :=
  call (after.threads thread) ∧ (after.threads thread).resting = false ∧ after.log = state.log ∨
    ∃ outcome, ends outcome ∧ after.threads thread = .returned outcome ∧ after.log = state.log ++ [outcome]

/-- A call that goes on leaves the pending records; one that returns has responded to
them, and then nobody is in a call. -/
theorem Calling.moves {call : Access T → Prop} {ends : Outcome T → Prop}
    (calling : Calling capacity call thread state items) (admitted : Admitted capacity) (two : 2 ≤ capacity)
    (moves : Moves capacity thread state after) (runs : Runs call ends thread state after) :
    Calling capacity call thread after items ∨
      ∃ (queue next : Fifo T capacity) (outcome : Outcome T), queue.pending = items ∧
        ends outcome ∧ Responds queue outcome next ∧
        after.threads thread = .returned outcome ∧ Holds capacity after next.pending := by
  obtain ⟨⟨queue, inv, pending⟩, -, busy⟩ := calling
  obtain ⟨next, kept⟩ : ∃ next : Fifo T capacity, Inv after next := by
    rcases moves with ran | failed
    · obtain ⟨next, kept, -⟩ := inv.access admitted two ran
      exact ⟨next, kept⟩
    · exact ⟨queue, inv.exchangeFails failed⟩
  rcases runs with ⟨inside, still, quiet⟩ | ⟨outcome, own, returned, logged⟩
  · have same : next = queue := inv.behaves.unique (quiet ▸ kept.behaves)
    exact .inl ⟨⟨next, kept, same ▸ pending⟩, inside, still⟩
  · refine .inr ⟨queue, next, outcome, pending, own, ?_, returned, next, kept, ?_, rfl⟩
    · exact inv.behaves.responds (logged ▸ kept.behaves)
    · intro other
      by_cases same : other = thread
      · rw [same, returned]
        rfl
      · rw [moves.threads_of_ne same]
        exact (inv.active busy).1 other same

private theorem runs_push (pushes : (state.threads thread).Pushes value) (moves : Moves capacity thread state after) :
    Runs (Access.Pushes value) (fun outcome => outcome = .pushed value ∨ outcome = .full value)
      thread state after := by
  rcases moves with ran | failed
  · rcases access_pushes pushes ran with ⟨still, quiet⟩ | returned
    · exact .inl ⟨still, still.busy, quiet⟩
    · exact .inr returned
  · obtain ⟨still, quiet⟩ := exchangeFails_pushes pushes failed
    exact .inl ⟨still, still.busy, quiet⟩

private theorem runs_pop (pops : (state.threads thread).Pops) (moves : Moves capacity thread state after) :
    Runs Access.Pops (fun outcome => outcome = .empty ∨ ∃ out, outcome = .popped out) thread state after := by
  rcases moves with ran | failed
  · rcases access_pops pops ran with ⟨still, quiet⟩ | returned
    · exact .inl ⟨still, still.busy, quiet⟩
    · exact .inr returned
  · obtain ⟨still, quiet⟩ := exchangeFails_pops pops failed
    exact .inl ⟨still, still.busy, quiet⟩

/-- The push has returned: it found room behind these records, or none. -/
def Pushed (capacity : Nat) (thread : Thread) (value : T) (state : State Thread T) (items : List T) : Prop :=
  items.length < capacity ∧ state.threads thread = .returned (.pushed value) ∧
      Holds capacity state (items ++ [value]) ∨
    ¬ items.length < capacity ∧ state.threads thread = .returned (.full value) ∧ Holds capacity state items

/-- The pop has returned with the first of these records, or there was none. -/
def Popped (capacity : Nat) (thread : Thread) (state : State Thread T) (items : List T) : Prop :=
  (∃ out rest, items = out :: rest ∧ state.threads thread = .returned (.popped out) ∧ Holds capacity state rest) ∨
    items = [] ∧ state.threads thread = .returned .empty ∧ Holds capacity state []

def Pushing (capacity : Nat) (thread : Thread) (value : T) (state : State Thread T) (items : List T) : Prop :=
  Calling capacity (Access.Pushes value) thread state items ∨ Pushed capacity thread value state items

def Popping (capacity : Nat) (thread : Thread) (state : State Thread T) (items : List T) : Prop :=
  Calling capacity Access.Pops thread state items ∨ Popped capacity thread state items

omit [DecidableEq Thread] in
theorem Pushed.holds (pushed : Pushed capacity thread value state items) : ∃ later, Holds capacity state later := by
  rcases pushed with ⟨-, -, holds⟩ | ⟨-, -, holds⟩ <;> exact ⟨_, holds⟩

omit [DecidableEq Thread] in
theorem Popped.holds (popped : Popped capacity thread state items) : ∃ later, Holds capacity state later := by
  rcases popped with ⟨_, _, -, -, holds⟩ | ⟨-, -, holds⟩ <;> exact ⟨_, holds⟩

theorem Pushing.step (pushing : Pushing capacity thread value state items) (admitted : Admitted capacity)
    (two : 2 ≤ capacity) (moves : Moves capacity actor state after) : Pushing capacity thread value after items := by
  rcases pushing with calling | pushed
  · rw [calling.eq_of_moves moves] at moves
    rcases calling.moves admitted two moves (runs_push calling.inside moves) with
      still | ⟨queue, next, outcome, rfl, rfl | rfl, responds, returned, holds⟩
    · exact .inl still
    · cases responds with
      | pushed accepted =>
        obtain ⟨room, pending⟩ := pending_push accepted
        exact .inr (.inl ⟨room, returned, pending ▸ holds⟩)
    · cases responds with
      | full refused => exact .inr (.inr ⟨pending_push_none refused, returned, holds⟩)
  · obtain ⟨later, holds⟩ := pushed.holds
    exact absurd moves holds.not_moves

theorem Popping.step (popping : Popping capacity thread state items) (admitted : Admitted capacity)
    (two : 2 ≤ capacity) (moves : Moves capacity actor state after) : Popping capacity thread after items := by
  rcases popping with calling | popped
  · rw [calling.eq_of_moves moves] at moves
    rcases calling.moves admitted two moves (runs_pop calling.inside moves) with
      still | ⟨queue, next, outcome, rfl, rfl | ⟨out, rfl⟩, responds, returned, holds⟩
    · exact .inl still
    · cases responds with
      | empty refused =>
        have none := pending_pop_none refused
        exact .inr (.inr ⟨none, returned, none ▸ holds⟩)
    · cases responds with
      | popped found =>
        exact .inr (.inl ⟨out, next.pending, pending_pop found, returned, holds⟩)
  · obtain ⟨later, holds⟩ := popped.holds
    exact absurd moves holds.not_moves

omit [DecidableEq Thread] in
theorem Pushing.returned (pushing : Pushing capacity thread value state items)
    (here : state.threads thread = .returned outcome) : Pushed capacity thread value state items := by
  rcases pushing with calling | pushed
  · have busy := calling.busy
    rw [here] at busy
    cases busy
  · exact pushed

omit [DecidableEq Thread] in
theorem Popping.returned (popping : Popping capacity thread state items)
    (here : state.threads thread = .returned outcome) : Popped capacity thread state items := by
  rcases popping with calling | popped
  · have busy := calling.busy
    rw [here] at busy
    cases busy
  · exact popped

theorem Pushing.advances (pushing : Pushing capacity thread value state items)
    (admitted : Admitted capacity) (two : 2 ≤ capacity) :
    Pushed capacity thread value state items ∨ ∃ after, state.access machine capacity thread = some after ∧
        (after.threads thread).remaining < (state.threads thread).remaining := by
  rcases pushing with calling | pushed
  · exact .inr (calling.can_access admitted two)
  · exact .inl pushed

theorem Popping.advances (popping : Popping capacity thread state items)
    (admitted : Admitted capacity) (two : 2 ≤ capacity) :
    Popped capacity thread state items ∨ ∃ after, state.access machine capacity thread = some after ∧
        (after.threads thread).remaining < (state.threads thread).remaining := by
  rcases popping with calling | popped
  · exact .inr (calling.can_access admitted two)
  · exact .inl popped

end AnimusCore.RingBuffer

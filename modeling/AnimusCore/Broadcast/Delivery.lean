import AnimusCore.Broadcast.Ring

/-! What a reader of the one-atomic ring receives. The newest `capacity - 1` records are
always whole in their slots, because at most one write has started beyond the cursor;
a reader trusts exactly those. -/

set_option autoImplicit false

namespace AnimusCore.Broadcast

open Lib Lib.Ring Function

section

variable {Reader Byte : Type} {width : Nat}

def Writer.Valid (cursor : Nat) (slot : Words Byte width) : Writer Byte width → Prop
  | .idle => True
  | .loadCursor _ => cursor + 1 < wordSize
  | .writeSlot value w todo => w = cursor ∧ cursor + 1 < wordSize ∧ Copied todo slot value

def View.poller (view : View Byte width) : Poller Byte width :=
  ⟨view.read, view.dropped, view.call, view.results⟩

/-- One write may have started beyond the cursor, and nothing shared tells. -/
def View.Valid (capacity : Capacity) (records : List (Words Byte width)) (view : View Byte width) : Prop :=
  view.poller.Valid capacity records (records.length + 1)

structure Inv (capacity : Capacity) (state : State Reader Byte width) : Prop where
  cursor_eq : state.cursor = state.published.length
  cursor_lt : state.published.length < wordSize
  writer : state.writer.Valid state.published.length (state.slots (capacity.slot state.published.length))
  retains : Retains capacity state.slots state.published (state.published.length + 1)
  views : ∀ reader, (state.views reader).Valid capacity state.published

/-- Runs in which the writer takes no step and the given reader begins no call. -/
def DuringPoll (reader : Reader) (_ : State Reader Byte width) : Action Reader Byte width → Prop
  | .publish _ | .write | .writeByte _ => False
  | .poll other _ => other ≠ reader
  | .read _ | .readByte _ _ => True

def State.oldest (capacity : Capacity) (state : State Reader Byte width) (reader : Reader) : Nat :=
  max (state.views reader).read (state.cursor - (capacity.size - 1))

/-- The records that a poll returns if nothing is written meanwhile. -/
def State.readable (capacity : Capacity) (state : State Reader Byte width) (reader : Reader)
    (maxCount : Nat) : List (Words Byte width × Nat) :=
  let tail := state.oldest capacity reader
  ((state.published.drop tail).take (min maxCount (state.cursor - tail))).zipIdx tail

end

variable {Reader Byte : Type} {width : Nat} {capacity : Capacity}
  {start state after : State Reader Byte width} {view : View Byte width}
  {records more : List (Words Byte width)} {reader other : Reader} {maxCount : Nat}

theorem Inv.initial (slots : Nat → Words Byte width) : Inv capacity (initial slots : State Reader Byte width) where
  cursor_eq := rfl
  cursor_lt := by
    change 0 < wordSize
    decide
  writer := trivial
  retains := Retains.empty
  views _ := ⟨Received.none, Nat.le_refl 0, nofun⟩

theorem Inv.publish (inv : Inv capacity state) {value : Words Byte width} (room : state.cursor + 1 < wordSize)
    (ran : state.publish value = some after) : Inv capacity after := by
  unfold State.publish at ran
  rw [inv.cursor_eq] at room
  split at ran
  case h_1 =>
    cases ran
    exact { inv with writer := room }
  case h_2 => cases ran

theorem Inv.writeByte (inv : Inv capacity state) {byte : Fin width}
    (ran : state.writeByte capacity byte = some after) : Inv capacity after := by
  have writer := inv.writer
  unfold State.writeByte at ran
  split at ran
  case h_2 => cases ran
  case h_1 value w todo here =>
    split at ran
    case isFalse => cases ran
    case isTrue left =>
      cases ran
      rw [here] at writer
      obtain ⟨rfl, room, copied⟩ := writer
      have written := copied.word byte
      rw [← update_self (capacity.slot state.published.length)
        (update (state.slots (capacity.slot state.published.length)) byte (value byte))
        state.slots] at written
      exact { inv with writer := ⟨rfl, room, written⟩, retains := inv.retains.write _ }

theorem Inv.write (inv : Inv capacity state) (ran : state.write = some after) : Inv capacity after := by
  have writer := inv.writer
  unfold State.write at ran
  split at ran
  case h_1 => cases ran
  case h_2 value here =>
    cases ran
    rw [here] at writer
    exact { inv with writer := ⟨inv.cursor_eq, writer, Copied.start⟩ }
  case h_3 value w todo here =>
    split at ran
    case isFalse => cases ran
    case isTrue done =>
      cases ran
      rw [here, done] at writer
      obtain ⟨rfl, room, copied⟩ := writer
      have stored : state.published.length + 1 = (state.published ++ [value]).length := by
        rw [List.length_append, List.length_singleton]
      refine ⟨?_, ?_, trivial, ?_, fun reader => ?_⟩
      · rw [succ64_eq room]
        exact stored
      · exact stored ▸ room
      · exact (inv.retains.publish copied.finish).start (stored ▸ Nat.le_succ _)
      · exact Poller.Valid.mono (inv.views reader) (stored ▸ Nat.le_succ _) (List.prefix_append _ _)

/-- The window check moves the reader to the oldest record it can trust and counts the
records in between. -/
theorem View.Valid.snap_eq {c : Nat} (valid : view.Valid capacity records)
    (length : records.length = c) (limit : c < wordSize) : view.snap capacity c = { view with
      read := view.poller.oldest (capacity.size - 1) c
      dropped := view.dropped + (view.poller.oldest (capacity.size - 1) c - view.read) } := by
  have behind : view.read ≤ records.length := Poller.Valid.tail_le valid
  have accounted : _ + view.dropped = view.read := (Poller.Valid.received valid).accounted
  have oldest : view.poller.oldest (capacity.size - 1) c = max view.read (c - (capacity.size - 1)) := rfl
  unfold View.snap
  rw [sub64_eq (by omega) limit]
  split
  case isTrue far =>
    have moved : view.poller.oldest (capacity.size - 1) c = c - (capacity.size - 1) := by omega
    rw [sub64_eq (by omega) limit, sub64_eq (by omega) (by omega), add64_eq (by omega), moved]
  case isFalse near =>
    have still : view.poller.oldest (capacity.size - 1) c = view.read := by omega
    rw [still, Nat.sub_self]
    rfl

theorem View.Valid.loadCursor_poller [Inhabited Byte] {c : Nat}
    (valid : view.Valid capacity records) (length : records.length = c) (limit : c < wordSize) :
    (view.loadCursor capacity c maxCount).poller = view.poller.load (capacity.size - 1) c maxCount := by
  have behind : view.read ≤ records.length := Poller.Valid.tail_le valid
  have oldest : view.poller.oldest (capacity.size - 1) c = max view.read (c - (capacity.size - 1)) := rfl
  have count : ∀ avail, (if avail < maxCount then avail else maxCount) = min maxCount avail := by
    intro avail
    split <;> omega
  unfold View.loadCursor Poller.load
  rw [valid.snap_eq length limit]
  simp only [count]
  rw [sub64_eq (by omega) limit]
  split <;> rfl

theorem View.oldestIntact_eq (capacity : Capacity) (c2 : Nat) :
    View.oldestIntact capacity c2 = c2 + 1 - capacity.size := by
  unfold View.oldestIntact
  split <;> omega

theorem View.Valid.validate_poller {batch : Batch Byte width} {c2 : Nat} (valid : view.Valid capacity records)
    (here : view.call = .copying batch) (limit : records.length < wordSize) :
    (view.validate capacity batch c2).poller = view.poller.finish batch (c2 + 1 - capacity.size) := by
  obtain ⟨first, sound⟩ := Poller.Valid.copying valid batch here
  change batch.first = view.read at first
  have inside := sound.inside
  have accounted : _ + view.dropped = view.read := (Poller.Valid.received valid).accounted
  unfold View.validate Poller.finish
  rw [Batch.spoiled_eq, View.oldestIntact_eq]
  simp only
  rw [add64_eq (by omega)]
  split
  case isTrue some =>
    rw [add64_eq (by omega)]
    rfl
  case isFalse none =>
    have zero : min batch.count (c2 + 1 - capacity.size - batch.first) = 0 := by omega
    rw [zero]
    rfl

variable [DecidableEq Reader]

theorem Inv.setView (inv : Inv capacity state) (valid : view.Valid capacity state.published) :
    Inv capacity (state.setView reader view) where
  __ := inv
  views other := by
    by_cases same : other = reader
    · subst same
      simp only [State.setView, update_self]
      exact valid
    · simp only [State.setView, update_of_ne same]
      exact inv.views other

theorem Inv.poll (inv : Inv capacity state) (ran : state.poll reader maxCount = some after) : Inv capacity after := by
  have valid : Poller.Valid _ _ _ _ := inv.views reader
  simp only [State.poll] at ran
  split at ran <;> cases ran
  exact inv.setView ⟨valid.received, valid.tail_le, nofun⟩

variable [Inhabited Byte]

def View.Steps (capacity : Capacity) (state : State Reader Byte width) (before after : View Byte width) : Prop :=
  before.poller.Step capacity state.slots (capacity.size - 1) state.published.length
    (state.published.length + 1 - capacity.size) after.poller

omit [DecidableEq Reader] in
theorem Inv.steps_valid (inv : Inv capacity state) (steps : View.Steps capacity state (state.views reader) view) :
    view.Valid capacity state.published :=
  Poller.Valid.step (inv.views reader) inv.retains (by omega) steps

private theorem readByte_steps {byte : Fin width} (ran : state.readByte capacity reader byte = some after) :
    ∃ view, after = state.setView reader view ∧ View.Steps capacity state (state.views reader) view := by
  simp only [State.readByte] at ran
  split at ran
  case h_2 => cases ran
  case h_1 batch here =>
    split at ran
    case isFalse => cases ran
    case isTrue left =>
      cases ran
      exact ⟨_, rfl, .copyWord here left⟩

theorem Inv.read_steps (inv : Inv capacity state) (ran : state.read capacity reader = some after) :
    ∃ view, after = state.setView reader view ∧ View.Steps capacity state (state.views reader) view := by
  have valid := inv.views reader
  simp only [State.read] at ran
  split at ran
  case h_1 => cases ran
  case h_2 maxCount here =>
    cases ran
    refine ⟨_, rfl, ?_⟩
    rw [View.Steps, inv.cursor_eq, valid.loadCursor_poller rfl inv.cursor_lt]
    exact .load here
  case h_3 batch here =>
    split at ran
    case isFalse => cases ran
    case isTrue done =>
      split at ran
      case isTrue more =>
        cases ran
        exact ⟨_, rfl, .next here done more⟩
      case isFalse last =>
        cases ran
        refine ⟨_, rfl, ?_⟩
        rw [View.Steps, inv.cursor_eq, valid.validate_poller here inv.cursor_lt]
        exact .finish here done last

theorem Inv.step (inv : Inv capacity state) {action : Action Reader Byte width} (permitted : Bounded state action)
    (ran : step capacity state action = some after) : Inv capacity after := by
  cases action with
  | publish value => exact inv.publish (of_decide_eq_true permitted) ran
  | write => exact inv.write ran
  | writeByte byte => exact inv.writeByte ran
  | poll reader maxCount => exact inv.poll ran
  | read reader =>
    obtain ⟨view, rfl, steps⟩ := inv.read_steps ran
    exact inv.setView (inv.steps_valid steps)
  | readByte reader byte =>
    obtain ⟨view, rfl, steps⟩ := readByte_steps ran
    exact inv.setView (inv.steps_valid steps)

theorem inv_of_reaches {slots : Nat → Words Byte width}
    (path : Reaches (step capacity) Bounded (initial slots) state) : Inv capacity state :=
  path.invariant (Inv.initial slots) fun _ _ _ inv permitted ran =>
    inv.step permitted ran

structure Polling (capacity : Capacity) (start : State Reader Byte width) (reader : Reader)
    (maxCount : Nat) (state : State Reader Byte width) : Prop where
  inv : Inv capacity state
  published_eq : state.published = start.published
  call : (start.views reader).poller.Undisturbed (capacity.size - 1) state.published maxCount
    (state.views reader).poller

omit [Inhabited Byte] in
theorem Polling.begins (inv : Inv capacity start) (called : start.poll reader maxCount = some state) :
    Polling capacity start reader maxCount state := by
  have kept := inv.poll called
  simp only [State.poll] at called
  split at called <;> cases called
  refine ⟨kept, rfl, ?_⟩
  simp [State.setView, Poller.Undisturbed, View.poller]

section
variable (polling : Polling capacity start reader maxCount state)
include polling

omit [Inhabited Byte] in
theorem Polling.setView (inv : Inv capacity (state.setView other view))
    (call : other = reader → (start.views reader).poller.Undisturbed (capacity.size - 1)
      state.published maxCount view.poller) : Polling capacity start reader maxCount (state.setView other view) where
  inv := inv
  published_eq := polling.published_eq
  call := by
    by_cases same : reader = other
    · subst same
      simp only [State.setView, update_self]
      exact call rfl
    · simp only [State.setView, update_of_ne same]
      exact polling.call

theorem Polling.steps (steps : View.Steps capacity state (state.views other) view) :
    Polling capacity start reader maxCount (state.setView other view) := by
  have size := capacity.two_le
  refine polling.setView (polling.inv.setView (polling.inv.steps_valid steps)) ?_
  rintro rfl
  exact polling.call.step (polling.inv.views other) (by omega) (by omega) steps

theorem Polling.step {action : Action Reader Byte width} (permitted : DuringPoll reader state action)
    (ran : step capacity state action = some after) : Polling capacity start reader maxCount after := by
  cases action with
  | publish value | write | writeByte byte => exact permitted.elim
  | poll other wanted =>
    have inv := polling.inv.poll ran
    simp only [Broadcast.step, State.poll] at ran
    split at ran <;> cases ran
    exact polling.setView inv fun same => absurd same permitted
  | read other =>
    obtain ⟨view, rfl, steps⟩ := polling.inv.read_steps ran
    exact polling.steps steps
  | readByte other byte =>
    obtain ⟨view, rfl, steps⟩ := readByte_steps ran
    exact polling.steps steps

end

def State.fuel (capacity : Capacity) (reader : Reader) (state : State Reader Byte width) : Nat :=
  (state.views reader).poller.fuel (capacity.size - 1)

omit [Inhabited Byte] in
private theorem fuel_setView (view : View Byte width) : (state.setView reader view).fuel capacity reader =
      view.poller.fuel (capacity.size - 1) := by
  simp only [State.fuel, State.setView, update_self]

theorem Inv.poll_advances (inv : Inv capacity state) (busy : ¬ (state.views reader).call = .idle) :
    ∃ action after, DuringPoll reader state action ∧ Broadcast.step capacity state action = some after ∧
      after.fuel capacity reader < state.fuel capacity reader := by
  have enabled : (state.read capacity reader).isSome = true ∨
      ∃ byte, (state.readByte capacity reader byte).isSome = true := by
    cases here : (state.views reader).call with
    | idle => exact absurd here busy
    | waiting wanted => simp [State.read, here]
    | copying batch =>
      by_cases done : batch.todo = ∅
      · left
        simp only [State.read, here, if_pos done]
        split <;> rfl
      · obtain ⟨byte, left⟩ := Finset.nonempty_iff_ne_empty.mpr done
        exact .inr ⟨byte, by simp [State.readByte, here, left]⟩
  rcases enabled with enabled | ⟨byte, enabled⟩
  · obtain ⟨after, ran⟩ := Option.isSome_iff_exists.mp enabled
    obtain ⟨view, rfl, steps⟩ := inv.read_steps ran
    refine ⟨.read reader, _, trivial, ran, ?_⟩
    rw [fuel_setView]
    exact Poller.Step.fuel_lt steps
  · obtain ⟨after, ran⟩ := Option.isSome_iff_exists.mp enabled
    obtain ⟨view, rfl, steps⟩ := readByte_steps ran
    refine ⟨.readByte reader byte, _, trivial, ran, ?_⟩
    rw [fuel_setView]
    exact Poller.Step.fuel_lt steps

theorem Polling.returns (polling : Polling capacity start reader maxCount state) :
    ∃ finish, Reaches (Broadcast.step capacity) (DuringPoll reader) state finish ∧
      (finish.views reader).call = .idle := by
  refine (Reaches.progress (State.fuel capacity reader) polling fun middle called busy => ?_).imp
    fun finish reached => ⟨reached.1, reached.2.2⟩
  obtain ⟨action, next, permitted, ran, less⟩ := called.inv.poll_advances busy
  exact ⟨action, next, permitted, ran, called.step permitted ran, less⟩

/-- A poll while the writer rests returns, and returns the readable records; whether a
write is under way makes no difference. -/
def PollsAlone (capacity : Capacity) (state : State Reader Byte width) (reader : Reader) : Prop :=
  ∀ maxCount called, step capacity state (.poll reader maxCount) = some called →
    (∀ middle, Reaches (Broadcast.step capacity) (DuringPoll reader) called middle →
      ((middle.views reader).call = .idle → (middle.views reader).results =
          (state.views reader).results ++ [state.readable capacity reader maxCount] ∧
        (middle.views reader).dropped = (state.views reader).dropped +
          (state.oldest capacity reader - (state.views reader).read)) ∧
      ∃ finish, Reaches (Broadcast.step capacity) (DuringPoll reader) middle finish ∧
        (finish.views reader).call = .idle) ∧
    (state.readable capacity reader maxCount).length = min maxCount
      (state.cursor - max (state.views reader).read (state.cursor - (capacity.size - 1)))

theorem Inv.pollsAlone (inv : Inv capacity state) : PollsAlone capacity state reader := by
  intro maxCount called begun
  refine ⟨fun middle path => ?_, ?_⟩
  · have polling : Polling capacity state reader maxCount middle :=
      path.invariant (Polling.begins inv begun) fun _ _ _ polling permitted ran =>
        polling.step permitted ran
    refine ⟨fun idle => ?_, polling.returns⟩
    have call := polling.call
    have idle : (middle.views reader).poller.call = .idle := idle
    rw [polling.published_eq, Poller.Undisturbed, idle] at call
    simp only [State.readable, State.oldest, inv.cursor_eq]
    exact call
  · have length := (state.views reader).poller.length_readable (capacity.size - 1) state.published maxCount
    simp only [State.readable, State.oldest, inv.cursor_eq]
    exact length

theorem one_atomic_delivery {slots : Nat → Words Byte width}
    (path : Reaches (Broadcast.step capacity) Bounded (initial slots) state) (reader : Reader) :
    let view := state.views reader
    (∀ entry ∈ view.returned, state.published[entry.2]? = some entry.1) ∧
      (view.returned.map Prod.snd).Pairwise (· < ·) ∧
      (view.call = .idle → view.returned.length + view.dropped = view.read ∧ view.read ≤ state.cursor) ∧
      PollsAlone capacity state reader := by
  have inv := inv_of_reaches path
  have valid : Poller.Valid _ _ _ _ := inv.views reader
  refine ⟨valid.received.written, valid.received.increasing, fun idle => ?_, inv.pollsAlone⟩
  refine ⟨valid.received.accounted, ?_⟩
  rw [inv.cursor_eq]
  exact valid.tail_le

def publishOne (value : Nat) : List (Action Bool Nat 1) :=
  [.publish fun _ => value, .write, .writeByte 0, .write]

def State.idle (state : State Bool Nat 1) : Bool :=
  match (state.views false).call with
  | .idle => true
  | _ => false

/-- A record is dropped although its recycling write has only copied its byte, and the
record after it is read while that write is under way. -/
theorem one_atomic_delivery_unpublished_write : ∃ state : State Bool Nat 1,
      Reaches (Broadcast.step twoSlots) Bounded (initial fun _ _ => 0) state ∧
      (state.views false).results.map (List.map fun entry => (entry.1 0, entry.2)) = [[], [(11, 1)]] ∧
      (state.views false).dropped = 1 ∧ (state.views false).read = 2 ∧ PollsAlone twoSlots state false := by
  have passes : (executeIf (Broadcast.step twoSlots) bounded (initial fun _ _ => 0)
      (List.flatten [publishOne 10, [.poll false 1, .read false, .readByte false 0],
        publishOne 11, [.publish fun _ => 12, .write, .writeByte 0, .read false],
        [.poll false 2, .read false, .readByte false 0, .read false]])).any
      (fun state => decide (state.idle = true ∧
        (state.views false).results.map (List.map fun entry => (entry.1 0, entry.2)) =
          [[], [(11, 1)]] ∧ (state.views false).dropped = 1)) = true := by
    decide +kernel
  obtain ⟨state, path, ends⟩ := exists_reaches_of_executeIf (fun _ _ => id) passes
  rw [decide_eq_true_eq] at ends
  obtain ⟨rest, results, dropped⟩ := ends
  have idle : (state.views false).call = .idle := by
    unfold State.idle at rest
    split at rest
    · assumption
    · cases rest
  obtain ⟨-, -, accounts, alone⟩ := one_atomic_delivery path false
  obtain ⟨accounted, -⟩ := accounts idle
  have count : (state.views false).returned.length = 1 := by
    have lengths := congrArg (fun results => results.flatten.length) results
    simpa [View.returned, comp_def] using lengths
  exact ⟨state, path, results, dropped, by omega, alone⟩

end AnimusCore.Broadcast

import AnimusCore.Lib.Fifo
import AnimusCore.RingBuffer.Ring

/-! Calls that do not overlap. With two cells or more the ring is a bounded queue as long
as no position reaches `2 ^ 63`, where the signed difference of a position and a sequence
word may overflow. The capacity divides the word size, so a cell's word tells whether its
position is free or published. With a single cell "published at `p`" and "free for `p + 1`"
are the same word. -/

set_option autoImplicit false

namespace AnimusCore.RingBuffer

open Lib Lib.Ring Function

section

variable {v capacity : Nat}

structure Admitted (capacity : Nat) : Prop where
  pow2 : ∃ exponent ≤ 63, capacity = 2 ^ exponent

theorem admitted_of_accepted (accepted : roundUpPow2 v = some capacity) : Admitted capacity := by
  have begins : roundUpFrom v 65 (2 ^ 0) = some capacity := accepted
  exact ⟨(roundUpFrom_two_pow (by omega) begins).2⟩

private theorem roundUpFrom_eq_two_pow {start exponent fuel : Nat} (below : start ≤ exponent) (word : exponent ≤ 63)
    (enough : exponent < start + fuel) : roundUpFrom (2 ^ exponent) fuel (2 ^ start) = some (2 ^ exponent) := by
  induction fuel generalizing start with
  | zero => omega
  | succ fuel ih =>
    rw [roundUpFrom]
    rcases Nat.eq_or_lt_of_le below with rfl | less
    · rw [if_neg (Nat.lt_irrefl _)]
    · rw [if_pos (Nat.pow_lt_pow_right (by decide) less), two_pow_mul_two_mod (by omega)]
      exact ih less (by omega)

theorem roundUpPow2_two_pow {exponent : Nat} (word : exponent ≤ 63) :
    roundUpPow2 (2 ^ exponent) = some (2 ^ exponent) := by
  have begins : roundUpFrom (2 ^ exponent) 65 (2 ^ 0) = some (2 ^ exponent) :=
    roundUpFrom_eq_two_pow (Nat.zero_le _) word (by omega)
  exact begins

private theorem two_le_capacity_iff (accepted : roundUpPow2 v = some capacity) : 2 ≤ capacity ↔ 2 ≤ v := by
  have begins : roundUpFrom v 65 (2 ^ 0) = some capacity := accepted
  obtain ⟨covers, -⟩ := roundUpFrom_two_pow (by omega) begins
  refine ⟨fun more => ?_, fun more => more.trans covers⟩
  by_contra less
  rw [roundUpPow2, roundUpFrom, if_neg (by omega), Option.some.injEq] at accepted
  omega

theorem Admitted.pos (admitted : Admitted capacity) : 0 < capacity := by
  obtain ⟨exponent, -, rfl⟩ := admitted.pow2
  exact Nat.two_pow_pos exponent

theorem Admitted.le (admitted : Admitted capacity) : capacity ≤ signedLimit := by
  obtain ⟨exponent, small, rfl⟩ := admitted.pow2
  exact Nat.pow_le_pow_right (by decide) small

theorem Admitted.slot_eq (admitted : Admitted capacity) (pos : Nat) :
    pos % wordSize &&& (capacity - 1) = pos % capacity := by
  obtain ⟨exponent, small, rfl⟩ := admitted.pow2
  rw [Nat.and_two_pow_sub_one_eq_mod]
  exact Nat.mod_mod_of_dvd pos (Nat.pow_dvd_pow 2 (by omega))

end

/-- What a call may return on a queue, and what it leaves behind. -/
inductive Responds {T : Type} {capacity : Nat} : Fifo T capacity → Outcome T → Fifo T capacity → Prop where
  | pushed {queue next : Fifo T capacity} {value : T} :
      queue.push value = some next → Responds queue (.pushed value) next
  | full {queue : Fifo T capacity} {value : T} : queue.push value = none → Responds queue (.full value) queue
  | popped {queue next : Fifo T capacity} {out : T} : queue.pop = some (out, next) → Responds queue (.popped out) next
  | empty {queue : Fifo T capacity} : queue.pop = none → Responds queue .empty queue

/-- The outcomes are those of a bounded queue, which is left in the given state. -/
inductive Behaves {T : Type} {capacity : Nat} : List (Outcome T) → Fifo T capacity → Prop where
  | start : Behaves [] Fifo.empty
  | call {log : List (Outcome T)} {queue next : Fifo T capacity} {outcome : Outcome T} :
      Behaves log queue → Responds queue outcome next → Behaves (log ++ [outcome]) next

section

variable (Thread T : Type)

/-- Calls do not overlap: one begins only when no thread is in a call. A push begins while
its position is below `2 ^ 63`, a pop while the position behind its own is. -/
def Serial (state : State Thread T) : Action Thread T → Prop
  | .push _ _ => (∀ thread, (state.threads thread).resting = true) ∧ state.enqueuePos < signedLimit
  | .pop _ => (∀ thread, (state.threads thread).resting = true) ∧ state.dequeuePos + 1 < signedLimit
  | .access _ | .spurious _ => True

end

section

variable {Thread T : Type}

/-- The cells hold the queue: a pending position is published with its value, and the
positions behind are free up to the capacity. -/
structure Represents {capacity : Nat} (cells : Nat → Cell T) (queue : Fifo T capacity) : Prop where
  pending : ∀ pos value, queue.taken ≤ pos → queue.pushed[pos]? = some value →
    cells (pos % capacity) = ⟨(pos + 1) % wordSize, value⟩
  free : ∀ pos, queue.pushed.length ≤ pos → pos < queue.taken + capacity →
    (cells (pos % capacity)).sequence = pos % wordSize

def State.Counts (state : State Thread T) (claims takes : Nat) : Prop :=
  state.enqueuePos = claims % wordSize ∧ state.dequeuePos = takes % wordSize

def Access.Follows {capacity : Nat} (state : State Thread T) (queue : Fifo T capacity) : Access T → Prop
  | .idle | .returned _ | .pushLoadPos _ | .popLoadPos =>
    state.Counts queue.pushed.length queue.taken
  | .pushLoadSeq _ pos =>
    state.Counts queue.pushed.length queue.taken ∧ pos = queue.pushed.length % wordSize
  | .pushExchange _ pos =>
    state.Counts queue.pushed.length queue.taken ∧ pos = queue.pushed.length % wordSize ∧
      queue.pushed.length < queue.taken + capacity
  | .pushWrite _ pos =>
    state.Counts (queue.pushed.length + 1) queue.taken ∧
      pos = queue.pushed.length % wordSize ∧ queue.pushed.length < queue.taken + capacity
  | .pushPublish value pos =>
    state.Counts (queue.pushed.length + 1) queue.taken ∧
      pos = queue.pushed.length % wordSize ∧ queue.pushed.length < queue.taken + capacity ∧
      (state.cells (queue.pushed.length % capacity)).data = value
  | .popLoadSeq pos =>
    state.Counts queue.pushed.length queue.taken ∧ pos = queue.taken % wordSize
  | .popExchange pos =>
    state.Counts queue.pushed.length queue.taken ∧ pos = queue.taken % wordSize ∧ queue.taken < queue.pushed.length
  | .popRead pos =>
    state.Counts queue.pushed.length (queue.taken + 1) ∧ pos = queue.taken % wordSize ∧
      queue.taken < queue.pushed.length
  | .popRetire pos out =>
    state.Counts queue.pushed.length (queue.taken + 1) ∧ pos = queue.taken % wordSize ∧
      queue.pushed[queue.taken]? = some out

/-- The difference that the call has still to form is one of positions below `2 ^ 63`. -/
def Access.Fits (state : State Thread T) : Access T → Prop
  | .pushLoadPos _ | .pushLoadSeq _ _ | .pushExchange _ _ => state.enqueuePos < signedLimit
  | .popLoadPos | .popLoadSeq _ | .popExchange _ => state.dequeuePos + 1 < signedLimit
  | _ => True

structure Inv {capacity : Nat} (state : State Thread T) (queue : Fifo T capacity) : Prop where
  behaves : Behaves state.log queue
  represents : Represents state.cells queue
  calls : (∀ thread, (state.threads thread).resting = true) ∧ state.Counts queue.pushed.length queue.taken ∨
    ∃ thread, (∀ other, other ≠ thread → (state.threads other).resting = true) ∧
      (state.threads thread).Follows state queue

end

variable {Thread T : Type} {capacity : Nat} {state after : State Thread T}
  {queue : Fifo T capacity} {thread : Thread} {cells : Nat → Cell T}

theorem Represents.initial (admitted : Admitted capacity) (data : Nat → T) :
    Represents (initial data : State Thread T).cells (Fifo.empty : Fifo T capacity) where
  pending := nofun
  free pos _ bound := by
    have size := admitted.le
    have bound : pos < capacity := by
      change pos < 0 + capacity at bound
      omega
    have word : pos < wordSize := bound.trans_le (size.trans (by decide))
    change pos % capacity = pos % wordSize
    rw [Nat.mod_eq_of_lt bound, Nat.mod_eq_of_lt word]

private theorem cell_ne {early late : Nat} (before : early < late) (near : late < early + capacity) :
    early % capacity ≠ late % capacity := by
  intro same
  have difference := Nat.sub_mod_eq_zero_of_mod_eq same.symm
  rw [Nat.mod_eq_of_lt (by omega)] at difference
  omega

section
variable (represents : Represents cells queue)
include represents

theorem Represents.write (room : queue.pushed.length < queue.taken + capacity) (data : T) :
    Represents (update cells (queue.pushed.length % capacity)
      { cells (queue.pushed.length % capacity) with data }) queue where
  pending pos value behind found := by
    have inside := (List.getElem?_eq_some_iff.mp found).1
    rw [update_of_ne (cell_ne inside (by omega))]
    exact represents.pending pos value behind found
  free pos beyond bound := by
    have ordered := queue.taken_le
    rcases Nat.eq_or_lt_of_le beyond with rfl | later
    · rw [update_self]
      exact represents.free _ beyond bound
    · rw [update_of_ne (cell_ne later (by omega)).symm]
      exact represents.free pos beyond bound

theorem Represents.publish {next : Fifo T capacity} {value : T} (room : queue.pushed.length < queue.taken + capacity)
    (stored : (cells (queue.pushed.length % capacity)).data = value)
    (pushed : next.pushed = queue.pushed ++ [value]) (taken : next.taken = queue.taken) :
    Represents (update cells (queue.pushed.length % capacity) { cells (queue.pushed.length % capacity) with
        sequence := (queue.pushed.length + 1) % wordSize }) next where
  pending pos found behind at_ := by
    rw [taken] at behind
    rw [pushed] at at_
    have inside := (List.getElem?_eq_some_iff.mp at_).1
    rw [List.length_append, List.length_singleton] at inside
    rcases Nat.eq_or_lt_of_le (Nat.le_of_lt_succ inside) with rfl | earlier
    · rw [List.getElem?_concat_length, Option.some.injEq] at at_
      rw [update_self, ← at_, ← stored]
    · rw [List.getElem?_append_left earlier] at at_
      rw [update_of_ne (cell_ne earlier (by omega))]
      exact represents.pending pos found behind at_
  free pos beyond bound := by
    have ordered := queue.taken_le
    rw [pushed, List.length_append, List.length_singleton] at beyond
    rw [taken] at bound
    rw [update_of_ne (cell_ne beyond (by omega)).symm]
    exact represents.free pos (by omega) bound

theorem Represents.retire {next : Fifo T capacity} (more : queue.taken < queue.pushed.length)
    (pushed : next.pushed = queue.pushed) (taken : next.taken = queue.taken + 1) :
    Represents (update cells (queue.taken % capacity) { cells (queue.taken % capacity) with
        sequence := (queue.taken + capacity) % wordSize }) next where
  pending pos value behind found := by
    have bounded := queue.bounded
    rw [pushed] at found
    have inside := (List.getElem?_eq_some_iff.mp found).1
    rw [taken] at behind
    rw [update_of_ne (cell_ne behind (by omega)).symm]
    exact represents.pending pos value (by omega) found
  free pos beyond bound := by
    rw [pushed] at beyond
    rcases Nat.lt_or_ge pos (queue.taken + capacity) with earlier | last
    · rw [update_of_ne (cell_ne (by omega) earlier).symm]
      exact represents.free pos beyond earlier
    · have here : pos = queue.taken + capacity := by omega
      rw [here, Nat.add_mod_right, update_self]

end

private theorem machine_add (pos more : Nat) : machine.add (pos % wordSize) more = (pos + more) % wordSize :=
  Nat.mod_add_mod pos wordSize more

private theorem machine_add_lap (admitted : Admitted capacity) (pos : Nat) :
    machine.add (machine.add (pos % wordSize) (capacity - 1)) 1 = (pos + capacity) % wordSize := by
  have positive := admitted.pos
  have lap : pos + (capacity - 1) + 1 = pos + capacity := by omega
  rw [machine_add, machine_add, lap]

private theorem machine_diff {left right : Nat} (notAhead : left < right + signedLimit)
    (notBehind : right ≤ left + signedLimit) :
    machine.diff (left % wordSize) (right % wordSize) = (left : Int) - (right : Int) :=
  signed64_sub64_mod notAhead notBehind

theorem Represents.push_diff (represents : Represents cells queue)
    (admitted : Admitted capacity) (two : 2 ≤ capacity) :
    let diff := machine.diff (cells (queue.pushed.length % capacity)).sequence (queue.pushed.length % wordSize)
    queue.pushed.length < queue.taken + capacity ∧ diff = 0 ∨
      ¬ queue.pushed.length < queue.taken + capacity ∧ diff < 0 := by
  have bounded := queue.bounded
  have size := admitted.le
  by_cases room : queue.pushed.length < queue.taken + capacity
  · left
    rw [represents.free _ (Nat.le_refl _) room, machine_diff (by omega) (by omega)]
    exact ⟨room, Int.sub_self _⟩
  · right
    -- The cell still holds the oldest pending record, one lap behind.
    have full : queue.pushed.length = queue.taken + capacity := by omega
    have inside : queue.taken < queue.pushed.length := by omega
    have oldest := represents.pending queue.taken _ (Nat.le_refl _) (List.getElem?_eq_getElem inside)
    rw [full, Nat.add_mod_right, oldest, machine_diff (by omega) (by omega)]
    refine ⟨by omega, by omega⟩

theorem Represents.pop_diff (represents : Represents cells queue) (admitted : Admitted capacity) :
    let diff := machine.diff (cells (queue.taken % capacity)).sequence (machine.add (queue.taken % wordSize) 1)
    queue.taken < queue.pushed.length ∧ diff = 0 ∨ ¬ queue.taken < queue.pushed.length ∧ diff < 0 := by
  have size := admitted.pos
  have limit : 1 < signedLimit := by decide
  rw [machine_add]
  by_cases more : queue.taken < queue.pushed.length
  · left
    have oldest := represents.pending queue.taken _ (Nat.le_refl _) (List.getElem?_eq_getElem more)
    rw [oldest, machine_diff (by omega) (by omega)]
    exact ⟨more, Int.sub_self _⟩
  · right
    rw [represents.free _ (by omega) (by omega), machine_diff (by omega) (by omega)]
    exact ⟨more, by omega⟩

variable [DecidableEq Thread]

/-- After a step of the thread in a call: the others rest as before. -/
theorem Inv.call {next : Fifo T capacity} (behaves : Behaves after.log next)
    (represents : Represents after.cells next) {point : Access T}
    (threads : after.threads = update state.threads thread point)
    (others : ∀ other, other ≠ thread → (state.threads other).resting = true)
    (follows : point.Follows after next) : Inv after next where
  behaves := behaves
  represents := represents
  calls := by
    refine .inr ⟨thread, fun other different => ?_, ?_⟩
    · rw [threads, update_of_ne different]
      exact others other different
    · rw [threads, update_self]
      exact follows

theorem Inv.active (inv : Inv state queue) (busy : (state.threads thread).resting = false) :
    (∀ other, other ≠ thread → (state.threads other).resting = true) ∧
      (state.threads thread).Follows state queue := by
  rcases inv.calls with ⟨rest, -⟩ | ⟨active, others, follows⟩
  · rw [rest thread] at busy
    cases busy
  · by_cases same : thread = active
    · subst same
      exact ⟨others, follows⟩
    · rw [others thread same] at busy
      cases busy

theorem Inv.begin (inv : Inv state queue) {first : Access T} (rest : ∀ thread, (state.threads thread).resting = true)
    (follows : state.Counts queue.pushed.length queue.taken → first.Follows state queue)
    (ran : state.begin thread first = some after) : Inv after queue := by
  have counts : state.Counts queue.pushed.length queue.taken := by
    rcases inv.calls with ⟨-, counts⟩ | ⟨active, -, valid⟩
    · exact counts
    · have rest := rest active
      cases here : state.threads active <;> simp_all [Access.resting, Access.Follows]
  unfold State.begin at ran
  split at ran <;> cases ran
  refine Inv.call inv.behaves inv.represents rfl (fun other _ => rest other) ?_
  have valid := follows counts
  cases first <;> exact valid

theorem Inv.exchangeFails (inv : Inv state queue)
    (ran : state.exchangeFails thread = some after) : Inv after queue := by
  unfold State.exchangeFails at ran
  split at ran
  case h_1 value pos here =>
    cases ran
    obtain ⟨others, follows⟩ := inv.active (by rw [here]; rfl)
    rw [here] at follows
    obtain ⟨counts, -, -⟩ := follows
    exact Inv.call inv.behaves inv.represents rfl others ⟨counts, counts.1⟩
  case h_2 pos here =>
    cases ran
    obtain ⟨others, follows⟩ := inv.active (by rw [here]; rfl)
    rw [here] at follows
    obtain ⟨counts, -, -⟩ := follows
    exact Inv.call inv.behaves inv.represents rfl others ⟨counts, counts.2⟩
  case h_3 => cases ran

theorem exists_access {counting : Counting} (busy : (state.threads thread).resting = false) :
    ∃ after, state.access counting capacity thread = some after := by
  cases here : state.threads thread with
  | idle | returned outcome =>
    rw [here] at busy
    cases busy
  | _ =>
    simp only [State.access, State.exchangeFails, here]
    repeat' split
    all_goals exact ⟨_, rfl⟩

/-- One access of the thread in a call: it follows the queue, and the call comes closer
to its return. -/
theorem Inv.access (inv : Inv state queue) (admitted : Admitted capacity) (two : 2 ≤ capacity)
    (ran : state.access machine capacity thread = some after) : ∃ next : Fifo T capacity, Inv after next ∧
      (after.threads thread).remaining < (state.threads thread).remaining := by
  obtain ⟨others, follows⟩ := inv.active (busy_of_access ran)
  cases here : state.threads thread with
  | idle | returned outcome => simp [State.access, here] at ran
  | pushLoadPos value =>
    rw [here] at follows
    simp only [State.access, here] at ran
    cases ran
    refine ⟨queue, Inv.call inv.behaves inv.represents rfl others ⟨follows, follows.1⟩, ?_⟩
    simp [State.goTo, Access.remaining]
  | pushLoadSeq value pos =>
    rw [here] at follows
    obtain ⟨counts, rfl⟩ := follows
    simp only [State.access, here, State.cell, admitted.slot_eq] at ran
    rcases inv.represents.push_diff admitted two with ⟨room, zero⟩ | ⟨full, negative⟩
    · rw [if_pos zero] at ran
      cases ran
      refine ⟨queue, Inv.call inv.behaves inv.represents rfl others ⟨counts, rfl, room⟩, ?_⟩
      simp [State.goTo, Access.remaining]
    · rw [if_neg (Int.ne_of_lt negative), if_pos negative] at ran
      cases ran
      refine ⟨queue, Inv.call (inv.behaves.call (.full (Fifo.push_eq_none full)))
        inv.represents rfl others counts, ?_⟩
      simp [State.goTo, State.returns, Access.remaining]
  | pushExchange value pos =>
    rw [here] at follows
    obtain ⟨counts, rfl, room⟩ := follows
    simp only [State.access, here, counts.1, if_true] at ran
    cases ran
    refine ⟨queue, Inv.call inv.behaves inv.represents rfl others ⟨⟨machine_add _ 1, counts.2⟩, rfl, room⟩, ?_⟩
    simp [State.goTo, Access.remaining]
  | pushWrite value pos =>
    rw [here] at follows
    obtain ⟨counts, rfl, room⟩ := follows
    simp only [State.access, here, State.cell, State.setCell, admitted.slot_eq] at ran
    cases ran
    refine ⟨queue, Inv.call inv.behaves (inv.represents.write room value) rfl others ⟨counts, rfl, room, ?_⟩, ?_⟩
    · simp only [update_self]
    · simp [State.goTo, Access.remaining]
  | pushPublish value pos =>
    rw [here] at follows
    obtain ⟨counts, rfl, room, stored⟩ := follows
    obtain ⟨next, pushed⟩ : ∃ next, queue.push value = some next := ⟨_, dif_pos room⟩
    obtain ⟨values, taken⟩ := Fifo.of_push_eq_some pushed
    simp only [State.access, here, State.cell, State.setCell, admitted.slot_eq, machine_add] at ran
    cases ran
    refine ⟨next, Inv.call (inv.behaves.call (.pushed pushed))
      (inv.represents.publish room stored values taken) rfl others ?_, ?_⟩
    · rw [Access.Follows, values, taken, List.length_append]
      exact counts
    · simp [State.goTo, State.returns, Access.remaining]
  | popLoadPos =>
    rw [here] at follows
    simp only [State.access, here] at ran
    cases ran
    refine ⟨queue, Inv.call inv.behaves inv.represents rfl others ⟨follows, follows.2⟩, ?_⟩
    simp [State.goTo, Access.remaining]
  | popLoadSeq pos =>
    rw [here] at follows
    obtain ⟨counts, rfl⟩ := follows
    simp only [State.access, here, State.cell, admitted.slot_eq] at ran
    rcases inv.represents.pop_diff admitted with ⟨more, zero⟩ | ⟨empty, negative⟩
    · rw [if_pos zero] at ran
      cases ran
      refine ⟨queue, Inv.call inv.behaves inv.represents rfl others ⟨counts, rfl, more⟩, ?_⟩
      simp [State.goTo, Access.remaining]
    · rw [if_neg (Int.ne_of_lt negative), if_pos negative] at ran
      cases ran
      refine ⟨queue, Inv.call (inv.behaves.call (.empty (Fifo.pop_eq_none empty)))
        inv.represents rfl others counts, ?_⟩
      simp [State.goTo, State.returns, Access.remaining]
  | popExchange pos =>
    rw [here] at follows
    obtain ⟨counts, rfl, more⟩ := follows
    simp only [State.access, here, counts.2, if_true] at ran
    cases ran
    refine ⟨queue, Inv.call inv.behaves inv.represents rfl others ⟨⟨counts.1, machine_add _ 1⟩, rfl, more⟩, ?_⟩
    simp [State.goTo, Access.remaining]
  | popRead pos =>
    rw [here] at follows
    obtain ⟨counts, rfl, more⟩ := follows
    have front := List.getElem?_eq_getElem more
    have stored := inv.represents.pending queue.taken _ (Nat.le_refl _) front
    simp only [State.access, here, State.cell, admitted.slot_eq, stored] at ran
    cases ran
    refine ⟨queue, Inv.call inv.behaves inv.represents rfl others ⟨counts, rfl, front⟩, ?_⟩
    simp [State.goTo, Access.remaining]
  | popRetire pos out =>
    rw [here] at follows
    obtain ⟨counts, rfl, front⟩ := follows
    have more := (List.getElem?_eq_some_iff.mp front).1
    have bounded := queue.bounded
    let next : Fifo T capacity := ⟨queue.pushed, queue.taken + 1, more, by omega⟩
    have popped : queue.pop = some (out, next) := Fifo.pop_eq_some rfl rfl front
    simp only [State.access, here, State.cell, State.setCell, machine_add_lap admitted, admitted.slot_eq] at ran
    cases ran
    refine ⟨next, Inv.call (inv.behaves.call (.popped popped))
      (inv.represents.retire more rfl rfl) rfl others counts, ?_⟩
    simp [State.goTo, State.returns, Access.remaining]

theorem Inv.defined (inv : Inv state queue) (admitted : Admitted capacity)
    (fits : (state.threads thread).Fits state) : state.defined capacity thread = true := by
  have size := admitted.le
  have bounded := queue.bounded
  unfold State.defined
  split
  case h_1 value pos here =>
    obtain ⟨-, follows⟩ := inv.active (show (state.threads thread).resting = false by rw [here]; rfl)
    rw [here] at fits follows
    obtain ⟨⟨word, -⟩, rfl⟩ := follows
    have small : queue.pushed.length % wordSize < signedLimit := word ▸ fits
    rw [State.cell, admitted.slot_eq]
    by_cases room : queue.pushed.length < queue.taken + capacity
    · rw [inv.represents.free _ (Nat.le_refl _) room]
      exact differenceFits_mod (Nat.le_refl _) (Nat.le_add_right _ _) small
    · have positive := admitted.pos
      have full : queue.pushed.length = queue.taken + capacity := by omega
      have inside : queue.taken < queue.pushed.length := by omega
      have oldest := inv.represents.pending queue.taken _ (Nat.le_refl _) (List.getElem?_eq_getElem inside)
      rw [full] at small ⊢
      rw [Nat.add_mod_right, oldest]
      exact differenceFits_mod (by omega) (by omega) small
  case h_2 pos here =>
    obtain ⟨-, follows⟩ := inv.active (show (state.threads thread).resting = false by rw [here]; rfl)
    rw [here] at fits follows
    obtain ⟨⟨-, word⟩, rfl⟩ := follows
    have small : queue.taken % wordSize + 1 < signedLimit := word ▸ fits
    have next : add64 (queue.taken % wordSize) 1 = (queue.taken + 1) % wordSize := machine_add _ _
    have below : (queue.taken + 1) % wordSize < signedLimit := by
      rw [← next, add64_eq (small.trans (by decide))]
      exact small
    rw [State.cell, admitted.slot_eq, next]
    by_cases more : queue.taken < queue.pushed.length
    · have oldest := inv.represents.pending queue.taken _ (Nat.le_refl _) (List.getElem?_eq_getElem more)
      rw [oldest]
      exact differenceFits_mod (Nat.le_refl _) (Nat.le_add_right _ _) below
    · have positive := admitted.pos
      rw [inv.represents.free _ (by omega) (by omega)]
      exact differenceFits_mod (Nat.le_succ _) (Nat.add_le_add_left (by decide) _) below
  case h_3 => rfl

theorem Inv.step (inv : Inv state queue) (admitted : Admitted capacity) (two : 2 ≤ capacity)
    {action : Action Thread T} (permitted : Serial Thread T state action)
    (ran : step machine capacity state action = some after) : ∃ next : Fifo T capacity, Inv after next := by
  cases action with
  | push actor value | pop actor => exact ⟨queue, inv.begin permitted.1 id ran⟩
  | access actor =>
    obtain ⟨next, kept, -⟩ := inv.access admitted two ran
    exact ⟨next, kept⟩
  | spurious actor => exact ⟨queue, inv.exchangeFails ran⟩

omit [DecidableEq Thread] in
private theorem fits_of_resting {access : Access T} (rests : access.resting = true) : access.Fits state := by
  cases access with
  | idle | returned => trivial
  | _ => cases rests

theorem Access.Fits.access (fits : (state.threads thread).Fits state)
    (ran : state.access machine capacity thread = some after) : (after.threads thread).Fits after := by
  cases here : state.threads thread with
  | idle | returned outcome => simp [State.access, here] at ran
  | _ =>
    rw [here] at fits
    simp only [State.access, State.exchangeFails, here] at ran
    repeat' split at ran
    all_goals
      cases ran
      change (update state.threads thread _ thread).Fits _
      rw [update_self]
      first | exact fits | trivial

theorem Inv.fits (inv : Inv state queue) (fits : ∀ thread, (state.threads thread).Fits state)
    {action : Action Thread T} (permitted : Serial Thread T state action)
    (ran : RingBuffer.step machine capacity state action = some after) (thread : Thread) :
    (after.threads thread).Fits after := by
  by_cases own : thread = action.thread
  · subst own
    cases action with
    | push actor value | pop actor =>
      simp only [RingBuffer.step, State.begin] at ran
      split at ran <;> cases ran
      change (update state.threads actor _ actor).Fits _
      rw [update_self]
      exact permitted.2
    | access actor => exact (fits actor).access ran
    | spurious actor =>
      have fits := fits actor
      simp only [RingBuffer.step, State.exchangeFails] at ran
      split at ran <;> cases ran
      case h_1 here | h_2 here =>
        rw [here] at fits
        change (update state.threads actor _ actor).Fits _
        rw [update_self]
        exact fits
  · rw [step_threads_of_ne ran own]
    refine fits_of_resting ?_
    cases action with
    | push | pop => exact permitted.1 thread
    | access actor => exact (inv.active (busy_of_access ran)).1 thread own
    | spurious actor => exact (inv.active (busy_of_exchangeFails ran)).1 thread own

def Returns (capacity : Nat) (state : State Thread T) (thread : Thread) : Prop :=
  ∃ finish, Reaches (sourceStep capacity) (fun _ action => action = .access thread)
    state finish ∧ (finish.threads thread).resting = true

/-- A bounded queue, and no difference of a call under way overflows. -/
structure Kept (capacity : Nat) (state : State Thread T) : Prop where
  inv : ∃ queue : Fifo T capacity, Inv state queue
  fits : ∀ thread, (state.threads thread).Fits state

section
variable (kept : Kept capacity state) (admitted : Admitted capacity)
include kept admitted

theorem Kept.sourceStep_eq (action : Action Thread T) :
    sourceStep capacity state action = RingBuffer.step machine capacity state action := by
  obtain ⟨queue, inv⟩ := kept.inv
  cases action with
  | access actor => exact if_pos (inv.defined admitted (kept.fits actor))
  | _ => rfl

variable (two : 2 ≤ capacity)
include two

theorem Kept.step {action : Action Thread T} (permitted : Serial Thread T state action)
    (ran : sourceStep capacity state action = some after) : Kept capacity after := by
  rw [kept.sourceStep_eq admitted] at ran
  obtain ⟨queue, inv⟩ := kept.inv
  exact ⟨inv.step admitted two permitted ran, inv.fits kept.fits permitted ran⟩

theorem Kept.returns (thread : Thread) : Returns capacity state thread := by
  have advances : ∀ middle : State Thread T, Kept capacity middle →
      ¬ (middle.threads thread).resting = true → ∃ action next, action = .access thread ∧
        sourceStep capacity middle action = some next ∧ Kept capacity next ∧
        (next.threads thread).remaining < (middle.threads thread).remaining := by
    intro middle kept busy
    obtain ⟨queue, inv⟩ := kept.inv
    obtain ⟨next, accessed⟩ := exists_access (Bool.eq_false_iff.mpr busy)
    have ran : sourceStep capacity middle (.access thread) = some next :=
      (kept.sourceStep_eq admitted _).trans accessed
    obtain ⟨-, -, less⟩ := inv.access admitted two accessed
    have permitted : Serial Thread T middle (.access thread) := trivial
    exact ⟨_, next, rfl, ran, kept.step admitted two permitted ran, less⟩
  obtain ⟨finish, path, -, rest⟩ := Reaches.progress
    (fun state : State Thread T => (state.threads thread).remaining) kept advances
  exact ⟨finish, path, rest⟩

end

/-- In every run of calls that do not overlap, on positions below `2 ^ 63`, the outcomes are
those of a queue of the ring's capacity and every call returns. -/
def BoundedFifo (capacity : Nat) (start : State Thread T) : Prop :=
  ∀ state, Reaches (sourceStep capacity) (Serial Thread T) start state →
    (∃ queue : Fifo T capacity, Behaves state.log queue) ∧ ∀ thread, Returns capacity state thread

private theorem boundedFifo_of_two_le (admitted : Admitted capacity) (two : 2 ≤ capacity)
    (data : Nat → T) : BoundedFifo capacity (initial data : State Thread T) := by
  intro state path
  have begins : Kept capacity (initial data : State Thread T) :=
    ⟨⟨Fifo.empty, .start, .initial admitted data, .inl ⟨fun _ => rfl, rfl, rfl⟩⟩, fun _ => trivial⟩
  have kept := path.invariant begins fun _ _ _ kept permitted ran => kept.step admitted two permitted ran
  obtain ⟨queue, inv⟩ := kept.inv
  exact ⟨⟨queue, inv.behaves⟩, kept.returns admitted two⟩

def Outcome.pushed? : Outcome T → Option T
  | .pushed value => some value
  | _ => none

def Outcome.popped? : Outcome T → Option T
  | .popped out => some out
  | _ => none

omit [DecidableEq Thread] in
theorem Behaves.contents {log : List (Outcome T)} (behaves : Behaves log queue) :
    queue.pushed = log.filterMap Outcome.pushed? ∧ queue.taken = (log.filterMap Outcome.popped?).length := by
  induction behaves with
  | start => exact ⟨rfl, rfl⟩
  | call behaves responds ih =>
    obtain ⟨pushed, taken⟩ := ih
    cases responds with
    | pushed accepted =>
      obtain ⟨values, kept⟩ := Fifo.of_push_eq_some accepted
      simp [values, kept, pushed, taken, Outcome.pushed?, Outcome.popped?]
    | full refused | empty refused => simp [pushed, taken, Outcome.pushed?, Outcome.popped?]
    | popped found =>
      obtain ⟨values, kept, -⟩ := Fifo.of_pop_eq_some found
      simp [values, kept, pushed, taken, Outcome.pushed?, Outcome.popped?]

private theorem machine_diff_self (word : Nat) : machine.diff word word = 0 := by
  have none : sub64 word word = 0 := by
    rw [sub64, Nat.add_sub_cancel_left, Nat.mod_self]
  change signed64 (sub64 word word) = 0
  rw [none]
  rfl

private theorem differenceFits_self (word : Nat) : differenceFits word word = true := by
  simp [differenceFits, signedLimit]

/-- The one cell accepts every push: publishing leaves the word of the next position. -/
theorem singleCell_push (rest : ∀ thread, (state.threads thread).resting = true)
    (free : (state.cells 0).sequence = state.enqueuePos) (small : state.enqueuePos < signedLimit)
    (thread : Thread) (value : T) : ∃ finish, Reaches (sourceStep 1) (Serial Thread T) state finish ∧
      (∀ thread, (finish.threads thread).resting = true) ∧ (finish.cells 0).sequence = finish.enqueuePos ∧
      finish.enqueuePos = add64 state.enqueuePos 1 ∧ finish.log = state.log ++ [.pushed value] := by
  have begun : sourceStep 1 state (.push thread value) =
      some (state.goTo thread (.pushLoadPos value)) := if_pos (rest thread)
  obtain ⟨finish, executed, rests, word⟩ : ∃ finish,
      execute (sourceStep 1) (state.goTo thread (.pushLoadPos value))
        (List.replicate 5 (.access thread)) = some finish ∧
      (∀ thread, (finish.threads thread).resting = true) ∧
      (finish.cells 0).sequence = finish.enqueuePos ∧
      finish.enqueuePos = add64 state.enqueuePos 1 ∧ finish.log = state.log ++ [.pushed value] := by
    refine ⟨_, by simp [List.replicate, execute, sourceStep, State.defined, State.access, State.goTo,
      State.returns, State.cell, State.setCell, free, machine_diff_self, differenceFits_self]; rfl, ?_, ?_, rfl, ?_⟩
    · intro other
      by_cases same : other = thread
      · subst same
        simp [Access.resting]
      · simp [update_of_ne same, rest other]
    · simp
    · rfl
  refine ⟨finish, (Reaches.single ⟨rest, small⟩ begun).trans ?_, rests, word⟩
  refine execute_reaches_of_forall (fun action inside state => ?_) executed
  rw [List.eq_of_mem_replicate inside]
  trivial

private theorem not_boundedFifo_one [Nonempty Thread] [Nonempty T] (data : Nat → T) :
    ¬ BoundedFifo 1 (initial data : State Thread T) := by
  intro fifo
  obtain ⟨thread⟩ := (inferInstance : Nonempty Thread)
  obtain ⟨value⟩ := (inferInstance : Nonempty T)
  have idle : ∀ thread, ((initial data : State Thread T).threads thread).resting = true := fun _ => rfl
  obtain ⟨first, path, rest, free, word, log⟩ := singleCell_push idle rfl (Nat.two_pow_pos 63) thread value
  have small : first.enqueuePos < signedLimit := by
    rw [word]
    exact Nat.one_lt_two_pow (by decide)
  obtain ⟨second, longer, -, -, -, outcomes⟩ := singleCell_push rest free small thread value
  obtain ⟨⟨queue, behaves⟩, -⟩ := fifo second (path.trans longer)
  obtain ⟨pushed, taken⟩ := behaves.contents
  have bounded := queue.bounded
  rw [pushed, taken, outcomes, log] at bounded
  exact absurd bounded (by simp [initial, List.filterMap, Outcome.pushed?, Outcome.popped?])

theorem ring_buffer_fifo_iff [Nonempty Thread] [Nonempty T] {requested : Nat}
    (accepted : roundUpPow2 requested = some capacity) (data : Nat → T) :
    BoundedFifo capacity (initial data : State Thread T) ↔ 2 ≤ requested := by
  have admitted := admitted_of_accepted accepted
  rw [← two_le_capacity_iff accepted]
  refine ⟨fun fifo => ?_, fun two => boundedFifo_of_two_le admitted two data⟩
  by_contra less
  have positive := admitted.pos
  have one : capacity = 1 := by omega
  rw [one] at fifo
  exact not_boundedFifo_one data fifo

theorem ring_buffer_fifo_iff_three : roundUpPow2 3 = some 4 ∧ BoundedFifo 4 (initial id : State Bool Nat) := by
  have accepted : roundUpPow2 3 = some 4 := by decide
  exact ⟨accepted, (ring_buffer_fifo_iff accepted id).mpr (by decide)⟩

/-- A pop that finds its cell a position ahead reloads for ever. -/
theorem popSpins {called finish : State Thread T} (word : (called.cells 0).sequence = 2)
    (front : called.dequeuePos = 0) (here : called.threads thread = .popLoadPos)
    (path : Reaches (sourceStep 1) (fun _ action => action = .access thread) called finish) :
    (finish.threads thread).resting = false := by
  have spins : (finish.cells 0).sequence = 2 ∧ finish.dequeuePos = 0 ∧
      (finish.threads thread = .popLoadPos ∨ finish.threads thread = .popLoadSeq 0) := by
    induction path with
    | refl => exact ⟨word, front, .inl here⟩
    | step _ permitted ran ih =>
      subst permitted
      obtain ⟨word, front, here | here⟩ := ih
      · simp only [sourceStep, State.defined, State.access, here] at ran
        cases ran
        exact ⟨word, front, .inr (by simp [State.goTo, front])⟩
      · have ahead : machine.diff 2 (machine.add 0 1) = 1 := by decide
        have fits : differenceFits 2 (add64 0 1) = true := by decide
        simp only [sourceStep, State.defined, State.access, here, State.cell, Nat.sub_self, Nat.and_zero, word,
          fits, ahead] at ran
        cases ran
        exact ⟨word, front, .inl (by simp [State.goTo])⟩
  obtain ⟨-, -, here | here⟩ := spins <;> rw [here] <;> rfl

def serial (state : State Bool Nat) : Action Bool Nat → Bool
  | .push _ _ =>
    (state.threads false).resting && (state.threads true).resting && decide (state.enqueuePos < signedLimit)
  | .pop _ =>
    (state.threads false).resting && (state.threads true).resting && decide (state.dequeuePos + 1 < signedLimit)
  | .access _ | .spurious _ => true

/-- A ring built for one element: both pushes succeed, the first element is gone, and
the pop that follows never returns. -/
theorem ring_buffer_single_cell : roundUpPow2 1 = some 1 ∧ ∃ state : State Bool Nat,
      Reaches (sourceStep 1) (Serial Bool Nat) (initial id) state ∧
      state.log = [.pushed 7, .pushed 8] ∧ (state.cells 0).data = 8 ∧
      ∃ called, sourceStep 1 state (.pop true) = some called ∧
        ∀ finish, Reaches (sourceStep 1) (fun _ action => action = .access true)
          called finish → (finish.threads true).resting = false := by
  have permits : ∀ (state : State Bool Nat) action, serial state action = true → Serial Bool Nat state action := by
    intro state action passed
    cases action with
    | push | pop =>
      rw [serial, Bool.and_eq_true, Bool.and_eq_true, decide_eq_true_eq] at passed
      exact ⟨Bool.forall_bool.mpr passed.1, passed.2⟩
    | access | spurious => trivial
  have passes : (executeIf (sourceStep 1) serial (initial id) (.push false 7 :: List.replicate 5 (.access false) ++
        .push false 8 :: List.replicate 5 (.access false))).any
      (fun state => decide (state.log = [.pushed 7, .pushed 8] ∧ (state.cells 0).data = 8 ∧
        (state.cells 0).sequence = 2 ∧ state.dequeuePos = 0 ∧
        (state.threads true).resting = true)) = true := by
    decide +kernel
  obtain ⟨state, path, ends⟩ := exists_reaches_of_executeIf permits passes
  rw [decide_eq_true_eq] at ends
  obtain ⟨log, data, word, front, rest⟩ := ends
  refine ⟨by decide, state, path, log, data, state.goTo true .popLoadPos, if_pos rest, ?_⟩
  intro finish longer
  refine popSpins ?_ ?_ ?_ longer
  · exact word
  · exact front
  · simp [State.goTo]

end AnimusCore.RingBuffer

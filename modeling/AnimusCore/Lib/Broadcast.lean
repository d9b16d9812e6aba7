import AnimusCore.Lib.Ring
import AnimusCore.Lib.WordCopy
import Mathlib.Data.Fintype.Card
import Mathlib.Data.List.Infix

/-! A ring that one writer overwrites without asking, and readers that copy a run of
slots first and find out afterwards which of the copies to trust. A record is intact
while the write one lap later has not started, so the copies that are spoiled are the
oldest ones of the run. -/

set_option autoImplicit false

namespace AnimusCore.Lib

open Lib.Ring List

variable {Word : Type} {width : Nat} {capacity : Capacity}

/-- Every record whose slot no started write recycles is still in its slot. -/
def Retains (capacity : Capacity) (slots : Nat → Words Word width)
    (records : List (Words Word width)) (started : Nat) : Prop :=
  ∀ position record, records[position]? = some record →
    started ≤ position + capacity.size → slots (capacity.slot position) = record

section

variable {slots : Nat → Words Word width} {records : List (Words Word width)} {started later : Nat}

theorem Retains.empty : Retains capacity slots [] started := by
  intro pos record found
  simp at found

theorem Retains.start (retains : Retains capacity slots records started)
    (grown : started ≤ later) : Retains capacity slots records later :=
  fun pos record found intact => retains pos record found (grown.trans intact)

variable (retains : Retains capacity slots records (records.length + 1))
include retains

theorem Retains.write (content : Words Word width) :
    Retains capacity (Function.update slots (capacity.slot records.length) content) records (records.length + 1) := by
  intro pos record found intact
  have inside := (List.getElem?_eq_some_iff.mp found).1
  have apart : capacity.slot pos ≠ capacity.slot records.length := capacity.slot_ne inside (by omega)
  rw [Function.update_of_ne apart]
  exact retains pos record found intact

theorem Retains.publish {record : Words Word width} (whole : slots (capacity.slot records.length) = record) :
    Retains capacity slots (records ++ [record]) (records.length + 1) := by
  intro pos other found intact
  rcases Nat.lt_or_ge pos records.length with earlier | last
  · rw [List.getElem?_append_left earlier] at found
    exact retains pos other found intact
  · rw [List.getElem?_append_right last] at found
    obtain ⟨inside, same⟩ := List.getElem?_eq_some_iff.mp found
    have here : pos = records.length := by
      rw [length_singleton] at inside
      omega
    subst here
    rw [whole]
    simpa using same

end

/-- A run of `count` slots from position `first` on: the slots copied so far, and the
copy of the next one. -/
structure Batch (Word : Type) (width : Nat) where
  first : Nat
  count : Nat
  copies : List (Words Word width)
  todo : Finset (Fin width)
  snapshot : Words Word width

namespace Batch

def start [Inhabited Word] (first count : Nat) : Batch Word width :=
  ⟨first, count, [], Finset.univ, default⟩

section
variable (batch : Batch Word width)

def position : Nat := batch.first + batch.copies.length

def copyWord (capacity : Capacity) (slots : Nat → Words Word width) (word : Fin width) : Batch Word width :=
  { batch with
    todo := batch.todo.erase word
    snapshot := Function.update batch.snapshot word (slots (capacity.slot batch.position) word) }

def next [Inhabited Word] (batch : Batch Word width) : Batch Word width :=
  { batch with
    copies := batch.copies ++ [batch.snapshot]
    todo := Finset.univ
    snapshot := default }

/-- The number of leading copies that lie before the oldest intact position. -/
def spoiled (oldest : Nat) : Nat :=
  if oldest > batch.first then
    if oldest - batch.first < batch.count then oldest - batch.first else batch.count
  else 0

/-- The copies that are kept when the oldest `lost` ones are dropped, with their
positions. -/
def kept (lost : Nat) : List (Words Word width × Nat) :=
  ((batch.copies ++ [batch.snapshot]).drop lost).zipIdx (batch.first + lost)

end

/-- The run lies inside the written records, and every copy of a record that is still
intact agrees with it. -/
structure Sound (capacity : Capacity) (records : List (Words Word width)) (started : Nat)
    (batch : Batch Word width) : Prop where
  inside : batch.first + batch.count ≤ records.length
  unfinished : batch.copies.length < batch.count
  copied : ∀ index copy, batch.copies[index]? = some copy →
    started ≤ batch.first + index + capacity.size → records[batch.first + index]? = some copy
  copying : ∀ record, records[batch.position]? = some record →
    started ≤ batch.position + capacity.size → Copied batch.todo batch.snapshot record

variable {batch : Batch Word width} {records more : List (Words Word width)}
  {slots : Nat → Words Word width} {started later : Nat}

theorem Sound.start [Inhabited Word] {first count : Nat} (some : 0 < count)
    (inside : first + count ≤ records.length) : Sound capacity records started (start first count) where
  inside := inside
  unfinished := some
  copied index copy found := by simp [Batch.start] at found
  copying _ _ _ := Copied.start

section
variable (sound : Sound capacity records started batch)
include sound

/-- Later writes only take records away from what the copies promise. -/
theorem Sound.mono (grown : started ≤ later) (extended : records <+: more) : Sound capacity more later batch := by
  obtain ⟨suffix, rfl⟩ := extended
  have inside := sound.inside
  have unfinished := sound.unfinished
  have kept : ∀ pos, pos < records.length → (records ++ suffix)[pos]? = records[pos]? :=
    fun pos bound => List.getElem?_append_left bound
  refine ⟨?_, unfinished, fun index copy found intact => ?_, fun record found intact => ?_⟩
  · rw [length_append]
    omega
  · have bound := (List.getElem?_eq_some_iff.mp found).1
    rw [kept _ (by omega)]
    exact sound.copied index copy found (grown.trans intact)
  · rw [kept _ (by unfold position; omega)] at found
    exact sound.copying record found (grown.trans intact)

theorem Sound.word (retains : Retains capacity slots records started) (word : Fin width) :
    Sound capacity records started (batch.copyWord capacity slots word) where
  inside := sound.inside
  unfinished := sound.unfinished
  copied := sound.copied
  copying record found intact := by
    have held : slots (capacity.slot batch.position) = record := retains batch.position record found intact
    simp only [copyWord, held]
    exact (sound.copying record found intact).word word

variable (done : batch.todo = ∅)
include done

theorem Sound.copies_all (index : Nat) (copy : Words Word width)
    (found : (batch.copies ++ [batch.snapshot])[index]? = some copy)
    (intact : started ≤ batch.first + index + capacity.size) : records[batch.first + index]? = some copy := by
  rcases Nat.lt_or_ge index batch.copies.length with earlier | last
  · rw [List.getElem?_append_left earlier] at found
    exact sound.copied index copy found intact
  · rw [List.getElem?_append_right last] at found
    obtain ⟨bound, same⟩ := List.getElem?_eq_some_iff.mp found
    have here : index = batch.copies.length := by
      rw [length_singleton] at bound
      omega
    subst here
    have inside := sound.inside
    have unfinished := sound.unfinished
    have bounded : batch.position < records.length := by
      unfold position
      omega
    have written := List.getElem?_eq_getElem bounded
    have copied := sound.copying _ written intact
    rw [done] at copied
    have equal := copied.finish
    have whole : batch.snapshot = copy := by simpa using same
    change records[batch.position]? = some copy
    rw [written, ← equal, whole]

theorem Sound.next [Inhabited Word] (more : batch.copies.length + 1 < batch.count) :
    Sound capacity records started batch.next where
  inside := sound.inside
  unfinished := by simpa [Batch.next] using more
  copied := sound.copies_all done
  copying _ _ _ := Copied.start

theorem Sound.kept_sound {lost : Nat} (intact : started ≤ batch.first + lost + capacity.size)
    {entry : Words Word width × Nat} (member : entry ∈ batch.kept lost) : records[entry.2]? = some entry.1 := by
  obtain ⟨copy, pos⟩ := entry
  obtain ⟨low, found⟩ := mk_mem_zipIdx_iff_le_and_getElem?_sub.mp member
  rw [List.getElem?_drop] at found
  have index : batch.first + (lost + (pos - (batch.first + lost))) = pos := by omega
  have record := sound.copies_all done _ copy found (by omega)
  rw [index] at record
  exact record

/-- When no record of the run was recycled, the copies are the records. -/
theorem Sound.kept_all (last : batch.copies.length + 1 = batch.count)
    (intact : started ≤ batch.first + capacity.size) :
    batch.kept 0 = ((records.drop batch.first).take batch.count).zipIdx batch.first := by
  have same : batch.copies ++ [batch.snapshot] = (records.drop batch.first).take batch.count := by
    apply ext_getElem?
    intro index
    rcases Nat.lt_or_ge index batch.count with early | late
    · have bound : index < (batch.copies ++ [batch.snapshot]).length := by
        rw [length_append, length_singleton]
        omega
      have found := List.getElem?_eq_getElem bound
      rw [List.getElem?_take_of_lt early, List.getElem?_drop, found]
      exact (sound.copies_all done index _ found (by omega)).symm
    · rw [List.getElem?_eq_none, List.getElem?_eq_none]
      · rw [length_take]
        omega
      · rw [length_append, length_singleton]
        omega
  rw [kept, drop_zero, Nat.add_zero, same]

end

theorem spoiled_eq (batch : Batch Word width) (oldest : Nat) :
    batch.spoiled oldest = min batch.count (oldest - batch.first) := by
  unfold spoiled
  split
  · split <;> omega
  · omega

theorem length_kept (batch : Batch Word width) (lost : Nat) :
    (batch.kept lost).length = batch.copies.length + 1 - lost := by
  simp [kept]

def fuel (batch : Batch Word width) : Nat :=
  (batch.count - batch.copies.length - 1) * (width + 1) + batch.todo.card + 1

theorem fuel_start_le [Inhabited Word] (first : Nat) {count bound : Nat} (some : 0 < count) (fits : count ≤ bound) :
    (start first count : Batch Word width).fuel ≤ bound * (width + 1) := by
  have product := Nat.mul_le_mul_right (width + 1) fits
  obtain ⟨left, rfl⟩ : ∃ left, count = left + 1 := ⟨count - 1, by omega⟩
  simp only [fuel, start, length_nil, Nat.sub_zero, Nat.add_sub_cancel, Finset.card_univ,
    Fintype.card_fin, Nat.succ_mul] at product ⊢
  omega

theorem fuel_copyWord_lt (slots : Nat → Words Word width) {word : Fin width}
    (left : word ∈ batch.todo) : (batch.copyWord capacity slots word).fuel < batch.fuel := by
  have fewer := Finset.card_erase_lt_of_mem left
  simp only [fuel, copyWord]
  omega

theorem fuel_next_lt [Inhabited Word] (more : batch.copies.length + 1 < batch.count) :
    batch.next.fuel < batch.fuel := by
  obtain ⟨left, counted⟩ : ∃ left, batch.count - batch.copies.length - 1 = left + 1 :=
    ⟨batch.count - batch.copies.length - 2, by omega⟩
  have fewer : batch.count - (batch.copies.length + 1) - 1 = left := by omega
  simp only [fuel, Batch.next, length_append, length_singleton, counted, fewer,
    Finset.card_univ, Fintype.card_fin, Nat.succ_mul]
  omega

end Batch

/-- The records received, the position of the next one and the number of records
missed before it: the three account for each other. -/
structure Received (records : List (Words Word width))
    (entries : List (Words Word width × Nat)) (tail missed : Nat) : Prop where
  written : ∀ entry ∈ entries, records[entry.2]? = some entry.1
  increasing : (entries.map Prod.snd).Pairwise (· < ·)
  below : ∀ entry ∈ entries, entry.2 < tail
  accounted : entries.length + missed = tail

namespace Received

variable {records more : List (Words Word width)} {entries : List (Words Word width × Nat)} {tail missed : Nat}

theorem none : Received records [] 0 0 where
  written _ member := absurd member not_mem_nil
  increasing := List.Pairwise.nil
  below _ member := absurd member not_mem_nil
  accounted := rfl

theorem mono (received : Received records entries tail missed) (extended : records <+: more) :
    Received more entries tail missed where
  __ := received
  written entry member := by
    obtain ⟨suffix, rfl⟩ := extended
    have found := received.written entry member
    rw [List.getElem?_append_left (List.getElem?_eq_some_iff.mp found).1]
    exact found

theorem skip (received : Received records entries tail missed) {target : Nat}
    (ahead : tail ≤ target) : Received records entries target (missed + (target - tail)) where
  __ := received
  below entry member := (received.below entry member).trans_le ahead
  accounted := by
    have accounted := received.accounted
    omega

theorem deliver {batch : Batch Word width} {started lost : Nat}
    (received : Received records entries batch.first missed)
    (sound : batch.Sound capacity records started) (done : batch.todo = ∅)
    (last : batch.copies.length + 1 = batch.count)
    (intact : started ≤ batch.first + lost + capacity.size) (some : lost ≤ batch.count) :
    Received records (entries ++ batch.kept lost) (batch.first + batch.count) (missed + lost) where
  written entry member := by
    rcases mem_append.mp member with earlier | fresh
    · exact received.written entry earlier
    · exact sound.kept_sound done intact fresh
  increasing := by
    rw [map_append, pairwise_append]
    refine ⟨received.increasing, ?_, ?_⟩
    · rw [Batch.kept, zipIdx_map_snd]
      exact pairwise_lt_range'
    · intro early earlier late fresh
      obtain ⟨old, oldMember, rfl⟩ := mem_map.mp earlier
      obtain ⟨new, newMember, rfl⟩ := mem_map.mp fresh
      have before := received.below old oldMember
      have after := le_snd_of_mem_zipIdx newMember
      omega
  below entry member := by
    rcases mem_append.mp member with earlier | fresh
    · have bound := received.below entry earlier
      omega
    · have bound := snd_lt_add_of_mem_zipIdx fresh
      rw [length_drop, length_append, length_singleton] at bound
      omega
  accounted := by
    have accounted := received.accounted
    rw [length_append, Batch.length_kept]
    omega

end Received

inductive PollCall (Word : Type) (width : Nat) where
  | idle
  | waiting (maxCount : Nat)
  | copying (batch : Batch Word width)

/-- A reader: the position of its next record, the number of records it missed, its
call, and what each of its calls returned. -/
structure Poller (Word : Type) (width : Nat) where
  tail : Nat
  missed : Nat
  call : PollCall Word width
  results : List (List (Words Word width × Nat))

namespace Poller

section
variable (poller : Poller Word width)

def returned : List (Words Word width × Nat) :=
  poller.results.flatten

def returns (entries : List (Words Word width × Nat)) : Poller Word width :=
  { poller with call := .idle, results := poller.results ++ [entries] }

def oldest (window written : Nat) : Nat :=
  max poller.tail (written - window)

/-- The reader skips what has left the window, and copies what is there. -/
def load [Inhabited Word] (poller : Poller Word width) (window written maxCount : Nat) : Poller Word width :=
  let tail := poller.oldest window written
  let moved := { poller with tail, missed := poller.missed + (tail - poller.tail) }
  if min maxCount (written - tail) = 0 then moved.returns []
  else { moved with call := .copying (Batch.start tail (min maxCount (written - tail))) }

/-- The reader drops the copies before the oldest intact position. -/
def finish (batch : Batch Word width) (oldest : Nat) : Poller Word width :=
  let lost := min batch.count (oldest - batch.first)
  { poller with tail := batch.first + batch.count, missed := poller.missed + lost }.returns (batch.kept lost)

end

/-- A step of a call, with what it finds: the slots, the number of records written, and
the oldest intact position. -/
inductive Step [Inhabited Word] (capacity : Capacity) (slots : Nat → Words Word width)
    (window written oldest : Nat) (poller : Poller Word width) : Poller Word width → Prop
  | load {maxCount : Nat} (here : poller.call = .waiting maxCount) :
      Step capacity slots window written oldest poller (poller.load window written maxCount)
  | copyWord {batch : Batch Word width} {word : Fin width}
      (here : poller.call = .copying batch) (left : word ∈ batch.todo) :
      Step capacity slots window written oldest poller
        { poller with call := .copying (batch.copyWord capacity slots word) }
  | next {batch : Batch Word width} (here : poller.call = .copying batch)
      (done : batch.todo = ∅) (more : batch.copies.length + 1 < batch.count) :
      Step capacity slots window written oldest poller { poller with call := .copying batch.next }
  | finish {batch : Batch Word width} (here : poller.call = .copying batch)
      (done : batch.todo = ∅) (last : ¬ batch.copies.length + 1 < batch.count) :
      Step capacity slots window written oldest poller (poller.finish batch oldest)

structure Valid (capacity : Capacity) (records : List (Words Word width)) (started : Nat)
    (poller : Poller Word width) : Prop where
  received : Received records poller.returned poller.tail poller.missed
  tail_le : poller.tail ≤ records.length
  copying : ∀ batch, poller.call = .copying batch → batch.first = poller.tail ∧ batch.Sound capacity records started

variable {poller after : Poller Word width} {records more : List (Words Word width)}
  {slots : Nat → Words Word width} {started later window oldest maxCount : Nat}
  {batch : Batch Word width}

theorem returned_returns (poller : Poller Word width) (entries : List (Words Word width × Nat)) :
    (poller.returns entries).returned = poller.returned ++ entries := by
  simp [returned, returns]

theorem Valid.mono (valid : poller.Valid capacity records started) (grown : started ≤ later)
    (extended : records <+: more) : poller.Valid capacity more later where
  received := valid.received.mono extended
  tail_le := valid.tail_le.trans extended.length_le
  copying batch here := by
    obtain ⟨first, sound⟩ := valid.copying batch here
    exact ⟨first, sound.mono grown extended⟩

theorem Valid.returns {entries : List (Words Word width × Nat)}
    (received : Received records (poller.returned ++ entries) poller.tail poller.missed)
    (tail_le : poller.tail ≤ records.length) : (poller.returns entries).Valid capacity records started where
  received := by
    rw [returned_returns]
    exact received
  tail_le := tail_le
  copying := nofun

section
variable (valid : poller.Valid capacity records started)
include valid

theorem Valid.copy (first : batch.first = poller.tail) (sound : batch.Sound capacity records started) :
    Valid capacity records started { poller with call := .copying batch } where
  received := valid.received
  tail_le := valid.tail_le
  copying other here := by
    cases here
    exact ⟨first, sound⟩

theorem Valid.load [Inhabited Word] :
    (poller.load window records.length maxCount).Valid capacity records started := by
  have behind := valid.tail_le
  have ahead : poller.tail ≤ poller.oldest window records.length := le_max_left _ _
  have tail_le : poller.oldest window records.length ≤ records.length := by
    unfold oldest
    omega
  have received := valid.received.skip ahead
  unfold Poller.load
  simp only
  generalize taken : min maxCount (records.length - poller.oldest window records.length) = count
  by_cases none : count = 0
  · rw [if_pos none]
    refine Valid.returns ?_ tail_le
    rw [append_nil]
    exact received
  · rw [if_neg none]
    refine ⟨received, tail_le, fun batch here => ?_⟩
    cases here
    exact ⟨rfl, Batch.Sound.start (Nat.pos_of_ne_zero none) (by omega)⟩

theorem Valid.finish (here : poller.call = .copying batch) (done : batch.todo = ∅)
    (last : ¬ batch.copies.length + 1 < batch.count) (intact : started ≤ oldest + capacity.size) :
    (poller.finish batch oldest).Valid capacity records started := by
  obtain ⟨first, sound⟩ := valid.copying batch here
  have unfinished := sound.unfinished
  have received := valid.received
  rw [← first] at received
  refine Valid.returns ?_ sound.inside
  by_cases all : oldest - batch.first ≤ batch.count
  · exact received.deliver sound done (by omega) (by omega) (by omega)
  · -- Everything was recycled, so nothing is kept and nothing has to be intact.
    rw [min_eq_left (by omega)]
    have none : batch.kept batch.count = [] := by
      rw [← length_eq_zero_iff, Batch.length_kept]
      omega
    have skipped := received.skip (Nat.le_add_right batch.first batch.count)
    rw [Nat.add_sub_cancel_left] at skipped
    rw [none, append_nil]
    exact skipped

theorem Valid.step [Inhabited Word] (retains : Retains capacity slots records started)
    (intact : started ≤ oldest + capacity.size)
    (step : poller.Step capacity slots window records.length oldest after) :
    after.Valid capacity records started := by
  cases step with
  | load => exact valid.load
  | copyWord here =>
    obtain ⟨first, sound⟩ := valid.copying _ here
    exact valid.copy first (sound.word retains _)
  | next here done more =>
    obtain ⟨first, sound⟩ := valid.copying _ here
    exact valid.copy first (sound.next done more)
  | finish here done last => exact valid.finish here done last intact

end

def readable (poller : Poller Word width) (window : Nat) (records : List (Words Word width))
    (maxCount : Nat) : List (Words Word width × Nat) :=
  let tail := poller.oldest window records.length
  ((records.drop tail).take (min maxCount (records.length - tail))).zipIdx tail

theorem length_readable (poller : Poller Word width) (window : Nat)
    (records : List (Words Word width)) (maxCount : Nat) : (poller.readable window records maxCount).length =
      min maxCount (records.length - poller.oldest window records.length) := by
  simp only [readable, length_zipIdx, length_take, length_drop]
  omega

/-- Where a call stands that found the reader as `before`. -/
def Undisturbed (before : Poller Word width) (window : Nat)
    (records : List (Words Word width)) (maxCount : Nat) (poller : Poller Word width) : Prop :=
  let tail := before.oldest window records.length
  match poller.call with
  | .idle => poller.results = before.results ++ [before.readable window records maxCount] ∧
      poller.missed = before.missed + (tail - before.tail)
  | .waiting wanted => wanted = maxCount ∧ poller.results = before.results ∧
      poller.tail = before.tail ∧ poller.missed = before.missed
  | .copying batch => poller.results = before.results ∧ batch.first = tail ∧
      batch.count = min maxCount (records.length - tail) ∧
      poller.missed = before.missed + (tail - before.tail)

variable {before : Poller Word width}

section
variable (call : before.Undisturbed window records maxCount poller)
include call

theorem Undisturbed.load [Inhabited Word] {wanted : Nat} (here : poller.call = .waiting wanted) :
    before.Undisturbed window records maxCount (poller.load window records.length wanted) := by
  rw [Undisturbed, here] at call
  obtain ⟨rfl, results, tail, missed⟩ := call
  have oldest : poller.oldest window records.length = before.oldest window records.length := by
    rw [Poller.oldest, tail, Poller.oldest]
  unfold Poller.load
  simp only [oldest, tail, missed]
  split
  case isTrue none =>
    refine ⟨?_, rfl⟩
    simp only [Poller.returns, readable, none, results, take_zero, zipIdx_nil]
  case isFalse => exact ⟨results, rfl, rfl, rfl⟩

theorem Undisturbed.copy {next : Batch Word width} (here : poller.call = .copying batch)
    (first : next.first = batch.first) (count : next.count = batch.count) :
    before.Undisturbed window records maxCount { poller with call := .copying next } := by
  rw [Undisturbed, here] at call
  simp only [Undisturbed, first, count]
  exact call

theorem Undisturbed.finish (valid : poller.Valid capacity records started) (here : poller.call = .copying batch)
    (done : batch.todo = ∅) (last : ¬ batch.copies.length + 1 < batch.count)
    (trusted : started ≤ records.length - window + capacity.size) (unspoiled : oldest ≤ records.length - window) :
    before.Undisturbed window records maxCount (poller.finish batch oldest) := by
  rw [Undisturbed, here] at call
  obtain ⟨results, first, count, missed⟩ := call
  obtain ⟨-, sound⟩ := valid.copying batch here
  have unfinished := sound.unfinished
  have inWindow : records.length - window ≤ batch.first := by
    rw [first]
    exact le_max_right _ _
  have none : min batch.count (oldest - batch.first) = 0 := by omega
  have whole := sound.kept_all done (by omega) (by omega)
  unfold Poller.finish
  simp only [none]
  refine ⟨?_, ?_⟩
  · simp only [Poller.returns, results, whole, readable, first, count]
  · simp only [Poller.returns, missed, Nat.add_zero]

theorem Undisturbed.step [Inhabited Word] (valid : poller.Valid capacity records started)
    (trusted : started ≤ records.length - window + capacity.size) (unspoiled : oldest ≤ records.length - window)
    (step : poller.Step capacity slots window records.length oldest after) :
    before.Undisturbed window records maxCount after := by
  cases step with
  | load here => exact call.load here
  | copyWord here | next here => exact call.copy here rfl rfl
  | finish here done last => exact call.finish valid here done last trusted unspoiled

end

def fuel (window : Nat) (poller : Poller Word width) : Nat :=
  match poller.call with
  | .idle => 0
  | .waiting _ => window * (width + 1) + 1
  | .copying batch => batch.fuel

theorem fuel_load_lt [Inhabited Word] {written wanted : Nat} (here : poller.call = .waiting wanted) :
    (poller.load window written wanted).fuel window < poller.fuel window := by
  have atLeast : written - window ≤ poller.oldest window written := le_max_right _ _
  unfold Poller.load
  simp only
  generalize taken : min wanted (written - poller.oldest window written) = count
  by_cases none : count = 0
  · rw [if_pos none]
    simp only [fuel, Poller.returns, here]
    omega
  · rw [if_neg none]
    have started : (Batch.start (poller.oldest window written) count : Batch Word width).fuel ≤
        window * (width + 1) := Batch.fuel_start_le _ (by omega) (by omega)
    simp only [fuel, here]
    omega

theorem fuel_copy_lt {next : Batch Word width} (here : poller.call = .copying batch) (less : next.fuel < batch.fuel) :
    fuel window { poller with call := .copying next } < poller.fuel window := by
  simp only [fuel, here]
  exact less

theorem fuel_finish_lt (here : poller.call = .copying batch) :
    (poller.finish batch oldest).fuel window < poller.fuel window := by
  simp only [fuel, Poller.finish, Poller.returns, here, Batch.fuel]
  omega

theorem Step.fuel_lt [Inhabited Word] {written : Nat}
    (step : poller.Step capacity slots window written oldest after) : after.fuel window < poller.fuel window := by
  cases step with
  | load here => exact fuel_load_lt here
  | copyWord here left => exact fuel_copy_lt here (Batch.fuel_copyWord_lt slots left)
  | next here done more => exact fuel_copy_lt here (Batch.fuel_next_lt more)
  | finish here => exact fuel_finish_lt here

end Poller

end AnimusCore.Lib

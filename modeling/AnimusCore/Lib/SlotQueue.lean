import AnimusCore.Lib.Publication

/-! A queue of records in a byte memory: two counters that only grow and a row of slots that
the counters run through again and again. One party writes slots and the head, the other reads
slots and writes the tail; each may see an old value of the other's counter. -/

set_option autoImplicit false

namespace AnimusCore.Lib

theorem Memory.Holds.readLE_eq {memory : Memory} {offset width value : Nat}
    (held : memory.Holds offset (toLE width value)) (fits : value < 256 ^ width) :
    memory.readLE offset width = some value := by
  have found := held.readLE
  rwa [length_toLE, fromLE_toLE_of_lt fits] at found

theorem Memory.Readable.store?_toLE {memory : Memory} {bound offset width : Nat}
    (readable : memory.Readable bound) (inside : offset + width ≤ bound) (value : Nat) :
    memory.store? ⟨offset, toLE width value⟩ = some (memory.store ⟨offset, toLE width value⟩) :=
  store?_eq_some readable (by rwa [length_toLE])

theorem Store.apart_toLE_iff {offset width value other otherWidth : Nat} :
    (⟨offset, toLE width value⟩ : Store).Apart other otherWidth ↔
      offset + width ≤ other ∨ other + otherWidth ≤ offset := by
  rw [Store.Apart, length_toLE]

/-- The parts of a record: where each one begins and how many bytes it has. -/
structure RecordShape (Part : Type) where
  offset : Part → Nat
  width : Part → Nat
  size : Nat
  inside : ∀ part, offset part + width part ≤ size
  apart : ∀ first second, first ≠ second →
    offset first + width first ≤ offset second ∨ offset second + width second ≤ offset first

def RecordShape.Fits {Part : Type} (shape : RecordShape Part) (record : Part → Nat) : Prop :=
  ∀ part, record part < 256 ^ shape.width part

structure SlotQueue (Part : Type) where
  shape : RecordShape Part
  capacity : Nat
  capacity_pos : 0 < capacity
  headAt : Nat
  tailAt : Nat
  base : Nat
  counters_apart : headAt + 8 ≤ tailAt ∨ tailAt + 8 ≤ headAt
  head_below : headAt + 8 ≤ base
  tail_below : tailAt + 8 ≤ base

namespace SlotQueue

variable {Part : Type} (queue : SlotQueue Part)

def extent : Nat := queue.base + queue.capacity * queue.shape.size

def partAt (index : Nat) (part : Part) : Nat :=
  queue.base + index % queue.capacity * queue.shape.size + queue.shape.offset part

def headStore (count : Nat) : Store := ⟨queue.headAt, toLE 8 count⟩

def tailStore (count : Nat) : Store := ⟨queue.tailAt, toLE 8 count⟩

def partStore (index : Nat) (part : Part) (value : Nat) : Store :=
  ⟨queue.partAt index part, toLE (queue.shape.width part) value⟩

/-- The slot of the index has the record in it, up to the parts still to be written. -/
def Filled (memory : Memory) (index : Nat) (todo : List Part) (record : Part → Nat) : Prop :=
  ∀ part, part ∉ todo → memory.Holds (queue.partAt index part) (toLE (queue.shape.width part) (record part))

/-- The memory carries the records of the history that were not taken yet. -/
structure Carries (memory : Memory) (pushed : List (Part → Nat)) (taken : Nat) : Prop where
  readable : memory.Readable queue.extent
  head : memory.Holds queue.headAt (toLE 8 pushed.length)
  tail : memory.Holds queue.tailAt (toLE 8 taken)
  taken_le : taken ≤ pushed.length
  bounded : pushed.length ≤ taken + queue.capacity
  small : pushed.length < 2 ^ 64
  records : ∀ index record, taken ≤ index → pushed[index]? = some record → queue.Filled memory index [] record

variable {queue} {memory : Memory} {pushed : List (Part → Nat)} {taken : Nat}

theorem base_le_partAt (index : Nat) (part : Part) : queue.base ≤ queue.partAt index part := by
  unfold partAt
  omega

theorem partAt_le_extent (index : Nat) (part : Part) :
    queue.partAt index part + queue.shape.width part ≤ queue.extent := by
  have slot := Nat.mod_lt index queue.capacity_pos
  have rows := Nat.mul_le_mul_right queue.shape.size (Nat.succ_le_of_lt slot)
  have inside := queue.shape.inside part
  rw [Nat.succ_mul] at rows
  unfold partAt extent
  omega

variable {index : Nat}

theorem partStore_apart_of_ne {part other : Part} (differ : part ≠ other) (value : Nat) :
    (queue.partStore index part value).Apart (queue.partAt index other) (queue.shape.width other) := by
  have parts := queue.shape.apart part other differ
  rw [partStore, Store.apart_toLE_iff]
  unfold partAt
  omega

/-- Fewer than a full round apart two indices have different slots. -/
theorem partStore_apart {early late : Nat} (before : early < late)
    (near : late < early + queue.capacity) (part other : Part) (value : Nat) :
    (queue.partStore late part value).Apart (queue.partAt early other) (queue.shape.width other) := by
  have differ : early % queue.capacity ≠ late % queue.capacity := by
    intro same
    have difference := Nat.sub_mod_eq_zero_of_mod_eq same.symm
    rw [Nat.mod_eq_of_lt (by omega)] at difference
    omega
  have inside := queue.shape.inside part
  have otherInside := queue.shape.inside other
  rw [partStore, Store.apart_toLE_iff]
  unfold partAt
  rcases Nat.lt_or_gt_of_ne differ with less | more
  · have rows := Nat.mul_le_mul_right queue.shape.size (Nat.succ_le_of_lt less)
    rw [Nat.succ_mul] at rows
    omega
  · have rows := Nat.mul_le_mul_right queue.shape.size (Nat.succ_le_of_lt more)
    rw [Nat.succ_mul] at rows
    omega

theorem headStore_apart_part (count index : Nat) (part : Part) :
    (queue.headStore count).Apart (queue.partAt index part) (queue.shape.width part) := by
  have below := queue.head_below
  have beyond := @base_le_partAt Part queue index part
  rw [headStore, Store.apart_toLE_iff]
  omega

theorem tailStore_apart_part (count index : Nat) (part : Part) :
    (queue.tailStore count).Apart (queue.partAt index part) (queue.shape.width part) := by
  have below := queue.tail_below
  have beyond := @base_le_partAt Part queue index part
  rw [tailStore, Store.apart_toLE_iff]
  omega

theorem partStore_apart_below {offset width : Nat} (below : offset + width ≤ queue.base) (index : Nat) (part : Part)
    (value : Nat) : (queue.partStore index part value).Apart offset width := by
  have beyond := @base_le_partAt Part queue index part
  rw [partStore, Store.apart_toLE_iff]
  omega

theorem holds_of_store_apart {entry : Store} {offset width value : Nat}
    (held : memory.Holds offset (toLE width value)) (apart : entry.Apart offset width) :
    (memory.store entry).Holds offset (toLE width value) :=
  held.store (by rwa [length_toLE])

variable {record : Part → Nat}

theorem Filled.store {todo : List Part} {entry : Store} (filled : queue.Filled memory index todo record)
    (apart : ∀ part, entry.Apart (queue.partAt index part) (queue.shape.width part)) :
    queue.Filled (memory.store entry) index todo record :=
  fun part done => holds_of_store_apart (filled part done) (apart part)

theorem filled_of_all {todo : List Part} (all : ∀ part, part ∈ todo) : queue.Filled memory index todo record :=
  fun part outside => absurd (all part) outside

theorem Filled.part [DecidableEq Part] {part : Part} {rest : List Part}
    (filled : queue.Filled memory index (part :: rest) record) :
    queue.Filled (memory.store (queue.partStore index part (record part))) index rest record := by
  intro other outside
  by_cases same : other = part
  · subst same
    exact Memory.store_holds memory (queue.partStore index other (record other))
  · have done : other ∉ part :: rest := by
      rw [List.mem_cons]
      exact fun inside => inside.elim same outside
    exact holds_of_store_apart (filled other done) (partStore_apart_of_ne (Ne.symm same) _)

namespace Carries

variable (carries : queue.Carries memory pushed taken)
include carries

theorem readHead : memory.readLE queue.headAt 8 = some pushed.length :=
  carries.head.readLE_eq carries.small

theorem readTail : memory.readLE queue.tailAt 8 = some taken :=
  carries.tail.readLE_eq (Nat.lt_of_le_of_lt carries.taken_le carries.small)

theorem readPart {index : Nat} {record : Part → Nat} (after : taken ≤ index)
    (found : pushed[index]? = some record) (fits : queue.shape.Fits record) (part : Part) :
    memory.readLE (queue.partAt index part) (queue.shape.width part) = some (record part) :=
  (carries.records index record after found part List.not_mem_nil).readLE_eq (fits part)

theorem store?_head (count : Nat) : memory.store? (queue.headStore count) =
    some (memory.store (queue.headStore count)) :=
  carries.readable.store?_toLE (Nat.le_add_right_of_le queue.head_below) count

theorem store?_tail (count : Nat) : memory.store? (queue.tailStore count) =
    some (memory.store (queue.tailStore count)) :=
  carries.readable.store?_toLE (Nat.le_add_right_of_le queue.tail_below) count

theorem store?_part (index : Nat) (part : Part) (value : Nat) : memory.store? (queue.partStore index part value) =
      some (memory.store (queue.partStore index part value)) :=
  carries.readable.store?_toLE (partAt_le_extent index part) value

/-- The slot after the last record is free while the queue is not full. -/
theorem write (room : pushed.length < taken + queue.capacity) (part : Part) (value : Nat) :
    queue.Carries (memory.store (queue.partStore pushed.length part value)) pushed taken where
  readable := carries.readable.store _
  head := holds_of_store_apart carries.head (partStore_apart_below queue.head_below ..)
  tail := holds_of_store_apart carries.tail (partStore_apart_below queue.tail_below ..)
  taken_le := carries.taken_le
  bounded := carries.bounded
  small := carries.small
  records index record after found := by
    have before : index < pushed.length := (List.getElem?_eq_some_iff.mp found).1
    exact (carries.records index record after found).store fun other =>
      partStore_apart before (by omega) part other value

theorem publish {record : Part → Nat} (room : pushed.length < taken + queue.capacity)
    (small : pushed.length + 1 < 2 ^ 64) (filled : queue.Filled memory pushed.length [] record) :
    queue.Carries (memory.store (queue.headStore (pushed.length + 1))) (pushed ++ [record]) taken where
  readable := carries.readable.store _
  head := by
    rw [List.length_append]
    exact Memory.store_holds memory (queue.headStore (pushed.length + 1))
  tail := holds_of_store_apart carries.tail (by
    have apart := queue.counters_apart
    rw [headStore, Store.apart_toLE_iff]
    omega)
  taken_le := by
    have before := carries.taken_le
    rw [List.length_append]
    omega
  bounded := by
    rw [List.length_append]
    exact room
  small := by
    rw [List.length_append]
    exact small
  records index other after found := by
    rw [List.getElem?_append] at found
    split at found
    case isTrue =>
      exact (carries.records index other after found).store (headStore_apart_part _ _)
    case isFalse beyond =>
      have single := List.mem_singleton.mp (List.mem_of_getElem? found)
      have last : index - pushed.length < 1 := (List.getElem?_eq_some_iff.mp found).1
      have same : index = pushed.length := by omega
      rw [single, same]
      exact filled.store (headStore_apart_part _ _)

theorem take (more : taken < pushed.length) :
    queue.Carries (memory.store (queue.tailStore (taken + 1))) pushed (taken + 1) where
  readable := carries.readable.store _
  head := holds_of_store_apart carries.head (by
    have apart := queue.counters_apart
    rw [tailStore, Store.apart_toLE_iff]
    omega)
  tail := Memory.store_holds memory (queue.tailStore (taken + 1))
  taken_le := more
  bounded := by
    have bounded := carries.bounded
    omega
  small := carries.small
  records index record after found := (carries.records index record (Nat.le_of_succ_le after) found).store
      (tailStore_apart_part _ _)

end Carries

theorem carries_nil (readable : memory.Readable queue.extent)
    (head : memory.Holds queue.headAt (toLE 8 0)) (tail : memory.Holds queue.tailAt (toLE 8 0)) :
    queue.Carries memory [] 0 where
  readable := readable
  head := head
  tail := tail
  taken_le := Nat.le_refl 0
  bounded := Nat.zero_le _
  small := Nat.two_pow_pos 64
  records := nofun

end SlotQueue

end AnimusCore.Lib

import AnimusCore.SharedMemory.Queues

/-! Attaching to a ring while it is created. The marker is stored last and loaded first, so
an attach that succeeds has found the finished ring. -/

set_option autoImplicit false

namespace AnimusCore.SharedMemory

open Lib

section
variable {line : CacheLine} {type : CellType} {capacity : UInt64}

private theorem quiet_mpmcHeaderStores : ∀ entry ∈ mpmcHeaderStores line, entry.Quiet 120 8 := by
  have kind : (Store.word 16 mpmcKind).Quiet 120 8 := .inl (.inl (by simp))
  simp only [mpmcHeaderStores, List.forall_mem_append, List.forall_mem_cons, List.not_mem_nil,
    IsEmpty.forall_iff, implies_true, Store.quiet_word_zero, kind, and_true]
  exact ⟨Store.quiet_zeros, Store.quiet_zeros⟩

private theorem quiet_of_mem_mpmcBody {entry : Store} (inside : entry ∈ mpmcBody line type capacity) : entry.Quiet 120 8 := by
  rcases List.mem_append.mp inside with begun | field
  · rcases List.mem_append.mp begun with header | cell
    · exact quiet_mpmcHeaderStores _ header
    · obtain ⟨index, -, rfl⟩ := of_mem_cellStores cell
      have beyond := (le_mpmcRingHeaderSize line).1
      refine .inl (.inr ?_)
      rw [Store.word_offset, cellOffset]
      omega
  · exact .inl (.inl (of_mem_mpmcDescriptorStores field))

end

/-- The stores of `create` on a fresh segment of this size. -/
def mpmcPublication (line : CacheLine) (type : CellType) (capacity : UInt64) (size : Nat)
    (large : 128 ≤ size) : Publication where
  initial := Memory.zeroed size
  body := mpmcBody line type capacity
  marker := 120
  magic := readyMagic
  descriptor := 128
  clear := Memory.zeroed_clear large
  quiet _ := quiet_of_mem_mpmcBody

/-- One call of `open`, with the type it is made for and the size of its mapping. -/
structure MpmcOpener where
  type : CellType
  size : UInt64

def MpmcOpener.loads (line : CacheLine) (opener : MpmcOpener) : Loads View :=
  openMpmcLoads line opener.type opener.size

section
variable {line : CacheLine} {type : CellType} {capacity : UInt64} {size : Nat} {large : 128 ≤ size}

private theorem mpmcPublication_described :
    MpmcDescribed line type capacity (mpmcPublication line type capacity size large).final :=
  mpmc_described (Memory.zeroed size)

theorem MpmcOpener.respects (opener : MpmcOpener) : (mpmcPublication line type capacity size large).Respects
      (· = View.mk (mpmcRingHeaderSize line) capacity (capacity - 1) (type.cellSize line)) (opener.loads line) := by
  have described := @mpmcPublication_described line type capacity size large
  rw [MpmcOpener.loads, openMpmcLoads, Loads.check]
  split
  case isFalse => exact .inl rfl
  case isTrue =>
    refine .inr ⟨_, _, rfl, rfl, fun _ _ _ => ?_⟩
    simp only [Loads.always_require, Loads.always_check, beq_iff_eq]
    rintro kind - - found seenCapacity - mask - - payload - - stride seenStride rfl hash - - - -
    have sameCapacity := seenCapacity.eq (show 0 + 8 ≤ 128 by decide) described.capacity
    have sameStride := seenStride.eq (show 40 + 8 ≤ 128 by decide) described.stride
    rw [sameCapacity, sameStride]
    rfl

end

/-- The stores of `init` on a fresh segment of this size. -/
def queuePublication (line : CacheLine) (type : RecordType) (capacity : UInt64)
    (ring : QueueRing) (size : Nat) (large : 32 ≤ size) : Publication where
  initial := Memory.zeroed size
  body := ring.body line type capacity
  marker := 0
  magic := ring.magic
  descriptor := 32
  clear := Memory.zeroed_clear (by omega)
  quiet := by
    have field {offset : Nat} (value : UInt64) (beyond : 8 ≤ offset) :
        (Store.word offset value).Quiet 0 8 := .inl (.inr beyond)
    simp only [QueueRing.body, List.forall_mem_append, List.forall_mem_cons, List.not_mem_nil,
      IsEmpty.forall_iff, implies_true, List.forall_mem_map, Store.quiet_word_zero, and_true]
    exact ⟨Store.quiet_zeros, field _ (by decide), field _ (by decide), field _ (by decide)⟩

/-- What a Python `SpscQueueConsumer` keeps of the header. -/
structure SpscQueueConsumer where
  capacity : UInt64
  mask : UInt64
  tail : UInt64

/-- The constructor, for a buffer of this length; `none` is an exception. -/
def SpscQueueConsumer.loads (length : Nat) : Loads SpscQueueConsumer :=
  .check (192 ≤ length) <|
  .require 0 (· == 0x5350534351554555) fun _ =>
  .load 8 fun capacity =>
  .load 16 fun mask =>
  .load 24 fun payloadSize =>
  .check (payloadSize == 40) <|
  .check (isPow2 capacity && mask == capacity - 1) <|
  .check (192 + capacity.toNat * 40 ≤ length) <|
  .load 128 fun tail =>
  .done (some { capacity, mask, tail })

inductive Attached where
  | view (view : View)
  | consumer (consumer : SpscQueueConsumer)

/-- One call of `attach` or of the Python constructor. -/
inductive QueueAttacher where
  | native (type : RecordType) (address size : UInt64)
  | python (length : Nat)

/-- A Python constructor looks for an `SpscQueue` only. -/
def QueueAttacher.loads (line : CacheLine) (ring : QueueRing) : QueueAttacher → Loads Attached
  | native type address size => (ring.attachLoads line type address size).map .view
  | python length => (SpscQueueConsumer.loads length).map .consumer

/-- The capacity and the mask are those of the finished header. -/
def Attached.Finished (line : CacheLine) (type : RecordType) (capacity : UInt64) (ring : QueueRing) : Attached → Prop
  | view found => found = ⟨ring.headerSize line, capacity, capacity - 1, type.size⟩
  | consumer found => found.capacity = capacity ∧ found.mask = capacity - 1 ∧ type.size = 40

section
variable {line : CacheLine} {type : RecordType} {capacity : UInt64} {ring : QueueRing}
  {size : Nat} {large : 32 ≤ size}

private theorem queuePublication_described : QueueRing.Described type capacity ring
      (queuePublication line type capacity ring size large).final :=
  QueueRing.described (Memory.zeroed size)

theorem QueueAttacher.respects (attacher : QueueAttacher) :
    (queuePublication line type capacity ring size large).Respects
      (Attached.Finished line type capacity ring) (attacher.loads line ring) := by
  have described := @queuePublication_described line type capacity ring size large
  cases attacher with
  | native readerType address readerSize =>
    rw [QueueAttacher.loads, QueueRing.attachLoads, Loads.map_check, Loads.check]
    split
    case isFalse => exact .inl rfl
    case isTrue =>
      rw [Loads.map_require]
      refine .inr ⟨_, _, rfl, by cases ring <;> rfl, fun _ _ _ => ?_⟩
      simp only [Loads.always_map, Loads.always_require, Loads.always_load, beq_iff_eq]
      rintro payload seenPayload rfl - - - mask seenMask - - - found seenCapacity -
      have samePayload := seenPayload.eq (show 24 + 8 ≤ 32 by decide) described.payloadSize
      have sameMask := seenMask.eq (show 16 + 8 ≤ 32 by decide) described.mask
      have sameCapacity := seenCapacity.eq (show 8 + 8 ≤ 32 by decide) described.capacity
      rw [samePayload, sameMask, sameCapacity]
      rfl
  | python length =>
    rw [QueueAttacher.loads, SpscQueueConsumer.loads, Loads.map_check, Loads.check]
    split
    case isFalse => exact .inl rfl
    case isTrue =>
      rw [Loads.map_require]
      refine .inr ⟨_, _, rfl, rfl, fun _ _ _ => ?_⟩
      simp only [Loads.always_map, Loads.always_load, Loads.always_check, beq_iff_eq]
      rintro found seenCapacity mask seenMask payload seenPayload rfl - - tail -
      exact ⟨seenCapacity.eq (show 8 + 8 ≤ 32 by decide) described.capacity,
        seenMask.eq (show 16 + 8 ≤ 32 by decide) described.mask,
        (seenPayload.eq (show 24 + 8 ≤ 32 by decide) described.payloadSize).symm⟩

end

section
variable {Reader α : Type}

/-- The creator has nothing left to store, and what was made through the results stands on
top of its finished memory. -/
structure Undisturbed (publication : Publication) (state : Shared Reader α) : Prop where
  finished : state.pending = []
  memory : state.memory = publication.final.storeAll state.operations

private theorem storeAll_operations_below {memory : Memory} {operations : List Store} {descriptor : Nat}
    (kept : ∀ entry ∈ operations, descriptor ≤ entry.offset) {pos : Nat}
    (below : pos < descriptor) : memory.storeAll operations pos = memory pos :=
  Memory.storeAll_of_apart fun entry listed => .inr (by have := kept entry listed; omega)

end

/-- In every interleaving of a creator with any number of attaches, and with the operations
of those that have succeeded, a result is that of the finished ring. -/
theorem publication_markers_sound (line : CacheLine) {Reader : Type} [DecidableEq Reader] :
    (∀ (type : CellType) (capacity : UInt64) (size : Nat) (large : 128 ≤ size)
        (openers : Reader → MpmcOpener) (state : Shared Reader View),
      Reaches Shared.step (Shared.Allowed 128) ((mpmcPublication line type capacity size large).start
          fun reader => (openers reader).loads line) state → ∀ reader view, state.readers reader = .done (some view) →
        view = ⟨mpmcRingHeaderSize line, capacity, capacity - 1, type.cellSize line⟩ ∧
        MpmcDescribed line type capacity state.memory ∧
        Undisturbed (mpmcPublication line type capacity size large) state ∧
        ∀ index < capacity.toNat, (mpmcPublication line type capacity size large).final.word
            (cellOffset line type index) = some (UInt64.ofNat index)) ∧
    ∀ (ring : QueueRing) (type : RecordType) (capacity : UInt64) (size : Nat) (large : 32 ≤ size)
        (attachers : Reader → QueueAttacher) (state : Shared Reader Attached),
      Reaches Shared.step (Shared.Allowed 32) ((queuePublication line type capacity ring size large).start
          fun reader => (attachers reader).loads line ring) state →
      ∀ reader found, state.readers reader = .done (some found) → found.Finished line type capacity ring ∧
        QueueRing.Described type capacity ring state.memory ∧
        Undisturbed (queuePublication line type capacity ring size large) state := by
  constructor
  · intro type capacity size large openers state reached reader view succeeded
    obtain ⟨found, finished, memory, kept⟩ :=
      Publication.published (fun reader => (openers reader).respects) reached succeeded
    have described : MpmcDescribed line type capacity
        (mpmcPublication line type capacity size large).final := mpmcPublication_described
    refine ⟨found, described.congr fun position below => ?_, ⟨finished, memory⟩,
      fun index inside => mpmc_cell _ inside⟩
    rw [memory]
    exact storeAll_operations_below kept below
  · intro ring type capacity size large attachers state reached reader attached succeeded
    obtain ⟨found, finished, memory, kept⟩ :=
      Publication.published (fun reader => (attachers reader).respects) reached succeeded
    have described : QueueRing.Described type capacity ring
        (queuePublication line type capacity ring size large).final := queuePublication_described
    refine ⟨found, described.congr fun position below => ?_, finished, memory⟩
    rw [memory]
    exact storeAll_operations_below kept below

theorem publication_markers_sound_two_cells : ∃ state : Shared Unit View, ∃ view,
      Reaches Shared.step (Shared.Allowed 128) ((mpmcPublication .line64 sampleCell 2 512 (by decide)).start
          fun _ => (MpmcOpener.mk sampleCell 512).loads .line64) state ∧ state.readers () = .done (some view) ∧
      view = ⟨mpmcRingHeaderSize .line64, 2, 2 - 1, sampleCell.cellSize .line64⟩ ∧
      MpmcDescribed .line64 sampleCell 2 state.memory := by
  have inside : ∀ entry ∈ mpmcStores .line64 sampleCell 2,
      entry.offset + entry.bytes.length ≤ 512 := fun entry listed => of_mem_mpmcStores listed
  have opened : (openMpmcLoads .line64 sampleCell 512).run
      (mpmcPublication .line64 sampleCell 2 512 (by decide)).final = some (some
        ⟨mpmcRingHeaderSize .line64, 2, 2 - 1, sampleCell.cellSize .line64⟩) :=
    run_openMpmcLoads mpmcPublication_described (by decide) (by decide) (by decide) (by decide)
  obtain ⟨state, reached, succeeded⟩ := Publication.reaches_result
    (mpmcPublication .line64 sampleCell 2 512 (by decide))
    (fun _ => (MpmcOpener.mk sampleCell 512).loads .line64) ()
    (Memory.zeroed_readable 512) inside opened
  have sound := (publication_markers_sound .line64).1 sampleCell 2 512 (by decide)
    (fun _ : Unit => MpmcOpener.mk sampleCell 512) state reached () _ succeeded
  exact ⟨state, _, reached, succeeded, sound.1, sound.2.1⟩

end AnimusCore.SharedMemory

import AnimusCore.Lib.Stages
import AnimusCore.SharedMemory.Attaching
import Mathlib.Data.List.TakeWhile

/-! `ShmRing::create` store by store, and the two ways of opening the ring meanwhile. There
is no marker: an open that succeeds has seen the payload size, or the stride, and the
descriptor is finished only when the text behind them is. -/

set_option autoImplicit false

namespace AnimusCore.SharedMemory

open Lib

/-- The header constructed in place. Every initialiser is zero, the kind's as well. -/
def shmHeaderStores (line : CacheLine) : List Store :=
  Store.zeros 0 (ringHeaderSize line).toNat ++
    [.word 0 0, .word 8 0, .word 16 RingKind.spsc.word, .word 24 0, .word 32 0, .word 40 0] ++
    Store.zeros 48 80 ++ [.word 128 0, .word 136 0, .word 144 0, .word 152 0, .word 160 0] ++
    [.word (128 + line.bytes.toNat) 0, .word (136 + line.bytes.toNat) 0,
      .word (144 + line.bytes.toNat) 0, .word (152 + line.bytes.toNat) 0]

/-- Up to the payload size. -/
def stampStores (type : RecordType) (capacity : UInt64) : List Store :=
  [.word 0 capacity, .word 8 (capacity - 1), .word 16 RingKind.spsc.word,
    .word 24 type.versionHash, .word 32 type.size]

def shmStores (line : CacheLine) (type : RecordType) (capacity : UInt64) : List Store :=
  shmHeaderStores line ++ (stampStores type capacity ++ .word 40 type.size :: wireFormatStores 80 type.wireFormat)

def openShmLoads (line : CacheLine) (type : RecordType) (size : UInt64) : Loads View :=
  .check (ringHeaderSize line ≤ size) <|
  .require 16 (· == RingKind.spsc.word) fun _ =>
  .require 0 capacityIsPow2 fun capacity =>
  .require 8 (· == capacity - 1) fun mask =>
  .require 32 (· == type.size) fun _ =>
  .require 24 (· == type.versionHash) fun _ =>
  .check (ringHeaderSize line + capacity * type.size ≤ size) <|
  .done (some { headerSize := ringHeaderSize line, capacity, mask, stride := type.size })

/-- The stride is loaded twice. -/
def openRawLoads (line : CacheLine) (size : UInt64) : Loads View :=
  .check (ringHeaderSize line ≤ size) <|
  .require 16 (· == RingKind.spsc.word) fun _ =>
  .require 0 capacityIsPow2 fun capacity =>
  .require 8 (· == capacity - 1) fun _ =>
  .require 32 (· != 0) fun _ =>
  .require 40 (· != 0) fun _ =>
  .require 40 (fun stride => ringHeaderSize line + capacity * stride ≤ size) fun stride =>
  .done (some { headerSize := ringHeaderSize line, capacity, mask := capacity - 1, stride })

/-- One call of `open`, with the size of its mapping. -/
inductive ShmOpener where
  | shmRing (type : RecordType) (size : UInt64)
  | rawSchemaView (size : UInt64)

def ShmOpener.loads (line : CacheLine) : ShmOpener → Loads View
  | shmRing type size => openShmLoads line type size
  | rawSchemaView size => openRawLoads line size

/-- What both ways of opening have seen to be there. -/
structure Stamped (type : RecordType) (capacity : UInt64) (memory : Memory) : Prop where
  mask : memory.word 8 = some (capacity - 1)
  capacity : memory.word 0 = some capacity
  ringKind : memory.word 16 = some RingKind.spsc.word
  versionHash : memory.word 24 = some type.versionHash
  payloadSize : memory.word 32 = some type.size

structure ShmDescribed (type : RecordType) (capacity : UInt64) (memory : Memory) : Prop
    extends Stamped type capacity memory where
  stride : memory.word 40 = some type.size
  wireFormat : memory.Holds 48 (wireText 80 type.wireFormat ++ [0])

section
variable {line : CacheLine} {type : RecordType} {capacity : UInt64} {memory : Memory}

private theorem quiet_shmHeaderStores (offset width : Nat) : ∀ entry ∈ shmHeaderStores line, entry.Quiet offset width := by
  have kind : (Store.word 16 RingKind.spsc.word).Quiet offset width := Store.quiet_word_zero ..
  simp only [shmHeaderStores, List.forall_mem_append, List.forall_mem_cons, List.not_mem_nil,
    IsEmpty.forall_iff, implies_true, Store.quiet_word_zero, kind, and_true]
  exact ⟨Store.quiet_zeros, Store.quiet_zeros⟩

private theorem ne_zero_of_mem_wireText {bufferSize : Nat} {src : List UInt8} {byte : UInt8}
    (inside : byte ∈ wireText bufferSize src) : byte ≠ 0 := by
  have kept := List.mem_takeWhile_imp (List.mem_of_mem_take inside)
  exact of_decide_eq_true kept

@[simp] theorem length_byteStores (offset : Nat) (text : List UInt8) :
    (byteStores offset text).length = text.length := by
  induction text generalizing offset with
  | nil => rfl
  | cons byte rest ih => rw [byteStores, List.length_cons, List.length_cons, ih]

private theorem byteStores_append (offset : Nat) (front back : List UInt8) : byteStores offset (front ++ back) =
      byteStores offset front ++ byteStores (offset + front.length) back := by
  induction front generalizing offset with
  | nil => rfl
  | cons byte rest ih =>
    have shifted : offset + 1 + rest.length = offset + (rest.length + 1) := by omega
    rw [List.cons_append, byteStores, ih, byteStores, List.cons_append, List.length_cons, shifted]

/-! ### How far the creator has come

The stores left are the stride, one for each byte of the text, and the NUL. -/

variable {finished pending : List Store}

private theorem clear_payload_of_left (clear : memory.Clear 32 8) (split : finished ++ pending = shmStores line type capacity)
    (left : (wireText 80 type.wireFormat).length + 2 < pending.length) : (memory.storeAll finished).Clear 32 8 := by
  have shape : shmStores line type capacity = (shmHeaderStores line ++ [.word 0 capacity, .word 8 (capacity - 1),
        .word 16 RingKind.spsc.word, .word 24 type.versionHash]) ++
      .word 32 type.size :: .word 40 type.size :: wireFormatStores 80 type.wireFormat := by
    simp [shmStores, stampStores]
  rw [shape] at split
  refine clear_of_left clear split (by simpa [wireFormatStores] using left) ?_
  intro early inside
  rcases List.mem_append.mp inside with header | field
  · exact quiet_shmHeaderStores 32 8 early header
  · simp only [List.mem_cons, List.not_mem_nil, or_false] at field
    rcases field with rfl | rfl | rfl | rfl <;> exact .inl (.inl (by simp))

private theorem clear_stride_of_left (clear : memory.Clear 40 8) (split : finished ++ pending = shmStores line type capacity)
    (left : (wireText 80 type.wireFormat).length + 1 < pending.length) : (memory.storeAll finished).Clear 40 8 := by
  rw [shmStores, ← List.append_assoc] at split
  refine clear_of_left clear split (by simpa [wireFormatStores] using left) ?_
  intro early inside
  rcases List.mem_append.mp inside with header | field
  · exact quiet_shmHeaderStores 40 8 early header
  · simp only [stampStores, List.mem_cons, List.not_mem_nil, or_false] at field
    rcases field with rfl | rfl | rfl | rfl | rfl <;> exact .inl (.inl (by simp))

private theorem descriptor_stores_noOverlap : Store.NoOverlap (stampStores type capacity ++
    .word 40 type.size :: wireFormatStores 80 type.wireFormat) := words_text_noOverlap ..

private theorem stamped_of_made (split : finished ++ pending = shmStores line type capacity)
    (made : pending.length ≤ (wireText 80 type.wireFormat).length + 2) :
    Stamped type capacity (memory.storeAll finished) := by
  have enough : pending.length ≤ (Store.word 40 type.size :: wireFormatStores 80 type.wireFormat).length := by
    simpa [wireFormatStores] using made
  constructor
  all_goals
    apply word_of_made split descriptor_stores_noOverlap enough
    simp [stampStores]

private theorem stride_of_made (split : finished ++ pending = shmStores line type capacity)
    (made : pending.length ≤ (wireText 80 type.wireFormat).length + 1) :
    (memory.storeAll finished).word 40 = some type.size := by
  have apart := @descriptor_stores_noOverlap type capacity
  have shape : stampStores type capacity ++ .word 40 type.size :: wireFormatStores 80 type.wireFormat =
      (stampStores type capacity ++ [.word 40 type.size]) ++ wireFormatStores 80 type.wireFormat := by
    simp
  rw [shmStores, shape] at split
  exact word_of_made split apart (by simpa [wireFormatStores] using made) (by simp)

private theorem quiet_of_mem_early {text : List UInt8} {entry : Store}
    (inside : entry ∈ shmHeaderStores line ++ (stampStores type capacity ++
      [.word 40 type.size]) ++ byteStores 48 text) {offset : Nat}
    (beyond : 48 + text.length ≤ offset) (width : Nat) : entry.Quiet offset width := by
  simp only [stampStores, List.mem_append, List.mem_cons, List.not_mem_nil, or_false] at inside
  rcases inside with (header | field | rfl) | byte
  · exact quiet_shmHeaderStores offset width entry header
  · rcases field with rfl | rfl | rfl | rfl | rfl <;>
      exact .inl (.inl (by rw [Store.word_offset, Store.length_word]; omega))
  · exact .inl (.inl (by rw [Store.word_offset, Store.length_word]; omega))
  · obtain ⟨-, before, single⟩ := of_mem_byteStores byte
    exact .inl (.inl (by omega))

private theorem shmStores_eq (line : CacheLine) (type : RecordType) (capacity : UInt64)
    {front back : List UInt8} (text : wireText 80 type.wireFormat ++ [0] = front ++ back) :
    shmStores line type capacity = (shmHeaderStores line ++ (stampStores type capacity ++ [.word 40 type.size]) ++
        byteStores 48 front) ++ byteStores (48 + front.length) back := by
  rw [shmStores, wireFormatStores, text, byteStores_append]
  simp

/-- Nothing but zeros is ever stored behind the text. -/
theorem clear_behind_text (clear : memory.Clear 48 80) (split : finished ++ pending = shmStores line type capacity) :
    (memory.storeAll finished).Clear (48 + (wireText 80 type.wireFormat).length)
      (80 - (wireText 80 type.wireFormat).length) := by
  have here : memory.Clear (48 + (wireText 80 type.wireFormat).length) (80 - (wireText 80 type.wireFormat).length) :=
    fun pos after before => clear pos (by omega) (by omega)
  refine here.storeAll fun entry inside => ?_
  have listed : entry ∈ shmStores line type capacity := split ▸ List.mem_append_left pending inside
  rw [shmStores_eq line type capacity rfl] at listed
  rcases List.mem_append.mp listed with early | last
  · exact quiet_of_mem_early early (Nat.le_refl _) _
  · refine .inr fun byte single => ?_
    rw [List.mem_singleton.mp last] at single
    exact List.mem_singleton.mp single

private theorem text_of_made (clear : memory.Clear 48 80) (split : finished ++ pending = shmStores line type capacity)
    (made : pending.length ≤ 1) : (memory.storeAll finished).Holds 48 (wireText 80 type.wireFormat ++ [0]) := by
  have short := length_wireText_lt (show 0 < 80 by decide) type.wireFormat
  have behind : (memory.storeAll finished).Clear (48 + (wireText 80 type.wireFormat).length) 1 :=
    fun pos after before => clear_behind_text clear split pos after (by omega)
  rw [shmStores_eq line type capacity rfl] at split
  obtain ⟨front, rfl, rest⟩ := exists_append_of_made split made
  rw [Memory.holds_append]
  refine ⟨?_, behind.holds⟩
  rw [Memory.storeAll_append, Memory.storeAll_append]
  refine (storeAll_byteStores_holds _ 48 _).storeAll fun entry inside => ?_
  have last : entry ∈ byteStores (48 + (wireText 80 type.wireFormat).length) [0] :=
    rest ▸ List.mem_append_left pending inside
  rw [List.mem_singleton.mp last]
  exact .inr (Nat.le_refl _)

/-- While more than the NUL is left, the stride or the last byte of the text is missing. -/
theorem not_described_of_left (clear : memory.Clear 40 88)
    (split : finished ++ pending = shmStores line type capacity) (left : 1 < pending.length) :
    ¬ ShmDescribed type capacity (memory.storeAll finished) := by
  intro described
  rcases List.eq_nil_or_concat (wireText 80 type.wireFormat) with none | ⟨text, last, shown⟩
  · have clearStride : memory.Clear 40 8 := fun pos after before =>
      clear pos after (by omega)
    have zero := (clear_stride_of_left clearStride split (by rw [none]; exact left)).word
    rw [described.stride, Option.some_inj] at zero
    exact type.size_ne_zero zero
  · rw [List.concat_eq_append] at shown
    have short := length_wireText_lt (show 0 < 80 by decide) type.wireFormat
    rw [shown, List.length_append, List.length_singleton] at short
    have whole : wireText 80 type.wireFormat ++ [0] = text ++ [last, 0] := by
      rw [shown, List.append_assoc]
      rfl
    rw [shmStores_eq line type capacity whole] at split
    have here : memory.Clear (48 + text.length) 1 := fun pos after before => clear pos (by omega) (by omega)
    have zero := clear_of_left here split left fun early inside => quiet_of_mem_early inside (Nat.le_refl _) 1
    have held := described.wireFormat
    rw [whole, Memory.holds_append, Memory.holds_cons] at held
    rw [zero (48 + text.length) (Nat.le_refl _) (by omega), Option.some_inj] at held
    have inside : last ∈ wireText 80 type.wireFormat := by
      rw [shown]
      exact List.mem_append_right text (List.mem_singleton_self last)
    exact ne_zero_of_mem_wireText inside held.2.1.symm

theorem Stamped.congr (stamped : Stamped type capacity memory) {other : Memory}
    (same : ∀ pos < 128, other pos = memory pos) : Stamped type capacity other := by
  constructor
  all_goals rw [Memory.word_congr_below same (by decide)]
  · exact stamped.mask
  · exact stamped.capacity
  · exact stamped.ringKind
  · exact stamped.versionHash
  · exact stamped.payloadSize

theorem ShmDescribed.congr (described : ShmDescribed type capacity memory) {other : Memory}
    (same : ∀ pos < 128, other pos = memory pos) : ShmDescribed type capacity other := by
  have short := length_wireText_lt (show 0 < 80 by decide) type.wireFormat
  refine ⟨described.toStamped.congr same, ?_, ?_⟩
  · exact (Memory.word_congr_below same (by decide)).trans described.stride
  · refine described.wireFormat.congr fun pos _ before => same pos ?_
    rw [List.length_append, List.length_singleton] at before
    omega

theorem ShmOpener.refuses_payload (opener : ShmOpener) :
    (opener.loads line).Always (fun pos word => pos = 32 → word = 0) fun _ => False := by
  cases opener with
  | shmRing readerType size =>
    simp only [ShmOpener.loads, openShmLoads, Loads.always_check, Loads.always_require, beq_iff_eq]
    rintro - - - - - - - - - - payload zero same
    exact absurd (same.symm.trans (zero trivial)) readerType.size_ne_zero
  | rawSchemaView size =>
    simp only [ShmOpener.loads, openRawLoads, Loads.always_check, Loads.always_require, bne_iff_ne]
    rintro - - - - - - - - - - payload zero other
    exact absurd (zero trivial) other

private theorem openRawLoads_refuses_stride (size : UInt64) :
    (openRawLoads line size).Always (fun pos word => pos = 40 → word = 0) fun _ => False := by
  simp only [openRawLoads, Loads.always_check, Loads.always_require, bne_iff_ne]
  rintro - - - - - - - - - - - - - stride zero other
  exact absurd (zero trivial) other

end

def creation {Reader : Type} (line : CacheLine) (type : RecordType) (capacity : UInt64)
    (size : Nat) (openers : Reader → ShmOpener) : Shared Reader View where
  memory := Memory.zeroed size
  pending := shmStores line type capacity
  readers reader := (openers reader).loads line

/-- An open that succeeds has found the capacity, the mask, the hash and the payload size,
and a `RawSchemaView` the stride, so that without a text it has found everything; the whole
descriptor is there exactly when nothing but the terminating NUL is left to store. -/
theorem opened_finished_iff (line : CacheLine) (type : RecordType) (capacity : UInt64)
    (size : Nat) (large : 128 ≤ size) {Reader : Type} [DecidableEq Reader]
    (openers : Reader → ShmOpener) (state : Shared Reader View)
    (reached : Reaches Shared.step (Shared.Allowed 128) (creation line type capacity size openers) state)
    (reader : Reader) (view : View) (succeeded : state.readers reader = .done (some view)) :
    Stamped type capacity state.memory ∧
    (∀ readerSize, openers reader = .rawSchemaView readerSize → state.memory.word 40 = some type.size ∧
      (wireText 80 type.wireFormat = [] → ShmDescribed type capacity state.memory)) ∧
    (ShmDescribed type capacity state.memory ↔ state.pending.length ≤ 1) := by
  obtain ⟨finished, split, same⟩ := Shared.written_of_reaches reached
  have clear {offset width : Nat} (inside : offset + width ≤ 128) :
      (Memory.zeroed size).Clear offset width := Memory.zeroed_clear (Nat.le_trans inside large)
  have stampLeft := Shared.left_of_result reached succeeded (by decide)
    (fun _ _ split left => clear_payload_of_left (clear (by decide)) split left)
    (openers reader).refuses_payload
  have stamped : Stamped type capacity state.memory := (stamped_of_made split stampLeft).congr same
  have finish (few : state.pending.length ≤ 1) : ShmDescribed type capacity state.memory := by
    have wide : state.pending.length ≤ (wireText 80 type.wireFormat).length + 1 := by omega
    have described : ShmDescribed type capacity ((Memory.zeroed size).storeAll finished) :=
      ⟨stamped_of_made split stampLeft, stride_of_made split wide, text_of_made (clear (by decide)) split few⟩
    exact described.congr same
  refine ⟨stamped, fun readerSize raw => ?_, fun described => ?_, finish⟩
  · have refuses : ((openers reader).loads line).Always
        (fun position word => position = 40 → word = 0) fun _ => False := by
      rw [raw]
      exact openRawLoads_refuses_stride readerSize
    have strideLeft := Shared.left_of_result reached succeeded (by decide)
      (fun _ _ split left => clear_stride_of_left (clear (by decide)) split left) refuses
    refine ⟨?_, fun none => finish ?_⟩
    · exact (Memory.word_congr_below same (by decide)).trans (stride_of_made split strideLeft)
    · rwa [none] at strideLeft
  · by_contra more
    refine not_described_of_left (clear (by decide)) split (Nat.not_le.mp more) ?_
    exact described.congr fun position below => (same position below).symm

/-! ### The model of the whole header

Over a memory that stays as it is the loads agree with the reading of the whole descriptor,
and all stores together leave the descriptor of `createRing`. -/

theorem Descriptor.read_eq_some_iff (memory : Memory) (header : Descriptor) :
    Descriptor.layout.read memory 0 = some header ↔
      memory.word 0 = some header.capacity ∧ memory.word 8 = some header.mask ∧
      memory.word 16 = some header.ringKind ∧ memory.word 24 = some header.schemaVersionHash ∧
      memory.word 32 = some header.payloadSize ∧ memory.word 40 = some header.stride ∧
      (Layout.chars 80).read memory 48 = some header.wireFormat := by
  rw [Descriptor.layout, Layout.read_map_eq_some_iff]
  simp only [Layout.read_pair_eq_some_iff]
  exact Iff.rfl

section
variable {line : CacheLine} {type : RecordType} {segment : Segment} {view : View}

private theorem exists_descriptor (large : ringHeaderSize line ≤ segment.size) :
    ∃ header, Descriptor.layout.read segment.image 0 = some header := by
  have header : 128 ≤ (ringHeaderSize line).toNat := by cases line <;> decide
  have bound := UInt64.le_iff_toNat_le.mp large
  obtain ⟨found, held⟩ := Descriptor.layout.exists_bytes segment.mapped (show 0 + 128 ≤ segment.size.toNat by omega)
  exact ⟨found, Descriptor.layout.read_bytes held⟩

theorem run_openShmLoads_iff : (openShmLoads line type segment.size).run segment.image = some (some view) ↔
      openShmRing line type segment = some view := by
  by_cases large : ringHeaderSize line ≤ segment.size
  · obtain ⟨header, read⟩ := exists_descriptor large
    obtain ⟨capacity, mask, kind, hash, payload, -, -⟩ := (Descriptor.read_eq_some_iff _ _).mp read
    simp [openShmLoads, openShmRing, openRing, Loads.run_check, Loads.run_require, Loads.run_done,
      Option.bind_eq_some_iff, and_assoc, *]
  · simp [openShmLoads, openShmRing, openRing, Loads.run_check, large]

theorem run_openRawLoads_iff : (openRawLoads line segment.size).run segment.image = some (some view) ↔
      openRawSchemaView line segment = some view := by
  by_cases large : ringHeaderSize line ≤ segment.size
  · obtain ⟨header, read⟩ := exists_descriptor large
    obtain ⟨capacity, mask, kind, -, payload, stride, -⟩ := (Descriptor.read_eq_some_iff _ _).mp read
    simp [openRawLoads, openRawSchemaView, Loads.run_check, Loads.run_require, Loads.run_done,
      Option.bind_eq_some_iff, and_assoc, *]
  · simp [openRawLoads, openRawSchemaView, Loads.run_check, large]

end

theorem toList_wireFormatField (src : List UInt8) : (wireFormatField src).toList =
    wireText 80 src ++ List.replicate (80 - (wireText 80 src).length) 0 := by
  have short := length_wireText_lt (show 0 < 80 by decide) src
  have whole : wireText 80 src = (src.takeWhile (· ≠ 0)).take 79 := rfl
  rw [wireFormatField, ← whole]
  apply List.ext_getElem
  · simp only [Vector.toList_ofFn, List.length_ofFn, List.length_append, List.length_replicate]
    omega
  · intro index inField inText
    simp only [Vector.toList_ofFn, List.getElem_ofFn]
    by_cases inside : index < (wireText 80 src).length
    · rw [List.getElem_append_left inside, List.getElem?_eq_getElem inside, Option.getD_some]
    · rw [List.getElem_append_right (by omega), List.getElem_replicate,
        List.getElem?_eq_none (by omega), Option.getD_none]

theorem read_chars_of_holds {memory : Memory} {offset count : Nat} {field : Vector UInt8 count}
    (held : memory.Holds offset field.toList) : (Layout.chars count).read memory offset = some field :=
  (Layout.chars count).read_bytes held

theorem shmStores_descriptor {line : CacheLine} {type : RecordType} {capacity : UInt64}
    {memory : Memory} (clear : memory.Clear 48 80) :
    Descriptor.layout.read (memory.storeAll (shmStores line type capacity)) 0 =
      some (descriptorFor .spsc type capacity) := by
  have split := List.append_nil (shmStores line type capacity)
  have stamped : Stamped type capacity (memory.storeAll (shmStores line type capacity)) :=
    stamped_of_made split (Nat.zero_le _)
  have behind := clear_behind_text clear split
  have text := (Memory.holds_append.mp (text_of_made clear split (Nat.zero_le 1))).1
  have stride : (memory.storeAll (shmStores line type capacity)).word 40 = some type.size :=
    stride_of_made split (Nat.zero_le _)
  generalize memory.storeAll (shmStores line type capacity) = final at *
  have held : final.Holds 48 (wireFormatField type.wireFormat).toList := by
    rw [toList_wireFormatField, Memory.holds_append]
    exact ⟨text, behind.holds⟩
  rw [Descriptor.read_eq_some_iff]
  exact ⟨stamped.capacity, stamped.mask, stamped.ringKind, stamped.versionHash,
    stamped.payloadSize, stride, read_chars_of_holds held⟩

section
variable {line : CacheLine} {type : RecordType} {capacity : UInt64} {memory : Memory} {size : UInt64}

private theorem run_openShmLoads (stamped : Stamped type capacity memory) (pow2 : capacityIsPow2 capacity = true)
    (large : ringHeaderSize line ≤ size) (room : ringHeaderSize line + capacity * type.size ≤ size) :
    (openShmLoads line type size).run memory =
      some (some ⟨ringHeaderSize line, capacity, capacity - 1, type.size⟩) := by
  simp only [openShmLoads, Loads.run_check, Loads.run_require, Loads.run_done, beq_iff_eq, decide_eq_true_eq]
  exact ⟨large, _, stamped.ringKind, rfl, _, stamped.capacity, pow2, _, stamped.mask, rfl,
    _, stamped.payloadSize, rfl, _, stamped.versionHash, rfl, room, rfl⟩

private theorem run_openRawLoads (stamped : Stamped type capacity memory) (stride : memory.word 40 = some type.size)
    (pow2 : capacityIsPow2 capacity = true) (large : ringHeaderSize line ≤ size)
    (room : ringHeaderSize line + capacity * type.size ≤ size) :
    (openRawLoads line size).run memory = some (some ⟨ringHeaderSize line, capacity, capacity - 1, type.size⟩) := by
  have nonzero := type.size_ne_zero
  simp only [openRawLoads, Loads.run_check, Loads.run_require, Loads.run_done, beq_iff_eq,
    bne_iff_ne, decide_eq_true_eq]
  exact ⟨large, _, stamped.ringKind, rfl, _, stamped.capacity, pow2, _, stamped.mask, rfl,
    _, stamped.payloadSize, nonzero, _, stride, nonzero, _, stride, room, rfl⟩

private theorem shmStores_le : ∀ entry ∈ shmStores line type capacity,
    entry.offset + entry.bytes.length ≤ (ringHeaderSize line).toNat := by
  have header : (ringHeaderSize line).toNat = 128 + 2 * line.bytes.toNat := by
    cases line <;> rfl
  have cacheLine : 64 ≤ line.bytes.toNat := by cases line <;> decide
  have short := length_wireText_lt (show 0 < 80 by decide) type.wireFormat
  have bytes : ∀ entry ∈ wireFormatStores 80 type.wireFormat,
      entry.offset + entry.bytes.length ≤ (ringHeaderSize line).toNat := by
    intro entry byte
    obtain ⟨-, before, single⟩ := of_mem_byteStores byte
    rw [List.length_append, List.length_singleton] at before
    omega
  simp only [shmStores, shmHeaderStores, stampStores, List.forall_mem_append, List.forall_mem_cons, List.not_mem_nil,
    IsEmpty.forall_iff, implies_true, and_true, Store.word_offset, Store.length_word]
  refine ⟨⟨⟨⟨⟨Store.zeros_le (by omega), ?_⟩, Store.zeros_le (by omega)⟩, ?_⟩, ?_⟩, ?_, ?_, bytes⟩ <;> omega

/-- A creator that stops anywhere leaves its opens to run alone. -/
theorem reaches_opened {finished pending : List Store} {opener : ShmOpener} {view : View}
    (split : finished ++ pending = shmStores line type capacity) (large : ringHeaderSize line ≤ size)
    (found : (opener.loads line).run ((Memory.zeroed size.toNat).storeAll finished) = some (some view)) :
    ∃ state : Shared Unit View, Reaches Shared.step (Shared.Allowed 128)
        (creation line type capacity size.toNat fun _ => opener) state ∧ state.readers () = .done (some view) ∧
      state.memory = (Memory.zeroed size.toNat).storeAll finished ∧ state.pending = pending := by
  have inside : ∀ entry ∈ finished, entry.offset + entry.bytes.length ≤ size.toNat := by
    intro entry listed
    have header := shmStores_le _ (split ▸ List.mem_append_left pending listed)
    exact Nat.le_trans header (UInt64.le_iff_toNat_le.mp large)
  have created : Reaches Shared.step (Shared.Allowed 128)
      ⟨Memory.zeroed size.toNat, finished ++ pending, fun _ : Unit => opener.loads line, []⟩
      ⟨(Memory.zeroed size.toNat).storeAll finished, pending, fun _ => opener.loads line, []⟩ :=
    Shared.reaches_create (Memory.zeroed_readable size.toNat) inside
  rw [split] at created
  have loaded := @Shared.reaches_load Unit View _ 128 ⟨(Memory.zeroed size.toNat).storeAll finished, pending,
    fun _ => opener.loads line, []⟩ () _ found
  refine ⟨_, created.trans loaded, ?_, rfl, rfl⟩
  dsimp only
  rw [Function.update_self]

end

def wiredType : RecordType := ⟨64, sampleType.size_pos, 11, [60, 81]⟩

/-- Only the terminator of the text is still to be stored, over a zero. -/
theorem opened_finished_iff_last_store :
    ∃ state : Shared Unit View, ∃ view, Reaches Shared.step (Shared.Allowed 128)
        (creation .line64 wiredType 2 384 fun _ => .shmRing wiredType 384) state ∧
      state.readers () = .done (some view) ∧ state.pending.length = 1 ∧ ShmDescribed wiredType 2 state.memory := by
  have large : ringHeaderSize .line64 ≤ 384 := by decide
  have split := (shmStores_eq .line64 wiredType 2
    (show wireText 80 wiredType.wireFormat ++ [0] = [60, 81] ++ [0] by decide)).symm
  have found := run_openShmLoads (@stamped_of_made _ _ _ (Memory.zeroed 384) _ _ split (by decide))
    (by decide) large (by decide)
  obtain ⟨state, reached, succeeded, -, pending⟩ := @reaches_opened _ _ _ _ _ _ (.shmRing _ 384) _ split large found
  have opened := opened_finished_iff .line64 wiredType 2 384 (by decide)
    (fun _ : Unit => .shmRing wiredType 384) state reached () _ succeeded
  have last : state.pending.length = 1 := by rw [pending]; rfl
  exact ⟨state, _, reached, succeeded, last, opened.2.2.mpr (by omega)⟩

/-- `ShmRing::open` succeeds before the stride is stored, and `RawSchemaView::open` before
the text is. -/
theorem opened_unfinished : (∃ state : Shared Unit View, ∃ view, Reaches Shared.step (Shared.Allowed 128)
        (creation .line64 wiredType 2 384 fun _ => .shmRing wiredType 384) state ∧
      state.readers () = .done (some view) ∧ state.memory.word 40 = some 0 ∧
      ¬ ShmDescribed wiredType 2 state.memory) ∧
    ∃ state : Shared Unit View, ∃ view, Reaches Shared.step (Shared.Allowed 128)
        (creation .line64 wiredType 2 384 fun _ => .rawSchemaView 384) state ∧
      state.readers () = .done (some view) ∧ state.memory 48 = some 0 ∧ ¬ ShmDescribed wiredType 2 state.memory := by
  have clear {offset width : Nat} (inside : offset + width ≤ 128) :
      (Memory.zeroed 384).Clear offset width := Memory.zeroed_clear (by omega)
  have large : ringHeaderSize .line64 ≤ 384 := by decide
  constructor
  · have split : (shmHeaderStores .line64 ++ stampStores wiredType 2) ++
        .word 40 wiredType.size :: wireFormatStores 80 wiredType.wireFormat =
        shmStores .line64 wiredType 2 := List.append_assoc ..
    have found : ((ShmOpener.shmRing wiredType 384).loads .line64).run
        ((Memory.zeroed 384).storeAll (shmHeaderStores .line64 ++ stampStores wiredType 2)) =
        some (some _) :=
      run_openShmLoads (stamped_of_made split (by decide)) (by decide) large (by decide)
    obtain ⟨state, reached, succeeded, memory, -⟩ := reaches_opened split large found
    have zero : state.memory.word 40 = some 0 := by
      rw [memory]
      exact (clear_stride_of_left (clear (by decide)) split (by decide)).word
    refine ⟨state, _, reached, succeeded, zero, fun described => ?_⟩
    rw [described.stride] at zero
    exact absurd zero (by decide)
  · have split := (shmStores_eq .line64 wiredType 2
      (show wireText 80 wiredType.wireFormat ++ [0] = [] ++ [60, 81, 0] by decide)).symm
    have found : ((ShmOpener.rawSchemaView 384).loads .line64).run
        ((Memory.zeroed 384).storeAll (shmHeaderStores .line64 ++ (stampStores wiredType 2 ++
          [.word 40 wiredType.size]) ++ byteStores 48 [])) = some (some _) :=
      run_openRawLoads (stamped_of_made split (by decide)) (stride_of_made split (by decide))
        (by decide) large (by decide)
    obtain ⟨state, reached, succeeded, memory, -⟩ := reaches_opened split large found
    have zero : state.memory 48 = some 0 := by
      rw [memory]
      exact (clear (by decide)).storeAll
        (fun entry inside => quiet_of_mem_early inside (Nat.le_refl 48) 1) 48 (Nat.le_refl 48)
        (by decide)
    refine ⟨state, _, reached, succeeded, zero, fun described => ?_⟩
    have first := (Memory.holds_cons.mp described.wireFormat).1
    rw [zero] at first
    exact absurd first (by decide)

end AnimusCore.SharedMemory

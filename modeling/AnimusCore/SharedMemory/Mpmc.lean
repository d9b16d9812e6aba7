import AnimusCore.Lib.Publication
import AnimusCore.SharedMemory.Creation
import Mathlib.Order.Bounds.Defs

/-! `ShmRingMpmc`: `create` as the stores it makes and `open` as the words it loads. The
capacity guards keep every size a 64-bit number, on both sides. -/

set_option autoImplicit false

namespace AnimusCore.SharedMemory

open Lib List

/-- A record type with its alignment, at most 64. -/
structure CellType extends RecordType where
  alignLog : Fin 7
  aligned : size.toNat % 2 ^ alignLog.val = 0

namespace CellType

/-- Where the value of an `MpmcCell` starts, behind its sequence word. -/
def valueOffset (type : CellType) : Nat := max 8 (2 ^ type.alignLog.val)

/-- `sizeof(MpmcCell<T>)`, whole cache lines. -/
def cellBytes (line : CacheLine) (type : CellType) : Nat :=
  (type.valueOffset + type.size.toNat + (line.bytes.toNat - 1)) / line.bytes.toNat * line.bytes.toNat

def cellSize (line : CacheLine) (type : CellType) : UInt64 := UInt64.ofNat (type.cellBytes line)

variable (line : CacheLine) (type : CellType)

private theorem le_cellBytes : 8 ≤ type.cellBytes line := by
  have sequence : 8 ≤ type.valueOffset := Nat.le_max_left ..
  cases line
  all_goals
    simp only [cellBytes, show CacheLine.line64.bytes.toNat = 64 from rfl,
      show CacheLine.line128.bytes.toNat = 128 from rfl]
    omega

private theorem cellBytes_lt (small : type.size.toNat < 2 ^ 32) : type.cellBytes line < 2 ^ 33 := by
  have align : 2 ^ type.alignLog.val ≤ 2 ^ 6 :=
    Nat.pow_le_pow_right (by decide) (Nat.le_of_lt_succ type.alignLog.isLt)
  have offset : type.valueOffset ≤ 64 := Nat.max_le.mpr ⟨by decide, align⟩
  cases line
  all_goals
    simp only [cellBytes, show CacheLine.line64.bytes.toNat = 64 from rfl,
      show CacheLine.line128.bytes.toNat = 128 from rfl]
    omega

private theorem toNat_cellSize (small : type.size.toNat < 2 ^ 32) : (type.cellSize line).toNat = type.cellBytes line := by
  have bound : type.cellBytes line < UInt64.size := Nat.lt_trans (type.cellBytes_lt line small) (by decide)
  exact UInt64.toNat_ofNat_of_lt' bound

end CellType

def mpmcRingHeaderSize (line : CacheLine) : UInt64 := 128 + 2 * line.bytes

/-- `RingKind::Mpmc`. -/
def mpmcKind : UInt64 := 2

def readyMagic : UInt64 := 0x4D504D4352494E47

/-- The header constructed in place: zeroed, then each member with its initialiser. -/
def mpmcHeaderStores (line : CacheLine) : List Store :=
  Store.zeros 0 (mpmcRingHeaderSize line).toNat ++
    [.word 0 0, .word 8 0, .word 16 mpmcKind, .word 24 0, .word 32 0, .word 40 0] ++
    Store.zeros 48 72 ++ [.word 120 0, .word 128 0, .word (128 + line.bytes.toNat) 0]

def cellOffset (line : CacheLine) (type : CellType) (index : Nat) : Nat :=
  (mpmcRingHeaderSize line).toNat + index * type.cellBytes line

def cellStores (line : CacheLine) (type : CellType) (capacity : UInt64) : List Store :=
  (List.range capacity.toNat).map fun index =>
    .word (cellOffset line type index) (UInt64.ofNat index)

/-- The text that `set_wire_format` copies into a buffer of this size. -/
def wireText (bufferSize : Nat) (src : List UInt8) : List UInt8 :=
  (src.takeWhile (· ≠ 0)).take (bufferSize - 1)

/-- Single bytes, and the NUL last. -/
def byteStores : Nat → List UInt8 → List Store
  | _, [] => []
  | offset, byte :: rest => ⟨offset, [byte]⟩ :: byteStores (offset + 1) rest

def wireFormatStores (bufferSize : Nat) (src : List UInt8) : List Store :=
  byteStores 48 (wireText bufferSize src ++ [0])

def mpmcDescriptorStores (line : CacheLine) (type : CellType) (capacity : UInt64) : List Store :=
  [.word 0 capacity, .word 8 (capacity - 1), .word 16 mpmcKind, .word 24 type.versionHash,
    .word 32 type.size, .word 40 (type.cellSize line)] ++ wireFormatStores 72 type.wireFormat

def mpmcBody (line : CacheLine) (type : CellType) (capacity : UInt64) : List Store :=
  mpmcHeaderStores line ++ cellStores line type capacity ++ mpmcDescriptorStores line type capacity

def mpmcStores (line : CacheLine) (type : CellType) (capacity : UInt64) : List Store :=
  mpmcBody line type capacity ++ [.word 120 readyMagic]

/-- Outside the mapping the stores are undefined. -/
def Segment.storeAll? (segment : Segment) (stores : List Store) : Option Segment :=
  if ∀ entry ∈ stores, entry.offset + entry.bytes.length ≤ segment.size.toNat then
    some { segment with image := segment.image.storeAll stores
                        mapped := segment.mapped.storeAll stores }
  else none

/-- The part of `create` behind its two guards. -/
def buildMpmcRing (line : CacheLine) (type : CellType) (mapper : Mapper) (capacity : UInt64) :
    Option (Option Created) :=
  let totalSize := mpmcRingHeaderSize line + capacity * type.cellSize line
  match regionCreate mapper totalSize with
  | none => some none
  | some region =>
    (region.storeAll? (mpmcStores line type capacity)).map fun segment =>
      some { capacity, totalSize, segment }

/-- As for the other rings, `none` while the rounding loop has not ended and `some none`
for a null pointer. -/
def createMpmcRing (line : CacheLine) (type : CellType) (mapper : Mapper) (fuel : Nat)
    (requestedCapacity : UInt64) : Option (Option Created) :=
  let floorCapacity := if requestedCapacity < 2 then 2 else requestedCapacity
  let maxCapacity := (0xFFFFFFFFFFFFFFFF / 2 - mpmcRingHeaderSize line) / type.cellSize line
  if maxCapacity < floorCapacity then some none
  else
    (RingBuffer.roundUpFrom floorCapacity.toNat fuel 1).bind fun rounded =>
      if maxCapacity < UInt64.ofNat rounded then some none
      else buildMpmcRing line type mapper (UInt64.ofNat rounded)

def openMpmcLoads (line : CacheLine) (type : CellType) (size : UInt64) : Loads View :=
  .check (mpmcRingHeaderSize line ≤ size) <|
  .require 120 (· == readyMagic) fun _ =>
  .require 16 (· == mpmcKind) fun _ =>
  .require 0 isPow2 fun capacity =>
  .require 8 (· == capacity - 1) fun _ =>
  .require 32 (· == type.size) fun _ =>
  .require 40 (· == type.cellSize line) fun _ =>
  .require 24 (· == type.versionHash) fun _ =>
  .check (capacity ≤ (0xFFFFFFFFFFFFFFFF - mpmcRingHeaderSize line) / type.cellSize line) <|
  .check (mpmcRingHeaderSize line + capacity * type.cellSize line ≤ size) <|
  .done (some { headerSize := mpmcRingHeaderSize line, capacity, mask := capacity - 1
                stride := type.cellSize line })

/-- Over an image that stays as it is; `none` would be a load outside the mapping. -/
def openMpmcRing (line : CacheLine) (type : CellType) (segment : Segment) : Option (Option View) :=
  (openMpmcLoads line type segment.size).run segment.image

structure MpmcDescribed (line : CacheLine) (type : CellType) (capacity : UInt64) (memory : Memory) : Prop where
  mask : memory.word 8 = some (capacity - 1)
  capacity : memory.word 0 = some capacity
  ringKind : memory.word 16 = some mpmcKind
  versionHash : memory.word 24 = some type.versionHash
  payloadSize : memory.word 32 = some type.size
  stride : memory.word 40 = some (type.cellSize line)
  wireFormat : memory.Holds 48 (wireText 72 type.wireFormat ++ [0])
  ready : memory.word 120 = some readyMagic

theorem le_mpmcRingHeaderSize (line : CacheLine) :
    128 ≤ (mpmcRingHeaderSize line).toNat ∧ (mpmcRingHeaderSize line).toNat ≤ 384 := by
  cases line <;> decide

theorem length_wireText_lt {bufferSize : Nat} (positive : 0 < bufferSize) (src : List UInt8) :
    (wireText bufferSize src).length < bufferSize := by
  rw [wireText, length_take]
  omega

variable {entry : Store}

theorem of_mem_byteStores {offset : Nat} {text : List UInt8} (inside : entry ∈ byteStores offset text) :
    offset ≤ entry.offset ∧ entry.offset + 1 ≤ offset + text.length ∧ entry.bytes.length = 1 := by
  induction text generalizing offset with
  | nil => cases inside
  | cons byte rest ih =>
    rw [length_cons]
    rcases mem_cons.mp inside with rfl | later
    · exact ⟨Nat.le_refl _, Nat.add_le_add_left (Nat.le_add_left 1 _) _, rfl⟩
    · obtain ⟨after, before, single⟩ := ih later
      exact ⟨by omega, by omega, single⟩

theorem storeAll_byteStores_holds (memory : Memory) (offset : Nat) (text : List UInt8) :
    (memory.storeAll (byteStores offset text)).Holds offset text := by
  induction text generalizing memory offset with
  | nil => exact Memory.holds_nil
  | cons byte rest ih =>
    rw [Memory.holds_cons, byteStores, Memory.storeAll_cons]
    refine ⟨?_, ih _ _⟩
    have first := (Memory.holds_cons.mp (memory.store_holds ⟨offset, [byte]⟩)).1
    rw [Memory.storeAll_of_apart, first]
    intro entry inside
    have after := (of_mem_byteStores inside).1
    exact .inr (by omega)

section
variable {line : CacheLine} {type : CellType} {capacity : UInt64} {memory : Memory}

theorem MpmcDescribed.congr (described : MpmcDescribed line type capacity memory) {other : Memory}
    (same : ∀ pos < 128, other pos = memory pos) : MpmcDescribed line type capacity other := by
  have text := length_wireText_lt (show 0 < 72 by decide) type.wireFormat
  have wireFormat : other.Holds 48 (wireText 72 type.wireFormat ++ [0]) := by
    refine described.wireFormat.congr fun pos _ before => same pos ?_
    rw [length_append, length_singleton] at before
    omega
  constructor
  case wireFormat => exact wireFormat
  all_goals rw [Memory.word_congr_below same (by decide)]
  · exact described.mask
  · exact described.capacity
  · exact described.ringKind
  · exact described.versionHash
  · exact described.payloadSize
  · exact described.stride
  · exact described.ready

private theorem of_mem_wireFormatStores (inside : entry ∈ wireFormatStores 72 type.wireFormat) :
    48 ≤ entry.offset ∧ entry.offset + entry.bytes.length ≤ 120 := by
  obtain ⟨after, before, single⟩ := of_mem_byteStores inside
  have text := length_wireText_lt (show 0 < 72 by decide) type.wireFormat
  rw [length_append, length_singleton] at before
  exact ⟨after, by omega⟩

/-- The stores after the construction of the header. None of them overlap. -/
def settledStores (line : CacheLine) (type : CellType) (capacity : UInt64) : List Store :=
  cellStores line type capacity ++ (mpmcDescriptorStores line type capacity ++ [.word 120 readyMagic])

private theorem mpmcStores_eq : mpmcStores line type capacity =
    mpmcHeaderStores line ++ settledStores line type capacity := by
  simp only [mpmcStores, mpmcBody, settledStores, append_assoc]

theorem of_mem_cellStores (inside : entry ∈ cellStores line type capacity) :
    ∃ index < capacity.toNat, entry = .word (cellOffset line type index) (UInt64.ofNat index) := by
  obtain ⟨index, listed, rfl⟩ := mem_map.mp inside
  exact ⟨index, mem_range.mp listed, rfl⟩

private theorem cellOffset_lt {first second : Nat} (less : first < second) :
    cellOffset line type first + 8 ≤ cellOffset line type second := by
  have wide := type.le_cellBytes line
  have next := Nat.mul_le_mul_right (type.cellBytes line) less
  rw [Nat.succ_mul] at next
  rw [cellOffset, cellOffset]
  omega

private theorem cellStores_noOverlap : Store.NoOverlap (cellStores line type capacity) := by
  refine pairwise_map.mpr (pairwise_lt_range.imp fun {first second} less => .inr ?_)
  exact cellOffset_lt less

private theorem byteStores_noOverlap (offset : Nat) (text : List UInt8) : Store.NoOverlap (byteStores offset text) := by
  induction text generalizing offset with
  | nil => exact .nil
  | cons byte rest ih =>
    exact .cons (fun later inside => .inr (of_mem_byteStores inside).1) (ih _)

theorem words_text_noOverlap (first second third fourth fifth sixth : UInt64) (text : List UInt8) :
    Store.NoOverlap ([.word 0 first, .word 8 second, .word 16 third, .word 24 fourth,
      .word 32 fifth, .word 40 sixth] ++ byteStores 48 text) := by
  refine pairwise_append.mpr ⟨?_, byteStores_noOverlap _ _, ?_⟩
  · simp [Store.Apart]
  · intro word field byte later
    refine .inr (Nat.le_trans ?_ (of_mem_byteStores later).1)
    simp only [mem_cons, not_mem_nil, or_false] at field
    rcases field with rfl | rfl | rfl | rfl | rfl | rfl <;> simp

theorem of_mem_mpmcDescriptorStores (inside : entry ∈ mpmcDescriptorStores line type capacity) :
    entry.offset + entry.bytes.length ≤ 120 := by
  rcases mem_append.mp inside with field | text
  · simp only [mem_cons, not_mem_nil, or_false] at field
    rcases field with rfl | rfl | rfl | rfl | rfl | rfl <;> simp
  · exact (of_mem_wireFormatStores text).2

private theorem of_mem_descriptor (inside : entry ∈ mpmcDescriptorStores line type capacity ++ [.word 120 readyMagic]) :
    entry.offset + entry.bytes.length ≤ 128 := by
  rcases mem_append.mp inside with listed | last
  · exact Nat.le_trans (of_mem_mpmcDescriptorStores listed) (by decide)
  · rw [mem_singleton.mp last, Store.word_offset, Store.length_word]

private theorem descriptor_noOverlap :
    Store.NoOverlap (mpmcDescriptorStores line type capacity ++ [.word 120 readyMagic]) := by
  refine pairwise_append.mpr ⟨words_text_noOverlap .., pairwise_singleton _ _, ?_⟩
  intro first early second last
  rw [mem_singleton.mp last]
  exact .inr (of_mem_mpmcDescriptorStores early)

private theorem settledStores_noOverlap : Store.NoOverlap (settledStores line type capacity) := by
  refine pairwise_append.mpr ⟨cellStores_noOverlap, descriptor_noOverlap, ?_⟩
  intro cell inside field listed
  obtain ⟨index, -, rfl⟩ := of_mem_cellStores inside
  have header := (le_mpmcRingHeaderSize line).1
  refine .inl (Nat.le_trans (of_mem_descriptor listed) ?_)
  rw [Store.word_offset, cellOffset]
  omega

theorem mpmc_described (memory : Memory) :
    MpmcDescribed line type capacity (memory.storeAll (mpmcStores line type capacity)) := by
  have word {offset : Nat} {value : UInt64} (listed : Store.word offset value ∈
        mpmcDescriptorStores line type capacity ++ [.word 120 readyMagic]) :
      (memory.storeAll (mpmcStores line type capacity)).word offset = some value := by
    rw [mpmcStores_eq, Memory.storeAll_append]
    exact Memory.storeAll_word settledStores_noOverlap (mem_append_right _ listed)
  have text : (memory.storeAll (mpmcStores line type capacity)).Holds 48 (wireText 72 type.wireFormat ++ [0]) := by
    rw [mpmcStores, mpmcBody, mpmcDescriptorStores, Memory.storeAll_concat, ← append_assoc, Memory.storeAll_append]
    refine (storeAll_byteStores_holds _ 48 _).store (.inr ?_)
    have short := length_wireText_lt (show 0 < 72 by decide) type.wireFormat
    rw [length_append, length_singleton, Store.word_offset]
    omega
  constructor
  case wireFormat => exact text
  all_goals
    apply word
    simp [mpmcDescriptorStores]

theorem mpmc_cell (memory : Memory) {index : Nat} (inside : index < capacity.toNat) :
    (memory.storeAll (mpmcStores line type capacity)).word (cellOffset line type index) =
      some (UInt64.ofNat index) := by
  rw [mpmcStores_eq, Memory.storeAll_append]
  exact Memory.storeAll_word settledStores_noOverlap
    (mem_append_left _ (mem_map.mpr ⟨index, mem_range.mpr inside, rfl⟩))

private theorem isPow2_two_pow {exponent : Nat} (positive : 1 ≤ exponent) (small : exponent ≤ 63) :
    isPow2 (UInt64.ofNat (2 ^ exponent)) = true := by
  have below : 2 ^ exponent < 2 ^ 64 := Nat.pow_lt_pow_right (by decide) (by omega)
  have two : 2 ^ 1 ≤ 2 ^ exponent := Nat.pow_le_pow_right (by decide) positive
  have atLeast : (2 : UInt64) ≤ UInt64.ofNat (2 ^ exponent) := by
    rw [UInt64.le_iff_toNat_le, UInt64.toNat_ofNat_of_lt' below]
    exact two
  have bits := capacityIsPow2_two_pow small
  simp only [capacityIsPow2, Bool.and_eq_true] at bits
  simp only [isPow2, Bool.and_eq_true, decide_eq_true_eq]
  exact ⟨atLeast, bits.2⟩

/-- The division guard keeps header and slots below the bound. -/
theorem extent_le_of_le_div {bound headerSize capacity stride : UInt64} (wide : headerSize ≤ bound)
    (guarded : capacity ≤ (bound - headerSize) / stride) :
    headerSize.toNat + capacity.toNat * stride.toNat ≤ bound.toNat := by
  have header := UInt64.le_iff_toNat_le.mp wide
  have quotient := UInt64.le_iff_toNat_le.mp guarded
  rw [UInt64.toNat_div, UInt64.toNat_sub_of_le _ _ wide] at quotient
  have product := Nat.mul_le_mul_right stride.toNat quotient
  have divided := Nat.div_mul_le_self (bound.toNat - headerSize.toNat) stride.toNat
  omega

private theorem le_div_of_extent_le {bound headerSize capacity stride : UInt64} (wide : headerSize ≤ bound)
    (positive : 0 < stride.toNat) (fits : headerSize.toNat + capacity.toNat * stride.toNat ≤ bound.toNat) :
    capacity ≤ (bound - headerSize) / stride := by
  rw [UInt64.le_iff_toNat_le, UInt64.toNat_div, UInt64.toNat_sub_of_le _ _ wide, Nat.le_div_iff_mul_le positive]
  omega

theorem isLeast_two_pow_clog (requested : Nat) :
    IsLeast { capacity | (∃ exponent, capacity = 2 ^ exponent) ∧ requested ≤ capacity }
      (2 ^ Nat.clog 2 requested) := by
  refine ⟨⟨⟨_, rfl⟩, Nat.le_pow_clog (by decide) requested⟩, ?_⟩
  rintro capacity ⟨⟨exponent, rfl⟩, covers⟩
  exact Nat.pow_le_pow_right (by decide) (Nat.clog_le_of_le_pow covers)

theorem run_openMpmcLoads {size : UInt64} (described : MpmcDescribed line type capacity memory)
    (pow2 : isPow2 capacity = true) (large : mpmcRingHeaderSize line ≤ size)
    (guarded : capacity ≤ (0xFFFFFFFFFFFFFFFF - mpmcRingHeaderSize line) / type.cellSize line)
    (room : mpmcRingHeaderSize line + capacity * type.cellSize line ≤ size) :
    (openMpmcLoads line type size).run memory = some (some
      ⟨mpmcRingHeaderSize line, capacity, capacity - 1, type.cellSize line⟩) := by
  simp only [openMpmcLoads, Loads.run_check, Loads.run_require, Loads.run_done, beq_iff_eq, decide_eq_true_eq]
  exact ⟨large, _, described.ready, rfl, _, described.ringKind, rfl, _, described.capacity, pow2, _, described.mask,
    rfl, _, described.payloadSize, rfl, _, described.stride, rfl, _, described.versionHash, rfl, guarded, room, rfl⟩

theorem checked_of_openMpmcRing {segment : Segment} {view : View}
    (opened : openMpmcRing line type segment = some (some view)) : Checked view segment ∧ view.extent < 2 ^ 64 := by
  simp only [openMpmcRing, openMpmcLoads, Loads.run_check, Loads.run_require, Loads.run_done,
    beq_iff_eq, decide_eq_true_eq, Option.some_inj] at opened
  obtain ⟨-, -, -, -, -, -, -, capacity, -, pow2, -, -, -, -, -, -, -, -, -, -, -, -, guarded, room, rfl⟩ := opened
  have extent := extent_le_of_le_div (show mpmcRingHeaderSize line ≤ 0xFFFFFFFFFFFFFFFF by
    cases line <;> decide) guarded
  exact ⟨⟨pos_of_isPow2 pow2, rfl, room⟩, Nat.lt_succ_of_le extent⟩

private theorem mpmcHeaderStores_le : ∀ entry ∈ mpmcHeaderStores line,
    entry.offset + entry.bytes.length ≤ (mpmcRingHeaderSize line).toNat := by
  have header : (mpmcRingHeaderSize line).toNat = 128 + 2 * line.bytes.toNat := by
    cases line <;> rfl
  have cacheLine : 64 ≤ line.bytes.toNat := by cases line <;> decide
  simp only [mpmcHeaderStores, forall_mem_append, forall_mem_cons, not_mem_nil,
    IsEmpty.forall_iff, implies_true, and_true, Store.word_offset, Store.length_word]
  refine ⟨⟨⟨Store.zeros_le (by omega), ?_⟩, Store.zeros_le (by omega)⟩, ?_⟩ <;> omega

theorem of_mem_mpmcStores (inside : entry ∈ mpmcStores line type capacity) : entry.offset + entry.bytes.length ≤
      (mpmcRingHeaderSize line).toNat + capacity.toNat * type.cellBytes line := by
  rw [mpmcStores_eq, settledStores] at inside
  have header := (le_mpmcRingHeaderSize line).1
  rcases mem_append.mp inside with first | settled
  · exact Nat.le_trans (mpmcHeaderStores_le _ first) (Nat.le_add_right _ _)
  · rcases mem_append.mp settled with cell | field
    · obtain ⟨index, less, rfl⟩ := of_mem_cellStores cell
      exact cellOffset_lt less
    · have before := of_mem_descriptor field
      omega

structure Created.Guarded (created : Created) (headerSize cellSize requested : Nat) : Prop where
  capacity : IsLeast { capacity | (∃ exponent, capacity = 2 ^ exponent) ∧
    max 2 requested ≤ capacity } created.capacity.toNat
  totalSize : created.totalSize.toNat = headerSize + created.capacity.toNat * cellSize

theorem one_le_clog (requested : Nat) : 1 ≤ Nat.clog 2 (max 2 requested) :=
  (Nat.lt_clog_iff_pow_lt (by decide)).mpr (Nat.lt_of_lt_of_le (by decide) (Nat.le_max_left ..))

/-- The descriptor decides: whatever is pushed or popped later, the segment is accepted. -/
def Created.Accepted (created : Created) (line : CacheLine) (type : CellType) : Prop :=
  ∀ later : Segment, later.size = created.segment.size →
    (∀ position < 128, later.image position = created.segment.image position) →
    openMpmcRing line type later = some (some
      ⟨mpmcRingHeaderSize line, created.capacity, created.capacity - 1, type.cellSize line⟩)

theorem exists_storeAll? {segment : Segment} {stores : List Store}
    (inside : ∀ entry ∈ stores, entry.offset + entry.bytes.length ≤ segment.size.toNat) :
    ∃ next, segment.storeAll? stores = some next ∧ next.size = segment.size ∧
      next.image = segment.image.storeAll stores :=
  ⟨_, if_pos inside, rfl, rfl⟩

private theorem exists_mpmc_accepted (totalSize : UInt64) {region : Segment}
    (small : type.size.toNat < 2 ^ 32) (pow2 : isPow2 capacity = true)
    (fits : (mpmcRingHeaderSize line).toNat + capacity.toNat * type.cellBytes line < 2 ^ 63)
    (room : mpmcRingHeaderSize line + capacity * type.cellSize line ≤ region.size) :
    ∃ segment, region.storeAll? (mpmcStores line type capacity) = some segment ∧
      Created.Accepted ⟨capacity, totalSize, segment⟩ line type := by
  have word := type.toNat_cellSize line small
  have total := UInt64.le_iff_toNat_le.mp room
  rw [toNat_extent (by rw [word]; omega), word] at total
  have inside : ∀ entry ∈ mpmcStores line type capacity, entry.offset + entry.bytes.length ≤ region.size.toNat :=
    fun entry listed => Nat.le_trans (of_mem_mpmcStores listed) total
  obtain ⟨segment, stored, sameSize, image⟩ := exists_storeAll? inside
  refine ⟨segment, stored, fun later laterSize same => ?_⟩
  have described : MpmcDescribed line type capacity later.image := by
    refine (mpmc_described region.image).congr fun pos below => ?_
    rw [same pos below]
    exact congrFun image pos
  have large : mpmcRingHeaderSize line ≤ later.size := by
    rw [laterSize, UInt64.le_iff_toNat_le]
    rw [sameSize]
    omega
  have guarded := le_div_of_extent_le (show mpmcRingHeaderSize line ≤ 0xFFFFFFFFFFFFFFFF by cases line <;> decide)
    (show 0 < (type.cellSize line).toNat by have := type.le_cellBytes line; omega)
    (show _ + capacity.toNat * (type.cellSize line).toNat ≤ 2 ^ 64 - 1 by rw [word]; omega)
  refine run_openMpmcLoads described pow2 large guarded ?_
  rw [laterSize]
  rwa [sameSize]

private theorem buildMpmcRing_exact {mapper : Mapper} (small : type.size.toNat < 2 ^ 32)
    (honest : ∀ size segment, mapper size = some segment → size ≤ segment.size) (pow2 : isPow2 capacity = true)
    (fits : (mpmcRingHeaderSize line).toNat + capacity.toNat * type.cellBytes line < 2 ^ 63) :
    ∃ result, buildMpmcRing line type mapper capacity = some result ∧
      ∀ created, result = some created → created.capacity = capacity ∧ created.totalSize.toNat =
          (mpmcRingHeaderSize line).toNat + capacity.toNat * type.cellBytes line ∧ created.Accepted line type := by
  have word := type.toNat_cellSize line small
  rw [buildMpmcRing]
  cases mapped : regionCreate mapper (mpmcRingHeaderSize line + capacity * type.cellSize line) with
  | none => exact ⟨none, rfl, nofun⟩
  | some region =>
    obtain ⟨segment, stored, accepted⟩ := exists_mpmc_accepted
      (mpmcRingHeaderSize line + capacity * type.cellSize line) small pow2 fits (le_of_regionCreate honest mapped)
    simp only [stored, Option.map_some]
    refine ⟨_, rfl, fun created made => ?_⟩
    cases made
    refine ⟨rfl, ?_, accepted⟩
    rw [toNat_extent (by rw [word]; omega), word]

theorem createMpmcRing_exact {mapper : Mapper} {requested : UInt64} {fuel : Nat} (small : type.size.toNat < 2 ^ 32)
    (honest : ∀ size segment, mapper size = some segment → size ≤ segment.size) (enough : 65 ≤ fuel) :
    ∃ result, createMpmcRing line type mapper fuel requested = some result ∧ ∀ created, result = some created →
        created.Guarded (mpmcRingHeaderSize line).toNat (type.cellBytes line) requested.toNat ∧
        created.Accepted line type := by
  have floor := request_toNat requested
  have half : mpmcRingHeaderSize line ≤ 0xFFFFFFFFFFFFFFFF / 2 := by cases line <;> decide
  rw [createMpmcRing]
  generalize (if requested < 2 then 2 else requested) = floorCapacity at floor ⊢
  generalize guard : (0xFFFFFFFFFFFFFFFF / 2 - mpmcRingHeaderSize line) / type.cellSize line = maxCapacity
  have fits {capacity : UInt64} (guarded : ¬ maxCapacity < capacity) :
      (mpmcRingHeaderSize line).toNat + capacity.toNat * type.cellBytes line < 2 ^ 63 := by
    have bounded := extent_le_of_le_div half (guard ▸ UInt64.not_lt.mp guarded)
    rw [type.toNat_cellSize line small,
      show (0xFFFFFFFFFFFFFFFF / 2 : UInt64).toNat = 2 ^ 63 - 1 by decide] at bounded
    omega
  by_cases tooLarge : maxCapacity < floorCapacity
  · rw [if_pos tooLarge]
    exact ⟨none, rfl, nofun⟩
  rw [if_neg tooLarge, floor]
  have exponent : Nat.clog 2 (max 2 requested.toNat) ≤ 63 := by
    apply Nat.clog_le_of_le_pow
    have whole := fits tooLarge
    have scaled := Nat.le_mul_of_pos_right floorCapacity.toNat
      (Nat.lt_of_lt_of_le (by decide) (type.le_cellBytes line))
    omega
  have rounded : RingBuffer.roundUpFrom (max 2 requested.toNat) fuel 1 =
      some (2 ^ Nat.clog 2 (max 2 requested.toNat)) :=
    roundUpFrom_eq_clog (Nat.zero_le _) exponent (by omega)
  have below : 2 ^ Nat.clog 2 (max 2 requested.toNat) < 2 ^ 64 := Nat.pow_lt_pow_right (by decide) (by omega)
  have power := UInt64.toNat_ofNat_of_lt' below
  have pow2 := isPow2_two_pow (one_le_clog requested.toNat) exponent
  rw [rounded, Option.bind_some]
  generalize UInt64.ofNat (2 ^ Nat.clog 2 (max 2 requested.toNat)) = capacity at power pow2 ⊢
  by_cases overGuard : maxCapacity < capacity
  · rw [if_pos overGuard]
    exact ⟨none, rfl, nofun⟩
  rw [if_neg overGuard]
  obtain ⟨result, returns, exact⟩ := buildMpmcRing_exact small honest pow2 (fits overGuard)
  refine ⟨result, returns, fun created made => ?_⟩
  obtain ⟨rfl, totalSize, accepted⟩ := exact created made
  refine ⟨⟨?_, totalSize⟩, accepted⟩
  rw [power]
  exact isLeast_two_pow_clog _

end

end AnimusCore.SharedMemory

import AnimusCore.SharedMemory.Queues
import AnimusCore.Telemetry.Delivery

/-! The metric samplers: `AnimusGetMetrics` and the Python `sample_ring`. Both decide by the
word at offset 16 and the size what ring they look at. In the rings they do not know that word
is a mask or a consumer's counter. -/

set_option autoImplicit false

namespace AnimusCore.Metrics

open Lib Lib.StructFormat SharedMemory

/-- All of `RingKind`. -/
inductive SampledKind where
  | spsc
  | spmcBroadcast
  | mpmc
deriving DecidableEq

/-- `TelemetrySnapshot`, and with the same fields `RingSnapshot`; `valid` is that there is one. -/
structure TelemetrySnapshot where
  ringKind : SampledKind
  capacity : UInt64
  schemaVersionHash : UInt64
  payloadSize : UInt64
  stride : UInt64
  wireFormat : List UInt8
  currentWriteHead : UInt64
  hasDroppedCount : Bool := false
  totalOverruns : UInt64 := 0
  hasConsumerLag : Bool := false
  consumerTail : UInt64 := 0
  consumerLag : UInt64 := 0
  producerPid : UInt64 := 0
  producerHeartbeat : UInt64 := 0
deriving DecidableEq

/-- The text up to its terminating NUL, if there is one. -/
def wireFormatAt (memory : Memory) (offset size : Nat) : Option (List UInt8) :=
  (memory.read offset size).map (List.takeWhile (· ≠ 0))

def lag (head tail : UInt64) : UInt64 := if tail ≤ head then head - tail else 0

/-- The fields that all headers begin with, around those that differ. -/
def withPrefix (memory : Memory) (textSize : Nat)
    (rest : UInt64 → UInt64 → UInt64 → UInt64 → List UInt8 → Option TelemetrySnapshot) :
    Option TelemetrySnapshot := do
  let capacity ← memory.word 0
  let schemaVersionHash ← memory.word 24
  let payloadSize ← memory.word 32
  let stride ← memory.word 40
  let wireFormat ← wireFormatAt memory 48 textSize
  rest capacity schemaVersionHash payloadSize stride wireFormat

/-- Of a `RingHeader`. -/
def spscSnapshot (line : CacheLine) (memory : Memory) : Option TelemetrySnapshot :=
  withPrefix memory 80 fun capacity schemaVersionHash payloadSize stride wireFormat => do
    let head ← memory.word 128
    let tail ← memory.word (128 + line.bytes.toNat)
    let dropped ← memory.word 136
    let producerPid ← memory.word 144
    let producerHeartbeat ← memory.word 152
    return { ringKind := .spsc, capacity, schemaVersionHash, payloadSize, stride, wireFormat,
             currentWriteHead := head, hasDroppedCount := true, totalOverruns := dropped,
             hasConsumerLag := true, consumerTail := tail, consumerLag := lag head tail,
             producerPid, producerHeartbeat }

/-- Of an `SpmcRingHeader`. -/
def spmcSnapshot (memory : Memory) : Option TelemetrySnapshot :=
  withPrefix memory 80 fun capacity schemaVersionHash payloadSize stride wireFormat => do
    let head ← memory.word 128
    let producerPid ← memory.word 136
    let producerHeartbeat ← memory.word 144
    return { ringKind := .spmcBroadcast, capacity, schemaVersionHash, payloadSize, stride,
             wireFormat, currentWriteHead := head, producerPid, producerHeartbeat }

/-- Of an `MpmcRingHeader`. -/
def mpmcSnapshot (line : CacheLine) (memory : Memory) : Option TelemetrySnapshot :=
  withPrefix memory 72 fun capacity schemaVersionHash payloadSize stride wireFormat => do
    let enqueued ← memory.word 128
    let dequeued ← memory.word (128 + line.bytes.toNat)
    return { ringKind := .mpmc, capacity, schemaVersionHash, payloadSize, stride, wireFormat,
             currentWriteHead := enqueued, hasConsumerLag := true, consumerTail := dequeued,
             consumerLag := lag enqueued dequeued }

/-- For a segment that could be opened; `some none` is the result false. -/
def animusGetMetrics (line : CacheLine) (size : UInt64) (memory : Memory) : Option (Option TelemetrySnapshot) :=
  if size < 24 then some none
  else (memory.word 16).bind fun kind =>
    if kind = 0 then
      if size < ringHeaderSize line then some none else (spscSnapshot line memory).map some
    else if kind = 1 then
      if size < spmcRingHeaderSize line then some none else (spmcSnapshot memory).map some
    else if kind = 2 then
      if size < mpmcRingHeaderSize line then some none
      else (memory.word 120).bind fun ready =>
        if ready ≠ readyMagic then some none else (mpmcSnapshot line memory).map some
    else some none

/-- `_PREFIX_FORMAT` is `<QQQQQQ`. -/
def prefixFormat : RecordLayout := .ofPair (standardFrom .little 0 [.Q, .Q, .Q, .Q, .Q, .Q])

theorem layout_prefixFormat (platform : Platform) :
    layout platform ['<', 'Q', 'Q', 'Q', 'Q', 'Q', 'Q'] = some prefixFormat := rfl

/-- The Python constants are those of 64-byte lines. -/
def spscHeaderSize : Nat := 256

def spmcHeaderSize : Nat := 192

/-- For a buffer of this length; `some none` is a snapshot with `valid=False`. -/
def sampleRing (length : Nat) (memory : Memory) : Option (Option TelemetrySnapshot) :=
  if length < prefixFormat.size then some none
  else (memory.word (prefixFormat.items.get ⟨2, by decide⟩).offset).bind fun ringKind =>
    if ringKind = 0 then
      if length < spscHeaderSize then some none else (spscSnapshot .line64 memory).map some
    else if ringKind = 1 then
      if length < spmcHeaderSize then some none else (spmcSnapshot memory).map some
    else some none

section
variable {line : CacheLine} {size : UInt64} {memory : Memory} {kind : UInt64}

private theorem animusGetMetrics_eq_false_iff (long : 24 ≤ size) (found : memory.word 16 = some kind) :
    animusGetMetrics line size memory = some none ↔
      (kind = 0 → size < ringHeaderSize line) ∧ (kind = 1 → size < spmcRingHeaderSize line) ∧
      (kind = 2 → size < mpmcRingHeaderSize line ∨ ∃ ready, memory.word 120 = some ready ∧ ready ≠ readyMagic) := by
  rw [animusGetMetrics, if_neg (UInt64.not_lt.mpr long), found, Option.bind_some]
  by_cases zero : kind = 0
  · subst zero
    by_cases short : size < ringHeaderSize line <;> simp [short]
  by_cases one : kind = 1
  · subst one
    by_cases short : size < spmcRingHeaderSize line <;> simp [short]
  by_cases two : kind = 2
  · subst two
    by_cases short : size < mpmcRingHeaderSize line
    · simp [short]
    · cases loaded : memory.word 120 with
      | none => simp [short]
      | some ready => by_cases magic : ready = readyMagic <;> simp [short, magic]
  · simp [zero, one, two]

private theorem sampleRing_eq_false_iff {length : Nat} (long : 48 ≤ length)
    (found : memory.word 16 = some kind) : sampleRing length memory = some none ↔
      (kind = 0 → length < spscHeaderSize) ∧ (kind = 1 → length < spmcHeaderSize) := by
  have enough : ¬ length < prefixFormat.size := Nat.not_lt.mpr long
  rw [sampleRing, if_neg enough,
    show memory.word (prefixFormat.items.get ⟨2, by decide⟩).offset = _ from found,
    Option.bind_some]
  by_cases zero : kind = 0
  · subst zero
    by_cases short : length < spscHeaderSize <;> simp [short]
  by_cases one : kind = 1
  · subst one
    by_cases short : length < spmcHeaderSize <;> simp [short]
  · simp [zero, one]

end

section
variable {line : CacheLine} {size : UInt64} {memory : Memory} {bound : Nat}

section
variable (readable : memory.Readable bound)
include readable

private theorem exists_word {offset : Nat} (inside : offset + 8 ≤ bound) : ∃ word, memory.word offset = some word := by
  obtain ⟨word, held⟩ := Layout.u64.exists_bytes readable inside
  exact ⟨word, Memory.word_of_holds held⟩

private theorem exists_withPrefix {textSize : Nat} (inside : 48 + textSize ≤ bound) {report : TelemetrySnapshot → Prop}
    {rest : UInt64 → UInt64 → UInt64 → UInt64 → List UInt8 → Option TelemetrySnapshot}
    (reports : ∀ capacity hash payloadSize stride text,
      ∃ snapshot, rest capacity hash payloadSize stride text = some snapshot ∧ report snapshot) :
    ∃ snapshot, withPrefix memory textSize rest = some snapshot ∧ report snapshot := by
  obtain ⟨capacity, first⟩ := exists_word readable (show 0 + 8 ≤ bound by omega)
  obtain ⟨hash, second⟩ := exists_word readable (show 24 + 8 ≤ bound by omega)
  obtain ⟨payloadSize, third⟩ := exists_word readable (show 32 + 8 ≤ bound by omega)
  obtain ⟨stride, fourth⟩ := exists_word readable (show 40 + 8 ≤ bound by omega)
  obtain ⟨text, read⟩ := readable.exists_read inside
  simp only [withPrefix, wireFormatAt, first, second, third, fourth, read, Option.bind_eq_bind,
    Option.bind_some, Option.map_some]
  exact reports ..

private theorem exists_spmcSnapshot (inside : 152 ≤ bound) :
    ∃ snapshot, spmcSnapshot memory = some snapshot ∧ snapshot.ringKind = .spmcBroadcast := by
  obtain ⟨head, first⟩ := exists_word readable (show 128 + 8 ≤ bound by omega)
  obtain ⟨pid, second⟩ := exists_word readable (show 136 + 8 ≤ bound by omega)
  obtain ⟨heartbeat, third⟩ := exists_word readable (show 144 + 8 ≤ bound by omega)
  refine exists_withPrefix readable (by omega) fun _ _ _ _ _ => ?_
  rw [first, second, third]
  exact ⟨_, rfl, rfl⟩

private theorem exists_spscSnapshot (inside : 128 + line.bytes.toNat + 32 ≤ bound) :
    ∃ snapshot, spscSnapshot line memory = some snapshot ∧ snapshot.ringKind = .spsc := by
  obtain ⟨head, first⟩ := exists_word readable (show 128 + 8 ≤ bound by omega)
  obtain ⟨tail, second⟩ := exists_word readable (show 128 + line.bytes.toNat + 8 ≤ bound by omega)
  obtain ⟨dropped, third⟩ := exists_word readable (show 136 + 8 ≤ bound by omega)
  obtain ⟨pid, fourth⟩ := exists_word readable (show 144 + 8 ≤ bound by omega)
  obtain ⟨heartbeat, fifth⟩ := exists_word readable (show 152 + 8 ≤ bound by omega)
  refine exists_withPrefix readable (by omega) fun _ _ _ _ _ => ?_
  rw [first, second, third, fourth, fifth]
  exact ⟨_, rfl, rfl⟩

end

/-- With a zero at offset 16 both samplers report an SPSC ring, with a one an SPMC ring. -/
theorem exists_spsc_reported (readable : memory.Readable size.toNat)
    (found : memory.word 16 = some 0) (long : 256 ≤ size) :
    (∃ snapshot, animusGetMetrics .line64 size memory = some (some snapshot) ∧ snapshot.ringKind = .spsc) ∧
    ∃ snapshot, sampleRing size.toNat memory = some (some snapshot) ∧ snapshot.ringKind = .spsc := by
  have length : 256 ≤ size.toNat := UInt64.le_iff_toNat_le.mp long
  obtain ⟨snapshot, taken, kind⟩ := @exists_spscSnapshot .line64 _ _ readable (Nat.le_trans (by decide) length)
  have large : ¬ size < 24 := UInt64.not_lt.mpr (UInt64.le_trans (by decide) long)
  have header : ¬ size < ringHeaderSize .line64 := UInt64.not_lt.mpr long
  have enough : ¬ size.toNat < prefixFormat.size := Nat.not_lt.mpr (Nat.le_trans (by decide) length)
  have whole : ¬ size.toNat < spscHeaderSize := Nat.not_lt.mpr length
  constructor
  · refine ⟨snapshot, ?_, kind⟩
    rw [animusGetMetrics, if_neg large, found, Option.bind_some, if_pos rfl, if_neg header, taken, Option.map_some]
  · refine ⟨snapshot, ?_, kind⟩
    rw [sampleRing, if_neg enough,
      show memory.word (prefixFormat.items.get ⟨2, by decide⟩).offset = _ from found,
      Option.bind_some, if_pos rfl, if_neg whole, taken, Option.map_some]

private theorem exists_spmc_reported (readable : memory.Readable size.toNat)
    (found : memory.word 16 = some 1) (long : 192 ≤ size) :
    (∃ snapshot, animusGetMetrics .line64 size memory = some (some snapshot) ∧ snapshot.ringKind = .spmcBroadcast) ∧
    ∃ snapshot, sampleRing size.toNat memory = some (some snapshot) ∧ snapshot.ringKind = .spmcBroadcast := by
  have length : 192 ≤ size.toNat := UInt64.le_iff_toNat_le.mp long
  obtain ⟨snapshot, taken, kind⟩ := exists_spmcSnapshot readable (Nat.le_trans (by decide) length)
  have large : ¬ size < 24 := UInt64.not_lt.mpr (UInt64.le_trans (by decide) long)
  have header : ¬ size < spmcRingHeaderSize .line64 := UInt64.not_lt.mpr long
  have enough : ¬ size.toNat < prefixFormat.size := Nat.not_lt.mpr (Nat.le_trans (by decide) length)
  have whole : ¬ size.toNat < spmcHeaderSize := Nat.not_lt.mpr length
  constructor
  · refine ⟨snapshot, ?_, kind⟩
    rw [animusGetMetrics, if_neg large, found, Option.bind_some, if_neg (by decide), if_pos rfl,
      if_neg header, taken, Option.map_some]
  · refine ⟨snapshot, ?_, kind⟩
    rw [sampleRing, if_neg enough,
      show memory.word (prefixFormat.items.get ⟨2, by decide⟩).offset = _ from found,
      Option.bind_some, if_neg (by decide), if_pos rfl, if_neg whole, taken, Option.map_some]

end

/-- A segment of a ring that the samplers do not know, with all that was done to it since it was
initialised. The operations of the two queues store at and behind their first cursor. -/
inductive Foreign (line : CacheLine) : UInt64 → Memory → Type where
  | queue (ring : QueueRing) (type : RecordType) (capacity : UInt64) (segment fresh : Segment)
      (operations : List Store) :
      ring.init line type segment capacity = some (some fresh) →
      (∀ entry ∈ operations, line.bytes.toNat ≤ entry.offset) →
      Foreign line fresh.size (fresh.image.storeAll operations)
  | telemetry (mapper : Mapper) (capacity : Nat) (segment : Segment)
      (producer consumer : Telemetry.Language) (pusher popper : Telemetry.Side)
      (state : Telemetry.State) :
      Telemetry.Creation mapper capacity segment →
      (∀ size segment, mapper size = some segment → size ≤ segment.size) →
      24 + capacity * 24 < 2 ^ 64 →
      producer.attach segment = some pusher → consumer.attach segment = some popper →
      Reaches (Telemetry.step pusher popper) Telemetry.FewEvents (Telemetry.start segment) state →
      Foreign line segment.size state.memory

namespace Foreign

variable {line : CacheLine} {size : UInt64} {memory : Memory}

/-- When `AnimusGetMetrics` has to return false. The word at 120 is the first one of the fifth
telemetry record. -/
def GetMetricsRefuses : Foreign line size memory → Prop
  | queue _ _ capacity _ fresh _ _ _ => capacity = 2 → fresh.size < spmcRingHeaderSize line
  | telemetry _ _ segment _ _ _ _ state _ _ _ _ _ _ =>
    (state.popped.length = 0 → segment.size < ringHeaderSize line) ∧
    (state.popped.length = 1 → segment.size < spmcRingHeaderSize line) ∧
    (state.popped.length = 2 → segment.size < mpmcRingHeaderSize line ∨
      ∃ ready, state.memory.word 120 = some ready ∧ ready ≠ readyMagic)

def SampleRingRefuses : Foreign line size memory → Prop
  | queue _ _ capacity _ fresh _ _ _ => capacity = 2 → fresh.size.toNat < spmcHeaderSize
  | telemetry _ _ segment _ _ _ _ state _ _ _ _ _ _ =>
    (state.popped.length = 0 → segment.size.toNat < spscHeaderSize) ∧
    (state.popped.length = 1 → segment.size.toNat < spmcHeaderSize)

private theorem word_queue {ring : QueueRing} {type : RecordType} {capacity : UInt64} {segment fresh : Segment}
    {operations : List Store} (initialised : ring.init line type segment capacity = some (some fresh))
    (beyond : ∀ entry ∈ operations, line.bytes.toNat ≤ entry.offset) :
    (fresh.image.storeAll operations).word 16 = some (capacity - 1) := by
  obtain ⟨-, -, -, -, image⟩ := QueueRing.of_init initialised
  have described : QueueRing.Described type capacity ring fresh.image := by
    rw [image]
    exact QueueRing.described segment.image
  refine (described.congr fun pos before => ?_).mask
  refine Memory.storeAll_of_apart fun entry inside => .inr ?_
  have cursor := beyond entry inside
  have wide : 64 ≤ line.bytes.toNat := by cases line <;> decide
  omega

private theorem word_telemetry {capacity : Nat} {segment : Segment} {producer consumer : Telemetry.Language}
    {pusher popper : Telemetry.Side} {state : Telemetry.State} (fresh : Telemetry.Fresh capacity segment)
    (attached : producer.attach segment = some pusher) (attached' : consumer.attach segment = some popper)
    (reached : Reaches (Telemetry.step pusher popper) Telemetry.FewEvents (Telemetry.start segment) state) :
    state.popped.length < 2 ^ 64 ∧ state.memory.word 16 = some (UInt64.ofNat state.popped.length) := by
  obtain ⟨_, same, pusherKnows⟩ := fresh.attach producer
  obtain ⟨_, same', popperKnows⟩ := fresh.attach consumer
  cases attached.symm.trans same
  cases attached'.symm.trans same'
  have inv := fresh.reaches pusherKnows popperKnows reached
  have small : state.popped.length < 2 ^ 64 := Nat.lt_of_le_of_lt inv.carries.taken_le inv.carries.small
  refine ⟨small, Memory.word_of_holds ?_⟩
  change state.memory.Holds 16 (toLE 8 (UInt64.ofNat state.popped.length).toNat)
  rw [UInt64.toNat_ofNat_of_lt' small]
  exact inv.carries.tail

end Foreign

private theorem ofNat_eq_iff {count : Nat} (small : count < 2 ^ 64) (word : UInt64) :
    UInt64.ofNat count = word ↔ count = word.toNat := by
  rw [← UInt64.toNat_inj, UInt64.toNat_ofNat_of_lt' small]

/-- The mask of a queue is never the kind of an SPSC or an MPMC ring. -/
theorem mask_ne {capacity : UInt64} (pow2 : isPow2 capacity = true) :
    capacity - 1 ≠ 0 ∧ capacity - 1 ≠ 2 ∧ (capacity - 1 = 1 ↔ capacity = 2) := by
  have large : 2 ≤ capacity := by
    simp only [isPow2, Bool.and_eq_true, decide_eq_true_eq] at pow2
    exact pow2.1
  have back : capacity - 1 + 1 = capacity := UInt64.sub_add_cancel ..
  refine ⟨fun zero => ?_, fun two => ?_, fun one => ?_, fun same => by rw [same]; rfl⟩
  · rw [zero] at back
    rw [← back] at large
    exact absurd large (by decide)
  · rw [two] at back
    rw [← back] at pow2
    exact absurd pow2 (by decide)
  · rw [one] at back
    exact back.symm

/-- The samplers refuse a foreign ring exactly when its word at 16, its size and, for a tail of
two, the fifth record do not make it look like a ring they know. -/
theorem foreign_refused_iff (line : CacheLine) (size : UInt64) (memory : Memory)
    (foreign : Foreign line size memory) :
    (animusGetMetrics line size memory = some none ↔ foreign.GetMetricsRefuses) ∧
      (sampleRing size.toNat memory = some none ↔ foreign.SampleRingRefuses) := by
  cases foreign with
  | queue ring type capacity segment fresh operations initialised beyond =>
    obtain ⟨pow2, -, header, sameSize, -⟩ := QueueRing.of_init initialised
    have wide : 128 ≤ (ring.headerSize line).toNat := by cases line <;> cases ring <;> decide
    have long : 48 ≤ fresh.size.toNat := by
      rw [sameSize]
      omega
    have word := Foreign.word_queue initialised beyond
    obtain ⟨notSpsc, notMpmc, spmc⟩ := mask_ne pow2
    rw [animusGetMetrics_eq_false_iff (UInt64.le_iff_toNat_le.mpr (Nat.le_trans (by decide) long))
      word, sampleRing_eq_false_iff long word]
    simp only [notSpsc, notMpmc, spmc, false_implies, true_and, and_true]
    exact ⟨Iff.rfl, Iff.rfl⟩
  | telemetry mapper capacity segment producer consumer pusher popper state creation honest fits
      attached attached' reached =>
      have fresh := creation.fresh honest fits
      have room := fresh.room
      have positive := fresh.positive
      have long : 48 ≤ segment.size.toNat := by omega
      obtain ⟨small, word⟩ := Foreign.word_telemetry fresh attached attached' reached
      rw [animusGetMetrics_eq_false_iff (UInt64.le_iff_toNat_le.mpr (Nat.le_trans (by decide) long))
        word, sampleRing_eq_false_iff long word]
      simp only [ofNat_eq_iff small]
      exact ⟨Iff.rfl, Iff.rfl⟩

def record40 : RecordType := ⟨40, Nat.succ_pos 39, 0, []⟩

/-- A queue of four slots after its first push. -/
theorem foreign_refused_four : ∃ fresh, QueueRing.spscQueue.init .line64 record40 (Segment.ofBytes 4096 352 []) 4 =
        some (some fresh) ∧ animusGetMetrics .line64 fresh.size (fresh.image.storeAll [.word 64 1]) = some none ∧
      sampleRing fresh.size.toNat (fresh.image.storeAll [.word 64 1]) = some none := by
  obtain ⟨fresh, initialised⟩ := @QueueRing.exists_init .line64 record40 4 .spscQueue
    (Segment.ofBytes 4096 352 []) (by decide) (by decide) (by decide) (by decide) (by decide)
  obtain ⟨native, python⟩ := foreign_refused_iff .line64 fresh.size _
    (.queue .spscQueue record40 4 _ fresh [.word 64 1] initialised (by rw [List.forall_mem_singleton]; decide))
  exact ⟨fresh, initialised, native.mpr fun impossible => absurd impossible (by decide),
    python.mpr fun impossible => absurd impossible (by decide)⟩

/-- A new `SpscQueue` of two slots is reported as an SPMC ring by both samplers, and a new
telemetry ring of ten records as an SPSC ring. -/
theorem foreign_misread : (∃ fresh, QueueRing.spscQueue.init .line64 record40 (Segment.ofBytes 4096 272 []) 2 =
        some (some fresh) ∧ (∃ snapshot, animusGetMetrics .line64 fresh.size fresh.image = some (some snapshot) ∧
        snapshot.ringKind = .spmcBroadcast) ∧
      ∃ snapshot, sampleRing fresh.size.toNat fresh.image = some (some snapshot) ∧
        snapshot.ringKind = .spmcBroadcast) ∧
    ∃ segment, Telemetry.SharedTelemetryRing.create sampleMapper 10 = some segment ∧
      (∃ snapshot, animusGetMetrics .line64 segment.size segment.image = some (some snapshot) ∧
        snapshot.ringKind = .spsc) ∧
      ∃ snapshot, sampleRing segment.size.toNat segment.image = some (some snapshot) ∧ snapshot.ringKind = .spsc := by
  constructor
  · obtain ⟨fresh, initialised⟩ := @QueueRing.exists_init .line64 record40 2 .spscQueue
      (Segment.ofBytes 4096 272 []) (by decide) (by decide) (by decide) (by decide) (by decide)
    obtain ⟨-, -, -, sameSize, -⟩ := QueueRing.of_init initialised
    have word : fresh.image.word 16 = some 1 := @Foreign.word_queue _ _ _ _ _ _ [] initialised nofun
    exact ⟨fresh, initialised, exists_spmc_reported fresh.mapped word (by rw [sameSize]; decide)⟩
  · have made : ∃ segment, Telemetry.SharedTelemetryRing.create sampleMapper 10 = some segment ∧
        256 ≤ segment.size ∧ segment.image.word 16 = some 0 := ⟨_, rfl, by decide, rfl⟩
    obtain ⟨segment, created, long, word⟩ := made
    exact ⟨segment, created, exists_spsc_reported segment.mapped word long⟩

end AnimusCore.Metrics

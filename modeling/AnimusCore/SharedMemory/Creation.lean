import AnimusCore.RingBuffer.Ring
import AnimusCore.SharedMemory.Header
import Mathlib.Data.Nat.Log

/-! Creating a shared ring. The segment asked for is exactly as large as header and slots,
and the matching attach accepts it, just where their size is a 64-bit number; where it is a
multiple of the word size no bytes are asked for and the creation is refused. -/

set_option autoImplicit false

namespace AnimusCore.SharedMemory

open Lib

/-- What the operating system maps for a size, or nothing. -/
abbrev Mapper := UInt64 → Option Segment

def regionCreate (mapper : Mapper) (size : UInt64) : Option Segment :=
  if size = 0 then none else mapper size

/-- The header constructed in place; outside the mapping that is undefined. -/
def Segment.construct (segment : Segment) (bytes : List UInt8) : Option Segment :=
  if bytes.length ≤ segment.size.toNat then
    some { segment with image := segment.image.write bytes, mapped := segment.mapped.write bytes }
  else none

structure Created where
  capacity : UInt64
  totalSize : UInt64
  segment : Segment

/-- Of `set_wire_format`, over a zeroed array. -/
def wireFormatField (src : List UInt8) : Vector UInt8 80 :=
  Vector.ofFn fun i => ((src.takeWhile (· ≠ 0)).take 79)[i.val]?.getD 0

/-- The descriptor that both ring classes stamp. -/
def descriptorFor (kind : RingKind) (type : RecordType) (capacity : UInt64) : Descriptor where
  capacity := capacity
  mask := capacity - 1
  ringKind := kind.word
  schemaVersionHash := type.versionHash
  payloadSize := type.size
  stride := type.size
  wireFormat := wireFormatField type.wireFormat

/-- The two ring classes differ in their header and its kind. The result is `none` while
the rounding loop has not ended, and `some none` for a null pointer. -/
def createRing (kind : RingKind) (headerSize : UInt64) (type : RecordType) (mapper : Mapper)
    (fuel : Nat) (requestedCapacity : UInt64) : Option (Option Created) := do
  let request := if requestedCapacity < 2 then 2 else requestedCapacity
  let rounded ← RingBuffer.roundUpFrom request.toNat fuel 1
  let capacity := UInt64.ofNat rounded
  let totalSize := headerSize + capacity * type.size
  match regionCreate mapper totalSize with
  | none => return none
  | some region =>
    let segment ← region.construct (Descriptor.layout.bytes (descriptorFor kind type capacity) ++
      List.replicate (headerSize.toNat - 128) 0)
    return some { capacity, totalSize, segment }

def createShmRing (line : CacheLine) : RecordType → Mapper → Nat → UInt64 → Option (Option Created) :=
  createRing .spsc (ringHeaderSize line)

def createSpmcRing (line : CacheLine) : RecordType → Mapper → Nat → UInt64 → Option (Option Created) :=
  createRing .spmcBroadcast (spmcRingHeaderSize line)

structure SharedRingHeader where
  capacity : UInt64
  head : UInt64
  tail : UInt64

def SharedRingHeader.layout : Layout SharedRingHeader :=
  (Layout.u64.pair (Layout.u64.pair Layout.u64)).map
    { toFun := fun (capacity, head, tail) => ⟨capacity, head, tail⟩
      invFun := fun header => (header.capacity, header.head, header.tail)
      left_inv := fun _ => rfl, right_inv := fun _ => rfl }

def telemetryRecordSize : UInt64 := 24

def createChannel (mapper : Mapper) (capacity : UInt64) : Option (Option Created) := do
  let capacity := if capacity = 0 then 1 else capacity
  let totalSize := 24 + capacity * telemetryRecordSize
  match regionCreate mapper totalSize with
  | none => return none
  | some region =>
    let segment ← region.construct (SharedRingHeader.layout.bytes ⟨capacity, 0, 0⟩)
    return some { capacity, totalSize, segment }

def attachChannel (segment : Segment) : Option UInt64 := do
  guard (24 ≤ segment.size)
  let header ← SharedRingHeader.layout.read segment.image 0
  guard (header.capacity ≠ 0 ∧ 24 + header.capacity * telemetryRecordSize ≤ segment.size)
  return header.capacity

/-- The least power of two that covers the request, and two slots. -/
abbrev leastPow2 (requested : Nat) : Nat := 2 ^ Nat.clog 2 (max 2 requested)

inductive RingClass where
  | shmRing (line : CacheLine) (type : RecordType)
  | spmcRing (line : CacheLine) (type : RecordType)
  | telemetryChannel

namespace RingClass

def create (mapper : Mapper) (fuel : Nat) (requested : UInt64) : RingClass → Option (Option Created)
  | shmRing line type => createShmRing line type mapper fuel requested
  | spmcRing line type => createSpmcRing line type mapper fuel requested
  | telemetryChannel => createChannel mapper requested

def attach (segment : Segment) : RingClass → Option UInt64
  | shmRing line type => (openShmRing line type segment).map View.capacity
  | spmcRing line type => (openSpmcRing line type segment).map View.capacity
  | telemetryChannel => attachChannel segment

def headerSize : RingClass → Nat
  | shmRing line _ => (ringHeaderSize line).toNat
  | spmcRing line _ => (spmcRingHeaderSize line).toNat
  | telemetryChannel => 24

def recordSize : RingClass → Nat
  | shmRing _ type => type.size.toNat
  | spmcRing _ type => type.size.toNat
  | telemetryChannel => telemetryRecordSize.toNat

def capacityFor (requested : Nat) : RingClass → Nat
  | shmRing _ _ | spmcRing _ _ => leastPow2 requested
  | telemetryChannel => max 1 requested

def extent (requested : Nat) (ring : RingClass) : Nat :=
  ring.headerSize + ring.capacityFor requested * ring.recordSize

end RingClass

structure Created.Exact (created : Created) (ring : RingClass) (requested : Nat) : Prop where
  capacity : created.capacity.toNat = ring.capacityFor requested
  totalSize : created.totalSize.toNat = ring.extent requested
  attaches : ring.attach created.segment = some created.capacity

/-- Whatever the system maps that is long enough, the creation returns, and it returns a
null pointer or the ring asked for. -/
def RingClass.CreatesExactly (ring : RingClass) (requested : UInt64) : Prop :=
  ∀ (mapper : Mapper) (fuel : Nat), (∀ size segment, mapper size = some segment → size ≤ segment.size) →
    65 ≤ fuel → ∃ result, ring.create mapper fuel requested = some result ∧
      ∀ created, result = some created → created.Exact ring requested.toNat

theorem roundUpFrom_eq_clog {v exponent fuel : Nat} (low : exponent ≤ Nat.clog 2 v)
    (high : Nat.clog 2 v ≤ 63) (enough : Nat.clog 2 v < exponent + fuel) :
    RingBuffer.roundUpFrom v fuel (2 ^ exponent) = some (2 ^ Nat.clog 2 v) := by
  induction fuel generalizing exponent with
  | zero => omega
  | succ fuel ih =>
    rw [RingBuffer.roundUpFrom]
    split
    case isTrue less =>
      have more : exponent < Nat.clog 2 v := (Nat.lt_clog_iff_pow_lt (by decide)).mpr less
      rw [RingBuffer.two_pow_mul_two_mod (by omega)]
      exact ih more (by omega)
    case isFalse reached =>
      have same : exponent = Nat.clog 2 v := Nat.le_antisymm low (Nat.not_lt.mp fun more =>
          reached ((Nat.lt_clog_iff_pow_lt (by decide)).mp more))
      rw [same]

/-- Above the largest power of two of a word the loop does not end. -/
theorem roundUpFrom_eq_none {v : Nat} (large : 2 ^ 63 < v) (fuel : Nat) : RingBuffer.roundUpFrom v fuel 1 = none := by
  cases found : RingBuffer.roundUpFrom v fuel 1 with
  | none => rfl
  | some capacity =>
    have begins : RingBuffer.roundUpFrom v fuel (2 ^ 0) = some capacity := found
    obtain ⟨covers, exponent, small, rfl⟩ := RingBuffer.roundUpFrom_two_pow (by omega) begins
    have bounded := Nat.pow_le_pow_right (show 0 < 2 by decide) small
    omega

theorem capacityIsPow2_two_pow {exponent : Nat} (small : exponent ≤ 63) :
    capacityIsPow2 (UInt64.ofNat (2 ^ exponent)) = true := by
  have below : 2 ^ exponent < 2 ^ 64 := Nat.pow_lt_pow_right (by decide) (by omega)
  have word := UInt64.toNat_ofNat_of_lt' below
  have positive : 1 ≤ 2 ^ exponent := Nat.two_pow_pos exponent
  have atLeast : (1 : UInt64) ≤ UInt64.ofNat (2 ^ exponent) := by
    rw [UInt64.le_iff_toNat_le, word]
    exact positive
  have nonzero : UInt64.ofNat (2 ^ exponent) ≠ 0 := by
    intro zero
    rw [zero] at word
    exact absurd word (by rw [UInt64.toNat_zero]; omega)
  have bits : UInt64.ofNat (2 ^ exponent) &&& (UInt64.ofNat (2 ^ exponent) - 1) = 0 := by
    apply UInt64.toNat_inj.mp
    rw [UInt64.toNat_and, UInt64.toNat_sub_of_le _ _ atLeast, word]
    change 2 ^ exponent &&& (2 ^ exponent - 1) = 0
    rw [Nat.and_two_pow_sub_one_eq_mod, Nat.mod_self]
  simp only [capacityIsPow2, nonzero, bits, bne_iff_ne, ne_eq, not_false_eq_true, Bool.and_eq_true,
    beq_self_eq_true, and_self]

theorem request_toNat (requested : UInt64) :
    (if requested < 2 then 2 else requested).toNat = max 2 requested.toNat := by
  have compared : requested < 2 ↔ requested.toNat < 2 := UInt64.lt_iff_toNat_lt
  by_cases small : requested < 2
  · rw [if_pos small, Nat.max_eq_left (Nat.le_of_lt (compared.mp small))]
    rfl
  · rw [if_neg small, Nat.max_eq_right (Nat.not_lt.mp (compared.not.mp small))]

section
variable {type : RecordType} {mapper : Mapper} {requested : UInt64}

private theorem exists_construct {segment : Segment} {bytes : List UInt8} (room : bytes.length ≤ segment.size.toNat) :
    ∃ next, segment.construct bytes = some next ∧ next.size = segment.size ∧ next.image.Holds 0 bytes :=
  ⟨_, if_pos room, rfl, Memory.write_holds ..⟩

theorem le_of_regionCreate {size : UInt64} {region : Segment}
    (honest : ∀ size segment, mapper size = some segment → size ≤ segment.size)
    (mapped : regionCreate mapper size = some region) : size ≤ region.size := by
  unfold regionCreate at mapped
  split at mapped
  case isTrue => cases mapped
  case isFalse => exact honest _ _ mapped

private theorem clog_le (power : leastPow2 requested.toNat < 2 ^ 64) : Nat.clog 2 (max 2 requested.toNat) ≤ 63 :=
  Nat.le_of_lt_succ ((Nat.pow_lt_pow_iff_right (by decide)).mp power)

private theorem rounded_of_lt {fuel : Nat} (power : leastPow2 requested.toNat < 2 ^ 64) (enough : 65 ≤ fuel) :
    RingBuffer.roundUpFrom (max 2 requested.toNat) fuel 1 = some (leastPow2 requested.toNat) := by
  have small := clog_le power
  exact roundUpFrom_eq_clog (Nat.zero_le _) small (by omega)

private theorem createRing_exact (kind : RingKind) {headerSize : UInt64} {fuel : Nat} (wide : 128 ≤ headerSize.toNat)
    (honest : ∀ size segment, mapper size = some segment → size ≤ segment.size)
    (fits : headerSize.toNat + leastPow2 requested.toNat * type.size.toNat < 2 ^ 64) (enough : 65 ≤ fuel) :
    ∃ result, createRing kind headerSize type mapper fuel requested = some result ∧
      ∀ created, result = some created → created.capacity.toNat = leastPow2 requested.toNat ∧
        created.totalSize.toNat = headerSize.toNat + leastPow2 requested.toNat * type.size.toNat ∧
        (openRing kind headerSize type created.segment).map View.capacity = some created.capacity := by
  have power : leastPow2 requested.toNat < 2 ^ 64 := by
    have scaled := Nat.le_mul_of_pos_right (leastPow2 requested.toNat) type.size_pos
    omega
  have word := UInt64.toNat_ofNat_of_lt' power
  have pow2 := capacityIsPow2_two_pow (clog_le power)
  rw [createRing, request_toNat, rounded_of_lt power enough]
  simp only [Option.bind_eq_bind, Option.bind_some]
  generalize UInt64.ofNat (leastPow2 requested.toNat) = capacity at word pow2 ⊢
  rw [← word] at fits ⊢
  cases mapped : regionCreate mapper (headerSize + capacity * type.size) with
  | none => exact ⟨none, rfl, nofun⟩
  | some region =>
    have large := le_of_regionCreate honest mapped
    have total := UInt64.le_iff_toNat_le.mp large
    rw [toNat_extent fits] at total
    have room : (Descriptor.layout.bytes (descriptorFor kind type capacity) ++
        List.replicate (headerSize.toNat - 128) 0).length ≤ region.size.toNat := by
      rw [List.length_append, Layout.length_bytes, List.length_replicate]
      change 128 + (headerSize.toNat - 128) ≤ region.size.toNat
      omega
    obtain ⟨segment, constructed, sameSize, held⟩ := exists_construct room
    simp only [constructed, Option.bind_some]
    refine ⟨_, rfl, ?_⟩
    intro created made
    cases made
    have fitsHeader : headerSize ≤ segment.size := by
      rw [sameSize, UInt64.le_iff_toNat_le]
      omega
    have opened : openRing kind headerSize type segment = some ⟨headerSize, capacity, capacity - 1, type.size⟩ :=
      openRing_eq_some (Memory.holds_append.mp held).1 fitsHeader rfl pow2 rfl rfl rfl (by rwa [sameSize])
    rw [opened]
    exact ⟨rfl, toNat_extent fits, rfl⟩

theorem channelCapacity_toNat (requested : UInt64) :
    (if requested = 0 then 1 else requested).toNat = max 1 requested.toNat := by
  by_cases zero : requested = 0
  · rw [if_pos zero, zero]
    rfl
  · have positive : 1 ≤ requested.toNat := Nat.pos_of_ne_zero fun same => zero (UInt64.toNat_inj.mp same)
    rw [if_neg zero, Nat.max_eq_right positive]

private theorem createChannel_exact (honest : ∀ size segment, mapper size = some segment → size ≤ segment.size)
    (fits : 24 + max 1 requested.toNat * telemetryRecordSize.toNat < 2 ^ 64) :
    ∃ result, createChannel mapper requested = some result ∧ ∀ created, result = some created →
        created.capacity.toNat = max 1 requested.toNat ∧
        created.totalSize.toNat = 24 + max 1 requested.toNat * telemetryRecordSize.toNat ∧
        attachChannel created.segment = some created.capacity := by
  have word := channelCapacity_toNat requested
  rw [createChannel]
  generalize (if requested = 0 then 1 else requested) = capacity at word ⊢
  rw [← word] at fits ⊢
  have extent : (24 + capacity * telemetryRecordSize).toNat =
      24 + capacity.toNat * telemetryRecordSize.toNat := toNat_extent fits
  cases mapped : regionCreate mapper (24 + capacity * telemetryRecordSize) with
  | none => exact ⟨none, rfl, nofun⟩
  | some region =>
    have large := le_of_regionCreate honest mapped
    have total := UInt64.le_iff_toNat_le.mp large
    have room : (SharedRingHeader.layout.bytes ⟨capacity, 0, 0⟩).length ≤ region.size.toNat := by
      change 24 ≤ region.size.toNat
      omega
    obtain ⟨segment, constructed, sameSize, held⟩ := exists_construct room
    simp only [constructed, Option.bind_eq_bind, Option.bind_some]
    refine ⟨_, rfl, ?_⟩
    intro created made
    cases made
    refine ⟨rfl, extent, ?_⟩
    have fitsHeader : 24 ≤ segment.size := by
      rw [sameSize, UInt64.le_iff_toNat_le]
      change 24 ≤ region.size.toNat
      omega
    have nonzero : capacity ≠ 0 := by
      intro zero
      rw [zero, UInt64.toNat_zero] at word
      omega
    simp only [attachChannel, Option.bind_eq_bind, Option.bind_eq_some_iff, guard_eq_some_iff, exists_const]
    exact ⟨fitsHeader, ⟨capacity, 0, 0⟩, SharedRingHeader.layout.read_bytes held, ⟨nonzero, by rwa [sameSize]⟩, rfl⟩

end

private theorem createsExactly_of_lt {ring : RingClass} {requested : UInt64}
    (fits : ring.extent requested.toNat < 2 ^ 64) : ring.CreatesExactly requested := by
  intro mapper fuel honest enough
  cases ring with
  | shmRing line type =>
    obtain ⟨result, returns, exact⟩ := createRing_exact .spsc
      (show 128 ≤ (ringHeaderSize line).toNat by cases line <;> decide) honest fits enough
    refine ⟨result, returns, fun created made => ?_⟩
    obtain ⟨capacity, totalSize, opened⟩ := exact created made
    exact ⟨capacity, totalSize, opened⟩
  | spmcRing line type =>
    obtain ⟨result, returns, exact⟩ := createRing_exact .spmcBroadcast
      (show 128 ≤ (spmcRingHeaderSize line).toNat by cases line <;> decide) honest fits enough
    refine ⟨result, returns, fun created made => ?_⟩
    obtain ⟨capacity, totalSize, opened⟩ := exact created made
    exact ⟨capacity, totalSize, opened⟩
  | telemetryChannel =>
    obtain ⟨result, returns, exact⟩ := createChannel_exact honest fits
    refine ⟨result, returns, fun created made => ?_⟩
    obtain ⟨capacity, totalSize, attached⟩ := exact created made
    exact ⟨capacity, totalSize, attached⟩

def sampleMapper : Mapper := fun size => some (Segment.ofBytes 4096 size [])

theorem sampleMapper_honest (size : UInt64) (segment : Segment)
    (mapped : sampleMapper size = some segment) : size ≤ segment.size := by
  cases mapped
  exact UInt64.le_refl size

/-! Beyond 64 bits the loop does not end, or nothing is asked for, or too little. -/

private theorem toNat_extent_mod (headerSize capacity size : UInt64) :
    (headerSize + capacity * size).toNat = (headerSize.toNat + capacity.toNat * size.toNat) % 2 ^ 64 := by
  rw [UInt64.toNat_add, UInt64.toNat_mul, Nat.add_mod_mod]

private theorem createRing_refused (kind : RingKind) {headerSize : UInt64} {type : RecordType} (mapper : Mapper)
    {fuel : Nat} {requested : UInt64} (enough : 65 ≤ fuel) (power : leastPow2 requested.toNat < 2 ^ 64)
    (zero : (headerSize.toNat + leastPow2 requested.toNat * type.size.toNat) % 2 ^ 64 = 0) :
    createRing kind headerSize type mapper fuel requested = some none := by
  have nothing : headerSize + UInt64.ofNat (leastPow2 requested.toNat) * type.size = 0 :=
    UInt64.toNat_inj.mp (by rw [toNat_extent_mod, UInt64.toNat_ofNat_of_lt' power, zero, UInt64.toNat_zero])
  rw [createRing, request_toNat, rounded_of_lt power enough]
  simp only [Option.bind_eq_bind, Option.bind_some, nothing, regionCreate, ↓reduceIte]
  rfl

private theorem createRing_asks {kind : RingKind} {headerSize : UInt64} {type : RecordType} {requested : UInt64}
    {result : Option Created} (returns : createRing kind headerSize type sampleMapper 65 requested = some result) :
    leastPow2 requested.toNat < 2 ^ 64 ∧
      ((headerSize.toNat + leastPow2 requested.toNat * type.size.toNat) % 2 ^ 64 = 0 ∨
        ∃ created, result = some created ∧ created.totalSize.toNat =
          (headerSize.toNat + leastPow2 requested.toNat * type.size.toNat) % 2 ^ 64) := by
  rw [createRing, request_toNat] at returns
  by_cases large : 2 ^ 63 < max 2 requested.toNat
  · rw [roundUpFrom_eq_none large] at returns
    cases returns
  · have power : leastPow2 requested.toNat < 2 ^ 64 :=
      Nat.pow_lt_pow_right (by decide) (Nat.lt_succ_of_le (Nat.clog_le_of_le_pow (Nat.not_lt.mp large)))
    rw [rounded_of_lt power (Nat.le_refl 65)] at returns
    refine ⟨power, ?_⟩
    have total := toNat_extent_mod headerSize (UInt64.ofNat (leastPow2 requested.toNat)) type.size
    rw [UInt64.toNat_ofNat_of_lt' power] at total
    rw [← total]
    by_cases zero : headerSize + UInt64.ofNat (leastPow2 requested.toNat) * type.size = 0
    · exact .inl (by rw [zero, UInt64.toNat_zero])
    · simp only [Option.bind_eq_bind, Option.bind_some, regionCreate, sampleMapper, if_neg zero] at returns
      obtain ⟨segment, -, made⟩ := Option.bind_eq_some_iff.mp returns
      cases made
      exact .inr ⟨_, rfl, rfl⟩

private theorem createChannel_asks {requested : UInt64} {result : Option Created}
    (returns : createChannel sampleMapper requested = some result) :
    (24 + max 1 requested.toNat * telemetryRecordSize.toNat) % 2 ^ 64 = 0 ∨
      ∃ created, result = some created ∧ created.totalSize.toNat =
        (24 + max 1 requested.toNat * telemetryRecordSize.toNat) % 2 ^ 64 := by
  have total := toNat_extent_mod 24 (if requested = 0 then 1 else requested) telemetryRecordSize
  rw [channelCapacity_toNat] at total
  change _ = (24 + _) % _ at total
  rw [← total]
  by_cases zero : 24 + (if requested = 0 then 1 else requested) * telemetryRecordSize = 0
  · exact .inl (by rw [zero, UInt64.toNat_zero])
  · simp only [createChannel, regionCreate, sampleMapper, if_neg zero] at returns
    obtain ⟨segment, -, made⟩ := Option.bind_eq_some_iff.mp returns
    cases made
    exact .inr ⟨_, rfl, rfl⟩

theorem creation_exact_iff (ring : RingClass) (requested : UInt64) :
    ring.CreatesExactly requested ↔ ring.extent requested.toNat < 2 ^ 64 ∨
      ring.capacityFor requested.toNat < 2 ^ 64 ∧ ring.extent requested.toNat % 2 ^ 64 = 0 := by
  constructor
  · intro exactly
    obtain ⟨result, returns, exact⟩ := exactly sampleMapper 65 sampleMapper_honest (Nat.le_refl 65)
    have asks : ring.capacityFor requested.toNat < 2 ^ 64 ∧ (ring.extent requested.toNat % 2 ^ 64 = 0 ∨
        ∃ created, result = some created ∧ created.totalSize.toNat = ring.extent requested.toNat % 2 ^ 64) := by
      cases ring with
      | shmRing | spmcRing => exact createRing_asks returns
      | telemetryChannel =>
        exact ⟨max_lt (by decide) requested.toNat_lt, createChannel_asks returns⟩
    obtain ⟨word, nothing | ⟨created, made, asked⟩⟩ := asks
    · exact .inr ⟨word, nothing⟩
    · rw [(exact created made).totalSize] at asked
      exact .inl (asked ▸ Nat.mod_lt _ (Nat.two_pow_pos 64))
  · rintro (fits | ⟨word, nothing⟩)
    · exact createsExactly_of_lt fits
    · intro mapper fuel _ enough
      refine ⟨none, ?_, nofun⟩
      cases ring with
      | shmRing | spmcRing => exact createRing_refused _ mapper enough word nothing
      | telemetryChannel =>
        have zero : 24 + (if requested = 0 then 1 else requested) * telemetryRecordSize = 0 := by
          apply UInt64.toNat_inj.mp
          rw [toNat_extent_mod, channelCapacity_toNat]
          exact nothing
        simp only [RingClass.create, createChannel, regionCreate, zero, ↓reduceIte]
        rfl

def record16 : RecordType := ⟨16, by decide, 11, []⟩

/-- One more slot than `2 ^ 63` and the rounding loop never ends; with `2 ^ 60` records of
16 bytes the ring is created in a segment of its header alone. -/
theorem creation_not_exact : (∀ fuel, (RingClass.shmRing .line64 record16).create sampleMapper fuel
      0x8000000000000001 = none) ∧
    ∃ created, (RingClass.shmRing .line64 record16).create sampleMapper 65 0x1000000000000000 = some (some created) ∧
      created.capacity.toNat = 2 ^ 60 ∧ created.totalSize.toNat = 256 := by
  constructor
  · intro fuel
    have large : 2 ^ 63 < max 2 (0x8000000000000001 : UInt64).toNat := by decide
    change createRing .spsc (ringHeaderSize .line64) record16 sampleMapper fuel _ = none
    rw [createRing, request_toNat, roundUpFrom_eq_none large]
    rfl
  · have rounded : RingBuffer.roundUpFrom (2 ^ 60) 65 1 = some (2 ^ 60) := by decide
    have room : (Descriptor.layout.bytes (descriptorFor .spsc record16 (UInt64.ofNat (2 ^ 60))) ++
        List.replicate ((ringHeaderSize .line64).toNat - 128) 0).length ≤
          (Segment.ofBytes 4096 256 []).size.toNat := by
      rw [List.length_append, Layout.length_bytes, List.length_replicate]
      decide
    obtain ⟨segment, constructed, -, -⟩ := exists_construct room
    have request : max 2 (0x1000000000000000 : UInt64).toNat = 2 ^ 60 := by decide
    have capacity : (UInt64.ofNat (2 ^ 60)).toNat = 2 ^ 60 := by decide
    refine ⟨⟨UInt64.ofNat (2 ^ 60), 256, segment⟩, ?_, capacity, rfl⟩
    change createRing .spsc (ringHeaderSize .line64) record16 sampleMapper 65 _ = _
    rw [createRing, request_toNat, request, rounded]
    have mapped : regionCreate sampleMapper (ringHeaderSize .line64 + UInt64.ofNat (2 ^ 60) * record16.size) =
          some (Segment.ofBytes 4096 256 []) := rfl
    simp only [Option.bind_some, mapped, constructed, Option.bind_eq_bind]
    rfl

end AnimusCore.SharedMemory

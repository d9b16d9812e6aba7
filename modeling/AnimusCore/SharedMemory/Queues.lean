import AnimusCore.SharedMemory.Mpmc

/-! `BroadcastRing` and `SpscQueue` over a segment: `init` as the stores it makes, `attach`
as the words it loads, and the creation of both through the C interface. -/

set_option autoImplicit false

namespace AnimusCore.SharedMemory

open Lib

/-- The two rings have one descriptor and differ in their magic and their cursors. -/
inductive QueueRing where
  | broadcastRing
  | spscQueue

namespace QueueRing

def magic : QueueRing → UInt64
  | broadcastRing => 0x42524F4144434153
  | spscQueue => 0x5350534351554555

section
variable (line : CacheLine)

def headerSize : QueueRing → UInt64
  | broadcastRing => broadcastHeaderSize line
  | spscQueue => spscQueueHeaderSize line

/-- `cursor`, or `head` and `tail`. -/
def cursors : QueueRing → List Nat
  | broadcastRing => [line.bytes.toNat]
  | spscQueue => [line.bytes.toNat, 2 * line.bytes.toNat]

def body (type : RecordType) (capacity : UInt64) (ring : QueueRing) : List Store :=
  Store.zeros 0 (ring.headerSize line).toNat ++
    [.word 0 0, .word 8 0, .word 16 0, .word 24 0] ++ (ring.cursors line).map (.word · 0) ++
    [.word 8 capacity, .word 16 (capacity - 1), .word 24 type.size]

def stores (type : RecordType) (capacity : UInt64) (ring : QueueRing) : List Store :=
  ring.body line type capacity ++ [.word 0 ring.magic]

/-- `some none` is the result false. -/
def init (type : RecordType) (segment : Segment) (capacity : UInt64) (ring : QueueRing) : Option (Option Segment) :=
  if segment.address = 0 ∨ isPow2 capacity = false ∨ segment.address % line.bytes ≠ 0 ∨
      segment.size < requiredBytes (ring.headerSize line) type capacity then some none
  else (segment.storeAll? (ring.stores line type capacity)).map some

/-- The capacity is loaded wherever the condition mentions it. -/
def attachLoads (type : RecordType) (address size : UInt64) (ring : QueueRing) : Loads View :=
  .check (address ≠ 0 ∧ address % line.bytes = 0 ∧ ring.headerSize line ≤ size) <|
  .require 0 (· == ring.magic) fun _ =>
  .require 24 (· == type.size) fun _ =>
  .require 8 isPow2 fun _ =>
  .load 16 fun mask =>
  .require 8 (mask == · - 1) fun _ =>
  .require 8 (requiredBytes (ring.headerSize line) type · ≤ size) fun capacity =>
  .done (some { headerSize := ring.headerSize line, capacity, mask, stride := type.size })

end

/-- The doubling loop; `none` while it has not ended. -/
def doubleCapacity (requested maxCapacity : UInt64) : Nat → UInt64 → Option (Option UInt64)
  | 0, _ => none
  | fuel + 1, capacity =>
    if capacity < requested then
      if maxCapacity / 2 < capacity then some none
      else doubleCapacity requested maxCapacity fuel (capacity <<< 1)
    else some (some capacity)

def build (line : CacheLine) (type : RecordType) (mapper : Mapper) (capacity : UInt64)
    (ring : QueueRing) : Option (Option Created) :=
  let totalSize := requiredBytes (ring.headerSize line) type capacity
  match regionCreate mapper totalSize with
  | none => some none
  | some region =>
    (ring.init line type region capacity).map fun initialised =>
      initialised.map fun segment => { capacity, totalSize, segment }

/-- `named` is whether a name is given. -/
def shmRingCreate (line : CacheLine) (type : RecordType) (named : Bool) (mapper : Mapper)
    (fuel : Nat) (requestedCapacity : UInt64) (ring : QueueRing) : Option (Option Created) :=
  if named then
    let maxCapacity := (0xFFFFFFFFFFFFFFFF - requiredBytes (ring.headerSize line) type 0) / type.size
    (doubleCapacity requestedCapacity maxCapacity fuel 2).bind fun chosen =>
      match chosen with
      | none => some none
      | some capacity => ring.build line type mapper capacity
  else some none

end QueueRing

theorem QueueDescriptor.read_eq_some_iff (memory : Memory) (header : QueueDescriptor) :
    QueueDescriptor.layout.read memory 0 = some header ↔
      memory.word 0 = some header.magic ∧ memory.word 8 = some header.capacity ∧
      memory.word 16 = some header.mask ∧ memory.word 24 = some header.payloadSize := by
  rw [QueueDescriptor.layout, Layout.read_map_eq_some_iff]
  simp only [Layout.read_pair_eq_some_iff]
  exact Iff.rfl

namespace QueueRing

/-- Over an image that stays as it is, this is the `attach` of the whole header. -/
theorem run_attachLoads (line : CacheLine) (type : RecordType) (segment : Segment) (ring : QueueRing) (view : View) :
    (ring.attachLoads line type segment.address segment.size).run segment.image = some (some view) ↔
      attachQueue ring.magic (ring.headerSize line) line type segment = some view := by
  by_cases placed : segment.address ≠ 0 ∧ segment.address % line.bytes = 0 ∧ ring.headerSize line ≤ segment.size
  · have header : 32 ≤ (ring.headerSize line).toNat := by cases ring <;> cases line <;> decide
    have bound := UInt64.le_iff_toNat_le.mp placed.2.2
    obtain ⟨found, held⟩ := QueueDescriptor.layout.exists_bytes segment.mapped
      (show 0 + 32 ≤ segment.size.toNat by omega)
    have read := QueueDescriptor.layout.read_bytes held
    obtain ⟨magic, capacity, mask, payload⟩ := (QueueDescriptor.read_eq_some_iff _ _).mp read
    simp [attachLoads, attachQueue, Loads.run_check, Loads.run_require, Loads.run_load, Loads.run_done,
      Option.bind_eq_some_iff, and_assoc, *]
  · simp [attachLoads, attachQueue, Loads.run_check, placed]

structure Described (type : RecordType) (capacity : UInt64) (ring : QueueRing) (memory : Memory) : Prop where
  mask : memory.word 16 = some (capacity - 1)
  capacity : memory.word 8 = some capacity
  payloadSize : memory.word 24 = some type.size
  magic : memory.word 0 = some ring.magic

section
variable {line : CacheLine} {type : RecordType} {capacity : UInt64} {ring : QueueRing} {memory : Memory}

theorem Described.congr (described : Described type capacity ring memory) {other : Memory}
    (same : ∀ pos < 32, other pos = memory pos) : Described type capacity ring other := by
  constructor
  all_goals rw [Memory.word_congr_below same (by decide)]
  · exact described.mask
  · exact described.capacity
  · exact described.payloadSize
  · exact described.magic

theorem described (memory : Memory) :
    Described type capacity ring (memory.storeAll (ring.stores line type capacity)) := by
  rw [stores, body, List.append_assoc, Memory.storeAll_append]
  have apart : Store.NoOverlap ([.word 8 capacity, .word 16 (capacity - 1), .word 24 type.size] ++
      [.word 0 ring.magic]) := by
    simp [Store.NoOverlap, Store.Apart]
  constructor
  all_goals
    apply Memory.storeAll_word apart
    simp

private theorem headerSize_eq (line : CacheLine) (ring : QueueRing) :
    2 * line.bytes.toNat ≤ (ring.headerSize line).toNat ∧ (ring.headerSize line).toNat ≤ 384 ∧
      ∀ cursor ∈ ring.cursors line, 32 ≤ cursor ∧ cursor + 8 ≤ (ring.headerSize line).toNat := by
  cases line <;> cases ring <;> decide

private theorem stores_le : ∀ entry ∈ ring.stores line type capacity,
    entry.offset + entry.bytes.length ≤ (ring.headerSize line).toNat := by
  have cacheLine : 64 ≤ line.bytes.toNat := by cases line <;> decide
  obtain ⟨header, -, cursors⟩ := ring.headerSize_eq line
  simp only [stores, body, List.forall_mem_append, List.forall_mem_cons, List.not_mem_nil, IsEmpty.forall_iff,
    implies_true, and_true, List.forall_mem_map, Store.word_offset, Store.length_word]
  refine ⟨⟨⟨⟨Store.zeros_le (by omega), ?_⟩, fun cursor listed => (cursors cursor listed).2⟩, ?_⟩, ?_⟩ <;> omega

/-- What a successful `init` has checked and done. -/
theorem of_init {segment fresh : Segment} (initialised : ring.init line type segment capacity = some (some fresh)) :
    isPow2 capacity = true ∧ requiredBytes (ring.headerSize line) type capacity ≤ segment.size ∧
      (ring.headerSize line).toNat ≤ segment.size.toNat ∧ fresh.size = segment.size ∧
      fresh.image = segment.image.storeAll (ring.stores line type capacity) := by
  unfold QueueRing.init at initialised
  split at initialised
  case isTrue => cases initialised
  case isFalse accepted =>
    simp only [not_or, Bool.not_eq_false, UInt64.not_lt] at accepted
    obtain ⟨-, pow2, -, room⟩ := accepted
    unfold Segment.storeAll? at initialised
    split at initialised
    case isFalse => cases initialised
    case isTrue inside =>
      cases initialised
      refine ⟨pow2, room, ?_, rfl, rfl⟩
      -- the last of the zeroed bytes is inside the segment
      have positive : 0 < (ring.headerSize line).toNat := by cases line <;> cases ring <;> decide
      have last : (⟨0 + ((ring.headerSize line).toNat - 1), [0]⟩ : Store) ∈ ring.stores line type capacity := by
        simp only [stores, body, List.append_assoc]
        exact List.mem_append_left _ (List.mem_map.mpr ⟨_, List.mem_range.mpr (Nat.sub_lt positive Nat.one_pos), rfl⟩)
      have covered := inside _ last
      change 0 + ((ring.headerSize line).toNat - 1) + 1 ≤ segment.size.toNat at covered
      omega

theorem exists_init {segment : Segment} (placed : segment.address ≠ 0)
    (pow2 : isPow2 capacity = true) (aligned : segment.address % line.bytes = 0)
    (room : requiredBytes (ring.headerSize line) type capacity ≤ segment.size)
    (header : (ring.headerSize line).toNat ≤ segment.size.toNat) :
    ∃ fresh, ring.init line type segment capacity = some (some fresh) := by
  obtain ⟨fresh, stored, -, -⟩ := @exists_storeAll? segment (ring.stores line type capacity)
    fun entry inside => Nat.le_trans (stores_le _ inside) header
  refine ⟨fresh, ?_⟩
  rw [init, if_neg (by simp [placed, pow2, aligned, UInt64.not_lt.mpr room]), stored]
  rfl

private theorem toNat_doubled {exponent : Nat} {capacity : UInt64} (power : capacity.toNat = 2 ^ exponent)
    (small : exponent < 63) : (capacity <<< 1).toNat = 2 ^ (exponent + 1) := by
  have below : 2 ^ (exponent + 1) < 2 ^ 64 := Nat.pow_lt_pow_right (by decide) (by omega)
  rw [UInt64.toNat_shiftLeft, power, Nat.shiftLeft_eq]
  change 2 ^ exponent * 2 ^ 1 % 2 ^ 64 = _
  rw [← Nat.pow_add, Nat.mod_eq_of_lt below]

/-- The loop ends at the least power of two that covers the request, or refuses it. -/
theorem doubleCapacity_exact (requested maxCapacity : UInt64) {fuel exponent : Nat}
    {start : UInt64} (power : start.toNat = 2 ^ exponent) (positive : 1 ≤ exponent)
    (low : exponent ≤ Nat.clog 2 (max 2 requested.toNat)) (small : exponent ≤ 63)
    (guarded : start = 2 ∨ start ≤ maxCapacity) (enough : 63 < exponent + fuel) :
    ∃ chosen, doubleCapacity requested maxCapacity fuel start = some chosen ∧
      ∀ capacity, chosen = some capacity → capacity.toNat = 2 ^ Nat.clog 2 (max 2 requested.toNat) ∧
        (capacity = 2 ∨ capacity ≤ maxCapacity) := by
  induction fuel generalizing exponent start with
  | zero => omega
  | succ fuel ih =>
    rw [doubleCapacity]
    split
    case isTrue less =>
      have more : exponent < Nat.clog 2 (max 2 requested.toNat) := by
        apply (Nat.lt_clog_iff_pow_lt (by decide)).mpr
        rw [← power]
        exact Nat.lt_of_lt_of_le (UInt64.lt_iff_toNat_lt.mp less) (Nat.le_max_right ..)
      split
      case isTrue => exact ⟨none, rfl, nofun⟩
      case isFalse within =>
        have halved := UInt64.le_iff_toNat_le.mp (UInt64.not_lt.mp within)
        rw [UInt64.toNat_div, power] at halved
        have doubled : 2 ^ (exponent + 1) ≤ maxCapacity.toNat := by
          change 2 ^ exponent ≤ maxCapacity.toNat / 2 at halved
          omega
        have fits : 2 ^ (exponent + 1) < 2 ^ 64 := Nat.lt_of_le_of_lt doubled maxCapacity.toNat_lt
        have below := (Nat.pow_lt_pow_iff_right (by decide)).mp fits
        have next := toNat_doubled power (by omega)
        refine ih next (by omega) more (by omega) (.inr ?_) (by omega)
        rwa [UInt64.le_iff_toNat_le, next]
    case isFalse reached =>
      have covers : max 2 requested.toNat ≤ 2 ^ exponent := by
        have two : 2 ^ 1 ≤ 2 ^ exponent := Nat.pow_le_pow_right (by decide) positive
        have request := UInt64.le_iff_toNat_le.mp (UInt64.not_lt.mp reached)
        rw [power] at request
        exact Nat.max_le.mpr ⟨two, request⟩
      have same := Nat.le_antisymm low (Nat.clog_le_of_le_pow covers)
      refine ⟨some start, rfl, fun capacity chosen => ?_⟩
      cases chosen
      exact ⟨by rw [power, same], guarded⟩

private theorem build_exact {mapper : Mapper} (honest : ∀ size segment, mapper size = some segment → size ≤ segment.size)
    (fits : (ring.headerSize line).toNat + capacity.toNat * type.size.toNat < 2 ^ 64) :
    ∃ result, ring.build line type mapper capacity = some result ∧
      ∀ created, result = some created → created.capacity = capacity ∧ created.totalSize.toNat =
          (ring.headerSize line).toNat + capacity.toNat * type.size.toNat := by
  rw [build]
  cases mapped : regionCreate mapper (requiredBytes (ring.headerSize line) type capacity) with
  | none => exact ⟨none, rfl, nofun⟩
  | some region =>
    have total := UInt64.le_iff_toNat_le.mp (le_of_regionCreate honest mapped)
    rw [requiredBytes, toNat_extent fits] at total
    have inside : ∀ entry ∈ ring.stores line type capacity,
        entry.offset + entry.bytes.length ≤ region.size.toNat := fun entry listed =>
      Nat.le_trans (stores_le _ listed) (by omega)
    obtain ⟨segment, stored, -, -⟩ := exists_storeAll? inside
    dsimp only
    rw [init]
    split
    case isTrue => exact ⟨none, rfl, nofun⟩
    case isFalse =>
      rw [stored]
      refine ⟨_, rfl, fun created made => ?_⟩
      cases made
      exact ⟨rfl, toNat_extent fits⟩

private theorem shmRingCreate_exact {named : Bool} {mapper : Mapper} {requested : UInt64} {fuel : Nat}
    (small : type.size.toNat < 2 ^ 32) (honest : ∀ size segment, mapper size = some segment → size ≤ segment.size)
    (enough : 65 ≤ fuel) : ∃ result, ring.shmRingCreate line type named mapper fuel requested = some result ∧
      ∀ created, result = some created →
        created.Guarded (ring.headerSize line).toNat type.size.toNat requested.toNat := by
  rw [shmRingCreate]
  by_cases given : named = true
  · rw [if_pos given]
    obtain ⟨-, bounded, -⟩ := ring.headerSize_eq line
    have header : requiredBytes (ring.headerSize line) type 0 = ring.headerSize line := by
      rw [requiredBytes, UInt64.zero_mul, UInt64.add_zero]
    have wide : ring.headerSize line ≤ 0xFFFFFFFFFFFFFFFF := by
      exact Nat.le_trans bounded (by decide)
    dsimp only
    rw [header]
    obtain ⟨chosen, ended, exact⟩ := doubleCapacity_exact requested
      ((0xFFFFFFFFFFFFFFFF - ring.headerSize line) / type.size)
      (show (2 : UInt64).toNat = 2 ^ 1 from rfl) (Nat.le_refl 1) (one_le_clog _) (by decide)
      (.inl rfl) (show 63 < 1 + fuel by omega)
    rw [ended, Option.bind_some]
    cases chosen with
    | none => exact ⟨none, rfl, nofun⟩
    | some capacity =>
      obtain ⟨power, guarded⟩ := exact capacity rfl
      have fits : (ring.headerSize line).toNat + capacity.toNat * type.size.toNat < 2 ^ 64 := by
        rcases guarded with rfl | within
        · change _ + 2 * type.size.toNat < 2 ^ 64
          omega
        · have extent := extent_le_of_le_div wide within
          rw [show (0xFFFFFFFFFFFFFFFF : UInt64).toNat = 2 ^ 64 - 1 from rfl] at extent
          omega
      obtain ⟨result, returns, built⟩ := build_exact honest fits
      refine ⟨result, returns, fun created made => ?_⟩
      obtain ⟨rfl, totalSize⟩ := built created made
      refine ⟨?_, totalSize⟩
      rw [power]
      exact isLeast_two_pow_clog _
  · rw [if_neg given]
    exact ⟨none, rfl, nofun⟩

end

end QueueRing

/-- For every system that maps at least what it is asked for. -/
theorem guarded_geometry_exact (line : CacheLine) (type : CellType) (small : type.size.toNat < 2 ^ 32) :
    (∀ mapper : Mapper, (∀ size segment, mapper size = some segment → size ≤ segment.size) →
      ∀ (requested : UInt64) (fuel : Nat), 65 ≤ fuel →
        (∃ result, createMpmcRing line type mapper fuel requested = some result ∧ ∀ created, result = some created →
            created.Guarded (mpmcRingHeaderSize line).toNat (type.cellBytes line) requested.toNat ∧
            created.Accepted line type) ∧ ∀ (ring : QueueRing) (named : Bool), ∃ result,
          ring.shmRingCreate line type.toRecordType named mapper fuel requested = some result ∧
          ∀ created, result = some created →
            created.Guarded (ring.headerSize line).toNat type.size.toNat requested.toNat) ∧
    ∀ segment view, openMpmcRing line type segment = some (some view) → view.InBounds segment := by
  constructor
  · intro mapper honest requested fuel enough
    exact ⟨createMpmcRing_exact small honest enough,
      fun ring named => QueueRing.shmRingCreate_exact small honest enough⟩
  · intro segment view opened
    obtain ⟨checked, extent⟩ := checked_of_openMpmcRing opened
    exact checked.inBounds_iff.mpr extent

def sampleCell : CellType := ⟨sampleType, 3, by decide⟩

theorem guarded_geometry_exact_five : ∃ result, createMpmcRing .line64 sampleCell sampleMapper 65 5 = some result ∧
      ∀ created, result = some created →
        created.Guarded (mpmcRingHeaderSize .line64).toNat (sampleCell.cellBytes .line64)
          (5 : UInt64).toNat ∧ created.Accepted .line64 sampleCell :=
  ((guarded_geometry_exact .line64 sampleCell (by decide)).1 sampleMapper sampleMapper_honest 5 65 (by decide)).1

end AnimusCore.SharedMemory

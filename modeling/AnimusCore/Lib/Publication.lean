import AnimusCore.Lib.Layout
import AnimusCore.Lib.Transition
import Mathlib.Logic.Function.Basic

/-! A memory that a creator fills store by store while readers load words from it. Where
the last store is a marker that no earlier store writes and every reader begins by loading
it, a reader that goes on has the whole of the creator's work before it. -/

set_option autoImplicit false

namespace AnimusCore.Lib

open Function List

structure Store where
  offset : Nat
  bytes : List UInt8

/-- The store leaves the bytes of the range as they are. -/
def Store.Apart (store : Store) (offset width : Nat) : Prop :=
  store.offset + store.bytes.length ≤ offset ∨ offset + width ≤ store.offset

def Store.NoOverlap (stores : List Store) : Prop :=
  stores.Pairwise fun first second => second.Apart first.offset first.bytes.length

/-- The store leaves a zeroed range zeroed. -/
def Store.Quiet (store : Store) (offset width : Nat) : Prop :=
  store.Apart offset width ∨ ∀ byte ∈ store.bytes, byte = 0

def Store.word (offset : Nat) (value : UInt64) : Store := ⟨offset, Layout.u64.bytes value⟩

def Store.zeros (offset width : Nat) : List Store :=
  (List.range width).map fun index => ⟨offset + index, [0]⟩

@[simp] theorem Store.word_offset (offset : Nat) (value : UInt64) : (Store.word offset value).offset = offset := rfl

@[simp] theorem Store.length_word (offset : Nat) (value : UInt64) :
    (Store.word offset value).bytes.length = 8 := Layout.u64.length_bytes value

theorem Store.quiet_word_zero (pos offset width : Nat) : (Store.word pos 0).Quiet offset width := by
  refine .inr fun byte inside => ?_
  have zeros : Layout.u64.bytes 0 = List.replicate 8 0 := by decide
  change byte ∈ Layout.u64.bytes 0 at inside
  rw [zeros] at inside
  exact eq_of_mem_replicate inside

theorem Store.zeros_le {start count bound : Nat} (fits : start + count ≤ bound) :
    ∀ store ∈ Store.zeros start count, store.offset + store.bytes.length ≤ bound := by
  refine forall_mem_map.mpr fun index listed => Nat.le_trans ?_ fits
  exact Nat.add_le_add_left (mem_range.mp listed) start

theorem Store.quiet_zeros {start count offset width : Nat} :
    ∀ store ∈ Store.zeros start count, store.Quiet offset width :=
  forall_mem_map.mpr fun _ _ => .inr fun _ single => mem_singleton.mp single

namespace Memory

def store (memory : Memory) (store : Store) : Memory := fun position =>
  (if store.offset ≤ position then store.bytes[position - store.offset]? else none).or (memory position)

/-- Outside the mapping a store is undefined. -/
def store? (memory : Memory) (store : Store) : Option Memory :=
  if (memory.read store.offset store.bytes.length).isSome then some (memory.store store) else none

def storeAll (memory : Memory) (stores : List Store) : Memory := stores.foldl Memory.store memory

def word (memory : Memory) (offset : Nat) : Option UInt64 := Layout.u64.read memory offset

section
variable {memory : Memory} {entry : Store} {offset width : Nat} {bytes : List UInt8}

variable {pos : Nat}

theorem store_of_apart (apart : entry.offset + entry.bytes.length ≤ pos ∨ pos < entry.offset) :
    memory.store entry pos = memory pos := by
  rw [Memory.store]
  split
  case isTrue after =>
    have outside : entry.bytes.length ≤ pos - entry.offset := by omega
    rw [List.getElem?_eq_none outside, Option.none_or]
  case isFalse => rw [Option.none_or]

theorem store_congr {other : Memory} (same : memory pos = other pos) (entry : Store) :
    memory.store entry pos = other.store entry pos := by
  rw [store, store, same]

theorem store_holds (memory : Memory) (entry : Store) : (memory.store entry).Holds entry.offset entry.bytes := by
  have whole := ofBytes_holds (List.replicate entry.offset 0) entry.bytes []
  rw [length_replicate, append_nil] at whole
  refine whole.congr fun pos after before => ?_
  have inside : pos - entry.offset < entry.bytes.length := by omega
  rw [Memory.store, if_pos after, List.getElem?_eq_getElem inside, Option.some_or, ofBytes,
    List.getElem?_append_right (by rwa [length_replicate]), length_replicate,
    List.getElem?_eq_getElem inside]

theorem Holds.store (held : memory.Holds offset bytes) (apart : entry.Apart offset bytes.length) :
    (memory.store entry).Holds offset bytes :=
  held.congr fun pos after before => store_of_apart (by rcases apart with h | h <;> omega)

variable {bound : Nat}

theorem Readable.store (readable : memory.Readable bound) (entry : Store) : (memory.store entry).Readable bound := by
  intro pos inside
  rw [Memory.store, Option.isSome_or, readable pos inside, Bool.or_true]

theorem store?_eq_some (readable : memory.Readable bound) (inside : entry.offset + entry.bytes.length ≤ bound) :
    memory.store? entry = some (memory.store entry) := by
  obtain ⟨bytes, read⟩ := readable.exists_read inside
  rw [store?, read, if_pos Option.isSome_some]

theorem store_of_store? {next : Memory} (stored : memory.store? entry = some next) : next = memory.store entry := by
  unfold store? at stored
  split at stored
  case isTrue => exact (Option.some.inj stored).symm
  case isFalse => cases stored

@[simp] theorem storeAll_nil : memory.storeAll [] = memory := rfl

@[simp] theorem storeAll_cons (memory : Memory) (entry : Store) (rest : List Store) :
    memory.storeAll (entry :: rest) = (memory.store entry).storeAll rest := rfl

theorem storeAll_append (memory : Memory) (front back : List Store) :
    memory.storeAll (front ++ back) = (memory.storeAll front).storeAll back :=
  foldl_append

theorem storeAll_concat (memory : Memory) (front : List Store) (entry : Store) :
    memory.storeAll (front ++ [entry]) = (memory.storeAll front).store entry :=
  storeAll_append memory front [entry]

variable {stores : List Store}

theorem Holds.storeAll (held : memory.Holds offset bytes)
    (apart : ∀ entry ∈ stores, entry.Apart offset bytes.length) : (memory.storeAll stores).Holds offset bytes := by
  induction stores generalizing memory with
  | nil => exact held
  | cons entry rest ih =>
    exact ih (held.store (apart entry (mem_cons_self ..)))
      fun later inside => apart later (mem_cons_of_mem entry inside)

theorem storeAll_of_apart (apart : ∀ entry ∈ stores, entry.Apart pos 1) :
    memory.storeAll stores pos = memory pos := by
  induction stores generalizing memory with
  | nil => rfl
  | cons entry rest ih =>
    have kept : memory.store entry pos = memory pos := store_of_apart (apart entry (mem_cons_self ..))
    rw [storeAll_cons, ih fun later inside => apart later (mem_cons_of_mem entry inside), kept]

theorem Readable.storeAll (readable : memory.Readable bound) (stores : List Store) :
    (memory.storeAll stores).Readable bound := by
  induction stores generalizing memory with
  | nil => exact readable
  | cons entry rest ih => exact ih (readable.store entry)

/-- Of stores that do not overlap each one is kept. -/
theorem storeAll_holds (apart : Store.NoOverlap stores) (inside : entry ∈ stores) :
    (memory.storeAll stores).Holds entry.offset entry.bytes := by
  induction stores generalizing memory with
  | nil => cases inside
  | cons first rest ih =>
    obtain ⟨fromFirst, later⟩ := pairwise_cons.mp apart
    rcases mem_cons.mp inside with rfl | listed
    · exact (store_holds memory entry).storeAll fromFirst
    · exact ih later listed

def Clear (memory : Memory) (offset width : Nat) : Prop :=
  ∀ position, offset ≤ position → position < offset + width → memory position = some 0

section
variable (clear : memory.Clear offset width)
include clear

theorem Clear.store (quiet : entry.Quiet offset width) : (memory.store entry).Clear offset width := by
  intro pos after before
  have zero := clear pos after before
  rcases quiet with apart | zeros
  · rw [store_of_apart (by rcases apart with h | h <;> omega), zero]
  · rw [Memory.store, zero]
    split
    case isFalse => rfl
    case isTrue =>
      cases found : entry.bytes[pos - entry.offset]? with
      | none => rfl
      | some byte => rw [zeros byte (mem_of_getElem? found)]; rfl

theorem Clear.storeAll {stores : List Store} (quiet : ∀ entry ∈ stores, entry.Quiet offset width) :
    (memory.storeAll stores).Clear offset width := by
  induction stores generalizing memory with
  | nil => exact clear
  | cons entry rest ih =>
    exact ih (clear.store (quiet entry (mem_cons_self ..)))
      fun later inside => quiet later (mem_cons_of_mem entry inside)

theorem Clear.holds : memory.Holds offset (List.replicate width 0) := by
  induction width generalizing offset with
  | zero => exact holds_nil
  | succ width ih =>
    rw [replicate_succ, holds_cons]
    exact ⟨clear offset (Nat.le_refl _) (by omega),
      ih fun pos after before => clear pos (by omega) (by omega)⟩

end

theorem zeroed_clear {size : Nat} (inside : offset + width ≤ size) : (zeroed size).Clear offset width := by
  intro pos _ before
  rw [zeroed, if_pos (by omega)]

variable {value : UInt64}

theorem word_of_holds (held : memory.Holds offset (Layout.u64.bytes value)) :
    memory.word offset = some value := Layout.u64.read_bytes held

theorem readLE_of_word (found : memory.word offset = some value) : memory.readLE offset 8 = some value.toNat := by
  obtain ⟨bytes, read, same⟩ := Option.bind_eq_some_iff.mp found
  split at same
  case isFalse => cases same
  case isTrue fits =>
    cases same
    rw [readLE, read, Option.map_some]
    exact congrArg some (UInt64.toNat_ofNat_of_lt' fits).symm

theorem storeAll_word (apart : Store.NoOverlap stores) (inside : Store.word offset value ∈ stores) :
    (memory.storeAll stores).word offset = some value :=
  word_of_holds (storeAll_holds apart inside)

theorem Clear.word (clear : memory.Clear offset 8) : memory.word offset = some 0 := by
  apply word_of_holds
  exact clear.holds

theorem word_congr {other : Memory} (same : ∀ pos, offset ≤ pos → pos < offset + 8 →
      other pos = memory pos) : other.word offset = memory.word offset := by
  change ((other.read offset 8).bind _) = ((memory.read offset 8).bind _)
  rw [read_congr same]

theorem word_congr_below {other : Memory} {bound : Nat}
    (same : ∀ pos < bound, other pos = memory pos) (inside : offset + 8 ≤ bound) :
    other.word offset = memory.word offset :=
  word_congr fun pos _ before => same pos (by omega)

end

end Memory

/-- What a reader still has to load before it knows its result; `none` is a refusal. -/
inductive Loads (α : Type) where
  | done (result : Option α)
  | load (offset : Nat) (next : UInt64 → Loads α)

namespace Loads

variable {α : Type}

/-- Load a word and refuse unless it is acceptable. -/
def require (offset : Nat) (accept : UInt64 → Bool) (next : UInt64 → Loads α) : Loads α :=
  .load offset fun word => if accept word then next word else .done none

def check (condition : Bool) (next : Loads α) : Loads α :=
  if condition then next else .done none

/-- The result over a memory that stays as it is; `none` outside the mapping. -/
def run (memory : Memory) : Loads α → Option (Option α)
  | .done result => some result
  | .load offset next => (memory.word offset).bind fun word => (next word).run memory

def map {β : Type} (view : α → β) : Loads α → Loads β
  | .done result => .done (result.map view)
  | .load offset next => .load offset fun word => (next word).map view

/-- Whatever words the loads give among those seen, a result is a good one. -/
def Always (sees : Nat → UInt64 → Prop) (good : α → Prop) : Loads α → Prop
  | .done none => True
  | .done (some result) => good result
  | .load offset next => ∀ word, sees offset word → (next word).Always sees good

/-- The words that are known are enough for the loads to end in the result. -/
def Finds (known : Nat → Option UInt64) (result : α) : Loads α → Prop
  | .done found => found = some result
  | .load offset next => ∃ word, known offset = some word ∧ (next word).Finds known result

def Within (bound : Nat) : Loads α → Prop
  | .done _ => True
  | .load offset next => offset + 8 ≤ bound ∧ ∀ word, (next word).Within bound

variable {memory : Memory} {offset : Nat} {accept : UInt64 → Bool} {condition : Bool}
  {sees : Nat → UInt64 → Prop} {good : α → Prop} {result : α}

variable {next : UInt64 → Loads α}

theorem run_load : (load offset next).run memory = some (some result) ↔
      ∃ word, memory.word offset = some word ∧ (next word).run memory = some (some result) := by
  rw [run, Option.bind_eq_some_iff]

theorem run_require : (require offset accept next).run memory = some (some result) ↔
      ∃ word, memory.word offset = some word ∧ accept word = true ∧ (next word).run memory = some (some result) := by
  rw [require, run, Option.bind_eq_some_iff]
  refine exists_congr fun word => and_congr_right fun _ => ?_
  by_cases accepted : accept word = true <;> simp [accepted, run]

theorem run_check {next : Loads α} : (check condition next).run memory = some (some result) ↔
    condition = true ∧ next.run memory = some (some result) := by
  by_cases holds : condition = true <;> simp [check, holds, run]

theorem run_done {found : Option α} :
    (done found : Loads α).run memory = some (some result) ↔ found = some result := by
  rw [run, Option.some_inj]

section
variable {bound : Nat}

theorem within_require (inside : offset + 8 ≤ bound) (rest : ∀ word, (next word).Within bound) :
    (require offset accept next).Within bound := by
  refine ⟨inside, fun word => ?_⟩
  dsimp only
  split
  case isTrue => exact rest word
  case isFalse => trivial

theorem within_check {next : Loads α} (rest : condition = true → next.Within bound) :
    (check condition next).Within bound := by
  unfold check
  split
  case isTrue holds => exact rest holds
  case isFalse => trivial

theorem Within.exists_run {program : Loads α} (within : program.Within bound)
    (readable : memory.Readable bound) : ∃ result, program.run memory = some result := by
  induction program with
  | done result => exact ⟨result, rfl⟩
  | load offset next ih =>
    obtain ⟨word, held⟩ := Layout.u64.exists_bytes readable within.1
    rw [run, Memory.word_of_holds held, Option.bind_some]
    exact ih word (within.2 word)

end

theorem always_load : (load offset next).Always sees good ↔
    ∀ word, sees offset word → (next word).Always sees good := Iff.rfl

theorem always_require : (require offset accept next).Always sees good ↔
      ∀ word, sees offset word → accept word = true → (next word).Always sees good := by
  refine forall_congr' fun word => forall_congr' fun _ => ?_
  by_cases accepted : accept word = true <;> simp [accepted, Always]

theorem map_require {β : Type} {view : α → β} : (require offset accept next).map view =
      require offset accept fun word => (next word).map view := by
  simp only [require, map, load.injEq, true_and]
  funext word
  split <;> rfl

theorem map_check {β : Type} {view : α → β} {next : Loads α} :
    (check condition next).map view = check condition (next.map view) := by
  rw [check, check]
  split <;> rfl

theorem always_map {β : Type} {view : α → β} {good : β → Prop} {program : Loads α} :
    (program.map view).Always sees good ↔ program.Always sees fun result => good (view result) := by
  induction program with
  | done result => cases result <;> exact Iff.rfl
  | load offset next ih => exact forall_congr' fun word => imp_congr_right fun _ => ih word

theorem always_check {next : Loads α} : (check condition next).Always sees good ↔
    (condition = true → next.Always sees good) := by
  by_cases holds : condition = true <;> simp [check, holds, Always]

variable {known : Nat → Option UInt64}

theorem Finds.run {program : Loads α} (finds : program.Finds known result)
    (agree : ∀ offset word, known offset = some word → memory.word offset = some word) :
    program.run memory = some (some result) := by
  induction program with
  | done found => rw [Loads.run, finds]
  | load offset next ih =>
    obtain ⟨word, found, rest⟩ := finds
    rw [Loads.run, agree offset word found]
    exact ih word rest

theorem finds_require {word : UInt64} (found : known offset = some word) (accepted : accept word = true)
    (rest : (next word).Finds known result) : (require offset accept next).Finds known result :=
  ⟨word, found, by dsimp only; rwa [if_pos accepted]⟩

theorem finds_check {next : Loads α} (holds : condition = true) (rest : next.Finds known result) :
    (check condition next).Finds known result := by
  rwa [check, if_pos holds]

end Loads

section
variable (Reader α : Type)

/-- `operations` are the stores made through the results, in their order. -/
structure Shared where
  memory : Memory
  pending : List Store
  readers : Reader → Loads α
  operations : List Store := []

/-- `operate none` is the creator's own use, after it has finished. -/
inductive SharedAction where
  | create
  | load (reader : Reader)
  | operate (user : Option Reader) (store : Store)

end

namespace Shared

variable {Reader α : Type}

def MayOperate (state : Shared Reader α) : Option Reader → Prop
  | none => state.pending = []
  | some reader => ∃ result, state.readers reader = .done (some result)

variable [DecidableEq Reader]

/-- One store of the creator, or one load of a reader. -/
def step (state : Shared Reader α) : SharedAction Reader → Option (Shared Reader α)
  | .create =>
    match state.pending with
    | [] => none
    | store :: rest =>
      (state.memory.store? store).map fun memory => { state with memory, pending := rest }
  | .load reader =>
    match state.readers reader with
    | .done _ => none
    | .load offset next =>
      (state.memory.word offset).map fun word =>
        { state with readers := update state.readers reader (next word) }
  | .operate _ store =>
    (state.memory.store? store).map fun memory =>
      { state with memory, operations := state.operations ++ [store] }

/-- Only finished parties operate, and never on the descriptor. -/
def Allowed (descriptor : Nat) (state : Shared Reader α) : SharedAction Reader → Prop
  | .operate user store => state.MayOperate user ∧ descriptor ≤ store.offset
  | _ => True

theorem step_cases {state next : Shared Reader α} {action : SharedAction Reader}
    (ran : state.step action = some next) : (∃ store rest, action = .create ∧ state.pending = store :: rest ∧
      next = { state with memory := state.memory.store store, pending := rest }) ∨
    (∃ reader offset continuation word, action = .load reader ∧
      state.readers reader = .load offset continuation ∧ state.memory.word offset = some word ∧
      next = { state with readers := update state.readers reader (continuation word) }) ∨
    (∃ user store, action = .operate user store ∧
      next = { state with memory := state.memory.store store
                          operations := state.operations ++ [store] }) := by
  cases action with
  | create =>
    simp only [step] at ran
    split at ran
    case h_1 => cases ran
    case h_2 store rest pending =>
      obtain ⟨memory, stored, rfl⟩ := Option.map_eq_some_iff.mp ran
      exact .inl ⟨store, rest, rfl, pending, by rw [Memory.store_of_store? stored]⟩
  | load reader =>
    simp only [step] at ran
    split at ran
    case h_1 => cases ran
    case h_2 offset continuation loading =>
      obtain ⟨word, found, rfl⟩ := Option.map_eq_some_iff.mp ran
      exact .inr (.inl ⟨reader, offset, continuation, word, rfl, loading, found, rfl⟩)
  | operate user store =>
    obtain ⟨memory, stored, rfl⟩ := Option.map_eq_some_iff.mp ran
    exact .inr (.inr ⟨user, store, rfl, by rw [Memory.store_of_store? stored]⟩)

theorem reaches_create {descriptor bound : Nat} {memory : Memory} {done pending : List Store}
    {readers : Reader → Loads α} {operations : List Store} (readable : memory.Readable bound)
    (inside : ∀ entry ∈ done, entry.offset + entry.bytes.length ≤ bound) :
    Reaches step (Allowed descriptor) ⟨memory, done ++ pending, readers, operations⟩
      ⟨memory.storeAll done, pending, readers, operations⟩ := by
  induction done generalizing memory with
  | nil => exact .refl
  | cons entry rest ih =>
    have stored := Memory.store?_eq_some readable (inside entry (mem_cons_self ..))
    have first : step (⟨memory, entry :: rest ++ pending, readers, operations⟩ : Shared Reader α)
        .create = some ⟨memory.store entry, rest ++ pending, readers, operations⟩ := by
      simp only [step, cons_append, stored, Option.map_some]
    exact (Reaches.single trivial first).trans (ih (readable.store entry)
      fun later listed => inside later (mem_cons_of_mem entry listed))

theorem reaches_load {descriptor : Nat} {state : Shared Reader α} {reader : Reader}
    {result : Option α} (found : (state.readers reader).run state.memory = some result) :
    Reaches step (Allowed descriptor) state { state with readers := update state.readers reader (.done result) } := by
  generalize program : state.readers reader = loads at found
  induction loads generalizing state with
  | done ended =>
    cases found
    rw [← program, update_eq_self]
    exact .refl
  | load offset next ih =>
    obtain ⟨word, loaded, continued⟩ := Option.bind_eq_some_iff.mp found
    have first : state.step (.load reader) = some
        { state with readers := update state.readers reader (next word) } := by
      simp only [step, program, loaded, Option.map_some]
    have rest := @ih word { state with
      readers := update state.readers reader (next word) }
      (update_self ..) continued
    simp only [update_idem] at rest
    exact (Reaches.single trivial first).trans rest

end Shared

/-- A creator whose last store is a marker, over a descriptor that operations leave alone. -/
structure Publication where
  initial : Memory
  body : List Store
  marker : Nat
  magic : UInt64
  descriptor : Nat
  clear : initial.Clear marker 8
  quiet : ∀ entry ∈ body, entry.Quiet marker 8

namespace Publication

variable {Reader α : Type} (publication : Publication)

def stores : List Store := publication.body ++ [.word publication.marker publication.magic]

def final : Memory := publication.initial.storeAll publication.stores

/-- What a load of the descriptor can give once the creator has finished. -/
def Sees (offset : Nat) (word : UInt64) : Prop :=
  offset + 8 ≤ publication.descriptor → publication.final.word offset = some word

variable {publication} in
theorem Sees.eq {offset : Nat} {word value : UInt64} (seen : publication.Sees offset word)
    (inside : offset + 8 ≤ publication.descriptor)
    (held : publication.final.word offset = some value) : word = value :=
  Option.some.inj ((seen inside).symm.trans held)

/-- The reader looks at the marker first, refuses zero and finds a good result afterwards. -/
def Respects (good : α → Prop) (program : Loads α) : Prop :=
  program = .done none ∨ ∃ accept next, program = .require publication.marker accept next ∧
    accept 0 = false ∧ ∀ word, publication.Sees publication.marker word → accept word = true →
      (next word).Always publication.Sees good

def start (program : Reader → Loads α) : Shared Reader α where
  memory := publication.initial
  pending := publication.stores
  readers := program

structure Inv (program : Reader → Loads α) (good : Reader → α → Prop) (state : Shared Reader α) : Prop where
  written : ∃ finished, finished ++ state.pending = publication.stores ∧
    state.memory = (publication.initial.storeAll finished).storeAll state.operations
  kept : ∀ entry ∈ state.operations, publication.descriptor ≤ entry.offset
  waits : state.operations ≠ [] → state.pending = []
  readers : ∀ reader, state.readers reader = program reader ∨ state.readers reader = .done none ∨
    state.pending = [] ∧ (state.readers reader).Always publication.Sees (good reader)

variable {publication} {program : Reader → Loads α} {good : Reader → α → Prop} {state : Shared Reader α}

section
variable (inv : publication.Inv program good state)
include inv

theorem Inv.memory_of_finished (finished : state.pending = []) :
    state.memory = publication.final.storeAll state.operations := by
  obtain ⟨done, split, memory⟩ := inv.written
  rw [finished, append_nil] at split
  rw [memory, split, final]

theorem Inv.marker_of_unfinished (unfinished : state.pending ≠ []) :
    state.memory.word publication.marker = some 0 := by
  obtain ⟨done, split, memory⟩ := inv.written
  have untouched : state.operations = [] := by
    by_contra operated
    exact unfinished (inv.waits operated)
  have early : ∀ entry ∈ done, entry ∈ publication.body := by
    rcases eq_nil_or_concat state.pending with none | ⟨front, last, pending⟩
    · exact absurd none unfinished
    · rw [pending, concat_eq_append, ← append_assoc, stores] at split
      have same := (append_inj_left' split rfl).symm
      intro entry inside
      rw [same]
      exact mem_append_left front inside
  rw [memory, untouched, Memory.storeAll_nil]
  exact (publication.clear.storeAll fun entry inside => publication.quiet entry (early entry inside)).word

theorem Inv.sees (finished : state.pending = []) {offset : Nat} {word : UInt64}
    (found : state.memory.word offset = some word) : publication.Sees offset word := by
  intro inside
  rw [inv.memory_of_finished finished] at found
  rw [← found]
  refine (Memory.word_congr fun pos _ before => Memory.storeAll_of_apart ?_).symm
  intro entry listed
  have beyond := inv.kept entry listed
  exact .inr (by omega)

variable {reader : Reader} (respects : ∀ reader, publication.Respects (good reader) (program reader))
include respects

/-- A result shows that the creator has finished. -/
theorem Inv.of_result {result : α} (succeeded : state.readers reader = .done (some result)) :
    state.pending = [] ∧ good reader result := by
  rcases inv.readers reader with first | refused | ⟨finished, always⟩
  · rw [succeeded] at first
    rcases respects reader with none | ⟨accept, next, begins, -⟩
    · rw [← first] at none
      cases none
    · rw [← first] at begins
      cases begins
  · rw [succeeded] at refused
    cases refused
  · rw [succeeded] at always
    exact ⟨finished, always⟩

theorem Inv.load {offset : Nat} {next : UInt64 → Loads α} {word : UInt64}
    (loading : state.readers reader = .load offset next) (found : state.memory.word offset = some word) :
    next word = .done none ∨ state.pending = [] ∧ (next word).Always publication.Sees (good reader) := by
  rcases inv.readers reader with first | refused | ⟨finished, always⟩
  · rcases respects reader with none | ⟨accept, rest, begins, refuses, always⟩
    · rw [first, none] at loading
      cases loading
    · rw [first, begins] at loading
      cases loading
      by_cases finished : state.pending = []
      · beta_reduce
        split
        case isTrue accepted =>
          exact .inr ⟨finished, always word (inv.sees finished found) accepted⟩
        case isFalse => exact .inl rfl
      · rw [inv.marker_of_unfinished finished, Option.some_inj] at found
        refine .inl (if_neg fun accepted => ?_)
        rw [← found, refuses] at accepted
        cases accepted
  · rw [loading] at refused
    cases refused
  · rw [loading] at always
    exact .inr ⟨finished, always word (inv.sees finished found)⟩

end

variable [DecidableEq Reader]

theorem Inv.step (respects : ∀ reader, publication.Respects (good reader) (program reader))
    (inv : publication.Inv program good state) {action : SharedAction Reader}
    (allowed : state.Allowed publication.descriptor action) {next : Shared Reader α}
    (ran : state.step action = some next) : publication.Inv program good next := by
  obtain ⟨done, split, memory⟩ := inv.written
  obtain ⟨entry, rest, rfl, pending, rfl⟩ | ⟨reader, offset, continuation, word, rfl, loading,
    found, rfl⟩ | ⟨user, entry, rfl, rfl⟩ := Shared.step_cases ran
  · have unfinished : state.pending ≠ [] := by
      rw [pending]
      exact cons_ne_nil entry rest
    have untouched : state.operations = [] := by
      by_contra operated
      exact unfinished (inv.waits operated)
    refine ⟨⟨done ++ [entry], ?_, ?_⟩, inv.kept, fun operated => absurd untouched operated, fun reader => ?_⟩
    · rw [append_assoc, singleton_append, ← pending, split]
    · rw [memory, untouched, Memory.storeAll_nil, Memory.storeAll_nil, Memory.storeAll_concat]
    · rcases inv.readers reader with first | refused | ⟨finished, -⟩
      · exact .inl first
      · exact .inr (.inl refused)
      · exact absurd finished unfinished
  · refine ⟨⟨done, split, memory⟩, inv.kept, inv.waits, fun other => ?_⟩
    dsimp only
    by_cases same : other = reader
    · rw [same, update_self]
      exact .inr (inv.load respects loading found)
    · rw [update_of_ne same]
      exact inv.readers other
  · have finished : state.pending = [] := by
      cases user with
      | none => exact allowed.1
      | some reader =>
        obtain ⟨result, succeeded⟩ := allowed.1
        exact (inv.of_result respects succeeded).1
    refine ⟨⟨done, split, ?_⟩, ?_, fun _ => finished, inv.readers⟩
    · rw [Memory.storeAll_concat, ← memory]
    · intro listed inside
      rcases mem_append.mp inside with before | last
      · exact inv.kept listed before
      · rw [mem_singleton.mp last]
        exact allowed.2

theorem inv_of_reaches (respects : ∀ reader, publication.Respects (good reader) (program reader))
    (reached : Reaches Shared.step (Shared.Allowed publication.descriptor) (publication.start program) state) :
    publication.Inv program good state := by
  refine reached.invariant ?_ fun state action next inv allowed ran =>
    inv.step respects allowed ran
  exact ⟨⟨[], rfl, rfl⟩, fun entry inside => (not_mem_nil inside).elim,
    fun operated => absurd rfl operated, fun reader => .inl rfl⟩

/-- Once any reader has its result, the memory is the creator's finished one with only the
operations on top. -/
theorem published (respects : ∀ reader, publication.Respects (good reader) (program reader))
    (reached : Reaches Shared.step (Shared.Allowed publication.descriptor) (publication.start program) state)
    {reader : Reader} {result : α} (succeeded : state.readers reader = .done (some result)) :
    good reader result ∧ state.pending = [] ∧ state.memory = publication.final.storeAll state.operations ∧
      ∀ entry ∈ state.operations, publication.descriptor ≤ entry.offset := by
  have inv := inv_of_reaches respects reached
  obtain ⟨finished, found⟩ := inv.of_result respects succeeded
  exact ⟨found, finished, inv.memory_of_finished finished, inv.kept⟩

variable (publication program) in
/-- A reader that comes after the creator has the result of the finished memory. -/
theorem reaches_result (reader : Reader) {bound : Nat} {result : α} (readable : publication.initial.Readable bound)
    (inside : ∀ entry ∈ publication.stores, entry.offset + entry.bytes.length ≤ bound)
    (found : (program reader).run publication.final = some (some result)) :
    ∃ state, Reaches Shared.step (Shared.Allowed publication.descriptor)
      (publication.start program) state ∧ state.readers reader = .done (some result) := by
  have created : Reaches Shared.step (Shared.Allowed publication.descriptor)
      ⟨publication.initial, publication.stores ++ [], program, []⟩
      ⟨publication.final, [], program, []⟩ := Shared.reaches_create readable inside
  rw [append_nil] at created
  exact ⟨_, created.trans (Shared.reaches_load found), update_self ..⟩

end Publication

end AnimusCore.Lib

import AnimusCore.Lib.Fifo
import AnimusCore.Lib.Ring
import Mathlib.Data.Finset.Insert

/-! A queue of tickets over a ring of cells. A writer claims the next position,
fills its cell and publishes it; a reader takes the next published position, empties
the cell and retires it, which frees the cell for the position one lap later. Claims
and takes are serial, publishing and retiring happen in any order. A cell's sequence
word tells how far its current position has come. -/

set_option autoImplicit false

namespace AnimusCore.Lib

open Lib.Ring Function List

structure Tickets (Owner Value : Type) (capacity : Capacity) where
  claims : List (Owner × Value)
  takes : List Owner
  published : Finset Nat
  retired : Finset Nat
  published_lt : ∀ position ∈ published, position < claims.length
  taken_published : ∀ position < takes.length, position ∈ published
  retired_lt : ∀ position ∈ retired, position < takes.length
  reused_retired : ∀ position, position + capacity.size < claims.length → position ∈ retired

namespace Tickets

variable {Owner Value : Type} {capacity : Capacity}

/-- The cell of the position is not in use by an earlier lap. -/
def Free (tickets : Tickets Owner Value capacity) (position : Nat) : Prop :=
  position < capacity.size ∨ ∃ earlier ∈ tickets.retired, earlier + capacity.size = position

/-- The position that its cell serves now. -/
def Current (tickets : Tickets Owner Value capacity) (position : Nat) : Prop :=
  tickets.Free position ∧ position ∉ tickets.retired

def empty : Tickets Owner Value capacity where
  claims := []
  takes := []
  published := ∅
  retired := ∅
  published_lt position inside := absurd inside (Finset.notMem_empty position)
  taken_published position inside := absurd inside (Nat.not_lt_zero position)
  retired_lt position inside := absurd inside (Finset.notMem_empty position)
  reused_retired _ inside := absurd inside (Nat.not_lt_zero _)

section
variable (tickets : Tickets Owner Value capacity)

def claim (owner : Owner) (value : Value) (free : tickets.Free tickets.claims.length) :
    Tickets Owner Value capacity where
  __ := tickets
  claims := tickets.claims ++ [(owner, value)]
  published_lt position inside := by
    have bound := tickets.published_lt position inside
    rw [length_append]
    omega
  reused_retired position inside := by
    rw [length_append, length_singleton] at inside
    rcases Nat.lt_or_ge (position + capacity.size) tickets.claims.length with earlier | last
    · exact tickets.reused_retired position earlier
    · rcases free with first | ⟨earlier, retired, lap⟩
      · omega
      · have same : earlier = position := by omega
        exact same ▸ retired

def publish (position : Nat) (claimed : position < tickets.claims.length) : Tickets Owner Value capacity where
  __ := tickets
  published := insert position tickets.published
  published_lt other inside := by
    rcases Finset.mem_insert.mp inside with rfl | earlier
    · exact claimed
    · exact tickets.published_lt other earlier
  taken_published other inside := Finset.mem_insert_of_mem (tickets.taken_published other inside)

def take (owner : Owner) (ready : tickets.takes.length ∈ tickets.published) : Tickets Owner Value capacity where
  __ := tickets
  takes := tickets.takes ++ [owner]
  taken_published position inside := by
    rw [length_append, length_singleton] at inside
    rcases Nat.lt_or_ge position tickets.takes.length with earlier | last
    · exact tickets.taken_published position earlier
    · have same : position = tickets.takes.length := by omega
      exact same ▸ ready
  retired_lt position inside := by
    have bound := tickets.retired_lt position inside
    rw [length_append]
    omega

def retire (position : Nat) (taken : position < tickets.takes.length) : Tickets Owner Value capacity where
  __ := tickets
  retired := insert position tickets.retired
  retired_lt other inside := by
    rcases Finset.mem_insert.mp inside with rfl | earlier
    · exact taken
    · exact tickets.retired_lt other earlier
  reused_retired other inside := Finset.mem_insert_of_mem (tickets.reused_retired other inside)

end

variable (tickets : Tickets Owner Value capacity) {pos other : Nat}

theorem takes_le_claims : tickets.takes.length ≤ tickets.claims.length := by
  by_contra beyond
  have published := tickets.taken_published tickets.claims.length (by omega)
  exact absurd (tickets.published_lt _ published) (Nat.lt_irrefl _)

theorem claims_le : tickets.claims.length ≤ tickets.takes.length + capacity.size := by
  by_contra beyond
  have retired := tickets.reused_retired tickets.takes.length (by omega)
  exact absurd (tickets.retired_lt _ retired) (Nat.lt_irrefl _)

theorem retired_published (retired : pos ∈ tickets.retired) : pos ∈ tickets.published :=
  tickets.taken_published pos (tickets.retired_lt pos retired)

theorem free_of_claimed (claimed : pos < tickets.claims.length) : tickets.Free pos := by
  rcases Nat.lt_or_ge pos capacity.size with first | later
  · exact .inl first
  · refine .inr ⟨pos - capacity.size, tickets.reused_retired _ ?_, ?_⟩ <;> omega

theorem current_of_fresh (claimed : pos < tickets.claims.length) (fresh : pos ∉ tickets.published) :
    tickets.Current pos :=
  ⟨tickets.free_of_claimed claimed, fun retired => fresh (tickets.retired_published retired)⟩

theorem current_of_published (published : pos ∈ tickets.published) (busy : pos ∉ tickets.retired) :
    tickets.Current pos :=
  ⟨tickets.free_of_claimed (tickets.published_lt pos published), busy⟩

theorem last_fresh : tickets.claims.length ∉ tickets.published :=
  fun published => (tickets.published_lt _ published).false

theorem last_busy : tickets.takes.length ∉ tickets.retired :=
  fun retired => (tickets.retired_lt _ retired).false

theorem length_claim {owner : Owner} {value : Value} (free : tickets.Free tickets.claims.length) :
    (tickets.claim owner value free).claims.length = tickets.claims.length + 1 :=
  List.length_append

theorem length_take {owner : Owner} (ready : tickets.takes.length ∈ tickets.published) :
    (tickets.take owner ready).takes.length = tickets.takes.length + 1 :=
  List.length_append

theorem free_add_iff : tickets.Free (pos + capacity.size) ↔ pos ∈ tickets.retired := by
  constructor
  · rintro (first | ⟨earlier, retired, lap⟩)
    · omega
    · have same : earlier = pos := by omega
      exact same ▸ retired
  · intro retired
    exact .inr ⟨pos, retired, rfl⟩

theorem exists_lap_of_not_free (busy : ¬ tickets.Free pos) (claimable : pos ≤ tickets.claims.length) :
    ∃ earlier, earlier + capacity.size = pos ∧ tickets.Current earlier := by
  have size := capacity.size_pos
  have late : capacity.size ≤ pos := by
    by_contra first
    exact busy (.inl (by omega))
  have lap : pos - capacity.size + capacity.size = pos := by omega
  rw [← lap, tickets.free_add_iff] at busy
  exact ⟨_, lap, tickets.free_of_claimed (by omega), busy⟩

theorem Current.unique {tickets : Tickets Owner Value capacity} (left : tickets.Current pos)
    (right : tickets.Current other) (same : capacity.slot pos = capacity.slot other) : pos = other := by
  -- The earlier of two positions of a cell is retired before the later one is free.
  have ordered : ∀ {early late}, tickets.Current early → tickets.Free late →
      capacity.slot early = capacity.slot late → ¬ early < late := by
    intro early late current free same before
    have lap : early + capacity.size ≤ late := by
      by_contra near
      exact capacity.slot_ne before (by omega) same
    rcases free with first | ⟨previous, retired, next⟩
    · omega
    · rcases Nat.eq_or_lt_of_le lap with next' | further
      · have same : previous = early := by omega
        exact current.2 (same ▸ retired)
      · have twice : early + capacity.size + capacity.size ≤ late := by
          by_contra near
          refine capacity.slot_ne further (by omega) ?_
          rw [capacity.slot_add, same]
        have bound := tickets.retired_lt previous retired
        have claims := tickets.takes_le_claims
        exact current.2 (tickets.reused_retired early (by omega))
  have notBefore := ordered left right.1 same
  have notAfter := ordered right left.1 same.symm
  omega

theorem exists_current (free : tickets.Free pos) :
    ∃ serving, tickets.Current serving ∧ capacity.slot serving = capacity.slot pos ∧
      (serving = pos ∨ pos + capacity.size ≤ serving) := by
  induction left : tickets.takes.length - pos using Nat.strong_induction_on generalizing pos with
  | _ left ih =>
    by_cases retired : pos ∈ tickets.retired
    · have bound := tickets.retired_lt pos retired
      have size := capacity.size_pos
      obtain ⟨serving, current, slot, later⟩ := ih (tickets.takes.length - (pos + capacity.size)) (by omega)
          (tickets.free_add_iff.mpr retired) rfl
      rw [capacity.slot_add] at slot
      exact ⟨serving, current, slot, .inr (by omega)⟩
    · exact ⟨pos, ⟨free, retired⟩, rfl, .inl rfl⟩

/-- A cell's word is the position it serves, plus one once that is published. -/
structure Sequenced (sequence : Nat → Nat) : Prop where
  unpublished : ∀ position, tickets.Free position → position ∉ tickets.published →
    sequence (capacity.slot position) = position
  unretired : ∀ position ∈ tickets.published, position ∉ tickets.retired →
    sequence (capacity.slot position) = position + 1

variable {tickets} {sequence : Nat → Nat}

theorem Sequenced.empty : (empty : Tickets Owner Value capacity).Sequenced fun cell => cell where
  unpublished pos free _ := by
    rcases free with first | ⟨earlier, retired, -⟩
    · rw [capacity.slot_eq_mod, Nat.mod_eq_of_lt first]
    · exact absurd retired (Finset.notMem_empty earlier)
  unretired pos published := absurd published (Finset.notMem_empty pos)

section
variable (sequenced : tickets.Sequenced sequence)
include sequenced

theorem Sequenced.publish (claimed : pos < tickets.claims.length) (fresh : pos ∉ tickets.published) :
    (tickets.publish pos claimed).Sequenced (update sequence (capacity.slot pos) (pos + 1)) := by
  have current := tickets.current_of_fresh claimed fresh
  constructor
  · intro other free unpublished
    have different : other ≠ pos := fun same =>
      unpublished (same ▸ Finset.mem_insert_self _ _)
    have earlier : other ∉ tickets.published := fun inside =>
      unpublished (Finset.mem_insert_of_mem inside)
    have serving : tickets.Current other := ⟨free, fun retired => earlier (tickets.retired_published retired)⟩
    rw [update_of_ne fun same => different (serving.unique current same)]
    exact sequenced.unpublished other free earlier
  · intro other published unretired
    by_cases same : other = pos
    · rw [same, update_self]
    · have earlier : other ∈ tickets.published := (Finset.mem_insert.mp published).resolve_left same
      have serving := tickets.current_of_published earlier unretired
      rw [update_of_ne fun slot => same (serving.unique current slot)]
      exact sequenced.unretired other earlier unretired

theorem Sequenced.retire (taken : pos < tickets.takes.length) (busy : pos ∉ tickets.retired) :
    (tickets.retire pos taken).Sequenced (update sequence (capacity.slot pos) (pos + capacity.size)) := by
  have published := tickets.taken_published pos taken
  have current := tickets.current_of_published published busy
  constructor
  · intro other free unpublished
    by_cases next : other = pos + capacity.size
    · rw [next, capacity.slot_add, update_self]
    · have earlier : tickets.Free other := by
        rcases free with first | ⟨previous, retired, lap⟩
        · exact .inl first
        · refine .inr ⟨previous, (Finset.mem_insert.mp retired).resolve_left ?_, lap⟩
          rintro rfl
          exact next lap.symm
      have serving : tickets.Current other :=
        ⟨earlier, fun retired => unpublished (tickets.retired_published retired)⟩
      have different : other ≠ pos := fun same => unpublished (same ▸ published)
      rw [update_of_ne fun slot => different (serving.unique current slot)]
      exact sequenced.unpublished other earlier unpublished
  · intro other earlier unretired
    have different : other ≠ pos := fun same =>
      unretired (same ▸ Finset.mem_insert_self _ _)
    have kept : other ∉ tickets.retired := fun inside =>
      unretired (Finset.mem_insert_of_mem inside)
    have serving := tickets.current_of_published earlier kept
    rw [update_of_ne fun slot => different (serving.unique current slot)]
    exact sequenced.unretired other earlier kept

theorem Sequenced.current (current : tickets.Current pos) :
    sequence (capacity.slot pos) = pos ∧ pos ∉ tickets.published ∨
      sequence (capacity.slot pos) = pos + 1 ∧ pos ∈ tickets.published := by
  by_cases published : pos ∈ tickets.published
  · exact .inr ⟨sequenced.unretired pos published current.2, published⟩
  · exact .inl ⟨sequenced.unpublished pos current.1 published, published⟩

theorem Sequenced.le (free : tickets.Free pos) : pos ≤ sequence (capacity.slot pos) := by
  obtain ⟨serving, current, slot, later⟩ := tickets.exists_current free
  rw [← slot]
  rcases sequenced.current current with ⟨word, -⟩ | ⟨word, -⟩ <;> omega

end

theorem Current.lt (current : tickets.Current pos) : pos < tickets.claims.length + capacity.size := by
  have claims := tickets.takes_le_claims
  rcases current.1 with first | ⟨earlier, retired, lap⟩
  · omega
  · have taken := tickets.retired_lt earlier retired
    omega

section
variable (sequenced : tickets.Sequenced sequence)
include sequenced

theorem Sequenced.word_le (claimable : pos ≤ tickets.claims.length) :
    sequence (capacity.slot pos) ≤ tickets.claims.length + capacity.size := by
  by_cases free : tickets.Free pos
  · obtain ⟨serving, current, slot, -⟩ := tickets.exists_current free
    have bound := Current.lt current
    rw [← slot]
    rcases sequenced.current current with ⟨word, -⟩ | ⟨word, -⟩ <;> omega
  · obtain ⟨earlier, lap, current⟩ := tickets.exists_lap_of_not_free free claimable
    have bound := Current.lt current
    rw [← lap, capacity.slot_add]
    rcases sequenced.current current with ⟨word, -⟩ | ⟨word, -⟩ <;> omega

theorem Sequenced.lt_of_not_free (busy : ¬ tickets.Free tickets.claims.length) :
    sequence (capacity.slot tickets.claims.length) < tickets.claims.length := by
  have size := capacity.two_le
  obtain ⟨earlier, lap, current⟩ := tickets.exists_lap_of_not_free busy (le_refl _)
  rw [← lap, capacity.slot_add]
  rcases sequenced.current current with ⟨serving, -⟩ | ⟨serving, -⟩ <;> omega

theorem Sequenced.free_of_eq (word : sequence (capacity.slot tickets.claims.length) = tickets.claims.length) :
    tickets.Free tickets.claims.length := by
  by_contra busy
  have behind := sequenced.lt_of_not_free busy
  omega

/-- A writer that reads less than its position found the lap before not retired, and
no other writer has claimed the position. -/
theorem Sequenced.full_of_lt (claimable : pos ≤ tickets.claims.length) (word : sequence (capacity.slot pos) < pos) :
    pos = tickets.claims.length ∧ ¬ tickets.Free pos := by
  have busy : ¬ tickets.Free pos := by
    intro free
    have reached := sequenced.le free
    omega
  refine ⟨?_, busy⟩
  by_contra other
  exact busy (tickets.free_of_claimed (by omega))

theorem Sequenced.le_of_unpublished (unpublished : tickets.takes.length ∉ tickets.published) :
    sequence (capacity.slot tickets.takes.length) ≤ tickets.takes.length := by
  have size := capacity.two_le
  by_cases free : tickets.Free tickets.takes.length
  · exact (sequenced.unpublished _ free unpublished).le
  · obtain ⟨earlier, lap, current⟩ := tickets.exists_lap_of_not_free free tickets.takes_le_claims
    rw [← lap, capacity.slot_add]
    rcases sequenced.current current with ⟨serving, -⟩ | ⟨serving, -⟩ <;> omega

theorem Sequenced.published_of_eq (word : sequence (capacity.slot tickets.takes.length) = tickets.takes.length + 1) :
    tickets.takes.length ∈ tickets.published := by
  by_contra unpublished
  have behind := sequenced.le_of_unpublished unpublished
  omega

/-- A reader that reads at most its position found it unpublished, and no other
reader has taken it. -/
theorem Sequenced.unpublished_of_le (takeable : pos ≤ tickets.takes.length)
    (word : sequence (capacity.slot pos) ≤ pos) : pos = tickets.takes.length ∧ pos ∉ tickets.published := by
  have size := capacity.size_pos
  have unpublished : pos ∉ tickets.published := by
    intro published
    by_cases retired : pos ∈ tickets.retired
    · have reached := sequenced.le (tickets.free_add_iff.mpr retired)
      rw [capacity.slot_add] at reached
      omega
    · have serving := sequenced.unretired pos published retired
      omega
  refine ⟨?_, unpublished⟩
  by_contra other
  exact unpublished (tickets.taken_published pos (by omega))

end

structure ActsAs (owner : Owner) (past future : Tickets Owner Value capacity) : Prop where
  claims : past.claims <+: future.claims
  takes : past.takes <+: future.takes
  published : past.published ⊆ future.published
  retired : past.retired ⊆ future.retired
  publishes : ∀ position ∈ future.published, position ∉ past.published →
    ∃ value, past.claims[position]? = some (owner, value)
  retires : ∀ position ∈ future.retired, position ∉ past.retired → past.takes[position]? = some owner

variable {owner : Owner} {value : Value} {past future : Tickets Owner Value capacity}

theorem ActsAs.refl : ActsAs owner tickets tickets where
  claims := prefix_refl _
  takes := prefix_refl _
  published := Finset.Subset.refl _
  retired := Finset.Subset.refl _
  publishes _ inside outside := absurd inside outside
  retires _ inside outside := absurd inside outside

theorem ActsAs.claim (free : tickets.Free tickets.claims.length) :
    ActsAs owner tickets (tickets.claim owner value free) :=
  { ActsAs.refl with claims := prefix_append _ _ }

theorem ActsAs.publish (claimed : tickets.claims[pos]? = some (owner, value)) : ActsAs owner tickets
      (tickets.publish pos (List.getElem?_eq_some_iff.mp claimed).1) where
  __ := ActsAs.refl
  published := Finset.subset_insert _ _
  publishes other inside outside := by
    rcases Finset.mem_insert.mp inside with rfl | earlier
    · exact ⟨value, claimed⟩
    · exact absurd earlier outside

theorem ActsAs.take (ready : tickets.takes.length ∈ tickets.published) :
    ActsAs owner tickets (tickets.take owner ready) :=
  { ActsAs.refl with takes := prefix_append _ _ }

theorem ActsAs.retire (taken : tickets.takes[pos]? = some owner) : ActsAs owner tickets
      (tickets.retire pos (List.getElem?_eq_some_iff.mp taken).1) where
  __ := ActsAs.refl
  retired := Finset.subset_insert _ _
  retires other inside outside := by
    rcases Finset.mem_insert.mp inside with rfl | earlier
    · exact taken
    · exact absurd earlier outside

section
variable (acts : ActsAs owner past future)
include acts

theorem ActsAs.free (free : past.Free pos) : future.Free pos := by
  rcases free with first | ⟨earlier, retired, lap⟩
  · exact .inl first
  · exact .inr ⟨earlier, acts.retired retired, lap⟩

theorem ActsAs.fresh {other : Owner} (different : other ≠ owner)
    (claimed : past.claims[pos]? = some (other, value)) (fresh : pos ∉ past.published) : pos ∉ future.published := by
  intro published
  obtain ⟨_, own⟩ := acts.publishes pos published fresh
  cases claimed.symm.trans own
  exact different rfl

theorem ActsAs.busy {other : Owner} (different : other ≠ owner)
    (taken : past.takes[pos]? = some other) (busy : pos ∉ past.retired) : pos ∉ future.retired := by
  intro retired
  cases taken.symm.trans (acts.retires pos retired busy)
  exact different rfl

theorem ActsAs.claims_getElem? {claim : Owner × Value}
    (found : past.claims[pos]? = some claim) : future.claims[pos]? = some claim := by
  obtain ⟨suffix, whole⟩ := acts.claims
  rw [← whole, List.getElem?_append_left (List.getElem?_eq_some_iff.mp found).1]
  exact found

theorem ActsAs.takes_getElem? {taker : Owner}
    (found : past.takes[pos]? = some taker) : future.takes[pos]? = some taker := by
  obtain ⟨suffix, whole⟩ := acts.takes
  rw [← whole, List.getElem?_append_left (List.getElem?_eq_some_iff.mp found).1]
  exact found

end

/-- The bounded queue: a record enters when its position is claimed and leaves when
its position is taken. -/
def queue (tickets : Tickets Owner Value capacity) : Fifo Value capacity.size where
  pushed := tickets.claims.map Prod.snd
  taken := tickets.takes.length
  taken_le := by
    rw [length_map]
    exact tickets.takes_le_claims
  bounded := by
    rw [length_map]
    exact tickets.claims_le

end Tickets

end AnimusCore.Lib

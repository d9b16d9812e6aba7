import AnimusCore.RingBuffer.Calls
import Mathlib.Data.List.Induction

/-! A ring that only one caller pops. -/

set_option autoImplicit false

namespace AnimusCore.RingBuffer

open List

variable {Thread T : Type}

private theorem eq_range_of_increasing {positions : List Nat} (increasing : positions.Pairwise (· < ·))
    (closed : ∀ last ∈ positions, ∀ pos < last, pos ∈ positions) : positions = List.range positions.length := by
  induction positions using List.reverseRecOn with
  | nil => rfl
  | append_singleton front last ih =>
    obtain ⟨ordered, -, below⟩ := pairwise_append.mp increasing
    have under : ∀ pos ∈ front, pos < last := fun pos member =>
      below pos member last (mem_singleton_self last)
    have inside : ∀ {pos}, pos ∈ front ++ [last] → pos < last → pos ∈ front := by
      intro pos member earlier
      rcases mem_append.mp member with early | late
      · exact early
      · have same := mem_singleton.mp late
        omega
    have numbered := ih ordered fun later member pos earlier =>
      inside (closed later (mem_append_left _ member) pos earlier) (earlier.trans (under later member))
    have all : ∀ pos, pos ∈ front ↔ pos < front.length := by
      intro pos
      rw [numbered, mem_range, length_range]
    have bound : front.length ≤ last := by
      by_contra short
      exact Nat.lt_irrefl last (under last ((all last).mpr (by omega)))
    have level : ¬ front.length < last := by
      intro gap
      have member := inside (closed last (by simp) front.length gap) gap
      exact Nat.lt_irrefl _ ((all _).mp member)
    rw [length_append, length_singleton, range_succ, ← numbered]
    exact congrArg (front ++ [·]) (by omega)

theorem Sound.values_of_positions {ring : Summary Thread T} (sound : Sound ring)
    (positions : ring.retired.map (fun entry => entry.2.1) = List.range ring.retired.length) :
    ring.retired.map (fun entry => entry.2.2) = (ring.claims.take ring.retired.length).map Prod.snd := by
  refine ext_getElem? fun index => ?_
  rw [List.getElem?_map, List.getElem?_map]
  rcases Nat.lt_or_ge index ring.retired.length with inside | outside
  · have numbered := congrArg (·[index]?) positions
    simp only [List.getElem?_map, List.getElem?_range inside,
      List.getElem?_eq_getElem inside, Option.map_some, Option.some.injEq] at numbered
    obtain ⟨-, owner, found⟩ := sound.retired_value _ (getElem_mem inside)
    rw [numbered] at found
    rw [List.getElem?_take_of_lt inside, found, List.getElem?_eq_getElem inside]
    rfl
  · rw [List.getElem?_eq_none outside, List.getElem?_eq_none]
    · rfl
    · exact (length_take_le _ _).trans outside

/-- If one caller took all positions, it retired a first part of them in order. -/
theorem Sound.positions_of_taker {ring : Summary Thread T} (sound : Sound ring) {reader : Thread}
    (alone : ∀ taker ∈ ring.takes, taker = reader) :
    ring.retired.map (fun entry => entry.2.1) = List.range ring.retired.length := by
  have own : ∀ entry ∈ ring.retired, entry.1 = reader := fun entry member =>
    alone _ (mem_of_getElem? (sound.retired_value entry member).1)
  have increasing : (ring.retired.map fun entry => entry.2.1).Pairwise (· < ·) := by
    rw [pairwise_map]
    refine sound.in_order.imp_of_mem fun first second later => ?_
    exact later ((own _ first).trans (own _ second).symm)
  have numbered := eq_range_of_increasing increasing ?_
  · rw [length_map] at numbered
    exact numbered
  · intro last mapped pos earlier
    obtain ⟨entry, member, rfl⟩ := mem_map.mp mapped
    by_contra busy
    -- A position before a retired one that is not retired is held by another caller.
    obtain ⟨holder, holds⟩ := sound.readers pos (earlier.trans (sound.retired_lt member))
      fun other inside same => busy (mem_map.mpr ⟨other, inside, same⟩)
    have taker := alone _ (mem_of_getElem? (sound.taken holder pos holds).1)
    have later := sound.in_order_taken entry member pos (by rw [own entry member, ← taker, holds])
    exact Nat.lt_asymm earlier later

/-- The reader has retired a first part of the positions in order and holds at most the
next one. -/
structure SingleReader (reader : Thread) (ring : Summary Thread T) : Prop where
  writers : ∀ other, other ≠ reader → (ring.phases other).Writes fun _ => True
  positions : ring.retired.map (fun entry => entry.2.1) = List.range ring.retired.length
  taken : ∀ pos, ring.phases reader = .taken pos →
    pos = ring.retired.length ∧ ring.takes.length = ring.retired.length + 1
  between : (∀ pos, ring.phases reader ≠ .taken pos) → ring.takes.length = ring.retired.length

namespace SingleReader

variable {ring after : Summary Thread T} {reader thread : Thread} {phase : Phase T}

theorem initial : SingleReader reader ({} : Summary Thread T) where
  writers _ _ := trivial
  positions := rfl
  taken := nofun
  between _ := rfl

theorem reads_only (single : SingleReader reader ring)
    (seeks : ring.phases thread = .seeking ∨ ∃ pos, ring.phases thread = .taken pos) : thread = reader := by
  by_contra other
  have writes := single.writers thread other
  rcases seeks with phase | ⟨pos, phase⟩
  · rw [phase] at writes
    exact writes
  · rw [phase] at writes
    exact writes

theorem retired_le (single : SingleReader reader ring) : ring.retired.length ≤ ring.takes.length := by
  by_cases holds : ∃ pos, ring.phases reader = .taken pos
  · obtain ⟨pos, phase⟩ := holds
    have level := (single.taken pos phase).2
    omega
  · exact (single.between fun pos phase => holds ⟨pos, phase⟩).ge

/-- What the reader got is the first part of what was claimed. -/
theorem values (single : SingleReader reader ring) (sound : Sound ring) :
    ring.retired.map (fun entry => entry.2.2) = (ring.claims.take ring.retired.length).map Prod.snd :=
  sound.values_of_positions single.positions

variable [DecidableEq Thread]

theorem go (single : SingleReader reader ring) (writes : thread ≠ reader → phase.Writes fun _ => True)
    (free : ∀ pos, thread = reader → ring.phases reader ≠ .taken pos)
    (free' : ∀ pos, thread = reader → phase ≠ .taken pos) : SingleReader reader (ring.go thread phase) := by
  have same : ∀ pos, (ring.go thread phase).phases reader = .taken pos ↔ ring.phases reader = .taken pos := by
    intro pos
    rw [go_phases]
    split
    case isTrue reads =>
      exact ⟨fun holds => absurd holds (free' pos reads.symm), fun holds => absurd holds (free pos reads.symm)⟩
    case isFalse => exact Iff.rfl
  refine { single with writers := ?_, taken := ?_, between := ?_ }
  · intro other apart
    rw [go_phases]
    split
    case isTrue here => exact writes (here ▸ apart)
    case isFalse => exact single.writers other apart
  · intro pos holds
    exact single.taken pos ((same pos).mp holds)
  · intro loose
    exact single.between fun pos holds => loose pos ((same pos).mpr holds)

theorem effect (single : SingleReader reader ring) (effect : Effect ring thread after) :
    SingleReader reader after := by
  cases effect with
  | moves => exact single
  | @claims value phase =>
    have moved : SingleReader reader (ring.go thread (.claimed value ring.claims.length)) :=
      single.go (fun _ => trivial) (fun pos here holds => by simp [← here, phase] at holds) (by simp)
    exact { moved with }
  | @publishes value pos phase =>
    have moved : SingleReader reader (ring.go thread (.pushed value)) :=
      single.go (fun _ => trivial) (fun pos here holds => by simp [← here, phase] at holds) (by simp)
    exact { moved with }
  | refuses phase =>
    exact single.go (fun _ => trivial) (fun pos here holds => by simp [← here, phase] at holds) (by simp)
  | takes phase ready =>
    obtain rfl := single.reads_only (.inl phase)
    have level := single.between (by simp [phase])
    refine { single with writers := ?_, taken := ?_, between := ?_ }
    · intro other apart
      rw [go_phases, if_neg apart]
      exact single.writers other apart
    · intro pos holds
      rw [go_phases_self] at holds
      cases holds
      refine ⟨level, ?_⟩
      rw [length_append, length_singleton, level]
      rfl
    · intro loose
      exact absurd go_phases_self (loose _)
  | @retires owner pos out phase found =>
    obtain rfl := single.reads_only (.inr ⟨pos, phase⟩)
    obtain ⟨last, level⟩ := single.taken pos phase
    refine { writers := ?_, positions := ?_, taken := ?_, between := ?_ }
    · intro other apart
      rw [go_phases, if_neg apart]
      exact single.writers other apart
    · rw [map_append, single.positions, length_append, length_singleton, range_succ, last]
      rfl
    · intro pos holds
      rw [go_phases_self] at holds
      cases holds
    · intro _
      rw [length_append, length_singleton]
      exact level
  | empty phase missing =>
    have here := single.reads_only (.inl phase)
    refine single.go (fun apart => absurd here apart) (fun pos _ holds => ?_) (by simp)
    rw [← here, phase] at holds
    cases holds

end SingleReader

end AnimusCore.RingBuffer

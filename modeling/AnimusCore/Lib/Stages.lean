import AnimusCore.Lib.Publication

/-! How far a creator has come. Its work is a list of stores, so a moment of the creation is
the part of the list still to be made; a store made leaves its bytes, and one not yet made
leaves zeros. A reader that insists on a word other than zero waits for its store. -/

set_option autoImplicit false

namespace AnimusCore.Lib

open List

section
variable {initial : Memory} {finished pending before after : List Store} {entry : Store}

theorem exists_append_of_left (split : finished ++ pending = before ++ entry :: after)
    (left : after.length < pending.length) : ∃ rest, before = finished ++ rest := by
  rcases append_eq_append_iff.mp split with ⟨rest, same, -⟩ | ⟨rest, -, same⟩
  · exact ⟨rest, same⟩
  · have lengths := congrArg List.length same
    rw [length_cons, length_append] at lengths
    have none : rest = [] := eq_nil_of_length_eq_zero (by omega)
    rw [none, nil_append] at same
    rw [← same] at split
    exact ⟨[], by rw [append_nil, append_cancel_right split]⟩

theorem exists_append_of_made (split : finished ++ pending = before ++ after) (made : pending.length ≤ after.length) :
    ∃ front, finished = before ++ front ∧ after = front ++ pending := by
  rcases append_eq_append_iff.mp split with ⟨rest, start, same⟩ | ⟨front, same, tail⟩
  · have lengths := congrArg List.length same
    rw [length_append] at lengths
    have none : rest = [] := eq_nil_of_length_eq_zero (by omega)
    rw [none, append_nil] at start
    rw [none, nil_append] at same
    exact ⟨[], by rw [append_nil, start], by rw [nil_append, same]⟩
  · exact ⟨front, same, tail⟩

theorem clear_of_left {offset width : Nat} (clear : initial.Clear offset width)
    (split : finished ++ pending = before ++ entry :: after) (left : after.length < pending.length)
    (quiet : ∀ early ∈ before, early.Quiet offset width) : (initial.storeAll finished).Clear offset width := by
  obtain ⟨rest, same⟩ := exists_append_of_left split left
  exact clear.storeAll fun early inside => quiet early (same ▸ mem_append_left rest inside)

/-- Of stores that do not overlap, those of a block made are kept. -/
theorem word_of_made {early block : List Store} {offset : Nat} {value : UInt64}
    (split : finished ++ pending = early ++ (block ++ after)) (apart : Store.NoOverlap (block ++ after))
    (made : pending.length ≤ after.length) (inside : Store.word offset value ∈ block) :
    (initial.storeAll finished).word offset = some value := by
  rw [← append_assoc] at split
  obtain ⟨front, rfl, rest⟩ := exists_append_of_made split made
  rw [rest, ← append_assoc] at apart
  rw [append_assoc, Memory.storeAll_append]
  exact Memory.storeAll_word (apart.sublist (sublist_append_left _ pending)) (mem_append_left front inside)

end

namespace Shared

variable {Reader α : Type} {initial : Memory} {stores : List Store} {descriptor : Nat}
  {program : Reader → Loads α} {state : Shared Reader α}

/-- Below the descriptor's end the memory is what the creator has made of it so far. -/
def Written (initial : Memory) (stores : List Store) (descriptor : Nat) (state : Shared Reader α) : Prop :=
  ∃ finished, finished ++ state.pending = stores ∧
    ∀ position < descriptor, state.memory position = initial.storeAll finished position

theorem Written.word (written : Written initial stores descriptor state) {offset left : Nat}
    (inside : offset + 8 ≤ descriptor)
    (early : ∀ finished pending, finished ++ pending = stores → left < pending.length →
      (initial.storeAll finished).Clear offset 8)
    (more : left < state.pending.length) : state.memory.word offset = some 0 := by
  obtain ⟨finished, split, same⟩ := written
  rw [Memory.word_congr_below same (by omega)]
  exact (early finished state.pending split more).word

/-- Until few stores are left, the reader has to find another word than zero at the offset. -/
structure Waiting (initial : Memory) (stores : List Store) (descriptor offset left : Nat)
    (reader : Reader) (state : Shared Reader α) : Prop where
  written : Written initial stores descriptor state
  waits : state.pending.length ≤ left ∨ (state.readers reader).Always
    (fun position word => position = offset → word = 0) fun _ => False

variable [DecidableEq Reader]

theorem Written.step (written : Written initial stores descriptor state) {action : SharedAction Reader}
    (allowed : state.Allowed descriptor action) {next : Shared Reader α} (ran : state.step action = some next) :
    Written initial stores descriptor next := by
  obtain ⟨finished, split, same⟩ := written
  obtain ⟨entry, rest, rfl, pending, rfl⟩ | ⟨reader, offset, continuation, word, rfl, -, -,
    rfl⟩ | ⟨user, entry, rfl, rfl⟩ := step_cases ran
  · refine ⟨finished ++ [entry], ?_, fun pos below => ?_⟩
    · rw [append_assoc, singleton_append, ← pending, split]
    · rw [Memory.storeAll_concat]
      exact Memory.store_congr (same pos below) entry
  · exact ⟨finished, split, same⟩
  · refine ⟨finished, split, fun pos below => ?_⟩
    have beyond : descriptor ≤ entry.offset := allowed.2
    exact (Memory.store_of_apart (.inr (by omega))).trans (same pos below)

theorem written_of_reaches (reached : Reaches step (Allowed descriptor) ⟨initial, stores, program, []⟩ state) :
    Written initial stores descriptor state :=
  reached.invariant ⟨[], rfl, fun _ _ => rfl⟩ fun _ _ _ written allowed ran =>
    written.step allowed ran

theorem Waiting.step {offset left : Nat} {reader : Reader}
    (waiting : Waiting initial stores descriptor offset left reader state) (inside : offset + 8 ≤ descriptor)
    (early : ∀ finished pending, finished ++ pending = stores → left < pending.length →
      (initial.storeAll finished).Clear offset 8)
    {action : SharedAction Reader} (allowed : state.Allowed descriptor action)
    {next : Shared Reader α} (ran : state.step action = some next) :
    Waiting initial stores descriptor offset left reader next := by
  obtain ⟨written, waits⟩ := waiting
  refine ⟨written.step allowed ran, ?_⟩
  obtain ⟨entry, rest, rfl, pending, rfl⟩ | ⟨other, pos, continuation, word, rfl, loading,
    found, rfl⟩ | ⟨user, entry, rfl, rfl⟩ := step_cases ran
  · refine waits.imp_left fun few => ?_
    rw [pending, length_cons] at few
    exact Nat.le_of_succ_le few
  · by_cases few : state.pending.length ≤ left
    · exact .inl few
    refine .inr ?_
    have always := waits.resolve_left few
    dsimp only
    by_cases same : reader = other
    · rw [same, loading] at always
      rw [same, Function.update_self]
      refine always word fun atOffset => ?_
      rw [atOffset, written.word inside early (Nat.not_le.mp few)] at found
      exact (Option.some.inj found).symm
    · rw [Function.update_of_ne same]
      exact always
  · exact waits

/-- While more stores are left a word reads zero, and the program does not succeed on that.
So a result came later. -/
theorem left_of_result (reached : Reaches step (Allowed descriptor) ⟨initial, stores, program, []⟩ state)
    {reader : Reader} {result : α} (succeeded : state.readers reader = .done (some result))
    {offset left : Nat} (inside : offset + 8 ≤ descriptor)
    (early : ∀ finished pending, finished ++ pending = stores → left < pending.length →
      (initial.storeAll finished).Clear offset 8)
    (refuses : (program reader).Always (fun pos word => pos = offset → word = 0) fun _ => False) :
    state.pending.length ≤ left := by
  have waiting : Waiting initial stores descriptor offset left reader state :=
    reached.invariant ⟨⟨[], rfl, fun _ _ => rfl⟩, .inr refuses⟩
      fun _ _ _ waiting allowed ran => waiting.step inside early allowed ran
  rcases waiting.waits with few | always
  · exact few
  · rw [succeeded] at always
    exact always.elim

end Shared

end AnimusCore.Lib

import Mathlib.Data.List.DropRight

/-! Candidates of a sliding window. An entry is put aside once a later entry of the
window serves at least as well; the entries that are left form the deque from which a
window's best entry is read at the front. -/

set_option autoImplicit false

namespace AnimusCore.Lib

open List

variable {Entry : Type}

section

variable {test : Entry → Bool} {entries : List Entry}

theorem dropWhile_eq_filter (closed : entries.Pairwise fun early late => test late → test early) :
    entries.dropWhile test = entries.filter fun entry => !test entry := by
  induction closed with
  | nil => rfl
  | @cons entry later first _ ih =>
    cases passed : test entry with
    | true => simp [passed, ih]
    | false =>
      have rest : later.filter (fun entry => !test entry) = later := by
        rw [filter_eq_self]
        intro other inside
        have kept := first other inside
        rw [passed] at kept
        simpa using kept
      simp [passed, rest]

theorem rdropWhile_eq_filter (closed : entries.Pairwise fun early late => test early → test late) :
    entries.rdropWhile test = entries.filter fun entry => !test entry := by
  rw [List.rdropWhile, dropWhile_eq_filter (pairwise_reverse.mpr closed), filter_reverse, reverse_reverse]

theorem drop_excess_cons (front : Entry) (rest : List Entry) (size : Nat) :
    (front :: rest).drop (rest.length + 1 - size) =
      if rest.length + 1 > size then rest.drop (rest.length - size) else front :: rest := by
  split
  case isTrue more =>
    have one : rest.length + 1 - size = rest.length - size + 1 := by omega
    rw [one, drop_succ_cons]
  case isFalse fits =>
    have none : rest.length + 1 - size = 0 := by omega
    rw [none, drop_zero]

theorem drop_excess_concat (entries : List Entry) (entry : Entry) (size : Nat) :
    (entries.drop (entries.length - size) ++ [entry]).drop
        ((entries.drop (entries.length - size)).length + 1 - size) =
      (entries ++ [entry]).drop (entries.length + 1 - size) := by
  have total : entries.length - size +
      (entries.length - (entries.length - size) + 1 - size) = entries.length + 1 - size := by omega
  rw [length_drop, ← drop_append_of_le_length (by omega), drop_drop, total]

theorem filter_dropWhile {keep : Entry → Bool} (rejects : ∀ entry, test entry → keep entry = false) :
    (entries.dropWhile test).filter keep = entries.filter keep := by
  induction entries with
  | nil => rfl
  | cons entry later ih =>
    cases passed : test entry with
    | true => simp [passed, rejects entry passed, ih]
    | false => simp [passed]

/-- The last entry stays exactly if the loop stops somewhere. -/
theorem getLast?_dropWhile_concat {last : Entry} : ((entries ++ [last]).dropWhile test).getLast? = some last ↔
      test last = false ∨ ∃ entry ∈ entries, test entry = false := by
  induction entries with
  | nil => cases passed : test last <;> simp [passed]
  | cons entry later ih =>
    cases passed : test entry with
    | true => simp [passed, ih]
    | false => simp [passed, List.getLast?_cons]

theorem map_dropWhile {Image : Type} {image : Entry → Image} {imageTest : Image → Bool}
    (agrees : ∀ entry ∈ entries, imageTest (image entry) = test entry) :
    (entries.dropWhile test).map image = (entries.map image).dropWhile imageTest := by
  induction entries with
  | nil => rfl
  | cons entry later ih =>
    have first := agrees entry mem_cons_self
    have rest := ih fun other inside => agrees other (mem_cons_of_mem entry inside)
    rw [map_cons, dropWhile_cons, dropWhile_cons, first]
    split
    · exact rest
    · rfl

theorem map_rdropWhile {Image : Type} {image : Entry → Image} {imageTest : Image → Bool}
    (agrees : ∀ entry, imageTest (image entry) = test entry) :
    (entries.rdropWhile test).map image = (entries.map image).rdropWhile imageTest := by
  rw [List.rdropWhile, List.rdropWhile, map_reverse, map_dropWhile fun entry _ => agrees entry, map_reverse]

end

/-- `yields early late` says that the earlier entry is of no use next to the later. -/
def candidates (yields : Entry → Entry → Bool) : List Entry → List Entry
  | [] => []
  | entry :: later =>
    if later.any (yields entry) then candidates yields later
    else entry :: candidates yields later

variable {yields : Entry → Entry → Bool} {window : List Entry} {entry : Entry}

theorem candidates_sublist : (candidates yields window).Sublist window := by
  induction window with
  | nil => exact .slnil
  | cons first later ih =>
    rw [candidates]
    split
    · exact ih.cons first
    · exact ih.cons_cons first

theorem candidates_pairwise : (candidates yields window).Pairwise fun early late => yields early late = false := by
  induction window with
  | nil => exact .nil
  | cons first later ih =>
    rw [candidates]
    split
    case isTrue => exact ih
    case isFalse best =>
      refine .cons (fun other inside => ?_) ih
      by_contra found
      rw [Bool.not_eq_false] at found
      exact best (any_eq_true.mpr ⟨other, candidates_sublist.subset inside, found⟩)

theorem candidates_concat : candidates yields (window ++ [entry]) =
    (candidates yields window).filter (fun early => !yields early entry) ++ [entry] := by
  induction window with
  | nil => rfl
  | cons first later ih =>
    simp only [cons_append, candidates, any_append, ih]
    cases later.any (yields first) <;> cases last : yields first entry <;> simp [last]

/-- Entries expire from the front of the window, and so from the front of the deque. -/
theorem candidates_dropWhile {expired : Entry → Bool}
    (closed : window.Pairwise fun early late => expired late → expired early) :
    candidates yields (window.dropWhile expired) = (candidates yields window).dropWhile expired := by
  rw [dropWhile_eq_filter (closed.sublist candidates_sublist)]
  induction closed with
  | nil => rfl
  | @cons first later closed _ ih =>
    cases passed : expired first with
    | true =>
      rw [dropWhile_cons_of_pos passed, ih, candidates]
      split <;> simp [passed]
    | false =>
      have rest : ∀ other ∈ candidates yields (first :: later), (!expired other) = true := by
        intro other inside
        rcases mem_cons.mp (candidates_sublist.subset inside) with rfl | behind
        · simp [passed]
        · have kept := closed other behind
          rw [passed] at kept
          simpa using kept
      rw [dropWhile_cons_of_neg (by simp [passed]), filter_eq_self.mpr rest]

section

variable (total : ∀ left right, yields left right = true ∨ yields right left = true)
  (trans : ∀ {first second third}, yields first second = true → yields second third = true →
    yields first third = true)

include total trans

/-- A new entry puts aside a stretch at the back of the deque. -/
theorem candidates_push : candidates yields (window ++ [entry]) =
    (candidates yields window).rdropWhile (fun early => yields early entry) ++ [entry] := by
  rw [candidates_concat, rdropWhile_eq_filter]
  refine candidates_pairwise.imp fun {early late} apart removed => ?_
  have back := (total early late).resolve_left (by simp [apart])
  exact trans back removed

/-- The front candidate is the best entry of the window. -/
theorem candidates_front (filled : window ≠ []) :
    ∃ front rest, candidates yields window = front :: rest ∧ front ∈ window ∧
      ∀ other ∈ window, yields other front = true := by
  induction window with
  | nil => exact absurd rfl filled
  | cons first later ih =>
    rw [candidates]
    split
    case isTrue beaten =>
      obtain ⟨winner, inside, better⟩ := any_eq_true.mp beaten
      obtain ⟨front, rest, shape, member, best⟩ := ih (ne_nil_of_mem inside)
      refine ⟨front, rest, shape, mem_cons_of_mem first member, fun other here => ?_⟩
      rcases mem_cons.mp here with rfl | behind
      · exact trans better (best winner inside)
      · exact best other behind
    case isFalse best =>
      refine ⟨first, _, rfl, mem_cons_self, fun other here => ?_⟩
      rcases mem_cons.mp here with rfl | behind
      · exact (total other other).elim id id
      · refine (total other first).resolve_right fun yielded => best ?_
        exact any_eq_true.mpr ⟨other, behind, yielded⟩

end

end AnimusCore.Lib

import Mathlib.Data.Finset.Card
import Mathlib.Data.List.Infix
import Mathlib.Data.List.Basic

/-! Replicated logs and majorities. A log is a list of entries of which only the
term is visible here. A log is anchored in a family of leader logs when each of
its prefixes belongs to the leader log of the term of the prefix's last entry;
anchored logs that share a term at one index share everything before it. -/

set_option autoImplicit false

namespace AnimusCore.Lib.Consensus

open List

section Majorities

variable {Node : Type} [DecidableEq Node]

structure Quorum (members : Finset Node) (voters : Finset Node) : Prop where
  within : voters ⊆ members
  majority : members.card < 2 * voters.card

omit [DecidableEq Node] in
theorem Quorum.nonempty {members voters : Finset Node} (quorum : Quorum members voters) : voters.Nonempty := by
  have majority := quorum.majority
  rw [← Finset.card_pos]
  omega

theorem Quorum.intersect {members left right : Finset Node} (leftQuorum : Quorum members left)
    (rightQuorum : Quorum members right) : ∃ node, node ∈ left ∧ node ∈ right := by
  by_contra disjoint
  have separated : Disjoint left right := by
    rw [Finset.disjoint_left]
    intro node inLeft inRight
    exact disjoint ⟨node, inLeft, inRight⟩
  have union := Finset.card_le_card (Finset.union_subset leftQuorum.within rightQuorum.within)
  rw [Finset.card_union_of_disjoint separated] at union
  have leftMajority := leftQuorum.majority
  have rightMajority := rightQuorum.majority
  omega

end Majorities

section Logs

variable {Entry : Type} (termOf : Entry → Nat)

def lastTerm (log : List Entry) : Nat := (log.getLast?.map termOf).getD 0

/-- The candidate's log is at least as recent as the voter's. -/
def UpToDate (candidate voter : List Entry) : Prop :=
  lastTerm termOf voter < lastTerm termOf candidate ∨
    lastTerm termOf candidate = lastTerm termOf voter ∧ voter.length ≤ candidate.length

def Ascending (log : List Entry) : Prop :=
  log.Pairwise fun earlier later => termOf earlier ≤ termOf later

/-- Every nonempty prefix of the log lies on the leader log of its last term. -/
def Anchored (leaderLog : Nat → List Entry) (log : List Entry) : Prop :=
  ∀ kept last, kept ++ [last] <+: log → kept ++ [last] <+: leaderLog (termOf last)

variable {termOf} {leaderLog : Nat → List Entry}

@[simp] theorem lastTerm_nil : lastTerm termOf [] = 0 := rfl

@[simp] theorem lastTerm_concat (kept : List Entry) (last : Entry) :
    lastTerm termOf (kept ++ [last]) = termOf last := by
  simp [lastTerm]

variable {log : List Entry}

theorem Ascending.restrict {front : List Entry} (ascending : Ascending termOf log)
    (part : front <+: log) : Ascending termOf front :=
  List.Pairwise.sublist part.sublist ascending

theorem Ascending.concat {last : Entry} (ascending : Ascending termOf log)
    (bounded : ∀ entry ∈ log, termOf entry ≤ termOf last) : Ascending termOf (log ++ [last]) := by
  rw [Ascending, pairwise_append]
  refine ⟨ascending, pairwise_singleton _ _, ?_⟩
  intro entry member final inLast
  rw [mem_singleton] at inLast
  exact inLast ▸ bounded entry member

theorem Ascending.le_lastTerm (ascending : Ascending termOf log) {entry : Entry}
    (member : entry ∈ log) : termOf entry ≤ lastTerm termOf log := by
  rcases eq_nil_or_concat' log with rfl | ⟨kept, last, rfl⟩
  · simp at member
  · rw [lastTerm_concat]
    rcases mem_append.mp member with earlier | final
    · exact (pairwise_append.mp ascending).2.2 entry earlier last (by simp)
    · rw [mem_singleton.mp final]

theorem Anchored.restrict {front : List Entry} (anchored : Anchored termOf leaderLog log)
    (part : front <+: log) : Anchored termOf leaderLog front :=
  fun kept last inside => anchored kept last (inside.trans part)

theorem Anchored.mono {larger : Nat → List Entry} (anchored : Anchored termOf leaderLog log)
    (grown : ∀ term, leaderLog term <+: larger term) : Anchored termOf larger log :=
  fun kept last inside => (anchored kept last inside).trans (grown _)

theorem anchored_nil : Anchored termOf leaderLog [] := by
  intro kept last inside
  have short := inside.length_le
  simp at short

theorem Anchored.concat {last : Entry} (anchored : Anchored termOf leaderLog log)
    (whole : log ++ [last] <+: leaderLog (termOf last)) : Anchored termOf leaderLog (log ++ [last]) := by
  intro kept final inside
  rcases prefix_concat_iff.mp inside with same | shorter
  · obtain ⟨rfl, sameLast⟩ := append_inj' same rfl
    rw [singleton_inj] at sameLast
    exact sameLast ▸ whole
  · exact anchored kept final shorter

theorem Anchored.prefix_leaderLog (anchored : Anchored termOf leaderLog log) (nonempty : log ≠ []) :
    log <+: leaderLog (lastTerm termOf log) := by
  rcases eq_nil_or_concat' log with rfl | ⟨kept, last, rfl⟩
  · exact absurd rfl nonempty
  · rw [lastTerm_concat]
    exact anchored kept last (prefix_refl _)

variable {index : Nat}

theorem take_succ_eq {entry : Entry} (found : log[index]? = some entry) :
    log.take (index + 1) = log.take index ++ [entry] := by
  obtain ⟨bound, value⟩ := List.getElem?_eq_some_iff.mp found
  rw [take_add_one, found]
  rfl

theorem prefix_getElem?_eq {front : List Entry} (part : front <+: log)
    (inside : index < front.length) : log[index]? = front[index]? := by
  obtain ⟨suffix, rfl⟩ := part
  exact List.getElem?_append_left inside

/-- Anchored logs with entries of one term at one index agree up to it. -/
theorem Anchored.take_eq {left right : List Entry} {leftEntry rightEntry : Entry}
    (leftAnchored : Anchored termOf leaderLog left) (rightAnchored : Anchored termOf leaderLog right)
    (leftFound : left[index]? = some leftEntry) (rightFound : right[index]? = some rightEntry)
    (sameTerm : termOf leftEntry = termOf rightEntry) : left.take (index + 1) = right.take (index + 1) := by
  have leftPart : left.take index ++ [leftEntry] <+: leaderLog (termOf leftEntry) :=
    leftAnchored _ _ (take_succ_eq leftFound ▸ take_prefix _ _)
  have rightPart : right.take index ++ [rightEntry] <+: leaderLog (termOf leftEntry) :=
    sameTerm ▸ rightAnchored _ _ (take_succ_eq rightFound ▸ take_prefix _ _)
  have leftBound := (List.getElem?_eq_some_iff.mp leftFound).1
  have rightBound := (List.getElem?_eq_some_iff.mp rightFound).1
  rw [take_succ_eq leftFound, take_succ_eq rightFound]
  apply (prefix_of_prefix_length_le leftPart rightPart _).eq_of_length
  · simp only [length_append, length_take, length_singleton]
    omega
  · simp only [length_append, length_take, length_singleton]
    omega

/-- When the voter holds a prefix and the candidate's log ends in the same term
and is at least as long, the candidate holds the prefix too. -/
theorem Anchored.carry_equal {candidate voter front : List Entry}
    (candidateAnchored : Anchored termOf leaderLog candidate) (voterAnchored : Anchored termOf leaderLog voter)
    (sameTerm : lastTerm termOf candidate = lastTerm termOf voter) (longer : voter.length ≤ candidate.length)
    (nonempty : front ≠ []) (held : front <+: voter) : front <+: candidate := by
  have voterNonempty : voter ≠ [] := by
    rintro rfl
    exact nonempty (prefix_nil.mp held)
  have candidateNonempty : candidate ≠ [] := by
    rintro rfl
    exact voterNonempty (length_eq_zero_iff.mp (Nat.le_zero.mp longer))
  have onCandidate := candidateAnchored.prefix_leaderLog candidateNonempty
  have onVoter := voterAnchored.prefix_leaderLog voterNonempty
  rw [sameTerm] at onCandidate
  exact held.trans (prefix_of_prefix_length_le onVoter onCandidate longer)

end Logs

end AnimusCore.Lib.Consensus

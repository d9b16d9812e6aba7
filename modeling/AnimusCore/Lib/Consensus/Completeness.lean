import AnimusCore.Lib.Consensus.Soundness

/-! Leader completeness and agreement on committed prefixes. Both follow from the
invariant of a history alone: a decision of one term and an election of a later
term share a voter, and the voter's ballot carries the decided prefix to the
winner unless some leader in between was already elected without it. -/

set_option autoImplicit false

namespace AnimusCore.Lib.Consensus

open List

namespace History

variable {Node Entry : Type} [DecidableEq Node]

/-- A majority acknowledged the first `count` entries of the term's leader log,
the last of which belongs to the term itself. -/
structure Decided (members : Finset Node) (termOf : Entry → Nat)
    (history : History Node Entry) (term count : Nat) : Prop where
  positive : 0 < count
  own : lastTerm termOf ((history.leaderLog term).take count) = term
  majority : ∃ voters, Quorum members voters ∧ ∀ voter ∈ voters, count ≤ history.acked voter term

/-- The prefix lies within a decision of a term no later than `term`, or is empty. -/
def Committed (members : Finset Node) (termOf : Entry → Nat)
    (history : History Node Entry) (term : Nat) (front : List Entry) : Prop :=
  front = [] ∨ ∃ decidedTerm count, decidedTerm ≤ term ∧ Decided members termOf history decidedTerm count ∧
    front <+: (history.leaderLog decidedTerm).take count

variable {members : Finset Node} {termOf : Entry → Nat} {history : History Node Entry}

omit [DecidableEq Node] in
theorem Decided.length_le (sound : Sound members termOf history) {term count : Nat}
    (decided : Decided members termOf history term count) : count ≤ (history.leaderLog term).length := by
  obtain ⟨voters, quorum, acked⟩ := decided.majority
  obtain ⟨voter, member⟩ := quorum.nonempty
  exact (acked voter member).trans (sound.acked_length voter term)

omit [DecidableEq Node] in
theorem Decided.mono {past future : History Node Entry} {term count : Nat}
    (decided : Decided members termOf past term count) (sound : Sound members termOf past) (grown : past ≤ future) :
    Decided members termOf future term count := by
  obtain ⟨voters, quorum, acked⟩ := decided.majority
  refine ⟨decided.positive, ?_, voters, quorum, fun voter member =>
    (acked voter member).trans (grown.acked_le voter term)⟩
  rw [grown.take_leaderLog (decided.length_le sound)]
  exact decided.own

section
variable (sound : Sound members termOf history)
include sound

omit [DecidableEq Node] in
/-- A recent candidate holds every prefix its voter holds, provided the leaders of
all terms in between were elected with the prefix. -/
theorem Sound.carry {front candidate voter : List Entry} {term later : Nat} (nonempty : front ≠ [])
    (own : lastTerm termOf front = term) (candidateAnchored : Anchored termOf history.leaderLog candidate)
    (candidateLt : ∀ entry ∈ candidate, termOf entry < later)
    (voterAnchored : Anchored termOf history.leaderLog voter)
    (voterAscending : Ascending termOf voter) (recent : UpToDate termOf candidate voter) (held : front <+: voter)
    (between : ∀ middle, term < middle → middle < later → history.winner middle ≠ none →
      front <+: history.base middle) : front <+: candidate := by
  obtain ⟨kept, last, rfl⟩ : ∃ kept last, front = kept ++ [last] := (eq_nil_or_concat' front).resolve_left nonempty
  rw [lastTerm_concat] at own
  have reached : term ≤ lastTerm termOf voter := own ▸ voterAscending.le_lastTerm (held.subset (by simp))
  rcases recent with newer | ⟨sameTerm, longer⟩
  · -- The candidate ends in the log of a leader between the two terms.
    rcases eq_nil_or_concat' candidate with rfl | ⟨older, final, rfl⟩
    · simp at newer
    rw [lastTerm_concat] at newer
    have onLeader := candidateAnchored older final (prefix_refl _)
    have below := candidateLt final (by simp)
    have elected : history.winner (termOf final) ≠ none := by
      intro vacant
      rw [sound.leaderLog_none vacant] at onLeader
      simpa using prefix_nil.mp onLeader
    have onBase := between (termOf final) (reached.trans_lt newer) below elected
    have basePart : history.base (termOf final) <+: older ++ [final] := by
      apply prefix_of_prefix_length_le (sound.base_prefix elected) onLeader
      by_contra short
      have inside : older ++ [final] <+: history.base (termOf final) :=
        prefix_of_prefix_length_le onLeader (sound.base_prefix elected) (Nat.le_of_not_le short)
      exact absurd (sound.base_lt elected final (inside.subset (by simp))) (lt_irrefl _)
    exact onBase.trans basePart
  · exact candidateAnchored.carry_equal voterAnchored sameTerm longer nonempty held

variable {term count : Nat} (decided : Decided members termOf history term count)
include decided

/-- Leader completeness: what a term decided, every later leader was elected with. -/
theorem Sound.leader_completeness {later : Nat} (elected : history.winner later ≠ none)
    (above : term < later) : (history.leaderLog term).take count <+: history.base later := by
  induction later using Nat.strong_induction_on with
  | _ later ih =>
    obtain ⟨leader, won⟩ := Option.ne_none_iff_exists'.mp elected
    obtain ⟨voters, quorum, ran, votes⟩ := sound.elected won
    obtain ⟨deciders, deciding, acked⟩ := decided.majority
    obtain ⟨voter, votedThere, ackedHere⟩ := quorum.intersect deciding
    obtain ⟨ballot, cast, forLeader, contested⟩ := votes voter votedThere
    obtain ⟨log, candidacy, recent⟩ := sound.ballot_campaign cast
    rw [forLeader, ran] at candidacy
    cases candidacy
    have between : ∀ middle, term < middle → middle < later → history.winner middle ≠ none →
        (history.leaderLog term).take count <+: history.base middle :=
      fun middle low high midElected => ih middle high midElected low
    have held : (history.leaderLog term).take count <+: ballot.voterLog := by
      rcases sound.acked_ballot (acked voter ackedHere) above cast contested with
        held | ⟨middle, low, high, midElected, absent⟩
      · exact held
      · exact absurd (between middle low high midElected) absent
    refine sound.carry ?_ decided.own (sound.campaign_anchored ran) (sound.campaign_lt ran)
      (sound.ballot_anchored cast) (sound.ballot_ascending cast) recent held between
    intro empty
    have length := congrArg List.length empty
    rw [length_take, min_eq_left (decided.length_le sound)] at length
    exact absurd length decided.positive.ne'

theorem Sound.decided_prefix {later : Nat} (elected : history.winner later ≠ none)
    (above : term ≤ later) : (history.leaderLog term).take count <+: history.leaderLog later := by
  rcases Nat.lt_or_eq_of_le above with earlier | rfl
  · exact (sound.leader_completeness decided elected earlier).trans (sound.base_prefix elected)
  · exact take_prefix _ _

omit [DecidableEq Node] in
theorem Sound.decided_elected : history.winner term ≠ none := by
  intro vacant
  have bound := decided.length_le sound
  rw [sound.leaderLog_none vacant] at bound
  exact absurd bound (Nat.not_le.mpr decided.positive)

end

omit [DecidableEq Node] in
theorem Committed.mono {past future : History Node Entry} {term higher : Nat} {front : List Entry}
    (committed : Committed members termOf past term front) (sound : Sound members termOf past)
    (grown : past ≤ future) (above : term ≤ higher) : Committed members termOf future higher front := by
  rcases committed with empty | ⟨decidedTerm, count, below, decided, inside⟩
  · exact .inl empty
  · refine .inr ⟨decidedTerm, count, below.trans above, decided.mono sound grown, ?_⟩
    rwa [grown.take_leaderLog (decided.length_le sound)]

omit [DecidableEq Node] in
theorem Committed.restrict {term : Nat} {front shorter : List Entry}
    (committed : Committed members termOf history term front) (part : shorter <+: front) :
    Committed members termOf history term shorter := by
  rcases committed with rfl | ⟨decidedTerm, count, below, decided, inside⟩
  · exact .inl (prefix_nil.mp part)
  · exact .inr ⟨decidedTerm, count, below, decided, part.trans inside⟩

theorem Sound.committed_prefix (sound : Sound members termOf history) {term later : Nat} {front : List Entry}
    (committed : Committed members termOf history term front) (elected : history.winner later ≠ none)
    (above : term ≤ later) : front <+: history.leaderLog later := by
  rcases committed with rfl | ⟨decidedTerm, count, below, decided, inside⟩
  · exact nil_prefix
  · exact inside.trans (sound.decided_prefix decided elected (below.trans above))

theorem Sound.committed_comparable (sound : Sound members termOf history) {leftTerm rightTerm : Nat}
    {left right : List Entry} (leftCommitted : Committed members termOf history leftTerm left)
    (rightCommitted : Committed members termOf history rightTerm right) : left <+: right ∨ right <+: left := by
  rcases leftCommitted with rfl | ⟨leftDecided, leftCount, -, leftMajority, leftInside⟩
  · exact .inl nil_prefix
  rcases rightCommitted with rfl | ⟨rightDecided, rightCount, -, rightMajority, rightInside⟩
  · exact .inr nil_prefix
  rcases Nat.le_total leftDecided rightDecided with below | above
  · exact prefix_or_prefix_of_prefix
      (leftInside.trans (sound.decided_prefix leftMajority (sound.decided_elected rightMajority) below))
      (rightInside.trans (List.take_prefix _ _))
  · exact prefix_or_prefix_of_prefix (leftInside.trans (List.take_prefix _ _))
      (rightInside.trans (sound.decided_prefix rightMajority (sound.decided_elected leftMajority) above))

end History

end AnimusCore.Lib.Consensus

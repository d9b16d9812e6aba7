import AnimusCore.Lib.Consensus.History

/-! The invariant of a protocol history and the changes that keep it. Each change
has one lemma that states when it is admissible; a protocol step is a short
sequence of changes, so its soundness is a chain of these lemmas. -/

set_option autoImplicit false

namespace AnimusCore.Lib.Consensus

namespace History

variable {Node Entry : Type}

/-- Some leader of a term strictly between the bounds was elected without the
given prefix. -/
def Missed (history : History Node Entry) (front : List Entry) (low high : Nat) : Prop :=
  ∃ term, low < term ∧ term < high ∧ history.winner term ≠ none ∧ ¬ front <+: history.base term

/-- The invariant. Ballots and campaigns precede the present term of their node,
logs are anchored in the leader logs, and an acknowledged prefix is lost by a
node, or missing from a contested ballot, only when a leader of a later term was
elected without it. -/
structure Sound (members : Finset Node) (termOf : Entry → Nat) (history : History Node Entry) : Prop where
  ballot_term : ∀ {node term ballot}, history.ballot node term = some ballot → term ≤ history.term node
  campaign_term : ∀ {node term log}, history.campaign node term = some log → term ≤ history.term node
  ballot_campaign : ∀ {node term ballot}, history.ballot node term = some ballot →
    ∃ log, history.campaign ballot.candidate term = some log ∧ UpToDate termOf log ballot.voterLog
  campaign_anchored : ∀ {node term log}, history.campaign node term = some log → Anchored termOf history.leaderLog log
  campaign_lt : ∀ {node term log}, history.campaign node term = some log → ∀ entry ∈ log, termOf entry < term
  ballot_anchored : ∀ {node term ballot}, history.ballot node term = some ballot →
    Anchored termOf history.leaderLog ballot.voterLog
  ballot_ascending : ∀ {node term ballot}, history.ballot node term = some ballot → Ascending termOf ballot.voterLog
  contested : ∀ {node term ballot}, history.winner term = none →
    history.ballot node term = some ballot → ballot.contested
  log_anchored : ∀ node, Anchored termOf history.leaderLog (history.log node)
  log_ascending : ∀ node, Ascending termOf (history.log node)
  log_le : ∀ node, ∀ entry ∈ history.log node, termOf entry ≤ history.term node
  leaderLog_anchored : ∀ term, Anchored termOf history.leaderLog (history.leaderLog term)
  leaderLog_ascending : ∀ term, Ascending termOf (history.leaderLog term)
  leaderLog_le : ∀ term, ∀ entry ∈ history.leaderLog term, termOf entry ≤ term
  leaderLog_none : ∀ {term}, history.winner term = none → history.leaderLog term = []
  base_prefix : ∀ {term}, history.winner term ≠ none → history.base term <+: history.leaderLog term
  base_lt : ∀ {term}, history.winner term ≠ none → ∀ entry ∈ history.base term, termOf entry < term
  elected : ∀ {term node}, history.winner term = some node →
    ∃ voters, Quorum members voters ∧ history.campaign node term = some (history.base term) ∧
      ∀ voter ∈ voters, ∃ ballot, history.ballot voter term = some ballot ∧ ballot.candidate = node ∧ ballot.contested
  acked_length : ∀ node term, history.acked node term ≤ (history.leaderLog term).length
  acked_term : ∀ node term, 0 < history.acked node term → term ≤ history.term node
  acked_log : ∀ {node term count}, count ≤ history.acked node term →
    (history.leaderLog term).take count <+: history.log node ∨
      history.Missed ((history.leaderLog term).take count) term (history.term node + 1)
  acked_ballot : ∀ {node term count later ballot}, count ≤ history.acked node term →
    term < later → history.ballot node later = some ballot → ballot.contested →
    (history.leaderLog term).take count <+: ballot.voterLog ∨
      history.Missed ((history.leaderLog term).take count) term later

variable {members : Finset Node} {termOf : Entry → Nat} {history : History Node Entry}

theorem Missed.mono {past future : History Node Entry} {front : List Entry}
    {low high higher : Nat} (missed : past.Missed front low high) (grown : past ≤ future)
    (wider : high ≤ higher) : future.Missed front low higher := by
  obtain ⟨term, above, below, elected, absent⟩ := missed
  refine ⟨term, above, below.trans_le wider, grown.winner_ne_none elected, ?_⟩
  rwa [grown.base_eq elected]

theorem Sound.initial : Sound members termOf (History.initial : History Node Entry) := by
  constructor <;> simp [History.initial, anchored_nil, Ascending]

variable [DecidableEq Node]

variable {term : Nat} {node : Node}

/-- A quorum for a node that has not won its term finds the term without winner:
the quorum of any winner would share a voter with it. -/
theorem Sound.winner_eq_none (sound : Sound members termOf history) {voters : Finset Node}
    (quorum : Quorum members voters)
    (votes : ∀ voter ∈ voters, ∃ ballot, history.ballot voter term = some ballot ∧ ballot.candidate = node)
    (fresh : history.winner term ≠ some node) : history.winner term = none := by
  cases won : history.winner term with
  | none => rfl
  | some other =>
    obtain ⟨otherVoters, otherQuorum, -, otherVotes⟩ := sound.elected won
    obtain ⟨voter, inLeft, inRight⟩ := quorum.intersect otherQuorum
    obtain ⟨ballot, cast, forNode⟩ := votes voter inLeft
    obtain ⟨otherBallot, otherCast, forOther, -⟩ := otherVotes voter inRight
    rw [cast] at otherCast
    cases otherCast
    rw [won, ← forNode, ← forOther] at fresh
    exact absurd rfl fresh

theorem ActsAs.raise (higher : history.term node ≤ term) : ActsAs node history (history.raise node term) where
  __ := ActsAs.refl _ history
  term_le other := by
    by_cases same : other = node
    · subst other
      simpa [History.raise] using higher
    · simp [History.raise, same]
  term_same other := by simp [History.raise, other]

theorem Sound.raise (sound : Sound members termOf history) (higher : history.term node ≤ term) :
    Sound members termOf (history.raise node term) := by
  have grown := ActsAs.raise higher
  have larger : history ≤ history.raise node term := grown.toExtends
  exact { sound with
    ballot_term := fun cast => (sound.ballot_term cast).trans (grown.term_le _)
    campaign_term := fun ran => (sound.campaign_term ran).trans (grown.term_le _)
    log_le := fun other entry member =>
      (sound.log_le other entry member).trans (grown.term_le other)
    acked_term := fun other acked positive =>
      (sound.acked_term other acked positive).trans (grown.term_le other)
    acked_log := fun within => (sound.acked_log within).imp_right fun missed =>
      missed.mono larger (Nat.succ_le_succ (grown.term_le _)) }

theorem ActsAs.enlist (fresh : history.campaign node (history.term node) = none) :
    ActsAs node history (history.enlist node) where
  __ := ActsAs.refl _ history
  campaign_eq := by
    intro other term log ran
    by_cases same : other = node ∧ term = history.term node
    · obtain ⟨rfl, rfl⟩ := same
      rw [fresh] at ran
      cases ran
    · simpa [History.enlist, same] using ran
  campaign_same other := by simp [History.enlist, other]

variable {log : List Entry}

theorem enlist_campaign {other : Node} (ran : (history.enlist node).campaign other term = some log) :
    history.campaign other term = some log ∨ other = node ∧ term = history.term node ∧ log = history.log node := by
  by_cases same : other = node ∧ term = history.term node
  · simp only [History.enlist, same, and_self, ↓reduceIte, Option.some.injEq] at ran
    exact .inr ⟨same.1, same.2, ran.symm⟩
  · simp only [History.enlist, same, ↓reduceIte] at ran
    exact .inl ran

theorem Sound.enlist (sound : Sound members termOf history) (fresh : history.campaign node (history.term node) = none)
    (older : ∀ entry ∈ history.log node, termOf entry < history.term node) :
    Sound members termOf (history.enlist node) := by
  have grown := ActsAs.enlist fresh
  refine { sound with
    campaign_term := ?_, ballot_campaign := ?_, campaign_anchored := ?_
    campaign_lt := ?_, elected := ?_ }
  · intro other term log ran
    rcases enlist_campaign ran with before | ⟨rfl, rfl, rfl⟩
    · exact sound.campaign_term before
    · exact le_refl _
  · intro other term ballot cast
    obtain ⟨log, ran, recent⟩ := sound.ballot_campaign cast
    exact ⟨log, grown.campaign_eq ran, recent⟩
  · intro other term log ran
    rcases enlist_campaign ran with before | ⟨rfl, rfl, rfl⟩
    · exact sound.campaign_anchored before
    · exact sound.log_anchored other
  · intro other term log ran
    rcases enlist_campaign ran with before | ⟨rfl, rfl, rfl⟩
    · exact sound.campaign_lt before
    · exact older
  · intro term winner won
    obtain ⟨voters, quorum, ran, votes⟩ := sound.elected won
    exact ⟨voters, quorum, grown.campaign_eq ran, votes⟩

theorem ActsAs.cast {voter candidate : Node} (fresh : history.ballot voter (history.term voter) = none) :
    ActsAs voter history (history.cast voter candidate) where
  __ := ActsAs.refl _ history
  ballot_eq := by
    intro other term ballot recorded
    by_cases same : other = voter ∧ term = history.term voter
    · obtain ⟨rfl, rfl⟩ := same
      rw [fresh] at recorded
      cases recorded
    · simpa [History.cast, same] using recorded
  ballot_same other := by simp [History.cast, other]

theorem cast_ballot {voter candidate other : Node} {ballot : Ballot Node Entry}
    (recorded : (history.cast voter candidate).ballot other term = some ballot) :
    history.ballot other term = some ballot ∨ other = voter ∧ term = history.term voter ∧
        ballot = ⟨candidate, history.log voter, history.winner (history.term voter) = none⟩ := by
  by_cases same : other = voter ∧ term = history.term voter
  · simp only [History.cast, same, and_self, ↓reduceIte, Option.some.injEq] at recorded
    exact .inr ⟨same.1, same.2, recorded.symm⟩
  · simp only [History.cast, same, ↓reduceIte] at recorded
    exact .inl recorded

section
variable (sound : Sound members termOf history)
include sound

theorem Sound.cast {voter candidate : Node} (fresh : history.ballot voter (history.term voter) = none)
    (ran : history.campaign candidate (history.term voter) = some log)
    (recent : UpToDate termOf log (history.log voter)) : Sound members termOf (history.cast voter candidate) := by
  have grown : ActsAs voter history (history.cast voter candidate) := ActsAs.cast fresh
  refine { sound with
    ballot_term := ?_, ballot_campaign := ?_, ballot_anchored := ?_, ballot_ascending := ?_
    contested := ?_, elected := ?_, acked_ballot := ?_ }
  · intro other term ballot recorded
    rcases cast_ballot recorded with before | ⟨rfl, rfl, rfl⟩
    · exact sound.ballot_term before
    · exact le_refl _
  · intro other term ballot recorded
    rcases cast_ballot recorded with before | ⟨rfl, rfl, rfl⟩
    · exact sound.ballot_campaign before
    · exact ⟨log, ran, recent⟩
  · intro other term ballot recorded
    rcases cast_ballot recorded with before | ⟨rfl, rfl, rfl⟩
    · exact sound.ballot_anchored before
    · exact sound.log_anchored other
  · intro other term ballot recorded
    rcases cast_ballot recorded with before | ⟨rfl, rfl, rfl⟩
    · exact sound.ballot_ascending before
    · exact sound.log_ascending other
  · intro other term ballot open_ recorded
    rcases cast_ballot recorded with before | ⟨rfl, rfl, rfl⟩
    · exact sound.contested open_ before
    · exact open_
  · intro term winner won
    obtain ⟨voters, quorum, base, votes⟩ := sound.elected won
    refine ⟨voters, quorum, base, fun other member => ?_⟩
    obtain ⟨ballot, recorded, forWinner, early⟩ := votes other member
    exact ⟨ballot, grown.ballot_eq recorded, forWinner, early⟩
  · intro other term count later ballot within below recorded early
    rcases cast_ballot recorded with before | ⟨rfl, rfl, rfl⟩
    · exact sound.acked_ballot within below before early
    · -- The term has no winner yet, so a leader that missed the prefix is earlier.
      rcases sound.acked_log within with held | ⟨missing, above, upTo, elected, absent⟩
      · exact .inl held
      · refine .inr ⟨missing, above, ?_, elected, absent⟩
        rcases Nat.lt_succ_iff_lt_or_eq.mp upTo with earlier | present
        · exact earlier
        · exact absurd (present ▸ early) elected

omit [DecidableEq Node] in
theorem ActsAs.elect (vacant : history.winner (history.term node) = none) :
    ActsAs node history (history.elect node) where
  __ := ActsAs.refl _ history
  winner_eq := by
    intro term winner won
    have different : term ≠ history.term node := by
      rintro rfl
      rw [vacant] at won
      cases won
    simpa [History.elect, different] using won
  base_eq := by
    intro term elected
    have different : term ≠ history.term node := by
      rintro rfl
      exact elected vacant
    simp [History.elect, different]
  leaderLog_prefix term := by
    by_cases same : term = history.term node
    · subst same
      rw [sound.leaderLog_none vacant]
      exact List.nil_prefix
    · simp [History.elect, same]
  winner_same := by
    intro term winner other won
    by_cases same : term = history.term node
    · simp only [History.elect, same, ↓reduceIte, Option.some.injEq] at won
      exact absurd won.symm other
    · simpa [History.elect, same] using won
  leaderLog_same := by
    intro term winner other won
    by_cases same : term = history.term node
    · simp only [History.elect, same, ↓reduceIte, Option.some.injEq] at won
      exact absurd won.symm other
    · simp [History.elect, same]

omit [DecidableEq Node] in
theorem Sound.elect {voters : Finset Node} (vacant : history.winner (history.term node) = none)
    (ran : history.campaign node (history.term node) = some (history.log node)) (quorum : Quorum members voters)
    (votes : ∀ voter ∈ voters, ∃ ballot,
      history.ballot voter (history.term node) = some ballot ∧ ballot.candidate = node) :
    Sound members termOf (history.elect node) := by
  have grown := ActsAs.elect sound vacant
  have larger : history ≤ history.elect node := grown.toExtends
  have older := sound.campaign_lt ran
  have anchor : ∀ {log}, Anchored termOf history.leaderLog log → Anchored termOf (history.elect node).leaderLog log :=
    fun anchored => anchored.mono grown.leaderLog_prefix
  -- Nothing was acknowledged in the new term, so acknowledged prefixes are unchanged.
  have unchanged : ∀ {other term count}, count ≤ history.acked other term →
      ((history.elect node).leaderLog term).take count = (history.leaderLog term).take count :=
    fun within => grown.toExtends.take_leaderLog (within.trans (sound.acked_length _ _))
  refine { sound with
    campaign_anchored := fun before => anchor (sound.campaign_anchored before)
    ballot_anchored := fun before => anchor (sound.ballot_anchored before)
    log_anchored := fun other => anchor (sound.log_anchored other)
    contested := ?_, leaderLog_anchored := ?_, leaderLog_ascending := ?_
    leaderLog_le := ?_, leaderLog_none := ?_, base_prefix := ?_, base_lt := ?_
    elected := ?_, acked_length := ?_, acked_log := ?_, acked_ballot := ?_ }
  · intro other term ballot open_ cast
    by_cases same : term = history.term node
    · simp [History.elect, same] at open_
    · exact sound.contested (by simpa [History.elect, same] using open_) cast
  · intro term
    by_cases same : term = history.term node
    · simpa [History.elect, same] using anchor (sound.log_anchored node)
    · simpa [History.elect, same] using anchor (sound.leaderLog_anchored term)
  · intro term
    by_cases same : term = history.term node
    · simpa [History.elect, same] using sound.log_ascending node
    · simpa [History.elect, same] using sound.leaderLog_ascending term
  · intro term entry member
    by_cases same : term = history.term node
    · simp only [History.elect, same, ↓reduceIte] at member
      exact same ▸ (older entry member).le
    · simp only [History.elect, same, ↓reduceIte] at member
      exact sound.leaderLog_le term entry member
  · intro term open_
    by_cases same : term = history.term node
    · simp [History.elect, same] at open_
    · simp only [History.elect, same, ↓reduceIte] at open_ ⊢
      exact sound.leaderLog_none open_
  · intro term elected
    by_cases same : term = history.term node
    · simp [History.elect, same]
    · simp only [History.elect, same, ↓reduceIte] at elected ⊢
      exact sound.base_prefix elected
  · intro term elected entry member
    by_cases same : term = history.term node
    · simp only [History.elect, same, ↓reduceIte] at member
      exact same ▸ older entry member
    · simp only [History.elect, same, ↓reduceIte] at elected member
      exact sound.base_lt elected entry member
  · intro term winner won
    by_cases same : term = history.term node
    · subst same
      simp only [History.elect, ↓reduceIte, Option.some.injEq] at won ⊢
      subst won
      refine ⟨voters, quorum, ran, fun voter member => ?_⟩
      obtain ⟨ballot, cast, forNode⟩ := votes voter member
      exact ⟨ballot, cast, forNode, sound.contested vacant cast⟩
    · simp only [History.elect, same, ↓reduceIte] at won ⊢
      exact sound.elected won
  · intro other term
    exact (sound.acked_length other term).trans (grown.leaderLog_prefix term).length_le
  · intro other term count within
    rw [unchanged within]
    exact (sound.acked_log within).imp_right fun missed => missed.mono larger (le_refl _)
  · intro other term count later ballot within below cast early
    rw [unchanged within]
    exact (sound.acked_ballot within below cast early).imp_right fun missed => missed.mono larger (le_refl _)

end

omit [DecidableEq Node] in
theorem ActsAs.extend (entry : Entry) (won : history.winner term = some node) :
    ActsAs node history (history.extend term entry) where
  __ := ActsAs.refl _ history
  leaderLog_prefix other := by
    by_cases same : other = term
    · subst same
      simp [History.extend]
    · simp [History.extend, same]
  leaderLog_same := by
    intro other winner different wonOther
    have apart : other ≠ term := by
      rintro rfl
      change history.winner other = some winner at wonOther
      rw [won, Option.some.injEq] at wonOther
      exact different wonOther.symm
    simp [History.extend, apart]

omit [DecidableEq Node] in
theorem Sound.extend (sound : Sound members termOf history) {entry : Entry} (won : history.winner term = some node)
    (own : termOf entry = term) : Sound members termOf (history.extend term entry) := by
  have grown := ActsAs.extend entry won
  have anchor : ∀ {log}, Anchored termOf history.leaderLog log →
      Anchored termOf (history.extend term entry).leaderLog log :=
    fun anchored => anchored.mono grown.leaderLog_prefix
  have unchanged : ∀ {other acked count}, count ≤ history.acked other acked →
      ((history.extend term entry).leaderLog acked).take count = (history.leaderLog acked).take count :=
    fun within => grown.toExtends.take_leaderLog (within.trans (sound.acked_length _ _))
  refine { sound with
    campaign_anchored := fun before => anchor (sound.campaign_anchored before)
    ballot_anchored := fun before => anchor (sound.ballot_anchored before)
    log_anchored := fun other => anchor (sound.log_anchored other)
    leaderLog_anchored := ?_, leaderLog_ascending := ?_, leaderLog_le := ?_
    leaderLog_none := ?_, base_prefix := ?_, acked_length := ?_, acked_log := ?_
    acked_ballot := ?_ }
  · intro other
    by_cases same : other = term
    · subst same
      have whole : (history.extend other entry).leaderLog other =
          history.leaderLog other ++ [entry] := by simp [History.extend]
      rw [whole]
      refine (anchor (sound.leaderLog_anchored other)).concat ?_
      rw [own, whole]
    · simpa [History.extend, same] using anchor (sound.leaderLog_anchored other)
  · intro other
    by_cases same : other = term
    · subst same
      simp only [History.extend, ↓reduceIte]
      exact (sound.leaderLog_ascending other).concat fun earlier member =>
        own ▸ sound.leaderLog_le other earlier member
    · simpa [History.extend, same] using sound.leaderLog_ascending other
  · intro other added member
    by_cases same : other = term
    · subst same
      simp only [History.extend, ↓reduceIte, List.mem_append, List.mem_singleton] at member
      rcases member with before | rfl
      · exact sound.leaderLog_le other added before
      · exact own.le
    · simp only [History.extend, same, ↓reduceIte] at member
      exact sound.leaderLog_le other added member
  · intro other open_
    have apart : other ≠ term := by
      rintro rfl
      change history.winner other = none at open_
      rw [won] at open_
      cases open_
    simp only [History.extend, apart, ↓reduceIte]
    exact sound.leaderLog_none open_
  · intro other elected
    exact (sound.base_prefix elected).trans (grown.leaderLog_prefix other)
  · intro other acked
    exact (sound.acked_length other acked).trans (grown.leaderLog_prefix acked).length_le
  · intro other acked count within
    rw [unchanged within]
    exact sound.acked_log within
  · intro other acked count later ballot within below cast early
    rw [unchanged within]
    exact sound.acked_ballot within below cast early

theorem ActsAs.relog : ActsAs node history (history.relog node log) where
  __ := ActsAs.refl _ history
  log_same other := by simp [History.relog, other]

/-- A log may replace the present one when every acknowledged prefix survives or
was missed by a leader no later than the node's term. -/
theorem Sound.relog (sound : Sound members termOf history)
    (anchored : Anchored termOf history.leaderLog log) (ascending : Ascending termOf log)
    (bounded : ∀ entry ∈ log, termOf entry ≤ history.term node)
    (kept : ∀ {term count}, count ≤ history.acked node term →
      (history.leaderLog term).take count <+: history.log node → (history.leaderLog term).take count <+: log ∨
        history.Missed ((history.leaderLog term).take count) term (history.term node + 1)) :
    Sound members termOf (history.relog node log) := by
  refine { sound with log_anchored := ?_, log_ascending := ?_, log_le := ?_, acked_log := ?_ }
  · intro other
    by_cases same : other = node
    · simpa [History.relog, same] using anchored
    · simpa [History.relog, same] using sound.log_anchored other
  · intro other
    by_cases same : other = node
    · simpa [History.relog, same] using ascending
    · simpa [History.relog, same] using sound.log_ascending other
  · intro other entry member
    by_cases same : other = node
    · subst same
      simp only [History.relog, ↓reduceIte] at member
      exact bounded entry member
    · simp only [History.relog, same, ↓reduceIte] at member
      exact sound.log_le other entry member
  · intro other term count within
    by_cases same : other = node
    · subst same
      simp only [History.relog, ↓reduceIte]
      rcases sound.acked_log within with held | missed
      · exact kept within held
      · exact .inr missed
    · simp only [History.relog, same, ↓reduceIte]
      exact sound.acked_log within

variable {count : Nat}

theorem ActsAs.acknowledge : ActsAs node history (history.acknowledge node count) where
  __ := ActsAs.refl _ history
  acked_le other term := by
    by_cases same : other = node ∧ term = history.term node
    · simp [History.acknowledge, same]
    · simp [History.acknowledge, same]

theorem acknowledge_acked {other : Node} {bound : Nat}
    (within : bound ≤ (history.acknowledge node count).acked other term) :
    bound ≤ history.acked other term ∨ other = node ∧ term = history.term node ∧ bound ≤ count := by
  by_cases same : other = node ∧ term = history.term node
  · simp only [History.acknowledge, same, and_self, ↓reduceIte, le_max_iff] at within
    rcases within with before | added
    · exact .inl (by simpa [same] using before)
    · exact .inr ⟨same.1, same.2, added⟩
  · simp only [History.acknowledge, same, ↓reduceIte] at within
    exact .inl within

theorem Sound.acknowledge (sound : Sound members termOf history)
    (bounded : count ≤ (history.leaderLog (history.term node)).length)
    (held : (history.leaderLog (history.term node)).take count <+: history.log node) :
    Sound members termOf (history.acknowledge node count) := by
  refine { sound with
    acked_length := ?_, acked_term := ?_, acked_log := ?_, acked_ballot := ?_ }
  · intro other term
    rcases acknowledge_acked (le_refl ((history.acknowledge node count).acked other term)) with
      before | ⟨rfl, rfl, added⟩
    · exact before.trans (sound.acked_length other term)
    · exact added.trans bounded
  · intro other term positive
    rcases acknowledge_acked (Nat.succ_le_of_lt positive) with before | ⟨rfl, rfl, -⟩
    · exact sound.acked_term other term (Nat.lt_of_succ_le before)
    · exact le_refl _
  · intro other term amount within
    rcases acknowledge_acked within with before | ⟨rfl, rfl, added⟩
    · exact sound.acked_log before
    · exact .inl ((List.take_prefix_take_left added).trans held)
  · intro other term amount later ballot within below cast early
    rcases acknowledge_acked within with before | ⟨rfl, rfl, -⟩
    · exact sound.acked_ballot before below cast early
    · exact absurd (sound.ballot_term cast) (Nat.not_le.mpr below)

def lead (history : History Node Entry) (node : Node) (entry : Entry) : History Node Entry :=
  let log := history.log node ++ [entry]
  ((history.extend (history.term node) entry).relog node log).acknowledge node log.length

theorem ActsAs.lead (entry : Entry) (won : history.winner (history.term node) = some node) :
    ActsAs node history (history.lead node entry) :=
  (ActsAs.extend entry won).trans (ActsAs.relog.trans ActsAs.acknowledge)

theorem Sound.lead (sound : Sound members termOf history) {entry : Entry}
    (won : history.winner (history.term node) = some node)
    (whole : history.leaderLog (history.term node) = history.log node)
    (own : termOf entry = history.term node) : Sound members termOf (history.lead node entry) := by
  have extended := sound.extend won own
  have leaderLog : (history.extend (history.term node) entry).leaderLog (history.term node) =
      history.log node ++ [entry] := by
    simp [History.extend, whole]
  have replaced : Sound members termOf
      ((history.extend (history.term node) entry).relog node (history.log node ++ [entry])) := by
    refine extended.relog ?_ ?_ ?_ ?_
    · rw [← leaderLog]
      exact extended.leaderLog_anchored _
    · rw [← leaderLog]
      exact extended.leaderLog_ascending _
    · rw [← leaderLog]
      exact extended.leaderLog_le _
    · intro term count _ held
      exact .inl (held.trans (List.prefix_append _ _))
  refine replaced.acknowledge ?_ ?_
  · change _ ≤ ((history.extend _ entry).leaderLog (history.term node)).length
    rw [leaderLog]
  · change ((history.extend _ entry).leaderLog (history.term node)).take _ <+: _
    rw [leaderLog, List.take_length]
    simp [History.relog]

omit [DecidableEq Node] in
/-- A log that leaves the leader's log at an index where their terms differ keeps
every acknowledged prefix except those the leader was elected without. -/
theorem Sound.kept_of_divergence (sound : Sound members termOf history) {index : Nat} {mine theirs : Entry}
    (elected : history.winner (history.term node) ≠ none) (agreed : (history.log node).take index <+: log)
    (mineFound : (history.log node)[index]? = some mine)
    (theirsFound : (history.leaderLog (history.term node))[index]? = some theirs)
    (differ : termOf mine ≠ termOf theirs) (within : count ≤ history.acked node term)
    (held : (history.leaderLog term).take count <+: history.log node) : (history.leaderLog term).take count <+: log ∨
      history.Missed ((history.leaderLog term).take count) term (history.term node + 1) := by
  have full : ((history.leaderLog term).take count).length = count := by
    rw [List.length_take]
    exact min_eq_left (within.trans (sound.acked_length node term))
  rcases Nat.lt_or_ge index count with inside | outside
  · have entryHeld : ((history.leaderLog term).take count)[index]? = some mine := by
      rw [← mineFound]
      exact (prefix_getElem?_eq held (full.symm ▸ inside)).symm
    have lost : ¬ (history.leaderLog term).take count <+: history.leaderLog (history.term node) := by
      intro onLeader
      have entryThere := prefix_getElem?_eq onLeader (full.symm ▸ inside)
      rw [entryHeld, theirsFound, Option.some.injEq] at entryThere
      exact differ (congrArg termOf entryThere.symm)
    have reached := sound.acked_term node term (by omega)
    refine .inr ⟨history.term node, ?_, Nat.lt_succ_self _, elected, fun onBase =>
      lost (onBase.trans (sound.base_prefix elected))⟩
    rcases Nat.lt_or_eq_of_le reached with earlier | same
    · exact earlier
    · exact absurd (same ▸ List.take_prefix _ _) lost
  · refine .inl ((List.prefix_take_iff.mpr ⟨held, ?_⟩).trans agreed)
    rw [full]
    exact outside

end History

end AnimusCore.Lib.Consensus

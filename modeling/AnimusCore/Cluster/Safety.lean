import AnimusCore.Cluster.Commit

/-! The safety properties that hold in every run of the cluster: one leader per
term, one vote per term, matching logs, and leaders that hold what earlier terms
committed. Each is read off the history that the run has. -/

set_option autoImplicit false

namespace AnimusCore.Cluster

open Lib Lib.Consensus

variable {cluster : Membership} {record : Record}

def threeNodes : Membership where
  ids := [1, 2, 3]
  peers id := [1, 2, 3].filter (· ≠ id)
  nodup := by decide
  peers_nodup id _ := List.Nodup.filter _ (by decide)
  mem_peers id _ peer := by simp [List.mem_filter]

def campaign (id : NodeId) : List Action :=
  [.startElection id, .deliverVoteRequest 0, .deliverVoteResponse 0, .deliverVoteRequest 0, .deliverVoteResponse 0]

def electUnopposed (id : NodeId) : List Action := campaign id ++ [.finishElection 0]

def firstLeader : State := finalState (step threeNodes) initial (electUnopposed 1)

/-- The voter gave its vote of the term to the candidate: it remembers the vote, or
a response that grants it is under way. -/
inductive Voted (state : State) (voter : NodeId) (term : Nat) (candidate : NodeId) : Prop where
  | remembered : (state.nodes voter).hasVotedThisTerm = true →
      (state.nodes voter).currentTerm = term → (state.nodes voter).votedFor = candidate →
      Voted state voter term candidate
  | granted (response : VoteResponse) : response ∈ state.voteResponses →
      response.result.voteGranted = true → response.call.peer = voter →
      response.result.term = term → response.call.node = candidate →
      Voted state voter term candidate

theorem Tracks.ballot_of_voted {state : State} (tracks : Tracks cluster state record)
    {voter candidate : NodeId} {term : Nat} (voted : Voted state voter term candidate) :
    ∃ ballot, record.ballot voter term = some ballot ∧ ballot.candidate = candidate := by
  cases voted with
  | remembered set current forCandidate =>
    obtain ⟨ballot, cast, chosen⟩ := (tracks.node voter).voted set
    exact ⟨ballot, current ▸ cast, chosen.trans forCandidate⟩
  | granted response inside granted peer current forCandidate =>
    obtain ⟨ballot, cast, chosen⟩ := tracks.voteResponse response inside granted
    rw [peer, current] at cast
    exact ⟨ballot, cast, chosen.trans forCandidate⟩

/-- At most one node ever leads a term, and no node gives its vote of one term to
two candidates, at the same or at different times of a run. -/
theorem election_safety {early late : State} (reachable : Reachable cluster early)
    (path : Reaches (step cluster) Always early late) :
    (∀ left right, (early.nodes left).role = .leader → (late.nodes right).role = .leader →
      (early.nodes left).currentTerm = (late.nodes right).currentTerm → left = right) ∧
    (∀ voter term first second, Voted early voter term first → Voted late voter term second → first = second) := by
  obtain ⟨past, tracked⟩ := reachable.tracks
  obtain ⟨future, tracks, grown⟩ := tracked.reaches path
  constructor
  · intro left right leadsLeft leadsRight sameTerm
    have wonLeft := grown.winner_eq ((tracked.node left).leader_won leadsLeft)
    have wonRight := (tracks.node right).leader_won leadsRight
    rw [sameTerm, wonRight, Option.some.injEq] at wonLeft
    exact wonLeft.symm
  · intro voter term first second votedFirst votedSecond
    obtain ⟨ballot, cast, forFirst⟩ := tracked.ballot_of_voted votedFirst
    obtain ⟨again, recast, forSecond⟩ := tracks.ballot_of_voted votedSecond
    have same := grown.ballot_eq cast
    rw [recast, Option.some.injEq] at same
    exact forFirst.symm.trans (same ▸ forSecond)

theorem election_safety_first_term : (firstLeader.nodes 1).role = .leader ∧ (firstLeader.nodes 1).currentTerm = 1 ∧
      (∀ right, (firstLeader.nodes right).role = .leader →
        (firstLeader.nodes 1).currentTerm = (firstLeader.nodes right).currentTerm → 1 = right) ∧
      ∀ second, Voted firstLeader 2 1 second → 1 = second := by
  obtain ⟨leaders, votes⟩ := election_safety (finalState_reaches (by decide) : Reachable threeNodes firstLeader) .refl
  exact ⟨by decide, by decide, fun right => leaders 1 right (by decide),
    fun second => votes 2 1 1 second (.remembered (by decide) (by decide) (by decide))⟩

/-- Log matching: logs that hold the same term at an index agree up to the index. -/
theorem log_matching {state : State} (reachable : Reachable cluster state) {left right : NodeId} {index : Nat}
    {mine theirs : LogEntry} (mineFound : (state.nodes left).log[index]? = some mine)
    (theirsFound : (state.nodes right).log[index]? = some theirs) (sameTerm : mine.term = theirs.term) :
    ∀ earlier ≤ index, (state.nodes left).log[earlier]? = (state.nodes right).log[earlier]? := by
  obtain ⟨record, tracks⟩ := reachable.tracks
  have mineAnchored := tracks.sound.log_anchored left
  have theirsAnchored := tracks.sound.log_anchored right
  rw [(tracks.node left).log_eq] at mineAnchored
  rw [(tracks.node right).log_eq] at theirsAnchored
  have agreed := mineAnchored.take_eq theirsAnchored mineFound theirsFound sameTerm
  intro earlier below
  have inside : earlier < index + 1 := Nat.lt_succ_of_le below
  rw [← List.getElem?_take_of_lt inside, agreed, List.getElem?_take_of_lt inside]

def replicateRound (id first second : NodeId) : List Action :=
  [.replicateToAllPeers id, .replicateToPeer 0 first, .replicateToPeer 0 second,
    .deliverAppendRequest 0, .deliverAppendResponse 0, .deliverAppendRequest 0,
    .deliverAppendResponse 0]

def beforeCommit : State :=
  finalState (step threeNodes) initial (electUnopposed 1 ++ replicateRound 1 2 3)

def secondTerm : State := finalState (step threeNodes) beforeCommit
  ([.finishReplicate 0] ++ electUnopposed 2 ++ replicateRound 2 1 3)

theorem log_matching_two_terms :
    (secondTerm.nodes 2).log = [RaftNode.noopEntry 1, RaftNode.noopEntry 2] ∧ ∀ earlier ≤ 1,
      (secondTerm.nodes 2).log[earlier]? = (secondTerm.nodes 3).log[earlier]? := by
  have reachable : Reachable threeNodes beforeCommit := finalState_reaches (by decide)
  have path : Reaches (step threeNodes) Always beforeCommit secondTerm := finalState_reaches (by decide)
  have mine : (secondTerm.nodes 2).log[1]? = some (RaftNode.noopEntry 2) := by decide
  have theirs : (secondTerm.nodes 3).log[1]? = some (RaftNode.noopEntry 2) := by decide
  exact ⟨by decide, log_matching (reachable.trans path) mine theirs rfl⟩

def BecomesLeader (state next : State) (id : NodeId) : Prop :=
  (state.nodes id).role ≠ .leader ∧ (next.nodes id).role = .leader

private theorem decided_of_finishReplicate {id : NodeId} {node : RaftNode} {termSnapshot : Nat}
    (tracks : NodeTracks cluster record id node)
    (raised : node.commitIndex < (node.finishReplicate (cluster.peers id) termSnapshot).commitIndex) :
    History.Decided cluster.members LogEntry.term record node.currentTerm
        (node.finishReplicate (cluster.peers id) termSnapshot).commitIndex ∧
      record.leaderLog node.currentTerm = (node.finishReplicate (cluster.peers id) termSnapshot).log := by
  unfold RaftNode.finishReplicate at raised ⊢
  split at raised
  · exact absurd raised (lt_irrefl _)
  case isFalse active =>
    rw [if_neg active]
    simp only [ne_eq, not_or, Classical.not_not] at active
    have leaderLog := tracks.leader_log active.1
    rcases commitLoop_cases node (cluster.peers id) node.log.length with
      unchanged | ⟨pos, entry, -, found, own, enough, ran⟩
    · rw [unchanged] at raised
      exact absurd raised (lt_irrefl _)
    · obtain ⟨lastApplied, applied, engine, same⟩ := RaftNode.applyLoop_eq
        (pos + 1 - node.lastApplied) { node with commitIndex := pos + 1 }
      rw [ran, RaftNode.applyCommittedEntriesLocked, same]
      exact ⟨decided_of_replicaCount tracks active.1 found own enough, leaderLog⟩

private theorem decided_of_commit {state next : State} {pos : Nat} {leader : NodeId}
    (tracks : Tracks cluster state record) (commit : step cluster state (.finishReplicate pos) = some next)
    (raised : (state.nodes leader).commitIndex < (next.nodes leader).commitIndex) :
    History.Decided cluster.members LogEntry.term record (state.nodes leader).currentTerm
        (next.nodes leader).commitIndex ∧
      record.leaderLog (state.nodes leader).currentTerm = (next.nodes leader).log := by
  simp only [step, State.finishReplicate] at commit
  split at commit
  · cases commit
  case h_2 round found =>
    split at commit
    · cases commit
      simp only [State.setNode] at raised ⊢
      by_cases same : leader = round.node
      · subst same
        rw [Function.update_self] at raised ⊢
        exact decided_of_finishReplicate (tracks.node round.node) raised
      · rw [Function.update_of_ne same] at raised
        exact absurd raised (lt_irrefl _)
    · cases commit

/-- Leader completeness: a node that becomes leader in a later term holds every
entry an earlier leader committed. -/
theorem leaders_hold_committed {early committed late final : State} {position : Nat} {action : Action}
    {leader winner : NodeId} (reachable : Reachable cluster early)
    (commit : step cluster early (.finishReplicate position) = some committed)
    (raised : (early.nodes leader).commitIndex < (committed.nodes leader).commitIndex)
    (path : Reaches (step cluster) Always committed late) (advanced : step cluster late action = some final)
    (becomes : BecomesLeader late final winner)
    (later : (early.nodes leader).currentTerm < (final.nodes winner).currentTerm) :
    ∀ index < (committed.nodes leader).commitIndex, ∃ entry, (committed.nodes leader).log[index]? = some entry ∧
        (final.nodes winner).log[index]? = some entry := by
  obtain ⟨past, tracked⟩ := reachable.tracks
  obtain ⟨decided, leaderLog⟩ := decided_of_commit tracked commit raised
  have run : Reaches (step cluster) Always early final :=
    ((Reaches.single trivial commit).trans path).step trivial advanced
  obtain ⟨future, tracks, grown⟩ := tracked.reaches run
  have elected : future.winner (final.nodes winner).currentTerm ≠ none := by
    rw [(tracks.node winner).leader_won becomes.2]
    simp
  -- The decided prefix of the old leader log lies in the new leader's log.
  have inside := decided.length_le tracked.sound
  have held := tracks.sound.decided_prefix (decided.mono tracked.sound grown) elected later.le
  rw [grown.take_leaderLog inside, leaderLog, (tracks.node winner).leader_log becomes.2] at held
  rw [leaderLog] at inside
  intro index below
  have bound : index < (committed.nodes leader).log.length := below.trans_le inside
  refine ⟨_, List.getElem?_eq_getElem bound, ?_⟩
  rw [prefix_getElem?_eq held (by rw [List.length_take]; omega),
    List.getElem?_take_of_lt below, List.getElem?_eq_getElem bound]

def afterCommit : State := finalState (step threeNodes) beforeCommit [.finishReplicate 0]

def beforeElection : State := finalState (step threeNodes) afterCommit (campaign 2)

def afterElection : State := finalState (step threeNodes) beforeElection [.finishElection 0]

theorem leaders_hold_committed_second_term :
    (afterCommit.nodes 1).commitIndex = 1 ∧ (afterElection.nodes 2).currentTerm = 2 ∧
      ∀ index < (afterCommit.nodes 1).commitIndex, ∃ entry, (afterCommit.nodes 1).log[index]? = some entry ∧
          (afterElection.nodes 2).log[index]? = some entry := by
  have reachable : Reachable threeNodes beforeCommit := finalState_reaches (by decide)
  have path : Reaches (step threeNodes) Always afterCommit beforeElection := finalState_reaches (by decide)
  have becomes : BecomesLeader beforeElection afterElection 2 := ⟨by decide, by decide⟩
  exact ⟨by decide, by decide, leaders_hold_committed reachable
    (finalState_single (by decide)) (by decide) path (finalState_single (by decide)) becomes
    (by decide)⟩

end AnimusCore.Cluster

import AnimusCore.Cluster.Safety

/-! State machine safety. Nodes apply the same entries in the same order, and a
committed entry stays where it is, in every run whose followers commit within the
slices they receive. `handle_append_entries` does not enforce this: it adopts
the leader's commit index up to the end of its own log, and a follower whose next
index was moved back too far then commits a stale suffix. -/

set_option autoImplicit false

namespace AnimusCore.Cluster

open Lib Lib.Consensus

variable {cluster : Membership} {record : Record}

theorem NodeCommits.applied_committed {node : RaftNode} (commits : NodeCommits cluster record node) :
    record.Committed cluster node.currentTerm node.applied := by
  rw [commits.applied_eq]
  exact commits.committed.restrict (List.take_prefix_take_left commits.lastApplied_le)

private theorem committed_entry_eq (sound : record.Sound cluster) {leftTerm rightTerm index : Nat}
    {left right : List LogEntry} {mine theirs : LogEntry} (leftCommitted : record.Committed cluster leftTerm left)
    (rightCommitted : record.Committed cluster rightTerm right) (mineFound : left[index]? = some mine)
    (theirsFound : right[index]? = some theirs) : mine = theirs := by
  have leftBound := (List.getElem?_eq_some_iff.mp mineFound).1
  have rightBound := (List.getElem?_eq_some_iff.mp theirsFound).1
  rcases sound.committed_comparable leftCommitted rightCommitted with part | part
  · have same := prefix_getElem?_eq part leftBound
    rw [mineFound, theirsFound, Option.some.injEq] at same
    exact same.symm
  · have same := prefix_getElem?_eq part rightBound
    rw [mineFound, theirsFound, Option.some.injEq] at same
    exact same

theorem NodeCommits.committed_entry {node : RaftNode}
    (commits : NodeCommits cluster record node) {index : Nat} (below : index < node.commitIndex) :
    ∃ entry, node.log[index]? = some entry ∧ (node.log.take node.commitIndex)[index]? = some entry := by
  have bound : index < node.log.length := below.trans_le commits.bound
  have found := List.getElem?_eq_getElem bound
  exact ⟨_, found, (List.getElem?_take_of_lt below).trans found⟩

def AppliesAlike (early late : State) : Prop :=
  ∀ left right (index : Nat) mine theirs, (early.nodes left).applied[index]? = some mine →
    (late.nodes right).applied[index]? = some theirs → mine = theirs

def KeepsCommitted (early late : State) : Prop :=
  ∀ id index, index < (early.nodes id).commitIndex → ∃ entry,
    (early.nodes id).log[index]? = some entry ∧ (late.nodes id).log[index]? = some entry

/-- State machine safety of the runs within the slices: no two nodes ever apply
different entries at one index, and an entry at or below a node's commit index is
never removed or changed. -/
theorem state_machine_safety {early late : State} (reached : Reaches (step cluster) WithinSlice initial early)
    (path : Reaches (step cluster) WithinSlice early late) : AppliesAlike early late ∧ KeepsCommitted early late := by
  obtain ⟨past, before, -⟩ := Continues.reaches (Tracks.initial cluster) (Commits.initial cluster) reached
  obtain ⟨future, after, grown⟩ := Continues.reaches before.tracks before.commits path
  have earlyCommits := before.commits.mono before.tracks.sound grown
  constructor
  · intro left right index mine theirs mineFound theirsFound
    exact committed_entry_eq after.tracks.sound (earlyCommits.node left).applied_committed
      (after.commits.node right).applied_committed mineFound theirsFound
  · intro id index below
    obtain ⟨entry, found, inside⟩ := (earlyCommits.node id).committed_entry below
    obtain ⟨kept, lateFound, lateInside⟩ := (after.commits.node id).committed_entry
      (below.trans_le (after.commitIndex_le id))
    have same := committed_entry_eq after.tracks.sound (earlyCommits.node id).committed
      (after.commits.node id).committed inside lateInside
    exact ⟨entry, found, same ▸ lateFound⟩

def committedRun : List Action :=
  electUnopposed 1 ++ replicateRound 1 2 3 ++ [.finishReplicate 0] ++ replicateRound 1 2 3

theorem state_machine_safety_first_commit : ∃ state, Reaches (step threeNodes) WithinSlice initial state ∧
      (state.nodes 1).applied = [RaftNode.noopEntry 1] ∧ (state.nodes 2).applied = [RaftNode.noopEntry 1] ∧
      AppliesAlike state state ∧ KeepsCommitted state state := by
  have passes : (executeIf (step threeNodes) commitWithinSlice initial committedRun).any
      (fun state => decide ((state.nodes 1).applied = [RaftNode.noopEntry 1] ∧
        (state.nodes 2).applied = [RaftNode.noopEntry 1])) = true := by decide
  obtain ⟨state, reached, applied⟩ := exists_reaches_of_executeIf (fun _ _ => id) passes
  rw [decide_eq_true_eq] at applied
  exact ⟨state, reached, applied.1, applied.2, state_machine_safety reached .refl⟩

/-- The first node, leader of term one, replicates 64 entries everywhere and keeps
two more for itself. -/
def divergeInTermOne : List Action :=
  electUnopposed 1 ++ List.replicate 63 (.propose 1 {}) ++ replicateRound 1 2 3 ++
    [.finishReplicate 0, .propose 1 {}, .propose 1 {}]

/-- The third node wins term two and keeps its no-op for itself; the first node
wins term three with the vote of the second. -/
def loseAndRegain : List Action :=
  [.startElection 3, .deliverVoteRequest 1, .deliverVoteResponse 0, .deliverVoteRequest 0,
    .deliverVoteResponse 0, .finishElection 0, .startElection 1, .deliverVoteRequest 0,
    .deliverVoteResponse 0, .failVoteCall ⟨1, 3, 3⟩, .finishElection 0]

/-- 66 proposals whose workers for the third node all read the same next index. -/
def proposeConcurrently : List Action :=
  (List.range 66).flatMap fun call =>
    [.propose 1 {}, .proposeReplicate (65 + call), .replicateToPeer call 3]

def catchUp : List Action :=
  (List.range 3).flatMap fun call =>
    [.replicateToPeer call 2, .deliverAppendRequest 66, .deliverAppendResponse 0]

/-- The third node refuses all 66 requests, and each refusal moves its next index
back by one, behind the entry where its log departs from the leader's. -/
def backOff : List Action :=
  (List.replicate 66 [.deliverAppendRequest 0, .deliverAppendResponse 0]).flatten

/-- The leader commits; the next slice to the third node ends before its stale
entry, but the commit index reaches over it. -/
def commitStale : List Action :=
  [.finishReplicate 2, .replicateToAllPeers 1, .replicateToPeer 65 3, .deliverAppendRequest 0]

def staleCommitRun : List Action :=
  divergeInTermOne ++ loseAndRegain ++ proposeConcurrently ++ catchUp ++ backOff ++ commitStale

/-- The first and the third node apply different entries at index 64. -/
theorem state_machine_divergence : ∃ state, Reachable threeNodes state ∧
      (state.nodes 1).applied[64]? = some ⟨1, false, {}⟩ ∧
      (state.nodes 3).applied[64]? = some (RaftNode.noopEntry 2) := by
  have passes : (execute (step threeNodes) initial staleCommitRun).any (fun state =>
      decide ((state.nodes 1).applied[64]? = some ⟨1, false, {}⟩ ∧
        (state.nodes 3).applied[64]? = some (RaftNode.noopEntry 2))) = true := by
    decide +kernel
  obtain ⟨state, reached, applied⟩ := exists_reaches_of_execute passes
  rw [decide_eq_true_eq] at applied
  exact ⟨state, reached, applied⟩

end AnimusCore.Cluster

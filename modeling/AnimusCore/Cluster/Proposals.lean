import AnimusCore.Cluster.Safety

/-! What a proposer learns from `ProposeResult::Ok`. The waiting loop of `propose`
compares the commit index with the index it appended at, and looks at nothing
else: when another leader replaced the entry meanwhile, the loop acknowledges a
command that is gone. -/

set_option autoImplicit false

namespace AnimusCore.Cluster

open Lib Lib.Consensus

variable {cluster : Membership} {record : Record}

def ReturnsOk (state : State) (proposal : Proposal) : Prop :=
  proposal ∈ state.proposals ∧ proposal.phase = .polling ∧
    (state.nodes proposal.node).pollProposal proposal.myIndex = some (.ok, none)

def OwnEntryCommitted (state : State) (proposal : Proposal) : Prop :=
  (state.nodes proposal.node).log[proposal.myIndex - 1]? = some proposal.entry ∧
    proposal.myIndex ≤ (state.nodes proposal.node).commitIndex

/-- The entry now at the index of the call has the term in which the call appended. -/
def SameTermAtIndex (state : State) (proposal : Proposal) : Prop :=
  ((state.nodes proposal.node).log[proposal.myIndex - 1]?).map LogEntry.term = some proposal.entry.term

private theorem pollProposal_ok {node : RaftNode} {myIndex : Nat}
    (ok : node.pollProposal myIndex = some (.ok, none)) : myIndex ≤ node.commitIndex := by
  unfold RaftNode.pollProposal at ok
  split at ok
  case isTrue reached => exact reached
  case isFalse =>
    split at ok
    · cases ok
    · cases ok

theorem Tracks.entry_of_term {state : State} (tracks : Tracks cluster state record) {proposal : Proposal}
    (inside : proposal ∈ state.proposals) (same : SameTermAtIndex state proposal) :
    (state.nodes proposal.node).log[proposal.myIndex - 1]? = some proposal.entry := by
  obtain ⟨stored, found, sameTerm⟩ := Option.map_eq_some_iff.mp same
  obtain ⟨-, -, proposed⟩ := tracks.proposal proposal inside
  have agreed := (tracks.node proposal.node).matching tracks.sound proposal.entry.term found proposed sameTerm
  have here : proposal.myIndex - 1 < proposal.myIndex - 1 + 1 := Nat.lt_succ_self _
  rw [← List.getElem?_take_of_lt here, agreed, List.getElem?_take_of_lt here, proposed]

/-- An acknowledged proposal is committed at its index exactly when the entry there
still has the term in which the proposal was appended. -/
theorem propose_ok_iff {state : State} (reachable : Reachable cluster state) {proposal : Proposal}
    (returns : ReturnsOk state proposal) : OwnEntryCommitted state proposal ↔ SameTermAtIndex state proposal := by
  obtain ⟨record, tracks⟩ := reachable.tracks
  constructor
  · rintro ⟨found, -⟩
    rw [SameTermAtIndex, found, Option.map_some]
  · intro same
    exact ⟨tracks.entry_of_term returns.1 same, pollProposal_ok returns.2.2⟩

def sampleProposal : Proposal :=
  ⟨1, ⟨1, false, { ruleId := 7, threshold := 90 }⟩, 2, .polling⟩

def acknowledgedRun : List Action :=
  electUnopposed 1 ++ [.propose 1 sampleProposal.entry.command, .proposeReplicate 0] ++
    (replicateRound 1 2 3).tail ++ [.finishReplicate 0]

theorem propose_ok_iff_acknowledged : ∃ state, Reachable threeNodes state ∧ ReturnsOk state sampleProposal ∧
      SameTermAtIndex state sampleProposal ∧ OwnEntryCommitted state sampleProposal := by
  have reachable : Reachable threeNodes (finalState (step threeNodes) initial acknowledgedRun) :=
    finalState_reaches (by decide)
  have returns : ReturnsOk (finalState (step threeNodes) initial acknowledgedRun)
      sampleProposal := ⟨by decide, by decide, by decide⟩
  have same : SameTermAtIndex (finalState (step threeNodes) initial acknowledgedRun) sampleProposal := by
    unfold SameTermAtIndex
    decide
  exact ⟨_, reachable, returns, same, (propose_ok_iff reachable returns).mpr same⟩

/-- A leader proposes, and no follower is reached. The second node wins term two,
overwrites the entry at the same index and commits its own command there; the old
leader learns of it between two polls. -/
def overwrittenRun : List Action :=
  electUnopposed 1 ++ [.propose 1 sampleProposal.entry.command, .proposeReplicate 0, .replicateToPeer 0 2,
      .replicateToPeer 0 3, .failAppendCall 0 2, .failAppendCall 0 3, .finishReplicate 0,
      .startElection 2, .deliverVoteRequest 1, .deliverVoteResponse 0,
      .failVoteCall ⟨2, 2, 1⟩, .finishElection 0, .propose 2 { ruleId := 8, threshold := 10 },
      .replicateToAllPeers 2, .replicateToPeer 0 1, .replicateToPeer 0 3,
      .deliverAppendRequest 2, .deliverAppendResponse 0,
      .deliverAppendRequest 2, .deliverAppendResponse 0, .finishReplicate 0,
      .replicateToAllPeers 2, .replicateToPeer 0 1, .deliverAppendRequest 2]

theorem propose_ok_overwritten : ∃ state, Reachable threeNodes state ∧ ReturnsOk state sampleProposal ∧
      (state.nodes 1).log[sampleProposal.myIndex - 1]? = some ⟨2, false, { ruleId := 8, threshold := 10 }⟩ ∧
      ¬ OwnEntryCommitted state sampleProposal := by
  refine ⟨finalState (step threeNodes) initial overwrittenRun, finalState_reaches (by decide),
    ⟨by decide, by decide, by decide⟩, by decide, ?_⟩
  rintro ⟨found, -⟩
  revert found
  decide

end AnimusCore.Cluster

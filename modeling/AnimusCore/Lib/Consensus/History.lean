import AnimusCore.Lib.Consensus.Log
import Mathlib.Order.Defs.PartialOrder

/-! The history of a leader-based replication protocol: who campaigned with which
log, who cast which ballot, who won which term, how each leader's log grew, and
how far each node acknowledged it. A history only grows, and each of its
elementary changes is made on behalf of one node. -/

set_option autoImplicit false

namespace AnimusCore.Lib.Consensus

/-- A ballot names its candidate and records the log its voter held. It is
contested when the term had no winner at the moment the ballot was cast. -/
structure Ballot (Node Entry : Type) where
  candidate : Node
  voterLog : List Entry
  contested : Prop

/-- Present terms and logs of the nodes, and everything past terms left behind. -/
structure History (Node Entry : Type) where
  term : Node → Nat
  log : Node → List Entry
  campaign : Node → Nat → Option (List Entry)
  ballot : Node → Nat → Option (Ballot Node Entry)
  winner : Nat → Option Node
  base : Nat → List Entry
  leaderLog : Nat → List Entry
  acked : Node → Nat → Nat

namespace History

variable {Node Entry : Type}

def initial : History Node Entry where
  term := fun _ => 0
  log := fun _ => []
  campaign := fun _ _ => none
  ballot := fun _ _ => none
  winner := fun _ => none
  base := fun _ => []
  leaderLog := fun _ => []
  acked := fun _ _ => 0

structure Extends (past future : History Node Entry) : Prop where
  term_le : ∀ node, past.term node ≤ future.term node
  campaign_eq : ∀ {node term log}, past.campaign node term = some log → future.campaign node term = some log
  ballot_eq : ∀ {node term ballot}, past.ballot node term = some ballot → future.ballot node term = some ballot
  winner_eq : ∀ {term node}, past.winner term = some node → future.winner term = some node
  base_eq : ∀ {term}, past.winner term ≠ none → future.base term = past.base term
  leaderLog_prefix : ∀ term, past.leaderLog term <+: future.leaderLog term
  acked_le : ∀ node term, past.acked node term ≤ future.acked node term

theorem Extends.winner_ne_none {past future : History Node Entry} (grown : Extends past future)
    {term : Nat} (elected : past.winner term ≠ none) : future.winner term ≠ none := by
  obtain ⟨node, won⟩ := Option.ne_none_iff_exists'.mp elected
  rw [grown.winner_eq won]
  simp

instance : Preorder (History Node Entry) where
  le := Extends
  le_refl history :=
    { term_le := fun _ => le_refl _
      campaign_eq := id
      ballot_eq := id
      winner_eq := id
      base_eq := fun _ => rfl
      leaderLog_prefix := fun _ => List.prefix_refl _
      acked_le := fun _ _ => le_refl _ }
  le_trans first second third early late :=
    { term_le := fun node => (early.term_le node).trans (late.term_le node)
      campaign_eq := fun recorded => late.campaign_eq (early.campaign_eq recorded)
      ballot_eq := fun recorded => late.ballot_eq (early.ballot_eq recorded)
      winner_eq := fun recorded => late.winner_eq (early.winner_eq recorded)
      base_eq := fun elected =>
        (late.base_eq (early.winner_ne_none elected)).trans (early.base_eq elected)
      leaderLog_prefix := fun term =>
        (early.leaderLog_prefix term).trans (late.leaderLog_prefix term)
      acked_le := fun node term => (early.acked_le node term).trans (late.acked_le node term) }

theorem Extends.take_leaderLog {past future : History Node Entry} (grown : Extends past future)
    {term count : Nat} (bound : count ≤ (past.leaderLog term).length) :
    (future.leaderLog term).take count = (past.leaderLog term).take count := by
  obtain ⟨suffix, whole⟩ := grown.leaderLog_prefix term
  rw [← whole, List.take_append_of_le_length bound]

/-- Everything that changed is a record of the acting node or of a term it won. -/
structure ActsAs (actor : Node) (past future : History Node Entry) : Prop extends Extends past future where
  term_same : ∀ {node}, node ≠ actor → future.term node = past.term node
  log_same : ∀ {node}, node ≠ actor → future.log node = past.log node
  campaign_same : ∀ {node term}, node ≠ actor → future.campaign node term = past.campaign node term
  ballot_same : ∀ {node term}, node ≠ actor → future.ballot node term = past.ballot node term
  winner_same : ∀ {term node}, node ≠ actor → future.winner term = some node → past.winner term = some node
  leaderLog_same : ∀ {term node}, node ≠ actor → future.winner term = some node →
    future.leaderLog term = past.leaderLog term

theorem ActsAs.refl (actor : Node) (history : History Node Entry) : ActsAs actor history history where
  toExtends := le_refl history
  term_same _ := rfl
  log_same _ := rfl
  campaign_same _ := rfl
  ballot_same _ := rfl
  winner_same _ won := won
  leaderLog_same _ _ := rfl

theorem ActsAs.trans {actor : Node} {first second third : History Node Entry}
    (early : ActsAs actor first second) (late : ActsAs actor second third) : ActsAs actor first third where
  toExtends := le_trans (a := first) (b := second) (c := third) early.toExtends late.toExtends
  term_same other := (late.term_same other).trans (early.term_same other)
  log_same other := (late.log_same other).trans (early.log_same other)
  campaign_same other := (late.campaign_same other).trans (early.campaign_same other)
  ballot_same other := (late.ballot_same other).trans (early.ballot_same other)
  winner_same other won := early.winner_same other (late.winner_same other won)
  leaderLog_same other won :=
    (late.leaderLog_same other won).trans (early.leaderLog_same other (late.winner_same other won))

section Changes

variable [DecidableEq Node]

variable (history : History Node Entry)

def raise (node : Node) (term : Nat) : History Node Entry :=
  { history with term := fun other => if other = node then term else history.term other }

def enlist (node : Node) : History Node Entry :=
  { history with
    campaign := fun other term =>
      if other = node ∧ term = history.term node then some (history.log node)
      else history.campaign other term }

def cast (voter candidate : Node) : History Node Entry :=
  { history with
    ballot := fun other term =>
      if other = voter ∧ term = history.term voter then
        some ⟨candidate, history.log voter, history.winner (history.term voter) = none⟩
      else history.ballot other term }

def elect (node : Node) : History Node Entry :=
  { history with
    winner := fun term => if term = history.term node then some node else history.winner term
    base := fun term => if term = history.term node then history.log node else history.base term
    leaderLog := fun term =>
      if term = history.term node then history.log node else history.leaderLog term }

def extend (term : Nat) (entry : Entry) : History Node Entry :=
  { history with
    leaderLog := fun other =>
      if other = term then history.leaderLog term ++ [entry] else history.leaderLog other }

def relog (node : Node) (log : List Entry) : History Node Entry :=
  { history with log := fun other => if other = node then log else history.log other }

def acknowledge (node : Node) (count : Nat) : History Node Entry :=
  { history with
    acked := fun other term =>
      if other = node ∧ term = history.term node then max (history.acked node term) count
      else history.acked other term }

end Changes

end History

end AnimusCore.Lib.Consensus

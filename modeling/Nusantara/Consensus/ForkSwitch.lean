import Nusantara.Consensus.Replay

/-!
# Roots, fork switches and gossip votes

What else moves the replay stage (`consensus/src/{replay_fork_switch,replay_vote_processing}.rs`):
its root advances, it plans a switch to the heaviest fork, and it counts the votes that come by
gossip.
-/

namespace Nusantara

open Exec

namespace ReplayStage

/-- `ReplayStage::advance_root`. -/
def advanceRoot (root : UInt64) : Exec Fault ReplayStage ConsensusError Unit :=
  ⟨fun s =>
    if s.forkTree.contains root then
      match (ForkTree.setRoot root).run s.forkTree with
      | .ok () forkTree => .ok () { s with
          forkTree
          commitmentTracker := s.commitmentTracker.pruneBelow root
          bank := { s.bank with storage := s.bank.storage.setRoot root } }
      | .err e forkTree => .err e { s with forkTree }
      | .fault f => .fault f
    else .ok () s⟩

/-! ### Fork switches -/

/-- `ForkSwitchPlan`. -/
structure ForkSwitchPlan where
  commonAncestor : UInt64
  rollbackFrom : UInt64
  /-- The slots from the common ancestor, which is left out, up to the best slot. -/
  replaySlots : List UInt64
  deriving DecidableEq

/-- The slot a plan leads to. -/
def ForkSwitchPlan.target (plan : ForkSwitchPlan) : UInt64 :=
  plan.replaySlots.getLast?.getD plan.commonAncestor

/-- The tower lets the node leave its fork for a slot: no lockout is in the way, or enough stake is
on the other side. -/
def maySwitch (s : ReplayStage) (best : UInt64) : Bool :=
  (s.tower.checkVoteLockout best).isOk ||
    (s.forkTree.getNode best).any fun node =>
      Tower.checkSwitchThreshold node.subtreeStake s.forkTree.totalActiveStake

/-- `ReplayStage::check_fork_switch`. -/
def checkForkSwitch (s : ReplayStage) : Except Fault (Option ForkSwitchPlan) :=
  let best := s.forkTree.bestSlot
  if best = s.currentTip then .ok none
  else do
    let bestAncestry ← s.forkTree.getAncestry best
    let tipAncestry ← s.forkTree.getAncestry s.currentTip
    return do
      let common ← bestAncestry.find? (· ∈ tipAncestry)
      guard (common ≠ s.currentTip ∧ s.maySwitch best)
      return {
        commonAncestor := common
        rollbackFrom := s.currentTip
        replaySlots := (bestAncestry.takeWhile (· ≠ common)).reverse }

/-! ### Gossip votes -/

/-- `MAX_PENDING_VOTE_SLOTS`. -/
def maxPendingVoteSlots : ℕ := 10000

/-- A vote for a slot that is not in the tree waits for it; the lowest slots make room. -/
def bufferVote (s : ReplayStage) (slot : UInt64) (vote : Hash × Hash × UInt64) : ReplayStage :=
  let pending := s.pendingVotes.insert slot ((s.pendingVotes.lookup slot).getD [] ++ [vote])
  let oldest := pending.keys.ascending.take (pending.keys.card - maxPendingVoteSlots)
  { s with pendingVotes := oldest.foldl (fun pending slot => pending.erase slot) pending }

/-- `ReplayStage::process_gossip_vote`. -/
def processGossipVote (voter : Hash) (slot : UInt64) (hash : Hash) (stake : UInt64)
    (s : ReplayStage) : Except Fault ReplayStage :=
  if s.forkTree.contains slot then s.applyPendingVote slot (voter, hash, stake)
  else .ok (s.bufferVote slot (voter, hash, stake))

/-- A vote that waits is put with those for its slot, and some slots make room. -/
theorem bufferVote_eq (s : ReplayStage) (slot : UInt64) (v : Hash × Hash × UInt64) :
    ∃ oldest : List UInt64, s.bufferVote slot v = { s with
      pendingVotes := oldest.foldl (fun pending k => pending.erase k)
        (s.pendingVotes.insert slot ((s.pendingVotes.lookup slot).getD [] ++ [v])) } := by
  unfold bufferVote
  exact ⟨_, rfl⟩

end ReplayStage

end Nusantara

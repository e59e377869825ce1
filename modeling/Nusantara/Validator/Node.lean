import Nusantara.Consensus.ForkSwitch
import Nusantara.Validator.Acceptance

/-!
# The validator node

The state a validator keeps over its slots (`validator/src/node.rs`), and what the slot loop does to
it (`validator/src/{replay,fork_manager,slot_loop,voting}.rs`): received blocks are replayed,
buffered or discarded, the root advances, the node moves to a heavier fork, produces the blocks of
its own slots and votes.

The state is changed by one task at a time, the slot loop; the other services hand it blocks, votes
and transactions.  Those come from outside and are inputs here, with the clock.  The requests for
missing blocks go out and leave the node as it is; they are left out.

An error of one of these functions ends the slot loop, and a fault the process.
-/

namespace Nusantara

open Exec ReplayStage ForkTree

/-- `MAX_ROOT_GAP`. -/
def maxRootGap : ℕ := 32

/-- `ORPHAN_HORIZON`. -/
def orphanHorizon : UInt64 := 1024

/-- `MAX_ORPHAN_BUFFER_SIZE`. -/
def maxOrphanBufferSize : ℕ := 4096

/-- `MAX_VOTE_BATCH`. -/
def maxVoteBatch : UInt64 := 32

/-- `ValidatorNode`, as far as the slot loop reads it to replay, produce and vote. -/
structure ValidatorNode where
  stage : ReplayStage
  producer : BlockProducer
  currentSlot : UInt64
  /-- The blocks whose parents have not arrived yet. -/
  orphanBlocks : Finmap fun _ : UInt64 => Block
  failedForkTargets : Finset UInt64
  lastForkSwitchTarget : Option UInt64
  lastVotedSlot : UInt64
  lastProducedSlot : Option UInt64
  myVoteAccount : Option Hash
  deriving DecidableEq

namespace ValidatorNode

/-- The store, which the node shares with its bank. -/
def storage (n : ValidatorNode) : Storage := n.stage.bank.storage

/-- The node with another store. -/
def withStorage (n : ValidatorNode) (storage : Storage) : ValidatorNode :=
  { n with stage := { n.stage with bank := { n.stage.bank with storage } } }

/-- A computation on the replay stage of the node, whose error is handed to the caller. -/
def tryStage {ε ε' α : Type} (m : Exec Fault ReplayStage ε α) :
    Exec Fault ValidatorNode ε' (Except ε α) :=
  ⟨fun n => match m.run n.stage with
    | .ok a stage => .ok (.ok a) { n with stage }
    | .err e stage => .ok (.error e) { n with stage }
    | .fault f => .fault f⟩

section Functions

variable (P : Platform) (config : ValidatorConfig) (order : List ℕ → List ℕ)

/-- `restore_bank_slot_hashes`. -/
def restoreBankSlotHashes (n : ValidatorNode) : Except Fault ValidatorNode := do
  let ancestry ← n.stage.forkTree.getAncestry n.stage.currentTip
  let bank := n.stage.bank.setSlotHashes (forkHashes ancestry n.stage)
  return { n with stage := { n.stage with bank } }

/-! ### The root -/

/-- The first gate: the root stays below the parents of recent orphans. -/
def orphanGate (n : ValidatorNode) (proposedRoot : UInt64) : UInt64 :=
  let horizon := Word.saturatingSub proposedRoot orphanHorizon
  let parents := n.orphanBlocks.keys.ascending.filterMap fun slot =>
    (n.orphanBlocks.lookup slot).map fun b => b.header.parentSlot
  match (parents.filter (horizon ≤ ·)).min? with
  | some parent => min proposedRoot (Word.saturatingSub parent 1)
  | none => proposedRoot

/-- The second gate: the root does not pass a recent slot of its ancestry that has a child off it. -/
def branchGate (n : ValidatorNode) (proposedRoot safeRoot : UInt64) (ancestry : List UInt64) :
    UInt64 :=
  let horizon := Word.saturatingSub proposedRoot orphanHorizon
  let recent := ancestry.takeWhile fun slot =>
    ¬ (slot < n.stage.forkTree.rootSlot ∨ slot < horizon)
  let forkPoints := recent.filter fun slot =>
    (n.stage.forkTree.getNode slot).any fun node => node.children.any (· ∉ ancestry)
  forkPoints.foldl min safeRoot

/-- The root after both gates.  The second one is left out by a node that catches up. -/
def gatedRoot (n : ValidatorNode) (proposedRoot : UInt64) (catchingUp : Bool) :
    Except Fault UInt64 :=
  if catchingUp then .ok (n.orphanGate proposedRoot)
  else do
    let ancestry ← n.stage.forkTree.getAncestry proposedRoot
    return n.branchGate proposedRoot (n.orphanGate proposedRoot) ancestry

/-- A root that is not in the tree is moved down to a slot of the best fork. -/
def snapRoot (n : ValidatorNode) (safeRoot : UInt64) : Except Fault UInt64 :=
  let currentRoot := n.stage.forkTree.rootSlot
  if currentRoot < safeRoot ∧ ¬ n.stage.forkTree.contains safeRoot then do
    let ancestry ← n.stage.forkTree.getAncestry n.stage.forkTree.bestSlot
    return ((ancestry.filter fun s => s ≤ safeRoot ∧ currentRoot < s).max?).getD currentRoot
  else .ok safeRoot

/-- The root `try_advance_root` decides for; `none` leaves the root where it is. -/
def chooseRoot (n : ValidatorNode) (proposedRoot : UInt64) (catchingUp : Bool) :
    Except Fault (Option UInt64) :=
  let currentRoot := n.stage.forkTree.rootSlot
  if proposedRoot ≤ currentRoot then .ok none
  else do
    let limit ← P.wrapAdd 64 currentRoot.toNat maxRootGap
    -- Too far behind: the root is forced past both gates.
    if limit < proposedRoot.toNat then return some proposedRoot
    else
      let safeRoot ← n.gatedRoot proposedRoot catchingUp
      let safeRoot ← n.snapRoot safeRoot
      return if currentRoot < safeRoot then some safeRoot else none

/-- `try_advance_root`. -/
def tryAdvanceRoot (proposedRoot : UInt64) (catchingUp : Bool) :
    Exec Fault ValidatorNode ValidatorError Unit := do
  let n ← get
  match ← ofFault (n.chooseRoot P proposedRoot catchingUp) with
  | none => return ()
  | some root =>
    match ← tryStage (advanceRoot root) with
    | .error e => throw (.consensus e)
    | .ok () =>
      let n ← get
      set { n with failedForkTargets := ∅, lastForkSwitchTarget := none }

/-- The root advances if a vote has made one. -/
def advanceNewRoot (newRoot : Option UInt64) : Exec Fault ValidatorNode ValidatorError Unit :=
  match newRoot with
  | some root => tryAdvanceRoot P root false
  | none => pure ()

/-! ### Received blocks -/

/-- A block whose parent is missing is buffered; the highest slots make room. -/
def bufferOrphan (n : ValidatorNode) (block : Block) : ValidatorNode :=
  let slots := n.orphanBlocks.keys.ascending
  let newest := slots.drop (maxOrphanBufferSize - 1)
  let orphans := newest.foldl (fun orphans slot => orphans.erase slot) n.orphanBlocks
  { n with orphanBlocks := orphans.insert block.header.slot block }

/-- What `replay_or_buffer_block` does after a replay that failed.  An error about a slot that is in
the tree already is told by its text and dropped; the others are handed on. -/
def afterFailure (block : Block) (alreadyStored : Bool) (e : ValidatorError) :
    Exec Fault ValidatorNode ValidatorError Unit := do
  let n ← get
  match e with
  | .missingParentBlock _ parentSlot =>
    if parentSlot < n.stage.forkTree.rootSlot then return ()
    else set (n.bufferOrphan block)
  | .bankHashMismatch slot | .merkleRootMismatch slot | .blockHashMismatch slot =>
    let n := if alreadyStored then n else n.withStorage (n.storage.deleteBlock P slot)
    let n ← ofFault n.restoreBankSlotHashes
    set n
  | .consensus (.slotAlreadyProcessed _) => return ()
  | e => throw e

/-- The block is stored before it is replayed, so that it can be served in any case. -/
def storeEarly (n : ValidatorNode) (block : Block) : ValidatorNode :=
  if n.storage.hasBlockHeader block.header.slot then n
  else n.withStorage (n.storage.putBlock block)

/-- `replay_or_buffer_block`. -/
def replayOrBufferBlock (block : Block) : Exec Fault ValidatorNode ValidatorError Unit := do
  let slot := block.header.slot
  let n ← get
  if n.stage.forkTree.contains slot ∨ slot ∈ n.orphanBlocks then return ()
  else
    set (n.storeEarly block)
    match ← tryStage (replayBlockFull P config order block) with
    | .ok result =>
      let n' ← get
      set { n' with producer := n'.producer.setParent slot block.header.blockHash result.bankHash }
      advanceNewRoot P result.newRoot
    | .error e => afterFailure P block (n.storage.hasBlockHeader slot) e

/-! ### Production -/

/-- Steps 3a and 3c of `leader_slot`: the parent is set to the best slot, and the bank and the index
are put on its fork, unless the parent is the block the node produced last. -/
def prepareProduction (n : ValidatorNode) : Except Fault ValidatorNode := do
  let best := n.stage.forkTree.bestSlot
  let producer := match n.stage.forkTree.getNode best with
    | some node => n.producer.setParent best node.blockHash node.bankHash
    | none => n.producer
  let ancestry ← n.stage.forkTree.getAncestry producer.parentSlot
  if n.lastProducedSlot = some producer.parentSlot then return { n with producer }
  else
    let bank := n.stage.bank.setSlotHashes (forkHashes ancestry n.stage)
    let storage := bank.storage.rewindAccountIndexForAncestry ancestry.toFinset
    return { n with producer, stage := { n.stage with bank := { bank with storage } } }

/-- `leader_slot`, once it has replayed the blocks that were pending.  The transactions are those it
takes from the mempool. -/
def leaderSlot (timestamp : Int64) (transactions : List Transaction) :
    Exec Fault ValidatorNode ValidatorError Unit := do
  let n ← get
  if n.stage.forkTree.contains n.currentSlot then return ()
  else
    let n ← ofFault n.prepareProduction
    set n
    match ← tryStage (leaderBlock P config order n.currentSlot timestamp transactions
      n.producer) with
    | .error e => throw e
    | .ok (production, result) =>
      let n ← get
      set { n with producer := production.producer }
      advanceNewRoot P result.newRoot
      let n ← get
      set { n with lastProducedSlot := some n.currentSlot }

/-! ### Fork switches -/

/-- A fork switch that failed. -/
def failSwitch (n : ValidatorNode) (target : UInt64) : Except Fault ValidatorNode := do
  let n ← n.restoreBankSlotHashes
  return { n with failedForkTargets := insert target n.failedForkTargets }

/-- The loop of `handle_fork_switch` over the slots of the plan; a slot of the tree is skipped.  It
tells whether all slots were dealt with. -/
def replaySwitch (target : UInt64) : List UInt64 → ValidatorNode →
    Except Fault (Bool × ValidatorNode)
  | [], n => .ok (true, n)
  | slot :: rest, n =>
    if n.stage.forkTree.contains slot then replaySwitch target rest n
    else match n.storage.getBlock slot with
      | none => do
        let n ← n.failSwitch target
        return (false, n)
      | some block => match (replayBlockFull P config order block).run n.stage with
        | .fault f => .error f
        | .err _ stage => do
          let n ← { n with stage }.failSwitch target
          return (false, n)
        | .ok _ stage => replaySwitch target rest { n with stage }

/-- `handle_fork_switch`: whether the switch was completed, and the node after it. -/
def handleForkSwitch (plan : ForkSwitchPlan) (n : ValidatorNode) :
    Except Fault (Bool × ValidatorNode) := do
  let bank ← n.stage.bank.rollbackToSlot P plan.commonAncestor
  let storage := bank.storage.rewindAccountIndexToSlot plan.commonAncestor
  let n := { n with stage := { n.stage with bank := { bank with storage } } }
  let (completed, n) ← replaySwitch P config order plan.target plan.replaySlots n
  if completed then
    return (true, match n.stage.forkTree.getNode plan.target with
      | some node => { n with
          producer := n.producer.setParent plan.target node.blockHash node.bankHash }
      | none => n)
  else return (false, n)

/-- The slot loop looks for a fork switch; one that has failed or was tried last is not tried. -/
def switchFork (n : ValidatorNode) : Except Fault ValidatorNode := do
  match ← n.stage.checkForkSwitch with
  | none => return n
  | some plan =>
    if plan.target ∈ n.failedForkTargets ∨ n.lastForkSwitchTarget = some plan.target then return n
    else
      let (_, n) ← { n with lastForkSwitchTarget := some plan.target }.handleForkSwitch P config
        order plan
      return n

/-- `try_advance_root` as one decision and one step of the stage. -/
theorem run_tryAdvanceRoot (proposedRoot : UInt64) (catchingUp : Bool) (n : ValidatorNode) :
    (tryAdvanceRoot P proposedRoot catchingUp).run n =
      match n.chooseRoot P proposedRoot catchingUp with
      | .error f => .fault f
      | .ok none => .ok () n
      | .ok (some root) => match (advanceRoot root).run n.stage with
        | .ok () stage =>
          .ok () { n with stage, failedForkTargets := ∅, lastForkSwitchTarget := none }
        | .err e stage => .err (.consensus e) { n with stage }
        | .fault f => .fault f := by
  simp only [tryAdvanceRoot, run_bind, run_get]
  cases n.chooseRoot P proposedRoot catchingUp with
  | error f => rfl
  | ok choice =>
    cases choice with
    | none => rfl
    | some root =>
      change ((tryStage (advanceRoot root) >>= _ : Exec _ _ _ _).run n) = _
      simp only [tryStage, run_bind]
      cases (advanceRoot root).run n.stage <;> rfl

variable {P} in
/-- What `try_advance_root` leaves behind, also with an error: the stage as it was, or with a new root
that was chosen and is in the tree. -/
theorem tryAdvanceRoot_cases {root : UInt64} {catchingUp : Bool} {n n' : ValidatorNode}
    (h : (tryAdvanceRoot P root catchingUp).run n = .ok () n' ∨
      ∃ e, (tryAdvanceRoot P root catchingUp).run n = .err e n') :
    (n'.stage = n.stage ∧ ∀ new, n.chooseRoot P root catchingUp = .ok (some new) →
        new ∉ n.stage.forkTree.nodes) ∨
      ∃ new tree, n.chooseRoot P root catchingUp = .ok (some new) ∧
        new ∈ n.stage.forkTree.nodes ∧
        (setRoot new).run n.stage.forkTree = .ok () tree ∧
        n'.stage = { n.stage with
          forkTree := tree
          commitmentTracker := n.stage.commitmentTracker.pruneBelow new
          bank := { n.stage.bank with storage := n.stage.bank.storage.setRoot new } } := by
  simp only [run_tryAdvanceRoot] at h
  cases hchoice : n.chooseRoot P root catchingUp with
  | error f => simp [hchoice] at h
  | ok choice =>
    cases choice with
    | none =>
      simp only [hchoice, Outcome.ok.injEq, true_and, reduceCtorEq, exists_false, or_false] at h
      exact .inl ⟨h ▸ rfl, fun _ hsome => by cases hsome⟩
    | some new =>
      simp only [hchoice, advanceRoot, contains, decide_eq_true_eq] at h
      split_ifs at h with hnew
      · cases hset : (setRoot new).run n.stage.forkTree with
        | ok u tree =>
          simp only [hset, Outcome.ok.injEq, true_and, reduceCtorEq, exists_false, or_false] at h
          exact .inr ⟨new, tree, rfl, hnew, hset, h ▸ rfl⟩
        | err e tree => exact absurd hnew (setRoot_err hset).1
        | fault f => simp [hset] at h
      · simp only [Outcome.ok.injEq, true_and, exists_false, or_false] at h
        refine .inl ⟨h ▸ rfl, fun _ hsome => ?_⟩
        cases hsome
        exact hnew

/-- `replay_or_buffer_block` as one replay, and what follows from its outcome. -/
theorem run_replayOrBufferBlock (block : Block) (n : ValidatorNode) :
    (replayOrBufferBlock P config order block).run n =
      if n.stage.forkTree.contains block.header.slot ∨ block.header.slot ∈ n.orphanBlocks then
        .ok () n
      else match (replayBlockFull P config order block).run (n.storeEarly block).stage with
        | .ok result stage => (advanceNewRoot P result.newRoot).run { n.storeEarly block with
            stage
            producer := (n.storeEarly block).producer.setParent block.header.slot
              block.header.blockHash result.bankHash }
        | .err e stage => (afterFailure P block (n.storage.hasBlockHeader block.header.slot) e).run
            { n.storeEarly block with stage }
        | .fault f => .fault f := by
  simp only [replayOrBufferBlock, run_bind, run_get]
  split_ifs with hseen
  · rfl
  · simp only [run_bind, run_set, tryStage]
    cases (replayBlockFull P config order block).run (n.storeEarly block).stage <;> rfl

end Functions

/-! ### Votes -/

/-- A vote of `process_gossip_votes`: it is handed to the stage if the voter has stake.  The look for
double votes, which may lower the stake of the voter before, is left out. -/
def gossipVote (n : ValidatorNode) (voter : Hash) (slot : UInt64) (hash : Hash) :
    Except Fault ValidatorNode :=
  let stake := n.stage.bank.getValidatorStake voter
  if 0 < stake then do
    let stage ← n.stage.processGossipVote voter slot hash stake
    return { n with stage }
  else .ok n

/-- The slots of a vote: those since the last vote, and no more than fit a batch. -/
def voteSlots (n : ValidatorNode) (slot : UInt64) : List UInt64 :=
  let start := max (Word.saturatingSub slot (maxVoteBatch - 1)).toNat (n.lastVotedSlot.toNat + 1)
  (List.range' start (slot.toNat + 1 - start)).map UInt64.ofNat

/-- `submit_vote`: the vote it publishes, if any, and the node after it. -/
def submitVote (n : ValidatorNode) (slot : UInt64) (timestamp : Int64) :
    Option Vote × ValidatorNode :=
  if n.myVoteAccount.isNone ∨ slot ≤ n.lastVotedSlot then (none, n)
  else
    let hash := ((n.stage.bank.slotHashes.find? fun q => q.1 = slot).map Prod.snd).getD Hash.zero
    (some { slots := n.voteSlots slot, hash, timestamp := some timestamp },
      { n with lastVotedSlot := slot })

end ValidatorNode

end Nusantara

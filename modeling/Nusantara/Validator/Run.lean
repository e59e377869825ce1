import Nusantara.Validator.Switch

/-!
# Runs of a node

The slot loop (`validator/src/{slot_loop,replay}.rs`) as a transition relation: blocks and votes
arrive, the node produces, switches forks, advances its root and votes, in any order.  Blocks come
from the network, from the buffer of orphans and from the local store; all of them go through
`replay_or_buffer_block`.  A step that ends in an error ends the loop, so a run has none.

What a step does to the accounts, the state tree and the links of the fork tree is a list of a few
moves: the index is put on a fork, a block is committed, the index goes back to a slot, the root
advances.  `steps_moves` says this once; what a run keeps is then a question about moves.

Left out are the epoch boundary, the pruning of old blocks, and all that goes out.

## Main results

* `ValidatorNode.steps_moves`: the moves of a step.
-/

namespace Nusantara

open Exec Storage ReplayStage Option Trace ForkTree

/-! ### Moves -/

/-- A move of the stage. -/
inductive StageMove where
  /-- Nothing happens to the accounts and the links of the tree. -/
  | idle
  /-- The index is put on the fork of a slot. -/
  | enter (slot : UInt64)
  /-- The writes of a block are committed, and its slot joins the tree. -/
  | commit (slot parentSlot : UInt64)
  /-- The index goes back to a slot, whatever fork it is on. -/
  | back (slot : UInt64)
  /-- The root advances. -/
  | root (slot : UInt64)
  deriving DecidableEq

namespace ReplayStage

/-- Two stages have the same accounts and state tree, and trees with the same links. -/
structure SameChainState (s s' : ReplayStage) : Prop where
  accounts : s'.bank.storage.accounts = s.bank.storage.accounts
  accountIndex : s'.bank.storage.accountIndex = s.bank.storage.accountIndex
  stateTree : s'.bank.stateTree = s.bank.stateTree
  links : ForkTree.SameLinks s.forkTree s'.forkTree

/-- The stage with another store. -/
def withStorage (s : ReplayStage) (storage : Storage) : ReplayStage :=
  { s with bank := { s.bank with storage } }

variable (P : Platform)

/-- What a move makes of a stage. -/
def Moves (s : ReplayStage) (m : StageMove) (s' : ReplayStage) : Prop :=
  match m with
  | .idle => SameChainState s s'
  | .enter slot => ∃ ancestry, s.forkTree.getAncestry slot = .ok ancestry ∧ SameChainState
      (s.withStorage (s.bank.storage.rewindAccountIndexForAncestry ancestry.toFinset)) s'
  | .commit slot parentSlot => ∃ batch cache blockHash bankHash tree, Overlays slot batch cache ∧
      s.forkTree.addSlot slot parentSlot blockHash bankHash = .ok tree ∧ SameChainState
        { s with
          forkTree := tree
          bank := { s.bank with storage := s.bank.storage.write batch }.updateStateTree P
            cache.deltas } s'
  | .back slot => SameChainState (s.withStorage (s.bank.storage.rewindAccountIndexToSlot slot)) s'
  | .root slot => ∃ tree, (setRoot slot).run s.forkTree = .ok () tree ∧
      SameChainState { s with forkTree := tree } s'

/-- A move of the slot loop, which leaves the epochs to their boundaries. -/
def MovesInEpoch (s : ReplayStage) (m : StageMove) (s' : ReplayStage) : Prop :=
  Moves P s m s' ∧ s'.bank.epochSchedule = s.bank.epochSchedule

variable {P} {s s' : ReplayStage}

theorem SameChainState.refl (s : ReplayStage) : SameChainState s s := ⟨rfl, rfl, rfl, .refl _⟩

theorem SameChainState.trans {s'' : ReplayStage} (h : SameChainState s s')
    (h' : SameChainState s' s'') : SameChainState s s'' :=
  ⟨h'.accounts.trans h.accounts, h'.accountIndex.trans h.accountIndex,
    h'.stateTree.trans h.stateTree, h.links.trans h'.links⟩

end ReplayStage

/-! ### Events -/

/-- What happens to a node. -/
inductive NodeEvent where
  /-- A block is handed to `replay_or_buffer_block`. -/
  | receive (o : TaskOrder) (block : Block)
  /-- The node is the leader of its current slot. -/
  | produce (o : TaskOrder) (timestamp : Int64) (transactions : List Transaction)
  /-- A vote comes by gossip. -/
  | gossip (voter : Hash) (slot : UInt64) (hash : Hash)
  /-- The node looks for a fork switch. -/
  | switchFork (o : TaskOrder)
  /-- The root advances without a vote. -/
  | root (proposedRoot : UInt64) (catchingUp : Bool)
  /-- Orphans are taken out of the buffer. -/
  | takeOrphans (slots : List UInt64)
  /-- The node votes for its current slot. -/
  | vote (timestamp : Int64)
  /-- The next slot begins. -/
  | tick

variable {P : Platform} {config : ValidatorConfig} {n n' : ValidatorNode} {o : TaskOrder}
  {block : Block}

namespace ValidatorNode

section Steps

variable (P config)

/-- A step of the slot loop. -/
def NodeStep (n : ValidatorNode) (e : NodeEvent) (n' : ValidatorNode) : Prop :=
  match e with
  | .receive o block => (replayOrBufferBlock P config o.order block).run n = .ok () n'
  | .produce o timestamp transactions =>
    (leaderSlot P config o.order timestamp transactions).run n = .ok () n'
  | .gossip voter slot hash => n.gossipVote voter slot hash = .ok n'
  | .switchFork o => n.switchFork P config o.order = .ok n'
  | .root proposedRoot catchingUp => (tryAdvanceRoot P proposedRoot catchingUp).run n = .ok () n'
  | .takeOrphans slots => n' = { n with
      orphanBlocks := slots.foldl (fun orphans slot => orphans.erase slot) n.orphanBlocks }
  | .vote timestamp => n' = (n.submitVote n.currentSlot timestamp).2
  | .tick => n' = { n with currentSlot := n.currentSlot + 1 }

/-- The node that a computation returns. -/
def returned : Outcome Fault ValidatorNode ValidatorError Unit → Option ValidatorNode
  | .ok () n => some n
  | .err _ _ | .fault _ => none

/-- A step as a function. -/
def next (n : ValidatorNode) : NodeEvent → Option ValidatorNode
  | .receive o block => returned ((replayOrBufferBlock P config o.order block).run n)
  | .produce o timestamp transactions =>
    returned ((leaderSlot P config o.order timestamp transactions).run n)
  | .gossip voter slot hash => (n.gossipVote voter slot hash).toOption
  | .switchFork o => (n.switchFork P config o.order).toOption
  | .root proposedRoot catchingUp => returned ((tryAdvanceRoot P proposedRoot catchingUp).run n)
  | .takeOrphans slots => some { n with
      orphanBlocks := slots.foldl (fun orphans slot => orphans.erase slot) n.orphanBlocks }
  | .vote timestamp => some (n.submitVote n.currentSlot timestamp).2
  | .tick => some { n with currentSlot := n.currentSlot + 1 }

/-- The move of a root that is proposed to the node. -/
def rootMoves (n : ValidatorNode) (proposedRoot : Option UInt64) (catchingUp : Bool) :
    List StageMove :=
  match proposedRoot.map fun root => n.chooseRoot P root catchingUp with
  | some (.ok (some root)) => if n.stage.forkTree.contains root then [.root root] else []
  | _ => []

/-- The parent of a block that the node would produce now. -/
def productionParent (n : ValidatorNode) : UInt64 :=
  if n.stage.forkTree.contains n.stage.forkTree.bestSlot then n.stage.forkTree.bestSlot
  else n.producer.parentSlot

/-- The move of a node that is about to produce: none if its own last block is the parent. -/
def productionMoves (n : ValidatorNode) : List StageMove :=
  if n.lastProducedSlot = some n.productionParent then [] else [.enter n.productionParent]

/-- The moves of a step. -/
def moves (n : ValidatorNode) : NodeEvent → List StageMove
  | .receive o block =>
    let h := block.header
    if n.stage.forkTree.contains h.slot ∨ h.slot ∈ n.orphanBlocks then []
    else match (replayBlockFull P config o.order block).run (n.storeEarly block).stage with
      | .ok result stage => [.idle, .enter h.parentSlot, .commit h.slot h.parentSlot] ++
          rootMoves P { n with stage } result.newRoot false
      | .err (.missingParentBlock _ _) _ => [.idle]
      | .err _ _ => [.idle, .enter h.parentSlot, .idle]
      | .fault _ => []
  | .produce o timestamp transactions =>
    if n.stage.forkTree.contains n.currentSlot then []
    else match n.prepareProduction with
      | .error _ => []
      | .ok n₁ => match (leaderBlock P config o.order n.currentSlot timestamp transactions
          n₁.producer).run n₁.stage with
        | .ok (_, result) stage => n.productionMoves ++
            [.commit n.currentSlot n.productionParent] ++
              rootMoves P { n with stage } result.newRoot false
        | _ => []
  | .gossip _ _ _ => [.idle]
  | .switchFork _ => match n.stage.checkForkSwitch with
    | .ok (some plan) =>
      if plan.target ∈ n.failedForkTargets ∨ n.lastForkSwitchTarget = some plan.target then []
      else [.back plan.commonAncestor]
    | _ => []
  | .root proposedRoot catchingUp => rootMoves P n (some proposedRoot) catchingUp
  | .takeOrphans _ | .vote _ | .tick => []

end Steps

theorem returned_eq_some {r : Outcome Fault ValidatorNode ValidatorError Unit} :
    returned r = some n ↔ r = .ok () n := by
  cases r <;> simp [returned]

theorem nodeStep_of_next {e : NodeEvent} (h : n.next P config e = some n') :
    NodeStep P config n e n' := by
  cases e with
  | receive o block | produce o timestamp transactions | root proposedRoot catchingUp =>
    exact returned_eq_some.mp h
  | gossip voter slot hash | switchFork o => exact exceptToOption_eq_some.mp h
  | takeOrphans slots | vote timestamp | tick => exact (some.inj h).symm

/-- A run of steps as a function is a run of the slot loop. -/
theorem steps_of_foldlM {events : List NodeEvent} (h : events.foldlM (next P config) n = some n') :
    Steps (NodeStep P config) n events n' :=
  (Steps.of_foldlM h).mono fun _ _ _ => nodeStep_of_next

section

variable (hstage : n'.stage = n.stage) (horphans : n'.orphanBlocks = n.orphanBlocks)

include hstage horphans

/-- The choice of a root depends on the stage and the orphans of a node only. -/
theorem rootMoves_congr (root : Option UInt64) (catchingUp : Bool) :
    rootMoves P n' root catchingUp = rootMoves P n root catchingUp := by
  cases n
  cases n'
  subst hstage horphans
  rfl

end

theorem steps_tryAdvanceRoot {root : UInt64} {catchingUp : Bool}
    (h : (tryAdvanceRoot P root catchingUp).run n = .ok () n') :
    Steps (MovesInEpoch P) n.stage (rootMoves P n (some root) catchingUp) n'.stage := by
  unfold rootMoves
  rw [map_some]
  obtain ⟨hstage, hnot⟩ | ⟨new, tree, hchoice, hnew, hset, hstage⟩ := tryAdvanceRoot_cases (.inl h)
  · rw [hstage]
    split
    case h_1 new hchoice =>
      rw [contains, decide_eq_false (hnot new (some.inj hchoice))]
      exact .nil _
    case h_2 => exact .nil _
  · rw [hchoice, hstage]
    simp only [contains, hnew, decide_true, if_true]
    refine .cons ?_ (.nil _)
    exact ⟨⟨tree, hset, rfl, rfl, rfl, .refl _⟩, rfl⟩

/-- The move of a root that a vote has made, in terms of a node with the same stage and orphans. -/
theorem steps_advanceNewRoot {m : ValidatorNode} {root : Option UInt64}
    (h : (advanceNewRoot P root).run n = .ok () n') (hstage : n.stage = m.stage)
    (horphans : n.orphanBlocks = m.orphanBlocks) :
    Steps (MovesInEpoch P) m.stage (rootMoves P m root false) n'.stage := by
  rw [← hstage, ← rootMoves_congr hstage horphans]
  cases root with
  | none =>
    cases h
    exact .nil _
  | some root => exact steps_tryAdvanceRoot h

/-- An early write of the block is no move. -/
theorem moves_storeEarly (P : Platform) (n : ValidatorNode) (block : Block) :
    MovesInEpoch P n.stage .idle (n.storeEarly block).stage ∧
      (n.storeEarly block).stage.forkTree = n.stage.forkTree := by
  obtain ⟨storage, hstage, haccounts, hindex⟩ := storeEarly_stage n block
  rw [hstage]
  exact ⟨⟨⟨haccounts, hindex, rfl, .refl _⟩, rfl⟩, rfl⟩

end ValidatorNode

/-! ### The moves of a block -/

namespace ReplayStage

variable {order : List ℕ → List ℕ} {s s₁ s' : ReplayStage} {parent : ForkNode}
  {d : DeferredSlotExecution} {result : ReplayResult}

/-- A block that is executed moves the index to the fork of its parent. -/
theorem moves_enter (h : Executed P config order block s parent s₁ d) :
    MovesInEpoch P s (.enter block.header.parentSlot) s₁ := by
  obtain ⟨ancestry, clock, hanc, rfl⟩ := enterFork_eq_ok h.fork
  exact ⟨⟨ancestry, hanc, rfl, rfl, rfl, .refl _⟩, rfl⟩

/-- A block whose writes are in the store and in the state tree joins the tree. -/
theorem moves_commit {batch : WriteBatch} {cache : AccountCache} {slot parentSlot : UInt64}
    {parentPoh : Hash} (ho : Overlays slot batch cache) (hslot : block.header.slot = slot)
    (hparent : block.header.parentSlot = parentSlot) (htree : s₁.forkTree = s.forkTree)
    (haccounts : s₁.bank.storage.accounts = (s.bank.storage.write batch).accounts)
    (hindex : s₁.bank.storage.accountIndex = (s.bank.storage.write batch).accountIndex)
    (hstate : s₁.bank.stateTree = cache.deltas.foldl
      (fun t q => t.insert q.1 (accountLeafHash P q)) s.bank.stateTree)
    (hepochs : s₁.bank.epochSchedule = s.bank.epochSchedule)
    (h : (replayBlock P block [] parentPoh).run s₁ = .ok result s') :
    MovesInEpoch P s (.commit slot parentSlot) s' := by
  subst hslot hparent
  obtain ⟨-, -, ⟨tree, hadd, hlinks, -⟩, clock, frozen, -, hbank⟩ := replayBlock_eq_ok h
  rw [htree] at hadd
  refine ⟨⟨batch, cache, block.header.blockHash, block.header.bankHash, tree, ho, hadd, ?_, ?_, ?_,
    hlinks⟩, ?_⟩
  all_goals rw [hbank]
  exacts [haccounts, hindex, hstate, hepochs]

/-- **The moves of a replay.**  The index is put on the fork of the parent, and the block is
committed. -/
theorem steps_replayBlockFull (h : (replayBlockFull P config order block).run s = .ok result s') :
    Steps (MovesInEpoch P) s
      [.enter block.header.parentSlot, .commit block.header.slot block.header.parentSlot] s' := by
  obtain ⟨parent, s₁, d, hexec, -, hrun⟩ := replayBlockFull_eq_ok.mp h
  obtain ⟨cache, hdeltas, ho⟩ := executeBlock_eq_ok hexec.execute
  have htree : (commitBlock P block d s₁).forkTree = s₁.forkTree := rfl
  have haccounts : (commitBlock P block d s₁).bank.storage.accounts
      = (s₁.bank.storage.write d.writeBatch).accounts := rfl
  have hindex : (commitBlock P block d s₁).bank.storage.accountIndex
      = (s₁.bank.storage.write d.writeBatch).accountIndex := rfl
  have hstate : (commitBlock P block d s₁).bank.stateTree = cache.deltas.foldl
      (fun t q => t.insert q.1 (accountLeafHash P q)) s₁.bank.stateTree := by
    rw [← hdeltas]
    rfl
  have hcommit := moves_commit ho rfl rfl htree haccounts hindex hstate rfl hrun
  exact .cons (moves_enter hexec) (.cons hcommit (.nil _))

section

variable {slot : UInt64} {timestamp : Int64} {transactions : List Transaction}
  {producer : BlockProducer}

/-- What a production writes. -/
theorem produceBlock_writes {bank : ConsensusBank} {p : Production}
    (h : producer.produceBlock P config order slot timestamp transactions bank = .ok p) :
    p.block.header.slot = slot ∧ p.block.header.parentSlot = producer.parentSlot ∧
      p.bank.epochSchedule = bank.epochSchedule ∧ ∃ batch cache,
        Overlays slot batch cache ∧ p.bank.storage = bank.storage.write batch ∧
        p.bank.stateTree = cache.deltas.foldl (fun t q => t.insert q.1 (accountLeafHash P q))
          bank.stateTree := by
  simp only [BlockProducer.produceBlock, exceptBind_eq_ok] at h
  obtain ⟨bank', hbank, ⟨execResult, storage⟩, hexec, _, -, poh, -, frozen, -, h⟩ := h
  obtain ⟨clock, rfl⟩ := ConsensusBank.advanceSlot_eq_ok hbank
  obtain ⟨committer, hcommit, hresult⟩ := exceptBind_eq_ok.mp hexec
  cases Except.ok.inj hresult
  cases h
  exact ⟨rfl, rfl, rfl, committer.writeBatch, committer.accountCache, overlays_parallelCommitter hcommit,
    rfl, rfl⟩

/-- **The move of a production**: the block is committed on the parent of the producer. -/
theorem steps_leaderBlock {p : Production}
    (h : (leaderBlock P config order slot timestamp transactions producer).run s
      = .ok (p, result) s') :
    Steps (MovesInEpoch P) s [.commit slot producer.parentSlot] s' := by
  simp only [leaderBlock, bind_eq_ok, run_get, ofFault_eq_ok, run_set, run_pure,
    Outcome.ok.injEq, feedBlock_eq_ok] at h
  obtain ⟨_, _, ⟨rfl, rfl⟩, p', _, ⟨hp, rfl⟩, _, _, ⟨-, rfl⟩, result', s₂, hfeed, hpair, rfl⟩ := h
  cases hpair
  obtain ⟨hslot, hparent, hepochs, batch, cache, ho, hstorage, hstate⟩ := produceBlock_writes hp
  -- The block and its hashes are stored beside the accounts.
  have hcommit : MovesInEpoch P s (.commit slot producer.parentSlot) s₂ := by
    refine moves_commit ho hslot hparent ?_ ?_ ?_ ?_ hepochs hfeed
    · rfl
    · exact (congrArg Storage.accounts hstorage :)
    · exact (congrArg Storage.accountIndex hstorage :)
    · exact hstate
  exact .cons hcommit (.nil _)

end

end ReplayStage

namespace ValidatorNode

variable {n₁ : ValidatorNode}

/-- The node, with another producer, on the fork of the given slots. -/
def onFork (n : ValidatorNode) (producer : BlockProducer) (ancestry : List UInt64) :
    ValidatorNode :=
  { n with
    producer
    stage := { n.stage with bank := { n.stage.bank with
      slotHashes := forkHashes ancestry n.stage
      storage := n.storage.rewindAccountIndexForAncestry ancestry.toFinset } } }

theorem prepareProduction_eq (n : ValidatorNode) :
    ∃ producer : BlockProducer, producer.parentSlot = n.productionParent ∧
      n.prepareProduction = (do
        let ancestry ← n.stage.forkTree.getAncestry n.productionParent
        if n.lastProducedSlot = some n.productionParent then return { n with producer }
        else return n.onFork producer ancestry) := by
  unfold prepareProduction productionParent contains getNode
  cases hnode : n.stage.forkTree.nodes.lookup n.stage.forkTree.bestSlot with
  | none =>
    have hbest : n.stage.forkTree.bestSlot ∉ n.stage.forkTree.nodes := by
      simp [Finmap.mem_iff, hnode]
    exact ⟨n.producer, by simp [hbest], by simp [hbest, hnode]; rfl⟩
  | some node =>
    have hbest : n.stage.forkTree.bestSlot ∈ n.stage.forkTree.nodes :=
      Finmap.mem_iff.mpr ⟨node, hnode⟩
    exact ⟨n.producer.setParent n.stage.forkTree.bestSlot node.blockHash node.bankHash,
      by simp [hbest, BlockProducer.setParent], by simp [hbest, hnode]; rfl⟩

/-- What a node does before it produces. -/
theorem prepareProduction_eq_ok (h : n.prepareProduction = .ok n₁) :
    n₁.producer.parentSlot = n.productionParent ∧ n₁.orphanBlocks = n.orphanBlocks ∧
      n₁.currentSlot = n.currentSlot ∧
        Steps (MovesInEpoch P) n.stage n.productionMoves n₁.stage := by
  obtain ⟨producer, hparent, heq⟩ := n.prepareProduction_eq
  obtain ⟨ancestry, hanc, h⟩ := exceptBind_eq_ok.mp (heq.symm.trans h)
  unfold productionMoves
  split_ifs at h ⊢ with hlinear
  · cases h
    exact ⟨hparent, rfl, rfl, .nil _⟩
  · cases h
    refine ⟨hparent, rfl, rfl, .cons ?_ (.nil _)⟩
    exact ⟨⟨ancestry, hanc, rfl, rfl, rfl, .refl _⟩, rfl⟩

/-- `leader_slot` as one preparation, one block, and the root that follows. -/
theorem run_leaderSlot (timestamp : Int64) (transactions : List Transaction) (n : ValidatorNode) :
    (leaderSlot P config o.order timestamp transactions).run n =
      if n.stage.forkTree.contains n.currentSlot then .ok () n
      else match n.prepareProduction with
        | .error f => .fault f
        | .ok n₁ => match (leaderBlock P config o.order n₁.currentSlot timestamp transactions
            n₁.producer).run n₁.stage with
          | .fault f => .fault f
          | .err e stage => .err e { n₁ with stage }
          | .ok (production, result) stage => match (advanceNewRoot P result.newRoot).run
              { n₁ with stage, producer := production.producer } with
            | .fault f => .fault f
            | .err e n₂ => .err e n₂
            | .ok () n₂ => .ok () { n₂ with lastProducedSlot := some n₂.currentSlot } := by
  simp only [leaderSlot, run_bind, run_get]
  split_ifs
  · rfl
  · cases n.prepareProduction with
    | error f => rfl
    | ok n₁ =>
      have hprepared : (ofFault (.ok n₁) : Exec Fault ValidatorNode ValidatorError _).run n
          = .ok n₁ n := rfl
      simp only [run_bind, hprepared, run_set, tryStage]
      cases (leaderBlock P config o.order n₁.currentSlot timestamp transactions n₁.producer).run
        n₁.stage with
      | fault f => rfl
      | err e stage => rfl
      | ok q stage =>
        obtain ⟨production, result⟩ := q
        simp only [run_bind, run_get, run_set]
        cases (advanceNewRoot P result.newRoot).run
          { n₁ with stage, producer := production.producer } <;> rfl

/-! ### The moves of a step -/

/-- After a failure that the slot loop survives, the accounts are where the replay left them. -/
theorem moves_afterFailure {alreadyStored : Bool} {e : ValidatorError}
    (h : (afterFailure P block alreadyStored e).run n = .ok () n') :
    MovesInEpoch P n.stage .idle n'.stage := by
  simp only [afterFailure, bind_eq_ok, run_get, Outcome.ok.injEq] at h
  obtain ⟨_, _, ⟨rfl, rfl⟩, h⟩ := h
  cases e with
  | missingParentBlock slot parentSlot =>
    dsimp only at h
    split_ifs at h
    · cases h
      exact ⟨.refl _, rfl⟩
    · cases h
      exact ⟨.refl _, rfl⟩
  | bankHashMismatch slot | merkleRootMismatch slot | blockHashMismatch slot =>
    simp only [bind_eq_ok, ofFault_eq_ok, run_set, Outcome.ok.injEq] at h
    obtain ⟨n₁, _, ⟨hrestore, rfl⟩, -, rfl⟩ := h
    obtain ⟨ancestry, -, hn₁⟩ := exceptBind_eq_ok.mp hrestore
    cases hn₁
    split_ifs
    · exact ⟨⟨rfl, rfl, rfl, .refl _⟩, rfl⟩
    · obtain ⟨_, hdeleted, -⟩ := n.storage.deleteBlock_eq P slot
      rw [hdeleted]
      exact ⟨⟨rfl, rfl, rfl, .refl _⟩, rfl⟩
  | consensus e' =>
    cases e' with
    | slotAlreadyProcessed slot =>
      cases h
      exact ⟨.refl _, rfl⟩
    | _ => simp at h

theorem steps_receive (h : (replayOrBufferBlock P config o.order block).run n = .ok () n') :
    Steps (MovesInEpoch P) n.stage (n.moves P config (.receive o block)) n'.stage := by
  rw [run_replayOrBufferBlock] at h
  unfold moves
  dsimp only
  split_ifs at h ⊢ with hseen
  · cases h
    exact .nil _
  obtain ⟨hearly, htree⟩ := moves_storeEarly P n block
  cases hrun : (replayBlockFull P config o.order block).run (n.storeEarly block).stage with
  | fault f => simp [hrun] at h
  | ok result stage =>
    simp only [hrun] at h ⊢
    have horphans : (n.storeEarly block).orphanBlocks = n.orphanBlocks := by
      unfold storeEarly
      split_ifs <;> rfl
    have hroot := steps_advanceNewRoot (m := { n with stage }) h rfl horphans
    exact .cons hearly ((steps_replayBlockFull hrun).append hroot)
  | err e stage =>
    simp only [hrun] at h ⊢
    have hafter := moves_afterFailure h
    obtain ⟨-, rfl, rfl⟩ | ⟨parent, s₁, d, hexec, ⟨hmis, rfl⟩ | ⟨-, e', rfl, href, -⟩⟩ :=
      replayBlockFull_eq_err.mp hrun
    · -- The block waits for its parent, or is too old to.
      have hboth : MovesInEpoch P n.stage .idle n'.stage :=
        ⟨SameChainState.trans hearly.1 hafter.1, hafter.2.trans hearly.2⟩
      exact .cons hboth (.nil _)
    · -- The header does not match: the index stays where the execution has put it.
      obtain rfl | rfl | rfl := mismatch_eq_some hmis
      all_goals exact .cons hearly (.cons (moves_enter hexec) (.cons hafter (.nil _)))
    · -- The block is refused, which ends the loop.
      refine absurd h (afterFailure_ne_ok ?_ href _ n')
      rw [htree]
      exact fun hmem => hseen (.inl (by simpa [contains] using hmem))

theorem steps_produce {timestamp : Int64} {transactions : List Transaction}
    (h : (leaderSlot P config o.order timestamp transactions).run n = .ok () n') :
    Steps (MovesInEpoch P) n.stage (n.moves P config (.produce o timestamp transactions))
      n'.stage := by
  rw [run_leaderSlot] at h
  unfold moves
  dsimp only
  split_ifs at h ⊢ with hslot
  · cases h
    exact .nil _
  cases hprep : n.prepareProduction with
  | error f => simp [hprep] at h
  | ok n₁ =>
    obtain ⟨hparent, horphans, hcurrent, hmoves⟩ := prepareProduction_eq_ok (P := P) hprep
    simp only [hprep, hcurrent] at h ⊢
    cases hrun : (leaderBlock P config o.order n.currentSlot timestamp transactions
        n₁.producer).run n₁.stage with
    | fault f | err e stage => simp [hrun] at h
    | ok q stage =>
      obtain ⟨production, result⟩ := q
      simp only [hrun] at h ⊢
      split at h
      case h_3 n₂ hadvance =>
        cases h
        have hblock := steps_leaderBlock hrun
        rw [hparent] at hblock
        have hroot := steps_advanceNewRoot (m := { n with stage }) hadvance rfl horphans
        exact (hmoves.append hblock).append hroot
      all_goals simp at h

theorem steps_switchFork (h : n.switchFork P config o.order = .ok n') :
    Steps (MovesInEpoch P) n.stage (n.moves P config (.switchFork o)) n'.stage := by
  obtain ⟨choice, hplan, h⟩ := exceptBind_eq_ok.mp h
  unfold moves
  simp only [hplan]
  cases choice with
  | none =>
    cases h
    exact .nil _
  | some plan =>
    dsimp only at h ⊢
    split_ifs at h ⊢
    · cases h
      exact .nil _
    · obtain ⟨⟨completed, n₁⟩, hswitch, h⟩ := exceptBind_eq_ok.mp h
      cases h
      have hplan' : { n with lastForkSwitchTarget := some plan.target : ValidatorNode
          }.stage.checkForkSwitch = .ok (some plan) := hplan
      obtain ⟨-, clock, producer, rfl⟩ := handleForkSwitch_eq_ok hplan' hswitch
      refine .cons ?_ (.nil _)
      exact ⟨⟨rfl, rfl, rfl, .refl _⟩, rfl⟩

section

variable {e : NodeEvent} (h : NodeStep P config n e n')

include h

/-- **The moves of a step.** -/
theorem steps_movesInEpoch :
    Steps (MovesInEpoch P) n.stage (n.moves P config e) n'.stage := by
  cases e with
  | receive o block => exact steps_receive h
  | produce o timestamp transactions => exact steps_produce h
  | gossip voter slot hash =>
    have hsame : MovesInEpoch P n.stage .idle n'.stage := by
      simp only [NodeStep, gossipVote] at h
      split_ifs at h
      · obtain ⟨stage, hvote, h⟩ := exceptBind_eq_ok.mp h
        cases h
        have hcounted := votesCounted_processGossipVote hvote
        refine ⟨⟨?_, ?_, ?_, hcounted.links⟩, ?_⟩
        all_goals rw [hcounted.bank]
      · cases h
        exact ⟨.refl _, rfl⟩
    exact .cons hsame (.nil _)
  | switchFork o => exact steps_switchFork h
  | root proposedRoot catchingUp => exact steps_tryAdvanceRoot h
  | takeOrphans slots | tick =>
    obtain rfl := h
    exact .nil _
  | vote timestamp =>
    obtain rfl := h
    have hstage : (n.submitVote n.currentSlot timestamp).2.stage = n.stage := by
      unfold submitVote
      split_ifs <;> rfl
    rw [hstage]
    exact .nil _

theorem steps_moves :
    Steps (Moves P) n.stage (n.moves P config e) n'.stage :=
  (steps_movesInEpoch h).mono fun _ _ _ hmove => hmove.1

theorem epochSchedule_nodeStep :
    n'.stage.bank.epochSchedule = n.stage.bank.epochSchedule :=
  (steps_movesInEpoch h).invariant (G := fun _ => True)
    (I := fun s => s.bank.epochSchedule = n.stage.bank.epochSchedule)
    (fun _ _ _ hs _ hmove => hmove.2.trans hs) rfl fun _ _ => trivial

end

end ValidatorNode

end Nusantara

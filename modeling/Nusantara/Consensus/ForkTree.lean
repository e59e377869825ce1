import Mathlib.Algebra.BigOperators.Group.Finset.Basic
import Nusantara.Core.Block
import Nusantara.Lib.Collections
import Nusantara.Lib.Exec

/-!
# The fork tree

The tree of replayed slots and the stake that voted for them (`consensus/src/fork_choice.rs`).
A voter counts once, for the first slot it is seen to vote for; its stake is added to that slot
and to the weight of the subtree of every ancestor.

The tree is built from the numbers in block headers, and nothing says that a parent has the
smaller number.  A walk along the parents is therefore given as many steps as there are nodes; one
that needs more has come back to a node and would go on for ever (`Fault.endlessLoop`).

## Main results

* `ForkTree.addVote_eq_ok`: the two outcomes of a vote.
* `ForkTree.newVoter_iff`: the voter that a vote adds to a node, and when.
-/

namespace Nusantara

open Exec List Finmap
open Except (ok)

/-! ### Errors of the consensus crate -/

/-- An error of the consensus crate. -/
inductive ConsensusError where
  | pohVerificationFailed (index : ℕ)
  | lockoutViolation (voteSlot lockedSlot : UInt64)
  | voteTooOld (voteSlot rootSlot : UInt64)
  | slotAlreadyProcessed (slot : UInt64)
  | maxDepthExceeded (depth max : ℕ)
  | wrongLeader (slot : UInt64) (expected got : Hash)
  | invalidRoot (slot : UInt64)
  | emptyVoteSlots
  deriving DecidableEq

/-- `CommitmentLevel`. -/
inductive CommitmentLevel where
  | processed
  | confirmed
  | finalized
  deriving DecidableEq

/-! ### The tree -/

/-- `MAX_FORK_TREE_NODES`. -/
def maxForkTreeNodes : ℕ := 64 * 4

/-- `ForkNode`. -/
structure ForkNode where
  slot : UInt64
  parentSlot : Option UInt64
  blockHash : Hash
  bankHash : Hash
  children : List UInt64
  stakeVoted : UInt64
  subtreeStake : UInt64
  isConnected : Bool
  commitment : CommitmentLevel
  /-- The voters whose stake has been counted for this slot. -/
  votersSeen : Finset Hash
  deriving DecidableEq

/-- The nodes of a tree, by slot. -/
abbrev ForkNodes := Finmap fun _ : UInt64 => ForkNode

/-- `ForkTree`. -/
structure ForkTree where
  nodes : ForkNodes
  rootSlot : UInt64
  bestSlot : UInt64
  totalActiveStake : UInt64
  /-- The first slot each voter cast a vote on. -/
  validatorToVotedSlot : Finmap fun _ : Hash => UInt64
  deriving DecidableEq

namespace ForkTree

/-- `ForkTree::new`. -/
def new (rootSlot : UInt64) (blockHash bankHash : Hash) : ForkTree :=
  { nodes := singleton rootSlot
      { slot := rootSlot, parentSlot := none, blockHash, bankHash, children := [],
        stakeVoted := 0, subtreeStake := 0, isConnected := true, commitment := .finalized,
        votersSeen := ∅ }
    rootSlot
    bestSlot := rootSlot
    totalActiveStake := 0
    validatorToVotedSlot := ∅ }

variable (t : ForkTree)

/-- `ForkTree::get_node`. -/
def getNode (slot : UInt64) : Option ForkNode := t.nodes.lookup slot

/-- `ForkTree::contains`. -/
def contains (slot : UInt64) : Bool := slot ∈ t.nodes

/-- `ForkTree::node_count`. -/
def nodeCount : ℕ := t.nodes.keys.card

/-- `ForkTree::add_slot`. -/
def addSlot (slot parentSlot : UInt64) (blockHash bankHash : Hash) :
    Except ConsensusError ForkTree :=
  if slot ∈ t.nodes then .error (.slotAlreadyProcessed slot)
  else if maxForkTreeNodes ≤ t.nodeCount then
    .error (.maxDepthExceeded t.nodeCount maxForkTreeNodes)
  else
    let (nodes, isConnected) := match t.nodes.lookup parentSlot with
      | some parent =>
        (t.nodes.insert parentSlot { parent with children := parent.children ++ [slot] },
          parent.isConnected)
      | none => (t.nodes, false)
    let node : ForkNode :=
      { slot, parentSlot := some parentSlot, blockHash, bankHash, children := [], stakeVoted := 0,
        subtreeStake := 0, isConnected, commitment := .processed, votersSeen := ∅ }
    .ok { t with nodes := nodes.insert slot node }

/-- The loop of `add_vote` that adds the stake to the subtree of every ancestor. -/
def propagate (stake : UInt64) : ℕ → UInt64 → ForkNodes → Except Fault ForkNodes
  | 0, _, _ => .error .endlessLoop
  | fuel + 1, current, nodes =>
    match nodes.lookup current with
    | none => .ok nodes
    | some node =>
      let nodes := nodes.insert current
        { node with subtreeStake := Word.saturatingAdd node.subtreeStake stake }
      match node.parentSlot with
      | none => .ok nodes
      | some parent => if parent = current then .ok nodes else propagate stake fuel parent nodes

/-- `ForkTree::add_vote`: whether the vote was counted, and the tree after it. -/
def addVote (slot : UInt64) (voter : Hash) (stake : UInt64) : Except Fault (Bool × ForkTree) :=
  -- A second vote of a voter is dropped, for the same slot or for another.
  if voter ∈ t.validatorToVotedSlot then .ok (false, t)
  else match t.nodes.lookup slot with
    | none => .ok (false, t)
    | some node =>
      if voter ∈ node.votersSeen then .ok (false, t)
      else do
        let nodes := t.nodes.insert slot
          { node with
            stakeVoted := Word.saturatingAdd node.stakeVoted stake
            votersSeen := insert voter node.votersSeen }
        let nodes ← propagate stake (t.nodeCount + 1) slot nodes
        return (true, { t with
          nodes, validatorToVotedSlot := t.validatorToVotedSlot.insert voter slot })

/-- Whether the second child is at least as good as the first: more stake in its subtree, or as
much and a block hash that is not smaller. -/
def atLeastAsHeavy (a b : ForkNode) : Bool :=
  a.subtreeStake < b.subtreeStake ∨ a.subtreeStake = b.subtreeStake ∧ a.blockHash ≤ b.blockHash

/-- The child `max_by_key` selects: of several best ones, the last. -/
def heaviestChild (node : ForkNode) : Option (UInt64 × ForkNode) :=
  (node.children.filterMap fun c => (t.nodes.lookup c).map fun n => (c, n)).foldl
    (fun best c => match best with
      | none => some c
      | some b => if atLeastAsHeavy b.2 c.2 then some c else some b)
    none

/-- `ForkTree::find_heaviest_from`. -/
def findHeaviestFrom : ℕ → UInt64 → Except Fault UInt64
  | 0, _ => .error .endlessLoop
  | fuel + 1, current =>
    match t.nodes.lookup current with
    | none => .ok current
    | some node => match t.heaviestChild node with
      | none => .ok current
      | some (best, _) => findHeaviestFrom fuel best

/-- `ForkTree::compute_best_fork`. -/
def computeBestFork : Except Fault ForkTree := do
  let best ← t.findHeaviestFrom (t.nodeCount + 1) t.rootSlot
  return { t with bestSlot := best }

/-- The loop of `get_ancestry`. -/
def ancestryFrom : ℕ → UInt64 → Except Fault (List UInt64)
  | 0, _ => .error .endlessLoop
  | fuel + 1, current =>
    match t.nodes.lookup current with
    | none => .ok [current]
    | some node => match node.parentSlot with
      | none => .ok [current]
      | some parent =>
        if parent = current then .ok [current]
        else do
          let rest ← ancestryFrom fuel parent
          return current :: rest

/-- `ForkTree::get_ancestry`: the slot and its ancestors, down to the first that is not in the
tree. -/
def getAncestry (slot : UInt64) : Except Fault (List UInt64) :=
  t.ancestryFrom (t.nodeCount + 1) slot

/-- The children of a slot; none if it is not in the tree. -/
def childrenOf (slot : UInt64) : List UInt64 :=
  ((t.nodes.lookup slot).map ForkNode.children).getD []

/-- The number of entries in the lists of children. -/
def childCount : ℕ := ∑ slot ∈ t.nodes.keys, (t.childrenOf slot).length

/-- The loop of `collect_subtree`, with the top of its stack first. -/
def collectSubtreeFrom : ℕ → List UInt64 → Finset UInt64 → Except Fault (Finset UInt64)
  | _, [], reachable => .ok reachable
  | 0, _ :: _, _ => .error .endlessLoop
  | fuel + 1, slot :: stack, reachable =>
    collectSubtreeFrom fuel ((t.childrenOf slot).reverse ++ stack) (insert slot reachable)

/-- `ForkTree::collect_subtree`.  Beyond the start, a slot gets on the stack by an entry in a list of
children. -/
def collectSubtree (root : UInt64) : Except Fault (Finset UInt64) :=
  t.collectSubtreeFrom (t.childCount + 1) [root] ∅

/-- The tree after it is pruned to the subtree of a new root. -/
def pruned (newRoot : UInt64) (ancestry : List UInt64) (reachable : Finset UInt64) : ForkTree :=
  let nodes := t.nodes.retain fun slot _ => slot ∈ reachable ∨ slot ∈ ancestry
  let nodes := ancestry.foldl (fun nodes slot =>
    if slot ≠ newRoot ∧ slot ≠ t.rootSlot then nodes.erase slot else nodes) nodes
  let nodes := if t.rootSlot ≠ newRoot then nodes.erase t.rootSlot else nodes
  let nodes := match nodes.lookup newRoot with
    | some node => nodes.insert newRoot { node with parentSlot := none, commitment := .finalized }
    | none => nodes
  { t with
    nodes
    rootSlot := newRoot
    validatorToVotedSlot := t.validatorToVotedSlot.retain fun _ voted => newRoot ≤ voted }

/-- `ForkTree::set_root`.  The list of pruned slots it returns is only logged. -/
def setRoot (newRoot : UInt64) : Exec Fault ForkTree ConsensusError Unit := do
  let t ← get
  require (newRoot ∈ t.nodes) (.invalidRoot newRoot)
  if newRoot ≤ t.rootSlot then return ()
  else
    let ancestry ← ofFault (t.getAncestry newRoot)
    let reachable ← ofFault (t.collectSubtree newRoot)
    set (t.pruned newRoot ancestry reachable)

/-- An ancestry starts with its slot. -/
theorem mem_getAncestry_self {t : ForkTree} {slot : UInt64} {ancestry : List UInt64}
    (h : t.getAncestry slot = .ok ancestry) : slot ∈ ancestry := by
  simp only [getAncestry, ancestryFrom] at h
  split at h
  case h_1 => exact ok.inj h ▸ mem_singleton_self slot
  case h_2 =>
    split at h
    case h_1 => exact ok.inj h ▸ mem_singleton_self slot
    case h_2 =>
      split_ifs at h
      · exact ok.inj h ▸ mem_singleton_self slot
      · obtain ⟨rest, -, h⟩ := exceptBind_eq_ok.mp h
        exact ok.inj h ▸ mem_cons_self

section

variable {newRoot : UInt64}

/-- What a root that was set makes of the tree: nothing, unless the root moves up. -/
theorem setRoot_inv {t t' : ForkTree} :
    (setRoot newRoot).run t = .ok () t' ↔ newRoot ∈ t.nodes ∧
      (newRoot ≤ t.rootSlot ∧ t' = t ∨ t.rootSlot < newRoot ∧
        ∃ ancestry reachable, t.getAncestry newRoot = .ok ancestry ∧
          t.collectSubtree newRoot = .ok reachable ∧ t' = t.pruned newRoot ancestry reachable) := by
  simp only [setRoot, bind_eq_ok, run_get, require_eq_ok, Outcome.ok.injEq, and_assoc,
    exists_and_left, existsAndEq, exists_unit, true_and]
  refine and_congr_right fun _ => ?_
  split_ifs with hle
  · simp [hle, not_lt.mpr hle, eq_comm]
  · simp only [bind_eq_ok, ofFault_eq_ok, run_set, Outcome.ok.injEq, and_assoc, exists_and_left,
      existsAndEq, true_and, hle, false_and, false_or, not_le.mp hle, @eq_comm ForkTree t']

/-- A root is refused only if it is not in the tree, and then the tree stays as it is. -/
theorem setRoot_err {t t' : ForkTree} {e : ConsensusError}
    (h : (setRoot newRoot).run t = .err e t') : newRoot ∉ t.nodes ∧ t' = t := by
  simp only [setRoot, bind_eq_err, run_get, require_eq_err, require_eq_ok, reduceCtorEq, false_or,
    Outcome.ok.injEq, and_assoc, exists_and_left, existsAndEq, exists_unit, true_and] at h
  rcases h with ⟨hmem, -, rfl⟩ | ⟨-, h⟩
  · exact ⟨hmem, rfl⟩
  · split_ifs at h
    · simp at h
    · simp [bind_eq_err] at h

variable {t : ForkTree} {q : UInt64 → ForkNode → Prop} (ht : t.nodes.ForAll q)
  (hroot : ∀ node, q newRoot node →
    q newRoot { node with parentSlot := none, commitment := .finalized })

include ht hroot

/-- What holds of every node, and of the node of a new root when it is cut off, holds of every node
that the root leaves. -/
theorem forAll_pruned {ancestry : List UInt64} {reachable : Finset UInt64} :
    (t.pruned newRoot ancestry reachable).nodes.ForAll q := by
  have hretained := ht.retain (p := fun slot _ => slot ∈ reachable ∨ slot ∈ ancestry)
  -- The slots of the ancestry go, and then the old root.
  have hfold := foldlRecOn ancestry (fun nodes slot =>
    if slot ≠ newRoot ∧ slot ≠ t.rootSlot then nodes.erase slot else nodes)
    (motive := Finmap.ForAll q) hretained (by
    intro nodes hnodes slot _
    split_ifs
    · exact hnodes.erase slot
    · exact hnodes)
  have herased : ∀ nodes : ForkNodes, nodes.ForAll q →
      Finmap.ForAll q (if t.rootSlot ≠ newRoot then nodes.erase t.rootSlot else nodes) := by
    intro nodes hnodes
    split_ifs
    · exact hnodes.erase _
    · exact hnodes
  unfold pruned
  dsimp only
  split
  case h_1 node hnode => exact (herased _ hfold).insert (hroot node (herased _ hfold _ _ hnode))
  case h_2 => exact herased _ hfold

theorem forAll_setRoot {t' : ForkTree} (h : (setRoot newRoot).run t = .ok () t') :
    t'.nodes.ForAll q := by
  obtain ⟨-, ⟨-, rfl⟩ | ⟨-, ancestry, reachable, -, -, rfl⟩⟩ := setRoot_inv.mp h
  · exact ht
  · exact forAll_pruned ht hroot

end

/-! ### What a vote changes -/

/-- The voter has been counted for the slot. -/
def HasVoter (slot : UInt64) (voter : Hash) : Prop :=
  ∃ node, t.nodes.lookup slot = some node ∧ voter ∈ node.votersSeen

instance (slot : UInt64) (voter : Hash) : Decidable (t.HasVoter slot voter) :=
  decidable_of_iff ((t.nodes.lookup slot).any fun node => voter ∈ node.votersSeen) (by
    cases h : t.nodes.lookup slot <;> simp [HasVoter, h])

/-- A vote of the voter for the slot would be counted: the slot is in the tree, and the voter has
been counted neither for it nor for another. -/
def WouldCount (slot : UInt64) (voter : Hash) : Prop :=
  voter ∉ t.validatorToVotedSlot ∧
    ∃ node, t.nodes.lookup slot = some node ∧ voter ∉ node.votersSeen

end ForkTree

/-- A node without the weight of its subtree. -/
def ForkNode.core (node : ForkNode) : ForkNode := { node with subtreeStake := 0 }

namespace ForkTree

variable {t t' : ForkTree} {stake : UInt64} {slot slot' : UInt64} {voter voter' : Hash}
  {counted : Bool}

theorem lookup_insert_core {nodes : ForkNodes} {node : ForkNode} {current : UInt64}
    (h : nodes.lookup current = some node) {w : UInt64} (k : UInt64) :
    ((nodes.insert current { node with subtreeStake := w }).lookup k).map ForkNode.core
      = (nodes.lookup k).map ForkNode.core := by
  by_cases hk : k = current
  · subst hk
    rw [lookup_insert, h]
    rfl
  · rw [lookup_insert_of_ne _ hk]

/-- The walk along the parents changes the weights of subtrees only. -/
theorem propagate_core {fuel : ℕ} {current : UInt64} {nodes nodes' : ForkNodes}
    (h : propagate stake fuel current nodes = .ok nodes') (k : UInt64) :
    (nodes'.lookup k).map ForkNode.core = (nodes.lookup k).map ForkNode.core := by
  induction fuel generalizing current nodes with
  | zero => simp [propagate] at h
  | succ fuel ih =>
    simp only [propagate] at h
    split at h
    case h_1 =>
      cases h
      rfl
    case h_2 node hnode =>
      split at h
      case h_1 =>
        cases h
        exact lookup_insert_core hnode k
      case h_2 parent _ =>
        split_ifs at h with hp
        · cases h
          exact lookup_insert_core hnode k
        · exact (ih h).trans (lookup_insert_core hnode k)

section

variable (h : t.addVote slot voter stake = .ok (counted, t'))

include h

/-- **The outcomes of a vote.**  It is dropped, or it is counted for its slot and for nothing
else; the nodes stay as they are but for the stakes. -/
theorem addVote_eq_ok :
    (counted = false ∧ ¬ t.WouldCount slot voter ∧ t' = t) ∨
      (counted = true ∧ t.WouldCount slot voter ∧
        ∃ node nodes, t.nodes.lookup slot = some node ∧
          t' = { t with
            nodes, validatorToVotedSlot := t.validatorToVotedSlot.insert voter slot } ∧
          ∀ k, (nodes.lookup k).map ForkNode.core
            = ((t.nodes.insert slot { node with
                stakeVoted := Word.saturatingAdd node.stakeVoted stake
                votersSeen := insert voter node.votersSeen }).lookup k).map ForkNode.core) := by
  simp only [addVote] at h
  split at h
  case isTrue hv =>
    cases ok.inj h
    exact .inl ⟨rfl, fun hw => hw.1 hv, rfl⟩
  case isFalse hv =>
    split at h
    case h_1 hnode =>
      cases ok.inj h
      refine .inl ⟨rfl, ?_, rfl⟩
      rintro ⟨-, node, hn, -⟩
      rw [hnode] at hn
      cases hn
    case h_2 node hnode =>
      split at h
      case isTrue hseen =>
        cases ok.inj h
        refine .inl ⟨rfl, ?_, rfl⟩
        rintro ⟨-, node', hn, hnot⟩
        cases hnode.symm.trans hn
        exact hnot hseen
      case isFalse hseen =>
        obtain ⟨nodes, hp, h⟩ := exceptBind_eq_ok.mp h
        cases ok.inj h
        exact .inr ⟨rfl, ⟨hv, node, hnode, hseen⟩, node, nodes, hnode, rfl, propagate_core hp⟩

/-- A vote leaves the hashes of the blocks alone. -/
theorem addVote_blockHash (k : UInt64) :
    (t'.nodes.lookup k).map ForkNode.blockHash = (t.nodes.lookup k).map ForkNode.blockHash := by
  obtain ⟨-, -, rfl⟩ | ⟨-, -, node, nodes, hnode, rfl, hcore⟩ := addVote_eq_ok h
  · rfl
  · have hk := congrArg (Option.map ForkNode.blockHash) (hcore k)
    simp only [Option.map_map] at hk
    refine hk.trans ?_
    by_cases hks : k = slot
    · subst hks
      rw [lookup_insert, hnode]
      rfl
    · rw [lookup_insert_of_ne _ hks]
      rfl

/-- A vote that is counted adds its own voter to the node of its own slot. -/
theorem hasVoter_addVote :
    t'.HasVoter slot' voter' ↔
      t.HasVoter slot' voter' ∨ slot' = slot ∧ voter' = voter ∧ t.WouldCount slot voter := by
  obtain ⟨-, hnot, rfl⟩ | ⟨-, hw, node, nodes, hnode, rfl, hcore⟩ := addVote_eq_ok h
  · simp [hnot]
  · have hk := congrArg (Option.map ForkNode.votersSeen) (hcore slot')
    simp only [Option.map_map] at hk
    have hmem : (∃ n, nodes.lookup slot' = some n ∧ voter' ∈ n.votersSeen) ↔
        ∃ s, (nodes.lookup slot').map (ForkNode.votersSeen ∘ ForkNode.core) = some s ∧
          voter' ∈ s := by
      simp [ForkNode.core]
    show (∃ n, nodes.lookup slot' = some n ∧ voter' ∈ n.votersSeen) ↔ _
    rw [hmem, hk]
    by_cases hks : slot' = slot
    · subst hks
      simp [HasVoter, hnode, ForkNode.core, or_comm, hw]
    · simp [HasVoter, lookup_insert_of_ne _ hks, hks, ForkNode.core]

end

theorem WouldCount.not_hasVoter (h : t.WouldCount slot voter) : ¬ t.HasVoter slot voter := by
  rintro ⟨n, hn, hv⟩
  obtain ⟨-, node, hnode, hnot⟩ := h
  cases hn.symm.trans hnode
  exact hnot hv

/-- **The voter a vote adds.**  A vote adds its own voter to the node of its own slot, and does so
exactly if it would be counted in the tree before it. -/
theorem newVoter_iff (h : t.addVote slot voter stake = .ok (counted, t')) :
    ¬ t.HasVoter slot' voter' ∧ t'.HasVoter slot' voter' ↔
      slot' = slot ∧ voter' = voter ∧ t.WouldCount slot voter := by
  rw [hasVoter_addVote h]
  constructor
  · rintro ⟨hold, hnew | hnew⟩
    · exact absurd hnew hold
    · exact hnew
  · rintro ⟨rfl, rfl, hw⟩
    exact ⟨hw.not_hasVoter, .inr ⟨rfl, rfl, hw⟩⟩

end ForkTree

end Nusantara

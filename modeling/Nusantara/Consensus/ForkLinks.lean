import Mathlib.Data.List.TakeWhile
import Nusantara.Consensus.ForkTree
import Nusantara.Lib.Walk

/-!
# The links of the fork tree

A slot is linked to its parent by its own node, and to its children by their list in the node of the
parent.  Slots may come before their parents, so the two need not agree: a list of children never
names a slot that has another parent, but a slot may be missing in the list of its parent.

The walks of `get_ancestry` and `add_vote` go along the parents, those of `compute_best_fork` and
`set_root` along the lists of children.

## Main results

* `ForkTree.getAncestry_eq_ok`: `get_ancestry` returns the walk along the parents.
* `ForkTree.Linked.collectSubtree_ok`: what `collect_subtree` returns, if the start has an ancestry.
* `ForkTree.Linked.lookup_pruned`: the nodes that a new root leaves.
* `ForkTree.Linked.addSlot`, `.pruned`: the operations keep a tree linked.
-/

namespace Nusantara

open Exec List Option ForkNode
open Finmap (lookup_insert)
open Finmap (lookup_insert_of_ne)
open Finmap (mem_iff)

/-! ### Walks along the parents -/

/-- The parent of a slot, as the walks along the parents see it. -/
def ForkNodes.up (nodes : ForkNodes) (slot : UInt64) : Option UInt64 :=
  ((nodes.lookup slot).bind parentSlot).filter (· ≠ slot)

/-- The slots a node is linked to. -/
def ForkNode.links (node : ForkNode) : Option UInt64 × List UInt64 :=
  (node.parentSlot, node.children)

/-- A node with more stake in its subtree. -/
def ForkNode.addWeight (stake : UInt64) (node : ForkNode) : ForkNode :=
  { node with subtreeStake := Word.saturatingAdd node.subtreeStake stake }

/-- A node with the vote of one more voter. -/
def ForkNode.addVoter (voter : Hash) (stake : UInt64) (node : ForkNode) : ForkNode :=
  { node with
    stakeVoted := Word.saturatingAdd node.stakeVoted stake
    votersSeen := insert voter node.votersSeen }

namespace ForkTree

variable {t t' : ForkTree} {slot parent x y : UInt64} {l l' : List UInt64} {fuel : ℕ}
  {blockHash bankHash voter : Hash} {stake : UInt64} {counted : Bool} {nodes nodes' : ForkNodes}

/-- The parent of a slot in the tree. -/
def up (t : ForkTree) : UInt64 → Option UInt64 := ForkNodes.up t.nodes

/-- The parent that the node of a slot names. -/
def parentOf (t : ForkTree) (slot : UInt64) : Option UInt64 :=
  (t.nodes.lookup slot).bind parentSlot

theorem up_eq_some : t.up x = some y ↔ t.parentOf x = some y ∧ y ≠ x := by
  rw [up, ForkNodes.up, filter_eq_some_iff, parentOf, decide_eq_true_iff]

theorem mem_of_parentOf (h : t.parentOf x = some y) : x ∈ t.nodes := by
  obtain ⟨node, hnode, -⟩ := bind_eq_some_iff.mp h
  exact mem_iff.mpr ⟨node, hnode⟩

theorem mem_of_up (h : t.up x = some y) : x ∈ t.nodes := mem_of_parentOf (up_eq_some.mp h).1

theorem up_congr (h : (nodes'.lookup x).bind parentSlot
      = (nodes.lookup x).bind parentSlot) :
    ForkNodes.up nodes' x = ForkNodes.up nodes x :=
  congrArg (Option.filter (· ≠ x)) h

theorem ancestryFrom_eq_ok :
    t.ancestryFrom fuel x = .ok l ↔ Walk t.up x l ∧ l.length ≤ fuel := by
  induction fuel generalizing x l with
  | zero =>
    simp only [ancestryFrom, reduceCtorEq, false_iff, not_and, not_le]
    exact fun w => length_pos_of_mem w.head_mem
  | succ fuel ih =>
    -- The walk ends here, or it goes on at a parent.
    have hstop : t.up x = none → (Except.ok [x] = Except.ok (ε := Fault) l ↔
        Walk t.up x l ∧ l.length ≤ fuel + 1) := by
      intro hup
      constructor
      · intro h
        cases h
        exact ⟨.stop hup, by simp⟩
      · rintro ⟨w, -⟩
        rw [w.unique (.stop hup)]
    have hup : t.up x = ((t.nodes.lookup x).bind parentSlot).filter (· ≠ x) := rfl
    simp only [ancestryFrom]
    split
    case h_1 hnode => exact hstop (by rw [hup, hnode]; rfl)
    case h_2 node hnode =>
      split
      case h_1 hparent => exact hstop (by rw [hup, hnode, bind_some, hparent]; rfl)
      case h_2 parent hparent =>
        rw [hnode, bind_some, hparent] at hup
        split_ifs with hself
        · exact hstop (by rw [hup]; simp [hself])
        · have hsome : t.up x = some parent := by rw [hup]; simp [hself]
          rw [exceptBind_eq_ok]
          constructor
          · rintro ⟨rest, hrest, h⟩
            cases h
            obtain ⟨w, hlen⟩ := ih.mp hrest
            exact ⟨.step hsome w, by simpa using hlen⟩
          · rintro ⟨w, hlen⟩
            cases w with
            | stop hnone => exact absurd (hsome.symm.trans hnone) (by simp)
            | @step _ y rest h w =>
              cases hsome.symm.trans h
              exact ⟨rest, ih.mpr ⟨w, by simpa using hlen⟩, rfl⟩

/-- **`get_ancestry`** returns the walk along the parents: one with more steps than there are nodes
would be endless. -/
theorem getAncestry_eq_ok : t.getAncestry x = .ok l ↔ Walk t.up x l := by
  unfold getAncestry
  rw [ancestryFrom_eq_ok]
  refine ⟨And.left, fun w => ⟨w, w.length_le_card_succ fun y z hup => ?_⟩⟩
  exact Finmap.mem_keys.mpr (mem_of_up hup)

/-- The stake that voted for a slot; none if it is not in the tree. -/
def stakeOn (t : ForkTree) (slot : UInt64) : ℕ :=
  ((t.nodes.lookup slot).map fun node => node.stakeVoted.toNat).getD 0

/-- A slot is on the ancestry of another. -/
def OnAncestry (t : ForkTree) (ancestor slot : UInt64) : Prop :=
  ∃ ancestry, t.getAncestry slot = .ok ancestry ∧ ancestor ∈ ancestry

instance (t : ForkTree) (ancestor slot : UInt64) : Decidable (t.OnAncestry ancestor slot) :=
  inferInstanceAs (Decidable (∃ ancestry, t.getAncestry slot = .ok ancestry ∧ ancestor ∈ ancestry))

theorem onAncestry_iff (w : Walk t.up slot l) : t.OnAncestry x slot ↔ x ∈ l := by
  refine ⟨?_, fun h => ⟨l, getAncestry_eq_ok.mpr w, h⟩⟩
  rintro ⟨l', hl', h⟩
  rwa [(getAncestry_eq_ok.mp hl').unique w] at h

/-! ### Votes and the best fork -/

/-- Trees with the same links and the same root. -/
structure SameLinks (t t' : ForkTree) : Prop where
  links : ∀ k, (t'.nodes.lookup k).map links = (t.nodes.lookup k).map links
  rootSlot : t'.rootSlot = t.rootSlot

namespace SameLinks

theorem refl (t : ForkTree) : SameLinks t t := ⟨fun _ => rfl, rfl⟩

theorem trans {t'' : ForkTree} (h : SameLinks t t') (h' : SameLinks t' t'') : SameLinks t t'' :=
  ⟨fun k => (h'.links k).trans (h.links k), h'.rootSlot.trans h.rootSlot⟩

theorem up_eq (h : SameLinks t t') : t'.up = t.up := by
  funext k
  have hparent := congrArg (fun o => o.bind Prod.fst) (h.links k)
  simp only [bind_map] at hparent
  exact up_congr hparent

theorem mem_iff (h : SameLinks t t') : x ∈ t'.nodes ↔ x ∈ t.nodes := by
  have hk := congrArg isSome (h.links x)
  rw [isSome_map, isSome_map] at hk
  rw [← Finmap.lookup_isSome, ← Finmap.lookup_isSome, hk]

end SameLinks

/-- A vote leaves the links alone. -/
theorem sameLinks_addVote (h : t.addVote slot voter stake = .ok (counted, t')) :
    SameLinks t t' := by
  obtain ⟨-, -, rfl⟩ | ⟨-, -, node, nodes, hnode, rfl, hcore⟩ := addVote_eq_ok h
  · exact .refl _
  · refine ⟨fun k => ?_, rfl⟩
    have hk := congrArg (Option.map links) (hcore k)
    rw [Option.map_map, Option.map_map] at hk
    refine hk.trans ?_
    by_cases hks : k = slot
    · subst hks
      rw [lookup_insert, hnode]
      rfl
    · rw [lookup_insert_of_ne _ hks]
      rfl

/-- The walk of `add_vote` ends where the ancestry does, and has added the stake to all slots on it. -/
theorem propagate_ok (stake : UInt64) (w : Walk (ForkNodes.up nodes) x l)
    (hlen : l.length ≤ fuel) :
    ∃ nodes', propagate stake fuel x nodes = .ok nodes' ∧
      ∀ k, nodes'.lookup k = if k ∈ l then (nodes.lookup k).map (addWeight stake)
        else nodes.lookup k := by
  induction fuel generalizing x l nodes with
  | zero =>
    have := length_pos_of_mem w.head_mem
    omega
  | succ fuel ih =>
    -- The nodes after the first step, if there is a node.
    have hfirst : ∀ node, nodes.lookup x = some node → ∀ k,
        (nodes.insert x (node.addWeight stake)).lookup k
          = if k = x then (nodes.lookup k).map (addWeight stake) else nodes.lookup k := by
      intro node hnode k
      split_ifs with hk
      · rw [hk, lookup_insert, hnode, map_some]
      · exact lookup_insert_of_ne _ hk
    have hstop : ∀ node, nodes.lookup x = some node → ForkNodes.up nodes x = none → ∀ k,
        (nodes.insert x (node.addWeight stake)).lookup k
          = if k ∈ l then (nodes.lookup k).map (addWeight stake) else nodes.lookup k := by
      intro node hnode hup k
      rw [w.unique (.stop hup)]
      simp only [mem_singleton]
      exact hfirst node hnode k
    simp only [propagate]
    split
    case h_1 hnone =>
      refine ⟨_, rfl, fun k => ?_⟩
      rw [w.unique (.stop (by simp [ForkNodes.up, hnone]))]
      split_ifs with hk
      · rw [mem_singleton.mp hk, hnone, map_none]
      · rfl
    case h_2 node hnode =>
      split
      case h_1 hparent =>
        exact ⟨_, rfl, hstop node hnode (by simp [ForkNodes.up, hnode, hparent])⟩
      case h_2 parent hparent =>
        split_ifs with hself
        · exact ⟨_, rfl, hstop node hnode (by simp [ForkNodes.up, hnode, hparent, hself])⟩
        · have hup : ForkNodes.up nodes x = some parent := by
            simp [ForkNodes.up, hnode, hparent, hself]
          cases w with
          | stop hnone => exact absurd (hup.symm.trans hnone) (by simp)
          | @step _ y rest h w =>
            cases hup.symm.trans h
            have hnodup := (Walk.step h w).nodup
            have hrest : Walk (ForkNodes.up (nodes.insert x (node.addWeight stake))) parent rest := by
              refine w.congr fun z _ => up_congr ?_
              rw [hfirst node hnode z]
              split_ifs
              · rw [bind_map]
                rfl
              · rfl
            obtain ⟨nodes', hrun, hlookup⟩ := ih hrest (by simpa using hlen)
            refine ⟨nodes', hrun, fun k => ?_⟩
            rw [hlookup k, hfirst node hnode k]
            by_cases hk : k = x
            · subst hk
              simp [(nodup_cons.mp hnodup).1]
            · simp [hk]

/-- The walk of `add_vote` ends only where the ancestry does. -/
theorem walk_of_propagate (h : propagate stake fuel x nodes = .ok nodes') :
    ∃ l, Walk (ForkNodes.up nodes) x l := by
  induction fuel generalizing x nodes with
  | zero => simp [propagate] at h
  | succ fuel ih =>
    simp only [propagate] at h
    split at h
    case h_1 hnone => exact ⟨_, .stop (by simp [ForkNodes.up, hnone])⟩
    case h_2 node hnode =>
      split at h
      case h_1 hparent => exact ⟨_, .stop (by simp [ForkNodes.up, hnode, hparent])⟩
      case h_2 parent hparent =>
        split_ifs at h with hself
        · exact ⟨_, .stop (by simp [ForkNodes.up, hnode, hparent, hself])⟩
        · have hup : ForkNodes.up nodes x = some parent := by
            simp [ForkNodes.up, hnode, hparent, hself]
          obtain ⟨l, w⟩ := ih h
          refine ⟨x :: l, .step hup (w.congr fun z _ => up_congr ?_)⟩
          by_cases hz : z = x
          · subst hz
            rw [lookup_insert, hnode]
            rfl
          · rw [lookup_insert_of_ne _ hz]

variable {node : ForkNode} {start newRoot : UInt64}

theorem up_addVoter (hnode : t.nodes.lookup slot = some node) (z : UInt64) :
    ForkNodes.up (t.nodes.insert slot (node.addVoter voter stake)) z = t.up z := by
  refine up_congr ?_
  by_cases hz : z = slot
  · subst hz
    rw [lookup_insert, hnode]
    rfl
  · rw [lookup_insert_of_ne _ hz]

/-- A vote that would be counted adds its voter to its slot, and its stake to the slot and to all of
its ancestors. -/
theorem addVote_of_walk (stake : UInt64)
    (hcount : t.WouldCount slot voter) (w : Walk t.up slot l) :
    ∃ nodes, t.addVote slot voter stake = .ok (true, { t with
        nodes, validatorToVotedSlot := t.validatorToVotedSlot.insert voter slot }) ∧
      ∀ k, nodes.lookup k = (t.nodes.lookup k).map fun node =>
        (if k ∈ l then addWeight stake else id)
          ((if k = slot then addVoter voter stake else id) node) := by
  obtain ⟨hvoter, node, hnode, hseen⟩ := hcount
  have hvoted : Walk (ForkNodes.up (t.nodes.insert slot (node.addVoter voter stake))) slot l :=
    w.congr fun z _ => up_addVoter hnode z
  have hlen : l.length ≤ t.nodeCount + 1 :=
    w.length_le_card_succ fun y z hup => Finmap.mem_keys.mpr (mem_of_up hup)
  obtain ⟨nodes, hrun, hlookup⟩ := propagate_ok stake hvoted hlen
  refine ⟨nodes, ?_, fun k => ?_⟩
  · unfold addVote
    rw [if_neg hvoter, hnode]
    dsimp only
    rw [if_neg hseen]
    exact exceptBind_eq_ok.mpr ⟨nodes, hrun, rfl⟩
  · rw [hlookup k]
    by_cases hk : k = slot
    · subst hk
      simp only [lookup_insert, hnode, if_true]
      split_ifs <;> rfl
    · simp only [lookup_insert_of_ne _ hk, hk, if_false]
      split_ifs
      · rfl
      · exact map_id'.symm

/-- A vote that would be counted returns only if the ancestry of its slot ends. -/
theorem walk_of_addVote (hcount : t.WouldCount slot voter)
    (h : t.addVote slot voter stake = .ok (counted, t')) : ∃ l, Walk t.up slot l := by
  obtain ⟨hvoter, node, hnode, hseen⟩ := hcount
  rw [addVote, if_neg hvoter, hnode] at h
  dsimp only at h
  rw [if_neg hseen] at h
  obtain ⟨nodes, hrun, -⟩ := exceptBind_eq_ok.mp h
  obtain ⟨l, w⟩ := walk_of_propagate hrun
  exact ⟨l, w.congr fun z _ => (up_addVoter hnode z).symm⟩

theorem addVote_of_not_wouldCount (h : ¬ t.WouldCount slot voter) :
    t.addVote slot voter stake = .ok (false, t) := by
  unfold addVote
  split_ifs with hvoter
  · rfl
  split
  case h_1 => rfl
  case h_2 node hnode =>
    rw [if_pos]
    by_contra hseen
    exact h ⟨hvoter, node, hnode, hseen⟩

theorem heaviestChild_mem {best : UInt64 × ForkNode} (h : t.heaviestChild node = some best) :
    best.1 ∈ node.children ∧ t.nodes.lookup best.1 = some best.2 := by
  have hchosen := foldl_choice (fun acc c => ?_) h
  rotate_left
  · -- A step takes the child, unless the best one so far is heavier.
    cases acc with
    | none => exact .inl rfl
    | some b => exact ite_eq_or_eq _ _ _
  rcases hchosen with hmem | hnone
  · obtain ⟨c, hc, hmap⟩ := mem_filterMap.mp hmem
    obtain ⟨cnode, hcnode, rfl⟩ := map_eq_some_iff.mp hmap
    exact ⟨hc, hcnode⟩
  · simp at hnone

theorem sameLinks_computeBestFork (h : t.computeBestFork = .ok t') : SameLinks t t' := by
  obtain ⟨best, -, h⟩ := exceptBind_eq_ok.mp h
  cases h
  exact ⟨fun _ => rfl, rfl⟩

/-! ### Linked trees -/

/-- The root is there and has no parent, and the lists of children have slots with that parent only,
each once.  A slot may be missing in the list of its parent, and its parent in the tree. -/
structure Linked (t : ForkTree) : Prop where
  root : t.rootSlot ∈ t.nodes ∧ t.up t.rootSlot = none
  listed : ∀ slot, ∀ child ∈ t.childrenOf slot, t.up child = some slot
  nodup : ∀ slot, (t.childrenOf slot).Nodup

/-- The lists of children lead from the start to a slot. -/
def Below (t : ForkTree) (start slot : UInt64) : Prop :=
  Relation.ReflTransGen (fun y z => z ∈ t.childrenOf y) start slot

theorem SameLinks.childrenOf_eq (h : SameLinks t t') (x : UInt64) :
    t'.childrenOf x = t.childrenOf x := by
  have hk := congrArg (fun o => (o.map Prod.snd).getD []) (h.links x)
  simp only [Option.map_map] at hk
  exact hk

theorem SameLinks.linked (h : SameLinks t t') (hlinked : t.Linked) : t'.Linked where
  root := by
    rw [h.rootSlot, h.mem_iff, h.up_eq]
    exact hlinked.root
  listed slot child hchild := by
    rw [h.childrenOf_eq] at hchild
    rw [h.up_eq]
    exact hlinked.listed slot child hchild
  nodup slot := by
    rw [h.childrenOf_eq]
    exact hlinked.nodup slot

theorem Below.mem (hlinked : t.Linked) (hstart : start ∈ t.nodes)
    (h : t.Below start x) : x ∈ t.nodes := by
  induction h with
  | refl => exact hstart
  | tail _ hchild _ => exact mem_of_up (hlinked.listed _ _ hchild)

/-- The ancestry of a slot below the start comes to the start. -/
theorem Below.walk (hlinked : t.Linked) (h : t.Below start x)
    (w : Walk t.up start l) : ∃ l', Walk t.up x l' ∧ start ∈ l' := by
  induction h with
  | refl => exact ⟨l, w, w.head_mem⟩
  | tail _ hchild ih =>
    obtain ⟨l', w', hstart⟩ := ih
    exact ⟨_, .step (hlinked.listed _ _ hchild) w', mem_cons_of_mem _ hstart⟩

/-- A new tree has one node. -/
theorem lookup_new {rootSlot : UInt64}
    (h : (new rootSlot blockHash bankHash).nodes.lookup x = some node) :
    x = rootSlot ∧ node = ⟨rootSlot, none, blockHash, bankHash, [], 0, 0, true, .finalized, ∅⟩ := by
  have hmem : x ∈ (new rootSlot blockHash bankHash).nodes := mem_iff.mpr ⟨node, h⟩
  obtain rfl := (Finmap.mem_singleton _ _ _).mp hmem
  rw [new, Finmap.lookup_singleton_eq] at h
  exact ⟨rfl, (some.inj h).symm⟩

section

variable (rootSlot : UInt64) (blockHash bankHash : Hash)

theorem parentOf_new (x : UInt64) :
    (new rootSlot blockHash bankHash).parentOf x = none := by
  rw [eq_none_iff_forall_ne_some]
  intro y hy
  obtain ⟨node, hnode, hparent⟩ := bind_eq_some_iff.mp hy
  obtain ⟨-, rfl⟩ := lookup_new hnode
  cases hparent

theorem up_new (x : UInt64) :
    (new rootSlot blockHash bankHash).up x = none := by
  rw [eq_none_iff_forall_ne_some]
  intro y hy
  rw [up_eq_some, parentOf_new] at hy
  cases hy.1

theorem linked_new :
    (new rootSlot blockHash bankHash).Linked := by
  have hchildren : ∀ x, (new rootSlot blockHash bankHash).childrenOf x = [] := by
    intro x
    rw [childrenOf]
    cases h : (new rootSlot blockHash bankHash).nodes.lookup x with
    | none => rfl
    | some node =>
      obtain ⟨-, rfl⟩ := lookup_new h
      rfl
  refine ⟨⟨(Finmap.mem_singleton _ _ _).mpr rfl, up_new _ _ _ _⟩, fun slot child hchild => ?_,
    fun slot => ?_⟩
  · simp [hchildren] at hchild
  · simp [hchildren]

end

/-- The node of a slot that joins. -/
def joinedNode (slot parent : UInt64) (blockHash bankHash : Hash) (isConnected : Bool) : ForkNode :=
  ⟨slot, some parent, blockHash, bankHash, [], 0, 0, isConnected, .processed, ∅⟩

/-- What a new slot makes of the nodes. -/
theorem addSlot_lookup (h : t.addSlot slot parent blockHash bankHash = .ok t') :
    slot ∉ t.nodes ∧ t.nodeCount < maxForkTreeNodes ∧ t' = { t with nodes := t'.nodes } ∧
      ∃ isConnected, (parent ∉ t.nodes → isConnected = false) ∧ ∀ x, t'.nodes.lookup x =
        if x = slot then some (joinedNode slot parent blockHash bankHash isConnected)
        else (t.nodes.lookup x).map fun n =>
          if x = parent then { n with children := n.children ++ [slot] } else n := by
  unfold addSlot at h
  split_ifs at h with hslot hfull
  refine ⟨hslot, not_le.mp hfull, ?_⟩
  cases hparent : t.nodes.lookup parent with
  | none =>
    rw [hparent] at h
    cases h
    refine ⟨rfl, false, fun _ => rfl, fun x => ?_⟩
    by_cases hx : x = slot
    · rw [if_pos hx, hx, lookup_insert]
      rfl
    · rw [if_neg hx, lookup_insert_of_ne _ hx]
      by_cases hxp : x = parent
      · rw [hxp, hparent, map_none]
      · simp [hxp]
  | some pnode =>
    rw [hparent] at h
    cases h
    refine ⟨rfl, pnode.isConnected, fun hnot => ?_, fun x => ?_⟩
    · exact absurd (mem_iff.mpr ⟨pnode, hparent⟩) hnot
    · by_cases hx : x = slot
      · rw [if_pos hx, hx, lookup_insert]
        rfl
      · rw [if_neg hx, lookup_insert_of_ne _ hx]
        by_cases hxp : x = parent
        · rw [hxp, lookup_insert, hparent, map_some, if_pos rfl]
        · simp [lookup_insert_of_ne _ hxp, hxp]

/-- In the nodes that were there before, a new slot changes only the children. -/
theorem addSlot_map {α : Type*} {f : ForkNode → α} {new : α}
    (h : t.addSlot slot parent blockHash bankHash = .ok t')
    (hnew : ∀ c, f (joinedNode slot parent blockHash bankHash c) = new)
    (hf : ∀ node children, f { node with children } = f node) (x : UInt64) :
    (t'.nodes.lookup x).map f = if x = slot then some new else (t.nodes.lookup x).map f := by
  obtain ⟨-, -, -, isConnected, -, hlookup⟩ := addSlot_lookup h
  rw [hlookup]
  by_cases hx : x = slot
  · rw [if_pos hx, if_pos hx, Option.map_some, hnew]
  · rw [if_neg hx, if_neg hx, Option.map_map]
    congr 1
    funext n
    rw [Function.comp_apply]
    split_ifs
    · exact hf n _
    · rfl

section

variable (h : t.addSlot slot parent blockHash bankHash = .ok t')

include h

theorem addSlot_parentOf (x : UInt64) :
    t'.parentOf x = if x = slot then some parent else t.parentOf x := by
  have hmap := congrArg (Option.bind · id)
    (addSlot_map (f := parentSlot) h (fun _ => rfl) (fun _ _ => rfl) x)
  simp only [Option.bind_map, Function.id_comp] at hmap
  rw [parentOf, hmap]
  split_ifs
  · rfl
  · rw [Option.bind_map]
    rfl

theorem addSlot_up (x : UInt64) :
    t'.up x = if x = slot then (some parent).filter (· ≠ slot) else t.up x := by
  change (t'.parentOf x).filter (· ≠ x) = _
  rw [addSlot_parentOf h]
  split_ifs with hx
  · rw [hx]
  · rfl

theorem mem_addSlot :
    x ∈ t'.nodes ↔ x = slot ∨ x ∈ t.nodes := by
  obtain ⟨-, -, -, _, -, hlookup⟩ := addSlot_lookup h
  rw [← Finmap.lookup_isSome, hlookup, ← Finmap.lookup_isSome]
  split_ifs with hx <;> simp [hx]

theorem addSlot_childrenOf (x : UInt64) :
    t'.childrenOf x = t.childrenOf x ++ if x = parent ∧ x ∈ t.nodes then [slot] else [] := by
  obtain ⟨hslot, -, -, _, -, hlookup⟩ := addSlot_lookup h
  unfold childrenOf
  rw [hlookup]
  by_cases hx : x = slot
  · subst hx
    simp [hslot, Finmap.lookup_eq_none.mpr hslot, joinedNode]
  · rw [if_neg hx]
    cases hn : t.nodes.lookup x with
    | none => simp [Finmap.lookup_eq_none.mp hn]
    | some n =>
      have hmem : x ∈ t.nodes := mem_iff.mpr ⟨n, hn⟩
      by_cases hxp : x = parent
      · simp [hxp, hxp ▸ hmem]
      · simp [hxp]

end

/-- A slot joins a linked tree, on whatever parent. -/
theorem Linked.addSlot (hlinked : t.Linked)
    (h : t.addSlot slot parent blockHash bankHash = .ok t') : t'.Linked := by
  obtain ⟨hslot, -, ht', -⟩ := addSlot_lookup h
  have hroot : t'.rootSlot = t.rootSlot := by rw [ht']
  have hold : ∀ x ∈ t.nodes, t'.up x = t.up x := by
    intro x hx
    rw [addSlot_up h, if_neg]
    rintro rfl
    exact hslot hx
  refine ⟨?_, fun x child hchild => ?_, fun x => ?_⟩
  · rw [hroot, hold _ hlinked.root.1]
    exact ⟨(mem_addSlot h).mpr (.inr hlinked.root.1), hlinked.root.2⟩
  · rw [addSlot_childrenOf h] at hchild
    rcases mem_append.mp hchild with hchild | hchild
    · have hup := hlinked.listed x child hchild
      rw [hold child (mem_of_up hup), hup]
    · split_ifs at hchild with hx
      · obtain rfl := mem_singleton.mp hchild
        obtain ⟨rfl, hmem⟩ := hx
        have hne : x ≠ child := fun heq => hslot (heq ▸ hmem)
        rw [addSlot_up h, if_pos rfl]
        simp [hne]
      · simp at hchild
  · rw [addSlot_childrenOf h]
    split_ifs
    · refine (hlinked.nodup x).append (nodup_singleton _) ?_
      rw [disjoint_singleton]
      exact fun hchild => hslot (mem_of_up (hlinked.listed x slot hchild))
    · rw [append_nil]
      exact hlinked.nodup x

section Hashes

variable {q : UInt64 → Hash → Prop}

/-- The block hash of every slot of the tree meets a condition. -/
def HashesMeet (q : UInt64 → Hash → Prop) (t : ForkTree) : Prop :=
  t.nodes.ForAll fun slot node => q slot node.blockHash

theorem hashesMeet_iff :
    t.HashesMeet q ↔ ∀ x h, (t.nodes.lookup x).map ForkNode.blockHash = some h → q x h := by
  constructor
  · intro hq x h hx
    obtain ⟨node, hnode, rfl⟩ := map_eq_some_iff.mp hx
    exact hq x node hnode
  · exact fun hq x node hnode => hq x node.blockHash (by rw [hnode, map_some])

theorem HashesMeet.congr (hq : t.HashesMeet q)
    (h : ∀ k, (t'.nodes.lookup k).map ForkNode.blockHash
      = (t.nodes.lookup k).map ForkNode.blockHash) : t'.HashesMeet q := by
  rw [hashesMeet_iff] at hq ⊢
  intro x hash hx
  exact hq x hash (h x ▸ hx)

theorem HashesMeet.addSlot (hq : t.HashesMeet q) (hslot : q slot blockHash)
    (h : t.addSlot slot parent blockHash bankHash = .ok t') : t'.HashesMeet q := by
  rw [hashesMeet_iff] at hq ⊢
  intro x hash hx
  rw [addSlot_map (f := ForkNode.blockHash) h (fun _ => rfl) fun _ _ => rfl] at hx
  split_ifs at hx with heq
  · rw [heq, ← some.inj hx]
    exact hslot
  · exact hq x hash hx

/-- A new root keeps the hashes of the slots it leaves. -/
theorem HashesMeet.setRoot {root : UInt64} (hq : t.HashesMeet q)
    (h : (ForkTree.setRoot root).run t = .ok () t') : t'.HashesMeet q :=
  forAll_setRoot hq (fun _ hnode => hnode) h

end Hashes

/-- A new root leaves the parents alone or takes one away. -/
theorem parentOf_of_setRoot (h : (setRoot newRoot).run t = .ok () t')
    (hparent : t'.parentOf x = some y) : t.parentOf x = some y := by
  have hall : t.nodes.ForAll fun x node => ∀ y, node.parentSlot = some y → t.parentOf x = some y :=
    fun x node hnode y hy => bind_eq_some_iff.mpr ⟨node, hnode, hy⟩
  obtain ⟨node, hnode, hy⟩ := bind_eq_some_iff.mp hparent
  exact forAll_setRoot hall (fun _ _ _ hnone => nomatch hnone) h x node hnode y hy

/-- The way down from a slot ends: the ancestry grows with every step. -/
theorem Linked.findHeaviestFrom_ok (hlinked : t.Linked) (w : Walk t.up x l)
    (hfuel : t.nodeCount + 1 < fuel + l.length) : ∃ best, t.findHeaviestFrom fuel x = .ok best := by
  induction fuel generalizing x l with
  | zero =>
    have hlen : l.length ≤ t.nodeCount + 1 :=
      w.length_le_card_succ fun y z hup => Finmap.mem_keys.mpr (mem_of_up hup)
    omega
  | succ fuel ih =>
    simp only [findHeaviestFrom]
    split
    case h_1 => exact ⟨_, rfl⟩
    case h_2 node hnode =>
      split
      case h_1 => exact ⟨_, rfl⟩
      case h_2 best bnode hbest =>
        have hmem : best ∈ t.childrenOf x := by
          rw [childrenOf, hnode]
          exact (heaviestChild_mem hbest).1
        refine ih (.step (hlinked.listed x best hmem) w) ?_
        simp only [length_cons]
        omega

theorem Linked.computeBestFork_ok (hlinked : t.Linked) : ∃ t', t.computeBestFork = .ok t' := by
  have hfind : ∃ best, t.findHeaviestFrom (t.nodeCount + 1) t.rootSlot = .ok best :=
    hlinked.findHeaviestFrom_ok (.stop hlinked.root.2) (by simp)
  obtain ⟨best, hbest⟩ := hfind
  exact ⟨_, exceptBind_eq_ok.mpr ⟨best, hbest, rfl⟩⟩

/-! ### The slots below a slot -/

/-- The loop of `collect_subtree` from a start: what has been taken from the stack, and what is on
it. -/
structure Gathering (t : ForkTree) (start : UInt64) (stack : List UInt64)
    (taken : Finset UInt64) : Prop where
  nodup : stack.Nodup
  disjoint : ∀ x ∈ stack, x ∉ taken
  started : start ∈ stack ∨ start ∈ taken
  below : ∀ x, x ∈ stack ∨ x ∈ taken → t.Below start x
  parents : ∀ x, x ∈ stack ∨ x ∈ taken → x = start ∨ ∃ y ∈ taken, t.up x = some y
  covered : ∀ y ∈ taken, ∀ x ∈ t.childrenOf y, x ∈ stack ∨ x ∈ taken

section

variable (hlinked : t.Linked) {start : UInt64} {stack : List UInt64} {taken : Finset UInt64}

include hlinked

theorem Gathering.step (hwalk : Walk t.up start l)
    (h : Gathering t start (slot :: stack) taken) :
    Gathering t start ((t.childrenOf slot).reverse ++ stack) (insert slot taken) := by
  have hbelow := h.below slot (.inl mem_cons_self)
  have htaken : slot ∉ taken := h.disjoint slot mem_cons_self
  -- A child has not been seen: it comes on the stack after its parent was taken.
  have hnew : ∀ c ∈ t.childrenOf slot, c ∉ slot :: stack ∧ c ∉ taken := by
    intro c hc
    have hup := hlinked.listed slot c hc
    rw [← not_or]
    intro hseen
    rcases h.parents c hseen with rfl | ⟨y, hy, hup'⟩
    · obtain ⟨l', w', hstart⟩ := hbelow.walk hlinked hwalk
      exact (nodup_cons.mp (Walk.step hup w').nodup).1 hstart
    · cases hup.symm.trans hup'
      exact htaken hy
  have hmem : ∀ x, (x ∈ (t.childrenOf slot).reverse ++ stack ∨ x ∈ insert slot taken) ↔
      x ∈ t.childrenOf slot ∨ (x ∈ slot :: stack ∨ x ∈ taken) := by
    intro x
    simp only [mem_append, mem_reverse, Finset.mem_insert, mem_cons]
    tauto
  refine ⟨?_, ?_, ?_, ?_, ?_, ?_⟩
  · refine (nodup_reverse.mpr (hlinked.nodup slot)).append (nodup_cons.mp h.nodup).2 ?_
    intro c hc hstack
    exact (hnew c (mem_reverse.mp hc)).1 (mem_cons_of_mem _ hstack)
  · intro x hx
    rw [Finset.mem_insert, not_or]
    rcases mem_append.mp hx with hc | hstack
    · obtain ⟨hne, hnot⟩ := hnew x (mem_reverse.mp hc)
      exact ⟨fun heq => hne (heq ▸ mem_cons_self), hnot⟩
    · refine ⟨?_, h.disjoint x (mem_cons_of_mem _ hstack)⟩
      rintro rfl
      exact (nodup_cons.mp h.nodup).1 hstack
  · exact (hmem start).mpr (.inr h.started)
  · intro x hx
    rcases (hmem x).mp hx with hchild | hold
    · exact hbelow.tail hchild
    · exact h.below x hold
  · intro x hx
    rcases (hmem x).mp hx with hchild | hold
    · exact .inr ⟨slot, Finset.mem_insert_self _ _, hlinked.listed slot x hchild⟩
    · refine (h.parents x hold).imp id ?_
      rintro ⟨y, hy, hup⟩
      exact ⟨y, Finset.mem_insert_of_mem hy, hup⟩
  · intro y hy x hchild
    rw [hmem]
    rcases Finset.mem_insert.mp hy with rfl | hy
    · exact .inl hchild
    · exact .inr (h.covered y hy x hchild)

/-- The loop ends, since no slot is taken twice, and it takes all that is below the start. -/
theorem Gathering.run (hstart : start ∈ t.nodes) (hwalk : Walk t.up start l)
    (h : Gathering t start stack taken)
    (hfuel : stack.length + ∑ x ∈ t.nodes.keys \ taken, (t.childrenOf x).length ≤ fuel) :
    ∃ taken', t.collectSubtreeFrom fuel stack taken = .ok taken' ∧
      Gathering t start [] taken' := by
  induction fuel generalizing stack taken with
  | zero =>
    cases stack with
    | nil => exact ⟨taken, by simp [collectSubtreeFrom], h⟩
    | cons slot stack => simp at hfuel
  | succ fuel ih =>
    cases stack with
    | nil => exact ⟨taken, by simp [collectSubtreeFrom], h⟩
    | cons slot stack =>
      refine ih (h.step hlinked hwalk) ?_
      have hkey : slot ∈ t.nodes.keys \ taken := Finset.mem_sdiff.mpr
        ⟨Finmap.mem_keys.mpr ((h.below slot (.inl mem_cons_self)).mem hlinked hstart),
          h.disjoint slot mem_cons_self⟩
      have hsum := Finset.add_sum_erase _ (fun x => (t.childrenOf x).length) hkey
      rw [← Finset.sdiff_insert] at hsum
      simp only [length_cons, length_append, length_reverse] at hfuel ⊢
      omega

end

/-- **`collect_subtree`** returns the slots below the start, if the ancestry of the start ends. -/
theorem Linked.collectSubtree_ok (hlinked : t.Linked) (hstart : start ∈ t.nodes)
    (hwalk : Walk t.up start l) :
    ∃ reachable, t.collectSubtree start = .ok reachable ∧
      ∀ x, x ∈ reachable ↔ t.Below start x := by
  have hinit : Gathering t start [start] ∅ := by
    refine ⟨nodup_singleton _, by simp, .inl mem_cons_self, ?_, ?_, by simp⟩
    · rintro x (hx | hx)
      · obtain rfl := mem_singleton.mp hx
        exact .refl
      · simp at hx
    · rintro x (hx | hx)
      · exact .inl (mem_singleton.mp hx)
      · simp at hx
  have hcount : [start].length + ∑ x ∈ t.nodes.keys \ ∅, (t.childrenOf x).length
      ≤ t.childCount + 1 := by simp [childCount, add_comm]
  obtain ⟨reachable, hrun, hfinal⟩ := hinit.run hlinked hstart hwalk hcount
  refine ⟨reachable, hrun, fun x => ⟨fun hx => hfinal.below x (.inr hx), fun hx => ?_⟩⟩
  induction hx with
  | refl => exact hfinal.started.resolve_left (by simp)
  | tail _ hchild ih => exact (hfinal.covered _ ih _ hchild).resolve_left (by simp)

/-! ### The tree under a new root -/

theorem lookup_eraseAncestry {root : UInt64} (as : List UInt64) (nodes : ForkNodes) (x : UInt64) :
    (as.foldl (fun nodes slot =>
        if slot ≠ newRoot ∧ slot ≠ root then nodes.erase slot else nodes) nodes).lookup x =
      if x ∈ as ∧ x ≠ newRoot ∧ x ≠ root then none else nodes.lookup x := by
  have herased := Finmap.lookup_eraseAll nodes (as.filter fun slot => slot ≠ newRoot ∧ slot ≠ root) x
  simpa only [foldl_filter, mem_filter, decide_eq_true_eq] using herased

section Pruned

variable {newRoot : UInt64} {ancestry : List UInt64} {reachable : Finset UInt64}
  (hlinked : t.Linked) (hroot : newRoot ∈ t.nodes) (hne : t.rootSlot ≠ newRoot)
  (w : Walk t.up newRoot ancestry) (hreach : ∀ x, x ∈ reachable ↔ t.Below newRoot x)
include hlinked w hreach

/-- Of the ancestry, only the new root itself stays. -/
theorem Linked.eq_of_mem_ancestry (hx : x ∈ ancestry) (hxr : x ∈ reachable) : x = newRoot := by
  obtain ⟨l, wx, hl⟩ := ((hreach x).mp hxr).walk hlinked w
  exact (w.antisymm wx hx hl).symm

include hne

omit w in
/-- The old root does not stay: it has no parent. -/
theorem Linked.root_notMem_reachable : t.rootSlot ∉ reachable := by
  intro hmem
  rcases Relation.ReflTransGen.cases_tail ((hreach _).mp hmem) with heq | ⟨y, -, hchild⟩
  · exact hne heq
  · have hup := hlinked.listed y _ hchild
    rw [hlinked.root.2] at hup
    cases hup

include hroot

/-- **The nodes that a new root leaves**: what is below it, with the root cut off from its parent. -/
theorem Linked.lookup_pruned (x : UInt64) :
    (t.pruned newRoot ancestry reachable).nodes.lookup x =
      if x = newRoot then (t.nodes.lookup newRoot).map fun node =>
        { node with parentSlot := none, commitment := .finalized }
      else if x ∈ reachable then t.nodes.lookup x else none := by
  have hkept : newRoot ∈ reachable := (hreach newRoot).mpr .refl
  have hretain : ∀ y, (t.nodes.retain fun slot _ => slot ∈ reachable ∨ slot ∈ ancestry).lookup y
      = if y ∈ reachable ∨ y ∈ ancestry then t.nodes.lookup y else none := by
    intro y
    rw [Finmap.lookup_retain]
    by_cases hy : y ∈ reachable ∨ y ∈ ancestry
    · rw [if_pos hy]
      cases t.nodes.lookup y <;> simp [hy]
    · rw [if_neg hy]
      cases t.nodes.lookup y <;> simp [hy]
  have herased : ∀ y, ((ancestry.foldl (fun nodes slot =>
      if slot ≠ newRoot ∧ slot ≠ t.rootSlot then nodes.erase slot else nodes)
        (t.nodes.retain fun slot _ => slot ∈ reachable ∨ slot ∈ ancestry)).erase t.rootSlot).lookup y
      = if y ∈ reachable then t.nodes.lookup y else none := by
    intro y
    by_cases hyroot : y = t.rootSlot
    · subst hyroot
      rw [Finmap.lookup_erase, if_neg (hlinked.root_notMem_reachable hne hreach)]
    · rw [Finmap.lookup_erase_ne hyroot, lookup_eraseAncestry, hretain]
      by_cases hyl : y ∈ ancestry
      · by_cases hynew : y = newRoot
        · simp [hynew, hkept]
        · rw [if_pos ⟨hyl, hynew, hyroot⟩,
            if_neg fun hr => hynew (hlinked.eq_of_mem_ancestry w hreach hyl hr)]
      · simp [hyl]
  obtain ⟨node, hnode⟩ := mem_iff.mp hroot
  simp only [pruned, if_pos hne]
  have hnew := (herased newRoot).trans (if_pos hkept)
  rw [hnode] at hnew
  rw [hnew]
  by_cases hx : x = newRoot
  · subst hx
    rw [if_pos rfl, hnode, lookup_insert]
    rfl
  · rw [if_neg hx, lookup_insert_of_ne _ hx, herased]

/-- What a new root does not change of the nodes it leaves. -/
theorem Linked.map_pruned {α : Type} {f : ForkNode → α}
    (hf : ∀ node : ForkNode, f { node with parentSlot := none, commitment := .finalized } = f node)
    (x : UInt64) :
    ((t.pruned newRoot ancestry reachable).nodes.lookup x).map f =
      if x ∈ reachable then (t.nodes.lookup x).map f else none := by
  rw [hlinked.lookup_pruned hroot hne w hreach]
  by_cases hx : x = newRoot
  · subst hx
    rw [if_pos rfl, if_pos ((hreach x).mpr .refl), Option.map_map]
    exact congrArg (fun g => (t.nodes.lookup x).map g) (funext hf)
  · rw [if_neg hx]
    split_ifs <;> rfl

theorem Linked.mem_pruned : x ∈ (t.pruned newRoot ancestry reachable).nodes ↔ t.Below newRoot x := by
  rw [← Finmap.lookup_isSome, hlinked.lookup_pruned hroot hne w hreach, ← hreach]
  split_ifs with hx hr
  · subst hx
    simpa [(hreach x).mpr .refl, Finmap.lookup_isSome] using hroot
  · simpa [hr, Finmap.lookup_isSome] using ((hreach x).mp hr).mem hlinked hroot
  · simp [hr]

theorem Linked.up_pruned (hx : t.Below newRoot x) :
    (t.pruned newRoot ancestry reachable).up x = if x = newRoot then none else t.up x := by
  have hlookup := hlinked.lookup_pruned hroot hne w hreach x
  split_ifs with hxr
  · obtain ⟨node, hnode⟩ := mem_iff.mp hroot
    rw [if_pos hxr, hnode] at hlookup
    simp [up, ForkNodes.up, hlookup]
  · rw [if_neg hxr, if_pos ((hreach x).mpr hx)] at hlookup
    exact up_congr (by rw [hlookup])

theorem Linked.childrenOf_pruned (hx : t.Below newRoot x) :
    (t.pruned newRoot ancestry reachable).childrenOf x = t.childrenOf x := by
  unfold childrenOf
  rw [hlinked.lookup_pruned hroot hne w hreach]
  split_ifs with hxr hr
  · subst hxr
    rw [Option.map_map]
    rfl
  · rfl
  · exact absurd ((hreach x).mpr hx) hr

theorem Linked.pruned : (t.pruned newRoot ancestry reachable).Linked := by
  have hmem := fun x => hlinked.mem_pruned hroot hne w hreach (x := x)
  have hbelow : ∀ {x child}, child ∈ (t.pruned newRoot ancestry reachable).childrenOf x →
      t.Below newRoot x ∧ child ∈ t.childrenOf x := by
    intro x child hchild
    have hx : x ∈ (t.pruned newRoot ancestry reachable).nodes := by
      rw [childrenOf] at hchild
      cases hlookup : (t.pruned newRoot ancestry reachable).nodes.lookup x with
      | none => simp [hlookup] at hchild
      | some node => exact mem_iff.mpr ⟨node, hlookup⟩
    have hx := (hmem x).mp hx
    exact ⟨hx, hlinked.childrenOf_pruned hroot hne w hreach hx ▸ hchild⟩
  refine ⟨⟨(hmem _).mpr .refl, ?_⟩, fun x child hchild => ?_, fun x => ?_⟩
  · exact (hlinked.up_pruned hroot hne w hreach .refl).trans (if_pos rfl)
  · obtain ⟨hx, hchild⟩ := hbelow hchild
    have hup := hlinked.listed x child hchild
    rw [hlinked.up_pruned hroot hne w hreach (hx.tail hchild), if_neg, hup]
    -- The new root would be below itself.
    rintro rfl
    obtain ⟨l', w', hl'⟩ := hx.walk hlinked w
    exact (nodup_cons.mp (Walk.step hup w').nodup).1 hl'
  · by_cases hx : t.Below newRoot x
    · rw [hlinked.childrenOf_pruned hroot hne w hreach hx]
      exact hlinked.nodup x
    · have hnone : (t.pruned newRoot ancestry reachable).nodes.lookup x = none :=
        Finmap.lookup_eq_none.mpr fun hmem' => hx ((hmem x).mp hmem')
      simp [childrenOf, hnone]

end Pruned

end ForkTree

end Nusantara

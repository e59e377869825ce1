import Nusantara.Consensus.Ancestry
import Nusantara.Consensus.ForkRuns

/-!
# The stakes of a tree

The stakes at the nodes of the fork tree are kept up one vote at a time, with sums that saturate.
Here they are compared with sums over the voters that have been counted: the stake at a slot is that
of the voters who vote for it, and the stake of its subtree that of the voters who vote for a slot
with it on its ancestry.

This is so when every voter votes for one slot (`slotOf`) with one stake (`stakeOf`).  Then the
stakes are a function of the links of the tree and of the set of voters that are counted, whatever
the order in which they came.

## Main results

* `ForkTree.Tallied.addSlot`, `ForkTree.Tallied.addVote`: the operations keep the sums.
* `ForkTree.Tallied.alike`, `ForkTree.Alike.bestSlot_eq`: trees with the same links and the same
  voters have the same stakes and the same best fork.
* `ForkTree.best_fork_is_greedy`: the best fork is the end of the path of heaviest children.
-/

namespace Nusantara

open Exec List Finmap Word Hash

namespace ForkTree

variable {t t' : ForkTree} {stakeOf slotOf : Hash → UInt64} {slot parent x : UInt64}
  {blockHash bankHash v : Hash} {l : List UInt64}

/-- The voters that have been counted. -/
def counted (t : ForkTree) : Finset Hash := t.validatorToVotedSlot.keys

/-- The stakes of the tree are the sums over the voters that have been counted. -/
structure Tallied (stakeOf slotOf : Hash → UInt64) (t : ForkTree) : Prop where
  wellFormed : t.WellFormed
  voted : ∀ v ∈ t.counted, slotOf v ∈ t.nodes
  votersSeen : ∀ x node, t.nodes.lookup x = some node →
    node.votersSeen = t.counted.filter fun v => slotOf v = x
  stakeVoted : ∀ x node, t.nodes.lookup x = some node →
    node.stakeVoted = saturate (∑ v ∈ t.counted with slotOf v = x, (stakeOf v).toNat)
  subtreeStake : ∀ x node, t.nodes.lookup x = some node →
    node.subtreeStake =
      saturate (∑ v ∈ t.counted with t.OnAncestry x (slotOf v), (stakeOf v).toNat)

theorem tallied_new (rootSlot : UInt64) (blockHash bankHash : Hash) :
    (ForkTree.new rootSlot blockHash bankHash).Tallied stakeOf slotOf := by
  have hcounted : (ForkTree.new rootSlot blockHash bankHash).counted = ∅ := rfl
  refine ⟨wellFormed_new rootSlot blockHash bankHash, ?_, ?_, ?_, ?_⟩
  · rw [hcounted]
    exact fun v hv => absurd hv (Finset.notMem_empty v)
  all_goals
    intro x node hx
    obtain ⟨-, rfl⟩ := lookup_new hx
    rw [hcounted, Finset.filter_empty]
  · rfl
  · rfl

/-- Trees with the same links have the same ancestries. -/
theorem SameLinks.onAncestry_iff (h : SameLinks t t') (y : UInt64) :
    t'.OnAncestry x y ↔ t.OnAncestry x y := by
  unfold OnAncestry
  simp only [getAncestry_eq_ok, h.up_eq]

/-! ### Slots -/

/-- The nodes after a slot has joined: its own has no stake, and the others have the stakes they
had. -/
theorem stakes_addSlot {node : ForkNode} (h : t.addSlot slot parent blockHash bankHash = .ok t')
    (hx : t'.nodes.lookup x = some node) :
    (x = slot ∧ node.votersSeen = ∅ ∧ node.stakeVoted = 0 ∧ node.subtreeStake = 0) ∨
      ∃ old, t.nodes.lookup x = some old ∧ node.votersSeen = old.votersSeen ∧
        node.stakeVoted = old.stakeVoted ∧ node.subtreeStake = old.subtreeStake := by
  have hmap := addSlot_map (f := fun n => (n.votersSeen, n.stakeVoted, n.subtreeStake)) h
    (fun _ => Eq.refl (∅, 0, 0)) (fun _ _ => rfl) x
  rw [hx, Option.map_some] at hmap
  split_ifs at hmap with hxs
  · simp only [Option.some.injEq, Prod.mk.injEq] at hmap
    exact .inl ⟨hxs, hmap⟩
  · obtain ⟨old, hold, heq⟩ := Option.map_eq_some_iff.mp hmap.symm
    simp only [Prod.mk.injEq] at heq
    exact .inr ⟨old, hold, heq.1.symm, heq.2.1.symm, heq.2.2.symm⟩

/-- **A slot joins.**  No voter that is counted votes for it or for a slot above it. -/
theorem Tallied.addSlot (ht : t.Tallied stakeOf slotOf)
    (h : t.addSlot slot parent blockHash bankHash = .ok t') (hparent : parent ∈ t.nodes) :
    t'.Tallied stakeOf slotOf ∧ t'.counted = t.counted := by
  obtain ⟨hslot, -, ht', -⟩ := addSlot_lookup h
  have hcounted : t'.counted = t.counted := by
    rw [ht']
    rfl
  -- The ancestries of the slots that are voted for are as they were.
  have hanc : ∀ y, ∀ v ∈ t.counted, (t'.OnAncestry y (slotOf v) ↔ t.OnAncestry y (slotOf v)) := by
    intro y v hv
    obtain ⟨l, w, -⟩ := ht.wellFormed.walk _ (ht.voted v hv)
    have w' := (walk_addSlot ht.wellFormed h hparent).1 _ l (ht.voted v hv) w
    rw [onAncestry_iff w, onAncestry_iff w']
  have hsame : ∀ y, (t.counted.filter fun v => t'.OnAncestry y (slotOf v))
      = t.counted.filter fun v => t.OnAncestry y (slotOf v) :=
    fun y => Finset.filter_congr (hanc y)
  have hnew : ∀ v ∈ t.counted, slotOf v ≠ slot := fun v hv heq => hslot (heq ▸ ht.voted v hv)
  have hnewAnc : ∀ v ∈ t.counted, ¬ t.OnAncestry slot (slotOf v) := by
    intro v hv hon
    obtain ⟨l, w, -⟩ := ht.wellFormed.walk _ (ht.voted v hv)
    exact hslot (ht.wellFormed.mem_of_walk (ht.voted v hv) w slot ((onAncestry_iff w).mp hon))
  refine ⟨⟨ht.wellFormed.addSlot h hparent, ?_, ?_, ?_, ?_⟩, hcounted⟩
  · rw [hcounted]
    exact fun v hv => (mem_addSlot h).mpr (.inr (ht.voted v hv))
  all_goals
    intro x node hx
    rw [hcounted]
    rcases stakes_addSlot h hx with ⟨rfl, hseen, hvoted, hsubtree⟩
      | ⟨old, hold, hseen, hvoted, hsubtree⟩
  · rw [hseen, Finset.filter_false_of_mem hnew]
  · rw [hseen, ht.votersSeen x old hold]
  · rw [hvoted, Finset.filter_false_of_mem hnew]
    rfl
  · rw [hvoted, ht.stakeVoted x old hold]
  · rw [hsubtree, hsame, Finset.filter_false_of_mem hnewAnc]
    rfl
  · rw [hsubtree, hsame, ht.subtreeStake x old hold]

/-! ### Votes -/

/-- A voter that is counted for a slot of the tree has been counted nowhere before. -/
theorem Tallied.wouldCount_iff (ht : t.Tallied stakeOf slotOf) :
    t.WouldCount (slotOf v) v ↔ slotOf v ∈ t.nodes ∧ v ∉ t.counted := by
  unfold WouldCount counted
  rw [Finmap.mem_keys]
  constructor
  · rintro ⟨hvoter, node, hnode, -⟩
    exact ⟨Finmap.mem_iff.mpr ⟨node, hnode⟩, hvoter⟩
  · rintro ⟨hslot, hvoter⟩
    obtain ⟨node, hnode⟩ := Finmap.mem_iff.mp hslot
    refine ⟨hvoter, node, hnode, fun hseen => ?_⟩
    rw [ht.votersSeen _ node hnode, Finset.mem_filter, counted, Finmap.mem_keys] at hseen
    exact hvoter hseen.1

/-- A sum with one more summand, if it has a property. -/
theorem saturate_sum_insert {s : Finset Hash} {p : Hash → Prop} [DecidablePred p]
    (hv : v ∉ s) :
    saturate (∑ u ∈ insert v s with p u, (stakeOf u).toNat) =
      if p v then saturatingAdd (saturate (∑ u ∈ s with p u, (stakeOf u).toNat)) (stakeOf v)
      else saturate (∑ u ∈ s with p u, (stakeOf u).toNat) := by
  rw [Finset.filter_insert]
  split_ifs with hp
  · rw [Finset.sum_insert fun hmem => hv (Finset.mem_of_mem_filter v hmem), add_comm,
      saturatingAdd_saturate]
  · rfl

/-- **A vote is counted**, if its slot is in the tree. -/
theorem Tallied.addVote {added : Bool} (ht : t.Tallied stakeOf slotOf)
    (h : t.addVote (slotOf v) v (stakeOf v) = .ok (added, t')) :
    t'.Tallied stakeOf slotOf ∧ ∀ u, u ∈ t'.counted ↔ u ∈ t.counted ∨ u = v ∧ slotOf v ∈ t.nodes := by
  have hlinks := sameLinks_addVote h
  by_cases hcount : t.WouldCount (slotOf v) v
  · obtain ⟨hslot, hvoter⟩ := ht.wouldCount_iff.mp hcount
    obtain ⟨l, w, -⟩ := ht.wellFormed.walk _ hslot
    obtain ⟨nodes, hrun, hlookup⟩ := addVote_of_walk (stakeOf v) hcount w
    obtain rfl : _ = t' := (Prod.mk.inj (Except.ok.inj (hrun.symm.trans h))).2
    have hcounted : ({ t with
        nodes, validatorToVotedSlot := t.validatorToVotedSlot.insert v (slotOf v) } :
          ForkTree).counted = insert v t.counted := by
      ext u
      simp [counted, Finmap.mem_keys]
    have hnodes : ∀ x node, nodes.lookup x = some node → ∃ old, t.nodes.lookup x = some old ∧
        node.votersSeen = (if slotOf v = x then insert v old.votersSeen else old.votersSeen) ∧
        node.stakeVoted = (if slotOf v = x then saturatingAdd old.stakeVoted (stakeOf v)
          else old.stakeVoted) ∧
        node.subtreeStake = if x ∈ l then saturatingAdd old.subtreeStake (stakeOf v)
          else old.subtreeStake := by
      intro x node hx
      obtain ⟨old, hold, rfl⟩ := Option.map_eq_some_iff.mp ((hlookup x).symm.trans hx)
      refine ⟨old, hold, ?_⟩
      by_cases hxv : slotOf v = x
      · subst hxv
        simp only [if_true]
        split_ifs <;> exact ⟨rfl, rfl, rfl⟩
      · simp only [hxv, Ne.symm hxv, if_false]
        split_ifs <;> exact ⟨rfl, rfl, rfl⟩
    refine ⟨⟨hlinks.wellFormed ht.wellFormed, ?_, ?_, ?_, ?_⟩, fun u => ?_⟩
    · intro u hu
      rw [hlinks.mem_iff]
      rw [hcounted] at hu
      rcases Finset.mem_insert.mp hu with rfl | hu
      · exact hslot
      · exact ht.voted u hu
    · intro x node hx
      obtain ⟨old, hold, hseen, -, -⟩ := hnodes x node hx
      rw [hcounted, Finset.filter_insert, ← ht.votersSeen x old hold, hseen]
    · intro x node hx
      obtain ⟨old, hold, -, hvoted, -⟩ := hnodes x node hx
      rw [hcounted, saturate_sum_insert hvoter, ← ht.stakeVoted x old hold, hvoted]
    · intro x node hx
      obtain ⟨old, hold, -, -, hsubtree⟩ := hnodes x node hx
      simp only [hcounted, hlinks.onAncestry_iff]
      rw [saturate_sum_insert hvoter, ← ht.subtreeStake x old hold, hsubtree]
      simp only [onAncestry_iff w]
    · rw [hcounted, Finset.mem_insert, or_comm]
      simp [hslot]
  · rw [addVote_of_not_wouldCount hcount] at h
    obtain rfl := (Prod.mk.inj (Except.ok.inj h)).2
    refine ⟨ht, fun u => ⟨.inl, ?_⟩⟩
    rintro (hu | ⟨rfl, hslot⟩)
    · exact hu
    · by_contra hvoter
      exact hcount (ht.wouldCount_iff.mpr ⟨hslot, hvoter⟩)

/-- Between two trees some voters were counted, each for its slot, and nothing else happened. -/
structure Grows (stakeOf slotOf : Hash → UInt64) (voters : Set Hash) (t t' : ForkTree) : Prop where
  tallied : t'.Tallied stakeOf slotOf
  links : SameLinks t t'
  hashes : ∀ k, (t'.nodes.lookup k).map ForkNode.blockHash = (t.nodes.lookup k).map ForkNode.blockHash
  counted : ∀ v, v ∈ t'.counted ↔ v ∈ t.counted ∨ v ∈ voters ∧ slotOf v ∈ t.nodes

theorem Tallied.grows_self {voters : Set Hash} (ht : t.Tallied stakeOf slotOf)
    (hvoters : ∀ v ∈ voters, v ∈ t.counted) : t.Grows stakeOf slotOf voters t :=
  ⟨ht, .refl t, fun _ => rfl, fun v => ⟨.inl, fun h => h.elim id fun h => hvoters v h.1⟩⟩

/-- The choice of a best fork leaves the stakes alone. -/
theorem Tallied.grows_bestSlot (ht : t.Tallied stakeOf slotOf) (best : UInt64) :
    t.Grows stakeOf slotOf ∅ { t with bestSlot := best } := by
  have hlinks : SameLinks t { t with bestSlot := best } := ⟨fun _ => rfl, rfl⟩
  refine ⟨⟨hlinks.wellFormed ht.wellFormed, ht.voted, ht.votersSeen, ht.stakeVoted, ?_⟩, hlinks,
    fun _ => rfl, fun v => ?_⟩
  · intro x node hx
    simp only [hlinks.onAncestry_iff]
    exact ht.subtreeStake x node hx
  · simp only [Set.mem_empty_iff_false, false_and, or_false]
    rfl

theorem Grows.trans {t'' : ForkTree} {voters voters' : Set Hash}
    (h : t.Grows stakeOf slotOf voters t') (h' : t'.Grows stakeOf slotOf voters' t'') :
    t.Grows stakeOf slotOf (voters ∪ voters') t'' := by
  refine ⟨h'.tallied, h.links.trans h'.links, fun k => (h'.hashes k).trans (h.hashes k), fun v => ?_⟩
  rw [h'.counted, h.counted, h.links.mem_iff, Set.mem_union, or_and_right, or_assoc]

theorem Tallied.grows_addVote {added : Bool} (ht : t.Tallied stakeOf slotOf)
    (h : t.addVote (slotOf v) v (stakeOf v) = .ok (added, t')) :
    t.Grows stakeOf slotOf {v} t' := by
  obtain ⟨htallied, hcounted⟩ := ht.addVote h
  refine ⟨htallied, sameLinks_addVote h, addVote_blockHash h, fun u => ?_⟩
  rw [hcounted, Set.mem_singleton_iff]
  refine or_congr_right (and_congr_right ?_)
  rintro rfl
  rfl

/-! ### Trees that agree -/

/-- Two trees have the same slots with the same hashes and parents, and have counted the same
voters. -/
structure Agree (t t' : ForkTree) : Prop where
  rootSlot : t'.rootSlot = t.rootSlot
  up : t'.up = t.up
  hashes : ∀ x, (t'.nodes.lookup x).map ForkNode.blockHash = (t.nodes.lookup x).map ForkNode.blockHash
  counted : t'.counted = t.counted

variable {node node' : ForkNode} {c d : UInt64} {stakeOf' slotOf' : Hash → UInt64}

/-- A sum of sums that saturate saturates as the whole sum does. -/
theorem saturate_sum_saturate (s : Finset UInt64) (f : UInt64 → ℕ) :
    saturate (∑ y ∈ s, (saturate (f y)).toNat) = saturate (∑ y ∈ s, f y) := by
  induction s using Finset.induction_on with
  | empty => rfl
  | insert y s hy ih =>
    rw [Finset.sum_insert hy, Finset.sum_insert hy, add_comm, ← saturatingAdd_saturate, ih,
      ← UInt64.toNat_inj]
    simp only [saturatingAdd, toNat_saturate]
    omega

/-- **The weights follow from the stakes voted for the slots.** -/
theorem Tallied.subtreeStake_eq (ht : t.Tallied stakeOf slotOf)
    (hx : t.nodes.lookup x = some node) : node.subtreeStake =
      saturate (∑ y ∈ t.nodes.keys with t.OnAncestry x y, t.stakeOn y) := by
  have hat : ∀ y ∈ t.nodes.keys.filter fun y => t.OnAncestry x y, t.stakeOn y =
      (saturate (∑ v ∈ t.counted with slotOf v = y, (stakeOf v).toNat)).toNat := by
    intro y hy
    obtain ⟨ynode, hynode⟩ := Finmap.mem_iff.mp (Finmap.mem_keys.mp (Finset.mem_filter.mp hy).1)
    rw [stakeOn, hynode, ← ht.stakeVoted y ynode hynode]
    rfl
  rw [ht.subtreeStake x node hx, Finset.sum_congr rfl hat, saturate_sum_saturate]
  -- The voters below the slot, one slot at a time.
  rw [← Finset.sum_fiberwise_of_maps_to (g := slotOf)
    (t := t.nodes.keys.filter fun y => t.OnAncestry x y)]
  · refine congrArg saturate (Finset.sum_congr rfl fun y hy => Finset.sum_congr ?_ fun _ _ => rfl)
    ext v
    simp only [Finset.mem_filter]
    constructor
    · rintro ⟨⟨hv, -⟩, rfl⟩
      exact ⟨hv, rfl⟩
    · rintro ⟨hv, rfl⟩
      exact ⟨⟨hv, (Finset.mem_filter.mp hy).2⟩, rfl⟩
  · intro v hv
    rw [Finset.mem_filter] at hv ⊢
    exact ⟨Finmap.mem_keys.mpr (ht.voted v hv.1), hv.2⟩

/-! ### The best fork -/

/-- A child that no other is heavier than. -/
def Heaviest (t : ForkTree) (x c : UInt64) : Prop :=
  t.up c = some x ∧ ∃ node, t.nodes.lookup c = some node ∧
    ∀ d dnode, t.up d = some x → t.nodes.lookup d = some dnode → atLeastAsHeavy dnode node = true

/-- Siblings have different hashes. -/
def SiblingsDiffer (t : ForkTree) : Prop :=
  ∀ c d p node node', t.up c = some p → t.up d = some p → t.nodes.lookup c = some node →
    t.nodes.lookup d = some node' → node.blockHash = node'.blockHash → c = d

theorem atLeastAsHeavy_iff : atLeastAsHeavy node node' = true ↔
    node.subtreeStake < node'.subtreeStake ∨
      node.subtreeStake = node'.subtreeStake ∧ node.blockHash ≤ node'.blockHash :=
  decide_eq_true_iff

theorem atLeastAsHeavy_total (node node' : ForkNode) :
    atLeastAsHeavy node node' = true ∨ atLeastAsHeavy node' node = true := by
  rw [atLeastAsHeavy_iff, atLeastAsHeavy_iff]
  rcases lt_trichotomy node.subtreeStake node'.subtreeStake with hlt | heq | hgt
  · exact .inl (.inl hlt)
  · rcases le_total node.blockHash node'.blockHash with hle | hge
    · exact .inl (.inr ⟨heq, hle⟩)
    · exact .inr (.inr ⟨heq.symm, hge⟩)
  · exact .inr (.inl hgt)

theorem atLeastAsHeavy_trans {a b c : ForkNode} (hab : atLeastAsHeavy a b = true)
    (hbc : atLeastAsHeavy b c = true) : atLeastAsHeavy a c = true := by
  rw [atLeastAsHeavy_iff] at hab hbc ⊢
  rcases hab with hab | ⟨hab, hhash⟩ <;> rcases hbc with hbc | ⟨hbc, hhash'⟩
  · exact .inl (hab.trans hbc)
  · exact .inl (hbc ▸ hab)
  · exact .inl (hab ▸ hbc)
  · exact .inr ⟨hab.trans hbc, hhash.trans hhash'⟩

section

variable (hwf : t.WellFormed) (hnode : t.nodes.lookup x = some node)

include hwf hnode

/-- The children that the choice looks at. -/
theorem WellFormed.mem_candidates {q : UInt64 × ForkNode} :
    q ∈ (node.children.filterMap fun c => (t.nodes.lookup c).map fun n => (c, n)) ↔
      t.up q.1 = some x ∧ t.nodes.lookup q.1 = some q.2 := by
  simp only [mem_filterMap, hwf.children x node hnode, Option.map_eq_some_iff]
  constructor
  · rintro ⟨c, hc, cnode, hcnode, rfl⟩
    exact ⟨hc, hcnode⟩
  · rintro ⟨hc, hcnode⟩
    exact ⟨q.1, hc, q.2, hcnode, rfl⟩

theorem WellFormed.heaviest_of_some
    {best : UInt64 × ForkNode} (h : t.heaviestChild node = some best) : t.Heaviest x best.1 := by
  obtain ⟨hmem, hbest⟩ := heaviestChild_mem h
  refine ⟨(hwf.children x node hnode best.1).mp hmem, best.2, hbest, fun d dnode hd hdnode => ?_⟩
  have hlargest := foldl_largest (r := fun a b : UInt64 × ForkNode => atLeastAsHeavy a.2 b.2)
    (fun _ => rfl) (fun _ _ => rfl) (fun a b => atLeastAsHeavy_total a.2 b.2)
    (fun _ _ _ => atLeastAsHeavy_trans) h
  exact hlargest.1 (d, dnode) ((hwf.mem_candidates hnode).mpr ⟨hd, hdnode⟩)

theorem WellFormed.no_child_of_none (h : t.heaviestChild node = none) : t.up c ≠ some x := by
  intro hc
  have hempty := foldl_eq_none (fun acc q => ?_) h
  rotate_left
  · cases acc with
    | none => rfl
    | some b =>
      dsimp only
      split_ifs <;> rfl
  obtain ⟨cnode, hcnode⟩ := mem_iff.mp (mem_of_up hc)
  have hmem := (hwf.mem_candidates hnode (q := (c, cnode))).mpr ⟨hc, hcnode⟩
  rw [hempty] at hmem
  exact absurd hmem not_mem_nil

end

theorem SiblingsDiffer.heaviest_unique (h : t.SiblingsDiffer) (hc : t.Heaviest x c)
    (hd : t.Heaviest x d) : c = d := by
  obtain ⟨hcup, cnode, hcnode, hcmax⟩ := hc
  obtain ⟨hdup, dnode, hdnode, hdmax⟩ := hd
  have hcd := atLeastAsHeavy_iff.mp (hdmax c cnode hcup hcnode)
  have hdc := atLeastAsHeavy_iff.mp (hcmax d dnode hdup hdnode)
  refine h c d x cnode dnode hcup hdup hcnode hdnode ?_
  rcases hcd with hlt | ⟨heq, hle⟩
  · rcases hdc with hgt | ⟨heq, -⟩
    · exact absurd hlt hgt.not_gt
    · exact absurd heq hlt.ne'
  · rcases hdc with hgt | ⟨-, hge⟩
    · exact absurd heq hgt.ne'
    · exact le_antisymm hle hge

/-- The heaviest children lead from a slot to one that has no children. -/
def LeadsTo (t : ForkTree) (x best : UInt64) : Prop :=
  Relation.ReflTransGen t.Heaviest x best ∧ ∀ c, t.up c ≠ some best

/-- The descent follows the heaviest children. -/
theorem WellFormed.leadsTo (hwf : t.WellFormed) {fuel : ℕ} (hx : x ∈ t.nodes)
    (h : t.findHeaviestFrom fuel x = .ok c) : t.LeadsTo x c := by
  induction fuel generalizing x with
  | zero => cases h
  | succ fuel ih =>
    obtain ⟨node, hnode⟩ := mem_iff.mp hx
    rw [findHeaviestFrom, hnode] at h
    cases hbest : t.heaviestChild node with
    | none =>
      simp only [hbest] at h
      cases h
      exact ⟨.refl, fun d => hwf.no_child_of_none hnode hbest⟩
    | some best =>
      simp only [hbest] at h
      have hheaviest := hwf.heaviest_of_some hnode hbest
      obtain ⟨hpath, hleaf⟩ := ih (mem_of_up hheaviest.1) h
      exact ⟨.head hheaviest hpath, hleaf⟩

theorem WellFormed.computeBestFork_leadsTo (hwf : t.WellFormed) :
    ∃ t₁, t.computeBestFork = .ok t₁ ∧ t.LeadsTo t.rootSlot t₁.bestSlot := by
  obtain ⟨t₁, ht₁⟩ := hwf.linked.computeBestFork_ok
  obtain ⟨best, hbest, heq⟩ := exceptBind_eq_ok.mp ht₁
  cases heq
  exact ⟨_, ht₁, hwf.leadsTo hwf.root.1 hbest⟩

/-- There is one such path, if siblings have different hashes. -/
theorem LeadsTo.unique (hdiffer : t.SiblingsDiffer) (h : t.LeadsTo x c) (h' : t.LeadsTo x d) :
    c = d := by
  obtain ⟨hpath, hleaf⟩ := h
  obtain ⟨hpath', hleaf'⟩ := h'
  induction hpath using Relation.ReflTransGen.head_induction_on with
  | refl =>
    rcases hpath'.cases_head with heq | ⟨y, hy, -⟩
    · exact heq
    · exact absurd hy.1 (hleaf y)
  | head hz _ ih =>
    rcases hpath'.cases_head with rfl | ⟨y, hy, hyd⟩
    · exact absurd hz.1 (hleaf' _)
    · exact ih (hdiffer.heaviest_unique hy hz ▸ hyd)

/-- Two trees have the same slots with the same parents, hashes and stakes voted for them. -/
structure Alike (t t' : ForkTree) : Prop where
  rootSlot : t'.rootSlot = t.rootSlot
  up : t'.up = t.up
  votes : ∀ x, (t'.nodes.lookup x).map (fun node => (node.stakeVoted, node.blockHash))
    = (t.nodes.lookup x).map fun node => (node.stakeVoted, node.blockHash)

theorem Alike.symm (h : Alike t t') : Alike t' t :=
  ⟨h.rootSlot.symm, h.up.symm, fun x => (h.votes x).symm⟩

/-- The parent of a slot, the stake voted for it and its hash. -/
def linkAndVotes (t : ForkTree) (x : UInt64) : Option UInt64 × Option (UInt64 × Hash) :=
  (t.up x, (t.nodes.lookup x).map fun node => (node.stakeVoted, node.blockHash))

theorem Alike.of_keys (hroot : t'.rootSlot = t.rootSlot) (hkeys : t'.nodes.keys = t.nodes.keys)
    (hnodes : t.nodes.keys.ascending.map t'.linkAndVotes
      = t.nodes.keys.ascending.map t.linkAndVotes) : Alike t t' := by
  have hnone {t : ForkTree} {x : UInt64} (hx : x ∉ t.nodes.keys) : t.linkAndVotes x = (none, none) := by
    rw [Finmap.mem_keys] at hx
    rw [linkAndVotes, lookup_eq_none.mpr hx,
      Option.eq_none_iff_forall_not_mem.mpr fun _ h => hx (mem_of_up h)]
    rfl
  have hall : ∀ x, t'.linkAndVotes x = t.linkAndVotes x := by
    intro x
    by_cases hx : x ∈ t.nodes.keys
    · exact map_inj_left.mp hnodes x (Finset.mem_ascending.mpr hx)
    · rw [hnone hx, hnone (hkeys ▸ hx)]
  exact ⟨hroot, funext fun x => congrArg Prod.fst (hall x), fun x => congrArg Prod.snd (hall x)⟩

/-- Trees that agree are alike. -/
theorem Tallied.alike (ht : t.Tallied stakeOf slotOf) (ht' : t'.Tallied stakeOf slotOf)
    (h : Agree t t') : Alike t t' := by
  refine ⟨h.rootSlot, h.up, fun x => ?_⟩
  have hhash := h.hashes x
  cases hx : t'.nodes.lookup x with
  | none =>
    rw [hx, Option.map_none, eq_comm, Option.map_eq_none_iff] at hhash
    rw [hhash]
  | some node' =>
    rw [hx, Option.map_some] at hhash
    obtain ⟨node, hnode, heq⟩ := Option.map_eq_some_iff.mp hhash.symm
    rw [hnode, Option.map_some, Option.map_some, heq, ht.stakeVoted x node hnode,
      ht'.stakeVoted x node' hx, h.counted]

/-- The voters and the stakes that a tree has counted may be others than in a tree like it; the sums
for each slot are the same, and so are the weights. -/
theorem Alike.lookup (h : Alike t t') (ht : t.Tallied stakeOf slotOf)
    (ht' : t'.Tallied stakeOf' slotOf') (hx : t'.nodes.lookup x = some node') :
    ∃ node, t.nodes.lookup x = some node ∧ node.subtreeStake = node'.subtreeStake ∧
      (node.stakeVoted, node.blockHash) = (node'.stakeVoted, node'.blockHash) := by
  have hvotes := h.votes x
  rw [hx] at hvotes
  obtain ⟨node, hnode, heq⟩ := Option.map_eq_some_iff.mp hvotes.symm
  refine ⟨node, hnode, ?_, heq⟩
  have hkeys : t'.nodes.keys = t.nodes.keys := by
    ext y
    have hy := congrArg Option.isSome (h.votes y)
    rw [Option.isSome_map, Option.isSome_map] at hy
    rw [Finmap.mem_keys, Finmap.mem_keys, ← lookup_isSome, hy, lookup_isSome]
  have hstake : t'.stakeOn = t.stakeOn := by
    funext y
    have hy := congrArg (Option.map fun votes => votes.1.toNat) (h.votes y)
    rw [Option.map_map, Option.map_map] at hy
    exact congrArg (Option.getD · 0) hy
  have hanc : ∀ y, t'.OnAncestry x y ↔ t.OnAncestry x y := by
    intro y
    unfold OnAncestry
    simp only [getAncestry_eq_ok, h.up]
  rw [ht.subtreeStake_eq hnode, ht'.subtreeStake_eq hx, hkeys, hstake]
  simp only [hanc]

section

variable (ht : t.Tallied stakeOf slotOf) (ht' : t'.Tallied stakeOf' slotOf')
include ht ht'

theorem Alike.heaviest (h : Alike t t') (hc : t'.Heaviest x c) : t.Heaviest x c := by
  obtain ⟨hup, node', hnode', hmax⟩ := hc
  obtain ⟨node, hnode, hstake, hvotes⟩ := h.lookup ht ht' hnode'
  refine ⟨h.up ▸ hup, node, hnode, fun d dnode hd hdnode => ?_⟩
  obtain ⟨dnode', hdnode', hdstake, hdvotes⟩ := h.symm.lookup ht' ht hdnode
  have hheavy := atLeastAsHeavy_iff.mp (hmax d dnode' (h.up ▸ hd) hdnode')
  rwa [atLeastAsHeavy_iff, hstake, (Prod.mk.inj hvotes).2, ← hdstake, ← (Prod.mk.inj hdvotes).2]

theorem Alike.bestSlot_eq (h : Alike t t') (hdiffer : t.SiblingsDiffer) :
    ∃ t₁ t₁', t.computeBestFork = .ok t₁ ∧ t'.computeBestFork = .ok t₁' ∧
      t₁'.bestSlot = t₁.bestSlot := by
  obtain ⟨t₁, ht₁, hbest⟩ := ht.wellFormed.computeBestFork_leadsTo
  obtain ⟨t₁', ht₁', hpath, hleaf⟩ := ht'.wellFormed.computeBestFork_leadsTo
  rw [h.rootSlot] at hpath
  rw [h.up] at hleaf
  have hpath := Relation.ReflTransGen.mono (fun _ _ => h.heaviest ht ht') _ _ hpath
  exact ⟨t₁, t₁', ht₁, ht₁', LeadsTo.unique hdiffer ⟨hpath, hleaf⟩ hbest⟩

end

/-! ### Slots and votes in any order -/

/-- The call adds a slot to a lower one that is in the tree, or counts a vote. -/
def Connects (t : ForkTree) : ForkCall → Prop
  | .addSlot slot parentSlot _ _ => parentSlot ∈ t.nodes ∧ parentSlot < slot
  | .addVote .. => True
  | _ => False

instance (t : ForkTree) : DecidablePred t.Connects
  | .addSlot .. => inferInstanceAs (Decidable (_ ∧ _))
  | .addVote .. => .isTrue trivial
  | .tryReconnectOrphans _ | .setRoot _ | .computeBestFork => .isFalse id

/-- The block hashes are distinct. -/
def HashesDiffer (t : ForkTree) : Prop :=
  (t.nodes.keys.ascending.map fun c => (t.nodes.lookup c).map ForkNode.blockHash).Nodup

instance (t : ForkTree) : Decidable t.HashesDiffer := inferInstanceAs (Decidable (Nodup _))

theorem HashesDiffer.siblings (h : t.HashesDiffer) : t.SiblingsDiffer := by
  intro c d p node node' hc hd hnode hnode' heq
  have hmem : ∀ {x}, t.up x = some p → x ∈ t.nodes.keys.ascending := fun hx =>
    Finset.mem_ascending.mpr (Finmap.mem_keys.mpr (mem_of_up hx))
  refine inj_on_of_nodup_map h (hmem hc) (hmem hd) ?_
  simp [hnode, hnode', heq]

/-- The sums name a voter that has not been counted as one likes. -/
theorem Tallied.update (ht : t.Tallied stakeOf slotOf) (hv : v ∉ t.counted) (stake slot : UInt64) :
    t.Tallied (Function.update stakeOf v stake) (Function.update slotOf v slot) := by
  have hne : ∀ u ∈ t.counted, u ≠ v := fun u hu heq => hv (heq ▸ hu)
  have hslot : ∀ (p : UInt64 → Prop) [DecidablePred p],
      (t.counted.filter fun u => p (Function.update slotOf v slot u)) =
        t.counted.filter fun u => p (slotOf u) := by
    intro p _
    refine Finset.filter_congr fun u hu => ?_
    rw [Function.update_of_ne (hne u hu)]
  have hsum : ∀ p : Hash → Prop, ∀ [DecidablePred p],
      ∑ u ∈ t.counted with p u, (Function.update stakeOf v stake u).toNat =
        ∑ u ∈ t.counted with p u, (stakeOf u).toNat := by
    intro p _
    refine Finset.sum_congr rfl fun u hu => ?_
    rw [Function.update_of_ne (hne u (Finset.mem_filter.mp hu).1)]
  refine ⟨ht.wellFormed, fun u hu => ?_, fun x node hx => ?_, fun x node hx => ?_,
    fun x node hx => ?_⟩
  · rw [Function.update_of_ne (hne u hu)]
    exact ht.voted u hu
  · rw [hslot (· = x), ht.votersSeen x node hx]
  · rw [hsum, hslot (· = x), ht.stakeVoted x node hx]
  · rw [hsum, hslot (t.OnAncestry x), ht.subtreeStake x node hx]

theorem Tallied.connects {call : ForkCall} (ht : t.Tallied stakeOf slotOf) (hcall : t.Connects call)
    (h : t.call call = some t') : ∃ stakeOf' slotOf', t'.Tallied stakeOf' slotOf' := by
  cases call with
  | addSlot =>
    rcases call_addSlot.mp h with hok | ⟨-, rfl⟩
    · exact ⟨_, _, (ht.addSlot hok hcall.1).1⟩
    · exact ⟨_, _, ht⟩
  | addVote slot voter stake =>
    obtain ⟨added, hok⟩ := call_addVote.mp h
    by_cases hcount : t.WouldCount slot voter
    · have hnew := ht.update (fun hmem => hcount.1 (Finmap.mem_keys.mp hmem)) stake slot
      rw [← Function.update_self voter slot slotOf,
        ← Function.update_self voter stake stakeOf] at hok
      exact ⟨_, _, (hnew.addVote hok).1⟩
    · rw [addVote_of_not_wouldCount hcount] at hok
      exact ⟨_, _, (Prod.mk.inj (Except.ok.inj hok)).2 ▸ ht⟩
  | _ => exact hcall.elim

/-- The slots and votes were added one by one, each slot to a lower one in the tree. -/
def Grown (rootSlot : UInt64) (blockHash bankHash : Hash) (t : ForkTree) : Prop :=
  ∃ calls, Trace.Steps (fun t call t' => t.Connects call ∧ t.call call = some t')
    (new rootSlot blockHash bankHash) calls t

/-- The call, if it adds a slot to a lower one that is in the tree, or counts a vote. -/
def connect (t : ForkTree) (call : ForkCall) : Option ForkTree :=
  if t.Connects call then t.call call else none

theorem Grown.of_foldlM {rootSlot : UInt64} {calls : List ForkCall}
    (h : calls.foldlM connect (new rootSlot blockHash bankHash) = some t) :
    Grown rootSlot blockHash bankHash t :=
  ⟨calls, (Trace.Steps.of_foldlM h).mono fun _ _ _ hstep => Option.ite_none_right_eq_some.mp hstep⟩

theorem Grown.tallied {rootSlot : UInt64} (h : Grown rootSlot blockHash bankHash t) :
    ∃ stakeOf slotOf, t.Tallied stakeOf slotOf := by
  obtain ⟨calls, hrun⟩ := h
  refine hrun.invariant (I := fun t => ∃ stakeOf slotOf, Tallied stakeOf slotOf t)
    (G := fun _ => True) ?_ ⟨0, 0, tallied_new ..⟩ fun _ _ => trivial
  rintro t call t' ⟨stakeOf, slotOf, ht⟩ - hstep
  exact ht.connects hstep.1 hstep.2

/-- **The best fork is the greedy one**, in whichever order slots and votes have come. -/
theorem best_fork_is_greedy {rootSlot : UInt64} (h : Grown rootSlot blockHash bankHash t)
    (hdiffer : t.HashesDiffer) :
    ∃ t₁, t.computeBestFork = .ok t₁ ∧ t.LeadsTo t.rootSlot t₁.bestSlot ∧
      ∀ t', Grown rootSlot blockHash bankHash t' → Alike t t' →
        ∃ t₁', t'.computeBestFork = .ok t₁' ∧ t₁'.bestSlot = t₁.bestSlot := by
  obtain ⟨stakeOf, slotOf, ht⟩ := h.tallied
  obtain ⟨t₁, ht₁, hbest⟩ := ht.wellFormed.computeBestFork_leadsTo
  refine ⟨t₁, ht₁, hbest, fun t' h' halike => ?_⟩
  obtain ⟨stakeOf', slotOf', ht'⟩ := h'.tallied
  obtain ⟨t₂, t₁', ht₂, ht₁', heq⟩ := halike.bestSlot_eq ht ht' hdiffer.siblings
  cases ht₁.symm.trans ht₂
  exact ⟨t₁', ht₁', heq⟩

/-- Two forks with a vote for each, and the same slots and votes in another order. -/
theorem heavier_of_two_forks : ∃ t t' t₁ t₁', Grown 0 zero zero t ∧ t.HashesDiffer ∧
    t.computeBestFork = .ok t₁ ∧ t₁.bestSlot = 1 ∧ t.LeadsTo t.rootSlot t₁.bestSlot ∧
    Grown 0 zero zero t' ∧ Alike t t' ∧ t' ≠ t ∧
    t'.computeBestFork = .ok t₁' ∧ t₁'.bestSlot = t₁.bestSlot := by
  obtain ⟨t, ht, hdiffer, t', ht', hroot, hkeys, hnodes, hne, t₁, ht₁, hone⟩ :
      ∃ t, foldlM connect (new 0 zero zero) [.addSlot 1 0 (repeated 1) zero,
        .addSlot 2 0 (repeated 2) zero, .addVote 1 zero 5, .addVote 2 (repeated 3) 4] = some t ∧
      t.HashesDiffer ∧
      ∃ t', foldlM connect (new 0 zero zero) [.addSlot 2 0 (repeated 2) zero,
        .addVote 2 (repeated 3) 4, .addSlot 1 0 (repeated 1) zero, .addVote 1 zero 5] = some t' ∧
      t'.rootSlot = t.rootSlot ∧ t'.nodes.keys = t.nodes.keys ∧
      t.nodes.keys.ascending.map t'.linkAndVotes = t.nodes.keys.ascending.map t.linkAndVotes ∧
      (t'.nodes.lookup 0).map ForkNode.children ≠ (t.nodes.lookup 0).map ForkNode.children ∧
      ∃ t₁, t.computeBestFork = .ok t₁ ∧ t₁.bestSlot = 1 := by decide +kernel
  have hgrown := Grown.of_foldlM ht
  obtain ⟨t₂, ht₂, hbest, hsame⟩ := best_fork_is_greedy hgrown hdiffer
  cases ht₁.symm.trans ht₂
  have halike := Alike.of_keys hroot hkeys hnodes
  obtain ⟨t₁', ht₁', heq⟩ := hsame t' (Grown.of_foldlM ht') halike
  exact ⟨t, t', t₁, t₁', hgrown, hdiffer, ht₁, hone, hbest, Grown.of_foldlM ht', halike,
    fun h => hne (h ▸ rfl), ht₁', heq⟩

end ForkTree

end Nusantara

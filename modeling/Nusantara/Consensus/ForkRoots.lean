import Nusantara.Consensus.ForkRuns

/-!
# The subtree of a new root

A new root keeps what the lists of children lead to from it, and returns the slots it removed
(`consensus/src/fork_choice.rs`).  A descendant that is missing in the list of its parent, since it
came before the parent and was not reconnected, is removed with the rest.

The best slot is not among what a new root changes.  `advance_root` does not compute it again, so it
may be left at a slot that has been removed.

## Main results

* `ForkTree.Linked.mem_prunedSlots`, `.nodup_prunedSlots`: the list that `set_root` returns.
* `keepsSubtree_iff`: when a new root keeps exactly its subtree and the best slot in it.
-/

namespace Nusantara

open Exec List Finmap

namespace ForkTree

/-! ### The slots that are removed -/

section Code

variable (t : ForkTree)

/-- One turn of the loop of `set_root` over the ancestry: the nodes, and the slots removed so far. -/
def dropAncestor (newRoot : UInt64) (s : ForkNodes × List UInt64) (slot : UInt64) :
    ForkNodes × List UInt64 :=
  if slot ≠ newRoot ∧ slot ≠ t.rootSlot then
    (s.1.erase slot, if slot ∈ s.1 then s.2 ++ [slot] else s.2)
  else s

/-- The slots that a new root removes, in the order in which they are removed. -/
def prunedSlots (o : IterOrder UInt64) (newRoot : UInt64) (ancestry : List UInt64)
    (reachable : Finset UInt64) : List UInt64 :=
  let dropped := ((t.nodes.listed o).filter fun q => ¬ (q.1 ∈ reachable ∨ q.1 ∈ ancestry)).map Prod.fst
  let kept := t.nodes.retain fun slot _ => slot ∈ reachable ∨ slot ∈ ancestry
  let (nodes, dropped) := ancestry.foldl (t.dropAncestor newRoot) (kept, dropped)
  if t.rootSlot ≠ newRoot ∧ t.rootSlot ∈ nodes then dropped ++ [t.rootSlot] else dropped

/-- `ForkTree::set_root` with the list that it returns. -/
def setRootListed (o : IterOrder UInt64) (newRoot : UInt64) :
    Exec Fault ForkTree ConsensusError (List UInt64) := do
  let t ← get
  require (newRoot ∈ t.nodes) (.invalidRoot newRoot)
  if newRoot ≤ t.rootSlot then return []
  else
    let ancestry ← ofFault (t.getAncestry newRoot)
    let reachable ← ofFault (t.collectSubtree newRoot)
    set (t.pruned newRoot ancestry reachable)
    return t.prunedSlots o newRoot ancestry reachable

end Code

variable {t t' : ForkTree} {x y newRoot : UInt64} {ancestry : List UInt64}
  {reachable : Finset UInt64} {o : IterOrder UInt64}

theorem setRootListed_of_lt (hmem : newRoot ∈ t.nodes) (hlt : t.rootSlot < newRoot)
    (hanc : t.getAncestry newRoot = .ok ancestry) (hcollect : t.collectSubtree newRoot = .ok reachable) :
    (setRootListed o newRoot).run t
      = .ok (t.prunedSlots o newRoot ancestry reachable) (t.pruned newRoot ancestry reachable) := by
  simp only [setRootListed, run_bind, run_get, run_require, if_pos hmem, if_neg (not_le.mpr hlt), hanc,
    hcollect]
  rfl

theorem foldl_dropAncestor (hnodup : ancestry.Nodup) (nodes : ForkNodes) (dropped : List UInt64) :
    ancestry.foldl (t.dropAncestor newRoot) (nodes, dropped) =
      (ancestry.foldl (fun nodes slot =>
        if slot ≠ newRoot ∧ slot ≠ t.rootSlot then nodes.erase slot else nodes) nodes,
      dropped ++ ancestry.filter fun slot =>
        (slot ≠ newRoot ∧ slot ≠ t.rootSlot) ∧ slot ∈ nodes) := by
  induction ancestry generalizing nodes dropped with
  | nil => simp
  | cons a as ih =>
    obtain ⟨ha, has⟩ := nodup_cons.mp hnodup
    rw [foldl_cons, foldl_cons, dropAncestor]
    by_cases hcond : a ≠ newRoot ∧ a ≠ t.rootSlot
    · -- What is removed here is not met again.
      have hfilter : (as.filter fun slot =>
            (slot ≠ newRoot ∧ slot ≠ t.rootSlot) ∧ slot ∈ nodes.erase a)
          = as.filter fun slot => (slot ≠ newRoot ∧ slot ≠ t.rootSlot) ∧ slot ∈ nodes := by
        refine filter_congr fun slot hslot => ?_
        have hne : slot ≠ a := fun heq => ha (heq ▸ hslot)
        simp [mem_erase, hne]
      rw [if_pos hcond, if_pos hcond, ih has, hfilter]
      by_cases hmem : a ∈ nodes
      · rw [if_pos hmem, filter_cons_of_pos (by simpa using ⟨hcond, hmem⟩), append_assoc,
          singleton_append]
      · rw [if_neg hmem, filter_cons_of_neg (by simp [hmem])]
    · rw [if_neg hcond, if_neg hcond, ih has, filter_cons_of_neg (by simp [hcond])]

section Pruned

variable (hlinked : t.Linked) (hne : t.rootSlot ≠ newRoot) (w : Walk t.up newRoot ancestry)
  (hreach : ∀ x, x ∈ reachable ↔ t.Below newRoot x)
include hlinked hne w hreach

/-- The removed slots in three parts: off the ancestry, on it, and the old root if it is on it. -/
theorem Linked.prunedSlots_eq :
    t.prunedSlots o newRoot ancestry reachable =
      ((t.nodes.listed o).filter fun q => ¬ (q.1 ∈ reachable ∨ q.1 ∈ ancestry)).map Prod.fst ++
        (ancestry.filter fun slot => (slot ≠ newRoot ∧ slot ≠ t.rootSlot) ∧ slot ∈ t.nodes) ++
        if t.rootSlot ∈ ancestry then [t.rootSlot] else [] := by
  have hkept : ∀ x ∈ ancestry,
      (x ∈ t.nodes.retain fun slot _ => slot ∈ reachable ∨ slot ∈ ancestry) ↔ x ∈ t.nodes := by
    intro x hx
    rw [← lookup_isSome, lookup_retain, ← lookup_isSome]
    cases t.nodes.lookup x <;> simp [hx]
  have hrootKept : t.rootSlot ∈ ancestry.foldl (fun nodes slot =>
        if slot ≠ newRoot ∧ slot ≠ t.rootSlot then nodes.erase slot else nodes)
          (t.nodes.retain fun slot _ => slot ∈ reachable ∨ slot ∈ ancestry) ↔
      t.rootSlot ∈ ancestry := by
    have hnot := hlinked.root_notMem_reachable hne hreach
    obtain ⟨node, hnode⟩ := mem_iff.mp hlinked.root.1
    rw [← lookup_isSome, lookup_eraseAncestry, if_neg (by simp), lookup_retain, hnode]
    simp [hnot]
  have hfilter : (ancestry.filter fun slot => (slot ≠ newRoot ∧ slot ≠ t.rootSlot) ∧
        slot ∈ t.nodes.retain fun slot _ => slot ∈ reachable ∨ slot ∈ ancestry)
      = ancestry.filter fun slot => (slot ≠ newRoot ∧ slot ≠ t.rootSlot) ∧ slot ∈ t.nodes := by
    refine filter_congr fun slot hslot => ?_
    rw [decide_eq_decide, hkept slot hslot]
  simp only [prunedSlots, foldl_dropAncestor w.nodup, hfilter]
  by_cases hmem : t.rootSlot ∈ ancestry
  · rw [if_pos ⟨hne, hrootKept.mpr hmem⟩, if_pos hmem]
  · rw [if_neg fun h => hmem (hrootKept.mp h.2), if_neg hmem, append_nil]

theorem Linked.mem_prunedSlots : x ∈ t.prunedSlots o newRoot ancestry reachable ↔
    x ∈ t.nodes ∧ ¬ t.Below newRoot x := by
  have hold := hlinked.root_notMem_reachable hne hreach
  have hfirst : x ∈ ((t.nodes.listed o).filter fun q =>
      ¬ (q.1 ∈ reachable ∨ q.1 ∈ ancestry)).map Prod.fst ↔
      x ∈ t.nodes ∧ x ∉ reachable ∧ x ∉ ancestry := by
    rw [mem_map]
    constructor
    · rintro ⟨q, hq, rfl⟩
      obtain ⟨hq, hnot⟩ := mem_filter.mp hq
      exact ⟨mem_iff.mpr ⟨_, mem_listed.mp hq⟩, by simpa using hnot⟩
    · rintro ⟨hx, hnot⟩
      obtain ⟨node, hnode⟩ := mem_iff.mp hx
      exact ⟨(x, node), mem_filter.mpr ⟨mem_listed.mpr hnode, by simpa using hnot⟩, rfl⟩
  rw [hlinked.prunedSlots_eq hne w hreach, mem_append, mem_append, hfirst,
    mem_filter, decide_eq_true_iff, ← hreach]
  constructor
  · rintro ((⟨hx, hnot, -⟩ | ⟨hanc, ⟨hxr, -⟩, hx⟩) | hx)
    · exact ⟨hx, hnot⟩
    · exact ⟨hx, fun hr => hxr (hlinked.eq_of_mem_ancestry w hreach hanc hr)⟩
    · split_ifs at hx
      · obtain rfl := mem_singleton.mp hx
        exact ⟨hlinked.root.1, hold⟩
      · simp at hx
  · rintro ⟨hx, hnot⟩
    by_cases hanc : x ∈ ancestry
    · by_cases hxroot : x = t.rootSlot
      · refine .inr ?_
        rw [if_pos (hxroot ▸ hanc)]
        exact mem_singleton.mpr hxroot
      · refine .inl (.inr ⟨hanc, ⟨?_, hxroot⟩, hx⟩)
        rintro rfl
        exact hnot ((hreach x).mpr .refl)
    · exact .inl (.inl ⟨hx, hnot, hanc⟩)

theorem Linked.nodup_prunedSlots : (t.prunedSlots o newRoot ancestry reachable).Nodup := by
  rw [hlinked.prunedSlots_eq hne w hreach]
  have hfirst : (((t.nodes.listed o).filter fun q =>
      ¬ (q.1 ∈ reachable ∨ q.1 ∈ ancestry)).map Prod.fst).Nodup :=
    nodup_listed.sublist (filter_sublist.map _)
  have hoff : ∀ x ∈ ((t.nodes.listed o).filter fun q =>
      ¬ (q.1 ∈ reachable ∨ q.1 ∈ ancestry)).map Prod.fst, x ∉ ancestry := by
    intro x hx
    obtain ⟨q, hq, rfl⟩ := mem_map.mp hx
    have hnot := (mem_filter.mp hq).2
    rw [decide_eq_true_iff, not_or] at hnot
    exact hnot.2
  refine (hfirst.append (w.nodup.filter _) fun x hx hanc => ?_).append ?_ fun x hx hroot => ?_
  · exact hoff x hx (mem_of_mem_filter hanc)
  · split_ifs <;> simp
  · split_ifs at hroot with hmem
    · obtain rfl := mem_singleton.mp hroot
      rcases mem_append.mp hx with hx | hx
      · exact hoff _ hx hmem
      · simp at hx
    · simp at hroot

end Pruned

/-! ### Descendants -/

/-- The slot is the ancestor, or its parents lead to it. -/
def DescendsFrom (t : ForkTree) (ancestor slot : UInt64) : Prop :=
  Relation.ReflTransGen (fun a b => t.parentOf a = some b) slot ancestor

/-- Every slot that descends from the ancestor is in the list of its parent. -/
def ListsDescendants (t : ForkTree) (ancestor : UInt64) : Prop :=
  ∀ slot parent, slot ≠ ancestor → t.parentOf slot = some parent → t.DescendsFrom ancestor parent →
    slot ∈ t.childrenOf parent

theorem Below.descendsFrom (hlinked : t.Linked) (h : t.Below newRoot x) : t.DescendsFrom newRoot x := by
  induction h with
  | refl => exact .refl
  | tail _ hchild ih => exact .head (up_eq_some.mp (hlinked.listed _ _ hchild)).1 ih

/-- **All descendants are below a slot** exactly if they are in the lists of their parents. -/
theorem Linked.below_iff_descendsFrom (hlinked : t.Linked) :
    (∀ x, t.Below newRoot x ↔ t.DescendsFrom newRoot x) ↔ t.ListsDescendants newRoot := by
  constructor
  · intro h slot parent hne hparent hdesc
    have hbelow : t.Below newRoot slot := (h slot).mpr (.head hparent hdesc)
    rcases Relation.ReflTransGen.cases_tail hbelow with heq | ⟨y, -, hchild⟩
    · exact absurd heq hne
    · have hy := (up_eq_some.mp (hlinked.listed y slot hchild)).1
      cases hparent.symm.trans hy
      exact hchild
  · refine fun h x => ⟨Below.descendsFrom hlinked, fun hdesc => ?_⟩
    induction hdesc using Relation.ReflTransGen.head_induction_on with
    | refl => exact .refl
    | @head a b hab hb ih =>
      by_cases hne : a = newRoot
      · exact hne ▸ .refl
      · exact ih.tail (h a b hne hab hb)

/-- What a new root should make of a tree: its subtree stays, the list has the rest, and nothing that
stays leads to what was removed. -/
structure KeepsSubtree (t : ForkTree) (newRoot : UInt64) (removed : List UInt64) (t' : ForkTree) :
    Prop where
  nodes : ∀ x, x ∈ t'.nodes ↔ t.DescendsFrom newRoot x
  nodup : removed.Nodup
  listed : ∀ x, x ∈ removed ↔ x ∈ t.nodes ∧ x ∉ t'.nodes
  kept : ∀ x ∈ t'.nodes, x ∈ t.nodes
  children : ∀ x, ∀ child ∈ t'.childrenOf x, child ∉ removed
  bestSlot : t'.bestSlot ∈ t'.nodes

/-- Parents with smaller numbers are on no cycle. -/
theorem acyclic_of_descending (h : ∀ x y, t.parentOf x = some y → y < x) : t.Acyclic := by
  intro x hcycle
  have hlt : ∀ y, Relation.TransGen (fun a b => t.parentOf a = some b) x y → y < x := by
    intro y hy
    induction hy with
    | single hxy => exact h x _ hxy
    | tail _ hyz ih => exact lt_trans (h _ _ hyz) ih
  exact lt_irrefl x (hlt x hcycle)

end ForkTree

open ForkTree in
/-- **When a new root keeps its subtree.**  In a tree whose parents have smaller numbers a new root
above the old one keeps exactly its subtree, with the best slot in it, exactly if all descendants of
the new root are in the lists of their parents and the best slot is one of them or the new root. -/
theorem keepsSubtree_iff {rootSlot : UInt64} {blockHash bankHash : Hash} {calls : List ForkCall}
    {t : ForkTree} {newRoot : UInt64}
    (hrun : Trace.Steps (fun t c t' => t.call c = some t') (ForkTree.new rootSlot blockHash bankHash)
      calls t)
    (hparents : ∀ x y, t.parentOf x = some y → y < x) (hmem : newRoot ∈ t.nodes)
    (hlt : t.rootSlot < newRoot) (o : IterOrder UInt64) :
    ∃ removed t', (setRootListed o newRoot).run t = .ok removed t' ∧
      (t.KeepsSubtree newRoot removed t' ↔
        t.ListsDescendants newRoot ∧ t.DescendsFrom newRoot t.bestSlot) := by
  have hb := built_of_steps hrun
  have hlinked := hb.linked
  obtain ⟨ancestry, hanc⟩ :=
    (hb.walksEnd_iff_acyclic.mpr (acyclic_of_descending hparents)).getAncestry newRoot
  have w := getAncestry_eq_ok.mp hanc
  obtain ⟨reachable, hcollect, hreach⟩ := hlinked.collectSubtree_ok hmem w
  refine ⟨_, _, setRootListed_of_lt hmem hlt hanc hcollect, ?_⟩
  have hkept := fun x => hlinked.mem_pruned hmem hlt.ne w hreach (x := x)
  have hremoved := fun x => hlinked.mem_prunedSlots hlt.ne w hreach (x := x) (o := o)
  have hbest : (t.pruned newRoot ancestry reachable).bestSlot = t.bestSlot := rfl
  constructor
  · intro h
    have hall : ∀ x, t.Below newRoot x ↔ t.DescendsFrom newRoot x :=
      fun x => (hkept x).symm.trans (h.nodes x)
    exact ⟨hlinked.below_iff_descendsFrom.mp hall, (h.nodes _).mp h.bestSlot⟩
  · rintro ⟨hlists, hdesc⟩
    have hall := hlinked.below_iff_descendsFrom.mpr hlists
    refine ⟨fun x => (hkept x).trans (hall x), hlinked.nodup_prunedSlots hlt.ne w hreach,
      fun x => ?_, fun x hx => ?_, fun x child hchild hrem => ?_, ?_⟩
    · rw [hremoved, hkept]
    · exact ((hkept x).mp hx).mem hlinked hmem
    · have hup := (hlinked.pruned hmem hlt.ne w hreach).listed x child hchild
      exact ((hremoved child).mp hrem).2 ((hkept child).mp (mem_of_up hup))
    · rw [hbest, hkept]
      exact (hall _).mpr hdesc

namespace ForkTree.Sample

/-- The nodes in ascending order. -/
def inOrder : IterOrder UInt64 := ⟨id, fun l => .refl l⟩

theorem descending_of_all {t : ForkTree}
    (h : t.nodes.keys.ascending.all (fun x => (t.parentOf x).all (· < x)) = true) {x y : UInt64}
    (hxy : t.parentOf x = some y) : y < x := by
  have hx := Finset.mem_ascending.mpr (mem_keys.mpr (mem_of_parentOf hxy))
  have hall := all_eq_true.mp h x hx
  rw [hxy, Option.all_some] at hall
  exact of_decide_eq_true hall

end ForkTree.Sample

open ForkTree ForkTree.Sample in
/-- Slot 1 is added on the root 0 and becomes the root: the best slot is still slot 0, which is
removed. -/
theorem best_slot_is_removed :
    ∃ t removed t', Trace.Steps (fun t c t' => t.call c = some t')
        (ForkTree.new 0 Hash.zero Hash.zero) [.addSlot 1 0 Hash.zero Hash.zero] t ∧
      (∀ x y, t.parentOf x = some y → y < x) ∧ 1 ∈ t.nodes ∧ t.rootSlot < 1 ∧
      (setRootListed inOrder 1).run t = .ok removed t' ∧
      t'.bestSlot ∉ t'.nodes ∧ ¬ t.KeepsSubtree 1 removed t' := by
  obtain ⟨t, ht, hparents, hmem, hlt, removed, t', hset, hbest⟩ :
      ∃ t, foldlM ForkTree.call (ForkTree.new 0 Hash.zero Hash.zero) [.addSlot 1 0 Hash.zero
          Hash.zero] = some t ∧
      t.nodes.keys.ascending.all (fun x => (t.parentOf x).all (· < x)) ∧ 1 ∈ t.nodes ∧
      t.rootSlot < 1 ∧ ∃ r t', (setRootListed inOrder 1).run t = .ok r t' ∧ t'.bestSlot ∉ t'.nodes
          := by
    decide +kernel
  exact ⟨t, removed, t', Trace.Steps.of_foldlM ht, fun x y => descending_of_all hparents, hmem, hlt,
    hset, hbest, fun h => hbest h.bestSlot⟩

open ForkTree ForkTree.Sample in
/-- With the best slot computed before it, slot 1 keeps itself and removes slot 0. -/
theorem subtree_of_slot_one :
    ∃ t, Trace.Steps (fun t c t' => t.call c = some t') (ForkTree.new 0 Hash.zero Hash.zero)
        [.addSlot 1 0 Hash.zero Hash.zero, .computeBestFork] t ∧
      ∃ removed t', (setRootListed inOrder 1).run t = .ok removed t' ∧
        (t.KeepsSubtree 1 removed t' ↔ t.ListsDescendants 1 ∧ t.DescendsFrom 1 t.bestSlot) := by
  obtain ⟨t, ht, hparents, hmem, hlt⟩ :
      ∃ t, foldlM ForkTree.call (ForkTree.new 0 Hash.zero Hash.zero) [.addSlot 1 0 Hash.zero
          Hash.zero, .computeBestFork] = some t ∧
      t.nodes.keys.ascending.all (fun x => (t.parentOf x).all (· < x)) ∧ 1 ∈ t.nodes ∧
      t.rootSlot < 1 := by decide +kernel
  have hsteps := Trace.Steps.of_foldlM ht
  exact ⟨t, hsteps, keepsSubtree_iff hsteps (fun x y => descending_of_all hparents) hmem hlt inOrder⟩

end Nusantara

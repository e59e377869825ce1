import Nusantara.Consensus.ForkLinks

/-!
# Ancestry in the fork tree

The ancestry of a slot is the walk along the parents.  In a well-formed tree every node has one, it
ends at the root, and the lists of children say the same as the parents do.  The trees of a
validator are well formed as long as every slot joins on a parent that is there: no walk is endless
then, whatever the numbers of the slots.

## Main results

* `ForkTree.WellFormed.addSlot`, `.addVote_ok`, `.setRoot_ok`: the operations keep a tree well
  formed, and end.
* `ForkTree.walk_addSlot`: the ancestries after a slot has joined.
-/

namespace Nusantara

open Exec List Finmap

namespace ForkTree

variable {t t' : ForkTree} {slot parent x y : UInt64} {l l' : List UInt64}
  {blockHash bankHash voter : Hash} {stake : UInt64}

/-! ### Well-formed trees -/

/-- The root is there and has no parent, every node has a walk to it, and the children of a node are
the slots whose parent it is. -/
structure WellFormed (t : ForkTree) : Prop where
  root : t.rootSlot ∈ t.nodes ∧ t.up t.rootSlot = none
  walk : ∀ slot, slot ∈ t.nodes → ∃ l, Walk t.up slot l ∧ t.rootSlot ∈ l
  closed : ∀ x y, t.up x = some y → y ∈ t.nodes
  children : ∀ slot node, t.nodes.lookup slot = some node →
    ∀ child, child ∈ node.children ↔ t.up child = some slot
  nodup : ∀ slot node, t.nodes.lookup slot = some node → node.children.Nodup

theorem WellFormed.mem_of_walk (h : t.WellFormed) (hx : x ∈ t.nodes) (w : Walk t.up x l) :
    ∀ y ∈ l, y ∈ t.nodes := by
  induction w with
  | stop => exact fun y hy => mem_singleton.mp hy ▸ hx
  | step hup w ih =>
    intro y hy
    rcases mem_cons.mp hy with rfl | hy
    · exact hx
    · exact ih (h.closed _ _ hup) y hy

theorem WellFormed.linked (h : t.WellFormed) : t.Linked := by
  refine ⟨h.root, fun x child hchild => ?_, fun x => ?_⟩
  · unfold childrenOf at hchild
    cases hx : t.nodes.lookup x with
    | none => simp [hx] at hchild
    | some node =>
      rw [hx] at hchild
      exact (h.children x node hx child).mp hchild
  · unfold childrenOf
    cases hx : t.nodes.lookup x with
    | none => exact nodup_nil
    | some node => exact h.nodup x node hx

theorem WellFormed.mem_childrenOf (hwf : t.WellFormed) (hx : x ∈ t.nodes) :
    y ∈ t.childrenOf x ↔ t.up y = some x := by
  obtain ⟨node, hnode⟩ := mem_iff.mp hx
  rw [childrenOf, hnode]
  exact hwf.children x node hnode y

/-- The slots below a slot are those whose ancestry comes to it. -/
theorem WellFormed.below_iff (hwf : t.WellFormed) {start : UInt64} (hstart : start ∈ t.nodes) :
    t.Below start x ↔ x ∈ t.nodes ∧ ∃ l, Walk t.up x l ∧ start ∈ l := by
  constructor
  · intro h
    obtain ⟨l, w, -⟩ := hwf.walk start hstart
    exact ⟨h.mem hwf.linked hstart, h.walk hwf.linked w⟩
  · rintro ⟨-, l, w, hl⟩
    induction w with
    | stop =>
      obtain rfl := mem_singleton.mp hl
      exact .refl
    | step hup w ih =>
      rcases mem_cons.mp hl with rfl | hl
      · exact .refl
      · exact (ih hl).tail ((hwf.mem_childrenOf (hwf.closed _ _ hup)).mpr hup)

/-- A linked tree is well-formed if the walks end at the root and parents list their children. -/
theorem Linked.wellFormed (hlinked : t.Linked)
    (hwalk : ∀ slot, slot ∈ t.nodes → ∃ l, Walk t.up slot l ∧ t.rootSlot ∈ l)
    (hlisted : ∀ x y, t.up x = some y → x ∈ t.childrenOf y) : t.WellFormed := by
  have hchildren : ∀ {slot node}, t.nodes.lookup slot = some node →
      t.childrenOf slot = node.children := by
    intro slot node hnode
    rw [childrenOf, hnode]
    rfl
  refine ⟨hlinked.root, hwalk, fun x y hxy => ?_, fun slot node hnode child => ?_,
    fun slot node hnode => hchildren hnode ▸ hlinked.nodup slot⟩
  · by_contra hy
    have hchild := hlisted x y hxy
    rw [childrenOf, lookup_eq_none.mpr hy] at hchild
    cases hchild
  · rw [← hchildren hnode]
    exact ⟨hlinked.listed slot child, hlisted child slot⟩

/-- A tree that is only a root. -/
theorem wellFormed_new (rootSlot : UInt64) (blockHash bankHash : Hash) :
    (ForkTree.new rootSlot blockHash bankHash).WellFormed := by
  refine (linked_new rootSlot blockHash bankHash).wellFormed (fun x hx => ?_) fun x y hxy => ?_
  · obtain ⟨node, hnode⟩ := mem_iff.mp hx
    obtain ⟨rfl, -⟩ := lookup_new hnode
    exact ⟨[x], .stop (up_new _ _ _ x), mem_singleton_self x⟩
  · simp [up_new] at hxy

theorem SameLinks.wellFormed (h : SameLinks t t') (hwf : t.WellFormed) : t'.WellFormed := by
  refine (h.linked hwf.linked).wellFormed (fun slot hslot => ?_) fun x y hxy => ?_
  · rw [h.rootSlot, h.up_eq]
    exact hwf.walk slot (h.mem_iff.mp hslot)
  · rw [h.up_eq] at hxy
    rw [h.childrenOf_eq]
    exact (hwf.mem_childrenOf (hwf.closed x y hxy)).mpr hxy

/-! ### Slots -/

theorem up_addSlot (h : t.addSlot slot parent blockHash bankHash = .ok t')
    (hparent : parent ∈ t.nodes) :
    t'.up slot = some parent ∧ ∀ x, x ≠ slot → t'.up x = t.up x := by
  obtain ⟨hslot, -⟩ := addSlot_lookup h
  have hne : parent ≠ slot := fun heq => hslot (heq ▸ hparent)
  refine ⟨?_, fun x hx => by rw [addSlot_up h, if_neg hx]⟩
  rw [addSlot_up h, if_pos rfl]
  simp [hne]

section

variable (hwf : t.WellFormed) (h : t.addSlot slot parent blockHash bankHash = .ok t')
  (hparent : parent ∈ t.nodes)

include hwf h hparent

/-- The ancestries after a slot has joined: the new one starts with the slot, and the others are as
they were. -/
theorem walk_addSlot :
    (∀ x l, x ∈ t.nodes → Walk t.up x l → Walk t'.up x l) ∧
      ∀ l, Walk t.up parent l → Walk t'.up slot (slot :: l) := by
  obtain ⟨hslot, -⟩ := addSlot_lookup h
  obtain ⟨hup, hother⟩ := up_addSlot h hparent
  have hold : ∀ x l, x ∈ t.nodes → Walk t.up x l → Walk t'.up x l := by
    intro x l hx w
    refine w.congr fun y hy => hother y ?_
    rintro rfl
    exact hslot (hwf.mem_of_walk hx w y hy)
  exact ⟨hold, fun l w => .step hup (hold parent l hparent w)⟩

/-- A slot that joins on a parent in the tree. -/
theorem WellFormed.addSlot :
    t'.WellFormed := by
  obtain ⟨-, -, ht', -⟩ := addSlot_lookup h
  obtain ⟨hup, hother⟩ := up_addSlot h hparent
  obtain ⟨hold, hnew⟩ := walk_addSlot hwf h hparent
  have hroot : t'.rootSlot = t.rootSlot := by rw [ht']
  refine (hwf.linked.addSlot h).wellFormed (fun x hx => ?_) fun x y hxy => ?_
  · rw [hroot]
    rcases (mem_addSlot h).mp hx with rfl | hx
    · obtain ⟨l, w, hl⟩ := hwf.walk parent hparent
      exact ⟨_, hnew l w, mem_cons_of_mem _ hl⟩
    · obtain ⟨l, w, hl⟩ := hwf.walk x hx
      exact ⟨l, hold x l hx w, hl⟩
  · rw [addSlot_childrenOf h]
    by_cases hxs : x = slot
    · subst hxs
      cases hup.symm.trans hxy
      simp [hparent]
    · rw [hother x hxs] at hxy
      exact mem_append_left _ ((hwf.mem_childrenOf (hwf.closed x y hxy)).mpr hxy)

end

/-! ### Votes and the best fork -/

section

variable (hwf : t.WellFormed)

include hwf

/-- In a well-formed tree the count of a vote ends. -/
theorem WellFormed.addVote_ok (slot : UInt64) (voter : Hash)
    (stake : UInt64) : ∃ r, t.addVote slot voter stake = .ok r := by
  by_cases hcount : t.WouldCount slot voter
  · obtain ⟨-, node, hnode, -⟩ := id hcount
    obtain ⟨l, w, -⟩ := hwf.walk slot (mem_iff.mpr ⟨node, hnode⟩)
    obtain ⟨nodes, hrun, -⟩ := addVote_of_walk stake hcount w
    exact ⟨_, hrun⟩
  · exact ⟨_, addVote_of_not_wouldCount hcount⟩

/-! ### Roots -/

/-- **`collect_subtree`** returns the slots whose ancestry comes to the start. -/
theorem WellFormed.collectSubtree_ok {start : UInt64}
    (hstart : start ∈ t.nodes) :
    ∃ reachable, t.collectSubtree start = .ok reachable ∧
      ∀ x, x ∈ reachable ↔ x ∈ t.nodes ∧ ∃ l, Walk t.up x l ∧ start ∈ l := by
  obtain ⟨l, w, -⟩ := hwf.walk start hstart
  obtain ⟨reachable, hrun, hreach⟩ := hwf.linked.collectSubtree_ok hstart w
  exact ⟨reachable, hrun, fun x => (hreach x).trans (hwf.below_iff hstart)⟩

/-- The tree under a new root, and the ancestries in it: they end at the new root. -/
theorem WellFormed.pruned {newRoot : UInt64} {ancestry : List UInt64}
    {reachable : Finset UInt64} (hroot : newRoot ∈ t.nodes) (hne : t.rootSlot ≠ newRoot)
    (w : Walk t.up newRoot ancestry)
    (hreach : ∀ x, x ∈ reachable ↔ x ∈ t.nodes ∧ ∃ l, Walk t.up x l ∧ newRoot ∈ l) :
    (t.pruned newRoot ancestry reachable).WellFormed ∧
      (∀ x, x ∈ (t.pruned newRoot ancestry reachable).nodes ↔ x ∈ reachable) ∧
      ∀ x l, x ∈ reachable → Walk t.up x l →
        Walk (t.pruned newRoot ancestry reachable).up x (l.takeWhile (· ≠ newRoot) ++ [newRoot]) := by
  have hreach' : ∀ x, x ∈ reachable ↔ t.Below newRoot x :=
    fun x => (hreach x).trans (hwf.below_iff hroot).symm
  have hmem := fun x => hwf.linked.mem_pruned hroot hne w hreach' (x := x)
  have hup := fun x (hx : t.Below newRoot x) => hwf.linked.up_pruned hroot hne w hreach' hx
  have hwalk : ∀ x l, x ∈ reachable → Walk t.up x l →
      Walk (t.pruned newRoot ancestry reachable).up x (l.takeWhile (· ≠ newRoot) ++ [newRoot]) := by
    intro x l hr wl
    obtain ⟨hx, l', wl', hl'⟩ := (hreach x).mp hr
    obtain rfl := wl'.unique wl
    refine wl.cut hl' ((hup _ .refl).trans (if_pos rfl)) fun y hy => ?_
    obtain ⟨ly, wy, hnew⟩ := wl.of_mem_takeWhile hl' hy
    have hyl : y ∈ l' := ( takeWhile_prefix _).subset hy
    have hy' := (hwf.below_iff hroot).mpr ⟨hwf.mem_of_walk hx wl y hyl, ly, wy, hnew⟩
    have hbefore := mem_takeWhile_imp hy
    exact (hup y hy').trans (if_neg (of_decide_eq_true hbefore))
  refine ⟨(hwf.linked.pruned hroot hne w hreach').wellFormed (fun x hx => ?_) fun x y hxy => ?_,
    fun x => (hmem x).trans (hreach' x).symm, hwalk⟩
  · have hr := (hreach' x).mpr ((hmem x).mp hx)
    obtain ⟨-, l, wl, -⟩ := (hreach x).mp hr
    exact ⟨_, hwalk x l hr wl, mem_append_right _ mem_cons_self⟩
  · -- The slots between `x` and the new root are below it, its parent among them.
    have hx := (hmem x).mp (mem_of_up hxy)
    rw [hup x hx] at hxy
    split_ifs at hxy with hxr
    obtain heq | ⟨z, hz, hchild⟩ := Relation.ReflTransGen.cases_tail hx
    · exact absurd heq hxr
    · cases hxy.symm.trans (hwf.linked.listed z x hchild)
      rwa [hwf.linked.childrenOf_pruned hroot hne w hreach' hz]

/-- **A new root.**  In a well-formed tree `set_root` succeeds for a slot of the tree.  It moves a
root upwards only; then the slots that stay are those whose ancestry comes to the new root, and
their ancestries end there. -/
theorem WellFormed.setRoot_ok {newRoot : UInt64} (hroot : newRoot ∈ t.nodes) :
    ∃ t', (setRoot newRoot).run t = .ok () t' ∧ t'.WellFormed ∧
      ((newRoot ≤ t.rootSlot ∧ t' = t) ∨ t.rootSlot < newRoot ∧ t'.rootSlot = newRoot ∧
        (∀ x, x ∈ t'.nodes ↔ x ∈ t.nodes ∧ ∃ l, Walk t.up x l ∧ newRoot ∈ l) ∧
        ∀ x l, x ∈ t'.nodes → Walk t.up x l →
          Walk t'.up x (l.takeWhile (· ≠ newRoot) ++ [newRoot])) := by
  by_cases hle : newRoot ≤ t.rootSlot
  · exact ⟨t, by simp [setRoot, run_bind, run_require, hroot, hle], hwf, .inl ⟨hle, rfl⟩⟩
  · have hlt : t.rootSlot < newRoot := not_le.mp hle
    obtain ⟨ancestry, w, -⟩ := hwf.walk newRoot hroot
    obtain ⟨reachable, hcollect, hreach⟩ := hwf.collectSubtree_ok hroot
    obtain ⟨hwf', hmem, hwalk⟩ := hwf.pruned hroot hlt.ne w hreach
    refine ⟨t.pruned newRoot ancestry reachable, ?_, hwf', .inr ⟨hlt, rfl, ?_, ?_⟩⟩
    · simp only [setRoot, run_bind, run_get, run_require, hroot, if_true, hle, if_false,
        getAncestry_eq_ok.mpr w, hcollect]
      rfl
    · exact fun x => (hmem x).trans (hreach x)
    · exact fun x l hx => hwalk x l ((hmem x).mp hx)

end

end ForkTree

end Nusantara

import Mathlib.Data.Fintype.EquivFin
import Nusantara.Consensus.ForkLinks
import Nusantara.Lib.Trace

/-!
# The fork tree over a run of calls

The tree is called with slots, votes and roots in any order, and with slots that come before their
parents (`consensus/src/fork_choice.rs`).  Such orphans are entered in the lists of their parents by
`try_reconnect_orphans`, from the connected slots on.

Nothing compares the number of a slot with that of its parent, and a slot may name a parent that is
not there yet.  When the parent comes, it may name the slot as its own parent in turn: then the walks
along the parents never end.

## Main results

* `ForkTree.Built.call`: what holds of every tree that calls have made.
* `ForkTree.Built.walksEnd_iff_acyclic`: the walks end exactly if the parents have no cycle.
* `walksEnd_iff`: the runs after whose calls all walks end.
-/

namespace Nusantara

open Exec List Finmap Option ForkTree ForkNode

/-- A node without what `try_reconnect_orphans` changes. -/
def ForkNode.fixed (node : ForkNode) : ForkNode := { node with children := [], isConnected := false }

/-- A node that has been connected. -/
def ForkNode.connect (node : ForkNode) : ForkNode := { node with isConnected := true }

/-- A node with a slot in its list of children. -/
def ForkNode.addChild (child : UInt64) (node : ForkNode) : ForkNode :=
  if child ∈ node.children then node else { node with children := node.children ++ [child] }

namespace ForkTree

/-! ### Orphans -/

section Code

variable (t : ForkTree)

/-- The map `orphan_children` of `try_reconnect_orphans`: the slots that are not connected, by
parent. -/
def orphanChildren (o : IterOrder UInt64) : Finmap fun _ : UInt64 => List UInt64 :=
  (t.nodes.listed o).foldl (fun orphans q =>
    if q.2.isConnected then orphans
    else match q.2.parentSlot with
      | none => orphans
      | some parent => orphans.insert parent ((orphans.lookup parent).getD [] ++ [q.1])) ∅

/-- The body of the loop of `try_reconnect_orphans` over the orphans of one parent. -/
def connectChild (parent : UInt64) (nodes : ForkNodes) (child : UInt64) : ForkNodes :=
  (nodes.adjust child connect).adjust parent (addChild child)

/-- The number of orphans that wait for a parent. -/
def orphanCount (orphans : Finmap fun _ : UInt64 => List UInt64) : ℕ :=
  ∑ parent ∈ orphans.keys, ((orphans.lookup parent).getD []).length

/-- The loop of `try_reconnect_orphans` over its queue. -/
def reconnectFrom : ℕ → List UInt64 → (Finmap fun _ : UInt64 => List UInt64) → ForkNodes →
    Except Fault ForkNodes
  | _, [], _, nodes => .ok nodes
  | 0, _ :: _, _, _ => .error .endlessLoop
  | fuel + 1, parent :: queue, orphans, nodes =>
    match orphans.lookup parent with
    | none => reconnectFrom fuel queue orphans nodes
    | some children =>
      reconnectFrom fuel (queue ++ children) (orphans.erase parent)
        (children.foldl (connectChild parent) nodes)

/-- `ForkTree::try_reconnect_orphans`.  An orphan gets into the queue once, when its parent is taken
from it. -/
def tryReconnectOrphans (o : IterOrder UInt64) : Except Fault ForkTree :=
  let orphans := t.orphanChildren o
  if orphans.keys = ∅ then .ok t
  else do
    let queue := ((t.nodes.listed o).filter fun q => q.2.isConnected).map Prod.fst
    let nodes ← reconnectFrom (queue.length + orphanCount orphans) queue orphans t.nodes
    return { t with nodes }

end Code

/-! ### Trees made by calls -/

variable {t t' : ForkTree} {slot parent child x : UInt64} {fuel : ℕ}
  {blockHash bankHash voter : Hash} {stake newRoot : UInt64} {o : IterOrder UInt64}

/-- What holds of every tree that calls have made: it is linked, and a slot that is its own parent
is not connected. -/
structure Built (t : ForkTree) : Prop where
  linked : t.Linked
  selfless : ∀ x node, t.nodes.lookup x = some node → node.isConnected = true →
    node.parentSlot ≠ some x

theorem built_new (rootSlot : UInt64) (blockHash bankHash : Hash) :
    (new rootSlot blockHash bankHash).Built := by
  refine ⟨linked_new rootSlot blockHash bankHash, fun x node hnode _ => ?_⟩
  obtain ⟨-, rfl⟩ := lookup_new hnode
  simp

theorem Built.addSlot (hb : t.Built) (h : t.addSlot slot parent blockHash bankHash = .ok t') :
    t'.Built := by
  refine ⟨hb.linked.addSlot h, fun x node hnode hconnected => ?_⟩
  obtain ⟨hslot, -, -, _, horphan, hlookup⟩ := addSlot_lookup h
  rw [hlookup] at hnode
  by_cases hx : x = slot
  · rw [if_pos hx] at hnode
    cases hnode
    subst hx
    rintro ⟨rfl⟩
    simp [joinedNode, horphan hslot] at hconnected
  · rw [if_neg hx] at hnode
    obtain ⟨n, hn, rfl⟩ := map_eq_some_iff.mp hnode
    have hself := hb.selfless x n hn
    split_ifs at hconnected ⊢ <;> exact hself hconnected

theorem Built.addVote {counted : Bool} (hb : t.Built)
    (h : t.addVote slot voter stake = .ok (counted, t')) : t'.Built := by
  refine ⟨(sameLinks_addVote h).linked hb.linked, ?_⟩
  obtain ⟨-, -, rfl⟩ | ⟨-, -, old, nodes, hold, rfl, hcore⟩ := addVote_eq_ok h
  · exact hb.selfless
  intro x node hnode hconnected
  have hx := hcore x
  simp only at hnode
  rw [hnode, map_some] at hx
  obtain ⟨n, hn, heq⟩ := map_eq_some_iff.mp hx.symm
  have hparent := congrArg parentSlot heq
  change n.parentSlot = node.parentSlot at hparent
  have hconn := congrArg isConnected heq
  change n.isConnected = node.isConnected at hconn
  rw [← hparent]
  rw [← hconn] at hconnected
  by_cases hxs : x = slot
  · subst hxs
    rw [lookup_insert] at hn
    cases hn
    exact hb.selfless x old hold hconnected
  · rw [lookup_insert_of_ne _ hxs] at hn
    exact hb.selfless x n hn hconnected

theorem Built.computeBestFork (hb : t.Built) (h : t.computeBestFork = .ok t') : t'.Built := by
  refine ⟨(sameLinks_computeBestFork h).linked hb.linked, ?_⟩
  obtain ⟨best, -, h⟩ := exceptBind_eq_ok.mp h
  cases h
  exact hb.selfless

variable {node : ForkNode}

/-- The nodes that a new root leaves are in the tree before it, with the parent they had or none. -/
theorem Linked.lookup_pruned_old (hlinked : t.Linked) {ancestry : List UInt64}
    {reachable : Finset UInt64} (hroot : newRoot ∈ t.nodes) (hne : t.rootSlot ≠ newRoot)
    (w : Walk t.up newRoot ancestry) (hreach : ∀ x, x ∈ reachable ↔ t.Below newRoot x)
    (h : (t.pruned newRoot ancestry reachable).nodes.lookup x = some node) :
    ∃ old, t.nodes.lookup x = some old ∧ (node = old ∨
      x = newRoot ∧ node = { old with parentSlot := none, commitment := .finalized }) := by
  rw [hlinked.lookup_pruned hroot hne w hreach] at h
  split_ifs at h with hx hr
  · obtain ⟨old, hold, rfl⟩ := map_eq_some_iff.mp h
    exact ⟨old, hx ▸ hold, .inr ⟨hx, rfl⟩⟩
  · exact ⟨node, h, .inl rfl⟩

/-- What a root that was set makes of a tree that calls have made. -/
theorem Built.setRoot_cases (hb : t.Built) (h : (setRoot newRoot).run t = .ok () t') :
    newRoot ∈ t.nodes ∧ (newRoot ≤ t.rootSlot ∧ t' = t ∨
      t.rootSlot < newRoot ∧ ∃ ancestry reachable, Walk t.up newRoot ancestry ∧
        (∀ x, x ∈ reachable ↔ t.Below newRoot x) ∧ t' = t.pruned newRoot ancestry reachable) := by
  obtain ⟨hmem, hstay | ⟨hlt, ancestry, reachable, hanc, hcollect, rfl⟩⟩ := setRoot_inv.mp h
  · exact ⟨hmem, .inl hstay⟩
  · have w := getAncestry_eq_ok.mp hanc
    obtain ⟨reachable', hcollect', hreach⟩ := hb.linked.collectSubtree_ok hmem w
    obtain rfl := Except.ok.inj (hcollect'.symm.trans hcollect)
    exact ⟨hmem, .inr ⟨hlt, ancestry, reachable', w, hreach, rfl⟩⟩

theorem Built.setRoot (hb : t.Built) (h : (setRoot newRoot).run t = .ok () t') : t'.Built := by
  obtain ⟨hmem, ⟨-, rfl⟩ | ⟨hlt, ancestry, reachable, w, hreach, rfl⟩⟩ := hb.setRoot_cases h
  · exact hb
  refine ⟨hb.linked.pruned hmem hlt.ne w hreach, fun x node hnode hconnected => ?_⟩
  obtain ⟨old, hold, rfl | ⟨-, rfl⟩⟩ := hb.linked.lookup_pruned_old hmem hlt.ne w hreach hnode
  · exact hb.selfless x node hold hconnected
  · simp

/-! ### Reconnecting -/

/-- Trees that differ in their lists of children and in what is connected. -/
structure Rewired (t t' : ForkTree) : Prop where
  fixed : ∀ x, (t'.nodes.lookup x).map fixed = (t.nodes.lookup x).map fixed
  rest : t' = { t with nodes := t'.nodes }

namespace Rewired

theorem refl (t : ForkTree) : Rewired t t := ⟨fun _ => rfl, rfl⟩

section

variable (h : Rewired t t')

include h

theorem trans {t'' : ForkTree} (h' : Rewired t' t'') : Rewired t t'' := by
  refine ⟨fun x => (h'.fixed x).trans (h.fixed x), ?_⟩
  rw [h'.rest, h.rest]

theorem map_eq {α : Type} {f : ForkNode → α}
    (hf : ∀ node, f node.fixed = f node) (x : UInt64) :
    (t'.nodes.lookup x).map f = (t.nodes.lookup x).map f := by
  have hx := congrArg (Option.map f) (h.fixed x)
  have hcomp : f ∘ ForkNode.fixed = f := funext hf
  rwa [Option.map_map, Option.map_map, hcomp] at hx

theorem parentOf_eq : t'.parentOf = t.parentOf := by
  funext x
  have hx := congrArg (fun o => o.bind id) (h.map_eq (f := parentSlot) (fun _ => rfl) x)
  simp only [bind_map] at hx
  exact hx

theorem up_eq : t'.up = t.up := by
  funext x
  exact up_congr (congrFun h.parentOf_eq x)

theorem mem_iff : x ∈ t'.nodes ↔ x ∈ t.nodes := by
  have hx := congrArg isSome (h.fixed x)
  rw [isSome_map, isSome_map] at hx
  rw [← lookup_isSome, ← lookup_isSome, hx]

end

end Rewired
theorem fixed_connect (node : ForkNode) : node.connect.fixed = node.fixed := rfl

theorem fixed_addChild (node : ForkNode) : (node.addChild child).fixed = node.fixed := by
  unfold addChild
  split_ifs <;> rfl

theorem isConnected_addChild (node : ForkNode) :
    (node.addChild child).isConnected = node.isConnected := by
  unfold addChild
  split_ifs <;> rfl

theorem mem_children_addChild (h : x ∈ (node.addChild child).children) :
    x ∈ node.children ∨ x = child := by
  unfold addChild at h
  split_ifs at h
  · exact .inl h
  · simpa using h

theorem nodup_children_addChild (h : node.children.Nodup) :
    (node.addChild child).children.Nodup := by
  unfold addChild
  split_ifs with hmem
  · exact h
  · exact h.append (nodup_singleton _) (disjoint_singleton.mpr hmem)

theorem lookup_connectChild (parent child : UInt64) (nodes : ForkNodes) (x : UInt64) :
    (connectChild parent nodes child).lookup x = (nodes.lookup x).map fun node =>
      (if x = parent then addChild child else id)
        ((if x = child then connect else id) node) := by
  simp only [connectChild, lookup_adjust]
  cases nodes.lookup x with
  | none => simp
  | some node => split_ifs <;> rfl

/-- An orphan is connected and entered in the list of its parent. -/
theorem Built.connectChild (hb : t.Built) (hparent : t.parentOf child = some parent)
    (hne : parent ≠ child) :
    ({ t with nodes := ForkTree.connectChild parent t.nodes child } : ForkTree).Built ∧
      Rewired t { t with nodes := ForkTree.connectChild parent t.nodes child } := by
  have hlookup := lookup_connectChild parent child t.nodes
  generalize ht' : ({ t with nodes := ForkTree.connectChild parent t.nodes child } : ForkTree) = t'
  have hnodes : t'.nodes = ForkTree.connectChild parent t.nodes child := ht' ▸ rfl
  rw [← hnodes] at hlookup
  have hwired : Rewired t t' := by
    refine ⟨fun x => ?_, ht' ▸ rfl⟩
    rw [hlookup x]
    cases t.nodes.lookup x with
    | none => rfl
    | some node => split_ifs <;> simp [fixed_addChild, fixed_connect]
  -- A node is as it was, or it is that of the child or of the parent.
  have hnode : ∀ x node, t'.nodes.lookup x = some node → ∃ old, t.nodes.lookup x = some old ∧
      (node = old ∨ x = child ∧ node = old.connect ∨ x = parent ∧ node = old.addChild child) := by
    intro x node h
    rw [hlookup x] at h
    obtain ⟨old, hold, rfl⟩ := map_eq_some_iff.mp h
    refine ⟨old, hold, ?_⟩
    split_ifs with hxp hxc hxc
    · exact absurd (hxp.symm.trans hxc) hne
    · exact .inr (.inr ⟨hxp, rfl⟩)
    · exact .inr (.inl ⟨hxc, rfl⟩)
    · exact .inl rfl
  have hchildren : ∀ x, (∀ c ∈ t'.childrenOf x, c ∈ t.childrenOf x ∨ x = parent ∧ c = child) ∧
      (t'.childrenOf x).Nodup := by
    intro x
    have hnodup := hb.linked.nodup x
    unfold childrenOf at hnodup ⊢
    cases h : t'.nodes.lookup x with
    | none => simp
    | some node =>
      obtain ⟨old, hold, hcases⟩ := hnode x node h
      rw [hold] at hnodup ⊢
      obtain rfl | ⟨-, rfl⟩ | ⟨hx, rfl⟩ := hcases
      · exact ⟨fun c hc => .inl hc, hnodup⟩
      · exact ⟨fun c hc => .inl hc, hnodup⟩
      · exact ⟨fun c hc => (mem_children_addChild hc).imp_right fun hc => ⟨hx, hc⟩,
          nodup_children_addChild hnodup⟩
  refine ⟨⟨⟨?_, fun x c hc => ?_, fun x => (hchildren x).2⟩, fun x node h hconnected => ?_⟩, hwired⟩
  · rw [hwired.mem_iff, hwired.up_eq, hwired.rest]
    exact hb.linked.root
  · rw [hwired.up_eq]
    rcases (hchildren x).1 c hc with hold | ⟨rfl, rfl⟩
    · exact hb.linked.listed x c hold
    · exact up_eq_some.mpr ⟨hparent, hne⟩
  · obtain ⟨old, hold, rfl | ⟨rfl, rfl⟩ | ⟨rfl, rfl⟩⟩ := hnode x node h
    · exact hb.selfless x node hold hconnected
    · rw [parentOf, hold, bind_some] at hparent
      show old.parentSlot ≠ some x
      rw [hparent]
      exact fun heq => hne (some.inj heq)
    · rw [isConnected_addChild] at hconnected
      have hsame : (old.addChild child).fixed.parentSlot = old.fixed.parentSlot := by
        rw [fixed_addChild]
      show (old.addChild child).fixed.parentSlot ≠ some x
      rw [hsame]
      exact hb.selfless x old hold hconnected

theorem Built.connectChildren (hb : t.Built) (hself : t.parentOf parent ≠ some parent)
    {children : List UInt64} (hchildren : ∀ c ∈ children, t.parentOf c = some parent) :
    ({ t with nodes := children.foldl (ForkTree.connectChild parent) t.nodes } : ForkTree).Built ∧
      Rewired t { t with nodes := children.foldl (ForkTree.connectChild parent) t.nodes } := by
  induction children generalizing t with
  | nil => exact ⟨hb, .refl t⟩
  | cons c children ih =>
    obtain ⟨hc, hrest⟩ := forall_mem_cons.mp hchildren
    have hne : parent ≠ c := by
      rintro rfl
      exact hself hc
    obtain ⟨hb₁, hwired₁⟩ := hb.connectChild hc hne
    obtain ⟨hb₂, hwired₂⟩ := ih hb₁ (hwired₁.parentOf_eq ▸ hself) (hwired₁.parentOf_eq ▸ hrest)
    exact ⟨hb₂, hwired₁.trans hwired₂⟩

section

variable {orphans : Finmap fun _ : UInt64 => List UInt64}

theorem orphanCount_erase {children : List UInt64}
    (h : orphans.lookup parent = some children) :
    children.length + orphanCount (orphans.erase parent) = orphanCount orphans := by
  have hkey : parent ∈ orphans.keys := mem_keys.mpr (mem_iff.mpr ⟨children, h⟩)
  unfold orphanCount
  rw [keys_erase, ← Finset.add_sum_erase _ _ hkey, h]
  refine congrArg (children.length + ·) (Finset.sum_congr rfl fun x hx => ?_)
  rw [lookup_erase_ne (Finset.ne_of_mem_erase hx)]

/-- The loop ends: with every turn a slot leaves the queue, and it gets there once at most. -/
theorem Built.reconnectFrom_ok (hb : t.Built) {queue : List UInt64}
    (hqueue : ∀ x ∈ queue, t.parentOf x ≠ some x)
    (horphans : orphans.ForAll fun parent children => ∀ c ∈ children, t.parentOf c = some parent)
    (hfuel : queue.length + orphanCount orphans ≤ fuel) :
    ∃ nodes, reconnectFrom fuel queue orphans t.nodes = .ok nodes ∧
      ({ t with nodes } : ForkTree).Built ∧ Rewired t { t with nodes } := by
  induction fuel generalizing t queue orphans with
  | zero =>
    cases queue with
    | nil => exact ⟨t.nodes, by simp [reconnectFrom], hb, .refl t⟩
    | cons parent queue => simp at hfuel
  | succ fuel ih =>
    cases queue with
    | nil => exact ⟨t.nodes, by simp [reconnectFrom], hb, .refl t⟩
    | cons parent queue =>
      obtain ⟨hself, hqueue⟩ := forall_mem_cons.mp hqueue
      simp only [length_cons] at hfuel
      simp only [reconnectFrom]
      cases hchildren : orphans.lookup parent with
      | none => exact ih hb hqueue horphans (by omega)
      | some children =>
        have hparent := horphans parent children hchildren
        have hcount := orphanCount_erase hchildren
        obtain ⟨hb₁, hwired⟩ := hb.connectChildren hself hparent
        have hqueue₁ : ∀ x ∈ queue ++ children, t.parentOf x ≠ some x := by
          intro x hx
          rcases mem_append.mp hx with hx | hx
          · exact hqueue x hx
          · intro hloop
            cases (hparent x hx).symm.trans hloop
            exact hself hloop
        rw [← hwired.parentOf_eq] at hqueue₁ horphans
        obtain ⟨nodes, hrun, hb₂, hwired₂⟩ := ih hb₁ hqueue₁ (horphans.erase parent)
          (by rw [length_append]; omega)
        exact ⟨nodes, hrun, hb₂, hwired.trans hwired₂⟩

end

/-- The orphans of a parent name it. -/
theorem forAll_orphanChildren : (t.orphanChildren o).ForAll fun parent children =>
    ∀ c ∈ children, t.parentOf c = some parent := by
  refine foldlRecOn (motive := fun orphans => Finmap.ForAll (fun parent children =>
    ∀ c ∈ children, t.parentOf c = some parent) orphans) _ _ .empty fun orphans h q hq => ?_
  have hnode : t.nodes.lookup q.1 = some q.2 := mem_listed.mp hq
  split_ifs
  · exact h
  · cases hparent : q.2.parentSlot with
    | none => exact h
    | some parent =>
      refine h.insert fun c hc => ?_
      rcases mem_append.mp hc with hc | hc
      · cases hold : orphans.lookup parent with
        | none => simp [hold] at hc
        | some children => exact h parent children hold c (by simpa [hold] using hc)
      · obtain rfl := mem_singleton.mp hc
        rw [parentOf, hnode, bind_some, hparent]

/-- **`try_reconnect_orphans`** always ends, and changes the lists of children and what is connected
only. -/
theorem Built.tryReconnectOrphans_ok (hb : t.Built) (o : IterOrder UInt64) :
    ∃ t', t.tryReconnectOrphans o = .ok t' ∧ t'.Built ∧ Rewired t t' := by
  simp only [tryReconnectOrphans]
  split_ifs with hnone
  · exact ⟨t, rfl, hb, .refl t⟩
  · have hqueue : ∀ x ∈ ((t.nodes.listed o).filter fun q => q.2.isConnected).map Prod.fst,
        t.parentOf x ≠ some x := by
      intro x hx
      obtain ⟨q, hq, rfl⟩ := mem_map.mp hx
      obtain ⟨hq, hconnected⟩ := mem_filter.mp hq
      rw [parentOf, mem_listed.mp hq, bind_some]
      exact hb.selfless q.1 q.2 (mem_listed.mp hq) hconnected
    obtain ⟨nodes, hrun, hb', hwired⟩ := hb.reconnectFrom_ok hqueue forAll_orphanChildren le_rfl
    exact ⟨_, exceptBind_eq_ok.mpr ⟨nodes, hrun, rfl⟩, hb', hwired⟩

end ForkTree

/-! ### Calls -/

/-- The calls that change a tree.  A map of nodes is passed over in an arbitrary order. -/
inductive ForkCall where
  | addSlot (slot parentSlot : UInt64) (blockHash bankHash : Hash)
  | addVote (slot : UInt64) (voter : Hash) (stake : UInt64)
  | tryReconnectOrphans (o : IterOrder UInt64)
  | setRoot (newRoot : UInt64)
  | computeBestFork

namespace ForkTree

variable {t t' : ForkTree} {slot parent x y : UInt64} {l : List UInt64}
  {blockHash bankHash voter : Hash} {stake newRoot : UInt64} {o : IterOrder UInt64}

/-- The tree after a call; none if the call does not end.  A call that is refused leaves the tree as
it is. -/
def call (t : ForkTree) : ForkCall → Option ForkTree
  | .addSlot slot parentSlot blockHash bankHash =>
    some ((t.addSlot slot parentSlot blockHash bankHash).toOption.getD t)
  | .addVote slot voter stake => (t.addVote slot voter stake).toOption.map Prod.snd
  | .tryReconnectOrphans o => (t.tryReconnectOrphans o).toOption
  | .setRoot newRoot => match (setRoot newRoot).run t with
    | .ok _ t' => some t'
    | .err _ t' => some t'
    | .fault _ => none
  | .computeBestFork => t.computeBestFork.toOption

theorem call_addSlot : t.call (.addSlot slot parent blockHash bankHash) = some t' ↔
    t.addSlot slot parent blockHash bankHash = .ok t' ∨
      (∃ e, t.addSlot slot parent blockHash bankHash = .error e) ∧ t' = t := by
  rw [call]
  cases t.addSlot slot parent blockHash bankHash <;> simp [Except.toOption, eq_comm]

theorem call_addVote : t.call (.addVote slot voter stake) = some t' ↔
    ∃ counted, t.addVote slot voter stake = .ok (counted, t') := by
  rw [call]
  cases t.addVote slot voter stake with
  | error e => simp [Except.toOption]
  | ok r =>
    obtain ⟨counted, t₁⟩ := r
    simp [Except.toOption]

theorem call_setRoot (h : t.call (.setRoot newRoot) = some t') :
    (setRoot newRoot).run t = .ok () t' ∨ newRoot ∉ t.nodes ∧ t' = t := by
  rw [call] at h
  cases hrun : (setRoot newRoot).run t with
  | ok _ t₁ =>
    rw [hrun] at h
    exact .inl (some.inj h ▸ rfl)
  | err e t₁ =>
    rw [hrun] at h
    cases h
    exact .inr (setRoot_err hrun)
  | fault f => simp [hrun] at h

/-- A call makes a tree of the kind that calls make. -/
theorem Built.call {c : ForkCall} (hb : t.Built) (h : t.call c = some t') : t'.Built := by
  cases c with
  | addSlot slot parent blockHash bankHash =>
    rcases call_addSlot.mp h with hok | ⟨-, rfl⟩
    · exact hb.addSlot hok
    · exact hb
  | addVote slot voter stake =>
    obtain ⟨counted, hok⟩ := call_addVote.mp h
    exact hb.addVote hok
  | tryReconnectOrphans o =>
    obtain ⟨t₁, hok, hb₁, -⟩ := hb.tryReconnectOrphans_ok o
    cases hok.symm.trans (exceptToOption_eq_some.mp h)
    exact hb₁
  | setRoot newRoot =>
    rcases call_setRoot h with hok | ⟨-, rfl⟩
    · exact hb.setRoot hok
    · exact hb
  | computeBestFork => exact hb.computeBestFork (exceptToOption_eq_some.mp h)

theorem built_of_steps {rootSlot : UInt64} {calls : List ForkCall}
    (h : Trace.Steps (fun t c t' => t.call c = some t') (new rootSlot blockHash bankHash) calls t) :
    t.Built :=
  h.invariant (G := fun _ => True) (fun _ _ _ hb _ hcall => hb.call hcall) (built_new _ _ _)
    fun _ _ => trivial

/-! ### Cycles -/

/-- The parents have no cycle; a slot that is its own parent is one. -/
def Acyclic (t : ForkTree) : Prop :=
  ∀ x, ¬ Relation.TransGen (fun a b => t.parentOf a = some b) x x

/-- The parents have no cycle, and every walk over the tree ends. -/
structure WalksEnd (t : ForkTree) : Prop where
  acyclic : t.Acyclic
  addVote : ∀ slot voter stake, ∃ r, t.addVote slot voter stake = .ok r
  computeBestFork : ∃ t', t.computeBestFork = .ok t'
  getAncestry : ∀ slot, ∃ ancestry, t.getAncestry slot = .ok ancestry
  setRoot : ∀ newRoot f, (setRoot newRoot).run t ≠ .fault f

theorem acyclic_iff : t.Acyclic ↔ ∀ x, ∃ l, Walk t.parentOf x l := by
  have : Finite UInt64 := Finite.of_injective UInt64.toFin fun _ _ => UInt64.toFin_inj.mp
  exact Walk.exists_iff_acyclic.symm

theorem Acyclic.up_eq (h : t.Acyclic) : t.up = t.parentOf := by
  funext x
  refine ext fun y => up_eq_some.trans ⟨And.left, fun hy => ⟨hy, ?_⟩⟩
  rintro rfl
  exact h y (.single hy)

/-- **Walks and cycles.**  In a tree that calls have made the walks end exactly if the parents have no
cycle. -/
theorem Built.walksEnd_iff_acyclic (hb : t.Built) : t.WalksEnd ↔ t.Acyclic := by
  refine ⟨WalksEnd.acyclic, fun h => ?_⟩
  have hwalk : ∀ x, ∃ l, Walk t.up x l := h.up_eq ▸ acyclic_iff.mp h
  refine ⟨h, fun slot voter stake => ?_, hb.linked.computeBestFork_ok, fun slot => ?_,
    fun newRoot f hf => ?_⟩
  · by_cases hcount : t.WouldCount slot voter
    · obtain ⟨l, w⟩ := hwalk slot
      obtain ⟨nodes, hrun, -⟩ := addVote_of_walk stake hcount w
      exact ⟨_, hrun⟩
    · exact ⟨_, addVote_of_not_wouldCount hcount⟩
  · obtain ⟨l, w⟩ := hwalk slot
    exact ⟨l, getAncestry_eq_ok.mpr w⟩
  · simp only [ForkTree.setRoot, bind_eq_fault, run_get, reduceCtorEq, false_or, Outcome.ok.injEq,
      require_ne_fault, require_eq_ok, and_assoc, exists_and_left, existsAndEq, exists_unit,
      true_and] at hf
    obtain ⟨hmem, hf⟩ := hf
    split_ifs at hf with hle
    · simp at hf
    · obtain ⟨l, w⟩ := hwalk newRoot
      obtain ⟨reachable, hcollect, -⟩ := hb.linked.collectSubtree_ok hmem w
      rw [getAncestry_eq_ok.mpr w, hcollect] at hf
      cases hf

/-- **A new slot closes a cycle** exactly if it is on the ancestry of its parent. -/
theorem Acyclic.addSlot_iff (h : t.Acyclic)
    (hadd : t.addSlot slot parent blockHash bankHash = .ok t') :
    t'.Acyclic ↔ ¬ t.OnAncestry slot parent := by
  have hparentOf := addSlot_parentOf hadd
  have hslot : t.parentOf slot = none := by
    obtain ⟨hnew, -⟩ := addSlot_lookup hadd
    rw [parentOf, lookup_eq_none.mpr hnew, bind_none]
  have hwalks := acyclic_iff.mp h
  obtain ⟨l, w⟩ := hwalks parent
  rw [onAncestry_iff (h.up_eq ▸ w)]
  constructor
  · intro h' hmem
    -- From the slot to its parent, and from there along the old links back to the slot.
    have hback : Relation.ReflTransGen (fun a b => t'.parentOf a = some b) parent slot := by
      refine Relation.ReflTransGen.mono (fun a b hab => ?_) _ _ (w.reaches_iff.mpr hmem)
      rw [hparentOf, if_neg, hab]
      rintro rfl
      rw [hslot] at hab
      cases hab
    exact h' slot (.head' (by rw [hparentOf, if_pos rfl]) hback)
  · intro hmem
    have hparent : Walk t'.parentOf parent l := by
      refine w.congr fun y hy => ?_
      rw [hparentOf, if_neg]
      rintro rfl
      exact hmem hy
    refine acyclic_iff.mpr fun x => ?_
    obtain ⟨lx, wx⟩ := hwalks x
    induction wx with
    | @stop y hy =>
      by_cases hys : y = slot
      · exact ⟨_, .step ((hparentOf y).trans (if_pos hys)) hparent⟩
      · exact ⟨_, .stop (by rw [hparentOf, if_neg hys, hy])⟩
    | @step y z _ hy _ ih =>
      obtain ⟨lz, wz⟩ := ih
      have hys : y ≠ slot := by
        rintro rfl
        rw [hslot] at hy
        cases hy
      exact ⟨_, .step (by rw [hparentOf, if_neg hys, hy]) wz⟩

theorem Acyclic.mono (h : t.Acyclic) (hold : ∀ x y, t'.parentOf x = some y → t.parentOf x = some y) :
    t'.Acyclic :=
  fun x hcycle => h x (Relation.TransGen.mono hold _ _ hcycle)

theorem SameLinks.parentOf_eq (h : SameLinks t t') : t'.parentOf = t.parentOf := by
  funext x
  have hx := congrArg (fun o => o.bind Prod.fst) (h.links x)
  simp only [bind_map] at hx
  exact hx

/-- The call adds no slot that is on the ancestry of its parent. -/
def AddsBelow (t : ForkTree) : ForkCall → Prop
  | .addSlot slot parentSlot _ _ =>
    slot ∉ t.nodes → t.nodeCount < maxForkTreeNodes → ¬ t.OnAncestry slot parentSlot
  | _ => True

theorem acyclic_call_iff {c : ForkCall} (hb : t.Built) (hacyclic : t.Acyclic)
    (h : t.call c = some t') : t'.Acyclic ↔ t.AddsBelow c := by
  cases c with
  | addSlot slot parent blockHash bankHash =>
    rcases call_addSlot.mp h with hok | ⟨⟨e, herr⟩, rfl⟩
    · obtain ⟨hnew, hroom, -⟩ := addSlot_lookup hok
      rw [hacyclic.addSlot_iff hok]
      exact ⟨fun hnot _ _ => hnot, fun hadds => hadds hnew hroom⟩
    · refine ⟨fun _ hnew hroom => ?_, fun _ => hacyclic⟩
      rw [addSlot, if_neg hnew, if_neg (not_le.mpr hroom)] at herr
      cases herr
  | addVote slot voter stake =>
    obtain ⟨counted, hok⟩ := call_addVote.mp h
    have hsame := (sameLinks_addVote hok).parentOf_eq
    exact iff_of_true (hacyclic.mono fun x y hy => hsame ▸ hy) trivial
  | tryReconnectOrphans o =>
    obtain ⟨t₁, hok, -, hwired⟩ := hb.tryReconnectOrphans_ok o
    cases hok.symm.trans (exceptToOption_eq_some.mp h)
    have hsame := hwired.parentOf_eq
    exact iff_of_true (hacyclic.mono fun x y hy => hsame ▸ hy) trivial
  | setRoot newRoot =>
    refine iff_of_true ?_ trivial
    rcases call_setRoot h with hok | ⟨-, rfl⟩
    · exact hacyclic.mono fun x y hy => parentOf_of_setRoot hok hy
    · exact hacyclic
  | computeBestFork =>
    have hsame := (sameLinks_computeBestFork (exceptToOption_eq_some.mp h)).parentOf_eq
    exact iff_of_true (hacyclic.mono fun x y hy => hsame ▸ hy) trivial

theorem acyclic_new (rootSlot : UInt64) (blockHash bankHash : Hash) :
    (new rootSlot blockHash bankHash).Acyclic :=
  acyclic_iff.mpr fun x => ⟨_, .stop (parentOf_new _ _ _ x)⟩

end ForkTree

/-- **When the walks end.**  All walks over the tree end after every call of a run exactly if no
slot was added that is on the ancestry of its parent. -/
theorem walksEnd_iff {rootSlot : UInt64} {blockHash bankHash : Hash} {calls : List ForkCall}
    {t : ForkTree} :
    Trace.Steps (fun t c t' => t.call c = some t' ∧ t'.WalksEnd)
        (ForkTree.new rootSlot blockHash bankHash) calls t ↔
      Trace.Steps (fun t c t' => t.call c = some t' ∧ t.AddsBelow c)
        (ForkTree.new rootSlot blockHash bankHash) calls t := by
  refine Trace.Steps.and_iff (I := fun t => t.Built ∧ t.Acyclic) ?_ ?_
    ⟨built_new _ _ _, acyclic_new _ _ _⟩
  · rintro t c t' ⟨hb, -⟩ hcall hends
    exact ⟨hb.call hcall, hends.acyclic⟩
  · rintro t c t' ⟨hb, hacyclic⟩ hcall
    rw [(hb.call hcall).walksEnd_iff_acyclic]
    exact acyclic_call_iff hb hacyclic hcall

/-- Slot 5 is added before its parent 7, and then 7 names 5 as its parent: the walks from there do not
end. -/
theorem two_slots_name_each_other :
    ∃ t, Trace.Steps (fun t c t' => t.call c = some t') (ForkTree.new 0 Hash.zero Hash.zero)
        [.addSlot 5 7 Hash.zero Hash.zero, .addSlot 7 5 Hash.zero Hash.zero] t ∧
      ¬ t.Acyclic ∧ t.getAncestry 5 = .error .endlessLoop ∧
      t.addVote 5 Hash.zero 1 = .error .endlessLoop ∧ (ForkTree.setRoot 5).run t = .fault .endlessLoop := by
  obtain ⟨t, ht, h5, h7, hends⟩ :
      ∃ t, foldlM call (new 0 Hash.zero Hash.zero) [.addSlot 5 7 Hash.zero
          Hash.zero, .addSlot 7 5 Hash.zero Hash.zero] = some t ∧
      t.parentOf 5 = some 7 ∧ t.parentOf 7 = some 5 ∧ t.getAncestry 5 = .error .endlessLoop ∧
      t.addVote 5 Hash.zero 1 = .error .endlessLoop ∧
      (setRoot 5).run t = .fault .endlessLoop := by decide +kernel
  refine ⟨t, Trace.Steps.of_foldlM ht, fun hacyclic => ?_, hends⟩
  exact hacyclic 5 (.head h5 (.single h7))

end Nusantara

import Mathlib.Algebra.Order.BigOperators.Group.Finset
import Nusantara.Consensus.ForkRoots

/-!
# The votes in the fork tree over a run of calls

A vote is entered in the node of its slot and, by voter, in a map of the slots voted for, and its
stake is added to the weight of every ancestor (`consensus/src/fork_choice.rs`).

The map is cleaned by slot numbers: a new root takes out the votes for smaller slots.  The nodes are
pruned by what the new root leads to, so a vote for a larger slot of another fork stays in the map
when its node has gone, and its voter is not counted any more.

A slot starts with no weight.  When it comes after its children, the stake that was voted for them is
missing in its weight and in that of its ancestors.

## Main results

* `votesMatch_iff`: the runs after whose calls the map and the nodes agree on the votes.
* `stakeExact_iff`: the runs after whose calls the weights are the stakes of the subtrees.
-/

namespace Nusantara

open Exec Finmap Option Trace ForkNode Hash
open Hash (zero)

namespace ForkTree

variable {t t' : ForkTree} {slot parent x newRoot : UInt64}
  {blockHash bankHash voter : Hash} {stake : UInt64} {o : IterOrder UInt64} {counted : Bool}

/-! ### Who voted for what -/

/-- The map has votes that the nodes have, and no voter is in two nodes. -/
structure VotesMatch (t : ForkTree) : Prop where
  recorded : ∀ voter slot, t.validatorToVotedSlot.lookup voter = some slot → t.HasVoter slot voter
  once : ∀ voter slot slot', t.HasVoter slot voter → t.HasVoter slot' voter → slot = slot'

theorem hasVoter_iff_map : t.HasVoter slot voter ↔
    ∃ voters, (t.nodes.lookup slot).map votersSeen = some voters ∧ voter ∈ voters := by
  simp [HasVoter]

theorem hasVoter_addSlot (h : t.addSlot slot parent blockHash bankHash = .ok t') :
    t'.HasVoter x voter ↔ t.HasVoter x voter := by
  have hmap := addSlot_map (f := votersSeen) h (fun _ => rfl) (fun _ _ => rfl) x
  rw [hasVoter_iff_map, hmap, hasVoter_iff_map]
  split_ifs with hx
  · subst hx
    simp [lookup_eq_none.mpr (addSlot_lookup h).1]
  · rfl

/-- The call enters no vote of a voter that is in a node already, and sets no root under which a
recorded vote for it or a larger slot loses its node. -/
def KeepsVotes (t : ForkTree) : ForkCall → Prop
  | .addVote slot voter _ => t.WouldCount slot voter → ∀ slot', ¬ t.HasVoter slot' voter
  | .setRoot newRoot => newRoot ∈ t.nodes → t.rootSlot < newRoot → ∀ voter slot,
      t.validatorToVotedSlot.lookup voter = some slot → newRoot ≤ slot → t.Below newRoot slot
  | _ => True

theorem VotesMatch.of_same (h : t.VotesMatch) (hmap : t'.validatorToVotedSlot = t.validatorToVotedSlot)
    (hvoters : ∀ slot voter, t'.HasVoter slot voter ↔ t.HasVoter slot voter) : t'.VotesMatch where
  recorded voter slot hv := (hvoters slot voter).mpr (h.recorded voter slot (hmap ▸ hv))
  once voter slot slot' hs hs' :=
    h.once voter slot slot' ((hvoters slot voter).mp hs) ((hvoters slot' voter).mp hs')

theorem VotesMatch.addVote_iff (h : t.VotesMatch)
    (hadd : t.addVote slot voter stake = .ok (counted, t')) :
    t'.VotesMatch ↔ (t.WouldCount slot voter → ∀ slot', ¬ t.HasVoter slot' voter) := by
  have hvoters : ∀ s v, t'.HasVoter s v ↔
      t.HasVoter s v ∨ s = slot ∧ v = voter ∧ t.WouldCount slot voter :=
    fun _ _ => hasVoter_addVote hadd
  obtain ⟨-, hnot, rfl⟩ | ⟨-, hw, node, nodes, hnode, rfl, -⟩ := addVote_eq_ok hadd
  · exact iff_of_true h fun hw => absurd hw hnot
  constructor
  · intro h' _ s hs
    have hslot := h'.once voter s slot ((hvoters s voter).mpr (.inl hs))
      ((hvoters slot voter).mpr (.inr ⟨rfl, rfl, hw⟩))
    exact hw.not_hasVoter (hslot ▸ hs)
  · intro hfree
    refine ⟨fun v s hv => ?_, fun v s s' hs hs' => ?_⟩
    · rw [hvoters]
      by_cases hvv : v = voter
      · subst hvv
        rw [lookup_insert] at hv
        exact .inr ⟨(some.inj hv).symm, rfl, hw⟩
      · rw [lookup_insert_of_ne _ hvv] at hv
        exact .inl (h.recorded v s hv)
    · rcases (hvoters s v).mp hs with hs | ⟨hs, hv, -⟩ <;>
        rcases (hvoters s' v).mp hs' with hs' | ⟨hs', hv', -⟩
      · exact h.once v s s' hs hs'
      · exact absurd (hv' ▸ hs) (hfree hw s)
      · exact absurd (hv ▸ hs') (hfree hw s')
      · exact hs.trans hs'.symm

theorem Built.votesMatch_setRoot_iff (hb : t.Built) (h : t.VotesMatch)
    (hset : (ForkTree.setRoot newRoot).run t = .ok () t') :
    t'.VotesMatch ↔ (newRoot ∈ t.nodes → t.rootSlot < newRoot → ∀ voter slot,
      t.validatorToVotedSlot.lookup voter = some slot → newRoot ≤ slot → t.Below newRoot slot) := by
  obtain ⟨hmem, ⟨hle, rfl⟩ | ⟨hlt, ancestry, reachable, w, hreach, rfl⟩⟩ := hb.setRoot_cases hset
  · exact iff_of_true h fun _ hlt => absurd hle (not_le.mpr hlt)
  have hvoters : ∀ s v, (t.pruned newRoot ancestry reachable).HasVoter s v ↔
      t.Below newRoot s ∧ t.HasVoter s v := by
    intro s v
    have hmap := hb.linked.map_pruned hmem hlt.ne w hreach (f := votersSeen) (fun _ => rfl) s
    rw [hasVoter_iff_map, hmap, ← hreach, hasVoter_iff_map]
    split_ifs with hs <;> simp [hs]
  have hrecorded : ∀ v s, (t.pruned newRoot ancestry reachable).validatorToVotedSlot.lookup v = some s ↔
      t.validatorToVotedSlot.lookup v = some s ∧ newRoot ≤ s := by
    intro v s
    rw [pruned, lookup_retain, filter_eq_some_iff, decide_eq_true_iff]
  constructor
  · intro h' _ _ v s hv hle
    exact ((hvoters s v).mp (h'.recorded v s ((hrecorded v s).mpr ⟨hv, hle⟩))).1
  · intro hbelow
    refine ⟨fun v s hv => ?_, fun v s s' hs hs' => ?_⟩
    · obtain ⟨hv, hle⟩ := (hrecorded v s).mp hv
      exact (hvoters s v).mpr ⟨hbelow hmem hlt v s hv hle, h.recorded v s hv⟩
    · exact h.once v s s' ((hvoters s v).mp hs).2 ((hvoters s' v).mp hs').2

theorem Built.votesMatch_call_iff {c : ForkCall} (hb : t.Built) (h : t.VotesMatch)
    (hcall : t.call c = some t') : t'.VotesMatch ↔ t.KeepsVotes c := by
  cases c with
  | addSlot slot parent blockHash bankHash =>
    refine iff_of_true ?_ trivial
    rcases call_addSlot.mp hcall with hok | ⟨-, rfl⟩
    · obtain ⟨-, -, ht', -⟩ := addSlot_lookup hok
      exact h.of_same (by rw [ht']) fun s v => hasVoter_addSlot hok
    · exact h
  | addVote slot voter stake =>
    obtain ⟨counted, hok⟩ := call_addVote.mp hcall
    exact h.addVote_iff hok
  | tryReconnectOrphans o =>
    obtain ⟨t₁, hok, -, hwired⟩ := hb.tryReconnectOrphans_ok o
    cases hok.symm.trans (exceptToOption_eq_some.mp hcall)
    refine iff_of_true (h.of_same (by rw [hwired.rest]) fun s v => ?_) trivial
    rw [hasVoter_iff_map, hasVoter_iff_map, hwired.map_eq (fun _ => rfl) s]
  | setRoot newRoot =>
    rcases call_setRoot hcall with hok | ⟨hnot, rfl⟩
    · exact hb.votesMatch_setRoot_iff h hok
    · exact iff_of_true h fun hmem => absurd hmem hnot
  | computeBestFork =>
    obtain ⟨best, -, hok⟩ := exceptBind_eq_ok.mp (exceptToOption_eq_some.mp hcall)
    cases hok
    exact iff_of_true (h.of_same rfl fun _ _ => Iff.rfl) trivial

end ForkTree

open ForkTree in
/-- **When the votes match.**  After every call of a run the map has votes that the nodes have, and no
voter is in two nodes, exactly if every call of the run keeps the votes. -/
theorem votesMatch_iff {rootSlot : UInt64} {blockHash bankHash : Hash} {calls : List ForkCall}
    {t : ForkTree} :
    Trace.Steps (fun t c t' => t.call c = some t' ∧ t'.VotesMatch)
        (ForkTree.new rootSlot blockHash bankHash) calls t ↔
      Trace.Steps (fun t c t' => t.call c = some t' ∧ t.KeepsVotes c)
        (ForkTree.new rootSlot blockHash bankHash) calls t := by
  refine Steps.and_iff (I := fun t => t.Built ∧ t.VotesMatch) ?_ ?_ ⟨built_new _ _ _, ?_, ?_⟩
  · rintro t c t' ⟨hb, -⟩ hcall hmatch
    exact ⟨hb.call hcall, hmatch⟩
  · rintro t c t' ⟨hb, hmatch⟩ hcall
    exact hb.votesMatch_call_iff hmatch hcall
  · intro voter slot hv
    simp [ForkTree.new] at hv
  · rintro voter slot slot' ⟨node, hnode, hv⟩ -
    obtain ⟨-, rfl⟩ := lookup_new hnode
    simp at hv

/-- A vote for slot 2 is still in the map after the other fork's slot 1 became the root, and slot 2 has
gone. -/
theorem vote_outlives_its_node :
    ∃ t, Trace.Steps (fun t c t' => t.call c = some t') (ForkTree.new 0 Hash.zero Hash.zero)
        [.addSlot 1 0 Hash.zero Hash.zero, .addSlot 2 0 Hash.zero Hash.zero,
          .addVote 2 (Hash.repeated 7) 10, .setRoot 1] t ∧
      t.validatorToVotedSlot.lookup (Hash.repeated 7) = some 2 ∧ 2 ∉ t.nodes ∧ ¬ t.VotesMatch := by
  obtain ⟨t, ht, hvoted, hgone⟩ :
      ∃ t, List.foldlM ForkTree.call (ForkTree.new 0 zero zero) [.addSlot 1 0 zero
          zero, .addSlot 2 0 zero zero, .addVote 2 (repeated 7) 10, .setRoot 1]
          = some t ∧
      t.validatorToVotedSlot.lookup (repeated 7) = some 2 ∧ 2 ∉ t.nodes := by decide +kernel
  refine ⟨t, Steps.of_foldlM ht, hvoted, hgone, fun h => ?_⟩
  obtain ⟨node, hnode, -⟩ := h.recorded _ _ hvoted
  exact hgone (mem_iff.mpr ⟨node, hnode⟩)

namespace ForkTree

variable {t t' : ForkTree} {slot parent x y newRoot : UInt64} {l : List UInt64}
  {blockHash bankHash voter : Hash} {stake : UInt64} {counted : Bool}

/-! ### The weight of a subtree -/

/-- The stake that voted for the slots of the tree. -/
def votedStake (t : ForkTree) : ℕ := ∑ slot ∈ t.nodes.keys, t.stakeOn slot

open Classical in
/-- The stake that voted for a slot and for its descendants. -/
noncomputable def descendantStake (t : ForkTree) (slot : UInt64) : ℕ :=
  ∑ y ∈ t.nodes.keys with t.DescendsFrom slot y, t.stakeOn y

/-- The weight of every node is the stake that voted for it and for its descendants. -/
def StakeExact (t : ForkTree) : Prop :=
  ∀ x node, t.nodes.lookup x = some node → node.subtreeStake.toNat = t.descendantStake x

theorem stakeOn_of_notMem (h : x ∉ t.nodes) : t.stakeOn x = 0 := by
  rw [stakeOn, lookup_eq_none.mpr h, map_none, getD_none]

open Classical in
theorem descendantStake_eq_sum {s : Finset UInt64} (hs : t.nodes.keys ⊆ s) (x : UInt64) :
    t.descendantStake x = ∑ y ∈ s, if t.DescendsFrom x y then t.stakeOn y else 0 := by
  rw [descendantStake, Finset.sum_filter]
  refine Finset.sum_subset hs fun y _ hy => ?_
  rw [stakeOn_of_notMem fun hmem => hy (mem_keys.mpr hmem), ite_self]

theorem descendantStake_le (t : ForkTree) (x : UInt64) : t.descendantStake x ≤ t.votedStake := by
  classical
  exact Finset.sum_le_sum_of_subset (Finset.filter_subset _ _)

theorem descendantStake_congr (hkeys : t'.nodes.keys = t.nodes.keys)
    (hstake : ∀ y, t'.stakeOn y = t.stakeOn y)
    (hdesc : ∀ y ∈ t.nodes.keys, t.stakeOn y ≠ 0 → (t'.DescendsFrom x y ↔ t.DescendsFrom x y)) :
    t'.descendantStake x = t.descendantStake x := by
  classical
  rw [descendantStake_eq_sum hkeys.subset, descendantStake_eq_sum subset_rfl]
  refine Finset.sum_congr rfl fun y hy => ?_
  rw [hstake]
  by_cases hzero : t.stakeOn y = 0
  · rw [hzero, ite_self, ite_self]
  · simp only [hdesc y hy hzero]

/-! ### A new slot -/

section

variable (h : t.addSlot slot parent blockHash bankHash = .ok t')

include h

theorem addSlot_stakeOn (y : UInt64) :
    t'.stakeOn y = t.stakeOn y := by
  have hmap := addSlot_map (f := fun node => node.stakeVoted.toNat) h (fun _ => rfl) (fun _ _ => rfl) y
  rw [stakeOn, hmap]
  split_ifs with hy
  · rw [hy, stakeOn_of_notMem (addSlot_lookup h).1]
    rfl
  · rfl

/-- The parents that a new slot has lead on from it only. -/
theorem descendsFrom_addSlot
    (hdesc : t'.DescendsFrom x y) : t.DescendsFrom x y ∨ t.DescendsFrom slot y := by
  induction hdesc with
  | refl => exact .inl .refl
  | @tail a b _ hab ih =>
    rcases ih with hya | hslot
    · rw [addSlot_parentOf h] at hab
      split_ifs at hab with ha
      · exact .inr (ha ▸ hya)
      · exact .inl (hya.tail hab)
    · exact .inr hslot

theorem DescendsFrom.addSlot (hdesc : t.DescendsFrom x y) : t'.DescendsFrom x y := by
  refine Relation.ReflTransGen.mono (fun a b hab => ?_) _ _ hdesc
  rw [addSlot_parentOf h, if_neg, hab]
  rintro rfl
  exact (addSlot_lookup h).1 (mem_of_parentOf hab)

end

/-- **A new slot** leaves the weights exact if and only if no stake voted for slots whose parents
lead to it. -/
theorem StakeExact.addSlot_iff (hexact : t.StakeExact)
    (h : t.addSlot slot parent blockHash bankHash = .ok t') :
    t'.StakeExact ↔ ∀ y, t.DescendsFrom slot y → t.stakeOn y = 0 := by
  classical
  obtain ⟨-, -, -, _, -, hlookup⟩ := addSlot_lookup h
  have hkeys : t.nodes.keys ⊆ t'.nodes.keys := by
    intro y hy
    rw [mem_keys] at hy ⊢
    exact (mem_addSlot h).mpr (.inr hy)
  constructor
  · intro hexact' y hdesc
    have hzero := hexact' slot _ (by rw [hlookup, if_pos rfl])
    rw [joinedNode, descendantStake, eq_comm, UInt64.toNat_zero, Finset.sum_eq_zero_iff] at hzero
    by_cases hy : y ∈ t.nodes
    · rw [← addSlot_stakeOn h]
      refine hzero y (Finset.mem_filter.mpr ⟨hkeys (mem_keys.mpr hy), hdesc.addSlot h⟩)
    · exact stakeOn_of_notMem hy
  · intro hnone x xnode hx
    -- The stakes below the new slot are zero, so what leads on from it adds nothing.
    have hsum : t'.descendantStake x = t.descendantStake x := by
      rw [descendantStake_eq_sum subset_rfl, descendantStake_eq_sum hkeys]
      refine Finset.sum_congr rfl fun y _ => ?_
      rw [addSlot_stakeOn h]
      by_cases hzero : t.stakeOn y = 0
      · rw [hzero, ite_self, ite_self]
      · have hiff : t'.DescendsFrom x y ↔ t.DescendsFrom x y :=
          ⟨fun hd => (descendsFrom_addSlot h hd).resolve_right fun hs => hzero (hnone y hs),
            DescendsFrom.addSlot h⟩
        simp only [hiff]
    rw [hsum]
    rw [hlookup] at hx
    by_cases hxs : x = slot
    · rw [if_pos hxs] at hx
      cases hx
      rw [joinedNode, hxs, descendantStake, eq_comm, UInt64.toNat_zero, Finset.sum_eq_zero_iff]
      exact fun y hy => hnone y (Finset.mem_filter.mp hy).2
    · rw [if_neg hxs] at hx
      obtain ⟨old, hold, rfl⟩ := map_eq_some_iff.mp hx
      rw [← hexact x old hold]
      split_ifs <;> rfl

/-! ### A vote -/

theorem descendsFrom_iff_of_walk (w : Walk t.up slot l) : t.DescendsFrom x slot ↔ x ∈ l := by
  rw [← w.reaches_iff]
  constructor
  · intro hdesc
    induction hdesc with
    | refl => exact .refl
    | @tail a b _ hab ih =>
      by_cases heq : b = a
      · exact heq ▸ ih
      · exact ih.tail (up_eq_some.mpr ⟨hab, heq⟩)
  · exact Relation.ReflTransGen.mono (fun a b hab => (up_eq_some.mp hab).1) _ _

theorem toNat_saturatingAdd_of_lt {a b : UInt64} (h : a.toNat + b.toNat < 2 ^ 64) :
    (Word.saturatingAdd a b).toNat = a.toNat + b.toNat := by
  rw [Word.saturatingAdd, Word.toNat_saturate]
  omega

/-- **A vote** whose stake fits keeps the weights exact. -/
theorem StakeExact.addVote (hexact : t.StakeExact)
    (hfits : t.WouldCount slot voter → t.votedStake + stake.toNat < 2 ^ 64)
    (h : t.addVote slot voter stake = .ok (counted, t')) : t'.StakeExact := by
  classical
  by_cases hcount : t.WouldCount slot voter
  swap
  · obtain ⟨-, rfl⟩ := Prod.mk.inj (Except.ok.inj (h.symm.trans (addVote_of_not_wouldCount hcount)))
    exact hexact
  have hfits := hfits hcount
  obtain ⟨l, w⟩ := walk_of_addVote hcount h
  have hparentOf := (sameLinks_addVote h).parentOf_eq
  obtain ⟨nodes, hok, hlookup⟩ := addVote_of_walk stake hcount w
  obtain ⟨-, rfl⟩ := Prod.mk.inj (Except.ok.inj (h.symm.trans hok))
  obtain ⟨-, snode, hsnode, -⟩ := hcount
  generalize ht' : ({ t with nodes, validatorToVotedSlot := t.validatorToVotedSlot.insert voter slot } :
    ForkTree) = t' at hparentOf
  have hnodes : t'.nodes = nodes := ht' ▸ rfl
  rw [← hnodes] at hlookup
  have hmem : slot ∈ t.nodes.keys := mem_keys.mpr (mem_iff.mpr ⟨snode, hsnode⟩)
  have hkeys : t'.nodes.keys = t.nodes.keys := by
    ext y
    rw [mem_keys, mem_keys, ← lookup_isSome, hlookup, isSome_map,
      lookup_isSome]
  have hvoted : t.stakeOn slot ≤ t.votedStake :=
    Finset.single_le_sum (f := t.stakeOn) (fun _ _ => Nat.zero_le _) hmem
  have hstake : ∀ y, t'.stakeOn y = t.stakeOn y + if y = slot then stake.toNat else 0 := by
    intro y
    have hkept : ∀ n : ForkNode, ((if y ∈ l then addWeight stake else id) n).stakeVoted
        = n.stakeVoted := by
      intro n
      split_ifs <;> rfl
    by_cases hy : y = slot
    · subst hy
      rw [stakeOn, hsnode, map_some, getD_some] at hvoted
      rw [stakeOn, hlookup, stakeOn, hsnode]
      simp only [map_some, getD_some, if_true]
      rw [hkept, addVoter, toNat_saturatingAdd_of_lt (by omega)]
    · rw [stakeOn, hlookup, map_map, stakeOn]
      simp only [hy, if_false, id_eq, Function.comp_def, hkept, add_zero]
  have hsame : t'.DescendsFrom = t.DescendsFrom := by
    funext y z
    rw [DescendsFrom, hparentOf]
    rfl
  have hsum : ∀ y, t'.descendantStake y
      = t.descendantStake y + if y ∈ l then stake.toNat else 0 := by
    intro y
    rw [descendantStake_eq_sum hkeys.subset, descendantStake_eq_sum subset_rfl, hsame,
      ← Finset.sum_ite_eq_of_mem t.nodes.keys slot (fun _ => if y ∈ l then stake.toNat else 0) hmem,
      ← Finset.sum_add_distrib]
    refine Finset.sum_congr rfl fun z _ => ?_
    rw [hstake]
    by_cases hz : z = slot
    · subst hz
      simp only [descendsFrom_iff_of_walk w, if_true]
      split_ifs <;> rfl
    · simp [hz, Ne.symm hz]
  intro x xnode hx
  rw [hlookup] at hx
  obtain ⟨old, hold, rfl⟩ := map_eq_some_iff.mp hx
  have hweight := hexact x old hold
  have hle := t.descendantStake_le x
  -- The voter does not change the weight of its node.
  have hnew : ((if x ∈ l then addWeight stake else id)
      ((if x = slot then addVoter voter stake else id) old)).subtreeStake
      = if x ∈ l then Word.saturatingAdd old.subtreeStake stake else old.subtreeStake := by
    split_ifs <;> rfl
  rw [hnew, hsum]
  split_ifs with hxl
  · rw [toNat_saturatingAdd_of_lt (by omega), hweight]
  · rw [hweight, add_zero]

/-! ### A new root -/

section Pruned

variable {ancestry : List UInt64} {reachable : Finset UInt64} (hlinked : t.Linked)
  (hroot : newRoot ∈ t.nodes) (hne : t.rootSlot ≠ newRoot) (w : Walk t.up newRoot ancestry)
  (hreach : ∀ x, x ∈ reachable ↔ t.Below newRoot x)
include hlinked hroot hne w hreach

/-- Among the slots that stay, a new root leaves the descendants as they are. -/
theorem Linked.descendsFrom_pruned (hx : t.Below newRoot x) (hy : t.Below newRoot y) :
    (t.pruned newRoot ancestry reachable).DescendsFrom x y ↔ t.DescendsFrom x y := by
  constructor
  · intro hdesc
    refine Relation.ReflTransGen.mono (fun a b hab => ?_) _ _ hdesc
    obtain ⟨node, hnode, hb⟩ := bind_eq_some_iff.mp hab
    obtain ⟨old, hold, rfl | ⟨-, rfl⟩⟩ := hlinked.lookup_pruned_old hroot hne w hreach hnode
    · exact bind_eq_some_iff.mpr ⟨node, hold, hb⟩
    · cases hb
  · intro hdesc
    induction hy with
    | refl =>
      -- The new root has no ancestor among what is below it.
      obtain ⟨lx, wx, hnew⟩ := hx.walk hlinked w
      obtain rfl := w.antisymm wx ((descendsFrom_iff_of_walk w).mp hdesc) hnew
      exact .refl
    | @tail z y hz hchild ih =>
      rcases Relation.ReflTransGen.cases_head hdesc with heq | ⟨z', hyz', hdesc⟩
      · exact heq ▸ .refl
      have hup := hlinked.listed z y hchild
      cases (up_eq_some.mp hup).1.symm.trans hyz'
      have hkept : (t.pruned newRoot ancestry reachable).up y = some z := by
        rw [hlinked.up_pruned hroot hne w hreach (hz.tail hchild), if_neg, hup]
        rintro rfl
        obtain ⟨lz, wz, hnew⟩ := Below.walk hlinked hz w
        exact (List.nodup_cons.mp (Walk.step hup wz).nodup).1 hnew
      exact .head (up_eq_some.mp hkept).1 (ih hdesc)

theorem Linked.stakeOn_pruned (y : UInt64) :
    (t.pruned newRoot ancestry reachable).stakeOn y = if y ∈ reachable then t.stakeOn y else 0 := by
  rw [stakeOn, hlinked.map_pruned hroot hne w hreach (fun _ => rfl)]
  split_ifs <;> rfl

/-- **A new root** leaves the weights exact if and only if no stake voted for its descendants that the
lists of children do not lead to. -/
theorem Linked.stakeExact_pruned_iff (hexact : t.StakeExact) :
    (t.pruned newRoot ancestry reachable).StakeExact ↔
      ∀ y, t.DescendsFrom newRoot y → ¬ t.Below newRoot y → t.stakeOn y = 0 := by
  classical
  have hmem := fun x => hlinked.mem_pruned hroot hne w hreach (x := x)
  have hkeys : (t.pruned newRoot ancestry reachable).nodes.keys ⊆ t.nodes.keys := by
    intro y hy
    rw [mem_keys] at hy ⊢
    exact ((hmem y).mp hy).mem hlinked hroot
  -- What a weight keeps of the stakes that are removed.
  have hsum : ∀ x, t.Below newRoot x → t.descendantStake x =
      (t.pruned newRoot ancestry reachable).descendantStake x +
        ∑ y ∈ t.nodes.keys, if t.DescendsFrom x y ∧ ¬ t.Below newRoot y then t.stakeOn y else 0 := by
    intro x hx
    rw [descendantStake_eq_sum hkeys, descendantStake_eq_sum subset_rfl, ← Finset.sum_add_distrib]
    refine Finset.sum_congr rfl fun y _ => ?_
    rw [hlinked.stakeOn_pruned hroot hne w hreach]
    by_cases hy : t.Below newRoot y
    · simp [hlinked.descendsFrom_pruned hroot hne w hreach hx hy, hy, hreach]
    · simp [hy, hreach]
  have hexact_iff : ∀ x node, (t.pruned newRoot ancestry reachable).nodes.lookup x = some node →
      (node.subtreeStake.toNat = (t.pruned newRoot ancestry reachable).descendantStake x ↔
        ∀ y ∈ t.nodes.keys, t.DescendsFrom x y → ¬ t.Below newRoot y → t.stakeOn y = 0) := by
    intro x node hnode
    have hx := (hmem x).mp (mem_iff.mpr ⟨node, hnode⟩)
    obtain ⟨old, hold, hsame⟩ := hlinked.lookup_pruned_old hroot hne w hreach hnode
    have hweight : node.subtreeStake = old.subtreeStake := by
      obtain rfl | ⟨-, rfl⟩ := hsame <;> rfl
    rw [hweight, hexact x old hold, hsum x hx, Nat.add_eq_left, Finset.sum_eq_zero_iff]
    simp only [ite_eq_right_iff, and_imp]
  constructor
  · intro hexact' y hdesc hnot
    obtain ⟨node, hnode⟩ := mem_iff.mp ((hmem newRoot).mpr .refl)
    have hzero := (hexact_iff newRoot node hnode).mp (hexact' newRoot node hnode)
    by_cases hy : y ∈ t.nodes
    · exact hzero y (mem_keys.mpr hy) hdesc hnot
    · exact stakeOn_of_notMem hy
  · intro hzero x node hnode
    refine (hexact_iff x node hnode).mpr fun y _ hdesc hnot => hzero y ?_ hnot
    have hx := (hmem x).mp (mem_iff.mpr ⟨node, hnode⟩)
    exact hdesc.trans (hx.descendsFrom hlinked)

end Pruned

/-! ### Runs -/

/-- The stake of a vote that would be counted fits beside the stake in the tree. -/
def Fits (t : ForkTree) : ForkCall → Prop
  | .addVote slot voter stake =>
    t.WouldCount slot voter → t.votedStake + stake.toNat < 2 ^ 64
  | _ => True

/-- The call adds no slot whose descendants have stake, and sets no root whose descendants with stake
the lists of children do not lead to. -/
def KeepsStake (t : ForkTree) : ForkCall → Prop
  | .addSlot slot _ _ _ => slot ∉ t.nodes → t.nodeCount < maxForkTreeNodes →
      ∀ y, t.DescendsFrom slot y → t.stakeOn y = 0
  | .setRoot newRoot => newRoot ∈ t.nodes → t.rootSlot < newRoot →
      ∀ y, t.DescendsFrom newRoot y → ¬ t.Below newRoot y → t.stakeOn y = 0
  | _ => True

theorem StakeExact.rewired (hexact : t.StakeExact) (h : Rewired t t') : t'.StakeExact := by
  have hsame : t'.DescendsFrom = t.DescendsFrom := by
    funext y z
    rw [DescendsFrom, h.parentOf_eq]
    rfl
  have hkeys : t'.nodes.keys = t.nodes.keys := by
    ext y
    rw [mem_keys, mem_keys, h.mem_iff]
  have hstake : ∀ y, t'.stakeOn y = t.stakeOn y := by
    intro y
    rw [stakeOn, h.map_eq (fun _ => rfl), stakeOn]
  intro x node hnode
  have hweight := h.map_eq (f := subtreeStake) (fun _ => rfl) x
  rw [hnode, map_some] at hweight
  obtain ⟨old, hold, hw⟩ := map_eq_some_iff.mp hweight.symm
  rw [descendantStake_congr hkeys hstake fun y _ _ => by rw [hsame], ← hexact x old hold, hw]

theorem Built.stakeExact_call_iff {c : ForkCall} (hb : t.Built) (hexact : t.StakeExact)
    (hfits : t.Fits c) (h : t.call c = some t') : t'.StakeExact ↔ t.KeepsStake c := by
  cases c with
  | addSlot slot parent blockHash bankHash =>
    rcases call_addSlot.mp h with hok | ⟨⟨e, herr⟩, rfl⟩
    · obtain ⟨hnew, hroom, -⟩ := addSlot_lookup hok
      rw [hexact.addSlot_iff hok]
      exact ⟨fun hzero _ _ => hzero, fun hkeeps => hkeeps hnew hroom⟩
    · refine iff_of_true hexact fun hnew hroom => ?_
      rw [ForkTree.addSlot, if_neg hnew, if_neg (not_le.mpr hroom)] at herr
      cases herr
  | addVote slot voter stake =>
    obtain ⟨counted, hok⟩ := call_addVote.mp h
    exact iff_of_true (hexact.addVote hfits hok) trivial
  | tryReconnectOrphans o =>
    obtain ⟨t₁, hok, -, hwired⟩ := hb.tryReconnectOrphans_ok o
    cases hok.symm.trans (exceptToOption_eq_some.mp h)
    exact iff_of_true (hexact.rewired hwired) trivial
  | setRoot newRoot =>
    rcases call_setRoot h with hok | ⟨hnot, rfl⟩
    · obtain ⟨hmem, ⟨hle, rfl⟩ | ⟨hlt, ancestry, reachable, w, hreach, rfl⟩⟩ := hb.setRoot_cases hok
      · exact iff_of_true hexact fun _ hlt => absurd hle (not_le.mpr hlt)
      · rw [hb.linked.stakeExact_pruned_iff hmem hlt.ne w hreach hexact]
        exact ⟨fun hzero _ _ => hzero, fun hkeeps => hkeeps hmem hlt⟩
    · exact iff_of_true hexact fun hmem => absurd hmem hnot
  | computeBestFork =>
    obtain ⟨best, -, hok⟩ := exceptBind_eq_ok.mp (exceptToOption_eq_some.mp h)
    cases hok
    exact iff_of_true hexact trivial

theorem stakeExact_new (rootSlot : UInt64) (blockHash bankHash : Hash) :
    (new rootSlot blockHash bankHash).StakeExact := by
  intro x node hnode
  obtain ⟨rfl, rfl⟩ := lookup_new hnode
  rw [descendantStake, eq_comm]
  refine Finset.sum_eq_zero fun y _ => ?_
  cases hy : (new x blockHash bankHash).nodes.lookup y with
  | none => rw [stakeOn, hy, map_none, getD_none]
  | some ynode =>
    obtain ⟨-, rfl⟩ := lookup_new hy
    rw [stakeOn, hy]
    rfl

end ForkTree

open ForkTree in
/-- **When the weights are exact.**  In runs whose votes fit, the weight of every node is the stake that
voted for it and for its descendants after every call exactly if every call of the run keeps the
stake. -/
theorem stakeExact_iff {rootSlot : UInt64} {blockHash bankHash : Hash} {calls : List ForkCall}
    {t : ForkTree} :
    Trace.Steps (fun t c t' => (t.call c = some t' ∧ t.Fits c) ∧ t'.StakeExact)
        (ForkTree.new rootSlot blockHash bankHash) calls t ↔
      Trace.Steps (fun t c t' => (t.call c = some t' ∧ t.Fits c) ∧ t.KeepsStake c)
        (ForkTree.new rootSlot blockHash bankHash) calls t := by
  refine Steps.and_iff (I := fun t => t.Built ∧ t.StakeExact) ?_ ?_
    ⟨built_new _ _ _, stakeExact_new _ _ _⟩
  · rintro t c t' ⟨hb, -⟩ ⟨hcall, -⟩ hexact
    exact ⟨hb.call hcall, hexact⟩
  · rintro t c t' ⟨hb, hexact⟩ ⟨hcall, hfits⟩
    exact hb.stakeExact_call_iff hexact hfits hcall

open ForkTree in
/-- Slot 2 is added before its parent 1 and voted for: slot 1 starts without that stake. -/
theorem late_parent_has_no_weight :
    ∃ t, Trace.Steps (fun t c t' => t.call c = some t' ∧ t.Fits c)
        (ForkTree.new 0 Hash.zero Hash.zero)
        [.addSlot 2 1 Hash.zero Hash.zero, .addVote 2 (Hash.repeated 7) 10,
          .addSlot 1 0 Hash.zero Hash.zero] t ∧
      t.parentOf 2 = some 1 ∧ t.stakeOn 2 = 10 ∧
      (t.nodes.lookup 1).map ForkNode.subtreeStake = some 0 ∧ ¬ t.StakeExact := by
  obtain ⟨t, ht, hparent, hstake, hweight⟩ :
      ∃ t, List.foldlM ForkTree.call (ForkTree.new 0 zero zero) [.addSlot 2 1 zero
          zero, .addVote 2 (repeated 7) 10, .addSlot 1 0 zero zero] = some t ∧
      t.parentOf 2 = some 1 ∧ t.stakeOn 2 = 10 ∧
      (t.nodes.lookup 1).map subtreeStake = some 0 := by decide +kernel
  obtain ⟨t₁, h₁, hrest⟩ := Steps.cons_iff.mp (Steps.of_foldlM ht)
  obtain ⟨t₂, h₂, hrest⟩ := Steps.cons_iff.mp hrest
  obtain ⟨t₃, h₃, hrest⟩ := Steps.cons_iff.mp hrest
  obtain rfl := Steps.nil_iff.mp hrest
  have hfits : t₁.Fits (.addVote 2 (repeated 7) 10) := by
    cases h₁
    exact fun _ => by decide +kernel
  refine ⟨t, .cons ⟨h₁, trivial⟩ (.cons ⟨h₂, hfits⟩ (.cons ⟨h₃, trivial⟩ (.nil _))), hparent, hstake,
    hweight, fun hexact => ?_⟩
  classical
  obtain ⟨node, hnode, hzero⟩ := map_eq_some_iff.mp hweight
  have hsum := hexact 1 node hnode
  rw [hzero, descendantStake, eq_comm, UInt64.toNat_zero, Finset.sum_eq_zero_iff] at hsum
  have hmem : (2 : UInt64) ∈ t.nodes.keys := mem_keys.mpr (mem_of_parentOf hparent)
  have hnone := hsum 2 (Finset.mem_filter.mpr ⟨hmem, .single hparent⟩)
  omega

end Nusantara

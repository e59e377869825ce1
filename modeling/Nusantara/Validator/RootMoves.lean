import Nusantara.Validator.Alignment

/-!
# Where the root goes

`try_advance_root` (`validator/src/fork_manager.rs`) is given a slot to make the root, and may choose
a lower one.  Two gates lower it: one for the parents of the blocks that are buffered, one for the
slots of the ancestry that other forks leave from.  A root that is more than thirty-two slots behind
is moved past both.

The second gate lowers the root to a slot of the ancestry.  The first lowers it to a number, one less
than the parent of a buffered block (`HeldBack`).  If that number is in the tree it is the root,
whatever fork it is on; if not, the root is the next lower slot of the best fork (`SnapsTo`).

A node that is not catching up looks at both gates.  There the number is below every slot that another
fork leaves from, so that there is one chain up to it, and the root stays on it.  A node that catches
up leaves the second gate out.

## Main results

* `ValidatorNode.rootStaysOnFork_iff`: the root stays on the proposed fork.
-/

namespace Nusantara

open Exec ReplayStage List ForkTree
open Hash (zero)
open Except (ok)

namespace ValidatorNode

variable {P : Platform} {n n' : ValidatorNode} {proposed slot parent limit root : UInt64}
  {catchingUp : Bool} {ancestry : List UInt64}

/-- A root that moves goes to an ancestor of the proposed slot that has the old root on its own
ancestry, in the tree before. -/
def RootStaysOnFork (P : Platform) (n : ValidatorNode) (proposed : UInt64) (catchingUp : Bool) :
    Prop :=
  ∀ n', ((tryAdvanceRoot P proposed catchingUp).run n = .ok () n' ∨
      ∃ e, (tryAdvanceRoot P proposed catchingUp).run n = .err e n') →
    n'.stage.forkTree.rootSlot ≠ n.stage.forkTree.rootSlot →
      n.stage.forkTree.OnAncestry n'.stage.forkTree.rootSlot proposed ∧
        n.stage.forkTree.OnAncestry n.stage.forkTree.rootSlot n'.stage.forkTree.rootSlot

/-! ### The gates -/

/-- The parents of the buffered blocks that are not too far below the proposed root. -/
def recentParents (n : ValidatorNode) (proposed : UInt64) : Set UInt64 :=
  {parent | Word.saturatingSub proposed orphanHorizon ≤ parent ∧
    ∃ slot block, n.orphanBlocks.lookup slot = some block ∧ block.header.parentSlot = parent}

/-- A recent slot on the ancestry of the proposed root that another fork leaves from. -/
def ForkPoint (n : ValidatorNode) (proposed slot : UInt64) : Prop :=
  ∃ ancestry, n.stage.forkTree.getAncestry proposed = .ok ancestry ∧
    slot ∈ ancestry.takeWhile (fun s => ¬ (s < n.stage.forkTree.rootSlot ∨
      s < Word.saturatingSub proposed orphanHorizon)) ∧
    ∃ node, n.stage.forkTree.getNode slot = some node ∧ ∃ child ∈ node.children, child ∉ ancestry

/-- A buffered block holds the root back to a number: the root could go higher, and nothing holds it
back to a lower one. -/
structure HeldBack (n : ValidatorNode) (proposed : UInt64) (catchingUp : Bool) (limit : UInt64) :
    Prop where
  parent : ∃ parent, IsLeast (n.recentParents proposed) parent ∧ limit = Word.saturatingSub parent 1
  above : n.stage.forkTree.rootSlot < limit
  below : limit < proposed
  near : proposed.toNat ≤ n.stage.forkTree.rootSlot.toNat + maxRootGap
  small : n.stage.forkTree.rootSlot.toNat + maxRootGap < 2 ^ 64
  branches : catchingUp = true ∨ ∀ slot, n.ForkPoint proposed slot → limit < slot

/-- A number stands for itself if it is in the tree, and otherwise for the next lower slot of the best
fork above the root. -/
def SnapsTo (n : ValidatorNode) (limit root : UInt64) : Prop :=
  root ∈ n.stage.forkTree.nodes ∧ (root = limit ∨ limit ∉ n.stage.forkTree.nodes ∧
    ∃ best, n.stage.forkTree.getAncestry n.stage.forkTree.bestSlot = .ok best ∧
      IsGreatest {s | s ∈ best ∧ n.stage.forkTree.rootSlot < s ∧ s ≤ limit} root)

theorem orphanGate_cases (n : ValidatorNode) (proposed : UInt64) :
    (n.recentParents proposed = ∅ ∧ n.orphanGate proposed = proposed) ∨
      ∃ parent, IsLeast (n.recentParents proposed) parent ∧
        n.orphanGate proposed = min proposed (Word.saturatingSub parent 1) := by
  have hmem : ∀ p, p ∈ (n.orphanBlocks.keys.ascending.filterMap fun slot =>
      (n.orphanBlocks.lookup slot).map fun b => b.header.parentSlot).filter
        (Word.saturatingSub proposed orphanHorizon ≤ ·) ↔ p ∈ n.recentParents proposed := by
    intro p
    simp only [mem_filter, mem_filterMap, Finset.mem_ascending, Option.map_eq_some_iff,
      decide_eq_true_eq, recentParents, Set.mem_ofPred_eq]
    constructor
    · rintro ⟨⟨slot, -, block, hblock, hp⟩, hrecent⟩
      exact ⟨hrecent, slot, block, hblock, hp⟩
    · rintro ⟨hrecent, slot, block, hblock, hp⟩
      have hbuffered : slot ∈ n.orphanBlocks := Finmap.mem_iff.mpr ⟨block, hblock⟩
      exact ⟨⟨slot, Finmap.mem_keys.mpr hbuffered, block, hblock, hp⟩, hrecent⟩
  unfold orphanGate
  dsimp only
  split
  case h_1 parent hmin =>
    obtain ⟨hin, hle⟩ := min?_eq_some_iff.mp hmin
    exact .inr ⟨parent, ⟨(hmem parent).mp hin, fun p hp => hle p ((hmem p).mpr hp)⟩, rfl⟩
  case h_2 hmin =>
    refine .inl ⟨Set.eq_empty_of_forall_notMem fun p hp => ?_, rfl⟩
    have hin := (hmem p).mpr hp
    rw [min?_eq_none_iff.mp hmin] at hin
    exact absurd hin not_mem_nil

/-- The second gate lowers the root to a fork point, or leaves it below all of them. -/
theorem branchGate_cases (safe : UInt64)
    (h : n.stage.forkTree.getAncestry proposed = .ok ancestry) :
    n.branchGate proposed safe ancestry ≤ safe ∧
      (n.ForkPoint proposed (n.branchGate proposed safe ancestry) ∨
        n.branchGate proposed safe ancestry = safe ∧
          ∀ slot, n.ForkPoint proposed slot → safe < slot) := by
  unfold branchGate
  dsimp only
  generalize hpoints : filter _ _ = points
  have hmem : ∀ s, s ∈ points ↔ n.ForkPoint proposed s := by
    intro s
    rw [← hpoints, mem_filter]
    unfold ForkPoint
    simp only [h, ok.injEq, exists_eq_left', Option.any_eq_true, any_eq_true,
      decide_eq_true_eq]
  have hmin : (safe :: points).min? = some (points.foldl min safe) := min?_cons'
  obtain ⟨hin, hle⟩ := min?_eq_some_iff.mp hmin
  refine ⟨hle safe mem_cons_self, ?_⟩
  by_cases hpoint : points.foldl min safe ∈ points
  · exact .inl ((hmem _).mp hpoint)
  · have hsafe := (mem_cons.mp hin).resolve_right hpoint
    refine .inr ⟨hsafe, fun s hs => ?_⟩
    rw [hsafe] at hle hpoint
    have hs := (hmem s).mpr hs
    exact lt_of_le_of_ne (hle s (mem_cons_of_mem _ hs)) fun heq => hpoint (heq ▸ hs)

theorem snapRoot_eq_ok_iff (hwf : n.stage.forkTree.WellFormed)
    (hlimit : n.stage.forkTree.rootSlot < limit) (hroot : n.stage.forkTree.rootSlot < root)
    (hmem : root ∈ n.stage.forkTree.nodes) : n.snapRoot limit = .ok root ↔ n.SnapsTo limit root := by
  unfold snapRoot SnapsTo
  obtain ⟨best, hbest⟩ := getAncestry_ok hwf n.stage.forkTree.bestSlot
  by_cases hin : limit ∈ n.stage.forkTree.nodes
  · simp [ForkTree.contains, hin, hmem, eq_comm]
  · have hne : root ≠ limit := fun heq => hin (heq ▸ hmem)
    simp only [ForkTree.contains, hin, decide_false, Bool.false_eq_true, not_false_eq_true, hlimit,
      and_self, if_true, hbest, hmem, hne, true_and, false_or, ok.injEq, exists_eq_left']
    change ok _ = ok root ↔ _
    rw [ok.injEq]
    constructor
    · intro hmax
      cases hcase : (best.filter fun s =>
          decide (s ≤ limit ∧ n.stage.forkTree.rootSlot < s)).max? with
      | none =>
        rw [hcase] at hmax
        exact absurd hmax hroot.ne
      | some r =>
        rw [hcase] at hmax
        obtain rfl := hmax
        obtain ⟨hr, hle⟩ := max?_eq_some_iff.mp hcase
        simp only [mem_filter, decide_eq_true_eq] at hr hle
        exact ⟨⟨hr.1, hr.2.2, hr.2.1⟩, fun s hs => hle s ⟨hs.1, hs.2.2, hs.2.1⟩⟩
    · rintro ⟨⟨hr, hlt, hle⟩, hup⟩
      have hmax : (best.filter fun s =>
          decide (s ≤ limit ∧ n.stage.forkTree.rootSlot < s)).max? = some root := by
        rw [max?_eq_some_iff]
        simp only [mem_filter, decide_eq_true_eq]
        exact ⟨⟨hr, hle, hlt⟩, fun s hs => hup ⟨hs.1, hs.2.2, hs.2.1⟩⟩
      rw [hmax, Option.getD_some]

/-! ### The choice -/

/-- The sum of the root and the largest gap, compared with the proposed root.  A sum that overflows
is below it, or it ends the process. -/
theorem not_forced {gap : ℕ} (hgap : P.wrapAdd 64 n.stage.forkTree.rootSlot.toNat maxRootGap = .ok gap)
    (habove : n.stage.forkTree.rootSlot < proposed) (hnot : ¬ gap < proposed.toNat) :
    proposed.toNat ≤ n.stage.forkTree.rootSlot.toNat + maxRootGap ∧
      n.stage.forkTree.rootSlot.toNat + maxRootGap < 2 ^ 64 := by
  have habove := UInt64.lt_iff_toNat_lt.mp habove
  have hroot := n.stage.forkTree.rootSlot.toNat_lt
  unfold Platform.wrapAdd at hgap
  unfold maxRootGap at *
  split_ifs at hgap with hsmall
  all_goals
    cases hgap
    omega

section

variable (hwf : n.stage.forkTree.WellFormed) (hproposed : proposed ∈ n.stage.forkTree.nodes)

include hwf hproposed

/-- The slot that is chosen is an ancestor of the proposed root, or what a buffered block holds the
root back to. -/
theorem chooseRoot_cases (hroot : root ∈ n.stage.forkTree.nodes)
    (h : n.chooseRoot P proposed catchingUp = .ok (some root)) :
    n.stage.forkTree.rootSlot < root ∧ (n.stage.forkTree.OnAncestry root proposed ∨
      ∃ limit, n.HeldBack proposed catchingUp limit ∧ n.SnapsTo limit root) := by
  obtain ⟨ancestry, w, -⟩ := hwf.walk proposed hproposed
  have hanc := ForkTree.getAncestry_eq_ok.mpr w
  unfold chooseRoot at h
  dsimp only at h
  split_ifs at h with hle
  · cases h
  have habove : n.stage.forkTree.rootSlot < proposed := not_le.mp hle
  obtain ⟨gap, hgap, h⟩ := exceptBind_eq_ok.mp h
  split_ifs at h with hforced
  · obtain rfl := Option.some.inj (ok.inj h)
    exact ⟨habove, .inl ((ForkTree.onAncestry_iff w).mpr w.head_mem)⟩
  obtain ⟨hnear, hsmall⟩ := not_forced hgap habove hforced
  obtain ⟨gated, hgated, h⟩ := exceptBind_eq_ok.mp h
  obtain ⟨snapped, hsnapped, h⟩ := exceptBind_eq_ok.mp h
  have h := ok.inj h
  split_ifs at h with hlt
  obtain rfl := Option.some.inj h
  refine ⟨hlt, ?_⟩
  -- A root that is gated to a slot of the ancestry is that slot.
  have hsame : gated ∈ ancestry → snapped = gated := by
    intro hin
    have hmem := hwf.mem_of_walk hproposed w gated hin
    unfold snapRoot at hsnapped
    simp only [ForkTree.contains, hmem, decide_true, not_true_eq_false, and_false, if_false,
      ok.injEq] at hsnapped
    exact hsnapped.symm
  by_cases hin : gated ∈ ancestry
  · exact .inl ((ForkTree.onAncestry_iff w).mpr (hsame hin ▸ hin))
  -- So the first gate has lowered the root, and the second has not.
  have hfirst : gated = n.orphanGate proposed ∧
      (catchingUp = true ∨ ∀ slot, n.ForkPoint proposed slot → gated < slot) := by
    unfold gatedRoot at hgated
    split_ifs at hgated with hcatching
    · exact ⟨(ok.inj hgated).symm, .inl hcatching⟩
    · rw [hanc] at hgated
      have hbranch : n.branchGate proposed (n.orphanGate proposed) ancestry = gated :=
        ok.inj hgated
      have hcases := (branchGate_cases (n.orphanGate proposed) hanc).2
      rw [hbranch] at hcases
      rcases hcases with ⟨ancestry', hanc', hpoint, -⟩ | ⟨heq, hlow⟩
      · obtain rfl := ok.inj (hanc.symm.trans hanc')
        exact absurd ((takeWhile_sublist _).subset hpoint) hin
      · exact ⟨heq, .inr (heq ▸ hlow)⟩
  have hne : gated ≠ proposed := fun heq => hin (heq ▸ w.head_mem)
  have hgatedAbove : n.stage.forkTree.rootSlot < gated := by
    by_contra hnot
    unfold snapRoot at hsnapped
    simp only [hnot, false_and, if_false, ok.injEq] at hsnapped
    exact hnot (hsnapped ▸ hlt)
  rcases orphanGate_cases n proposed with ⟨-, hgate⟩ | ⟨parent, hleast, hgate⟩
  · exact absurd (hfirst.1.trans hgate) hne
  · rw [← hfirst.1] at hgate
    rcases min_choice proposed (Word.saturatingSub parent 1) with hmin | hmin
    · exact absurd (hgate.trans hmin) hne
    · have hlimit := hgate.trans hmin
      have hlow : gated ≤ proposed := hgate ▸ min_le_left _ _
      refine .inr ⟨gated, ⟨⟨parent, hleast, hlimit⟩, hgatedAbove, lt_of_le_of_ne hlow hne, hnear,
        hsmall, hfirst.2⟩, ?_⟩
      exact (snapRoot_eq_ok_iff hwf hgatedAbove hlt hroot).mp hsnapped

/-- What a buffered block holds the root back to is chosen. -/
theorem chooseRoot_of_heldBack (hheld : n.HeldBack proposed catchingUp limit)
    (hsnaps : n.SnapsTo limit root) :
    n.stage.forkTree.rootSlot < root ∧ n.chooseRoot P proposed catchingUp = .ok (some root) := by
  obtain ⟨ancestry, w, -⟩ := hwf.walk proposed hproposed
  have hanc := getAncestry_eq_ok.mpr w
  have hroot : n.stage.forkTree.rootSlot < root := by
    rcases hsnaps.2 with rfl | ⟨-, best, -, hgreatest⟩
    · exact hheld.above
    · exact hgreatest.1.2.1
  refine ⟨hroot, ?_⟩
  obtain ⟨parent, hleast, hlimit⟩ := hheld.parent
  have hgate : n.orphanGate proposed = limit := by
    rcases orphanGate_cases n proposed with ⟨hempty, -⟩ | ⟨parent', hleast', hgate⟩
    · exact absurd (hempty ▸ hleast.1) (Set.notMem_empty parent)
    · rw [hgate, hleast'.unique hleast, ← hlimit, min_eq_right hheld.below.le]
  have hgated : n.gatedRoot proposed catchingUp = .ok limit := by
    unfold gatedRoot
    split_ifs with hcatching
    · rw [hgate]
    · rw [hanc, hgate]
      obtain ⟨hle, hpoint | ⟨heq, -⟩⟩ := branchGate_cases limit hanc
      · have hlow := (hheld.branches.resolve_left hcatching) _ hpoint
        exact absurd hle (not_le.mpr hlow)
      · exact congrArg ok heq
  unfold chooseRoot
  dsimp only
  rw [if_neg (not_le.mpr (hheld.above.trans hheld.below))]
  have hgap : P.wrapAdd 64 n.stage.forkTree.rootSlot.toNat maxRootGap
      = .ok (n.stage.forkTree.rootSlot.toNat + maxRootGap) := if_pos hheld.small
  refine exceptBind_eq_ok.mpr ⟨_, hgap, ?_⟩
  rw [if_neg (not_lt.mpr hheld.near)]
  refine exceptBind_eq_ok.mpr ⟨limit, hgated, exceptBind_eq_ok.mpr ⟨root, ?_, ?_⟩⟩
  · exact (snapRoot_eq_ok_iff hwf hheld.above hroot hsnaps.1).mpr hsnaps
  · rw [if_pos hroot]
    rfl

end

/-! ### The move -/

/-- A slot of the tree that is chosen becomes the root. -/
theorem tryAdvanceRoot_of_chosen (hwf : n.stage.forkTree.WellFormed)
    (hroot : root ∈ n.stage.forkTree.nodes) (hlt : n.stage.forkTree.rootSlot < root)
    (h : n.chooseRoot P proposed catchingUp = .ok (some root)) :
    ∃ n', (tryAdvanceRoot P proposed catchingUp).run n = .ok () n' ∧
      n'.stage.forkTree.rootSlot = root := by
  obtain ⟨tree, hset, -, ⟨hle, -⟩ | ⟨-, hmoved, -⟩⟩ := hwf.setRoot_ok hroot
  · exact absurd hle (not_le.mpr hlt)
  · rw [run_tryAdvanceRoot, h]
    simp only [advanceRoot, ForkTree.contains, hroot, decide_true, if_true, hset]
    exact ⟨_, rfl, hmoved⟩

/-- A root that has moved is a slot of the tree that was chosen. -/
theorem chosen_of_tryAdvanceRoot
    (h : (tryAdvanceRoot P proposed catchingUp).run n = .ok () n' ∨
      ∃ e, (tryAdvanceRoot P proposed catchingUp).run n = .err e n')
    (hmoved : n'.stage.forkTree.rootSlot ≠ n.stage.forkTree.rootSlot) :
    n'.stage.forkTree.rootSlot ∈ n.stage.forkTree.nodes ∧
      n.chooseRoot P proposed catchingUp = .ok (some n'.stage.forkTree.rootSlot) := by
  obtain ⟨hstage, -⟩ | ⟨new, tree, hchoice, hnew, hset, hstage⟩ := tryAdvanceRoot_cases h
  · exact absurd (by rw [hstage]) hmoved
  · rw [hstage] at hmoved ⊢
    obtain ⟨-, ⟨-, rfl⟩ | ⟨-, _, _, -, -, rfl⟩⟩ := setRoot_inv.mp hset
    · exact absurd rfl hmoved
    · exact ⟨hnew, hchoice⟩

/-- The root stays on its fork if what a buffered block can hold it back to is there. -/
theorem rootStaysOnFork_of_heldBack (hwf : n.stage.forkTree.WellFormed)
    (hproposed : proposed ∈ n.stage.forkTree.nodes)
    (h : ∀ limit root, n.HeldBack proposed catchingUp limit → n.SnapsTo limit root →
      n.stage.forkTree.OnAncestry root proposed) : RootStaysOnFork P n proposed catchingUp := by
  intro n' hrun hmoved
  obtain ⟨hroot, hchosen⟩ := chosen_of_tryAdvanceRoot hrun hmoved
  obtain ⟨l, w, hend⟩ := hwf.walk _ hroot
  refine ⟨?_, (onAncestry_iff w).mpr hend⟩
  obtain ⟨-, hon | ⟨limit, hheld, hsnaps⟩⟩ := chooseRoot_cases hwf hproposed hroot hchosen
  · exact hon
  · exact h limit _ hheld hsnaps

/-- **The root and the proposed fork.**  In a well-formed tree the root stays on the fork that was
proposed exactly if every slot that a buffered block can hold it back to is on that fork. -/
theorem rootStaysOnFork_iff (hwf : n.stage.forkTree.WellFormed)
    (hproposed : proposed ∈ n.stage.forkTree.nodes) :
    RootStaysOnFork P n proposed catchingUp ↔
      ∀ limit root, n.HeldBack proposed catchingUp limit → n.SnapsTo limit root →
        n.stage.forkTree.OnAncestry root proposed := by
  refine ⟨fun h limit root hheld hsnaps => ?_, rootStaysOnFork_of_heldBack hwf hproposed⟩
  obtain ⟨hlt, hchosen⟩ := chooseRoot_of_heldBack (P := P) hwf hproposed hheld hsnaps
  obtain ⟨n', hrun, rfl⟩ := tryAdvanceRoot_of_chosen hwf hsnaps.1 hlt hchosen
  exact (h n' (.inl hrun) hlt.ne').1

end ValidatorNode

/-! ### A root on another fork -/

namespace Sample

/-- A block for slot 6 whose parent has not arrived. -/
def orphan : Block := ⟨{ header with slot := 6, parentSlot := 5 }, [], []⟩

/-- Slots 4 and 7 are on slot 3, slot 10 is on slot 7, and a block waits for slot 5. -/
def withOrphan : Option ValidatorNode :=
  receive 3 0 [] (node wallets.stage) >>= receive 4 3 [] >>= receive 7 3 [] >>= receive 10 7 [] >>=
    fun n => ((ValidatorNode.replayOrBufferBlock (Platform.sample false) config id orphan).run n).okState

/-- A fresh node with a block on its root. -/
def oneBlock : ValidatorNode :=
  { node wallets.stage with
    stage := { wallets.stage with
      forkTree := ((new 0 zero zero).addSlot 3 0 zero zero).toOption.getD
        (new 0 zero zero) } }

end Sample

open Sample ValidatorNode in
/-- A node that catches up is to make slot 10 its root, and makes it slot 4. -/
theorem root_leaves_the_proposed_fork :
    ∃ n, withOrphan = some n ∧ 10 ∈ n.stage.forkTree.nodes ∧
      ¬ RootStaysOnFork (Platform.sample false) n 10 true := by
  obtain ⟨n, hn, hmem, hroot, hanc, ⟨⟩, n', hrun, hroot'⟩ :
      ∃ n, withOrphan = some n ∧ 10 ∈ n.stage.forkTree.nodes ∧ n.stage.forkTree.rootSlot = 0 ∧
      n.stage.forkTree.getAncestry 10 = .ok [10, 7, 3, 0] ∧
      ∃ r n', (tryAdvanceRoot .release 10 true).run n = .ok r n' ∧
      n'.stage.forkTree.rootSlot = 4 := by decide +kernel
  refine ⟨n, hn, hmem, fun h => ?_⟩
  obtain ⟨⟨ancestry, hanc', hon⟩, -⟩ := h n' (.inl hrun) (by rw [hroot, hroot']; decide)
  cases hanc.symm.trans hanc'
  rw [hroot'] at hon
  exact absurd hon (by decide)

open Sample ValidatorNode in
/-- With no buffered block the root goes along the proposed fork. -/
theorem root_stays_without_orphans : RootStaysOnFork (Platform.sample false) oneBlock 3 true := by
  have hadd : (new 0 zero zero).addSlot 3 0 zero zero
      = .ok oneBlock.stage.forkTree := by rfl
  have hroot : (0 : UInt64) ∈ (new 0 zero zero).nodes := by decide
  have hwf := (wellFormed_new 0 zero zero).addSlot hadd hroot
  refine (rootStaysOnFork_iff hwf (by decide)).mpr fun limit root hheld _ => ?_
  obtain ⟨parent, ⟨⟨-, slot, block, hblock, -⟩, -⟩, -⟩ := hheld.parent
  exact absurd hblock (by simp [oneBlock, node])

end Nusantara

import Mathlib.Data.List.Chain
import Nusantara.Consensus.Counting
import Nusantara.Consensus.ForkRoots

/-!
# Fork switches and lockouts

A vote in the tower is locked: until its lockout is over, the validator must not support a fork
without the slot of the vote, unless enough stake is on the other fork.  `check_fork_switch` asks
the tower before it plans to leave the fork of the tip (`consensus/src/replay_fork_switch.rs`), but
the tower compares numbers: a locked vote is in the way only if its slot is not below the best slot.
On which fork the slot is, nobody asks.

The stake that may outweigh a lockout is taken from the best slot, which is the end of the other
fork, and not from the slot where the fork begins.

## Main results

* `ReplayStage.checkForkSwitch_eq_some`: the plans that are made.
* `ReplayStage.checkForkSwitch_leadsToBest`: a plan is the path from the highest common ancestor.
* `ReplayStage.honoursLockouts_iff`: the stages whose plan honours the lockouts.
-/

namespace Nusantara

open Exec UInt64 Nat Hash List ForkTree

/-! ### The threshold -/

namespace Tower

/-- The stake is the share of the total that outweighs a lockout. -/
def HasSwitchThreshold (stake totalStake : UInt64) : Prop :=
  totalStake ≠ 0 ∧ switchThresholdPercentage.toNat * totalStake.toNat ≤ 100 * stake.toNat

instance (stake totalStake : UInt64) : Decidable (HasSwitchThreshold stake totalStake) :=
  inferInstanceAs (Decidable (_ ∧ _))

variable {stake stake' totalStake : UInt64}

theorem HasSwitchThreshold.mono (h : HasSwitchThreshold stake totalStake) (hle : stake ≤ stake') :
    HasSwitchThreshold stake' totalStake :=
  ⟨h.1, h.2.trans (mul_le_mul_left 100 (le_iff_toNat_le.mp hle))⟩

/-- The share that is cut to a word is not above the share. -/
theorem hasSwitchThreshold_of_check (h : checkSwitchThreshold stake totalStake = true) :
    HasSwitchThreshold stake totalStake := by
  obtain ⟨hne, hpct⟩ := of_decide_eq_true h
  refine ⟨hne, ?_⟩
  have hcut : switchThresholdPercentage.toNat ≤ stake.toNat * 100 / totalStake.toNat := by
    refine (le_iff_toNat_le.mp hpct).trans ?_
    rw [toNat_ofNat']
    exact mod_le _ _
  rw [mul_comm 100]
  exact (mul_le_mul_right _ hcut).trans (div_mul_le_self _ _)

end Tower

/-- The stake in the subtree of a slot; a slot that is not in the tree has none. -/
def ForkTree.weight (t : ForkTree) (slot : UInt64) : UInt64 :=
  ((t.getNode slot).map ForkNode.subtreeStake).getD 0

/-! ### Lower parents -/

namespace ForkTree

/-- Every parent is a lower slot. -/
def Descends (t : ForkTree) : Prop :=
  t.nodes.keys.ascending.all fun x => (t.parentOf x).all (· < x)

instance (t : ForkTree) : Decidable t.Descends := inferInstanceAs (Decidable (_ = true))

variable {t : ForkTree} {x y : UInt64} (h : t.Descends)

include h

theorem Descends.lt (hxy : t.parentOf x = some y) : y < x := by
  obtain ⟨node, hnode, -⟩ := Option.bind_eq_some_iff.mp hxy
  have hx := all_eq_true.mp h x
    (Finset.mem_ascending.mpr (Finmap.mem_keys.mpr (Finmap.mem_iff.mpr ⟨node, hnode⟩)))
  simpa [hxy] using hx

theorem Descends.le (hxy : t.DescendsFrom y x) : y ≤ x := by
  induction hxy with
  | refl => exact le_rfl
  | tail _ hz ih => exact (h.lt hz).le.trans ih

theorem Descends.acyclic : t.Acyclic := by
  intro x hx
  obtain ⟨y, hy, hyx⟩ := Relation.TransGen.head'_iff.mp hx
  exact absurd (h.lt hy) (h.le hyx).not_gt

end ForkTree

namespace ReplayStage

/-! ### The plans -/

/-- The fork of the best slot leaves the fork of the tip at a slot below the tip. -/
structure Forks (s : ReplayStage) (ancestry : List UInt64) (common : UInt64) : Prop where
  best : s.forkTree.getAncestry s.forkTree.bestSlot = .ok ancestry
  meets : ∃ tipAncestry, s.forkTree.getAncestry s.currentTip = .ok tipAncestry ∧
    ancestry.find? (· ∈ tipAncestry) = some common
  ne_tip : common ≠ s.currentTip

/-- The slots from the fork point, which is left out, up to the best slot. -/
def branch (ancestry : List UInt64) (common : UInt64) : List UInt64 :=
  (ancestry.takeWhile (· ≠ common)).reverse

/-- The stake on a branch: that of the subtree of its first slot. -/
def branchStake (s : ReplayStage) (slots : List UInt64) : UInt64 :=
  (slots.head?.map s.forkTree.weight).getD 0

variable {s : ReplayStage} {plan : ForkSwitchPlan} {ancestry : List UInt64} {common : UInt64}

theorem Forks.best_ne_tip (h : s.Forks ancestry common) : s.forkTree.bestSlot ≠ s.currentTip := by
  intro heq
  obtain ⟨tipAncestry, htip, hfind⟩ := h.meets
  cases h.best.symm.trans (heq ▸ htip)
  -- The ancestry of the tip meets itself at its first slot.
  have hcommon : common = s.forkTree.bestSlot := by
    cases getAncestry_eq_ok.mp h.best with
    | stop | step => simpa using hfind.symm
  exact h.ne_tip (hcommon.trans heq)

/-- **The plans that are made**: the best slot is on another fork than the tip, and the tower lets
the node go. -/
theorem checkForkSwitch_eq_some :
    s.checkForkSwitch = .ok (some plan) ↔
      ∃ ancestry common, s.Forks ancestry common ∧ s.maySwitch s.forkTree.bestSlot = true ∧
        plan = ⟨common, s.currentTip, branch ancestry common⟩ := by
  unfold checkForkSwitch
  dsimp only
  split_ifs with heq
  · simp only [Except.ok.injEq, reduceCtorEq, false_iff]
    rintro ⟨ancestry, common, hforks, -⟩
    exact hforks.best_ne_tip heq
  · simp only [exceptBind_eq_ok, pure, Except.pure, Except.ok.injEq]
    constructor
    · rintro ⟨ancestry, hbest, tipAncestry, htip, hplan⟩
      obtain ⟨common, hcommon, hplan⟩ := Option.bind_eq_some_iff.mp hplan
      obtain ⟨_, hguard, hplan⟩ := Option.bind_eq_some_iff.mp hplan
      have hgo : common ≠ s.currentTip ∧ s.maySwitch s.forkTree.bestSlot = true := by
        by_contra hnot
        rw [guard, if_neg hnot] at hguard
        cases hguard
      obtain ⟨hne, hmay⟩ := hgo
      exact ⟨ancestry, common, ⟨hbest, ⟨tipAncestry, htip, hcommon⟩, hne⟩, hmay,
        (Option.some.inj hplan).symm⟩
    · rintro ⟨ancestry, common, ⟨hbest, ⟨tipAncestry, htip, hcommon⟩, hne⟩, hmay, rfl⟩
      refine ⟨ancestry, hbest, tipAncestry, htip, ?_⟩
      simp [hcommon, guard, hne, hmay, branch]

/-! ### Paths -/

/-- A plan goes back from the tip to the highest slot from which both it and the best slot descend,
which is not the tip, and from there from parent to child up to the best slot. -/
structure LeadsToBest (s : ReplayStage) (plan : ForkSwitchPlan) : Prop where
  common : IsGreatest {x | s.forkTree.DescendsFrom x s.currentTip ∧
    s.forkTree.DescendsFrom x s.forkTree.bestSlot} plan.commonAncestor
  ne_tip : plan.commonAncestor ≠ s.currentTip
  rollbackFrom : plan.rollbackFrom = s.currentTip
  path : (plan.commonAncestor :: plan.replaySlots).IsChain fun x y =>
    s.forkTree.parentOf y = some x
  last : (plan.commonAncestor :: plan.replaySlots).getLast? = some s.forkTree.bestSlot

/-- Up to the first slot that is on the other ancestry, none is. -/
theorem branch_of_find? {tipAncestry : List UInt64}
    (h : ancestry.find? (· ∈ tipAncestry) = some common) : ∃ pre post,
      ancestry = pre ++ common :: post ∧ branch ancestry common = pre.reverse ∧
      common ∈ tipAncestry ∧ ∀ x ∈ pre, x ∉ tipAncestry := by
  obtain ⟨hmem, pre, post, rfl, hpre⟩ := find?_eq_some_iff_append.mp h
  have hmem : common ∈ tipAncestry := by simpa using hmem
  have hoff : ∀ x ∈ pre, x ∉ tipAncestry := by simpa using hpre
  refine ⟨pre, post, rfl, ?_, hmem, hoff⟩
  have hne : ∀ x ∈ pre, decide (x ≠ common) = true := by
    intro x hx
    exact decide_eq_true fun heq => hoff x hx (heq ▸ hmem)
  rw [branch, takeWhile_append_of_pos hne]
  simp

theorem checkForkSwitch_ok (h : s.forkTree.Acyclic) : ∃ found, s.checkForkSwitch = .ok found := by
  have hwalk : ∀ x, ∃ l, Walk s.forkTree.up x l := h.up_eq ▸ acyclic_iff.mp h
  obtain ⟨l, w⟩ := hwalk s.forkTree.bestSlot
  obtain ⟨l', w'⟩ := hwalk s.currentTip
  unfold checkForkSwitch
  dsimp only
  rw [getAncestry_eq_ok.mpr w, getAncestry_eq_ok.mpr w']
  split_ifs <;> exact ⟨_, rfl⟩

/-- **Fork-switch plans are paths**, if parents are lower slots; and there is none where the best
slot descends from the tip. -/
theorem checkForkSwitch_leadsToBest (h : s.forkTree.Descends) :
    (∀ plan, s.checkForkSwitch = .ok (some plan) → s.LeadsToBest plan) ∧
      (s.forkTree.DescendsFrom s.currentTip s.forkTree.bestSlot →
        s.checkForkSwitch = .ok none) := by
  have hplan : ∀ plan, s.checkForkSwitch = .ok (some plan) → s.LeadsToBest plan := by
    intro plan hplan
    obtain ⟨ancestry, common, ⟨hbest, ⟨tipAncestry, htip, hfind⟩, hne⟩, -, rfl⟩ :=
      checkForkSwitch_eq_some.mp hplan
    have w := h.acyclic.up_eq ▸ getAncestry_eq_ok.mp hbest
    have wtip := h.acyclic.up_eq ▸ getAncestry_eq_ok.mp htip
    obtain ⟨pre, post, rfl, hbranch, hmem, hoff⟩ := branch_of_find? hfind
    have hdown : (pre ++ common :: post).Pairwise (· > ·) :=
      (w.isChain.imp fun _ _ hup => h.lt hup).pairwise
    -- From the common ancestor on the ancestry goes down.
    refine ⟨⟨⟨wtip.reaches_iff.mpr hmem, w.reaches_iff.mpr (by simp)⟩, ?_⟩, hne, rfl, ?_, ?_⟩
    · rintro x ⟨hxtip, hxbest⟩
      rcases mem_append.mp (w.reaches_iff.mp hxbest) with hx | hx
      · exact absurd (wtip.reaches_iff.mp hxtip) (hoff x hx)
      · rcases mem_cons.mp hx with rfl | hx
        · exact le_rfl
        · exact ((pairwise_cons.mp (pairwise_append.mp hdown).2.1).1 x hx).le
    · have hchain : (pre ++ [common]).IsChain fun a b => s.forkTree.parentOf a = some b :=
        w.isChain.prefix ⟨post, by simp⟩
      simpa [hbranch] using isChain_reverse.mpr hchain
    · show (common :: branch _ common).getLast? = _
      have hrev : common :: pre.reverse = (pre ++ [common]).reverse := by simp
      rw [hbranch, hrev, getLast?_reverse]
      have hhead := w.head?_eq
      cases pre <;> simpa using hhead
  refine ⟨hplan, fun hdesc => ?_⟩
  obtain ⟨found, hfound⟩ := checkForkSwitch_ok h.acyclic
  cases found with
  | none => exact hfound
  | some plan =>
    -- The tip would be a common ancestor.
    obtain ⟨⟨⟨hcommon, -⟩, hgreatest⟩, hne, -⟩ := hplan plan hfound
    exact absurd (le_antisymm (h.le hcommon) (hgreatest ⟨.refl, hdesc⟩)) hne

/-! ### Lockouts -/

/-- The votes of the tower that are not on the ancestry of the best slot are no longer locked
there. -/
def Unlocked (s : ReplayStage) (ancestry : List UInt64) : Prop :=
  ∀ l ∈ s.tower.voteState.votes, l.slot ∉ ancestry →
    l.isLockedOutAtSlot s.forkTree.bestSlot = false

/-- A plan to switch is made only where no vote off the new fork is locked, or the branch that
leaves the common ancestor has the threshold of the stake. -/
def HonoursLockouts (s : ReplayStage) : Prop :=
  ∀ plan ancestry, s.checkForkSwitch = .ok (some plan) →
    s.forkTree.getAncestry s.forkTree.bestSlot = .ok ancestry →
      s.Unlocked ancestry ∨
        Tower.HasSwitchThreshold (s.branchStake plan.replaySlots) s.forkTree.totalActiveStake

/-- The locked votes that the code does not look at are on the ancestry of the best slot: those for
a lower slot, and all of them if the stake in its subtree is more than that on the whole branch. -/
def LowVotesOnFork (s : ReplayStage) (ancestry slots : List UInt64) : Prop :=
  ∀ l ∈ s.tower.voteState.votes, l.isLockedOutAtSlot s.forkTree.bestSlot = true →
    (l.slot < s.forkTree.bestSlot ∨ s.branchStake slots < s.forkTree.weight s.forkTree.bestSlot) →
      l.slot ∈ ancestry

theorem unlocked_iff : s.Unlocked ancestry ↔ ∀ l ∈ s.tower.voteState.votes,
    l.isLockedOutAtSlot s.forkTree.bestSlot = true → l.slot ∈ ancestry := by
  refine forall₂_congr fun l _ => ?_
  rw [← Bool.not_eq_true]
  exact not_imp_not

theorem Unlocked.lowVotesOnFork (h : s.Unlocked ancestry) (slots : List UInt64) :
    s.LowVotesOnFork ancestry slots :=
  fun l hl hlocked _ => unlocked_iff.mp h l hl hlocked

/-- Where the tower lets the node go, the votes it has not looked at decide. -/
theorem LowVotesOnFork.honours {slots : List UInt64} (h : s.LowVotesOnFork ancestry slots)
    (hmay : s.maySwitch s.forkTree.bestSlot = true) :
    s.Unlocked ancestry ∨
      Tower.HasSwitchThreshold (s.branchStake slots) s.forkTree.totalActiveStake := by
  by_cases hbranch :
      Tower.HasSwitchThreshold (s.branchStake slots) s.forkTree.totalActiveStake
  · exact .inr hbranch
  refine .inl (unlocked_iff.mpr fun l hl hlocked => h l hl hlocked ?_)
  rcases Bool.or_eq_true_iff.mp hmay with hlockout | hstake
  · -- No locked vote is at or above the best slot.
    refine .inl (Tower.checkVoteLockout_eq_ok.mp ?_ l hl hlocked)
    cases hcheck : s.tower.checkVoteLockout s.forkTree.bestSlot with
    | ok => rfl
    | error e =>
      rw [hcheck] at hlockout
      cases hlockout
  · -- The best slot has the threshold and the branch has not.
    obtain ⟨node, hnode, hcheck⟩ := (Option.any_eq_true _ _).mp hstake
    refine .inr (not_le.mp fun hle => hbranch ?_)
    refine (Tower.hasSwitchThreshold_of_check hcheck).mono (le_trans ?_ hle)
    rw [weight, hnode]
    exact le_refl _

/-- **Fork switches and lockouts.**  The lockouts are honoured exactly if, where the node may go to
another fork, the votes that the code does not look at are on that fork, or the branch has the
threshold. -/
theorem honoursLockouts_iff (s : ReplayStage) :
    s.HonoursLockouts ↔ ∀ ancestry common, s.Forks ancestry common →
      s.maySwitch s.forkTree.bestSlot = true →
        s.LowVotesOnFork ancestry (branch ancestry common) ∨
          Tower.HasSwitchThreshold (s.branchStake (branch ancestry common))
            s.forkTree.totalActiveStake := by
  constructor
  · intro h ancestry common hforks hmay
    have hplan := checkForkSwitch_eq_some.mpr ⟨ancestry, common, hforks, hmay, rfl⟩
    exact (h _ ancestry hplan hforks.best).imp_left fun hu => hu.lowVotesOnFork _
  · intro h plan ancestry hplan hanc
    obtain ⟨ancestry', common, hforks, hmay, rfl⟩ := checkForkSwitch_eq_some.mp hplan
    cases hanc.symm.trans hforks.best
    rcases h ancestry common hforks hmay with hlow | hbranch
    · exact hlow.honours hmay
    · exact .inr hbranch

end ReplayStage

/-! ### A vote that is left behind -/

namespace Sample

open ReplayStage

/-- A stage whose voter is `victim`, who has 10 of the stake; another validator has 20. -/
def lockedVoter (totalStake : UInt64) : ReplayStage :=
  { stage Storage.empty with
    authorizedVoter := victim
    bank := { bank Storage.empty with
      epochStakes := (Finmap.singleton victim 10).insert (repeated 8) 20 }
    forkTree := { new 0 Hash.zero Hash.zero with totalActiveStake := totalStake } }

/-- An empty block. -/
def emptyBlock (slot parentSlot : UInt64) (blockHash : Hash) : Block :=
  ⟨{ header with slot, parentSlot, blockHash }, [], []⟩

/-- Slot 2 brings the vote for slot 1; slot 3 beside them has the vote of the other validator, and
slot 4 goes on with the fork of the vote. -/
def rivalFork : List StageEvent :=
  [.block (hashed (repeated 1)) [] Hash.zero, .block voting [] Hash.zero,
    .gossip (repeated 8) 3 (repeated 3) 20,
    .block (emptyBlock 3 0 (repeated 3)) [] Hash.zero,
    .block (emptyBlock 4 2 (repeated 4)) [] Hash.zero]

/-- The stage plans to go to slot 3, with too little stake, while the vote for slot 1 is locked. -/
def leavesVote (s : ReplayStage) : Bool :=
  ∃ found, s.checkForkSwitch = .ok found ∧ ∃ plan, found = some plan ∧
    s.forkTree.getAncestry s.forkTree.bestSlot = .ok [3, 0] ∧
    ¬ Tower.HasSwitchThreshold (s.branchStake plan.replaySlots) s.forkTree.totalActiveStake ∧
    ∃ l ∈ s.tower.voteState.votes, l.slot = 1 ∧ l.isLockedOutAtSlot s.forkTree.bestSlot = true

theorem not_honoursLockouts {s : ReplayStage} (h : leavesVote s = true) : ¬ s.HonoursLockouts := by
  obtain ⟨found, hplan, plan, rfl, hanc, hstake, l, hl, hone, hlocked⟩ := of_decide_eq_true h
  intro hhonours
  rcases hhonours plan [3, 0] hplan hanc with hunlocked | hthreshold
  · have hmem := ReplayStage.unlocked_iff.mp hunlocked l hl hlocked
    rw [hone] at hmem
    exact absurd hmem (by decide)
  · exact hstake hthreshold

end Sample

open Sample ReplayStage in
theorem rival_fork_is_a_path : ∃ s, rivalFork.foldlM (next .release) (lockedVoter 0) = some s ∧
    s.forkTree.Descends ∧ s.checkForkSwitch = .ok (some ⟨0, 4, [3]⟩) ∧
      s.LeadsToBest ⟨0, 4, [3]⟩ := by
  obtain ⟨s, hs, hdescends, hplan⟩ : ∃ s, rivalFork.foldlM (next .release) (lockedVoter 0) = some s ∧
      s.forkTree.Descends ∧ s.checkForkSwitch = .ok (some ⟨0, 4, [3]⟩) := by decide +kernel
  exact ⟨s, hs, hdescends, hplan, (checkForkSwitch_leadsToBest hdescends).1 _ hplan⟩

open Sample ReplayStage in
/-- The plan is made if the tree has no total of the stake, as in a node, where it is never set, and
also if it has one of which the other fork has a fifth. -/
theorem switch_leaves_a_locked_vote :
    (∃ s, Trace.Steps (StageStep (Platform.sample false)) (lockedVoter 0) rivalFork s ∧
      ¬ s.HonoursLockouts) ∧
    ∃ s, Trace.Steps (StageStep (Platform.sample false)) (lockedVoter 100) rivalFork s ∧
      ¬ s.HonoursLockouts := by
  obtain ⟨⟨s, hs, hleaves⟩, s', hs', hleaves'⟩ :
      (∃ s, rivalFork.foldlM (next .release) (lockedVoter 0) = some s ∧
        leavesVote s = true) ∧
      ∃ s, rivalFork.foldlM (next .release) (lockedVoter 100) = some s ∧
        leavesVote s = true := by decide +kernel
  exact ⟨⟨s, (Trace.Steps.of_foldlM hs).mono fun _ _ _ => stageStep_of_next,
      not_honoursLockouts hleaves⟩,
    s', (Trace.Steps.of_foldlM hs').mono fun _ _ _ => stageStep_of_next,
      not_honoursLockouts hleaves'⟩

end Nusantara

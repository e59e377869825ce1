import Nusantara.Consensus.Lockouts
import Nusantara.Validator.Context

/-!
# Where a fork switch lands

`check_fork_switch` plans the way from the common ancestor of two forks to the best slot, and
`handle_fork_switch` goes it: the bank and the account index are rolled back to the common
ancestor, and the slots of the plan are replayed.  The slots of a plan are read off the tree, and
the loop passes over the slots that are in the tree.  So nothing is replayed: a switch ends where
the rollback has left the node.

A plan without slots would land on its target.  It needs a best slot below the tip, and
`compute_best_fork` goes down to a leaf.

## Main results

* `ReplayStage.checkForkSwitch_mem`: the slots of a plan are in the tree.
* `ValidatorNode.handleForkSwitch_eq_ok`: what a switch does.
* `ValidatorNode.lands_iff`: the switches that land on their target.
-/

namespace Nusantara

open Exec Storage ReplayStage List

/-! ### Rewinds to a slot -/

namespace Storage

variable {s : Storage} {slot maxSlot : UInt64} {a : Hash}

/-- The version that `find_latest_account_at_or_before` finds is stored. -/
theorem lookup_findLatestAccountAtOrBefore :
    (((s.findLatestAccountAtOrBefore a maxSlot).map Prod.fst).bind fun slot =>
      s.accounts.lookup (a, slot)) = s.getAccountAtSlot a maxSlot := by
  simp only [getAccountAtSlot, findLatestAccountAtOrBefore]
  cases greatest ((s.versionSlots a).filter (· ≤ maxSlot.toNat)) with
  | none => rfl
  | some n =>
    cases hlookup : s.accounts.lookup (a, UInt64.ofNat n) with
    | none | some account => simp [hlookup]

/-- What is read of an account after a rewind to a slot. -/
def readAtSlot (s : Storage) (slot : UInt64) (a : Hash) : Option Account :=
  (s.accountIndex.lookup a).bind fun current =>
    if slot < current then s.getAccountAtSlot a slot else s.accounts.lookup (a, current)

theorem Indexed.getAccount_rewindToSlot (hs : s.Indexed) (slot : UInt64) (a : Hash) :
    (s.rewindAccountIndexToSlot slot).getAccount a = s.readAtSlot slot a := by
  have hindex : (s.rewindAccountIndexToSlot slot).accountIndex.lookup a
      = (s.accountIndex.lookup a).bind (s.rewoundToSlot slot a) := lookup_rewindIndex
  rw [hs.rewindToSlot.getAccount_eq, hindex, readAtSlot, Option.bind_assoc]
  refine Option.bind_congr fun current _ => ?_
  unfold rewoundToSlot
  split_ifs
  · exact lookup_findLatestAccountAtOrBefore
  · rfl

end Storage

/-! ### Plans -/

namespace ReplayStage

variable {s : ReplayStage} {plan : ForkSwitchPlan} {slot : UInt64}

/-- **The slots of a plan are in the tree**, and the common ancestor is none of them. -/
theorem checkForkSwitch_mem (h : s.checkForkSwitch = .ok (some plan))
    (hslot : slot ∈ plan.replaySlots) :
    slot ∈ s.forkTree.nodes ∧ slot ≠ plan.commonAncestor := by
  obtain ⟨ancestry, common, ⟨hanc, ⟨tipAncestry, -, hfind⟩, -⟩, -, rfl⟩ :=
    checkForkSwitch_eq_some.mp h
  have hcommon := mem_of_find?_eq_some hfind
  rw [branch, mem_reverse] at hslot
  have hne : slot ≠ common := by
    have hmem := mem_takeWhile_imp hslot
    simpa using hmem
  refine ⟨?_, hne⟩
  -- The walk goes on from the slot, since it comes to the common ancestor.
  obtain ⟨l, w, hl⟩ := (ForkTree.getAncestry_eq_ok.mp hanc).of_mem_takeWhile hcommon hslot
  cases w with
  | stop => exact absurd (mem_singleton.mp hl).symm hne
  | step hup _ => exact ForkTree.mem_of_up hup

end ReplayStage

/-! ### Switches -/

namespace ValidatorNode

variable {P : Platform} {config : ValidatorConfig} {order : List ℕ → List ℕ} {n n' : ValidatorNode}
  {plan : ForkSwitchPlan}

/-- Slots of the tree are passed over. -/
theorem replaySwitch_of_mem {slots : List UInt64} (target : UInt64)
    (h : ∀ slot ∈ slots, slot ∈ n.stage.forkTree.nodes) :
    replaySwitch P config order target slots n = .ok (true, n) := by
  induction slots with
  | nil => rfl
  | cons slot slots ih =>
    obtain ⟨hslot, hslots⟩ := forall_mem_cons.mp h
    have hcontains : n.stage.forkTree.contains slot = true := by simpa [ForkTree.contains] using hslot
    rw [replaySwitch, if_pos hcontains]
    exact ih hslots

/-- **What a switch does.**  The bank and the index go back to the common ancestor, and the producer
gets another parent. -/
theorem handleForkSwitch_eq_ok (hplan : n.stage.checkForkSwitch = .ok (some plan)) {completed : Bool}
    (h : n.handleForkSwitch P config order plan = .ok (completed, n')) :
    completed = true ∧ ∃ clock producer, n' = { n with
      producer
      stage := { n.stage with bank := { n.stage.bank with
        currentSlot := plan.commonAncestor
        clock
        slotHashes := n.stage.bank.slotHashes.filter fun q => q.1 ≤ plan.commonAncestor
        storage := n.storage.rewindAccountIndexToSlot plan.commonAncestor } } } := by
  simp only [handleForkSwitch, exceptBind_eq_ok] at h
  obtain ⟨bank, hbank, ⟨done, n₁⟩, hloop, h⟩ := h
  obtain ⟨clock, rfl⟩ := ConsensusBank.rollbackToSlot_eq_ok hbank
  rw [replaySwitch_of_mem] at hloop
  case h => exact fun slot hslot => (checkForkSwitch_mem hplan hslot).1
  cases Except.ok.inj hloop
  rw [if_pos rfl] at h
  split at h
  all_goals
    cases Except.ok.inj h
    exact ⟨rfl, clock, _, rfl⟩

/-- The node is on a slot: the bank is at it with the hashes of its ancestry, and every account is
read as the ancestry sees it. -/
structure Lands (target : UInt64) (ancestry : List UInt64) (n : ValidatorNode) : Prop where
  ancestry_eq : n.stage.forkTree.getAncestry target = .ok ancestry
  currentSlot : n.stage.bank.currentSlot = target
  slotHashes : n.stage.bank.slotHashes = forkHashes ancestry n.stage
  accounts : ∀ a, n.storage.SeesOnFork ancestry.toFinset a (n.storage.getAccount a)

/-- **Where a fork switch lands.**  A switch that is completed puts the node on its target exactly if
there was nothing to replay, and the bank had the hashes of the target's ancestry, and the index,
where it names a later slot, has what the ancestry sees as the latest version up to the target. -/
theorem lands_iff (hs : n.storage.Indexed) (hplan : n.stage.checkForkSwitch = .ok (some plan))
    {ancestry : List UInt64} (hanc : n.stage.forkTree.getAncestry plan.target = .ok ancestry)
    (h : n.handleForkSwitch P config order plan = .ok (true, n')) :
    Lands plan.target ancestry n' ↔
      plan.replaySlots = [] ∧
        (n.stage.bank.slotHashes.filter fun q => q.1 ≤ plan.commonAncestor)
            = forkHashes ancestry n.stage ∧
          ∀ a, n.storage.SeesOnFork ancestry.toFinset a
            (n.storage.readAtSlot plan.commonAncestor a) := by
  obtain ⟨-, clock, producer, rfl⟩ := handleForkSwitch_eq_ok hplan h
  constructor
  · rintro ⟨-, hslot, hhashes, haccounts⟩
    refine ⟨?_, hhashes, fun a => ?_⟩
    · -- The bank is at the common ancestor, and the last slot of a plan is another one.
      by_contra hne
      have hlast : plan.target ∈ plan.replaySlots := by
        rw [ForkSwitchPlan.target, getLast?_eq_some_getLast hne]
        exact getLast_mem hne
      exact (checkForkSwitch_mem hplan hlast).2 hslot.symm
    · rw [← hs.getAccount_rewindToSlot]
      exact haccounts a
  · rintro ⟨hslots, hhashes, haccounts⟩
    refine ⟨hanc, ?_, hhashes, fun a => ?_⟩
    · simp [ForkSwitchPlan.target, hslots]
    · have ha := haccounts a
      rw [← hs.getAccount_rewindToSlot] at ha
      exact ha

end ValidatorNode

/-! ### A switch to a fork with a payment -/

namespace Sample

open ValidatorNode

/-- A stage at genesis in an epoch in which `victim` has stake. -/
def staked : ReplayStage :=
  { wallets.stage with bank :=
    { wallets.stage.bank with epochStakes := Finmap.singleton victim 10 } }

/-- The node after a gossip vote of `victim`. -/
def gossip (slot : UInt64) (hash : Hash) (n : ValidatorNode) : Option ValidatorNode :=
  (n.gossipVote victim slot hash).toOption

/-- The hash of the block at a slot of the tree. -/
def hashAt (slot : UInt64) (n : ValidatorNode) : Hash :=
  ((n.stage.forkTree.getNode slot).map ForkNode.blockHash).getD Hash.zero

/-- A payment in slot 1, which has the votes, and then an empty slot 2 beside it. -/
def forked : Option ValidatorNode := do
  let n ← receive 1 0 [payment] (node staked)
  let n ← gossip 1 (hashAt 1 n) n
  receive 2 0 [] n

end Sample

open Sample ValidatorNode in
/-- The node switches to slot 1 and is completed at slot 0: neither the slot nor the hashes nor the
payment are those of slot 1. -/
theorem switch_lands_on_the_ancestor :
    ∃ n plan n', forked = some n ∧ n.stage.checkForkSwitch = .ok (some plan) ∧
      n.handleForkSwitch (Platform.sample false) config id plan = .ok (true, n') ∧
        plan.target = 1 ∧ n'.stage.forkTree.getAncestry 1 = .ok [1, 0] ∧
        n'.stage.bank.currentSlot = 0 ∧
        n'.stage.bank.slotHashes ≠ forkHashes [1, 0] n'.stage ∧
        ¬ n'.storage.SeesOnFork {1, 0} (Hash.repeated 6) (n'.storage.getAccount (Hash.repeated 6)) := by
  obtain ⟨n, hn, found, hfound, plan, rfl, ⟨done, n'⟩, hn', rfl, htarget, hanc, hslot, hhashes,
      haccount⟩ :
      ∃ n, forked = some n ∧ ∃ found, n.stage.checkForkSwitch = .ok found ∧
      ∃ plan, found = some plan ∧
      ∃ r, n.handleForkSwitch .release config id plan = .ok r ∧ r.1 = true ∧
      plan.target = 1 ∧ r.2.stage.forkTree.getAncestry 1 = .ok [1, 0] ∧
      r.2.stage.bank.currentSlot = 0 ∧ r.2.stage.bank.slotHashes ≠ forkHashes [1, 0] r.2.stage ∧
      r.2.storage.getAccount (Hash.repeated 6) ≠ (r.2.storage.latestOnFork {1, 0} (Hash.repeated
          6)).bind fun slot => r.2.storage.accounts.lookup (Hash.repeated 6, slot) := by
    decide +kernel
  refine ⟨n, plan, n', hn, hfound, hn', htarget, hanc, hslot, hhashes, ?_⟩
  rwa [seesOnFork_iff (isLatest_latestOnFork (by decide))]

open Sample ValidatorNode in
/-- For that switch there was a slot to replay. -/
theorem switch_with_slots_does_not_land :
    ∃ n plan n', forked = some n ∧
      n.handleForkSwitch (Platform.sample false) config id plan = .ok (true, n') ∧
        ¬ Lands plan.target [1, 0] n' := by
  obtain ⟨n, hn, found, hfound, plan, rfl, ⟨done, n'⟩, hn', rfl, hs, hanc, hslots⟩ :
      ∃ n, forked = some n ∧ ∃ found, n.stage.checkForkSwitch = .ok found ∧
      ∃ plan, found = some plan ∧
      ∃ r, n.handleForkSwitch .release config id plan = .ok r ∧ r.1 = true ∧
      n.storage.Indexed ∧ n.stage.forkTree.getAncestry plan.target = .ok [1, 0] ∧
      plan.replaySlots ≠ [] := by decide +kernel
  exact ⟨n, plan, n', hn, hn', fun h => hslots ((lands_iff hs hfound hanc hn').mp h).1⟩

end Nusantara

import Nusantara.Validator.Context

/-!
# What a vote names

`submit_vote` (`validator/src/voting.rs`) votes for a slot that its caller names, the current slot
of the loop, whether there is a block for it or not.  The vote lists the numbers since the last vote,
up to thirty-two of them, and carries the hash that the bank has recorded for the slot, or the zero
hash.  The fork tree is not asked.

So a vote says what was replayed only if the slot is in the tree with the hash of the bank, and no
number since the last vote was skipped or is on another fork.

## Main results

* `ValidatorNode.mem_voteSlots`, `ValidatorNode.getLast?_voteSlots`: the slots of a vote.
* `ValidatorNode.votesForReplayed_iff`: the votes for what was replayed.
-/

namespace Nusantara

open Exec ReplayStage UInt64

namespace ValidatorNode

variable {n : ValidatorNode} {slot k : UInt64}

/-! ### The slots of a vote -/

/-- The first slot of a vote is at most thirty-one below the last, and above the last vote. -/
theorem voteStart_eq (n : ValidatorNode) (slot : UInt64) :
    max (Word.saturatingSub slot (maxVoteBatch - 1)).toNat (n.lastVotedSlot.toNat + 1)
      = max (slot.toNat - 31) (n.lastVotedSlot.toNat + 1) := by
  rw [Word.toNat_saturatingSub]
  rfl

/-- A vote lists the slots since the last vote, but no more than thirty-one before its last. -/
theorem mem_voteSlots :
    k ∈ n.voteSlots slot ↔ n.lastVotedSlot < k ∧ k ≤ slot ∧ slot.toNat ≤ k.toNat + 31 := by
  unfold voteSlots
  dsimp only
  rw [voteStart_eq, UInt64.lt_iff_toNat_lt, UInt64.le_iff_toNat_le]
  have hslot := slot.toNat_lt
  simp only [List.mem_map, List.mem_range'_1]
  constructor
  · rintro ⟨m, hm, rfl⟩
    have hsmall : m < 2 ^ 64 := by omega
    have hword : (UInt64.ofNat m).toNat = m := UInt64.toNat_ofNat_of_lt' hsmall
    omega
  · intro hk
    exact ⟨k.toNat, by omega, UInt64.ofNat_toNat⟩

theorem getLast?_voteSlots (h : n.lastVotedSlot < slot) :
    (n.voteSlots slot).getLast? = some slot := by
  unfold voteSlots
  dsimp only
  rw [voteStart_eq]
  have hlast := lt_iff_toNat_lt.mp h
  generalize hstart : max (slot.toNat - 31) (n.lastVotedSlot.toNat + 1) = start
  obtain ⟨m, hm⟩ : ∃ m, slot.toNat + 1 - start = m + 1 ∧ start + m = slot.toNat :=
    ⟨slot.toNat - start, by omega, by omega⟩
  rw [hm.1, List.range'_concat]
  simp [hm.2]

/-! ### Votes for what was replayed -/

/-- The hash that the bank has recorded for a slot, or the zero hash. -/
def recordedHash (n : ValidatorNode) (slot : UInt64) : Hash :=
  ((n.stage.bank.slotHashes.find? fun q => q.1 = slot).map Prod.snd).getD Hash.zero

theorem submitVote_eq (n : ValidatorNode) (slot : UInt64) (timestamp : Int64) :
    (n.submitVote slot timestamp).1 =
      if n.myVoteAccount.isNone ∨ slot ≤ n.lastVotedSlot then none
      else some
        { slots := n.voteSlots slot, hash := n.recordedHash slot, timestamp := some timestamp } := by
  unfold submitVote
  split_ifs <;> rfl

/-- A slot of the tree is an ancestor of another, and not the same. -/
def ProperAncestor (t : ForkTree) (k slot : UInt64) : Prop :=
  k ≠ slot ∧ k ∈ t.nodes ∧ t.OnAncestry k slot

/-- The vote that `submit_vote` publishes for a slot, if any, ends at a slot of the tree whose block
has the hash of the vote, and all its other slots are proper ancestors of that one. -/
def VotesForReplayed (n : ValidatorNode) (slot : UInt64) (timestamp : Int64) : Prop :=
  ∀ vote, (n.submitVote slot timestamp).1 = some vote →
    ∃ last, vote.slots.getLast? = some last ∧
      (n.stage.forkTree.getNode last).map ForkNode.blockHash = some vote.hash ∧
        ∀ k ∈ vote.slots, k ≠ last → ProperAncestor n.stage.forkTree k last

/-- The slot is in the tree under the hash that the bank has recorded for it, and every number since
the last vote, as far as a vote goes back, is an ancestor of it. -/
structure ReplayedSinceLast (n : ValidatorNode) (slot : UInt64) : Prop where
  hash : (n.stage.forkTree.getNode slot).map ForkNode.blockHash = some (n.recordedHash slot)
  noneSkipped : ∀ k, n.lastVotedSlot < k → k < slot → slot.toNat ≤ k.toNat + 31 →
    ProperAncestor n.stage.forkTree k slot

/-- **Votes for what was replayed.**  A node votes for what it has replayed exactly if it does not
vote at all, or the slot is in the tree under the hash of the bank and no number since the last vote
is off its chain. -/
theorem votesForReplayed_iff (n : ValidatorNode) (slot : UInt64) (timestamp : Int64) :
    n.VotesForReplayed slot timestamp ↔
      n.myVoteAccount.isNone ∨ slot ≤ n.lastVotedSlot ∨ n.ReplayedSinceLast slot := by
  unfold VotesForReplayed
  rw [submitVote_eq, ← or_assoc]
  by_cases hno : n.myVoteAccount.isNone ∨ slot ≤ n.lastVotedSlot
  · -- no vote is published
    refine ⟨fun _ => .inl hno, fun _ vote hvote => ?_⟩
    rw [if_pos hno] at hvote
    exact absurd hvote (Option.some_ne_none vote).symm
  · have hlast := getLast?_voteSlots (not_le.mp (not_or.mp hno).2)
    rw [if_neg hno]
    simp only [hno, false_or]
    constructor
    · intro h
      obtain ⟨last, hlast', hhash, hslots⟩ := h _ rfl
      cases hlast.symm.trans hlast'
      refine ⟨hhash, fun k hlow hlt hnear => hslots k ?_ hlt.ne⟩
      exact mem_voteSlots.mpr ⟨hlow, hlt.le, hnear⟩
    · rintro ⟨hhash, hnone⟩ vote hvote
      cases hvote
      refine ⟨slot, hlast, hhash, fun k hk hne => ?_⟩
      obtain ⟨hlow, hle, hnear⟩ := mem_voteSlots.mp hk
      exact hnone k hlow (lt_of_le_of_ne hle hne) hnear

end ValidatorNode

/-! ### Votes for nothing -/

namespace Sample

open ValidatorNode

/-- A node that votes. -/
def withVoteAccount (n : ValidatorNode) : ValidatorNode :=
  { n with myVoteAccount := some (Hash.repeated 7) }

end Sample

open Sample ValidatorNode in
/-- A fresh node votes for slot 1, for which it has no block.  After a block for slot 3 on slot 0 it
votes for the slots 1, 2 and 3. -/
theorem vote_for_nothing :
    ¬ (withVoteAccount (node wallets.stage)).VotesForReplayed 1 0 ∧
      ∃ n, receive 3 0 [] (withVoteAccount (node wallets.stage)) = some n ∧
        (n.submitVote 3 0).1.map Vote.slots = some [1, 2, 3] ∧ ¬ n.VotesForReplayed 3 0 := by
  constructor
  · intro h
    obtain ⟨last, hlast, hhash, -⟩ := h _ rfl
    cases (by decide : some (1 : UInt64) = _).trans hlast
    exact absurd hhash (by decide)
  · obtain ⟨n, hn, hslots, hanc⟩ :
        ∃ n, receive 3 0 [] (withVoteAccount (node wallets.stage)) = some n ∧
        (n.submitVote 3 0).1.map Vote.slots = some [1, 2, 3] ∧
        n.stage.forkTree.getAncestry 3 = .ok [3, 0] := by decide +kernel
    refine ⟨n, hn, hslots, fun h => ?_⟩
    obtain ⟨vote, hvote, hlist⟩ := Option.map_eq_some_iff.mp hslots
    obtain ⟨last, hlast, -, hall⟩ := h vote hvote
    rw [hlist] at hlast hall
    cases hlast
    obtain ⟨-, -, ancestry, hanc', hmem⟩ := hall 1 (by decide) (by decide)
    cases hanc.symm.trans hanc'
    exact absurd hmem (by decide)

end Nusantara

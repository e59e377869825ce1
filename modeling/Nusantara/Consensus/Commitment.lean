import Nusantara.Consensus.ForkTree

/-!
# Commitment

How much stake has voted for the block of each slot (`consensus/src/commitment.rs`).  The first
hash seen for a slot is the one that counts: votes for another hash of the same slot are ignored,
and so are further votes of a voter that has been counted.

## Main results

* `CommitmentTracker.newVoter_iff`: the voter that a vote adds to an entry, and when.
-/

namespace Nusantara

/-- `SUPERMAJORITY_THRESHOLD`, in percent. -/
def supermajorityThreshold : UInt64 := 66

/-- `MAX_TRACKED_SLOTS`. -/
def maxTrackedSlots : ℕ := 1024

/-- `SlotCommitment`. -/
structure SlotCommitment where
  slot : UInt64
  blockHash : Hash
  totalStakeVoted : UInt64
  commitment : CommitmentLevel
  /-- The voters that have been counted. -/
  votersSeen : Finset Hash
  deriving DecidableEq

/-- The entry of a slot nobody has voted for. -/
def SlotCommitment.new (slot : UInt64) (blockHash : Hash) : SlotCommitment :=
  { slot, blockHash, totalStakeVoted := 0, commitment := .processed, votersSeen := ∅ }

/-- `CommitmentTracker`. -/
structure CommitmentTracker where
  slots : Finmap fun _ : UInt64 => SlotCommitment
  totalActiveStake : UInt64
  highestConfirmed : UInt64
  highestFinalized : UInt64
  deriving DecidableEq

namespace CommitmentTracker

/-- `CommitmentTracker::new`. -/
def new (totalActiveStake : UInt64) : CommitmentTracker :=
  { slots := ∅, totalActiveStake, highestConfirmed := 0, highestFinalized := 0 }

variable (c : CommitmentTracker)

/-- `CommitmentTracker::update_total_stake`. -/
def updateTotalStake (totalActiveStake : UInt64) : CommitmentTracker := { c with totalActiveStake }

/-- The entry of a slot, or a new one. -/
def entry (slot : UInt64) (blockHash : Hash) : SlotCommitment :=
  (c.slots.lookup slot).getD (SlotCommitment.new slot blockHash)

/-- The loop that removes the oldest slots while there are more than `MAX_TRACKED_SLOTS`. -/
def evictOldest : CommitmentTracker :=
  let oldest := c.slots.keys.ascending.take (c.slots.keys.card - maxTrackedSlots)
  { c with slots := oldest.foldl (fun slots slot => slots.erase slot) c.slots }

/-- `CommitmentTracker::track_slot`. -/
def trackSlot (slot : UInt64) (blockHash : Hash) : CommitmentTracker :=
  { c with slots := c.slots.insert slot (c.entry slot blockHash) }.evictOldest

/-- The share of the active stake, in percent, as the code computes it: in `u128`, then cut to
`u64`. -/
def votedPercentage (e : SlotCommitment) : UInt64 :=
  UInt64.ofNat (e.totalStakeVoted.toNat * 100 / c.totalActiveStake.toNat)

/-- `CommitmentTracker::record_vote`: the level of the slot, and the tracker after the vote. -/
def recordVote (slot : UInt64) (blockHash voter : Hash) (stake : UInt64) :
    CommitmentLevel × CommitmentTracker :=
  let e := c.entry slot blockHash
  if e.blockHash ≠ blockHash ∨ voter ∈ e.votersSeen then
    (e.commitment, { c with slots := c.slots.insert slot e })
  else
    let e := { e with
      votersSeen := insert voter e.votersSeen
      totalStakeVoted := Word.saturatingAdd e.totalStakeVoted stake }
    if 0 < c.totalActiveStake ∧ supermajorityThreshold ≤ c.votedPercentage e ∧
        e.commitment ≠ .finalized then
      (.confirmed, { c with
        slots := c.slots.insert slot { e with commitment := .confirmed }
        highestConfirmed := max c.highestConfirmed slot })
    else (e.commitment, { c with slots := c.slots.insert slot e })

/-- `CommitmentTracker::mark_finalized`. -/
def markFinalized (slot : UInt64) : CommitmentTracker :=
  match c.slots.lookup slot with
  | none => c
  | some e => { c with
      slots := c.slots.insert slot { e with commitment := .finalized }
      highestFinalized := max c.highestFinalized slot }

/-- `CommitmentTracker::prune_below`. -/
def pruneBelow (slot : UInt64) : CommitmentTracker :=
  { c with slots := c.slots.retain fun k _ => slot ≤ k }

/-! ### What a vote changes -/

/-- The voter has been counted for the slot. -/
def HasVoter (slot : UInt64) (voter : Hash) : Prop :=
  ∃ e, c.slots.lookup slot = some e ∧ voter ∈ e.votersSeen

/-- A vote of the voter for this block would be counted: the slot has no entry yet, or an entry
for this block without the voter. -/
def WouldCount (slot : UInt64) (blockHash voter : Hash) : Prop :=
  ∀ e, c.slots.lookup slot = some e → e.blockHash = blockHash ∧ voter ∉ e.votersSeen

variable {c} {slot slot' : UInt64} {blockHash voter voter' : Hash} {stake : UInt64}

theorem mem_entry_votersSeen :
    voter ∈ (c.entry slot blockHash).votersSeen ↔ c.HasVoter slot voter := by
  unfold HasVoter entry
  cases c.slots.lookup slot <;> simp [SlotCommitment.new]

theorem hasVoter_insert {slots : Finmap fun _ : UInt64 => SlotCommitment} {e : SlotCommitment}
    {c' : CommitmentTracker} (h : c'.slots = slots.insert slot e) :
    c'.HasVoter slot' voter' ↔
      (slot' = slot ∧ voter' ∈ e.votersSeen) ∨
        (slot' ≠ slot ∧ ∃ e', slots.lookup slot' = some e' ∧ voter' ∈ e'.votersSeen) := by
  unfold HasVoter
  rw [h]
  by_cases hs : slot' = slot
  · subst hs
    simp
  · simp [Finmap.lookup_insert_of_ne _ hs, hs]

/-- What a vote makes of the entry of its slot. -/
theorem recordVote_slots :
    ∃ e, (c.recordVote slot blockHash voter stake).2.slots = c.slots.insert slot e ∧
      (∀ v, v ∈ e.votersSeen ↔
        c.HasVoter slot v ∨ (v = voter ∧ c.WouldCount slot blockHash voter)) := by
  have hw : c.WouldCount slot blockHash voter ↔ (c.entry slot blockHash).blockHash = blockHash ∧
      voter ∉ (c.entry slot blockHash).votersSeen := by
    unfold WouldCount entry
    cases c.slots.lookup slot <;> simp [SlotCommitment.new]
  have hold : ∀ v, v ∈ (c.entry slot blockHash).votersSeen ↔ c.HasVoter slot v :=
    fun _ => mem_entry_votersSeen
  unfold recordVote
  simp only
  split_ifs with hskip hconf
  · refine ⟨_, rfl, fun v => ?_⟩
    have hnot : ¬ c.WouldCount slot blockHash voter := by
      rw [hw]
      tauto
    rw [hold v]
    tauto
  all_goals
    refine ⟨_, rfl, fun v => ?_⟩
    have hyes : c.WouldCount slot blockHash voter := by
      rw [hw]
      tauto
    rw [Finset.mem_insert, hold v]
    tauto

/-- **The voter a vote adds.**  A vote adds its own voter to the entry of its own slot, and does
so exactly if it would be counted before. -/
theorem newVoter_iff :
    ¬ c.HasVoter slot' voter' ∧ (c.recordVote slot blockHash voter stake).2.HasVoter slot' voter' ↔
      slot' = slot ∧ voter' = voter ∧ c.WouldCount slot blockHash voter := by
  obtain ⟨e, hslots, he⟩ : ∃ e, (c.recordVote slot blockHash voter stake).2.slots =
      c.slots.insert slot e ∧ _ := recordVote_slots
  rw [hasVoter_insert hslots, he]
  have hnew : c.WouldCount slot blockHash voter → ¬ c.HasVoter slot voter := by
    rintro hw ⟨e', he', hv⟩
    exact (hw e' he').2 hv
  constructor
  · rintro ⟨hold, ⟨rfl, hv | ⟨rfl, hw⟩⟩ | ⟨-, hv⟩⟩
    · exact absurd hv hold
    · exact ⟨rfl, rfl, hw⟩
    · exact absurd hv hold
  · rintro ⟨rfl, rfl, hw⟩
    exact ⟨hnew hw, .inl ⟨rfl, .inr ⟨rfl, hw⟩⟩⟩

@[simp] theorem hasVoter_markFinalized :
    (c.markFinalized slot).HasVoter slot' voter' ↔ c.HasVoter slot' voter' := by
  unfold markFinalized
  split
  case h_1 => exact Iff.rfl
  case h_2 e he =>
    rw [hasVoter_insert rfl]
    by_cases hs : slot' = slot
    · subst hs
      simp [HasVoter, he]
    · simp [HasVoter, hs]

end CommitmentTracker

end Nusantara

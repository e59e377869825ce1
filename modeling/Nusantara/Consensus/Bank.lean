import Nusantara.Runtime.Helpers
import Nusantara.Storage.Ledger

/-!
# The bank

What the validator knows of the chain besides the accounts (`consensus/src/{bank,bank_state,
bank_sysvars}.rs`): the clock, the hashes of recent slots, the stakes of the epoch and the leaves
of the tree over all accounts.  The bank holds the store, which the executor, the block producer
and the replayer share with it.

The root of the state tree is computed from its leaves; the nodes the code keeps between two
computations are left out.
-/

namespace Nusantara

open Borsh Exec

/-- `FrozenBankState`. -/
structure FrozenBankState where
  slot : UInt64
  parentSlot : UInt64
  blockHash : Hash
  bankHash : Hash
  epoch : UInt64
  transactionCount : UInt64
  deriving DecidableEq

/-- `ConsensusBank`. -/
structure ConsensusBank where
  storage : Storage
  epochSchedule : EpochSchedule
  /-- The stake of each validator in the current epoch. -/
  epochStakes : Finmap fun _ : Hash => UInt64
  clock : Clock
  /-- The block hashes of recent slots, the latest first. -/
  slotHashes : List (UInt64 × Hash)
  currentSlot : UInt64
  /-- The leaves of the state tree. -/
  stateTree : Finmap fun _ : Hash => Hash
  deriving DecidableEq

/-- The hash of an account in the state tree. -/
def accountLeafHash (P : Platform) (q : Hash × Account) : Hash :=
  P.hash (asciiBytes "state_leaf" ++ q.1.asBytes ++ leBytes 8 q.2.lamports.toNat ++
    leBytes 4 q.2.data.length ++ q.2.data ++ q.2.owner.asBytes ++
    [if q.2.executable then 1 else 0] ++ leBytes 8 q.2.rentEpoch.toNat)

namespace ConsensusBank

/-- `MAX_SLOT_HASHES`. -/
def maxSlotHashes : ℕ := 512

variable (P : Platform) (b : ConsensusBank)

/-- `ConsensusBank::get_validator_stake`. -/
def getValidatorStake (validator : Hash) : UInt64 := (b.epochStakes.lookup validator).getD 0

/-- `ConsensusBank::advance_slot`. -/
def advanceSlot (slot : UInt64) (timestamp : Int64) : Except Fault ConsensusBank := do
  let epoch ← b.epochSchedule.getEpoch P slot
  return { b with currentSlot := slot, clock := { slot, epoch, unixTimestamp := timestamp } }

/-- `ConsensusBank::record_slot_hash`: the entry of the slot is replaced and becomes the first. -/
def recordSlotHash (slot : UInt64) (hash : Hash) : ConsensusBank :=
  { b with slotHashes :=
      ((slot, hash) :: b.slotHashes.eraseP fun q => q.1 = slot).take maxSlotHashes }

/-- `ConsensusBank::set_slot_hashes`. -/
def setSlotHashes (slotHashes : List (UInt64 × Hash)) : ConsensusBank := { b with slotHashes }

/-- `ConsensusBank::rollback_to_slot`. -/
def rollbackToSlot (slot : UInt64) : Except Fault ConsensusBank := do
  let b := { b with currentSlot := slot }
  let clock ← match b.storage.getBlockHeader slot with
    | some header => do
      let epoch ← b.epochSchedule.getEpoch P slot
      pure { slot, epoch, unixTimestamp := header.timestamp : Clock }
    | none => pure b.clock
  return { b with clock, slotHashes := b.slotHashes.filter fun q => q.1 ≤ slot }

/-- `ConsensusBank::compute_bank_hash`. -/
def computeBankHash (parentBankHash accountDeltaHash : Hash) : Hash :=
  P.hash (parentBankHash.asBytes ++ accountDeltaHash.asBytes)

/-- `ConsensusBank::freeze`. -/
def freeze (slot parentSlot : UInt64) (blockHash parentBankHash accountDeltaHash : Hash)
    (transactionCount : UInt64) : Except Fault FrozenBankState := do
  let epoch ← b.epochSchedule.getEpoch P slot
  let bankHash := computeBankHash P parentBankHash accountDeltaHash
  return { slot, parentSlot, blockHash, bankHash, epoch, transactionCount }

/-- `ConsensusBank::flush_to_storage`. -/
def flushToStorage (frozen : FrozenBankState) : ConsensusBank :=
  let storage := b.storage.putBankHash frozen.slot frozen.bankHash
  { b with storage := storage.putSlotHash frozen.slot frozen.blockHash }

/-- `ConsensusBank::update_state_tree`. -/
def updateStateTree (deltas : List (Hash × Account)) : ConsensusBank :=
  { b with stateTree := deltas.foldl (fun t q => t.insert q.1 (accountLeafHash P q)) b.stateTree }

/-- `ConsensusBank::state_root`. -/
def stateRoot : Hash :=
  merkleTreeRoot P (b.stateTree.keys.ascending.filterMap b.stateTree.lookup)

/-! ### What moves the bank -/

variable {P b} {b' : ConsensusBank} {slot : UInt64} {timestamp : Int64}

theorem rollbackToSlot_eq_ok (h : b.rollbackToSlot P slot = .ok b') :
    ∃ clock, b' = { b with
      currentSlot := slot, clock, slotHashes := b.slotHashes.filter fun q => q.1 ≤ slot } := by
  unfold rollbackToSlot at h
  dsimp only at h
  split at h
  case h_1 header _ =>
    obtain ⟨epoch, -, h⟩ := exceptBind_eq_ok.mp h
    exact ⟨_, (Except.ok.inj h).symm⟩
  case h_2 => exact ⟨_, (Except.ok.inj h).symm⟩

theorem advanceSlot_eq_ok (h : b.advanceSlot P slot timestamp = .ok b') :
    ∃ clock, b' = { b with currentSlot := slot, clock } := by
  obtain ⟨epoch, -, h⟩ := exceptBind_eq_ok.mp h
  exact ⟨_, (Except.ok.inj h).symm⟩

end ConsensusBank

end Nusantara

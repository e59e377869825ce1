import Nusantara.Lib.Collections
import Nusantara.Storage.Accounts

/-!
# Blocks and hashes in the store

The column families a validator keeps its chain in (`storage/src/{block,bank}.rs`), and the
rewinds of the account index to an earlier slot and to the versions of one fork
(`storage/src/account_index.rs`).
-/

namespace Nusantara

namespace Storage

variable (P : Platform) (s : Storage)

/-! ### Blocks -/

/-- `get_block_header`. -/
def getBlockHeader (slot : UInt64) : Option BlockHeader := s.blockHeaders.lookup slot

/-- `has_block_header`. -/
def hasBlockHeader (slot : UInt64) : Bool := slot ∈ s.blockHeaders

/-- `get_block`. -/
def getBlock (slot : UInt64) : Option Block := s.blocks.lookup slot

/-- `put_block`. -/
def putBlock (block : Block) : Storage :=
  { s with
    blockHeaders := s.blockHeaders.insert block.header.slot block.header
    blocks := s.blocks.insert block.header.slot block }

/-- The address entries of a transaction that `delete_block` removes: one for each account key. -/
def deleteSignatures (slot : UInt64) (txIndex : ℕ) (keys : List Hash) : Storage :=
  { s with addressSignatures :=
      keys.foldl (fun m a => m.erase (a, slot, UInt32.ofNat txIndex)) s.addressSignatures }

/-- The entries of a transaction that `delete_block` removes. -/
def deleteTransaction (slot : UInt64) (tx : Transaction × ℕ) : Storage :=
  { s with transactions := s.transactions.erase (tx.1.hash P) }.deleteSignatures slot tx.2
    tx.1.message.accountKeys

/-- `delete_block`. -/
def deleteBlock (slot : UInt64) : Storage :=
  let s' := { s with
    blockHeaders := s.blockHeaders.erase slot
    blocks := s.blocks.erase slot }
  match s.getBlock slot with
  | none => s'
  | some block => block.transactions.zipIdx.foldl (fun s tx => s.deleteTransaction P slot tx) s'

/-- What a deleted block takes with it: the statuses of its transactions, whatever slot has recorded
them, and address entries of its own slot. -/
theorem deleteBlock_eq (slot : UInt64) : ∃ signatures,
    s.deleteBlock P slot = { s with
      blockHeaders := s.blockHeaders.erase slot
      blocks := s.blocks.erase slot
      transactions := (((s.getBlock slot).elim [] Block.transactions).map (·.hash P)).foldl
        (fun m hash => m.erase hash) s.transactions
      addressSignatures := signatures } ∧
    ∀ a k i, k ≠ slot → signatures.lookup (a, k, i) = s.addressSignatures.lookup (a, k, i) := by
  have hall : ∀ (txs : List Transaction) (start : ℕ) (s : Storage), ∃ signatures,
      (txs.zipIdx start).foldl (fun s tx => s.deleteTransaction P slot tx) s = { s with
        transactions := (txs.map (·.hash P)).foldl (fun m hash => m.erase hash) s.transactions
        addressSignatures := signatures } ∧
      ∀ a k i, k ≠ slot → signatures.lookup (a, k, i) = s.addressSignatures.lookup (a, k, i) := by
    intro txs
    induction txs with
    | nil => exact fun _ s => ⟨_, rfl, fun _ _ _ _ => rfl⟩
    | cons tx txs ih =>
      intro start s
      obtain ⟨signatures, heq, hsame⟩ := ih (start + 1) (s.deleteTransaction P slot (tx, start))
      refine ⟨signatures, heq, fun a k i hk => (hsame a k i hk).trans ?_⟩
      refine List.foldlRecOn tx.message.accountKeys _
        (motive := fun m : Finmap fun _ : Hash × UInt64 × UInt32 => Hash =>
          m.lookup (a, k, i) = s.addressSignatures.lookup (a, k, i)) rfl fun m hm b _ => ?_
      rw [Finmap.lookup_erase_ne fun heq => hk (Prod.mk.inj (Prod.mk.inj heq).2).1, hm]
  unfold deleteBlock
  cases s.getBlock slot with
  | none => exact ⟨_, rfl, fun _ _ _ _ => rfl⟩
  | some block => exact hall block.transactions 0 _

/-! ### Hashes and roots -/

/-- `put_bank_hash`. -/
def putBankHash (slot : UInt64) (hash : Hash) : Storage :=
  { s with bankHashes := s.bankHashes.insert slot hash }

/-- `put_slot_hash`. -/
def putSlotHash (slot : UInt64) (hash : Hash) : Storage :=
  { s with slotHashes := s.slotHashes.insert slot hash }

/-- `set_root`. -/
def setRoot (slot : UInt64) : Storage := { s with roots := insert slot s.roots }

/-- The slots with a hash at or below a bound, the highest first. -/
def hashedSlots (maxSlot : UInt64) : List UInt64 :=
  (s.slotHashes.keys.filter (· ≤ maxSlot)).ascending.reverse

/-- `get_recent_slot_hashes_below`. -/
def getRecentSlotHashesBelow (maxSlot : UInt64) (limit : ℕ) : List (UInt64 × Hash) :=
  ((s.hashedSlots maxSlot).take limit).filterMap fun slot =>
    (s.slotHashes.lookup slot).map fun h => (slot, h)

/-! ### Rewind -/

/-- The lowest of the ancestor slots: what was written up to it counts as rooted. -/
def rootOf (ancestors : Finset UInt64) : UInt64 := ancestors.ascending.headD 0

/-- The latest version of an account that is rooted or on the fork. -/
def latestOnFork (ancestors : Finset UInt64) (address : Hash) : Option UInt64 :=
  (greatest ((s.versionSlots address).filter fun n =>
    n ≤ (rootOf ancestors).toNat ∨ UInt64.ofNat n ∈ ancestors)).map UInt64.ofNat

/-- The index entry of an account after a rewind to the versions of a fork. -/
def rewoundIndex (ancestors : Finset UInt64) (address : Hash) (current : UInt64) :
    Option UInt64 :=
  if current ≤ rootOf ancestors ∨ current ∈ ancestors then some current
  else s.latestOnFork ancestors address

/-- The index entry of an account after a rewind to a slot, whatever fork it is on. -/
def rewoundToSlot (maxSlot : UInt64) (address : Hash) (current : UInt64) : Option UInt64 :=
  if maxSlot < current then (s.findLatestAccountAtOrBefore address maxSlot).map Prod.fst
  else some current

/-- What a rewind does to one entry of the index, given the slot the entry is to name; it is
decided by the index before the rewind. -/
def rewindEntry (target : Hash → UInt64 → Option UInt64)
    (index : Finmap fun _ : Hash => UInt64) (address : Hash) : Finmap fun _ : Hash => UInt64 :=
  match s.accountIndex.lookup address with
  | none => index
  | some current => match target address current with
    | some slot => index.insert address slot
    | none => index.erase address

/-- The pass of a rewind over all entries of the account index. -/
def rewindIndex (target : Hash → UInt64 → Option UInt64) : Storage :=
  { s with accountIndex :=
      s.accountIndex.keys.ascending.foldl (s.rewindEntry target) s.accountIndex }

/-- `rewind_account_index_to_slot`.  The count it returns is only logged. -/
def rewindAccountIndexToSlot (maxSlot : UInt64) : Storage :=
  s.rewindIndex (s.rewoundToSlot maxSlot)

/-- `rewind_account_index_for_ancestry`.  The count it returns is only logged. -/
def rewindAccountIndexForAncestry (ancestors : Finset UInt64) : Storage :=
  s.rewindIndex (s.rewoundIndex ancestors)

end Storage

end Nusantara

import Mathlib.Data.Finmap
import Mathlib.Data.Finset.Lattice.Fold
import Mathlib.Order.Lattice.Nat
import Nusantara.Core.Block

/-!
# The store

The store and what execution does to it (`storage/src/{account_index,owner_index,transaction,
write_batch}.rs`).  A column family is a finite map from typed keys to typed values: the keys of
the store are concatenations of fields of fixed width, and the values are Borsh encodings, so
neither loses anything.  The column families of blocks and hashes are read and written in
`Storage.Ledger`.

An account is stored in one version per slot.  The account index names the slot of the version in
force, and a read returns the latest version at or before that slot.
-/

namespace Nusantara

/-- How a transaction ended. -/
inductive TransactionStatus where
  | success
  | failed (text : String)
  deriving DecidableEq

/-- What is recorded about a transaction. -/
structure TransactionStatusMeta where
  slot : UInt64
  status : TransactionStatus
  fee : UInt64
  preBalances : List UInt64
  postBalances : List UInt64
  computeUnitsConsumed : ℕ
  deriving DecidableEq

/-- The store. -/
structure Storage where
  /-- `CF_ACCOUNTS`: the version of an account written in a slot. -/
  accounts : Finmap fun _ : Hash × UInt64 => Account
  /-- `CF_ACCOUNT_INDEX`: the slot of the version in force. -/
  accountIndex : Finmap fun _ : Hash => UInt64
  /-- `CF_OWNER_INDEX`: the pairs of an owner and an address. -/
  ownerIndex : Finmap fun _ : Hash × Hash => Unit
  /-- `CF_PROGRAM_INDEX`. -/
  programIndex : Finmap fun _ : Hash × Hash => Unit
  /-- `CF_TRANSACTIONS`: the record of a transaction, by its hash. -/
  transactions : Finmap fun _ : Hash => TransactionStatusMeta
  /-- `CF_ADDRESS_SIGNATURES`: the transaction that changed an address, by slot and index. -/
  addressSignatures : Finmap fun _ : Hash × UInt64 × UInt32 => Hash
  /-- `CF_BLOCKS`: the headers of blocks, by slot. -/
  blockHeaders : Finmap fun _ : UInt64 => BlockHeader
  /-- The full blocks in `CF_DEFAULT`, by slot. -/
  blocks : Finmap fun _ : UInt64 => Block
  /-- `CF_BANK_HASHES`. -/
  bankHashes : Finmap fun _ : UInt64 => Hash
  /-- `CF_SLOT_HASHES`: the hash of the block of a slot. -/
  slotHashes : Finmap fun _ : UInt64 => Hash
  /-- `CF_ROOTS`: the finalized slots. -/
  roots : Finset UInt64
  deriving DecidableEq

namespace Storage

/-- A store without entries. -/
def empty : Storage := ⟨∅, ∅, ∅, ∅, ∅, ∅, ∅, ∅, ∅, ∅, ∅⟩

/-! ### Reads -/

/-- The greatest element, if there is one. -/
def greatest (slots : Finset ℕ) : Option ℕ :=
  match slots.sup (· + 1) with
  | 0 => none
  | n + 1 => some n

variable (s : Storage)

/-- The slots of the stored versions of an account. -/
def versionSlots (address : Hash) : Finset ℕ :=
  (s.accounts.keys.filter fun k => k.1 = address).image fun k => k.2.toNat

/-- `find_latest_account_at_or_before`. -/
def findLatestAccountAtOrBefore (address : Hash) (maxSlot : UInt64) :
    Option (UInt64 × Account) := do
  let n ← greatest ((s.versionSlots address).filter (· ≤ maxSlot.toNat))
  let account ← s.accounts.lookup (address, UInt64.ofNat n)
  return (UInt64.ofNat n, account)

/-- `get_account_at_slot`. -/
def getAccountAtSlot (address : Hash) (slot : UInt64) : Option Account :=
  (s.findLatestAccountAtOrBefore address slot).map Prod.snd

/-- `get_account`: the version in force. -/
def getAccount (address : Hash) : Option Account := do
  let slot ← s.accountIndex.lookup address
  s.getAccountAtSlot address slot

/-! ### Writes -/

/-- An operation of a write batch. -/
inductive BatchOp where
  | putAccount (address : Hash) (slot : UInt64) (account : Account)
  | putAccountIndex (address : Hash) (slot : UInt64)
  | putOwner (owner address : Hash)
  | deleteOwner (owner address : Hash)
  | putProgram (owner address : Hash)
  | deleteProgram (owner address : Hash)
  | putTransaction (txHash : Hash) (info : TransactionStatusMeta)
  | putAddressSignature (address : Hash) (slot : UInt64) (txIndex : UInt32) (txHash : Hash)
  deriving DecidableEq

/-- `StorageWriteBatch`. -/
abbrev WriteBatch := List BatchOp

/-- The effect of one operation. -/
def apply : BatchOp → Storage
  | .putAccount address slot account =>
    { s with accounts := s.accounts.insert (address, slot) account }
  | .putAccountIndex address slot =>
    { s with accountIndex := s.accountIndex.insert address slot }
  | .putOwner owner address => { s with ownerIndex := s.ownerIndex.insert (owner, address) () }
  | .deleteOwner owner address => { s with ownerIndex := s.ownerIndex.erase (owner, address) }
  | .putProgram owner address =>
    { s with programIndex := s.programIndex.insert (owner, address) () }
  | .deleteProgram owner address =>
    { s with programIndex := s.programIndex.erase (owner, address) }
  | .putTransaction txHash info =>
    { s with transactions := s.transactions.insert txHash info }
  | .putAddressSignature address slot txIndex txHash =>
    { s with addressSignatures := s.addressSignatures.insert (address, slot, txIndex) txHash }

/-- `Storage::write`: the operations of a batch take effect in order. -/
def write (batch : WriteBatch) : Storage := batch.foldl apply s

/-- `write_index_updates`: the index entries that follow the owner of an account. -/
def indexUpdates (address : Hash) (old : Option Account) (new : Account) : WriteBatch :=
  if old.map Account.owner = some new.owner then []
  else
    (match old with
      | some a => [.deleteOwner a.owner address, .deleteProgram a.owner address]
      | none => []) ++
      [.putOwner new.owner address, .putProgram new.owner address]

/-- `append_account_write_with_old`: a new version of an account whose old state is known. -/
def accountWrite (address : Hash) (slot : UInt64) (account : Account) (old : Option Account) :
    WriteBatch :=
  [.putAccount address slot account, .putAccountIndex address slot] ++
    indexUpdates address old account

/-- `put_account`. -/
def putAccount (address : Hash) (slot : UInt64) (account : Account) : Storage :=
  s.write (accountWrite address slot account (s.getAccount address))

end Storage

end Nusantara

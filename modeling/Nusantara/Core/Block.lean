import Mathlib.Data.Nat.Log
import Nusantara.Core.Transaction

/-!
# Blocks, signed batches and epochs

Blocks and their headers (`core/src/block.rs`), batches of messages under one signature
(`core/src/batch_transaction.rs`), the Merkle trees behind both (`crypto/src/merkle.rs`), and the
division of slots into epochs (`core/src/epoch.rs`).
-/

namespace Nusantara

open Borsh Codec UInt64

/-! ### Merkle trees -/

/-- The halves of an input of 128 bytes. -/
theorem asBytes_append_inj {a b a' b' : Hash}
    (h : a.asBytes ++ b.asBytes = a'.asBytes ++ b'.asBytes) : a = a' ∧ b = b' := by
  obtain ⟨ha, hb⟩ := Hash.codec.enc_append_inj trivial trivial h
  exact ⟨ha, (Hash.codec.enc_append_inj trivial trivial (congrArg (· ++ []) hb)).1⟩

section Merkle

variable (P : Platform)

/-- `hash_leaf`. -/
def hashLeaf (data : Hash) : Hash := P.hash (0 :: data.asBytes)

/-- `hash_internal`. -/
def hashInternal (left right : Hash) : Hash := P.hash (1 :: left.asBytes ++ right.asBytes)

/-- The layer of a tree above a given one. -/
def layerAbove : List Hash → List Hash
  | left :: right :: rest => hashInternal P left right :: layerAbove rest
  | rest => rest

/-- `MerkleTree::new` followed by `root`: the leaves are padded to a power of two. -/
def merkleTreeRoot (leaves : List Hash) : Hash :=
  let height := Nat.clog 2 leaves.length
  let layer := leaves.map (hashLeaf P) ++
    List.replicate (2 ^ height - leaves.length) (hashLeaf P Hash.zero)
  if leaves = [] then Hash.zero else ((layerAbove P)^[height] layer).headD Hash.zero

/-- `MerkleProof`: the siblings on the way to the root; the flag says whether the node below
them is a right child. -/
structure MerkleProof where
  hashes : List Hash
  path : List Bool
  deriving DecidableEq

/-- `MerkleProof::verify`. -/
def MerkleProof.verify (proof : MerkleProof) (leaf root : Hash) : Bool :=
  (proof.hashes.zip proof.path).foldl
    (fun current p => if p.2 then hashInternal P p.1 current else hashInternal P current p.1)
    (hashLeaf P leaf) = root

/-- The Borsh form of a proof. -/
def MerkleProof.codec : Codec MerkleProof :=
  ((vec Hash.codec).pair (vec bool)).iso (fun p => ⟨p.1, p.2⟩)
    (fun p => (p.hashes, p.path)) (fun _ => rfl) (fun _ => rfl)

end Merkle

/-! ### Signed batches -/

/-- `BatchEntry`: a message with its place in the tree that is signed. -/
structure BatchEntry where
  message : Message
  merkleProof : MerkleProof
  deriving DecidableEq

/-- `SignedTransactionBatch`: messages under one signature of the root of their tree. -/
structure SignedTransactionBatch where
  signerPubkey : PublicKey
  signature : Signature
  merkleRoot : Hash
  entries : List BatchEntry
  deriving DecidableEq

/-- The Borsh form of an entry. -/
def BatchEntry.codec : Codec BatchEntry :=
  (Message.codec.pair MerkleProof.codec).iso (fun p => ⟨p.1, p.2⟩)
    (fun e => (e.message, e.merkleProof)) (fun _ => rfl) (fun _ => rfl)

namespace SignedTransactionBatch

/-- The Borsh form of a batch. -/
def codec : Codec SignedTransactionBatch :=
  (PublicKey.codec.pair (Signature.codec.pair (Hash.codec.pair (vec BatchEntry.codec)))).iso
    (fun p => ⟨p.1, p.2.1, p.2.2.1, p.2.2.2⟩)
    (fun b => (b.signerPubkey, b.signature, b.merkleRoot, b.entries))
    (fun _ => rfl) (fun _ => rfl)

variable (P : Platform) (batch : SignedTransactionBatch)

/-- `SignedTransactionBatch::verify_signature`. -/
def verifySignature : Bool :=
  P.verifyDetached batch.signerPubkey batch.merkleRoot.asBytes batch.signature

/-- `SignedTransactionBatch::verify_entry`. -/
def verifyEntry (entry : BatchEntry) : Bool :=
  entry.merkleProof.verify P (P.hash (Message.codec.enc entry.message)) batch.merkleRoot

/-- `SignedTransactionBatch::verify_all`. -/
def verifyAll : Bool := batch.verifySignature P && batch.entries.all (batch.verifyEntry P)

/-- `SignedTransactionBatch::signer_address`. -/
def signerAddress : Hash := P.hash batch.signerPubkey.asBytes

/-- `SignedTransactionBatch::to_transactions`: the transactions carry no signatures. -/
def toTransactions : List Transaction := batch.entries.map fun e => Transaction.new e.message

end SignedTransactionBatch

/-! ### Blocks -/

/-- `BlockHeader`. -/
structure BlockHeader where
  slot : UInt64
  parentSlot : UInt64
  parentHash : Hash
  blockHash : Hash
  timestamp : Int64
  validator : Hash
  transactionCount : UInt64
  merkleRoot : Hash
  pohHash : Hash
  bankHash : Hash
  stateRoot : Hash
  deriving DecidableEq

/-- `Block`. -/
structure Block where
  header : BlockHeader
  transactions : List Transaction
  batches : List SignedTransactionBatch
  deriving DecidableEq

/-! ### Epochs -/

/-- `EpochSchedule`. -/
structure EpochSchedule where
  slotsPerEpoch : UInt64
  leaderScheduleSlotOffset : UInt64
  warmup : Bool
  firstNormalEpoch : UInt64
  firstNormalSlot : UInt64
  deriving DecidableEq

namespace EpochSchedule

/-- `EpochSchedule::new`. -/
def new (slotsPerEpoch : UInt64) : EpochSchedule :=
  { slotsPerEpoch, leaderScheduleSlotOffset := slotsPerEpoch, warmup := false,
    firstNormalEpoch := 0, firstNormalSlot := 0 }

variable (P : Platform) (e : EpochSchedule)

/-- `EpochSchedule::get_epoch`. -/
def getEpoch (slot : UInt64) : Except Fault UInt64 :=
  if slot < e.firstNormalSlot then
    .ok (ofNat (Nat.log 2 slot.toNat))
  else if e.slotsPerEpoch = 0 then .error .divisionByZero
  else do
    let normalSlot := slot - e.firstNormalSlot
    let epoch ← P.wrapAdd 64 e.firstNormalEpoch.toNat (normalSlot / e.slotsPerEpoch).toNat
    return ofNat epoch

/-- `EpochSchedule::get_first_slot_in_epoch`.  The shift count is the epoch cast to `u32`. -/
def getFirstSlotInEpoch (epoch : UInt64) : Except Fault UInt64 :=
  if epoch ≤ e.firstNormalEpoch then
    if epoch = 0 then .ok 0
    else if epoch.toNat % 2 ^ 32 < 64 then .ok (ofNat (2 ^ (epoch.toNat % 2 ^ 32) - 1))
    else .ok (ofNat (2 ^ 64 - 1))
  else do
    let span ← P.wrapMul 64 (epoch - e.firstNormalEpoch).toNat e.slotsPerEpoch.toNat
    let first ← P.wrapAdd 64 e.firstNormalSlot.toNat span
    return ofNat first

end EpochSchedule

end Nusantara

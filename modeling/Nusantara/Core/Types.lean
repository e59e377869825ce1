import Mathlib.Order.Basic
import Nusantara.Lib.Borsh

/-!
# Hashes, accounts, messages and transactions

The data every other part of the validator works on (`crypto/src/{hash,pubkey,signature}.rs`,
`core/src/{account,instruction,message,transaction}.rs`), with the Borsh codecs their derives
generate.  A `Hash` is an address as well as a digest.

Fixed-size byte strings carry their size, so that a `Hash` of another width, or a key or
signature that `from_bytes` would refuse, cannot be built.
-/

namespace Nusantara

open Borsh List Codec

/-! ### Fixed-size byte strings -/

/-- `HASH_BYTES`. -/
def hashBytes : ℕ := 64

/-- A SHA3-512 digest; also the address of an account. -/
structure Hash where
  /-- The bytes of the digest. -/
  asBytes : List UInt8
  size_eq : asBytes.length = hashBytes
  deriving DecidableEq

namespace Hash

/-- The hash whose bytes are all `b`. -/
def repeated (b : UInt8) : Hash := ⟨replicate hashBytes b, length_replicate⟩

/-- `Hash::zero`: the owner of an account that does not exist. -/
def zero : Hash := repeated 0

instance : Inhabited Hash := ⟨zero⟩

/-- The bytes read as one number, the first byte the most significant. -/
def value (h : Hash) : ℕ := ofLe h.asBytes.reverse

theorem value_injective : Function.Injective value := by
  rintro ⟨as, ha⟩ ⟨bs, hb⟩ h
  have ha' : as.reverse.length = hashBytes := length_reverse.trans ha
  have hb' : bs.reverse.length = hashBytes := length_reverse.trans hb
  have hrev : as.reverse = bs.reverse := calc
    as.reverse = leBytes hashBytes (ofLe as.reverse) := by rw [← ha', leBytes_ofLe]
    _ = leBytes hashBytes (ofLe bs.reverse) := congrArg (leBytes hashBytes) h
    _ = bs.reverse := by rw [← hb', leBytes_ofLe]
  simpa using hrev

/-- The order of the bytes, the first byte first. -/
instance : LinearOrder Hash := LinearOrder.lift' value value_injective

/-- A hash is written as its bytes, without a count. -/
def codec : Codec Hash :=
  bytes hashBytes (fun bs h => ⟨bs, h⟩) asBytes size_eq (fun _ => rfl) (fun _ _ => rfl)

end Hash

/-- `PUBLIC_KEY_BYTES`. -/
def publicKeyBytes : ℕ := 1952

/-- A Dilithium3 public key. -/
structure PublicKey where
  /-- The bytes of the key. -/
  asBytes : List UInt8
  size_eq : asBytes.length = publicKeyBytes
  deriving DecidableEq

/-- A key is written as a byte vector; one of another length is refused. -/
def PublicKey.codec : Codec PublicKey :=
  (vec u8).refine
    (fun bs => if h : bs.length = publicKeyBytes then some ⟨bs, h⟩ else none) PublicKey.asBytes
    (fun bs => s!"invalid public key length: expected {publicKeyBytes}, got {bs.length}")
    (fun k => dif_pos k.size_eq)
    (fun k bs h => by
      split_ifs at h
      cases h
      rfl)

/-- `SIGNATURE_BYTES`. -/
def signatureBytes : ℕ := 3309

/-- A detached Dilithium3 signature. -/
structure Signature where
  /-- The bytes of the signature. -/
  asBytes : List UInt8
  size_eq : asBytes.length = signatureBytes
  deriving DecidableEq

/-- A signature is written as a byte vector; one of another length is refused. -/
def Signature.codec : Codec Signature :=
  (vec u8).refine
    (fun bs => if h : bs.length = signatureBytes then some ⟨bs, h⟩ else none) Signature.asBytes
    (fun bs => s!"invalid signature length: expected {signatureBytes}, got {bs.length}")
    (fun k => dif_pos k.size_eq)
    (fun k bs h => by
      split_ifs at h
      cases h
      rfl)

/-! ### Accounts -/

/-- An account: its balance, its data, and the program that owns it. -/
structure Account where
  lamports : UInt64
  data : List UInt8
  owner : Hash
  executable : Bool
  rentEpoch : UInt64
  deriving DecidableEq

namespace Account

/-- `Account::new`. -/
def new (lamports : UInt64) (owner : Hash) : Account :=
  { lamports, data := [], owner, executable := false, rentEpoch := 0 }

/-- `Account::is_empty`. -/
def isEmpty (a : Account) : Bool := a.lamports = 0 ∧ a.data = []

/-- The balance is all that changes. -/
def withLamports (a : Account) (l : UInt64) : Account := { a with lamports := l }

/-- The data are all that changes. -/
def withData (a : Account) (d : List UInt8) : Account := { a with data := d }

section

variable (a : Account)

@[simp] theorem withLamports_lamports (l : UInt64) :
    (a.withLamports l).lamports = l := rfl

section

variable (d : List UInt8)

@[simp] theorem withLamports_data (l : UInt64) :
    (a.withLamports l).data = a.data := rfl

@[simp] theorem withData_data : (a.withData d).data = d := rfl

@[simp] theorem withData_owner :
    (a.withData d).owner = a.owner := rfl

end

end

/-- The Borsh form of an account. -/
def codec : Codec Account :=
  (u64.pair ((vec u8).pair (Hash.codec.pair (bool.pair u64)))).iso
    (fun p => ⟨p.1, p.2.1, p.2.2.1, p.2.2.2.1, p.2.2.2.2⟩)
    (fun a => (a.lamports, a.data, a.owner, a.executable, a.rentEpoch))
    (fun _ => rfl) (fun _ => rfl)

end Account

/-! ### Messages -/

/-- An instruction of a message.  The program and the accounts are positions in the account
keys of the message. -/
structure CompiledInstruction where
  programIdIndex : UInt8
  accounts : List UInt8
  data : List UInt8
  deriving DecidableEq

/-- The Borsh form of an instruction. -/
def CompiledInstruction.codec : Codec CompiledInstruction :=
  (u8.pair ((vec u8).pair (vec u8))).iso
    (fun p => ⟨p.1, p.2.1, p.2.2⟩) (fun i => (i.programIdIndex, i.accounts, i.data))
    (fun _ => rfl) (fun _ => rfl)

/-- A message: the accounts it names, the instructions, and a header that says which of the
accounts sign and which are read-only. -/
structure Message where
  numRequiredSignatures : UInt8
  numReadonlySigned : UInt8
  numReadonlyUnsigned : UInt8
  accountKeys : List Hash
  recentBlockhash : Hash
  instructions : List CompiledInstruction
  deriving DecidableEq

/-- The Borsh form of a message. -/
def Message.codec : Codec Message :=
  (u8.pair (u8.pair (u8.pair ((vec Hash.codec).pair
      (Hash.codec.pair (vec CompiledInstruction.codec)))))).iso
    (fun p => ⟨p.1, p.2.1, p.2.2.1, p.2.2.2.1, p.2.2.2.2.1, p.2.2.2.2.2⟩)
    (fun m => (m.numRequiredSignatures, m.numReadonlySigned, m.numReadonlyUnsigned,
      m.accountKeys, m.recentBlockhash, m.instructions))
    (fun _ => rfl) (fun _ => rfl)

/-- A transaction: a message, the signatures over it and the keys they were made with. -/
structure Transaction where
  signatures : List Signature
  signerPubkeys : List PublicKey
  message : Message
  deriving DecidableEq

/-- The Borsh form of a transaction; the cached hash is not part of it. -/
def Transaction.codec : Codec Transaction :=
  ((vec Signature.codec).pair ((vec PublicKey.codec).pair Message.codec)).iso
    (fun p => ⟨p.1, p.2.1, p.2.2⟩) (fun t => (t.signatures, t.signerPubkeys, t.message))
    (fun _ => rfl) (fun _ => rfl)

/-- `Transaction::new`: an unsigned transaction. -/
def Transaction.new (message : Message) : Transaction :=
  { signatures := [], signerPubkeys := [], message }

/-- The bytes that are signed and hashed. -/
def Transaction.messageData (tx : Transaction) : List UInt8 := Message.codec.enc tx.message

end Nusantara

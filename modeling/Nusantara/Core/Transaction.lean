import Nusantara.Core.Platform
import Nusantara.Lib.Word

/-!
# Signed transactions and their fee

`Transaction::verify_signatures` and `Transaction::hash` (`core/src/transaction.rs`) and the fee
of a transaction (`core/src/fee.rs`).
-/

namespace Nusantara

/-- The element at a position; the process stops if there is none. -/
def indexAt {α : Type} (xs : List α) (i : ℕ) : Except Fault α :=
  match xs[i]? with
  | some a => .ok a
  | none => .error .indexOutOfBounds

/-- An error of the core crate. -/
inductive CoreError where
  | invalidMessage (text : String)
  | invalidTransaction (text : String)
  deriving DecidableEq

/-- The text of an error. -/
def CoreError.toText : CoreError → String
  | invalidMessage text => s!"invalid message: {text}"
  | invalidTransaction text => s!"invalid transaction: {text}"

namespace Transaction

variable (P : Platform) (tx : Transaction)

/-- `Transaction::hash`: the id of a transaction is the digest of its message alone. -/
def hash : Hash := P.hash tx.messageData

/-- The loop of `Transaction::verify` over the numbered signatures and keys. -/
def verifyEach (bytes : List UInt8) : List (Signature × PublicKey) → ℕ → Except CoreError Unit
  | [], _ => .ok ()
  | (sig, pk) :: rest, i =>
    if P.verifyDetached pk bytes sig then verifyEach bytes rest (i + 1)
    else .error (.invalidTransaction s!"signature {i} verification failed")

/-- `Transaction::verify`. -/
def verify (pubkeys : List PublicKey) : Except CoreError Unit :=
  if tx.signatures.length ≠ pubkeys.length then
    .error (.invalidTransaction
      s!"signature count {tx.signatures.length} != pubkey count {pubkeys.length}")
  else verifyEach P tx.messageData (tx.signatures.zip pubkeys) 0

/-- The loop that binds each signer's key to the account key at the same position. -/
def bindSigners : List ℕ → Except Fault (Except CoreError Unit)
  | [] => .ok (.ok ())
  | i :: rest => do
    let expected ← indexAt tx.message.accountKeys i
    let signer ← indexAt tx.signerPubkeys i
    if expected ≠ P.hash signer.asBytes then
      return .error (.invalidTransaction
        s!"signer {i} pubkey hash does not match account_keys[{i}]")
    else bindSigners rest

/-- `Transaction::verify_signatures`. -/
def verifySignatures : Except Fault (Except CoreError Unit) :=
  let required := tx.message.numRequiredSignatures.toNat
  if tx.signatures.length ≠ required then
    .ok (.error (.invalidTransaction
      s!"expected {required} signatures, got {tx.signatures.length}"))
  else if tx.signerPubkeys.length ≠ tx.signatures.length then
    .ok (.error (.invalidTransaction
      s!"signer_pubkeys count {tx.signerPubkeys.length} != signature count {tx.signatures.length}"))
  else match tx.verify P tx.signerPubkeys with
  | .error e => .ok (.error e)
  | .ok () =>
    if tx.message.accountKeys.length < required then
      .ok (.error (.invalidTransaction
        s!"num_required_signatures {required} exceeds account_keys count {tx.message.accountKeys.length}"))
    else tx.bindSigners P (List.range required)

variable {P tx}

theorem bindSigners_isOk {is : List ℕ}
    (h : ∀ i ∈ is, i < tx.message.accountKeys.length ∧ i < tx.signerPubkeys.length) :
    ∃ r, tx.bindSigners P is = .ok r := by
  induction is with
  | nil => exact ⟨_, rfl⟩
  | cons i is ih =>
    obtain ⟨h₁, h₂⟩ := h i (by simp)
    obtain ⟨r, hr⟩ := ih fun j hj => h j (by simp [hj])
    simp only [bindSigners, indexAt, List.getElem?_eq_getElem h₁, List.getElem?_eq_getElem h₂,
      bind, Except.bind, hr]
    split_ifs <;> exact ⟨_, rfl⟩

/-- The two length checks keep the loop that follows them in bounds. -/
theorem verifySignatures_isOk : ∃ r, tx.verifySignatures P = .ok r := by
  unfold verifySignatures
  simp only
  split_ifs with h₁ h₂ h₃
  · exact ⟨_, rfl⟩
  · exact ⟨_, rfl⟩
  · split <;> exact ⟨_, rfl⟩
  · split
    · exact ⟨_, rfl⟩
    · apply bindSigners_isOk
      intro i hi
      rw [List.mem_range] at hi
      omega

/-- The pure result of `verify_signatures`. -/
def signaturesValid (P : Platform) (tx : Transaction) : Bool :=
  tx.verifySignatures P = .ok (.ok ())

section Build

variable {checks : Bool}

theorem verifyEach_withOverflowChecks {bytes : List UInt8} {pairs : List (Signature × PublicKey)}
    {i : ℕ} : verifyEach (P.withOverflowChecks checks) bytes pairs i = verifyEach P bytes pairs i := by
  induction pairs generalizing i with
  | nil => rfl
  | cons pair pairs ih =>
    simp only [verifyEach, ih]
    rfl

theorem bindSigners_withOverflowChecks {is : List ℕ} :
    tx.bindSigners (P.withOverflowChecks checks) is = tx.bindSigners P is := by
  induction is with
  | nil => rfl
  | cons i is ih =>
    simp only [bindSigners, ih]
    rfl

theorem verifySignatures_withOverflowChecks :
    tx.verifySignatures (P.withOverflowChecks checks) = tx.verifySignatures P := by
  simp only [verifySignatures, verify, verifyEach_withOverflowChecks,
    bindSigners_withOverflowChecks]

end Build

end Transaction

/-- `FeeCalculator`. -/
structure FeeCalculator where
  lamportsPerSignature : UInt64
  deriving DecidableEq

/-- `FeeCalculator::calculate_fee`. -/
def FeeCalculator.calculateFee (f : FeeCalculator) (numSignatures : UInt64) : UInt64 :=
  Word.saturatingMul f.lamportsPerSignature numSignatures

end Nusantara

import Nusantara.Tpu.Protocol

/-!
# Validation of what is received

The checks of a transaction and of a signed batch before they are passed on
(`tpu-forward/src/tx_validator.rs`): first what is cheap, then the size, then the signatures.

## Main results

* `validate_eq_ok`: the transactions that pass.
* `validateBatch_eq_ok`: the batches that pass.
-/

namespace Nusantara

open Borsh Exec Transaction

/-- The result of `Transaction::verify_signatures`, which does not panic. -/
def Transaction.signatureResult (P : Platform) (tx : Transaction) : Except CoreError Unit :=
  match h : tx.verifySignatures P with
  | .ok r => r
  | .error _ => absurd (@verifySignatures_isOk P tx) (by simp [h])

/-- Fail unless a condition holds. -/
def check (p : Prop) [Decidable p] (e : TpuError) : Except TpuError Unit :=
  if p then .ok () else .error e

/-- Every instruction names a program of the message. -/
def Message.programsInRange (m : Message) : Prop :=
  ∀ ix ∈ m.instructions, ix.programIdIndex.toNat < m.accountKeys.length

instance : DecidablePred Message.programsInRange := fun m =>
  inferInstanceAs (Decidable (∀ ix ∈ m.instructions, ix.programIdIndex.toNat < m.accountKeys.length))

/-- `MAX_BATCH_WIRE_SIZE`. -/
def maxBatchWireSize : ℕ := maxTransactionSize * maxBatchEntries

section Validate

variable (P : Platform)

/-- `validate`. -/
def validate (tx : Transaction) (txSerializedSize : ℕ) : Except TpuError Unit := do
  let required := tx.message.numRequiredSignatures.toNat
  check (tx.message.accountKeys ≠ []) (.invalidTransaction "transaction has no account keys")
  check (tx.signatures ≠ []) (.invalidTransaction "transaction has no signatures")
  check (tx.signatures.length = required) (.invalidTransaction
    s!"signature count {tx.signatures.length} != num_required_signatures {required}")
  check (required ≤ tx.message.accountKeys.length)
    (.invalidTransaction "fewer account keys than required signatures")
  check tx.message.programsInRange
    (.invalidTransaction "instruction references invalid program_id_index")
  check (tx.signerPubkeys.length = tx.signatures.length) (.invalidTransaction
    s!"signer_pubkeys count {tx.signerPubkeys.length} != signature count {tx.signatures.length}")
  requireSize txSerializedSize maxTransactionSize
  (tx.signatureResult P).mapError fun e =>
    let text := e.toText
    TpuError.invalidTransaction s!"signature verification failed: {text}"

/-- The checks of the entries of a batch, from the entry number `i` on. -/
def validateEntries : ℕ → List BatchEntry → Except TpuError Unit
  | _, [] => .ok ()
  | i, entry :: rest => do
    check (entry.message.accountKeys ≠ []) (.invalidBatch s!"batch entry {i}: no account keys")
    check entry.message.programsInRange
      (.invalidBatch s!"batch entry {i}: invalid program_id_index")
    validateEntries (i + 1) rest

/-- `validate_batch`. -/
def validateBatch (batch : SignedTransactionBatch) (decompressedWireSize : ℕ) :
    Except TpuError Unit := do
  check (batch.entries ≠ []) (.invalidBatch "empty batch")
  requireSize decompressedWireSize maxBatchWireSize
  check (batch.entries.length ≤ maxBatchEntries)
    (.invalidBatch s!"batch has {batch.entries.length} entries, max {maxBatchEntries}")
  validateEntries 0 batch.entries
  check (batch.verifySignature P) (.invalidBatch "batch signature verification failed")
  check (batch.verifyAll P) (.invalidBatch "batch merkle proof verification failed")

end Validate

section Results

variable {P : Platform} {tx : Transaction} {batch : SignedTransactionBatch} {size maxSize i : ℕ}
  {entries : List BatchEntry} {p : Prop} [Decidable p] {e : TpuError} {u : Unit}

theorem check_eq_ok : check p e = .ok u ↔ p := by
  unfold check
  split_ifs with h
  · exact iff_of_true rfl h
  · exact iff_of_false (by simp) h

theorem requireSize_eq_ok : requireSize size maxSize = .ok u ↔ size ≤ maxSize := by
  unfold requireSize
  split_ifs with h
  · exact iff_of_false (by simp) (by omega)
  · exact iff_of_true rfl (by omega)

theorem signatureResult_eq_ok :
    tx.signatureResult P = .ok u ↔ tx.signaturesValid P = true := by
  rw [signaturesValid, decide_eq_true_iff]
  obtain ⟨r, hr⟩ := @verifySignatures_isOk P tx
  have hresult : tx.signatureResult P = r := by
    unfold signatureResult
    split
    · rename_i r' h
      exact Except.ok.inj (h.symm.trans hr)
    · rename_i f h
      exact absurd (hr.symm.trans h) (by simp)
  rw [hresult, hr]
  exact ⟨fun h => by rw [h], fun h => Except.ok.inj h⟩

/-- What is asked of a transaction apart from its size. -/
structure Transaction.Valid (P : Platform) (tx : Transaction) : Prop where
  payer : tx.message.accountKeys ≠ []
  signed : tx.signatures ≠ []
  programs : tx.message.programsInRange
  signatures : tx.signaturesValid P = true

/-- The counts that `validate` asks for are among those that the signature check asks for. -/
theorem counts_of_signaturesValid (h : tx.signaturesValid P = true) :
    tx.signatures.length = tx.message.numRequiredSignatures.toNat ∧
      tx.message.numRequiredSignatures.toNat ≤ tx.message.accountKeys.length ∧
      tx.signerPubkeys.length = tx.signatures.length := by
  have hok : tx.verifySignatures P = .ok (.ok ()) := of_decide_eq_true h
  unfold verifySignatures at hok
  dsimp only at hok
  split_ifs at hok with hrequired hpubkeys hkeys
  · exact absurd hok (by simp)
  · exact absurd hok (by simp)
  · split at hok <;> exact absurd hok (by simp)
  · exact ⟨not_not.mp hrequired, Nat.not_lt.mp hkeys, not_not.mp hpubkeys⟩

/-- **The transactions that pass.** -/
theorem validate_eq_ok :
    validate P tx size = .ok u ↔ tx.Valid P ∧ size ≤ maxTransactionSize := by
  simp only [validate, exceptBind_eq_ok, check_eq_ok, requireSize_eq_ok, exceptMapError_eq_ok,
    signatureResult_eq_ok, exists_const]
  constructor
  · rintro ⟨hpayer, hsigned, -, -, hprograms, -, hsize, hsignatures⟩
    exact ⟨⟨hpayer, hsigned, hprograms, hsignatures⟩, hsize⟩
  · rintro ⟨h, hsize⟩
    obtain ⟨hrequired, hkeys, hpubkeys⟩ := counts_of_signaturesValid h.signatures
    exact ⟨h.payer, h.signed, hrequired, hkeys, h.programs, hpubkeys, hsize, h.signatures⟩

theorem validateEntries_eq_ok :
    validateEntries i entries = .ok u ↔
      ∀ entry ∈ entries, entry.message.accountKeys ≠ [] ∧ entry.message.programsInRange := by
  induction entries generalizing i with
  | nil => exact iff_of_true rfl (by simp)
  | cons entry rest ih =>
    simp only [validateEntries, exceptBind_eq_ok, check_eq_ok, exists_const, ih,
      List.forall_mem_cons, and_assoc]

/-- **The batches that pass.** -/
theorem validateBatch_eq_ok :
    validateBatch P batch size = .ok u ↔
      batch.entries ≠ [] ∧ size ≤ maxBatchWireSize ∧ batch.entries.length ≤ maxBatchEntries ∧
        (∀ entry ∈ batch.entries,
          entry.message.accountKeys ≠ [] ∧ entry.message.programsInRange) ∧
        batch.verifyAll P = true := by
  simp only [validateBatch, exceptBind_eq_ok, check_eq_ok, requireSize_eq_ok,
    validateEntries_eq_ok, exists_const]
  constructor
  · rintro ⟨hne, hsize, hcount, hentries, -, hall⟩
    exact ⟨hne, hsize, hcount, hentries, hall⟩
  · rintro ⟨hne, hsize, hcount, hentries, hall⟩
    exact ⟨hne, hsize, hcount, hentries, (Bool.and_eq_true_iff.mp hall).1, hall⟩

end Results

end Nusantara

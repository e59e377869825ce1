import Nusantara.Core.Block
import Nusantara.Lib.Exec

/-!
# The messages to a transaction processing unit

What a client or another node sends to a validator (`tpu-forward/src/{protocol,compression}.rs`): a
transaction, a list of transactions, or a batch under one signature, in Borsh, behind a tag that says
whether it is compressed.  `zstd` is third-party code and a parameter here.

The first byte of a message is read first, to choose how much is decompressed at most.  That read
fails for every message of more than one byte, so that the larger limit is always taken and the limit
of a single transaction is enforced afterwards.

## Main results

* `decompress_compress`: what is compressed comes out again, if it is within the limit.
* `deserializeFromBytes_serialize`: what the receiver makes of a message.
-/

namespace Nusantara

open Borsh Exec List Codec Nat Transaction

/-- An error of the TPU, as far as messages are concerned. -/
inductive TpuError where
  | serialization (text : String)
  | deserialization (text : String)
  | rateLimited (reason : String)
  | transactionTooLarge (size maxSize : ℕ)
  | invalidTransaction (text : String)
  | compression (text : String)
  | decompression (text : String)
  | invalidBatch (text : String)
  deriving DecidableEq

/-! ### Compression -/

/-- The compression library. -/
structure Zstd where
  /-- `zstd::encode_all` at the level of the crate. -/
  encodeAll : List UInt8 → Except String (List UInt8)
  /-- What a `zstd::Decoder` over the bytes gives if no more than so many bytes are read from it. -/
  readToEnd : List UInt8 → ℕ → Except String (List UInt8)

/-- The library compresses everything, and a decoder gives it back, up to where reading stops. -/
def Zstd.Lossless (z : Zstd) : Prop :=
  ∀ data, ∃ out, z.encodeAll data = .ok out ∧ ∀ limit, z.readToEnd out limit = .ok (data.take limit)

/-- `TAG_RAW`. -/
def tagRaw : UInt8 := 0x00

/-- `TAG_ZSTD`. -/
def tagZstd : UInt8 := 0x01

/-- `COMPRESSION_THRESHOLD`. -/
def compressionThreshold : ℕ := 256

/-- A byte as two hexadecimal digits. -/
def hexByte (b : UInt8) : String :=
  String.ofList [digitChar (b.toNat / 16), digitChar (b.toNat % 16)]

/-- `compress`. -/
def compress (z : Zstd) (data : List UInt8) : Except TpuError (List UInt8) :=
  if data.isEmpty then .error (.compression "empty payload")
  else if data.length ≤ compressionThreshold then .ok (tagRaw :: data)
  else match z.encodeAll data with
    | .error e => .error (.compression e)
    | .ok compressed =>
      if data.length ≤ compressed.length then .ok (tagRaw :: data)
      else .ok (tagZstd :: compressed)

/-- `decompress`. -/
def decompress (z : Zstd) (tagged : List UInt8) (maxDecompressedSize : ℕ) :
    Except TpuError (List UInt8) :=
  match tagged with
  | [] => .error (.decompression "empty payload")
  | tag :: rest =>
    if tag = tagRaw then
      if maxDecompressedSize < rest.length then
        .error (.decompression s!"raw payload size {rest.length} exceeds max {maxDecompressedSize}")
      else .ok rest
    else if tag = tagZstd then
      match z.readToEnd rest (maxDecompressedSize + 1) with
      | .error e => .error (.decompression e)
      | .ok buf =>
        if maxDecompressedSize < buf.length then
          .error (.decompression
            s!"decompressed output exceeds limit of {maxDecompressedSize} bytes")
        else .ok buf
    else
      let hex := hexByte tag
      .error (.decompression s!"unknown compression tag: 0x{hex}")

/-! ### Messages -/

/-- `TpuMessage`. -/
inductive TpuMessage where
  | transaction (tx : Transaction)
  | transactionBatch (txs : List Transaction)
  | signedBatch (batch : SignedTransactionBatch)
  deriving DecidableEq

namespace TpuMessage

/-- The Borsh form of a message. -/
def codec : Codec TpuMessage := enum (·.ctorIdx) [
  ctor Transaction.codec transaction (fun | transaction tx => some tx | _ => none),
  ctor (vec Transaction.codec) transactionBatch (fun | transactionBatch txs => some txs | _ => none),
  ctor SignedTransactionBatch.codec signedBatch (fun | signedBatch batch => some batch | _ => none)]

end TpuMessage

/-- `MAX_TRANSACTION_SIZE`. -/
def maxTransactionSize : ℕ := 65536

/-- `MAX_UNSIGNED_BATCH_TXS`. -/
def maxUnsignedBatchTxs : ℕ := 64

/-- `MAX_BATCH_ENTRIES`. -/
def maxBatchEntries : ℕ := 64

/-- `MAX_SINGLE_DECOMPRESSED`. -/
def maxSingleDecompressed : ℕ := maxTransactionSize

/-- `MAX_BATCH_DECOMPRESSED`. -/
def maxBatchDecompressed : ℕ := maxTransactionSize * maxBatchEntries

/-- Fail unless a message is within its size. -/
def requireSize (size maxSize : ℕ) : Except TpuError Unit :=
  if maxSize < size then .error (.transactionTooLarge size maxSize) else .ok ()

/-- Fail unless a batch is within its number of entries. -/
def requireEntries (kind : String) (entries maxEntries : ℕ) : Except TpuError Unit :=
  if maxEntries < entries then
    .error (.invalidBatch s!"{kind} batch has {entries} entries, max {maxEntries}")
  else .ok ()

namespace TpuMessage

/-- `TpuMessage::serialize_to_bytes`; Borsh refuses a vector whose length does not fit its count. -/
def serializeToBytes (z : Zstd) (msg : TpuMessage) : Except TpuError (List UInt8) :=
  if codec.Fits msg then compress z (codec.enc msg) else .error (.serialization "invalid data")

/-- The limits of the variants, enforced once the message is decoded. -/
def enforceLimits (msg : TpuMessage) (decompressedLen : ℕ) : Except TpuError Unit :=
  match msg with
  | transaction _ => requireSize decompressedLen maxSingleDecompressed
  | transactionBatch txs => do
    requireEntries "unsigned" txs.length maxUnsignedBatchTxs
    requireSize decompressedLen maxBatchDecompressed
  | signedBatch batch => do
    requireEntries "signed" batch.entries.length maxBatchEntries
    requireSize decompressedLen maxBatchDecompressed

/-- How much of a message is decompressed at most, from the first byte if it can be read. -/
def ceiling (z : Zstd) (bytes : List UInt8) : ℕ :=
  match decompress z bytes 1 with
  | .ok (0 :: _) => maxSingleDecompressed
  | _ => maxBatchDecompressed

/-- `TpuMessage::deserialize_from_bytes`: the message and the length of its Borsh form. -/
def deserializeFromBytes (z : Zstd) (bytes : List UInt8) : Except TpuError (TpuMessage × ℕ) := do
  let raw ← decompress z bytes (ceiling z bytes)
  let msg ← (codec.tryFromSlice raw).mapError fun e => TpuError.deserialization e.toText
  msg.enforceLimits raw.length
  return (msg, raw.length)

/-- `TpuMessage::into_transactions`. -/
def intoTransactions : TpuMessage → List Transaction
  | transaction tx => [tx]
  | transactionBatch txs => txs
  | signedBatch batch => batch.toTransactions

end TpuMessage

/-! ### Round trips -/

section RoundTrip

variable {z : Zstd} {data wire : List UInt8} {msg : TpuMessage} {tx : Transaction}
  {txs : List Transaction} {limit : ℕ}

/-- What is compressed has one byte more, at most. -/
theorem compress_ok (hz : z.Lossless) (hdata : data ≠ []) :
    ∃ wire, compress z data = .ok wire ∧ wire.length ≤ data.length + 1 ∧
      (wire = tagRaw :: data ∨ ∃ out, wire = tagZstd :: out ∧
        ∀ limit, z.readToEnd out limit = .ok (data.take limit)) := by
  obtain ⟨out, hout, hread⟩ := hz data
  rw [compress, if_neg (by simpa using hdata), hout]
  split_ifs with hsmall
  · exact ⟨_, rfl, le_rfl, .inl rfl⟩
  · by_cases hlong : data.length ≤ out.length
    · exact ⟨_, if_pos hlong, le_rfl, .inl rfl⟩
    · exact ⟨_, if_neg hlong, by rw [length_cons]; omega, .inr ⟨out, rfl, hread⟩⟩

/-- **What is compressed comes out again**, if it is within the limit. -/
theorem decompress_compress (hz : z.Lossless) (hdata : data ≠ []) (h : compress z data = .ok wire) :
    (data.length ≤ limit → decompress z wire limit = .ok data) ∧
      (limit < data.length → ∃ e, decompress z wire limit = .error e) := by
  obtain ⟨wire', hwire', -, hwire⟩ := compress_ok hz hdata
  cases h.symm.trans hwire'
  rcases hwire with rfl | ⟨out, rfl, hread⟩
  · refine ⟨fun hle => ?_, fun hlt => ?_⟩
    · rw [decompress, if_pos rfl, if_neg (by omega)]
    · rw [decompress, if_pos rfl, if_pos hlt]
      exact ⟨_, rfl⟩
  · have htag : tagZstd ≠ tagRaw := by decide
    refine ⟨fun hle => ?_, fun hlt => ?_⟩
    · rw [decompress, if_neg htag, if_pos rfl, hread, take_of_length_le (by omega)]
      exact if_neg (by omega)
    · rw [decompress, if_neg htag, if_pos rfl, hread]
      exact ⟨_, if_pos (by rw [length_take]; omega)⟩

/-- The borsh size of a transaction. -/
def Transaction.borshSize (tx : Transaction) : ℕ := (codec.enc tx).length

theorem length_enc_transaction :
    (TpuMessage.codec.enc (.transaction tx)).length = 1 + tx.borshSize := add_comm ..

theorem length_enc_transactionBatch :
    (TpuMessage.codec.enc (.transactionBatch txs)).length
      = 5 + (txs.map borshSize).sum := by
  have henc : TpuMessage.codec.enc (.transactionBatch txs) = 1 :: codec.vec.enc txs := rfl
  rw [henc, length_cons, length_enc_vec]
  exact (add_right_comm ..).trans (congrArg (· + _) rfl)

theorem short_message : Message.codec.Short := by
  have hhash : Hash.codec.Short := fun _ _ => trivial
  have hkeys : (vec Hash.codec).Short := hhash.vec fun h hnil => by
    have hlength := congrArg length hnil
    exact absurd (h.size_eq.symm.trans hlength) (by decide)
  have hinstructions : (vec CompiledInstruction.codec).Short :=
    (short_u8.pair (short_vec_u8.pair short_vec_u8)).iso.vec fun _ hnil => vec_enc_ne_nil _ _ (append_eq_nil_iff.mp
      (append_eq_nil_iff.mp hnil).2).1
  exact (short_u8.pair (short_u8.pair (short_u8.pair
    (hkeys.pair (hhash.pair hinstructions))))).iso

/-- Every transaction that is not far too long has a Borsh form. -/
theorem short_transaction : codec.Short := by
  have hsignature : Signature.codec.Short := short_vec_u8.refine
  have hpubkey : PublicKey.codec.Short := short_vec_u8.refine
  exact ((hsignature.vec fun _ => vec_enc_ne_nil _ _).pair
    ((hpubkey.vec fun _ => vec_enc_ne_nil _ _).pair short_message)).iso

theorem transactionBatch_fits (h : (txs.map borshSize).sum < 2 ^ 31) :
    TpuMessage.codec.Fits (.transactionBatch txs) := by
  refine ⟨_, rfl, txs, rfl, Codec.Short.vec short_transaction (fun tx hnil => ?_) txs ?_⟩
  · exact vec_enc_ne_nil _ _ (append_eq_nil_iff.mp hnil).1
  · rw [length_enc_vec]
    have hsum : (txs.map fun a => (codec.enc a).length).sum < 2 ^ 31 := h
    omega

/-- A message is longer than the one byte that is read to choose a limit. -/
theorem one_lt_length_enc (msg : TpuMessage) : 1 < (TpuMessage.codec.enc msg).length := by
  cases msg with
  | transaction tx =>
    have hne := vec_enc_ne_nil Signature.codec tx.signatures
    have henc : TpuMessage.codec.enc (.transaction tx) = 0 :: (Signature.codec.vec.enc tx.signatures
      ++ (PublicKey.codec.vec.enc tx.signerPubkeys ++ Message.codec.enc tx.message)) := rfl
    rw [henc, length_cons, length_append]
    have := length_pos_iff.mpr hne
    omega
  | transactionBatch txs =>
    rw [length_enc_transactionBatch]
    omega
  | signedBatch batch =>
    have hne := vec_enc_ne_nil u8 batch.signerPubkey.asBytes
    have henc : TpuMessage.codec.enc (.signedBatch batch) = 2 ::
      (u8.vec.enc batch.signerPubkey.asBytes ++ (Signature.codec.enc batch.signature ++
        (Hash.codec.enc batch.merkleRoot ++ BatchEntry.codec.vec.enc batch.entries))) := rfl
    rw [henc, length_cons, length_append]
    have := length_pos_iff.mpr hne
    omega

theorem serializeToBytes_eq_ok :
    msg.serializeToBytes z = .ok wire ↔
      TpuMessage.codec.Fits msg ∧ compress z (TpuMessage.codec.enc msg) = .ok wire := by
  unfold TpuMessage.serializeToBytes
  split_ifs with hfits
  · exact (and_iff_right hfits).symm
  · exact iff_of_false (by simp) fun h => hfits h.1

/-- **What the receiver makes of a message**: the limit of a batch is asked first, whatever the message
is, then its own. -/
theorem deserializeFromBytes_serialize (hz : z.Lossless) (h : msg.serializeToBytes z = .ok wire) :
    ((TpuMessage.codec.enc msg).length ≤ maxBatchDecompressed →
      TpuMessage.deserializeFromBytes z wire =
        (msg.enforceLimits (TpuMessage.codec.enc msg).length).map
          fun _ => (msg, (TpuMessage.codec.enc msg).length)) ∧
      (maxBatchDecompressed < (TpuMessage.codec.enc msg).length →
        ∃ e, TpuMessage.deserializeFromBytes z wire = .error e) := by
  obtain ⟨hfits, hwire⟩ := serializeToBytes_eq_ok.mp h
  have hlong := one_lt_length_enc msg
  have hne : TpuMessage.codec.enc msg ≠ [] := ne_nil_of_length_pos (by omega)
  have hceiling : TpuMessage.ceiling z wire = maxBatchDecompressed := by
    obtain ⟨e, he⟩ := (decompress_compress hz hne hwire).2 hlong
    rw [TpuMessage.ceiling, he]
  have hdec := @decompress_compress z _ wire maxBatchDecompressed hz hne hwire
  unfold TpuMessage.deserializeFromBytes
  rw [hceiling]
  refine ⟨fun hle => ?_, fun hlt => ?_⟩
  · rw [hdec.1 hle]
    have hslice : TpuMessage.codec.tryFromSlice (TpuMessage.codec.enc msg) = .ok msg :=
      (TpuMessage.codec.tryFromSlice_eq_ok).mpr ⟨hfits, rfl⟩
    simp only [bind, Except.bind, hslice, Except.mapError]
    cases msg.enforceLimits (TpuMessage.codec.enc msg).length <;> rfl
  · obtain ⟨e, he⟩ := hdec.2 hlt
    rw [he]
    exact ⟨e, rfl⟩

end RoundTrip

end Nusantara

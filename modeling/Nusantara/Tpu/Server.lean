import Nusantara.Mempool.Pool
import Nusantara.Tpu.TxValidator

/-!
# The server of a transaction processing unit

A connection brings streams, each with one message (`handle_connection` in
`tpu-forward/src/quic_server.rs`).  The transactions that pass are handed on, one after another, until
the limiter ends the connection.  A stream that is too long, cannot be decoded or holds a batch that
does not pass is skipped.

The length that `validate` is given is that of the whole message.  For a list of transactions this is
the length of all of them together, so a list that is longer than one transaction may be passes
nothing.  The transactions of a signed batch are handed on without signatures, and the mempool takes
none of them that asks for one.

## Main results

* `passedOn_transaction`, `passedOn_transactionBatch`: what is passed on of a message.
* `batch_agrees_iff`: the lists that fare as their transactions do, one by one.
* `batch_authority_iff`: the transactions of a signed batch that the mempool judges by the signer.
-/

namespace Nusantara

open Borsh Exec List Codec TpuMessage Nat Transaction

section Connection

variable {σ : Type} (P : Platform) (z : Zstd) (take : ℕ → σ → Option σ)

/-- The loop over the transactions of a message: what is passed on, and the limiter afterwards, unless
it ends the connection. -/
def handleTransactions (decompressedLen : ℕ) : List Transaction → σ → List Transaction × Option σ
  | [], s => ([], some s)
  | tx :: rest, s =>
    match take 1 s with
    | none => ([], none)
    | some s =>
      let (passed, s) := handleTransactions decompressedLen rest s
      match validate P tx decompressedLen with
      | .error _ => (passed, s)
      | .ok _ => (tx :: passed, s)

/-- One turn of the loop of `handle_connection`, with what was sent on a stream. -/
def handleStream (data : List UInt8) (s : σ) : List Transaction × Option σ :=
  if maxBatchWireSize < data.length then ([], some s)
  else match deserializeFromBytes z data with
    | .error _ => ([], some s)
    | .ok (.signedBatch batch, decompressedLen) =>
      match validateBatch P batch decompressedLen with
      | .error _ => ([], some s)
      | .ok _ =>
        match take batch.entries.length s with
        | none => ([], none)
        | some s => (batch.toTransactions, some s)
    | .ok (msg, decompressedLen) =>
      handleTransactions P take decompressedLen msg.intoTransactions s

/-- `handle_connection`, with the streams that arrive. -/
def handleConnection : List (List UInt8) → σ → List Transaction × Option σ
  | [], s => ([], some s)
  | data :: streams, s =>
    match handleStream P z take data s with
    | (passed, none) => (passed, none)
    | (passed, some s) =>
      let (rest, s) := handleConnection streams s
      (passed ++ rest, s)

/-- What is passed on of messages that arrive one after another, without a limit on the rate.  A message
without a Borsh form cannot be sent. -/
def passedOn (msgs : List TpuMessage) : List Transaction :=
  (handleConnection P z (fun _ s => some s)
    (msgs.filterMap fun msg => (msg.serializeToBytes z).toOption) ()).1

end Connection

/-! ### Without a limit -/

section Unlimited

variable {P : Platform} {z : Zstd} {txs : List Transaction} {tx : Transaction} {msg : TpuMessage}
  {n : ℕ}

theorem handleTransactions_unlimited :
    handleTransactions P (fun _ s => some s) n txs ()
      = (txs.filter fun tx => (validate P tx n).isOk, some ()) := by
  induction txs with
  | nil => rfl
  | cons tx txs ih =>
    rw [handleTransactions]
    dsimp only
    rw [ih, filter_cons]
    cases validate P tx n <;> rfl

theorem handleStream_unlimited (data : List UInt8) :
    (handleStream P z (fun _ s => some s) data ()).2 = some () := by
  unfold handleStream
  split_ifs
  · rfl
  · split
    · rfl
    · split <;> rfl
    · rw [handleTransactions_unlimited]

theorem handleConnection_cons (data : List UInt8) (streams : List (List UInt8)) :
    (handleConnection P z (fun _ s => some s) (data :: streams) ()).1
      = (handleStream P z (fun _ s => some s) data ()).1 ++
        (handleConnection P z (fun _ s => some s) streams ()).1 := by
  have hstate := @handleStream_unlimited P z data
  rw [handleConnection]
  generalize handleStream P z (fun _ s => some s) data () = r at hstate
  obtain ⟨passed, s⟩ := r
  obtain rfl : s = some () := hstate
  rfl

theorem passedOn_cons (msg : TpuMessage) (msgs : List TpuMessage) :
    passedOn P z (msg :: msgs) = passedOn P z [msg] ++ passedOn P z msgs := by
  unfold passedOn
  rw [filterMap_cons, filterMap_cons]
  cases (msg.serializeToBytes z).toOption with
  | none => rfl
  | some data =>
    dsimp only
    rw [handleConnection_cons, handleConnection_cons, filterMap_nil]
    exact congrArg (· ++ _) (append_nil _).symm

/-- No transaction passes with a length that is too long. -/
theorem filter_validate_of_lt (h : maxTransactionSize < n) :
    txs.filter (fun tx => (validate P tx n).isOk) = [] := by
  refine filter_eq_nil_iff.mpr fun tx _ hok => ?_
  cases hvalid : validate P tx n with
  | error e => simp [hvalid, Except.isOk, Except.toBool] at hok
  | ok u => exact absurd (validate_eq_ok.mp hvalid).2 (not_le.mpr h)

/-- A message that is decoded is the one that was sent. -/
theorem deserializeFromBytes_eq_ok (hz : z.Lossless) {wire : List UInt8} {msg' : TpuMessage}
    (h : msg.serializeToBytes z = .ok wire)
    (hdec : deserializeFromBytes z wire = .ok (msg', n)) :
    msg' = msg ∧ n = (codec.enc msg).length := by
  obtain ⟨hshort, hlong⟩ := deserializeFromBytes_serialize hz h
  by_cases hle : (codec.enc msg).length ≤ maxBatchDecompressed
  · rw [hshort hle] at hdec
    obtain ⟨_, -, hpair⟩ := exceptMap_eq_ok.mp hdec
    cases hpair
    exact ⟨rfl, rfl⟩
  · obtain ⟨e, he⟩ := hlong (not_le.mp hle)
    exact absurd (he.symm.trans hdec) (by simp)

theorem handleStream_of_deserialize {data : List UInt8} (hkind : ∀ batch, msg ≠ .signedBatch batch)
    (hsize : data.length ≤ maxBatchWireSize)
    (hdec : deserializeFromBytes z data = .ok (msg, n)) :
    (handleStream P z (fun _ s => some s) data ()).1
      = msg.intoTransactions.filter fun tx => (validate P tx n).isOk := by
  rw [handleStream, if_neg (not_lt.mpr hsize), hdec]
  cases msg with
  | transaction tx | transactionBatch txs => exact congrArg Prod.fst handleTransactions_unlimited
  | signedBatch batch => exact absurd rfl (hkind batch)

/-- What is passed on of a message that is no signed batch: every transaction is judged by the length
of the message. -/
theorem passedOn_singleton (hz : z.Lossless) (hkind : ∀ batch, msg ≠ .signedBatch batch)
    (hlimits : (codec.enc msg).length ≤ maxTransactionSize → codec.Fits msg ∧
      msg.enforceLimits (codec.enc msg).length = .ok ()) :
    passedOn P z [msg] = msg.intoTransactions.filter fun tx =>
      (validate P tx (codec.enc msg).length).isOk := by
  have hne : codec.enc msg ≠ [] :=
    ne_nil_of_length_pos (lt_trans zero_lt_one (one_lt_length_enc msg))
  obtain ⟨wire, hcompress, hwire, -⟩ := compress_ok hz hne
  have hstream : ∀ data, msg.serializeToBytes z = .ok data →
      passedOn P z [msg] = (handleStream P z (fun _ s => some s) data ()).1 := by
    intro data hdata
    rw [passedOn, filterMap_cons, hdata]
    exact (handleConnection_cons data []).trans (append_nil _)
  by_cases hshort : (codec.enc msg).length ≤ maxTransactionSize
  · obtain ⟨hfits, hok⟩ := hlimits hshort
    have hser := serializeToBytes_eq_ok.mpr ⟨hfits, hcompress⟩
    have hbatch : (codec.enc msg).length ≤ maxBatchDecompressed :=
      le_trans hshort (by decide)
    have hdec := (deserializeFromBytes_serialize hz hser).1 hbatch
    rw [hok] at hdec
    have hroom : wire.length ≤ maxBatchWireSize :=
      le_trans hwire (le_trans (succ_le_succ hshort) (by decide))
    rw [hstream wire hser, handleStream_of_deserialize hkind hroom hdec]
  · -- Nothing passes, wherever it is stopped.
    rw [filter_validate_of_lt (not_le.mp hshort)]
    cases hser : msg.serializeToBytes z with
    | error e =>
      rw [passedOn, filterMap_cons, hser]
      rfl
    | ok data =>
      rw [hstream data hser]
      by_cases hroom : data.length ≤ maxBatchWireSize
      · cases hdec : deserializeFromBytes z data with
        | error e => rw [handleStream, if_neg (not_lt.mpr hroom), hdec]
        | ok q =>
          obtain ⟨msg', n⟩ := q
          obtain ⟨rfl, rfl⟩ := deserializeFromBytes_eq_ok hz hser hdec
          rw [handleStream_of_deserialize hkind hroom hdec,
            filter_validate_of_lt (not_le.mp hshort)]
      · rw [handleStream, if_pos (not_le.mp hroom)]

/-- **What is passed on of a transaction.** -/
theorem passedOn_transaction (hz : z.Lossless) :
    passedOn P z [.transaction tx]
      = [tx].filter fun tx => (validate P tx (1 + tx.borshSize)).isOk := by
  rw [passedOn_singleton hz (fun _ => by simp) fun hshort => ?_, length_enc_transaction]
  · refine filter_congr fun tx' htx => ?_
    rw [mem_singleton.mp htx]
  · rw [length_enc_transaction] at hshort ⊢
    have hsize : tx.borshSize < 2 ^ 32 := lt_of_le_of_lt (by omega : _ ≤ maxTransactionSize)
      (by decide)
    exact ⟨⟨_, rfl, tx, rfl, short_transaction tx hsize⟩, requireSize_eq_ok.mpr hshort⟩

theorem passedOn_map_transaction (hz : z.Lossless) :
    passedOn P z (txs.map .transaction)
      = txs.filter fun tx => (validate P tx (1 + tx.borshSize)).isOk := by
  induction txs with
  | nil => rfl
  | cons tx txs ih =>
    rw [map_cons, passedOn_cons, passedOn_transaction hz, ih, ← filter_append]
    rfl

/-- **What is passed on of a list of transactions**: each is judged by the length of them all. -/
theorem passedOn_transactionBatch (hz : z.Lossless) (hcount : txs.length ≤ maxUnsignedBatchTxs) :
    passedOn P z [.transactionBatch txs] = txs.filter fun tx =>
      (validate P tx (5 + (txs.map borshSize).sum)).isOk := by
  rw [passedOn_singleton hz (fun _ => by simp) fun hshort => ?_, length_enc_transactionBatch]
  · rfl
  · rw [length_enc_transactionBatch] at hshort ⊢
    have hsum : (txs.map borshSize).sum < 2 ^ 31 :=
      lt_of_le_of_lt (by omega : _ ≤ maxTransactionSize) (by decide)
    refine ⟨transactionBatch_fits hsum, exceptBind_eq_ok.mpr ⟨(), ?_, ?_⟩⟩
    · exact if_neg (not_lt.mpr hcount)
    · exact requireSize_eq_ok.mpr (le_trans hshort (by decide))

theorem validate_isOk :
    (validate P tx n).isOk = true ↔ tx.Valid P ∧ n ≤ maxTransactionSize := by
  rw [← validate_eq_ok (u := ())]
  cases validate P tx n with
  | error e => simp [Except.isOk, Except.toBool]
  | ok u => exact iff_of_true rfl rfl

theorem borshSize_le_sum (h : tx ∈ txs) : tx.borshSize ≤ (txs.map borshSize).sum :=
  single_le_sum (fun _ _ => zero_le _) _ (mem_map.mpr ⟨tx, h, rfl⟩)

end Unlimited

namespace Sample

/-- Bytes are stored as they are. -/
def stored : Zstd := ⟨.ok, fun data limit => .ok (data.take limit)⟩

theorem stored_lossless : stored.Lossless := fun data => ⟨data, rfl, fun _ => rfl⟩

/-- A key. -/
def pubkey : PublicKey := ⟨replicate publicKeyBytes 0, length_replicate⟩

/-- A signature. -/
def signature : Signature := ⟨replicate signatureBytes 0, length_replicate⟩

/-- A message that one account signs, with so many bytes of data. -/
def messageOf (signer : Hash) (n : ℕ) : Message :=
  { numRequiredSignatures := 1, numReadonlySigned := 0, numReadonlyUnsigned := 0,
    accountKeys := [signer], recentBlockhash := Hash.zero,
    instructions := [⟨0, [], replicate n 0⟩] }

/-- A transaction that the owner of the key signs. -/
def padded (n : ℕ) : Transaction :=
  { signatures := [signature], signerPubkeys := [pubkey],
    message := messageOf ((Platform.sample false).hash pubkey.asBytes) n }

theorem borshSize_padded (n : ℕ) : (padded n).borshSize = 5425 + n := by
  have henc : codec.enc (padded n) = Signature.codec.vec.enc [signature] ++
    (PublicKey.codec.vec.enc [pubkey] ++ (1 :: 0 :: 0 :: (Hash.codec.vec.enc [Hash.zero] ++
      (Hash.codec.enc Hash.zero ++ (leBytes 4 1 ++ (0 :: (u8.vec.enc [] ++
        (u8.vec.enc (replicate n 0) ++ [])))))))) := rfl
  have hsignature : (Signature.codec.vec.enc [signature]).length = 3317 := by decide +kernel
  have hpubkey : (PublicKey.codec.vec.enc [pubkey]).length = 1960 := by decide +kernel
  have hkeys : (Hash.codec.vec.enc [Hash.zero]).length = 68 := by decide +kernel
  have hblockhash : (Hash.codec.enc Hash.zero).length = 64 := by decide +kernel
  have hdata : (u8.vec.enc (replicate n 0)).length = 4 + n := by
    rw [length_enc_vec, map_replicate, sum_replicate]
    exact congrArg (4 + ·) (mul_one n)
  rw [borshSize, henc]
  simp only [length_append, length_cons, hsignature, hpubkey, hkeys, hblockhash, hdata,
    length_leBytes, length_enc_vec, length_nil, map_nil, sum_nil]
  omega

theorem valid_padded (n : ℕ) : (padded n).Valid .release where
  payer := cons_ne_nil _ _
  signed := cons_ne_nil _ _
  programs := by simp [Message.programsInRange, padded, messageOf]
  signatures := by rfl

end Sample

/-- **The lists that fare as their transactions do, one by one**: those that are no longer than one
transaction may be, and those of which no transaction would pass alone. -/
theorem batch_agrees_iff (P : Platform) (z : Zstd) (hz : z.Lossless) (txs : List Transaction)
    (hcount : txs.length ≤ maxUnsignedBatchTxs) :
    passedOn P z [.transactionBatch txs] = passedOn P z (txs.map .transaction) ↔
      5 + (txs.map Transaction.borshSize).sum ≤ maxTransactionSize ∨
        ∀ tx ∈ txs, ¬(tx.Valid P ∧ 1 + tx.borshSize ≤ maxTransactionSize) := by
  rw [passedOn_map_transaction hz, passedOn_transactionBatch hz hcount]
  by_cases hshort : 5 + (txs.map borshSize).sum ≤ maxTransactionSize
  · refine iff_of_true (filter_congr fun tx htx => ?_) (.inl hshort)
    have hle := borshSize_le_sum htx
    rw [Bool.eq_iff_iff, validate_isOk, validate_isOk]
    exact and_congr_right fun _ => iff_of_true hshort (by omega)
  · rw [filter_validate_of_lt (not_le.mp hshort), eq_comm, filter_eq_nil_iff]
    simp only [validate_isOk]
    exact ⟨.inr, fun h => h.resolve_left hshort⟩

/-- A short list passes as its transactions do. -/
theorem short_batch_agrees :
    passedOn (Platform.sample false) Sample.stored [.transactionBatch [Sample.padded 0]]
      = passedOn (Platform.sample false) Sample.stored ([Sample.padded 0].map .transaction) :=
  (batch_agrees_iff _ _ Sample.stored_lossless _ (by decide)).mpr
    (.inl (by rw [map_singleton, sum_singleton, Sample.borshSize_padded]; decide))

/-- Thirteen transactions that all pass alone are lost in one list. -/
theorem long_batch_is_lost :
    (List.replicate 13 (Sample.padded 0)).length ≤ maxUnsignedBatchTxs ∧
    passedOn (Platform.sample false) Sample.stored
        [.transactionBatch (List.replicate 13 (Sample.padded 0))] = [] ∧
      passedOn (Platform.sample false) Sample.stored
          ((List.replicate 13 (Sample.padded 0)).map .transaction)
        = List.replicate 13 (Sample.padded 0) := by
  have hcount : (replicate 13 (Sample.padded 0)).length ≤ maxUnsignedBatchTxs := by decide
  refine ⟨hcount, ?_, ?_⟩
  · rw [passedOn_transactionBatch Sample.stored_lossless hcount]
    refine filter_validate_of_lt ?_
    rw [map_replicate, Sample.borshSize_padded]
    decide
  · rw [passedOn_map_transaction Sample.stored_lossless, filter_eq_self]
    intro tx htx
    rw [eq_of_mem_replicate htx, validate_isOk, Sample.borshSize_padded]
    exact ⟨Sample.valid_padded 0, by decide⟩

/-! ### Signed batches -/

/-- **The transactions of a signed batch that the mempool judges by the signer.**  They carry no
signature, so it takes those that ask for none and no others. -/
theorem batch_authority_iff (P : Platform) (batch : SignedTransactionBatch) (size : ℕ)
    (tx : Transaction) (hvalid : validateBatch P batch size = .ok ())
    (htx : tx ∈ batch.toTransactions) :
    (Mempool.Accepts P tx ↔ tx.message.numRequiredSignatures = 1 ∧
        tx.message.accountKeys[0]? = some (batch.signerAddress P)) ↔
      tx.message.numRequiredSignatures ≠ 0 ∧ (tx.message.numRequiredSignatures = 1 →
        tx.message.accountKeys[0]? ≠ some (batch.signerAddress P)) := by
  obtain ⟨entry, hentry, rfl⟩ := mem_map.mp htx
  obtain ⟨-, -, -, hentries, -⟩ := validateBatch_eq_ok.mp hvalid
  have haccepts : Mempool.Accepts P (new entry.message) ↔
      entry.message.numRequiredSignatures = 0 := by
    rw [Mempool.accepts_iff, ← UInt8.toNat_inj]
    exact (and_iff_right (hentries entry hentry).1).trans eq_comm
  rw [haccepts]
  dsimp only [new]
  constructor
  · intro h
    have hzero : entry.message.numRequiredSignatures ≠ 0 := fun hzero =>
      absurd (hzero.symm.trans (h.mp hzero).1) (by decide)
    exact ⟨hzero, fun hone hkey => hzero (h.mpr ⟨hone, hkey⟩)⟩
  · rintro ⟨hzero, hother⟩
    exact iff_of_false hzero fun h => hother h.1 h.2

namespace Sample

/-- A batch of one message, with its root signed. -/
def batchOf (m : Message) : SignedTransactionBatch :=
  { signerPubkey := pubkey, signature, entries := [⟨m, ⟨[], []⟩⟩],
    merkleRoot := hashLeaf (Platform.sample false)
      ((Platform.sample false).hash (Message.codec.enc m)) }

theorem batchOf_passes (signer : Hash) {size : ℕ} (hsize : size ≤ maxBatchWireSize) :
    validateBatch .release (batchOf (messageOf signer 0)) size = .ok () := by
  refine validateBatch_eq_ok.mpr ⟨cons_ne_nil _ _, hsize, by simp [batchOf, maxBatchEntries],
    ?_, ?_⟩
  · intro entry hentry
    obtain rfl := mem_singleton.mp hentry
    exact ⟨cons_ne_nil _ _, by simp [Message.programsInRange, messageOf]⟩
  · refine Bool.and_eq_true_iff.mpr ⟨rfl, all_eq_true.mpr fun entry hentry => ?_⟩
    obtain rfl := mem_singleton.mp hentry
    exact decide_eq_true rfl

/-- Another account. -/
def stranger : Hash := ⟨replicate hashBytes 1, length_replicate⟩

end Sample

open Sample in
/-- A message that another account has to sign is refused, as it should be. -/
theorem message_of_stranger_is_judged :
    validateBatch (Platform.sample false) (batchOf (messageOf stranger 0)) 0 = .ok () ∧
      (Mempool.Accepts (Platform.sample false) (.new (messageOf stranger 0)) ↔
        (messageOf stranger 0).numRequiredSignatures = 1 ∧
          (messageOf stranger 0).accountKeys[0]? = some
            ((batchOf (messageOf stranger 0)).signerAddress (Platform.sample false))) :=
  ⟨batchOf_passes stranger (zero_le _),
    (batch_authority_iff _ _ 0 _ (batchOf_passes stranger (zero_le _))
      (mem_singleton_self _)).mpr ⟨by decide, fun _ => by decide +kernel⟩⟩

open Sample in
/-- The signer's own message passes the server, and every mempool refuses it. -/
theorem own_message_is_refused :
    ∃ batch : SignedTransactionBatch,
      validateBatch (Platform.sample false) batch
        (TpuMessage.codec.enc (.signedBatch batch)).length = .ok () ∧
      ∃ tx ∈ batch.toTransactions, tx.message.numRequiredSignatures = 1 ∧
        tx.message.accountKeys[0]? = some (batch.signerAddress (Platform.sample false)) ∧
        ¬Mempool.Accepts (Platform.sample false) tx := by
  refine ⟨batchOf (padded 0).message, batchOf_passes _ (by decide +kernel), _,
    mem_singleton_self _, rfl, rfl, fun h => ?_⟩
  exact absurd (Mempool.accepts_iff.mp h).2 (by decide)

end Nusantara

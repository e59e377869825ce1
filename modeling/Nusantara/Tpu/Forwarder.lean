import Nusantara.Tpu.Server

/-!
# Forwarding transactions to the leader

A node that is not the leader sends what it collected in streams (`forward_chunked` in
`tpu-forward/src/forwarder.rs`).  Each stream is a list of transactions that stays within
`MAX_FORWARD_STREAM_BYTES`, and a transaction that does not fit in a stream of its own is dropped.

A list has four bytes of framing that a single transaction has not.  A transaction that was just
short enough to arrive is too long to be sent on.

## Main results

* `forwardLoop_ok`: the streams hold, in order, the transactions that fit, and stay within the limit.
* `forwarding_keeps_iff`: all of them arrive iff each fits in a stream.
-/

namespace Nusantara

open Exec List Nat

/-- `FORWARD_BATCH_SIZE`. -/
def forwardBatchSize : ℕ := 64

/-- `MAX_FORWARD_STREAM_BYTES`. -/
def maxForwardStreamBytes : ℕ := 65536

/-- `FRAMING_OVERHEAD`. -/
def framingOverhead : ℕ := 5

/-- `single_tx_borsh_size`. -/
def singleTxBorshSize (tx : Transaction) : ℕ :=
  if Transaction.codec.Fits tx then tx.borshSize else 2 ^ 64 - 1

/-- A chunk is sent unless it is empty. -/
def sendNonempty (chunk : List Transaction) : List (List Transaction) :=
  if chunk = [] then [] else [chunk]

/-- The loop of `forward_chunked`: the chunks that are sent from here on. -/
def forwardLoop (P : Platform) :
    List Transaction → List Transaction → ℕ → Except Fault (List (List Transaction))
  | [], chunk, _ => .ok (sendNonempty chunk)
  | tx :: txs, chunk, chunkBytes => do
    let txBytes := singleTxBorshSize tx
    let alone ← P.wrapAdd 64 framingOverhead txBytes
    if maxForwardStreamBytes < alone then forwardLoop P txs chunk chunkBytes
    else
      let together ← P.wrapAdd 64 chunkBytes txBytes
      if maxForwardStreamBytes < together then
        return sendNonempty chunk ++ (← forwardLoop P txs [tx] alone)
      else forwardLoop P txs (chunk ++ [tx]) together

/-- `forward_chunked`. -/
def forwardChunked (P : Platform) (txs : List Transaction) :
    Except Fault (List (List Transaction)) :=
  forwardLoop P txs [] framingOverhead

section Chunks

variable {P : Platform} {z : Zstd} {tx : Transaction} {txs chunk : List Transaction}

theorem flatten_sendNonempty : (sendNonempty chunk).flatten = chunk := by
  unfold sendNonempty
  split_ifs with h
  · exact h.symm
  · exact append_nil chunk

theorem mem_sendNonempty {c : List Transaction} (h : c ∈ sendNonempty chunk) : c = chunk := by
  unfold sendNonempty at h
  split_ifs at h
  · exact absurd h (not_mem_nil)
  · exact mem_singleton.mp h

/-- How many bytes a chunk is in a stream. -/
def streamBytes (chunk : List Transaction) : ℕ :=
  framingOverhead + (chunk.map Transaction.borshSize).sum

theorem streamBytes_append : streamBytes (chunk ++ [tx]) = streamBytes chunk + tx.borshSize := by
  simp only [streamBytes, map_append, List.sum_append, map_singleton, sum_singleton,
    add_assoc]

/-- **The loop of `forward_chunked`**: the chunks hold what was collected and, in order, what fits in a
stream; each is within the limit. -/
theorem forwardLoop_ok (hsize : ∀ tx ∈ txs, tx.borshSize < maxTransactionSize)
    (hchunk : streamBytes chunk ≤ maxForwardStreamBytes) :
    ∃ chunks, forwardLoop P txs chunk (streamBytes chunk) = .ok chunks ∧
      chunks.flatten = chunk ++ txs.filter (fun tx => streamBytes [tx] ≤ maxForwardStreamBytes) ∧
      ∀ c ∈ chunks, streamBytes c ≤ maxForwardStreamBytes := by
  induction txs generalizing chunk with
  | nil =>
    refine ⟨_, rfl, ?_, fun c hc => mem_sendNonempty hc ▸ hchunk⟩
    rw [flatten_sendNonempty, filter_nil, append_nil]
  | cons tx txs ih =>
    have htx := hsize tx mem_cons_self
    have ih := fun {chunk} => @ih chunk fun tx' h => hsize tx' (mem_cons_of_mem _ h)
    have hbytes : singleTxBorshSize tx = tx.borshSize :=
      if_pos (short_transaction tx (lt_trans htx (by decide)))
    have hsingle : streamBytes [tx] = framingOverhead + tx.borshSize := by
      rw [streamBytes, map_singleton, sum_singleton]
    have hadd : ∀ n ≤ maxForwardStreamBytes, P.wrapAdd 64 n tx.borshSize = .ok (n + tx.borshSize) :=
      fun n hn => if_pos (lt_of_lt_of_le (add_lt_add_of_le_of_lt hn htx) (by decide))
    have hloop : forwardLoop P (tx :: txs) chunk (streamBytes chunk) =
        if maxForwardStreamBytes < streamBytes [tx] then forwardLoop P txs chunk (streamBytes chunk)
        else if maxForwardStreamBytes < streamBytes (chunk ++ [tx]) then
          (forwardLoop P txs [tx] (streamBytes [tx])).map (sendNonempty chunk ++ ·)
        else forwardLoop P txs (chunk ++ [tx]) (streamBytes (chunk ++ [tx])) := by
      rw [forwardLoop, hbytes, hadd _ (by decide), hadd _ hchunk, hsingle, streamBytes_append]
      rfl
    rw [hloop]
    split_ifs with hdrop hfull
    · obtain ⟨chunks, hrun, hflat, hall⟩ := ih hchunk
      exact ⟨chunks, hrun, by rw [hflat, filter_cons_of_neg (by simpa using hdrop)], hall⟩
    · obtain ⟨chunks, hrun, hflat, hall⟩ := @ih [tx] (not_lt.mp hdrop)
      refine ⟨sendNonempty chunk ++ chunks, by rw [hrun]; rfl, ?_, fun c hc => ?_⟩
      · rw [flatten_append, flatten_sendNonempty, hflat,
          filter_cons_of_pos (by simpa using hdrop)]
        rfl
      · rcases mem_append.mp hc with hc | hc
        · exact mem_sendNonempty hc ▸ hchunk
        · exact hall c hc
    · obtain ⟨chunks, hrun, hflat, hall⟩ := @ih (chunk ++ [tx]) (not_lt.mp hfull)
      refine ⟨chunks, hrun, ?_, hall⟩
      rw [hflat, filter_cons_of_pos (by simpa using hdrop), append_assoc]
      rfl

theorem passedOn_transaction_iff (hz : z.Lossless) :
    passedOn P z [.transaction tx] = [tx] ↔ tx.Valid P ∧ tx.borshSize < maxTransactionSize := by
  rw [passedOn_transaction hz, filter_eq_self, forall_mem_singleton, validate_isOk,
    add_comm, add_one_le_iff]

end Chunks

/-- **Which transactions survive being forwarded.**  If each was accepted, all are sent on in order and
accepted again iff each fits in a stream of its own. -/
theorem forwarding_keeps_iff (P : Platform) (z : Zstd) (hz : z.Lossless) (txs : List Transaction)
    (hcount : txs.length ≤ forwardBatchSize)
    (haccepted : ∀ tx ∈ txs, passedOn P z [.transaction tx] = [tx]) :
    (∃ chunks, forwardChunked P txs = .ok chunks ∧ chunks.flatten = txs ∧
      ∀ chunk ∈ chunks, passedOn P z [.transactionBatch chunk] = chunk) ↔
      ∀ tx ∈ txs, framingOverhead + tx.borshSize ≤ maxForwardStreamBytes := by
  have haccepted : ∀ tx ∈ txs, tx.Valid P ∧ tx.borshSize < maxTransactionSize :=
    fun tx htx => (passedOn_transaction_iff hz).mp (haccepted tx htx)
  obtain ⟨chunks, hrun, hflat, hall⟩ := @forwardLoop_ok P txs [] (fun tx htx => (haccepted tx htx).2)
    (by decide)
  have hkept : chunks.flatten = txs ↔
      ∀ tx ∈ txs, framingOverhead + tx.borshSize ≤ maxForwardStreamBytes := by
    rw [hflat, nil_append, filter_eq_self]
    simp only [streamBytes, map_singleton, sum_singleton, decide_eq_true_eq]
  constructor
  · rintro ⟨chunks', hrun', hflat', -⟩
    obtain rfl : chunks = chunks' := Except.ok.inj (hrun.symm.trans hrun')
    exact hkept.mp hflat'
  · intro hfits
    have hflat := hkept.mpr hfits
    refine ⟨chunks, hrun, hflat, fun chunk hchunk => ?_⟩
    -- A chunk is part of the list, so it is short enough and its transactions are valid.
    have hsub : List.Sublist chunk txs := hflat ▸ sublist_flatten_of_mem hchunk
    rw [passedOn_transactionBatch hz (le_trans hsub.length_le hcount), filter_eq_self]
    exact fun tx htx => validate_isOk.mpr ⟨(haccepted tx (hsub.subset htx)).1, hall chunk hchunk⟩

open Sample in
/-- A transaction that leaves room for the framing is kept. -/
theorem small_transaction_is_forwarded :
    ∃ chunks, forwardChunked (Platform.sample false) [padded 0] = .ok chunks ∧
      chunks.flatten = [padded 0] ∧
      ∀ chunk ∈ chunks, passedOn (Platform.sample false) stored [.transactionBatch chunk] = chunk := by
  refine (forwarding_keeps_iff _ _ stored_lossless [padded 0] (by decide) ?_).mpr ?_
  · rintro tx htx
    rw [mem_singleton.mp htx, passedOn_transaction_iff stored_lossless, borshSize_padded]
    exact ⟨valid_padded 0, by decide⟩
  · rintro tx htx
    rw [mem_singleton.mp htx, borshSize_padded]
    decide

open Sample in
/-- A transaction of 65535 bytes is accepted and never sent on. -/
theorem large_transaction_is_dropped :
    passedOn (Platform.sample false) stored [.transaction (padded 60110)] = [padded 60110] ∧
      ∃ chunks, forwardChunked (Platform.sample false) [padded 60110] = .ok chunks ∧
        chunks.flatten = [] := by
  have hsize : (padded 60110).borshSize = 65535 := borshSize_padded 60110
  constructor
  · rw [passedOn_transaction_iff stored_lossless, hsize]
    exact ⟨valid_padded 60110, by decide⟩
  · obtain ⟨chunks, hrun, hflat, -⟩ := @forwardLoop_ok .release [padded 60110] []
      (by rw [forall_mem_singleton, hsize]; decide) (by decide)
    refine ⟨chunks, hrun, ?_⟩
    rw [hflat, nil_append, filter_eq_nil_iff, forall_mem_singleton, streamBytes,
      map_singleton, sum_singleton, hsize]
    decide

end Nusantara

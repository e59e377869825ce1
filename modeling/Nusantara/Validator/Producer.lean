import Nusantara.Validator.Replayer

/-!
# Production of a block

`BlockProducer::produce_block` (`validator/src/block_producer.rs`) with the proof of history it
records (`consensus/src/poh.rs`), and what `leader_slot` does with the block it gets
(`validator/src/slot_loop.rs`).  The transactions are executed and written before the header is
built from the outcome.  The clock of the machine is an input.
-/

namespace Nusantara

open Exec Word

/-! ### Proof of history -/

/-- `TICKS_PER_SLOT`. -/
def ticksPerSlot : ℕ := 64

/-- `PohRecorder`. -/
structure PohRecorder where
  hash : Hash
  numHashes : UInt64
  tickCount : UInt64
  hashesPerTick : UInt64
  deriving DecidableEq

namespace PohRecorder

variable (P : Platform) (r : PohRecorder)

/-- `PohRecorder::hash_iterations`. -/
def hashIterations (count : UInt64) : Except Fault PohRecorder := do
  let numHashes ← P.wrapAdd 64 r.numHashes.toNat count.toNat
  return { r with
    hash := (fun h => P.hash h.asBytes)^[count.toNat] r.hash, numHashes := .ofNat numHashes }

/-- `PohRecorder::record`. -/
def record (txHash : Hash) : Except Fault PohRecorder := do
  let numHashes ← P.wrapAdd 64 r.numHashes.toNat 1
  return { r with
    hash := P.hash (r.hash.asBytes ++ txHash.asBytes), numHashes := .ofNat numHashes }

/-- `PohRecorder::tick`. -/
def tick : Except Fault PohRecorder := do
  if r.hashesPerTick = 0 then throw .divisionByZero
  let r ← r.hashIterations P (saturatingSub r.hashesPerTick (r.numHashes % r.hashesPerTick))
  let tickCount ← P.wrapAdd 64 r.tickCount.toNat 1
  return { r with tickCount := .ofNat tickCount }

/-- `PohRecorder::produce_slot`. -/
def produceSlot : Except Fault PohRecorder :=
  (List.range ticksPerSlot).foldlM (fun r _ => r.tick P) r

/-- `PohRecorder::reset`. -/
def reset (initialHash : Hash) : PohRecorder :=
  { r with hash := initialHash, numHashes := 0, tickCount := 0 }

end PohRecorder

/-! ### The producer -/

/-- `BlockProducer`, without the handles it shares with the rest of the node. -/
structure BlockProducer where
  identityAddress : Hash
  poh : PohRecorder
  parentSlot : UInt64
  parentHash : Hash
  parentBankHash : Hash
  deriving DecidableEq

/-- `BlockProducer::set_parent`. -/
def BlockProducer.setParent (p : BlockProducer) (slot : UInt64) (hash bankHash : Hash) :
    BlockProducer :=
  { p with parentSlot := slot, parentHash := hash, parentBankHash := bankHash,
           poh := p.poh.reset hash }

/-- What `produce_block` returns, with the producer and the bank after it. -/
structure Production where
  block : Block
  execResult : SlotExecutionResult
  frozen : FrozenBankState
  producer : BlockProducer
  bank : ConsensusBank
  deriving DecidableEq

section Produce

variable (P : Platform) (config : ValidatorConfig) (order : List ℕ → List ℕ)

/-- The execution of the transactions of a new block, on the bank advanced to its slot. -/
def executeNew (slot : UInt64) (transactions : List Transaction) (bank : ConsensusBank) :
    Except Fault (SlotExecutionResult × Storage) :=
  executeSlotParallel P bank.storage (buildSysvarCache bank config.rent) config.feeCalculator slot
    transactions order

/-- `BlockProducer::produce_block`. -/
def BlockProducer.produceBlock (p : BlockProducer) (slot : UInt64) (timestamp : Int64)
    (transactions : List Transaction) (bank : ConsensusBank) : Except Fault Production := do
  let bank ← bank.advanceSlot P slot timestamp
  let (execResult, storage) ← executeNew P config order slot transactions bank
  let bank := { bank with storage }.updateStateTree P execResult.accountDeltas
  let recorded ← transactions.foldlM (fun r tx => r.record P (tx.hash P)) p.poh
  let poh ← recorded.produceSlot P
  let blockHash := computeBlockHash P p.parentHash slot poh.hash
  let frozen ← bank.freeze P slot p.parentSlot blockHash p.parentBankHash
    execResult.accountDeltaHash (UInt64.ofNat execResult.transactionsExecuted)
  let header : BlockHeader :=
    { slot, parentSlot := p.parentSlot, parentHash := p.parentHash, blockHash, timestamp,
      validator := p.identityAddress, transactionCount := UInt64.ofNat transactions.length,
      merkleRoot := computeMerkleRoot P transactions, pohHash := poh.hash,
      bankHash := frozen.bankHash, stateRoot := bank.stateRoot P }
  return {
    block := { header, transactions, batches := [] }
    execResult
    frozen
    producer := { p with poh }.setParent slot blockHash frozen.bankHash
    bank := bank.recordSlotHash slot blockHash }

/-- The write of a produced block with its hashes. -/
def storeProduced (block : Block) (frozen : FrozenBankState) (bank : ConsensusBank) :
    ConsensusBank :=
  { bank with storage := bank.storage.putBlock block }.flushToStorage frozen

/-- What `leader_slot` does once it has the transactions: produce the block, store it, and feed it
to the replay stage.  The block is not checked again. -/
def leaderBlock (slot : UInt64) (timestamp : Int64) (transactions : List Transaction)
    (producer : BlockProducer) :
    Exec Fault ReplayStage ValidatorError (Production × ReplayResult) := do
  let s ← get
  let p ← ofFault (producer.produceBlock P config order slot timestamp transactions s.bank)
  set { s with bank := storeProduced p.block p.frozen p.bank }
  let result ← feedBlock P p.block Hash.zero
  return (p, result)

end Produce

section Inversion

variable {P : Platform} {config : ValidatorConfig} {order : List ℕ → List ℕ}
  {producer : BlockProducer} {slot : UInt64} {timestamp : Int64}
  {transactions : List Transaction} {bank : ConsensusBank} {p : Production}

/-- The block holds the transactions it was made from, and its result is that of their execution
on the bank at its slot. -/
theorem produceBlock_eq_ok
    (h : producer.produceBlock P config order slot timestamp transactions bank = .ok p) :
    p.block.transactions = transactions ∧
      ∃ bank' storage, bank.advanceSlot P slot timestamp = .ok bank' ∧
        executeNew P config order slot transactions bank' = .ok (p.execResult, storage) := by
  simp only [BlockProducer.produceBlock, exceptBind_eq_ok] at h
  obtain ⟨bank', hadv, ⟨result, storage⟩, hexec, _, -, poh, -, frozen, -, h⟩ := h
  cases h
  exact ⟨rfl, bank', storage, hadv, hexec⟩

theorem leaderBlock_eq_ok {s s' : ReplayStage} {result : ReplayResult}
    (h : (leaderBlock P config order slot timestamp transactions producer).run s
      = .ok (p, result) s') :
    producer.produceBlock P config order slot timestamp transactions s.bank = .ok p := by
  simp only [leaderBlock, bind_eq_ok, run_get, ofFault_eq_ok, run_set, run_pure,
    Outcome.ok.injEq] at h
  obtain ⟨s₀, _, ⟨rfl, rfl⟩, p', _, ⟨hp, rfl⟩, _, _, -, result', _, -, hpair, -⟩ := h
  obtain ⟨rfl, -⟩ := Prod.mk.inj hpair
  exact hp

end Inversion

end Nusantara

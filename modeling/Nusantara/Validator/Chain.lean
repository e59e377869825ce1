import Nusantara.Lib.Trace
import Nusantara.Validator.Producer

/-!
# Chains of blocks

A chain is a run of a validator in which every step executes a block: one it produces
(`execute_slot_parallel`) or one it receives (`replay_block_full`).

The executor has no record of what has been executed.  A transaction that comes again, in the same
block or in a later one, is executed again for as long as its blockhash is recent.

## Main results

* `count_success_le`: the successes of a message in a block are no more than its occurrences with
  a recent blockhash.
* `noReplay_of_freshMessages`: a chain in which no message occurs twice with a recent blockhash
  executes no message twice.
-/

namespace Nusantara

open Exec Hash

/-! ### The statuses of a slot -/

section Statuses

variable {P : Platform} {storage : Storage} {sysvars : SysvarCache}
  {feeCalculator : FeeCalculator} {slot : UInt64} {txs : List Transaction}
  {order : List ℕ → List ℕ} {cache : AccountCache} {c c' : SlotCommitter} {tx : Transaction}
  {r : TransactionResult} {p : Prepared} {fee : UInt64}

/-- What the result of a charged transaction says of it. -/
theorem runCharged_txHash (h : runCharged P tx sysvars slot p fee = .ok r) :
    r.txHash = tx.hash P ∧ (r.status = .ok () → blockhashValid tx sysvars slot = true) := by
  simp only [runCharged] at h
  split_ifs at h with hbh
  · cases h
    exact ⟨rfl, fun hs => by simp at hs⟩
  · have hvalid : blockhashValid tx sysvars slot = true := by simpa using hbh
    refine ⟨?_, fun _ => hvalid⟩
    split at h
    · simp at h
    · cases h
      rfl
    · obtain ⟨delta, -, h⟩ := exceptBind_eq_ok.mp h
      cases h
      rfl

/-- A result carries the hash of its transaction, and a success needs a recent blockhash. -/
theorem executeOver_eq_ok
    (h : executeOver P storage sysvars feeCalculator slot tx cache = .ok r) :
    r.txHash = tx.hash P ∧ (r.status = .ok () → blockhashValid tx sysvars slot = true) := by
  simp only [executeOver, executeTransaction, exceptBind_eq_ok] at h
  obtain ⟨prep, -, h⟩ := h
  cases prep with
  | error e =>
    cases h
    exact ⟨rfl, fun hs => by simp [TransactionResult.rejected] at hs⟩
  | ok p =>
    obtain ⟨payer, -, h⟩ := exceptBind_eq_ok.mp h
    split_ifs at h
    · cases h
      exact ⟨rfl, fun hs => by simp [TransactionResult.rejected] at hs⟩
    · exact runCharged_txHash h

/-- The text of a status tells success from failure. -/
theorem statusTexts_eq_success : r.statusTexts.2 = "success" ↔ r.status = .ok () := by
  unfold TransactionResult.statusTexts
  cases hs : r.status with
  | ok => simp
  | error e =>
    simp only [reduceCtorEq, iff_false]
    intro h
    have hlist := congrArg (fun s : String => s.toList.head?) h
    simp [toString] at hlist

/-- The entry of a result among the statuses of the slot. -/
def TransactionResult.statusEntry (r : TransactionResult) : Hash × String :=
  (r.txHash, r.statusTexts.2)

variable {rs : List (ℕ × TransactionResult)}

theorem commitAll_txStatuses (h : commitAll P slot rs c = .ok c') :
    c'.txStatuses = c.txStatuses ++ rs.map fun q => q.2.statusEntry := by
  induction rs generalizing c with
  | nil =>
    cases h
    simp
  | cons q rs ih =>
    obtain ⟨c₁, hc₁, h⟩ := exceptBind_eq_ok.mp h
    have hone : c₁.txStatuses = c.txStatuses ++ [q.2.statusEntry] := by
      simp only [SlotCommitter.commitResult, exceptBind_eq_ok] at hc₁
      obtain ⟨_, -, _, -, _, -, _, -, _, -, hc₁⟩ := hc₁
      cases hc₁
      rfl
    rw [ih h, hone]
    simp

theorem runTasks_eq_ok {is : List ℕ}
    (h : runTasks P storage sysvars feeCalculator slot txs cache is = .ok rs) :
    rs.map Prod.fst = is ∧
      ∀ q ∈ rs, runTask P storage sysvars feeCalculator slot txs cache q.1 = .ok q.2 := by
  induction is generalizing rs with
  | nil =>
    cases h
    simp
  | cons i is ih =>
    simp only [runTasks, exceptBind_eq_ok] at h
    obtain ⟨r, hr, rs', hrs', h⟩ := h
    cases h
    obtain ⟨hmap, hall⟩ := ih hrs'
    exact ⟨by simp [hmap], List.forall_mem_cons.mpr ⟨hr, hall⟩⟩

/-- The statuses of a slot: one for each transaction, from some execution of it. -/
theorem executeBatches_txStatuses (horder : ∀ b, (order b).Perm b) {batches : List (List ℕ)}
    (h : executeBatches P storage sysvars feeCalculator slot txs order batches c = .ok c') :
    ∃ rs : List (ℕ × TransactionResult),
      c'.txStatuses = c.txStatuses ++ rs.map (fun q => q.2.statusEntry) ∧
        (rs.map Prod.fst).Perm batches.flatten ∧
          ∀ q ∈ rs, ∃ cache,
            runTask P storage sysvars feeCalculator slot txs cache q.1 = .ok q.2 := by
  induction batches generalizing c with
  | nil =>
    cases h
    exact ⟨[], by simp, by simp, by simp⟩
  | cons b batches ih =>
    simp only [executeBatches, executeBatch, exceptBind_eq_ok] at h
    obtain ⟨c₁, ⟨rs₁, htasks, hcommit⟩, h⟩ := h
    obtain ⟨rs, hstat, hperm, hall⟩ := ih h
    obtain ⟨hmap, hrun⟩ := runTasks_eq_ok htasks
    -- Sorting the results of the batch changes their order only.
    have hsort := List.perm_insertionSort (fun a b : ℕ × TransactionResult => a.1 ≤ b.1) rs₁
    refine ⟨rs₁.insertionSort (fun a b => a.1 ≤ b.1) ++ rs, ?_, ?_, ?_⟩
    · rw [hstat, commitAll_txStatuses hcommit]
      simp
    · rw [List.map_append, List.flatten_cons]
      refine List.Perm.append ?_ hperm
      exact (hsort.map Prod.fst).trans (hmap ▸ horder b)
    · intro q hq
      rcases List.mem_append.mp hq with hq | hq
      · exact ⟨_, hrun q (hsort.mem_iff.mp hq)⟩
      · exact hall q hq

/-- Counting over the numbers of a list is counting over its elements. -/
theorem countP_range (f : Transaction → Bool) :
    (List.range txs.length).countP (fun i => (txs[i]?).any f) = txs.countP f := by
  have hmap : (List.range txs.length).map (fun i => txs[i]?) = txs.map some := by
    apply List.ext_getElem <;> simp
  have hcount := congrArg (List.countP fun o : Option Transaction => o.any f) hmap
  simpa [List.countP_map, Function.comp_def] using hcount

/-- The hashes of the transactions whose blockhash is recent. -/
def liveHashes (P : Platform) (sysvars : SysvarCache) (slot : UInt64) (txs : List Transaction) :
    List Hash :=
  (txs.filter fun tx => blockhashValid tx sysvars slot).map (Transaction.hash P)

/-- **Successes in a block.**  A message succeeds in a block no more often than it occurs there
with a recent blockhash. -/
theorem count_success_le (horder : ∀ b, (order b).Perm b)
    (h : parallelCommitter P storage sysvars feeCalculator slot txs order = .ok c) (k : Hash) :
    c.txStatuses.count (k, "success") ≤ (liveHashes P sysvars slot txs).count k := by
  obtain ⟨batches, hsched, h⟩ := exceptBind_eq_ok.mp h
  obtain ⟨rs, hstat, hperm, hall⟩ := executeBatches_txStatuses horder h
  rw [schedule_flatten hsched] at hperm
  let live : Transaction → Bool := fun tx => tx.hash P = k && blockhashValid tx sysvars slot
  have hlive : ∀ q ∈ rs, q.2.statusEntry = (k, "success") → (txs[q.1]?).any live = true := by
    intro q hq hentry
    obtain ⟨cache, hrun⟩ := hall q hq
    obtain ⟨tx, htx, hexec⟩ := exceptBind_eq_ok.mp hrun
    obtain ⟨hhash, hvalid⟩ := executeOver_eq_ok hexec
    obtain ⟨hk, htext⟩ := Prod.mk.inj hentry
    have hget : txs[q.1]? = some tx := by
      unfold indexAt at htx
      split at htx
      · rename_i a ha
        rw [ha, Except.ok.inj htx]
      · simp at htx
    simp [hget, live, ← hhash, hk, hvalid (statusTexts_eq_success.mp htext)]
  calc c.txStatuses.count (k, "success")
    _ = rs.countP fun q => decide (q.2.statusEntry = (k, "success")) := by
        rw [hstat]
        simp [List.count, List.countP_map, Function.comp_def, beq_eq_decide]
    _ ≤ rs.countP fun q => (txs[q.1]?).any live :=
        List.countP_mono_left fun q hq he => hlive q hq (of_decide_eq_true he)
    _ = (rs.map Prod.fst).countP fun i => (txs[i]?).any live := by
        rw [List.countP_map]
        rfl
    _ = (List.range txs.length).countP fun i => (txs[i]?).any live := hperm.countP_eq _
    _ = txs.countP live := countP_range live
    _ = (liveHashes P sysvars slot txs).count k := by
        simp [liveHashes, List.count, List.countP_map, List.countP_filter, live, Function.comp_def,
          beq_eq_decide]

end Statuses

/-! ### Chains -/

/-- An order in which the threads get to the tasks of a batch. -/
structure TaskOrder where
  order : List ℕ → List ℕ
  perm : ∀ b, (order b).Perm b

/-- What a chain is built on: the producer and the replay stage of a validator. -/
structure ChainState where
  producer : BlockProducer
  stage : ReplayStage
  deriving DecidableEq

/-- A block as it was executed: on which sysvars, and with which statuses. -/
structure ExecutedBlock where
  slot : UInt64
  sysvars : SysvarCache
  transactions : List Transaction
  txStatuses : List (Hash × String)
  deriving DecidableEq

section Chain

variable (P : Platform) (config : ValidatorConfig)

/-- A block is executed on top of a chain. -/
inductive Extends : ChainState → ExecutedBlock → ChainState → Prop
  /-- The validator produces the block. -/
  | produced {c : ChainState} (o : TaskOrder) {slot : UInt64} {timestamp : Int64}
      {transactions : List Transaction} {bank : ConsensusBank} {p : Production}
      {result : ReplayResult} {s : ReplayStage}
      (advance : c.stage.bank.advanceSlot P slot timestamp = .ok bank)
      (run : (leaderBlock P config o.order slot timestamp transactions c.producer).run c.stage
        = .ok (p, result) s) :
      Extends c ⟨slot, buildSysvarCache bank config.rent, transactions, p.execResult.txStatuses⟩
        ⟨p.producer, s⟩
  /-- The validator receives the block. -/
  | replayed {c : ChainState} (o : TaskOrder) {block : Block} {d : DeferredSlotExecution}
      {result : ReplayResult} {s s' : ReplayStage}
      (verify : (verifyBlock P config o.order block).run c.stage = .ok d s)
      (run : (replayBlockFull P config o.order block).run c.stage = .ok result s') :
      Extends c ⟨block.header.slot, buildSysvarCache s.bank config.rent, block.transactions,
          d.result.txStatuses⟩
        ⟨c.producer.setParent block.header.slot block.header.blockHash result.bankHash, s'⟩

/-- No message is executed with success more than once. -/
def NoReplay (blocks : List ExecutedBlock) : Prop :=
  ∀ k, (blocks.flatMap ExecutedBlock.txStatuses).count (k, "success") ≤ 1

/-- No message occurs twice with a blockhash that is recent where it occurs. -/
def FreshMessages (blocks : List ExecutedBlock) : Prop :=
  (blocks.flatMap fun b => liveHashes P b.sysvars b.slot b.transactions).Nodup

variable {P config} {c c' : ChainState} {b : ExecutedBlock} {blocks : List ExecutedBlock}

/-- The step lemma: what `count_success_le` says of a block of a chain. -/
theorem Extends.count_success_le (h : Extends P config c b c') (k : Hash) :
    b.txStatuses.count (k, "success")
      ≤ (liveHashes P b.sysvars b.slot b.transactions).count k := by
  cases h with
  | produced o advance run =>
    obtain ⟨-, bank', storage, hadv, hexec⟩ := produceBlock_eq_ok (leaderBlock_eq_ok run)
    cases hadv.symm.trans advance
    obtain ⟨committer, hcommit, hresult⟩ := exceptBind_eq_ok.mp hexec
    obtain ⟨hfinal, -⟩ := Prod.mk.inj (Except.ok.inj hresult)
    simp only [← hfinal]
    exact Nusantara.count_success_le o.perm hcommit k
  | replayed o verify run =>
    obtain ⟨-, hblock⟩ := verifyBlock_eq_ok verify
    obtain ⟨⟨d', storage⟩, hdeferred, hd⟩ := exceptBind_eq_ok.mp hblock
    cases hd
    obtain ⟨committer, hcommit, hresult⟩ := exceptBind_eq_ok.mp hdeferred
    obtain ⟨hfinal, -⟩ := Prod.mk.inj (Except.ok.inj hresult)
    simp only [← hfinal]
    exact Nusantara.count_success_le o.perm hcommit k

/-- **No transaction replay.**  A chain in which no message occurs twice with a recent blockhash
executes no message twice. -/
theorem noReplay_of_freshMessages (h : Trace.Steps (Extends P config) c blocks c')
    (hfresh : FreshMessages P blocks) : NoReplay blocks := by
  intro k
  have hle : ∀ b ∈ blocks, b.txStatuses.count (k, "success")
      ≤ (liveHashes P b.sysvars b.slot b.transactions).count k :=
    h.forall_label fun _ _ _ hstep => hstep.count_success_le k
  calc (blocks.flatMap ExecutedBlock.txStatuses).count (k, "success")
    _ ≤ (blocks.flatMap fun b => liveHashes P b.sysvars b.slot b.transactions).count k := by
        rw [List.count_flatMap, List.count_flatMap]
        exact List.sum_le_sum hle
    _ ≤ 1 := List.nodup_iff_count_le_one.mp hfresh k

end Chain

/-! ### A transfer that is paid twice -/

namespace Sample

/-- A validator at genesis; a tick is one hash. -/
def chainState (accounts : List (Hash × Account)) : ChainState :=
  { producer :=
      { identityAddress := repeated 2
        poh := { hash := Hash.zero, numHashes := 0, tickCount := 0, hashesPerTick := 1 }
        parentSlot := 0, parentHash := Hash.zero, parentBankHash := Hash.zero }
    stage := stage (store accounts) }

/-- The configuration of the validator. -/
def config : ValidatorConfig := { feeCalculator := fees, rent := Rent.default }

/-- The tasks of a batch in the order of the slot. -/
def inOrder : TaskOrder := ⟨id, List.Perm.refl⟩

/-- A wallet pays one million lamports to another. -/
def payment : Transaction :=
  transaction 1 1 [repeated 5, repeated 6, program .system] [transfer 2 0 1 1000000]

/-- The chain that starts with a wallet of ten million lamports. -/
def wallets : ChainState := chainState [(repeated 5, wallet 10000000)]

end Sample

open Sample in
/-- A chain of one block with one payment executes it once. -/
theorem payment_succeeds_once :
    ∃ blocks c, Trace.Steps (Extends (Platform.sample false) config) wallets blocks c ∧
      FreshMessages (Platform.sample false) blocks ∧ blocks.length = 1 ∧ NoReplay blocks := by
  obtain ⟨⟨p, result⟩, s, h, -⟩ :
      ∃ r x, (leaderBlock .release config inOrder.order 1 0 [payment]
          wallets.producer).run wallets.stage = .ok r x ∧ True := by decide +kernel
  obtain ⟨-, bank, -, hadv, -⟩ := produceBlock_eq_ok (leaderBlock_eq_ok h)
  have hchain := Trace.Steps.cons (Extends.produced inOrder hadv h) (.nil _)
  have hfresh : FreshMessages .release [⟨1, buildSysvarCache bank config.rent,
      [payment], p.execResult.txStatuses⟩] := by
    simp only [FreshMessages, List.flatMap_cons, List.flatMap_nil, List.append_nil, liveHashes]
    exact (List.nodup_singleton payment).filter _ |>.map_on fun a ha b hb _ => by
      rw [List.mem_singleton.mp (List.mem_of_mem_filter ha),
        List.mem_singleton.mp (List.mem_of_mem_filter hb)]
  exact ⟨_, _, hchain, hfresh, rfl, noReplay_of_freshMessages hchain hfresh⟩

open Sample in
/-- A chain of two blocks, each with the same payment, which succeeds in both. -/
theorem payment_succeeds_twice :
    ∃ blocks c, Trace.Steps (Extends (Platform.sample false) config) wallets blocks c ∧
      ¬ NoReplay blocks := by
  obtain ⟨⟨p₁, result₁⟩, s₁, h₁, ⟨p₂, result₂⟩, s₂, h₂, htwo⟩ :
      ∃ q₁ s₁, (leaderBlock (Platform.sample false) config inOrder.order 1 0 [payment]
          wallets.producer).run wallets.stage = .ok q₁ s₁ ∧
      ∃ q₂ x, (leaderBlock (Platform.sample false) config inOrder.order 2 1 [payment]
          q₁.1.producer).run s₁ = .ok q₂ x ∧
      (q₁.1.execResult.txStatuses ++ q₂.1.execResult.txStatuses).count (payment.hash
          (Platform.sample false), "success") = 2 := by
    decide +kernel
  obtain ⟨-, bank₁, -, hadv₁, -⟩ := produceBlock_eq_ok (leaderBlock_eq_ok h₁)
  obtain ⟨-, bank₂, -, hadv₂, -⟩ := produceBlock_eq_ok (leaderBlock_eq_ok h₂)
  refine ⟨_, _, .cons (.produced inOrder hadv₁ h₁) (.cons
    (.produced (c := ⟨p₁.producer, s₁⟩) inOrder hadv₂ h₂) (.nil _)), fun hno => ?_⟩
  have hone := hno (payment.hash (Platform.sample false))
  simp only [List.flatMap_cons, List.flatMap_nil, List.append_nil] at hone
  dsimp only at htwo
  omega

end Nusantara

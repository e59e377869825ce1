import Nusantara.Runtime.ComputeBudget
import Nusantara.Runtime.Dispatch
import Nusantara.Storage.Accounts

/-!
# Execution of a transaction

From a transaction to its effect on accounts (`runtime/src/{account_loader,transaction_executor,
transaction_context}.rs`).  A transaction passes three stages:

* `prepare` checks the indices of the message, the signatures (unless the caller vouches for
  them) and the compute budget, and loads the accounts.  A failure here costs nothing;
* the fee is taken from the first account;
* `runCharged` checks the blockhash, runs the instructions and collects the accounts that
  changed.  A failure here still pays the fee.
-/

namespace Nusantara

open Exec TransactionContext List

/-! ### Checks before execution -/

/-- The loop of `sanitize_message` over the accounts of one instruction. -/
def sanitizeAccounts (n ixIdx : ℕ) : ℕ → List UInt8 → Except RuntimeError Unit
  | _, [] => .ok ()
  | ai, accIdx :: rest =>
    let acc := accIdx.toNat
    if n ≤ acc then .error (.invalidInstructionData
      s!"instruction {ixIdx}: account index {ai} value {acc} out of bounds (account_keys len {n})")
    else sanitizeAccounts n ixIdx (ai + 1) rest

/-- The loop of `sanitize_message` over the instructions. -/
def sanitizeInstructions (n : ℕ) : ℕ → List CompiledInstruction → Except RuntimeError Unit
  | _, [] => .ok ()
  | ixIdx, ix :: rest =>
    let pid := ix.programIdIndex.toNat
    if n ≤ pid then .error (.invalidInstructionData
      s!"instruction {ixIdx}: program_id_index {pid} out of bounds (account_keys len {n})")
    else do
      sanitizeAccounts n ixIdx 0 ix.accounts
      sanitizeInstructions n (ixIdx + 1) rest

/-- `sanitize_message`. -/
def sanitizeMessage (m : Message) : Except RuntimeError Unit :=
  sanitizeInstructions m.accountKeys.length 0 m.instructions

/-- The accounts committed so far in a slot. -/
abbrev AccountCache := Finmap fun _ : Hash => Account

section Load

variable (storage : Storage) (cache : Option AccountCache)

/-- An account as a transaction sees it: the cache first, then the store; an account that does
not exist is empty and owned by the zero hash. -/
def loadAccount (address : Hash) : Account :=
  match cache.bind fun c => c.lookup address with
  | some account => account
  | none => (storage.getAccount address).getD (Account.new 0 Hash.zero)

/-- The check for repeated account keys; `seen` are the keys before. -/
def rejectDuplicates : List Hash → List Hash → Except RuntimeError Unit
  | _, [] => .ok ()
  | seen, address :: rest =>
    if address ∈ seen then .error (.accountIndexAliasing (seen.idxOf address) seen.length)
    else rejectDuplicates (seen ++ [address]) rest

/-- The loop that loads the accounts under a limit on the size of their data. -/
def loadEach (limit : ℕ) : ℕ → List Hash → Except RuntimeError (List (Hash × Account))
  | _, [] => .ok []
  | size, address :: rest =>
    let account := loadAccount storage cache address
    let size := size + account.data.length
    if limit < size then .error (.loadedAccountsDataSizeExceeded size limit)
    else do
      let loaded ← loadEach limit size rest
      return (address, account) :: loaded

/-- `load_accounts`. -/
def loadAccounts (keys : List Hash) (limit : ℕ) :
    Except RuntimeError (List (Hash × Account)) := do
  rejectDuplicates [] keys
  loadEach storage cache limit 0 keys

end Load

/-! ### After execution -/

namespace TransactionContext

variable (P : Platform) (ctx : TransactionContext)

/-- `TransactionContext::post_balances`. -/
def postBalances : List UInt64 := ctx.accounts.map fun p => p.2.lamports

/-- `TransactionContext::collect_account_deltas`: the accounts that differ from the snapshot. -/
def collectAccountDeltas : List (Hash × Account) :=
  ((ctx.accounts.zip ctx.preAccounts).filter fun p => p.1.2 ≠ p.2.2).map Prod.fst

/-- The balances of a list of accounts, added up in `u128`. -/
def totalLamports (accounts : List (Hash × Account)) : ℕ :=
  (accounts.map fun p => p.2.lamports.toNat).sum

end TransactionContext

section Verify

variable (P : Platform)

/-- No read-only account was modified. -/
def checkReadonly : ℕ → List ((Hash × Account) × (Hash × Account)) → Run Unit
  | _, [] => return ()
  | i, (post, pre) :: rest => do
    let ctx ← Exec.get
    let isWritable ← ofFault (ctx.message.isWritable P i)
    require (isWritable = true ∨ post.2 = pre.2) (.readonlyAccountModified i)
    checkReadonly (i + 1) rest

/-- `TransactionContext::verify_invariants`. -/
def verifyInvariants : Run Unit := do
  let ctx ← Exec.get
  require (totalLamports ctx.preAccounts = totalLamports ctx.accounts) .lamportsOverflow
  let pairs := ctx.accounts.zip ctx.preAccounts
  checkReadonly P 0 pairs
  require (∀ p ∈ pairs, p.2.2.executable = true → p.1.2.executable = true)
    .executableAccountModified

/-- The delta of the fee payer, as the context has it. -/
def payerDelta (ctx : TransactionContext) : Except Fault (List (Hash × Account)) :=
  match (getAccount P 0).run ctx with
  | .ok payer _ => .ok [(payer.address, payer.account)]
  | .err _ _ => .error .indexOutOfBounds
  | .fault f => .error f

end Verify

/-! ### The executor -/

/-- What the execution of a transaction reports. -/
structure TransactionResult where
  txHash : Hash
  status : Except RuntimeError Unit
  fee : UInt64
  computeUnitsConsumed : ℕ
  accountDeltas : List (Hash × Account)
  preBalances : List UInt64
  postBalances : List UInt64
  /-- The accounts as they were loaded, before the fee. -/
  loadedAccounts : List (Hash × Account)
  deriving DecidableEq

/-- The result of a transaction that was not charged. -/
def TransactionResult.rejected (txHash : Hash) (e : RuntimeError) : TransactionResult :=
  { txHash, status := .error e, fee := 0, computeUnitsConsumed := 0, accountDeltas := [],
    preBalances := [], postBalances := [], loadedAccounts := [] }

instance : Inhabited TransactionResult := ⟨.rejected default .lamportsOverflow⟩

/-- `SIGNATURE_VERIFY_COST`. -/
def signatureVerifyCost : ℕ := 2000

section

variable (P : Platform) (tx : Transaction) (storage : Storage) (sysvars : SysvarCache)
  (feeCalculator : FeeCalculator) (slot : UInt64) (cache : Option AccountCache)
  (skipSigVerify : Bool)

section Execute

/-- The signature check, which a caller may vouch for. -/
def checkSignatures : Except Fault (Except RuntimeError Unit) :=
  if skipSigVerify then .ok (.ok ())
  else (tx.verifySignatures P).map fun r =>
    r.mapError fun e => .signatureVerificationFailed e.toText

/-- What a transaction that may be charged brings along. -/
structure Prepared where
  budget : ComputeBudget
  accounts : List (Hash × Account)
  deriving DecidableEq

/-- The checks and the loading of the accounts that come before the fee. -/
def prepare : Except Fault (Except RuntimeError Prepared) :=
  match sanitizeMessage tx.message with
  | .error e => .ok (.error e)
  | .ok () => do
    match ← checkSignatures P tx skipSigVerify with
    | .error e => return .error e
    | .ok () => return do
      let budget ← parseComputeBudget P tx.message
      let accounts ← loadAccounts storage cache tx.message.accountKeys
        budget.loadedAccountsDataSizeLimit
      return { budget, accounts }

/-- The fee of a transaction. -/
def transactionFee : UInt64 :=
  feeCalculator.calculateFee (UInt64.ofNat tx.message.numRequiredSignatures.toNat)

/-- The accounts after the fee has been taken from the first. -/
def chargePayer (fee : UInt64) : List (Hash × Account) → List (Hash × Account)
  | [] => []
  | (address, payer) :: rest => (address, payer.withLamports (payer.lamports - fee)) :: rest

/-- Whether the blockhash of a message is recent; the zero hash counts at genesis. -/
def blockhashValid : Bool :=
  sysvars.containsBlockhash tx.message.recentBlockhash ||
    (slot = 0 && tx.message.recentBlockhash = Hash.zero)

/-- Charge the signatures and run the instructions. -/
def runInstructions : Run Unit := do
  consumeCompute (tx.message.numRequiredSignatures.toNat * signatureVerifyCost)
  executeInstructions P sysvars

/-- The instructions, followed by the checks on what they have done. -/
def runAndVerify : Run Unit := do
  runInstructions P tx sysvars
  verifyInvariants P

/-- The context in which the instructions start. -/
def initialContext (budget : ComputeBudget) (charged : List (Hash × Account)) :
    TransactionContext :=
  TransactionContext.new charged tx.message slot budget.computeUnitLimit

/-- The result of a transaction that has paid its fee. -/
def runCharged (p : Prepared) (fee : UInt64) : Except Fault TransactionResult :=
  let charged := chargePayer fee p.accounts
  let base : TransactionResult :=
    { txHash := tx.hash P, status := .ok (), fee, computeUnitsConsumed := 0, accountDeltas := [],
      preBalances := p.accounts.map fun q => q.2.lamports, postBalances := [],
      loadedAccounts := p.accounts }
  if blockhashValid tx sysvars slot = false then
    .ok { base with
      status := .error .blockhashNotFound
      accountDeltas := charged.take 1
      postBalances := charged.map fun q => q.2.lamports }
  else
    match (runAndVerify P tx sysvars).run (initialContext tx slot p.budget charged) with
    | .fault f => .error f
    | .ok () ctx => .ok { base with
        computeUnitsConsumed := ctx.computeMeter.consumed
        accountDeltas := ctx.collectAccountDeltas
        postBalances := ctx.postBalances }
    | .err e ctx => do
      let delta ← payerDelta P ctx
      return { base with
        status := .error e
        computeUnitsConsumed := ctx.computeMeter.consumed
        accountDeltas := delta
        postBalances := ctx.postBalances }

/-- `execute_transaction`. -/
def executeTransaction : Except Fault TransactionResult := do
  match ← prepare P tx storage cache skipSigVerify with
  | .error e => return .rejected (tx.hash P) e
  | .ok p =>
    let fee := transactionFee tx feeCalculator
    let payer ← indexAt p.accounts 0
    if payer.2.lamports < fee then
      let balances := p.accounts.map fun q => q.2.lamports
      return { TransactionResult.rejected (tx.hash P) (.insufficientFunds fee payer.2.lamports) with
        preBalances := balances, postBalances := balances, loadedAccounts := p.accounts }
    else runCharged P tx sysvars slot p fee

end Execute

/-! ### What the stages establish -/

section Stages

variable {P tx storage sysvars cache skipSigVerify} {W : ℕ → Prop} {s₀ : TransactionContext}
  {p : Prepared}

theorem rejectDuplicates_ok {seen keys : List Hash} (hseen : seen.Nodup)
    (h : rejectDuplicates seen keys = .ok ()) : (seen ++ keys).Nodup := by
  induction keys generalizing seen with
  | nil => simpa using hseen
  | cons key keys ih =>
    unfold rejectDuplicates at h
    split_ifs at h with hmem
    have hnew : (seen ++ [key]).Nodup := by
      rw [← concat_eq_append]
      exact hseen.concat hmem
    simpa using ih hnew h

section

variable {keys : List Hash} {loaded : List (Hash × Account)}

theorem loadEach_ok {limit size : ℕ}
    (h : loadEach storage cache limit size keys = .ok loaded) :
    loaded = keys.map fun k => (k, loadAccount storage cache k) := by
  induction keys generalizing size loaded with
  | nil => exact (Except.ok.inj h).symm
  | cons key keys ih =>
    simp only [loadEach, bind, Except.bind] at h
    split_ifs at h
    split at h
    · simp at h
    · rename_i rest hrest
      cases h
      rw [ih hrest, map_cons]

theorem loadAccounts_ok {limit : ℕ}
    (h : loadAccounts storage cache keys limit = .ok loaded) :
    keys.Nodup ∧ loaded = keys.map fun k => (k, loadAccount storage cache k) := by
  simp only [loadAccounts, bind, Except.bind] at h
  split at h
  · simp at h
  · rename_i hdup
    exact ⟨by simpa using rejectDuplicates_ok nodup_nil hdup, loadEach_ok h⟩

end

theorem checkSignatures_isOk : ∃ r, checkSignatures P tx skipSigVerify = .ok r := by
  unfold checkSignatures
  split_ifs
  · exact ⟨_, rfl⟩
  · obtain ⟨r, hr⟩ : ∃ r, tx.verifySignatures P = .ok r := Transaction.verifySignatures_isOk
    exact ⟨_, by rw [hr]; rfl⟩

theorem prepare_isOk : ∃ r, prepare P tx storage cache skipSigVerify = .ok r := by
  obtain ⟨r, hr⟩ : ∃ r, checkSignatures P tx skipSigVerify = .ok r := checkSignatures_isOk
  unfold prepare
  split
  · exact ⟨_, rfl⟩
  · rw [hr]
    cases r <;> exact ⟨_, rfl⟩

section

variable (h : prepare P tx storage cache skipSigVerify = .ok (.ok p))

include h

/-- What a transaction that may be charged has passed. -/
theorem prepare_ok :
    sanitizeMessage tx.message = .ok () ∧
      checkSignatures P tx skipSigVerify = .ok (.ok ()) ∧
      parseComputeBudget P tx.message = .ok p.budget ∧
      loadAccounts storage cache tx.message.accountKeys p.budget.loadedAccountsDataSizeLimit
        = .ok p.accounts := by
  unfold prepare at h
  split at h
  · simp at h
  · rename_i hsan
    refine ⟨hsan, ?_⟩
    cases hsig : checkSignatures P tx skipSigVerify with
    | error f => simp [hsig, bind, Except.bind] at h
    | ok r =>
      cases r with
      | error e => simp [hsig, bind, Except.bind, pure, Except.pure] at h
      | ok u =>
        refine ⟨rfl, ?_⟩
        simp only [hsig, bind, Except.bind, pure, Except.pure, Except.ok.injEq] at h
        split at h
        · simp at h
        · rename_i budget hbudget
          split at h
          · simp at h
          · rename_i accounts haccounts
            cases h
            exact ⟨hbudget, haccounts⟩

theorem prepare_accounts :
    p.accounts = tx.message.accountKeys.map fun k => (k, loadAccount storage cache k) :=
  (loadAccounts_ok (prepare_ok h).2.2.2).2

end

/-- The fee payer of a message, as it is loaded. -/
theorem prepare_payer {q : Hash × Account}
    (h : prepare P tx storage cache skipSigVerify = .ok (.ok p)) (hq : p.accounts[0]? = some q) :
    tx.message.accountKeys[0]? = some q.1 ∧ q.2 = loadAccount storage cache q.1 := by
  rw [prepare_accounts h, getElem?_map, Option.map_eq_some_iff] at hq
  obtain ⟨k, hk, rfl⟩ := hq
  exact ⟨hk, rfl⟩

instance {i : ℕ} {pairs : List ((Hash × Account) × (Hash × Account))} :
    Confined P W s₀ True (checkReadonly P i pairs) := by
  induction pairs generalizing i with
  | nil => exact ⟨fun _ => Keeps.pure _⟩
  | cons pair pairs ih =>
    refine ⟨fun _ => keeps_get_bind fun s hs => (keeps_isWritable hs).bind fun _ => ?_⟩
    exact (Keeps.require _ _).bind fun _ => ih.keeps trivial

instance : Confined P W s₀ True (verifyInvariants P) := by
  unfold verifyInvariants
  infer_instance

theorem keeps_runAndVerify :
    Keeps (Evolves P s₀) (DispatchFault P s₀.message) (runAndVerify P tx sysvars) :=
  (evolves_of_confined.bind fun _ => keeps_executeInstructions).bind fun _ => evolves_of_confined

theorem payerDelta_eq_ok {ctx : TransactionContext} {d : List (Hash × Account)} :
    payerDelta P ctx = .ok d ↔
      ∃ q, ctx.accounts[0]? = some q ∧ d = [q] ∧ ∃ w, ctx.message.isWritable P 0 = .ok w := by
  unfold payerDelta
  constructor
  · intro h
    split at h
    · rename_i r s' hrun
      obtain ⟨rfl, hr, -, hw⟩ := getAccount_eq_ok.mp hrun
      exact ⟨_, hr, (Except.ok.inj h).symm, _, hw⟩
    · simp at h
    · simp at h
  · rintro ⟨⟨address, account⟩, hq, rfl, w, hw⟩
    have hrun : (getAccount P 0).run ctx
        = .ok ⟨address, account, ctx.message.isSigner 0, w⟩ ctx :=
      getAccount_eq_ok.mpr ⟨rfl, hq, rfl, hw⟩
    rw [hrun]

end Stages

/-! ### Transactions that pay the fee -/

section Charged

/-- The transaction passes the checks, and its first account can pay the fee. -/
structure Charged (p : Prepared) (payer : Hash × Account) : Prop where
  prepared : prepare P tx storage cache skipSigVerify = .ok (.ok p)
  payer_eq : p.accounts[0]? = some payer
  funded : transactionFee tx feeCalculator ≤ payer.2.lamports

variable {P tx storage sysvars feeCalculator slot cache skipSigVerify} {p : Prepared}
  {payer : Hash × Account} {r : TransactionResult}

/-- A charged transaction runs. -/
theorem Charged.executeTransaction_eq
    (h : Charged P tx storage feeCalculator cache skipSigVerify p payer) :
    executeTransaction P tx storage sysvars feeCalculator slot cache skipSigVerify
      = runCharged P tx sysvars slot p (transactionFee tx feeCalculator) := by
  simp only [executeTransaction, h.prepared, indexAt, h.payer_eq, bind, Except.bind,
    UInt64.not_lt.mpr h.funded, if_false]

/-- A transaction either costs nothing and changes nothing, or is charged. -/
theorem executeTransaction_cases
    (h : executeTransaction P tx storage sysvars feeCalculator slot cache skipSigVerify = .ok r) :
    (r.fee = 0 ∧ r.accountDeltas = [] ∧ ∃ e, r.status = .error e) ∨
      ∃ p payer, Charged P tx storage feeCalculator cache skipSigVerify p payer := by
  unfold executeTransaction at h
  cases hprep : prepare P tx storage cache skipSigVerify with
  | error f => simp [hprep, bind, Except.bind] at h
  | ok res =>
    cases res with
    | error e =>
      simp only [hprep, bind, Except.bind, pure, Except.pure] at h
      cases h
      exact Or.inl ⟨rfl, rfl, e, rfl⟩
    | ok p =>
      simp only [hprep, bind, Except.bind, indexAt] at h
      cases hpayer : p.accounts[0]? with
      | none => simp [hpayer] at h
      | some payer =>
        simp only [hpayer, pure, Except.pure] at h
        split_ifs at h with hfee
        · cases h
          exact Or.inl ⟨rfl, rfl, _, rfl⟩
        · exact Or.inr ⟨p, payer, hprep, hpayer, UInt64.not_lt.mp hfee⟩

/-- The first account after the fee. -/
def chargedPayer (fee : UInt64) (payer : Hash × Account) : Hash × Account :=
  (payer.1, payer.2.withLamports (payer.2.lamports - fee))

theorem Charged.accounts_eq (h : Charged P tx storage feeCalculator cache skipSigVerify p payer) :
    ∃ rest, p.accounts = payer :: rest ∧
      chargePayer (transactionFee tx feeCalculator) p.accounts
        = chargedPayer (transactionFee tx feeCalculator) payer :: rest := by
  have hpayer := h.payer_eq
  cases hacc : p.accounts with
  | nil => simp [hacc] at hpayer
  | cons q rest =>
    obtain rfl : q = payer := by simpa [hacc] using hpayer
    exact ⟨rest, rfl, rfl⟩

end Charged

end

/-! ### Inputs to evaluate on -/

namespace Sample

/-- The sysvars of a chain at the given slot whose only recent blockhash is the zero hash. -/
def sysvars (slot : UInt64) : SysvarCache :=
  { clock := { slot, epoch := 0, unixTimestamp := 0 }, rent := Rent.default,
    recentBlockhashes := [Hash.zero] }

/-- `FeeCalculator::default`. -/
def fees : FeeCalculator := { lamportsPerSignature := 5000 }

/-- The id of a built-in program on the platforms of `Platform.sample`. -/
def program (b : Builtin) : Hash := (Platform.sample false).programId b

/-- A wallet. -/
def wallet (lamports : UInt64) : Account := Account.new lamports (program .system)

/-- A store that holds the given accounts since slot 0. -/
def store (accounts : List (Hash × Account)) : Storage :=
  accounts.foldl (fun s q => s.putAccount q.1 0 q.2) Storage.empty

/-- A transaction whose last account keys are read-only programs.  The signatures are left out:
on the sample platforms nothing would be learnt from them. -/
def transaction (signers programs : UInt8) (keys : List Hash)
    (instructions : List CompiledInstruction) : Transaction :=
  { signatures := [], signerPubkeys := [],
    message :=
      { numRequiredSignatures := signers, numReadonlySigned := 0,
        numReadonlyUnsigned := programs, accountKeys := keys, recentBlockhash := Hash.zero,
        instructions } }

/-- A transfer between two positions of the account keys. -/
def transfer (program source dest : UInt8) (lamports : UInt64) : CompiledInstruction :=
  { programIdIndex := program, accounts := [source, dest],
    data := SystemInstruction.codec.enc (.transfer lamports) }

end Sample

end Nusantara

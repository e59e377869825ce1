import Nusantara.Runtime.Fees
import Nusantara.Runtime.Scheduler

/-!
# Which transactions stop the executor

The scheduler and the executor are run on transactions as they come off the wire.  Three things
can stop them:

* a header that claims more read-only accounts than there are accounts (`HeaderFits`): where
  arithmetic is checked, `is_writable` stops the process;
* a message without accounts and without instructions: it passes every check, and the fee payer
  is then read from an empty list;
* a program whose stored bytecode length takes the end of its bytecode out of `usize`: where
  arithmetic wraps, the end comes before the start and the slice stops the process.

## Main results

* `executeInstruction_fault_iff`, `executeFrom_fault_iff`: the one way an instruction, and a run
  of instructions, stops a build without overflow checks.
* `survives_iff`: the transaction lists that the scheduler and the executor get through.
-/

namespace Nusantara

open Exec TransactionContext List LoaderState

/-! ### Instructions -/

/-- The instruction calls a program whose stored bytecode length wraps. -/
def WrapsAt (P : Platform) (s : TransactionContext) (ix : CompiledInstruction) : Prop :=
  ∃ programId s₁ pd s₂,
    s.message.accountKeys[ix.programIdIndex.toNat]? = some programId ∧
    (consumeCompute (instructionBaseCost + ix.data.length * instructionDataByteCost)).run s
      = .ok () s₁ ∧
    (programId ≠ P.programId .sysvar ∧ programId ≠ P.programId .rent) ∧
    findProcessor P programId = none ∧
    (findProgramData P programId).run s₁ = .ok pd s₂ ∧
    lengthWraps pd.account.data = true

section Instructions

variable {P : Platform} {sysvars : SysvarCache} {s s' : TransactionContext}
  {programId : Hash} {f : Fault} {α : Type} {m : Run α}

section

variable (hP : P.overflowChecks = false)

include hP

/-- Without overflow checks, what only stops at `RunFault` does not stop. -/
theorem ne_fault_of_release
    (hm : Keeps (Evolves P s) (RunFault P s.message) m) : m.run s ≠ .fault f := by
  intro hrun
  have hfault := (hm.of_fault (Evolves.refl s) hrun).1
  simp [hP] at hfault

theorem loadBytecode_fault_iff :
    (∃ f, (loadBytecode P programId).run s = .fault f) ↔
      ∃ pd s', (findProgramData P programId).run s = .ok pd s' ∧
        lengthWraps pd.account.data = true := by
  simp only [loadBytecode, bind_eq_fault]
  constructor
  · rintro ⟨f, h | ⟨pd, s', hpd, h | ⟨bytecode, s'', -, h⟩⟩⟩
    · exact absurd h (ne_fault_of_release hP keeps_of_confined)
    · refine ⟨pd, s', hpd, ?_⟩
      cases hex : extractBytecode P pd.account.data with
      | ok b => simp [hex, ofFault, Exec.pure] at h
      | error g => exact (extractBytecode_eq_error.mp hex).1
    · exact absurd h ofExcept_ne_fault
  · rintro ⟨pd, s', hpd, hwraps⟩
    have hex := extractBytecode_eq_error (P := P).mpr ⟨hwraps, rfl⟩
    exact ⟨_, Or.inr ⟨pd, s', hpd, Or.inl (by rw [hex]; rfl)⟩⟩

theorem dispatchWasmProgram_fault_iff (accounts data : List UInt8) :
    (∃ f, (dispatchWasmProgram P programId accounts data).run s = .fault f) ↔
      ∃ pd s', (findProgramData P programId).run s = .ok pd s' ∧
        lengthWraps pd.account.data = true := by
  rw [← loadBytecode_fault_iff hP]
  constructor
  · rintro ⟨f, h⟩
    simp only [dispatchWasmProgram, bind_eq_fault] at h
    rcases h with h | ⟨bytecode, s₁, -, h | ⟨-, s₂, -, h | ⟨ctx, s₃, -, h | ⟨-, s₄, -, h⟩⟩⟩⟩
    · exact ⟨f, h⟩
    · exact absurd h (ne_fault_of_release hP keeps_of_confined)
    · simp at h
    · simp at h
    · exact absurd h ofExcept_ne_fault
  · rintro ⟨f, h⟩
    exact ⟨f, bind_of_fault h⟩

/-- Without overflow checks, an instruction stops the process exactly where it calls a program
whose stored bytecode length wraps. -/
theorem executeInstruction_fault_iff (sysvars : SysvarCache)
    (k : ℕ) {ix : CompiledInstruction} :
    (∃ f, (executeInstruction P sysvars k ix).run s = .fault f) ↔ WrapsAt P s ix := by
  constructor
  · rintro ⟨f, h⟩
    simp only [executeInstruction, dispatchInstruction, bind_eq_fault, run_get, Outcome.ok.injEq,
      reduceCtorEq, false_or, ofOption_eq_ok, require_eq_ok, require_ne_fault] at h
    obtain ⟨_, _, ⟨rfl, rfl⟩, h | ⟨pid, _, ⟨hpid, rfl⟩, h | ⟨_, s₁, hs₁, _, _, ⟨hexec, rfl⟩, h⟩⟩⟩ := h
    · exact absurd h ofOption_ne_fault
    · exact absurd h (ne_fault_of_release hP keeps_of_confined)
    · split at h
      · rename_i b hb
        exact absurd h (ne_fault_of_release hP (keeps_evolves (F := RunFault P)
          (W := fun _ => Leading ix.accounts (writtenCount ix.data b)) fun _ => Confined.keeps trivial))
      · rename_i hnone
        obtain ⟨pd, s₂, hpd, hwraps⟩ := (dispatchWasmProgram_fault_iff hP _ _).mp ⟨f, h⟩
        exact ⟨pid, s₁, pd, s₂, hpid, hs₁, hexec, hnone, hpd, hwraps⟩
  · rintro ⟨pid, s₁, pd, s₂, hpid, hs₁, hexec, hnone, hpd, hwraps⟩
    obtain ⟨f, hf⟩ := (dispatchWasmProgram_fault_iff hP ix.accounts ix.data).mpr ⟨pd, s₂, hpd, hwraps⟩
    refine ⟨f, ?_⟩
    simp only [executeInstruction, dispatchInstruction]
    rw [bind_of_ok run_get, bind_of_ok (ofOption_eq_ok.mpr ⟨hpid, rfl⟩), bind_of_ok hs₁,
      bind_of_ok ((require_eq_ok (u := ())).mpr ⟨hexec, rfl⟩), hnone]
    exact hf

/-- A run of instructions stops the process exactly where one of them does, after those before it
have returned. -/
theorem executeFrom_fault_iff {k : ℕ}
    {ixs : List CompiledInstruction} :
    (∃ f, (executeFrom P sysvars k ixs).run s = .fault f) ↔
      ∃ pre ix post s', ixs = pre ++ ix :: post ∧
        (executeFrom P sysvars k pre).run s = .ok () s' ∧ WrapsAt P s' ix := by
  induction ixs generalizing k s with
  | nil => simp [executeFrom]
  | cons ix ixs ih =>
    simp only [executeFrom, bind_eq_fault]
    constructor
    · rintro ⟨f, h | ⟨_, t, ht, h⟩⟩
      · exact ⟨[], ix, ixs, s, rfl, rfl, (executeInstruction_fault_iff hP _ _).mp ⟨f, h⟩⟩
      · obtain ⟨pre, ix', post, s', rfl, hpre, hwraps⟩ := ih.mp ⟨f, h⟩
        exact ⟨ix :: pre, ix', post, s', rfl, bind_eq_ok.mpr ⟨(), t, ht, hpre⟩, hwraps⟩
    · rintro ⟨pre, ix', post, s', hsplit, hpre, hwraps⟩
      cases pre with
      | nil =>
        obtain ⟨rfl, rfl⟩ := cons.inj hsplit
        obtain ⟨-, rfl⟩ := Outcome.ok.inj hpre
        obtain ⟨f, hf⟩ := (executeInstruction_fault_iff hP sysvars k).mpr hwraps
        exact ⟨f, Or.inl hf⟩
      | cons ix₀ pre =>
        obtain ⟨rfl, rfl⟩ := cons.inj hsplit
        obtain ⟨_, t, ht, hpre⟩ := bind_eq_ok.mp hpre
        obtain ⟨f, hf⟩ := ih.mpr ⟨pre, ix', post, s', rfl, hpre, hwraps⟩
        exact ⟨f, Or.inr ⟨(), t, ht, hf⟩⟩

end

end Instructions

/-! ### Transactions -/

/-- The message names no account, calls nothing and passes the signature check: its fee is taken
from an account that is not there. -/
def ReadsMissingPayer (P : Platform) (tx : Transaction) (skipSigVerify : Bool) : Prop :=
  tx.message.accountKeys = [] ∧ tx.message.instructions = [] ∧
    (skipSigVerify = true ∨ tx.signaturesValid P = true)

/-- The transaction gets as far as an instruction that calls a program whose stored bytecode
length wraps. -/
def CallsWrappingProgram (P : Platform) (tx : Transaction) (storage : Storage)
    (sysvars : SysvarCache) (feeCalculator : FeeCalculator) (slot : UInt64)
    (cache : Option AccountCache) (skipSigVerify : Bool) : Prop :=
  ∃ p payer s pre ix post s',
    Charged P tx storage feeCalculator cache skipSigVerify p payer ∧
    blockhashValid tx sysvars slot = true ∧
    (consumeCompute (tx.message.numRequiredSignatures.toNat * signatureVerifyCost)).run
      (chargedContext tx slot p (transactionFee tx feeCalculator)) = .ok () s ∧
    tx.message.instructions = pre ++ ix :: post ∧
    (executeFrom P sysvars 0 pre).run s = .ok () s' ∧ WrapsAt P s' ix

section Transactions

variable {P : Platform} {tx : Transaction} {storage : Storage} {sysvars : SysvarCache}
  {feeCalculator : FeeCalculator} {slot : UInt64} {cache : Option AccountCache}
  {skipSigVerify : Bool} {s : TransactionContext} {f : Fault}

theorem checkSignatures_eq_ok :
    checkSignatures P tx skipSigVerify = .ok (.ok ()) ↔
      skipSigVerify = true ∨ tx.signaturesValid P = true := by
  unfold checkSignatures Transaction.signaturesValid
  cases skipSigVerify with
  | true => simp
  | false =>
    simp only [Bool.false_eq_true, if_false, false_or, decide_eq_true_eq, exceptMap_eq_ok]
    constructor
    · rintro ⟨r, hr, hmap⟩
      cases r with
      | error e => simp [Except.mapError] at hmap
      | ok u => exact hr
    · intro h
      exact ⟨_, h, rfl⟩

/-- A transaction without accounts passes the checks exactly if it has no instructions either and
its signatures pass. -/
theorem prepare_empty_iff (storage : Storage) (cache : Option AccountCache) :
    (∃ p, prepare P tx storage cache skipSigVerify = .ok (.ok p) ∧ p.accounts = []) ↔
      ReadsMissingPayer P tx skipSigVerify := by
  constructor
  · rintro ⟨p, hp, hnil⟩
    obtain ⟨hsan, hsig, -, -⟩ := prepare_ok hp
    rw [prepare_accounts hp, map_eq_nil_iff] at hnil
    refine ⟨hnil, ?_, checkSignatures_eq_ok.mp hsig⟩
    cases hix : tx.message.instructions with
    | nil => rfl
    | cons ix ixs => simp [sanitizeMessage, hnil, hix, sanitizeInstructions] at hsan
  · rintro ⟨hkeys, hixs, hsig⟩
    refine ⟨{ budget := ComputeBudget.default, accounts := [] }, ?_, rfl⟩
    unfold prepare
    simp only [sanitizeMessage, hixs, sanitizeInstructions, checkSignatures_eq_ok.mpr hsig]
    simp [parseComputeBudget, hixs, hkeys, loadAccounts, rejectDuplicates, loadEach,
      bind, Except.bind, pure, Except.pure, parseInstructions]

theorem runAndVerify_fault_iff (hP : P.overflowChecks = false) :
    (∃ f, (runAndVerify P tx sysvars).run s = .fault f) ↔
      ∃ s₁ pre ix post s',
        (consumeCompute (tx.message.numRequiredSignatures.toNat * signatureVerifyCost)).run s
          = .ok () s₁ ∧
        s.message.instructions = pre ++ ix :: post ∧
        (executeFrom P sysvars 0 pre).run s₁ = .ok () s' ∧ WrapsAt P s' ix := by
  have hmessage : ∀ s₁, (consumeCompute
      (tx.message.numRequiredSignatures.toNat * signatureVerifyCost)).run s = .ok () s₁ →
      s₁.message = s.message := fun s₁ h =>
    ((keeps_of_confined (P := P)).of_ok (Evolves.refl s) h).message
  constructor
  · rintro ⟨f, h⟩
    simp only [runAndVerify, runInstructions, executeInstructions, bind_eq_fault] at h
    rcases h with (h | ⟨_, s₁, hs₁, h | ⟨_, _, hget, h⟩⟩) | ⟨_, _, -, h⟩
    · exact absurd h (ne_fault_of_release hP keeps_of_confined)
    · simp at h
    · cases hget
      obtain ⟨pre, ix, post, s', hsplit, hpre, hwraps⟩ := (executeFrom_fault_iff hP).mp ⟨f, h⟩
      rw [hmessage _ hs₁] at hsplit
      exact ⟨_, pre, ix, post, s', hs₁, hsplit, hpre, hwraps⟩
    · exact absurd h (ne_fault_of_release hP keeps_of_confined)
  · rintro ⟨s₁, pre, ix, post, s', hs₁, hsplit, hpre, hwraps⟩
    rw [← hmessage _ hs₁] at hsplit
    obtain ⟨f, hf⟩ := (executeFrom_fault_iff hP).mpr ⟨pre, ix, post, s', hsplit, hpre, hwraps⟩
    refine ⟨f, bind_of_fault ?_⟩
    rw [runInstructions, bind_of_ok hs₁, executeInstructions, bind_of_ok run_get]
    exact hf

theorem payerDelta_eq_error {q : Hash × Account} (hq : s.accounts[0]? = some q)
    (h : payerDelta P s = .error f) : s.message.isWritable P 0 = .error f := by
  cases hw : s.message.isWritable P 0 with
  | ok w =>
    rw [payerDelta_eq_ok.mpr ⟨q, hq, rfl, w, hw⟩] at h
    simp at h
  | error g =>
    simpa [payerDelta, getAccount, run_bind, hq, hw, ofOption, ofFault, Exec.pure, abort] using h

/-- A charged transaction stops where its run does, or where the delta of the payer is taken after
a run that failed. -/
theorem runCharged_eq_error {p : Prepared} {payer : Hash × Account}
    (hcharged : Charged P tx storage feeCalculator cache skipSigVerify p payer)
    (h : runCharged P tx sysvars slot p (transactionFee tx feeCalculator) = .error f) :
    blockhashValid tx sysvars slot = true ∧
      ((runAndVerify P tx sysvars).run
          (chargedContext tx slot p (transactionFee tx feeCalculator)) = .fault f ∨
        RunFault P tx.message f) := by
  cases hbh : blockhashValid tx sysvars slot with
  | false => simp [runCharged, hbh] at h
  | true =>
    refine ⟨rfl, ?_⟩
    simp only [runCharged, hbh, Bool.true_eq_false, if_false] at h
    split at h
    · rename_i g hrun
      exact Or.inl (Except.error.inj h ▸ hrun)
    · simp at h
    · rename_i e ctx hrun
      right
      have hev := keeps_runAndVerify.of_err (Evolves.refl _) hrun
      obtain ⟨a, ha⟩ := hev.first_address hcharged.chargedContext_payer
      rcases exceptBind_eq_error.mp h with h | ⟨_, -, h⟩
      · have hw := isWritable_runFault (payerDelta_eq_error ha h)
        rwa [hev.message] at hw
      · simp [pure, Except.pure] at h

/-- **The faults of the executor**, in every build: the missing payer, and what a run of
instructions may stop at. -/
theorem executeTransaction_eq_error
    (h : executeTransaction P tx storage sysvars feeCalculator slot cache skipSigVerify
      = .error f) :
    (f = .indexOutOfBounds ∧ ReadsMissingPayer P tx skipSigVerify) ∨
      ∃ p payer, Charged P tx storage feeCalculator cache skipSigVerify p payer ∧
        blockhashValid tx sysvars slot = true ∧
        ((runAndVerify P tx sysvars).run
            (chargedContext tx slot p (transactionFee tx feeCalculator)) = .fault f ∨
          RunFault P tx.message f) := by
  obtain ⟨r, hr⟩ : ∃ r, prepare P tx storage cache skipSigVerify = .ok r := prepare_isOk
  cases r with
  | error e => simp [executeTransaction, hr, bind, Except.bind, pure, Except.pure] at h
  | ok p =>
    cases hpayer : p.accounts[0]? with
    | none =>
      refine Or.inl ⟨?_, (prepare_empty_iff _ _).mp ⟨p, hr, by simpa using hpayer⟩⟩
      simpa [executeTransaction, hr, indexAt, hpayer, bind, Except.bind] using h.symm
    | some payer =>
      by_cases hfee : payer.2.lamports < transactionFee tx feeCalculator
      · simp [executeTransaction, hr, indexAt, hpayer, hfee, bind, Except.bind, pure,
          Except.pure] at h
      · have hcharged : Charged P tx storage feeCalculator cache skipSigVerify p payer :=
          ⟨hr, hpayer, UInt64.not_lt.mp hfee⟩
        rw [hcharged.executeTransaction_eq] at h
        refine Or.inr ⟨p, payer, hcharged, ?_⟩
        exact runCharged_eq_error hcharged h

/-- **Without overflow checks**, the executor stops exactly at a missing payer and at a program
whose stored bytecode length wraps. -/
theorem executeTransaction_fault_iff (hP : P.overflowChecks = false) :
    (∃ f, executeTransaction P tx storage sysvars feeCalculator slot cache skipSigVerify
      = .error f) ↔
      ReadsMissingPayer P tx skipSigVerify ∨
        CallsWrappingProgram P tx storage sysvars feeCalculator slot cache skipSigVerify := by
  constructor
  · rintro ⟨f, h⟩
    rcases executeTransaction_eq_error h with ⟨-, hmissing⟩ | ⟨p, payer, hcharged, hbh, hrun⟩
    · exact Or.inl hmissing
    · rcases hrun with hrun | ⟨hchecks, -⟩
      · obtain ⟨s, pre, ix, post, s', hrest⟩ := (runAndVerify_fault_iff hP).mp ⟨f, hrun⟩
        exact Or.inr ⟨p, payer, s, pre, ix, post, s', hcharged, hbh, hrest⟩
      · simp [hP] at hchecks
  · rintro (hmissing | ⟨p, payer, s, pre, ix, post, s', hcharged, hbh, hrest⟩)
    · obtain ⟨p, hp, hnil⟩ := (prepare_empty_iff storage cache).mpr hmissing
      refine ⟨.indexOutOfBounds, ?_⟩
      simp [executeTransaction, hp, hnil, indexAt, bind, Except.bind]
    · obtain ⟨f, hf⟩ := (runAndVerify_fault_iff hP).mpr ⟨s, pre, ix, post, s', hrest⟩
      refine ⟨f, ?_⟩
      unfold chargedContext at hf
      simp [hcharged.executeTransaction_eq, runCharged, hbh, hf]

end Transactions

/-! ### Lists of transactions -/

section Lists

variable (P : Platform) (runs : List (Transaction × Option AccountCache)) (storage : Storage)
  (sysvars : SysvarCache) (feeCalculator : FeeCalculator) (slot : UInt64) (skipSigVerify : Bool)

/-- `execute_transaction` on each transaction, with the cache it is given. -/
def executeEach : List (Transaction × Option AccountCache) →
    Except Fault (List TransactionResult)
  | [] => .ok []
  | (tx, cache) :: rest => do
    let result ← executeTransaction P tx storage sysvars feeCalculator slot cache skipSigVerify
    let results ← executeEach rest
    return result :: results

/-- `TransactionScheduler::schedule`, followed by `execute_transaction` on each transaction. -/
def scheduleAndExecute : Except Fault (List (List ℕ) × List TransactionResult) := do
  let batches ← schedule P (runs.map Prod.fst)
  let results ← executeEach P storage sysvars feeCalculator slot skipSigVerify runs
  return (batches, results)

/-- The build without overflow checks returns, and the one with them stops neither at an index
nor at a subtraction of `is_writable`. -/
def Survives : Prop :=
  (∃ r, scheduleAndExecute (P.withOverflowChecks false) runs storage sysvars feeCalculator slot
    skipSigVerify = .ok r) ∧
  ∀ f, scheduleAndExecute (P.withOverflowChecks true) runs storage sysvars feeCalculator slot
    skipSigVerify = .error f → f = .arithmeticOverflow

/-- None of the three things that stop the executor is in the transaction. -/
structure Harmless (run : Transaction × Option AccountCache) : Prop where
  headerFits : run.1.message.HeaderFits
  hasPayer : ¬ReadsMissingPayer P run.1 skipSigVerify
  noWrap : ¬CallsWrappingProgram (P.withOverflowChecks false) run.1 storage sysvars
    feeCalculator slot run.2 skipSigVerify

variable {P runs storage sysvars feeCalculator slot skipSigVerify}

theorem executeEach_isOk_iff :
    (∃ rs, executeEach P storage sysvars feeCalculator slot skipSigVerify runs = .ok rs) ↔
      ∀ run ∈ runs, ¬∃ f, executeTransaction P run.1 storage sysvars feeCalculator slot run.2
        skipSigVerify = .error f := by
  induction runs with
  | nil => simp [executeEach]
  | cons run runs ih =>
    simp only [executeEach, exceptBind_eq_ok, forall_mem_cons, ← ih]
    cases executeTransaction P run.1 storage sysvars feeCalculator slot run.2 skipSigVerify with
    | error f => simp
    | ok r =>
      constructor
      · rintro ⟨_, _, -, rs, hrs, -⟩
        exact ⟨by simp, rs, hrs⟩
      · rintro ⟨-, rs, hrs⟩
        exact ⟨_, r, rfl, rs, hrs, rfl⟩

theorem executeEach_eq_error {f : Fault}
    (h : executeEach P storage sysvars feeCalculator slot skipSigVerify runs = .error f) :
    ∃ run ∈ runs, executeTransaction P run.1 storage sysvars feeCalculator slot run.2
      skipSigVerify = .error f := by
  induction runs with
  | nil => simp [executeEach] at h
  | cons run runs ih =>
    simp only [executeEach, exceptBind_eq_error] at h
    rcases h with h | ⟨r, -, h | ⟨rs, -, h⟩⟩
    · exact ⟨run, by simp, h⟩
    · obtain ⟨run', hmem, herr⟩ := ih h
      exact ⟨run', by simp [hmem], herr⟩
    · simp [pure, Except.pure] at h

theorem readsMissingPayer_withOverflowChecks {tx : Transaction} {checks : Bool} :
    ReadsMissingPayer (P.withOverflowChecks checks) tx skipSigVerify ↔
      ReadsMissingPayer P tx skipSigVerify := by
  simp only [ReadsMissingPayer, Transaction.signaturesValid,
    Transaction.verifySignatures_withOverflowChecks]

/-- With overflow checks, and a header that fits, the executor stops only at a missing payer or
at an overflow. -/
theorem executeTransaction_checked {run : Transaction × Option AccountCache} {f : Fault}
    (hP : P.overflowChecks = true) (hfits : run.1.message.HeaderFits)
    (hpayer : ¬ReadsMissingPayer P run.1 skipSigVerify)
    (h : executeTransaction P run.1 storage sysvars feeCalculator slot run.2 skipSigVerify
      = .error f) : f = .arithmeticOverflow := by
  have hrunFault : ∀ f, RunFault P run.1.message f → f = .arithmeticOverflow := by
    rintro f ⟨-, hf | ⟨-, hbad⟩⟩
    · exact hf
    · exact absurd hfits hbad
  rcases executeTransaction_eq_error h with ⟨-, hmissing⟩ | ⟨p, payer, -, -, hrun | hrun⟩
  · exact absurd hmissing hpayer
  · rcases keeps_runAndVerify.of_fault (Evolves.refl _) hrun with hfault | ⟨hfalse, -⟩
    · exact hrunFault f hfault
    · simp [hP] at hfalse
  · exact hrunFault f hrun

/-- **What stops the executor**: a list of transactions is scheduled and executed without an index
out of bounds and without an underflow in `is_writable` exactly if each of them has a header that
fits, names a payer, and calls no program whose stored bytecode length wraps. -/
theorem survives_iff :
    Survives P runs storage sysvars feeCalculator slot skipSigVerify ↔
      ∀ run ∈ runs, Harmless P storage sysvars feeCalculator slot skipSigVerify run := by
  have hrelease : (P.withOverflowChecks false).overflowChecks = false := rfl
  have hchecked : (P.withOverflowChecks true).overflowChecks = true := rfl
  constructor
  · rintro ⟨⟨r, hr⟩, hno⟩ run hrun
    simp only [scheduleAndExecute, exceptBind_eq_ok] at hr
    obtain ⟨batches, -, rs, hrs, -⟩ := hr
    have hexec := executeEach_isOk_iff.mp ⟨rs, hrs⟩ run hrun
    rw [executeTransaction_fault_iff hrelease, not_or,
      readsMissingPayer_withOverflowChecks] at hexec
    refine ⟨?_, hexec.1, hexec.2⟩
    -- a header that does not fit stops the scheduler of the checked build at a subtraction
    by_contra hbad
    cases hsched : schedule (P.withOverflowChecks true) (runs.map Prod.fst) with
    | ok batches =>
      refine hbad (schedule_isOk_iff.mp ⟨batches, hsched⟩ hchecked run.1 ?_)
      exact mem_map_of_mem hrun
    | error f =>
      obtain rfl := schedule_eq_error hsched
      have := hno .writableUnderflow (exceptBind_eq_error.mpr (Or.inl hsched))
      simp at this
  · intro h
    have hfits : ∀ tx ∈ runs.map Prod.fst, tx.message.HeaderFits := by
      intro tx htx
      obtain ⟨run, hrun, rfl⟩ := mem_map.mp htx
      exact (h run hrun).headerFits
    constructor
    · obtain ⟨batches, hsched⟩ :
          ∃ batches, schedule (P.withOverflowChecks false) (runs.map Prod.fst) = .ok batches :=
        schedule_isOk_iff.mpr fun hP => absurd hP (by simp [hrelease])
      obtain ⟨rs, hrs⟩ := executeEach_isOk_iff.mpr fun run hrun => by
        rw [executeTransaction_fault_iff hrelease, readsMissingPayer_withOverflowChecks, not_or]
        exact ⟨(h run hrun).hasPayer, (h run hrun).noWrap⟩
      exact ⟨_, exceptBind_eq_ok.mpr ⟨batches, hsched, exceptBind_eq_ok.mpr ⟨rs, hrs, rfl⟩⟩⟩
    · intro f hf
      obtain ⟨batches, hsched⟩ := schedule_isOk_iff.mpr fun _ => hfits
      rw [scheduleAndExecute, hsched] at hf
      rcases exceptBind_eq_error.mp hf with hf | ⟨_, -, hf⟩
      · simp at hf
      rcases exceptBind_eq_error.mp hf with hf | ⟨_, -, hf⟩
      · obtain ⟨run, hrun, herr⟩ := executeEach_eq_error hf
        refine executeTransaction_checked hchecked (h run hrun).headerFits ?_ herr
        rw [readsMissingPayer_withOverflowChecks]
        exact (h run hrun).hasPayer
      · simp [pure, Except.pure] at hf

/-- A message without accounts and instructions. -/
def emptyMessage : Transaction := Sample.transaction 0 0 [] []

/-- A message that claims two read-only accounts and has one. -/
def overcounted : Transaction := Sample.transaction 0 2 [Sample.program .vote] []

/-- Executed as part of a received block, the first stops every build, and the second stops the
scheduler of a build with overflow checks. -/
theorem emptyMessage_and_overcounted_stop :
    ¬Survives (Platform.sample false) [(emptyMessage, none)] Storage.empty (Sample.sysvars 1)
        Sample.fees 1 true ∧
      ¬Survives (Platform.sample false) [(overcounted, none)] Storage.empty (Sample.sysvars 1)
        Sample.fees 1 true := by
  constructor
  · rintro ⟨⟨r, hr⟩, -⟩
    have hstop : scheduleAndExecute ((Platform.sample false).withOverflowChecks false)
        [(emptyMessage, none)] Storage.empty (Sample.sysvars 1) Sample.fees 1 true
          = .error .indexOutOfBounds := by decide +kernel
    rw [hstop] at hr
    cases hr
  · rintro ⟨-, hno⟩
    have hstop : scheduleAndExecute ((Platform.sample false).withOverflowChecks true)
        [(overcounted, none)] Storage.empty (Sample.sysvars 1) Sample.fees 1 true
          = .error .writableUnderflow := by decide +kernel
    cases hno _ hstop

end Lists

end Nusantara

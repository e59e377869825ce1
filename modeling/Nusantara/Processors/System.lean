import Nusantara.Runtime.Evolution

/-!
# The system program

Creation of accounts, transfers, and the assignment and allocation of system-owned accounts
(`system-program/src/lib.rs`, `runtime/src/processors/system.rs`).

## Main results

* However an instruction ends, it has written writable accounts only (`Confined`).
-/

namespace Nusantara

open Borsh Exec TransactionContext Codec

/-- An instruction of the system program. -/
inductive SystemInstruction where
  | createAccount (lamports space : UInt64) (owner : Hash)
  | transfer (lamports : UInt64)
  | assign (owner : Hash)
  | allocate (space : UInt64)
  | createAccountWithSeed (base : Hash) (seed : String) (lamports space : UInt64) (owner : Hash)
  | advanceNonceAccount
  | withdrawNonceAccount (lamports : UInt64)
  | initializeNonceAccount (authority : Hash)
  | authorizeNonceAccount (authority : Hash)
  deriving DecidableEq

namespace SystemInstruction

/-- The Borsh form of an instruction. -/
def codec : Codec SystemInstruction := enum (·.ctorIdx) [
  ctor (u64.pair (u64.pair Hash.codec)) (fun p => createAccount p.1 p.2.1 p.2.2)
    (fun | createAccount l s o => some (l, s, o) | _ => none),
  ctor u64 transfer (fun | transfer l => some l | _ => none),
  ctor Hash.codec assign (fun | assign o => some o | _ => none),
  ctor u64 allocate (fun | allocate s => some s | _ => none),
  ctor (Hash.codec.pair (string.pair (u64.pair (u64.pair Hash.codec))))
    (fun p => createAccountWithSeed p.1 p.2.1 p.2.2.1 p.2.2.2.1 p.2.2.2.2)
    (fun | createAccountWithSeed b d l s o => some (b, d, l, s, o) | _ => none),
  nullary advanceNonceAccount,
  ctor u64 withdrawNonceAccount (fun | withdrawNonceAccount l => some l | _ => none),
  ctor Hash.codec initializeNonceAccount (fun | initializeNonceAccount h => some h | _ => none),
  ctor Hash.codec authorizeNonceAccount (fun | authorizeNonceAccount h => some h | _ => none)]

/-- How many of its first accounts an instruction writes. -/
def written : SystemInstruction → ℕ
  | createAccount .. | transfer _ => 2
  | assign _ | allocate _ => 1
  | _ => 0

end SystemInstruction

/-- `MAX_ACCOUNT_DATA_SIZE`. -/
def maxAccountDataSize : UInt64 := 10485760

section Processor

variable (P : Platform) (sysvars : SysvarCache) (accounts : List UInt8)

/-- `process_create_account`. -/
def processCreateAccount (lamports space : UInt64) (owner : Hash) : Run Unit := do
  requireAccounts accounts 2 "CreateAccount"
  let funderIdx ← accountIndex accounts 0
  let newIdx ← accountIndex accounts 1
  let _ ← requireSigner P newIdx
  let newAcc ← getAccount P newIdx
  require (newAcc.account.isEmpty = true) .accountAlreadyExists
  let _ ← requireSigner P funderIdx
  require (space ≤ maxAccountDataSize) (.accountDataTooLarge space maxAccountDataSize)
  let minBalance := sysvars.rent.minimumBalance space.toNat
  require (minBalance ≤ lamports) (.rentNotMet minBalance lamports)
  debit P funderIdx lamports (.insufficientFunds lamports)
  let acc ← getAccountMut P newIdx
  putAccount newIdx { acc with lamports, owner, data := List.replicate space.toNat 0 }

/-- `process_transfer`: the debited account must sign; its owner is not looked at. -/
def processTransfer (lamports : UInt64) : Run Unit := do
  requireAccounts accounts 2 "Transfer"
  let fromIdx ← accountIndex accounts 0
  let toIdx ← accountIndex accounts 1
  let _ ← requireSigner P fromIdx
  debit P fromIdx lamports (.insufficientFunds lamports)
  credit P toIdx lamports

/-- `process_assign`. -/
def processAssign (owner : Hash) : Run Unit := do
  requireAccounts accounts 1 "Assign"
  let accountIdx ← accountIndex accounts 0
  let _ ← requireSigner P accountIdx
  let acc ← getAccount P accountIdx
  require (P.isSystemOwned acc.account.owner = true) .accountOwnerMismatch
  let acc ← getAccountMut P accountIdx
  putAccount accountIdx { acc with owner }

/-- `process_allocate`. -/
def processAllocate (space : UInt64) : Run Unit := do
  requireAccounts accounts 1 "Allocate"
  let accountIdx ← accountIndex accounts 0
  let _ ← requireSigner P accountIdx
  let acc ← getAccount P accountIdx
  require (P.isSystemOwned acc.account.owner = true) .accountOwnerMismatch
  require (space ≤ maxAccountDataSize) (.accountDataTooLarge space maxAccountDataSize)
  let acc ← getAccount P accountIdx
  require (acc.account.data = []) (.invalidAccountData "account already has data")
  let acc ← getAccountMut P accountIdx
  putAccount accountIdx (acc.withData (List.replicate space.toNat 0))

/-- `process_system`. -/
def processSystem (data : List UInt8) : Run Unit := do
  let instruction ← decodeInstruction SystemInstruction.codec data
  match instruction with
  | .createAccount lamports space owner => do
    consumeCompute 1500
    processCreateAccount P sysvars accounts lamports space owner
  | .transfer lamports => do
    consumeCompute 450
    processTransfer P accounts lamports
  | .assign owner => do
    consumeCompute 450
    processAssign P accounts owner
  | .allocate space => do
    consumeCompute 450
    processAllocate P accounts space
  | _ => throw (.programError "system" "instruction not yet implemented")

end Processor

/-! ### Confinement: what the processor keeps, however it ends -/

section Confinement

variable {P : Platform} {s₀ : TransactionContext} {known : Prop} {sysvars : SysvarCache}
  {accounts : List UInt8}

set_option synthInstance.maxSize 100000 in
instance {data : List UInt8} :
    Confined P (Leading accounts (countOf SystemInstruction.codec SystemInstruction.written data)) s₀
      known (processSystem P sysvars accounts data) := by
  unfold processSystem
  refine .decode_bind fun instruction => ?_
  cases instruction <;> simp only [processCreateAccount, processTransfer, processAssign,
    processAllocate, SystemInstruction.written] <;>
    infer_instance

end Confinement

end Nusantara

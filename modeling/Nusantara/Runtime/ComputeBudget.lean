import Nusantara.Runtime.Helpers

/-!
# Compute budgets

The limits a message asks for (`compute-budget-program/src/lib.rs`,
`runtime/src/compute_budget_parser.rs`).  The instructions of the compute budget program are read
before the transaction runs; when they are dispatched they do nothing.
-/

namespace Nusantara

open Borsh Exec Codec

/-- An instruction of the compute budget program. -/
inductive ComputeBudgetInstruction where
  | requestUnitsDeprecated (units additionalFee : UInt32)
  | requestHeapFrame (bytes : UInt32)
  | setComputeUnitLimit (units : UInt32)
  | setComputeUnitPrice (price : UInt64)
  | setLoadedAccountsDataSizeLimit (limit : UInt32)
  deriving DecidableEq

namespace ComputeBudgetInstruction

/-- The Borsh form of an instruction. -/
def codec : Codec ComputeBudgetInstruction := enum (·.ctorIdx) [
  ctor (u32.pair u32) (fun p => requestUnitsDeprecated p.1 p.2)
    (fun | requestUnitsDeprecated u f => some (u, f) | _ => none),
  ctor u32 requestHeapFrame (fun | requestHeapFrame b => some b | _ => none),
  ctor u32 setComputeUnitLimit (fun | setComputeUnitLimit u => some u | _ => none),
  ctor u64 setComputeUnitPrice (fun | setComputeUnitPrice p => some p | _ => none),
  ctor u32 setLoadedAccountsDataSizeLimit
    (fun | setLoadedAccountsDataSizeLimit l => some l | _ => none)]

end ComputeBudgetInstruction

/-- The limits under which a transaction runs. -/
structure ComputeBudget where
  computeUnitLimit : ℕ
  computeUnitPrice : UInt64
  heapSize : UInt32
  loadedAccountsDataSizeLimit : ℕ
  deriving DecidableEq

/-- `ComputeBudget::default` (`compute-budget-program/config.toml`). -/
def ComputeBudget.default : ComputeBudget :=
  { computeUnitLimit := 200000, computeUnitPrice := 0, heapSize := 32768,
    loadedAccountsDataSizeLimit := 65536 }

/-- `MAX_COMPUTE_UNIT_LIMIT`. -/
def maxComputeUnitLimit : ℕ := 1400000

/-- `MAX_HEAP_SIZE`. -/
def maxHeapSize : ℕ := 262144

/-- `MAX_LOADED_ACCOUNTS_DATA_SIZE_LIMIT`. -/
def maxLoadedAccountsDataSizeLimit : ℕ := 65536000

/-- The requests read so far. -/
structure BudgetRequests where
  computeUnitLimit : Option ℕ := none
  computeUnitPrice : Option UInt64 := none
  heapSize : Option UInt32 := none
  loadedAccountsDataSizeLimit : Option ℕ := none
  deriving DecidableEq

/-- Record a request that must not have been made before. -/
def setOnce {α : Type} (name : String) (old : Option α) (value : α) :
    Except RuntimeError (Option α) :=
  match old with
  | none => .ok (some value)
  | some _ => .error (.invalidComputeBudget s!"duplicate {name}")

/-- `u32::is_power_of_two`. -/
def isPowerOfTwo (n : ℕ) : Bool := (List.range 32).any fun k => n = 2 ^ k

/-- One instruction of the compute budget program. -/
def BudgetRequests.add (r : BudgetRequests) :
    ComputeBudgetInstruction → Except RuntimeError BudgetRequests
  | .requestUnitsDeprecated .. =>
    .error (.invalidComputeBudget "RequestUnitsDeprecated is no longer supported")
  | .setComputeUnitLimit units => do
    let limit ← setOnce "SetComputeUnitLimit" r.computeUnitLimit
      (min units.toNat maxComputeUnitLimit)
    return { r with computeUnitLimit := limit }
  | .setComputeUnitPrice price => do
    let price ← setOnce "SetComputeUnitPrice" r.computeUnitPrice price
    return { r with computeUnitPrice := price }
  | .requestHeapFrame bytes => do
    let size ← setOnce "RequestHeapFrame" r.heapSize bytes
    if maxHeapSize < bytes.toNat ∨ isPowerOfTwo bytes.toNat = false then
      throw (.invalidComputeBudget
        s!"invalid heap frame size: {bytes} (max: {maxHeapSize}, must be power of 2)")
    return { r with heapSize := size }
  | .setLoadedAccountsDataSizeLimit limit => do
    let limit ← setOnce "SetLoadedAccountsDataSizeLimit" r.loadedAccountsDataSizeLimit
      (min limit.toNat maxLoadedAccountsDataSizeLimit)
    return { r with loadedAccountsDataSizeLimit := limit }

section Parse

variable (P : Platform) (keys : List Hash)

/-- One turn of the loop of `parse_compute_budget`. -/
def parseInstruction (ixIndex : ℕ) (ix : CompiledInstruction) (r : BudgetRequests) :
    Except RuntimeError BudgetRequests :=
  let idx := ix.programIdIndex.toNat
  match keys[idx]? with
  | none =>
    let n := keys.length
    .error (.invalidInstructionData
      s!"instruction {ixIndex}: program_id_index {idx} out of bounds (account_keys len {n})")
  | some programId =>
    if programId ≠ P.programId .computeBudget then .ok r
    else match ComputeBudgetInstruction.codec.tryFromSlice ix.data with
      | .error e =>
        let text := e.toText
        .error (.invalidComputeBudget s!"instruction {ixIndex}: failed to deserialize: {text}")
      | .ok instruction => r.add instruction

/-- The loop of `parse_compute_budget`. -/
def parseInstructions : ℕ → List CompiledInstruction → BudgetRequests →
    Except RuntimeError BudgetRequests
  | _, [], r => .ok r
  | ixIndex, ix :: rest, r => do
    let r ← parseInstruction P keys ixIndex ix r
    parseInstructions (ixIndex + 1) rest r

/-- `parse_compute_budget`. -/
def parseComputeBudget (m : Message) : Except RuntimeError ComputeBudget := do
  let r ← parseInstructions P m.accountKeys 0 m.instructions {}
  return {
    computeUnitLimit := r.computeUnitLimit.getD ComputeBudget.default.computeUnitLimit
    computeUnitPrice := r.computeUnitPrice.getD ComputeBudget.default.computeUnitPrice
    heapSize := r.heapSize.getD ComputeBudget.default.heapSize
    loadedAccountsDataSizeLimit :=
      r.loadedAccountsDataSizeLimit.getD ComputeBudget.default.loadedAccountsDataSizeLimit }

end Parse

end Nusantara

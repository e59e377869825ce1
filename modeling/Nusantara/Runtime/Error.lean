import Nusantara.Core.Platform

/-!
# Runtime errors

The errors of the executor with their texts (`runtime/src/error.rs`).  A failed transaction is
recorded in storage under the text of its error, so the texts are part of what the executor
computes.  Errors that no modelled function raises are left out.
-/

namespace Nusantara

/-- The URL-safe base64 alphabet. -/
def base64Digit (n : ℕ) : Char :=
  if n < 26 then Char.ofNat (n + 65)
  else if n < 52 then Char.ofNat (n + 71)
  else if n < 62 then Char.ofNat (n - 4)
  else if n = 62 then '-' else '_'

/-- URL-safe base64 without padding. -/
def base64Encode : List UInt8 → List Char
  | [] => []
  | [a] =>
    let n := a.toNat * 16
    [base64Digit (n / 64), base64Digit (n % 64)]
  | [a, b] =>
    let n := (a.toNat * 256 + b.toNat) * 4
    [base64Digit (n / 4096), base64Digit (n / 64 % 64), base64Digit (n % 64)]
  | a :: b :: c :: rest =>
    let n := a.toNat * 65536 + b.toNat * 256 + c.toNat
    base64Digit (n / 262144) :: base64Digit (n / 4096 % 64) :: base64Digit (n / 64 % 64) ::
      base64Digit (n % 64) :: base64Encode rest

/-- `Hash::to_base64`, also the text a hash is displayed as. -/
def Hash.toBase64 (h : Hash) : String := String.ofList (base64Encode h.asBytes)

/-- An error of the executor. -/
inductive RuntimeError where
  | accountNotFound (index : ℕ)
  | accountNotWritable (index : ℕ)
  | accountNotSigner (index : ℕ)
  | accountAlreadyExists
  | accountOwnerMismatch
  | accountDataTooLarge (size limit : UInt64)
  | accountIndexAliasing (idxA idxB : ℕ)
  | insufficientFunds (needed available : UInt64)
  | lamportsOverflow
  | rentNotMet (needed available : UInt64)
  | insufficientComputeUnits (needed remaining : ℕ)
  | invalidInstructionData (text : String)
  | invalidAccountData (text : String)
  | invalidComputeBudget (text : String)
  | unknownProgram (text : String)
  | programError (program message : String)
  | signatureVerificationFailed (text : String)
  | blockhashNotFound
  | readonlyAccountModified (index : ℕ)
  | executableAccountModified
  | loadedAccountsDataSizeExceeded (size limit : ℕ)
  | wasmError (text : String)
  | programNotExecutable (text : String)
  deriving DecidableEq

/-- The text of an error. -/
def RuntimeError.toText : RuntimeError → String
  | accountNotFound i => s!"account not found: index {i}"
  | accountNotWritable i => s!"account at index {i} is not writable"
  | accountNotSigner i => s!"account at index {i} is not a signer"
  | accountAlreadyExists => "account already exists"
  | accountOwnerMismatch => "account owner mismatch"
  | accountDataTooLarge size limit =>
    s!"account data too large: {size} bytes exceeds {limit} byte limit"
  | accountIndexAliasing a b =>
    s!"account index aliasing: index {a} and {b} refer to the same account"
  | insufficientFunds needed available =>
    s!"insufficient funds: need {needed}, have {available}"
  | lamportsOverflow => "lamports overflow"
  | rentNotMet needed available => s!"rent not met: need {needed}, have {available}"
  | insufficientComputeUnits needed remaining =>
    s!"insufficient compute units: need {needed}, have {remaining}"
  | invalidInstructionData text => s!"invalid instruction data: {text}"
  | invalidAccountData text => s!"invalid account data: {text}"
  | invalidComputeBudget text => s!"invalid compute budget: {text}"
  | unknownProgram text => s!"unknown program: {text}"
  | programError program message => s!"program {program} error: {message}"
  | signatureVerificationFailed text => s!"signature verification failed: {text}"
  | blockhashNotFound => "blockhash not found"
  | readonlyAccountModified i => s!"readonly account modified at index {i}"
  | executableAccountModified => "executable account modified"
  | loadedAccountsDataSizeExceeded size limit =>
    s!"loaded accounts data size exceeded: {size} > {limit}"
  | wasmError text => s!"wasm execution error: {text}"
  | programNotExecutable text => s!"program not executable: {text}"

end Nusantara

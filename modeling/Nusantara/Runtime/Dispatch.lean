import Nusantara.Processors.Loader
import Nusantara.Processors.Stake
import Nusantara.Processors.Token
import Nusantara.Processors.Vote

/-!
# Dispatch of instructions

How an instruction finds its program (`runtime/src/{program_dispatch,program_processor}.rs`), the
call of a deployed WASM program (`runtime/src/wasm_dispatch.rs`, `vm/src/executor.rs`) and the
loop over the instructions of a message (`runtime/src/transaction_executor.rs`).

A WASM program runs in a store of its own whose syscalls have no access to the accounts, so a
call only moves the compute meter.  The cache of compiled modules is left out: it is keyed by the
digest of the bytecode and holds what compiling that bytecode gave.

## Main results

* `keeps_dispatchInstruction`, `keeps_executeInstructions`: a run of
  instructions only moves within the contexts its start evolves into, however it ends.
* `Wasm.readsExactly_iff`: on which bytes the numbers of a module are read exactly.
* `consumed_dispatchWasmProgram_iff`: when a WASM program is charged for what it burns.
-/

namespace Nusantara

open Borsh Exec TransactionContext List LoaderState Nat Keeps Hash

/-! ### The WASM executor -/

/-- An error of the virtual machine. -/
inductive VmError where
  | compilation (text : String)
  | instantiation (text : String)
  | trap (text : String)
  | validation (text : String)
  | missingEntrypoint
  | missingMemory
  | hasStartFunction
  | computeExceeded
  | memoryOutOfBounds (offset len : ℕ)
  | heapExhausted (need available : ℕ)
  | programError (code : Int64)
  deriving DecidableEq

/-- The text of an error. -/
def VmError.toText : VmError → String
  | compilation text => s!"wasm compilation error: {text}"
  | instantiation text => s!"wasm instantiation error: {text}"
  | trap text => s!"wasm execution trapped: {text}"
  | validation text => s!"wasm validation failed: {text}"
  | missingEntrypoint => "missing entrypoint export"
  | missingMemory => "missing memory export"
  | hasStartFunction => "has start function (not allowed)"
  | computeExceeded => "compute units exceeded"
  | memoryOutOfBounds offset len => s!"memory access out of bounds: offset={offset}, len={len}"
  | heapExhausted need available =>
    s!"heap allocation failed: need {need}, have {available}"
  | programError code => s!"program error: code {code}"

namespace Wasm

/-- `COST_INSTANTIATION`. -/
def costInstantiation : ℕ := 10000

/-- `HEAP_START`. -/
def heapStart : ℕ := 0x300000

/-- `HEAP_SIZE`. -/
def heapSize : ℕ := 0x100000

/-- `read_uleb128`: a number of at most five bytes, and what follows it. -/
def readUleb128 : List UInt8 → ℕ → ℕ → Option (ℕ × List UInt8)
  | [], _, _ => none
  | b :: rest, shift, acc =>
    if 32 ≤ shift then none
    else
      let acc := (acc ||| (b.toNat % 128) <<< shift) % 2 ^ 32
      if b.toNat < 128 then some (acc, rest) else readUleb128 rest (shift + 7) acc

/-- The loop of `has_start_section`; every turn uses up at least one byte. -/
def scanSections : ℕ → List UInt8 → Bool
  | 0, _ | _, [] => false
  | fuel + 1, sectionId :: rest =>
    match readUleb128 rest 0 0 with
    | none => false
    | some (size, payload) =>
      if sectionId = 8 then true
      else if payload.length < size then false
      else scanSections fuel (payload.drop size)

/-- `has_start_section`: the magic and the version are eight bytes. -/
def hasStartSection (bytecode : List UInt8) : Bool :=
  scanSections bytecode.length (bytecode.drop 8)

/-- The bytes are an unsigned LEB128 encoding of the number: seven bits in each byte, the lowest
first, and the top bit set in all but the last. -/
inductive IsUleb128 : List UInt8 → ℕ → Prop
  | last (b : UInt8) (h : b.toNat < 128) : IsUleb128 [b] b.toNat
  | more (b : UInt8) {bs : List UInt8} {v : ℕ} (h : 128 ≤ b.toNat) (hv : IsUleb128 bs v) :
      IsUleb128 (b :: bs) (b.toNat % 128 + 128 * v)

theorem IsUleb128.unique {bs : List UInt8} {v w : ℕ} (hv : IsUleb128 bs v) (hw : IsUleb128 bs w) :
    v = w := by
  induction hv generalizing w with
  | last b h =>
    cases hw with
    | last => rfl
    | more _ _ hw => cases hw
  | more b h hv ih =>
    cases hw with
    | last => cases hv
    | more _ _ hw => rw [ih hw]

/-- What is read: an encoding of at most five bytes, of which the low 32 bits are kept. -/
theorem readUleb128_eq_some {bytes rest : List UInt8} {shift acc v : ℕ} (hacc : acc < 2 ^ shift) :
    readUleb128 bytes shift acc = some (v, rest) ↔
      ∃ enc x, bytes = enc ++ rest ∧ IsUleb128 enc x ∧ shift + 7 * enc.length ≤ 38 ∧
        v = (acc + 2 ^ shift * x) % 2 ^ 32 := by
  induction bytes generalizing shift acc with
  | nil =>
    refine iff_of_false nofun ?_
    rintro ⟨enc, x, hnil, henc, -⟩
    cases henc <;> cases hnil
  | cons b bytes ih =>
    have hor : acc ||| (b.toNat % 128) <<< shift = acc + 2 ^ shift * (b.toNat % 128) := by
      rw [Nat.or_comm, ← Nat.shiftLeft_add_eq_or_of_lt hacc, Nat.shiftLeft_eq]
      ring
    have hlt : (acc + 2 ^ shift * (b.toNat % 128)) % 2 ^ 32 < 2 ^ (shift + 7) := by
      refine (Nat.mod_le _ _).trans_lt ?_
      have hmod := Nat.mod_lt b.toNat (show 0 < 128 by decide)
      rw [pow_add]
      nlinarith
    simp only [readUleb128, hor]
    split_ifs with hshift hlast
    · refine iff_of_false nofun ?_
      rintro ⟨enc, x, -, henc, hlen, -⟩
      cases henc <;> simp at hlen <;> omega
    · constructor
      · intro h
        cases h
        exact ⟨[b], _, rfl, .last b hlast, by simp; omega, by rw [Nat.mod_eq_of_lt hlast]⟩
      · rintro ⟨enc, x, heq, henc, -, rfl⟩
        cases henc with
        | last =>
          cases heq
          rw [Nat.mod_eq_of_lt hlast]
          rfl
        | more _ h =>
          cases heq
          omega
    · rw [ih hlt]
      constructor
      · rintro ⟨enc, x, rfl, henc, hlen, rfl⟩
        refine ⟨b :: enc, _, rfl, .more b (not_lt.mp hlast) henc, by simp; omega, ?_⟩
        rw [Nat.mod_add_mod]
        ring_nf
      · rintro ⟨enc, x, heq, henc, hlen, rfl⟩
        cases henc with
        | last _ h =>
          cases heq
          exact absurd h hlast
        | more _ h hv =>
          cases heq
          refine ⟨_, _, rfl, hv, by simp at hlen; omega, ?_⟩
          rw [Nat.mod_add_mod]
          ring_nf

/-- A number is read exactly if there is an encoding of at most five bytes, which are consumed, and
its value has 32 bits. -/
def ReadsExactly (bytes : List UInt8) : Prop :=
  ∀ v rest, readUleb128 bytes 0 0 = some (v, rest) ↔
    ∃ enc, bytes = enc ++ rest ∧ enc.length ≤ 5 ∧ IsUleb128 enc v ∧ v < 2 ^ 32

/-- **Reading LEB128.**  It is exact on the byte strings that do not start with an encoding of at
most five bytes of a number that needs more than 32 bits. -/
theorem readsExactly_iff (bytes : List UInt8) :
    ReadsExactly bytes ↔ ∀ enc rest x, bytes = enc ++ rest → enc.length ≤ 5 → IsUleb128 enc x →
      x < 2 ^ 32 := by
  have hread : ∀ v rest, readUleb128 bytes 0 0 = some (v, rest) ↔ ∃ enc x, bytes = enc ++ rest ∧
      IsUleb128 enc x ∧ enc.length ≤ 5 ∧ v = x % 2 ^ 32 := by
    intro v rest
    simp only [readUleb128_eq_some (show 0 < 2 ^ 0 by decide), zero_add, pow_zero, one_mul,
      show ∀ n, 7 * n ≤ 38 ↔ n ≤ 5 by omega]
  constructor
  · intro hexact enc rest x hbytes hlen henc
    obtain ⟨enc', hbytes', -, henc', hlt⟩ := (hexact _ rest).mp
      ((hread _ _).mpr ⟨enc, x, hbytes, henc, hlen, rfl⟩)
    cases append_cancel_right (hbytes.symm.trans hbytes')
    rwa [henc.unique henc']
  · intro hfits v rest
    rw [hread]
    constructor
    · rintro ⟨enc, x, hbytes, henc, hlen, rfl⟩
      have hlt := hfits enc rest x hbytes hlen henc
      rw [mod_eq_of_lt hlt]
      exact ⟨enc, hbytes, hlen, henc, hlt⟩
    · rintro ⟨enc, hbytes, hlen, henc, hlt⟩
      exact ⟨enc, v, hbytes, henc, hlen, (mod_eq_of_lt hlt).symm⟩

/-- Bits of the fifth byte are lost: `2 ^ 35 - 1` is read as `2 ^ 32 - 1`. -/
theorem fifth_byte_is_cut :
    readUleb128 [255, 255, 255, 255, 127] 0 0 = some (2 ^ 32 - 1, []) ∧
      IsUleb128 [255, 255, 255, 255, 127] (2 ^ 35 - 1) ∧
      ¬ReadsExactly [255, 255, 255, 255, 127] := by
  have hvalue : IsUleb128 [255, 255, 255, 255, 127] (2 ^ 35 - 1) :=
    .more _ (by decide) (.more _ (by decide) (.more _ (by decide) (.more _ (by decide)
      (.last _ (by decide)))))
  refine ⟨rfl, hvalue, fun hexact => ?_⟩
  obtain ⟨enc, hbytes, -, henc, -⟩ := (hexact _ []).mp rfl
  rw [append_nil] at hbytes
  exact absurd (hvalue.unique (hbytes ▸ henc)) (by decide)

variable (P : Platform)

/-- The preparation of a call: compile, instantiate, and place the data in the heap region. -/
def prepare (bytecode : List UInt8) (dataLen numAccounts fuel : ℕ) : Except VmError Unit := do
  if hasStartSection bytecode then throw .hasStartFunction
  if let some text := P.wasmi.compileError bytecode then throw (.compilation text)
  if let some text := P.wasmi.instantiateError bytecode fuel then throw (.instantiation text)
  let pages ← match P.wasmi.memoryPages bytecode with
    | some pages => pure pages
    | none => throw .missingMemory
  if 2 ^ 32 ≤ dataLen then throw (.validation "instruction_data too large")
  let requiredEnd := heapStart + dataLen + hashBytes
  let needed := min (dataLen + 64) (2 ^ 32 - 1)
  if pages * 65536 < requiredEnd then throw (.memoryOutOfBounds heapStart needed)
  if heapStart + heapSize < requiredEnd then throw (.heapExhausted needed heapSize)
  if 2 ^ 31 ≤ numAccounts then throw (.validation "too many accounts")
  if P.wasmi.hasEntrypoint bytecode = false then throw .missingEntrypoint

/-- `WasmExecutor::execute`: the result, and the compute units left.  Only a call that returns
is charged the fuel it used. -/
def execute (bytecode : List UInt8) (programId : Hash) (data : List UInt8) (numAccounts : ℕ)
    (computeRemaining : ℕ) : Except VmError Unit × ℕ :=
  if computeRemaining < costInstantiation then (.error .computeExceeded, computeRemaining)
  else
    let fuel := computeRemaining - costInstantiation
    match prepare P bytecode data.length numAccounts fuel with
    | .error e => (.error e, fuel)
    | .ok () =>
      match P.wasmi.call bytecode fuel numAccounts data programId with
      | .outOfFuel => (.error .computeExceeded, fuel)
      | .trapped text => (.error (.trap text), fuel)
      | .returned value fuelLeft =>
        (if value = 0 then .ok () else .error (.programError value), fuelLeft)

end Wasm

/-! ### Dispatch -/

section Dispatch

variable (P : Platform) (sysvars : SysvarCache)

/-- The first of the given positions that holds an address. -/
def findAccount (address : Hash) : List ℕ → Run (Option ℕ)
  | [] => return none
  | i :: rest => do
    let acc ← getAccount P i
    if acc.address = address then return some i else findAccount address rest

/-- The account that holds the bytecode of a program of the transaction. -/
def findProgramData (programId : Hash) : Run AccountRef := do
  let ctx ← Exec.get
  let id := programId.toBase64
  let found ← findAccount P programId (range ctx.accounts.length)
  let programIdx ← ofOption (.programNotExecutable s!"program account not found: {id}") found
  let program ← getAccount P programIdx
  require (program.account.executable = true)
    (.programNotExecutable s!"program {id} is not executable")
  require (program.account.owner = P.programId .loader)
    (.programNotExecutable s!"program {id} not owned by loader")
  let state ← ofExcept
    ((fromAccountData program.account.data).mapError .invalidAccountData)
  let pdAddress ← ofOption (.programNotExecutable "not a Program account") state.program?
  let found ← findAccount P pdAddress (range ctx.accounts.length)
  let pdIdx ← ofOption
    (.invalidAccountData "program data account not found in transaction") found
  getAccount P pdIdx

/-- The bytecode of a program of the transaction. -/
def loadBytecode (programId : Hash) : Run (List UInt8) := do
  let pd ← findProgramData P programId
  let bytecode ← ofFault (extractBytecode P pd.account.data)
  ofExcept (bytecode.mapError .invalidAccountData)

/-- The accounts an instruction names must be there. -/
def requirePresent : List UInt8 → Run Unit
  | [] => return ()
  | i :: rest => do
    let _ ← getAccount P i.toNat
    requirePresent rest

/-- `dispatch_wasm_program`. -/
def dispatchWasmProgram (programId : Hash) (accounts data : List UInt8) : Run Unit := do
  let bytecode ← loadBytecode P programId
  requirePresent P accounts
  let ctx ← Exec.get
  let outcome := Wasm.execute P bytecode programId data accounts.length
    ctx.computeMeter.remaining
  Exec.set { ctx with computeMeter := ctx.computeMeter.setRemaining outcome.2 }
  ofExcept (outcome.1.mapError fun e => .wasmError e.toText)

/-- The programs with a native processor (`ProcessorRegistry::new_with_defaults`). -/
def registry : List Builtin := [.system, .stake, .vote, .computeBudget, .loader, .token]

/-- `ProcessorRegistry::find`. -/
def findProcessor (programId : Hash) : Option Builtin :=
  registry.find? fun b => P.programId b = programId

/-- The native processor of a program. -/
def processBuiltin (b : Builtin) (accounts data : List UInt8) : Run Unit :=
  match b with
  | .system => processSystem P sysvars accounts data
  | .stake => Stake.processStake P sysvars accounts data
  | .vote => VoteProgram.processVote P sysvars accounts data
  | .loader => Loader.processLoader P sysvars accounts data
  | .token => Token.processToken P accounts data
  | .computeBudget | .rent | .sysvar => return ()

/-- `INSTRUCTION_BASE_COST`. -/
def instructionBaseCost : ℕ := 200

/-- `INSTRUCTION_DATA_BYTE_COST`. -/
def instructionDataByteCost : ℕ := 1

/-- `dispatch_instruction`. -/
def dispatchInstruction (programId : Hash) (accounts data : List UInt8) : Run Unit := do
  consumeCompute (instructionBaseCost + data.length * instructionDataByteCost)
  require (programId ≠ P.programId .sysvar ∧ programId ≠ P.programId .rent)
    (.unknownProgram "sysvar and rent programs are not executable")
  match findProcessor P programId with
  | some b => processBuiltin P sysvars b accounts data
  | none => dispatchWasmProgram P programId accounts data

/-- One turn of the loop of `execute_instructions`. -/
def executeInstruction (ixIdx : ℕ) (ix : CompiledInstruction) : Run Unit := do
  let ctx ← Exec.get
  let pid := ix.programIdIndex.toNat
  let programId ← ofOption
    (.invalidInstructionData s!"instruction {ixIdx}: program_id_index {pid} out of bounds")
    ctx.message.accountKeys[pid]?
  dispatchInstruction P sysvars programId ix.accounts ix.data

/-- The loop of `execute_instructions`, from the instruction number `ixIdx` on. -/
def executeFrom : ℕ → List CompiledInstruction → Run Unit
  | _, [] => return ()
  | ixIdx, ix :: rest => do
    executeInstruction P sysvars ixIdx ix
    executeFrom (ixIdx + 1) rest

/-- `execute_instructions`. -/
def executeInstructions : Run Unit := do
  let ctx ← Exec.get
  executeFrom P sysvars 0 ctx.message.instructions

end Dispatch

/-! ### Confinement -/

/-- The faults an instruction may stop at.  The WASM path slices the data of an account at an end
that can have wrapped. -/
def DispatchFault (P : Platform) (m : Message) (f : Fault) : Prop :=
  RunFault P m f ∨ P.overflowChecks = false ∧ f = .indexOutOfBounds

/-- How many of the first accounts the processor of a program writes. -/
def writtenCount (data : List UInt8) : Builtin → ℕ
  | .system => countOf SystemInstruction.codec SystemInstruction.written data
  | .stake => countOf StakeInstruction.codec StakeInstruction.written data
  | .vote => countOf VoteInstruction.codec VoteInstruction.written data
  | .loader => countOf LoaderInstruction.codec LoaderInstruction.written data
  | .token => countOf TokenInstruction.codec TokenInstruction.written data
  | .computeBudget | .rent | .sysvar => 0

/-- The positions of the accounts that an instruction writes: the first ones it gives to a native
program, as many as that program writes.  A WASM program writes none. -/
def Writes (P : Platform) (message : Message) (ix : CompiledInstruction) (i : ℕ) : Prop :=
  ∃ programId b, message.accountKeys[ix.programIdIndex.toNat]? = some programId ∧
    findProcessor P programId = some b ∧ Leading ix.accounts (writtenCount ix.data b) i

section Confinement

variable {P : Platform} {W : ℕ → Prop} {s₀ : TransactionContext} {known : Prop} {α : Type}
  {sysvars : SysvarCache} {accounts data : List UInt8} {programId : Hash}

instance {b : Builtin} : Confined P (Leading accounts (writtenCount data b)) s₀ known
    (processBuiltin P sysvars b accounts data) := by
  cases b <;> unfold processBuiltin writtenCount <;> infer_instance

instance {address : Hash} {is : List ℕ} : Confined P W s₀ known (findAccount P address is) := by
  induction is <;> unfold findAccount <;> infer_instance

instance {is : List UInt8} : Confined P W s₀ known (requirePresent P is) := by
  induction is <;> unfold requirePresent <;> infer_instance

set_option synthInstance.maxSize 1024 in
instance : Confined P W s₀ known (findProgramData P programId) := by
  unfold findProgramData
  infer_instance

/-- The faults of the native path are among those of the dispatch. -/
theorem dispatches_of_confined {m : Run α} [h : Confined P W s₀ True m] :
    Keeps (Within P W s₀) (DispatchFault P s₀.message) m :=
  (h.keeps trivial).mono fun _ => Or.inl

theorem evolves_of_confined {m : Run α} [∀ s, Confined P (fun _ => False) s True m] :
    Keeps (Evolves P s₀) (DispatchFault P s₀.message) m :=
  keeps_of_confined.mono fun _ => Or.inl

theorem keeps_extractBytecode :
    Keeps (Within P W s₀) (DispatchFault P s₀.message)
      (ofFault (extractBytecode P data) : Run (Except String (List UInt8))) := by
  refine ofFault fun f hf => ?_
  obtain ⟨-, rfl⟩ := extractBytecode_eq_error.mp hf
  cases hP : P.overflowChecks with
  | true => exact Or.inl ⟨hP, Or.inl rfl⟩
  | false => exact Or.inr ⟨hP, rfl⟩

theorem keeps_loadBytecode :
    Keeps (Within P W s₀) (DispatchFault P s₀.message) (loadBytecode P programId) := by
  refine dispatches_of_confined.bind fun _ => ?_
  exact keeps_extractBytecode.bind fun _ => ofExcept _

theorem keeps_dispatchWasmProgram :
    Keeps (Within P W s₀) (DispatchFault P s₀.message)
      (dispatchWasmProgram P programId accounts data) := by
  refine keeps_loadBytecode.bind fun bytecode => ?_
  refine dispatches_of_confined.bind fun _ => ?_
  intro s hs
  rw [run_bind, run_get]
  refine bind (m := Exec.set _) (f := fun _ => Exec.ofExcept _)
    (fun t _ => ?_) (fun _ => ofExcept _) s hs
  exact hs.setRemaining (min_le_right _ _)

/-- **An instruction** changes the accounts that it writes and no others. -/
theorem within_executeInstruction {ixIdx : ℕ} {ix : CompiledInstruction} :
    Keeps (Within P (Writes P s₀.message ix) s₀) (DispatchFault P s₀.message)
      (executeInstruction P sysvars ixIdx ix) := by
  refine keeps_get_bind fun s hs => ?_
  refine (Keeps.ofOption _ _).bind_of
    (C := fun programId => s₀.message.accountKeys[ix.programIdIndex.toNat]? = some programId)
    (fun t programId t' _ hrun => hs.message ▸ (ofOption_eq_ok.mp hrun).1) fun programId hid => ?_
  refine dispatches_of_confined.bind fun _ => (Keeps.require _ _).bind fun _ => ?_
  cases hproc : findProcessor P programId with
  | some b =>
    have hwrites : Writes P s₀.message ix = Leading ix.accounts (writtenCount ix.data b) := by
      funext i
      simp [Writes, hid, hproc]
    rw [hwrites]
    exact dispatches_of_confined
  | none => exact keeps_dispatchWasmProgram

/-- A run of instructions, by induction over the instructions that are left. -/
theorem keeps_executeFrom {ixIdx : ℕ} {ixs : List CompiledInstruction} :
    Keeps (Evolves P s₀) (DispatchFault P s₀.message) (executeFrom P sysvars ixIdx ixs) := by
  induction ixs generalizing ixIdx with
  | nil => exact pure _
  | cons ix ixs ih =>
    exact Keeps.bind (keeps_evolves (F := DispatchFault P) fun _ => within_executeInstruction)
      fun _ => ih

theorem keeps_executeInstructions :
    Keeps (Evolves P s₀) (DispatchFault P s₀.message) (executeInstructions P sysvars) :=
  get.bind fun _ => keeps_executeFrom

end Confinement

/-! ### What a WASM program is charged -/

namespace Wasm

/-- A meter of the units that an execution burns of its fuel: a call that returns leaves the others. -/
structure FuelMeter (P : Platform) where
  burnt : List UInt8 → Hash → List UInt8 → ℕ → ℕ → ℕ
  left_add_burnt : ∀ {bytecode programId data numAccounts fuel value fuelLeft},
    P.wasmi.call bytecode fuel numAccounts data programId = .returned value fuelLeft →
      fuelLeft + burnt bytecode programId data numAccounts fuel = fuel

/-- The program is called and its entrypoint returns, whatever the value. -/
def Returns (P : Platform) (bytecode : List UInt8) (programId : Hash) (data : List UInt8)
    (numAccounts fuel : ℕ) : Prop :=
  prepare P bytecode data.length numAccounts fuel = .ok () ∧
    ∃ value fuelLeft, P.wasmi.call bytecode fuel numAccounts data programId = .returned value fuelLeft

variable {P : Platform} (bytecode data : List UInt8) (programId : Hash) (numAccounts : ℕ) {n : ℕ}

/-- What an execution leaves of the fuel: all of it, unless the program returns. -/
theorem execute_left_iff (M : FuelMeter P) (hn : costInstantiation ≤ n) :
    ((execute P bytecode programId data numAccounts n).2 ≤ n - costInstantiation) ∧
      ((execute P bytecode programId data numAccounts n).2 +
          M.burnt bytecode programId data numAccounts (n - costInstantiation) =
        n - costInstantiation ↔
      Returns P bytecode programId data numAccounts (n - costInstantiation) ∨
        M.burnt bytecode programId data numAccounts (n - costInstantiation) = 0) := by
  rw [execute, if_neg (not_lt.mpr hn)]
  generalize n - costInstantiation = fuel
  cases hprepare : prepare P bytecode data.length numAccounts fuel with
  | error e => simp [Returns, hprepare]
  | ok u =>
    cases hcall : P.wasmi.call bytecode fuel numAccounts data programId with
    | outOfFuel | trapped text => simp [Returns, hprepare, hcall]
    | returned value fuelLeft =>
      have hleft := M.left_add_burnt hcall
      simp only [hprepare, hcall]
      exact ⟨by omega, iff_of_true hleft (.inl ⟨hprepare, value, fuelLeft, hcall⟩)⟩

end Wasm

section Charge

variable {P : Platform} {s s' s₁ s₂ : TransactionContext} {programId : Hash}
  {accounts data bytecode : List UInt8}

theorem findAccount_ok {address : Hash} {is : List ℕ} {o : Option ℕ}
    (h : (findAccount P address is).run s = .ok o s') : s' = s := by
  induction is with
  | nil => exact (Outcome.ok.inj h).2.symm
  | cons i is ih =>
    obtain ⟨r, _, hget, hrest⟩ := bind_eq_ok.mp h
    obtain ⟨rfl, -⟩ := getAccount_eq_ok.mp hget
    split_ifs at hrest
    · exact (Outcome.ok.inj hrest).2.symm
    · exact ih hrest

theorem requirePresent_ok {is : List UInt8} (h : (requirePresent P is).run s = .ok () s') :
    s' = s := by
  induction is with
  | nil => exact (Outcome.ok.inj h).2.symm
  | cons i is ih =>
    obtain ⟨r, _, hget, hrest⟩ := bind_eq_ok.mp h
    obtain ⟨rfl, -⟩ := getAccount_eq_ok.mp hget
    exact ih hrest

/-- The bytecode is looked up without a change. -/
theorem loadBytecode_ok (h : (loadBytecode P programId).run s = .ok bytecode s') : s' = s := by
  simp only [loadBytecode, findProgramData, bind_eq_ok, run_get, Outcome.ok.injEq, ofOption_eq_ok,
    require_eq_ok, ofExcept_eq_ok, ofFault_eq_ok, getAccount_eq_ok, existsAndEq, and_assoc] at h
  grind [findAccount_ok]

/-- **Charge for a WASM program.**  A call that comes to the execution of the program moves the meter by
the cost of the instantiation and the fuel it burns iff the budget covers that cost, and the program
returns or burns nothing. -/
theorem consumed_dispatchWasmProgram_iff (M : Wasm.FuelMeter P)
    (hlimit : s.computeMeter.remaining ≤ s.computeMeter.limit)
    (hload : (loadBytecode P programId).run s = .ok bytecode s₁)
    (hpresent : (requirePresent P accounts).run s₁ = .ok () s₂)
    (hrun : (dispatchWasmProgram P programId accounts data).run s = .ok () s' ∨
      ∃ e, (dispatchWasmProgram P programId accounts data).run s = .err e s') :
    s'.computeMeter.consumed = s.computeMeter.consumed + Wasm.costInstantiation +
        M.burnt bytecode programId data accounts.length
          (s.computeMeter.remaining - Wasm.costInstantiation) ↔
      Wasm.costInstantiation ≤ s.computeMeter.remaining ∧
        (Wasm.Returns P bytecode programId data accounts.length
            (s.computeMeter.remaining - Wasm.costInstantiation) ∨
          M.burnt bytecode programId data accounts.length
            (s.computeMeter.remaining - Wasm.costInstantiation) = 0) := by
  obtain rfl := loadBytecode_ok hload
  obtain rfl := requirePresent_ok hpresent
  rw [dispatchWasmProgram, bind_of_ok hload, bind_of_ok hpresent, bind_of_ok run_get,
    bind_of_ok run_set] at hrun
  generalize hout : Wasm.execute P bytecode programId data accounts.length
    s₂.computeMeter.remaining = outcome at hrun
  -- however the execution ends, the meter is set to what it left
  have hmeter : s'.computeMeter = s₂.computeMeter.setRemaining outcome.2 := by
    rcases hrun with hrun | ⟨e, hrun⟩
    · rw [← (ofExcept_eq_ok.mp hrun).2]
    · rw [← (ofExcept_eq_err.mp hrun).2]
  rw [hmeter, ComputeMeter.consumed, ComputeMeter.consumed, ComputeMeter.setRemaining]
  by_cases hcost : Wasm.costInstantiation ≤ s₂.computeMeter.remaining
  · obtain ⟨hle, hiff⟩ := Wasm.execute_left_iff bytecode data programId accounts.length M hcost
    rw [hout] at hle hiff
    rw [← hiff, and_iff_right hcost, min_eq_left (by omega)]
    simp only
    omega
  · have hpos : 0 < Wasm.costInstantiation := by decide
    have hleft : outcome.2 = s₂.computeMeter.remaining := by
      rw [← hout, Wasm.execute, if_pos (not_le.mp hcost)]
    simp only [hcost, hleft, min_self, false_and, iff_false]
    omega

end Charge

namespace Sample

/-- An engine on which a call comes to what its fuel makes of it. -/
def engine (call : ℕ → WasmCall) : Platform :=
  { Platform.sample false with
    wasmi :=
      { compileError := fun _ => none
        instantiateError := fun _ _ => none
        memoryPages := fun _ => some 64
        hasEntrypoint := fun _ => true
        call := fun _ fuel _ _ _ => call fuel } }

/-- A program without bytecode, and the account that holds it. -/
def wasmContext : TransactionContext :=
  let account (state : LoaderState) : Account :=
    { Account.new 1 ((Platform.sample false).programId .loader) with
      executable := true
      data := codec.enc state }
  .new [(repeated 5, account (.program (repeated 6))),
      (repeated 6, account (.programData 0 none 0))]
    { numRequiredSignatures := 1, numReadonlySigned := 0, numReadonlyUnsigned := 0,
      accountKeys := [repeated 5, repeated 6], recentBlockhash := Hash.zero,
      instructions := [] } 0 100000

end Sample

open Sample in
/-- A program that runs out of fuel has burnt all of it, and is charged its instantiation. -/
theorem exhausted_program_keeps_fuel :
    ∃ (P : Platform) (M : Wasm.FuelMeter P) (s s' : TransactionContext) (programId : Hash)
      (bytecode : List UInt8) (e : RuntimeError), (loadBytecode P programId).run s = .ok bytecode s ∧
      (dispatchWasmProgram P programId [] []).run s = .err e s' ∧
      M.burnt bytecode programId [] 0 90000 = 90000 ∧ s.computeMeter.remaining = 100000 ∧
      s'.computeMeter.consumed = s.computeMeter.consumed + Wasm.costInstantiation := by
  obtain ⟨e, s', hrun, hload, hconsumed⟩ : ∃ (e : RuntimeError) (s' : TransactionContext),
      (dispatchWasmProgram (engine fun _ => .outOfFuel) (repeated 5) [] []).run wasmContext =
        .err e s' ∧
      (loadBytecode (engine fun _ => .outOfFuel) (repeated 5)).run wasmContext =
        .ok [] wasmContext ∧
      s'.computeMeter.consumed = wasmContext.computeMeter.consumed + Wasm.costInstantiation := by
    decide +kernel
  exact ⟨_, ⟨fun _ _ _ _ fuel => fuel, by simp [engine]⟩, _, s', _, [], e, hload, hrun, rfl, rfl,
    hconsumed⟩

open Sample in
/-- A program that fails at once, with all its fuel left. -/
theorem failing_program_is_charged :
    ∃ (P : Platform) (M : Wasm.FuelMeter P) (s s' : TransactionContext) (programId : Hash)
      (e : RuntimeError), (dispatchWasmProgram P programId [] []).run s = .err e s' ∧
      s'.computeMeter.consumed = s.computeMeter.consumed + Wasm.costInstantiation +
        M.burnt [] programId [] 0 90000 := by
  obtain ⟨e, s', hrun, hload⟩ : ∃ (e : RuntimeError) (s' : TransactionContext),
      (dispatchWasmProgram (engine (.returned 1)) (repeated 5) [] []).run wasmContext =
        .err e s' ∧
      (loadBytecode (engine (.returned 1)) (repeated 5)).run wasmContext =
        .ok [] wasmContext := by
    decide +kernel
  let M : Wasm.FuelMeter (engine (.returned 1)) := ⟨fun _ _ _ _ _ => 0, by simp [engine]⟩
  exact ⟨_, M, _, s', _, e, hrun, (consumed_dispatchWasmProgram_iff M (by decide) hload rfl
    (.inr ⟨e, hrun⟩)).mpr ⟨by decide, .inr rfl⟩⟩

end Nusantara

import Nusantara.Processors.System

/-!
# The loader program

Buffers, programs and their bytecode (`loader-program/src/{lib,state}.rs`,
`runtime/src/processors/loader/`).

An account of the loader holds a header, `LoaderState`, followed by raw bytes.  The code reads
the header with a decoder that ignores what follows, encodes it again to learn its length, and
slices the data there; that the slice is in bounds rests on the codec being canonical.  The end
of the bytecode is computed from a length stored in the account, with an addition that can leave
`usize`.
-/

namespace Nusantara

open Borsh Exec TransactionContext Codec UInt64 Outcome

/-! ### State and instructions -/

/-- The header of an account of the loader. -/
inductive LoaderState where
  | uninitialized
  | buffer (authority : Option Hash)
  | program (programDataAddress : Hash)
  | programData (slot : UInt64) (upgradeAuthority : Option Hash) (bytecodeLen : UInt64)
  deriving DecidableEq

/-- An instruction of the loader. -/
inductive LoaderInstruction where
  | initializeBuffer
  | write (offset : UInt32) (data : List UInt8)
  | deploy (maxDataLen : UInt64)
  | upgrade
  | setAuthority (newAuthority : Option Hash)
  | close
  deriving DecidableEq

namespace LoaderState

/-- The Borsh form of a header. -/
def codec : Codec LoaderState := enum (·.ctorIdx) [
  nullary uninitialized,
  ctor (option Hash.codec) buffer (fun | buffer a => some a | _ => none),
  ctor Hash.codec program (fun | program a => some a | _ => none),
  ctor (u64.pair ((option Hash.codec).pair u64)) (fun p => programData p.1 p.2.1 p.2.2)
    (fun | programData s a l => some (s, a, l) | _ => none)]

/-- `LoaderState::from_account_data`: an account without data is not initialized. -/
def fromAccountData (data : List UInt8) : Except String LoaderState :=
  if data = [] then .ok uninitialized else (codec.deserialize data).mapError Borsh.Error.toText

/-- `LoaderState::authority`. -/
def authority : LoaderState → Option Hash
  | buffer a => a
  | programData _ a _ => a
  | _ => none

/-- The authority of a buffer. -/
def buffer? : LoaderState → Option (Option Hash)
  | buffer a => some a
  | _ => none

/-- The address a program points to. -/
def program? : LoaderState → Option Hash
  | program a => some a
  | _ => none

/-- The authority over the bytecode of a program. -/
def programData? : LoaderState → Option (Option Hash)
  | programData _ a _ => some a
  | _ => none

/-- The length of the encoded header. -/
def headerLen (state : LoaderState) : ℕ := (codec.enc state).length

end LoaderState

/-! ### Slices of the data -/

/-- The slice `data[start..]`. -/
def sliceFrom (data : List UInt8) (start : ℕ) : Except Fault (List UInt8) :=
  if start ≤ data.length then .ok (data.drop start) else .error .indexOutOfBounds

/-- The slice `data[start..stop]`. -/
def slice (data : List UInt8) (start stop : ℕ) : Except Fault (List UInt8) :=
  if start ≤ stop ∧ stop ≤ data.length then .ok ((data.take stop).drop start)
  else .error .indexOutOfBounds

section

variable {P : Platform} {data : List UInt8} {state : LoaderState} {start stop : ℕ} {f : Fault}

theorem LoaderState.fromAccountData_eq_ok (hne : data ≠ []) (h : fromAccountData data = .ok state) :
    codec.deserialize data = .ok state := by
  rw [fromAccountData, if_neg hne] at h
  cases hdec : codec.deserialize data with
  | error e => simp [hdec, Except.mapError] at h
  | ok st => simpa [hdec, Except.mapError] using h

/-- A header other than that of a fresh account is at the front of the data. -/
theorem LoaderState.headerLen_le (h : fromAccountData data = .ok state) (hst : state ≠ .uninitialized) :
    state.headerLen ≤ data.length := by
  have hne : data ≠ [] := by
    rintro rfl
    exact hst (Except.ok.inj h).symm
  exact codec.enc_length_le (fromAccountData_eq_ok hne h)

theorem sliceFrom_of_le (h : start ≤ data.length) :
    sliceFrom data start = .ok (data.drop start) :=
  if_pos h

/-- The `len` bytes behind a header; the end is computed on `usize`. -/
def bytecodeAfter (P : Platform) (data : List UInt8) (headerLen len : ℕ) :
    Except Fault (Except String (List UInt8)) :=
  if data.length < headerLen then .ok (.error "account data too short for ProgramData header")
  else match P.wrapAdd 64 headerLen len with
    | .error f => .error f
    | .ok stop =>
      if data.length < stop then .ok (.error "account data too short for bytecode")
      else (slice data headerLen stop).map .ok

/-- `LoaderState::extract_bytecode`. -/
def LoaderState.extractBytecode (P : Platform) (data : List UInt8) :
    Except Fault (Except String (List UInt8)) :=
  match codec.deserialize data with
  | .error e => .ok (.error e.toText)
  | .ok (programData slot auth bytecodeLen) =>
    bytecodeAfter P data (programData slot auth bytecodeLen).headerLen bytecodeLen.toNat
  | .ok _ => .ok (.error "not a ProgramData account")

/-- Whether the stored length of the bytecode takes its end out of `usize`. -/
def LoaderState.lengthWraps (data : List UInt8) : Bool :=
  match codec.deserialize data with
  | .ok (programData slot auth len) => 2 ^ 64 ≤ (programData slot auth len).headerLen + len.toNat
  | _ => false

theorem slice_of_le (h : start ≤ stop)
    (h' : stop ≤ data.length) : slice data start stop = .ok ((data.take stop).drop start) :=
  if_pos ⟨h, h'⟩

/-- The bytes behind a header are missed exactly where their end leaves `usize`: at the addition
where it is checked, at the slice where it wraps. -/
theorem bytecodeAfter_eq_error {n len : ℕ} (hn : n ≤ data.length) (hn64 : n < 2 ^ 64)
    (hlen : len < 2 ^ 64) : bytecodeAfter P data n len = .error f ↔
      2 ^ 64 ≤ n + len ∧
        f = if P.overflowChecks then .arithmeticOverflow else .indexOutOfBounds := by
  rw [bytecodeAfter, if_neg (not_lt.mpr hn)]
  by_cases hfit : n + len < 2 ^ 64
  · have hno : ¬2 ^ 64 ≤ n + len := not_le.mpr hfit
    simp only [Platform.wrapAdd, if_pos hfit, hno, false_and, iff_false]
    split_ifs with hshort
    · simp
    · simp [slice_of_le (Nat.le_add_right n len) (not_lt.mp hshort), Except.map]
  · have hwrap : 2 ^ 64 ≤ n + len := not_lt.mp hfit
    simp only [Platform.wrapAdd, if_neg hfit, hwrap, true_and]
    cases hP : P.overflowChecks with
    | true => simp only [if_true, Except.error.injEq, eq_comm]
    | false =>
      -- the sum has wrapped to a position before the start
      have hmod : (n + len) % 2 ^ 64 = n + len - 2 ^ 64 := by
        rw [Nat.mod_eq_sub_mod hwrap, Nat.mod_eq_of_lt (by omega)]
      have hshort : ¬data.length < n + len - 2 ^ 64 := by omega
      simp only [Bool.false_eq_true, if_false, hmod, hshort]
      rw [slice, if_neg (by omega)]
      simp only [Except.map, Except.error.injEq, eq_comm]

theorem LoaderState.enc_programData {slot len : UInt64} {auth : Option Hash} :
    codec.enc (programData slot auth len)
      = 3 :: (u64.pair ((option Hash.codec).pair u64)).enc (slot, auth, len) := rfl

theorem LoaderState.headerLen_programData_le {slot len : UInt64} {auth : Option Hash} :
    (programData slot auth len).headerLen ≤ 82 := by
  cases auth with
  | none => simp [headerLen, enc_programData, pair, option, u64, word]
  | some h =>
    simp [headerLen, enc_programData, pair, option, u64, word, Hash.codec, bytes, h.size_eq,
      hashBytes]

/-- Extraction stops exactly at a stored length that leaves `usize`. -/
theorem LoaderState.extractBytecode_eq_error :
    extractBytecode P data = .error f ↔
      lengthWraps data = true ∧
        f = if P.overflowChecks then .arithmeticOverflow else .indexOutOfBounds := by
  unfold extractBytecode lengthWraps
  cases hdec : codec.deserialize data with
  | error e => simp
  | ok state =>
    cases state with
    | programData slot auth len =>
      simp only [decide_eq_true_eq]
      exact bytecodeAfter_eq_error (codec.enc_length_le hdec)
        (headerLen_programData_le.trans_lt (by norm_num)) len.toNat_lt
    | _ => simp

end

namespace LoaderInstruction

/-- The Borsh form of an instruction. -/
def codec : Codec LoaderInstruction := enum (·.ctorIdx) [
  nullary initializeBuffer,
  ctor (u32.pair (vec u8)) (fun p => write p.1 p.2) (fun | write o d => some (o, d) | _ => none),
  ctor u64 deploy (fun | deploy n => some n | _ => none),
  nullary upgrade,
  ctor (option Hash.codec) setAuthority (fun | setAuthority a => some a | _ => none),
  nullary close]

/-- How many of its first accounts an instruction writes. -/
def written : LoaderInstruction → ℕ
  | deploy _ | upgrade => 4
  | close => 2
  | _ => 1

end LoaderInstruction

/-! ### The processor -/

namespace Loader

section Processor

variable (P : Platform) (sysvars : SysvarCache) (accounts : List UInt8)

/-- The header of an account. -/
def loadLoaderState (index : ℕ) : Run LoaderState := do
  let acc ← getAccount P index
  ofExcept ((LoaderState.fromAccountData acc.account.data).mapError .invalidAccountData)

/-- The check that an account belongs to the loader. -/
def requireLoaderOwner (index : ℕ) : Run Unit := do
  let acc ← getAccount P index
  require (acc.account.owner = P.programId .loader) .accountOwnerMismatch

/-- The header of a buffer under the given authority; `text` reports another kind of account. -/
def loadBuffer (index authorityIdx : ℕ) (authority : Hash) (text : String) : Run LoaderState := do
  let state ← loadLoaderState P index
  let owner ← ofOption (.invalidAccountData text) state.buffer?
  require (owner = some authority) (.accountNotSigner authorityIdx)
  return state

/-- The bytes after the header of a buffer, and its balance. -/
def bufferContents (index : ℕ) (state : LoaderState) : Run (List UInt8 × UInt64) := do
  let buffer ← getAccount P index
  let bytecode ← ofFault (sliceFrom buffer.account.data state.headerLen)
  return (bytecode, buffer.account.lamports)

/-- The check of the bytecode. -/
def requireValidWasm (bytecode : List UInt8) : Run Unit :=
  match P.validateWasm bytecode with
  | none => return ()
  | some text => throw (.wasmError text)

/-- Empty an account that is closed. -/
def clearAccount (index : ℕ) : Run Unit := do
  let acc ← getAccountMut P index
  putAccount index ((acc.withLamports 0).withData [])

/-- `process_initialize_buffer`: the account must sign; its owner is overwritten. -/
def processInitializeBuffer : Run Unit := do
  requireAccounts accounts 2 "InitializeBuffer"
  let bufferIdx ← accountIndex accounts 0
  let authorityIdx ← accountIndex accounts 1
  let authority ← requireSigner P authorityIdx
  let _ ← requireSigner P bufferIdx
  let buffer ← getAccountMut P bufferIdx
  putAccount bufferIdx { buffer with
    owner := P.programId .loader
    data := LoaderState.codec.enc (.buffer (some authority)) }

/-- Overwrite `data` from `start` on, extending it with zeros where it is too short. -/
def writeAt (data : List UInt8) (start : ℕ) (bytes : List UInt8) : List UInt8 :=
  let padded := data ++ List.replicate (start + bytes.length - data.length) 0
  padded.take start ++ bytes ++ padded.drop (start + bytes.length)

/-- `process_write`. -/
def processWrite (offset : UInt32) (bytes : List UInt8) : Run Unit := do
  requireAccounts accounts 2 "Write"
  let bufferIdx ← accountIndex accounts 0
  let authorityIdx ← accountIndex accounts 1
  let authority ← requireSigner P authorityIdx
  requireLoaderOwner P bufferIdx
  let _ ← loadBuffer P bufferIdx authorityIdx authority "account is not a buffer"
  let buffer ← getAccountMut P bufferIdx
  let writeStart := (LoaderState.buffer (some authority)).headerLen + offset.toNat
  let writeEnd := writeStart + bytes.length
  require (writeEnd ≤ maxAccountDataSize.toNat)
    (.accountDataTooLarge (ofNat writeEnd) maxAccountDataSize)
  putAccount bufferIdx (buffer.withData (writeAt buffer.data writeStart bytes))

/-- An account that was never written to. -/
def isFresh (a : Account) : Bool :=
  a.data = [] && !a.executable && a.lamports = 0 && P.isSystemOwned a.owner

/-- The check that an account was never written to. -/
def requireFresh (index : ℕ) : Run Unit := do
  let acc ← getAccount P index
  require (isFresh P acc.account = true) .accountAlreadyExists

/-- The header, the bytecode, and zeros up to the given space. -/
def programDataBytes (slot : UInt64) (authority : Hash) (bytecode : List UInt8) (space : ℕ) :
    List UInt8 :=
  LoaderState.codec.enc (.programData slot (some authority) (ofNat bytecode.length)) ++
    bytecode ++ List.replicate (space - bytecode.length) 0

/-- `process_deploy`: the account of the bytecode need not sign. -/
def processDeploy (maxDataLen : UInt64) : Run Unit := do
  requireAccounts accounts 5 "Deploy"
  let payerIdx ← accountIndex accounts 0
  let programIdx ← accountIndex accounts 1
  let programDataIdx ← accountIndex accounts 2
  let bufferIdx ← accountIndex accounts 3
  let authorityIdx ← accountIndex accounts 4
  let _ ← requireSigner P payerIdx
  let _ ← requireSigner P programIdx
  let authority ← requireSigner P authorityIdx
  requireFresh P programIdx
  requireFresh P programDataIdx
  requireLoaderOwner P bufferIdx
  let state ← loadBuffer P bufferIdx authorityIdx authority "account is not a buffer"
  let contents ← bufferContents P bufferIdx state
  let bytecode := contents.1
  requireValidWasm P bytecode
  let programData ← getAccount P programDataIdx
  let program ← getAccountMut P programIdx
  putAccount programIdx { program with
    owner := P.programId .loader
    executable := true
    data := LoaderState.codec.enc (.program programData.address) }
  require (maxDataLen ≤ maxAccountDataSize) (.accountDataTooLarge maxDataLen maxAccountDataSize)
  let ctx ← Exec.get
  let bytecodeSpace := max maxDataLen.toNat bytecode.length
  let pdData := programDataBytes ctx.slot authority bytecode bytecodeSpace
  let pdRent := sysvars.rent.minimumBalance pdData.length
  debit P payerIdx pdRent (.insufficientFunds pdRent)
  let pd ← getAccountMut P programDataIdx
  let funded ← ofOption .lamportsOverflow (Word.checkedAdd pd.lamports pdRent)
  putAccount programDataIdx { pd with
    owner := P.programId .loader
    lamports := funded
    data := pdData }
  clearAccount P bufferIdx
  credit P payerIdx contents.2

/-- `process_upgrade`: the owners of the accounts are not looked at. -/
def processUpgrade : Run Unit := do
  requireAccounts accounts 4 "Upgrade"
  let programIdx ← accountIndex accounts 0
  let programDataIdx ← accountIndex accounts 1
  let bufferIdx ← accountIndex accounts 2
  let authorityIdx ← accountIndex accounts 3
  let authority ← requireSigner P authorityIdx
  let programData ← getAccount P programDataIdx
  let program ← loadLoaderState P programIdx
  let target ← ofOption (.invalidAccountData "not a program account") program.program?
  require (target = programData.address) (.invalidAccountData "program data address mismatch")
  let state ← loadLoaderState P programDataIdx
  let upgradeAuthority ← ofOption (.invalidAccountData "not a program data account")
    state.programData?
  require (upgradeAuthority.isSome = true) (.programError "loader" "program is immutable")
  require (upgradeAuthority = some authority) (.accountNotSigner authorityIdx)
  let buffer ← loadBuffer P bufferIdx authorityIdx authority "not a buffer account"
  let contents ← bufferContents P bufferIdx buffer
  let bytecode := contents.1
  requireValidWasm P bytecode
  let ctx ← Exec.get
  let pd ← getAccountMut P programDataIdx
  require (state.headerLen ≤ pd.data.length)
    (.invalidAccountData "program data account too small for its own header")
  let space := pd.data.length - state.headerLen
  require (bytecode.length ≤ space)
    (.accountDataTooLarge (ofNat bytecode.length) (ofNat space))
  putAccount programDataIdx (pd.withData (programDataBytes ctx.slot authority bytecode space))
  clearAccount P bufferIdx
  credit P authorityIdx contents.2

/-- The header after a change of authority. -/
def withAuthority (authorityIdx : ℕ) (current : Hash) (newAuthority : Option Hash) :
    LoaderState → Except RuntimeError LoaderState
  | .buffer authority =>
    if authority = some current then .ok (.buffer newAuthority)
    else .error (.accountNotSigner authorityIdx)
  | .programData slot upgradeAuthority bytecodeLen =>
    if upgradeAuthority = some current then .ok (.programData slot newAuthority bytecodeLen)
    else .error (.accountNotSigner authorityIdx)
  | _ => .error (.invalidAccountData "cannot set authority on this account type")

/-- The data after a change of authority: bytecode is kept, the contents of a buffer are not. -/
def replaceHeader (data : List UInt8) (old new : LoaderState) : Except Fault (List UInt8) :=
  match old with
  | .programData .. => do
    let bytecode ← sliceFrom data old.headerLen
    return LoaderState.codec.enc new ++ bytecode
  | _ => .ok (LoaderState.codec.enc new)

/-- `process_set_authority`: the owner of the account is not looked at. -/
def processSetAuthority (newAuthority : Option Hash) : Run Unit := do
  requireAccounts accounts 2 "SetAuthority"
  let accountIdx ← accountIndex accounts 0
  let currentAuthorityIdx ← accountIndex accounts 1
  let current ← requireSigner P currentAuthorityIdx
  let currentState ← loadLoaderState P accountIdx
  let newState ← ofExcept (withAuthority currentAuthorityIdx current newAuthority currentState)
  let acc ← getAccountMut P accountIdx
  let data ← ofFault (replaceHeader acc.data currentState newState)
  putAccount accountIdx (acc.withData data)

/-- `process_close`: the owner of the account is not looked at. -/
def processClose : Run Unit := do
  requireAccounts accounts 3 "Close"
  let closeIdx ← accountIndex accounts 0
  let recipientIdx ← accountIndex accounts 1
  let authorityIdx ← accountIndex accounts 2
  let authority ← requireSigner P authorityIdx
  let acc ← getAccount P closeIdx
  let state ← loadLoaderState P closeIdx
  require (state.authority = some authority) (.accountNotSigner authorityIdx)
  credit P recipientIdx acc.account.lamports
  clearAccount P closeIdx

/-- `process_loader`. -/
def processLoader (data : List UInt8) : Run Unit := do
  let instruction ← decodeInstruction LoaderInstruction.codec data
  match instruction with
  | .initializeBuffer => do
    consumeCompute 500
    processInitializeBuffer P accounts
  | .write offset bytes => do
    consumeCompute (200 + bytes.length)
    processWrite P accounts offset bytes
  | .deploy maxDataLen => do
    consumeCompute 5000
    processDeploy P sysvars accounts maxDataLen
  | .upgrade => do
    consumeCompute 5000
    processUpgrade P accounts
  | .setAuthority newAuthority => do
    consumeCompute 500
    processSetAuthority P accounts newAuthority
  | .close => do
    consumeCompute 500
    processClose P accounts

/-- The processor of an instruction, once its cost is paid. -/
def handler : LoaderInstruction → Run Unit
  | .initializeBuffer => processInitializeBuffer P accounts
  | .write offset bytes => processWrite P accounts offset bytes
  | .deploy maxDataLen => processDeploy P sysvars accounts maxDataLen
  | .upgrade => processUpgrade P accounts
  | .setAuthority newAuthority => processSetAuthority P accounts newAuthority
  | .close => processClose P accounts

end Processor

/-! ### What a successful instruction has checked, and the state it leaves -/

section Success

variable {P : Platform} {sysvars : SysvarCache} {accounts : List UInt8}
  {s s' : TransactionContext} {i j : ℕ} {u : Unit}

theorem loadLoaderState_eq_ok {state : LoaderState} :
    (loadLoaderState P i).run s = .ok state s' ↔
      s' = s ∧ (∃ a, s.account? i = some a ∧ LoaderState.fromAccountData a.data = .ok state) ∧
        ∃ w, s.message.isWritable P i = .ok w :=
  getAccount_bind_eq_ok (k := fun a =>
    ofExcept ((LoaderState.fromAccountData a.data).mapError .invalidAccountData)) fun _ => by
      rw [ofExcept_eq_ok, exceptMapError_eq_ok]

theorem loadBuffer_eq_ok {state : LoaderState} {authority : Hash} {text : String} :
    (loadBuffer P i j authority text).run s = .ok state s' ↔
      s' = s ∧ state = .buffer (some authority) ∧
        (∃ a, s.account? i = some a ∧ LoaderState.fromAccountData a.data = .ok state) ∧
        ∃ w, s.message.isWritable P i = .ok w := by
  simp only [loadBuffer, bind_eq_ok, loadLoaderState_eq_ok, ofOption_eq_ok, require_eq_ok,
    run_pure, ok.injEq]
  constructor
  · rintro ⟨st, _, ⟨rfl, ha, hw⟩, o, _, ⟨hbuf, rfl⟩, _, _, ⟨rfl, rfl⟩, rfl, rfl⟩
    refine ⟨rfl, ?_, ha, hw⟩
    cases st <;> simp [LoaderState.buffer?] at hbuf
    rw [hbuf]
  · rintro ⟨rfl, rfl, ha, hw⟩
    exact ⟨_, _, ⟨rfl, ha, hw⟩, some authority, _, ⟨rfl, rfl⟩, (), _, ⟨rfl, rfl⟩, rfl, rfl⟩

theorem requireLoaderOwner_eq_ok :
    (requireLoaderOwner P i).run s = .ok u s' ↔
      s' = s ∧ (∃ a, s.account? i = some a ∧ a.owner = P.programId .loader) ∧
        ∃ w, s.message.isWritable P i = .ok w :=
  ownerCheck_eq_ok

theorem requireFresh_ok (h : (requireFresh P i).run s = .ok u s') :
    s' = s ∧ ∃ a, s.account? i = some a ∧ isFresh P a = true := by
  obtain ⟨r, _, hget, hrequire⟩ := bind_eq_ok.mp h
  obtain ⟨rfl, hr, -, -⟩ := getAccount_eq_ok.mp hget
  obtain ⟨hfresh, rfl⟩ := require_eq_ok.mp hrequire
  exact ⟨rfl, r.account, account?_of_getElem? hr, hfresh⟩

theorem requireValidWasm_ok {bytecode : List UInt8}
    (h : (requireValidWasm P bytecode).run s = .ok u s') :
    s' = s ∧ P.validateWasm bytecode = none := by
  unfold requireValidWasm at h
  split at h
  · rename_i hvalid
    simp only [run_pure, ok.injEq, true_and] at h
    exact ⟨h.symm, hvalid⟩
  · simp at h

theorem clearAccount_eq_ok :
    (clearAccount P i).run s = .ok u s' ↔
      ∃ a, s.account? i = some a ∧ s.message.isWritable P i = .ok true ∧
        s' = s.setAccount i ((a.withLamports 0).withData []) :=
  changeAccount_eq_ok

theorem bufferContents_ok {state : LoaderState} {contents : List UInt8 × UInt64}
    (h : (bufferContents P i state).run s = .ok contents s') :
    s' = s ∧ ∃ a, s.account? i = some a ∧ contents = (a.data.drop state.headerLen, a.lamports) := by
  simp only [bufferContents, bind_eq_ok, getAccount_eq_ok, ofFault_eq_ok, run_pure,
    ok.injEq] at h
  obtain ⟨r, _, ⟨rfl, hr, -, -⟩, bytecode, _, ⟨hslice, rfl⟩, rfl, rfl⟩ := h
  refine ⟨rfl, r.account, account?_of_getElem? hr, ?_⟩
  rw [sliceFrom] at hslice
  split_ifs at hslice
  rw [Except.ok.inj hslice]

/-- `InitializeBuffer` writes the header of a buffer over whatever a signing account holds. -/
theorem processInitializeBuffer_ok (h : (processInitializeBuffer P accounts).run s = .ok () s') :
    ∃ i a authority, accounts[0]? = some i ∧ s.account? i.toNat = some a ∧
      s.message.isSigner i.toNat = true ∧ s' = s.setAccount i.toNat
        { a with
          owner := P.programId .loader
          data := LoaderState.codec.enc (.buffer (some authority)) } := by
  simp only [processInitializeBuffer, bind_eq_ok, requireAccounts_eq_ok, accountIndex_eq_ok,
    requireSigner_eq_ok, getAccountMut_eq_ok, putAccount_eq_ok, and_assoc, exists_and_left,
    existsAndEq, exists_unit, true_and] at h
  obtain ⟨-, i, hi, -, -, -, authority, -, -, hsigner, -, -, -, a, ha, -, rfl⟩ := h
  exact ⟨i, a, authority, hi, ha, hsigner, rfl⟩

/-- `Write` overwrites the data of a buffer behind its header. -/
theorem processWrite_ok {offset : UInt32} {bytes : List UInt8}
    (h : (processWrite P accounts offset bytes).run s = .ok () s') :
    ∃ (i : UInt8) (a : Account) (authority : Hash), accounts[0]? = some i ∧
      s.account? i.toNat = some a ∧
      LoaderState.fromAccountData a.data = .ok (.buffer (some authority)) ∧
      (LoaderState.buffer (some authority)).headerLen + offset.toNat + bytes.length ≤
        maxAccountDataSize.toNat ∧
      s' = s.setAccount i.toNat (a.withData (writeAt a.data
        ((LoaderState.buffer (some authority)).headerLen + offset.toNat) bytes)) := by
  simp only [processWrite, bind_eq_ok, requireAccounts_eq_ok, accountIndex_eq_ok,
    requireSigner_eq_ok, requireLoaderOwner_eq_ok, loadBuffer_eq_ok, getAccountMut_eq_ok,
    require_eq_ok, putAccount_eq_ok, and_assoc, exists_and_left, existsAndEq, exists_unit,
    true_and] at h
  obtain ⟨-, i, hi, -, -, -, authority, -, -, -, -, ⟨a, ha, hstate⟩, -, a', ha', -, hlimit, rfl⟩ := h
  cases ha.symm.trans ha'
  exact ⟨i, a, authority, hi, ha, hstate, hlimit, rfl⟩

/-- `Deploy` reads a buffer, writes a program and its bytecode over two accounts that were never
written to, and empties the buffer; the payer pays the rent and gets the lamports of the buffer. -/
theorem processDeploy_ok {maxDataLen : UInt64}
    (h : (processDeploy P sysvars accounts maxDataLen).run s = .ok () s') :
    ∃ (i₀ i₁ i₂ i₃ : UInt8) (authority address : Hash) (p d d' b b' : Account)
      (bytecode pdData : List UInt8) (rent funded : UInt64) (s₁ : TransactionContext),
      accounts[0]? = some i₀ ∧ accounts[1]? = some i₁ ∧ accounts[2]? = some i₂ ∧
      accounts[3]? = some i₃ ∧ s.account? i₁.toNat = some p ∧ isFresh P p = true ∧
      s.accounts[i₂.toNat]? = some (address, d) ∧ isFresh P d = true ∧
      s.account? i₃.toNat = some b ∧
      LoaderState.fromAccountData b.data = .ok (.buffer (some authority)) ∧
      bytecode = b.data.drop (LoaderState.buffer (some authority)).headerLen ∧
      pdData = programDataBytes s.slot authority bytecode (max maxDataLen.toNat bytecode.length) ∧
      rent = sysvars.rent.minimumBalance pdData.length ∧
      (debit P i₀.toNat rent (.insufficientFunds rent)).run
        (s.setAccount i₁.toNat
          { p with
            owner := P.programId .loader
            executable := true
            data := LoaderState.codec.enc (.program address) }) = .ok () s₁ ∧
      s₁.account? i₂.toNat = some d' ∧ Word.checkedAdd d'.lamports rent = some funded ∧
      (s₁.setAccount i₂.toNat
        { d' with owner := P.programId .loader, lamports := funded, data := pdData }).account?
          i₃.toNat = some b' ∧
      (credit P i₀.toNat b.lamports).run
        ((s₁.setAccount i₂.toNat
          { d' with owner := P.programId .loader, lamports := funded, data := pdData }).setAccount
            i₃.toNat ((b'.withLamports 0).withData [])) = .ok () s' := by
  simp only [processDeploy, bind_eq_ok, requireAccounts_eq_ok, accountIndex_eq_ok,
    requireSigner_eq_ok, getAccount_eq_ok, loadBuffer_eq_ok, ofOption_eq_ok, getAccountMut_eq_ok,
    putAccount_eq_ok, run_get, ok.injEq, requireLoaderOwner_eq_ok, require_eq_ok,
    clearAccount_eq_ok, and_assoc, exists_and_left, existsAndEq, exists_unit, true_and] at h
  obtain ⟨-, i₀, hi₀, i₁, hi₁, i₂, hi₂, i₃, hi₃, h⟩ := h
  obtain ⟨-, -, -, -, -, -, -, -, -, -, -, authority, -, -, _, hfresh, _, hfresh', h⟩ := h
  obtain ⟨-, -, ⟨b, hb, hstate⟩, -, contents, _, hcontents, _, hwasm, r, hr, h⟩ := h
  obtain ⟨-, -, p, hp, -, -, s₁, hdebit, d', hd', -, funded, hfunded, b', hb', -, hcredit⟩ := h
  obtain ⟨rfl, p', hp', hfresh⟩ := requireFresh_ok hfresh
  obtain ⟨rfl, d, hd, hfresh'⟩ := requireFresh_ok hfresh'
  obtain ⟨rfl, b'', hb'', rfl⟩ := bufferContents_ok hcontents
  obtain ⟨rfl, -⟩ := requireValidWasm_ok hwasm
  cases hp.symm.trans hp'
  cases hd.symm.trans (account?_of_getElem? hr)
  cases hb.symm.trans hb''
  exact ⟨i₀, i₁, i₂, i₃, authority, r.address, p, _, d', b, b', _, _, _, funded, s₁, hi₀, hi₁, hi₂,
    hi₃, hp, hfresh, hr, hfresh', hb, hstate, rfl, rfl, rfl, hdebit, hd', hfunded, hb', hcredit⟩

/-- `Upgrade` reads a buffer, writes its contents over the bytecode of a program whose upgrade
authority has signed, and empties the buffer; the authority gets the lamports of the buffer. -/
theorem processUpgrade_ok (h : (processUpgrade P accounts).run s = .ok () s') :
    ∃ (i₁ i₂ i₃ : UInt8) (authority : Hash) (d b b' : Account) (state : LoaderState)
      (bytecode pdData : List UInt8), accounts[1]? = some i₁ ∧
      accounts[2]? = some i₂ ∧ accounts[3]? = some i₃ ∧ s.account? i₁.toNat = some d ∧
      LoaderState.fromAccountData d.data = .ok state ∧ state.programData? = some (some authority) ∧
      s.account? i₂.toNat = some b ∧
      LoaderState.fromAccountData b.data = .ok (.buffer (some authority)) ∧
      bytecode = b.data.drop (LoaderState.buffer (some authority)).headerLen ∧
      state.headerLen ≤ d.data.length ∧ bytecode.length ≤ d.data.length - state.headerLen ∧
      pdData = programDataBytes s.slot authority bytecode (d.data.length - state.headerLen) ∧
      (s.setAccount i₁.toNat (d.withData pdData)).account? i₂.toNat = some b' ∧
      (credit P i₃.toNat b.lamports).run
        ((s.setAccount i₁.toNat (d.withData pdData)).setAccount i₂.toNat
          ((b'.withLamports 0).withData [])) = .ok () s' := by
  simp only [processUpgrade, bind_eq_ok, requireAccounts_eq_ok, accountIndex_eq_ok,
    requireSigner_eq_ok, loadLoaderState_eq_ok, getAccount_eq_ok, loadBuffer_eq_ok, ofOption_eq_ok,
    getAccountMut_eq_ok, putAccount_eq_ok, run_get, ok.injEq, require_eq_ok,
    clearAccount_eq_ok, and_assoc, exists_and_left, existsAndEq, exists_unit, true_and] at h
  obtain ⟨-, -, -, i₁, hi₁, i₂, hi₂, i₃, hi₃, -, authority, -, -, -, -, -, -, -, -, -, -, h⟩ := h
  obtain ⟨state, ⟨d, hd, hstate⟩, -, hauthority, -, ⟨b, hb, hbuffer⟩, -, contents, _, h⟩ := h
  obtain ⟨hcontents, _, hwasm, d', hd', -, hheader, hspace, b', hb', -, hcredit⟩ := h
  obtain ⟨rfl, b'', hb'', rfl⟩ := bufferContents_ok hcontents
  obtain ⟨rfl, -⟩ := requireValidWasm_ok hwasm
  cases hd.symm.trans hd'
  cases hb.symm.trans hb''
  exact ⟨i₁, i₂, i₃, authority, d, b, b', state, _, _, hi₁, hi₂, hi₃, hd, hstate, hauthority, hb,
    hbuffer, rfl, hheader, hspace, rfl, hb', hcredit⟩

/-- `SetAuthority` writes another header over that of a buffer or of the bytecode of a program. -/
theorem processSetAuthority_ok {newAuthority : Option Hash}
    (h : (processSetAuthority P accounts newAuthority).run s = .ok () s') :
    ∃ (i j : UInt8) (a : Account) (current : Hash) (state state' : LoaderState)
      (data : List UInt8), accounts[0]? = some i ∧ accounts[1]? = some j ∧
      s.account? i.toNat = some a ∧ LoaderState.fromAccountData a.data = .ok state ∧
      withAuthority j.toNat current newAuthority state = .ok state' ∧
      replaceHeader a.data state state' = .ok data ∧
      s' = s.setAccount i.toNat (a.withData data) := by
  simp only [processSetAuthority, bind_eq_ok, requireAccounts_eq_ok, accountIndex_eq_ok,
    requireSigner_eq_ok, loadLoaderState_eq_ok, getAccountMut_eq_ok, ofExcept_eq_ok, ofFault_eq_ok,
    putAccount_eq_ok, and_assoc, exists_and_left, existsAndEq, exists_unit, true_and] at h
  obtain ⟨-, i, hi, j, hj, -, current, -, -, state, ⟨a, ha, hstate⟩, -, state', hnew, a', ha', -,
    data, hdata, rfl⟩ := h
  cases ha.symm.trans ha'
  exact ⟨i, j, a, current, state, state', data, hi, hj, ha, hstate, hnew, hdata, rfl⟩

/-- `Close` pays out an account whose authority has signed, and empties it. -/
theorem processClose_ok (h : (processClose P accounts).run s = .ok () s') :
    ∃ (i j : UInt8) (a c : Account) (authority : Hash) (state : LoaderState)
      (s₁ : TransactionContext), accounts[0]? = some i ∧ accounts[1]? = some j ∧
      s.account? i.toNat = some a ∧ LoaderState.fromAccountData a.data = .ok state ∧
      state.authority = some authority ∧ (credit P j.toNat a.lamports).run s = .ok () s₁ ∧
      s₁.account? i.toNat = some c ∧
      s' = s₁.setAccount i.toNat ((c.withLamports 0).withData []) := by
  simp only [processClose, bind_eq_ok, requireAccounts_eq_ok, accountIndex_eq_ok,
    requireSigner_eq_ok, loadLoaderState_eq_ok, getAccount_eq_ok, require_eq_ok, clearAccount_eq_ok,
    and_assoc, exists_and_left, existsAndEq, exists_unit, true_and] at h
  obtain ⟨-, i, hi, j, hj, -, -, -, authority, -, -, r, hr, -, -, state, ⟨a, ha, hstate⟩, -,
    hauthority, s₁, hcredit, c, hc, -, rfl⟩ := h
  cases ha.symm.trans (account?_of_getElem? hr)
  exact ⟨i, j, _, c, authority, state, s₁, hi, hj, ha, hstate, hauthority, hcredit, hc, rfl⟩

theorem processLoader_ok {data : List UInt8}
    (h : (processLoader P sysvars accounts data).run s = .ok () s') :
    ∃ instruction s₁, LoaderInstruction.codec.tryFromSlice data = .ok instruction ∧
      s₁.accounts = s.accounts ∧ (handler P sysvars accounts instruction).run s₁ = .ok () s' :=
  handled_ok (fun instruction => by cases instruction <;> exact ⟨_, rfl⟩) h

end Success

/-! ### Confinement: what the processor keeps, however it ends -/

section Confinement

variable {P : Platform} {W : ℕ → Prop} {s₀ : TransactionContext} {known : Prop} {sysvars : SysvarCache}
  {accounts bytes : List UInt8} {i j : ℕ} {β : Type} {authority : Hash} {text : String}

instance : Confined P W s₀ known (loadLoaderState P i) := by
  unfold loadLoaderState
  infer_instance

instance : Confined P W s₀ known (loadBuffer P i j authority text) := by
  unfold loadBuffer
  infer_instance

instance : Confined P W s₀ known (requireValidWasm P bytes) := by
  unfold requireValidWasm
  split <;> infer_instance

/-- The account at a position holds the given header. -/
def HasHeader (i : ℕ) (state : LoaderState) (s : TransactionContext) : Prop :=
  ∀ a, s.account? i = some a → state.headerLen ≤ a.data.length

theorem spec_bufferContents {state : LoaderState} :
    Spec (fun s => Within P W s₀ s ∧ HasHeader i state s) (bufferContents P i state)
      (fun _ => Within P W s₀) (fun _ => Within P W s₀) (RunFault P s₀.message) := by
  rintro s ⟨hs, hhead⟩
  have hget := (inferInstance : Confined P W s₀ True (getAccount P i)).keeps trivial s hs
  unfold bufferContents
  rw [run_bind]
  cases hrun : (getAccount P i).run s with
  | ok r s' =>
    obtain ⟨rfl, hr, -, -⟩ := getAccount_eq_ok.mp hrun
    have hle := hhead r.account (by simp [account?, hr])
    simp only [sliceFrom_of_le hle, run_bind]
    exact hs
  | err e s' | fault f => rwa [hrun] at hget

/-- The contents of a buffer are sliced behind a header that was just read there. -/
instance {k : LoaderState → List UInt8 × UInt64 → Run β} [h : ∀ st c, Confined P W s₀ known (k st c)] :
    Confined P W s₀ known
      (loadBuffer P i j authority text >>= fun st => bufferContents P i st >>= k st) := by
  refine ⟨fun hk => (Confined.keeps trivial).bind_spec (C := HasHeader i) ?_ fun st => ?_⟩
  · intro s st s' hs hrun a ha
    obtain ⟨rfl, rfl, ⟨a', ha', hst⟩, -⟩ := loadBuffer_eq_ok.mp hrun
    cases ha'.symm.trans ha
    exact LoaderState.headerLen_le hst (by simp)
  · exact spec_bufferContents.bind fun c => (h st c).keeps hk

theorem replaceHeader_isOk {data : List UInt8} {old new : LoaderState}
    (h : old ≠ .uninitialized → old.headerLen ≤ data.length) :
    ∃ d, replaceHeader data old new = .ok d := by
  cases old with
  | programData slot authority len =>
    simp only [replaceHeader, sliceFrom_of_le (h (by simp))]
    exact ⟨_, rfl⟩
  | _ => exact ⟨_, rfl⟩

theorem spec_replaceHeader {old new : LoaderState} (hi : W i) :
    Spec (fun s => Within P W s₀ s ∧ (old ≠ .uninitialized → HasHeader i old s))
      (getAccountMut P i >>= fun acc =>
        ofFault (replaceHeader acc.data old new) >>= fun data =>
          putAccount i (acc.withData data))
      (fun _ => Within P W s₀) (fun _ => Within P W s₀) (RunFault P s₀.message) := by
  rintro s ⟨hs, hhead⟩
  have hget := keeps_getAccountMut (P := P) (W := W) (i := i) s hs
  rw [run_bind]
  cases hrun : (getAccountMut P i).run s with
  | ok a s' =>
    obtain ⟨rfl, ha, hw⟩ := getAccountMut_eq_ok.mp hrun
    obtain ⟨d, hd⟩ : ∃ d, replaceHeader a.data old new = .ok d :=
      replaceHeader_isOk fun hold => hhead hold a ha
    simp only [hd, run_bind]
    exact hs.setAccount (hs.message ▸ hw) hi _
  | err e s' | fault f => rwa [hrun] at hget

/-- A header is replaced in the account where it was just read. -/
instance {new : LoaderState → Except RuntimeError LoaderState} [hi : Knows known (W i)] :
    Confined P W s₀ known (loadLoaderState P i >>= fun st => ofExcept (new st) >>= fun st' =>
      getAccountMut P i >>= fun acc => ofFault (replaceHeader acc.data st st') >>= fun data =>
        putAccount i (acc.withData data)) := by
  refine ⟨fun hk => (Confined.keeps trivial).bind_spec
    (C := fun st s => st ≠ .uninitialized → HasHeader i st s) ?_ fun st => ?_⟩
  · intro s st s' hs hrun hst a ha
    obtain ⟨rfl, ⟨a', ha', hdec⟩, -⟩ := loadLoaderState_eq_ok.mp hrun
    cases ha'.symm.trans ha
    exact LoaderState.headerLen_le hdec hst
  · rintro s ⟨hs, hhead⟩
    rw [run_bind]
    cases new st with
    | error e => exact hs
    | ok st' => exact spec_replaceHeader (hi.out hk) s ⟨hs, hhead⟩

set_option synthInstance.maxSize 1000000000 in
instance {data : List UInt8} :
    Confined P (Leading accounts (countOf LoaderInstruction.codec LoaderInstruction.written data)) s₀
      known (processLoader P sysvars accounts data) := by
  unfold processLoader
  refine .decode_bind fun instruction => ?_
  cases instruction <;> unfold LoaderInstruction.written <;>
    simp only [processInitializeBuffer, processWrite, processDeploy, processUpgrade,
      processSetAuthority, processClose, requireLoaderOwner, clearAccount, requireFresh] <;>
    infer_instance

end Confinement

end Loader

end Nusantara

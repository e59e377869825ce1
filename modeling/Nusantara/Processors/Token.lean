import Nusantara.Runtime.Evolution

/-!
# The token program

Mints and token accounts (`token-program/src/{lib,state,error}.rs`,
`runtime/src/processors/token/`).

Two things set its instructions apart.  `InitializeMint` and `InitializeAccount` take over the
account they are given without its signature; `MintTo` and `Burn` write to the mint, and
`CloseAccount` empties the account, without a look at the owner of what they change.
-/

namespace Nusantara

open Borsh Exec TransactionContext Codec Word

/-! ### State, errors and instructions -/

/-- Whether a token account is in use. -/
inductive AccountState where
  | uninitialized
  | initialized
  | frozen
  deriving DecidableEq

/-- A kind of token. -/
structure Mint where
  mintAuthority : Option Hash
  supply : UInt64
  decimals : UInt8
  isInitialized : Bool
  freezeAuthority : Option Hash
  deriving DecidableEq

/-- A balance of one kind of token. -/
structure TokenAccount where
  mint : Hash
  owner : Hash
  amount : UInt64
  delegate : Option Hash
  state : AccountState
  delegatedAmount : UInt64
  closeAuthority : Option Hash
  deriving DecidableEq

/-- A token account as it is when it is initialized. -/
def TokenAccount.empty (mint owner : Hash) : TokenAccount :=
  { mint, owner, amount := 0, delegate := none, state := .initialized, delegatedAmount := 0,
    closeAuthority := none }

/-- An error of the token program. -/
inductive TokenError where
  | insufficientBalance (need have_ : UInt64)
  | ownerMismatch
  | mintMismatch
  | authorityMismatch
  | insufficientDelegation (need have_ : UInt64)
  | alreadyInitialized
  | notInitialized
  | accountFrozen
  | noFreezeAuthority
  | supplyOverflow
  | missingAccount
  | missingSigner
  | closeNonEmpty
  deriving DecidableEq

/-- The text of an error. -/
def TokenError.toText : TokenError → String
  | insufficientBalance need h => s!"insufficient token balance: need {need}, have {h}"
  | ownerMismatch => "owner mismatch"
  | mintMismatch => "mint mismatch"
  | authorityMismatch => "authority mismatch"
  | insufficientDelegation need h => s!"insufficient delegation: need {need}, have {h}"
  | alreadyInitialized => "account already initialized"
  | notInitialized => "account not initialized"
  | accountFrozen => "account is frozen"
  | noFreezeAuthority => "no freeze authority on mint"
  | supplyOverflow => "supply overflow"
  | missingAccount => "missing required account"
  | missingSigner => "missing required signer"
  | closeNonEmpty => "close non-empty account"

/-- An instruction of the token program. -/
inductive TokenInstruction where
  | initializeMint (decimals : UInt8) (mintAuthority : Hash) (freezeAuthority : Option Hash)
  | initializeAccount
  | mintTo (amount : UInt64)
  | transfer (amount : UInt64)
  | approve (amount : UInt64)
  | revoke
  | burn (amount : UInt64)
  | closeAccount
  | freezeAccount
  | thawAccount
  deriving DecidableEq

/-! ### Codecs -/

/-- The Borsh form of the state flag. -/
def AccountState.codec : Codec AccountState :=
  enum (·.ctorIdx) [nullary .uninitialized, nullary .initialized, nullary .frozen]

/-- The Borsh form of a mint. -/
def Mint.codec : Codec Mint :=
  ((option Hash.codec).pair (u64.pair (u8.pair (bool.pair
      (option Hash.codec))))).iso
    (fun p => ⟨p.1, p.2.1, p.2.2.1, p.2.2.2.1, p.2.2.2.2⟩)
    (fun m => (m.mintAuthority, m.supply, m.decimals, m.isInitialized, m.freezeAuthority))
    (fun _ => rfl) (fun _ => rfl)

/-- The Borsh form of a token account. -/
def TokenAccount.codec : Codec TokenAccount :=
  (Hash.codec.pair (Hash.codec.pair (u64.pair ((option Hash.codec).pair
      (AccountState.codec.pair (u64.pair (option Hash.codec))))))).iso
    (fun p => ⟨p.1, p.2.1, p.2.2.1, p.2.2.2.1, p.2.2.2.2.1, p.2.2.2.2.2.1, p.2.2.2.2.2.2⟩)
    (fun t => (t.mint, t.owner, t.amount, t.delegate, t.state, t.delegatedAmount,
      t.closeAuthority)) (fun _ => rfl) (fun _ => rfl)

namespace TokenInstruction

/-- The Borsh form of an instruction. -/
def codec : Codec TokenInstruction := enum (·.ctorIdx) [
  ctor (u8.pair (Hash.codec.pair (option Hash.codec))) (fun p => initializeMint p.1 p.2.1 p.2.2)
    (fun | initializeMint d m f => some (d, m, f) | _ => none),
  nullary initializeAccount,
  ctor u64 mintTo (fun | mintTo n => some n | _ => none),
  ctor u64 transfer (fun | transfer n => some n | _ => none),
  ctor u64 approve (fun | approve n => some n | _ => none),
  nullary revoke,
  ctor u64 burn (fun | burn n => some n | _ => none),
  nullary closeAccount, nullary freezeAccount, nullary thawAccount]

/-- How many of its first accounts an instruction writes. -/
def written : TokenInstruction → ℕ
  | mintTo _ | transfer _ | burn _ | closeAccount => 2
  | _ => 1

end TokenInstruction

/-! ### The processor -/

namespace Token

/-- `token_err`. -/
def tokenErr (e : TokenError) : RuntimeError := .programError "token" e.toText

section Processor

variable (P : Platform) (accounts : List UInt8)

/-- The check of the number of accounts. -/
def requireCount (min : ℕ) : Run Unit :=
  require (min ≤ accounts.length) (tokenErr .missingAccount)

/-- The address of an account that has signed. -/
def requireTokenSigner (index : ℕ) : Run Hash := do
  let acc ← getAccount P index
  require (acc.isSigner = true) (tokenErr .missingSigner)
  return acc.address

/-- The check that an account belongs to the token program. -/
def requireTokenOwner (index : ℕ) : Run Unit := do
  let acc ← getAccount P index
  require (acc.account.owner = P.programId .token) .accountOwnerMismatch

/-- The address of an account. -/
def addressAt (index : ℕ) : Run Hash := do
  let acc ← getAccount P index
  return acc.address

/-- Decode the front of an account's data; whatever is wrong, the account is not initialized. -/
def loadToken {α : Type} (c : Codec α) (index : ℕ) : Run α := do
  let acc ← getAccount P index
  ofOption (tokenErr .notInitialized) (c.deserialize acc.account.data).toOption

/-- Decode all of an account's data; whatever is wrong, the account is not initialized. -/
def loadTokenExact {α : Type} (c : Codec α) (index : ℕ) : Run α := do
  let acc ← getAccount P index
  ofOption (tokenErr .notInitialized) (c.tryFromSlice acc.account.data).toOption

/-- The write that takes an account over for the token program. -/
def claimAccount (index : ℕ) (data : List UInt8) : Run Unit := do
  let acc ← getAccountMut P index
  putAccount index { acc with data, owner := P.programId .token }

/-- The owners whose accounts the token program takes over. -/
def isClaimable (owner : Hash) : Bool := P.isSystemOwned owner || owner = P.programId .token

/-- Whether the data of an account are those of a mint in use. -/
def holdsMint (data : List UInt8) : Bool :=
  data ≠ [] && match Mint.codec.deserialize data with
    | .ok m => m.isInitialized
    | .error _ => false

/-- Whether the data of an account are those of a token account in use. -/
def holdsTokenAccount (data : List UInt8) : Bool :=
  data ≠ [] && match TokenAccount.codec.deserialize data with
    | .ok t => t.state ≠ .uninitialized
    | .error _ => false

/-- `process_initialize_mint`: the account need not sign. -/
def processInitializeMint (decimals : UInt8) (mintAuthority : Hash)
    (freezeAuthority : Option Hash) : Run Unit := do
  requireCount accounts 1
  let mintIdx ← accountIndex accounts 0
  let existing ← getAccount P mintIdx
  require (isClaimable P existing.account.owner = true) .accountOwnerMismatch
  require (holdsMint existing.account.data = false) (tokenErr .alreadyInitialized)
  let mint : Mint :=
    { mintAuthority := some mintAuthority, supply := 0, decimals, isInitialized := true,
      freezeAuthority }
  claimAccount P mintIdx (Mint.codec.enc mint)

/-- `process_mint_to`: the owner of the mint is not looked at. -/
def processMintTo (amount : UInt64) : Run Unit := do
  requireCount accounts 3
  let mintIdx ← accountIndex accounts 0
  let destIdx ← accountIndex accounts 1
  let authIdx ← accountIndex accounts 2
  let authAddress ← requireTokenSigner P authIdx
  let mint ← loadToken P Mint.codec mintIdx
  require (mint.isInitialized = true) (tokenErr .notInitialized)
  require (mint.mintAuthority = some authAddress) (tokenErr .authorityMismatch)
  let supply ← ofOption (tokenErr .supplyOverflow) (checkedAdd mint.supply amount)
  requireTokenOwner P destIdx
  let dest ← loadToken P TokenAccount.codec destIdx
  require (dest.state ≠ .frozen) (tokenErr .accountFrozen)
  let mintAddress ← addressAt P mintIdx
  require (dest.mint = mintAddress) (tokenErr .mintMismatch)
  let balance ← ofOption (tokenErr .supplyOverflow) (checkedAdd dest.amount amount)
  saveState P Mint.codec mintIdx { mint with supply }
  saveState P TokenAccount.codec destIdx { dest with amount := balance }

/-- `process_initialize_account`: the account need not sign. -/
def processInitializeAccount : Run Unit := do
  requireCount accounts 3
  let accountIdx ← accountIndex accounts 0
  let mintIdx ← accountIndex accounts 1
  let ownerIdx ← accountIndex accounts 2
  let mint ← loadToken P Mint.codec mintIdx
  require (mint.isInitialized = true) (tokenErr .notInitialized)
  let mintAddress ← addressAt P mintIdx
  let ownerAddress ← addressAt P ownerIdx
  let existing ← getAccount P accountIdx
  require (isClaimable P existing.account.owner = true) .accountOwnerMismatch
  let existing ← getAccount P accountIdx
  require (holdsTokenAccount existing.account.data = false) (tokenErr .alreadyInitialized)
  let tokenAccount : TokenAccount :=
    { mint := mintAddress, owner := ownerAddress, amount := 0, delegate := none,
      state := .initialized, delegatedAmount := 0, closeAuthority := none }
  claimAccount P accountIdx (TokenAccount.codec.enc tokenAccount)

/-- `process_close_account`: the owner of the account is not looked at. -/
def processCloseAccount : Run Unit := do
  requireCount accounts 3
  let accountIdx ← accountIndex accounts 0
  let destIdx ← accountIndex accounts 1
  let authIdx ← accountIndex accounts 2
  let authAddress ← requireTokenSigner P authIdx
  let acc ← getAccount P accountIdx
  let token ← loadToken P TokenAccount.codec accountIdx
  require (token.closeAuthority.getD token.owner = authAddress) (tokenErr .ownerMismatch)
  require (token.amount = 0) (tokenErr .closeNonEmpty)
  credit P destIdx acc.account.lamports
  let closed ← getAccountMut P accountIdx
  putAccount accountIdx ((closed.withLamports 0).withData [])

/-- The sender's side of a transfer: the checks, then the delegated amount that is left. -/
def transferSource (auth : Hash) (amount : UInt64) (src : TokenAccount) :
    Except TokenError TokenAccount :=
  let isDelegate := src.delegate = some auth ∧ 0 < src.delegatedAmount
  if src.state = .frozen then .error .accountFrozen
  else if src.owner ≠ auth ∧ ¬isDelegate then .error .ownerMismatch
  else if src.amount < amount then .error (.insufficientBalance amount src.amount)
  else if isDelegate then
    if src.delegatedAmount < amount then
      .error (.insufficientDelegation amount src.delegatedAmount)
    else .ok { src with delegatedAmount := src.delegatedAmount - amount }
  else .ok src

/-- `process_transfer`. -/
def processTransfer (amount : UInt64) : Run Unit := do
  requireCount accounts 3
  let srcIdx ← accountIndex accounts 0
  let destIdx ← accountIndex accounts 1
  let authIdx ← accountIndex accounts 2
  require (srcIdx ≠ destIdx) (.accountIndexAliasing srcIdx destIdx)
  let authAddress ← requireTokenSigner P authIdx
  requireTokenOwner P srcIdx
  requireTokenOwner P destIdx
  let src ← loadToken P TokenAccount.codec srcIdx
  let src ← ofExcept ((transferSource authAddress amount src).mapError tokenErr)
  let dest ← loadToken P TokenAccount.codec destIdx
  require (dest.state ≠ .frozen) (tokenErr .accountFrozen)
  require (src.mint = dest.mint) (tokenErr .mintMismatch)
  let balance ← ofOption (tokenErr .supplyOverflow) (checkedAdd dest.amount amount)
  saveState P TokenAccount.codec srcIdx { src with amount := src.amount - amount }
  saveState P TokenAccount.codec destIdx { dest with amount := balance }

/-- The checks that `Approve` and `Revoke` share, and the token account they change. -/
def loadUnfrozenOf (index : ℕ) (owner : Hash) : Run TokenAccount := do
  requireTokenOwner P index
  let token ← loadToken P TokenAccount.codec index
  require (token.state ≠ .frozen) (tokenErr .accountFrozen)
  require (token.owner = owner) (tokenErr .ownerMismatch)
  return token

/-- `process_approve`. -/
def processApprove (amount : UInt64) : Run Unit := do
  requireCount accounts 3
  let srcIdx ← accountIndex accounts 0
  let delegateIdx ← accountIndex accounts 1
  let ownerIdx ← accountIndex accounts 2
  let ownerAddress ← requireTokenSigner P ownerIdx
  let delegateAddress ← addressAt P delegateIdx
  let token ← loadUnfrozenOf P srcIdx ownerAddress
  saveState P TokenAccount.codec srcIdx
    { token with delegate := some delegateAddress, delegatedAmount := amount }

/-- `process_revoke`. -/
def processRevoke : Run Unit := do
  requireCount accounts 2
  let srcIdx ← accountIndex accounts 0
  let ownerIdx ← accountIndex accounts 1
  let ownerAddress ← requireTokenSigner P ownerIdx
  let token ← loadUnfrozenOf P srcIdx ownerAddress
  saveState P TokenAccount.codec srcIdx { token with delegate := none, delegatedAmount := 0 }

/-- The token account after a burn; a delegate also uses up what was delegated. -/
def burnSource (auth : Hash) (amount : UInt64) (src : TokenAccount) :
    Except TokenError TokenAccount :=
  let burnt := { src with amount := src.amount - amount }
  if src.delegate = some auth then
    if src.delegatedAmount < amount then
      .error (.insufficientDelegation amount src.delegatedAmount)
    else .ok { burnt with delegatedAmount := src.delegatedAmount - amount }
  else .ok burnt

/-- `process_burn`: the owner of the mint is not looked at. -/
def processBurn (amount : UInt64) : Run Unit := do
  requireCount accounts 3
  let srcIdx ← accountIndex accounts 0
  let mintIdx ← accountIndex accounts 1
  let authIdx ← accountIndex accounts 2
  require (srcIdx ≠ mintIdx) (.accountIndexAliasing srcIdx mintIdx)
  let authAddress ← requireTokenSigner P authIdx
  requireTokenOwner P srcIdx
  let src ← loadToken P TokenAccount.codec srcIdx
  require (src.owner = authAddress ∨ src.delegate = some authAddress) (tokenErr .ownerMismatch)
  require (amount ≤ src.amount) (tokenErr (.insufficientBalance amount src.amount))
  let mintAddress ← addressAt P mintIdx
  require (src.mint = mintAddress) (tokenErr .mintMismatch)
  let src ← ofExcept ((burnSource authAddress amount src).mapError tokenErr)
  let mint ← loadToken P Mint.codec mintIdx
  let supply ← ofOption (tokenErr .supplyOverflow) (checkedSub mint.supply amount)
  saveState P TokenAccount.codec srcIdx src
  saveState P Mint.codec mintIdx { mint with supply }

/-- The checks that `FreezeAccount` and `ThawAccount` share, and the account they change. -/
def loadForFreeze (accountIdx mintIdx : ℕ) (auth : Hash) : Run TokenAccount := do
  requireTokenOwner P accountIdx
  let mint ← loadTokenExact P Mint.codec mintIdx
  require (mint.freezeAuthority = some auth) (tokenErr .noFreezeAuthority)
  let token ← loadTokenExact P TokenAccount.codec accountIdx
  let mintAddress ← addressAt P mintIdx
  require (token.mint = mintAddress) (tokenErr .mintMismatch)
  return token

/-- `process_freeze_account`. -/
def processFreezeAccount : Run Unit := do
  requireCount accounts 3
  let accountIdx ← accountIndex accounts 0
  let mintIdx ← accountIndex accounts 1
  let authIdx ← accountIndex accounts 2
  let authAddress ← requireTokenSigner P authIdx
  let token ← loadForFreeze P accountIdx mintIdx authAddress
  saveState P TokenAccount.codec accountIdx { token with state := .frozen }

/-- `process_thaw_account`: only a frozen account can be thawed. -/
def processThawAccount : Run Unit := do
  requireCount accounts 3
  let accountIdx ← accountIndex accounts 0
  let mintIdx ← accountIndex accounts 1
  let authIdx ← accountIndex accounts 2
  let authAddress ← requireTokenSigner P authIdx
  let token ← loadForFreeze P accountIdx mintIdx authAddress
  require (token.state = .frozen) (tokenErr .notInitialized)
  saveState P TokenAccount.codec accountIdx { token with state := .initialized }

/-- `process_token`. -/
def processToken (data : List UInt8) : Run Unit := do
  let instruction ← decodeInstruction TokenInstruction.codec data
  match instruction with
  | .initializeMint decimals mintAuthority freezeAuthority => do
    consumeCompute 1000
    processInitializeMint P accounts decimals mintAuthority freezeAuthority
  | .initializeAccount => do
    consumeCompute 1000
    processInitializeAccount P accounts
  | .mintTo amount => do
    consumeCompute 500
    processMintTo P accounts amount
  | .transfer amount => do
    consumeCompute 300
    processTransfer P accounts amount
  | .approve amount => do
    consumeCompute 300
    processApprove P accounts amount
  | .revoke => do
    consumeCompute 300
    processRevoke P accounts
  | .burn amount => do
    consumeCompute 500
    processBurn P accounts amount
  | .closeAccount => do
    consumeCompute 500
    processCloseAccount P accounts
  | .freezeAccount => do
    consumeCompute 300
    processFreezeAccount P accounts
  | .thawAccount => do
    consumeCompute 300
    processThawAccount P accounts

/-- The processor of an instruction, once its cost is paid. -/
def handler : TokenInstruction → Run Unit
  | .initializeMint decimals mintAuthority freezeAuthority =>
    processInitializeMint P accounts decimals mintAuthority freezeAuthority
  | .initializeAccount => processInitializeAccount P accounts
  | .mintTo amount => processMintTo P accounts amount
  | .transfer amount => processTransfer P accounts amount
  | .approve amount => processApprove P accounts amount
  | .revoke => processRevoke P accounts
  | .burn amount => processBurn P accounts amount
  | .closeAccount => processCloseAccount P accounts
  | .freezeAccount => processFreezeAccount P accounts
  | .thawAccount => processThawAccount P accounts

end Processor

/-! ### What a successful instruction has checked, and the state it leaves -/

section Success

variable {P : Platform} {accounts : List UInt8} {s s' : TransactionContext} {i : ℕ} {u : Unit}
  {amount : UInt64} {α : Type} {c : Codec α} {x : α}

@[simp] theorem requireCount_eq_ok {min : ℕ} :
    (requireCount accounts min).run s = .ok u s' ↔ min ≤ accounts.length ∧ s = s' := by
  simp [requireCount]

variable {h auth : Hash} {data : List UInt8} {src src' token : TokenAccount}

theorem requireTokenSigner_eq_ok :
    (requireTokenSigner P i).run s = .ok h s' ↔
      s' = s ∧ s.message.isSigner i = true ∧ (∃ a, s.accounts[i]? = some (h, a)) ∧
        ∃ w, s.message.isWritable P i = .ok w :=
  signerCheck_eq_ok

theorem requireTokenOwner_eq_ok :
    (requireTokenOwner P i).run s = .ok u s' ↔
      s' = s ∧ (∃ a, s.account? i = some a ∧ a.owner = P.programId .token) ∧
        ∃ w, s.message.isWritable P i = .ok w :=
  ownerCheck_eq_ok

theorem addressAt_eq_ok :
    (addressAt P i).run s = .ok h s' ↔
      s' = s ∧ (∃ a, s.accounts[i]? = some (h, a)) ∧ ∃ w, s.message.isWritable P i = .ok w := by
  simp only [addressAt, bind_eq_ok, getAccount_eq_ok, run_pure, Outcome.ok.injEq]
  constructor
  · rintro ⟨r, _, ⟨rfl, hr, -, hw⟩, rfl, rfl⟩
    exact ⟨rfl, ⟨_, hr⟩, _, hw⟩
  · rintro ⟨rfl, ⟨a, ha⟩, w, hw⟩
    exact ⟨⟨h, a, _, w⟩, _, ⟨rfl, ha, rfl, hw⟩, rfl, rfl⟩

theorem loadToken_eq_ok :
    (loadToken P c i).run s = .ok x s' ↔
      s' = s ∧ (∃ a, s.account? i = some a ∧ c.deserialize a.data = .ok x) ∧
        ∃ w, s.message.isWritable P i = .ok w :=
  getAccount_bind_eq_ok (k := fun a => ofOption _ (c.deserialize a.data).toOption) fun _ => by
    rw [ofOption_eq_ok, exceptToOption_eq_some]

theorem loadTokenExact_eq_ok :
    (loadTokenExact P c i).run s = .ok x s' ↔
      s' = s ∧ (∃ a, s.account? i = some a ∧ c.tryFromSlice a.data = .ok x) ∧
        ∃ w, s.message.isWritable P i = .ok w :=
  getAccount_bind_eq_ok (k := fun a => ofOption _ (c.tryFromSlice a.data).toOption) fun _ => by
    rw [ofOption_eq_ok, exceptToOption_eq_some]

theorem claimAccount_eq_ok :
    (claimAccount P i data).run s = .ok u s' ↔
      ∃ a, s.account? i = some a ∧ s.message.isWritable P i = .ok true ∧
        s' = s.setAccount i { a with data, owner := P.programId .token } :=
  changeAccount_eq_ok

/-- `InitializeMint` writes a new mint over whatever else a claimable account holds. -/
theorem processInitializeMint_ok {decimals : UInt8} {mintAuthority : Hash}
    {freezeAuthority : Option Hash}
    (h : (processInitializeMint P accounts decimals mintAuthority freezeAuthority).run s
      = .ok () s') :
    ∃ i a, accounts[0]? = some i ∧ s.account? i.toNat = some a ∧ isClaimable P a.owner = true ∧
      holdsMint a.data = false ∧ s' = s.setAccount i.toNat
        { a with
          data := Mint.codec.enc ⟨some mintAuthority, 0, decimals, true, freezeAuthority⟩
          owner := P.programId .token } := by
  simp only [processInitializeMint, bind_eq_ok, requireCount_eq_ok, accountIndex_eq_ok,
    getAccount_eq_ok, require_eq_ok, claimAccount_eq_ok, and_assoc, exists_and_left, existsAndEq,
    exists_unit, true_and] at h
  obtain ⟨-, i, hi, r, hr, -, -, hclaim, hmint, a, ha, -, rfl⟩ := h
  have hr' : s.account? i.toNat = some r.account := by simp [account?, hr]
  cases ha.symm.trans hr'
  exact ⟨i, _, hi, ha, hclaim, hmint, rfl⟩

/-- `InitializeAccount` writes an empty token account over whatever else a claimable account
holds. -/
theorem processInitializeAccount_ok (h : (processInitializeAccount P accounts).run s = .ok () s') :
    ∃ (i j k : UInt8) (a : Account) (mint owner : Hash), accounts[0]? = some i ∧
      accounts[1]? = some j ∧ accounts[2]? = some k ∧
      s.account? i.toNat = some a ∧ (∃ b, s.accounts[j.toNat]? = some (mint, b)) ∧
      (∃ b, s.accounts[k.toNat]? = some (owner, b)) ∧ isClaimable P a.owner = true ∧
      holdsTokenAccount a.data = false ∧ s' = s.setAccount i.toNat
        { a with
          data := TokenAccount.codec.enc (TokenAccount.empty mint owner)
          owner := P.programId .token } := by
  simp only [processInitializeAccount, bind_eq_ok, requireCount_eq_ok, accountIndex_eq_ok,
    loadToken_eq_ok, addressAt_eq_ok, getAccount_eq_ok, claimAccount_eq_ok, require_eq_ok,
    and_assoc, exists_and_left, existsAndEq, exists_unit, true_and] at h
  obtain ⟨-, i, hi, j, hj, k, hk, -, -, -, -, mint, hmint, -, owner, howner, -, r, hr, -, -, hclaim,
    r', hr', -, -, hholds, a, ha, -, rfl⟩ := h
  cases ha.symm.trans (account?_of_getElem? hr)
  obtain ⟨-, hrr⟩ := Prod.mk.inj (Option.some.inj (hr.symm.trans hr'))
  exact ⟨i, j, k, _, mint, owner, hi, hj, hk, ha, hmint, howner, hclaim, hrr ▸ hholds, rfl⟩

/-- `MintTo` adds the amount to the supply of a mint and to a token account of that mint. -/
theorem processMintTo_ok
    (h : (processMintTo P accounts amount).run s = .ok () s') :
    ∃ (i j : UInt8) (a b : Account) (mint : Mint) (dest : TokenAccount) (supply balance : UInt64),
      accounts[0]? = some i ∧ accounts[1]? = some j ∧
      s.accounts[i.toNat]? = some (dest.mint, a) ∧ Mint.codec.deserialize a.data = .ok mint ∧
      mint.isInitialized = true ∧ s.account? j.toNat = some b ∧ b.owner = P.programId .token ∧
      TokenAccount.codec.deserialize b.data = .ok dest ∧ dest.state ≠ .frozen ∧
      checkedAdd mint.supply amount = some supply ∧
      checkedAdd dest.amount amount = some balance ∧
      s' = (s.setAccount i.toNat (a.withData (Mint.codec.enc { mint with supply }))).setAccount
        j.toNat (b.withData (TokenAccount.codec.enc { dest with amount := balance })) := by
  simp only [processMintTo, bind_eq_ok, requireCount_eq_ok, accountIndex_eq_ok,
    requireTokenSigner_eq_ok, loadToken_eq_ok, requireTokenOwner_eq_ok, addressAt_eq_ok,
    require_eq_ok, ofOption_eq_ok, saveState_eq_ok, and_assoc, exists_and_left, existsAndEq,
    exists_unit, true_and] at h
  obtain ⟨-, i, hi, j, hj, -, -, -, -, -, -, mint, ⟨a, ha, hmint⟩, -, hinit, -, supply, h⟩ := h
  obtain ⟨hsupply, ⟨b, hb, howner⟩, -, dest, ⟨b', hb', hdest⟩, -, hstate, ⟨a', hat⟩, -, h⟩ := h
  obtain ⟨balance, hbalance, -, a'', ha'', -, -, c, hc, -, rfl⟩ := h
  cases ha.symm.trans ha''
  cases ha.symm.trans (account?_of_getElem? hat)
  cases hb.symm.trans hb'
  refine ⟨i, j, a, b, mint, dest, supply, balance, hi, hj, hat, hmint, hinit, hb, howner, hdest,
    hstate, hsupply, hbalance, ?_⟩
  rw [withData_of_setAccount ha hb hc]

/-- What the sender's side of a transfer checks, and the delegated amount it leaves. -/
theorem transferSource_ok (h : transferSource auth amount src = .ok src') :
    src.state ≠ .frozen ∧ amount ≤ src.amount ∧ ∃ d, src' = { src with delegatedAmount := d } ∧
      (d = src.delegatedAmount ∧ src.owner = auth ∨
        amount ≤ src.delegatedAmount ∧ d = src.delegatedAmount - amount) := by
  simp only [transferSource] at h
  split_ifs at h with hfrozen hauth hless hdelegate hallowed
  · exact ⟨hfrozen, not_lt.mp hless, _, (Except.ok.inj h).symm, .inr ⟨not_lt.mp hallowed, rfl⟩⟩
  · refine ⟨hfrozen, not_lt.mp hless, src.delegatedAmount, (Except.ok.inj h).symm, .inl ⟨rfl, ?_⟩⟩
    exact not_not.mp fun hne => hauth ⟨hne, hdelegate⟩

/-- `Transfer` moves the amount between two token accounts of one mint, neither of them frozen. -/
theorem processTransfer_ok
    (h : (processTransfer P accounts amount).run s = .ok () s') :
    ∃ (i j k : UInt8) (a b : Account) (auth : Hash) (src src' dest : TokenAccount)
      (balance : UInt64), accounts[0]? = some i ∧ accounts[1]? = some j ∧
      accounts[2]? = some k ∧ i.toNat ≠ j.toNat ∧ s.account? i.toNat = some a ∧
      a.owner = P.programId .token ∧ (∃ c, s.accounts[k.toNat]? = some (auth, c)) ∧
      TokenAccount.codec.deserialize a.data = .ok src ∧
      transferSource auth amount src = .ok src' ∧ s.account? j.toNat = some b ∧
      b.owner = P.programId .token ∧ TokenAccount.codec.deserialize b.data = .ok dest ∧
      dest.state ≠ .frozen ∧ src'.mint = dest.mint ∧
      checkedAdd dest.amount amount = some balance ∧
      s' = (s.setAccount i.toNat (a.withData (TokenAccount.codec.enc
          { src' with amount := src'.amount - amount }))).setAccount
        j.toNat (b.withData (TokenAccount.codec.enc { dest with amount := balance })) := by
  simp only [processTransfer, bind_eq_ok, requireCount_eq_ok, accountIndex_eq_ok,
    requireTokenSigner_eq_ok, loadToken_eq_ok, requireTokenOwner_eq_ok, require_eq_ok,
    ofOption_eq_ok, ofExcept_eq_ok, saveState_eq_ok, and_assoc, exists_and_left, existsAndEq,
    exists_unit, true_and, exceptMapError_eq_ok] at h
  obtain ⟨-, i, hi, j, hj, k, hk, hij, -, auth, hauth, -, ⟨a, ha, hown⟩, -, ⟨b, hb, hown'⟩, h⟩ := h
  obtain ⟨-, src, ⟨a', ha', hsrc⟩, -, src', htake, dest, ⟨b', hb', hdest⟩, -, hstate, h⟩ := h
  obtain ⟨hmint, balance, hbalance, -, a'', ha'', -, -, c, hc, -, rfl⟩ := h
  cases ha.symm.trans ha'
  cases ha.symm.trans ha''
  cases hb.symm.trans hb'
  refine ⟨i, j, k, a, b, auth, src, src', dest, balance, hi, hj, hk, hij, ha, hown, hauth, hsrc,
    htake, hb, hown', hdest, hstate, hmint, hbalance, ?_⟩
  rw [withData_of_setAccount ha hb hc]

/-- The token account after a burn, and the delegated amount it leaves. -/
theorem burnSource_ok (h : burnSource auth amount src = .ok src') :
    ∃ d, src' = { src with amount := src.amount - amount, delegatedAmount := d } ∧
      (d = src.delegatedAmount ∧ src.delegate ≠ some auth ∨
        amount ≤ src.delegatedAmount ∧ d = src.delegatedAmount - amount) := by
  simp only [burnSource] at h
  split_ifs at h with hdelegate hallowed
  · exact ⟨_, (Except.ok.inj h).symm, .inr ⟨not_lt.mp hallowed, rfl⟩⟩
  · exact ⟨src.delegatedAmount, (Except.ok.inj h).symm, .inl ⟨rfl, hdelegate⟩⟩

/-- `Burn` takes the amount from a token account, frozen or not, and from the supply of its mint. -/
theorem processBurn_ok
    (h : (processBurn P accounts amount).run s = .ok () s') :
    ∃ (i j k : UInt8) (a b : Account) (auth : Hash) (src src' : TokenAccount) (mint : Mint)
      (supply : UInt64), accounts[0]? = some i ∧ accounts[1]? = some j ∧
      accounts[2]? = some k ∧ i.toNat ≠ j.toNat ∧ s.account? i.toNat = some a ∧
      a.owner = P.programId .token ∧ (∃ c, s.accounts[k.toNat]? = some (auth, c)) ∧
      TokenAccount.codec.deserialize a.data = .ok src ∧
      (src.owner = auth ∨ src.delegate = some auth) ∧ amount ≤ src.amount ∧
      burnSource auth amount src = .ok src' ∧ s.accounts[j.toNat]? = some (src.mint, b) ∧
      Mint.codec.deserialize b.data = .ok mint ∧
      checkedSub mint.supply amount = some supply ∧
      s' = (s.setAccount i.toNat (a.withData (TokenAccount.codec.enc src'))).setAccount
        j.toNat (b.withData (Mint.codec.enc { mint with supply })) := by
  simp only [processBurn, bind_eq_ok, requireCount_eq_ok, accountIndex_eq_ok,
    requireTokenSigner_eq_ok, loadToken_eq_ok, requireTokenOwner_eq_ok, addressAt_eq_ok,
    require_eq_ok, ofOption_eq_ok, ofExcept_eq_ok, saveState_eq_ok, and_assoc, exists_and_left,
    existsAndEq, exists_unit, true_and, exceptMapError_eq_ok] at h
  obtain ⟨-, i, hi, j, hj, k, hk, hij, -, auth, hsigner, -, ⟨a, ha, hown⟩, -, src, h⟩ := h
  obtain ⟨⟨a', ha', hsrc⟩, -, hauth, hle, ⟨b, hat⟩, -, src', htake, mint, h⟩ := h
  obtain ⟨⟨b', hb', hmint⟩, -, supply, hsupply, -, a'', ha'', -, -, c, hc, -, rfl⟩ := h
  have hb := account?_of_getElem? hat
  cases ha.symm.trans ha'
  cases ha.symm.trans ha''
  cases hb.symm.trans hb'
  refine ⟨i, j, k, a, b, auth, src, src', mint, supply, hi, hj, hk, hij, ha, hown, hsigner, hsrc,
    hauth, hle, htake, hat, hmint, hsupply, ?_⟩
  rw [withData_of_setAccount ha hb hc]

/-- `CloseAccount` moves the lamports of a token account without tokens and empties it. -/
theorem processCloseAccount_ok (h : (processCloseAccount P accounts).run s = .ok () s') :
    ∃ (i j : UInt8) (a b c : Account) (token : TokenAccount) (total : UInt64),
      accounts[0]? = some i ∧ accounts[1]? = some j ∧
      s.account? i.toNat = some a ∧ TokenAccount.codec.deserialize a.data = .ok token ∧
      token.amount = 0 ∧ s.account? j.toNat = some b ∧
      checkedAdd b.lamports a.lamports = some total ∧
      (s.setAccount j.toNat (b.withLamports total)).account? i.toNat = some c ∧
      c.withLamports 0 = a.withLamports 0 ∧
      s' = (s.setAccount j.toNat (b.withLamports total)).setAccount i.toNat
        ((c.withLamports 0).withData []) := by
  simp only [processCloseAccount, bind_eq_ok, requireCount_eq_ok, accountIndex_eq_ok,
    requireTokenSigner_eq_ok, loadToken_eq_ok, getAccount_eq_ok, credit_eq_ok, getAccountMut_eq_ok,
    putAccount_eq_ok, require_eq_ok, and_assoc, exists_and_left, existsAndEq, exists_unit,
    true_and] at h
  obtain ⟨-, i, hi, j, hj, -, -, -, r, token, -, -, hr, -, -, ⟨a, ha, htoken⟩, -, hamount, b, hb, -,
    total, htotal, c, hc, -, rfl⟩ := h
  cases ha.symm.trans (account?_of_getElem? hr)
  refine ⟨i, j, _, b, c, token, total, hi, hj, ha, htoken, hamount, hb, htotal, hc, ?_, rfl⟩
  rw [account?_setAccount hb] at hc
  split_ifs at hc with hij
  · cases hc
    rw [hij, ha] at hb
    cases hb
    rfl
  · cases ha.symm.trans hc
    rfl

/-- One token account is written over another, in an account of the token program. -/
def Rewrites (P : Platform) (i : ℕ) (old new : TokenAccount) (s s' : TransactionContext) : Prop :=
  ∃ a, s.account? i = some a ∧ a.owner = P.programId .token ∧
    TokenAccount.codec.deserialize a.data = .ok old ∧
    s' = s.setAccount i (a.withData (TokenAccount.codec.enc new))

theorem rewrites_of_saveState {a : Account} {old new : TokenAccount}
    (ha : s.account? i = some a) (howner : a.owner = P.programId .token)
    (hold : TokenAccount.codec.deserialize a.data = .ok old)
    (h : (saveState P TokenAccount.codec i new).run s = .ok u s') : Rewrites P i old new s s' := by
  obtain ⟨-, a', ha', -, rfl⟩ := saveState_eq_ok.mp h
  cases ha.symm.trans ha'
  exact ⟨a, ha, howner, hold, rfl⟩

theorem loadUnfrozenOf_ok {owner : Hash} (h : (loadUnfrozenOf P i owner).run s = .ok token s') :
    s' = s ∧ token.state ≠ .frozen ∧ ∃ a, s.account? i = some a ∧ a.owner = P.programId .token ∧
      TokenAccount.codec.deserialize a.data = .ok token := by
  simp only [loadUnfrozenOf, bind_eq_ok, loadToken_eq_ok, requireTokenOwner_eq_ok, require_eq_ok,
    run_pure, Outcome.ok.injEq, and_assoc, exists_and_left, existsAndEq, exists_unit, true_and] at h
  obtain ⟨⟨a, ha, howner⟩, -, ⟨a', ha', htoken⟩, -, hstate, -, rfl⟩ := h
  cases ha.symm.trans ha'
  exact ⟨rfl, hstate, a, ha, howner, htoken⟩

/-- The account to freeze or thaw holds a token account and nothing else. -/
theorem loadForFreeze_ok {j : ℕ} (h : (loadForFreeze P i j auth).run s = .ok token s') :
    s' = s ∧ ∃ a, s.account? i = some a ∧ a.owner = P.programId .token ∧
      TokenAccount.codec.deserialize a.data = .ok token ∧ a.data = TokenAccount.codec.enc token := by
  simp only [loadForFreeze, bind_eq_ok, loadTokenExact_eq_ok, requireTokenOwner_eq_ok,
    addressAt_eq_ok, require_eq_ok, run_pure, Outcome.ok.injEq, and_assoc, exists_and_left,
    existsAndEq, exists_unit, true_and, tryFromSlice_eq_ok] at h
  obtain ⟨⟨a, ha, howner⟩, -, -, -, -, -, ⟨a', ha', hfits, hdata⟩, -, -, -, rfl⟩ := h
  cases ha.symm.trans ha'
  exact ⟨rfl, a, ha, howner, hdata ▸ TokenAccount.codec.deserialize_enc hfits, hdata⟩

theorem processApprove_ok
    (h : (processApprove P accounts amount).run s = .ok () s') :
    ∃ (i : UInt8) (delegate : Hash) (old : TokenAccount), accounts[0]? = some i ∧
      old.state ≠ .frozen ∧ Rewrites P i.toNat old
      { old with delegate := some delegate, delegatedAmount := amount } s s' := by
  simp only [processApprove, bind_eq_ok, requireCount_eq_ok, accountIndex_eq_ok,
    requireTokenSigner_eq_ok, addressAt_eq_ok, and_assoc, exists_and_left, existsAndEq,
    exists_unit, true_and] at h
  obtain ⟨-, i, hi, -, -, -, -, -, auth, -, -, delegate, -, -, token, s₁, hload, hsave⟩ := h
  obtain ⟨rfl, hstate, a, ha, howner, htoken⟩ := loadUnfrozenOf_ok hload
  exact ⟨i, delegate, token, hi, hstate, rewrites_of_saveState ha howner htoken hsave⟩

theorem processRevoke_ok (h : (processRevoke P accounts).run s = .ok () s') :
    ∃ (i : UInt8) (old : TokenAccount), accounts[0]? = some i ∧ old.state ≠ .frozen ∧
      Rewrites P i.toNat old { old with delegate := none, delegatedAmount := 0 } s s' := by
  simp only [processRevoke, bind_eq_ok, requireCount_eq_ok, accountIndex_eq_ok,
    requireTokenSigner_eq_ok, and_assoc, exists_and_left, existsAndEq, exists_unit, true_and] at h
  obtain ⟨-, i, hi, -, -, -, auth, -, -, token, s₁, hload, hsave⟩ := h
  obtain ⟨rfl, hstate, a, ha, howner, htoken⟩ := loadUnfrozenOf_ok hload
  exact ⟨i, token, hi, hstate, rewrites_of_saveState ha howner htoken hsave⟩

theorem processFreezeAccount_ok (h : (processFreezeAccount P accounts).run s = .ok () s') :
    ∃ (i : UInt8) (a : Account) (old : TokenAccount), accounts[0]? = some i ∧
      s.account? i.toNat = some a ∧
      a.data = TokenAccount.codec.enc old ∧
      Rewrites P i.toNat old { old with state := .frozen } s s' := by
  simp only [processFreezeAccount, bind_eq_ok, requireCount_eq_ok, accountIndex_eq_ok,
    requireTokenSigner_eq_ok, and_assoc, exists_and_left, existsAndEq, exists_unit, true_and] at h
  obtain ⟨-, i, hi, j, -, -, -, -, auth, -, -, token, s₁, hload, hsave⟩ := h
  obtain ⟨rfl, a, ha, howner, htoken, hdata⟩ := loadForFreeze_ok hload
  exact ⟨i, a, token, hi, ha, hdata, rewrites_of_saveState ha howner htoken hsave⟩

theorem processThawAccount_ok (h : (processThawAccount P accounts).run s = .ok () s') :
    ∃ (i : UInt8) (old : TokenAccount), accounts[0]? = some i ∧
      Rewrites P i.toNat old { old with state := .initialized } s s' := by
  simp only [processThawAccount, bind_eq_ok, requireCount_eq_ok, accountIndex_eq_ok,
    requireTokenSigner_eq_ok, require_eq_ok, and_assoc, exists_and_left, existsAndEq, exists_unit,
    true_and] at h
  obtain ⟨-, i, hi, j, -, -, -, -, auth, -, -, token, s₁, hload, -, hsave⟩ := h
  obtain ⟨rfl, a, ha, howner, htoken, -⟩ := loadForFreeze_ok hload
  exact ⟨i, token, hi, rewrites_of_saveState ha howner htoken hsave⟩

theorem processToken_ok (h : (processToken P accounts data).run s = .ok () s') :
    ∃ instruction s₁, TokenInstruction.codec.tryFromSlice data = .ok instruction ∧
      s₁.accounts = s.accounts ∧ (handler P accounts instruction).run s₁ = .ok () s' :=
  handled_ok (fun instruction => by cases instruction <;> exact ⟨_, rfl⟩) h

end Success

/-! ### Confinement: what the processor keeps, however it ends -/

section Confinement

variable {P : Platform} {W : ℕ → Prop} {s₀ : TransactionContext} {known : Prop}
  {accounts : List UInt8} {α β : Type}

instance {min : ℕ} {k : Unit → Run β} [Confined P W s₀ (known ∧ min ≤ accounts.length) (k ())] :
    Confined P W s₀ known (requireCount accounts min >>= k) :=
  .require_bind

set_option synthInstance.maxSize 100000 in
instance {data : List UInt8} :
    Confined P (Leading accounts (countOf TokenInstruction.codec TokenInstruction.written data)) s₀
      known (processToken P accounts data) := by
  unfold processToken
  refine .decode_bind fun instruction => ?_
  cases instruction <;> unfold TokenInstruction.written <;>
    simp only [processInitializeMint, processMintTo, processInitializeAccount, processCloseAccount,
      processTransfer, processApprove, processRevoke, processBurn, processFreezeAccount,
      processThawAccount, requireTokenSigner, requireTokenOwner, addressAt, loadToken,
      loadTokenExact, claimAccount, loadUnfrozenOf, loadForFreeze] <;>
    infer_instance

end Confinement

end Token

end Nusantara

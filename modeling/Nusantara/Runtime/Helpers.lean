import Nusantara.Runtime.Context

/-!
# Sysvars and the helpers of the native processors

The sysvars a processor reads (`runtime/src/sysvar_cache.rs`, `rent-program/src/lib.rs`) and the
helpers shared by the native processors (`runtime/src/processors/helpers.rs`), each with the
lemma that says what its success has established.
-/

namespace Nusantara

open Borsh Exec TransactionContext Word

/-! ### Sysvars -/

/-- Rent parameters. -/
structure Rent where
  lamportsPerByteYear : UInt64
  exemptionThreshold : UInt64
  deriving DecidableEq

/-- `Rent::default` (`rent-program/config.toml`). -/
def Rent.default : Rent := { lamportsPerByteYear := 3480, exemptionThreshold := 2 }

/-- `Rent::minimum_balance`: the balance that exempts an account from rent. -/
def Rent.minimumBalance (r : Rent) (dataLen : ℕ) : UInt64 :=
  saturatingMul (saturate ((128 + dataLen) * r.lamportsPerByteYear.toNat))
    r.exemptionThreshold

/-- The cluster clock. -/
structure Clock where
  slot : UInt64
  epoch : UInt64
  unixTimestamp : Int64
  deriving DecidableEq

/-- `SysvarCache`: what a processor can see of the chain. -/
structure SysvarCache where
  clock : Clock
  rent : Rent
  recentBlockhashes : List Hash
  deriving DecidableEq

/-- `SysvarCache::contains_blockhash`. -/
def SysvarCache.containsBlockhash (sv : SysvarCache) (h : Hash) : Bool :=
  h ∈ sv.recentBlockhashes

/-! ### Helpers -/

section Helpers

variable (P : Platform)

/-- `require_accounts`. -/
def requireAccounts (accounts : List UInt8) (min : ℕ) (name : String) : Run Unit :=
  require (min ≤ accounts.length) (.invalidInstructionData s!"{name} requires {min} accounts")

/-- `require_signer`: the address of an account that has signed. -/
def requireSigner (index : ℕ) : Run Hash := do
  let acc ← getAccount P index
  require (acc.isSigner = true) (.accountNotSigner index)
  return acc.address

/-- `load_state`: decode the front of an account's data. -/
def loadState {α : Type} (c : Codec α) (index : ℕ) : Run α := do
  let acc ← getAccount P index
  match c.deserialize acc.account.data with
  | .ok a => return a
  | .error e => throw (.invalidAccountData e.toText)

/-- `save_state`: replace an account's data by an encoding.  A vector that is too long for its
count has none. -/
def saveState {α : Type} (c : Codec α) (index : ℕ) (state : α) : Run Unit := do
  require (c.Fits state) (.invalidAccountData "invalid data")
  let acc ← getAccountMut P index
  putAccount index (acc.withData (c.enc state))

/-- Decode the data of an instruction. -/
def decodeInstruction {α : Type} (c : Codec α) (data : List UInt8) : Run α :=
  match c.tryFromSlice data with
  | .ok a => return a
  | .error e => throw (.invalidInstructionData e.toText)

/-- Take `amount` from the account at `index`, failing with `e` of its balance. -/
def debit (index : ℕ) (amount : UInt64) (e : UInt64 → RuntimeError) : Run Unit := do
  let acc ← getAccountMut P index
  let rest ← ofOption (e acc.lamports) (checkedSub acc.lamports amount)
  putAccount index (acc.withLamports rest)

/-- Add `amount` to the account at `index`. -/
def credit (index : ℕ) (amount : UInt64) : Run Unit := do
  let acc ← getAccountMut P index
  let total ← ofOption .lamportsOverflow (checkedAdd acc.lamports amount)
  putAccount index (acc.withLamports total)

end Helpers

section Inversion

variable {P : Platform} {i : ℕ} {s s' : TransactionContext} {u : Unit} {α : Type} {c : Codec α}
  {x : α} {amount : UInt64} {e : UInt64 → RuntimeError}

@[simp] theorem requireAccounts_eq_ok {accounts : List UInt8} {min : ℕ} {name : String} :
    (requireAccounts accounts min name).run s = .ok u s' ↔ min ≤ accounts.length ∧ s = s' := by
  simp [requireAccounts]

variable {h : Hash} {error : RuntimeError} {data : List UInt8}

/-- The check of a signer, with the error of the program that makes it. -/
theorem signerCheck_eq_ok :
    (getAccount P i >>= fun acc => require (acc.isSigner = true) error >>= fun _ =>
      pure acc.address).run s = .ok h s' ↔
      s' = s ∧ s.message.isSigner i = true ∧ (∃ a, s.accounts[i]? = some (h, a)) ∧
        ∃ w, s.message.isWritable P i = .ok w := by
  simp only [bind_eq_ok, getAccount_eq_ok, require_eq_ok, run_pure, Outcome.ok.injEq]
  constructor
  · rintro ⟨r, _, ⟨rfl, hr, hs, hw⟩, _, _, ⟨hsig, rfl⟩, rfl, rfl⟩
    exact ⟨rfl, hs ▸ hsig, ⟨_, hr⟩, _, hw⟩
  · rintro ⟨rfl, hsig, ⟨a, ha⟩, w, hw⟩
    exact ⟨⟨h, a, true, w⟩, _, ⟨rfl, ha, hsig.symm, hw⟩, (), _, ⟨rfl, rfl⟩, rfl, rfl⟩

theorem requireSigner_eq_ok :
    (requireSigner P i).run s = .ok h s' ↔
      s' = s ∧ s.message.isSigner i = true ∧ (∃ a, s.accounts[i]? = some (h, a)) ∧
        ∃ w, s.message.isWritable P i = .ok w :=
  signerCheck_eq_ok

/-- What is read from an account that is there. -/
theorem getAccount_bind_eq_ok {k : Account → Run α} {p : Account → Prop}
    (hk : ∀ a, (k a).run s = .ok x s' ↔ p a ∧ s = s') :
    (getAccount P i >>= fun r => k r.account).run s = .ok x s' ↔
      s' = s ∧ (∃ a, s.account? i = some a ∧ p a) ∧ ∃ w, s.message.isWritable P i = .ok w := by
  simp only [bind_eq_ok, getAccount_eq_ok]
  constructor
  · rintro ⟨r, _, ⟨rfl, hr, -, hw⟩, hrun⟩
    obtain ⟨hp, rfl⟩ := (hk r.account).mp hrun
    exact ⟨rfl, ⟨_, account?_of_getElem? hr, hp⟩, _, hw⟩
  · rintro ⟨rfl, ⟨a, ha, hp⟩, w, hw⟩
    obtain ⟨⟨h, a'⟩, hat, rfl⟩ := Option.map_eq_some_iff.mp ha
    exact ⟨⟨h, a', _, w⟩, _, ⟨rfl, hat, rfl, hw⟩, (hk a').mpr ⟨hp, rfl⟩⟩

/-- The check of an owner that every program makes of its own accounts. -/
theorem ownerCheck_eq_ok {owner : Hash} :
    (getAccount P i >>= fun acc => require (acc.account.owner = owner) error).run s = .ok u s' ↔
      s' = s ∧ (∃ a, s.account? i = some a ∧ a.owner = owner) ∧
        ∃ w, s.message.isWritable P i = .ok w :=
  getAccount_bind_eq_ok (k := fun a => require (a.owner = owner) error) fun _ => require_eq_ok

theorem loadState_eq_ok :
    (loadState P c i).run s = .ok x s' ↔
      s' = s ∧ (∃ a, s.account? i = some a ∧ c.deserialize a.data = .ok x) ∧
        ∃ w, s.message.isWritable P i = .ok w := by
  refine getAccount_bind_eq_ok (k := fun a => match c.deserialize a.data with
    | .ok state => pure state
    | .error e => throw (.invalidAccountData e.toText)) fun a => ?_
  cases c.deserialize a.data <;> simp

theorem saveState_eq_ok :
    (saveState P c i x).run s = .ok u s' ↔
      c.Fits x ∧ ∃ a, s.account? i = some a ∧ s.message.isWritable P i = .ok true ∧
        s' = s.setAccount i (a.withData (c.enc x)) := by
  simp only [saveState, bind_eq_ok, require_eq_ok, getAccountMut_eq_ok, putAccount_eq_ok]
  constructor
  · rintro ⟨_, _, ⟨hfit, rfl⟩, a, _, ⟨rfl, ha, hw⟩, rfl⟩
    exact ⟨hfit, a, ha, hw, rfl⟩
  · rintro ⟨hfit, a, ha, hw, rfl⟩
    exact ⟨(), s, ⟨hfit, rfl⟩, a, s, ⟨rfl, ha, hw⟩, rfl⟩

/-- A change of a balance that may fail. -/
theorem changeLamports_eq_ok {f : UInt64 → Option UInt64} :
    (getAccountMut P i >>= fun acc => ofOption (e acc.lamports) (f acc.lamports) >>= fun l =>
      putAccount i (acc.withLamports l)).run s = .ok u s' ↔
      ∃ a l, s.account? i = some a ∧ s.message.isWritable P i = .ok true ∧
        f a.lamports = some l ∧ s' = s.setAccount i (a.withLamports l) := by
  simp only [bind_eq_ok, getAccountMut_eq_ok, ofOption_eq_ok, putAccount_eq_ok]
  constructor
  · rintro ⟨a, _, ⟨rfl, ha, hw⟩, l, _, ⟨hl, rfl⟩, rfl⟩
    exact ⟨a, l, ha, hw, hl, rfl⟩
  · rintro ⟨a, l, ha, hw, hl, rfl⟩
    exact ⟨a, s, ⟨rfl, ha, hw⟩, l, s, ⟨hl, rfl⟩, rfl⟩

theorem credit_eq_ok :
    (credit P i amount).run s = .ok u s' ↔
      ∃ a l, s.account? i = some a ∧ s.message.isWritable P i = .ok true ∧
        checkedAdd a.lamports amount = some l ∧ s' = s.setAccount i (a.withLamports l) :=
  changeLamports_eq_ok (e := fun _ => .lamportsOverflow) (f := fun l => checkedAdd l amount)

theorem decodeInstruction_eq_ok :
    (decodeInstruction c data).run s = .ok x s' ↔ c.tryFromSlice data = .ok x ∧ s' = s := by
  unfold decodeInstruction
  split
  · rename_i x' h
    simp [h, eq_comm]
  · rename_i h
    simp [h]

/-- A change of an account. -/
theorem changeAccount_eq_ok {f : Account → Account} :
    (getAccountMut P i >>= fun acc => putAccount i (f acc)).run s = .ok u s' ↔
      ∃ a, s.account? i = some a ∧ s.message.isWritable P i = .ok true ∧
        s' = s.setAccount i (f a) := by
  simp only [bind_eq_ok, getAccountMut_eq_ok, putAccount_eq_ok]
  constructor
  · rintro ⟨a, _, ⟨rfl, ha, hw⟩, rfl⟩
    exact ⟨a, ha, hw, rfl⟩
  · rintro ⟨a, ha, hw, rfl⟩
    exact ⟨a, s, ⟨rfl, ha, hw⟩, rfl⟩

/-- An instruction is decoded and paid for before it is handled. -/
theorem handled_ok {process handler : α → Run Unit}
    (hpays : ∀ x, ∃ n, process x = consumeCompute n >>= fun _ => handler x)
    (h : (decodeInstruction c data >>= process).run s = .ok u s') :
    ∃ x s₁, c.tryFromSlice data = .ok x ∧ s₁.accounts = s.accounts ∧
      (handler x).run s₁ = .ok () s' := by
  obtain ⟨x, _, hdecode, hrun⟩ := bind_eq_ok.mp h
  obtain ⟨hread, rfl⟩ := decodeInstruction_eq_ok.mp hdecode
  obtain ⟨n, hpay⟩ := hpays x
  rw [hpay] at hrun
  obtain ⟨_, s₁, hconsume, hrun⟩ := bind_eq_ok.mp hrun
  obtain ⟨-, rfl⟩ := consumeCompute_eq_ok.mp hconsume
  exact ⟨x, _, hread, setRemaining_accounts, hrun⟩

end Inversion

end Nusantara

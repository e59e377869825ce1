import Nusantara.Runtime.Evolution

/-!
# The stake program

Initialisation, delegation, deactivation, withdrawal and splitting of stake accounts
(`stake-program/src/lib.rs`, `runtime/src/processors/stake/`).

`Withdraw` reads the state of the account it debits without looking at the owner of the account,
and `Split` takes over the destination whatever its owner; the other instructions insist that the
account they change is owned by the stake program.
-/

namespace Nusantara

open Borsh Exec TransactionContext Codec

/-! ### State and instructions -/

/-- Who may delegate and who may withdraw. -/
structure Authorized where
  staker : Hash
  withdrawer : Hash
  deriving DecidableEq

/-- Until when withdrawals are refused. -/
structure Lockup where
  unixTimestamp : Int64
  epoch : UInt64
  custodian : Hash
  deriving DecidableEq

/-- The part of a stake account's state that delegation does not change. -/
structure StakeMeta where
  rentExemptReserve : UInt64
  authorized : Authorized
  lockup : Lockup
  deriving DecidableEq

/-- A delegation of stake to a vote account. -/
structure Delegation where
  voterPubkey : Hash
  stake : UInt64
  activationEpoch : UInt64
  deactivationEpoch : UInt64
  warmupCooldownRateBps : UInt64
  deriving DecidableEq

/-- A delegation and the credits seen when it was last rewarded. -/
structure Stake where
  delegation : Delegation
  creditsObserved : UInt64
  deriving DecidableEq

/-- The state of a stake account. -/
inductive StakeStateV2 where
  | uninitialized
  | initialized (m : StakeMeta)
  | stake (m : StakeMeta) (s : Stake)
  | rewardsPool
  deriving DecidableEq

/-- Which authority `Authorize` replaces. -/
inductive StakeAuthorize where
  | staker
  | withdrawer
  deriving DecidableEq

/-- The fields of a lockup that `SetLockup` replaces. -/
structure LockupArgs where
  unixTimestamp : Option Int64
  epoch : Option UInt64
  custodian : Option Hash
  deriving DecidableEq

/-- An instruction of the stake program. -/
inductive StakeInstruction where
  | initializeStake (authorized : Authorized) (lockup : Lockup)
  | authorize (authority : Hash) (kind : StakeAuthorize)
  | delegateStake
  | split (lamports : UInt64)
  | withdraw (lamports : UInt64)
  | deactivate
  | merge
  | setLockup (args : LockupArgs)
  deriving DecidableEq

/-! ### Codecs -/

/-- The Borsh form of the authorities. -/
def Authorized.codec : Codec Authorized :=
  (Hash.codec.pair Hash.codec).iso (fun p => ⟨p.1, p.2⟩) (fun a => (a.staker, a.withdrawer))
    (fun _ => rfl) (fun _ => rfl)

/-- The Borsh form of a lockup. -/
def Lockup.codec : Codec Lockup :=
  (i64.pair (u64.pair Hash.codec)).iso (fun p => ⟨p.1, p.2.1, p.2.2⟩)
    (fun l => (l.unixTimestamp, l.epoch, l.custodian)) (fun _ => rfl) (fun _ => rfl)

/-- The Borsh form of the meta data. -/
def StakeMeta.codec : Codec StakeMeta :=
  (u64.pair (Authorized.codec.pair Lockup.codec)).iso (fun p => ⟨p.1, p.2.1, p.2.2⟩)
    (fun m => (m.rentExemptReserve, m.authorized, m.lockup)) (fun _ => rfl) (fun _ => rfl)

/-- The Borsh form of a delegation. -/
def Delegation.codec : Codec Delegation :=
  (Hash.codec.pair (u64.pair (u64.pair (u64.pair u64)))).iso
    (fun p => ⟨p.1, p.2.1, p.2.2.1, p.2.2.2.1, p.2.2.2.2⟩)
    (fun d => (d.voterPubkey, d.stake, d.activationEpoch, d.deactivationEpoch,
      d.warmupCooldownRateBps)) (fun _ => rfl) (fun _ => rfl)

/-- The Borsh form of a stake. -/
def Stake.codec : Codec Stake :=
  (Delegation.codec.pair u64).iso (fun p => ⟨p.1, p.2⟩)
    (fun s => (s.delegation, s.creditsObserved)) (fun _ => rfl) (fun _ => rfl)

namespace StakeStateV2

/-- The Borsh form of the state. -/
def codec : Codec StakeStateV2 := enum (·.ctorIdx) [
  nullary uninitialized,
  ctor StakeMeta.codec initialized (fun | initialized m => some m | _ => none),
  ctor (StakeMeta.codec.pair Stake.codec) (fun p => stake p.1 p.2)
    (fun | stake m s => some (m, s) | _ => none),
  nullary rewardsPool]

/-- The meta data of an initialised account that is not delegated. -/
def initialized? : StakeStateV2 → Option StakeMeta
  | initialized m => some m
  | _ => none

/-- The parts of a delegated account. -/
def delegated? : StakeStateV2 → Option (StakeMeta × Stake)
  | stake m s => some (m, s)
  | _ => none

/-- The parts of an initialised account, delegated or not. -/
def parts? : StakeStateV2 → Option (StakeMeta × Option Stake)
  | initialized m => some (m, none)
  | stake m s => some (m, some s)
  | _ => none

end StakeStateV2

/-- The Borsh form of the kind of authority. -/
def StakeAuthorize.codec : Codec StakeAuthorize :=
  enum (·.ctorIdx) [nullary .staker, nullary .withdrawer]

/-- The Borsh form of the lockup arguments. -/
def LockupArgs.codec : Codec LockupArgs :=
  ((option i64).pair ((option u64).pair (option Hash.codec))).iso
    (fun p => ⟨p.1, p.2.1, p.2.2⟩) (fun l => (l.unixTimestamp, l.epoch, l.custodian))
    (fun _ => rfl) (fun _ => rfl)

namespace StakeInstruction

/-- The Borsh form of an instruction. -/
def codec : Codec StakeInstruction := enum (·.ctorIdx) [
  ctor (Authorized.codec.pair Lockup.codec) (fun p => initializeStake p.1 p.2)
    (fun | initializeStake a l => some (a, l) | _ => none),
  ctor (Hash.codec.pair StakeAuthorize.codec) (fun p => authorize p.1 p.2)
    (fun | authorize a k => some (a, k) | _ => none),
  nullary delegateStake,
  ctor u64 split (fun | split l => some l | _ => none),
  ctor u64 withdraw (fun | withdraw l => some l | _ => none),
  nullary deactivate, nullary merge,
  ctor LockupArgs.codec setLockup (fun | setLockup l => some l | _ => none)]

/-- How many of its first accounts an instruction writes. -/
def written : StakeInstruction → ℕ
  | withdraw _ | split _ => 2
  | initializeStake .. | delegateStake | deactivate => 1
  | _ => 0

end StakeInstruction

/-- `DEFAULT_MIN_DELEGATION`. -/
def defaultMinDelegation : UInt64 := 1000000000

/-- `DEFAULT_WARMUP_COOLDOWN_RATE_BPS`. -/
def defaultWarmupCooldownRateBps : UInt64 := 2500

/-- `u64::MAX`, the deactivation epoch of an active delegation. -/
def noEpoch : UInt64 := 18446744073709551615

/-! ### The processor -/

namespace Stake

section Processor

variable (P : Platform) (sysvars : SysvarCache) (accounts : List UInt8)

/-- The check that an account belongs to the stake program. -/
def requireOwner (index : ℕ) : Run Unit := do
  let acc ← getAccount P index
  require (acc.account.owner = P.programId .stake) .accountOwnerMismatch

/-- The state of an account with the given data; an account without data is not initialized. -/
def loadCurrent (index : ℕ) (data : List UInt8) : Run StakeStateV2 :=
  if data = [] then return .uninitialized else loadState P StakeStateV2.codec index

/-- `process_initialize`. -/
def processInitialize (authorized : Authorized) (lockup : Lockup) : Run Unit := do
  requireAccounts accounts 1 "Initialize"
  let stakeIdx ← accountIndex accounts 0
  requireOwner P stakeIdx
  let acc ← getAccount P stakeIdx
  let currentState ← loadCurrent P stakeIdx acc.account.data
  require (currentState = .uninitialized)
    (.invalidAccountData "stake account already initialized")
  let acc ← getAccount P stakeIdx
  let reserve := sysvars.rent.minimumBalance acc.account.data.length
  require (reserve ≤ acc.account.lamports) (.rentNotMet reserve acc.account.lamports)
  saveState P StakeStateV2.codec stakeIdx
    (.initialized { rentExemptReserve := reserve, authorized, lockup })

/-- `process_delegate`. -/
def processDelegate : Run Unit := do
  requireAccounts accounts 3 "DelegateStake"
  let stakeIdx ← accountIndex accounts 0
  let voteIdx ← accountIndex accounts 1
  let stakerIdx ← accountIndex accounts 2
  let stakerAddress ← requireSigner P stakerIdx
  let vote ← getAccount P voteIdx
  requireOwner P stakeIdx
  let state ← loadState P StakeStateV2.codec stakeIdx
  let m ← ofOption (.invalidAccountData "stake account must be initialized to delegate")
    state.initialized?
  require (m.authorized.staker = stakerAddress) (.accountNotSigner stakerIdx)
  let acc ← getAccount P stakeIdx
  let stakeLamports := Word.saturatingSub acc.account.lamports m.rentExemptReserve
  require (defaultMinDelegation ≤ stakeLamports)
    (.insufficientFunds defaultMinDelegation stakeLamports)
  let delegation : Delegation :=
    { voterPubkey := vote.address
      stake := stakeLamports
      activationEpoch := sysvars.clock.epoch
      deactivationEpoch := noEpoch
      warmupCooldownRateBps := defaultWarmupCooldownRateBps }
  saveState P StakeStateV2.codec stakeIdx (.stake m { delegation, creditsObserved := 0 })

/-- `process_deactivate`. -/
def processDeactivate : Run Unit := do
  requireAccounts accounts 2 "Deactivate"
  let stakeIdx ← accountIndex accounts 0
  let stakerIdx ← accountIndex accounts 1
  let stakerAddress ← requireSigner P stakerIdx
  requireOwner P stakeIdx
  let state ← loadState P StakeStateV2.codec stakeIdx
  let parts ← ofOption (.invalidAccountData "stake account must be delegated to deactivate")
    state.delegated?
  require (parts.1.authorized.staker = stakerAddress) (.accountNotSigner stakerIdx)
  require (parts.2.delegation.deactivationEpoch = noEpoch)
    (.programError "stake" "stake already deactivating")
  let delegation := { parts.2.delegation with deactivationEpoch := sysvars.clock.epoch }
  saveState P StakeStateV2.codec stakeIdx (.stake parts.1 { parts.2 with delegation })

/-- The part of a balance that a withdrawal may take. -/
def withdrawable (lamports : UInt64) (m : StakeMeta) : Option Stake → Except Fault UInt64
  | none => .ok (Word.saturatingSub lamports m.rentExemptReserve)
  | some s =>
    if sysvars.clock.epoch ≤ s.delegation.deactivationEpoch then .ok 0
    else do
      let epochsSince := (sysvars.clock.epoch - s.delegation.deactivationEpoch).toNat
      let stake := s.delegation.stake.toNat
      let product ← P.wrapMul 128 (stake * s.delegation.warmupCooldownRateBps.toNat) epochsSince
      let cooled := min (product / 10000) stake
      let reserved ← P.wrapAdd 64 m.rentExemptReserve.toNat (stake - cooled)
      return Word.saturatingSub lamports (UInt64.ofNat reserved)

/-- `process_withdraw`: the owner of the debited account is not looked at. -/
def processWithdraw (lamports : UInt64) : Run Unit := do
  requireAccounts accounts 3 "Withdraw"
  let stakeIdx ← accountIndex accounts 0
  let toIdx ← accountIndex accounts 1
  let withdrawerIdx ← accountIndex accounts 2
  let withdrawerAddress ← requireSigner P withdrawerIdx
  let state ← loadState P StakeStateV2.codec stakeIdx
  let parts ← ofOption (.invalidAccountData "stake account not initialized") state.parts?
  require (parts.1.authorized.withdrawer = withdrawerAddress) (.accountNotSigner withdrawerIdx)
  require (parts.1.lockup.unixTimestamp ≤ sysvars.clock.unixTimestamp ∧
      parts.1.lockup.epoch ≤ sysvars.clock.epoch)
    (.programError "stake" "stake account is locked")
  let acc ← getAccount P stakeIdx
  let available ← ofFault (withdrawable P sysvars acc.account.lamports parts.1 parts.2)
  require (lamports ≤ available) (.insufficientFunds lamports available)
  debit P stakeIdx lamports (.insufficientFunds lamports)
  credit P toIdx lamports

/-- The stake that goes with `lamports` of a balance of which `total` is staked. -/
def splitStakeAmount (s : Stake) (lamports total : UInt64) : UInt64 :=
  if 0 < total then
    UInt64.ofNat (s.delegation.stake.toNat * lamports.toNat / total.toNat)
  else 0

/-- The state of the new account. -/
def splitState (m : StakeMeta) (reserve amount : UInt64) : Option Stake → StakeStateV2
  | none => .initialized { m with rentExemptReserve := reserve }
  | some s =>
    .stake { m with rentExemptReserve := reserve }
      { s with delegation := { s.delegation with stake := amount } }

/-- The write to the account that is split. -/
def splitSource (stakeIdx : ℕ) (m : StakeMeta) (lamports amount : UInt64) :
    Option Stake → Run Unit
  | none => debit P stakeIdx lamports (.insufficientFunds lamports)
  | some s => do
    let rest ← ofOption (.insufficientFunds amount s.delegation.stake)
      (Word.checkedSub s.delegation.stake amount)
    let updated := StakeStateV2.stake m { s with delegation := { s.delegation with stake := rest } }
    let acc ← getAccountMut P stakeIdx
    let left ← ofOption (.insufficientFunds lamports acc.lamports)
      (Word.checkedSub acc.lamports lamports)
    putAccount stakeIdx ((acc.withLamports left).withData (StakeStateV2.codec.enc updated))

/-- `process_split`: the new account need only be without data; it need not sign, and its owner
is overwritten. -/
def processSplit (lamports : UInt64) : Run Unit := do
  requireAccounts accounts 3 "Split"
  let stakeIdx ← accountIndex accounts 0
  let splitIdx ← accountIndex accounts 1
  let stakerIdx ← accountIndex accounts 2
  require (stakeIdx ≠ splitIdx) (.accountIndexAliasing stakeIdx splitIdx)
  let stakerAddress ← requireSigner P stakerIdx
  requireOwner P stakeIdx
  let state ← loadState P StakeStateV2.codec stakeIdx
  let parts ← ofOption (.invalidAccountData "stake account not initialized") state.parts?
  require (parts.1.authorized.staker = stakerAddress) (.accountNotSigner stakerIdx)
  let splitAcc ← getAccount P splitIdx
  require (splitAcc.account.data = []) .accountAlreadyExists
  let source ← getAccount P stakeIdx
  let total := Word.saturatingSub source.account.lamports parts.1.rentExemptReserve
  require (lamports ≤ total) (.insufficientFunds lamports total)
  let splitAcc ← getAccount P splitIdx
  let src ← getAccount P stakeIdx
  let dataLen :=
    if splitAcc.account.data = [] then src.account.data.length
    else splitAcc.account.data.length
  let splitRentExempt := sysvars.rent.minimumBalance dataLen
  require (splitRentExempt ≤ lamports) (.rentNotMet splitRentExempt lamports)
  let amount := match parts.2 with
    | some s => splitStakeAmount s lamports total
    | none => 0
  splitSource P stakeIdx parts.1 lamports amount parts.2
  let acc ← getAccountMut P splitIdx
  let sum ← ofOption .lamportsOverflow (Word.checkedAdd acc.lamports lamports)
  putAccount splitIdx
    { acc with
      lamports := sum
      data := StakeStateV2.codec.enc (splitState parts.1 splitRentExempt amount parts.2)
      owner := P.programId .stake }

/-- `process_stake`. -/
def processStake (data : List UInt8) : Run Unit := do
  consumeCompute 750
  let instruction ← decodeInstruction StakeInstruction.codec data
  match instruction with
  | .initializeStake authorized lockup => processInitialize P sysvars accounts authorized lockup
  | .delegateStake => processDelegate P sysvars accounts
  | .deactivate => processDeactivate P sysvars accounts
  | .withdraw lamports => processWithdraw P sysvars accounts lamports
  | .split lamports => processSplit P sysvars accounts lamports
  | _ => throw (.programError "stake" "instruction not yet implemented")

end Processor

/-! ### Confinement: what the processor keeps, however it ends -/

section Confinement

variable {P : Platform} {W : ℕ → Prop} {s₀ : TransactionContext} {known : Prop} {sysvars : SysvarCache}
  {accounts : List UInt8} {i : ℕ} {lamports : UInt64}

instance {m : StakeMeta} {o : Option Stake} : Checked P (withdrawable P sysvars lamports m o) := by
  unfold withdrawable
  split <;> infer_instance

instance {m : StakeMeta} {amount : UInt64} {o : Option Stake} [Knows known (W i)] :
    Confined P W s₀ known (splitSource P i m lamports amount o) := by
  cases o <;> unfold splitSource <;> infer_instance

set_option synthInstance.maxSize 100000 in
instance {data : List UInt8} :
    Confined P (Leading accounts (countOf StakeInstruction.codec StakeInstruction.written data)) s₀
      known (processStake P sysvars accounts data) := by
  unfold processStake
  refine .bind fun _ => .decode_bind fun instruction => ?_
  cases instruction <;> unfold StakeInstruction.written <;>
    simp only [processInitialize, processDelegate, processDeactivate, processWithdraw,
      processSplit, requireOwner, loadCurrent] <;>
    infer_instance

end Confinement

end Stake

end Nusantara

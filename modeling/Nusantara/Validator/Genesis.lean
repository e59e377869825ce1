import Nusantara.Validator.Epoch

/-!
# Genesis

`GenesisBuilder::build` (`genesis/src/builder.rs`): the first accounts, the validators with their
vote and stake accounts, the account of the loader and the genesis block, all written at once as
slot 0.  The addresses are those that the texts of the configuration resolve to.

The builder adds up the supply, refuses one that does not fit, and reports it; it is not stored.

## Main results

* `GenesisConfig.getAccount_loader`: the account of the loader holds one lamport after genesis.
-/

namespace Nusantara

open Borsh Exec Storage Account

/-- `GenesisValidatorInfo`, which is stored for later boots.  The commission in it is not read. -/
structure GenesisValidatorInfo where
  identity : Hash
  voteAccount : Hash
  stakeAccount : Hash
  stakeLamports : UInt64
  deriving DecidableEq

/-- What genesis leaves in the store besides accounts and the block. -/
structure Genesis where
  hash : Hash
  validators : List GenesisValidatorInfo
  unixTimestamp : Int64
  epochSchedule : EpochSchedule
  deriving DecidableEq

/-- The entry of a validator in the configuration. -/
structure GenesisValidator where
  identity : Hash
  voteAccount : Hash
  stakeLamports : UInt64
  commission : UInt8
  deriving DecidableEq

/-- `GenesisConfig`, without the fees, which the builder does not use. -/
structure GenesisConfig where
  clusterName : List UInt8
  creationTime : Int64
  slotsPerEpoch : UInt64
  rent : Rent
  validators : List GenesisValidator
  accounts : List (Hash × UInt64)
  faucet : Option (Hash × UInt64)
  deriving DecidableEq

/-- Why there is no genesis. -/
inductive GenesisError where
  | noValidators
  | supplyOverflow
  | fault (f : Fault)
  deriving DecidableEq

/-- What the builder has gathered. -/
structure GenesisTally where
  batch : WriteBatch
  pendingAccounts : Finmap fun _ : Hash => Account
  totalSupply : ℕ
  totalStake : UInt64
  validatorInfos : List GenesisValidatorInfo

namespace GenesisTally

/-- An account is written; what it held before in this genesis is known to `old`. -/
def put (t : GenesisTally) (address : Hash) (account : Account) (old : Option Account) :
    GenesisTally :=
  { t with batch := t.batch ++ accountWrite address 0 account old }

/-- The supply grows, as far as a `u128` goes. -/
def addSupply (t : GenesisTally) (lamports : ℕ) : Except GenesisError GenesisTally :=
  if t.totalSupply + lamports < 2 ^ 128 then
    .ok { t with totalSupply := t.totalSupply + lamports }
  else .error .supplyOverflow

/-- A fault of an addition ends the process. -/
def add (P : Platform) (a b : UInt64) : Except GenesisError UInt64 :=
  match P.wrapAdd 64 a.toNat b.toNat with
  | .ok n => .ok (UInt64.ofNat n)
  | .error f => .error (.fault f)

section Steps

variable (P : Platform) (rent : Rent)

/-- Steps 2 and 3: an account or the faucet is funded. -/
def fund (t : GenesisTally) (q : Hash × UInt64) : Except GenesisError GenesisTally :=
  let account := new q.2 (P.programId .system)
  { t.put q.1 account none with pendingAccounts := t.pendingAccounts.insert q.1 account }.addSupply
    q.2.toNat

/-- The state of a validator's stake account. -/
def stakeState (v : GenesisValidator) (reserve : UInt64) : StakeStateV2 :=
  .stake
    { rentExemptReserve := reserve
      authorized := { staker := v.identity, withdrawer := v.identity }
      lockup := { unixTimestamp := 0, epoch := 0, custodian := Hash.zero } }
    { delegation := {
        voterPubkey := v.voteAccount
        stake := v.stakeLamports
        activationEpoch := 0
        deactivationEpoch := UInt64.ofNat (2 ^ 64 - 1)
        warmupCooldownRateBps := defaultWarmupCooldownRateBps }
      creditsObserved := 0 }

/-- The address of a validator's stake account. -/
def stakeAddress (identity : Hash) : Hash := P.hash (identity.asBytes ++ asciiBytes "stake")

/-- What the identity of a validator holds; one that was funded before keeps what it has. -/
def identityBalance (existing : Option Account) (lamports : UInt64) : Except GenesisError UInt64 :=
  match existing with
  | some account => add P account.lamports lamports
  | none => .ok lamports

/-- Step 4, at one validator. -/
def createValidator (t : GenesisTally) (v : GenesisValidator) :
    Except GenesisError GenesisTally := do
  let voteData := VoteState.codec.enc
    (VoteState.new ⟨v.identity, v.identity, v.identity, v.commission⟩)
  let voteRent := rent.minimumBalance voteData.length
  let t := t.put v.voteAccount
    { new voteRent (P.programId .vote) with data := voteData } none
  let stakeAddr := stakeAddress P v.identity
  let stakeRent := rent.minimumBalance (StakeStateV2.codec.enc (stakeState v 0)).length
  let stakeLamports ← add P v.stakeLamports stakeRent
  let t := t.put stakeAddr
    { new stakeLamports (P.programId .stake) with
      data := StakeStateV2.codec.enc (stakeState v stakeRent) } none
  let identityLamports ← add P (rent.minimumBalance 0) 10000000000
  let existing := t.pendingAccounts.lookup v.identity
  let lamports ← identityBalance P existing identityLamports
  let identityAccount := new lamports (P.programId .system)
  let t := t.put v.identity identityAccount existing
  let totalStake ← add P t.totalStake v.stakeLamports
  let t ← t.addSupply (v.stakeLamports.toNat + stakeRent.toNat + voteRent.toNat +
    identityLamports.toNat)
  return { t with
    pendingAccounts := t.pendingAccounts.insert v.identity identityAccount
    totalStake
    validatorInfos := t.validatorInfos ++
      [⟨v.identity, v.voteAccount, stakeAddr, v.stakeLamports⟩] }

end Steps

end GenesisTally

namespace GenesisConfig

variable (P : Platform) (config : GenesisConfig)

/-- The hash of the genesis block. -/
def genesisHash : Hash :=
  P.hash (asciiBytes "nusantara_genesis" ++ config.clusterName ++
    leBytes 8 config.creationTime.toUInt64.toNat)

/-- The bank hash of the genesis block. -/
def genesisBankHash (genesisHash : Hash) : Hash :=
  P.hash (Hash.zero.asBytes ++ genesisHash.asBytes)

/-- The genesis block. -/
def genesisBlock : Block :=
  { header := {
      slot := 0
      parentSlot := 0
      parentHash := Hash.zero
      blockHash := config.genesisHash P
      timestamp := config.creationTime
      validator := Hash.zero
      transactionCount := 0
      merkleRoot := Hash.zero
      pohHash := Hash.zero
      bankHash := genesisBankHash P (config.genesisHash P)
      stateRoot := Hash.zero }
    transactions := []
    batches := [] }

/-- The account of the loader program. -/
def loaderAccount : Account := { new 1 (P.programId .loader) with executable := true }

/-- The accounts and the validators of genesis. -/
def tally : Except GenesisError GenesisTally := do
  let t ← (config.accounts ++ config.faucet.toList).foldlM (GenesisTally.fund P) ⟨[], ∅, 0, 0, []⟩
  config.validators.foldlM (GenesisTally.createValidator P config.rent) t

/-- What is left in the store besides accounts and the block. -/
def genesis (t : GenesisTally) : Genesis :=
  { hash := config.genesisHash P
    validators := t.validatorInfos
    unixTimestamp := config.creationTime
    epochSchedule := EpochSchedule.new config.slotsPerEpoch }

/-- The store after everything is written. -/
def stored (t : GenesisTally) (s : Storage) : Storage :=
  let hash := config.genesisHash P
  let s := s.write (t.batch ++ accountWrite (P.programId .loader) 0 (loaderAccount P) none)
  let s := (s.putBlock (config.genesisBlock P)).setRoot 0
  (s.putBankHash 0 (genesisBankHash P hash)).putSlotHash 0 hash

/-- `GenesisBuilder::build` on a store without genesis. -/
def build (s : Storage) : Except GenesisError (Genesis × Storage) :=
  if config.validators = [] then .error .noValidators
  else do
    let t ← config.tally P
    if 2 ^ 64 ≤ t.totalSupply then .error .supplyOverflow
    else return (config.genesis P t, config.stored P t s)

end GenesisConfig

/-! ### The accounts of genesis -/

section Overlays

variable {P : Platform} {config : GenesisConfig} {rent : Rent} {t t' : GenesisTally}

namespace GenesisTally

/-- The batch lays accounts over a store, as versions of slot 0. -/
def Overlaid (t : GenesisTally) : Prop := ∃ c, Overlays 0 t.batch c

theorem Overlaid.put (h : t.Overlaid) (address : Hash) (account : Account) (old : Option Account) :
    (t.put address account old).Overlaid :=
  h.elim fun _ hc => ⟨_, hc.accountWrite _ _ _⟩

theorem Overlaid.of_batch (h : t.Overlaid) (hbatch : t'.batch = t.batch) : t'.Overlaid :=
  h.elim fun c hc => ⟨c, hbatch.symm ▸ hc⟩

theorem addSupply_batch {n : ℕ} (h : t.addSupply n = .ok t') : t'.batch = t.batch := by
  unfold addSupply at h
  split_ifs at h
  exact Except.ok.inj h ▸ rfl

theorem Overlaid.fund {q : Hash × UInt64} (h : t.Overlaid) (ht : t.fund P q = .ok t') :
    t'.Overlaid := by
  have hbatch := addSupply_batch ht
  exact (h.put q.1 _ none).of_batch hbatch

theorem Overlaid.createValidator {v : GenesisValidator} (h : t.Overlaid)
    (ht : t.createValidator P rent v = .ok t') : t'.Overlaid := by
  simp only [GenesisTally.createValidator, exceptBind_eq_ok] at ht
  obtain ⟨_, -, _, -, _, -, _, -, t₁, hsupply, ht⟩ := ht
  cases ht
  have hbatch := addSupply_batch hsupply
  exact (((h.put _ _ _).put _ _ _).put _ _ _).of_batch hbatch

end GenesisTally

namespace GenesisConfig

theorem overlaid_tally (h : config.tally P = .ok t) : t.Overlaid := by
  obtain ⟨t₀, hfund, h⟩ := exceptBind_eq_ok.mp h
  have hfunded : t₀.Overlaid :=
    foldlM_keeps (I := GenesisTally.Overlaid) (fun _ _ _ _ ht hstep => ht.fund hstep) ⟨∅, .nil⟩ hfund
  exact foldlM_keeps (I := GenesisTally.Overlaid)
    (fun _ _ _ _ ht hstep => ht.createValidator hstep) hfunded h

/-- **The loader after genesis**: its account is there, whatever the configuration says. -/
theorem getAccount_loader {g : Genesis} {s s' : Storage} (h : config.build P s = .ok (g, s')) :
    s'.getAccount (P.programId .loader) = some (loaderAccount P) := by
  unfold build at h
  split_ifs at h
  obtain ⟨t, ht, h⟩ := exceptBind_eq_ok.mp h
  split_ifs at h
  cases Except.ok.inj h
  obtain ⟨c, hc⟩ := overlaid_tally ht
  -- The genesis block and its hashes are stored beside the accounts.
  have hread : (config.stored P t s).getAccount (P.programId .loader)
      = (s.write (t.batch ++ accountWrite (P.programId .loader) 0 (loaderAccount P)
          none)).getAccount (P.programId .loader) := rfl
  rw [hread, (hc.accountWrite _ _ _).getAccount, Finmap.lookup_insert, Option.some_or]

end GenesisConfig

end Overlays

end Nusantara

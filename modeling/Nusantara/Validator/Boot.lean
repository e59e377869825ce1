import Nusantara.Validator.Genesis
import Nusantara.Validator.StateRoot

/-!
# Boot

`ValidatorNode::boot` (`validator/src/bootstrap.rs`) on a store that has a genesis.  The fork tree
starts again at the latest root, the delegations are those of genesis, and the state tree is built
from the accounts.  The vote accounts are read into the bank, the one of the validator itself among
them, but the tower is a new one: of the lockouts a validator has on its votes, nothing survives.

The snapshot that a node without genesis is restored from is in `Validator.Snapshot`; the network is
left out.

## Main results

* `boot_eq_ok`: what a node is after boot.
* `lockoutsSurvive_iff`: the lockouts in the own vote account survive exactly if there are none.
-/

namespace Nusantara

open Borsh Exec Storage Word List Option VoteState

/-- Why a node does not boot. -/
inductive BootError where
  | keypair (text : String)
  | fault (f : Fault)
  deriving DecidableEq

/-- What a node is started with. -/
structure BootConfig where
  identity : Hash
  gpuVerifier : Bool
  hashesPerTick : UInt64
  /-- The slot that the clock says. -/
  clockSlot : UInt64
  stakeOrder : IterOrder Hash

/-! ### What boot builds -/

/-- `get_latest_root`. -/
def Storage.getLatestRoot (s : Storage) : Option UInt64 := s.roots.ascending.getLast?

/-- The latest root, or genesis. -/
def Storage.lastRoot (s : Storage) : UInt64 := s.getLatestRoot.getD 0

/-- `ConsensusBank::new`. -/
def ConsensusBank.new (storage : Storage) (epochSchedule : EpochSchedule) : ConsensusBank :=
  { storage, epochSchedule, epochStakes := ∅, clock := ⟨0, 0, 0⟩, slotHashes := [], currentSlot := 0,
    stateTree := ∅ }

/-- The tower of a validator that has not voted. -/
def Tower.fresh (identity : Hash) : Tower := ⟨new ⟨identity, identity, identity, 0⟩⟩

/-- `ReplayStage::new`. -/
def ReplayStage.new (bank : ConsensusBank) (tower : Tower) (forkTree : ForkTree)
    (commitmentTracker : CommitmentTracker) (gpuVerifier : Bool) : ReplayStage :=
  { authorizedVoter := tower.voteState.authorizedVoter, bank, tower, forkTree, commitmentTracker,
    leaderScheduleCache := ∅, gpuVerifier, currentTip := forkTree.rootSlot, pendingVotes := ∅ }

/-- The delegation that boot makes up for a validator of genesis. -/
def GenesisValidatorInfo.delegation (v : GenesisValidatorInfo) : Delegation :=
  { voterPubkey := v.voteAccount
    stake := v.stakeLamports
    activationEpoch := 0
    deactivationEpoch := UInt64.ofNat (2 ^ 64 - 1)
    warmupCooldownRateBps := defaultWarmupCooldownRateBps }

/-- The vote account of a validator is read into the bank, if the store has it. -/
def loadVoteState (s : Storage) (b : StakeBook) (voteAccount : Hash) : Except BootError StakeBook :=
  match s.getAccount voteAccount with
  | none => .ok b
  | some account => match codec.tryFromSlice account.data with
    | .ok state => .ok (b.setVoteState voteAccount state)
    | .error e => .error (.keypair s!"failed to deserialize vote state: {e.toText}")

/-- Steps 7 and 8 of `boot`, at one validator of genesis; a delegation that is not valid is skipped. -/
def registerValidator (s : Storage) (b : StakeBook) (v : GenesisValidatorInfo) :
    Except BootError StakeBook := do
  let b ← loadVoteState s b v.voteAccount
  return (b.setStakeDelegation v.stakeAccount v.delegation).toOption.getD b

/-- A fault ends the process. -/
def orFault {α : Type} : Except Fault α → Except BootError α
  | .ok a => .ok a
  | .error f => .error (.fault f)

section Boot

variable (P : Platform) (g : Genesis) (c : BootConfig) (s : Storage)

/-- All validators of genesis are registered with a new bank. -/
def registerValidators : Except BootError StakeBook :=
  g.validators.foldlM (registerValidator s) StakeBook.empty

/-- The bank of a node that boots, on the slot of the latest root. -/
def bootBank (parentHash : Hash) : Except Fault ConsensusBank := do
  let bank ← (ConsensusBank.new s g.epochSchedule).advanceSlot P s.lastRoot g.unixTimestamp
  let bank := bank.recordSlotHash 0 g.hash
  return if 0 < s.lastRoot then bank.recordSlotHash s.lastRoot parentHash else bank

/-- The slot a node starts in. -/
def firstSlot : Except Fault UInt64 := do
  let next ← P.wrapAdd 64 s.lastRoot.toNat 1
  return max c.clockSlot (UInt64.ofNat next)

/-- The vote account that genesis gives to the identity of the node. -/
def ownVoteAccount : Option Hash :=
  (g.validators.find? fun v => v.identity = c.identity).map GenesisValidatorInfo.voteAccount

/-- `ValidatorNode::boot`. -/
def boot : Except BootError RunningNode := do
  let parentHash := (s.slotHashes.lookup s.lastRoot).getD g.hash
  let parentBankHash := (s.bankHashes.lookup s.lastRoot).getD (GenesisConfig.genesisBankHash P g.hash)
  let bank ← orFault (bootBank P g s parentHash)
  let book ← registerValidators g s
  let epoch ← orFault (g.epochSchedule.getEpoch P s.lastRoot)
  let recalculated := recalculateEpochStakes epoch bank book
  let bank := { recalculated.1 with stateTree := initFromStorage P s }
  let book := recalculated.2
  let currentSlot ← orFault (firstSlot P c s)
  let stage := ReplayStage.new bank (Tower.fresh c.identity)
    (ForkTree.new s.lastRoot parentHash parentBankHash)
    (CommitmentTracker.new book.totalActiveStake) c.gpuVerifier
  let stage ← orFault (scheduleLeaders P g.hash c.stakeOrder epoch stage)
  return {
    node := {
      stage
      producer := {
        identityAddress := c.identity
        poh := ⟨parentHash, 0, 0, c.hashesPerTick⟩
        parentSlot := s.lastRoot
        parentHash
        parentBankHash }
      currentSlot
      orphanBlocks := ∅
      failedForkTargets := ∅
      lastForkSwitchTarget := none
      lastVotedSlot := currentSlot
      lastProducedSlot := none
      myVoteAccount := ownVoteAccount g c }
    book
    detector := ∅ }

end Boot

/-! ### What a node is after boot -/

section Parts

variable {P : Platform} {g : Genesis} {s : Storage}

theorem orFault_eq_ok {α : Type} {x : Except Fault α} {a : α} : orFault x = .ok a ↔ x = .ok a := by
  cases x <;> simp [orFault]

/-- A schedule changes the cache of schedules only. -/
theorem scheduleLeaders_eq_ok {hash : Hash} {o : IterOrder Hash} {epoch : UInt64}
    {stage stage' : ReplayStage} (h : scheduleLeaders P hash o epoch stage = .ok stage') :
    ∃ cache, stage' = { stage with leaderScheduleCache := cache } := by
  obtain ⟨schedule, -, h⟩ := exceptBind_eq_ok.mp h
  cases schedule with
  | error e | ok schedule => exact ⟨_, (Except.ok.inj h).symm⟩

theorem bootBank_eq_ok {parentHash : Hash} {bank : ConsensusBank}
    (h : bootBank P g s parentHash = .ok bank) :
    bank.storage = s ∧ bank.epochSchedule = g.epochSchedule := by
  obtain ⟨bank₁, hbank, h⟩ := exceptBind_eq_ok.mp h
  obtain ⟨clock, rfl⟩ := ConsensusBank.advanceSlot_eq_ok hbank
  cases h
  split_ifs <;> exact ⟨rfl, rfl⟩

end Parts

/-- The state of a vote account, as far as it can be read. -/
def Storage.voteState? (s : Storage) (a : Hash) : Option VoteState :=
  (s.getAccount a).bind fun account => (codec.tryFromSlice account.data).toOption

/-- The delegation of a validator of genesis, as the bank takes it. -/
def GenesisValidatorInfo.validDelegation (u : GenesisValidatorInfo) : ValidDelegation :=
  { u.delegation with
    active := show (0 : UInt64) ≤ UInt64.ofNat (2 ^ 64 - 1) by decide
    rate_le := show defaultWarmupCooldownRateBps ≤ 10000 by decide }

/-- The delegation that genesis has for a stake account; of two, the last one counts. -/
def Genesis.delegation (g : Genesis) (stakeAccount : Hash) : Option ValidDelegation :=
  (g.validators.reverse.find? fun u => u.stakeAccount = stakeAccount).map
    GenesisValidatorInfo.validDelegation

section Registered

variable {g : Genesis} {s : Storage} {b b' : StakeBook} {u : GenesisValidatorInfo}

/-- What the bank knows of vote accounts after one more was looked up. -/
def withVoteState (s : Storage) (m : Finmap fun _ : Hash => VoteState) (voteAccount : Hash) :
    Finmap fun _ : Hash => VoteState :=
  (s.voteState? voteAccount).elim m (m.insert voteAccount)

theorem loadVoteState_eq_ok {a : Hash} (h : loadVoteState s b a = .ok b') :
    b' = { b with voteAccounts := withVoteState s b.voteAccounts a } := by
  unfold loadVoteState at h
  unfold withVoteState Storage.voteState?
  cases hread : s.getAccount a with
  | none =>
    rw [hread] at h
    exact (Except.ok.inj h).symm
  | some account =>
    rw [hread] at h
    dsimp only at h
    cases hstate : codec.tryFromSlice account.data with
    | error e => simp [hstate] at h
    | ok state =>
      rw [hstate] at h
      rw [bind_some, hstate]
      exact (Except.ok.inj h).symm

theorem registerValidator_eq_ok (h : registerValidator s b u = .ok b') :
    b' = { b with
      voteAccounts := withVoteState s b.voteAccounts u.voteAccount
      stakeDelegations := b.stakeDelegations.insert u.stakeAccount u.validDelegation } := by
  obtain ⟨b₁, hload, h⟩ := exceptBind_eq_ok.mp h
  obtain rfl := loadVoteState_eq_ok hload
  exact (Except.ok.inj h).symm

/-- What is registered after a list of validators, from any book. -/
theorem foldlM_registerValidator {l : List GenesisValidatorInfo}
    (h : l.foldlM (registerValidator s) b = .ok b') :
    (∀ a, b'.stakeDelegations.lookup a = ((l.reverse.find? fun u => u.stakeAccount = a).map
        GenesisValidatorInfo.validDelegation).or (b.stakeDelegations.lookup a)) ∧
      b'.voteAccounts = (l.map GenesisValidatorInfo.voteAccount).foldl (withVoteState s)
        b.voteAccounts ∧
      b'.slashRegistry = b.slashRegistry ∧ b'.totalSupply = b.totalSupply := by
  induction l generalizing b with
  | nil =>
    cases h
    exact ⟨fun _ => rfl, rfl, rfl, rfl⟩
  | cons u l ih =>
    rw [foldlM_cons] at h
    obtain ⟨b₁, hb₁, h⟩ := exceptBind_eq_ok.mp h
    obtain rfl := registerValidator_eq_ok hb₁
    obtain ⟨hlookup, hrest⟩ := ih h
    refine ⟨fun a => ?_, hrest⟩
    rw [hlookup, reverse_cons, find?_append]
    cases hfind : l.reverse.find? fun u => u.stakeAccount = a with
    | some w => rfl
    | none =>
      by_cases ha : u.stakeAccount = a
      · simp [ha, Finmap.lookup_insert]
      · simp [ha, Finmap.lookup_insert_of_ne _ (Ne.symm ha)]

/-- What the bank of a node that boots knows. -/
structure Registered (g : Genesis) (s : Storage) (b : StakeBook) : Prop where
  delegations : ∀ a, b.stakeDelegations.lookup a = g.delegation a
  voteAccounts : b.voteAccounts = (g.validators.map GenesisValidatorInfo.voteAccount).foldl
    (withVoteState s) ∅
  slashRegistry : b.slashRegistry = ∅
  supply : b.totalSupply = 0

theorem registered_of_boot (h : registerValidators g s = .ok b) : Registered g s b := by
  obtain ⟨hlookup, hvotes, hslashes, hsupply⟩ := foldlM_registerValidator h
  refine ⟨fun a => ?_, hvotes, hslashes, hsupply⟩
  rw [hlookup, Genesis.delegation]
  exact or_none

end Registered

section Booted

variable {P : Platform} {g : Genesis} {c : BootConfig} {s : Storage} {v : RunningNode}

/-- What a node is after it has booted on a store, as far as runs are concerned. -/
structure Booted (P : Platform) (g : Genesis) (c : BootConfig) (s : Storage) (v : RunningNode) :
    Prop where
  storage : v.node.storage = s
  epochSchedule : v.node.stage.bank.epochSchedule = g.epochSchedule
  tower : v.node.stage.tower = Tower.fresh c.identity
  currentSlot : firstSlot P c s = .ok v.node.currentSlot
  myVoteAccount : v.node.myVoteAccount = ownVoteAccount g c
  registered : Registered g s v.book
  detector : v.detector = ∅

theorem boot_eq_ok (h : boot P g c s = .ok v) : Booted P g c s v := by
  simp only [boot, exceptBind_eq_ok, orFault_eq_ok] at h
  obtain ⟨bank, hbank, b, hb, epoch, -, slot, hslot, stage, hstage, h⟩ := h
  cases h
  obtain ⟨hstorage, hschedule⟩ := bootBank_eq_ok hbank
  obtain ⟨cache, rfl⟩ := scheduleLeaders_eq_ok hstage
  have hbook := registered_of_boot hb
  exact ⟨hstorage, hschedule, rfl, hslot, rfl,
    ⟨hbook.delegations, hbook.voteAccounts, hbook.slashRegistry, hbook.supply⟩, rfl⟩

end Booted

/-! ### Lockouts -/

/-- What the own vote account says. -/
def RunningNode.ownVoteState (v : RunningNode) : Option VoteState :=
  v.node.myVoteAccount.bind v.node.storage.voteState?

/-- Every vote in the own vote account that is still locked out in the current slot is in the tower,
with as many confirmations at least, and the root of the tower is not below the one of the account. -/
structure RunningNode.LockoutsSurvive (v : RunningNode) : Prop where
  votes : ∀ state, v.ownVoteState = some state → ∀ l ∈ state.votes,
    l.isLockedOutAtSlot v.node.currentSlot → ∃ l' ∈ v.node.stage.tower.voteState.votes,
      l'.slot = l.slot ∧ l.confirmationCount ≤ l'.confirmationCount
  root : ∀ state, v.ownVoteState = some state → ∀ r, state.rootSlot = some r →
    ∃ r', v.node.stage.tower.rootSlot = some r' ∧ r ≤ r'

/-- The own vote account in the store has no root and no vote that is locked out in the first slot. -/
def NothingLocked (P : Platform) (g : Genesis) (c : BootConfig) (s : Storage) : Prop :=
  ∀ state slot, (ownVoteAccount g c).bind s.voteState? = some state → firstSlot P c s = .ok slot →
    state.rootSlot = none ∧ ∀ l ∈ state.votes, ¬ l.isLockedOutAtSlot slot

/-- **Lockouts after a restart.**  The lockouts in the own vote account survive a restart exactly if
there is nothing in it to survive. -/
theorem lockoutsSurvive_iff {P : Platform} {g : Genesis} {c : BootConfig} {s : Storage}
    {v : RunningNode} (h : boot P g c s = .ok v) :
    v.LockoutsSurvive ↔ NothingLocked P g c s := by
  have hv := boot_eq_ok h
  have hown : v.ownVoteState = (ownVoteAccount g c).bind s.voteState? := by
    rw [RunningNode.ownVoteState, hv.myVoteAccount, hv.storage]
  -- The tower has neither votes nor a root.
  have hvotes : v.node.stage.tower.voteState.votes = [] := by rw [hv.tower]; rfl
  have hroot : v.node.stage.tower.rootSlot = none := by rw [hv.tower]; rfl
  constructor
  · intro hsurvive state slot hstate hslot
    rw [← hown] at hstate
    cases hv.currentSlot.symm.trans hslot
    refine ⟨eq_none_iff_forall_ne_some.mpr fun r hr => ?_, fun l hl hlocked => ?_⟩
    · obtain ⟨r', hr', -⟩ := hsurvive.root state hstate r hr
      exact some_ne_none r' (hr'.symm.trans hroot)
    · obtain ⟨l', hl', -⟩ := hsurvive.votes state hstate l hl hlocked
      exact absurd (hvotes ▸ hl') not_mem_nil
  · intro hnothing
    refine ⟨fun state hstate l hl hlocked => ?_, fun state hstate r hr => ?_⟩
    · exact absurd hlocked ((hnothing state _ (hown ▸ hstate) hv.currentSlot).2 l hl)
    · have hnone := (hnothing state _ (hown ▸ hstate) hv.currentSlot).1
      exact absurd (hr.symm.trans hnone) (some_ne_none r)

namespace Sample

/-- A chain with one validator, whose epochs have two slots. -/
def genesisConfig : GenesisConfig :=
  { clusterName := [], creationTime := 0, slotsPerEpoch := 2, rent := Rent.default
    validators := [⟨Hash.repeated 5, Hash.repeated 7, 1000000, 10⟩]
    accounts := [], faucet := none }

/-- The validator of that chain is started. -/
def bootConfig (clockSlot : UInt64) : BootConfig :=
  { identity := Hash.repeated 5, gpuVerifier := false, hashesPerTick := 1, clockSlot
    stakeOrder := ⟨id, List.Perm.refl⟩ }

/-- What holds of genesis and of the validator that boots on it. -/
abbrev OnBoot (config : GenesisConfig) (R : Genesis × Storage → RunningNode → Prop) : Prop :=
  ∃ q, config.build tailPlatform Storage.empty = .ok q ∧
    ∃ v, boot tailPlatform q.1 (bootConfig 0) q.2 = .ok v ∧ R q v

/-- A transaction of the validator with an instruction for one of its accounts, after genesis. -/
def ofValidator (g : Genesis) (account : Hash) (b : Builtin) (data : List UInt8) : Transaction :=
  let tx := transaction 1 1 [Hash.repeated 5, account, tailPlatform.programId b]
    [{ programIdIndex := 2, accounts := [1, 0], data }]
  { tx with message := { tx.message with recentBlockhash := g.hash } }

/-- The validator votes for slot 1. -/
def validatorVote (g : Genesis) : Transaction :=
  ofValidator g (Hash.repeated 7) .vote (VoteInstruction.codec.enc (.vote ⟨[1], Hash.zero, none⟩))

end Sample

open Sample ValidatorNode in
/-- After genesis there is nothing to survive. -/
theorem nothing_to_survive_at_genesis :
    ∃ g s v, genesisConfig.build tailPlatform Storage.empty = .ok (g, s) ∧
      boot tailPlatform g (bootConfig 0) s = .ok v ∧ v.LockoutsSurvive := by
  obtain ⟨⟨g, s⟩, hg, v, hv, hrun⟩ :
      OnBoot genesisConfig fun q x =>
      ((ownVoteAccount q.1 (bootConfig 0)).bind q.2.voteState?).map (fun state => (state.rootSlot,
          state.votes)) = some (none, []) := by
    decide +kernel
  obtain ⟨state, hstate, hempty⟩ := map_eq_some_iff.mp hrun
  obtain ⟨hroot, hvotes⟩ := Prod.mk.inj hempty
  refine ⟨g, s, v, hg, hv, (lockoutsSurvive_iff hv).mpr fun state' slot hstate' hslot => ?_⟩
  cases hstate.symm.trans hstate'
  exact ⟨hroot, fun l hl => absurd (hvotes ▸ hl) not_mem_nil⟩

open Sample ValidatorNode in
/-- A validator produces slot 1 with its own vote for it, and is started again in slot 2.  The vote is
locked out until slot 3, and the tower does not have it. -/
theorem restart_forgets_the_vote :
    ∃ g s v n w, genesisConfig.build tailPlatform Storage.empty = .ok (g, s) ∧
      boot tailPlatform g (bootConfig 0) s = .ok v ∧
      NodeStep tailPlatform config v.node (.produce inOrder 0 [validatorVote g]) n ∧
      boot tailPlatform g (bootConfig 2) n.storage = .ok w ∧ ¬ w.LockoutsSurvive := by
  obtain ⟨⟨g, s⟩, hg, v, hv, n, hn, w, hw, hown, hlocked, htower⟩ :
      OnBoot genesisConfig fun q v =>
      ∃ n, v.node.next tailPlatform config (.produce inOrder 0 [validatorVote q.1]) = some n ∧
      ∃ w, boot tailPlatform q.1 (bootConfig 2) n.storage = .ok w ∧
      w.ownVoteState.map votes = some [⟨1, 1⟩] ∧
      (⟨1, 1⟩ : Lockout).isLockedOutAtSlot w.node.currentSlot = true ∧
      w.node.stage.tower.voteState.votes = [] := by decide +kernel
  refine ⟨g, s, v, n, w, hg, hv, nodeStep_of_next hn, hw, fun hsurvive => ?_⟩
  obtain ⟨state, hstate, hvotes⟩ := map_eq_some_iff.mp hown
  have hmem : (⟨1, 1⟩ : Lockout) ∈ state.votes := hvotes ▸ mem_singleton_self _
  obtain ⟨l', hl', -⟩ := hsurvive.votes state hstate _ hmem hlocked
  exact absurd (htower ▸ hl') not_mem_nil

end Nusantara

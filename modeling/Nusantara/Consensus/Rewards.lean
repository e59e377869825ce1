import Nusantara.Consensus.Stakes

/-!
# Epoch rewards

`RewardsCalculator` (`consensus/src/rewards.rs`).  The inflation of an epoch is shared out among the
delegations by the credits their vote accounts have earned and the stake they hold.  What truncation
leaves goes to the first entry, wherever the hash map of the partitions starts.

## Main results

* `calculateEpochRewards_zero`: without inflation there is no entry.
-/

namespace Nusantara

open Borsh Word UInt64

/-- `PARTITION_COUNT`. -/
def partitionCount : ℕ := 4096

/-- `INITIAL_INFLATION_RATE_BPS`. -/
def initialInflationRateBps : ℕ := 800

/-- `TERMINAL_INFLATION_RATE_BPS`. -/
def terminalInflationRateBps : ℕ := 150

/-- `TAPER_RATE_BPS`. -/
def taperRateBps : ℕ := 1500

/-- `DEFAULT_SLOT_DURATION_MS`. -/
def defaultSlotDurationMs : UInt64 := 400

/-- `RewardEntry`. -/
structure RewardEntry where
  stakeAccount : Hash
  voteAccount : Hash
  lamports : UInt64
  commissionLamports : UInt64
  postBalance : UInt64
  commission : UInt8
  deriving DecidableEq

/-- `EpochRewards`. -/
structure EpochRewards where
  epoch : UInt64
  totalRewardsLamports : UInt64
  totalPoints : ℕ
  pointValueLamports : UInt64
  partitions : Finmap fun _ : ℕ => List RewardEntry
  deriving DecidableEq

/-- Why there are no rewards. -/
inductive RewardsError where
  | zeroTotalStake
  | noEpochCredits
  deriving DecidableEq

/-! ### Inflation -/

/-- The rate of the next epoch. -/
def taperedRate (rate : ℕ) : ℕ := max (rate - rate * taperRateBps / 10000) terminalInflationRateBps

/-- `RewardsCalculator::inflation_rate_bps`; the table of the code is the sequence here. -/
def inflationRateBps (epoch : UInt64) : ℕ :=
  if 100 ≤ epoch then terminalInflationRateBps
  else taperedRate^[epoch.toNat] initialInflationRateBps

/-- `RewardsCalculator::epoch_inflation_rewards`. -/
def epochInflationRewards (epoch totalSupply slotsPerEpoch : UInt64) : UInt64 :=
  let msPerEpoch := saturatingMul slotsPerEpoch defaultSlotDurationMs
  if msPerEpoch = 0 then 0
  else
    let epochsPerYear := 365 * 24 * 3600 * 1000 / msPerEpoch.toNat
    if epochsPerYear = 0 then 0
    else ofNat (totalSupply.toNat * inflationRateBps epoch / 10000 / epochsPerYear)

/-! ### Shares -/

section Shares

variable (P : Platform) (voteMap : Finmap fun _ : Hash => VoteState)

/-- `get_epoch_credits_from_map`. -/
def getEpochCredits (epoch : UInt64) (voter : Hash) : UInt64 :=
  (((voteMap.lookup voter).bind fun vs => vs.epochCredits.find? fun c => c.epoch = epoch).map
    fun c => saturatingSub c.credits c.prevCredits).getD 0

/-- The points of a delegation. -/
def delegationPoints (epoch : UInt64) (d : Delegation) : ℕ :=
  (getEpochCredits voteMap epoch d.voterPubkey).toNat * d.stake.toNat

/-- The sum of the points, which saturates as a `u128`. -/
def sumPoints (points : List ℕ) : ℕ := points.foldl (fun total p => min (total + p) (2 ^ 128 - 1)) 0

/-- The entry of a delegation with so many points; `none` if it comes to nothing. -/
def rewardEntry (pointValueScaled : ℕ) (stakeAccount : Hash) (d : Delegation) (points : ℕ) :
    Option RewardEntry :=
  let reward := ofNat (points * pointValueScaled / 1000000)
  if points = 0 ∨ reward = 0 then none
  else
    let commission := ((voteMap.lookup d.voterPubkey).map fun vs => min vs.commission 100).getD 0
    let validatorShare := ofNat (reward.toNat * commission.toNat / 100)
    let stakerShare := saturatingSub reward validatorShare
    some {
      stakeAccount
      voteAccount := d.voterPubkey
      lamports := stakerShare
      commissionLamports := validatorShare
      postBalance := saturatingAdd d.stake stakerShare
      commission }

/-- The entries of all delegations. -/
def rewardEntries (epoch : UInt64) (pointValueScaled : ℕ) (delegations : List (Hash × Delegation)) :
    List RewardEntry :=
  delegations.filterMap fun q =>
    rewardEntry voteMap pointValueScaled q.1 q.2 (delegationPoints voteMap epoch q.2)

/-- What the entries give out. -/
def distributedBy (entries : List RewardEntry) : UInt64 :=
  entries.foldl (fun total e => saturatingAdd total (e.lamports + e.commissionLamports)) 0

/-- `partition_index`. -/
def partitionIndex (account : Hash) : ℕ :=
  ofLe ((P.hash account.asBytes).asBytes.take 8) % partitionCount

/-- The partitions with one more entry. -/
def pushEntry (partitions : Finmap fun _ : ℕ => List RewardEntry) (e : RewardEntry) :
    Finmap fun _ : ℕ => List RewardEntry :=
  let i := partitionIndex P e.stakeAccount
  partitions.insert i ((partitions.lookup i).getD [] ++ [e])

/-- The entries in the order in which the partitions are passed over. -/
def entriesOf (o : IterOrder ℕ) (partitions : Finmap fun _ : ℕ => List RewardEntry) :
    List RewardEntry :=
  (partitions.listed o).flatMap Prod.snd

/-- What is left goes to the first entry. -/
def addRemainder (o : IterOrder ℕ) (remainder : UInt64)
    (partitions : Finmap fun _ : ℕ => List RewardEntry) :
    Finmap fun _ : ℕ => List RewardEntry :=
  match (partitions.listed o).find? fun q => q.2 ≠ [] with
  | some (i, e :: rest) => partitions.insert i ({ e with
      lamports := saturatingAdd e.lamports remainder
      postBalance := saturatingAdd e.postBalance remainder } :: rest)
  | _ => partitions

/-- `RewardsCalculator::calculate_epoch_rewards`.  The delegations come in the order of their hash
map, and the partitions have one of their own. -/
def calculateEpochRewards (o : IterOrder ℕ) (epoch inflationRewards : UInt64)
    (delegations : List (Hash × Delegation)) : Except RewardsError EpochRewards :=
  if delegations = [] then .error .zeroTotalStake
  else
    let points := delegations.map fun q => delegationPoints voteMap epoch q.2
    let totalPoints := sumPoints points
    if totalPoints = 0 then .error .noEpochCredits
    else
      let pointValueScaled := inflationRewards.toNat * 1000000 / totalPoints
      let entries := rewardEntries voteMap epoch pointValueScaled delegations
      let partitions := entries.foldl (pushEntry P) ∅
      let distributed := distributedBy entries
      let remainder := saturatingSub inflationRewards distributed
      let given := 0 < remainder ∧ entries ≠ []
      .ok {
        epoch
        totalRewardsLamports := if given then saturatingAdd distributed remainder else distributed
        totalPoints
        pointValueLamports := ofNat pointValueScaled
        partitions := if given then addRemainder o remainder partitions else partitions }

end Shares

/-! ### No inflation, no rewards -/

theorem epochInflationRewards_zero (epoch slotsPerEpoch : UInt64) :
    epochInflationRewards epoch 0 slotsPerEpoch = 0 := by
  unfold epochInflationRewards
  dsimp only
  split_ifs
  · rfl
  · rfl
  · simp

/-- **Without inflation** a calculation that succeeds has no entry. -/
theorem calculateEpochRewards_zero {P : Platform} {voteMap : Finmap fun _ : Hash => VoteState}
    {o : IterOrder ℕ} {epoch : UInt64} {delegations : List (Hash × Delegation)}
    {r : EpochRewards} (h : calculateEpochRewards P voteMap o epoch 0 delegations = .ok r) :
    r.partitions = ∅ := by
  unfold calculateEpochRewards at h
  split at h
  · cases h
  dsimp only at h
  split at h
  · cases h
  -- A point is worth nothing, so no delegation gets an entry.
  have hentries : rewardEntries voteMap epoch 0 delegations = [] := by
    rw [rewardEntries, List.filterMap_eq_nil_iff]
    intro q _
    simp [rewardEntry]
  simp only [UInt64.toNat_zero, Nat.zero_mul, Nat.zero_div, hentries, ne_eq, not_true_eq_false,
    and_false, if_false, List.foldl_nil] at h
  exact (Except.ok.inj h) ▸ rfl

end Nusantara

import Nusantara.Consensus.Rewards
import Nusantara.Consensus.Schedule
import Nusantara.Validator.Node

/-!
# The epoch boundary

`check_epoch_boundary` (`validator/src/epoch.rs`, `rent-program/src/lib.rs`).  In the last slot of an
epoch the node collects rent from one partition of the accounts and pays the rewards of the epoch,
and then computes the stakes and the leaders of the next epoch.

Rent and rewards are two tasks that run at the same time over one store and one bank.  Each of them
reads accounts one after another, writes all its changes at once, and updates the supply.  What a
task does between two of its accesses touches nothing shared, so a run of both is a list that says
whose access comes next.

Changes are written as versions of the current slot, whether there is a block in it or not.

## Main results

* `Boundary.overlays_run`: a run of both tasks lays accounts over the store, as versions of the
  current slot.
* `Boundary.reward_alone`: a reward task that is not disturbed is `distributeRewards`.
-/

namespace Nusantara

open Exec Storage Word List Finmap Option UInt64

/-! ### Rent -/

/-- `RENT_PARTITIONS`. -/
def rentPartitions : ℕ := 4096

/-- `MS_PER_YEAR`. -/
def msPerYear : ℕ := 31536000000

/-- `RentDue`. -/
inductive RentDue where
  | exempt
  | paying (amount : UInt64)
  deriving DecidableEq

/-- `n` as a `u128`, or the largest one. -/
def saturate128 (n : ℕ) : ℕ := min n (2 ^ 128 - 1)

/-- `Rent::due_epoch`. -/
def Rent.dueEpoch (r : Rent) (lamports : UInt64) (dataLen msPerEpoch msPerYear : ℕ) : RentDue :=
  if r.minimumBalance dataLen ≤ lamports then .exempt
  else
    let yearly := saturate128 ((128 + dataLen) * r.lamportsPerByteYear.toNat)
    .paying (ofNat (saturate128 (yearly * msPerEpoch) / msPerYear))

/-- The entries of the account index that `get_accounts_in_partition` looks at: those whose address
starts with a byte of the partition. -/
def Storage.partitionEntries (s : Storage) (partition totalPartitions : ℕ) : List (Hash × UInt64) :=
  (s.accountIndex.keys.ascending.filter fun a =>
    (a.asBytes.headD 0).toNat % totalPartitions = partition).filterMap fun a =>
      (s.accountIndex.lookup a).map fun slot => (a, slot)

/-- What the loop of `collect_rent_blocking` has gathered. -/
structure RentTally where
  batch : WriteBatch
  collected : UInt64
  deltas : List (Hash × Account)
  deriving DecidableEq

/-- The account after it has paid its rent; one that cannot pay is closed. -/
def afterRent (account : Account) (due : UInt64) : Account :=
  if account.lamports ≤ due then { account with lamports := 0, data := [] }
  else account.withLamports (account.lamports - due)

/-- The loop of `collect_rent_blocking`, at one account. -/
def collectFrom (P : Platform) (rent : Rent) (msPerEpoch : ℕ) (slot : UInt64) (t : RentTally)
    (q : Hash × Account) : Except Fault RentTally :=
  match rent.dueEpoch q.2.lamports q.2.data.length msPerEpoch msPerYear with
  | .exempt => .ok t
  | .paying due =>
    if due = 0 then .ok t
    else do
      let collected ← P.wrapAdd 64 t.collected.toNat (min q.2.lamports due).toNat
      return {
        batch := t.batch ++ accountWrite q.1 slot (afterRent q.2 due) (some q.2)
        collected := ofNat collected
        deltas := t.deltas ++ [(q.1, afterRent q.2 due)] }

/-- What is collected from the accounts that were read. -/
def collectRent (P : Platform) (rent : Rent) (epochSchedule : EpochSchedule) (slot : UInt64)
    (accounts : List (Hash × Account)) : Except Fault RentTally := do
  let msPerEpoch ← P.wrapMul 64 epochSchedule.slotsPerEpoch.toNat defaultSlotDurationMs.toNat
  accounts.foldlM (collectFrom P rent msPerEpoch slot) ⟨[], 0, []⟩

/-! ### Rewards -/

/-- A payment to one account; the stake accounts are those whose delegation follows. -/
structure Payment where
  account : Hash
  lamports : UInt64
  toStake : Bool
  deriving DecidableEq

/-- The payments of an entry: to the stake account, and the commission if there is one. -/
def RewardEntry.payments (e : RewardEntry) : List Payment :=
  ⟨e.stakeAccount, e.lamports, true⟩ ::
    if 0 < e.commissionLamports then [⟨e.voteAccount, e.commissionLamports, false⟩] else []

/-- The payments of all entries, in the order in which the partitions are passed over. -/
def EpochRewards.payments (o : IterOrder ℕ) (r : EpochRewards) : List Payment :=
  (entriesOf o r.partitions).flatMap RewardEntry.payments

/-- What the loop of `distribute_epoch_rewards_blocking` has gathered. -/
structure Payout where
  batch : WriteBatch := []
  delegationUpdates : List (Hash × UInt64) := []
  deltas : List (Hash × Account) := []
  totalDistributed : UInt64 := 0
  deriving DecidableEq

/-- The account after a payment. -/
def afterPayment (account : Account) (lamports : UInt64) : Account :=
  account.withLamports (saturatingAdd account.lamports lamports)

/-- The loop of `distribute_epoch_rewards_blocking`, at one payment.  The account is read from the
store, where nothing of the batch is visible. -/
def pay (P : Platform) (s : Storage) (slot : UInt64) (o : Payout) (p : Payment) :
    Except Fault Payout :=
  match s.getAccount p.account with
  | none => .ok o
  | some account => do
    let paid := afterPayment account p.lamports
    let total ← P.wrapAdd 64 o.totalDistributed.toNat p.lamports.toNat
    return {
      batch := o.batch ++ accountWrite p.account slot paid (some account)
      delegationUpdates := o.delegationUpdates ++
        if p.toStake then [(p.account, paid.lamports)] else []
      deltas := o.deltas ++ [(p.account, paid)]
      totalDistributed := ofNat total }

/-- What the bank learns after the payments are written. -/
def StakeBook.settle (b : StakeBook) (totalSupply : UInt64) (o : Payout) : StakeBook :=
  (o.delegationUpdates.foldl (fun b q => b.updateDelegationStake q.1 q.2) b).setTotalSupply
    (saturatingAdd totalSupply o.totalDistributed)

/-- `distribute_epoch_rewards_blocking`, once the rewards are calculated: the store, the bank and the
deltas after it. -/
def distributeRewards (P : Platform) (s : Storage) (b : StakeBook) (slot : UInt64)
    (payments : List Payment) : Except Fault (Storage × StakeBook × List (Hash × Account)) := do
  let o ← payments.foldlM (pay P s slot) {}
  return (s.write o.batch, b.settle b.totalSupply o, o.deltas)

/-! ### Both tasks -/

/-- What both tasks are started with, and the orders of the hash maps they pass over. -/
structure BoundaryParams where
  rent : Rent
  epochSchedule : EpochSchedule
  epoch : UInt64
  slot : UInt64
  delegationOrder : IterOrder Hash
  partitionOrder : IterOrder ℕ

/-- The payments of the epoch, as the bank has it; `none` if there is nothing to calculate. -/
def BoundaryParams.payments (p : BoundaryParams) (P : Platform) (b : StakeBook) :
    Option (List Payment) :=
  let delegations := (b.stakeDelegations.listed p.delegationOrder).map fun q =>
    (q.1, q.2.toDelegation)
  let inflation := epochInflationRewards p.epoch b.totalSupply p.epochSchedule.slotsPerEpoch
  match calculateEpochRewards P b.voteAccounts p.partitionOrder p.epoch inflation delegations with
  | .error _ => none
  | .ok rewards => some (rewards.payments p.partitionOrder)

/-- How far the rent task is. -/
inductive RentTask where
  | start
  /-- It has passed over the index and reads the accounts. -/
  | reading (todo : List (Hash × UInt64)) (accounts : List (Hash × Account))
  /-- It has written, and is about to burn what it has collected. -/
  | burning (collected : UInt64) (deltas : List (Hash × Account))
  | done (deltas : List (Hash × Account))
  deriving DecidableEq

/-- How far the reward task is. -/
inductive RewardTask where
  | start
  /-- It has read the supply and makes the payments. -/
  | paying (totalSupply : UInt64) (todo : List Payment) (o : Payout)
  /-- It has written, and is about to update the bank. -/
  | settling (totalSupply : UInt64) (o : Payout)
  | done (deltas : List (Hash × Account))
  deriving DecidableEq

/-- The store and the bank that both tasks share, and how far they are. -/
structure Boundary where
  storage : Storage
  book : StakeBook
  rent : RentTask
  reward : RewardTask
  deriving DecidableEq

/-- One of the tasks. -/
inductive Worker where
  | rent
  | reward
  deriving DecidableEq

namespace Boundary

section Steps

variable (P : Platform) (p : BoundaryParams)

/-- One access of the rent task.  A fault ends the task; the node goes on without its deltas. -/
def stepRent (b : Boundary) : Boundary :=
  match b.rent with
  | .start =>
    let partition := p.epoch.toNat % rentPartitions
    { b with rent := .reading (b.storage.partitionEntries partition rentPartitions) [] }
  | .reading (q :: todo) accounts =>
    let account := (b.storage.getAccountAtSlot q.1 q.2).map fun account => (q.1, account)
    { b with rent := .reading todo (accounts ++ account.toList) }
  | .reading [] accounts => match collectRent P p.rent p.epochSchedule p.slot accounts with
    | .error _ => { b with rent := .done [] }
    | .ok t =>
      if 0 < t.collected then
        { b with storage := b.storage.write t.batch, rent := .burning t.collected t.deltas }
      else { b with rent := .done t.deltas }
  | .burning collected deltas => { b with book := b.book.burnFees collected, rent := .done deltas }
  | .done _ => b

/-- One access of the reward task. -/
def stepReward (b : Boundary) : Boundary :=
  match b.reward with
  | .start => match p.payments P b.book with
    | none => { b with reward := .done [] }
    | some payments => { b with reward := .paying b.book.totalSupply payments {} }
  | .paying supply (q :: todo) o => match pay P b.storage p.slot o q with
    | .error _ => { b with reward := .done [] }
    | .ok o => { b with reward := .paying supply todo o }
  | .paying supply [] o =>
    { b with storage := b.storage.write o.batch, reward := .settling supply o }
  | .settling supply o => { b with book := b.book.settle supply o, reward := .done o.deltas }
  | .done _ => b

/-- One access of the worker whose turn it is. -/
def step (b : Boundary) : Worker → Boundary
  | .rent => b.stepRent P p
  | .reward => b.stepReward P p

/-- A run of both tasks; `turns` says whose access comes next. -/
def run (turns : List Worker) (storage : Storage) (book : StakeBook) : Boundary :=
  turns.foldl (step P p) ⟨storage, book, .start, .start⟩

end Steps

/-- The deltas of both tasks, once both are done. -/
def deltas? (b : Boundary) : Option (List (Hash × Account) × List (Hash × Account)) :=
  match b.rent, b.reward with
  | .done rentDeltas, .done rewardDeltas => some (rentDeltas, rewardDeltas)
  | _, _ => none

end Boundary

/-! ### The node at the boundary -/

/-- A node with what its bank keeps of stake and supply, and its detector of double votes. -/
structure RunningNode where
  node : ValidatorNode
  book : StakeBook
  detector : SlashDetector
  deriving DecidableEq

/-- `cache_leader_schedule`. -/
def ReplayStage.cacheLeaderSchedule (s : ReplayStage) (epoch : UInt64) (schedule : LeaderSchedule) :
    ReplayStage :=
  let cache := s.leaderScheduleCache.insert epoch schedule
  { s with leaderScheduleCache := cache.retain fun e _ => saturatingSub epoch 2 ≤ e }

/-- The delegation has fully cooled down. -/
def cooledDown (nextEpoch : UInt64) (d : Delegation) : Bool :=
  d.deactivationEpoch ≠ ofNat (2 ^ 64 - 1) ∧
    10000 ≤ saturatingMul (saturatingSub nextEpoch d.deactivationEpoch) defaultWarmupCooldownRateBps

/-- The delegations that have cooled down leave the bank. -/
def StakeBook.removeCooled (b : StakeBook) (nextEpoch : UInt64) : StakeBook :=
  { b with stakeDelegations := b.stakeDelegations.retain fun _ d =>
      !cooledDown nextEpoch d.toDelegation }

/-- The leaders of an epoch are computed from the stakes of the bank, and cached. -/
def scheduleLeaders (P : Platform) (genesisHash : Hash) (o : IterOrder Hash) (epoch : UInt64)
    (s : ReplayStage) : Except Fault ReplayStage := do
  let stakes := s.bank.epochStakes.listed o
  match ← computeSchedule P s.bank.epochSchedule epoch stakes genesisHash with
  | .error _ => return s
  | .ok schedule => return s.cacheLeaderSchedule epoch schedule

namespace RunningNode

variable (P : Platform) (config : ValidatorConfig) (genesisHash : Hash)

/-- The orders in which a node passes over its hash maps at a boundary. -/
structure HashOrders where
  delegations : IterOrder Hash
  partitions : IterOrder ℕ
  stakes : IterOrder Hash

/-- What the tasks of a node are started with. -/
def boundaryParams (v : RunningNode) (o : HashOrders) (epoch : UInt64) : BoundaryParams :=
  { rent := config.rent, epochSchedule := v.node.stage.bank.epochSchedule, epoch
    slot := v.node.currentSlot, delegationOrder := o.delegations, partitionOrder := o.partitions }

/-- The node after both tasks: the deltas of the rent go into the state tree first. -/
def afterTasks (v : RunningNode) (b : Boundary) (rentDeltas rewardDeltas : List (Hash × Account)) :
    RunningNode :=
  let bank := { v.node.stage.bank with storage := b.storage }
  let bank := (bank.updateStateTree P rentDeltas).updateStateTree P rewardDeltas
  { v with node := { v.node with stage := { v.node.stage with bank } }, book := b.book }

/-- `check_epoch_boundary`, with the turns of the two tasks; `none` if the turns leave one of them
unfinished.  The snapshot it may start reads the store, and the history of total stakes is read by
nothing modelled here; both are left out. -/
def checkEpochBoundary (turns : List Worker) (o : HashOrders) (v : RunningNode) :
    Except Fault (Option RunningNode) := do
  let schedule := v.node.stage.bank.epochSchedule
  let currentEpoch ← schedule.getEpoch P v.node.currentSlot
  let next ← P.wrapAdd 64 v.node.currentSlot.toNat 1
  let nextEpoch ← schedule.getEpoch P (ofNat next)
  if currentEpoch < nextEpoch then
    let b := Boundary.run P (v.boundaryParams config o currentEpoch) turns v.node.storage v.book
    match b.deltas? with
    | none => return none
    | some (rentDeltas, rewardDeltas) =>
      let v := v.afterTasks P b rentDeltas rewardDeltas
      let (bank, book) := recalculateEpochStakes nextEpoch v.node.stage.bank
        (v.book.removeCooled nextEpoch)
      let stage ← scheduleLeaders P genesisHash o.stakes nextEpoch { v.node.stage with bank }
      return some { v with node := { v.node with stage }, book }
  else return some v

end RunningNode

/-! ### What the tasks write -/

section Overlays

variable {s s' : Storage} {a : Hash} {slot : UInt64} {b b' : WriteBatch} {c c' : AccountCache}

/-- A read looks at the versions of its account. -/
theorem Storage.getAccountAtSlot_congr
    (h : ∀ t, s'.accounts.lookup (a, t) = s.accounts.lookup (a, t)) (t : UInt64) :
    s'.getAccountAtSlot a t = s.getAccountAtSlot a t := by
  have hslots : s'.versionSlots a = s.versionSlots a := by
    ext n
    simp only [mem_versionSlots, mem_iff, h]
  unfold getAccountAtSlot findLatestAccountAtOrBefore
  simp only [hslots, h]

section

variable (h : Overlays slot b c)

include h

/-- What is read after a batch: the account of the cache, or what was read before. -/
theorem Overlays.getAccount (s : Storage) (a : Hash) :
    (s.write b).getAccount a = (c.lookup a).or (s.getAccount a) := by
  unfold Storage.getAccount
  rw [h.index]
  by_cases ha : a ∈ c
  · have hversion : (s.write b).accounts.lookup (a, slot) = c.lookup a := by
      rw [h.accounts, if_pos ⟨rfl, ha⟩]
    obtain ⟨account, haccount⟩ := mem_iff.mp ha
    have hmem : (a, slot) ∈ (s.write b).accounts :=
      mem_iff.mpr ⟨account, hversion.trans haccount⟩
    rw [if_pos ha, haccount]
    exact (getAccountAtSlot_of_mem hmem).trans (hversion.trans haccount)
  · have hsame : ∀ t, (s.write b).accounts.lookup (a, t) = s.accounts.lookup (a, t) := fun t => by
      rw [h.accounts, if_neg fun hc => ha hc.2]
    rw [if_neg ha, lookup_eq_none.mpr ha, none_or]
    cases s.accountIndex.lookup a with
    | none => rfl
    | some t => exact getAccountAtSlot_congr hsame t

/-- What is read at a slot after a batch: what was read before, or the account of the cache. -/
theorem Overlays.getAccountAtSlot (s : Storage) (a : Hash) (t : UInt64) :
    (s.write b).getAccountAtSlot a t = s.getAccountAtSlot a t ∨
      a ∈ c ∧ (s.write b).getAccountAtSlot a t = c.lookup a := by
  have hlatest := isLatest_greatest (s := s) (a := a) (· ≤ t.toNat)
  generalize (greatest ((s.versionSlots a).filter (· ≤ t.toNat))).map ofNat = o at hlatest
  have hread := getAccountAtSlot_of_isLatest hlatest
  by_cases hnew : a ∈ c ∧ slot.toNat ≤ t.toNat
  · -- There is one more version to be seen.
    have hversions : {v : UInt64 | (a, v) ∈ (s.write b).accounts ∧ v.toNat ≤ t.toNat}
        = insert slot {v : UInt64 | (a, v) ∈ s.accounts ∧ v.toNat ≤ t.toNat} := by
      ext v
      simp only [Set.mem_insert_iff, Set.mem_ofPred_eq, h.mem_accounts]
      constructor
      · rintro ⟨⟨rfl, -⟩ | hv, hle⟩
        · exact .inl rfl
        · exact .inr ⟨hv, hle⟩
      · rintro (rfl | ⟨hv, hle⟩)
        · exact ⟨.inl ⟨rfl, hnew.1⟩, hnew.2⟩
        · exact ⟨.inr hv, hle⟩
    rcases hlatest.insert_cases slot with hslot | ⟨hne, hsame⟩
    · rw [← hversions] at hslot
      refine .inr ⟨hnew.1, ?_⟩
      rw [getAccountAtSlot_of_isLatest hslot, bind_some, h.accounts, if_pos ⟨rfl, hnew.1⟩]
    · rw [← hversions] at hsame
      left
      rw [getAccountAtSlot_of_isLatest hsame, hread]
      cases o with
      | none => rfl
      | some v =>
        have hv : v ≠ slot := fun heq => hne (congrArg some heq)
        rw [bind_some, bind_some, h.accounts, if_neg fun hc => hv hc.1]
  · have hversions : {v : UInt64 | (a, v) ∈ (s.write b).accounts ∧ v.toNat ≤ t.toNat}
        = {v : UInt64 | (a, v) ∈ s.accounts ∧ v.toNat ≤ t.toNat} := by
      ext v
      simp only [Set.mem_ofPred_eq, h.mem_accounts]
      constructor
      · rintro ⟨⟨rfl, ha⟩ | hv, hle⟩
        · exact absurd ⟨ha, hle⟩ hnew
        · exact ⟨hv, hle⟩
      · exact fun hv => ⟨.inr hv.1, hv.2⟩
    have hsame := hlatest
    rw [← hversions] at hsame
    left
    rw [getAccountAtSlot_of_isLatest hsame, hread]
    cases o with
    | none => rfl
    | some v =>
      have hv : ¬ (v = slot ∧ a ∈ c) := fun hc => hnew ⟨hc.2, hc.1 ▸ hlatest.1.2⟩
      rw [bind_some, bind_some, h.accounts, if_neg hv]

/-- A batch lays one cache over the store. -/
theorem Overlays.unique (h' : Overlays slot b c') : c = c' := by
  have hlookup : ∀ {c : AccountCache}, Overlays slot b c → ∀ a,
      c.lookup a = (empty.write b).accounts.lookup (a, slot) := by
    intro c h a
    rw [h.accounts]
    by_cases hc : a ∈ c
    · rw [if_pos ⟨rfl, hc⟩]
    · rw [if_neg fun h => hc h.2, lookup_eq_none.mpr hc]
      rfl
  exact ext_lookup fun a => (hlookup h a).trans (hlookup h' a).symm

/-- Two batches, one after the other: the second has the last word. -/
theorem Overlays.comp (h' : Overlays slot b' c') :
    Overlays slot (b ++ b') (c' ∪ c) where
  accounts s a t := by
    rw [write_append, h'.accounts, h.accounts]
    by_cases ht : t = slot
    · by_cases ha' : a ∈ c'
      · rw [if_pos ⟨ht, ha'⟩, if_pos ⟨ht, mem_union.mpr (.inl ha')⟩,
          lookup_union_left ha']
      · by_cases ha : a ∈ c
        · rw [if_neg fun hc => ha' hc.2, if_pos ⟨ht, ha⟩,
            if_pos ⟨ht, mem_union.mpr (.inr ha)⟩, lookup_union_right ha']
        · have hnone : ¬ (t = slot ∧ a ∈ c' ∪ c) := fun hc =>
            (mem_union.mp hc.2).elim ha' ha
          rw [if_neg fun hc => ha' hc.2, if_neg fun hc => ha hc.2, if_neg hnone]
    · simp only [ht, false_and, if_false]
  index s a := by
    rw [write_append, h'.index, h.index]
    by_cases ha' : a ∈ c'
    · rw [if_pos ha', if_pos (mem_union.mpr (.inl ha'))]
    · rw [if_neg ha']
      by_cases ha : a ∈ c
      · rw [if_pos ha, if_pos (mem_union.mpr (.inr ha))]
      · rw [if_neg ha, if_neg fun hc => (mem_union.mp hc).elim ha' ha]

end

end Overlays

section Writes

variable {P : Platform} {p : BoundaryParams} {s : Storage} {slot : UInt64}

theorem collectFrom_overlays {rent : Rent} {ms : ℕ} {t t' : RentTally} {q : Hash × Account}
    (h : collectFrom P rent ms slot t q = .ok t') (ht : ∃ c, Overlays slot t.batch c) :
    ∃ c, Overlays slot t'.batch c := by
  unfold collectFrom at h
  split at h
  · exact Except.ok.inj h ▸ ht
  split_ifs at h
  · exact Except.ok.inj h ▸ ht
  obtain ⟨n, -, h⟩ := exceptBind_eq_ok.mp h
  cases h
  obtain ⟨c, hc⟩ := ht
  exact ⟨_, hc.accountWrite _ _ _⟩

theorem collectRent_overlays {rent : Rent} {schedule : EpochSchedule} {t : RentTally}
    {accounts : List (Hash × Account)} (h : collectRent P rent schedule slot accounts = .ok t) :
    ∃ c, Overlays slot t.batch c := by
  obtain ⟨ms, -, h⟩ := exceptBind_eq_ok.mp h
  exact foldlM_keeps (I := fun t : RentTally => ∃ c, Overlays slot t.batch c)
    (fun _ _ _ _ ht hstep => collectFrom_overlays hstep ht) ⟨∅, .nil⟩ h

theorem pay_overlays {o o' : Payout} {q : Payment} (h : pay P s slot o q = .ok o')
    (ho : ∃ c, Overlays slot o.batch c) : ∃ c, Overlays slot o'.batch c := by
  unfold pay at h
  split at h
  · exact Except.ok.inj h ▸ ho
  obtain ⟨n, -, h⟩ := exceptBind_eq_ok.mp h
  cases h
  obtain ⟨c, hc⟩ := ho
  exact ⟨_, hc.accountWrite _ _ _⟩

namespace Boundary

/-- What holds of a run of both tasks over a store: it has laid accounts over the store, and so will
the batch that the reward task has gathered. -/
structure Overlaid (slot : UInt64) (s : Storage) (b : Boundary) : Prop where
  storage : ∃ batch c, b.storage = s.write batch ∧ Overlays slot batch c
  reward : ∀ supply todo o, b.reward = .paying supply todo o → ∃ c, Overlays slot o.batch c

section

variable {b : Boundary} (h : Overlaid p.slot s b)

include h

theorem Overlaid.write {batch : WriteBatch} {rent : RentTask} {reward : RewardTask}
    (hb : ∃ c, Overlays p.slot batch c)
    (hreward : ∀ supply todo o, reward = .paying supply todo o → b.reward = reward) :
    Overlaid p.slot s { b with storage := b.storage.write batch, rent, reward } := by
  obtain ⟨batch₀, c₀, hstorage, hc₀⟩ := h.storage
  obtain ⟨c, hc⟩ := hb
  refine ⟨⟨batch₀ ++ batch, c ∪ c₀, ?_, hc₀.comp hc⟩, fun supply todo o ho => ?_⟩
  · rw [write_append, ← hstorage]
  · exact h.reward supply todo o ((hreward supply todo o ho).trans ho)

theorem Overlaid.stepRent :
    Overlaid p.slot s (b.stepRent P p) := by
  unfold Boundary.stepRent
  split
  · exact ⟨h.storage, h.reward⟩
  · exact ⟨h.storage, h.reward⟩
  · split
    · exact ⟨h.storage, h.reward⟩
    · rename_i t ht
      split_ifs
      · exact h.write (collectRent_overlays ht) fun _ _ _ _ => rfl
      · exact ⟨h.storage, h.reward⟩
  · exact ⟨h.storage, h.reward⟩
  · exact h

theorem Overlaid.stepReward :
    Overlaid p.slot s (b.stepReward P p) := by
  unfold Boundary.stepReward
  split
  · split
    · exact ⟨h.storage, fun _ _ _ ho => by cases ho⟩
    · refine ⟨h.storage, fun _ _ _ ho => ?_⟩
      cases ho
      exact ⟨∅, .nil⟩
  · rename_i supply q todo o hreward
    split
    · exact ⟨h.storage, fun _ _ _ ho => by cases ho⟩
    · rename_i o' hpay
      refine ⟨h.storage, fun _ _ _ ho => ?_⟩
      cases ho
      exact pay_overlays hpay (h.reward _ _ _ hreward)
  · rename_i supply o hreward
    exact h.write (h.reward _ _ _ hreward) fun _ _ _ ho => by cases ho
  · exact ⟨h.storage, fun _ _ _ ho => by cases ho⟩
  · exact h

end

/-- **What both tasks write**, in whatever order they come: accounts, as versions of the slot. -/
theorem overlays_run (P : Platform) (p : BoundaryParams) (turns : List Worker) (s : Storage)
    (book : StakeBook) :
    ∃ batch c, (run P p turns s book).storage = s.write batch ∧ Overlays p.slot batch c := by
  have hrun : Overlaid p.slot s (run P p turns s book) := by
    refine foldlRecOn turns _ ⟨⟨[], ∅, rfl, .nil⟩, fun _ _ _ ho => by cases ho⟩ fun b hb w _ => ?_
    cases w with
    | rent => exact hb.stepRent
    | reward => exact hb.stepReward
  exact hrun.storage

theorem reward_pays {book : StakeBook} {rent : RentTask} {supply : UInt64} {todo : List Payment}
    {o o' : Payout} (h : todo.foldlM (pay P s p.slot) o = .ok o') :
    (replicate todo.length Worker.reward).foldl (step P p)
        ⟨s, book, rent, .paying supply todo o⟩ = ⟨s, book, rent, .paying supply [] o'⟩ := by
  induction todo generalizing o with
  | nil => exact Except.ok.inj h ▸ rfl
  | cons q todo ih =>
    rw [foldlM_cons] at h
    obtain ⟨o₁, hpay, h⟩ := exceptBind_eq_ok.mp h
    rw [length_cons, replicate_succ, foldl_cons, ← ih h]
    simp only [step, stepReward, hpay]

/-- A reward task that is not disturbed pays the rewards as the function does. -/
theorem reward_alone {book book' : StakeBook} {rent : RentTask} {payments : List Payment}
    {s' : Storage} {deltas : List (Hash × Account)} (hpayments : p.payments P book = some payments)
    (h : distributeRewards P s book p.slot payments = .ok (s', book', deltas)) :
    (replicate (payments.length + 3) Worker.reward).foldl (step P p)
        ⟨s, book, rent, .start⟩ = ⟨s', book', rent, .done deltas⟩ := by
  obtain ⟨o, hloop, h⟩ := exceptBind_eq_ok.mp h
  obtain ⟨rfl, hrest⟩ := Prod.mk.inj (Except.ok.inj h)
  cases hrest
  have hstart : step P p ⟨s, book, rent, .start⟩ .reward
      = ⟨s, book, rent, .paying book.totalSupply payments {}⟩ := by
    simp only [step, stepReward, hpayments]
  -- The first access, one for each payment, and two after them.
  rw [replicate_succ, foldl_cons, hstart, replicate_add, foldl_append,
    reward_pays hloop]
  rfl

end Boundary

end Writes

end Nusantara

import Mathlib.Algebra.Order.BigOperators.Group.Finset
import Nusantara.Consensus.Bank
import Nusantara.Processors.Stake
import Nusantara.Processors.Vote

/-!
# The stakes of an epoch

What the bank keeps about stake and supply (`consensus/src/{bank_stake,bank_slashing,bank_supply,
bank_vote_accounts,slashing}.rs`): the delegations, the vote states that name the validator of a
vote account, the penalties for double votes, and the supply.  The stakes of an epoch are computed
from the first three and replace those of the epoch before.

The code passes over hash maps, in an order of its own.  Sums that saturate come out the same in
every order, so the passes here are in the order of the keys.

## Main results

* `StakeBook.recalculated_eq_iff`: the penalties matter for the stakes of an epoch only by what they
  leave of the stake of each validator.
* `StakeBook.recalculateEpochStakes_exact`: the stakes and the total are the sums they stand for.
-/

namespace Nusantara

open Word List Finmap Option UInt64 Nat

/-- A delegation as the bank takes it: it does not end before it begins, and its rate is a share. -/
structure ValidDelegation extends Delegation where
  active : activationEpoch ≤ deactivationEpoch
  rate_le : warmupCooldownRateBps ≤ 10000
  deriving DecidableEq

/-- The fields of `ConsensusBank` that boot, gossip and the epoch boundary work on. -/
structure StakeBook where
  voteAccounts : Finmap fun _ : Hash => VoteState
  stakeDelegations : Finmap fun _ : Hash => ValidDelegation
  /-- What each validator has been slashed by. -/
  slashRegistry : Finmap fun _ : Hash => UInt64
  totalActiveStake : UInt64
  totalSupply : UInt64
  deriving DecidableEq

namespace StakeBook

/-- The book of a new bank. -/
def empty : StakeBook := ⟨∅, ∅, ∅, 0, 0⟩

variable (b : StakeBook)

/-! ### Delegations and vote accounts -/

/-- `ConsensusBank::set_vote_state`. -/
def setVoteState (voteAccount : Hash) (state : VoteState) : StakeBook :=
  { b with voteAccounts := b.voteAccounts.insert voteAccount state }

/-- `ConsensusBank::set_stake_delegation`. -/
def setStakeDelegation (stakeAccount : Hash) (d : Delegation) : Except String StakeBook :=
  if hactive : d.activationEpoch ≤ d.deactivationEpoch then
    if hrate : d.warmupCooldownRateBps ≤ 10000 then
      .ok { b with stakeDelegations := b.stakeDelegations.insert stakeAccount ⟨d, hactive, hrate⟩ }
    else .error s!"warmup_cooldown_rate_bps ({d.warmupCooldownRateBps}) exceeds 10_000 (100%)"
  else .error
    s!"activation_epoch ({d.activationEpoch}) > deactivation_epoch ({d.deactivationEpoch})"

/-- `ConsensusBank::update_delegation_stake`. -/
def updateDelegationStake (stakeAccount : Hash) (newStake : UInt64) : StakeBook :=
  match b.stakeDelegations.lookup stakeAccount with
  | none => b
  | some d =>
    { b with stakeDelegations := b.stakeDelegations.insert stakeAccount { d with stake := newStake } }

/-! ### Slashes and supply -/

/-- `ConsensusBank::get_slashed_amount`. -/
def getSlashedAmount (validator : Hash) : UInt64 := (b.slashRegistry.lookup validator).getD 0

/-- `ConsensusBank::apply_slash`. -/
def applySlash (validator : Hash) (amount : UInt64) : StakeBook :=
  { b with slashRegistry :=
      b.slashRegistry.insert validator (saturatingAdd (b.getSlashedAmount validator) amount) }

/-- `ConsensusBank::set_total_supply`. -/
def setTotalSupply (supply : UInt64) : StakeBook := { b with totalSupply := supply }

/-- `ConsensusBank::burn_fees`. -/
def burnFees (amount : UInt64) : StakeBook :=
  { b with totalSupply := saturatingSub b.totalSupply amount }

/-! ### The stakes of an epoch -/

/-- The stake a delegation has in an epoch; `none` if it is not active then. -/
def effectiveStake (d : Delegation) (epoch : UInt64) : Option UInt64 :=
  if epoch < d.activationEpoch ∨ d.deactivationEpoch < epoch then none
  else if d.activationEpoch = epoch then
    some (ofNat (d.stake.toNat * d.warmupCooldownRateBps.toNat / 10000))
  else if d.deactivationEpoch = epoch then
    some (ofNat (d.stake.toNat * (10000 - d.warmupCooldownRateBps.toNat) / 10000))
  else some d.stake

/-- The validator of a vote account: the node its state names, or the vote account itself if the
bank does not know its state. -/
def identityOf (voteAccount : Hash) : Hash :=
  ((b.voteAccounts.lookup voteAccount).map VoteState.nodePubkey).getD voteAccount

/-- The stakes of validators, and their sum. -/
@[ext]
structure EpochStakes where
  stakes : Finmap fun _ : Hash => UInt64
  total : UInt64
  deriving DecidableEq

/-- The first pass of `recalculate_epoch_stakes`, at one delegation. -/
def addDelegation (epoch : UInt64) (e : EpochStakes) (stakeAccount : Hash) : EpochStakes :=
  match b.stakeDelegations.lookup stakeAccount with
  | none => e
  | some d => match effectiveStake d.toDelegation epoch with
    | none => e
    | some stake =>
      let identity := b.identityOf d.voterPubkey
      let sum := saturatingAdd ((e.stakes.lookup identity).getD 0) stake
      { stakes := e.stakes.insert identity sum, total := saturatingAdd e.total stake }

/-- The stakes of an epoch before the penalties. -/
def delegated (epoch : UInt64) : EpochStakes :=
  b.stakeDelegations.keys.ascending.foldl (b.addDelegation epoch) ⟨∅, 0⟩

/-- The second pass, at one validator: the penalty is taken off. -/
def slashStake (e : EpochStakes) (validator : Hash) : EpochStakes :=
  match e.stakes.lookup validator with
  | none => e
  | some stake =>
    let slashed := b.getSlashedAmount validator
    if 0 < slashed then
      let rest := saturatingSub stake slashed
      { stakes := e.stakes.insert validator rest, total := saturatingSub e.total (stake - rest) }
    else e

/-- The stakes of an epoch. -/
def recalculated (epoch : UInt64) : EpochStakes :=
  (b.delegated epoch).stakes.keys.ascending.foldl b.slashStake (b.delegated epoch)

end StakeBook

/-- `ConsensusBank::recalculate_epoch_stakes`. -/
def recalculateEpochStakes (epoch : UInt64) (bank : ConsensusBank) (b : StakeBook) :
    ConsensusBank × StakeBook :=
  ({ bank with epochStakes := (b.recalculated epoch).stakes },
    { b with totalActiveStake := (b.recalculated epoch).total })

/-! ### Double votes -/

/-- `SlashDetector`: the first hash seen for a validator and a slot. -/
abbrev SlashDetector := Finmap fun _ : Hash × UInt64 => Hash

namespace SlashDetector

/-- `SlashDetector::check_vote`: whether the vote is a double vote, and the detector after it.  The
proof it returns is put on record; the node goes on with the validator it names. -/
def checkVote (d : SlashDetector) (validator : Hash) (slot : UInt64) (hash : Hash) :
    Bool × SlashDetector :=
  match d.lookup (validator, slot) with
  | some first => (first ≠ hash, d)
  | none => (false, d.insert (validator, slot) hash)

/-- `SlashDetector::purge_below`. -/
def purgeBelow (d : SlashDetector) (minSlot : UInt64) : SlashDetector :=
  d.retain fun k _ => minSlot ≤ k.2

end SlashDetector

/-- `SLASH_PENALTY_BPS`. -/
def slashPenaltyBps : ℕ := 500

/-- The penalty for a double vote. -/
def slashPenalty (stake : UInt64) : UInt64 := ofNat (stake.toNat * slashPenaltyBps / 10000)

/-! ### What the penalties change -/

namespace StakeBook

variable {b b' : StakeBook} {epoch : UInt64} {v : Hash}

/-- Two books have the same delegations, and know the vote accounts as those of the same
validators. -/
structure SameDelegations (b b' : StakeBook) : Prop where
  delegations : b'.stakeDelegations = b.stakeDelegations
  identities : ∀ a, b'.identityOf a = b.identityOf a

theorem SameDelegations.trans {b'' : StakeBook} (h : SameDelegations b b')
    (h' : SameDelegations b' b'') : SameDelegations b b'' :=
  ⟨h'.delegations.trans h.delegations, fun a => (h'.identities a).trans (h.identities a)⟩

theorem SameDelegations.delegated_eq (h : SameDelegations b b') (epoch : UInt64) :
    b'.delegated epoch = b.delegated epoch := by
  have hid : b'.identityOf = b.identityOf := funext h.identities
  have hadd : b'.addDelegation epoch = b.addDelegation epoch := by
    funext e a
    rw [addDelegation, addDelegation, h.delegations, hid]
  rw [delegated, delegated, hadd, h.delegations]

/-- What the penalties leave of a stake. -/
def left (b : StakeBook) (v : Hash) (stake : UInt64) : UInt64 :=
  saturatingSub stake (b.getSlashedAmount v)

/-- The second pass at a validator, told by what is left: a validator without a penalty keeps all. -/
theorem slashStake_eq (b : StakeBook) (e : EpochStakes) (v : Hash) :
    b.slashStake e v = match e.stakes.lookup v with
      | none => e
      | some stake => {
          stakes := e.stakes.insert v (b.left v stake)
          total := saturatingSub e.total (stake - b.left v stake) } := by
  unfold slashStake
  cases hstake : e.stakes.lookup v with
  | none => rfl
  | some stake =>
    dsimp only
    split_ifs with hpos
    · rfl
    · have hzero : b.getSlashedAmount v = 0 := by
        have hle := UInt64.le_iff_toNat_le.mp (UInt64.not_lt.mp hpos)
        rw [UInt64.toNat_zero] at hle
        exact UInt64.toNat_inj.mp (Nat.le_zero.mp hle)
      have hleft : b.left v stake = stake := by
        rw [left, hzero, ← UInt64.toNat_inj, toNat_saturatingSub, UInt64.toNat_zero, Nat.sub_zero]
      have htotal : saturatingSub e.total (stake - stake) = e.total := by
        rw [← UInt64.toNat_inj, toNat_saturatingSub, UInt64.sub_self, UInt64.toNat_zero,
          Nat.sub_zero]
      rw [hleft, insert_of_lookup hstake, htotal]

theorem lookup_slashStake (b : StakeBook) (e : EpochStakes) (v w : Hash) :
    (b.slashStake e v).stakes.lookup w =
      if w = v then (e.stakes.lookup w).map (b.left w) else e.stakes.lookup w := by
  rw [slashStake_eq]
  by_cases hw : w = v
  · subst hw
    rw [if_pos rfl]
    cases hstake : e.stakes.lookup w with
    | none => exact hstake
    | some stake => exact lookup_insert _
  · rw [if_neg hw]
    cases e.stakes.lookup v with
    | none => rfl
    | some stake => exact lookup_insert_of_ne _ hw

/-- A pass over a list without repetitions takes the penalty off once. -/
theorem lookup_foldl_slashStake (l : List Hash) (e : EpochStakes) (hl : l.Nodup) :
    (l.foldl b.slashStake e).stakes.lookup v =
      if v ∈ l then (e.stakes.lookup v).map (b.left v) else e.stakes.lookup v := by
  induction l generalizing e with
  | nil => simp
  | cons w l ih =>
    obtain ⟨hw, hl⟩ := nodup_cons.mp hl
    rw [foldl_cons, ih _ hl, lookup_slashStake]
    by_cases hvw : v = w
    · subst hvw
      rw [if_neg hw, if_pos rfl, if_pos mem_cons_self]
    · simp only [hvw, if_false, mem_cons, false_or]

/-- The stake of a validator after the second pass. -/
theorem lookup_recalculated (b : StakeBook) (epoch : UInt64) (v : Hash) :
    (b.recalculated epoch).stakes.lookup v
      = ((b.delegated epoch).stakes.lookup v).map (b.left v) := by
  rw [recalculated, lookup_foldl_slashStake _ _ Finset.nodup_ascending]
  split_ifs with hmem
  · rfl
  · -- A validator without stake has none afterwards.
    rw [Finset.mem_ascending, Finmap.mem_keys, ← Finmap.lookup_isSome] at hmem
    rw [not_isSome_iff_eq_none.mp hmem]
    rfl

/-- **Penalties and stakes.**  Two books with the same delegations and validators give an epoch the
same stakes and the same total exactly if their penalties leave the same of the stake of each
validator. -/
theorem recalculated_eq_iff (h : SameDelegations b b') :
    b'.recalculated epoch = b.recalculated epoch ↔
      ∀ v stake, (b.delegated epoch).stakes.lookup v = some stake →
        b'.left v stake = b.left v stake := by
  constructor
  · intro heq v stake hstake
    have hlookup := congrArg (fun e => e.stakes.lookup v) heq
    simp only [lookup_recalculated, h.delegated_eq, hstake, map_some] at hlookup
    exact some.inj hlookup
  · intro hleft
    -- Both passes do the same at a validator whose stake is still untouched.
    have hfold : ∀ (l : List Hash) (e : EpochStakes), l.Nodup →
        (∀ v ∈ l, e.stakes.lookup v = (b.delegated epoch).stakes.lookup v) →
          l.foldl b'.slashStake e = l.foldl b.slashStake e := by
      intro l
      induction l with
      | nil => exact fun _ _ _ => rfl
      | cons w l ih =>
        intro e hl he
        obtain ⟨hw, hl⟩ := nodup_cons.mp hl
        obtain ⟨hew, he⟩ := forall_mem_cons.mp he
        have hstep : b'.slashStake e w = b.slashStake e w := by
          rw [slashStake_eq, slashStake_eq]
          cases hstake : e.stakes.lookup w with
          | none => rfl
          | some stake => simp only [hleft w stake (hew ▸ hstake)]
        rw [foldl_cons, foldl_cons, hstep]
        refine ih _ hl fun v hv => ?_
        have hvw : v ≠ w := fun heq => hw (heq ▸ hv)
        rw [lookup_slashStake, if_neg hvw, he v hv]
    rw [recalculated, recalculated, h.delegated_eq]
    exact hfold _ _ Finset.nodup_ascending fun _ _ => rfl

/-- The stakes depend on delegations, validators and penalties only. -/
theorem SameDelegations.recalculated_eq (h : SameDelegations b b')
    (hpenalties : b'.slashRegistry = b.slashRegistry) (epoch : UInt64) :
    b'.recalculated epoch = b.recalculated epoch := by
  refine (recalculated_eq_iff h).mpr fun v stake _ => ?_
  rw [left, left, getSlashedAmount, getSlashedAmount, hpenalties]

/-! ### The sums of an epoch -/

/-- The validator that the delegation of a stake account is for. -/
def validatorOf (b : StakeBook) (stakeAccount : Hash) : Option Hash :=
  (b.stakeDelegations.lookup stakeAccount).map fun d => b.identityOf d.voterPubkey

/-- The effective stake of the delegation of a stake account. -/
def effectiveOf (b : StakeBook) (epoch : UInt64) (stakeAccount : Hash) : ℕ :=
  (((b.stakeDelegations.lookup stakeAccount).bind fun d =>
    effectiveStake d.toDelegation epoch).getD 0).toNat

namespace EpochStakes

/-- The stake of a validator. -/
def of (e : EpochStakes) (v : Hash) : ℕ := ((e.stakes.lookup v).getD 0).toNat

/-- The total is the sum of the stakes. -/
def Balanced (e : EpochStakes) : Prop := e.total.toNat = ∑ v ∈ e.stakes.keys, e.of v

/-- What an active delegation does to the stakes. -/
def add (e : EpochStakes) (v : Hash) (stake : UInt64) : EpochStakes where
  stakes := e.stakes.insert v (saturatingAdd ((e.stakes.lookup v).getD 0) stake)
  total := saturatingAdd e.total stake

variable {e : EpochStakes} {stake : UInt64}

theorem add_right_comm (e : EpochStakes) (v w : Hash) (x y : UInt64) :
    (e.add v x).add w y = (e.add w y).add v x := by
  have hsat : ∀ z : UInt64,
      saturatingAdd (saturatingAdd z x) y = saturatingAdd (saturatingAdd z y) x := by
    intro z
    rw [← UInt64.toNat_inj]
    simp only [saturatingAdd, toNat_saturate]
    omega
  refine EpochStakes.ext ?_ (hsat _)
  by_cases hvw : v = w
  · subst hvw
    simp only [add, lookup_insert, getD_some, insert_insert, hsat]
  · simp only [add, lookup_insert_of_ne _ hvw, lookup_insert_of_ne _ (Ne.symm hvw),
      insert_insert_of_ne _ hvw]

theorem of_eq_zero (h : v ∉ e.stakes.keys) : e.of v = 0 := by
  rw [Finmap.mem_keys, ← Finmap.lookup_eq_none] at h
  rw [of, h]
  rfl

/-- The sum of the stakes when that of `v` becomes `c`. -/
theorem sum_of_insert (e : EpochStakes) (v : Hash) (c total : UInt64) :
    ∑ w ∈ (e.stakes.insert v c).keys, EpochStakes.of ⟨e.stakes.insert v c, total⟩ w + e.of v
      = ∑ w ∈ e.stakes.keys, e.of w + c.toNat := by
  have hkeys : (e.stakes.insert v c).keys = insert v e.stakes.keys := by
    ext w
    simp [Finmap.mem_keys, Finmap.mem_insert]
  have hsum : ∑ w ∈ e.stakes.keys, e.of w = ∑ w ∈ insert v e.stakes.keys, e.of w :=
    (Finset.sum_insert_of_eq_zero_if_notMem fun hv => of_eq_zero hv).symm
  have hrest : ∑ w ∈ (insert v e.stakes.keys).erase v, EpochStakes.of ⟨e.stakes.insert v c, total⟩ w
      = ∑ w ∈ (insert v e.stakes.keys).erase v, e.of w := by
    refine Finset.sum_congr rfl fun w hw => ?_
    rw [of, Finmap.lookup_insert_of_ne _ (Finset.ne_of_mem_erase hw), of]
  have hof : EpochStakes.of ⟨e.stakes.insert v c, total⟩ v = c.toNat := by
    rw [of, Finmap.lookup_insert, getD_some]
  have hv := Finset.mem_insert_self v e.stakes.keys
  have hbefore : e.of v + ∑ w ∈ (insert v e.stakes.keys).erase v, e.of w
      = ∑ w ∈ insert v e.stakes.keys, e.of w := Finset.add_sum_erase _ _ hv
  rw [hsum, hkeys, ← Finset.add_sum_erase _ _ hv, hrest, hof]
  omega

theorem Balanced.of_le (h : e.Balanced) (v : Hash) : e.of v ≤ e.total.toNat := by
  by_cases hv : v ∈ e.stakes.keys
  · exact h ▸ Finset.single_le_sum (f := e.of) (fun _ _ => zero_le _) hv
  · rw [of_eq_zero hv]
    exact zero_le _

/-- Delegations whose sum is a word are added without loss. -/
theorem Balanced.add (h : e.Balanced) (v : Hash) (hlt : e.total.toNat + stake.toNat < 2 ^ 64) :
    (e.add v stake).Balanced ∧ (e.add v stake).total.toNat = e.total.toNat + stake.toNat ∧
      ∀ w, (e.add v stake).of w = e.of w + if v = w then stake.toNat else 0 := by
  have hle := h.of_le v
  have htotal : (e.add v stake).total.toNat = e.total.toNat + stake.toNat := by
    simp only [EpochStakes.add, saturatingAdd, toNat_saturate]
    omega
  have hof : (saturatingAdd ((e.stakes.lookup v).getD 0) stake).toNat = e.of v + stake.toNat := by
    simp only [saturatingAdd, toNat_saturate]
    rw [of] at hle ⊢
    omega
  refine ⟨?_, htotal, fun w => ?_⟩
  · have hsum := sum_of_insert e v (saturatingAdd ((e.stakes.lookup v).getD 0) stake)
      (saturatingAdd e.total stake)
    rw [Balanced] at h
    rw [Balanced, htotal]
    simp only [EpochStakes.add]
    omega
  · by_cases hw : v = w
    · subst hw
      rw [if_pos rfl, ← hof, of, EpochStakes.add, lookup_insert, getD_some]
    · rw [if_neg hw, of, EpochStakes.add, lookup_insert_of_ne _ (Ne.symm hw), of, add_zero]

end EpochStakes

/-- A delegation that is not active adds nothing, whatever the stakes are. -/
theorem addDelegation_cases (b : StakeBook) (epoch : UInt64) (a : Hash) :
    (b.effectiveOf epoch a = 0 ∧ ∀ e, b.addDelegation epoch e a = e) ∨
      ∃ v stake, b.validatorOf a = some v ∧ b.effectiveOf epoch a = stake.toNat ∧
        ∀ e, b.addDelegation epoch e a = e.add v stake := by
  cases hd : b.stakeDelegations.lookup a with
  | none => exact .inl (by simp [effectiveOf, addDelegation, hd])
  | some d =>
    cases hstake : effectiveStake d.toDelegation epoch with
    | none => exact .inl (by simp [effectiveOf, addDelegation, hd, hstake])
    | some stake =>
      refine .inr ⟨b.identityOf d.voterPubkey, stake, ?_⟩
      simp [validatorOf, effectiveOf, addDelegation, EpochStakes.add, hd, hstake]

/-- The first pass over some of the delegations. -/
theorem foldl_addDelegation (b : StakeBook) (epoch : UInt64) (l : List Hash)
    (hsum : (l.map (b.effectiveOf epoch)).sum < 2 ^ 64) :
    (l.foldl (b.addDelegation epoch) ⟨∅, 0⟩).Balanced ∧
      (l.foldl (b.addDelegation epoch) ⟨∅, 0⟩).total.toNat = (l.map (b.effectiveOf epoch)).sum ∧
      ∀ v, (l.foldl (b.addDelegation epoch) ⟨∅, 0⟩).of v
        = (l.map fun a => if b.validatorOf a = some v then b.effectiveOf epoch a else 0).sum := by
  induction l using reverseRecOn with
  | nil => exact ⟨rfl, rfl, fun v => rfl⟩
  | append_singleton l a ih =>
    simp only [map_append, map_singleton, sum_append, sum_singleton] at hsum ⊢
    obtain ⟨hbalanced, htotal, hof⟩ := ih (by omega)
    rw [foldl_append, foldl_cons, foldl_nil]
    obtain ⟨hzero, hadd⟩ | ⟨v, stake, hv, hstake, hadd⟩ := b.addDelegation_cases epoch a
    · simpa [hadd, hzero] using ⟨hbalanced, htotal, hof⟩
    · obtain ⟨hbalanced', htotal', hof'⟩ := hbalanced.add v (hstake ▸ htotal ▸ hsum)
      rw [hadd, hv, hstake]
      refine ⟨hbalanced', by omega, fun w => ?_⟩
      rw [hof', hof]
      simp only [some.injEq]

theorem addDelegation_comm (e : EpochStakes) (a a' : Hash) :
    b.addDelegation epoch (b.addDelegation epoch e a) a'
      = b.addDelegation epoch (b.addDelegation epoch e a') a := by
  obtain ⟨-, hadd⟩ | ⟨v, stake, -, -, hadd⟩ := b.addDelegation_cases epoch a
  · rw [hadd, hadd]
  obtain ⟨-, hadd'⟩ | ⟨v', stake', -, -, hadd'⟩ := b.addDelegation_cases epoch a'
  · rw [hadd', hadd']
  · rw [hadd, hadd', hadd', hadd, EpochStakes.add_right_comm]

theorem left_le (b : StakeBook) (v : Hash) (stake : UInt64) : b.left v stake ≤ stake := by
  rw [le_iff_toNat_le, left, toNat_saturatingSub]
  exact sub_le _ _

/-- The second pass keeps the total the sum of the stakes. -/
theorem balanced_foldl_slashStake (l : List Hash) {e : EpochStakes} (h : e.Balanced) :
    (l.foldl b.slashStake e).Balanced := by
  refine foldlRecOn l b.slashStake h fun e he v _ => ?_
  rw [slashStake_eq]
  cases hstake : e.stakes.lookup v with
  | none => exact he
  | some stake =>
    have hle := he.of_le v
    have hsum := EpochStakes.sum_of_insert e v (b.left v stake)
      (saturatingSub e.total (stake - b.left v stake))
    have hleft := b.left_le v stake
    have hof : e.of v = stake.toNat := by rw [EpochStakes.of, hstake, getD_some]
    rw [EpochStakes.Balanced] at he
    rw [EpochStakes.Balanced, toNat_saturatingSub, UInt64.toNat_sub_of_le _ _ hleft]
    have hleft' := UInt64.le_iff_toNat_le.mp hleft
    dsimp only
    omega

/-- **Epoch stakes.**  As long as the effective stakes of all delegations add up to a word, the stake
of each validator is what its delegations have, less the penalty, and the total is the sum of the
stakes; nothing is taken from less, and neither pass depends on the order of its map. -/
theorem recalculateEpochStakes_exact (bank : ConsensusBank) (b : StakeBook) (epoch : UInt64)
    (hsum : ∑ a ∈ b.stakeDelegations.keys, b.effectiveOf epoch a < 2 ^ 64) :
    let after := recalculateEpochStakes epoch bank b
    (∀ v, ((after.1.epochStakes.lookup v).getD 0).toNat
        = (∑ a ∈ b.stakeDelegations.keys with b.validatorOf a = some v, b.effectiveOf epoch a)
          - (b.getSlashedAmount v).toNat) ∧
      after.2.totalActiveStake.toNat
        = ∑ v ∈ after.1.epochStakes.keys, ((after.1.epochStakes.lookup v).getD 0).toNat ∧
      (∀ a d, b.stakeDelegations.lookup a = some d → d.warmupCooldownRateBps ≤ 10000) ∧
      (∀ v stake, b.left v stake ≤ stake) ∧
      ∀ accounts validators : List Hash, accounts.Perm b.stakeDelegations.keys.ascending →
        validators.Perm (b.delegated epoch).stakes.keys.ascending →
          validators.foldl b.slashStake (accounts.foldl (b.addDelegation epoch) ⟨∅, 0⟩)
            = ⟨after.1.epochStakes, after.2.totalActiveStake⟩ := by
  have hlist : ∀ f : Hash → ℕ, (b.stakeDelegations.keys.ascending.map f).sum
      = ∑ a ∈ b.stakeDelegations.keys, f a := by
    intro f
    rw [← sum_toFinset f Finset.nodup_ascending]
    congr 1
    ext a
    simp
  obtain ⟨hbalanced, -, hof⟩ := b.foldl_addDelegation epoch _ (hlist _ ▸ hsum)
  have hbalanced' : (b.recalculated epoch).Balanced := balanced_foldl_slashStake _ hbalanced
  refine ⟨fun v => ?_, hbalanced', fun a d _ => d.rate_le, b.left_le,
    fun accounts validators ha hv => ?_⟩
  · have hstake := hof v
    rw [hlist, ← Finset.sum_filter] at hstake
    rw [← hstake]
    show (((b.recalculated epoch).stakes.lookup v).getD 0).toNat = (b.delegated epoch).of v - _
    rw [lookup_recalculated, EpochStakes.of]
    cases (b.delegated epoch).stakes.lookup v with
    | none => simp
    | some stake => exact toNat_saturatingSub _ _
  · rw [ha.foldl_eq' fun x _ y _ e => addDelegation_comm e x y]
    -- Balanced totals of the same stakes are the same.
    have hsame : (validators.foldl b.slashStake (b.delegated epoch)).stakes
        = (b.recalculated epoch).stakes := by
      refine ext_lookup fun v => ?_
      rw [recalculated, lookup_foldl_slashStake _ _ Finset.nodup_ascending,
        lookup_foldl_slashStake _ _ (hv.nodup_iff.mpr Finset.nodup_ascending)]
      simp only [hv.mem_iff]
    refine EpochStakes.ext hsame (UInt64.toNat_inj.mp ?_)
    have htotal := balanced_foldl_slashStake (b := b) validators hbalanced
    rw [EpochStakes.Balanced, ← delegated] at htotal
    rw [← delegated, htotal]
    refine .trans ?_ hbalanced'.symm
    simp only [EpochStakes.of, hsame]

/-- A validator with a delegation of 1000 lamports and a penalty of 300. -/
theorem recalculateEpochStakes_penalty : ∃ (b : StakeBook) (v : Hash), ∀ bank,
    (((recalculateEpochStakes 5 bank b).1.epochStakes.lookup v).getD 0).toNat = 700 := by
  let v := Hash.repeated 1
  let b : StakeBook := { StakeBook.empty with
    stakeDelegations := singleton v ⟨⟨v, 1000, 0, 10, 2500⟩, by decide, by decide⟩
    slashRegistry := singleton v 300 }
  refine ⟨b, v, fun bank => ?_⟩
  have hstake := (recalculateEpochStakes_exact bank b 5 (by decide +kernel)).1 v
  exact hstake.trans (by decide +kernel)

end StakeBook

end Nusantara

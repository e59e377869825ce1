import Mathlib.Algebra.Order.Field.Rat
import Mathlib.Data.Rat.Cast.Order
import Mathlib.Tactic.FieldSimp
import Mathlib.Tactic.Linarith
import Nusantara.Consensus.Rewards

/-!
# What the rewards of an epoch come to

The value of a point is truncated to a millionth of a lamport, and the reward of a delegation to a
lamport.  A point is usually worth far less than a millionth, so the first truncation may cost a
delegation any number of lamports.

## Main results

* `proportional_iff`: the two truncations together cost a delegation less than a lamport.
* `totalRewards_of_calculate`: the rewards of an epoch come to its inflation.
-/

namespace Nusantara

open Word List UInt64 Nat Hash

/-- What a calculation starts from. -/
structure RewardInput where
  voteMap : Finmap fun _ : Hash => VoteState
  epoch : UInt64
  inflation : UInt64
  delegations : List (Hash × Delegation)

/-- What an entry gives out. -/
def RewardEntry.total (e : RewardEntry) : ℕ := e.lamports.toNat + e.commissionLamports.toNat

namespace RewardInput

section Definitions

variable (x : RewardInput)

/-- The calculation. -/
def calculate (P : Platform) (o : IterOrder ℕ) : Except RewardsError EpochRewards :=
  calculateEpochRewards P x.voteMap o x.epoch x.inflation x.delegations

/-- The points of a delegation. -/
def points (q : Hash × Delegation) : ℕ := delegationPoints x.voteMap x.epoch q.2

/-- The points of all delegations. -/
def totalPoints : ℕ := sumPoints (x.delegations.map x.points)

/-- The value of a point in millionths of a lamport. -/
def pointValue : ℕ := x.inflation.toNat * 1000000 / x.totalPoints

/-- What the points of a delegation are worth, in whole lamports. -/
def earned (q : Hash × Delegation) : ℕ := x.points q * x.pointValue / 1000000

/-- The entry of a delegation before the remainder is added. -/
def entry (q : Hash × Delegation) : Option RewardEntry :=
  rewardEntry x.voteMap x.pointValue q.1 q.2 (x.points q)

/-- What a delegation gets before the remainder is added: nothing if it has no entry. -/
def share (q : Hash × Delegation) : ℕ := ((x.entry q).map RewardEntry.total).getD 0

end Definitions

variable {P : Platform} {x : RewardInput} {o : IterOrder ℕ} {r : EpochRewards}
  {q : Hash × Delegation}

/-! ### The entries of the delegations -/

theorem sumPoints_eq (points : List ℕ) : sumPoints points = min points.sum (2 ^ 128 - 1) := by
  have hfold : ∀ n, points.foldl (fun total p => min (total + p) (2 ^ 128 - 1))
      (min n (2 ^ 128 - 1)) = min (n + points.sum) (2 ^ 128 - 1) := by
    induction points with
    | nil => simp
    | cons p points ih =>
      intro n
      rw [foldl_cons, sum_cons, ← add_assoc, ← ih (n + p)]
      congr 1
      omega
  simpa [sumPoints] using hfold 0

theorem points_le_totalPoints (hq : q ∈ x.delegations) : x.points q ≤ x.totalPoints := by
  rw [totalPoints, sumPoints_eq, le_min_iff]
  constructor
  · exact single_le_sum (fun _ _ => Nat.zero_le _) _ (mem_map_of_mem hq)
  · have hmul := Nat.mul_le_mul
      (Nat.le_sub_one_of_lt (getEpochCredits x.voteMap x.epoch q.2.voterPubkey).toNat_lt)
      (Nat.le_sub_one_of_lt q.2.stake.toNat_lt)
    exact hmul.trans (by norm_num)

/-- A reward is within the inflation, so that it is a word. -/
theorem earned_lt (hq : q ∈ x.delegations) : x.earned q < 2 ^ 64 := by
  have hvalue : x.points q * x.pointValue ≤ x.inflation.toNat * 1000000 :=
    (Nat.mul_le_mul_right _ (points_le_totalPoints hq)).trans (Nat.mul_div_le _ _)
  rw [Nat.mul_comm x.inflation.toNat] at hvalue
  exact (Nat.div_le_of_le_mul hvalue).trans_lt x.inflation.toNat_lt

/-- The two parts of an entry are what is earned, and there is none if nothing is. -/
theorem share_eq (hq : q ∈ x.delegations) : x.share q = x.earned q := by
  have hsmall := earned_lt hq
  have hword : (ofNat (x.earned q)).toNat = x.earned q := toNat_ofNat_of_lt' hsmall
  unfold share entry rewardEntry
  rw [← earned]
  dsimp only
  split_ifs with hnone
  · rcases hnone with hzero | hzero
    · rw [earned, hzero, Nat.zero_mul, Nat.zero_div]
      rfl
    · rw [← hword, hzero]
      rfl
  · rw [Option.map_some, Option.getD_some, RewardEntry.total, toNat_saturatingSub, hword]
    set commission :=
      ((x.voteMap.lookup q.2.voterPubkey).map fun vs => min vs.commission 100).getD 0
    have hcommission : commission ≤ 100 := by
      cases hvs : x.voteMap.lookup q.2.voterPubkey with
      | none => simp [commission, hvs]
      | some vs =>
        rw [show commission = if vs.commission ≤ 100 then vs.commission else 100 by
          simp only [commission, hvs]; rfl]
        split_ifs with hle
        · exact hle
        · exact UInt8.le_refl _
    -- The commission is a share of the reward, so it is a word as well.
    have hshare : x.earned q * commission.toNat / 100 ≤ x.earned q := by
      refine Nat.div_le_of_le_mul ?_
      rw [Nat.mul_comm]
      exact Nat.mul_le_mul_right _ (UInt8.le_iff_toNat_le.mp hcommission)
    rw [toNat_ofNat_of_lt' (hshare.trans_lt hsmall)]
    omega

theorem totalPoints_of_calculate (h : x.calculate P o = .ok r) :
    0 < x.totalPoints ∧ r.totalPoints = x.totalPoints := by
  unfold calculate calculateEpochRewards at h
  dsimp only at h
  split_ifs at h with hnone hpoints
  all_goals cases h
  all_goals exact ⟨pos_of_ne_zero hpoints, rfl⟩

namespace Sample

/-- A vote account. -/
def voter : Hash := repeated 1

/-- The vote account takes a tenth, and has earned credits in epoch 0. -/
def voteState : VoteState :=
  { VoteState.new ⟨voter, voter, voter, 10⟩ with epochCredits := [⟨0, 10, 0⟩] }

/-- A delegation to it. -/
def delegation : Delegation := ⟨voter, 1000, 0, ofNat (2 ^ 64 - 1), 2500⟩

/-- The keys of the hash maps come in ascending order. -/
def order : IterOrder ℕ := ⟨id, fun l => .refl l⟩

/-- Two equal delegations. -/
def equal (inflation : UInt64) : RewardInput :=
  ⟨Finmap.singleton voter voteState, 0, inflation,
    [(repeated 2, delegation), (repeated 3, delegation)]⟩

/-- One delegation of a thousand million lamports. -/
def large : RewardInput :=
  ⟨Finmap.singleton voter voteState, 0, 1000,
    [(repeated 2, { delegation with stake := 1000000000 })]⟩

end Sample

/-! ### Proportionality -/

/-- What the two truncations take off the exact share. -/
theorem mul_eq_add_truncations (inflation points total : ℕ) :
    1000000 * (inflation * points)
      = 1000000 * (total * (points * (inflation * 1000000 / total) / 1000000))
        + (points * (inflation * 1000000 % total)
          + total * (points * (inflation * 1000000 / total) % 1000000)) := by
  have hvalue := div_add_mod (inflation * 1000000) total
  have hreward := div_add_mod (points * (inflation * 1000000 / total)) 1000000
  calc 1000000 * (inflation * points)
      = points * (inflation * 1000000) := by ring
    _ = points * (total * (inflation * 1000000 / total) + inflation * 1000000 % total) := by
      rw [hvalue]
    _ = total * (points * (inflation * 1000000 / total))
        + points * (inflation * 1000000 % total) := by ring
    _ = total * (1000000 * (points * (inflation * 1000000 / total) / 1000000)
          + points * (inflation * 1000000 / total) % 1000000)
        + points * (inflation * 1000000 % total) := by rw [hreward]
    _ = _ := by ring

/-- Every delegation gets, before the remainder, its part of the inflation up to less than a
lamport. -/
def Proportional (x : RewardInput) (r : EpochRewards) : Prop :=
  ∀ q ∈ x.delegations,
    |(x.share q : ℚ) - x.inflation.toNat * x.points q / r.totalPoints| < 1

/-- **Proportional rewards.**  What each delegation gets before the remainder is within a lamport of
its part exactly if, for each of them, the truncation of the value of a point and the truncation of
the reward together come to less than a lamport. -/
theorem proportional_iff (h : x.calculate P o = .ok r) :
    x.Proportional r ↔ ∀ q ∈ x.delegations,
      x.points q * (x.inflation.toNat * 1000000 % r.totalPoints)
          + r.totalPoints * (x.points q * (x.inflation.toNat * 1000000 / r.totalPoints) % 1000000)
        < 1000000 * r.totalPoints := by
  obtain ⟨hpos, htotal⟩ := totalPoints_of_calculate h
  refine forall₂_congr fun q hq => ?_
  rw [share_eq hq, earned, pointValue, htotal]
  have hexact := mul_eq_add_truncations x.inflation.toNat (x.points q) x.totalPoints
  set share := x.points q * (x.inflation.toNat * 1000000 / x.totalPoints) / 1000000
  -- The share is rounded down, so the distance is the exact part less what is given.
  have hle : x.totalPoints * share ≤ x.inflation.toNat * x.points q := by omega
  have hposQ : (0 : ℚ) < x.totalPoints := cast_pos.mpr hpos
  have hleQ : (share : ℚ) ≤ x.inflation.toNat * x.points q / x.totalPoints := by
    rw [le_div_iff₀ hposQ, mul_comm]
    exact_mod_cast hle
  rw [abs_of_nonpos (sub_nonpos.mpr hleQ), neg_sub, sub_lt_iff_lt_add, div_lt_iff₀ hposQ]
  have hnat : ((x.inflation.toNat : ℚ) * x.points q < (1 + share) * x.totalPoints) ↔
      x.inflation.toNat * x.points q < (1 + share) * x.totalPoints := by exact_mod_cast Iff.rfl
  rw [hnat, show (1 + share) * x.totalPoints = x.totalPoints + x.totalPoints * share by ring]
  omega

open Sample in
/-- A point is worth less than a millionth of a lamport: the only delegation is due all 1000 lamports,
and gets none before the remainder. -/
theorem large_delegation_earns_nothing :
    ∃ r, large.calculate (Platform.sample false) order = .ok r ∧ ¬large.Proportional r := by
  obtain ⟨r, hr, htotal, hinflation, q, hq, hshare, hpoints⟩ :
      ∃ r, large.calculate .release order = .ok r ∧
      r.totalPoints = 10000000000 ∧ large.inflation.toNat = 1000 ∧
      ∃ q ∈ large.delegations, large.share q = 0 ∧ large.points q = 10000000000 := by
    decide +kernel
  refine ⟨r, hr, fun hall => ?_⟩
  have hone := hall q hq
  rw [hshare, hpoints, htotal, hinflation] at hone
  norm_num at hone

open Sample in
/-- Two delegations of a thousand lamports get their halves of 1000 lamports. -/
theorem equal_delegations_get_halves :
    ∃ r, (equal 1000).calculate (Platform.sample false) order = .ok r ∧
      (equal 1000).Proportional r := by
  obtain ⟨r, hr, hless⟩ :
      ∃ r, (equal 1000).calculate .release order = .ok r ∧
      ∀ q ∈ (equal 1000).delegations,
        (equal 1000).points q * ((equal 1000).inflation.toNat * 1000000 % r.totalPoints)
            + r.totalPoints * ((equal 1000).points q
              * ((equal 1000).inflation.toNat * 1000000 / r.totalPoints) % 1000000)
          < 1000000 * r.totalPoints := by decide +kernel
  exact ⟨r, hr, (proportional_iff hr).mpr hless⟩

/-! ### The sum of the rewards -/

/-- Before the remainder, the delegations get no more than the inflation. -/
theorem sum_earned_le (hfits : (x.delegations.map x.points).sum < 2 ^ 128) :
    (x.delegations.map x.earned).sum ≤ x.inflation.toNat := by
  have htotal : x.totalPoints = (x.delegations.map x.points).sum := by
    rw [totalPoints, sumPoints_eq]
    omega
  have hle : ∀ l : List (Hash × Delegation),
      (l.map x.earned).sum * 1000000 ≤ (l.map x.points).sum * x.pointValue := by
    intro l
    induction l with
    | nil => simp
    | cons q l ih =>
      simp only [map_cons, sum_cons, Nat.add_mul]
      exact Nat.add_le_add (Nat.div_mul_le_self _ _) ih
  have hvalue : x.totalPoints * x.pointValue ≤ x.inflation.toNat * 1000000 := Nat.mul_div_le _ _
  have hall := (hle x.delegations).trans (htotal ▸ hvalue)
  omega

theorem distributedBy_entries {l : List (Hash × Delegation)} (hl : ∀ q ∈ l, q ∈ x.delegations) :
    distributedBy (l.filterMap x.entry) = saturate (l.map x.earned).sum := by
  have hfold : ∀ n, (l.filterMap x.entry).foldl
      (fun total e => saturatingAdd total (e.lamports + e.commissionLamports)) (saturate n)
      = saturate (n + (l.map x.earned).sum) := by
    induction l with
    | nil => simp
    | cons q l ih =>
      intro n
      have hshare := share_eq (hl q mem_cons_self)
      have ih := ih fun q' hq' => hl q' (mem_cons_of_mem q hq')
      rw [map_cons, sum_cons, ← add_assoc, ← ih, ← hshare, share]
      cases hentry : x.entry q with
      | none => rw [filterMap_cons_none hentry]; rfl
      | some e =>
        have hsmall : e.lamports.toNat + e.commissionLamports.toNat < 2 ^ 64 := by
          simpa [← hshare, share, hentry, RewardEntry.total] using earned_lt (hl q mem_cons_self)
        rw [filterMap_cons_some hentry, foldl_cons, saturatingAdd_saturate, UInt64.toNat_add,
          mod_eq_of_lt hsmall]
        rfl
  exact (hfold 0).trans (congrArg saturate (Nat.zero_add _))

/-- **All or nothing.**  With fewer than 2¹²⁸ points in all, a calculation that succeeds gives out the
whole inflation of the epoch, or nothing if no delegation has an entry. -/
theorem totalRewards_of_calculate (h : x.calculate P o = .ok r)
    (hfits : (x.delegations.map x.points).sum < 2 ^ 128) :
    r.totalRewardsLamports
      = if ∃ q ∈ x.delegations, (x.entry q).isSome then x.inflation else 0 := by
  have hle := sum_earned_le hfits
  have hinflation := x.inflation.toNat_lt
  unfold calculate calculateEpochRewards at h
  dsimp only at h
  generalize hl : rewardEntries _ _ _ _ = entries at h
  have hentries : x.delegations.filterMap x.entry = entries := hl
  have hsum : (distributedBy entries).toNat = (x.delegations.map x.earned).sum := by
    rw [← hentries, distributedBy_entries fun _ hq => hq, toNat_saturate]
    omega
  have hrest := toNat_saturatingSub x.inflation (distributedBy entries)
  have hsome : (∃ q ∈ x.delegations, (x.entry q).isSome) ↔ entries ≠ [] := by
    simp [← hentries, filterMap_eq_nil_iff, Option.isSome_iff_ne_none]
  simp only [hsome]
  split_ifs at h with hnone hpoints hgiven
  · cases h
    rw [if_pos hgiven.2, ← UInt64.toNat_inj, saturatingAdd, toNat_saturate]
    omega
  · cases h
    split_ifs with hne
    · have hzero : ¬0 < saturatingSub x.inflation (distributedBy entries) := fun h => hgiven ⟨h, hne⟩
      rw [UInt64.lt_iff_toNat_lt, UInt64.toNat_zero] at hzero
      exact UInt64.toNat_inj.mp (hsum.trans (by omega))
    · exact congrArg distributedBy (not_not.mp hne)

open Sample in
/-- Two delegations of a thousand lamports get all of 1000 lamports. -/
theorem equal_delegations_get_all : ∃ r, (equal 1000).calculate (Platform.sample false) order = .ok r ∧
    r.totalRewardsLamports = (equal 1000).inflation := by
  obtain ⟨r, hr, hfits, hsome⟩ : ∃ r, (equal 1000).calculate .release order = .ok r ∧
      ((equal 1000).delegations.map (equal 1000).points).sum < 2 ^ 128 ∧
        ∃ q ∈ (equal 1000).delegations, ((equal 1000).entry q).isSome := by decide +kernel
  exact ⟨r, hr, (totalRewards_of_calculate hr hfits).trans (if_pos hsome)⟩

end RewardInput

end Nusantara

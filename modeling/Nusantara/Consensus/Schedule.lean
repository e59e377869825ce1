import Nusantara.Consensus.Replay

/-!
# Leader schedules

`LeaderScheduleGenerator::compute_schedule` (`consensus/src/leader_schedule.rs`): the leaders of an
epoch are drawn with the chances of their stakes, from a chain of hashes that starts at the seed.  A
value that would favour some validators is rejected and the chain goes on.  Nothing bounds the loop
that rejects; one that comes back to a hash it has seen never ends.

The stakes are sorted by identity before the draw, because they come from a hash map that is passed
over in an order of its own.

## Main results

* `computeSchedule_ok`: the leaders are the owners of the points that are drawn.
* `computeSchedule_perm`: the order of the stakes does not matter.
-/

namespace Nusantara

open Borsh Exec List UInt64 Nat Word

/-- `NUM_CONSECUTIVE_LEADER_SLOTS`. -/
def numConsecutiveLeaderSlots : ℕ := 4

/-- Why there is no schedule. -/
inductive ScheduleError where
  | noValidatorsWithStake (epoch : UInt64)
  | stakeOverflow (epoch : UInt64)
  deriving DecidableEq

/-- The number a hash stands for: its first eight bytes. -/
def rngValue (state : Hash) : ℕ := ofLe (state.asBytes.take 8)

section Functions

variable (P : Platform)

/-- The loop that rejects values from `maxUnbiased` on.  It visits one hash with each unit of fuel. -/
def rejectBiased (maxUnbiased : ℕ) : ℕ → Hash → Except Fault Hash
  | 0, _ => .error .endlessLoop
  | fuel + 1, state =>
    if rngValue state < maxUnbiased then .ok state
    else rejectBiased maxUnbiased fuel (P.hash (state.asBytes ++ leBytes 8 (rngValue state)))

/-- The first validator at which the sum of the stakes passes the target. -/
def selectFrom (target : ℕ) : ℕ → List (Hash × UInt64) → Option Hash
  | _, [] => none
  | cumulative, (validator, stake) :: rest =>
    if target < cumulative + stake.toNat then some validator
    else selectFrom target (cumulative + stake.toNat) rest

/-- `pick_validator`: the validator, and the state of the generator.  There are `2 ^ 512` hashes, so
with as much fuel the loop ends or never does. -/
def pickValidator (activeStakes : List (Hash × UInt64)) (totalStake : UInt64) (rngState : Hash) :
    Except Fault (Hash × Hash) := do
  let maxUnbiased := (2 ^ 64 - 1) / totalStake.toNat * totalStake.toNat
  let rngState ← rejectBiased P maxUnbiased (2 ^ 512) rngState
  let first := (activeStakes.map Prod.fst).headD Hash.zero
  let target := rngValue rngState % totalStake.toNat
  return ((selectFrom target 0 activeStakes).getD first, rngState)

/-- One assignment: `count` slots in a row get the same leader. -/
def assign (activeStakes : List (Hash × UInt64)) (totalStake : UInt64) (count : ℕ)
    (s : Hash × List Hash) (assignment : ℕ) : Except Fault (Hash × List Hash) := do
  let rngState := P.hash (s.1.asBytes ++ leBytes 8 assignment)
  let (selected, rngState) ← pickValidator P activeStakes totalStake rngState
  return (rngState, s.2 ++ replicate count selected)

/-- The validators that have stake, in the order of their identities. -/
def activeStakes (stakes : List (Hash × UInt64)) : List (Hash × UInt64) :=
  (stakes.filter fun q => 0 < q.2).insertionSort fun a b => a.1 ≤ b.1

/-- The slots that are left after whole assignments get one more leader. -/
def assignRest (activeStakes : List (Hash × UInt64)) (totalStake : UInt64) (remainder : ℕ)
    (s : Hash × List Hash) (assignments : ℕ) : Except Fault (Hash × List Hash) :=
  if 0 < remainder then assign P activeStakes totalStake remainder s assignments else .ok s

/-- The leaders of the slots of an epoch. -/
def drawLeaders (slotsInEpoch : ℕ) (active : List (Hash × UInt64)) (totalStake : UInt64)
    (seed : Hash) : Except Fault (List Hash) := do
  let assignments := slotsInEpoch / numConsecutiveLeaderSlots
  let s ← (range assignments).foldlM
    (assign P active totalStake numConsecutiveLeaderSlots) (seed, [])
  let remainder := slotsInEpoch - assignments * numConsecutiveLeaderSlots
  let s ← assignRest P active totalStake remainder s assignments
  return s.2

/-- `LeaderScheduleGenerator::compute_schedule`. -/
def computeSchedule (epochSchedule : EpochSchedule) (epoch : UInt64)
    (stakes : List (Hash × UInt64)) (epochSeed : Hash) :
    Except Fault (Except ScheduleError LeaderSchedule) :=
  let active := activeStakes stakes
  if active = [] then .ok (.error (.noValidatorsWithStake epoch))
  else match active.foldlM (fun total q => checkedAdd total q.2) 0 with
    | none => .ok (.error (.stakeOverflow epoch))
    | some totalStake => do
      let seed := P.hash (epochSeed.asBytes ++ leBytes 8 epoch.toNat)
      let slotLeaders ← drawLeaders P epochSchedule.slotsPerEpoch.toNat active totalStake seed
      return .ok { epoch, slotLeaders }

end Functions

/-! ### The owner of a point -/

variable {P : Platform} {stakes stakes' active : List (Hash × UInt64)} {totalStake : UInt64}
  {v : Hash} {seed : Hash}

/-- The stake of the identities up to one, with it or without it. -/
def stakeUpTo (stakes : List (Hash × UInt64)) (v : Hash) : ℕ :=
  (stakes.map fun q => if q.1 ≤ v then q.2.toNat else 0).sum

@[inherit_doc stakeUpTo]
def stakeBelow (stakes : List (Hash × UInt64)) (v : Hash) : ℕ :=
  (stakes.map fun q => if q.1 < v then q.2.toNat else 0).sum

/-- The stakes laid end to end in the order of the identities: the point is on that of `v`. -/
def OwnsPoint (stakes : List (Hash × UInt64)) (v : Hash) (point : ℕ) : Prop :=
  stakeBelow stakes v ≤ point ∧ point < stakeUpTo stakes v

variable {w : Hash} {point : ℕ}

theorem stakeUpTo_le_stakeBelow (h : v < w) :
    stakeUpTo stakes v ≤ stakeBelow stakes w := by
  refine sum_le_sum fun q _ => ?_
  split_ifs with hle hlt
  · exact le_refl _
  · exact absurd (hle.trans_lt h) hlt
  all_goals exact zero_le _

theorem OwnsPoint.unique (h : OwnsPoint stakes v point)
    (h' : OwnsPoint stakes w point) : v = w := by
  rcases lt_trichotomy v w with hlt | heq | hlt
  · exact absurd h.2 (not_lt.mpr ((stakeUpTo_le_stakeBelow hlt).trans h'.1))
  · exact heq
  · exact absurd h'.2 (not_lt.mpr ((stakeUpTo_le_stakeBelow hlt).trans h.1))

theorem OwnsPoint.has_stake (h : OwnsPoint stakes v point) :
    ∃ stake, (v, stake) ∈ stakes ∧ 0 < stake := by
  by_contra hnone
  refine absurd (h.1.trans_lt h.2) (not_lt.mpr (sum_le_sum fun q hq => ?_))
  split_ifs with hle hlt
  · exact le_refl _
  · -- An entry for `v` itself has no stake.
    obtain rfl := le_antisymm hle (not_lt.mp hlt)
    have hzero := not_lt.mp fun hpos => hnone ⟨q.2, hq, hpos⟩
    exact le_iff_toNat_le.mp hzero
  all_goals exact zero_le _

/-- The loop over the stakes finds the owner of the target. -/
theorem selectFrom_ownsPoint {target cumulative : ℕ} (hsorted : active.Pairwise (·.1 ≤ ·.1))
    (hstart : cumulative ≤ target)
    (htarget : target < cumulative + (active.map fun q => q.2.toNat).sum) :
    ∃ v ∈ active.map Prod.fst, selectFrom target cumulative active = some v ∧
      cumulative + stakeBelow active v ≤ target ∧ target < cumulative + stakeUpTo active v := by
  induction active generalizing cumulative with
  | nil => exact absurd htarget (by simpa using hstart)
  | cons q rest ih =>
    obtain ⟨w, stake⟩ := q
    obtain ⟨hfirst, hrest⟩ := pairwise_cons.mp hsorted
    simp only [selectFrom, stakeBelow, stakeUpTo, map_cons, sum_cons] at htarget ⊢
    split_ifs with hlt
    · have hnone : (rest.map fun q => if q.1 < w then q.2.toNat else 0).sum = 0 :=
        sum_eq_zero fun n hn => by
          obtain ⟨q, hq, rfl⟩ := mem_map.mp hn
          exact if_neg (not_lt.mpr (hfirst q hq))
      refine ⟨w, mem_cons_self, rfl, ?_, ?_⟩
      · rwa [hnone, if_neg (lt_irrefl w)]
      · rw [if_pos le_rfl]
        omega
    · obtain ⟨v, hv, hselect, hbelow, hup⟩ := ih hrest (not_lt.mp hlt) (by omega)
      obtain ⟨q, hq, rfl⟩ := mem_map.mp hv
      simp only [stakeBelow, stakeUpTo] at hbelow hup
      refine ⟨q.1, mem_cons_of_mem _ hv, hselect, ?_, ?_⟩
      · split_ifs <;> omega
      · rw [if_pos (hfirst q hq)]
        omega

/-! ### The active stakes -/

/-- Entries without stake count nowhere, and the order does not matter. -/
theorem sum_activeStakes {f : Hash × UInt64 → ℕ} (hf : ∀ q, q.2.toNat = 0 → f q = 0) :
    ((activeStakes stakes).map f).sum = (stakes.map f).sum := by
  rw [activeStakes, ((perm_insertionSort _ _).map f).sum_eq]
  induction stakes with
  | nil => rfl
  | cons q stakes ih =>
    rw [filter_cons, map_cons, sum_cons, ← ih]
    split_ifs with hq
    · rw [map_cons, sum_cons]
    · have hle := le_iff_toNat_le.mp (not_lt.mp fun hpos => hq (decide_eq_true hpos))
      rw [hf q (le_zero.mp hle), zero_add]

theorem ownsPoint_activeStakes :
    OwnsPoint (activeStakes stakes) v point ↔ OwnsPoint stakes v point := by
  unfold OwnsPoint stakeBelow stakeUpTo
  rw [sum_activeStakes, sum_activeStakes]
  all_goals
    intro q hq
    rw [hq, ite_self]

theorem foldlM_checkedAdd {total : UInt64} :
    active.foldlM (fun total q => checkedAdd total q.2) total = some totalStake ↔
      totalStake.toNat = total.toNat + (active.map fun q => q.2.toNat).sum := by
  induction active generalizing total with
  | nil =>
    simp only [foldlM_nil, map_nil, sum_nil, add_zero]
    exact ⟨fun h => by cases h; rfl, fun h => congrArg some (UInt64.toNat_inj.mp h.symm)⟩
  | cons q active ih =>
    have hlt := totalStake.toNat_lt
    rw [foldlM_cons, map_cons, sum_cons]
    cases hadd : checkedAdd total q.2 with
    | none =>
      have hover : 2 ^ 64 ≤ total.toNat + q.2.toNat := by simpa [checkedAdd] using hadd
      exact iff_of_false (by simp) (by omega)
    | some sum =>
      rw [Option.bind_eq_bind, Option.bind_some, ih, toNat_of_checkedAdd hadd]
      omega

theorem total_of_activeStakes (hne : activeStakes stakes ≠ [])
    (h : (activeStakes stakes).foldlM (fun total q => checkedAdd total q.2) 0 = some totalStake) :
    totalStake.toNat = (stakes.map fun q => q.2.toNat).sum ∧ 0 < totalStake.toNat := by
  have hsum := foldlM_checkedAdd.mp h
  rw [UInt64.toNat_zero, zero_add] at hsum
  refine ⟨hsum.trans (sum_activeStakes fun _ hq => hq), ?_⟩
  obtain ⟨q, hq⟩ := exists_mem_of_ne_nil _ hne
  rw [activeStakes, mem_insertionSort, mem_filter, decide_eq_true_iff,
    UInt64.lt_iff_toNat_lt, UInt64.toNat_zero] at hq
  rw [hsum, sum_activeStakes fun _ hq => hq]
  exact hq.2.trans_le (single_le_sum (fun _ _ => zero_le _) _
    (mem_map_of_mem (f := fun q : Hash × UInt64 => q.2.toNat) hq.1))

section Draws

variable (htotal : totalStake.toNat = (stakes.map fun q => q.2.toNat).sum)
  (hpos : 0 < totalStake.toNat)
include htotal hpos

theorem selectFrom_activeStakes (rng : Hash) :
    ∃ w, selectFrom (rngValue rng % totalStake.toNat) 0 (activeStakes stakes) = some w ∧
      OwnsPoint stakes w (rngValue rng % totalStake.toNat) := by
  have hsorted : (activeStakes stakes).Pairwise (·.1 ≤ ·.1) := pairwise_insertionSort _ _
  have htarget : rngValue rng % totalStake.toNat
      < 0 + ((activeStakes stakes).map fun q => q.2.toNat).sum := by
    rw [zero_add, sum_activeStakes fun _ hq => hq, ← htotal]
    exact mod_lt _ hpos
  obtain ⟨w, -, hselect, hbelow, hup⟩ := selectFrom_ownsPoint hsorted (zero_le _) htarget
  rw [zero_add] at hbelow hup
  exact ⟨w, hselect, ownsPoint_activeStakes.mp ⟨hbelow, hup⟩⟩

/-- A draw finds the owner of its point. -/
theorem ownsPoint_of_pickValidator {rng rng' : Hash}
    (h : pickValidator P (activeStakes stakes) totalStake rng = .ok (v, rng')) :
    rejectBiased P ((2 ^ 64 - 1) / totalStake.toNat * totalStake.toNat) (2 ^ 512) rng = .ok rng' ∧
      OwnsPoint stakes v (rngValue rng' % totalStake.toNat) := by
  obtain ⟨rng₁, hreject, h⟩ := exceptBind_eq_ok.mp h
  obtain ⟨w, hselect, howns⟩ := selectFrom_activeStakes htotal hpos rng₁
  dsimp only at h
  rw [hselect] at h
  cases h
  exact ⟨hreject, howns⟩

/-- A point has one owner, so the draw is the same for the stakes in another order, also where an
identity has several entries. -/
theorem pickValidator_perm (hperm : stakes.Perm stakes') (rng : Hash) :
    pickValidator P (activeStakes stakes) totalStake rng
      = pickValidator P (activeStakes stakes') totalStake rng := by
  have htotal' := htotal.trans (hperm.map _).sum_eq
  unfold pickValidator
  refine bind_congr fun rng' => ?_
  obtain ⟨w, hselect, howns⟩ := selectFrom_activeStakes htotal hpos rng'
  obtain ⟨w', hselect', howns'⟩ := selectFrom_activeStakes htotal' hpos rng'
  have hsame : OwnsPoint stakes w' (rngValue rng' % totalStake.toNat) := by
    unfold OwnsPoint stakeBelow stakeUpTo
    rw [(hperm.map _).sum_eq, (hperm.map _).sum_eq]
    exact howns'
  dsimp only
  rw [hselect, hselect', howns.unique hsame]
  rfl

/-! ### The leaders of a schedule -/

/-- The states of the generator: a hash with the number of the draw, and as many more as it takes
to find one that is not rejected. -/
def drawState (P : Platform) (totalStake : ℕ) (seed : Hash) : ℕ → Except Fault Hash
  | 0 => .ok seed
  | i + 1 => do
    let rng ← drawState P totalStake seed i
    rejectBiased P ((2 ^ 64 - 1) / totalStake * totalStake) (2 ^ 512)
      (P.hash (rng.asBytes ++ leBytes 8 i))

/-- The leaders of the slots so far are the owners of the points drawn, one for each run of slots. -/
structure Drawn (P : Platform) (stakes : List (Hash × UInt64)) (totalStake : ℕ) (seed : Hash)
    (draws : ℕ) (s : Hash × List Hash) : Prop where
  state : drawState P totalStake seed draws = .ok s.1
  leader : ∀ i v, s.2[i]? = some v → ∃ rng,
    drawState P totalStake seed (i / numConsecutiveLeaderSlots + 1) = .ok rng ∧
      OwnsPoint stakes v (rngValue rng % totalStake)

/-- **The step lemma.**  One more draw, for a run of slots or what is left of one. -/
theorem Drawn.assign {draws count : ℕ} {s s' : Hash × List Hash}
    (hs : Drawn P stakes totalStake.toNat seed draws s)
    (hlength : s.2.length = draws * numConsecutiveLeaderSlots)
    (hcount : count ≤ numConsecutiveLeaderSlots)
    (h : Nusantara.assign P (activeStakes stakes) totalStake count s draws = .ok s') :
    Drawn P stakes totalStake.toNat seed (draws + 1) s' ∧ s'.2.length = s.2.length + count := by
  obtain ⟨⟨selected, rng⟩, hpick, h⟩ := exceptBind_eq_ok.mp h
  cases h
  obtain ⟨hreject, howns⟩ := ownsPoint_of_pickValidator htotal hpos hpick
  have hstate : drawState P totalStake.toNat seed (draws + 1) = .ok rng :=
    exceptBind_eq_ok.mpr ⟨s.1, hs.state, hreject⟩
  refine ⟨⟨hstate, fun i v hi => ?_⟩, by simp⟩
  rcases lt_or_ge i s.2.length with hlt | hge
  · exact hs.leader i v (getElem?_append_left hlt ▸ hi)
  · rw [getElem?_append_right hge, getElem?_replicate] at hi
    split_ifs at hi with hsmall
    cases hi
    have hrun : i / numConsecutiveLeaderSlots = draws := by
      unfold numConsecutiveLeaderSlots at *
      omega
    exact ⟨rng, hrun ▸ hstate, howns⟩

/-- **The run lemma.**  The leaders of an epoch. -/
theorem drawn_of_drawLeaders {slots : ℕ} {leaders : List Hash}
    (h : drawLeaders P slots (activeStakes stakes) totalStake seed = .ok leaders) :
    leaders.length = slots ∧ ∃ draws rng,
      Drawn P stakes totalStake.toNat seed draws (rng, leaders) := by
  simp only [drawLeaders, exceptBind_eq_ok] at h
  obtain ⟨s₁, hfold, s₂, hlast, h⟩ := h
  cases h
  have hall : ∀ n s, (range n).foldlM (Nusantara.assign P (activeStakes stakes) totalStake
      numConsecutiveLeaderSlots) (seed, []) = .ok s →
      Drawn P stakes totalStake.toNat seed n s ∧ s.2.length = n * numConsecutiveLeaderSlots := by
    intro n
    induction n with
    | zero =>
      intro s h
      cases h
      exact ⟨⟨rfl, fun i v hi => by simp at hi⟩, by simp⟩
    | succ n ih =>
      intro s h
      rw [range_succ, foldlM_append] at h
      obtain ⟨s', hfirst, h⟩ := exceptBind_eq_ok.mp h
      rw [foldlM_cons] at h
      obtain ⟨s'', hstep, h⟩ := exceptBind_eq_ok.mp h
      cases h
      obtain ⟨hdrawn, hlength⟩ := ih s' hfirst
      obtain ⟨hdrawn', hlength'⟩ := hdrawn.assign htotal hpos hlength le_rfl hstep
      exact ⟨hdrawn', by rw [hlength', hlength, succ_mul]⟩
  obtain ⟨hdrawn, hlength⟩ := hall _ s₁ hfold
  unfold assignRest at hlast
  split_ifs at hlast with hrest
  · have hcount : slots - slots / numConsecutiveLeaderSlots * numConsecutiveLeaderSlots
        ≤ numConsecutiveLeaderSlots := by
      unfold numConsecutiveLeaderSlots
      omega
    obtain ⟨hdrawn', hlength'⟩ := hdrawn.assign htotal hpos hlength hcount hlast
    exact ⟨by omega, _, _, hdrawn'⟩
  · cases hlast
    have hle := div_mul_le_self slots numConsecutiveLeaderSlots
    exact ⟨by omega, _, _, hdrawn⟩

end Draws

variable {epochSchedule : EpochSchedule} {epoch : UInt64} {schedule : LeaderSchedule}

/-- **The order of the stakes** does not matter for the schedule. -/
theorem computeSchedule_perm (hperm : stakes.Perm stakes') :
    computeSchedule P epochSchedule epoch stakes seed
      = computeSchedule P epochSchedule epoch stakes' seed := by
  have hactive : (activeStakes stakes).Perm (activeStakes stakes') :=
    (perm_insertionSort _ _).trans ((hperm.filter _).trans (perm_insertionSort _ _).symm)
  have hsum : (activeStakes stakes).foldlM (fun total q => checkedAdd total q.2) 0
      = (activeStakes stakes').foldlM (fun total q => checkedAdd total q.2) 0 := by
    ext total
    rw [foldlM_checkedAdd, foldlM_checkedAdd, (hactive.map _).sum_eq]
  have hempty : activeStakes stakes = [] ↔ activeStakes stakes' = [] := by
    rw [← length_eq_zero_iff, hactive.length_eq, length_eq_zero_iff]
  unfold computeSchedule
  dsimp only
  by_cases hne : activeStakes stakes = []
  · rw [if_pos hne, if_pos (hempty.mp hne)]
  · rw [if_neg hne, if_neg (hempty.not.mp hne), ← hsum]
    cases htotal : (activeStakes stakes).foldlM (fun total q => checkedAdd total q.2) 0 with
    | none => rfl
    | some totalStake =>
      obtain ⟨htotal, hpos⟩ := total_of_activeStakes hne htotal
      have hassign : ∀ count, assign P (activeStakes stakes) totalStake count
          = assign P (activeStakes stakes') totalStake count := by
        intro count
        funext s i
        rw [assign, pickValidator_perm htotal hpos hperm]
        rfl
      simp only [drawLeaders, assignRest, hassign]

/-- **Leader schedules.**  A schedule has a leader for each slot of the epoch.  The leader of a run of
slots is the owner of the point that is drawn for the run, so it has stake and is the same for the
whole run; and stakes in another order give the same schedule. -/
theorem computeSchedule_ok
    (h : computeSchedule P epochSchedule epoch stakes seed = .ok (.ok schedule)) :
    schedule.slotLeaders.length = epochSchedule.slotsPerEpoch.toNat ∧
      (∀ v ∈ schedule.slotLeaders, ∃ stake, (v, stake) ∈ stakes ∧ 0 < stake) ∧
      (∀ i j v w, schedule.slotLeaders[i]? = some v → schedule.slotLeaders[j]? = some w →
        i / numConsecutiveLeaderSlots = j / numConsecutiveLeaderSlots → v = w) ∧
      (∀ i v, schedule.slotLeaders[i]? = some v → ∃ rng,
        drawState P (stakes.map fun q => q.2.toNat).sum
          (P.hash (seed.asBytes ++ leBytes 8 epoch.toNat)) (i / numConsecutiveLeaderSlots + 1)
            = .ok rng ∧
          OwnsPoint stakes v (rngValue rng % (stakes.map fun q => q.2.toNat).sum)) ∧
      ∀ stakes' : List (Hash × UInt64), stakes'.Perm stakes →
        computeSchedule P epochSchedule epoch stakes' seed = .ok (.ok schedule) := by
  have hperm : ∀ stakes' : List (Hash × UInt64), stakes'.Perm stakes →
      computeSchedule P epochSchedule epoch stakes' seed = .ok (.ok schedule) :=
    fun _ hperm => (computeSchedule_perm hperm).trans h
  unfold computeSchedule at h
  dsimp only at h
  split_ifs at h with hne
  · cases h
  split at h
  · cases h
  rename_i totalStake htotal
  obtain ⟨htotal, hpos⟩ := total_of_activeStakes hne htotal
  obtain ⟨leaders, hdraw, h⟩ := exceptBind_eq_ok.mp h
  cases h
  obtain ⟨hlength, draws, rng, hdrawn⟩ := drawn_of_drawLeaders htotal hpos hdraw
  have hleader := hdrawn.leader
  rw [htotal] at hleader
  refine ⟨hlength, fun v hv => ?_, fun i j v w hi hj hrun => ?_, hleader, hperm⟩
  · obtain ⟨i, hi⟩ := mem_iff_getElem?.mp hv
    obtain ⟨_, -, howns⟩ := hleader i v hi
    exact howns.has_stake
  · obtain ⟨rng, hrng, howns⟩ := hleader i v hi
    obtain ⟨rng', hrng', howns'⟩ := hleader j w hj
    rw [hrun] at hrng
    cases hrng.symm.trans hrng'
    exact howns.unique howns'

/-- Two validators, one of them with two entries, and an epoch that ends within a run. -/
theorem schedule_of_two_validators :
    ∃ schedule, computeSchedule (Platform.sample false) ⟨6, 0, false, 0, 0⟩ 0
        [(Hash.repeated 2, 5), (Hash.repeated 1, 3), (Hash.repeated 2, 4)] Hash.zero
          = .ok (.ok schedule) ∧ schedule.slotLeaders.length = 6 := by
  obtain ⟨_, hok, schedule, rfl, -⟩ : ∃ r, computeSchedule .release
      ⟨6, 0, false, 0, 0⟩ 0 [(Hash.repeated 2, 5), (Hash.repeated 1, 3), (Hash.repeated 2, 4)]
        Hash.zero = .ok r ∧ ∃ schedule, r = .ok schedule ∧ True := by decide +kernel
  exact ⟨schedule, hok, (computeSchedule_ok hok).1⟩

end Nusantara

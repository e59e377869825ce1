import Nusantara.Consensus.ForkTree
import Nusantara.Processors.Vote

/-!
# The tower

The lockouts a validator keeps on its own votes (`consensus/src/tower.rs`).  A vote is accepted if
it is above the root and above every vote that is still locked out at its slot; the votes that are
no longer locked out are dropped, the others gain a confirmation, and those at the bottom with
`MAX_LOCKOUT_HISTORY` confirmations become roots.

## Main results

* `Tower.processVote_eq_ok`, `Tower.processVote_eq_err`: a vote is accepted exactly if `Accepts`
  holds, and an accepted vote changes the tower.
-/

namespace Nusantara

open Exec List UInt64

/-- `Lockout::lockout`. -/
def Lockout.lockout (l : Lockout) : UInt64 := ofNat (2 ^ min l.confirmationCount.toNat 63)

/-- `Lockout::is_locked_out_at_slot`. -/
def Lockout.isLockedOutAtSlot (l : Lockout) (slot : UInt64) : Bool :=
  slot ≤ Word.saturatingAdd l.slot l.lockout

theorem isLockedOutAtSlot_self (l : Lockout) : l.isLockedOutAtSlot l.slot = true := by
  have hsat : l.slot.toNat ≤ (Word.saturatingAdd l.slot l.lockout).toNat := by
    have hlt := l.slot.toNat_lt
    have hmin : min (l.slot.toNat + l.lockout.toNat) (2 ^ 64 - 1) < 2 ^ 64 := by omega
    rw [Word.saturatingAdd, Word.saturate, toNat_ofNat_of_lt' hmin]
    omega
  simpa [Lockout.isLockedOutAtSlot] using le_iff_toNat_le.mpr hsat

/-- `Tower`. -/
structure Tower where
  voteState : VoteState
  deriving DecidableEq

/-- `TowerVoteResult`. -/
structure TowerVoteResult where
  /-- The slots that became roots, the oldest first. -/
  newRootSlots : List UInt64
  expiredLockouts : List Lockout
  deriving DecidableEq

namespace Tower

/-- `MAX_LOCKOUT_HISTORY` of the tower. -/
def maxLockoutHistory : UInt32 := 31

variable (P : Platform) (t : Tower)

/-- `Tower::root_slot`. -/
def rootSlot : Option UInt64 := t.voteState.rootSlot

/-- `Tower::check_vote_lockout`. -/
def checkVoteLockout (slot : UInt64) : Except ConsensusError Unit :=
  match t.voteState.votes.find? fun l => l.isLockedOutAtSlot slot && slot ≤ l.slot with
  | some l => .error (.lockoutViolation slot l.slot)
  | none => .ok ()

/-- The check against the root. -/
def checkVoteAge (slot : UInt64) : Except ConsensusError Unit :=
  match t.rootSlot with
  | some root => if slot ≤ root then .error (.voteTooOld slot root) else .ok ()
  | none => .ok ()

/-- What an accepted vote makes of the tower. -/
def pushVote (slot : UInt64) : Except Fault (TowerVoteResult × Tower) := do
  let locked := t.voteState.votes.filter fun l => l.isLockedOutAtSlot slot
  let expired := t.voteState.votes.filter fun l => !l.isLockedOutAtSlot slot
  let confirmed ← locked.mapM (VoteProgram.confirm P)
  let votes := confirmed ++ [{ slot, confirmationCount := 1 }]
  let rooted := (votes.takeWhile fun l => maxLockoutHistory ≤ l.confirmationCount).map Lockout.slot
  return ({ newRootSlots := rooted, expiredLockouts := expired },
    { voteState := { t.voteState with
        votes := votes.dropWhile fun l => maxLockoutHistory ≤ l.confirmationCount
        rootSlot := rooted.getLast?.or t.voteState.rootSlot } })

/-- `Tower::process_vote`. -/
def processVote (vote : Vote) : Exec Fault Tower ConsensusError TowerVoteResult := do
  let slot ← ofOption .emptyVoteSlots vote.slots.getLast?
  let t ← get
  ofExcept (t.checkVoteAge slot)
  ofExcept (t.checkVoteLockout slot)
  let (result, t) ← ofFault (t.pushVote P slot)
  set t
  return result

/-- `SWITCH_THRESHOLD_PERCENTAGE`. -/
def switchThresholdPercentage : UInt64 := 38

/-- `Tower::check_switch_threshold`, for the one stake it is called with.  The share is computed in
`u128` and cut to `u64`. -/
def checkSwitchThreshold (alternativeStake totalStake : UInt64) : Bool :=
  totalStake ≠ 0 ∧
    switchThresholdPercentage ≤ ofNat (alternativeStake.toNat * 100 / totalStake.toNat)

/-- The vote is above the root and above every vote locked out at its slot. -/
def Accepts (vote : Vote) : Prop :=
  ∃ slot, vote.slots.getLast? = some slot ∧ (∀ root, t.rootSlot = some root → root < slot) ∧
    ∀ l ∈ t.voteState.votes, l.isLockedOutAtSlot slot = true → l.slot < slot

variable {P t} {t' : Tower} {vote : Vote} {slot : UInt64} {result : TowerVoteResult}
  {e : ConsensusError}

theorem checkVoteAge_eq_ok :
    t.checkVoteAge slot = .ok () ↔ ∀ root, t.rootSlot = some root → root < slot := by
  unfold checkVoteAge
  cases t.rootSlot with
  | none => simp
  | some root => simp

theorem checkVoteLockout_eq_ok :
    t.checkVoteLockout slot = .ok () ↔
      ∀ l ∈ t.voteState.votes, l.isLockedOutAtSlot slot = true → l.slot < slot := by
  unfold checkVoteLockout
  split
  case h_1 l hl =>
    simp only [reduceCtorEq, false_iff, not_forall, not_lt]
    have hbad := find?_some hl
    simp only [Bool.and_eq_true, decide_eq_true_eq] at hbad
    exact ⟨l, mem_of_find?_eq_some hl, hbad.1, hbad.2⟩
  case h_2 hnone =>
    simp only [true_iff]
    intro l hl hlocked
    have hgood := find?_eq_none.mp hnone l hl
    simpa [hlocked] using hgood

/-- The last vote of the tower after a vote is that vote, with one confirmation. -/
theorem pushVote_getLast? (h : t.pushVote P slot = .ok (result, t')) :
    t'.voteState.votes.getLast? = some { slot, confirmationCount := 1 } := by
  simp only [pushVote, exceptBind_eq_ok] at h
  obtain ⟨confirmed, -, h⟩ := h
  obtain ⟨-, rfl⟩ := Prod.mk.inj (Except.ok.inj h)
  -- One confirmation is not enough to become a root, so the new vote is never taken away.
  rw [dropWhile_append]
  split_ifs <;> simp [maxLockoutHistory]

theorem processVote_of_accepts (h : t.Accepts vote) :
    ∃ slot, vote.slots.getLast? = some slot ∧
      (processVote P vote).run t = match t.pushVote P slot with
        | .ok (result, t') => .ok result t'
        | .error f => .fault f := by
  obtain ⟨slot, hslot, hage, hlock⟩ := h
  refine ⟨slot, hslot, ?_⟩
  simp only [processVote, hslot, run_bind, run_get, run_ofOption_some, run_ofExcept_ok,
    checkVoteAge_eq_ok.mpr hage, checkVoteLockout_eq_ok.mpr hlock]
  cases t.pushVote P slot <;> rfl

theorem processVote_of_not_accepts (h : ¬ t.Accepts vote) :
    ∃ e, (processVote P vote).run t = .err e t := by
  simp only [processVote, run_bind, run_get]
  cases hslot : vote.slots.getLast? with
  | none => exact ⟨_, rfl⟩
  | some slot =>
    cases hage : t.checkVoteAge slot with
    | error e => exact ⟨e, by simp only [run_ofOption_some, hage, run_ofExcept_error]⟩
    | ok =>
      cases hlock : t.checkVoteLockout slot with
      | error e =>
        exact ⟨e, by simp only [run_ofOption_some, hage, hlock, run_ofExcept_ok,
          run_ofExcept_error]⟩
      | ok =>
        exact absurd ⟨slot, hslot, checkVoteAge_eq_ok.mp hage, checkVoteLockout_eq_ok.mp hlock⟩ h

/-- **An accepted vote** meets the rules and changes the tower. -/
theorem processVote_eq_ok (h : (processVote P vote).run t = .ok result t') :
    t.Accepts vote ∧ t' ≠ t := by
  by_cases hacc : t.Accepts vote
  · refine ⟨hacc, ?_⟩
    obtain ⟨slot, hslot, hrun⟩ := processVote_of_accepts (P := P) hacc
    rw [hrun] at h
    split at h
    case h_2 => simp at h
    case h_1 r t₁ hpush =>
      cases h
      rintro rfl
      -- The vote would already be the last one of the tower, and locked out at its own slot.
      have hmem := mem_of_getLast? (pushVote_getLast? hpush)
      obtain ⟨slot', hslot', -, hlock⟩ := hacc
      cases hslot.symm.trans hslot'
      have hlt := hlock _ hmem (isLockedOutAtSlot_self _)
      exact lt_irrefl _ hlt
  · obtain ⟨e, hrun⟩ := processVote_of_not_accepts (P := P) hacc
    simp [hrun] at h

/-- A rejected vote breaks a rule and leaves the tower alone. -/
theorem processVote_eq_err (h : (processVote P vote).run t = .err e t') :
    ¬ t.Accepts vote ∧ t' = t := by
  by_cases hacc : t.Accepts vote
  · obtain ⟨slot, -, hrun⟩ := processVote_of_accepts (P := P) hacc
    rw [hrun] at h
    split at h <;> simp at h
  · obtain ⟨e', hrun⟩ := processVote_of_not_accepts (P := P) hacc
    rw [hrun] at h
    exact ⟨hacc, (Outcome.err.inj h).2.symm⟩

end Tower

end Nusantara

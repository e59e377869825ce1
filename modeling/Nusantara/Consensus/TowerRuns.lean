import Nusantara.Consensus.TowerAgreement
import Mathlib.Order.Interval.Finset.Nat

/-!
# The tower over a run of votes

A vote drops the votes whose lockout is over, wherever they stand in the tower, confirms the others
once more and goes on top of them (`consensus/src/tower.rs`).  So the votes of a tower stay ordered:
the slots go up, the confirmations go down to one, and only the vote at the bottom can have become a
root.

## Main results

* `Tower.InOrder.processVote_above`, `Tower.processVote_of_not_above`: the votes that are accepted.
* `Tower.InOrder.push`: what an accepted vote makes of an ordered tower.
* `tower_keeps_order`: the tower after any run of votes, and what it makes of the next one.
-/

namespace Nusantara

open Exec VoteProgram List Option UInt64 Nat Lockout UInt32

namespace Tower

/-- The slot is above the root and above every vote that is held. -/
def Above (t : Tower) (slot : UInt64) : Prop :=
  (∀ root, t.rootSlot = some root → root < slot) ∧ ∀ l ∈ t.voteState.votes, l.slot < slot

/-- The votes are above the root, their slots go up, and their confirmations go down from less than
makes a root to one. -/
structure InOrder (t : Tower) : Prop where
  ascending : t.voteState.votes.Pairwise fun l l' => l.slot < l'.slot
  descending : t.voteState.votes.Pairwise fun l l' => l'.confirmationCount < l.confirmationCount
  newest : ∀ l, t.voteState.votes.getLast? = some l → l.confirmationCount = 1
  counts : ∀ l ∈ t.voteState.votes, 1 ≤ l.confirmationCount ∧ l.confirmationCount < maxLockoutHistory
  aboveRoot : ∀ root, t.rootSlot = some root → ∀ l ∈ t.voteState.votes, root < l.slot

/-- The root of `t'` is the root of `t` or above it. -/
def RootKept (t t' : Tower) : Prop :=
  ∀ root, t.rootSlot = some root → ∃ root', t'.rootSlot = some root' ∧ root ≤ root'

/-- A vote is offered to the tower, which takes it or rejects it. -/
def Offered (P : Platform) (t : Tower) (vote : Vote) (t' : Tower) : Prop :=
  (∃ result, (processVote P vote).run t = .ok result t') ∨
    ∃ e, (processVote P vote).run t = .err e t'

variable {P : Platform} {t t' : Tower} {vote : Vote} {slot : UInt64}

/-! ### The votes that are accepted -/

variable {l : Lockout} {votes : List Lockout}

theorem isLockedOutAtSlot_of_le (h : slot ≤ l.slot) :
    l.isLockedOutAtSlot slot = true := by
  have hself := isLockedOutAtSlot_self l
  rw [isLockedOutAtSlot, decide_eq_true_eq] at hself ⊢
  exact le_trans h hself

/-- A slot that is not above a vote is within its lockout, so only the order matters. -/
theorem accepts_iff :
    t.Accepts vote ↔ ∃ slot, vote.slots.getLast? = some slot ∧ t.Above slot := by
  have hlocked : ∀ slot, (∀ l ∈ t.voteState.votes, l.isLockedOutAtSlot slot = true → l.slot < slot) ↔
      ∀ l ∈ t.voteState.votes, l.slot < slot := by
    refine fun slot => ⟨fun h l hl => ?_, fun h l hl _ => h l hl⟩
    by_contra hlt
    exact hlt (h l hl (isLockedOutAtSlot_of_le (not_lt.mp hlt)))
  simp only [Accepts, Above, hlocked]

/-! ### The confirmations -/

/-- The vote with one more confirmation. -/
def confirmed (l : Lockout) : Lockout :=
  { l with confirmationCount := ofNat (l.confirmationCount.toNat + 1) }

theorem toNat_confirmed (h : l.confirmationCount < maxLockoutHistory) :
    (confirmed l).confirmationCount.toNat = l.confirmationCount.toNat + 1 := by
  have hlt : l.confirmationCount.toNat < 31 := lt_iff_toNat_lt.mp h
  exact toNat_ofNat_of_lt' (show _ < 2 ^ 32 by omega)

theorem mapM_confirm (h : ∀ l ∈ votes, l.confirmationCount < maxLockoutHistory) :
    votes.mapM (confirm P) = .ok (votes.map confirmed) := by
  induction votes with
  | nil => rfl
  | cons l rest ih =>
    have hlt : l.confirmationCount.toNat < 31 :=
      lt_iff_toNat_lt.mp (h l mem_cons_self)
    have hl : confirm P l = .ok (confirmed l) := by
      simp only [confirm, Platform.wrapAdd,
        if_pos (show l.confirmationCount.toNat + 1 < 2 ^ 32 by omega)]
      rfl
    rw [mapM_cons, hl, ih fun l' hl' => h l' (mem_cons_of_mem _ hl')]
    rfl

/-- The votes of the tower after a vote for `slot`, before the roots are taken off. -/
def pushed (t : Tower) (slot : UInt64) : List Lockout :=
  ((t.voteState.votes.filter fun l => l.isLockedOutAtSlot slot).map confirmed)
    ++ [{ slot, confirmationCount := 1 }]

/-- What `takeWhile` takes off the bottom: votes with enough confirmations. -/
def rootable (l : Lockout) : Bool := maxLockoutHistory ≤ l.confirmationCount

section

variable (h : t.InOrder) (slot : UInt64)

include h

theorem InOrder.pushVote_eq :
    t.pushVote P slot = .ok
      ({ newRootSlots := ((t.pushed slot).takeWhile rootable).map Lockout.slot
         expiredLockouts := t.voteState.votes.filter fun l => !l.isLockedOutAtSlot slot },
        { voteState := { t.voteState with
            votes := (t.pushed slot).dropWhile rootable
            rootSlot := (((t.pushed slot).takeWhile rootable).map Lockout.slot).getLast?.or
              t.voteState.rootSlot } }) := by
  have hcounts : ∀ l ∈ t.voteState.votes.filter (fun l => l.isLockedOutAtSlot slot),
      l.confirmationCount < maxLockoutHistory :=
    fun l hl => (h.counts l (mem_filter.mp hl).1).2
  simp only [pushVote, mapM_confirm hcounts]
  rfl

theorem InOrder.descending_pushed :
    (t.pushed slot).Pairwise fun l l' => l'.confirmationCount < l.confirmationCount := by
  have hkept := List.Pairwise.filter (fun l => l.isLockedOutAtSlot slot) h.descending
  have hcounts : ∀ l ∈ t.voteState.votes.filter (fun l => l.isLockedOutAtSlot slot),
      1 ≤ l.confirmationCount ∧ l.confirmationCount < maxLockoutHistory :=
    fun l hl => h.counts l (mem_filter.mp hl).1
  refine pairwise_append.mpr ⟨pairwise_map.mpr ?_, pairwise_singleton _ _, ?_⟩
  · refine hkept.imp_of_mem fun {l l'} hl hl' hlt => lt_iff_toNat_lt.mpr ?_
    rw [toNat_confirmed (hcounts l hl).2, toNat_confirmed (hcounts l' hl').2]
    have := lt_iff_toNat_lt.mp hlt
    omega
  · intro l hl new hnew
    obtain rfl := mem_singleton.mp hnew
    obtain ⟨l₀, hl₀, rfl⟩ := mem_map.mp hl
    have hpos : 1 ≤ l₀.confirmationCount.toNat := le_iff_toNat_le.mp (hcounts l₀ hl₀).1
    refine lt_iff_toNat_lt.mpr ?_
    rw [toNat_confirmed (hcounts l₀ hl₀).2]
    exact lt_succ_of_le hpos

theorem InOrder.counts_pushed :
    ∀ l ∈ t.pushed slot, 1 ≤ l.confirmationCount ∧ l.confirmationCount ≤ maxLockoutHistory := by
  intro l hl
  rcases mem_append.mp hl with hl | hl
  · obtain ⟨l₀, hl₀, rfl⟩ := mem_map.mp hl
    have hcount := (h.counts l₀ (mem_filter.mp hl₀).1).2
    have hlt : l₀.confirmationCount.toNat < 31 := lt_iff_toNat_lt.mp hcount
    constructor
    · refine le_iff_toNat_le.mpr ?_
      rw [toNat_confirmed hcount]
      exact le_add_left _ _
    · refine le_iff_toNat_le.mpr ?_
      rw [toNat_confirmed hcount]
      exact hlt
  · obtain rfl := mem_singleton.mp hl
    exact (by decide : (1 : UInt32) ≤ 1 ∧ (1 : UInt32) ≤ maxLockoutHistory)

end

theorem InOrder.ascending_pushed (h : t.InOrder) (habove : t.Above slot) :
    (t.pushed slot).Pairwise fun l l' => l.slot < l'.slot := by
  have hkept := List.Pairwise.filter (fun l => l.isLockedOutAtSlot slot) h.ascending
  refine pairwise_append.mpr ⟨pairwise_map.mpr hkept, pairwise_singleton _ _, ?_⟩
  intro l hl new hnew
  obtain rfl := mem_singleton.mp hnew
  obtain ⟨l₀, hl₀, rfl⟩ := mem_map.mp hl
  exact habove.2 l₀ (mem_filter.mp hl₀).1

theorem InOrder.aboveRoot_pushed (h : t.InOrder) (habove : t.Above slot) :
    ∀ root, t.rootSlot = some root → ∀ l ∈ t.pushed slot, root < l.slot := by
  intro root hroot l hl
  rcases mem_append.mp hl with hl | hl
  · obtain ⟨l₀, hl₀, rfl⟩ := mem_map.mp hl
    exact h.aboveRoot root hroot l₀ (mem_filter.mp hl₀).1
  · obtain rfl := mem_singleton.mp hl
    exact habove.1 root hroot

theorem getLast?_pushed (t : Tower) (slot : UInt64) :
    (t.pushed slot).getLast? = some { slot, confirmationCount := 1 } :=
  getLast?_concat

/-- Confirmations that go down reach the limit at the bottom or nowhere. -/
theorem takeWhile_rootable
    (hdesc : votes.Pairwise fun l l' => l'.confirmationCount < l.confirmationCount)
    (hle : ∀ l ∈ votes, l.confirmationCount ≤ maxLockoutHistory) :
    (votes.takeWhile rootable = [] ∧ votes.dropWhile rootable = votes ∧
        ∀ l ∈ votes, l.confirmationCount < maxLockoutHistory) ∨
      ∃ l rest, votes = l :: rest ∧ votes.takeWhile rootable = [l] ∧
        votes.dropWhile rootable = rest ∧ ∀ l ∈ rest, l.confirmationCount < maxLockoutHistory := by
  cases votes with
  | nil => exact .inl ⟨rfl, rfl, by simp⟩
  | cons l rest =>
    obtain ⟨hhead, -⟩ := pairwise_cons.mp hdesc
    have hrest : ∀ l' ∈ rest, l'.confirmationCount < maxLockoutHistory := fun l' hl' =>
      UInt32.lt_of_lt_of_le (hhead l' hl') (hle l mem_cons_self)
    by_cases hl : rootable l = true
    · have hstop : ∀ l' ∈ rest.head?, rootable l' = false := by
        intro l' hl'
        rw [rootable, decide_eq_false_iff_not, UInt32.not_le]
        exact hrest l' (mem_of_mem_head? hl')
      refine .inr ⟨l, rest, rfl, ?_, ?_, hrest⟩
      · rw [takeWhile_cons, if_pos hl]
        cases rest with
        | nil => rfl
        | cons l' rest => rw [takeWhile_cons, hstop l' rfl]; rfl
      · rw [dropWhile_cons, if_pos hl]
        cases rest with
        | nil => rfl
        | cons l' rest => rw [dropWhile_cons, hstop l' rfl]; rfl
    · refine .inl ⟨?_, ?_, ?_⟩
      · rw [takeWhile_cons, if_neg hl]
      · rw [dropWhile_cons, if_neg hl]
      · rw [rootable, decide_eq_true_eq, UInt32.not_le] at hl
        exact forall_mem_cons.mpr ⟨hl, hrest⟩

/-! ### One vote -/

/-- **An accepted vote** leaves the tower ordered, makes at most one slot a root and does not move
the root back. -/
theorem InOrder.push (h : t.InOrder) (habove : t.Above slot) :
    ∃ result t', t.pushVote P slot = .ok (result, t') ∧ t'.InOrder ∧
      result.newRootSlots.length ≤ 1 ∧ t.RootKept t' := by
  refine ⟨_, _, h.pushVote_eq slot, ?_⟩
  have hasc := h.ascending_pushed habove
  have hdesc := h.descending_pushed slot
  have hcounts := h.counts_pushed slot
  have hroot := h.aboveRoot_pushed habove
  rcases takeWhile_rootable hdesc fun l hl => (hcounts l hl).2 with
    ⟨htake, hdrop, hlt⟩ | ⟨bottom, rest, hpushed, htake, hdrop, hlt⟩
  · -- Nothing becomes a root.
    refine ⟨⟨?_, ?_, ?_, ?_, ?_⟩, ?_, ?_⟩
    · simpa only [hdrop] using hasc
    · simpa only [hdrop] using hdesc
    · simp only [hdrop, getLast?_pushed]
      rintro l ⟨⟩
      rfl
    · simp only [hdrop]
      exact fun l hl => ⟨(hcounts l hl).1, hlt l hl⟩
    · simpa only [rootSlot, htake, hdrop, map_nil, getLast?_nil, none_or] using hroot
    · simp [htake]
    · intro root hold
      refine ⟨root, ?_, le_refl _⟩
      simpa only [rootSlot, htake, map_nil, getLast?_nil, none_or] using hold
  · -- The bottom vote becomes the root; the votes on it are above it.
    rw [hpushed] at hasc hdesc hcounts hroot
    obtain ⟨hbottom, hasc⟩ := pairwise_cons.mp hasc
    obtain ⟨hcount, hdesc⟩ := pairwise_cons.mp hdesc
    have hlast := getLast?_pushed t slot
    refine ⟨⟨?_, ?_, ?_, ?_, ?_⟩, ?_, ?_⟩
    · simpa only [hdrop] using hasc
    · simpa only [hdrop] using hdesc
    · simp only [hdrop]
      intro l hl
      have hne : rest ≠ [] := by rintro rfl; simp at hl
      rw [hpushed, getLast?_cons_of_ne_nil hne, hl] at hlast
      rw [some.inj hlast]
    · simp only [hdrop]
      exact fun l hl => ⟨(hcounts l (mem_cons_of_mem _ hl)).1, hlt l hl⟩
    · simp only [rootSlot, htake, hdrop, map_cons, map_nil, getLast?_singleton,
        some_or]
      rintro root ⟨⟩
      exact hbottom
    · simp [htake]
    · intro root hold
      refine ⟨bottom.slot, ?_, le_of_lt (hroot root hold bottom mem_cons_self)⟩
      simp only [rootSlot, htake, map_cons, map_nil, getLast?_singleton,
        some_or]

/-- The confirmations are all different, so there are fewer votes than make a root. -/
theorem InOrder.few (h : t.InOrder) :
    t.voteState.votes.length < maxLockoutHistory.toNat := by
  have hnodup : (t.voteState.votes.map fun l => l.confirmationCount.toNat).Nodup :=
    pairwise_map.mpr (h.descending.imp fun hlt => (lt_iff_toNat_lt.mp hlt).ne')
  have hsub : (t.voteState.votes.map fun l => l.confirmationCount.toNat).toFinset ⊆
      Finset.Icc 1 30 := by
    intro n hn
    obtain ⟨l, hl, rfl⟩ := mem_map.mp (mem_toFinset.mp hn)
    have hlt : l.confirmationCount.toNat < 31 := lt_iff_toNat_lt.mp (h.counts l hl).2
    exact Finset.mem_Icc.mpr ⟨le_iff_toNat_le.mp (h.counts l hl).1, by omega⟩
  have hcard := Finset.card_le_card hsub
  rw [toFinset_card_of_nodup hnodup, length_map, card_Icc] at hcard
  exact lt_succ_of_le hcard

theorem InOrder.processVote_above (h : t.InOrder) (hslot : vote.slots.getLast? = some slot)
    (habove : t.Above slot) :
    ∃ result t', (processVote P vote).run t = .ok result t' ∧ t'.InOrder ∧
      result.newRootSlots.length ≤ 1 ∧ t.RootKept t' := by
  obtain ⟨result, t', hpush, hprops⟩ := h.push (P := P) habove
  obtain ⟨slot', hslot', hrun⟩ :=
    processVote_of_accepts (P := P) (accepts_iff.mpr ⟨slot, hslot, habove⟩)
  cases hslot.symm.trans hslot'
  rw [hpush] at hrun
  exact ⟨result, t', hrun, hprops⟩

theorem processVote_of_not_above (h : ¬ ∃ slot, vote.slots.getLast? = some slot ∧ t.Above slot) :
    ∃ e, (processVote P vote).run t = .err e t :=
  processVote_of_not_accepts (mt accepts_iff.mp h)

/-! ### A run of votes -/

theorem InOrder.offered (h : t.InOrder) (hoffered : Offered P t vote t') : t'.InOrder := by
  by_cases habove : ∃ slot, vote.slots.getLast? = some slot ∧ t.Above slot
  · obtain ⟨slot, hslot, habove⟩ := habove
    obtain ⟨result, t₁, hrun, horder, -⟩ := h.processVote_above (P := P) hslot habove
    rcases hoffered with ⟨result', hrun'⟩ | ⟨e, hrun'⟩
    · obtain ⟨-, rfl⟩ := Outcome.ok.inj (hrun.symm.trans hrun')
      exact horder
    · simp [hrun] at hrun'
  · obtain ⟨e, hrun⟩ := processVote_of_not_above (P := P) habove
    rcases hoffered with ⟨result', hrun'⟩ | ⟨e', hrun'⟩
    · simp [hrun] at hrun'
    · obtain ⟨-, rfl⟩ := Outcome.err.inj (hrun.symm.trans hrun')
      exact h

theorem inOrder_of_votes_nil (h : t.voteState.votes = []) : t.InOrder := by
  refine ⟨?_, ?_, ?_, ?_, ?_⟩ <;> simp [h]

end Tower

/-- **The tower stays ordered.**  After any votes, accepted or not, on a tower that started without
votes: the votes are in order and fewer than `MAX_LOCKOUT_HISTORY`; and the next vote is accepted
exactly if its last slot is above the root and above every vote held.  If it is accepted, at most one
slot becomes a root and the root does not go back; if it is not, the tower stays as it is. -/
theorem tower_keeps_order (P : Platform) {t t' : Tower} {votes : List Vote}
    (hempty : t.voteState.votes = []) (hrun : Trace.Steps (Tower.Offered P) t votes t') :
    t'.InOrder ∧ t'.voteState.votes.length < Tower.maxLockoutHistory.toNat ∧
      ∀ vote : Vote,
        ((∃ slot, vote.slots.getLast? = some slot ∧ t'.Above slot) →
          ∃ result t'', (Tower.processVote P vote).run t' = .ok result t'' ∧ t''.InOrder ∧
            t''.voteState.votes.length < Tower.maxLockoutHistory.toNat ∧
            result.newRootSlots.length ≤ 1 ∧ t'.RootKept t'') ∧
        ((¬ ∃ slot, vote.slots.getLast? = some slot ∧ t'.Above slot) →
          ∃ e, (Tower.processVote P vote).run t' = .err e t') := by
  have horder : t'.InOrder := by
    refine hrun.invariant (G := fun _ => True) (fun t vote t₁ h _ hoffered => ?_)
      (Tower.inOrder_of_votes_nil hempty) (fun _ _ => trivial)
    exact h.offered hoffered
  refine ⟨horder, horder.few, fun vote => ⟨?_, Tower.processVote_of_not_above⟩⟩
  rintro ⟨slot, hslot, habove⟩
  obtain ⟨result, t'', hrun, horder', hone, hkept⟩ :=
    horder.processVote_above (P := P) hslot habove
  exact ⟨result, t'', hrun, horder', horder'.few, hone, hkept⟩

open Sample in
/-- A tower that accepts a vote for slot 1 and one for slot 10 is ordered. -/
theorem tower_ordered_after_two_votes :
    ∃ t, Trace.Steps (Tower.Offered (Platform.sample false)) newTower
      [(voteCall 0 [1] voteAccount).vote, (voteCall 0 [10] voteAccount).vote] t ∧
      t.voteState.votes.map Lockout.slot = [10] ∧ t.InOrder := by
  obtain ⟨t, ht, t', ht', hslots⟩ :
      ∃ t, towerVote newTower 1 = some t ∧ ∃ t', towerVote t 10 = some t' ∧
      t'.voteState.votes.map slot = [10] := by decide +kernel
  have hsteps : Trace.Steps (Tower.Offered .release) newTower
      [(voteCall 0 [1] voteAccount).vote, (voteCall 0 [10] voteAccount).vote] t' :=
    .cons (.inl (Outcome.okState_eq_some.mp ht)) (.cons (.inl (Outcome.okState_eq_some.mp ht'))
      (.nil t'))
  exact ⟨t', hsteps, hslots, (tower_keeps_order _ rfl hsteps).1⟩

end Nusantara

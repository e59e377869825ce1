import Nusantara.Processors.VoteRuns

/-!
# Credits for votes

What a vote account has in its `epoch_credits` after any number of `Vote` instructions
(`runtime/src/processors/vote/vote_action.rs`).  Every instruction adds the number of its slots to
the entry of the current epoch, or adds an entry for it.  Whether a slot has been voted for before is
not looked at, the epoch is only compared for equality, and no entry is ever dropped:
`MAX_EPOCH_CREDITS_HISTORY` is not used.

## Main results

* `Credited`: what an instruction does to the entries.
* `Counted.step`: what the entries say about the instructions so far.
* `creditsEarnedOnce_iff`: the runs in which every credit is for a slot of its own.
-/

namespace Nusantara

open Exec List UInt64 EpochCredits

/-- `MAX_EPOCH_CREDITS_HISTORY`. -/
def maxEpochCreditsHistory : ℕ := 64

/-- The credits of an entry, as the rewards count them. -/
def EpochCredits.earned (e : EpochCredits) : ℕ := e.credits.toNat - e.prevCredits.toNat

namespace VoteCall

/-- The epoch in which the instruction runs. -/
def epoch (c : VoteCall) : UInt64 := c.sysvars.clock.epoch

/-- The slots that a list of instructions votes for. -/
def slots (calls : List VoteCall) : List UInt64 := calls.flatMap fun c => c.vote.slots

/-- The slots voted for in an epoch. -/
def slotsIn (calls : List VoteCall) (epoch : UInt64) : List UInt64 :=
  slots (calls.filter fun c => c.epoch = epoch)

/-- The slots voted for before an epoch. -/
def slotsBefore (calls : List VoteCall) (epoch : UInt64) : List UInt64 :=
  slots (calls.filter fun c => c.epoch < epoch)

end VoteCall

open VoteCall

namespace VoteProgram

/-! ### One instruction -/

/-- What a vote for `count` slots does to the entries. -/
inductive Credited (epoch : UInt64) (count : ℕ) : List EpochCredits → List EpochCredits → Prop
  | first {c : UInt64} (le : c.toNat ≤ count) (eq : count < 2 ^ 64 → c.toNat = count) :
      Credited epoch count [] [⟨epoch, c, 0⟩]
  | same {front : List EpochCredits} {last : EpochCredits} {c : UInt64} (at_epoch : last.epoch = epoch)
      (le : c.toNat ≤ last.credits.toNat + count)
      (eq : last.credits.toNat + count < 2 ^ 64 → c.toNat = last.credits.toNat + count) :
      Credited epoch count (front ++ [last]) (front ++ [{ last with credits := c }])
  | next {front : List EpochCredits} {last : EpochCredits} {c : UInt64} (at_epoch : last.epoch ≠ epoch)
      (le : c.toNat ≤ last.credits.toNat + count)
      (eq : last.credits.toNat + count < 2 ^ 64 → c.toNat = last.credits.toNat + count) :
      Credited epoch count (front ++ [last]) (front ++ [last] ++ [⟨epoch, c, last.credits⟩])

section Step

variable {P : Platform} {state state' : VoteState} {epoch : UInt64} {count : ℕ}

theorem wrapAdd_le {a b total : ℕ} (h : P.wrapAdd 64 a b = .ok total) :
    (ofNat total).toNat ≤ a + b ∧
      (a + b < 2 ^ 64 → (ofNat total).toNat = a + b) := by
  unfold Platform.wrapAdd at h
  split_ifs at h with hfit
  · cases h
    rw [toNat_ofNat_of_lt' hfit]
    exact ⟨le_rfl, fun _ => rfl⟩
  · cases h
    rw [toNat_ofNat', Nat.mod_mod]
    exact ⟨Nat.mod_le _ _, fun h => absurd h hfit⟩

theorem credited_addCredits (h : addCredits P epoch count state = .ok state') :
    Credited epoch count state.epochCredits state'.epochCredits := by
  unfold addCredits at h
  split at h
  · rename_i hnone
    cases h
    rw [getLast?_eq_none_iff.mp hnone]
    refine .first ?_ fun hfit => toNat_ofNat_of_lt' hfit
    rw [toNat_ofNat']
    exact Nat.mod_le _ _
  · rename_i last hlast
    obtain ⟨total, htotal, h⟩ := exceptBind_eq_ok.mp h
    obtain ⟨hle, heq⟩ := wrapAdd_le htotal
    obtain ⟨front, hfront⟩ := getLast?_eq_some_iff.mp hlast
    rw [hfront] at h ⊢
    split_ifs at h with hepoch
    · cases h
      rw [dropLast_concat]
      exact .same hepoch hle heq
    · cases h
      exact .next hepoch hle heq

theorem foldlM_pushVote_epochCredits {slots : List UInt64}
    (h : slots.foldlM (pushVote P) state = .ok state') :
    state'.epochCredits = state.epochCredits := by
  refine foldlM_keeps (I := fun mid => mid.epochCredits = state.epochCredits) ?_ rfl h
  intro slot _ mid mid' hmid hpush
  obtain ⟨confirmed, -, hpush⟩ := exceptBind_eq_ok.mp hpush
  cases hpush
  exact hmid

theorem credited_applyVote {v : Vote} (h : applyVote P epoch v state = .ok state') :
    Credited epoch v.slots.length state.epochCredits state'.epochCredits := by
  obtain ⟨mid, hfold, h⟩ := exceptBind_eq_ok.mp h
  obtain ⟨mid', hcredits, h⟩ := exceptBind_eq_ok.mp h
  cases h
  rw [(recordTimestamp_eq v mid').2.2, ← foldlM_pushVote_epochCredits hfold]
  exact credited_addCredits hcredits

end Step

/-! ### Runs of instructions -/

/-- What the entries say about the instructions so far. -/
structure Counted (calls : List VoteCall) (credits : List EpochCredits) : Prop where
  earned : ∀ e ∈ credits, e.earned ≤ (slotsIn calls e.epoch).length
  chained : credits.IsChain fun e e' => e'.prevCredits = e.credits
  last : (credits.map EpochCredits.epoch).getLast? = (calls.map VoteCall.epoch).getLast?
  epochs : (credits.map EpochCredits.epoch).toFinset = (calls.map VoteCall.epoch).toFinset
  ascending : (credits.map EpochCredits.epoch).IsChain (· < ·) ↔
    (calls.map VoteCall.epoch).IsChain (· ≤ ·)

/-- As long as the counter does not overflow, the credits add up to the number of slots. -/
structure Summed (calls : List VoteCall) (credits : List EpochCredits) : Prop where
  sum : (credits.map earned).sum = (slots calls).length
  last : ∀ e, credits.getLast? = some e →
    e.prevCredits ≤ e.credits ∧ e.credits.toNat = (slots calls).length

section Run

variable {calls : List VoteCall} {c : VoteCall} {credits credits' : List EpochCredits}

theorem length_slots_concat :
    (slots (calls ++ [c])).length = (slots calls).length + c.vote.slots.length := by
  simp [slots]

theorem length_slotsIn_concat (epoch : UInt64) :
    (slotsIn (calls ++ [c]) epoch).length = (slotsIn calls epoch).length +
      if c.epoch = epoch then c.vote.slots.length else 0 := by
  by_cases h : c.epoch = epoch <;> simp [slotsIn, slots, h]

section

variable (h : Counted calls credits)
  (hcredited : Credited c.epoch c.vote.slots.length credits credits')

include h hcredited

theorem Counted.earned_step :
    ∀ e ∈ credits', e.earned ≤ (slotsIn (calls ++ [c]) e.epoch).length := by
  have hold : ∀ e ∈ credits, e.earned ≤ (slotsIn (calls ++ [c]) e.epoch).length := by
    intro e he
    rw [length_slotsIn_concat]
    exact (h.earned e he).trans (Nat.le_add_right _ _)
  cases hcredited with
  | first hle =>
    refine forall_mem_singleton.mpr ?_
    simp only [length_slotsIn_concat, if_true, EpochCredits.earned]
    omega
  | @same front last credit hepoch hle =>
    obtain ⟨hfront, -⟩ := forall_mem_append.mp hold
    refine forall_mem_append.mpr ⟨hfront, forall_mem_singleton.mpr ?_⟩
    have hlast := h.earned last (by simp)
    simp only [length_slotsIn_concat, if_pos hepoch.symm, EpochCredits.earned] at hlast ⊢
    omega
  | @next front last credit hepoch hle =>
    refine forall_mem_append.mpr ⟨hold, forall_mem_singleton.mpr ?_⟩
    simp only [length_slotsIn_concat, if_true, EpochCredits.earned]
    omega

/-- **The step lemma.** -/
theorem Counted.step :
    Counted (calls ++ [c]) credits' := by
  have hearned := h.earned_step hcredited
  obtain ⟨-, hchained, hlast, hepochs, hasc⟩ := h
  cases hcredited with
  | first =>
    have hnil : calls = [] := by simpa [eq_comm] using hlast
    subst hnil
    exact ⟨hearned, by simp, by simp, by simp, by simp⟩
  | @same front last credit hepoch hle =>
    have hmap : (front ++ [{ last with credits := credit }]).map EpochCredits.epoch
        = (front ++ [last]).map EpochCredits.epoch := by simp
    have hlast' : (calls.map VoteCall.epoch).getLast? = some c.epoch := by
      rw [← hlast, map_append, map_singleton, getLast?_concat, hepoch]
    refine ⟨hearned, ?_, ?_, ?_, ?_⟩
    · rw [isChain_append] at hchained ⊢
      refine ⟨hchained.1, isChain_singleton _, fun e he e' he' => ?_⟩
      cases he'
      exact hchained.2.2 e he last rfl
    · rw [hmap, hlast, hlast', map_append, map_singleton, getLast?_concat]
    · rw [hmap, hepochs, map_append, toFinset_append]
      have hmem := mem_of_getLast? hlast'
      simp [hmem]
    · rw [hmap, hasc, map_append, isChain_append, hlast']
      simp
  | @next front last credit hepoch hle =>
    have hlast' : (calls.map VoteCall.epoch).getLast? = some last.epoch := by
      rw [← hlast, map_append, map_singleton, getLast?_concat]
    refine ⟨hearned, ?_, ?_, ?_, ?_⟩
    · rw [isChain_append]
      refine ⟨hchained, isChain_singleton _, ?_⟩
      simp
    · simp
    · rw [map_append, toFinset_append, hepochs, map_append, toFinset_append]
      simp
    · have hcalls : (calls ++ [c]).map VoteCall.epoch = calls.map VoteCall.epoch ++ [c.epoch] := by
        simp
      rw [map_append, hcalls, isChain_append, isChain_append, hasc, hlast, hlast']
      have hlt : last.epoch < c.epoch ↔ last.epoch ≤ c.epoch :=
        ⟨le_of_lt, fun hle => lt_of_le_of_ne hle hepoch⟩
      simp [hlt]

end

theorem Summed.step (h : Summed calls credits)
    (hcredited : Credited c.epoch c.vote.slots.length credits credits')
    (hfit : (slots (calls ++ [c])).length < 2 ^ 64) : Summed (calls ++ [c]) credits' := by
  rw [length_slots_concat] at hfit
  obtain ⟨hsum, hlast⟩ := h
  cases hcredited with
  | @first credit _ heq =>
    have hnone : (slots calls).length = 0 := by simpa using hsum.symm
    have hcredit := heq (by omega)
    constructor
    · simp only [map_singleton, sum_singleton, earned, length_slots_concat,
        UInt64.toNat_zero]
      omega
    · intro e he
      rw [getLast?_singleton] at he
      cases he
      simp only [length_slots_concat, UInt64.le_iff_toNat_le, UInt64.toNat_zero]
      omega
  | @same front last credit _ _ heq =>
    obtain ⟨hprev, htotal⟩ := hlast last (by simp)
    have hcredit := heq (by omega)
    rw [UInt64.le_iff_toNat_le] at hprev
    constructor
    · simp only [map_append, map_singleton, sum_append, sum_singleton,
        earned, length_slots_concat] at hsum ⊢
      omega
    · intro e he
      rw [getLast?_concat] at he
      cases he
      simp only [length_slots_concat, UInt64.le_iff_toNat_le]
      omega
  | @next front last credit _ _ heq =>
    obtain ⟨-, htotal⟩ := hlast last (by simp)
    have hcredit := heq (by omega)
    constructor
    · rw [map_append, sum_append, hsum]
      simp only [map_singleton, sum_singleton, earned, length_slots_concat]
      omega
    · intro e he
      rw [getLast?_concat] at he
      cases he
      simp only [length_slots_concat, UInt64.le_iff_toNat_le]
      omega

/-- **The run lemma.** -/
theorem counted_of_steps {P : Platform} {a a' : Account} {state : VoteState} (hfresh : a.FreshVotes)
    (hrun : Trace.Steps (VoteStep P) a calls a') (hstate : a'.HoldsVotes state) :
    Counted calls state.epochCredits ∧
      ((slots calls).length < 2 ^ 64 → Summed calls state.epochCredits) := by
  have hall := hrun.history (I := fun calls a => ∀ state, a.HoldsVotes state →
    Counted calls state.epochCredits ∧
      ((slots calls).length < 2 ^ 64 → Summed calls state.epochCredits)) ?_ [] ?_
  · exact hall state hstate
  · intro before a c a' hI hstep state' hstate'
    obtain ⟨state, after, hold, hnew, -, -, happly⟩ := voteStep_inv hstep
    obtain rfl := HoldsVotes.unique hnew hstate'
    have hcredited := credited_applyVote happly
    obtain ⟨hcounted, hsummed⟩ := hI state hold
    refine ⟨hcounted.step hcredited, fun hfit => Summed.step (hsummed ?_) hcredited hfit⟩
    rw [length_slots_concat] at hfit
    omega
  · intro state hstate
    obtain ⟨args, hargs⟩ := hfresh
    obtain rfl := HoldsVotes.unique hstate hargs
    refine ⟨⟨?_, ?_, rfl, rfl, ?_⟩, fun _ => ⟨rfl, ?_⟩⟩ <;> simp [VoteState.new]

end Run

/-! ### Credits for distinct slots -/

/-- Every credit is for a slot of its own: an epoch earns no more than the number of slots that were
voted for in it and not before, and the entries are a short history of the epochs. -/
structure CreditsEarnedOnce (calls : List VoteCall) (state : VoteState) : Prop where
  earned : ∀ e ∈ state.epochCredits, e.earned ≤
    ((slotsIn calls e.epoch).toFinset \ (slotsBefore calls e.epoch).toFinset).card
  bounded : state.epochCredits.length ≤ maxEpochCreditsHistory
  ascending : (state.epochCredits.map EpochCredits.epoch).Pairwise (· < ·)
  chained : state.epochCredits.IsChain fun e e' => e'.prevCredits = e.credits

/-- No slot is voted for twice, the clock does not go back, and there are few epochs. -/
structure VotesOnce (calls : List VoteCall) : Prop where
  nodup : (slots calls).Nodup
  forward : (calls.map VoteCall.epoch).Pairwise (· ≤ ·)
  few : (calls.map VoteCall.epoch).toFinset.card ≤ maxEpochCreditsHistory

section Distinct

variable {calls : List VoteCall} {state : VoteState}

theorem slots_filter_sublist (p : VoteCall → Bool) : (slots (calls.filter p)).Sublist (slots calls) :=
  filter_sublist.flatMap _

theorem disjoint_of_nodup (h : (slots calls).Nodup) (epoch : UInt64) :
    Disjoint (slotsIn calls epoch).toFinset (slotsBefore calls epoch).toFinset := by
  rw [Finset.disjoint_left]
  intro slot hin hbefore
  simp only [slotsIn, slotsBefore, slots, mem_toFinset, mem_flatMap, mem_filter,
    decide_eq_true_eq] at hin hbefore
  obtain ⟨c, ⟨hc, hepoch⟩, hslot⟩ := hin
  obtain ⟨c', ⟨hc', hlt⟩, hslot'⟩ := hbefore
  have hne : c ≠ c' := by
    rintro rfl
    exact absurd hepoch hlt.ne
  have : Std.Symm (Function.onFun List.Disjoint fun c : VoteCall => c.vote.slots) :=
    ⟨fun _ _ h => h.symm⟩
  exact (nodup_flatMap.mp h).2.forall hc hc' hne hslot hslot'

/-- Where no slot is voted for twice, an epoch earns what it may. -/
theorem Counted.earned_le (h : Counted calls state.epochCredits) (hnodup : (slots calls).Nodup) :
    ∀ e ∈ state.epochCredits, e.earned ≤
      ((slotsIn calls e.epoch).toFinset \ (slotsBefore calls e.epoch).toFinset).card := by
  intro e he
  have hin : (slotsIn calls e.epoch).Nodup := hnodup.sublist (slots_filter_sublist _)
  rw [Finset.sdiff_eq_self_of_disjoint (disjoint_of_nodup hnodup e.epoch),
    toFinset_card_of_nodup hin]
  exact h.earned e he

/-- The slots that are new in different epochs are different slots of the run. -/
theorem sum_card_le (epochs : Finset UInt64) :
    ∑ e ∈ epochs, ((slotsIn calls e).toFinset \ (slotsBefore calls e).toFinset).card ≤
      (slots calls).toFinset.card := by
  -- The slots of an epoch are among those before every later one.
  have hbefore : ∀ e e', e < e' → (slotsIn calls e).toFinset ⊆ (slotsBefore calls e').toFinset := by
    intro e e' hlt slot hslot
    simp only [slotsIn, slotsBefore, slots, mem_toFinset, mem_flatMap, mem_filter,
      decide_eq_true_eq] at hslot ⊢
    obtain ⟨c, ⟨hc, rfl⟩, hslot⟩ := hslot
    exact ⟨c, ⟨hc, hlt⟩, hslot⟩
  rw [← Finset.card_biUnion]
  · refine Finset.card_le_card (Finset.biUnion_subset.mpr fun e _ => ?_)
    refine Finset.sdiff_subset.trans fun slot hslot => ?_
    rw [mem_toFinset] at hslot ⊢
    exact (slots_filter_sublist _).subset hslot
  · intro e _ e' _ hne
    rcases lt_or_gt_of_ne hne with hlt | hlt
    · exact (Finset.disjoint_sdiff.mono_left (hbefore e e' hlt)).mono_left Finset.sdiff_subset
    · exact ((Finset.disjoint_sdiff.mono_left (hbefore e' e hlt)).mono_left
        Finset.sdiff_subset).symm

/-- Credits that add up to the number of slots, and are for distinct slots, leave no slot that was
voted for twice. -/
theorem CreditsEarnedOnce.nodup (h : CreditsEarnedOnce calls state)
    (hsummed : Summed calls state.epochCredits) : (slots calls).Nodup := by
  have hle : (slots calls).length ≤ (slots calls).toFinset.card := by
    calc (slots calls).length = (state.epochCredits.map EpochCredits.earned).sum := hsummed.sum.symm
      _ ≤ (state.epochCredits.map fun e =>
            ((slotsIn calls e.epoch).toFinset \ (slotsBefore calls e.epoch).toFinset).card).sum :=
          sum_le_sum h.earned
      _ = ∑ e ∈ (state.epochCredits.map EpochCredits.epoch).toFinset,
            ((slotsIn calls e).toFinset \ (slotsBefore calls e).toFinset).card := by
          rw [sum_toFinset _ (h.ascending.imp ne_of_lt), map_map]
          rfl
      _ ≤ (slots calls).toFinset.card := sum_card_le _
  rw [card_toFinset] at hle
  exact dedup_eq_self.mp ((dedup_sublist _).eq_of_length_le hle)

end Distinct

/-- **Credits are earned once.**  After any instructions on a fresh account in which no slot is voted
for twice, the clock does not go back and there are few epochs, every credit is for a slot of its
own; and as long as the counter does not overflow, only then. -/
theorem creditsEarnedOnce_iff {P : Platform} {a a' : Account} {calls : List VoteCall}
    {state : VoteState} (hfresh : a.FreshVotes) (hrun : Trace.Steps (VoteStep P) a calls a')
    (hstate : a'.HoldsVotes state) :
    (VotesOnce calls → CreditsEarnedOnce calls state) ∧
      ((slots calls).length < 2 ^ 64 → CreditsEarnedOnce calls state → VotesOnce calls) := by
  obtain ⟨hcounted, hsummed⟩ := counted_of_steps hfresh hrun hstate
  have hasc : (state.epochCredits.map EpochCredits.epoch).Pairwise (· < ·) ↔
      (calls.map VoteCall.epoch).Pairwise (· ≤ ·) := by
    rw [← isChain_iff_pairwise, ← isChain_iff_pairwise]
    exact hcounted.ascending
  have hlen : (state.epochCredits.map EpochCredits.epoch).Pairwise (· < ·) →
      state.epochCredits.length = (calls.map VoteCall.epoch).toFinset.card := by
    intro h
    rw [← hcounted.epochs, toFinset_card_of_nodup (h.imp ne_of_lt), length_map]
  constructor
  · rintro ⟨hnodup, hforward, hfew⟩
    have hentries := hasc.mpr hforward
    exact ⟨hcounted.earned_le hnodup, (hlen hentries).trans_le hfew, hentries, hcounted.chained⟩
  · intro hfit h
    exact ⟨h.nodup (hsummed hfit), hasc.mp h.ascending, (hlen h.ascending).symm.trans_le h.bounded⟩

open Sample in
/-- The account votes for slot 5 twice and has two credits for it. -/
theorem same_slot_is_credited_twice :
    voteAccount.FreshVotes ∧
      ∃ calls a' state, Trace.Steps (VoteStep (Platform.sample false)) voteAccount calls a' ∧
        a'.HoldsVotes state ∧ ¬ CreditsEarnedOnce calls state := by
  obtain ⟨a, ha, a', ha', state, hstate, hcredits⟩ :
      ∃ a, castVote voteAccount (0, [5]) = some a ∧ ∃ a', castVote a (0, [5]) = some a' ∧
      ∃ state, VoteState.codec.deserialize a'.data = .ok state ∧
      state.epochCredits = [⟨0, 2, 0⟩] := by decide +kernel
  refine ⟨freshVotes_voteAccount, [voteCall 0 [5] voteAccount, voteCall 0 [5] a], a', state,
    .cons (voteStep_of_castVote ha) (.cons (voteStep_of_castVote ha') (.nil a')), hstate, ?_⟩
  intro honce
  have hearned := honce.earned
  rw [hcredits] at hearned
  have htwo : 2 ≤ ([(5 : UInt64), 5].toFinset \ ([] : List UInt64).toFinset).card :=
    hearned ⟨0, 2, 0⟩ (by simp)
  exact absurd htwo (by decide)

open Sample in
/-- Votes for slot 5 and then for slot 8 have a credit each. -/
theorem two_slots_are_credited :
    ∃ calls a' state, Trace.Steps (VoteStep (Platform.sample false)) voteAccount calls a' ∧
      a'.HoldsVotes state ∧ CreditsEarnedOnce calls state ∧ calls.length = 2 := by
  obtain ⟨a, ha, a', ha', state, hstate, -⟩ :
      ∃ a, castVote voteAccount (0, [5]) = some a ∧ ∃ a', castVote a (0, [8]) = some a' ∧
      ∃ state, VoteState.codec.deserialize a'.data = .ok state ∧ True := by decide +kernel
  have hsteps : Trace.Steps (VoteStep .release) voteAccount
      [voteCall 0 [5] voteAccount, voteCall 0 [8] a] a' :=
    .cons (voteStep_of_castVote ha) (.cons (voteStep_of_castVote ha') (.nil a'))
  have honce : VotesOnce [voteCall 0 [5] voteAccount, voteCall 0 [8] a] :=
    ⟨show [(5 : UInt64), 8].Nodup by decide, show [(0 : UInt64), 0].Pairwise (· ≤ ·) by decide,
      show ([(0 : UInt64), 0].toFinset).card ≤ maxEpochCreditsHistory by decide⟩
  exact ⟨_, a', state, hsteps, hstate,
    (creditsEarnedOnce_iff freshVotes_voteAccount hsteps hstate).1 honce, rfl⟩

end VoteProgram

end Nusantara

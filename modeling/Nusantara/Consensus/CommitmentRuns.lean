import Nusantara.Consensus.Commitment
import Nusantara.Lib.Trace

/-!
# The commitments over a run of calls

The tracker is called with blocks, votes, finalized slots and new totals in any order
(`consensus/src/commitment.rs`).  The entry of a slot is made by the first call for it, a block or a
vote, and it goes when there are too many newer ones; while it is there its stake is the stake of the
first votes for its hash, and its level only goes up.

The hash of an entry is the hash of the call that made it.  So the votes for a block that was
tracked are lost when a vote for another hash came first.

## Main results

* `CommitmentTracker.entryStep_call`: what a call makes of the entry of a slot.
* `commitments_are_sound`: the stake, the level and the marks over any run.
* `countsTracked_iff`: the runs after which every vote for a tracked block counts.
* `tracksBounded_iff`: the runs in which there are never too many entries.
-/

namespace Nusantara

open List UInt64 Nat SlotCommitment Hash
open Prod (fst)
open Finmap (lookup_insert)

/-- The levels in the order in which a slot passes them. -/
def CommitmentLevel.rank : CommitmentLevel → ℕ
  | .processed => 0
  | .confirmed => 1
  | .finalized => 2

/-- The calls that change the tracker. -/
inductive CommitmentCall where
  | trackSlot (slot : UInt64) (blockHash : Hash)
  | recordVote (slot : UInt64) (blockHash voter : Hash) (stake : UInt64)
  | markFinalized (slot : UInt64)
  | updateTotalStake (totalActiveStake : UInt64)
  deriving DecidableEq

/-- The voter and the stake of a vote for this block. -/
def CommitmentCall.voteFor (slot : UInt64) (blockHash : Hash) :
    CommitmentCall → Option (Hash × UInt64)
  | .recordVote slot' blockHash' voter stake =>
      if slot' = slot ∧ blockHash' = blockHash then some (voter, stake) else none
  | _ => none

/-- The votes for this block among the calls. -/
def votesFor (slot : UInt64) (blockHash : Hash) (calls : List CommitmentCall) :
    List (Hash × UInt64) :=
  calls.filterMap (CommitmentCall.voteFor slot blockHash)

/-- The stakes given at the first vote of each voter, added up. -/
def firstStakes (votes : List (Hash × UInt64)) : ℕ :=
  ∑ voter ∈ (votes.map fst).toFinset, ((votes.lookup voter).getD 0).toNat

theorem lookup_isSome_iff {votes : List (Hash × UInt64)} {voter : Hash} :
    (votes.lookup voter).isSome = true ↔ voter ∈ votes.map fst := by
  induction votes with
  | nil => simp
  | cons q votes ih =>
    obtain ⟨v, stake⟩ := q
    by_cases hv : voter = v
    · simp [hv]
    · simp [lookup_cons, beq_false_of_ne hv, ih, hv]

/-- One more vote adds its stake if its voter is new. -/
theorem firstStakes_concat (votes : List (Hash × UInt64)) (voter : Hash) (stake : UInt64) :
    firstStakes (votes ++ [(voter, stake)]) =
      if voter ∈ votes.map fst then firstStakes votes
      else firstStakes votes + stake.toNat := by
  have hset : ((votes ++ [(voter, stake)]).map fst).toFinset
      = insert voter (votes.map fst).toFinset := by
    ext v
    simp
  -- The voters that were there before keep their first vote.
  have hold : ∀ v ∈ (votes.map fst).toFinset,
      (votes ++ [(voter, stake)]).lookup v = votes.lookup v := by
    intro v hv
    obtain ⟨s, hs⟩ := Option.isSome_iff_exists.mp (lookup_isSome_iff.mpr (mem_toFinset.mp hv))
    rw [lookup_append, hs, Option.some_or]
  have hsum : ∑ v ∈ (votes.map fst).toFinset,
      (((votes ++ [(voter, stake)]).lookup v).getD 0).toNat = firstStakes votes :=
    Finset.sum_congr rfl fun v hv => by rw [hold v hv]
  rw [firstStakes, hset]
  split_ifs with hmem
  · rw [Finset.insert_eq_of_mem (mem_toFinset.mpr hmem), hsum]
  · have hnone : votes.lookup voter = none := by
      rw [← Option.not_isSome_iff_eq_none, lookup_isSome_iff]
      exact hmem
    rw [Finset.sum_insert (by simpa using hmem), hsum, lookup_append, hnone]
    simp [add_comm]

/-! ### The entry of a slot -/

namespace SlotCommitment

/-- The voters and the stake of an entry after a vote for its block, if there is one. -/
def tally (e : SlotCommitment) : Option (Hash × UInt64) → Finset Hash × UInt64
  | none => (e.votersSeen, e.totalStakeVoted)
  | some (voter, stake) =>
      if voter ∈ e.votersSeen then (e.votersSeen, e.totalStakeVoted)
      else (insert voter e.votersSeen, Word.saturatingAdd e.totalStakeVoted stake)

/-- The entry has counted the first votes of all voters. -/
structure Tallies (e : SlotCommitment) (votes : List (Hash × UInt64)) : Prop where
  voters : e.votersSeen = (votes.map fst).toFinset
  stake : e.totalStakeVoted = Word.saturate (firstStakes votes)

theorem Tallies.concat {e e' : SlotCommitment} {votes : List (Hash × UInt64)}
    {vote : Option (Hash × UInt64)} (h : e.Tallies votes)
    (htally : (e'.votersSeen, e'.totalStakeVoted) = e.tally vote) :
    e'.Tallies (votes ++ vote.toList) := by
  cases vote with
  | none =>
    obtain ⟨hvoters, hstake⟩ := Prod.mk.inj htally
    simpa only [Option.toList_none, append_nil] using
      Tallies.mk (hvoters.trans h.voters) (hstake.trans h.stake)
  | some q =>
    obtain ⟨voter, stake⟩ := q
    have hmem : voter ∈ e.votersSeen ↔ voter ∈ votes.map fst := by
      rw [h.voters, mem_toFinset]
    rw [tally] at htally
    split_ifs at htally with hseen
    · obtain ⟨hvoters, hstake⟩ := Prod.mk.inj htally
      constructor
      · rw [hvoters, h.voters]
        ext v
        have := hmem.mp hseen
        simp only [Option.toList_some, map_append, map_cons, map_nil,
          mem_toFinset, mem_append, mem_singleton]
        grind
      · rw [hstake, h.stake, Option.toList_some, firstStakes_concat, if_pos (hmem.mp hseen)]
    · obtain ⟨hvoters, hstake⟩ := Prod.mk.inj htally
      constructor
      · rw [hvoters, h.voters]
        ext v
        simp
      · rw [hstake, h.stake, Option.toList_some, firstStakes_concat, if_neg (mt hmem.mpr hseen),
          Word.saturatingAdd_saturate]

end SlotCommitment

namespace CommitmentTracker

variable {c : CommitmentTracker} {a : CommitmentCall} {slot slot' : UInt64} {e e' : SlotCommitment}
  {blockHash : Hash}

/-- A call of the tracker. -/
def call (c : CommitmentTracker) : CommitmentCall → CommitmentTracker
  | .trackSlot slot blockHash => c.trackSlot slot blockHash
  | .recordVote slot blockHash voter stake => (c.recordVote slot blockHash voter stake).2
  | .markFinalized slot => c.markFinalized slot
  | .updateTotalStake totalActiveStake => c.updateTotalStake totalActiveStake

/-- What a call `a` of the tracker `c` makes of the entry `e` of a slot. -/
structure EntryStep (c : CommitmentTracker) (a : CommitmentCall) (slot : UInt64)
    (e e' : SlotCommitment) : Prop where
  hash : e'.blockHash = e.blockHash
  tally : (e'.votersSeen, e'.totalStakeVoted) = e.tally (a.voteFor slot e.blockHash)
  level : e.commitment.rank ≤ e'.commitment.rank
  confirms : e'.commitment = .confirmed → e.commitment ≠ .confirmed →
    (∃ voter stake, a = .recordVote slot e.blockHash voter stake) ∧ 0 < c.totalActiveStake ∧
      supermajorityThreshold ≤ c.votedPercentage e'

/-- A call that is no vote for the block leaves the entry as it is. -/
theorem EntryStep.refl (h : a.voteFor slot e.blockHash = none) : EntryStep c a slot e e :=
  ⟨rfl, by rw [h]; rfl, le_rfl, fun hc hne => absurd hc hne⟩

theorem lookup_evictOldest : c.evictOldest.slots.lookup slot =
    if slot ∈ c.slots.keys ∧ (c.slots.keys.filter (slot < ·)).card < maxTrackedSlots
    then c.slots.lookup slot else none := by
  rw [evictOldest, Finmap.lookup_eraseAll]
  by_cases hmem : slot ∈ c.slots.keys
  · have hkept := Finset.mem_drop_ascending (s := c.slots.keys) (a := slot) (n := maxTrackedSlots)
    simp only [hmem, true_and] at hkept ⊢
    by_cases hold : slot ∈ c.slots.keys.ascending.take (c.slots.keys.card - maxTrackedSlots)
    · rw [if_pos hold, if_neg fun hfew => hkept.mpr hfew hold]
    · rw [if_neg hold, if_pos (hkept.mp hold)]
  · have hnone : c.slots.lookup slot = none :=
      Finmap.lookup_eq_none.mpr fun h => hmem (Finmap.mem_keys.mpr h)
    simp [hnone]

theorem lookup_of_evictOldest (h : c.evictOldest.slots.lookup slot = some e) :
    c.slots.lookup slot = some e := by
  rw [lookup_evictOldest] at h
  split_ifs at h
  exact h

theorem getD_eq_entry (h : c.entry slot blockHash = e) :
    (c.slots.lookup slot).getD (SlotCommitment.new slot e.blockHash) = e := by
  subst h
  unfold entry
  cases c.slots.lookup slot with
  | none => rfl
  | some e => rfl

/-- The entry of a slot after a vote for it. -/
theorem entryStep_recordVote {voter : Hash} {stake : UInt64}
    (h : (c.recordVote slot blockHash voter stake).2.slots.lookup slot = some e') :
    EntryStep c (.recordVote slot blockHash voter stake) slot (c.entry slot blockHash) e' := by
  unfold recordVote at h
  simp only at h
  generalize c.entry slot blockHash = e at h ⊢
  split_ifs at h with hskip hconf
  · rw [lookup_insert] at h
    cases h
    refine ⟨rfl, ?_, le_rfl, fun hc hne => absurd hc hne⟩
    simp only [CommitmentCall.voteFor]
    split_ifs with hhash
    · obtain ⟨-, rfl⟩ := hhash
      simp [tally, hskip.resolve_left fun hne => hne rfl]
    · rfl
  · obtain ⟨hhash, hseen⟩ := not_or.mp hskip
    rw [lookup_insert] at h
    cases h
    obtain rfl := not_ne_iff.mp hhash
    refine ⟨rfl, ?_, ?_, fun _ _ => ⟨⟨voter, stake, rfl⟩, hconf.1, hconf.2.1⟩⟩
    · simp [CommitmentCall.voteFor, tally, hseen]
    · have hlevel := hconf.2.2
      cases hl : e.commitment <;> simp_all [CommitmentLevel.rank]
  · obtain ⟨hhash, hseen⟩ := not_or.mp hskip
    rw [lookup_insert] at h
    cases h
    obtain rfl := not_ne_iff.mp hhash
    refine ⟨rfl, ?_, le_rfl, fun hc hne => absurd hc hne⟩
    simp [CommitmentCall.voteFor, tally, hseen]

theorem recordVote_insert (c : CommitmentTracker) (slot : UInt64) (blockHash voter : Hash)
    (stake : UInt64) :
    ∃ e, (c.recordVote slot blockHash voter stake).2.slots = c.slots.insert slot e := by
  unfold recordVote
  simp only
  split_ifs <;> exact ⟨_, rfl⟩

/-- **What a call makes of the entry of a slot**, which starts as a new one. -/
theorem entryStep_call (h : (c.call a).slots.lookup slot = some e') :
    EntryStep c a slot ((c.slots.lookup slot).getD (SlotCommitment.new slot e'.blockHash)) e' := by
  cases a with
  | trackSlot slot' blockHash =>
    have hinsert := lookup_of_evictOldest h
    by_cases hs : slot = slot'
    · subst hs
      rw [lookup_insert] at hinsert
      rw [getD_eq_entry (Option.some.inj hinsert)]
      exact .refl rfl
    · rw [Finmap.lookup_insert_of_ne _ hs] at hinsert
      rw [hinsert]
      exact .refl rfl
  | recordVote slot' blockHash voter stake =>
    by_cases hs : slot = slot'
    · subst hs
      have hstep := entryStep_recordVote h
      have hentry := getD_eq_entry (c := c) (e := c.entry slot blockHash) rfl
      rw [← hstep.hash] at hentry
      rw [hentry]
      exact hstep
    · obtain ⟨e, hslots⟩ := recordVote_insert c slot' blockHash voter stake
      rw [call, hslots, Finmap.lookup_insert_of_ne _ hs] at h
      rw [h]
      exact .refl (if_neg fun hsame => hs hsame.1.symm)
  | markFinalized slot' =>
    simp only [call, markFinalized] at h
    split at h
    case h_1 =>
      rw [h]
      exact .refl rfl
    case h_2 e he =>
      by_cases hs : slot = slot'
      · subst hs
        rw [lookup_insert] at h
        cases h
        rw [he]
        refine ⟨rfl, rfl, ?_, fun hc => nomatch hc⟩
        change e.commitment.rank ≤ 2
        cases e.commitment <;> decide
      · rw [Finmap.lookup_insert_of_ne _ hs] at h
        rw [h]
        exact .refl rfl
  | updateTotalStake totalActiveStake =>
    have hsame : c.slots.lookup slot = some e' := h
    rw [hsame]
    exact .refl rfl

/-! ### The marks -/

theorem highest_call :
    c.highestConfirmed ≤ (c.call a).highestConfirmed ∧
      c.highestFinalized ≤ (c.call a).highestFinalized := by
  cases a with
  | trackSlot slot blockHash =>
    simp only [call, trackSlot, evictOldest]
    exact ⟨le_refl _, le_refl _⟩
  | recordVote slot blockHash voter stake =>
    simp only [call, recordVote]
    split_ifs
    · exact ⟨le_refl _, le_refl _⟩
    · exact ⟨le_max_left _ _, le_refl _⟩
    · exact ⟨le_refl _, le_refl _⟩
  | markFinalized slot =>
    simp only [call, markFinalized]
    split
    · exact ⟨le_refl _, le_refl _⟩
    · exact ⟨le_refl _, le_max_left _ _⟩
  | updateTotalStake totalActiveStake => exact ⟨le_refl _, le_refl _⟩

/-! ### A run of calls -/

/-- The tracker after the calls. -/
def run (total : UInt64) (calls : List CommitmentCall) : CommitmentTracker :=
  calls.foldl call (new total)

/-- A call, with the calls since the entry of the slot was made. -/
def watch (slot : UInt64) (p : CommitmentTracker × List CommitmentCall) (a : CommitmentCall) :
    CommitmentTracker × List CommitmentCall :=
  (p.1.call a, if slot ∈ (p.1.call a).slots then p.2 ++ [a] else [])

/-- The calls since the entry of the slot was made, with the one that made it. -/
def since (slot total : UInt64) (calls : List CommitmentCall) : List CommitmentCall :=
  (calls.foldl (watch slot) (new total, [])).2

/-- The entry of the slot, if there is one, has counted the votes since it was made. -/
structure Watched (slot : UInt64) (p : CommitmentTracker × List CommitmentCall) : Prop where
  tallies : ∀ e, p.1.slots.lookup slot = some e → e.Tallies (votesFor slot e.blockHash p.2)
  none : p.1.slots.lookup slot = none → p.2 = []

variable {p : CommitmentTracker × List CommitmentCall}

theorem votesFor_concat (calls : List CommitmentCall) (a : CommitmentCall) :
    votesFor slot blockHash (calls ++ [a])
      = votesFor slot blockHash calls ++ (a.voteFor slot blockHash).toList := by
  rw [votesFor, filterMap_append]
  cases h : a.voteFor slot blockHash <;> simp [votesFor, h]

theorem Watched.getD (h : Watched slot p) (blockHash : Hash) :
    ((p.1.slots.lookup slot).getD (SlotCommitment.new slot blockHash)).Tallies
      (votesFor slot ((p.1.slots.lookup slot).getD (SlotCommitment.new slot blockHash)).blockHash
        p.2) := by
  cases he : p.1.slots.lookup slot with
  | none =>
    rw [h.none he]
    exact ⟨rfl, rfl⟩
  | some e => exact h.tallies e he

theorem Watched.watch (h : Watched slot p) (a : CommitmentCall) :
    Watched slot (watch slot p a) := by
  constructor
  · intro e he
    have hmem : slot ∈ (p.1.call a).slots :=
      Finmap.mem_iff.mpr ⟨e, he⟩
    have hstep := entryStep_call he
    have htallies := (h.getD e.blockHash).concat hstep.tally
    rw [← votesFor_concat, ← hstep.hash] at htallies
    rw [CommitmentTracker.watch, if_pos hmem]
    exact htallies
  · intro hnone
    exact if_neg (Finmap.lookup_eq_none.mp hnone)

theorem foldl_watch_fst (slot : UInt64) (calls : List CommitmentCall) :
    (calls.foldl (CommitmentTracker.watch slot) p).1 = calls.foldl call p.1 :=
  (foldl_hom Prod.fst fun _ _ => rfl).symm

theorem watched_run (slot total : UInt64) (calls : List CommitmentCall) :
    Watched slot (run total calls, since slot total calls) := by
  have hinit : Watched slot (new total, []) := ⟨fun e he => by simp [new] at he, fun _ => rfl⟩
  have hwatched : Watched slot (calls.foldl (CommitmentTracker.watch slot) (new total, [])) := by
    refine (Trace.Steps.foldl _ calls _).invariant (G := fun _ => True) ?_ hinit fun _ _ => trivial
    rintro p a q h - rfl
    exact h.watch a
  have hrun := foldl_watch_fst (p := (new total, [])) slot calls
  exact (Prod.ext hrun rfl : calls.foldl (CommitmentTracker.watch slot) (new total, [])
    = (run total calls, since slot total calls)) ▸ hwatched

/-- The share that the code computes is not above the real one, so a block it confirms has enough
stake. -/
theorem le_of_votedPercentage (h : supermajorityThreshold ≤ c.votedPercentage e) :
    supermajorityThreshold.toNat * c.totalActiveStake.toNat ≤ 100 * e.totalStakeVoted.toNat := by
  have hle : 66 ≤ (ofNat (e.totalStakeVoted.toNat * 100 / c.totalActiveStake.toNat)).toNat :=
    le_iff_toNat_le.mp h
  have hdiv := hle.trans (Nat.mod_le _ _)
  have hmul := Nat.mul_le_of_le_div _ _ _ hdiv
  change 66 * _ ≤ _
  omega

end CommitmentTracker

open CommitmentTracker in
/-- **The commitments are sound.**  After any calls and at any next one, for every slot: the stake of
its entry is the stake given at the first votes for its hash since the entry was made, as long as
that fits; its level does not go down; it becomes confirmed only by a vote, and only if the first
votes then have the supermajority of the stake that is set; and the marks do not go back. -/
theorem commitments_are_sound (total : UInt64) (calls : List CommitmentCall) (a : CommitmentCall)
    (slot : UInt64) :
    (∀ e, (run total calls).slots.lookup slot = some e →
        firstStakes (votesFor slot e.blockHash (since slot total calls)) < 2 ^ 64 →
        e.totalStakeVoted.toNat
          = firstStakes (votesFor slot e.blockHash (since slot total calls))) ∧
      (∀ e e', (run total calls).slots.lookup slot = some e →
        (run total (calls ++ [a])).slots.lookup slot = some e' →
        e.commitment.rank ≤ e'.commitment.rank) ∧
      (∀ e', (run total (calls ++ [a])).slots.lookup slot = some e' → e'.commitment = .confirmed →
        (∀ e, (run total calls).slots.lookup slot = some e → e.commitment ≠ .confirmed) →
        (∃ voter stake, a = .recordVote slot e'.blockHash voter stake) ∧
          0 < (run total calls).totalActiveStake ∧
          supermajorityThreshold.toNat * (run total calls).totalActiveStake.toNat
            ≤ 100 * firstStakes (votesFor slot e'.blockHash (since slot total (calls ++ [a])))) ∧
      (run total calls).highestConfirmed ≤ (run total (calls ++ [a])).highestConfirmed ∧
      (run total calls).highestFinalized ≤ (run total (calls ++ [a])).highestFinalized := by
  have hnext : run total (calls ++ [a]) = (run total calls).call a := by
    rw [run, foldl_concat]
    rfl
  refine ⟨?_, ?_, ?_, ?_⟩
  · intro e he hfits
    have hstake := ((watched_run slot total calls).tallies e he).stake
    rw [hstake, Word.toNat_saturate]
    exact min_eq_left (le_pred_of_lt hfits)
  · intro e e' he he'
    rw [hnext] at he'
    have hlevel := (entryStep_call he').level
    rwa [he] at hlevel
  · intro e' he' hconf hbefore
    have htallies := ((watched_run slot total (calls ++ [a])).tallies e' he').stake
    rw [hnext] at he'
    have hstep := entryStep_call he'
    have hnot : (((run total calls).slots.lookup slot).getD
        (new slot e'.blockHash)).commitment ≠ .confirmed := by
      cases he : (run total calls).slots.lookup slot with
      | none => exact fun h => nomatch h
      | some e => exact hbefore e he
    obtain ⟨hvote, hpos, hshare⟩ := hstep.confirms hconf hnot
    rw [← hstep.hash] at hvote
    refine ⟨hvote, hpos, (le_of_votedPercentage hshare).trans ?_⟩
    rw [htallies, Word.toNat_saturate]
    exact mul_le_mul_left _ (min_le_left _ _)
  · rw [hnext]
    exact highest_call

/-! ### The votes for a tracked block -/

namespace CommitmentTracker

/-- The voter has been counted for this block. -/
def CountedFor (c : CommitmentTracker) (slot : UInt64) (blockHash voter : Hash) : Prop :=
  ∃ e, c.slots.lookup slot = some e ∧ e.blockHash = blockHash ∧ voter ∈ e.votersSeen

/-- A vote for this block is added to the entry of its slot. -/
def AddsStake (c : CommitmentTracker) (slot : UInt64) (blockHash voter : Hash) (stake : UInt64) :
    Prop :=
  ∃ e, (c.recordVote slot blockHash voter stake).2.slots.lookup slot = some e ∧
    e.blockHash = blockHash ∧ voter ∈ e.votersSeen ∧
    e.totalStakeVoted
      = Word.saturatingAdd (c.entry slot blockHash).totalStakeVoted stake

/-- A call, with the calls so far. -/
def Logged (p : CommitmentTracker × List CommitmentCall) (a : CommitmentCall)
    (q : CommitmentTracker × List CommitmentCall) : Prop :=
  q = (p.1.call a, p.2 ++ [a])

/-- Every vote for a block that was tracked, of a voter that has not been counted for it, would add
its stake. -/
def CountsTracked (p : CommitmentTracker × List CommitmentCall) : Prop :=
  ∀ slot blockHash, .trackSlot slot blockHash ∈ p.2 → ∀ voter stake,
    ¬ p.1.CountedFor slot blockHash voter → p.1.AddsStake slot blockHash voter stake

/-- The entry of the slot, if there is one, is for this block; and if there is none, no other block
of the slot was tracked. -/
def OneBlock (p : CommitmentTracker × List CommitmentCall) (slot : UInt64) (blockHash : Hash) : Prop :=
  (∀ e, p.1.slots.lookup slot = some e → e.blockHash = blockHash) ∧
    (p.1.slots.lookup slot = none → ∀ other, .trackSlot slot other ∈ p.2 → other = blockHash)

/-- A block is tracked, unless `MAX_TRACKED_SLOTS` newer slots are, in a slot that has no entry for
another one; and an entry is made only for the block that was tracked in its slot. -/
def TracksOneBlock (p : CommitmentTracker × List CommitmentCall) : CommitmentCall → Prop
  | .trackSlot slot blockHash =>
      (p.1.slots.keys.filter (slot < ·)).card < maxTrackedSlots → OneBlock p slot blockHash
  | .recordVote slot blockHash _ _ =>
      p.1.slots.lookup slot = none → ∀ other, .trackSlot slot other ∈ p.2 → other = blockHash
  | _ => True

/-- Every entry is for the blocks that were tracked in its slot. -/
def HashesMatch (p : CommitmentTracker × List CommitmentCall) : Prop :=
  ∀ slot blockHash e, .trackSlot slot blockHash ∈ p.2 → p.1.slots.lookup slot = some e →
    e.blockHash = blockHash

variable {c : CommitmentTracker} {a : CommitmentCall} {slot : UInt64} {e : SlotCommitment}
  {blockHash : Hash} {p : CommitmentTracker × List CommitmentCall}

/-- A vote adds its stake if its slot has no entry for another block. -/
theorem addsStake_of_entry {voter : Hash} {stake : UInt64}
    (hhash : (c.entry slot blockHash).blockHash = blockHash)
    (hnew : ¬ c.CountedFor slot blockHash voter) : c.AddsStake slot blockHash voter stake := by
  have hseen : voter ∉ (c.entry slot blockHash).votersSeen := by
    intro hmem
    obtain ⟨e, he, hv⟩ := mem_entry_votersSeen.mp hmem
    refine hnew ⟨e, he, ?_, hv⟩
    rwa [entry, he] at hhash
  obtain ⟨e, hslots⟩ := recordVote_insert c slot blockHash voter stake
  have he : (c.recordVote slot blockHash voter stake).2.slots.lookup slot = some e := by
    rw [hslots, lookup_insert]
  have hstep := entryStep_recordVote he
  have htally := hstep.tally
  rw [hhash, CommitmentCall.voteFor, if_pos ⟨rfl, rfl⟩, tally, if_neg hseen] at htally
  obtain ⟨hvoters, hstake⟩ := Prod.mk.inj htally
  exact ⟨e, he, hstep.hash.trans hhash, hvoters ▸ Finset.mem_insert_self _ _, hstake⟩

theorem countsTracked_iff_hashesMatch : CountsTracked p ↔ HashesMatch p := by
  constructor
  · intro h slot blockHash e htracked he
    by_contra hne
    -- Nobody is counted for a block that the entry is not for, and no vote changes that.
    have hnew : ¬ p.1.CountedFor slot blockHash Hash.zero := by
      rintro ⟨e', he', hhash, -⟩
      cases he.symm.trans he'
      exact hne hhash
    obtain ⟨e', he', hhash, -⟩ := h slot blockHash htracked Hash.zero 0 hnew
    have hsame := (entryStep_recordVote he').hash
    rw [entry, he] at hsame
    exact hne (hsame.symm.trans hhash)
  · intro h slot blockHash htracked voter stake hnew
    refine addsStake_of_entry ?_ hnew
    unfold entry
    cases he : p.1.slots.lookup slot with
    | none => rfl
    | some e => exact h slot blockHash e htracked he

/-- An entry that is there before a call keeps its hash. -/
theorem hash_call_of_some {e' : SlotCommitment} (he : c.slots.lookup slot = some e)
    (he' : (c.call a).slots.lookup slot = some e') : e'.blockHash = e.blockHash := by
  have hhash := (entryStep_call he').hash
  rwa [he] at hhash

theorem lookup_trackSlot_self (c : CommitmentTracker) (slot : UInt64) (blockHash : Hash) :
    (c.trackSlot slot blockHash).slots.lookup slot =
      if (c.slots.keys.filter (slot < ·)).card < maxTrackedSlots then some (c.entry slot blockHash)
      else none := by
  have hfilter : (c.slots.insert slot (c.entry slot blockHash)).keys.filter (slot < ·)
      = c.slots.keys.filter (slot < ·) := by
    ext k
    simp only [Finset.mem_filter, Finmap.mem_keys, Finmap.mem_insert]
    refine and_congr_left fun hlt => or_iff_right ?_
    rintro rfl
    exact lt_irrefl _ hlt
  rw [trackSlot, lookup_evictOldest]
  simp only [hfilter, Finmap.mem_keys, Finmap.mem_insert, true_or, true_and, lookup_insert]

theorem lookup_of_trackSlot {slot' : UInt64} (hne : slot ≠ slot')
    (h : (c.trackSlot slot' blockHash).slots.lookup slot = some e) :
    c.slots.lookup slot = some e := by
  have hinsert := lookup_of_evictOldest h
  rwa [Finmap.lookup_insert_of_ne _ hne] at hinsert

section

variable (h : HashesMatch p)

include h

/-- A block that is tracked leaves the hashes matching if it is the one of its slot. -/
theorem hashesMatch_trackSlot :
    HashesMatch (p.1.trackSlot slot blockHash, p.2 ++ [.trackSlot slot blockHash]) ↔
      TracksOneBlock p (.trackSlot slot blockHash) := by
  constructor
  · intro hq hfew
    have hself := lookup_trackSlot_self p.1 slot blockHash
    rw [if_pos hfew] at hself
    constructor
    · intro e he
      rw [entry, he] at hself
      exact hq slot blockHash e (mem_append_right _ (mem_singleton_self _)) hself
    · intro hnone other hother
      rw [entry, hnone] at hself
      exact (hq slot other _ (mem_append_left _ hother) hself).symm
  · intro htracks slot' other e' hother he'
    simp only [mem_append, mem_singleton, CommitmentCall.trackSlot.injEq] at hother
    by_cases hs : slot' = slot
    · subst hs
      simp only [true_and] at hother
      rw [lookup_trackSlot_self] at he'
      split_ifs at he' with hfew
      cases he'
      obtain ⟨hsome, hnone⟩ := htracks hfew
      cases he : p.1.slots.lookup slot' with
      | none =>
        rw [entry, he]
        rcases hother with hother | rfl
        · exact (hnone he other hother).symm
        · rfl
      | some e =>
        rw [entry, he]
        rcases hother with hother | rfl
        · exact h slot' other e hother he
        · exact hsome e he
    · have hold := hother.resolve_right fun hsame => hs hsame.1
      exact h slot' other e' hold (lookup_of_trackSlot hs he')

/-- A vote leaves the hashes matching if it does not make an entry for another block. -/
theorem hashesMatch_recordVote {voter : Hash} {stake : UInt64} :
    HashesMatch ((p.1.recordVote slot blockHash voter stake).2,
        p.2 ++ [.recordVote slot blockHash voter stake]) ↔
      TracksOneBlock p (.recordVote slot blockHash voter stake) := by
  constructor
  · intro hq hnone other hother
    obtain ⟨e, hslots⟩ := recordVote_insert p.1 slot blockHash voter stake
    have he : (p.1.recordVote slot blockHash voter stake).2.slots.lookup slot = some e := by
      rw [hslots, lookup_insert]
    have hmade := (entryStep_recordVote he).hash
    rw [entry, hnone] at hmade
    exact (hq slot other e (mem_append_left _ hother) he).symm.trans hmade
  · intro htracks slot' other e' hother he'
    simp only [mem_append, mem_singleton, reduceCtorEq, or_false] at hother
    by_cases hs : slot' = slot
    · subst hs
      have hhash := (entryStep_recordVote he').hash
      cases he : p.1.slots.lookup slot' with
      | none =>
        rw [entry, he] at hhash
        exact hhash.trans (htracks he other hother).symm
      | some e =>
        rw [entry, he] at hhash
        exact hhash.trans (h slot' other e hother he)
    · obtain ⟨e, hslots⟩ := recordVote_insert p.1 slot blockHash voter stake
      rw [hslots, Finmap.lookup_insert_of_ne _ hs] at he'
      exact h slot' other e' hother he'

/-- A call that makes no entry leaves the hashes matching. -/
theorem hashesMatch_of_kept {c' : CommitmentTracker}
    (ha : ∀ slot blockHash, a ≠ .trackSlot slot blockHash)
    (hkept : ∀ slot e', c'.slots.lookup slot = some e' →
      ∃ e, p.1.slots.lookup slot = some e ∧ e'.blockHash = e.blockHash) :
    HashesMatch (c', p.2 ++ [a]) := by
  intro slot blockHash e' hother he'
  have hold : CommitmentCall.trackSlot slot blockHash ∈ p.2 := by
    rcases mem_append.mp hother with hold | hnew
    · exact hold
    · exact absurd (mem_singleton.mp hnew).symm (ha slot blockHash)
  obtain ⟨e, he, hhash⟩ := hkept slot e' he'
  exact hhash.trans (h slot blockHash e hold he)

theorem hashesMatch_call (a : CommitmentCall) :
    HashesMatch (p.1.call a, p.2 ++ [a]) ↔ TracksOneBlock p a := by
  cases a with
  | trackSlot slot blockHash => exact hashesMatch_trackSlot h
  | recordVote slot blockHash voter stake => exact hashesMatch_recordVote h
  | markFinalized slot =>
    refine iff_of_true (hashesMatch_of_kept h (fun _ _ => nofun) fun slot' e' he' => ?_) trivial
    cases he : p.1.slots.lookup slot' with
    | some e => exact ⟨e, rfl, hash_call_of_some he he'⟩
    | none =>
      -- There is nothing to mark.
      simp only [call, markFinalized] at he'
      split at he'
      case h_1 => simp [he] at he'
      case h_2 e hfound =>
        by_cases hs : slot' = slot
        · simp [hs ▸ he] at hfound
        · rw [Finmap.lookup_insert_of_ne _ hs, he] at he'
          cases he'
  | updateTotalStake totalActiveStake =>
    exact iff_of_true (hashesMatch_of_kept h (fun _ _ => nofun) fun slot e' he' => ⟨e', he', rfl⟩)
      trivial

end

end CommitmentTracker

open CommitmentTracker in
/-- **The votes for a tracked block count** in every state of a run exactly if no call of the run
makes or takes an entry for another block than was tracked in the slot. -/
theorem countsTracked_iff (total : UInt64) (calls : List CommitmentCall)
    (q : CommitmentTracker × List CommitmentCall) :
    Trace.Steps (fun p a q => Logged p a q ∧ CountsTracked q) (new total, []) calls q ↔
      Trace.Steps (fun p a q => Logged p a q ∧ TracksOneBlock p a) (new total, []) calls q := by
  refine Trace.Steps.and_iff (I := HashesMatch) ?_ ?_ fun slot blockHash e htracked => nomatch htracked
  · rintro p a q - - hcounts
    exact countsTracked_iff_hashesMatch.mp hcounts
  · rintro p a q h rfl
    rw [countsTracked_iff_hashesMatch]
    exact hashesMatch_call h a

open CommitmentTracker in
/-- A vote for another hash of slot 1 comes before its block is tracked: a vote for the block is not
added. -/
theorem early_vote_takes_the_slot :
    ∃ q, Trace.Steps Logged (new 100, [])
        [.recordVote 1 (Hash.repeated 9) (Hash.repeated 1) 10, .trackSlot 1 (Hash.repeated 4)] q ∧
      ¬ q.1.CountedFor 1 (Hash.repeated 4) (Hash.repeated 2) ∧
      ¬ q.1.AddsStake 1 (Hash.repeated 4) (Hash.repeated 2) 70 ∧ ¬ CountsTracked q := by
  obtain ⟨e, he, hhash⟩ :
      ∃ e, (run 100 [.recordVote 1 (repeated 9) (repeated 1) 10, .trackSlot 1
          (repeated 4)]).slots.lookup 1 = some e ∧
      e.blockHash = repeated 9 := by decide +kernel
  have hne : e.blockHash ≠ repeated 4 := by
    rw [hhash]
    decide
  refine ⟨(_, _), .cons rfl (.cons rfl (.nil _)), ?_, ?_, ?_⟩
  · rintro ⟨e', he', hhash', -⟩
    cases he.symm.trans he'
    exact hne hhash'
  · rintro ⟨e', he', hhash', -⟩
    have hsame := hash_call_of_some (a := .recordVote 1 _ _ 70) he he'
    exact hne (hsame.symm.trans hhash')
  · intro hcounts
    exact hne (countsTracked_iff_hashesMatch.mp hcounts 1 _ e (by simp) he)

/-! ### How many slots are tracked -/

/-- The calls of the tracker, with the one that removes entries. -/
inductive TrackerCall where
  | call (a : CommitmentCall)
  | pruneBelow (slot : UInt64)

namespace CommitmentTracker

variable {c : CommitmentTracker}

/-- A call of the tracker that may remove entries. -/
def act (c : CommitmentTracker) : TrackerCall → CommitmentTracker
  | .call a => c.call a
  | .pruneBelow slot => c.pruneBelow slot

/-- A vote for a slot without an entry, when there are as many entries as there may be. -/
def Overfills (c : CommitmentTracker) (a : TrackerCall) : Prop :=
  ∃ slot blockHash voter stake, a = .call (.recordVote slot blockHash voter stake) ∧
    slot ∉ c.slots ∧ maxTrackedSlots ≤ c.slots.keys.card

theorem keys_insert (slots : Finmap fun _ : UInt64 => SlotCommitment) (slot : UInt64)
    (e : SlotCommitment) : (slots.insert slot e).keys = insert slot slots.keys := by
  ext
  simp [Finmap.mem_keys]

theorem keys_recordVote (slot : UInt64) (blockHash voter : Hash) (stake : UInt64) :
    (c.recordVote slot blockHash voter stake).2.slots.keys = insert slot c.slots.keys := by
  obtain ⟨e, he⟩ := c.recordVote_insert slot blockHash voter stake
  rw [he, keys_insert]

theorem card_evictOldest (c : CommitmentTracker) :
    c.evictOldest.slots.keys.card ≤ maxTrackedSlots := by
  have hlookup : ∀ slot, c.evictOldest.slots.lookup slot = _ := fun _ => lookup_evictOldest
  generalize c.evictOldest.slots = slots at hlookup ⊢
  have hsub : slots.keys ⊆ (c.slots.keys.ascending.reverse.take maxTrackedSlots).toFinset := by
    intro slot hslot
    obtain ⟨e, he⟩ := Finmap.mem_iff.mp (Finmap.mem_keys.mp hslot)
    rw [hlookup] at he
    split_ifs at he with hnewest
    exact mem_toFinset.mpr (Finset.mem_take_reverse_ascending.mpr hnewest)
  exact (Finset.card_le_card hsub).trans ((toFinset_card_le _).trans (length_take_le _ _))

/-- Only a vote for a slot without an entry can be one too many. -/
theorem card_act_iff (h : c.slots.keys.card ≤ maxTrackedSlots) (a : TrackerCall) :
    (c.act a).slots.keys.card ≤ maxTrackedSlots ↔ ¬ c.Overfills a := by
  cases a with
  | pruneBelow slot =>
    refine iff_of_true ((Finset.card_le_card fun k hk => ?_).trans h) (by simp [Overfills])
    obtain ⟨e, he⟩ := Finmap.mem_iff.mp (Finmap.mem_keys.mp hk)
    rw [act, pruneBelow, Finmap.lookup_retain] at he
    exact Finmap.mem_keys.mpr (Finmap.mem_iff.mpr ⟨e, (Option.filter_eq_some_iff.mp he).1⟩)
  | call a =>
    cases a with
    | trackSlot slot blockHash => exact iff_of_true (card_evictOldest _) (by simp [Overfills])
    | updateTotalStake total => exact iff_of_true h (by simp [Overfills])
    | markFinalized slot =>
      refine iff_of_true (le_of_eq_of_le ?_ h) (by simp [Overfills])
      simp only [act, call, markFinalized]
      split
      · rfl
      case h_2 e he =>
        rw [keys_insert, Finset.insert_eq_of_mem]
        exact Finmap.mem_keys.mpr (Finmap.mem_iff.mpr ⟨e, he⟩)
    | recordVote slot blockHash voter stake =>
      have hfull : c.Overfills (.call (.recordVote slot blockHash voter stake))
          ↔ slot ∉ c.slots ∧ maxTrackedSlots ≤ c.slots.keys.card := by
        simp [Overfills]
      rw [hfull, act, call, keys_recordVote]
      by_cases hmem : slot ∈ c.slots
      · rw [Finset.insert_eq_of_mem (Finmap.mem_keys.mpr hmem)]
        exact iff_of_true h fun hout => hout.1 hmem
      · rw [Finset.card_insert_of_notMem (mt Finmap.mem_keys.mp hmem), and_iff_right hmem, not_le,
          succ_le_iff]

/-- **How many slots are tracked.**  There are at most `MAX_TRACKED_SLOTS` after every call of a run
exactly if no vote for a slot without an entry comes when there are that many. -/
theorem tracksBounded_iff (total : UInt64) (calls : List TrackerCall) (c' : CommitmentTracker) :
    Trace.Steps (fun c a c' => c.act a = c' ∧ c'.slots.keys.card ≤ maxTrackedSlots)
        (new total) calls c' ↔
      Trace.Steps (fun c a c' => c.act a = c' ∧ ¬ c.Overfills a) (new total) calls c' := by
  refine Trace.Steps.and_iff (I := fun c => c.slots.keys.card ≤ maxTrackedSlots) ?_ ?_ (zero_le _)
  · exact fun _ _ _ _ _ hcard => hcard
  · rintro c a _ h rfl
    exact card_act_iff h a

/-- One vote for each of the first slots. -/
def votesForEach (n : ℕ) : List TrackerCall :=
  (range n).map fun slot => .call (.recordVote (.ofNat slot) Hash.zero Hash.zero 1)

/-- Nothing but votes: there is an entry for each of them, one more than `MAX_TRACKED_SLOTS`. -/
theorem votes_fill_the_tracker :
    (((votesForEach 1025).foldl act (new 1)).slots.keys).card = maxTrackedSlots + 1 := by
  have hkeys : ∀ n, ((votesForEach n).foldl act (new 1)).slots.keys
      = (Finset.range n).image ofNat := by
    intro n
    induction n with
    | zero => rfl
    | succ n ih =>
      rw [votesForEach, range_succ, map_append, foldl_append, Finset.range_add_one,
        Finset.image_insert, ← ih]
      exact keys_recordVote _ _ _ _
  rw [hkeys, Finset.card_image_of_injOn]
  · exact Finset.card_range 1025
  · intro i hi j hj h
    have hmod := congrArg toNat h
    simp only [Finset.coe_range, Set.mem_Iio, toNat_ofNat'] at hi hj hmod
    omega

end CommitmentTracker

end Nusantara

import Nusantara.Lib.Collections
import Nusantara.Lib.Trace
import Nusantara.Runtime.Executor
import Mathlib.Data.List.Chain
import Mathlib.Data.UInt

/-!
# Votes one after the other

What a vote account holds after any number of `Vote` instructions
(`runtime/src/processors/vote/vote_action.rs`).

The processor compares the slots of a vote with each other and with the clock, and with nothing that
the account already holds.  Nothing expires either.  So the stack is always made of the last slots
that were voted for, in the order in which they came, and each slot has one more confirmation than
there are votes above it (`Remembers`): the confirmations go down and the stack stays short, but the
slots are in order only if they came in order.

## Main results

* `VoteStep.inv`: what a successful `Vote` instruction does to its account.
* `Remembers.applyVote`: the stack and the root are made of the last votes.
* `votesWellFormed_iff`: the runs along which the votes are well formed.
-/

namespace Nusantara

open Borsh Exec TransactionContext List Codec VoteState UInt32 Hash

/-! ### Instructions on one account -/

/-- A `Vote` instruction: what it is given, and the context it runs in. -/
structure VoteCall where
  sysvars : SysvarCache
  accounts : List UInt8
  data : List UInt8
  vote : Vote
  context : TransactionContext

/-- The account holds the state of a vote account. -/
def Account.HoldsVotes (a : Account) (state : VoteState) : Prop :=
  VoteState.codec.deserialize a.data = .ok state

/-- The account has been initialised and not been voted with. -/
def Account.FreshVotes (a : Account) : Prop := ∃ args, a.HoldsVotes (VoteState.new args)

/-- The instruction succeeds, and takes its vote account from `a` to `a'`. -/
def VoteStep (P : Platform) (a : Account) (c : VoteCall) (a' : Account) : Prop :=
  ∃ i s', c.accounts[0]? = some i ∧ c.context.account? i.toNat = some a ∧
    VoteInstruction.codec.tryFromSlice c.data = .ok (.vote c.vote) ∧
    (VoteProgram.processVote P c.sysvars c.accounts c.data).run c.context = .ok () s' ∧
    s'.account? i.toNat = some a'

namespace VoteProgram

section Instructions

variable {P : Platform}
  {s' : TransactionContext} {a a' : Account} {c : VoteCall} {state : VoteState}

theorem fits_new (args : VoteInit) : VoteState.codec.Fits (VoteState.new args) := by
  simp [VoteState.codec, VoteState.new, iso, pair, vec, option, u64,
    u8, word, Hash.codec, bytes, BlockTimestamp.codec, i64]

theorem checkSlots_ascending {currentSlot : UInt64} {prev : Option UInt64} {slots : List UInt64}
    (h : checkSlots currentSlot prev slots = .ok ()) :
    (prev.toList ++ slots).IsChain (· < ·) := by
  induction slots generalizing prev with
  | nil => cases prev <;> simp
  | cons slot slots ih =>
    simp only [checkSlots] at h
    split_ifs at h with hfuture hprev
    have hrest := ih h
    cases prev with
    | none => exact hrest
    | some p =>
      have hlt : p < slot := by simpa using hprev
      simpa [isChain_cons_cons, hlt] using hrest

theorem isChain_iff {l : List UInt64} : l.IsChain (· < ·) ↔ l.Pairwise (· < ·) :=
  isChain_iff_pairwise

/-- **What a vote does**: its slots ascend, and the account holds what they make of its state. -/
theorem voteStep_inv (h : VoteStep P a c a') :
    ∃ state state', a.HoldsVotes state ∧ a'.HoldsVotes state' ∧ c.vote.slots ≠ [] ∧
      c.vote.slots.Pairwise (· < ·) ∧
      applyVote P c.sysvars.clock.epoch c.vote state = .ok state' := by
  obtain ⟨i, s', hi, ha, hdata, hrun, ha'⟩ := h
  simp only [processVote, bind_eq_ok, consumeCompute_eq_ok, decodeInstruction_eq_ok, hdata] at hrun
  obtain ⟨_, _, ⟨-, rfl⟩, _, _, ⟨hins, rfl⟩, hrun⟩ := hrun
  cases hins
  obtain ⟨j, b, state, state', hj, hb, hdec, hne, hcheck, happly, hfit, rfl⟩ :=
    processVoteAction_ok hrun
  cases hi.symm.trans hj
  rw [account?_setAccount hb, if_pos rfl] at ha'
  rw [setRemaining_account?, ha] at hb
  cases hb
  cases ha'
  exact ⟨state, state', hdec, VoteState.codec.deserialize_enc hfit, hne,
    isChain_iff.mp (checkSlots_ascending hcheck), happly⟩

end Instructions

/-! ### The stack -/

/-- Slots with the confirmations they have as votes one above the other: each has one more than
there are votes above it. -/
def stack : List UInt64 → List Lockout
  | [] => []
  | slot :: above => ⟨slot, ofNat (above.length + 1)⟩ :: stack above

section

variable (slots : List UInt64)

@[simp] theorem length_stack : (stack slots).length = slots.length := by
  induction slots with
  | nil => rfl
  | cons slot above ih => simp [stack, ih]

@[simp] theorem map_slot_stack : (stack slots).map Lockout.slot = slots := by
  induction slots with
  | nil => rfl
  | cons slot above ih => simp [stack, ih]

theorem drop_stack (n : ℕ) : (stack slots).drop n = stack (slots.drop n) := by
  induction slots generalizing n with
  | nil => simp [stack]
  | cons slot above ih =>
    cases n with
    | zero => rfl
    | succ n => exact ih n

theorem getElem?_stack (i : ℕ) :
    (stack slots)[i]? = slots[i]?.map fun slot => ⟨slot, ofNat (slots.length - i)⟩ := by
  induction slots generalizing i with
  | nil => rfl
  | cons slot above ih =>
    cases i with
    | zero => rfl
    | succ i => simpa [stack] using ih i

end

theorem confirm_stack {P : Platform} {slots : List UInt64} (h : slots.length + 1 < 2 ^ 32)
    (slot : UInt64) :
    ∃ confirmed, (stack slots).mapM (confirm P) = .ok confirmed ∧
      confirmed ++ [⟨slot, 1⟩] = stack (slots ++ [slot]) := by
  induction slots with
  | nil => exact ⟨[], rfl, rfl⟩
  | cons x above ih =>
    rw [length_cons] at h
    obtain ⟨confirmed, hmap, hstack⟩ := ih (by omega)
    have hcount : (ofNat (above.length + 1)).toNat + 1 = above.length + 2 := by
      rw [toNat_ofNat_of_lt' (show above.length + 1 < 2 ^ 32 by omega)]
    have hx : confirm P ⟨x, ofNat (above.length + 1)⟩
        = .ok ⟨x, ofNat (above.length + 2)⟩ := by
      simp only [confirm, Platform.wrapAdd, hcount]
      rw [if_pos (by omega)]
      rfl
    refine ⟨⟨x, ofNat (above.length + 2)⟩ :: confirmed, ?_, ?_⟩
    · rw [stack, mapM_cons, hx, hmap]
      rfl
    · rw [cons_append, hstack, cons_append, stack, length_append]
      rfl

/-- The confirmations go down from vote to vote. -/
theorem count_stack {slots : List UInt64} (h : slots.length < 2 ^ 32) :
    (∀ l ∈ stack slots, l.confirmationCount.toNat ≤ slots.length) ∧
      ((stack slots).map Lockout.confirmationCount).Pairwise (· > ·) := by
  induction slots with
  | nil => simp [stack]
  | cons x above ih =>
    rw [length_cons] at h
    obtain ⟨hle, hdesc⟩ := ih (by omega)
    have hx : (ofNat (above.length + 1)).toNat = above.length + 1 :=
      toNat_ofNat_of_lt' h
    refine ⟨forall_mem_cons.mpr ⟨hx.le, fun l hl => (hle l hl).trans (by simp)⟩, ?_⟩
    rw [stack, map_cons, pairwise_cons, forall_mem_map]
    refine ⟨fun l hl => lt_iff_toNat_lt.mpr ?_, hdesc⟩
    show l.confirmationCount.toNat < (ofNat (above.length + 1)).toNat
    rw [hx]
    exact Nat.lt_succ_of_le (hle l hl)

/-- The account remembers the votes for `voted`: the last of them in its stack, and the one before
as its root. -/
structure Remembers (state : VoteState) (voted : List UInt64) : Prop where
  votes : state.votes = stack (voted.rtake maxLockoutHistory)
  rootSlot : state.rootSlot = (voted.rdrop maxLockoutHistory).getLast?

section Stack

variable {P : Platform} {state state' : VoteState} {voted : List UInt64} {slot : UInt64}

theorem pushVote_stack {slots : List UInt64} (h : state.votes = stack slots)
    (hlen : slots.length + 1 < 2 ^ 32) :
    pushVote P state slot = .ok { state with
      votes := stack ((slots ++ [slot]).rtake maxLockoutHistory)
      rootSlot := ((slots ++ [slot]).rdrop maxLockoutHistory).getLast?.or state.rootSlot } := by
  obtain ⟨confirmed, hmap, hstack⟩ := confirm_stack (P := P) hlen slot
  have hrdrop : ((stack (slots ++ [slot])).rdrop maxLockoutHistory).map Lockout.slot
      = (slots ++ [slot]).rdrop maxLockoutHistory := by
    rw [rdrop, map_take, map_slot_stack, length_stack]
    rfl
  have hrtake : (stack (slots ++ [slot])).rtake maxLockoutHistory
      = stack ((slots ++ [slot]).rtake maxLockoutHistory) := by
    rw [rtake, drop_stack, length_stack]
    rfl
  rw [← hrdrop, ← hrtake, getLast?_map, ← hstack, rdrop, rtake]
  simp only [pushVote, h, hmap]
  refine exceptBind_eq_ok.mpr ⟨confirmed, rfl, ?_⟩
  cases getLast? (take _ _) <;> rfl

theorem Remembers.pushVote (h : Remembers state voted)
    (hpush : pushVote P state slot = .ok state') : Remembers state' (voted ++ [slot]) := by
  have hlen : (voted.rtake maxLockoutHistory).length ≤ 31 :=
    (voted.length_rtake _).trans_le (min_le_left _ _)
  rw [pushVote_stack h.votes (by omega)] at hpush
  cases hpush
  constructor
  · show stack _ = _
    rw [rtake_append_rtake]
  · show _ = ((voted ++ [slot]).rdrop maxLockoutHistory).getLast?
    rw [← rdrop_append_rdrop voted, getLast?_append, h.rootSlot]

theorem Remembers.pushVotes {slots : List UInt64} (h : Remembers state voted)
    (hfold : slots.foldlM (VoteProgram.pushVote P) state = .ok state') :
    Remembers state' (voted ++ slots) :=
  foldlM_history (R := fun voted state => Remembers state voted)
    (fun _ _ _ _ h hpush => h.pushVote hpush) h hfold

theorem addCredits_votes {epoch : UInt64} {count : ℕ}
    (h : addCredits P epoch count state = .ok state') :
    state'.votes = state.votes ∧ state'.rootSlot = state.rootSlot := by
  unfold addCredits at h
  split at h
  · cases h
    exact ⟨rfl, rfl⟩
  · obtain ⟨total, -, h⟩ := exceptBind_eq_ok.mp h
    split_ifs at h
    all_goals
      cases h
      exact ⟨rfl, rfl⟩

theorem recordTimestamp_eq (v : Vote) (state : VoteState) :
    (recordTimestamp v state).votes = state.votes ∧
      (recordTimestamp v state).rootSlot = state.rootSlot ∧
      (recordTimestamp v state).epochCredits = state.epochCredits := by
  unfold recordTimestamp
  split <;> exact ⟨rfl, rfl, rfl⟩

/-- **What the account remembers** after a vote: that vote too. -/
theorem Remembers.applyVote {epoch : UInt64} {v : Vote} (h : Remembers state voted)
    (happly : applyVote P epoch v state = .ok state') : Remembers state' (voted ++ v.slots) := by
  obtain ⟨mid, hfold, happly⟩ := exceptBind_eq_ok.mp happly
  obtain ⟨mid', hcredits, happly⟩ := exceptBind_eq_ok.mp happly
  cases happly
  obtain ⟨hvotes, hroot⟩ := h.pushVotes hfold
  obtain ⟨hvotes', hroot'⟩ := addCredits_votes hcredits
  obtain ⟨hvotes'', hroot'', -⟩ := recordTimestamp_eq v mid'
  exact ⟨hvotes''.trans (hvotes'.trans hvotes), hroot''.trans (hroot'.trans hroot)⟩

end Stack

/-! ### Well-formed votes -/

/-- The order that the votes of an account should be in. -/
structure WellFormed (state : VoteState) : Prop where
  ascending : (state.votes.map Lockout.slot).Pairwise (· < ·)
  descending : (state.votes.map Lockout.confirmationCount).Pairwise (· > ·)
  bounded : state.votes.length ≤ maxLockoutHistory
  above_root : ∀ root, state.rootSlot = some root → ∀ l ∈ state.votes, root < l.slot

/-- The root has not gone back. -/
def RootKept (state state' : VoteState) : Prop :=
  ∀ root, state.rootSlot = some root → ∃ root', state'.rootSlot = some root' ∧ root ≤ root'

/-- The slots of the vote go on from the votes of the account.  A vote for more slots than the
account keeps replaces all of them, and has to go on from the root. -/
def GoesOn (state : VoteState) (v : Vote) : Prop :=
  if v.slots.length ≤ maxLockoutHistory then
    ∀ l, state.votes.getLast? = some l → ∀ slot, v.slots.head? = some slot → l.slot < slot
  else
    ∀ root, state.rootSlot = some root →
      ∀ slot, (v.slots.rdrop maxLockoutHistory).getLast? = some slot → root ≤ slot

section WellFormed

variable {state state' : VoteState} {voted : List UInt64}

theorem Remembers.wellFormed_iff (h : Remembers state voted) :
    WellFormed state ↔ (voted.rtake (maxLockoutHistory + 1)).Pairwise (· < ·) := by
  have hlen : (voted.rtake maxLockoutHistory).length ≤ maxLockoutHistory :=
    (voted.length_rtake _).trans_le (min_le_left _ _)
  have hroot : (∀ root, state.rootSlot = some root → ∀ l ∈ state.votes, root < l.slot) ↔
      ∀ root ∈ state.rootSlot.toList, ∀ slot ∈ voted.rtake maxLockoutHistory, root < slot := by
    simp only [Option.mem_toList]
    refine forall₂_congr fun root _ => ?_
    rw [h.votes, ← forall_mem_map, map_slot_stack]
  rw [rtake_succ, pairwise_append, ← h.rootSlot, ← hroot]
  constructor
  · intro hwf
    have hasc := hwf.ascending
    rw [h.votes, map_slot_stack] at hasc
    refine ⟨?_, hasc, hwf.above_root⟩
    cases state.rootSlot <;> simp
  · rintro ⟨-, hasc, habove⟩
    refine ⟨?_, ?_, ?_, habove⟩
    · rwa [h.votes, map_slot_stack]
    · rw [h.votes]
      exact (count_stack (hlen.trans_lt (by decide))).2
    · rw [h.votes, length_stack]
      exact hlen

theorem Remembers.getLast? (h : Remembers state voted) :
    state.votes.getLast?.map Lockout.slot = voted.getLast? := by
  rw [h.votes, ← getLast?_map, map_slot_stack]
  exact voted.getLast?_rtake_succ 30

/-- A vote for few slots leaves the root among the votes that were there, or where it was. -/
theorem Remembers.rootKept {slots : List UInt64} (h : Remembers state voted)
    (h' : Remembers state' (voted ++ slots)) (hwf : WellFormed state)
    (hlen : slots.length ≤ maxLockoutHistory) : RootKept state state' := by
  intro root hroot
  rw [h'.rootSlot, ← rdrop_append_rdrop, getLast?_append, ← h.rootSlot, rdrop_append,
    rdrop_of_length_le hlen, append_nil]
  cases hlast : ((voted.rtake maxLockoutHistory).rdrop (maxLockoutHistory - slots.length)).getLast?
    with
  | none => exact ⟨root, by simpa using hroot, le_rfl⟩
  | some root' =>
    refine ⟨root', rfl, ?_⟩
    have hmem : root' ∈ state.votes.map Lockout.slot := by
      rw [h.votes, map_slot_stack]
      exact mem_of_mem_take (mem_of_getLast? hlast)
    obtain ⟨l, hl, rfl⟩ := mem_map.mp hmem
    exact (hwf.above_root root hroot l hl).le

/-- A vote keeps the votes well formed and the root where it was or above exactly if its slots go on
from what is there. -/
theorem goesOn_iff {v : Vote} (h : Remembers state voted)
    (h' : Remembers state' (voted ++ v.slots)) (hwf : WellFormed state) (hne : v.slots ≠ [])
    (hasc : v.slots.Pairwise (· < ·)) :
    WellFormed state' ∧ RootKept state state' ↔ GoesOn state v := by
  have hwindow := h.wellFormed_iff.mp hwf
  rw [h'.wellFormed_iff, rtake_append]
  unfold GoesOn
  split_ifs with hlen
  · -- The newest vote is still there, and the first new slot is next to it.
    have hpos := length_pos_iff.mpr hne
    obtain ⟨k, hk⟩ : ∃ k, maxLockoutHistory + 1 - v.slots.length = k + 1 :=
      ⟨maxLockoutHistory - v.slots.length, by omega⟩
    have hlast : (voted.rtake (k + 1)).getLast? = state.votes.getLast?.map Lockout.slot := by
      rw [h.getLast?, getLast?_rtake_succ]
    have hsub : (voted.rtake (k + 1)).Pairwise (· < ·) := by
      rw [← rtake_rtake voted (show k + 1 ≤ maxLockoutHistory + 1 by omega)]
      exact hwindow.sublist (drop_sublist _ _)
    have hkept := h.rootKept h' hwf hlen
    rw [and_iff_left hkept, hk, rtake_of_length_le (hlen.trans (Nat.le_succ _)), ← isChain_iff,
      isChain_append, isChain_iff, isChain_iff, hlast]
    simp [hsub, hasc]
  · -- All that is left is from the vote.
    have hwide : maxLockoutHistory < v.slots.length := not_le.mp hlen
    have hnew : (v.slots.rtake (maxLockoutHistory + 1)).Pairwise (· < ·) :=
      hasc.sublist (drop_sublist _ _)
    obtain ⟨slot, hslot⟩ : ∃ slot, (v.slots.rdrop maxLockoutHistory).getLast? = some slot := by
      refine ⟨_, getLast?_eq_some_getLast (ne_nil_of_length_pos ?_)⟩
      simp only [rdrop, length_take]
      omega
    have hroot : state'.rootSlot = some slot := by
      rw [h'.rootSlot, rdrop_append, getLast?_append, hslot]
      rfl
    rw [Nat.sub_eq_zero_of_le hwide, rtake_zero, nil_append]
    simp [hnew, RootKept, hroot, hslot]
/-- A fresh account remembers nothing. -/
theorem remembers_new (args : VoteInit) : Remembers (new args) [] := ⟨rfl, rfl⟩

end WellFormed

/-- The votes of the account are well formed after the instruction, and its root has not gone
back. -/
def StaysWellFormed (a a' : Account) : Prop :=
  ∀ state state', a.HoldsVotes state → a'.HoldsVotes state' →
    WellFormed state' ∧ RootKept state state'

/-- The instruction goes on from the votes that the account holds. -/
def CallGoesOn (a : Account) (c : VoteCall) : Prop :=
  ∀ state, a.HoldsVotes state → GoesOn state c.vote

section Run

variable {P : Platform} {a a' : Account} {c : VoteCall} {calls : List VoteCall}

theorem HoldsVotes.unique {state state' : VoteState} (h : a.HoldsVotes state)
    (h' : a.HoldsVotes state') : state = state' :=
  Except.ok.inj (Eq.trans (Eq.symm h) h')

/-- The account holds well-formed votes. -/
def InOrder (a : Account) : Prop :=
  ∃ state voted, a.HoldsVotes state ∧ Remembers state voted ∧ WellFormed state

theorem InOrder.staysWellFormed_iff (h : InOrder a) (hstep : VoteStep P a c a') :
    StaysWellFormed a a' ↔ CallGoesOn a c := by
  obtain ⟨state, voted, hstate, hvoted, hwf⟩ := h
  obtain ⟨st, state', hst, hstate', hne, hasc, happly⟩ := voteStep_inv hstep
  obtain rfl := HoldsVotes.unique hst hstate
  have hiff := goesOn_iff hvoted (hvoted.applyVote happly) hwf hne hasc
  constructor
  · intro hstays other hother
    obtain rfl := HoldsVotes.unique hother hstate
    exact hiff.mp (hstays _ _ hstate hstate')
  · intro hgoes other other' hother hother'
    obtain rfl := HoldsVotes.unique hother hstate
    obtain rfl := HoldsVotes.unique hother' hstate'
    exact hiff.mpr (hgoes _ hstate)

theorem InOrder.step (h : InOrder a) (hstep : VoteStep P a c a') (hstays : StaysWellFormed a a') :
    InOrder a' := by
  obtain ⟨state, voted, hstate, hvoted, hwf⟩ := h
  obtain ⟨st, state', hst, hstate', -, -, happly⟩ := voteStep_inv hstep
  obtain rfl := HoldsVotes.unique hst hstate
  exact ⟨state', _, hstate', hvoted.applyVote happly, (hstays _ _ hstate hstate').1⟩

theorem inOrder_of_fresh (h : a.FreshVotes) : InOrder a := by
  obtain ⟨args, hargs⟩ := h
  refine ⟨_, [], hargs, remembers_new args, (remembers_new args).wellFormed_iff.mpr ?_⟩
  simp

/-- **Well-formed votes.**  From a fresh account on, the votes are well formed and the root does not
go back, after every instruction, exactly if every instruction goes on from the votes that are
there. -/
theorem votesWellFormed_iff (hfresh : a.FreshVotes) :
    Trace.Steps (fun a c a' => VoteStep P a c a' ∧ StaysWellFormed a a') a calls a' ↔
      Trace.Steps (fun a c a' => VoteStep P a c a' ∧ CallGoesOn a c) a calls a' :=
  Trace.Steps.and_iff (fun _ _ _ h hstep hstays => h.step hstep hstays)
    (fun _ _ _ h hstep => h.staysWellFormed_iff hstep) (inOrder_of_fresh hfresh)

end Run

end VoteProgram

/-! ### Votes to evaluate on -/

namespace Sample

/-- The state of a vote account that nobody has voted with. -/
def newVotes : VoteState :=
  new ⟨repeated 1, repeated 1, repeated 1, 0⟩

/-- A vote account of the voter at the first position. -/
def voteAccount : Account :=
  (Account.new 5000000 (program .vote)).withData (codec.enc newVotes)

/-- A vote for the slots in the given epoch, on the vote account `a`. -/
def voteCall (epoch : UInt64) (slots : List UInt64) (a : Account) : VoteCall :=
  let vote : Vote := { slots, hash := Hash.zero, timestamp := none }
  { sysvars := { sysvars 1000 with clock := { slot := 1000, epoch, unixTimestamp := 0 } }
    accounts := [1, 0]
    data := VoteInstruction.codec.enc (.vote vote)
    vote
    context := TransactionContext.new [(repeated 1, wallet 100), (repeated 2, a)]
      (transaction 1 0 [repeated 1, repeated 2] []).message 1000 10000 }

/-- The vote account after the vote, if the instruction succeeds. -/
def castVote (a : Account) (vote : UInt64 × List UInt64) : Option Account :=
  let c := voteCall vote.1 vote.2 a
  if VoteInstruction.codec.tryFromSlice c.data = .ok (.vote c.vote) then
    ((VoteProgram.processVote (Platform.sample false) c.sysvars c.accounts c.data).run
      c.context).okState.bind (account? · 1)
  else none

theorem voteStep_of_castVote {a a' : Account} {vote : UInt64 × List UInt64}
    (h : castVote a vote = some a') :
    VoteStep .release a (voteCall vote.1 vote.2 a) a' := by
  simp only [castVote] at h
  split_ifs at h with hdata
  obtain ⟨s', hs', ha'⟩ := Option.bind_eq_some_iff.mp h
  obtain ⟨_, hrun⟩ := Outcome.okState_eq_some.mp hs'
  exact ⟨1, s', rfl, rfl, hdata, hrun, ha'⟩

theorem freshVotes_voteAccount : voteAccount.FreshVotes :=
  ⟨_, VoteState.codec.deserialize_enc (VoteProgram.fits_new _)⟩

end Sample

namespace VoteProgram

open Sample in
/-- The account votes for slot 5 and then for slot 3. -/
theorem vote_goes_back :
    voteAccount.FreshVotes ∧
      ∃ calls a' state, Trace.Steps (VoteStep (Platform.sample false)) voteAccount calls a' ∧
        a'.HoldsVotes state ∧ ¬ WellFormed state := by
  obtain ⟨a, ha, a', ha', state, hstate, hslots⟩ :
      ∃ a, castVote voteAccount (0, [5]) = some a ∧ ∃ a', castVote a (0, [3]) = some a' ∧
      ∃ state, VoteState.codec.deserialize a'.data = .ok state ∧
      state.votes.map Lockout.slot = [5, 3] := by decide +kernel
  refine ⟨freshVotes_voteAccount, _, a', state,
    .cons (voteStep_of_castVote ha) (.cons (voteStep_of_castVote ha') (.nil a')), hstate, ?_⟩
  intro hwf
  have hasc := hwf.ascending
  rw [hslots] at hasc
  exact absurd hasc (by decide)

open Sample in
/-- Votes for slot 5 and then for slot 8 stay well formed. -/
theorem votes_go_on :
    ∃ calls a', Trace.Steps (fun a c a' => VoteStep (Platform.sample false) a c a' ∧
      StaysWellFormed a a') voteAccount calls a' ∧ calls.length = 2 := by
  obtain ⟨a, ha, ⟨state, hstate, hslots⟩, hsome⟩ :
      ∃ a, castVote voteAccount (0, [5]) = some a ∧
      (∃ state, VoteState.codec.deserialize a.data = .ok state ∧
        state.votes.map Lockout.slot = [5]) ∧
      (castVote a (0, [8])).isSome := by decide +kernel
  obtain ⟨a', ha'⟩ := Option.isSome_iff_exists.mp hsome
  have hfirst : CallGoesOn voteAccount (voteCall 0 [5] voteAccount) := by
    intro other hother
    have hnew : voteAccount.HoldsVotes newVotes :=
      VoteState.codec.deserialize_enc (fits_new _)
    obtain rfl := HoldsVotes.unique hother hnew
    exact fun l hl => by cases hl
  have hsecond : CallGoesOn a (voteCall 0 [8] a) := by
    intro other hother
    obtain rfl := HoldsVotes.unique hother hstate
    intro l hl slot hslot
    cases hslot
    have hlast : some l.slot = some 5 := by
      rw [← Option.map_some, ← hl, ← getLast?_map, hslots]
      rfl
    rw [Option.some.inj hlast]
    decide
  refine ⟨[voteCall 0 [5] voteAccount, voteCall 0 [8] a], a',
    (votesWellFormed_iff freshVotes_voteAccount).mpr ?_, rfl⟩
  exact .cons ⟨voteStep_of_castVote ha, hfirst⟩
    (.cons ⟨voteStep_of_castVote ha', hsecond⟩ (.nil a'))

end VoteProgram

end Nusantara

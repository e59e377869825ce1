import Nusantara.Consensus.Tower
import Nusantara.Processors.VoteRuns

/-!
# The tower and the vote account

A validator keeps its votes twice: in its tower (`consensus/src/tower.rs`) and, by the votes it sends,
in its vote account (`runtime/src/processors/vote/vote_action.rs`).  The two stacks are not the same
machine:

* the tower drops a vote when its lockout is over, the account keeps it;
* the tower makes a vote its root when it **has** `MAX_LOCKOUT_HISTORY` confirmations, the account
  when it has one more, and does not fit any longer.

So they agree as long as nothing expires and nothing becomes a root.

## Main results

* `Tower.pushVote_stack`: what the tower makes of votes none of which has expired.
* `towerAgrees_iff`: the votes after each of which the tower and the account agree.
-/

namespace Nusantara

open Exec VoteProgram List Trace Tower Lockout UInt32

/-- The tower has not voted. -/
def Tower.Fresh (t : Tower) : Prop := ∃ args, t.voteState = VoteState.new args

/-- The vote is given to the account and to the tower, and both accept it. -/
def BothVote (P : Platform) (p : Account × Tower) (c : VoteCall) (q : Account × Tower) : Prop :=
  VoteStep P p.1 c q.1 ∧ ∃ result, (processVote P c.vote).run p.2 = .ok result q.2

/-- The account and the tower have the same votes and the same root. -/
def TowerAgrees (a : Account) (t : Tower) : Prop :=
  ∀ state, a.HoldsVotes state →
    state.votes = t.voteState.votes ∧ state.rootSlot = t.voteState.rootSlot

/-- There are fewer votes than make a root, and every slot is within the lockout of every slot
before it: no more than `2 ^ k` above the slot that was voted for `k` votes before. -/
structure StaysLocked (slots : List UInt64) : Prop where
  few : slots.length < maxLockoutHistory
  close : ∀ i k x y, slots[i]? = some x → slots[i + k]? = some y → y.toNat ≤ x.toNat + 2 ^ k

namespace Tower

variable {voted : List UInt64} {slot : UInt64}

theorem isLockedOutAtSlot_iff {l : Lockout} (h : l.confirmationCount.toNat < 64) :
    l.isLockedOutAtSlot slot = true ↔ slot.toNat ≤ l.slot.toNat + 2 ^ l.confirmationCount.toNat := by
  have hpow : 2 ^ l.confirmationCount.toNat < 2 ^ 64 := Nat.pow_lt_pow_right (by decide) h
  have hslot := slot.toNat_lt
  have hmin : min l.confirmationCount.toNat 63 = l.confirmationCount.toNat := by omega
  rw [isLockedOutAtSlot, decide_eq_true_eq, UInt64.le_iff_toNat_le, Word.saturatingAdd,
    Word.toNat_saturate, lockout, hmin, UInt64.toNat_ofNat_of_lt' hpow]
  omega

/-- Every vote of a short stack is locked out at a slot that is close to all of them. -/
theorem forall_locked_iff (h : voted.length < 64) :
    (∀ l ∈ stack voted, l.isLockedOutAtSlot slot = true) ↔
      ∀ i x, voted[i]? = some x → slot.toNat ≤ x.toNat + 2 ^ (voted.length - i) := by
  have hcount : ∀ i, (ofNat (voted.length - i)).toNat = voted.length - i := fun i =>
    toNat_ofNat_of_lt' (show voted.length - i < 2 ^ 32 by omega)
  have hat : ∀ i x, isLockedOutAtSlot ⟨x, ofNat (voted.length - i)⟩ slot = true ↔
      slot.toNat ≤ x.toNat + 2 ^ (voted.length - i) := by
    intro i x
    rw [isLockedOutAtSlot_iff (by rw [hcount]; omega), hcount]
  constructor
  · intro hall i x hx
    refine (hat i x).mp (hall _ (mem_iff_getElem?.mpr ⟨i, ?_⟩))
    rw [getElem?_stack, hx]
    rfl
  · intro hall l hl
    obtain ⟨i, hi⟩ := mem_iff_getElem?.mp hl
    rw [getElem?_stack] at hi
    obtain ⟨x, hx, rfl⟩ := Option.map_eq_some_iff.mp hi
    exact (hat i x).mpr (hall i x hx)

/-- The first vote of a stack is the first to become a root, when there are enough votes on it. -/
theorem dropWhile_stack (h : voted.length < 2 ^ 32) :
    (stack voted).dropWhile (fun l => maxLockoutHistory ≤ l.confirmationCount) = stack voted ↔
      voted.length < Nusantara.maxLockoutHistory := by
  cases voted with
  | nil => simp [stack, Nusantara.maxLockoutHistory]
  | cons slot above =>
    rw [length_cons] at h
    have hcount : (ofNat (above.length + 1)).toNat = above.length + 1 :=
      toNat_ofNat_of_lt' h
    have hhead : maxLockoutHistory ≤ ofNat (above.length + 1) ↔
        31 ≤ above.length + 1 := by
      rw [le_iff_toNat_le, hcount]
      rfl
    rw [dropWhile_eq_self_iff]
    simp only [stack, length_cons, getElem_cons_zero, decide_eq_true_eq, hhead,
      Nusantara.maxLockoutHistory]
    omega

end Tower

theorem StaysLocked.of_append {slots rest : List UInt64} (h : StaysLocked (slots ++ rest)) :
    StaysLocked slots := by
  have hleft : ∀ {i : ℕ} {x}, slots[i]? = some x → (slots ++ rest)[i]? = some x := by
    intro i x hx
    rw [List.getElem?_append_left (List.getElem?_eq_some_iff.mp hx).1, hx]
  refine ⟨?_, fun i k x y hx hy => h.close i k x y (hleft hx) (hleft hy)⟩
  have hfew := h.few
  rw [List.length_append] at hfew
  omega

/-- One more vote stays locked if there is room for it and every vote so far is locked at it. -/
theorem staysLocked_concat {voted : List UInt64} {slot : UInt64} (h : StaysLocked voted) :
    StaysLocked (voted ++ [slot]) ↔ voted.length + 1 < maxLockoutHistory ∧
      ∀ l ∈ stack voted, l.isLockedOutAtSlot slot = true := by
  have hfew : voted.length < 64 := h.few.trans (by decide)
  rw [forall_locked_iff hfew]
  constructor
  · rintro ⟨hlen, hclose⟩
    refine ⟨by simpa using hlen, fun i x hx => ?_⟩
    have hi := (List.getElem?_eq_some_iff.mp hx).1
    refine hclose i (voted.length - i) x slot ?_ ?_
    · rw [List.getElem?_append_left hi, hx]
    · rw [Nat.add_sub_cancel' hi.le, List.getElem?_concat_length]
  · rintro ⟨hlen, hlocked⟩
    refine ⟨by simpa using hlen, fun i k x y hx hy => ?_⟩
    have hik : i + k < voted.length + 1 := by simpa using (List.getElem?_eq_some_iff.mp hy).1
    rcases Nat.lt_succ_iff_lt_or_eq.mp hik with hlt | heq
    · -- Both slots were there before.
      rw [List.getElem?_append_left hlt] at hy
      rw [List.getElem?_append_left (by omega)] at hx
      exact h.close i k x y hx hy
    · rw [heq, List.getElem?_concat_length] at hy
      cases hy
      rcases Nat.eq_zero_or_pos k with rfl | hk
      · rw [Nat.add_zero] at heq
        rw [heq, List.getElem?_concat_length] at hx
        cases hx
        omega
      · rw [List.getElem?_append_left (by omega)] at hx
        have hclose := hlocked i x hx
        rwa [show voted.length - i = k by omega] at hclose

namespace Tower

variable {P : Platform} {t t' : Tower} {voted : List UInt64} {slot : UInt64}
  {result : TowerVoteResult}

/-- **A vote at which nothing expires**, and which is too few to make a root, goes on the stack. -/
theorem pushVote_stack (h : t.voteState.votes = stack voted)
    (hlen : voted.length + 1 < Nusantara.maxLockoutHistory)
    (hlocked : ∀ l ∈ stack voted, l.isLockedOutAtSlot slot = true) :
    ∃ result t', t.pushVote P slot = .ok (result, t') ∧
      t'.voteState.votes = stack (voted ++ [slot]) ∧
      t'.voteState.rootSlot = t.voteState.rootSlot := by
  have hshort : voted.length + 1 < 2 ^ 32 := hlen.trans (by decide)
  obtain ⟨confirmed, hmap, hstack⟩ := confirm_stack (P := P) hshort slot
  have hfilter : (stack voted).filter (fun l => l.isLockedOutAtSlot slot) = stack voted :=
    filter_eq_self.mpr hlocked
  have hnew : (voted ++ [slot]).length < 2 ^ 32 := by simpa using hshort
  have hdrop := (dropWhile_stack hnew).mpr (by simpa using hlen)
  have htake : (stack (voted ++ [slot])).takeWhile
      (fun l => maxLockoutHistory ≤ l.confirmationCount) = [] := by
    have happ := takeWhile_append_dropWhile (l := stack (voted ++ [slot]))
      (p := fun l => maxLockoutHistory ≤ l.confirmationCount)
    rw [hdrop] at happ
    exact append_left_eq_self.mp happ
  simp only [pushVote, h, hfilter, hmap, bind, Except.bind, pure, Except.pure, hstack, hdrop, htake]
  exact ⟨_, _, rfl, rfl, rfl⟩

/-- A tower that has kept all its votes has let none expire and made none a root. -/
theorem pushVote_stack_inv (h : t.voteState.votes = stack voted) (hlen : voted.length + 1 < 2 ^ 32)
    (hpush : t.pushVote P slot = .ok (result, t'))
    (hkept : t'.voteState.votes = stack (voted ++ [slot])) :
    voted.length + 1 < Nusantara.maxLockoutHistory ∧
      ∀ l ∈ stack voted, l.isLockedOutAtSlot slot = true := by
  simp only [pushVote, h, exceptBind_eq_ok] at hpush
  obtain ⟨confirmed, hmap, hpush⟩ := hpush
  obtain ⟨-, rfl⟩ := Prod.mk.inj (Except.ok.inj hpush)
  have hkept : (confirmed ++ [(⟨slot, 1⟩ : Lockout)]).dropWhile
      (fun l => maxLockoutHistory ≤ l.confirmationCount) = stack (voted ++ [slot]) := hkept
  -- Nothing may be lost: not to the filter, and not to the root.
  have hlocked : ∀ l ∈ stack voted, l.isLockedOutAtSlot slot = true := by
    have hle := congrArg length hkept
    have hsuffix := (dropWhile_suffix (l := confirmed ++ [⟨slot, 1⟩])
      fun l => decide (maxLockoutHistory ≤ l.confirmationCount)).length_le
    have hconfirmed := length_exceptMapM hmap
    have hfilter := length_filter_le (fun l => l.isLockedOutAtSlot slot) (stack voted)
    rw [length_stack, length_append, length_singleton] at hle
    rw [length_append, length_singleton] at hsuffix
    refine length_filter_eq_length_iff.mp ?_
    rw [length_stack] at hfilter ⊢
    omega
  refine ⟨?_, hlocked⟩
  obtain ⟨confirmed', hmap', hstack⟩ := confirm_stack (P := P) hlen slot
  rw [filter_eq_self.mpr hlocked, hmap'] at hmap
  cases hmap
  rw [hstack] at hkept
  have hnew : (voted ++ [slot]).length < 2 ^ 32 := by simpa using hlen
  simpa using (dropWhile_stack hnew).mp hkept

theorem processVote_single {v : Vote} (hv : v.slots = [slot]) :
    (∃ result, (processVote P v).run t = .ok result t') ↔
      t.Accepts v ∧ ∃ result, t.pushVote P slot = .ok (result, t') := by
  by_cases haccepts : t.Accepts v
  · obtain ⟨last, hlast, hrun⟩ := processVote_of_accepts (P := P) haccepts
    rw [hv, getLast?_singleton] at hlast
    cases hlast
    rw [hrun]
    cases t.pushVote P slot with
    | ok r => simp [haccepts, Prod.ext_iff, eq_comm]
    | error f => simp
  · refine iff_of_false (fun ⟨result, hrun⟩ => ?_) fun h => haccepts h.1
    exact haccepts (processVote_eq_ok hrun).1

end Tower

/-! ### The same votes -/

/-- The account and the tower both hold the votes so far. -/
structure Coupled (p : Account × Tower) (voted : List UInt64) : Prop where
  account : ∃ state, p.1.HoldsVotes state ∧ Remembers state voted
  votes : p.2.voteState.votes = stack voted
  rootSlot : p.2.voteState.rootSlot = none

section Agreement

variable {P : Platform} {p q : Account × Tower} {c : VoteCall} {voted : List UInt64}
  {slot : UInt64}

/-- The account keeps everything as long as there are few votes. -/
theorem voteStep_few {a a' : Account} {state : VoteState} (hstep : VoteStep P a c a')
    (hc : c.vote.slots = [slot]) (hstate : a.HoldsVotes state) (hvoted : Remembers state voted)
    (hlen : voted.length < maxLockoutHistory) :
    ∃ state', a'.HoldsVotes state' ∧ Remembers state' (voted ++ [slot]) ∧
      state'.votes = stack (voted ++ [slot]) ∧ state'.rootSlot = none := by
  obtain ⟨st, state', hst, hstate', -, -, happly⟩ := voteStep_inv hstep
  obtain rfl := HoldsVotes.unique hst hstate
  have hnew := hvoted.applyVote happly
  rw [hc] at hnew
  have hshort : (voted ++ [slot]).length ≤ maxLockoutHistory := by
    rw [length_append]
    exact hlen
  refine ⟨state', hstate', hnew, ?_, ?_⟩
  · rw [hnew.votes, rtake_of_length_le hshort]
  · rw [hnew.rootSlot, rdrop_of_length_le hshort]
    rfl

section

variable (h : Coupled p voted) (hlocked : StaysLocked voted)

include h hlocked

/-- One vote, after which the tower and the account agree. -/
theorem Coupled.staysLocked
    (hc : c.vote.slots = [slot]) (hboth : BothVote P p c q) (hagrees : TowerAgrees q.1 q.2) :
    StaysLocked (voted ++ [slot]) ∧ Coupled q (voted ++ [slot]) := by
  obtain ⟨hstep, hrun⟩ := hboth
  obtain ⟨state, hstate, hvoted⟩ := h.account
  obtain ⟨state', hstate', hnew, hvotes, hroot⟩ := voteStep_few hstep hc hstate hvoted hlocked.few
  obtain ⟨hsame, hsame'⟩ := hagrees state' hstate'
  obtain ⟨-, result, hpush⟩ := (processVote_single hc).mp hrun
  have hshort : voted.length + 1 < 2 ^ 32 := (Nat.succ_lt_succ hlocked.few).trans (by decide)
  have hkept := pushVote_stack_inv h.votes hshort hpush (hsame.symm.trans hvotes)
  exact ⟨(staysLocked_concat hlocked).mpr hkept, ⟨state', hstate', hnew⟩, hsame.symm.trans hvotes,
    hsame'.symm.trans hroot⟩

/-- One vote that stays locked is accepted by both, and they agree. -/
theorem Coupled.bothVote {a' : Account}
    (hc : c.vote.slots = [slot]) (hstep : VoteStep P p.1 c a') (hnext : StaysLocked (voted ++ [slot]))
    (hasc : ∀ x ∈ voted, x < slot) :
    ∃ t', BothVote P p c (a', t') ∧ TowerAgrees a' t' ∧ Coupled (a', t') (voted ++ [slot]) := by
  obtain ⟨hlen, hall⟩ := (staysLocked_concat hlocked).mp hnext
  obtain ⟨state, hstate, hvoted⟩ := h.account
  obtain ⟨state', hstate', hnew, hvotes, hroot⟩ := voteStep_few hstep hc hstate hvoted hlocked.few
  obtain ⟨result, t', hpush, hvotes', hroot'⟩ := Tower.pushVote_stack (P := P) h.votes hlen hall
  have haccepts : p.2.Accepts c.vote := by
    refine ⟨slot, by rw [hc]; rfl, fun root hr => ?_, fun l hl _ => ?_⟩
    · rw [Tower.rootSlot, h.rootSlot] at hr
      cases hr
    · rw [h.votes] at hl
      refine hasc l.slot ?_
      rw [← map_slot_stack voted]
      exact mem_map_of_mem hl
  have hrun := (Tower.processVote_single (P := P) hc).mpr ⟨haccepts, result, hpush⟩
  refine ⟨t', ⟨hstep, hrun⟩, ?_, ⟨state', hstate', hnew⟩, hvotes', hroot'.trans h.rootSlot⟩
  intro other hother
  obtain rfl := HoldsVotes.unique hother hstate'
  exact ⟨hvotes.trans hvotes'.symm, hroot.trans (hroot'.trans h.rootSlot).symm⟩

/-- The votes after each of which the two agree have stayed locked. -/
theorem Coupled.staysLocked_of_steps {calls : List VoteCall} {slots : List UInt64}
    (hsingle : List.Forall₂ (fun c slot => c.vote.slots = [slot]) calls slots)
    (hrun : Steps (fun p c q => BothVote P p c q ∧ TowerAgrees q.1 q.2) p calls q) :
    StaysLocked (voted ++ slots) := by
  induction hsingle generalizing p voted with
  | nil => simpa using hlocked
  | @cons c slot calls slots hc hsingle ih =>
    obtain ⟨mid, ⟨hboth, hagrees⟩, htail⟩ := Steps.cons_iff.mp hrun
    obtain ⟨hnext, hcoupled⟩ := h.staysLocked hlocked hc hboth hagrees
    simpa using ih hcoupled hnext htail

end

/-- Votes that stay locked are accepted by both, and the two agree after each. -/
theorem Coupled.steps_of_staysLocked {a' : Account} {calls : List VoteCall} {slots : List UInt64}
    (h : Coupled p voted) (hsingle : List.Forall₂ (fun c slot => c.vote.slots = [slot]) calls slots)
    (hasc : (voted ++ slots).Pairwise (· < ·)) (hlocked : StaysLocked (voted ++ slots))
    (hrun : Steps (VoteStep P) p.1 calls a') :
    ∃ t', Steps (fun p c q => BothVote P p c q ∧ TowerAgrees q.1 q.2) p calls (a', t') := by
  induction hsingle generalizing p voted with
  | nil =>
    obtain rfl := Steps.nil_iff.mp hrun
    exact ⟨p.2, .nil p⟩
  | @cons c slot calls slots hc hsingle ih =>
    obtain ⟨mid, hstep, htail⟩ := Steps.cons_iff.mp hrun
    have hsplit : voted ++ slot :: slots = voted ++ [slot] ++ slots := by simp
    have hbelow : ∀ x ∈ voted, x < slot := fun x hx =>
      (pairwise_append.mp hasc).2.2 x hx slot mem_cons_self
    rw [hsplit] at hasc hlocked
    obtain ⟨t, hboth, hagrees, hcoupled⟩ :=
      h.bothVote hlocked.of_append.of_append hc hstep hlocked.of_append hbelow
    obtain ⟨t', hsteps⟩ := ih hcoupled hasc hlocked htail
    exact ⟨t', .cons ⟨hboth, hagrees⟩ hsteps⟩

theorem coupled_fresh {a : Account} {t : Tower} (ha : a.FreshVotes) (ht : t.Fresh) :
    Coupled (a, t) [] := by
  obtain ⟨args, hargs⟩ := ha
  obtain ⟨args', hargs'⟩ := ht
  refine ⟨⟨_, hargs, remembers_new args⟩, ?_, ?_⟩
  · rw [hargs']
    rfl
  · rw [hargs']
    rfl

theorem staysLocked_nil : StaysLocked [] := ⟨by decide, by simp⟩

end Agreement

/-- **The tower and the vote account.**  Let a fresh account accept votes for single slots, one above
the other.  A fresh tower accepts them too and agrees with the account after each of them exactly if
they are fewer than make a root and every vote is still locked out at every later one. -/
theorem towerAgrees_iff {P : Platform} {a a' : Account} {t : Tower} {calls : List VoteCall}
    {slots : List UInt64} (ha : a.FreshVotes) (ht : t.Fresh)
    (hsingle : List.Forall₂ (fun c slot => c.vote.slots = [slot]) calls slots)
    (hasc : slots.Pairwise (· < ·)) (hrun : Trace.Steps (VoteStep P) a calls a') :
    (∃ t', Trace.Steps (fun p c q => BothVote P p c q ∧ TowerAgrees q.1 q.2) (a, t) calls (a', t')) ↔
      StaysLocked slots := by
  have hcoupled := coupled_fresh ha ht
  constructor
  · rintro ⟨t', hsteps⟩
    exact hcoupled.staysLocked_of_steps staysLocked_nil hsingle hsteps
  · intro hlocked
    exact hcoupled.steps_of_staysLocked hsingle hasc hlocked hrun

/-! ### Votes that are far apart -/

namespace Sample

/-- A tower that has not voted. -/
def newTower : Tower := ⟨newVotes⟩

/-- The tower after a vote for a slot, if it is accepted. -/
def towerVote (t : Tower) (slot : UInt64) : Option Tower :=
  ((processVote (Platform.sample false) (voteCall 0 [slot] voteAccount).vote).run t).okState

theorem bothVote_of_eq {a a' : Account} {t t' : Tower} {slot : UInt64}
    (ha : castVote a (0, [slot]) = some a') (ht : towerVote t slot = some t') :
    BothVote .release (a, t) (voteCall 0 [slot] a) (a', t') := by
  have hstep := voteStep_of_castVote ha
  exact ⟨hstep, Outcome.okState_eq_some.mp ht⟩

end Sample

open Sample in
/-- Both accept votes for slot 1 and then for slot 10: the tower has dropped the first vote, the
account has confirmed it. -/
theorem tower_drops_what_the_account_keeps :
    voteAccount.FreshVotes ∧ newTower.Fresh ∧
      ∃ calls q, List.Forall₂ (fun c slot => c.vote.slots = [slot]) calls [1, 10] ∧
        Trace.Steps (BothVote (Platform.sample false)) (voteAccount, newTower) calls q ∧
        ¬ TowerAgrees q.1 q.2 := by
  obtain ⟨a, ha, a', ha', ⟨state, hstate, hslots⟩, t, ht, t', ht', hdropped⟩ :
      ∃ a, castVote voteAccount (0, [1]) = some a ∧ ∃ a', castVote a (0, [10]) = some a' ∧
      (∃ state, VoteState.codec.deserialize a'.data = .ok state ∧
        state.votes.map slot = [1, 10]) ∧
      ∃ t, towerVote newTower 1 = some t ∧ ∃ t', towerVote t 10 = some t' ∧
      t'.voteState.votes.map slot = [10] := by decide +kernel
  refine ⟨freshVotes_voteAccount, ⟨_, rfl⟩, [voteCall 0 [1] voteAccount, voteCall 0 [10] a],
    (a', t'), .cons rfl (.cons rfl .nil),
    .cons (bothVote_of_eq ha ht) (.cons (bothVote_of_eq ha' ht') (.nil _)), ?_⟩
  intro hagrees
  have hsame := congrArg (map slot) (hagrees state hstate).1
  rw [hslots, hdropped] at hsame
  exact absurd hsame (by decide)

open Sample in
/-- The tower agrees with an account that has voted for slot 1 and then for slot 2. -/
theorem tower_agrees_on_two_votes :
    ∃ calls q, List.Forall₂ (fun c slot => c.vote.slots = [slot]) calls [1, 2] ∧
      Trace.Steps (fun p c q => BothVote (Platform.sample false) p c q ∧ TowerAgrees q.1 q.2)
        (voteAccount, newTower) calls q := by
  obtain ⟨a, ha, hrun⟩ :
      ∃ a, castVote voteAccount (0, [1]) = some a ∧ (castVote a (0, [2])).isSome := by
    decide +kernel
  obtain ⟨a', ha'⟩ := Option.isSome_iff_exists.mp hrun
  have hsingle : List.Forall₂ (fun (c : VoteCall) slot => c.vote.slots = [slot])
      [voteCall 0 [1] voteAccount, voteCall 0 [2] a] [1, 2] := .cons rfl (.cons rfl .nil)
  have hlocked : StaysLocked [1, 2] := by
    refine (staysLocked_concat ((staysLocked_concat staysLocked_nil).mpr ⟨by decide, ?_⟩)).mpr
      ⟨by decide, ?_⟩
    · simp [stack]
    · decide
  obtain ⟨t', hsteps⟩ := (towerAgrees_iff freshVotes_voteAccount ⟨_, rfl⟩ hsingle (by decide)
    (.cons (voteStep_of_castVote ha) (.cons (voteStep_of_castVote ha') (.nil a')))).mpr hlocked
  exact ⟨_, _, hsingle, hsteps⟩

end Nusantara

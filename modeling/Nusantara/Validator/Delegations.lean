import Nusantara.Validator.Lifetime

/-!
# Where the stakes come from

The stakes and leaders of an epoch are computed at its boundary from three things that the bank
keeps: delegations, vote accounts and penalties.  None of them follows the chain.  The delegations
and the vote accounts are those that boot has read, and the penalties are for the double votes that
this node happened to see.

So two nodes agree on the next epoch exactly if their penalties come to the same.

## Main results

* `RunningNode.sameNextEpoch_iff`: when two nodes compute the same stakes and leaders.
-/

namespace Nusantara

open Exec Storage ReplayStage Word List Finmap StakeBook Hash

/-! ### Runs -/

namespace RunningNode

variable {P : Platform} {config : ValidatorConfig} {g : Genesis} {c c' : BootConfig}
  {s s' : Storage} {v₀ v₀' v v' w w' : RunningNode} {events events' : List LifeEvent}
  {epoch : UInt64}

theorem epochSchedule_processGossipVotes (P : Platform) (config : ValidatorConfig)
    {votes : List GossipVote} (h : v.processGossipVotes votes = .ok v') :
    v'.node.stage.bank.epochSchedule = v.node.stage.bank.epochSchedule := by
  obtain ⟨w, hw, h⟩ := exceptBind_eq_ok.mp h
  cases h
  have hfold : w.node.stage.bank.epochSchedule = v.node.stage.bank.epochSchedule := by
    refine foldlM_keeps (I := fun w : RunningNode => w.node.stage.bank.epochSchedule
      = v.node.stage.bank.epochSchedule) (fun vote _ w w' hw hstep => ?_) rfl hw
    obtain ⟨node, hnode, hstep⟩ := exceptBind_eq_ok.mp hstep
    cases hstep
    have hnode : ValidatorNode.NodeStep P config _ (.gossip vote.voter vote.slot vote.hash) node :=
      hnode
    exact (ValidatorNode.epochSchedule_nodeStep hnode).trans hw
  unfold purgeDetector
  split_ifs <;> exact hfold

/-- What a node is in every state after a boot: its book is the one of the boot, up to penalties, and
its epochs are those of genesis. -/
structure AfterBoot (g : Genesis) (s : Storage) (v : RunningNode) : Prop where
  book : ∃ b, Registered g s b ∧ b.Settled v.book
  epochSchedule : v.node.stage.bank.epochSchedule = g.epochSchedule

theorem AfterBoot.endless (h : AfterBoot g s v) : v.book.Endless := by
  obtain ⟨b, hb, hbook⟩ := h.book
  exact hbook.endless hb.endless

theorem AfterBoot.supply (h : AfterBoot g s v) : v.book.totalSupply = 0 := by
  obtain ⟨b, -, hbook⟩ := h.book
  exact hbook.supply

theorem AfterBoot.step {e : LifeEvent} (h : AfterBoot g s v)
    (hstep : LifeStep P config g.hash v e v') : AfterBoot g s v' := by
  obtain ⟨b, hb, hbook⟩ := h.book
  have hsettled := settled_of_steps hb.endless hbook (.cons hstep (.nil v'))
  refine ⟨⟨b, hb, hsettled⟩, Eq.trans ?_ h.epochSchedule⟩
  cases e with
  | loop e =>
    obtain ⟨-, node, hnode, rfl⟩ := hstep
    exact ValidatorNode.epochSchedule_nodeStep hnode
  | gossip votes => exact epochSchedule_processGossipVotes P config hstep
  | epoch turns o => exact (checkEpochBoundary_eq_some h.endless h.supply hstep).2.2.1

/-- **After a boot**: what every state of a run has kept. -/
theorem afterBoot_of_steps (hboot : boot P g c s = .ok v₀)
    (hrun : Trace.Steps (LifeStep P config g.hash) v₀ events v) : AfterBoot g s v := by
  have hv₀ := boot_eq_ok hboot
  have hstart : AfterBoot g s v₀ :=
    ⟨⟨v₀.book, hv₀.registered, .refl hv₀.registered.supply⟩, hv₀.epochSchedule⟩
  exact hrun.invariant (G := fun _ => True) (fun _ _ _ hv _ hstep => hv.step hstep) hstart
    fun _ _ => trivial

/-! ### What two boots have in common -/

theorem lookup_foldl_withVoteState (l : List Hash) (m : Finmap fun _ : Hash => VoteState) (a : Hash) :
    (l.foldl (withVoteState s) m).lookup a
      = if a ∈ l then (s.voteState? a).or (m.lookup a) else m.lookup a := by
  induction l generalizing m with
  | nil => rfl
  | cons x l ih =>
    have hstep : (withVoteState s m x).lookup a
        = if a = x then (s.voteState? a).or (m.lookup a) else m.lookup a := by
      unfold withVoteState
      by_cases hx : a = x
      · subst hx
        rw [if_pos rfl]
        cases s.voteState? a with
        | none => rfl
        | some state => exact lookup_insert _
      · rw [if_neg hx]
        cases s.voteState? x with
        | none => rfl
        | some state => exact lookup_insert_of_ne _ hx
    rw [foldl_cons, ih, hstep]
    by_cases hx : a = x
    · subst hx
      rw [if_pos rfl, if_pos mem_cons_self]
      split_ifs
      · rw [← Option.or_assoc, Option.or_self]
      · rfl
    · simp [hx]

/-- The validator that a vote account names, in the store. -/
def nodeOf (s : Storage) (voteAccount : Hash) : Option Hash :=
  (s.voteState? voteAccount).map VoteState.nodePubkey

theorem identityOf_registered {b : StakeBook} (h : Registered g s b) (a : Hash) :
    b.identityOf a =
      if a ∈ g.validators.map GenesisValidatorInfo.voteAccount then (nodeOf s a).getD a else a := by
  unfold identityOf nodeOf
  rw [h.voteAccounts, lookup_foldl_withVoteState]
  have hempty : (∅ : Finmap fun _ : Hash => VoteState).lookup a = none := rfl
  rw [hempty, Option.or_none]
  split_ifs
  · rfl
  · rfl

/-- Banks that boot on stores whose vote accounts name the same validators have the same delegations,
to the same validators. -/
theorem sameDelegations_of_registered {b b' : StakeBook} (h : Registered g s b)
    (h' : Registered g s' b')
    (hnodes : ∀ u ∈ g.validators, nodeOf s' u.voteAccount = nodeOf s u.voteAccount) :
    b.SameDelegations b' := by
  refine ⟨ext_lookup fun a => by rw [h.delegations, h'.delegations], fun a => ?_⟩
  rw [identityOf_registered h, identityOf_registered h']
  split_ifs with ha
  · obtain ⟨u, hu, rfl⟩ := mem_map.mp ha
    rw [hnodes u hu]
  · rfl

theorem AfterBoot.sameDelegations (h : AfterBoot g s v) (h' : AfterBoot g s' v')
    (hnodes : ∀ u ∈ g.validators, nodeOf s' u.voteAccount = nodeOf s u.voteAccount) :
    v.book.SameDelegations v'.book := by
  obtain ⟨b, hb, hbook⟩ := h.book
  obtain ⟨b', hb', hbook'⟩ := h'.book
  have hsame := sameDelegations_of_registered hb hb' hnodes
  have hback : v.book.SameDelegations b :=
    ⟨hbook.delegations.symm, fun a => (hbook.identities a).symm⟩
  exact (hback.trans hsame).trans hbook'.toSameDelegations

/-! ### Two nodes -/

/-- Two nodes have the same stakes, the same total, and compute the same leaders for an epoch,
whatever order their hash maps have. -/
structure SameNextEpoch (P : Platform) (g : Genesis) (epoch : UInt64) (w w' : RunningNode) :
    Prop where
  stakes : w'.node.stage.bank.epochStakes = w.node.stage.bank.epochStakes
  total : w'.book.totalActiveStake = w.book.totalActiveStake
  leaders : ∀ o o' : IterOrder Hash,
    computeSchedule P w'.node.stage.bank.epochSchedule epoch
        (w'.node.stage.bank.epochStakes.listed o') g.hash
      = computeSchedule P w.node.stage.bank.epochSchedule epoch
        (w.node.stage.bank.epochStakes.listed o) g.hash

/-- The leaders follow from the stakes. -/
theorem SameNextEpoch.of_stakes
    (hschedule : w'.node.stage.bank.epochSchedule = w.node.stage.bank.epochSchedule)
    (hstakes : w'.node.stage.bank.epochStakes = w.node.stage.bank.epochStakes)
    (htotal : w'.book.totalActiveStake = w.book.totalActiveStake) :
    SameNextEpoch P g epoch w w' := by
  refine ⟨hstakes, htotal, fun o o' => ?_⟩
  rw [hschedule, hstakes]
  exact computeSchedule_perm (listed_perm o' o)

/-- **What two nodes compute.**  Two nodes of a chain, each of which has booted, and run on whatever
it received up to the last slot before an epoch, compute the same stakes and leaders for it exactly
if their penalties leave the same of the stake of each validator.  Their boots are on stores whose
vote accounts name the same validators. -/
theorem sameNextEpoch_iff {turns turns' : List Worker} {o o' : HashOrders}
    (hboot : boot P g c s = .ok v₀) (hboot' : boot P g c' s' = .ok v₀')
    (hnodes : ∀ u ∈ g.validators, nodeOf s' u.voteAccount = nodeOf s u.voteAccount)
    (hrun : Trace.Steps (LifeStep P config g.hash) v₀ events v)
    (hrun' : Trace.Steps (LifeStep P config g.hash) v₀' events' v')
    (hat : v.AtBoundary P epoch) (hat' : v'.AtBoundary P epoch)
    (hw : v.checkEpochBoundary P config g.hash turns o = .ok (some w))
    (hw' : v'.checkEpochBoundary P config g.hash turns' o' = .ok (some w')) :
    SameNextEpoch P g epoch w w' ↔
      ∀ validator stake, (v.book.delegated epoch).stakes.lookup validator = some stake →
        v'.book.left validator stake = v.book.left validator stake := by
  have hv := afterBoot_of_steps hboot hrun
  have hv' := afterBoot_of_steps hboot' hrun'
  obtain ⟨-, -, hschedule, hcomputed⟩ := checkEpochBoundary_eq_some hv.endless hv.supply hw
  obtain ⟨-, -, hschedule', hcomputed'⟩ := checkEpochBoundary_eq_some hv'.endless hv'.supply hw'
  obtain ⟨hstakes, htotal⟩ := hcomputed epoch hat
  obtain ⟨hstakes', htotal'⟩ := hcomputed' epoch hat'
  rw [← recalculated_eq_iff (hv.sameDelegations hv' hnodes)]
  constructor
  · intro h
    have hs := h.stakes
    have ht := h.total
    rw [hstakes', hstakes] at hs
    rw [htotal', htotal] at ht
    exact StakeBook.EpochStakes.ext hs ht
  · intro h
    refine .of_stakes ?_ ?_ ?_
    · rw [hschedule', hschedule, hv.epochSchedule, hv'.epochSchedule]
    · rw [hstakes', hstakes, h]
    · rw [htotal', htotal, h]

end RunningNode

namespace Sample

/-- A node of the same chain that is no validator. -/
def observerConfig : BootConfig := { bootConfig 0 with identity := repeated 6 }

/-- The validator votes for two blocks in slot 1. -/
def doubleVote : List GossipVote :=
  [⟨repeated 5, 1, repeated 1⟩, ⟨repeated 5, 1, repeated 2⟩]

/-- First the rent, then the rewards. -/
def oneByOne : List Worker := replicate 9 .rent ++ replicate 9 .reward

/-- Hash maps in the order of their keys. -/
def keyOrders : RunningNode.HashOrders :=
  ⟨⟨id, List.Perm.refl⟩, ⟨id, List.Perm.refl⟩, ⟨id, List.Perm.refl⟩⟩

/-- A node in its last slot before epoch 1, and after it. -/
def crosses (g : Genesis) (v w : RunningNode) : Bool :=
  decide (v.node.stage.bank.epochSchedule.getEpoch tailPlatform v.node.currentSlot = .ok 0 ∧
    tailPlatform.wrapAdd 64 v.node.currentSlot.toNat 1 = .ok 2 ∧
    v.node.stage.bank.epochSchedule.getEpoch tailPlatform (UInt64.ofNat 2) = .ok 1 ∧
    v.checkEpochBoundary tailPlatform config g.hash oneByOne keyOrders = .ok (some w))

theorem crosses_eq_true {g : Genesis} {v w : RunningNode} (h : crosses g v w = true) :
    v.AtBoundary tailPlatform 1 ∧
      v.checkEpochBoundary tailPlatform config g.hash oneByOne keyOrders = .ok (some w) := by
  obtain ⟨hcurrent, hnext, hepoch, hw⟩ := of_decide_eq_true h
  exact ⟨⟨0, 2, hcurrent, hnext, hepoch, by decide⟩, hw⟩

/-- The node after the boundary. -/
def crossed (g : Genesis) (v : RunningNode) : Option RunningNode :=
  ((v.checkEpochBoundary tailPlatform config g.hash oneByOne keyOrders).toOption).join

end Sample

open Sample RunningNode in
/-- One node hears the validator vote twice, another does not: they give it another stake. -/
theorem double_vote_seen_by_one_node :
    ∃ g s v₀ v₀' v w w', genesisConfig.build tailPlatform Storage.empty = .ok (g, s) ∧
      boot tailPlatform g (bootConfig 0) s = .ok v₀ ∧ boot tailPlatform g observerConfig s = .ok v₀' ∧
      Trace.Steps (LifeStep tailPlatform config g.hash) v₀ [.gossip doubleVote] v ∧
      v.AtBoundary tailPlatform 1 ∧ v₀'.AtBoundary tailPlatform 1 ∧
      v.checkEpochBoundary tailPlatform config g.hash oneByOne keyOrders = .ok (some w) ∧
      v₀'.checkEpochBoundary tailPlatform config g.hash oneByOne keyOrders = .ok (some w') ∧
      ¬ SameNextEpoch tailPlatform g 1 w w' := by
  obtain ⟨⟨g, s⟩, hg, v₀, hv₀, v₀', hv₀', v, hv, w, -, w', -, hw, hw', hne⟩ :
      OnBoot genesisConfig fun q v₀ =>
      ∃ v₀', boot tailPlatform q.1 observerConfig q.2 = .ok v₀' ∧
      ∃ v, v₀.processGossipVotes doubleVote = .ok v ∧ ∃ w, crossed q.1 v = some w ∧
      ∃ w', crossed q.1 v₀' = some w' ∧ crosses q.1 v w ∧ crosses q.1 v₀' w' ∧
      w'.node.stage.bank.epochStakes ≠ w.node.stage.bank.epochStakes := by decide +kernel
  obtain ⟨hat, hw⟩ := crosses_eq_true hw
  obtain ⟨hat', hw'⟩ := crosses_eq_true hw'
  exact ⟨g, s, v₀, v₀', v, w, w', hg, hv₀, hv₀', .cons hv (.nil v), hat, hat', hw, hw',
    fun h => hne h.stakes⟩

open Sample RunningNode in
/-- Two nodes that have heard nothing agree. -/
theorem silent_nodes_agree :
    ∃ g s v₀ v₀' w w', genesisConfig.build tailPlatform Storage.empty = .ok (g, s) ∧
      boot tailPlatform g (bootConfig 0) s = .ok v₀ ∧ boot tailPlatform g observerConfig s = .ok v₀' ∧
      v₀.checkEpochBoundary tailPlatform config g.hash oneByOne keyOrders = .ok (some w) ∧
      v₀'.checkEpochBoundary tailPlatform config g.hash oneByOne keyOrders = .ok (some w') ∧
      SameNextEpoch tailPlatform g 1 w w' := by
  obtain ⟨⟨g, s⟩, hg, v₀, hv₀, v₀', hv₀', w, -, w', -, hw, hw'⟩ :
      OnBoot genesisConfig fun q v₀ =>
      ∃ v₀', boot tailPlatform q.1 observerConfig q.2 = .ok v₀' ∧ ∃ w, crossed q.1 v₀ = some w ∧
      ∃ w', crossed q.1 v₀' = some w' ∧ crosses q.1 v₀ w ∧ crosses q.1 v₀' w' := by decide +kernel
  obtain ⟨hat, hw⟩ := crosses_eq_true hw
  obtain ⟨hat', hw'⟩ := crosses_eq_true hw'
  have hnil : Trace.Steps (LifeStep tailPlatform config g.hash) v₀ [] v₀ := .nil _
  have hnil' : Trace.Steps (LifeStep tailPlatform config g.hash) v₀' [] v₀' := .nil _
  refine ⟨g, s, v₀, v₀', w, w', hg, hv₀, hv₀', hw, hw', (sameNextEpoch_iff hv₀ hv₀' (fun _ _ => rfl)
    hnil hnil' hat hat' hw hw').mpr fun u stake _ => ?_⟩
  rw [left, left, getSlashedAmount, getSlashedAmount,
    (boot_eq_ok hv₀).registered.slashRegistry, (boot_eq_ok hv₀').registered.slashRegistry]

end Nusantara

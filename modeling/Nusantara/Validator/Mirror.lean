import Nusantara.Validator.Delegations

/-!
# The delegations of the bank and of the chain

Stake accounts hold delegations, and stake instructions change them.  The bank has delegations of its
own, which boot has made from the validators of genesis, and nothing that is executed ever reaches
them.

## Main results

* `RunningNode.mirrorsChain_iff`: the bank has the delegations of the chain exactly as long as the
  chain has those of genesis, and a restart agrees with a node that goes on if the vote accounts still
  name the same validators and nobody was punished.
-/

namespace Nusantara

open Exec Storage List StakeBook

/-- What consensus reads of a delegation: voter, stake, and the epochs of activation and
deactivation. -/
def Delegation.terms (d : Delegation) : Hash × UInt64 × UInt64 × UInt64 :=
  (d.voterPubkey, d.stake, d.activationEpoch, d.deactivationEpoch)

/-- The delegation that a stake account holds. -/
def Storage.stakeDelegation? (P : Platform) (s : Storage) (a : Hash) : Option Delegation := do
  let account ← s.getAccount a
  if account.owner = P.programId .stake then
    let state ← (StakeStateV2.codec.tryFromSlice account.data).toOption
    let parts ← state.delegated?
    return parts.2.delegation
  else none

/-- The stake accounts hold the delegations of genesis, and no others. -/
def Genesis.OnChain (P : Platform) (g : Genesis) (s : Storage) : Prop :=
  ∀ a, (s.stakeDelegation? P a).map Delegation.terms
    = (g.delegation a).map fun d => d.toDelegation.terms

namespace RunningNode

/-- The bank has the delegations of the stake accounts, and no others. -/
def MirrorsChain (P : Platform) (v : RunningNode) : Prop :=
  ∀ a, (v.book.stakeDelegations.lookup a).map (fun d => d.toDelegation.terms)
    = (v.node.storage.stakeDelegation? P a).map Delegation.terms

/-- A node that boots on the store of this one computes the stakes and the leaders that this one goes
on with, whatever the epoch. -/
def RestartAgrees (P : Platform) (g : Genesis) (v : RunningNode) : Prop :=
  ∀ c w, boot P g c v.node.storage = .ok w → ∀ epoch,
    w.book.recalculated epoch = (v.book.removeCooled epoch).recalculated epoch ∧
      ∀ o o' : IterOrder Hash,
        computeSchedule P g.epochSchedule epoch ((w.book.recalculated epoch).stakes.listed o) g.hash
          = computeSchedule P g.epochSchedule epoch
            (((v.book.removeCooled epoch).recalculated epoch).stakes.listed o') g.hash

variable {P : Platform} {config : ValidatorConfig} {g : Genesis} {c : BootConfig} {s : Storage}
  {v₀ v : RunningNode} {events : List LifeEvent}

theorem AfterBoot.lookup_delegation (h : AfterBoot g s v) (a : Hash) :
    v.book.stakeDelegations.lookup a = g.delegation a := by
  obtain ⟨b, hb, hbook⟩ := h.book
  rw [hbook.delegations, hb.delegations]

theorem AfterBoot.restartAgrees (h : AfterBoot g s v)
    (hnodes : ∀ u ∈ g.validators,
      nodeOf v.node.storage u.voteAccount = nodeOf s u.voteAccount)
    (hclean : ∀ validator, v.book.getSlashedAmount validator = 0) : v.RestartAgrees P g := by
  intro c w hboot epoch
  have hw := (boot_eq_ok hboot).registered
  have hw' : AfterBoot g v.node.storage w :=
    ⟨⟨w.book, hw, .refl hw.supply⟩, (boot_eq_ok hboot).epochSchedule⟩
  have hstakes : w.book.recalculated epoch = (v.book.removeCooled epoch).recalculated epoch := by
    rw [removeCooled_eq h.endless]
    refine (recalculated_eq_iff (h.sameDelegations hw' hnodes)).mpr fun u stake _ => ?_
    have hnone : w.book.getSlashedAmount u = 0 := by
      rw [getSlashedAmount, hw.slashRegistry]
      rfl
    rw [left, left, hclean, hnone]
  refine ⟨hstakes, fun o o' => ?_⟩
  rw [hstakes]
  exact computeSchedule_perm (Finmap.listed_perm o o')

/-- **The bank and the chain.**  In every state that a node reaches after a boot, its delegations are
those of the stake accounts exactly if the stake accounts have those of genesis.  A restart in that
state computes the same stakes and leaders if the vote accounts of genesis name the validators that
they named at boot, and no validator was punished. -/
theorem mirrorsChain_iff (hboot : boot P g c s = .ok v₀)
    (hrun : Trace.Steps (LifeStep P config g.hash) v₀ events v) :
    (v.MirrorsChain P ↔ g.OnChain P v.node.storage) ∧
      ((∀ u ∈ g.validators, nodeOf v.node.storage u.voteAccount = nodeOf s u.voteAccount) →
        (∀ validator, v.book.getSlashedAmount validator = 0) → v.RestartAgrees P g) := by
  have hv := afterBoot_of_steps hboot hrun
  refine ⟨forall_congr' fun a => ?_, hv.restartAgrees⟩
  rw [hv.lookup_delegation, eq_comm]

end RunningNode

/-! ### At genesis, and after it -/

namespace Sample

/-- The validator withdraws its delegation. -/
def deactivation (g : Genesis) : Transaction :=
  ofValidator g (GenesisTally.stakeAddress tailPlatform (Hash.repeated 5)) .stake
    (StakeInstruction.codec.enc .deactivate)

/-- All accounts of the store, and all validators of genesis, are as in genesis. -/
def onChain (g : Genesis) (s : Storage) : Bool :=
  (s.accountIndex.keys.ascending.all fun a =>
      decide ((s.stakeDelegation? tailPlatform a).map Delegation.terms
        = (g.delegation a).map fun d => d.toDelegation.terms)) &&
    g.validators.all fun u => decide (u.stakeAccount ∈ s.accountIndex)

theorem onChain_eq_true {g : Genesis} {s : Storage} (h : onChain g s = true) :
    g.OnChain tailPlatform s := by
  obtain ⟨haccounts, hvalidators⟩ := Bool.and_eq_true_iff.mp h
  intro a
  by_cases ha : a ∈ s.accountIndex
  · have hmem : a ∈ s.accountIndex.keys.ascending := by
      rw [Finset.mem_ascending, Finmap.mem_keys]
      exact ha
    exact of_decide_eq_true (all_eq_true.mp haccounts a hmem)
  · have hread : s.getAccount a = none := by
      rw [Storage.getAccount, Finmap.lookup_eq_none.mpr ha]
      rfl
    have hgenesis : g.delegation a = none := by
      rw [Genesis.delegation, Option.map_eq_none_iff, find?_eq_none]
      intro u hu hua
      have hin := of_decide_eq_true (all_eq_true.mp hvalidators u (mem_reverse.mp hu))
      exact ha (of_decide_eq_true hua ▸ hin)
    rw [hgenesis, Storage.stakeDelegation?, hread]
    rfl

end Sample

open Sample RunningNode in
/-- After genesis the bank has the delegations of the chain, and a restart changes nothing. -/
theorem genesis_is_mirrored :
    ∃ g s v, genesisConfig.build tailPlatform Storage.empty = .ok (g, s) ∧
      boot tailPlatform g (bootConfig 0) s = .ok v ∧ v.AtBoundary tailPlatform 1 ∧
        v.MirrorsChain tailPlatform ∧ v.RestartAgrees tailPlatform g := by
  obtain ⟨⟨g, s⟩, hg, v, hv, w, -, hw, hchain⟩ :
      OnBoot genesisConfig fun q v => ∃ w, crossed q.1 v = some w ∧
      crosses q.1 v w ∧ onChain q.1 q.2 := by decide +kernel
  have hnil : Trace.Steps (LifeStep tailPlatform config g.hash) v [] v := .nil v
  have hbooted : Booted tailPlatform g (bootConfig 0) s v := boot_eq_ok hv
  obtain ⟨hmirrors, hrestart⟩ := mirrorsChain_iff hv hnil
  refine ⟨g, s, v, hg, hv, (crosses_eq_true hw).1, hmirrors.mpr ?_, hrestart ?_ ?_⟩
  · rw [hbooted.storage]
    exact onChain_eq_true hchain
  · rw [hbooted.storage]
    exact fun _ _ => rfl
  · intro validator
    rw [getSlashedAmount, hbooted.registered.slashRegistry]
    rfl

open Sample RunningNode in
/-- The validator deactivates its stake in the last slot of an epoch: the stake account says so, the
bank does not. -/
theorem deactivation_is_not_mirrored :
    ∃ g s v₀ v, genesisConfig.build tailPlatform Storage.empty = .ok (g, s) ∧
      boot tailPlatform g (bootConfig 0) s = .ok v₀ ∧
      Trace.Steps (LifeStep tailPlatform config g.hash) v₀
        [.loop (.produce inOrder 0 [deactivation g])] v ∧
      v.AtBoundary tailPlatform 1 ∧ ¬ v.MirrorsChain tailPlatform := by
  obtain ⟨⟨g, s⟩, hg, v₀, hv₀, n, hn, w, -, hw, hne⟩ :
      OnBoot genesisConfig fun q v₀ =>
      ∃ n, v₀.node.next tailPlatform config (.produce inOrder 0 [deactivation q.1]) = some n ∧
      ∃ w, crossed q.1 { v₀ with node := n } = some w ∧ crosses q.1 { v₀ with node := n } w ∧
      (v₀.book.stakeDelegations.lookup (GenesisTally.stakeAddress tailPlatform (Hash.repeated
          5))).map (fun d => d.toDelegation.terms) ≠ (n.storage.stakeDelegation? tailPlatform
          (GenesisTally.stakeAddress tailPlatform (Hash.repeated 5))).map Delegation.terms := by
    decide +kernel
  have hstep : LifeStep tailPlatform config g.hash v₀
      (.loop (.produce inOrder 0 [deactivation g])) { v₀ with node := n } :=
    ⟨rfl, n, ValidatorNode.nodeStep_of_next hn, rfl⟩
  exact ⟨g, s, v₀, { v₀ with node := n }, hg, hv₀, .cons hstep (.nil _), (crosses_eq_true hw).1,
    fun h => hne (h _)⟩

end Nusantara

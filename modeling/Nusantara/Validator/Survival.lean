import Nusantara.Validator.Delegations

/-!
# What becomes of rent and rewards

At an epoch boundary rent and rewards are written as versions of the current slot, outside of any
block.  The next block that is replayed puts the index on the fork of its parent, where only the
versions of that fork count: what was written under a slot without a block on the fork is gone.

## Main results

* `RunningNode.epochUpdatesKept_iff`: the changes of a boundary survive an accepted block exactly if
  the slot of the boundary is on the fork of the block's parent, or the fork shows the same without
  them.
-/

namespace Nusantara

open Exec Storage ReplayStage Finmap

/-! ### A version that is laid over a store -/

section Rewind

variable {slot : UInt64} {batch : WriteBatch} {c : AccountCache} {ancestors : Finset UInt64} {a : Hash}

section

variable (h : Overlays slot batch c) (s : Storage) (hne : ancestors.Nonempty)

include h hne

/-- A version off the fork does not change what the fork sees. -/
theorem Overlays.seenOnFork (hoff : ¬ OnFork ancestors slot) :
    (s.write batch).seenOnFork ancestors a = s.seenOnFork ancestors a := by
  have hlookup : ∀ t, OnFork ancestors t →
      (s.write batch).accounts.lookup (a, t) = s.accounts.lookup (a, t) := by
    intro t ht
    have hslot : t ≠ slot := fun heq => hoff (heq ▸ ht)
    rw [h.accounts, if_neg fun hc => hslot hc.1]
  have hversions : (s.write batch).versionsOnFork ancestors a = s.versionsOnFork ancestors a := by
    ext t
    unfold versionsOnFork
    simp only [Set.mem_ofPred_eq]
    refine and_congr_left fun ht => ?_
    rw [mem_iff, mem_iff, hlookup t ht]
  have hlatest := isLatest_latestOnFork (s := s.write batch) (a := a) hne
  rw [hversions] at hlatest
  have hsame := hlatest.unique (isLatest_latestOnFork (s := s) (a := a) hne)
  unfold Storage.seenOnFork
  rw [hsame]
  cases hslot : s.latestOnFork ancestors a with
  | none => rfl
  | some t =>
    have ht := isLatest_latestOnFork (s := s) (a := a) hne
    rw [hslot] at ht
    exact hlookup t ht.1.2

/-- What is read of an account that a batch has laid over the store, once the index is on a fork: the
account of the batch if its slot is on the fork, and what the fork saw before if not. -/
theorem Overlays.getAccount_rewind (ha : a ∈ c) :
    ((s.write batch).rewindAccountIndexForAncestry ancestors).getAccount a =
      if OnFork ancestors slot then (s.write batch).getAccount a
      else s.seenOnFork ancestors a := by
  have hindex : ((s.write batch).rewindAccountIndexForAncestry ancestors).accountIndex.lookup a
      = (s.write batch).rewoundIndex ancestors a slot := by
    rw [rewindAccountIndexForAncestry, lookup_rewindIndex, h.index, if_pos ha]
    rfl
  have hread : ∀ t, ((s.write batch).rewindAccountIndexForAncestry ancestors).getAccountAtSlot a t
      = (s.write batch).getAccountAtSlot a t := fun _ => rfl
  unfold Storage.getAccount
  rw [hindex, rewoundIndex]
  simp only [← onFork_iff hne]
  split_ifs with hon
  · rw [h.index, if_pos ha]
    exact hread slot
  · rw [← h.seenOnFork s hne hon, Storage.seenOnFork]
    cases hslot : (s.write batch).latestOnFork ancestors a with
    | none => rfl
    | some t =>
      have ht := isLatest_latestOnFork (s := s.write batch) (a := a) hne
      rw [hslot] at ht
      exact (hread t).trans (getAccountAtSlot_of_mem ht.1.1)

end

end Rewind

/-! ### After the next block -/

namespace RunningNode

variable {P : Platform} {config : ValidatorConfig} {genesisHash : Hash} {v v' : RunningNode}
  {turns : List Worker} {o : HashOrders} {order : List ℕ → List ℕ} {block : Block}
  {result : ReplayResult} {s s' : ReplayStage}

/-- The block writes no version of the account. -/
def LeavesAlone (P : Platform) (config : ValidatorConfig) (order : List ℕ → List ℕ) (s : ReplayStage)
    (block : Block) (a : Hash) : Prop :=
  ∀ parent s₁ d, Executed P config order block s parent s₁ d →
    ∀ q ∈ d.result.accountDeltas, q.1 ≠ a

/-- What is read after a replay of an account that the block leaves alone: what is read on the fork
of its parent. -/
theorem getAccount_replayBlockFull {a : Hash}
    (h : (replayBlockFull P config order block).run s = .ok result s')
    (ha : LeavesAlone P config order s block a) :
    ∃ ancestry, s.forkTree.getAncestry block.header.parentSlot = .ok ancestry ∧
      s'.bank.storage.getAccount a =
        (s.bank.storage.rewindAccountIndexForAncestry ancestry.toFinset).getAccount a := by
  obtain ⟨parent, s₁, d, hexec, -, hrun⟩ := replayBlockFull_eq_ok.mp h
  obtain ⟨cache, hdeltas, ho⟩ := executeBlock_eq_ok hexec.execute
  obtain ⟨-, -, -, clock, frozen, -, hbank⟩ := replayBlock_eq_ok hrun
  have hcache : cache.lookup a = none :=
    lookup_eq_none.mpr (notMem_cache_iff.mpr (hdeltas ▸ ha parent s₁ d hexec))
  obtain ⟨ancestry, clock', hanc, hs₁⟩ := enterFork_eq_ok hexec.fork
  refine ⟨ancestry, hanc, ?_⟩
  -- The hashes of the block are stored beside the accounts.
  have hread : s'.bank.storage.getAccount a = (s₁.bank.storage.write d.writeBatch).getAccount a := by
    rw [hbank]
    exact Storage.getAccount_congr rfl rfl a
  rw [hread, ho.getAccount, hcache, Option.none_or, hs₁]
  rfl

/-- The changes that a boundary has made survive in the stage `s'`, as far as the block leaves the
accounts alone. -/
def EpochUpdatesKept (P : Platform) (config : ValidatorConfig) (order : List ℕ → List ℕ)
    (v v' : RunningNode) (block : Block) (s' : ReplayStage) : Prop :=
  ∀ a, v'.node.storage.getAccount a ≠ v.node.storage.getAccount a →
    LeavesAlone P config order v'.node.stage block a →
      s'.bank.storage.getAccount a = v'.node.storage.getAccount a

/-- **What becomes of rent and rewards.**  After a boundary and an accepted block, the changes of the
boundary are still there exactly if its slot is on the fork of the block's parent, or whatever it
changed, and the block left alone, looks the same on that fork anyway. -/
theorem epochUpdatesKept_iff
    (hboundary : v.checkEpochBoundary P config genesisHash turns o = .ok (some v'))
    (hreplay : (replayBlockFull P config order block).run v'.node.stage = .ok result s') :
    ∃ ancestry, v.node.stage.forkTree.getAncestry block.header.parentSlot = .ok ancestry ∧
      (EpochUpdatesKept P config order v v' block s' ↔
        OnFork ancestry.toFinset v.node.currentSlot ∨
          ∀ a, v'.node.storage.getAccount a ≠ v.node.storage.getAccount a →
            LeavesAlone P config order v'.node.stage block a →
              v.node.storage.seenOnFork ancestry.toFinset a = v'.node.storage.getAccount a) := by
  obtain ⟨-, htree, batch, c, hstorage, hc⟩ := checkEpochBoundary_overlays hboundary
  obtain ⟨parent, s₁, d, hexec, -, -⟩ := replayBlockFull_eq_ok.mp hreplay
  obtain ⟨ancestry, -, hanc, -⟩ := enterFork_eq_ok hexec.fork
  have hne : ancestry.toFinset.Nonempty :=
    ⟨_, List.mem_toFinset.mpr (ForkTree.getAncestry_eq_ok.mp hanc).head_mem⟩
  -- An account that the boundary has changed is in its batch.
  have hin : ∀ a, v'.node.storage.getAccount a ≠ v.node.storage.getAccount a → a ∈ c := by
    intro a hchanged
    by_contra ha
    refine hchanged ?_
    rw [hstorage, hc.getAccount, lookup_eq_none.mpr ha, Option.none_or]
  have hread : ∀ a, v'.node.storage.getAccount a ≠ v.node.storage.getAccount a →
      LeavesAlone P config order v'.node.stage block a →
        s'.bank.storage.getAccount a = if OnFork ancestry.toFinset v.node.currentSlot then
          v'.node.storage.getAccount a else v.node.storage.seenOnFork ancestry.toFinset a := by
    intro a hchanged halone
    obtain ⟨ancestry', hanc', hread⟩ := getAccount_replayBlockFull hreplay halone
    cases hanc.symm.trans hanc'
    have hbank : v'.node.stage.bank.storage = v.node.storage.write batch := hstorage
    rw [hread, hbank, hc.getAccount_rewind v.node.storage hne (hin a hchanged), hstorage]
  refine ⟨ancestry, htree ▸ hanc, ?_⟩
  by_cases hon : OnFork ancestry.toFinset v.node.currentSlot
  · refine ⟨fun _ => .inl hon, fun _ a hchanged halone => ?_⟩
    rw [hread a hchanged halone, if_pos hon]
  · simp only [hon, false_or]
    refine forall_congr' fun a => forall_congr' fun hchanged => forall_congr' fun halone => ?_
    rw [hread a hchanged halone, if_neg hon]

end RunningNode

namespace Sample

/-- An address whose rent is due in epoch 0. -/
def tenant : Hash := (Platform.sample false).hash [0, 9]

/-- The chain with one more account, which is not exempt from rent. -/
def rentedConfig : GenesisConfig := { genesisConfig with accounts := [(tenant, 1000)] }

/-- A validator with a rent that is due after two slots. -/
def dear : ValidatorConfig :=
  { config with rent := { Rent.default with lamportsPerByteYear := 100000000 } }

/-- The node that has crossed the boundary, and an empty block of the validator on its tip. -/
def crossing (g : Genesis) (v : RunningNode) : Option (RunningNode × Block) := do
  let v' ← (v.checkEpochBoundary tailPlatform dear g.hash oneByOne keyOrders).toOption.join
  let block ← sealBlock tailPlatform v'.node.stage
    ⟨{ header with slot := 2, parentSlot := v'.node.stage.currentTip, validator := Hash.repeated 5 },
      [], []⟩
  return (v', block)

/-- The boundary is crossed, and the block is on the tip and writes nothing. -/
abbrev CrossesWith (g : Genesis) (v v' : RunningNode) (block : Block) : Prop :=
  v.checkEpochBoundary tailPlatform dear g.hash oneByOne keyOrders = .ok (some v') ∧
    block.header.parentSlot = v'.node.stage.currentTip ∧
    v.node.currentSlot < block.header.slot ∧
    ∃ s₁, enterFork tailPlatform block v'.node.stage = .ok s₁ ∧
    ∃ d, executeBlock tailPlatform dear id block s₁ = .ok d ∧ d.result.accountDeltas = []

theorem CrossesWith.leavesAlone {g : Genesis} {v v' : RunningNode} {block : Block}
    (h : CrossesWith g v v' block) :
    v.checkEpochBoundary tailPlatform dear g.hash oneByOne keyOrders = .ok (some v') ∧
      block.header.parentSlot = v'.node.stage.currentTip ∧
      v.node.currentSlot < block.header.slot ∧
      ∀ a, RunningNode.LeavesAlone tailPlatform dear id v'.node.stage block a := by
  obtain ⟨hboundary, hparent, hlater, s₁, hs₁, d, hd, hnone⟩ := h
  refine ⟨hboundary, hparent, hlater, fun a parent s₁' d' hexec q hq => ?_⟩
  cases hs₁.symm.trans hexec.fork
  cases hd.symm.trans hexec.execute
  rw [hnone] at hq
  exact absurd hq List.not_mem_nil

end Sample

open Sample RunningNode ValidatorNode in
/-- In slot 1, which has no block, rent is taken.  A block for slot 2 gives it back. -/
theorem rent_is_given_back :
    ∃ g s v v' block result s', rentedConfig.build tailPlatform Storage.empty = .ok (g, s) ∧
      boot tailPlatform g (bootConfig 0) s = .ok v ∧
      v.checkEpochBoundary tailPlatform dear g.hash oneByOne keyOrders = .ok (some v') ∧
      block.header.parentSlot = v'.node.stage.currentTip ∧ v.node.currentSlot < block.header.slot ∧
      (replayBlockFull tailPlatform dear id block).run v'.node.stage = .ok result s' ∧
      ¬ EpochUpdatesKept tailPlatform dear id v v' block s' := by
  obtain ⟨⟨g, s⟩, hg, v, hv, ⟨v', block⟩, -, hcross, result, s', hreplay, hchanged, hlost⟩ :
      OnBoot rentedConfig fun q v => ∃ c, crossing q.1 v = some c ∧
      CrossesWith q.1 v c.1 c.2 ∧
      ∃ r s', (replayBlockFull tailPlatform dear id c.2).run c.1.node.stage = .ok r s' ∧
      c.1.node.storage.getAccount tenant ≠ v.node.storage.getAccount tenant ∧
      s'.bank.storage.getAccount tenant ≠ c.1.node.storage.getAccount tenant := by decide +kernel
  obtain ⟨hboundary, hparent, hlater, halone⟩ := hcross.leavesAlone
  exact ⟨g, s, v, v', block, result, s', hg, hv, hboundary, hparent, hlater, hreplay,
    fun h => hlost (h tenant hchanged (halone tenant))⟩

open Sample RunningNode ValidatorNode in
/-- With a block in slot 1 the rent stays taken. -/
theorem rent_is_kept_with_a_block :
    ∃ g s v₀ n v' block result s', rentedConfig.build tailPlatform Storage.empty = .ok (g, s) ∧
      boot tailPlatform g (bootConfig 0) s = .ok v₀ ∧
      NodeStep tailPlatform dear v₀.node (.produce inOrder 0 []) n ∧
      RunningNode.checkEpochBoundary tailPlatform dear g.hash oneByOne keyOrders { v₀ with node := n }
        = .ok (some v') ∧
      (replayBlockFull tailPlatform dear id block).run v'.node.stage = .ok result s' ∧
      v'.node.storage.getAccount tenant ≠ n.storage.getAccount tenant ∧
      EpochUpdatesKept tailPlatform dear id { v₀ with node := n } v' block s' := by
  obtain ⟨⟨g, s⟩, hg, v₀, hv₀, n, hn, ⟨v', block⟩, -, hcross, result, s', hreplay, hchanged, hanc,
      hslot⟩ :
      OnBoot rentedConfig fun q v₀ =>
      ∃ n, v₀.node.next tailPlatform dear (.produce inOrder 0 []) = some n ∧
      ∃ c, crossing q.1 { v₀ with node := n } = some c ∧
      CrossesWith q.1 { v₀ with node := n } c.1 c.2 ∧
      ∃ r x, (replayBlockFull tailPlatform dear id c.2).run c.1.node.stage = .ok r x ∧
      c.1.node.storage.getAccount tenant ≠ n.storage.getAccount tenant ∧
      n.stage.forkTree.getAncestry c.2.header.parentSlot = .ok [1, 0] ∧ n.currentSlot = 1 := by
    decide +kernel
  obtain ⟨ancestry, hanc', hkept⟩ := epochUpdatesKept_iff hcross.1 hreplay
  cases hanc.symm.trans hanc'
  refine ⟨g, s, v₀, n, v', block, result, s', hg, hv₀, nodeStep_of_next hn, hcross.1, hreplay,
    hchanged, hkept.mpr (.inl (.inl ?_))⟩
  rw [hslot]
  decide

end Nusantara

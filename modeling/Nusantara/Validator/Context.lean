import Nusantara.Validator.Reception

/-!
# The context of an execution

A block is executed with the hashes of recent slots.  `replay_block_full` takes them from the fork
tree for the ancestry of the parent, and fills them up to 512 with stored hashes of lower slots.
Every slot that is replayed stores its hash, and none is taken back: once the root has passed a
fork that was given up, the slots of that fork are below the tree like those of the chain.

So two nodes with the same chain execute a block in the same context exactly if what each of them
has stored below the tree is the same, as far down as the hashes are filled up.

## Main results

* `Storage.getRecentSlotHashesBelow_eq_iff`: the stores that fill up hashes in the same way.
* `sameContext_iff`: the nodes that execute a block in the same context.
-/

namespace Nusantara

open Exec Storage ReplayStage List Finmap Option UInt64

/-! ### Stored hashes -/

namespace Storage

variable {s s' : Storage} {slot maxSlot : UInt64} {limit : ℕ} {hash : Hash}

/-- The slots after `slot` and up to `maxSlot` that have a hash. -/
def hashedAfter (s : Storage) (slot maxSlot : UInt64) : Finset UInt64 :=
  s.slotHashes.keys.filter fun k => slot < k ∧ k ≤ maxSlot

theorem mem_getRecentSlotHashesBelow :
    (slot, hash) ∈ s.getRecentSlotHashesBelow maxSlot limit ↔
      slot ≤ maxSlot ∧ s.slotHashes.lookup slot = some hash ∧
        (s.hashedAfter slot maxSlot).card < limit := by
  have hafter : ((s.slotHashes.keys.filter (· ≤ maxSlot)).filter (slot < ·))
      = s.hashedAfter slot maxSlot := by
    ext k
    simp only [hashedAfter, Finset.mem_filter]
    tauto
  have hkey : s.slotHashes.lookup slot = some hash → slot ∈ s.slotHashes.keys := fun h =>
    mem_keys.mpr (mem_iff.mpr ⟨hash, h⟩)
  simp only [getRecentSlotHashesBelow, hashedSlots, mem_filterMap, map_eq_some_iff,
    Prod.mk.injEq, Finset.mem_take_reverse_ascending, Finset.mem_filter]
  constructor
  · rintro ⟨k, ⟨⟨-, hle⟩, hcard⟩, h, hlookup, rfl, rfl⟩
    exact ⟨hle, hlookup, hafter ▸ hcard⟩
  · rintro ⟨hle, hlookup, hcard⟩
    exact ⟨slot, ⟨⟨hkey hlookup, hle⟩, hafter.symm ▸ hcard⟩, hash, hlookup, rfl, rfl⟩

/-- The entry of a higher slot comes first. -/
theorem pairwise_getRecentSlotHashesBelow :
    (s.getRecentSlotHashesBelow maxSlot limit).Pairwise fun p q => q.1 < p.1 := by
  unfold getRecentSlotHashesBelow
  refine List.Pairwise.filterMap _ (fun k k' hk q hq q' hq' => ?_)
    (Finset.pairwise_reverse_ascending.sublist (take_sublist _ _))
  obtain ⟨h, -, rfl⟩ := map_eq_some_iff.mp hq
  obtain ⟨h', -, rfl⟩ := map_eq_some_iff.mp hq'
  exact hk

/-- The two stores have the same hashes from the bound down, until the first has `limit` of them. -/
def RecentHashesAgree (s s' : Storage) (maxSlot : UInt64) (limit : ℕ) : Prop :=
  ∀ slot ≤ maxSlot, (s.hashedAfter slot maxSlot).card < limit →
    s.slotHashes.lookup slot = s'.slotHashes.lookup slot

/-- Stores that agree on all later slots have the same later slots. -/
theorem hashedAfter_congr
    (h : ∀ k, slot < k → k ≤ maxSlot → s.slotHashes.lookup k = s'.slotHashes.lookup k) :
    s.hashedAfter slot maxSlot = s'.hashedAfter slot maxSlot := by
  ext k
  simp only [hashedAfter, Finset.mem_filter, Finmap.mem_keys, ← Finmap.lookup_isSome]
  refine and_congr_left fun hk => ?_
  rw [h k hk.1 hk.2]

theorem card_hashedAfter_le {k : UInt64} (hk : slot < k) :
    (s.hashedAfter k maxSlot).card ≤ (s.hashedAfter slot maxSlot).card := by
  refine Finset.card_le_card fun j hj => ?_
  simp only [hashedAfter, Finset.mem_filter] at hj ⊢
  exact ⟨hj.1, hk.trans hj.2.1, hj.2.2⟩

/-- Induction from a slot down. -/
theorem downward_induction {p : UInt64 → Prop}
    (step : ∀ slot ≤ maxSlot, (∀ k, slot < k → k ≤ maxSlot → p k) → p slot) (hle : slot ≤ maxSlot) :
    p slot := by
  induction hd : maxSlot.toNat - slot.toNat using Nat.strong_induction_on generalizing slot with
  | _ d ih =>
    refine step slot hle fun k hk hkle => ih _ ?_ hkle rfl
    rw [lt_iff_toNat_lt] at hk
    rw [le_iff_toNat_le] at hkle
    omega

/-- Where the second of two stores that agree has few later slots, so has the first. -/
theorem RecentHashesAgree.hashedAfter_eq (h : s.RecentHashesAgree s' maxSlot limit)
    (hle : slot ≤ maxSlot) (hcard : (s'.hashedAfter slot maxSlot).card < limit) :
    s.hashedAfter slot maxSlot = s'.hashedAfter slot maxSlot := by
  refine downward_induction (p := fun slot => (s'.hashedAfter slot maxSlot).card < limit →
    s.hashedAfter slot maxSlot = s'.hashedAfter slot maxSlot) (fun slot _ ih hcard => ?_) hle hcard
  refine hashedAfter_congr fun k hk hkle => h k hkle ?_
  have hlater := (card_hashedAfter_le hk).trans_lt hcard
  exact (ih k hk hkle hlater).symm ▸ hlater

/-- **Stores that fill up hashes in the same way.**  The recent hashes below a slot are the same
exactly if the stores agree from there down, until the first has enough. -/
theorem getRecentSlotHashesBelow_eq_iff :
    s.getRecentSlotHashesBelow maxSlot limit = s'.getRecentSlotHashesBelow maxSlot limit ↔
      s.RecentHashesAgree s' maxSlot limit := by
  constructor
  · intro heq slot hle
    -- Where the stores agree on all later slots, a hash is listed for both or for none.
    refine downward_induction (p := fun slot => (s.hashedAfter slot maxSlot).card < limit →
      s.slotHashes.lookup slot = s'.slotHashes.lookup slot) (fun slot hle ih hcard => ?_) hle
    have hlater : s.hashedAfter slot maxSlot = s'.hashedAfter slot maxSlot :=
      hashedAfter_congr fun k hk hkle => ih k hk hkle ((card_hashedAfter_le hk).trans_lt hcard)
    ext hash
    constructor
    · intro h
      exact (mem_getRecentSlotHashesBelow.mp
        (heq ▸ mem_getRecentSlotHashesBelow.mpr ⟨hle, h, hcard⟩)).2.1
    · intro h
      exact (mem_getRecentSlotHashesBelow.mp
        (heq ▸ mem_getRecentSlotHashesBelow.mpr ⟨hle, h, hlater ▸ hcard⟩)).2.1
  · intro h
    have : Std.Irrefl fun p q : UInt64 × Hash => q.1 < p.1 := ⟨fun p => lt_irrefl p.1⟩
    have : Std.Antisymm fun p q : UInt64 × Hash => q.1 < p.1 :=
      ⟨fun p q hpq hqp => absurd hqp hpq.asymm⟩
    refine pairwise_getRecentSlotHashesBelow.eq_of_mem_iff pairwise_getRecentSlotHashesBelow ?_
    rintro ⟨slot, hash⟩
    rw [mem_getRecentSlotHashesBelow, mem_getRecentSlotHashesBelow]
    constructor
    · rintro ⟨hle, hlookup, hcard⟩
      have hlater : s.hashedAfter slot maxSlot = s'.hashedAfter slot maxSlot :=
        hashedAfter_congr fun k hk hkle => h k hkle ((card_hashedAfter_le hk).trans_lt hcard)
      exact ⟨hle, h slot hle hcard ▸ hlookup, hlater ▸ hcard⟩
    · rintro ⟨hle, hlookup, hcard⟩
      have hcard := (h.hashedAfter_eq hle hcard).symm ▸ hcard
      exact ⟨hle, (h slot hle hcard).symm ▸ hlookup, hcard⟩

end Storage

/-! ### The hashes of a fork -/

/-- The slot is below all slots of a fork. -/
def BelowFork (hashes : List (UInt64 × Hash)) (slot : UInt64) : Prop := ∀ q ∈ hashes, slot < q.1

instance (hashes : List (UInt64 × Hash)) : DecidablePred (BelowFork hashes) := fun slot =>
  inferInstanceAs (Decidable (∀ q ∈ hashes, slot < q.1))

/-- The two stores have the same hashes below a fork, down to where the first has so many that they
make 512 with those of the fork. -/
def HistoriesAgree (hashes : List (UInt64 × Hash)) (s s' : Storage) : Prop :=
  ∀ slot, BelowFork hashes slot →
    (s.slotHashes.keys.filter fun k => slot < k ∧ BelowFork hashes k).card + hashes.length < 512 →
      s.slotHashes.lookup slot = s'.slotHashes.lookup slot

theorem buildMergedSlotHashes_eq_iff {hashes : List (UInt64 × Hash)} {s s' : Storage}
    (hne : hashes ≠ []) :
    buildMergedSlotHashes hashes s 512 = buildMergedSlotHashes hashes s' 512 ↔
      HistoriesAgree hashes s s' := by
  unfold buildMergedSlotHashes
  by_cases hfull : 512 ≤ hashes.length
  · rw [if_pos hfull, if_pos hfull]
    refine iff_of_true rfl fun slot _ hcard => absurd hcard ?_
    omega
  rw [if_neg hfull, if_neg hfull]
  -- The lowest slot of the fork.
  obtain ⟨m, hm⟩ : ∃ m, (hashes.map fun q => q.1.toNat).min? = some m := by
    refine ne_none_iff_exists'.mp fun hnone => hne ?_
    simpa using hnone
  obtain ⟨hmem, hmin⟩ := min?_eq_some_iff.mp hm
  obtain ⟨low, hlow, rfl⟩ := mem_map.mp hmem
  have hbelow : ∀ slot, BelowFork hashes slot ↔ slot < low.1 := fun slot => by
    refine ⟨fun h => h low hlow, fun h q hq => h.trans_le ?_⟩
    exact le_iff_toNat_le.mpr (hmin _ (mem_map.mpr ⟨q, hq, rfl⟩))
  rw [hm]
  dsimp only [getD_some]
  by_cases hzero : low.1.toNat = 0
  · rw [if_pos hzero, if_pos hzero]
    refine iff_of_true rfl fun slot hslot _ => absurd ((hbelow slot).mp hslot) ?_
    rw [lt_iff_toNat_lt]
    omega
  rw [if_neg hzero, if_neg hzero, append_cancel_left_eq, getRecentSlotHashesBelow_eq_iff]
  have hle : ∀ slot : UInt64, slot ≤ ofNat (low.1.toNat - 1) ↔ BelowFork hashes slot := by
    intro slot
    have hlt : low.1.toNat < 2 ^ 64 := low.1.toNat_lt
    have hfits : low.1.toNat - 1 < size := by
      change _ < 2 ^ 64
      omega
    rw [hbelow, le_iff_toNat_le, lt_iff_toNat_lt, toNat_ofNat_of_lt' hfits]
    omega
  have hafter : ∀ slot, s.hashedAfter slot (ofNat (low.1.toNat - 1))
      = s.slotHashes.keys.filter fun k => slot < k ∧ BelowFork hashes k := fun slot => by
    simp only [hashedAfter, hle]
  unfold RecentHashesAgree HistoriesAgree
  refine forall_congr' fun slot => ?_
  rw [hle, hafter]
  refine imp_congr_right fun _ => imp_congr_left ?_
  omega

/-! ### Two nodes with one chain -/

/-- The parent of a block, by its stored header. -/
def Storage.parentOf (s : Storage) (slot : UInt64) : Option UInt64 :=
  (s.getBlockHeader slot).bind fun h => if h.parentSlot = slot then none else some h.parentSlot

/-- Two nodes have the same chain below a block: the ancestry of its parent with its hashes, the
root, and the stored chain from the root down. -/
structure SameChain (block : Block) (ancestry : List UInt64) (s s' : ReplayStage) : Prop where
  parent : block.header.parentSlot ∈ s.forkTree.nodes
  ancestry_eq : s.forkTree.getAncestry block.header.parentSlot = .ok ancestry
  ancestry_eq' : s'.forkTree.getAncestry block.header.parentSlot = .ok ancestry
  hashes : ∀ slot ∈ ancestry, (s.forkTree.getNode slot).map ForkNode.blockHash
    = (s'.forkTree.getNode slot).map ForkNode.blockHash
  rootSlot : s.forkTree.rootSlot = s'.forkTree.rootSlot
  roots : s.bank.storage.roots = s'.bank.storage.roots
  history : ∃ history, Walk s.bank.storage.parentOf s.forkTree.rootSlot history ∧
    Walk s'.bank.storage.parentOf s'.forkTree.rootSlot history ∧
      ∀ slot ∈ history, s.bank.storage.getBlockHeader slot = s'.bank.storage.getBlockHeader slot ∧
        s.bank.storage.slotHashes.lookup slot = s'.bank.storage.slotHashes.lookup slot

/-- Two stages, put on the fork of a block, execute it with the same slot hashes and the same recent
blockhashes. -/
structure SameContext (config : ValidatorConfig) (s s' : ReplayStage) : Prop where
  slotHashes : s.bank.slotHashes = s'.bank.slotHashes
  recentBlockhashes : (buildSysvarCache s.bank config.rent).recentBlockhashes
    = (buildSysvarCache s'.bank config.rent).recentBlockhashes

section Context

variable {P : Platform} {config : ValidatorConfig} {block : Block} {ancestry : List UInt64}
  {s s' s₁ s₁' : ReplayStage}

theorem SameChain.slotHashesOf_eq (h : SameChain block ancestry s s') :
    s.forkTree.slotHashesOf ancestry = s'.forkTree.slotHashesOf ancestry := by
  refine filterMap_congr fun slot hslot => ?_
  have hhash := congrArg (Option.map fun hash => (slot, hash)) (h.hashes slot hslot)
  rw [Option.map_map, Option.map_map] at hhash
  exact hhash

theorem SameChain.slotHashesOf_ne_nil (h : SameChain block ancestry s s') :
    s.forkTree.slotHashesOf ancestry ≠ [] := by
  obtain ⟨node, hnode⟩ := mem_iff.mp h.parent
  have hmem : (block.header.parentSlot, node.blockHash) ∈ s.forkTree.slotHashesOf ancestry :=
    mem_filterMap.mpr ⟨_, ForkTree.mem_getAncestry_self h.ancestry_eq,
      map_eq_some_iff.mpr ⟨node, hnode, rfl⟩⟩
  exact ne_nil_of_mem hmem

/-- **The context and the ancestry.**  Two nodes with the same chain below a block execute it in the
same context exactly if their stores have the same hashes below the fork, down to the last that is
filled in. -/
theorem sameContext_iff (hchain : SameChain block ancestry s s')
    (h : enterFork P block s = .ok s₁) (h' : enterFork P block s' = .ok s₁') :
    SameContext config s₁ s₁' ↔
      HistoriesAgree (s.forkTree.slotHashesOf ancestry) s.bank.storage s'.bank.storage := by
  obtain ⟨_, clock, hanc, rfl⟩ := enterFork_eq_ok h
  obtain ⟨_, clock', hanc', rfl⟩ := enterFork_eq_ok h'
  rw [hchain.ancestry_eq] at hanc
  rw [hchain.ancestry_eq'] at hanc'
  cases hanc
  cases hanc'
  have hmerged : buildMergedSlotHashes (s.forkTree.slotHashesOf ancestry) s'.bank.storage 512
      = forkHashes ancestry s' := by rw [hchain.slotHashesOf_eq, forkHashes]
  rw [← buildMergedSlotHashes_eq_iff hchain.slotHashesOf_ne_nil, hmerged]
  refine ⟨fun hsame => hsame.slotHashes, fun hslots => ⟨hslots, ?_⟩⟩
  -- The recent blockhashes are the first of the slot hashes.
  exact congrArg (fun l => (l.take recentBlockhashesCount).map Prod.snd) hslots

end Context

/-! ### A slot of a fork that was given up -/

namespace Sample

open ValidatorNode

/-- The node after it has received a block with these transactions. -/
def receive (slot parentSlot : UInt64) (transactions : List Transaction) (n : ValidatorNode) :
    Option ValidatorNode := do
  let block ← sealBlock (Platform.sample false) n.stage
    ⟨{ header with slot, parentSlot }, transactions, []⟩
  match (replayOrBufferBlock (Platform.sample false) config id block).run n with
  | .ok () n => some n
  | _ => none

/-- The node after its root has advanced. -/
def root (slot : UInt64) (n : ValidatorNode) : Option ValidatorNode :=
  match (tryAdvanceRoot (Platform.sample false) slot false).run n with
  | .ok () n => some n
  | _ => none

/-- A node that has received slots 1 and 40, and has made 40 its root. -/
def straight : Option ValidatorNode :=
  receive 1 0 [] (node wallets.stage) >>= receive 40 1 [] >>= root 40

/-- A node that has also received slot 2, which nothing was built on. -/
def detour : Option ValidatorNode :=
  receive 1 0 [] (node wallets.stage) >>= receive 2 1 [] >>= receive 40 1 [] >>= root 40

/-- A block on slot 40. -/
def onRoot : Block := ⟨{ header with slot := 41, parentSlot := 40 }, [], []⟩

end Sample

set_option synthInstance.maxSize 1024 in
open Sample in
/-- The two nodes have the same chain, and one of them executes the next block with the hash of the
slot that was given up. -/
theorem abandoned_slot_is_in_the_context :
    ∃ n n' s₁ s₁', straight = some n ∧ detour = some n' ∧ SameChain onRoot [40] n.stage n'.stage ∧
      enterFork (Platform.sample false) onRoot n.stage = .ok s₁ ∧
        enterFork (Platform.sample false) onRoot n'.stage = .ok s₁' ∧
          ¬ SameContext config s₁ s₁' := by
  obtain ⟨n, hn, n', hn', s₁, hs, s₁', hs', hne, hparent, hanc, hanc', hhash, hroot, hroot',
      hroots, ⟨h40, h40', hsame40⟩, ⟨h1, h1', hsame1⟩, h0, h0', hsame0⟩ :
      ∃ n, straight = some n ∧ ∃ n', detour = some n' ∧
      ∃ s₁, enterFork .release onRoot n.stage = .ok s₁ ∧
      ∃ s₁', enterFork .release onRoot n'.stage = .ok s₁' ∧
      s₁.bank.slotHashes ≠ s₁'.bank.slotHashes ∧ 40 ∈ n.stage.forkTree.nodes ∧
      n.stage.forkTree.getAncestry 40 = .ok [40] ∧ n'.stage.forkTree.getAncestry 40 = .ok [40] ∧
      (n.stage.forkTree.getNode 40).map ForkNode.blockHash
        = (n'.stage.forkTree.getNode 40).map ForkNode.blockHash ∧
      n.stage.forkTree.rootSlot = 40 ∧ n'.stage.forkTree.rootSlot = 40 ∧
      n.storage.roots = n'.storage.roots ∧
      (let alike (slot : UInt64) (parent : Option UInt64) := n.storage.parentOf slot = parent ∧
          n'.storage.parentOf slot = parent ∧
          n.storage.getBlockHeader slot = n'.storage.getBlockHeader slot ∧
          n.storage.slotHashes.lookup slot = n'.storage.slotHashes.lookup slot;
        alike 40 (some 1) ∧ alike 1 (some 0) ∧ alike 0 none) := by decide +kernel
  have hwalk : Walk n.storage.parentOf 40 [40, 1, 0] := .step h40 (.step h1 (.stop h0))
  have hwalk' : Walk n'.storage.parentOf 40 [40, 1, 0] := .step h40' (.step h1' (.stop h0'))
  refine ⟨n, n', s₁, s₁', hn, hn', ⟨hparent, hanc, hanc', ?_, hroot.trans hroot'.symm, hroots,
    [40, 1, 0], hroot.symm ▸ hwalk, hroot'.symm ▸ hwalk', ?_⟩, hs, hs',
    fun h => hne h.slotHashes⟩
  · simpa using hhash
  · simpa using ⟨hsame40, hsame1, hsame0⟩

open Sample in
/-- A node that is compared with itself. -/
theorem context_of_one_node :
    ∃ s₁, enterFork (Platform.sample false) ⟨header, [], []⟩ wallets.stage = .ok s₁ ∧
      SameContext config s₁ s₁ := by
  have hcomputes : Computes .release wallets.stage := ⟨rfl, by decide⟩
  have hfork : ∃ s₁, enterFork .release ⟨header, [], []⟩ wallets.stage = .ok s₁ :=
    enterFork_ok hcomputes (ForkTree.wellFormed_new 0 Hash.zero Hash.zero)
  obtain ⟨s₁, hs₁⟩ := hfork
  have hchain : SameChain ⟨header, [], []⟩ [0] wallets.stage wallets.stage :=
    ⟨by decide, by decide, by decide, fun _ _ => rfl, rfl, rfl, [0], .stop (by decide),
      .stop (by decide), fun _ _ => ⟨rfl, rfl⟩⟩
  exact ⟨s₁, hs₁, (sameContext_iff hchain hs₁ hs₁).mpr fun _ _ _ => rfl⟩

end Nusantara

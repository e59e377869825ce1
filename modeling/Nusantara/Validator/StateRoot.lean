import Nusantara.Consensus.StateTree
import Nusantara.Validator.Alignment

/-!
# The state root and the chain

The bank keeps a tree over all accounts (`consensus/src/state_tree.rs`) and puts its root into the
header of a block.  The tree gets the accounts that a block has written, and that is all that ever
happens to it: when the index of the accounts goes back, because a fork is left or a block is
rejected, the tree stays as it is.

So the tree is in step with the index as long as the index has nothing to take back (`KeptMove`).
Then its root is that of a tree built from scratch over the accounts that the chain sees.  After a
fork with writes has been left, the accounts of that fork are still in it.

## Main results

* `ReplayStage.StateFollows.step`: a move that takes nothing back keeps the tree in step.
* `ValidatorNode.rootFollows_of_steps`: in a run of such moves the root follows the chain.
-/

namespace Nusantara

open Exec Storage ReplayStage List Finmap Option Trace

/-! ### Trees from scratch -/

namespace Storage

variable {s : Storage} {ancestors : Finset UInt64} {q : Hash × Account}

/-- `get_all_accounts`. -/
def getAllAccounts (s : Storage) : List (Hash × Account) :=
  s.accountIndex.keys.ascending.filterMap fun a => (s.getAccount a).map fun account => (a, account)

/-- What a fork sees of an account. -/
def seenOnFork (s : Storage) (ancestors : Finset UInt64) (a : Hash) : Option Account :=
  (s.latestOnFork ancestors a).bind fun slot => s.accounts.lookup (a, slot)

/-- The accounts that a fork sees, in the order of their addresses. -/
def accountsOnFork (s : Storage) (ancestors : Finset UInt64) : List (Hash × Account) :=
  (s.accounts.keys.image Prod.fst).ascending.filterMap fun a =>
    (s.seenOnFork ancestors a).map fun account => (a, account)

/-- A read looks at the versions and at the index. -/
theorem getAccount_congr {s' : Storage} (haccounts : s'.accounts = s.accounts)
    (hindex : s'.accountIndex = s.accountIndex) (a : Hash) : s'.getAccount a = s.getAccount a := by
  unfold getAccount getAccountAtSlot findLatestAccountAtOrBefore versionSlots
  rw [haccounts, hindex]

theorem mem_getAllAccounts : q ∈ s.getAllAccounts ↔ s.getAccount q.1 = some q.2 := by
  simp only [getAllAccounts, mem_filterMap, Finset.mem_ascending, Finmap.mem_keys,
    map_eq_some_iff]
  constructor
  · rintro ⟨a, -, account, hread, rfl⟩
    exact hread
  · intro hread
    refine ⟨q.1, ?_, q.2, hread, rfl⟩
    unfold getAccount at hread
    obtain ⟨slot, hslot, -⟩ := bind_eq_some_iff.mp hread
    exact Finmap.mem_iff.mpr ⟨slot, hslot⟩

theorem mem_accountsOnFork :
    q ∈ s.accountsOnFork ancestors ↔ s.seenOnFork ancestors q.1 = some q.2 := by
  simp only [accountsOnFork, mem_filterMap, Finset.mem_ascending, Finset.mem_image,
    Finmap.mem_keys, map_eq_some_iff]
  constructor
  · rintro ⟨a, -, account, hseen, rfl⟩
    exact hseen
  · intro hseen
    refine ⟨q.1, ?_, q.2, hseen, rfl⟩
    obtain ⟨slot, -, hlookup⟩ := bind_eq_some_iff.mp hseen
    exact ⟨(q.1, slot), Finmap.mem_iff.mpr ⟨q.2, hlookup⟩, rfl⟩

end Storage

section Trees

variable (P : Platform)

/-- The leaves of a state tree that is built from scratch. -/
def stateTreeOf (accounts : List (Hash × Account)) : Finmap fun _ : Hash => Hash :=
  accounts.foldl (fun t q => t.insert q.1 (accountLeafHash P q)) ∅

/-- The leaves of `StateTree::init_from_storage`. -/
def initFromStorage (s : Storage) : Finmap fun _ : Hash => Hash := stateTreeOf P s.getAllAccounts

variable {P}

theorem lookup_stateTreeOf {accounts : List (Hash × Account)} {read : Hash → Option Account}
    (h : ∀ q, q ∈ accounts ↔ read q.1 = some q.2) (a : Hash) :
    (stateTreeOf P accounts).lookup a
      = (read a).map fun account => accountLeafHash P (a, account) := by
  unfold stateTreeOf
  rw [lookup_foldl_insert read (accountLeafHash P) h, lookup_empty, or_none]

end Trees

/-! ### The tree and the index -/

namespace ReplayStage

/-- The root of the state tree is that of a tree over the accounts that the chain of the slot
sees. -/
def RootFollows (P : Platform) (s : ReplayStage) (slot : UInt64) : Prop :=
  ∃ ancestry, s.forkTree.getAncestry slot = .ok ancestry ∧ s.bank.stateRoot P
    = stateTreeRoot P (stateTreeOf P (s.bank.storage.accountsOnFork ancestry.toFinset))

/-- The tree has a leaf for every account that the index names, and no others. -/
def StateFollows (P : Platform) (s : ReplayStage) : Prop :=
  ∀ a, s.bank.stateTree.lookup a =
    (s.bank.storage.getAccount a).map fun account => accountLeafHash P (a, account)

/-- The move takes nothing back: the index names no version later than the slot it goes to. -/
def TakesNothingBack (s : ReplayStage) : StageMove → Prop
  | .enter slot | .back slot => ∀ a v, s.bank.storage.accountIndex.lookup a = some v → v ≤ slot
  | .idle | .commit _ _ | .root _ => True

/-- An admitted move that takes nothing back. -/
def KeptMove (P : Platform) (q : ReplayStage × UInt64) (m : StageMove) (q' : ReplayStage × UInt64) :
    Prop :=
  MoveStep P q m q' ∧ TakesNothingBack q.1 m

variable {P : Platform} {s s' : ReplayStage} {base slot v : UInt64} {m : StageMove} {a : Hash}
  {ancestry l : List UInt64}

namespace StateFollows

/-- What the tree holds depends on the tree, the versions and the index. -/
theorem congr (h : StateFollows P s) (haccounts : s'.bank.storage.accounts = s.bank.storage.accounts)
    (hindex : s'.bank.storage.accountIndex = s.bank.storage.accountIndex)
    (hstate : s'.bank.stateTree = s.bank.stateTree) : StateFollows P s' := by
  intro a
  rw [hstate, getAccount_congr haccounts hindex]
  exact h a

/-- The entry of an account stays if it is not later than the ancestor of the base. -/
theorem onFork_of_le (haligned : Aligned s base) (w : Walk s.forkTree.up base ancestry)
    (hslot : slot ∈ ancestry) (wl : Walk s.forkTree.up slot l)
    (hv : s.bank.storage.accountIndex.lookup a = some v) (hle : v ≤ slot) :
    OnFork l.toFinset v := by
  have hmem := haligned.wellFormed.mem_of_walk haligned.mem w slot hslot
  have hlatest := haligned.latest ancestry w a
  rw [hv] at hlatest
  rw [haligned.descending.onFork_iff haligned.wellFormed hmem wl]
  refine hlatest.1.2.imp_left fun hin => ?_
  exact w.mem_of_le (haligned.descending base ancestry haligned.mem w) hslot wl hin hle

/-- A rewind that leaves every entry where it is. -/
theorem rewindIndex {target : Hash → UInt64 → Option UInt64} (h : StateFollows P s)
    (htarget : ∀ a v, s.bank.storage.accountIndex.lookup a = some v → target a v = some v) :
    StateFollows P (s.withStorage (s.bank.storage.rewindIndex target)) := by
  refine h.congr rfl ?_ rfl
  refine ext_lookup fun a => ?_
  change (s.bank.storage.rewindIndex target).accountIndex.lookup a = _
  rw [lookup_rewindIndex]
  cases hv : s.bank.storage.accountIndex.lookup a with
  | none => rfl
  | some v => exact htarget a v hv

/-- The accounts that a block has written are put into the tree. -/
theorem commit {batch : WriteBatch} {cache : AccountCache} {tree : ForkTree} {bank : ConsensusBank}
    (h : StateFollows P s) (hindexed : s.bank.storage.Indexed) (ho : Overlays slot batch cache)
    (hstorage : bank.storage = s.bank.storage.write batch)
    (hstate : bank.stateTree = cache.deltas.foldl
      (fun t q => t.insert q.1 (accountLeafHash P q)) s.bank.stateTree) :
    StateFollows P { s with forkTree := tree, bank } := by
  intro a
  change bank.stateTree.lookup a = (bank.storage.getAccount a).map _
  have hindexed' : bank.storage.Indexed := by
    intro a v hv
    rw [hstorage, ho.index] at hv
    rw [hstorage, ho.mem_accounts]
    split_ifs at hv with ha
    · exact .inl ⟨(Option.some.inj hv).symm, ha⟩
    · exact .inr (hindexed a v hv)
  rw [hstate, AccountCache.lookup_foldl_deltas, h a, hindexed'.getAccount_eq, hindexed.getAccount_eq,
    hstorage, ho.index]
  by_cases ha : a ∈ cache
  · obtain ⟨account, haccount⟩ := mem_iff.mp ha
    rw [if_pos ha, Option.bind_some, ho.accounts, if_pos ⟨rfl, ha⟩, haccount]
    rfl
  · have hnone : cache.lookup a = none := lookup_eq_none.mpr ha
    rw [if_neg ha, hnone]
    refine congrArg (Option.map _) (Option.bind_congr fun v _ => ?_)
    rw [ho.accounts, if_neg fun hin => ha hin.2]

/-- **The step lemma.**  A move that takes nothing back keeps the tree in step with the index. -/
theorem step {q q' : ReplayStage × UInt64} (h : StateFollows P q.1) (haligned : Aligned q.1 q.2)
    (hstep : KeptMove P q m q') : StateFollows P q'.1 := by
  obtain ⟨s, base⟩ := q
  obtain ⟨s', base'⟩ := q'
  obtain ⟨⟨hmove, hadmits, rfl⟩, hkept⟩ := hstep
  have hsame : ∀ {s₁ : ReplayStage}, StateFollows P s₁ → SameChainState s₁ s' → StateFollows P s' :=
    fun h₁ hs => h₁.congr hs.accounts hs.accountIndex hs.stateTree
  cases m with
  | idle => exact hsame h hmove
  | enter slot =>
    obtain ⟨ancestry, w, hslot⟩ := hadmits
    obtain ⟨l, hl, hs⟩ := hmove
    have wl := ForkTree.getAncestry_eq_ok.mp hl
    refine hsame (h.rewindIndex fun a v hv => ?_) hs
    have hne : l.toFinset.Nonempty := ⟨slot, mem_toFinset.mpr wl.head_mem⟩
    exact (rewoundIndex_eq_self hne).mpr (onFork_of_le haligned w hslot wl hv (hkept a v hv))
  | commit slot parentSlot =>
    obtain ⟨batch, cache, blockHash, bankHash, tree, ho, -, hs⟩ := hmove
    exact hsame (h.commit haligned.indexed ho rfl rfl) hs
  | back slot =>
    refine hsame (h.rewindIndex fun a v hv => ?_) hmove
    exact if_neg (not_lt.mpr (hkept a v hv))
  | root slot =>
    obtain ⟨tree, -, hs⟩ := hmove
    have hroot : StateFollows P { s with forkTree := tree } := h
    exact hsame hroot hs

/-- The tree that is in step with the index of a base has the root of the base. -/
theorem rootFollows (h : StateFollows P s) (haligned : Aligned s base) : RootFollows P s base := by
  obtain ⟨ancestry, w, -⟩ := haligned.wellFormed.walk base haligned.mem
  refine ⟨ancestry, ForkTree.getAncestry_eq_ok.mpr w, ?_⟩
  have hne : ancestry.toFinset.Nonempty := ⟨base, mem_toFinset.mpr w.head_mem⟩
  have hread : ∀ a, s.bank.storage.getAccount a
      = s.bank.storage.seenOnFork ancestry.toFinset a := by
    intro a
    have hlatest := haligned.latest ancestry w a
    rw [← haligned.versionsOnFork_eq haligned.mem w] at hlatest
    rw [haligned.indexed.getAccount_eq, hlatest.unique (isLatest_latestOnFork hne)]
    rfl
  have htree : s.bank.stateTree
      = stateTreeOf P (s.bank.storage.accountsOnFork ancestry.toFinset) := by
    refine ext_lookup fun a => ?_
    rw [lookup_stateTreeOf (fun _ => mem_accountsOnFork), h a, hread]
  rw [← htree]
  rfl

/-- After a restart the tree is in step with the index. -/
theorem init (h : s.bank.stateTree = initFromStorage P s.bank.storage) : StateFollows P s := by
  intro a
  rw [h, initFromStorage, lookup_stateTreeOf fun _ => mem_getAllAccounts]

end StateFollows

/-- A move to the base itself takes nothing back. -/
theorem takesNothingBack_base (h : Aligned s base) : TakesNothingBack s (.enter base) := by
  intro a v hv
  obtain ⟨ancestry, w, -⟩ := h.wellFormed.walk base h.mem
  have hlatest := h.latest ancestry w a
  rw [hv] at hlatest
  exact h.visible_le h.mem w hlatest.1

/-- A block on the base takes nothing back. -/
theorem kept_on_base (h : Aligned s base)
    (hmoves : Steps (MoveStep P) (s, base) [.idle, .enter base, .commit slot base] (s', slot)) :
    Steps (KeptMove P) (s, base) [.idle, .enter base, .commit slot base] (s', slot) := by
  simp only [Steps.cons_iff, Steps.nil_iff] at hmoves
  obtain ⟨⟨s₁, base₁⟩, hidle, q₂, henter, q₃, hcommit, rfl⟩ := hmoves
  obtain rfl : base₁ = base := hidle.2.2
  have h₁ : Aligned s₁ base₁ := h.step hidle
  exact .cons ⟨hidle, trivial⟩ (.cons ⟨henter, takesNothingBack_base h₁⟩
    (.cons ⟨hcommit, trivial⟩ (.nil _)))

end ReplayStage

namespace ValidatorNode

variable (P : Platform) (config : ValidatorConfig)

/-- A step of a node and its base whose moves are admitted and take nothing back. -/
def KeptStep (q : ValidatorNode × UInt64) (e : NodeEvent) (q' : ValidatorNode × UInt64) : Prop :=
  NodeStep P config q.1 e q'.1 ∧
    Steps (KeptMove P) (q.1.stage, q.2) (q.1.moves P config e) (q'.1.stage, q'.2)

variable {P config} {n n' : ValidatorNode} {s : ReplayStage} {base base' slot : UInt64}
  {events : List NodeEvent} {ms : List StageMove}

/-- The index is on its base and the tree is in step, after moves that take nothing back. -/
theorem follows_of_moves {q q' : ReplayStage × UInt64} (h : Aligned q.1 q.2 ∧ StateFollows P q.1)
    (hmoves : Steps (KeptMove P) q ms q') : Aligned q'.1 q'.2 ∧ StateFollows P q'.1 :=
  hmoves.invariant (I := fun q => Aligned q.1 q.2 ∧ StateFollows P q.1) (G := fun _ => True)
    (fun _ _ _ hq _ hstep => ⟨hq.1.step hstep.1, hq.2.step hq.1 hstep⟩) h fun _ _ => trivial

/-- **The state root follows the chain.**  In every run of steps whose moves are admitted and take
nothing back, and after every move of the next step, the root of the state tree is that of a tree
built from scratch over the accounts that the chain of the base sees. -/
theorem rootFollows_of_steps (hstart : Aligned n.stage base) (hstate : StateFollows P n.stage)
    (hrun : Trace.Steps (KeptStep P config) (n, base) events (n', base'))
    (hmoves : Trace.Steps (KeptMove P) (n'.stage, base') ms (s, slot)) : RootFollows P s slot := by
  have hend : Aligned n'.stage base' ∧ StateFollows P n'.stage :=
    hrun.invariant (I := fun q => Aligned q.1.stage q.2 ∧ StateFollows P q.1.stage)
      (G := fun _ => True) (fun _ _ _ hq _ hstep => follows_of_moves hq hstep.2) ⟨hstart, hstate⟩
      fun _ _ => trivial
  obtain ⟨haligned, hfollows⟩ := follows_of_moves hend hmoves
  exact hfollows.rootFollows haligned

end ValidatorNode

/-! ### A payment on a fork that is left -/

namespace Sample

open ValidatorNode

/-- A stage at genesis after a restart. -/
def booted : ReplayStage :=
  { wallets.stage with bank := { wallets.stage.bank with
    stateTree := initFromStorage (Platform.sample false) wallets.stage.bank.storage } }

/-- A valid block is received: the event, and the node after it. -/
def receives (slot parentSlot : UInt64) (transactions : List Transaction) (n : ValidatorNode) :
    Option (NodeEvent × ValidatorNode) := do
  let block ← sealBlock (Platform.sample false) n.stage
    ⟨{ header with slot, parentSlot }, transactions, []⟩
  let n' ← n.next (Platform.sample false) config (.receive inOrder block)
  return (.receive inOrder block, n')

theorem nodeStep_receives {slot parentSlot : UInt64} {transactions : List Transaction}
    {n n' : ValidatorNode} {e : NodeEvent}
    (h : receives slot parentSlot transactions n = some (e, n')) :
    NodeStep .release config n e n' := by
  obtain ⟨block, -, h⟩ := bind_eq_some_iff.mp h
  obtain ⟨n₁, hnext, h⟩ := bind_eq_some_iff.mp h
  cases some.inj h
  exact nodeStep_of_next hnext

end Sample

open Sample ValidatorNode in
/-- A payment in slot 1, and then an empty slot 2 beside it: the root has the payment. -/
theorem root_has_the_abandoned_payment :
    ∃ e₁ e₂ n, Trace.Steps (NodeStep (Platform.sample false) config) (node booted) [e₁, e₂] n ∧
      2 ∈ n.stage.forkTree.nodes ∧ ¬ RootFollows (Platform.sample false) n.stage 2 := by
  obtain ⟨⟨e₁, n₁⟩, hn₁, ⟨e₂, n⟩, hn, hmem, hancestry, hroot⟩ :
      ∃ q₁, receives 1 0 [payment] (node booted) = some q₁ ∧ ∃ q, receives 2 0 [] q₁.2 = some q ∧
      2 ∈ q.2.stage.forkTree.nodes ∧ q.2.stage.forkTree.getAncestry 2 = .ok [2, 0] ∧
      q.2.stage.bank.stateRoot .release ≠ stateTreeRoot .release
          (stateTreeOf .release (q.2.storage.accountsOnFork {2, 0})) := by
    decide +kernel
  refine ⟨e₁, e₂, n, .cons (nodeStep_receives hn₁) (.cons (nodeStep_receives hn) (.nil _)),
    hmem, ?_⟩
  rintro ⟨ancestry, hanc, hfollows⟩
  rw [hancestry] at hanc
  cases hanc
  exact hroot hfollows

open Sample ValidatorNode in
/-- After the payment alone, the root is that of the chain with the payment. -/
theorem root_has_the_payment :
    ∃ e n, Trace.Steps (KeptStep (Platform.sample false) config) (node booted, 0) [e] (n, 1) ∧
      RootFollows (Platform.sample false) n.stage 1 := by
  obtain ⟨⟨e, n⟩, hn, hmoves⟩ :
      ∃ q, receives 1 0 [payment] (node booted) = some q ∧
      (node booted).moves .release config q.1 = [.idle, .enter 0, .commit 1 0] := by
    decide +kernel
  have htree : booted.forkTree = ForkTree.new 0 Hash.zero Hash.zero := rfl
  have hstart : Aligned (node booted).stage 0 :=
    aligned_new htree (by decide +kernel) (by decide +kernel)
  have hfresh : ∀ q ∈ booted.bank.storage.accounts.keys, q.2 ≠ 1 := by decide +kernel
  have hstep := nodeStep_receives hn
  have hsteps := steps_moves hstep
  rw [hmoves] at hsteps
  have hkept := kept_on_base hstart (steps_on_base hstart (by decide)
    (fun a ha => hfresh (a, 1) (mem_keys.mpr ha) rfl) hsteps)
  have hrun' : Steps (KeptStep .release config) (node booted, 0) [e] (n, 1) :=
    .cons ⟨hstep, hmoves.symm ▸ hkept⟩ (.nil _)
  exact ⟨e, n, hrun', rootFollows_of_steps hstart (StateFollows.init rfl) hrun' (.nil _)⟩

end Nusantara

import Nusantara.Validator.Run

/-!
# The state a block is produced on

A block is to be produced on the state of its parent: of every account, the latest version that was
written in a slot on the ancestry of the parent, or at or below the root.  The index of the accounts
holds one state at a time.  It follows the blocks as they are replayed and goes back when a fork is
left, but it never goes forward again to what it has left.

So there is a slot whose state the index holds, the base (`Aligned`), and there are the moves that
keep it known (`Admits`): the index is put on the base or on one of its ancestors, and a block is
committed on the base.  A run of such moves ends on the base, and so does what is produced on it.
Nothing in the slot loop keeps to them.  A block that is rejected has put the index on the fork of
its parent, and a node that has produced the parent itself takes the index as it is.

## Main results

* `ReplayStage.Aligned.step`: a move that is admitted leads from base to base.
* `ValidatorNode.producesOnParent_of_steps`: what is produced on the base sees its state.
-/

namespace Nusantara

open Exec Storage ReplayStage List Finmap Trace ForkTree Hash

/-! ### Trees that descend -/

namespace ForkTree

variable {t t' : ForkTree} {x y slot parent newRoot : UInt64} {l : List UInt64}
  {blockHash bankHash : Hash}

/-- The way to the root goes to lower and lower slots. -/
def Descending (t : ForkTree) : Prop :=
  ∀ x l, x ∈ t.nodes → Walk t.up x l → l.Pairwise (· > ·)

section

variable (h : t.Descending) (hwf : t.WellFormed) (hx : x ∈ t.nodes) (w : Walk t.up x l)

include h hwf hx w

theorem Descending.root_le (hy : y ∈ l) : t.rootSlot ≤ y := by
  have hmem := hwf.mem_of_walk hx w y hy
  obtain ⟨l', w', hroot⟩ := hwf.walk y hmem
  exact w'.le_head (h y l' hmem w') hroot

/-- The lowest of an ancestry is the root. -/
theorem Descending.onFork_iff : OnFork l.toFinset y ↔ y ∈ l ∨ y ≤ t.rootSlot := by
  unfold OnFork
  simp only [mem_toFinset]
  refine or_congr_right ⟨fun hle => ?_, fun hle m hm => hle.trans (h.root_le hwf hx w hm)⟩
  obtain ⟨l', w', hroot⟩ := hwf.walk x hx
  exact hle _ (w.unique w' ▸ hroot)

end

theorem SameLinks.descending (h : SameLinks t t') (hd : t.Descending) : t'.Descending := by
  intro x l hx w
  rw [h.up_eq] at w
  exact hd x l (h.mem_iff.mp hx) w

theorem Descending.addSlot (hd : t.Descending) (hwf : t.WellFormed)
    (h : t.addSlot slot parent blockHash bankHash = .ok t') (hparent : parent ∈ t.nodes)
    (hlt : parent < slot) : t'.Descending := by
  obtain ⟨hold, hnew⟩ := walk_addSlot hwf h hparent
  intro x l hx w
  rcases (mem_addSlot h).mp hx with rfl | hx
  · obtain ⟨l₀, w₀, -⟩ := hwf.walk parent hparent
    obtain rfl := w.unique (hnew l₀ w₀)
    have hl₀ := hd parent l₀ hparent w₀
    exact pairwise_cons.mpr ⟨fun y hy => (w₀.le_head hl₀ hy).trans_lt hlt, hl₀⟩
  · obtain ⟨l₀, w₀, -⟩ := hwf.walk x hx
    obtain rfl := w.unique (hold x l₀ hx w₀)
    exact hd x l hx w₀

/-- What a new root makes of a well-formed tree that descends. -/
theorem setRoot_eq_ok (hd : t.Descending) (hwf : t.WellFormed)
    (h : (setRoot newRoot).run t = .ok () t') :
    t'.WellFormed ∧ t'.Descending ∧ ((newRoot ≤ t.rootSlot ∧ t' = t) ∨
      t.rootSlot < newRoot ∧ t'.rootSlot = newRoot ∧
        (∀ x, x ∈ t'.nodes ↔ x ∈ t.nodes ∧ ∃ l, Walk t.up x l ∧ newRoot ∈ l) ∧
        ∀ x l, x ∈ t'.nodes → Walk t.up x l →
          Walk t'.up x (l.takeWhile (· ≠ newRoot) ++ [newRoot])) := by
  obtain ⟨t₁, hrun, hwf', hcases⟩ := hwf.setRoot_ok (setRoot_inv.mp h).1
  obtain rfl : t' = t₁ := by
    rw [hrun] at h
    exact (Outcome.ok.inj h).2.symm
  refine ⟨hwf', ?_, hcases⟩
  rcases hcases with ⟨-, rfl⟩ | ⟨-, -, hnodes, hwalk⟩
  · exact hd
  · intro x l hx w
    obtain ⟨hx₀, l₀, w₀, hmem⟩ := (hnodes x).mp hx
    obtain rfl := w.unique (hwalk x l₀ hx w₀)
    exact (hd x l₀ hx₀ w₀).sublist (Walk.cut_sublist hmem)

end ForkTree

/-! ### The base -/

/-- The base after a move, if the move is admitted. -/
def StageMove.base (base : UInt64) : StageMove → UInt64
  | .idle | .root _ => base
  | .enter slot | .commit slot _ | .back slot => slot

namespace ReplayStage

/-- The versions of an account that were written in one of the given slots, or at or below the root
of the tree. -/
def visible (s : ReplayStage) (ancestry : List UInt64) (a : Hash) : Set UInt64 :=
  {v | (a, v) ∈ s.bank.storage.accounts ∧ (v ∈ ancestry ∨ v ≤ s.forkTree.rootSlot)}

/-- **The index holds the state of a slot**: it names, of every account, the latest version that is
visible on the ancestry of the slot. -/
structure Aligned (s : ReplayStage) (base : UInt64) : Prop where
  wellFormed : s.forkTree.WellFormed
  descending : s.forkTree.Descending
  mem : base ∈ s.forkTree.nodes
  latest : ∀ ancestry, Walk s.forkTree.up base ancestry → ∀ a,
    IsLatest (s.visible ancestry a) (s.bank.storage.accountIndex.lookup a)

/-- A slot is on the ancestry of the base, and every version up to it is visible there: no other fork
has written one. -/
def Clear (s : ReplayStage) (base slot : UInt64) : Prop :=
  ∃ ancestry, Walk s.forkTree.up base ancestry ∧ slot ∈ ancestry ∧
    ∀ a v, (a, v) ∈ s.bank.storage.accounts → v ≤ slot → v ∈ s.visible ancestry a

/-- The moves after which the base is known. -/
def Admits (s : ReplayStage) (base : UInt64) : StageMove → Prop
  | .idle => True
  | .enter slot => ∃ ancestry, Walk s.forkTree.up base ancestry ∧ slot ∈ ancestry
  | .commit slot parentSlot => parentSlot = base ∧ parentSlot < slot ∧
      ∀ a, (a, slot) ∉ s.bank.storage.accounts
  | .back slot => Clear s base slot
  | .root slot => s.forkTree.rootSlot < slot → Clear s base slot

/-- An admitted move of a stage and its base. -/
def MoveStep (P : Platform) (q : ReplayStage × UInt64) (m : StageMove) (q' : ReplayStage × UInt64) :
    Prop :=
  Moves P q.1 m q'.1 ∧ Admits q.1 q.2 m ∧ q'.2 = m.base q.2

variable {P : Platform} {s s' : ReplayStage} {base slot parentSlot v : UInt64} {m : StageMove}
  {ancestry l : List UInt64} {a : Hash}

namespace Aligned

theorem of_same (h : Aligned s base) (hs : SameChainState s s') : Aligned s' base where
  wellFormed := hs.links.wellFormed h.wellFormed
  descending := hs.links.descending h.descending
  mem := hs.links.mem_iff.mpr h.mem
  latest ancestry w a := by
    rw [hs.links.up_eq] at w
    have hlatest := h.latest ancestry w a
    unfold visible at hlatest ⊢
    rw [hs.accounts, hs.accountIndex, hs.links.rootSlot]
    exact hlatest

/-- The index names stored versions. -/
theorem indexed (h : Aligned s base) : s.bank.storage.Indexed := by
  intro a v hv
  obtain ⟨ancestry, w, -⟩ := h.wellFormed.walk base h.mem
  have hlatest := h.latest ancestry w a
  rw [hv] at hlatest
  exact hlatest.1.1

/-- What is visible from a slot of the tree is not later. -/
theorem visible_le (h : Aligned s base) (hslot : slot ∈ s.forkTree.nodes)
    (wl : Walk s.forkTree.up slot l) (hv : v ∈ s.visible l a) : v ≤ slot := by
  rcases hv.2 with hmem | hroot
  · exact wl.le_head (h.descending slot l hslot wl) hmem
  · exact hroot.trans (h.descending.root_le h.wellFormed hslot wl wl.head_mem)

section

variable (h : Aligned s base)

include h

/-- **The rule for rewinds.**  A rewind leads from the base to an ancestor if each entry stays on a
version that the ancestor sees, or is put on the latest of them. -/
theorem rewindIndex (w : Walk s.forkTree.up base ancestry)
    (hslot : slot ∈ ancestry) (wl : Walk s.forkTree.up slot l)
    {target : Hash → UInt64 → Option UInt64}
    (htarget : ∀ a current, s.bank.storage.accountIndex.lookup a = some current →
      (current ∈ s.visible l a ∧ target a current = some current) ∨
        IsLatest (s.visible l a) (target a current)) :
    Aligned (s.withStorage (s.bank.storage.rewindIndex target)) slot where
  wellFormed := h.wellFormed
  descending := h.descending
  mem := h.wellFormed.mem_of_walk h.mem w slot hslot
  latest l' w' a := by
    obtain rfl : l' = l := w'.unique wl
    -- An ancestor of the base sees less.
    have hsub : s.visible l' a ⊆ s.visible ancestry a := by
      refine fun v hv => ⟨hv.1, hv.2.imp_left fun hmem => ?_⟩
      obtain ⟨l, w₁, hsuffix⟩ := w.suffix hslot
      exact hsuffix.subset (wl.unique w₁ ▸ hmem)
    have hlatest := h.latest ancestry w a
    change IsLatest (s.visible l' a) ((s.bank.storage.rewindIndex target).accountIndex.lookup a)
    rw [lookup_rewindIndex]
    cases hindex : s.bank.storage.accountIndex.lookup a with
    | none =>
      rw [hindex] at hlatest
      exact hlatest.restrict hsub (by simp)
    | some current =>
      rw [hindex] at hlatest
      rw [Option.bind_some]
      rcases htarget a current hindex with ⟨hvisible, hstays⟩ | hput
      · rw [hstays]
        refine hlatest.restrict hsub fun v hv => ?_
        exact Option.some.inj hv ▸ hvisible
      · exact hput

/-- What the fork of a slot sees is what is visible on its ancestry. -/
theorem versionsOnFork_eq (hslot : slot ∈ s.forkTree.nodes)
    (wl : Walk s.forkTree.up slot l) :
    s.bank.storage.versionsOnFork l.toFinset a = s.visible l a := by
  ext v
  exact and_congr_right fun _ => h.descending.onFork_iff h.wellFormed hslot wl

section

variable (w : Walk s.forkTree.up base ancestry) (hslot : slot ∈ ancestry)

include w hslot

/-- The index is put on the fork of an ancestor. -/
theorem enter (wl : Walk s.forkTree.up slot l) : Aligned
      (s.withStorage (s.bank.storage.rewindAccountIndexForAncestry l.toFinset)) slot := by
  refine h.rewindIndex w hslot wl fun a current hcurrent => ?_
  have hmem := h.wellFormed.mem_of_walk h.mem w slot hslot
  have hne : l.toFinset.Nonempty := ⟨slot, mem_toFinset.mpr wl.head_mem⟩
  rw [← h.versionsOnFork_eq hmem wl]
  unfold rewoundIndex
  split_ifs with hon
  · exact .inl ⟨⟨h.indexed a current hcurrent, (onFork_iff hne).mpr hon⟩, rfl⟩
  · exact .inr (isLatest_latestOnFork hne)

/-- Where no other fork has written, an ancestor sees what was written up to it. -/
theorem visible_of_clear
    (hclear : ∀ a v, (a, v) ∈ s.bank.storage.accounts → v ≤ slot → v ∈ s.visible ancestry a)
    (wl : Walk s.forkTree.up slot l) :
    {v | (a, v) ∈ s.bank.storage.accounts ∧ v ≤ slot} = s.visible l a := by
  have hmem := h.wellFormed.mem_of_walk h.mem w slot hslot
  ext v
  constructor
  · rintro ⟨hstored, hle⟩
    refine ⟨hstored, (hclear a v hstored hle).2.imp_left fun hv => ?_⟩
    exact w.mem_of_le (h.descending base ancestry h.mem w) hslot wl hv hle
  · exact fun hv => ⟨hv.1, h.visible_le hmem wl hv⟩

end

/-- The index goes back to an ancestor. -/
theorem back (hclear : Clear s base slot) :
    Aligned (s.withStorage (s.bank.storage.rewindAccountIndexToSlot slot)) slot := by
  obtain ⟨ancestry, w, hslot, hclear⟩ := hclear
  obtain ⟨l, wl, -⟩ := w.suffix hslot
  refine h.rewindIndex w hslot wl fun a current hcurrent => ?_
  have hvisible := h.visible_of_clear w hslot hclear wl (a := a)
  unfold rewoundToSlot
  split_ifs with hlater
  · rw [findLatestAccountAtOrBefore_fst, ← hvisible]
    have hlatest := isLatest_greatest (s := s.bank.storage) (a := a) (· ≤ slot.toNat)
    simp only [← UInt64.le_iff_toNat_le] at hlatest
    exact .inr hlatest
  · rw [← hvisible]
    exact .inl ⟨⟨h.indexed a current hcurrent, not_lt.mp hlater⟩, rfl⟩

end

variable {tree : ForkTree} {q q' : ReplayStage × UInt64}

/-- A block is committed on the base. -/
theorem commit {batch : WriteBatch} {cache : AccountCache} {blockHash bankHash : Hash}
    {bank : ConsensusBank} (h : Aligned s base) (hlt : base < slot)
    (hfresh : ∀ a, (a, slot) ∉ s.bank.storage.accounts) (ho : Overlays slot batch cache)
    (hadd : s.forkTree.addSlot slot base blockHash bankHash = .ok tree)
    (hbank : bank.storage = s.bank.storage.write batch) :
    Aligned { s with forkTree := tree, bank } slot where
  wellFormed := h.wellFormed.addSlot hadd h.mem
  descending := h.descending.addSlot h.wellFormed hadd h.mem hlt
  mem := (mem_addSlot hadd).mpr (.inl rfl)
  latest l w a := by
    obtain ⟨ancestry, wa, -⟩ := h.wellFormed.walk base h.mem
    obtain rfl := w.unique ((walk_addSlot h.wellFormed hadd h.mem).2 ancestry wa)
    have hroot : tree.rootSlot = s.forkTree.rootSlot := by
      rw [(addSlot_lookup hadd).2.2.1]
    have hlatest := h.latest ancestry wa a
    change IsLatest {v | (a, v) ∈ bank.storage.accounts ∧ (v ∈ slot :: ancestry ∨ v ≤ tree.rootSlot)}
      (bank.storage.accountIndex.lookup a)
    rw [hbank, ho.index, hroot]
    by_cases ha : a ∈ cache
    · -- The new version is later than all the base has seen.
      have hset : {v | (a, v) ∈ (s.bank.storage.write batch).accounts ∧
          (v ∈ slot :: ancestry ∨ v ≤ s.forkTree.rootSlot)} = insert slot (s.visible ancestry a) := by
        ext v
        simp only [Set.mem_ofPred_eq, Set.mem_insert_iff, visible, ho.mem_accounts, mem_cons, ha,
          and_true]
        have hnot := hfresh a
        grind
      rw [if_pos ha, hset]
      exact .insert fun v hv => (h.visible_le h.mem wa hv).trans hlt.le
    · have hset : {v | (a, v) ∈ (s.bank.storage.write batch).accounts ∧
          (v ∈ slot :: ancestry ∨ v ≤ s.forkTree.rootSlot)} = s.visible ancestry a := by
        ext v
        simp only [Set.mem_ofPred_eq, visible, ho.mem_accounts, mem_cons, ha, and_false,
          false_or]
        have hnot := hfresh a
        grind
      rw [if_neg ha, hset]
      exact hlatest

/-- The root advances on the ancestry of the base. -/
theorem root (h : Aligned s base) (hclear : s.forkTree.rootSlot < slot → Clear s base slot)
    (hroot : (setRoot slot).run s.forkTree = .ok () tree) :
    Aligned { s with forkTree := tree } base := by
  obtain ⟨hwf, hdesc, ⟨-, rfl⟩ | ⟨hlt, hslot, hnodes, hwalk⟩⟩ :=
    setRoot_eq_ok h.descending h.wellFormed hroot
  · exact h
  obtain ⟨ancestry, w, hmem, hclear⟩ := hclear hlt
  have hbase : base ∈ tree.nodes := (hnodes base).mpr ⟨h.mem, ancestry, w, hmem⟩
  refine ⟨hwf, hdesc, hbase, fun l wl a => ?_⟩
  obtain rfl := wl.unique (hwalk base ancestry hbase w)
  have hset : ({ s with forkTree := tree } : ReplayStage).visible
      (ancestry.takeWhile (· ≠ slot) ++ [slot]) a = s.visible ancestry a := by
    ext v
    change ((a, v) ∈ s.bank.storage.accounts ∧ (v ∈ _ ∨ v ≤ tree.rootSlot)) ↔ _
    rw [hslot]
    constructor
    · rintro ⟨hstored, hv | hle⟩
      · exact ⟨hstored, .inl ((Walk.cut_sublist hmem).subset hv)⟩
      · exact hclear a v hstored hle
    · rintro ⟨hstored, hv | hle⟩
      · refine ⟨hstored, ?_⟩
        rcases Walk.mem_cut_or_le (h.descending base ancestry h.mem w) hmem hv with hcut | hle
        · exact .inl (mem_append_left _ hcut)
        · exact .inr hle
      · exact ⟨hstored, .inr (hle.trans hlt.le)⟩
  rw [hset]
  exact h.latest ancestry w a

/-- **The step lemma.**  A move that is admitted leads from base to base. -/
theorem step (h : Aligned q.1 q.2) (hstep : MoveStep P q m q') :
    Aligned q'.1 q'.2 := by
  obtain ⟨s, base⟩ := q
  obtain ⟨s', base'⟩ := q'
  obtain ⟨hmove, hadmits, rfl⟩ := hstep
  cases m with
  | idle => exact h.of_same hmove
  | enter slot =>
    obtain ⟨ancestry, w, hslot⟩ := hadmits
    obtain ⟨l, hl, hsame⟩ := hmove
    exact (h.enter w hslot (getAncestry_eq_ok.mp hl)).of_same hsame
  | commit slot parentSlot =>
    obtain ⟨rfl, hlt, hfresh⟩ := hadmits
    obtain ⟨batch, cache, blockHash, bankHash, tree, ho, hadd, hsame⟩ := hmove
    exact (h.commit hlt hfresh ho hadd rfl).of_same hsame
  | back slot => exact (h.back hadmits).of_same hmove
  | root slot =>
    obtain ⟨tree, hroot, hsame⟩ := hmove
    exact (h.root hadmits hroot).of_same hsame

theorem steps {ms : List StageMove} (h : Aligned q.1 q.2)
    (hsteps : Steps (MoveStep P) q ms q') : Aligned q'.1 q'.2 :=
  hsteps.invariant (I := fun q => Aligned q.1 q.2) (G := fun _ => True)
    (fun _ _ _ hq _ hstep => hq.step hstep) h fun _ _ => trivial

end Aligned

/-- A block on the base, of a slot without versions, is admitted. -/
theorem steps_on_base (h : Aligned s base) (hlt : base < slot)
    (hfresh : ∀ a, (a, slot) ∉ s.bank.storage.accounts)
    (hmoves : Steps (Moves P) s [.idle, .enter base, .commit slot base] s') :
    Steps (MoveStep P) (s, base) [.idle, .enter base, .commit slot base] (s', slot) := by
  simp only [Steps.cons_iff, Steps.nil_iff] at hmoves
  obtain ⟨s₁, hidle, s₂, henter, _, hcommit, rfl⟩ := hmoves
  have hfresh₂ : s₂.bank.storage.accounts = s.bank.storage.accounts := by
    obtain ⟨l, -, hsame⟩ := henter
    exact hsame.accounts.trans hidle.accounts
  obtain ⟨ancestry, w, -⟩ := (h.of_same hidle).wellFormed.walk base (h.of_same hidle).mem
  have hidle' : MoveStep P (s, base) .idle (s₁, base) := ⟨hidle, trivial, rfl⟩
  have henter' : MoveStep P (s₁, base) (.enter base) (s₂, base) :=
    ⟨henter, ⟨ancestry, w, w.head_mem⟩, rfl⟩
  have hcommit' : MoveStep P (s₂, base) (.commit slot base) (s', slot) :=
    ⟨hcommit, ⟨rfl, hlt, fun a => hfresh₂ ▸ hfresh a⟩, rfl⟩
  exact .cons hidle' (.cons henter' (.cons hcommit' (.nil _)))

/-- A stage at genesis is aligned: there is one version of each account, and the index names it. -/
theorem aligned_new {root : UInt64} {blockHash bankHash : Hash}
    (htree : s.forkTree = new root blockHash bankHash) (hindexed : s.bank.storage.Indexed)
    (hstored : ∀ q ∈ s.bank.storage.accounts.keys,
      s.bank.storage.accountIndex.lookup q.1 = some q.2 ∧ q.2 ≤ root) : Aligned s root := by
  have hwf := wellFormed_new root blockHash bankHash
  have hmem : ∀ x, x ∈ (new root blockHash bankHash).nodes → x = root := fun x hx =>
    (mem_singleton x root _).mp hx
  have hwalk : ∀ l, Walk (new root blockHash bankHash).up root l → l = [root] := fun l w =>
    w.unique (.stop hwf.root.2)
  rw [← htree] at hwf hmem hwalk
  have hslot : s.forkTree.rootSlot = root := by
    rw [htree]
    rfl
  refine ⟨hwf, fun x l hx w => ?_, hslot ▸ hwf.root.1, fun l w a => ?_⟩
  · obtain rfl := hmem x hx
    rw [hwalk l w]
    exact pairwise_singleton _ _
  · have hset : s.visible l a = {v | s.bank.storage.accountIndex.lookup a = some v} := by
      ext v
      constructor
      · exact fun hv => (hstored (a, v) (mem_keys.mpr hv.1)).1
      · intro hv
        have hmem := hindexed a v hv
        exact ⟨hmem, .inr (hslot ▸ (hstored (a, v) (mem_keys.mpr hmem)).2)⟩
    rw [hset]
    cases s.bank.storage.accountIndex.lookup a with
    | none => exact Set.eq_empty_of_forall_notMem fun v hv => by simp at hv
    | some v => exact ⟨rfl, fun v' hv' => (Option.some.inj hv').ge⟩

end ReplayStage

namespace ValidatorNode

variable (P : Platform) (config : ValidatorConfig)

/-- Every account is read in the latest version that was written in a slot on the ancestry of the
parent of the producer, or at or below the root. -/
def ProducesOnParent (n : ValidatorNode) : Prop :=
  ∃ ancestry, n.stage.forkTree.getAncestry n.producer.parentSlot = .ok ancestry ∧
    ∀ a, ∃ latest, IsLatest (n.stage.visible ancestry a) latest ∧
      n.storage.getAccount a = latest.bind fun v => n.storage.accounts.lookup (a, v)

/-- A step of a node and its base whose moves are all admitted. -/
def GuidedStep (q : ValidatorNode × UInt64) (e : NodeEvent) (q' : ValidatorNode × UInt64) : Prop :=
  NodeStep P config q.1 e q'.1 ∧
    Steps (MoveStep P) (q.1.stage, q.2) (q.1.moves P config e) (q'.1.stage, q'.2)

variable {P config} {n n' n₁ : ValidatorNode} {base base' : UInt64} {events : List NodeEvent}

/-- The node may produce: the parent is the base, or an ancestor of it if the index is put on the
fork of the parent. -/
def MayProduce (n : ValidatorNode) (base : UInt64) : Prop :=
  if n.lastProducedSlot = some n.productionParent then n.productionParent = base
  else ∃ ancestry, Walk n.stage.forkTree.up base ancestry ∧ n.productionParent ∈ ancestry

/-- **The run lemma.**  A run of steps whose moves are admitted ends on its base. -/
theorem aligned_of_steps {q q' : ValidatorNode × UInt64} (h : Aligned q.1.stage q.2)
    (hrun : Steps (GuidedStep P config) q events q') : Aligned q'.1.stage q'.2 :=
  hrun.invariant (I := fun q => Aligned q.1.stage q.2) (G := fun _ => True)
    (fun _ _ _ hq _ hstep => hq.steps hstep.2) h fun _ _ => trivial

/-- What a node does before a production puts it on the parent. -/
theorem aligned_prepareProduction (P : Platform) (h : Aligned n.stage base)
    (hmay : n.MayProduce base) (hprepare : n.prepareProduction = .ok n₁) :
    Aligned n₁.stage n₁.producer.parentSlot := by
  obtain ⟨hparent, -, -, hmoves⟩ := prepareProduction_eq_ok (P := P) hprepare
  rw [hparent]
  unfold productionMoves at hmoves
  unfold MayProduce at hmay
  split_ifs at hmay hmoves with hlinear
  · rw [Steps.nil_iff.mp hmoves, hmay]
    exact h
  · simp only [Steps.cons_iff, Steps.nil_iff] at hmoves
    obtain ⟨_, ⟨henter, -⟩, rfl⟩ := hmoves
    have hstep : MoveStep P (n.stage, base) (.enter n.productionParent)
        (n₁.stage, n.productionParent) := ⟨henter, hmay, rfl⟩
    exact h.step (q := (n.stage, base)) hstep

/-- **Production on the state of the parent.**  After every run of steps whose moves are admitted, a
node that may produce does so on the state of the parent. -/
theorem producesOnParent_of_steps (hstart : Aligned n.stage base)
    (hrun : Trace.Steps (GuidedStep P config) (n, base) events (n', base'))
    (hmay : n'.MayProduce base') (hprepare : n'.prepareProduction = .ok n₁) :
    n₁.ProducesOnParent := by
  have haligned : Aligned n₁.stage n₁.producer.parentSlot :=
    aligned_prepareProduction P (aligned_of_steps hstart hrun) hmay hprepare
  obtain ⟨ancestry, w, -⟩ := haligned.wellFormed.walk _ haligned.mem
  refine ⟨ancestry, getAncestry_eq_ok.mpr w, fun a => ?_⟩
  exact ⟨_, haligned.latest ancestry w a, haligned.indexed.getAccount_eq a⟩

end ValidatorNode

/-! ### A rejected block and the next production -/

namespace Sample

open ValidatorNode

/-- A block for slot 2 on slot 0, whose hashes are not those of its outcome. -/
def rejected : Block := ⟨{ header with slot := 2, parentSlot := 0 }, [], []⟩

/-- The node produces slot 1 with a payment, and then rejects a block. -/
def paidAndRejected : List NodeEvent :=
  [.produce inOrder 0 [payment], .receive inOrder rejected, .tick, .tick]

end Sample

open Sample ValidatorNode in
/-- Its next block is on slot 1, but the account that was paid there is not found. -/
theorem production_without_the_payment :
    ∃ n n₁, Trace.Steps (NodeStep (Platform.sample false) config) (node wallets.stage)
      paidAndRejected n ∧ n.prepareProduction = .ok n₁ ∧ n₁.producer.parentSlot = 1 ∧
        ¬ n₁.ProducesOnParent := by
  obtain ⟨n, hn, n₁, hn₁, hparent, hancestry, hpaid, hread⟩ :
      ∃ n, paidAndRejected.foldlM (next .release config) (node wallets.stage) = some
          n ∧
      ∃ n₁, n.prepareProduction = .ok n₁ ∧ n₁.producer.parentSlot = 1 ∧
      n₁.stage.forkTree.getAncestry 1 = .ok [1, 0] ∧ (repeated 6, 1) ∈ n₁.storage.accounts ∧
      n₁.storage.getAccount (repeated 6) = none := by decide +kernel
  refine ⟨n, n₁, steps_of_foldlM hn, hn₁, hparent, ?_⟩
  rintro ⟨ancestry, hanc, hsees⟩
  rw [hparent, hancestry] at hanc
  cases hanc
  obtain ⟨latest, hlatest, hget⟩ := hsees (repeated 6)
  have hvisible : (1 : UInt64) ∈ n₁.stage.visible [1, 0] (repeated 6) :=
    ⟨hpaid, .inl (by decide)⟩
  cases latest with
  | none =>
    rw [show n₁.stage.visible [1, 0] (repeated 6) = ∅ from hlatest] at hvisible
    exact hvisible
  | some v =>
    obtain ⟨account, haccount⟩ := mem_iff.mp hlatest.1.1
    rw [hread, Option.bind_some] at hget
    exact absurd (hget.trans haccount) (by simp)

open Sample ValidatorNode in
/-- A node that has replayed a block with a payment produces its own on the state of that block. -/
theorem production_on_the_payment :
    ∃ block n n₁, Trace.Steps (GuidedStep (Platform.sample false) config) (node wallets.stage, 0)
      [.receive inOrder block, .tick] (n, 1) ∧ n.prepareProduction = .ok n₁ ∧
        n₁.storage.getAccount (Hash.repeated 6) ≠ none ∧ n₁.ProducesOnParent := by
  obtain ⟨block, -, n, hn, n₁, hn₁, hmoves, hlast, hparent, hpaid⟩ :
      ∃ block, sealBlock .release wallets.stage ⟨header, [payment], []⟩ = some block
          ∧
      ∃ n, next .release config (node wallets.stage) (.receive inOrder block) = some
          n ∧
      ∃ n₁, { n with currentSlot := n.currentSlot + 1 : ValidatorNode }.prepareProduction = .ok n₁ ∧
      moves .release config (node wallets.stage) (.receive inOrder block) = [.idle,
          .enter 0, .commit 1 0] ∧
      n.lastProducedSlot = none ∧ n.productionParent = 1 ∧
      n₁.storage.getAccount (repeated 6) ≠ none := by decide +kernel
  have htree : wallets.stage.forkTree = new 0 Hash.zero Hash.zero := rfl
  have hstart : Aligned (node wallets.stage).stage 0 :=
    aligned_new htree (by decide +kernel) (by decide +kernel)
  have hfresh : ∀ q ∈ wallets.stage.bank.storage.accounts.keys, q.2 ≠ 1 := by decide +kernel
  have hstep := nodeStep_of_next hn
  have hsteps := steps_moves hstep
  rw [hmoves] at hsteps
  have hguided := steps_on_base hstart (by decide)
    (fun a ha => hfresh (a, 1) (mem_keys.mpr ha) rfl) hsteps
  have hreceive : GuidedStep .release config (node wallets.stage, 0)
      (.receive inOrder block) (n, 1) := ⟨hstep, hmoves.symm ▸ hguided⟩
  have htick : GuidedStep .release config (n, 1) .tick
      ({ n with currentSlot := n.currentSlot + 1 }, 1) := ⟨rfl, .nil _⟩
  have hsteps' := Steps.cons hreceive (.cons htick (.nil _))
  have hend := aligned_of_steps hstart hsteps'
  obtain ⟨ancestry, w, -⟩ := hend.wellFormed.walk 1 hend.mem
  have hmay : ValidatorNode.MayProduce { n with currentSlot := n.currentSlot + 1 } 1 := by
    have hnot : n.lastProducedSlot ≠ some n.productionParent := by simp [hlast]
    exact (if_neg hnot).mpr ⟨ancestry, w, hparent ▸ w.head_mem⟩
  exact ⟨block, _, n₁, hsteps', hn₁, hpaid, producesOnParent_of_steps hstart hsteps' hmay hn₁⟩

end Nusantara

import Nusantara.Consensus.Bank
import Nusantara.Core.MerkleTree

/-!
# The state tree

`StateTree` (`consensus/src/state_tree.rs`) keeps the root of a Merkle tree over all accounts.  The
leaves are a map from addresses to hashes, sorted by address.  The nodes of the tree are kept in an
array: an account that changes has its leaf written in place and the nodes above it marked dirty, and
`root` computes only those again.  A new account moves the leaves behind it, and the next `root`
builds the whole array.

The array is a cache.  It never goes out of its bounds and never misses a node (`Valid.update`,
`Valid.root`): the root is that of the leaves, as `ConsensusBank.stateRoot` computes it from scratch.

A proof of an account is the list of the siblings on the way from its leaf to the root.

## Main results

* `StateTree.Valid.update`: an update changes the leaves, and keeps the array in step with them.
* `StateTree.Valid.root`: the root is the Merkle root of the leaves.
* `StateTree.Valid.proof`: the proof of an account leads from its leaf to that root.
-/

namespace Nusantara

open Exec HeapTree List Finmap Option Nat

/-- The Merkle root of the leaves of a state tree, built from scratch. -/
def stateTreeRoot (P : Platform) (leaves : Finmap fun _ : Hash => Hash) : Hash :=
  merkleTreeRoot P (leaves.keys.ascending.filterMap leaves.lookup)

/-- `StateTree`. -/
structure StateTree where
  /-- The hashes of the accounts, by address. -/
  leaves : Finmap fun _ : Hash => Hash
  /-- The nodes: the root first, the leaves last. -/
  nodes : List Hash
  /-- The number of leaves in the array, a power of two. -/
  capacity : ℕ
  /-- Whether an address was added since the array was built. -/
  structuralChange : Bool
  /-- The internal nodes that are stale. -/
  dirty : Finset ℕ
  /-- The position of each leaf. -/
  leafIndices : Finmap fun _ : Hash => ℕ
  deriving DecidableEq

/-- `StateMerkleProof`. -/
structure StateMerkleProof where
  /-- The siblings from the leaf up. -/
  siblings : List Hash
  /-- Whether the node was a right child, from the leaf up. -/
  path : List Bool
  leafIndex : ℕ
  totalLeaves : ℕ
  deriving DecidableEq

namespace StateTree

variable (P : Platform)

/-! ### The code -/

/-- `StateTree::new`. -/
def new : StateTree := ⟨∅, [], 0, false, ∅, ∅⟩

/-- The hashes of the leaves, in the order of their addresses. -/
def leafHashes (leaves : Finmap fun _ : Hash => Hash) : List Hash :=
  leaves.keys.ascending.filterMap leaves.lookup

/-- The last level of the array: the leaves, padded to a power of two. -/
def leafLayer (leaves : Finmap fun _ : Hash => Hash) : List Hash :=
  (leafHashes leaves).map (hashLeaf P) ++
    replicate (2 ^ clog 2 (leafHashes leaves).length - (leafHashes leaves).length)
      (hashLeaf P Hash.zero)

/-- The nodes with the given indices, computed from their children; the code would go out of bounds
where a child is missing. -/
def recomputeNodes (nodes : List Hash) (indices : List ℕ) : Except Fault (List Hash) :=
  match recomputeAll (hashInternal P) nodes indices with
  | none => .error .indexOutOfBounds
  | some nodes => .ok nodes

variable (t : StateTree)

/-- `StateTree::full_rebuild`. -/
def fullRebuild : Except Fault StateTree := do
  let paddedCount := 2 ^ clog 2 (leafHashes t.leaves).length
  let nodes ← recomputeNodes P (replicate (paddedCount - 1) Hash.zero ++ leafLayer P t.leaves)
    (range (paddedCount - 1)).reverse
  let leafIndices := t.leaves.keys.ascending.zipIdx.foldl (fun m q => m.insert q.1 q.2) ∅
  return { t with nodes, capacity := paddedCount, leafIndices }

/-- `StateTree::ensure_rebuilt`. -/
def ensureRebuilt : Except Fault StateTree :=
  if t.structuralChange ∨ t.nodes = [] then do
    let t ← if t.leaves = ∅ then .ok { t with nodes := [], capacity := 0 } else t.fullRebuild P
    return { t with structuralChange := false, dirty := ∅ }
  else .ok t

/-- `StateTree::flush_dirty`. -/
def flushDirty : Except Fault StateTree := do
  let nodes ← recomputeNodes P t.nodes t.dirty.ascending.reverse
  return { t with nodes, dirty := ∅ }

/-- `StateTree::root`: the root, and the tree with its array up to date. -/
def root : Except Fault (Hash × StateTree) :=
  if t.leaves = ∅ then .ok (Hash.zero, t)
  else do
    let t ← t.ensureRebuilt P
    let t ← t.flushDirty P
    match t.nodes.head? with
    | none => .error .indexOutOfBounds
    | some root => return (root, t)

/-- The loop of `StateTree::update`, at one account.  The code expects the position of a leaf to be
known. -/
def updateLeaf (q : Hash × Account) : Except Fault StateTree :=
  let leafHash := accountLeafHash P q
  if q.1 ∈ t.leaves then
    if t.structuralChange ∨ t.nodes = [] then .ok { t with leaves := t.leaves.insert q.1 leafHash }
    else match t.leafIndices.lookup q.1 with
      | none => .error .indexOutOfBounds
      | some leafIndex =>
        let nodeIdx := t.capacity - 1 + leafIndex
        if nodeIdx < t.nodes.length then
          .ok { t with
            leaves := t.leaves.insert q.1 leafHash
            nodes := t.nodes.set nodeIdx (hashLeaf P leafHash)
            dirty := markAbove nodeIdx nodeIdx t.dirty }
        else .error .indexOutOfBounds
  else .ok { t with leaves := t.leaves.insert q.1 leafHash, structuralChange := true }

/-- `StateTree::update`. -/
def update (deltas : List (Hash × Account)) : Except Fault StateTree :=
  deltas.foldlM (updateLeaf P) t

/-- `StateTree::remove`. -/
def remove (address : Hash) : StateTree :=
  if address ∈ t.leaves then { t with leaves := t.leaves.erase address, structuralChange := true }
  else t

/-- `StateTree::proof`: the proof of an account, and the tree with its array up to date. -/
def proof (address : Hash) : Except Fault (Option StateMerkleProof × StateTree) :=
  if t.leaves = ∅ then .ok (none, t)
  else do
    let t ← t.ensureRebuilt P
    let t ← t.flushDirty P
    match t.leafIndices.lookup address with
    | none => return (none, t)
    | some leafIndex =>
      let pos := t.capacity - 1 + leafIndex
      match siblings t.nodes pos pos with
      | none => .error .indexOutOfBounds
      | some steps =>
        return (some {
          siblings := steps.map Prod.fst
          path := steps.map Prod.snd
          leafIndex
          totalLeaves := t.leaves.keys.card }, t)

/-- `StateTree::verify_proof`. -/
def verifyProof (root address : Hash) (account : Account) (proof : StateMerkleProof) : Bool :=
  climb (hashInternal P) (hashLeaf P (accountLeafHash P (address, account)))
    (proof.siblings.zip proof.path) = root

/-- `StateTree::init_from_storage`, over the leaves of the accounts that were read. -/
def ofLeaves (leaves : Finmap fun _ : Hash => Hash) : Except Fault StateTree :=
  let t := ⟨leaves, [], 0, true, ∅, ∅⟩
  if leaves = ∅ then .ok t else t.fullRebuild P

/-! ### The array and the leaves -/

variable {P t} {t' : StateTree} {leaves : Finmap fun _ : Hash => Hash} {a : Hash} {i : ℕ}

/-- The array holds the leaves, and what is not dirty above them is right. -/
structure Cached (P : Platform) (t : StateTree) : Prop where
  capacity : t.capacity = 2 ^ clog 2 (leafHashes t.leaves).length
  length : t.nodes.length = 2 * t.capacity - 1
  layer : t.nodes.drop (t.capacity - 1) = leafLayer P t.leaves
  indices : ∀ a i, t.leafIndices.lookup a = some i ↔ t.leaves.keys.ascending[i]? = some a
  dirty_lt : ∀ i ∈ t.dirty, 2 * i + 2 < t.nodes.length
  closed : ∀ i ∈ t.dirty, 0 < i → (i - 1) / 2 ∈ t.dirty
  sound : ∀ i, i ∉ t.dirty → Sound (hashInternal P) t.nodes i

/-- The array is to be built, or fits the leaves. -/
def Valid (P : Platform) (t : StateTree) : Prop :=
  t.structuralChange = false → t.nodes ≠ [] → t.Cached P

theorem valid_new : new.Valid P := fun _ h => absurd rfl h

section

variable (leaves : Finmap fun _ : Hash => Hash)

theorem leafHashes_eq_map :
    leafHashes leaves = leaves.keys.ascending.map fun a => (leaves.lookup a).getD Hash.zero := by
  unfold leafHashes
  rw [← filterMap_eq_map]
  refine filterMap_congr fun a ha => ?_
  obtain ⟨h, hlookup⟩ := mem_iff.mp (mem_keys.mp (Finset.mem_ascending.mp ha))
  simp [hlookup]

theorem length_leafHashes :
    (leafHashes leaves).length = leaves.keys.ascending.length := by
  rw [leafHashes_eq_map, length_map]

end

theorem keys_insert {h : Hash} (ha : a ∈ leaves) : (leaves.insert a h).keys = leaves.keys := by
  ext b
  rw [Finmap.mem_keys, Finmap.mem_keys, Finmap.mem_insert]
  exact ⟨fun hb => hb.elim (fun hb => hb ▸ ha) id, .inr⟩

/-- A leaf that is written in place. -/
theorem leafHashes_insert {h : Hash} (ha : leaves.keys.ascending[i]? = some a) :
    leafHashes (leaves.insert a h) = (leafHashes leaves).set i h := by
  have hmem : a ∈ leaves := by
    have hmem := List.mem_of_getElem? ha
    exact mem_keys.mp (Finset.mem_ascending.mp hmem)
  rw [leafHashes_eq_map, leafHashes_eq_map, keys_insert hmem]
  refine List.ext_getElem? fun j => ?_
  rw [List.getElem?_set, List.getElem?_map, List.getElem?_map, List.length_map]
  by_cases hij : i = j
  · subst hij
    have hlt := (List.getElem?_eq_some_iff.mp ha).1
    rw [if_pos rfl, if_pos hlt, ha, map_some, lookup_insert, getD_some]
  · rw [if_neg hij]
    cases hj : leaves.keys.ascending[j]? with
    | none => rfl
    | some b =>
      -- Another position is another address.
      have hne : b ≠ a := by
        rintro rfl
        exact hij ((List.getElem?_inj (List.getElem?_eq_some_iff.mp ha).1
          Finset.nodup_ascending).mp (ha.trans hj.symm))
      simp only [map_some, lookup_insert_of_ne _ hne]

theorem leafLayer_insert {h : Hash} (ha : leaves.keys.ascending[i]? = some a) :
    leafLayer P (leaves.insert a h) = (leafLayer P leaves).set i (hashLeaf P h) := by
  have hlt : i < (leafHashes leaves).length := by
    rw [length_leafHashes]
    exact (List.getElem?_eq_some_iff.mp ha).1
  unfold leafLayer
  rw [leafHashes_insert ha, List.length_set, List.map_set, List.set_append_left]
  rwa [List.length_map]

theorem recomputeNodes_eq_ok {nodes nodes' : List Hash} {indices : List ℕ} :
    recomputeNodes P nodes indices = .ok nodes' ↔
      recomputeAll (hashInternal P) nodes indices = some nodes' := by
  unfold recomputeNodes
  cases recomputeAll (hashInternal P) nodes indices <;> simp

/-! ### Updates -/

theorem Cached.updateLeaf {q : Hash × Account} (h : t.Cached P) (hq : q.1 ∈ t.leaves)
    (hflag : ¬ (t.structuralChange = true ∨ t.nodes = [])) :
    ∃ t', t.updateLeaf P q = .ok t' ∧ t'.Cached P ∧
      t'.leaves = t.leaves.insert q.1 (accountLeafHash P q) := by
  obtain ⟨i, hi⟩ := List.getElem?_of_mem (Finset.mem_ascending.mpr (mem_keys.mpr hq))
  have hindex := (h.indices q.1 i).mpr hi
  have hpos : 0 < t.capacity := by rw [h.capacity]; exact Nat.pow_pos (by omega)
  have hcount : i < t.capacity := by
    have hle := Nat.le_pow_clog (b := 2) (by omega) (leafHashes t.leaves).length
    have hlt := (List.getElem?_eq_some_iff.mp hi).1
    rw [← length_leafHashes] at hlt
    rw [h.capacity]
    omega
  have hlength := h.length
  have hbound : t.capacity - 1 + i < t.nodes.length := by omega
  simp only [StateTree.updateLeaf, if_pos hq, if_neg hflag, hindex, if_pos hbound]
  refine ⟨_, rfl, ?_, rfl⟩
  refine ⟨?_, ?_, ?_, fun a j => ?_, fun j hj => ?_, fun j hj hjpos => ?_, fun j hj => ?_⟩
  · rw [leafHashes_insert hi, List.length_set]
    exact h.capacity
  · rw [List.length_set]
    exact hlength
  · change (t.nodes.set (t.capacity - 1 + i) _).drop (t.capacity - 1) = _
    rw [leafLayer_insert hi, ← h.layer, List.drop_set, if_neg (by omega), Nat.add_sub_cancel_left]
  · rw [keys_insert hq]
    exact h.indices a j
  · rw [List.length_set]
    rcases mem_markAbove hj with hj | hle
    · exact h.dirty_lt j hj
    · omega
  · exact closed_markAbove le_rfl (fun m hm hmpos => .inr (h.closed m hm hmpos)) j hj hjpos
  · refine sound_set (by omega) (above_mem_markAbove le_rfl) hj (h.sound j fun hdirty => ?_)
    exact hj (subset_markAbove hdirty)

theorem Valid.updateLeaf (h : t.Valid P) (q : Hash × Account) :
    ∃ t', t.updateLeaf P q = .ok t' ∧ t'.Valid P ∧
      t'.leaves = t.leaves.insert q.1 (accountLeafHash P q) := by
  by_cases hq : q.1 ∈ t.leaves
  · by_cases hflag : t.structuralChange = true ∨ t.nodes = []
    · refine ⟨{ t with leaves := t.leaves.insert q.1 (accountLeafHash P q) },
        by simp only [StateTree.updateLeaf, if_pos hq, if_pos hflag], ?_, rfl⟩
      intro hchange hnodes
      rcases hflag with hflag | hflag
      · exact absurd (hchange.symm.trans hflag) (by decide)
      · exact absurd hflag hnodes
    · rw [not_or] at hflag
      have hcached := h (by simpa using hflag.1) hflag.2
      obtain ⟨t', ht', hcached', hleaves⟩ := hcached.updateLeaf hq (not_or.mpr hflag)
      exact ⟨t', ht', fun _ _ => hcached', hleaves⟩
  · refine ⟨{ t with
        leaves := t.leaves.insert q.1 (accountLeafHash P q), structuralChange := true },
      by simp only [StateTree.updateLeaf, if_neg hq], ?_, rfl⟩
    exact fun hchange => absurd hchange (by simp)

/-- **An update changes the leaves**, never panics, and keeps the array in step. -/
theorem Valid.update (h : t.Valid P) (deltas : List (Hash × Account)) :
    ∃ t', t.update P deltas = .ok t' ∧ t'.Valid P ∧
      t'.leaves = deltas.foldl (fun m q => m.insert q.1 (accountLeafHash P q)) t.leaves := by
  induction deltas generalizing t with
  | nil => exact ⟨t, rfl, h, rfl⟩
  | cons q deltas ih =>
    obtain ⟨t₁, hstep, hvalid, hleaves⟩ := h.updateLeaf q
    obtain ⟨t', ht', hvalid', hleaves'⟩ := ih hvalid
    refine ⟨t', ?_, hvalid', by rw [hleaves', hleaves]; rfl⟩
    rw [StateTree.update, foldlM_cons, hstep]
    exact ht'

/-! ### The root -/

theorem lookup_zipIdx {keys : List Hash} (hkeys : keys.Nodup) (a : Hash) (i : ℕ) :
    ((keys.zipIdx.foldl (fun m q => m.insert q.1 q.2) ∅ : Finmap fun _ : Hash => ℕ).lookup a
      = some i) ↔ keys[i]? = some a := by
  have hmem : ∀ q : Hash × ℕ, q ∈ keys.zipIdx ↔
      (if q.1 ∈ keys then some (keys.idxOf q.1) else none) = some q.2 := by
    intro q
    rw [List.mem_zipIdx_iff_getElem?]
    constructor
    · intro hq
      obtain ⟨hlt, hget⟩ := List.getElem?_eq_some_iff.mp hq
      rw [if_pos (List.mem_of_getElem? hq), ← hget, hkeys.idxOf_getElem]
    · intro hq
      split_ifs at hq with hmem
      rw [← some.inj hq, List.getElem?_idxOf hmem]
  have hlookup := lookup_foldl_insert
    (fun a => if a ∈ keys then some (keys.idxOf a) else none) Prod.snd hmem ∅ a
  rw [hlookup, ← List.mem_zipIdx_iff_getElem? (x := (a, i)), hmem]
  simp

theorem fullRebuild_ok (t : StateTree) : ∃ t', t.fullRebuild P = .ok t' ∧ t'.leaves = t.leaves ∧
    t'.structuralChange = t.structuralChange ∧
    ({ t' with structuralChange := false, dirty := ∅ } : StateTree).Cached P := by
  obtain ⟨nodes, hnodes, hbuilt⟩ := MerkleTree.exists_built (P := P) (leafHashes t.leaves)
  have hok := recomputeNodes_eq_ok.mpr hnodes
  have hrebuild : t.fullRebuild P = .ok { t with
      nodes, capacity := 2 ^ clog 2 (leafHashes t.leaves).length
      leafIndices := t.leaves.keys.ascending.zipIdx.foldl (fun m q => m.insert q.1 q.2) ∅ } :=
    exceptBind_eq_ok.mpr ⟨nodes, hok, rfl⟩
  refine ⟨_, hrebuild, rfl, rfl, ?_⟩
  exact ⟨rfl, hbuilt.length, hbuilt.layer, lookup_zipIdx Finset.nodup_ascending, by simp, by simp,
    fun i _ => hbuilt.sound i⟩

/-- An array without dirty nodes. -/
theorem Cached.built (h : t.Cached P) (hdirty : t.dirty = ∅) :
    MerkleTree.Built P (leafHashes t.leaves) t.nodes :=
  ⟨h.capacity ▸ h.length, h.capacity ▸ h.layer, fun i => h.sound i (by simp [hdirty])⟩

/-- The first node of an array without dirty nodes. -/
theorem Cached.head? (h : t.Cached P) (hdirty : t.dirty = ∅) (hleaves : t.leaves ≠ ∅) :
    t.nodes.head? = some (stateTreeRoot P t.leaves) := by
  have hne : leafHashes t.leaves ≠ [] := by
    intro hnil
    refine hleaves (Finmap.ext_lookup fun a => ?_)
    have hkeys : t.leaves.keys.ascending = [] := by
      rw [← length_eq_zero_iff, ← length_leafHashes, hnil]
      rfl
    rw [Finmap.lookup_empty, Finmap.lookup_eq_none, ← Finmap.mem_keys, ← Finset.mem_ascending, hkeys]
    simp
  rw [head?_eq_getElem?]
  exact (h.built hdirty).root hne

theorem Valid.ensureRebuilt (h : t.Valid P) (hleaves : t.leaves ≠ ∅) :
    ∃ t', t.ensureRebuilt P = .ok t' ∧ t'.Cached P ∧ t'.leaves = t.leaves := by
  unfold StateTree.ensureRebuilt
  split_ifs with hflag
  · obtain ⟨t', ht', hsame, -, hcached⟩ := fullRebuild_ok (P := P) t
    rw [ht']
    exact ⟨_, rfl, hcached, hsame⟩
  · rw [not_or] at hflag
    exact ⟨t, rfl, h (by simpa using hflag.1) hflag.2, rfl⟩

theorem Cached.flushDirty (h : t.Cached P) : ∃ t', t.flushDirty P = .ok t' ∧ t'.Cached P ∧
    t'.dirty = ∅ ∧ t'.leaves = t.leaves := by
  have hindices : ∀ i, i ∈ t.dirty.ascending.reverse ↔ i ∈ t.dirty := by simp
  obtain ⟨nodes, hnodes⟩ := recomputeAll_of_lt (hashInternal P) t.nodes
    t.dirty.ascending.reverse fun i hi => h.dirty_lt i ((hindices i).mp hi)
  have hlength := length_recomputeAll hnodes
  refine ⟨{ t with nodes, dirty := ∅ }, ?_, ⟨h.capacity, ?_, ?_, h.indices, ?_, ?_, ?_⟩, rfl, rfl⟩
  · simp only [StateTree.flushDirty, recomputeNodes_eq_ok.mpr hnodes]
    rfl
  · rw [hlength]
    exact h.length
  · -- A dirty node has children, so it is no leaf.
    change nodes.drop (t.capacity - 1) = leafLayer P t.leaves
    rw [← h.layer]
    refine ext_getElem? fun i => ?_
    rw [getElem?_drop, getElem?_drop, getElem?_recomputeAll hnodes]
    rw [hindices]
    intro hdirty
    have hlt := h.dirty_lt _ hdirty
    rw [h.length] at hlt
    omega
  · simp
  · simp
  · intro i _
    exact sound_recomputeAll Finset.pairwise_reverse_ascending
      (fun i hi hpos => (hindices _).mpr (h.closed i ((hindices i).mp hi) hpos))
      (fun i hi => h.sound i fun hdirty => hi ((hindices i).mpr hdirty)) hnodes i

/-- What a tree with leaves is brought to before it is read. -/
theorem Valid.refresh (h : t.Valid P) (hleaves : t.leaves ≠ ∅) :
    ∃ t₁ t₂, t.ensureRebuilt P = .ok t₁ ∧ t₁.flushDirty P = .ok t₂ ∧ t₂.Cached P ∧ t₂.dirty = ∅ ∧
      t₂.leaves = t.leaves ∧ t₂.nodes.head? = some (stateTreeRoot P t.leaves) := by
  obtain ⟨t₁, ht₁, hcached₁, hsame₁⟩ := h.ensureRebuilt hleaves
  obtain ⟨t₂, ht₂, hcached₂, hdirty, hsame₂⟩ := hcached₁.flushDirty
  have hsame := hsame₂.trans hsame₁
  have hhead := hcached₂.head? hdirty (by rw [hsame]; exact hleaves)
  rw [hsame] at hhead
  exact ⟨t₁, t₂, ht₁, ht₂, hcached₂, hdirty, hsame, hhead⟩

theorem stateTreeRoot_empty : stateTreeRoot P (∅ : Finmap fun _ : Hash => Hash) = Hash.zero := rfl

/-- **The root is that of the leaves**, and is computed without a panic. -/
theorem Valid.root (h : t.Valid P) :
    ∃ t', t.root P = .ok (stateTreeRoot P t.leaves, t') ∧ t'.Valid P ∧ t'.leaves = t.leaves := by
  by_cases hleaves : t.leaves = ∅
  · refine ⟨t, ?_, h, rfl⟩
    rw [StateTree.root, if_pos hleaves, hleaves, stateTreeRoot_empty]
  · obtain ⟨t₁, t₂, ht₁, ht₂, hcached, -, hsame, hhead⟩ := h.refresh hleaves
    refine ⟨t₂, ?_, fun _ _ => hcached, hsame⟩
    rw [StateTree.root, if_neg hleaves]
    refine exceptBind_eq_ok.mpr ⟨t₁, ht₁, exceptBind_eq_ok.mpr ⟨t₂, ht₂, ?_⟩⟩
    rw [hhead]
    rfl

/-! ### Removals and proofs -/

/-- A removal changes the leaves, and has the array built again. -/
theorem Valid.remove (h : t.Valid P) (a : Hash) :
    (t.remove a).Valid P ∧ (t.remove a).leaves = t.leaves.erase a := by
  unfold StateTree.remove
  split_ifs with ha
  · exact ⟨fun hchange => absurd hchange (by simp), rfl⟩
  · refine ⟨h, ext_lookup fun b => ?_⟩
    by_cases hab : b = a
    · subst hab
      rw [lookup_erase, lookup_eq_none.mpr ha]
    · rw [lookup_erase_ne hab]

/-- **The proof of an account** leads from its leaf to the root; there is one if the account has a
leaf, and no call panics. -/
theorem Valid.proof (h : t.Valid P) (a : Hash) :
    ∃ o t', t.proof P a = .ok (o, t') ∧ t'.Valid P ∧ t'.leaves = t.leaves ∧
      ∀ leafHash, t.leaves.lookup a = some leafHash → ∃ p, o = some p ∧
        climb (hashInternal P) (hashLeaf P leafHash) (p.siblings.zip p.path)
          = stateTreeRoot P t.leaves := by
  by_cases hleaves : t.leaves = ∅
  · refine ⟨none, t, by rw [StateTree.proof, if_pos hleaves], h, rfl, fun leafHash ha => ?_⟩
    simp [hleaves] at ha
  · obtain ⟨t₁, t₂, ht₁, ht₂, hcached, hdirty, hsame, hhead⟩ := h.refresh hleaves
    have hproof : t.proof P a = match t₂.leafIndices.lookup a with
        | none => .ok (none, t₂)
        | some leafIndex => match siblings t₂.nodes (t₂.capacity - 1 + leafIndex)
              (t₂.capacity - 1 + leafIndex) with
          | none => .error .indexOutOfBounds
          | some steps => .ok (some ⟨steps.map Prod.fst, steps.map Prod.snd, leafIndex,
              t₂.leaves.keys.card⟩, t₂) := by
      rw [StateTree.proof, if_neg hleaves, ht₁]
      change t₁.flushDirty P >>= _ = _
      rw [ht₂]
      rfl
    cases hindex : t₂.leafIndices.lookup a with
    | none =>
      refine ⟨none, t₂, by rw [hproof, hindex], fun _ _ => hcached, hsame, fun leafHash ha => ?_⟩
      -- Every leaf has a position.
      rw [← hsame] at ha
      have hmem := Finset.mem_ascending.mpr (mem_keys.mpr (mem_iff.mpr ⟨_, ha⟩))
      obtain ⟨i, hi⟩ := getElem?_of_mem hmem
      rw [(hcached.indices a i).mpr hi] at hindex
      cases hindex
    | some i =>
      have hi := (hcached.indices a i).mp hindex
      have hmem := mem_keys.mp (Finset.mem_ascending.mp (mem_of_getElem? hi))
      obtain ⟨leafHash, ha⟩ := mem_iff.mp hmem
      have hleaf : (leafHashes t₂.leaves)[i]? = some leafHash := by
        rw [leafHashes_eq_map, getElem?_map, hi, map_some, ha, getD_some]
      obtain ⟨steps, hsteps, hclimb⟩ := (hcached.built hdirty).siblings hleaf
      rw [← hcached.capacity] at hsteps
      refine ⟨some ⟨steps.map Prod.fst, steps.map Prod.snd, i, t₂.leaves.keys.card⟩, t₂,
        by rw [hproof, hindex]; simp only [hsteps], fun _ _ => hcached, hsame, ?_⟩
      intro leafHash' ha'
      rw [← hsame, ha] at ha'
      cases ha'
      refine ⟨_, rfl, ?_⟩
      rw [zip_map', ← hsame]
      exact Eq.trans (by simp) hclimb

theorem valid_ofLeaves (leaves : Finmap fun _ : Hash => Hash) :
    ∃ t, ofLeaves P leaves = .ok t ∧ t.Valid P ∧ t.leaves = leaves := by
  unfold ofLeaves
  dsimp only
  split_ifs with hleaves
  · exact ⟨_, rfl, fun hchange => absurd hchange (by simp), rfl⟩
  · -- The flag is still set: the first root builds the array once more.
    obtain ⟨t', ht', hsame, hflag, -⟩ := fullRebuild_ok (P := P) ⟨leaves, [], 0, true, ∅, ∅⟩
    refine ⟨t', ht', fun hchange => ?_, hsame⟩
    rw [hflag] at hchange
    cases hchange

end StateTree

end Nusantara

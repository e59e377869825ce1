import Nusantara.Core.Block
import Nusantara.Lib.HeapTree

/-!
# Merkle trees

`MerkleTree` and `MerkleProof` (`crypto/src/merkle.rs`).  A tree is one array, the root first and the
leaves last, padded with the leaf of zero.  A proof has siblings of any number and shape, from whoever
sends it; but the first byte of what is hashed says what it is, a leaf or a pair of nodes, so a proof
can neither start at an inner node nor end below the leaves.

What is asked of the hash is that no two inputs of the trees and of the verification collide.

## Main results

* `MerkleTree.complete_and_sound`: the proofs of the leaves are accepted, what is accepted is a leaf
  or the padding, and the root determines the leaves.
-/

namespace Nusantara

open HeapTree List Nat
open Nat (clog)

/-- `MerkleTree`. -/
structure MerkleTree where
  nodes : List Hash
  leafCount : ℕ

/-- What is hashed to a node over a pair of nodes. -/
def pairBytes (q : Hash × Hash) : List UInt8 := 1 :: q.1.asBytes ++ q.2.asBytes

namespace MerkleTree

variable (P : Platform)

/-- The last level of the array: the leaves, padded to a power of two. -/
def leafLayer (leaves : List Hash) : List Hash :=
  leaves.map (hashLeaf P) ++
    replicate (2 ^ clog 2 leaves.length - leaves.length) (hashLeaf P Hash.zero)

/-- `MerkleTree::new`; the code would go out of bounds where a child is missing. -/
def new (leaves : List Hash) : Except Fault MerkleTree :=
  if leaves = [] then .ok ⟨[Hash.zero], 0⟩
  else
    let paddedCount := 2 ^ clog 2 leaves.length
    match recomputeAll (hashInternal P)
      (replicate (paddedCount - 1) Hash.zero ++ leafLayer P leaves)
      (range (paddedCount - 1)).reverse with
    | none => .error .indexOutOfBounds
    | some nodes => .ok ⟨nodes, leaves.length⟩

/-- `MerkleTree::root`. -/
def root (t : MerkleTree) : Except Fault Hash :=
  match t.nodes[0]? with
  | none => .error .indexOutOfBounds
  | some root => .ok root

/-- `MerkleTree::proof`. -/
def proof (t : MerkleTree) (index : ℕ) : Except Fault (Option MerkleProof) :=
  if t.leafCount ≤ index then .ok none
  else
    let pos := (t.nodes.length + 1) / 2 - 1 + index
    match siblings t.nodes pos pos with
    | none => .error .indexOutOfBounds
    | some steps => .ok (some ⟨steps.map Prod.fst, steps.map Prod.snd⟩)

/-! ### The array -/

/-- The nodes are an array over the leaves, with every node in its place. -/
structure Built (leaves nodes : List Hash) : Prop where
  length : nodes.length = 2 * 2 ^ clog 2 leaves.length - 1
  layer : nodes.drop (2 ^ clog 2 leaves.length - 1) = leafLayer P leaves
  sound : ∀ i, Sound (hashInternal P) nodes i

variable {P} {leaves leaves' nodes : List Hash} {leaf : Hash} {i : ℕ}

theorem length_leafLayer (leaves : List Hash) :
    (leafLayer P leaves).length = 2 ^ clog 2 leaves.length := by
  have hle := le_pow_clog (b := 2) (by omega) leaves.length
  simp only [leafLayer, length_append, length_map, length_replicate]
  omega

/-- The nodes that are computed bottom-up. -/
theorem exists_built (leaves : List Hash) : ∃ nodes, recomputeAll (hashInternal P)
    (List.replicate (2 ^ clog 2 leaves.length - 1) Hash.zero ++ leafLayer P leaves)
    (List.range (2 ^ clog 2 leaves.length - 1)).reverse = some nodes ∧ Built P leaves nodes := by
  have hcount : 0 < 2 ^ clog 2 leaves.length := Nat.pow_pos (by omega)
  have hlength : (List.replicate (2 ^ clog 2 leaves.length - 1) Hash.zero ++
      leafLayer P leaves).length = 2 * 2 ^ clog 2 leaves.length - 1 := by
    rw [List.length_append, List.length_replicate, length_leafLayer]
    omega
  have hindices : ∀ i, i ∈ (List.range (2 ^ clog 2 leaves.length - 1)).reverse ↔
      i < 2 ^ clog 2 leaves.length - 1 := by
    simp
  obtain ⟨nodes, hnodes⟩ := recomputeAll_of_lt (hashInternal P) _ _ fun i hi => by
    rw [hlength]
    have hlt := (hindices i).mp hi
    omega
  refine ⟨nodes, hnodes, (length_recomputeAll hnodes).trans hlength, ?_, fun i => ?_⟩
  · -- The leaves are not among the nodes that are computed.
    refine List.ext_getElem? fun i => ?_
    rw [List.getElem?_drop, getElem?_recomputeAll hnodes (by rw [hindices]; omega),
      List.getElem?_append_right (by simp), List.length_replicate, Nat.add_sub_cancel_left]
  · refine sound_recomputeAll ?_ (fun i hi hpos => ?_) (fun i hi => ?_) hnodes i
    · rw [List.pairwise_reverse]
      exact List.pairwise_lt_range
    · rw [hindices] at hi ⊢
      omega
    · rw [hindices] at hi
      intro l r _ hr
      have hlt := (List.getElem?_eq_some_iff.mp hr).1
      rw [hlength] at hlt
      omega

theorem pairUp_eq_layerAbove : pairUp (hashInternal P) = layerAbove P := by
  funext l
  induction l using layerAbove.induct with
  | case1 left right rest ih => rw [pairUp, layerAbove, ih]
  | case2 rest h => rw [pairUp.eq_def, layerAbove.eq_def]; split <;> simp_all

/-- The root is all that the levels come to. -/
theorem iterate_pairUp_leafLayer (hne : leaves ≠ []) :
    (pairUp (hashInternal P))^[clog 2 leaves.length] (leafLayer P leaves)
      = [merkleTreeRoot P leaves] := by
  have hlength := length_iterate_pairUp (hashInternal P) (length_leafLayer (P := P) leaves) le_rfl
  rw [Nat.sub_self, Nat.pow_zero] at hlength
  obtain ⟨root, hroot⟩ := length_eq_one_iff.mp hlength
  have htop : merkleTreeRoot P leaves = root := by
    rw [merkleTreeRoot, if_neg hne, ← pairUp_eq_layerAbove]
    exact congrArg (fun l => headD l Hash.zero) hroot
  rw [htop, hroot]

theorem Built.root (h : Built P leaves nodes) (hne : leaves ≠ []) :
    nodes[0]? = some (merkleTreeRoot P leaves) := by
  have hlength := h.length
  rw [← pow_succ'] at hlength
  have hlevel : level nodes (clog 2 leaves.length) = leafLayer P leaves := by
    rw [level, h.layer, ← length_leafLayer (P := P), take_length]
  rw [← iterate_pairUp hlength h.sound, hlevel, iterate_pairUp_leafLayer hne]
  rfl

/-- The siblings of a leaf lead to the root. -/
theorem Built.siblings (h : Built P leaves nodes) (hi : leaves[i]? = some leaf) :
    ∃ steps, siblings nodes (2 ^ clog 2 leaves.length - 1 + i)
        (2 ^ clog 2 leaves.length - 1 + i) = some steps ∧
      climb (hashInternal P) (hashLeaf P leaf) steps = merkleTreeRoot P leaves := by
  have hlt := (List.getElem?_eq_some_iff.mp hi).1
  have hleaf : nodes[2 ^ clog 2 leaves.length - 1 + i]? = some (hashLeaf P leaf) := by
    rw [← List.getElem?_drop, h.layer, leafLayer,
      List.getElem?_append_left (by rwa [List.length_map]), List.getElem?_map, hi, Option.map_some]
  have hodd : nodes.length % 2 = 1 := by
    have hpos : 0 < 2 ^ clog 2 leaves.length := Nat.pow_pos (by omega)
    rw [h.length]
    omega
  obtain ⟨steps, hsteps, hroot⟩ := climb_siblings hodd h.sound le_rfl hleaf
  rw [h.root (List.ne_nil_of_mem (List.mem_of_getElem? hi))] at hroot
  exact ⟨steps, hsteps, (Option.some.inj hroot).symm⟩

/-! ### Without collisions -/

/-- The inputs that are hashed when a tree is built. -/
def treeInputs (P : Platform) (leaves : List Hash) : Set (List UInt8) :=
  {input | (∃ h, (h ∈ leaves ∨ h = Hash.zero) ∧ input = 0 :: h.asBytes) ∨
    ∃ j < clog 2 leaves.length,
      ∃ q ∈ pairs ((pairUp (hashInternal P))^[j] (leafLayer P leaves)), input = pairBytes q}

/-- The inputs that are hashed on the way from a leaf. -/
def climbInputs (P : Platform) (leaf : Hash) (steps : List (Hash × Bool)) : Set (List UInt8) :=
  {input | input = 0 :: leaf.asBytes ∨
    ∃ q ∈ climbPairs (hashInternal P) (hashLeaf P leaf) steps, input = pairBytes q}

section NoCollision

variable {inputs : Set (List UInt8)} (hcollision : Set.InjOn P.hash inputs)

include hcollision

theorem injOn_hashInternal :
    Set.InjOn (fun q : Hash × Hash => hashInternal P q.1 q.2) {q | pairBytes q ∈ inputs} := by
  intro q hq q' hq' hsame
  have hbytes := (cons.inj (hcollision hq hq' hsame)).2
  obtain ⟨hleft, hright⟩ := asBytes_append_inj hbytes
  exact Prod.ext hleft hright

theorem injOn_hashLeaf : Set.InjOn (hashLeaf P) {leaf | 0 :: leaf.asBytes ∈ inputs} := by
  intro leaf hleaf leaf' hleaf' hsame
  have hbytes := (cons.inj (hcollision hleaf hleaf' hsame)).2
  exact (asBytes_append_inj (b := Hash.zero) (congrArg (· ++ Hash.zero.asBytes) hbytes)).1

/-- A pair and a leaf are hashed with different first bytes. -/
theorem hashInternal_ne_hashLeaf {q : Hash × Hash} (hq : pairBytes q ∈ inputs)
    (hleaf : 0 :: leaf.asBytes ∈ inputs) : hashInternal P q.1 q.2 ≠ hashLeaf P leaf :=
  fun hsame => absurd (cons.inj (hcollision hq hleaf hsame)).1 (by decide)

omit hcollision in
theorem mem_leafLayer {h : Hash} (hmem : h ∈ leafLayer P leaves) :
    ∃ leaf, (leaf ∈ leaves ∨ leaf = Hash.zero) ∧ h = hashLeaf P leaf := by
  rcases mem_append.mp hmem with hmem | hmem
  · obtain ⟨leaf, hleaf, rfl⟩ := mem_map.mp hmem
    exact ⟨leaf, .inl hleaf, rfl⟩
  · exact ⟨Hash.zero, .inr rfl, eq_of_mem_replicate hmem⟩

variable (htree : treeInputs P leaves ⊆ inputs)

include htree

/-- What is over a pair is no leaf of a tree. -/
theorem hashInternal_notMem_leafLayer {q : Hash × Hash} (hq : pairBytes q ∈ inputs) :
    hashInternal P q.1 q.2 ∉ leafLayer P leaves := by
  intro hmem
  obtain ⟨leaf, hleaf, hsame⟩ := mem_leafLayer hmem
  exact hashInternal_ne_hashLeaf hcollision hq (htree (.inl ⟨leaf, hleaf, rfl⟩)) hsame

/-- What is hashed to a leaf of the last level is a leaf or the padding. -/
theorem mem_of_mem_leafLayer (hleaf : 0 :: leaf.asBytes ∈ inputs)
    (h : hashLeaf P leaf ∈ leafLayer P leaves) : leaf ∈ leaves ∨ leaf = Hash.zero := by
  obtain ⟨leaf', hmem, hsame⟩ := mem_leafLayer h
  rwa [injOn_hashLeaf hcollision hleaf (htree (.inl ⟨leaf', hmem, rfl⟩)) hsame]

/-- **What leads to the root** is a leaf or the padding. -/
theorem mem_of_climb_eq {steps : List (Hash × Bool)} (hclimb : climbInputs P leaf steps ⊆ inputs)
    (hne : leaves ≠ [])
    (h : climb (hashInternal P) (hashLeaf P leaf) steps = merkleTreeRoot P leaves) :
    leaf ∈ leaves ∨ leaf = Hash.zero := by
  have hstart : 0 :: leaf.asBytes ∈ inputs := hclimb (.inl rfl)
  have hmem : climb (hashInternal P) (hashLeaf P leaf) steps ∈
      (pairUp (hashInternal P))^[clog 2 leaves.length] (leafLayer P leaves) := by
    rw [iterate_pairUp_leafLayer hne, h]
    exact mem_singleton_self _
  refine mem_of_mem_leafLayer hcollision htree hstart ?_
  refine mem_of_climb_mem (injOn_hashInternal hcollision) ?_ (length_leafLayer leaves) ?_ ?_ le_rfl
    hmem
  · exact fun q hq => ⟨hashInternal_notMem_leafLayer hcollision htree hq,
      hashInternal_ne_hashLeaf hcollision hq hstart⟩
  · exact fun j hj q hq => htree (.inr ⟨j, hj, q, hq, rfl⟩)
  · exact fun q hq => hclimb (.inr ⟨q, hq, rfl⟩)

variable (htree' : treeInputs P leaves' ⊆ inputs)

include htree'

/-- Equal roots are over the same last level, whatever the numbers of leaves. -/
theorem leafLayer_eq_of_root_eq (hne : leaves ≠ []) (hne' : leaves' ≠ [])
    (h : merkleTreeRoot P leaves = merkleTreeRoot P leaves') :
    leafLayer P leaves = leafLayer P leaves' := by
  refine eq_of_iterate_pairUp_eq (injOn_hashInternal hcollision) ?_ (length_leafLayer leaves)
    (length_leafLayer leaves') ?_ ?_ le_rfl le_rfl ?_
  · exact fun q hq => ⟨hashInternal_notMem_leafLayer hcollision htree hq,
      hashInternal_notMem_leafLayer hcollision htree' hq⟩
  · exact fun j hj q hq => htree (.inr ⟨j, hj, q, hq, rfl⟩)
  · exact fun j hj q hq => htree' (.inr ⟨j, hj, q, hq, rfl⟩)
  · rw [iterate_pairUp_leafLayer hne, iterate_pairUp_leafLayer hne', h]

/-- The last level determines the leaves, if the padding is none of them. -/
theorem eq_of_leafLayer_eq (hzero : Hash.zero ∉ leaves) (hzero' : Hash.zero ∉ leaves')
    (h : leafLayer P leaves = leafLayer P leaves') : leaves = leaves' := by
  have hinv := (injOn_hashLeaf hcollision).leftInvOn_invFunOn
  generalize Function.invFunOn (hashLeaf P) _ = unhash at hinv
  have hback : ∀ l, treeInputs P l ⊆ inputs → Hash.zero ∉ l →
      ((leafLayer P l).map unhash).filter (· ≠ Hash.zero) = l := by
    intro l hl hz
    have hpad : unhash (hashLeaf P Hash.zero) = Hash.zero := hinv (hl (.inl ⟨_, .inr rfl, rfl⟩))
    have hmap : (l.map (hashLeaf P)).map unhash = l := by
      rw [map_map]
      exact (map_congr_left fun leaf hleaf =>
        hinv (hl (.inl ⟨leaf, .inl hleaf, rfl⟩))).trans (map_id l)
    rw [leafLayer, map_append, hmap, map_replicate, hpad, filter_append,
      filter_eq_self.mpr fun leaf hleaf => by
        simpa using fun heq : leaf = Hash.zero => hz (heq ▸ hleaf)]
    simp
  rw [← hback leaves htree hzero, ← hback leaves' htree' hzero', h]

end NoCollision

theorem merkleTreeRoot_ne_zero (hzero : ∀ input, P.hash input ≠ Hash.zero) (hne : leaves ≠ []) :
    merkleTreeRoot P leaves ≠ Hash.zero := by
  have hroot : merkleTreeRoot P leaves ∈
      (pairUp (hashInternal P))^[clog 2 leaves.length] (leafLayer P leaves) := by
    rw [iterate_pairUp_leafLayer hne]
    exact mem_singleton_self _
  generalize hk : clog 2 leaves.length = k at hroot
  cases k with
  | zero =>
    obtain ⟨leaf, -, hleaf⟩ := mem_leafLayer hroot
    rw [hleaf]
    exact hzero _
  | succ k =>
    obtain ⟨q, -, hq⟩ := mem_iterate_pairUp_succ (length_leafLayer leaves) (by omega) hroot
    rw [hq]
    exact hzero _

/-! ### Proofs and roots -/

theorem new_root (leaves : List Hash) : ∃ t, new P leaves = .ok t ∧
    t.root = .ok (merkleTreeRoot P leaves) ∧ t.leafCount = leaves.length ∧
    (leaves ≠ [] → Built P leaves t.nodes) := by
  unfold new
  split_ifs with hnil
  · exact ⟨_, rfl, by rw [hnil]; rfl, by rw [hnil]; rfl, fun hne => absurd hnil hne⟩
  · obtain ⟨nodes, hnodes, hbuilt⟩ := exists_built (P := P) leaves
    refine ⟨⟨nodes, leaves.length⟩, by simp only [hnodes], ?_, rfl, fun _ => hbuilt⟩
    simp only [root, hbuilt.root hnil]

theorem verify_eq_climb (proof : MerkleProof) (leaf root : Hash) : proof.verify P leaf root =
    decide (climb (hashInternal P) (hashLeaf P leaf) (proof.hashes.zip proof.path) = root) := by
  have hstep : (fun (current : Hash) (p : Hash × Bool) =>
      if p.2 then hashInternal P p.1 current else hashInternal P current p.1) =
      fun x s => hashInternal P (side x s).1 (side x s).2 := by
    funext current p
    unfold side
    split_ifs <;> rfl
  rw [MerkleProof.verify, climb, hstep]

/-- **Merkle proofs are complete and sound**, and roots determine leaves.  Over the empty list the
root is zero, so that a hash must not be zero there. -/
theorem complete_and_sound (P : Platform) {leaves : List Hash} (hne : leaves ≠ []) :
    ∃ t root, new P leaves = .ok t ∧ t.root = .ok root ∧
      (∀ i leaf, leaves[i]? = some leaf → ∃ proof, t.proof i = .ok (some proof) ∧
        proof.verify P leaf root = true) ∧
      (∀ (proof : MerkleProof) leaf,
        Set.InjOn P.hash (treeInputs P leaves ∪
          climbInputs P leaf (proof.hashes.zip proof.path)) →
        proof.verify P leaf root = true → leaf ∈ leaves ∨ leaf = Hash.zero) ∧
      ∀ leaves' t', new P leaves' = .ok t' → t'.root = .ok root →
        Set.InjOn P.hash (treeInputs P leaves ∪ treeInputs P leaves') →
        (leaves' = [] → ∀ input, P.hash input ≠ Hash.zero) →
        Hash.zero ∉ leaves → Hash.zero ∉ leaves' → leaves = leaves' := by
  obtain ⟨t, ht, hroot, hcount, hbuilt⟩ := new_root (P := P) leaves
  refine ⟨t, _, ht, hroot, ?_, ?_, ?_⟩
  · intro i leaf hi
    obtain ⟨steps, hsteps, hclimb⟩ := (hbuilt hne).siblings hi
    have hlt := (List.getElem?_eq_some_iff.mp hi).1
    have hpos : (t.nodes.length + 1) / 2 = 2 ^ clog 2 leaves.length := by
      have hpow : 0 < 2 ^ clog 2 leaves.length := Nat.pow_pos (by omega)
      rw [(hbuilt hne).length]
      omega
    refine ⟨⟨steps.map Prod.fst, steps.map Prod.snd⟩, ?_, ?_⟩
    · simp only [proof, hcount, if_neg (not_le.mpr hlt), hpos, hsteps]
    · rw [verify_eq_climb, List.zip_map']
      simpa using hclimb
  · intro proof leaf hcollision hverify
    rw [verify_eq_climb, decide_eq_true_eq] at hverify
    exact mem_of_climb_eq hcollision Set.subset_union_left Set.subset_union_right hne hverify
  · intro leaves' t' ht' hroot' hcollision hnonzero hzero hzero'
    obtain ⟨t₁, ht₁, hroot₁, -, -⟩ := new_root (P := P) leaves'
    cases ht₁.symm.trans ht'
    have hsame := Except.ok.inj (hroot'.symm.trans hroot₁)
    by_cases hne' : leaves' = []
    · subst hne'
      exact absurd hsame (merkleTreeRoot_ne_zero (hnonzero rfl) hne)
    · exact eq_of_leafLayer_eq hcollision Set.subset_union_left Set.subset_union_right hzero hzero'
        (leafLayer_eq_of_root_eq hcollision Set.subset_union_left Set.subset_union_right hne hne'
          hsame)

/-- The proof of the only leaf of a tree is accepted. -/
theorem one_leaf_is_proved :
    ∃ t root, new (Platform.sample false) [Hash.repeated 2] = .ok t ∧ t.root = .ok root ∧
      ∃ proof, t.proof 0 = .ok (some proof) ∧
        proof.verify (Platform.sample false) (Hash.repeated 2) root = true := by
  obtain ⟨t, root, ht, hroot, hproof, -⟩ :=
    complete_and_sound .release (cons_ne_nil (Hash.repeated 2) [])
  exact ⟨t, root, ht, hroot, hproof 0 _ rfl⟩

end MerkleTree

end Nusantara

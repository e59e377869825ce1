import Nusantara.Consensus.BankHash
import Nusantara.Consensus.StateTree

/-!
# Proofs of accounts

`StateTree::verify_proof` (`consensus/src/state_tree.rs`) takes siblings of any number and shape, from
whoever sends them.  The first byte of what is hashed says what it is, a leaf or a pair of nodes, so
a proof can neither start at an inner node nor end below the leaves; and an account is hashed with
its address, so it proves nothing about another one.

What is asked of the hash is that no two inputs of the tree and of the verification collide, and that
it is never zero: zero stands for the leaf of the padding and for the root of the empty tree.

## Main results

* `StateTree.LeavesOf.proof_verifies`: the proof of an account of the tree is accepted.
* `StateTree.LeavesOf.of_verifyProof`: an account that is accepted is one of the tree.
* `StateTree.LeavesOf.eq_of_stateTreeRoot_eq`: trees with one root have the same accounts.
-/

namespace Nusantara

open Borsh HeapTree List Option

/-- What is hashed to the leaf of an account. -/
def leafBytes (q : Hash × Account) : List UInt8 := asciiBytes "state_leaf" ++ deltaBytes q

theorem accountLeafHash_eq (P : Platform) (q : Hash × Account) :
    accountLeafHash P q = P.hash (leafBytes q) := by
  simp only [accountLeafHash, leafBytes, deltaBytes, append_assoc]

/-- The bytes of a leaf determine the account. -/
theorem leafBytes_inj {q q' : Hash × Account} (hdata : q.2.data.length < 2 ^ 32)
    (hdata' : q'.2.data.length < 2 ^ 32) (h : leafBytes q = leafBytes q') : q = q' := by
  have hbytes := append_cancel_left h
  rw [deltaBytes_eq_enc, deltaBytes_eq_enc] at hbytes
  exact (deltaCodec.enc_append_inj (deltaCodec_fits hdata) (deltaCodec_fits hdata')
    (congrArg (· ++ []) hbytes)).1

namespace StateTree

section Inputs

variable (P : Platform)

/-- The leaves are those of these accounts. -/
def LeavesOf (leaves : Finmap fun _ : Hash => Hash) (accounts : Finmap fun _ : Hash => Account) :
    Prop :=
  ∀ a, leaves.lookup a = (accounts.lookup a).map fun account => accountLeafHash P (a, account)

/-- The inputs that are hashed when the tree over some accounts is built. -/
def treeInputs (leaves : Finmap fun _ : Hash => Hash) (accounts : Finmap fun _ : Hash => Account) :
    Set (List UInt8) :=
  {input | (∃ q, accounts.lookup q.1 = some q.2 ∧ input = leafBytes q) ∨
    (∃ h, (h ∈ leafHashes leaves ∨ h = Hash.zero) ∧ input = 0 :: h.asBytes) ∨
    ∃ j < Nat.clog 2 (leafHashes leaves).length,
      ∃ q ∈ pairs ((pairUp (hashInternal P))^[j] (leafLayer P leaves)), input = pairBytes q}

/-- The inputs that are hashed when a proof is verified. -/
def verifyInputs (address : Hash) (account : Account) (proof : StateMerkleProof) :
    Set (List UInt8) :=
  {input | input = leafBytes (address, account) ∨
    input = 0 :: (accountLeafHash P (address, account)).asBytes ∨
    ∃ q ∈ climbPairs (hashInternal P) (hashLeaf P (accountLeafHash P (address, account)))
      (proof.siblings.zip proof.path), input = pairBytes q}

end Inputs

variable {P : Platform} {t : StateTree} {leaves : Finmap fun _ : Hash => Hash}
  {accounts : Finmap fun _ : Hash => Account} {address : Hash} {account : Account}
  {proof : StateMerkleProof}

/-- **Proofs are complete.** -/
theorem LeavesOf.proof_verifies (hleavesOf : LeavesOf P t.leaves accounts) (hvalid : t.Valid P)
    (h : accounts.lookup address = some account) :
    ∃ proof t', t.proof P address = .ok (some proof, t') ∧
      verifyProof P (stateTreeRoot P t.leaves) address account proof = true := by
  obtain ⟨o, t', hproof, -, -, hleads⟩ := hvalid.proof address
  have hleaf := hleavesOf address
  rw [h, map_some] at hleaf
  obtain ⟨proof, rfl, hroot⟩ := hleads _ hleaf
  exact ⟨proof, t', hproof, decide_eq_true hroot⟩

/-! ### Without collisions -/

section NoCollision

variable {inputs : Set (List UInt8)}

/-- An account whose leaf is one of the tree is an account of the tree. -/
theorem LeavesOf.lookup_of_mem_leafHashes {q : Hash × Account}
    (hleavesOf : LeavesOf P leaves accounts) (hcollision : Set.InjOn P.hash inputs)
    (hinputs : treeInputs P leaves accounts ⊆ inputs) (hq : leafBytes q ∈ inputs)
    (hdata : ∀ a acc, accounts.lookup a = some acc → acc.data.length < 2 ^ 32)
    (hdata' : q.2.data.length < 2 ^ 32) (h : accountLeafHash P q ∈ leafHashes leaves) :
    accounts.lookup q.1 = some q.2 := by
  obtain ⟨a, -, ha⟩ := mem_filterMap.mp h
  rw [hleavesOf a] at ha
  obtain ⟨acc, hacc, hleaf⟩ := map_eq_some_iff.mp ha
  rw [accountLeafHash_eq, accountLeafHash_eq] at hleaf
  have hbytes := hcollision (hinputs (.inl ⟨(a, acc), hacc, rfl⟩)) hq hleaf
  obtain rfl := leafBytes_inj (hdata a acc hacc) hdata' hbytes
  exact hacc

end NoCollision

/-! ### Soundness -/

theorem climb_eq_hash (h : Hash) (steps : List (Hash × Bool)) :
    ∃ input, climb (hashInternal P) (hashLeaf P h) steps = P.hash input := by
  rcases eq_nil_or_concat steps with rfl | ⟨steps, s, rfl⟩
  · exact ⟨_, rfl⟩
  · rw [concat_eq_append, climb, foldl_concat]
    exact ⟨_, rfl⟩

/-- The leaf of an account is not the padding. -/
theorem mem_leafHashes_of_or {q : Hash × Account} (hzero : ∀ input, P.hash input ≠ Hash.zero)
    (h : accountLeafHash P q ∈ leafHashes leaves ∨ accountLeafHash P q = Hash.zero) :
    accountLeafHash P q ∈ leafHashes leaves := by
  refine h.resolve_right ?_
  rw [accountLeafHash_eq]
  exact hzero _

/-- **Proofs are sound.** -/
theorem LeavesOf.of_verifyProof (hleavesOf : LeavesOf P leaves accounts)
    (hcollision : Set.InjOn P.hash (treeInputs P leaves accounts ∪ verifyInputs P address account proof))
    (hzero : ∀ input, P.hash input ≠ Hash.zero)
    (hdata : ∀ a acc, accounts.lookup a = some acc → acc.data.length < 2 ^ 32)
    (hdata' : account.data.length < 2 ^ 32)
    (h : verifyProof P (stateTreeRoot P leaves) address account proof = true) :
    accounts.lookup address = some account := by
  refine hleavesOf.lookup_of_mem_leafHashes (q := (address, account)) hcollision
    Set.subset_union_left (.inr (.inl rfl)) hdata hdata' ?_
  have hroot : climb (hashInternal P) (hashLeaf P (accountLeafHash P (address, account)))
      (proof.siblings.zip proof.path) = stateTreeRoot P leaves := of_decide_eq_true h
  by_cases hne : leafHashes leaves = []
  · -- The root of the empty tree is no hash.
    obtain ⟨input, hinput⟩ := climb_eq_hash (P := P) (accountLeafHash P (address, account))
      (proof.siblings.zip proof.path)
    have hempty : stateTreeRoot P leaves = Hash.zero := if_pos hne
    exact absurd (hinput.symm.trans (hroot.trans hempty)) (hzero input)
  · exact mem_leafHashes_of_or hzero (MerkleTree.mem_of_climb_eq hcollision
      (fun _ h => .inl (.inr h)) (fun _ h => .inr (.inr h)) hne hroot)

/-! ### Binding -/

section Binding

variable {leaves' : Finmap fun _ : Hash => Hash} {accounts' : Finmap fun _ : Hash => Account}

theorem LeavesOf.mem_leafHashes (hleavesOf : LeavesOf P leaves accounts)
    (h : accounts.lookup address = some account) :
    accountLeafHash P (address, account) ∈ leafHashes leaves := by
  have hleaf := hleavesOf address
  rw [h, map_some] at hleaf
  exact mem_filterMap.mpr ⟨address, Finset.mem_ascending.mpr
    (Finmap.mem_keys.mpr (Finmap.mem_of_lookup_eq_some hleaf)), hleaf⟩

variable (hleavesOf : LeavesOf P leaves accounts)
  (hleavesOf' : LeavesOf P leaves' accounts')
  (hcollision : Set.InjOn P.hash (treeInputs P leaves accounts ∪ treeInputs P leaves' accounts'))
  (hzero : ∀ input, P.hash input ≠ Hash.zero)
  (hdata : ∀ a acc, accounts.lookup a = some acc → acc.data.length < 2 ^ 32)
  (hdata' : ∀ a acc, accounts'.lookup a = some acc → acc.data.length < 2 ^ 32)
  (hroot : stateTreeRoot P leaves = stateTreeRoot P leaves')

include hleavesOf hleavesOf' hcollision hzero hdata hdata' hroot

/-- An account of one tree is one of every tree with the same root. -/
theorem LeavesOf.lookup_of_stateTreeRoot_eq
    (h : accounts.lookup address = some account) : accounts'.lookup address = some account := by
  have hmem := hleavesOf.mem_leafHashes h
  have hne : leafHashes leaves ≠ [] := ne_nil_of_mem hmem
  have hne' : leafHashes leaves' ≠ [] := by
    intro hempty
    have hzero' : stateTreeRoot P leaves' = Hash.zero := if_pos hempty
    exact MerkleTree.merkleTreeRoot_ne_zero hzero hne (hroot.trans hzero')
  have hleaf : hashLeaf P (accountLeafHash P (address, account)) ∈
      MerkleTree.leafLayer P (leafHashes leaves') := by
    rw [← MerkleTree.leafLayer_eq_of_root_eq hcollision (fun _ h => .inl (.inr h))
      (fun _ h => .inr (.inr h)) hne hne' hroot]
    exact mem_append_left _ (mem_map_of_mem hmem)
  refine hleavesOf'.lookup_of_mem_leafHashes (q := (address, account)) hcollision
    Set.subset_union_right (.inl (.inl ⟨(address, account), h, rfl⟩)) hdata'
    (hdata address account h) (mem_leafHashes_of_or hzero ?_)
  exact MerkleTree.mem_of_mem_leafLayer hcollision (fun _ h => .inr (.inr h))
    (.inl (.inr (.inl ⟨_, .inl hmem, rfl⟩))) hleaf

/-- **A root determines the accounts.** -/
theorem LeavesOf.eq_of_stateTreeRoot_eq : accounts = accounts' := by
  refine Finmap.ext_lookup fun address => ext fun account => ⟨fun h => ?_, fun h => ?_⟩
  · exact hleavesOf.lookup_of_stateTreeRoot_eq hleavesOf' hcollision hzero hdata hdata' hroot h
  · rw [Set.union_comm] at hcollision
    exact hleavesOf'.lookup_of_stateTreeRoot_eq hleavesOf hcollision hzero hdata' hdata hroot.symm h

end Binding

end StateTree

end Nusantara

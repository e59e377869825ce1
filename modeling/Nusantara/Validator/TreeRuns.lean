import Nusantara.Consensus.StateProofs
import Nusantara.Validator.StateRoot

/-!
# The state tree over a run of calls

A state tree starts empty or from the accounts of the store, and is then updated, asked for its root
and for proofs, and relieved of accounts, in any order (`consensus/src/state_tree.rs`).  Whatever the
order, no call panics, the root is that of a tree built from scratch over the leaves at hand, and the
proofs say which accounts these are.

## Main results

* `root_is_rebuilt`: the root over any run of calls.
* `proofs_are_complete_and_sound`: the proofs over any run of calls.
* `root_determines_accounts`: two runs of calls that end with one root.
-/

namespace Nusantara

open Borsh Exec List Trace Hash

/-- The calls of a state tree. -/
inductive TreeCall where
  | update (deltas : List (Hash × Account))
  | remove (address : Hash)
  | root
  | proof (address : Hash)
  deriving DecidableEq

namespace StateTree

variable (P : Platform)

/-- A call, and the tree after it. -/
def call (t : StateTree) : TreeCall → Except Fault StateTree
  | .update deltas => t.update P deltas
  | .remove address => .ok (t.remove address)
  | .root => (t.root P).map Prod.snd
  | .proof address => (t.proof P address).map Prod.snd

/-- What a call does to the leaves. -/
def leavesAfter (leaves : Finmap fun _ : Hash => Hash) : TreeCall → Finmap fun _ : Hash => Hash
  | .update deltas => deltas.foldl (fun m q => m.insert q.1 (accountLeafHash P q)) leaves
  | .remove address => leaves.erase address
  | .root | .proof _ => leaves

/-- What a call does to the accounts of the tree. -/
def accountsAfter (accounts : Finmap fun _ : Hash => Account) :
    TreeCall → Finmap fun _ : Hash => Account
  | .update deltas => deltas.foldl (fun m q => m.insert q.1 q.2) accounts
  | .remove address => accounts.erase address
  | .root | .proof _ => accounts

/-- The accounts of a store. -/
def storedAccounts (s : Storage) : Finmap fun _ : Hash => Account :=
  s.getAllAccounts.foldl (fun m q => m.insert q.1 q.2) ∅

/-- A tree as it is made, by `new` or by `init_from_storage`, with its accounts. -/
def Started (t : StateTree) (accounts : Finmap fun _ : Hash => Account) : Prop :=
  (t = new ∧ accounts = ∅) ∨
    ∃ s, ofLeaves P (initFromStorage P s) = .ok t ∧ accounts = storedAccounts s

variable {P} {t t' : StateTree} {accounts : Finmap fun _ : Hash => Account} {a : TreeCall}
  {calls : List TreeCall}

/-- **A call** does not panic and does to the leaves what it says. -/
theorem Valid.call (h : t.Valid P) (a : TreeCall) :
    ∃ t', t.call P a = .ok t' ∧ t'.Valid P ∧ t'.leaves = leavesAfter P t.leaves a := by
  cases a with
  | update deltas => exact h.update deltas
  | remove address => exact ⟨_, rfl, h.remove address⟩
  | root =>
    obtain ⟨t', hroot, hvalid, hleaves⟩ := h.root
    exact ⟨t', by rw [StateTree.call, hroot]; rfl, hvalid, hleaves⟩
  | proof address =>
    obtain ⟨o, t', hproof, hvalid, hleaves, -⟩ := h.proof address
    exact ⟨t', by rw [StateTree.call, hproof]; rfl, hvalid, hleaves⟩

theorem Started.valid (h : Started P t accounts) : t.Valid P := by
  rcases h with ⟨rfl, -⟩ | ⟨s, hs, -⟩
  · exact valid_new
  · obtain ⟨t', ht', hvalid, -⟩ := valid_ofLeaves (P := P) (initFromStorage P s)
    cases hs.symm.trans ht'
    exact hvalid

/-- The tree and its leaves at the end of a run. -/
theorem valid_of_steps (hvalid : t.Valid P)
    (hrun : Steps (fun t a t' => t.call P a = .ok t') t calls t') :
    t'.Valid P ∧ t'.leaves = calls.foldl (leavesAfter P) t.leaves := by
  induction hrun with
  | nil t => exact ⟨hvalid, rfl⟩
  | cons head tail ih =>
    obtain ⟨t₁, hcall, hvalid₁, hleaves⟩ := hvalid.call _
    cases head.symm.trans hcall
    rw [foldl_cons, ← hleaves]
    exact ih hvalid₁

/-! ### The accounts of the tree -/

section

variable {leaves : Finmap fun _ : Hash => Hash} (h : LeavesOf P leaves accounts)

include h

theorem LeavesOf.insert (q : Hash × Account) :
    LeavesOf P (leaves.insert q.1 (accountLeafHash P q)) (accounts.insert q.1 q.2) := by
  intro b
  by_cases hb : b = q.1
  · subst hb
    rw [Finmap.lookup_insert, Finmap.lookup_insert]
    rfl
  · rw [Finmap.lookup_insert_of_ne _ hb, Finmap.lookup_insert_of_ne _ hb, h b]

/-- The leaves and the accounts move together. -/
theorem LeavesOf.after
    (a : TreeCall) : LeavesOf P (leavesAfter P leaves a) (accountsAfter accounts a) := by
  cases a with
  | update deltas =>
    induction deltas generalizing leaves accounts with
    | nil => exact h
    | cons q deltas ih => exact ih (h.insert q)
  | remove address =>
    intro b
    by_cases hb : b = address
    · subst hb
      simp only [leavesAfter, accountsAfter, Finmap.lookup_erase]
      rfl
    · simp only [leavesAfter, accountsAfter, Finmap.lookup_erase_ne hb]
      exact h b
  | root => exact h
  | proof address => exact h

theorem LeavesOf.foldl (calls : List TreeCall) :
    LeavesOf P (calls.foldl (leavesAfter P) leaves) (calls.foldl accountsAfter accounts) :=
  foldl_rel h fun a _ _ _ h => h.after a

end

theorem lookup_storedAccounts (s : Storage) (a : Hash) :
    (storedAccounts s).lookup a = s.getAccount a := by
  rw [storedAccounts, Finmap.lookup_foldl_insert s.getAccount Prod.snd
    fun _ => Storage.mem_getAllAccounts, Finmap.lookup_empty, Option.or_none, Option.map_id']

theorem Started.leavesOf (h : Started P t accounts) : LeavesOf P t.leaves accounts := by
  rcases h with ⟨rfl, rfl⟩ | ⟨s, hs, rfl⟩
  · exact fun a => rfl
  · obtain ⟨t', ht', -, hleaves⟩ := valid_ofLeaves (P := P) (initFromStorage P s)
    cases hs.symm.trans ht'
    intro a
    rw [hleaves, lookup_storedAccounts, initFromStorage,
      lookup_stateTreeOf fun _ => Storage.mem_getAllAccounts]

end StateTree

open StateTree

/-- **The root is that of a tree built from scratch.**  After any calls on a new tree or on one made
from the store, every next call returns, the leaves are what the calls made of them, and the root is
the root of a tree that is built from these leaves, which is zero if there are none. -/
theorem root_is_rebuilt (P : Platform) {t₀ t : StateTree}
    {accounts : Finmap fun _ : Hash => Account} {calls : List TreeCall}
    (hstart : Started P t₀ accounts)
    (hrun : Trace.Steps (fun t a t' => t.call P a = .ok t') t₀ calls t) :
    (∀ a, ∃ t', t.call P a = .ok t') ∧ t.leaves = calls.foldl (leavesAfter P) t₀.leaves ∧
      (∃ root t₁ t₂ t₃, t.root P = .ok (root, t₁) ∧ ofLeaves P t.leaves = .ok t₂ ∧
        t₂.root P = .ok (root, t₃) ∧ root = stateTreeRoot P t.leaves) ∧
      (t.leaves = ∅ → ∃ t₁, t.root P = .ok (Hash.zero, t₁)) := by
  obtain ⟨hvalid, hleaves⟩ := valid_of_steps hstart.valid hrun
  obtain ⟨t₁, hroot, -, -⟩ := hvalid.root
  obtain ⟨t₂, hrebuilt, hvalid₂, hsame⟩ := valid_ofLeaves (P := P) t.leaves
  obtain ⟨t₃, hroot₂, -, -⟩ := hvalid₂.root
  rw [hsame] at hroot₂
  refine ⟨fun a => ?_, hleaves, ⟨_, t₁, t₂, t₃, hroot, hrebuilt, hroot₂, rfl⟩, fun hempty => ?_⟩
  · obtain ⟨t', hcall, -, -⟩ := hvalid.call a
    exact ⟨t', hcall⟩
  · rw [hempty, stateTreeRoot_empty] at hroot
    exact ⟨t₁, hroot⟩

namespace Sample

/-- A platform whose digests are never zero: a one and the front of the bytes. -/
def markedPlatform : Platform :=
  { Platform.sample false with
    hash := fun bs => ⟨(1 :: bs ++ replicate hashBytes 0).take hashBytes, by simp [hashBytes]⟩
    programIds_nodup := by decide }

/-- An address and its account. -/
def leafAccount : Hash × Account := (repeated 2, ⟨5, [], Hash.zero, false, 0⟩)

end Sample

open Sample in
/-- A new tree that is given an account and relieved of it has the root zero. -/
theorem root_of_emptied_tree :
    ∃ t t₁, Trace.Steps (fun t a t' => t.call markedPlatform a = .ok t') new
        [.update [leafAccount], .root, .remove leafAccount.1] t ∧
      t.root markedPlatform = .ok (Hash.zero, t₁) := by
  obtain ⟨t₁, h₁, hvalid₁, -⟩ := (valid_new (P := markedPlatform)).call (.update [leafAccount])
  obtain ⟨t₂, h₂, hvalid₂, -⟩ := hvalid₁.call .root
  obtain ⟨t₃, h₃, -, -⟩ := hvalid₂.call (.remove leafAccount.1)
  have hrun : Steps (fun t a t' => t.call markedPlatform a = .ok t') new
      [.update [leafAccount], .root, .remove leafAccount.1] t₃ :=
    .cons h₁ (.cons h₂ (.cons h₃ (.nil t₃)))
  obtain ⟨-, hleaves, -, hzero⟩ := root_is_rebuilt markedPlatform (.inl ⟨rfl, rfl⟩) hrun
  obtain ⟨t₄, hroot⟩ := hzero (hleaves.trans (by decide +kernel))
  exact ⟨t₃, t₄, hrun, hroot⟩

/-- **The proofs are complete and sound.**  After any calls, with `root` the root of the tree: the
proof of every account of the tree is accepted; and if no inputs of the tree and of a verification
collide, no hash is zero and the data of every account fits its length, whatever is accepted is an
account of the tree. -/
theorem proofs_are_complete_and_sound (P : Platform) {t₀ t t₁ : StateTree} {root : Hash}
    {accounts : Finmap fun _ : Hash => Account} {calls : List TreeCall}
    (hstart : Started P t₀ accounts)
    (hrun : Trace.Steps (fun t a t' => t.call P a = .ok t') t₀ calls t)
    (hroot : t.root P = .ok (root, t₁)) :
    (∀ address account, (calls.foldl accountsAfter accounts).lookup address = some account →
        ∃ proof t', t.proof P address = .ok (some proof, t') ∧
          verifyProof P root address account proof = true) ∧
      ∀ address account proof,
        Set.InjOn P.hash (treeInputs P t.leaves (calls.foldl accountsAfter accounts) ∪
          verifyInputs P address account proof) →
        (∀ input, P.hash input ≠ Hash.zero) →
        (∀ a acc, (calls.foldl accountsAfter accounts).lookup a = some acc →
          acc.data.length < 2 ^ 32) →
        account.data.length < 2 ^ 32 → verifyProof P root address account proof = true →
        (calls.foldl accountsAfter accounts).lookup address = some account := by
  obtain ⟨hvalid, hleaves⟩ := valid_of_steps hstart.valid hrun
  have hleavesOf := hstart.leavesOf.foldl calls
  rw [← hleaves] at hleavesOf
  obtain ⟨t₂, hroot', -, -⟩ := hvalid.root
  obtain ⟨rfl, -⟩ := Prod.mk.inj (Except.ok.inj (hroot.symm.trans hroot'))
  refine ⟨fun address account h => hleavesOf.proof_verifies hvalid h, ?_⟩
  intro address account proof hcollision hzero hdata hdata' h
  exact hleavesOf.of_verifyProof hcollision hzero hdata hdata' h

namespace Sample

/-- The proof of the only account of a tree. -/
def shortProof : StateMerkleProof := ⟨[], [], 0, 1⟩

/-- The leaves of a tree with one account. -/
def oneLeaf : Finmap fun _ : Hash => Hash := leavesAfter markedPlatform ∅ (.update [leafAccount])

theorem eq_leafAccount {q : Hash × Account}
    (h : (accountsAfter ∅ (.update [leafAccount])).lookup q.1 = some q.2) : q = leafAccount := by
  rw [accountsAfter, foldl_cons, foldl_nil] at h
  by_cases ha : q.1 = leafAccount.1
  · rw [ha, Finmap.lookup_insert] at h
    exact Prod.ext ha (Option.some.inj h).symm
  · rw [Finmap.lookup_insert_of_ne _ ha] at h
    simp at h

/-- What is hashed for a tree with one account. -/
def oneLeafInputs : Set (List UInt8) :=
  {leafBytes leafAccount, 0 :: (accountLeafHash markedPlatform leafAccount).asBytes,
    0 :: Hash.zero.asBytes}

theorem treeInputs_subset :
    treeInputs markedPlatform oneLeaf (accountsAfter ∅ (.update [leafAccount])) ⊆
      oneLeafInputs := by
  have hhashes : leafHashes oneLeaf = [accountLeafHash markedPlatform leafAccount] := by
    decide +kernel
  rintro input (⟨q, hq, rfl⟩ | ⟨h, hmem, rfl⟩ | ⟨j, hj, -⟩)
  · exact .inl (by rw [eq_leafAccount hq])
  · rw [hhashes, mem_singleton] at hmem
    rcases hmem with rfl | rfl
    · exact .inr (.inl rfl)
    · exact .inr (.inr rfl)
  · rw [hhashes] at hj
    simp at hj

theorem verifyInputs_subset :
    verifyInputs markedPlatform leafAccount.1 leafAccount.2 shortProof ⊆ oneLeafInputs := by
  rintro input (rfl | rfl | ⟨q, hq, -⟩)
  · exact .inl rfl
  · exact .inr (.inl rfl)
  · simp [shortProof, HeapTree.climbPairs] at hq

theorem injOn_oneLeafInputs : Set.InjOn markedPlatform.hash oneLeafInputs := by
  rintro x (rfl | rfl | rfl) y (rfl | rfl | rfl) hxy
  all_goals first | rfl | exact absurd hxy (by decide +kernel)

theorem hash_ne_zero (input : List UInt8) : markedPlatform.hash input ≠ Hash.zero := by
  intro hzero
  have hfirst := congrArg (fun h : Hash => h.asBytes.head?) hzero
  simp [markedPlatform, hashBytes, Hash.zero, repeated] at hfirst

theorem data_of_oneLeaf {a : Hash} {acc : Account}
    (h : (accountsAfter ∅ (.update [leafAccount])).lookup a = some acc) :
    acc.data.length < 2 ^ 32 := by
  obtain ⟨-, rfl⟩ := Prod.mk.inj (eq_leafAccount (q := (a, acc)) h)
  decide

end Sample

open Sample in
/-- The proof of the only account of a tree is accepted, and says that the tree has it. -/
theorem proof_of_one_account :
    ∃ t t₁, Trace.Steps (fun t a t' => t.call markedPlatform a = .ok t') new
        [.update [leafAccount]] t ∧
      t.root markedPlatform = .ok (stateTreeRoot markedPlatform oneLeaf, t₁) ∧
      (∃ proof t₂, t.proof markedPlatform leafAccount.1 = .ok (some proof, t₂) ∧
        verifyProof markedPlatform (stateTreeRoot markedPlatform oneLeaf) leafAccount.1
          leafAccount.2 proof = true) ∧
      (([.update [leafAccount]] : List TreeCall).foldl accountsAfter ∅).lookup leafAccount.1
        = some leafAccount.2 := by
  obtain ⟨t, hcall, hvalid, hleaves⟩ :=
    (valid_new (P := markedPlatform)).call (.update [leafAccount])
  obtain ⟨t₁, hroot, -, -⟩ := hvalid.root
  replace hleaves : t.leaves = oneLeaf := hleaves
  rw [hleaves] at hroot
  have hrun : Steps (fun t a t' => t.call markedPlatform a = .ok t') new
      [.update [leafAccount]] t := .cons hcall (.nil t)
  obtain ⟨hcomplete, hsound⟩ :=
    proofs_are_complete_and_sound markedPlatform (.inl ⟨rfl, rfl⟩) hrun hroot
  refine ⟨t, t₁, hrun, hroot, hcomplete leafAccount.1 leafAccount.2 rfl,
    hsound _ _ shortProof ?_ hash_ne_zero (fun _ _ => data_of_oneLeaf) (by decide)
      (by decide +kernel)⟩
  rw [hleaves]
  exact injOn_oneLeafInputs.mono (Set.union_subset treeInputs_subset verifyInputs_subset)

/-- **A root determines the accounts.**  Whatever calls were made on two trees, if their roots are
equal they have the same accounts, provided no inputs of the two trees collide, no hash is zero and
the data of every account fits its length. -/
theorem root_determines_accounts (P : Platform) {t₀ t t₁ u₀ u u₁ : StateTree} {root : Hash}
    {accounts accounts' : Finmap fun _ : Hash => Account} {calls calls' : List TreeCall}
    (hstart : Started P t₀ accounts) (hstart' : Started P u₀ accounts')
    (hrun : Trace.Steps (fun t a t' => t.call P a = .ok t') t₀ calls t)
    (hrun' : Trace.Steps (fun t a t' => t.call P a = .ok t') u₀ calls' u)
    (hcollision : Set.InjOn P.hash (treeInputs P t.leaves (calls.foldl accountsAfter accounts) ∪
      treeInputs P u.leaves (calls'.foldl accountsAfter accounts')))
    (hzero : ∀ input, P.hash input ≠ Hash.zero)
    (hdata : ∀ a acc, (calls.foldl accountsAfter accounts).lookup a = some acc →
      acc.data.length < 2 ^ 32)
    (hdata' : ∀ a acc, (calls'.foldl accountsAfter accounts').lookup a = some acc →
      acc.data.length < 2 ^ 32)
    (hroot : t.root P = .ok (root, t₁)) (hroot' : u.root P = .ok (root, u₁)) :
    calls.foldl accountsAfter accounts = calls'.foldl accountsAfter accounts' := by
  obtain ⟨hvalid, hleaves⟩ := valid_of_steps hstart.valid hrun
  obtain ⟨hvalid', hleaves'⟩ := valid_of_steps hstart'.valid hrun'
  have hleavesOf := hstart.leavesOf.foldl calls
  have hleavesOf' := hstart'.leavesOf.foldl calls'
  rw [← hleaves] at hleavesOf
  rw [← hleaves'] at hleavesOf'
  obtain ⟨t₂, ht, -, -⟩ := hvalid.root
  obtain ⟨u₂, hu, -, -⟩ := hvalid'.root
  obtain ⟨ht, -⟩ := Prod.mk.inj (Except.ok.inj (hroot.symm.trans ht))
  obtain ⟨hu, -⟩ := Prod.mk.inj (Except.ok.inj (hroot'.symm.trans hu))
  exact hleavesOf.eq_of_stateTreeRoot_eq hleavesOf' hcollision hzero hdata hdata' (ht.symm.trans hu)

open Sample in
/-- A tree that is given an account, and one that is given it after another was given and taken away,
have one root, and so the same accounts. -/
theorem root_after_detour :
    ∃ t u t₁ u₁, Trace.Steps (fun t a t' => t.call markedPlatform a = .ok t') new
        [.update [leafAccount]] t ∧
      Trace.Steps (fun t a t' => t.call markedPlatform a = .ok t') new
        [.update [(Hash.repeated 3, leafAccount.2)], .root, .remove (Hash.repeated 3),
          .update [leafAccount]] u ∧
      t.root markedPlatform = .ok (stateTreeRoot markedPlatform oneLeaf, t₁) ∧
      u.root markedPlatform = .ok (stateTreeRoot markedPlatform oneLeaf, u₁) ∧
      ([.update [leafAccount]] : List TreeCall).foldl accountsAfter ∅
        = ([.update [(Hash.repeated 3, leafAccount.2)], .root, .remove (Hash.repeated 3),
          .update [leafAccount]] : List TreeCall).foldl accountsAfter ∅ := by
  obtain ⟨t, hcall, hvalid, hleaves⟩ :=
    (valid_new (P := markedPlatform)).call (.update [leafAccount])
  obtain ⟨v₁, h₁, hvalid₁, hleaves₁⟩ :=
    (valid_new (P := markedPlatform)).call (.update [(repeated 3, leafAccount.2)])
  obtain ⟨v₂, h₂, hvalid₂, hleaves₂⟩ := hvalid₁.call .root
  obtain ⟨v₃, h₃, hvalid₃, hleaves₃⟩ := hvalid₂.call (.remove (repeated 3))
  obtain ⟨u, h₄, hvalid', hleaves₄⟩ := hvalid₃.call (.update [leafAccount])
  obtain ⟨t₁, hroot, -, -⟩ := hvalid.root
  obtain ⟨u₁, hroot', -, -⟩ := hvalid'.root
  have hleaves' : u.leaves = oneLeaf := by
    rw [hleaves₄, hleaves₃, hleaves₂, hleaves₁]
    decide +kernel
  have hsame : ([.update [(repeated 3, leafAccount.2)], .root, .remove (repeated 3),
      .update [leafAccount]] : List TreeCall).foldl accountsAfter ∅
        = accountsAfter ∅ (.update [leafAccount]) := by decide +kernel
  replace hleaves : t.leaves = oneLeaf := hleaves
  rw [hleaves] at hroot
  rw [hleaves'] at hroot'
  have hrun : Steps (fun t a t' => t.call markedPlatform a = .ok t') new
      [.update [leafAccount]] t := .cons hcall (.nil t)
  have hrun' : Steps (fun t a t' => t.call markedPlatform a = .ok t') new
      [.update [(repeated 3, leafAccount.2)], .root, .remove (repeated 3),
        .update [leafAccount]] u := .cons h₁ (.cons h₂ (.cons h₃ (.cons h₄ (.nil u))))
  refine ⟨t, u, t₁, u₁, hrun, hrun', hroot, hroot', root_determines_accounts markedPlatform
    (.inl ⟨rfl, rfl⟩) (.inl ⟨rfl, rfl⟩) hrun hrun' ?_ hash_ne_zero (fun _ _ => data_of_oneLeaf)
    (fun a acc h => data_of_oneLeaf (a := a) (hsame ▸ h)) hroot hroot'⟩
  rw [hleaves, hleaves', hsame]
  exact injOn_oneLeafInputs.mono (Set.union_subset treeInputs_subset treeInputs_subset)

end Nusantara

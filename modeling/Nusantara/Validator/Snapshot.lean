import Nusantara.Validator.Delegations

/-!
# Boot from a snapshot

At some epoch boundaries a node writes a snapshot of its accounts to a file (`create_snapshot` in
`validator/src/epoch.rs` and `storage/src/snapshot_archive.rs`).  A node with a new store restores
the latest file, and then applies genesis, as on any store without one.

Genesis writes its accounts as versions of slot 0 and points the index at them, over what was
restored.  And the manifest takes its bank hash from the slot hashes of the bank, which are hashes of
blocks.

The task that creates a snapshot runs beside the slot loop, so the store it reads is one of its own
here.  Left out are the file, which gives back what was written to it, the manifest in the store,
which nothing reads, and the marker of a restore that was interrupted.

## Main results

* `snapshot_round_trip`: what is restored is what was archived.
* `RunningNode.reproduces_iff`: when a node that boots from a snapshot has the accounts of the
  snapshot and the bank hash of its slot.
-/

namespace Nusantara

open Exec Storage Option Hash
open Storage (empty)

/-! ### Archives -/

/-- `SnapshotManifest`. -/
structure SnapshotManifest where
  slot : UInt64
  bankHash : Hash
  accountCount : UInt64
  timestamp : Int64
  deriving DecidableEq

/-- `SnapshotArchive`. -/
structure SnapshotArchive where
  manifest : SnapshotManifest
  accounts : List (Hash × Account)
  deriving DecidableEq

namespace Storage

/-- `snapshot_archive::create_snapshot`. -/
def createSnapshot (s : Storage) (slot : UInt64) (bankHash : Hash) (timestamp : Int64) :
    SnapshotArchive :=
  let accounts := s.accountIndex.keys.ascending.filterMap fun a =>
    (s.getAccount a).map fun account => (a, account)
  { manifest := ⟨slot, bankHash, UInt64.ofNat accounts.length, timestamp⟩, accounts }

/-- The accounts of an archive as versions of its slot. -/
def restoreBatch (s : Storage) (archive : SnapshotArchive) : WriteBatch :=
  archive.accounts.foldl (fun batch q =>
    batch ++ accountWrite q.1 archive.manifest.slot q.2 (s.getAccount q.1)) []

/-- `restore_snapshot`. -/
def restoreSnapshot (s : Storage) (archive : SnapshotArchive) : Storage :=
  ((s.write (s.restoreBatch archive)).setRoot archive.manifest.slot).putBankHash
    archive.manifest.slot archive.manifest.bankHash

end Storage

/-- The hash that a snapshot of the node takes for the bank hash. -/
def ValidatorNode.newestSlotHash (n : ValidatorNode) : Hash :=
  (n.stage.bank.slotHashes.head?.map Prod.snd).getD Hash.zero

/-- `ValidatorNode::create_snapshot`; the store is the one that the task finds. -/
def ValidatorNode.createSnapshot (n : ValidatorNode) (s : Storage) (timestamp : Int64) :
    SnapshotArchive :=
  s.createSnapshot n.currentSlot n.newestSlotHash timestamp

/-- Why a node does not start on a store without genesis. -/
inductive StartError where
  | genesis (e : GenesisError)
  | boot (e : BootError)
  deriving DecidableEq

/-- `ValidatorNode::boot` on a store without genesis: the latest snapshot is restored, if there is
one, and genesis is applied. -/
def start (P : Platform) (config : GenesisConfig) (c : BootConfig)
    (snapshot : Option SnapshotArchive) (s : Storage) : Except StartError RunningNode :=
  match config.build P (snapshot.elim s s.restoreSnapshot) with
  | .error e => .error (.genesis e)
  | .ok (g, s) => match boot P g c s with
    | .error e => .error (.boot e)
    | .ok v => .ok v

/-! ### The restored store -/

section Restored

variable {s : Storage} {archive : SnapshotArchive}

/-- The archived accounts lie over the store. -/
theorem overlays_restoreBatch (s : Storage) (archive : SnapshotArchive) :
    Overlays archive.manifest.slot (s.restoreBatch archive)
      (archive.accounts.foldl (fun m q => m.insert q.1 q.2) ∅) :=
  List.foldl_rel .nil fun _ _ _ _ h => h.accountWrite _ _ _

/-- A snapshot has every account that can be read, and each once. -/
theorem mem_createSnapshot {slot : UInt64} {bankHash : Hash} {timestamp : Int64}
    {q : Hash × Account} :
    q ∈ (s.createSnapshot slot bankHash timestamp).accounts ↔ s.getAccount q.1 = some q.2 :=
  mem_getAllAccounts

/-- A snapshot depends on the accounts that can be read and on nothing else of the store. -/
theorem createSnapshot_congr {s' : Storage} (h : ∀ a, s'.getAccount a = s.getAccount a)
    (slot : UInt64) (bankHash : Hash) (timestamp : Int64) :
    s'.createSnapshot slot bankHash timestamp = s.createSnapshot slot bankHash timestamp := by
  -- The accounts come in the order of their addresses.
  have hsorted : ∀ s : Storage, (s.createSnapshot slot bankHash timestamp).accounts.Pairwise
      fun q q' => q.1 < q'.1 := by
    intro s
    have hkeys := List.pairwise_reverse.mp (Finset.pairwise_reverse_ascending
      (s := s.accountIndex.keys))
    refine List.pairwise_filterMap.mpr (hkeys.imp fun hlt q hq q' hq' => ?_)
    obtain ⟨_, -, rfl⟩ := map_eq_some_iff.mp hq
    obtain ⟨_, -, rfl⟩ := map_eq_some_iff.mp hq'
    exact hlt
  have hnodup : ∀ s : Storage, (s.createSnapshot slot bankHash timestamp).accounts.Nodup :=
    fun s => (hsorted s).imp fun h heq => h.ne (congrArg Prod.fst heq)
  have hsame : (s'.createSnapshot slot bankHash timestamp).accounts
      = (s.createSnapshot slot bankHash timestamp).accounts := by
    refine List.Perm.eq_of_pairwise (fun _ _ _ _ h h' => absurd h' h.not_gt) (hsorted s')
      (hsorted s) ((List.perm_ext_iff_of_nodup (hnodup s') (hnodup s)).mpr fun q => ?_)
    rw [mem_createSnapshot, mem_createSnapshot, h]
  exact congrArg (fun l => (⟨⟨slot, bankHash, .ofNat l.length, timestamp⟩, l⟩ : SnapshotArchive))
    hsame

/-- The accounts after the restore of a snapshot are those of the store it was made of. -/
theorem getAccount_restoreSnapshot (s : Storage) (slot : UInt64) (bankHash : Hash)
    (timestamp : Int64) (a : Hash) :
    (empty.restoreSnapshot (s.createSnapshot slot bankHash timestamp)).getAccount a
      = s.getAccount a := by
  generalize harchive : s.createSnapshot slot bankHash timestamp = archive
  have hread : (empty.restoreSnapshot archive).getAccount a
      = (empty.write (empty.restoreBatch archive)).getAccount a := rfl
  have hlisted : ∀ q, q ∈ archive.accounts ↔ s.getAccount q.1 = some q.2 :=
    fun q => harchive ▸ mem_createSnapshot
  rw [hread, (overlays_restoreBatch _ _).getAccount,
    Finmap.lookup_foldl_insert s.getAccount Prod.snd hlisted]
  cases s.getAccount a <;> rfl

/-- A batch of accounts holds no hashes and no roots. -/
theorem write_roots (s : Storage) (batch : WriteBatch) :
    (s.write batch).roots = s.roots ∧ (s.write batch).bankHashes = s.bankHashes := by
  refine List.foldlRecOn batch apply (motive := fun s' : Storage =>
    s'.roots = s.roots ∧ s'.bankHashes = s.bankHashes) ⟨rfl, rfl⟩ ?_
  rintro s' hs' op -
  cases op <;> exact hs'

/-- **Snapshots round trip.**  A new store on which a snapshot is restored has the accounts of the
store it was made of; its latest root is the slot of the snapshot, with the bank hash of the
manifest; and a snapshot made of it is the one that was restored. -/
theorem snapshot_round_trip (s : Storage) (slot : UInt64) (bankHash : Hash) (timestamp : Int64) :
    let restored := empty.restoreSnapshot (s.createSnapshot slot bankHash timestamp)
    (∀ a, restored.getAccount a = s.getAccount a) ∧ restored.lastRoot = slot ∧
      restored.bankHashes.lookup slot = some bankHash ∧
      restored.createSnapshot slot bankHash timestamp
        = s.createSnapshot slot bankHash timestamp := by
  intro restored
  have hread := getAccount_restoreSnapshot s slot bankHash timestamp
  have hroots : restored.roots = {slot} := by
    change insert slot (Storage.write _ _).roots = _
    rw [(write_roots _ _).1]
    rfl
  refine ⟨hread, ?_, Finmap.lookup_insert _, createSnapshot_congr hread slot bankHash timestamp⟩
  rw [lastRoot, getLatestRoot, hroots]
  rfl

end Restored

/-! ### Genesis over a snapshot -/

section Genesis

variable {P : Platform} {config : GenesisConfig} {c : BootConfig} {t : GenesisTally} {v : RunningNode}
  {archive : SnapshotArchive}

/-- The account that genesis alone would store at an address. -/
def GenesisConfig.account? (P : Platform) (config : GenesisConfig) (a : Hash) : Option Account :=
  (config.build P empty).toOption.bind fun q => q.2.getAccount a

/-- A node that has started on a snapshot: its store is the restored one under genesis. -/
theorem start_eq_ok (h : start P config c (some archive) empty = .ok v) :
    ∃ t, config.build P empty = .ok (config.genesis P t, config.stored P t empty) ∧
      config.tally P = .ok t ∧ boot P (config.genesis P t) c
        (config.stored P t (empty.restoreSnapshot archive)) = .ok v := by
  unfold start at h
  split at h
  case h_1 => cases h
  case h_2 g s hbuild =>
    split at h
    case h_1 => cases h
    case h_2 v' hboot =>
      cases h
      unfold GenesisConfig.build at hbuild ⊢
      split_ifs at hbuild ⊢
      obtain ⟨t, ht, hbuild⟩ := exceptBind_eq_ok.mp hbuild
      split_ifs at hbuild with hsupply
      cases Except.ok.inj hbuild
      refine ⟨t, ?_, ht, hboot⟩
      exact exceptBind_eq_ok.mpr ⟨t, ht, if_neg hsupply⟩

/-- Genesis lays its own accounts over the store, whatever is in it. -/
theorem getAccount_stored (ht : config.tally P = .ok t) (s : Storage) (a : Hash) :
    (config.stored P t s).getAccount a
      = ((config.stored P t empty).getAccount a).or (s.getAccount a) := by
  obtain ⟨cache, hcache⟩ := GenesisConfig.overlaid_tally ht
  have hover := hcache.accountWrite (P.programId .loader) (GenesisConfig.loaderAccount P) none
  have hread : ∀ s : Storage, (config.stored P t s).getAccount a
      = ((cache.insert (P.programId .loader) (GenesisConfig.loaderAccount P)).lookup a).or
        (s.getAccount a) := fun s => hover.getAccount s a
  have hnone : empty.getAccount a = none := rfl
  rw [hread, hread, hnone, or_none]

theorem boot_parentBankHash {g : Genesis} {s : Storage} (h : boot P g c s = .ok v) :
    v.node.producer.parentBankHash
      = (s.bankHashes.lookup s.lastRoot).getD (GenesisConfig.genesisBankHash P g.hash) := by
  simp only [boot, exceptBind_eq_ok, orFault_eq_ok] at h
  obtain ⟨bank, -, b, -, epoch, -, slot, -, stage, -, h⟩ := h
  cases h
  rfl

/-- The latest root of the store is the slot of the snapshot, and the bank hash of that root is the
one of the manifest, unless genesis has written its own. -/
theorem bankHash_stored (P : Platform) (config : GenesisConfig) (t : GenesisTally)
    (archive : SnapshotArchive) :
    (config.stored P t (empty.restoreSnapshot archive)).lastRoot = archive.manifest.slot ∧
      (config.stored P t (empty.restoreSnapshot archive)).bankHashes.lookup
          archive.manifest.slot
        = some (if archive.manifest.slot = 0
            then GenesisConfig.genesisBankHash P (config.genesisHash P)
            else archive.manifest.bankHash) := by
  have hroots : (config.stored P t (empty.restoreSnapshot archive)).roots
      = insert 0 (insert archive.manifest.slot ∅) := by
    change insert 0 (Storage.write _ _).roots = _
    rw [(write_roots _ _).1]
    change insert 0 (insert _ (Storage.write _ _).roots) = _
    rw [(write_roots _ _).1]
    rfl
  have hhashes : (config.stored P t (empty.restoreSnapshot archive)).bankHashes
      = (Finmap.insert archive.manifest.slot archive.manifest.bankHash ∅).insert 0
        (GenesisConfig.genesisBankHash P (config.genesisHash P)) := by
    change Finmap.insert 0 _ (Storage.write _ _).bankHashes = _
    rw [(write_roots _ _).2]
    change Finmap.insert 0 _ (Finmap.insert _ _ (Storage.write _ _).bankHashes) = _
    rw [(write_roots _ _).2]
    rfl
  constructor
  · have hlast : (insert 0 (insert archive.manifest.slot ∅) : Finset UInt64).ascending.getLast?
        = some archive.manifest.slot :=
      Finset.getLast?_ascending (by simp) (by simp)
    rw [lastRoot, getLatestRoot, hroots, hlast, getD_some]
  · rw [hhashes]
    split_ifs with hslot
    · rw [hslot, Finmap.lookup_insert]
    · rw [Finmap.lookup_insert_of_ne _ hslot, Finmap.lookup_insert]

/-- The node that has started from a snapshot has every archived account, and its producer the bank
hash that the first node has stored for the slot of the snapshot. -/
structure RunningNode.Reproduces (v : RunningNode) (n : ValidatorNode) (archive : SnapshotArchive) :
    Prop where
  accounts : ∀ q ∈ archive.accounts, v.node.storage.getAccount q.1 = some q.2
  bankHash : n.storage.bankHashes.lookup archive.manifest.slot
    = some v.node.producer.parentBankHash

/-- **Boot from a snapshot.**  A node that starts on a new store with a snapshot of another node has
its accounts and its bank hash exactly if genesis stores no other account at an archived address, and
the bank hash of the slot is the newest hash among the slot hashes of the bank (or, if the snapshot is
of slot 0, the bank hash of genesis). -/
theorem RunningNode.reproduces_iff {n : ValidatorNode} {s : Storage} {timestamp : Int64}
    (h : start P config c (some (n.createSnapshot s timestamp)) Storage.empty = .ok v) :
    v.Reproduces n (n.createSnapshot s timestamp) ↔
      (∀ a account, s.getAccount a = some account →
        ∀ account', config.account? P a = some account' → account' = account) ∧
      n.storage.bankHashes.lookup n.currentSlot
        = some (if n.currentSlot = 0 then GenesisConfig.genesisBankHash P (config.genesisHash P)
          else n.newestSlotHash) := by
  obtain ⟨t, hbuild, ht, hboot⟩ := start_eq_ok h
  obtain ⟨hroot, hhash⟩ := bankHash_stored P config t (n.createSnapshot s timestamp)
  have hbankHash : v.node.producer.parentBankHash = if n.currentSlot = 0
      then GenesisConfig.genesisBankHash P (config.genesisHash P) else n.newestSlotHash := by
    rw [boot_parentBankHash hboot, hroot, hhash, getD_some]
    rfl
  have hread : ∀ a, v.node.storage.getAccount a
      = (config.account? P a).or (s.getAccount a) := by
    intro a
    rw [(boot_eq_ok hboot).storage, getAccount_stored ht, ValidatorNode.createSnapshot,
      getAccount_restoreSnapshot, GenesisConfig.account?, hbuild]
    rfl
  have hone : ∀ a account, s.getAccount a = some account →
      (v.node.storage.getAccount a = some account ↔
        ∀ account', config.account? P a = some account' → account' = account) := by
    intro a account hget
    rw [hread, hget]
    cases config.account? P a with
    | none => simp
    | some account' => simp
  constructor
  · intro hrep
    refine ⟨fun a account hget => (hone a account hget).mp ?_, hbankHash ▸ hrep.bankHash⟩
    exact hrep.accounts (a, account) (mem_createSnapshot.mpr hget)
  · rintro ⟨haccounts, hslot⟩
    refine ⟨fun q hq => ?_, hbankHash.symm ▸ hslot⟩
    have hget := mem_createSnapshot.mp hq
    exact (hone q.1 q.2 hget).mpr (haccounts q.1 q.2 hget)

end Genesis

open Sample ValidatorNode in
/-- A validator produces slot 1 with its own vote, crosses the epoch boundary and makes a snapshot.
The node that boots from it has the account of the validator as genesis made it, without the fee that
was paid, and for the bank hash of slot 1 the hash of the block. -/
theorem snapshot_is_overwritten_by_genesis :
    ∃ g s v₀ n v w, genesisConfig.build tailPlatform Storage.empty = .ok (g, s) ∧
      boot tailPlatform g (bootConfig 0) s = .ok v₀ ∧
      NodeStep tailPlatform config v₀.node (.produce inOrder 0 [validatorVote g]) n ∧
      { v₀ with node := n : RunningNode }.checkEpochBoundary tailPlatform config g.hash oneByOne
        keyOrders = .ok (some v) ∧
      start tailPlatform genesisConfig (bootConfig 2)
        (some (v.node.createSnapshot v.node.storage 0)) Storage.empty = .ok w ∧
      (∃ q ∈ (v.node.createSnapshot v.node.storage 0).accounts,
        w.node.storage.getAccount q.1 ≠ some q.2) ∧
      ∃ hash, v.node.storage.bankHashes.lookup v.node.currentSlot = some hash ∧
        w.node.producer.parentBankHash ≠ hash := by
  obtain ⟨⟨g, s⟩, hg, v₀, hv₀, n, hn, v, -, hcross, w, hw, haccounts, hhash⟩ :
      OnBoot genesisConfig fun q v₀ =>
      ∃ n, v₀.node.next tailPlatform config (.produce inOrder 0 [validatorVote q.1]) = some n ∧
      ∃ v, crossed q.1 { v₀ with node := n } = some v ∧ crosses q.1 { v₀ with node := n } v ∧
      ∃ w, start tailPlatform genesisConfig (bootConfig 2)
        (some (v.node.createSnapshot v.node.storage 0)) empty = .ok w ∧
      (∃ q ∈ (v.node.createSnapshot v.node.storage 0).accounts,
        w.node.storage.getAccount q.1 ≠ some q.2) ∧
      ∃ hash, v.node.storage.bankHashes.lookup v.node.currentSlot = some hash ∧
      w.node.producer.parentBankHash ≠ hash := by decide +kernel
  exact ⟨g, s, v₀, n, v, w, hg, hv₀, nodeStep_of_next hn, (crosses_eq_true hcross).2, hw,
    haccounts, hhash⟩

namespace Sample

/-- A node in slot 1 with one account, which is none of genesis, and a bank hash that is the newest
slot hash. -/
def quiet : ValidatorNode :=
  let storage := (empty.putAccount (repeated 6) 1
    (Account.new 7 (repeated 1))).putBankHash 1 (repeated 9)
  { node wallets.stage with
    stage := { wallets.stage with
      bank := { wallets.stage.bank with storage, slotHashes := [(1, repeated 9)] } } }

end Sample

open Sample in
/-- The snapshot of that node is reproduced. -/
theorem quiet_snapshot_is_reproduced :
    ∃ w, start tailPlatform genesisConfig (bootConfig 2)
        (some (quiet.createSnapshot quiet.storage 0)) Storage.empty = .ok w ∧
      (quiet.createSnapshot quiet.storage 0).accounts ≠ [] ∧
        w.Reproduces quiet (quiet.createSnapshot quiet.storage 0) := by
  obtain ⟨w, hw, -⟩ :
      ∃ x, start tailPlatform genesisConfig (bootConfig 2) (some (quiet.createSnapshot quiet.storage
          0)) empty = .ok x ∧
      true := by decide +kernel
  have hall : ((quiet.createSnapshot quiet.storage 0).accounts.all fun q =>
    (genesisConfig.account? tailPlatform q.1).all fun account => decide (account = q.2)) = true := by
    decide +kernel
  refine ⟨w, hw, by decide +kernel, (RunningNode.reproduces_iff hw).mpr ⟨?_, by decide +kernel⟩⟩
  intro a account hget account' hgenesis
  have hq := List.all_eq_true.mp hall (a, account) (mem_createSnapshot.mpr hget)
  rw [hgenesis] at hq
  exact of_decide_eq_true hq

end Nusantara

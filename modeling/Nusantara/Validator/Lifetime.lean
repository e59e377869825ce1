import Nusantara.Validator.Boot

/-!
# From boot to shutdown

Runs of a node with its bank's book of stakes: the steps of the slot loop, batches of gossip votes
with the look for double votes (`process_gossip_votes` in `validator/src/voting.rs`), and epoch
boundaries.  A restart is a boot on the store that is left, so a run starts with a boot on any store.

Boot never sets the supply of a new bank.  Without a supply there is no inflation, without inflation
nothing is paid, and what rent burns is taken from zero.  So the supply stays zero, and with it the
delegations are what boot made of genesis, in every run.

## Main results

* `RunningNode.settled_of_steps`: in every run from a boot, delegations, vote accounts and supply of
  the bank stay as they are.
* `RunningNode.supplyMatches_iff`: the supply of the bank is the sum of all lamports exactly if there
  are none.
-/

namespace Nusantara

open Exec Storage Word List UInt64

/-! ### Gossip -/

/-- A vote that came by gossip. -/
structure GossipVote where
  voter : Hash
  slot : UInt64
  hash : Hash
  deriving DecidableEq

/-- `SLASH_PURGE_INTERVAL`. -/
def slashPurgeInterval : UInt64 := 100

/-- `SLASH_PURGE_DEPTH`. -/
def slashPurgeDepth : UInt64 := 1000

/-- The event is a vote that no one looks at for a double vote; gossip comes in batches here. -/
def NodeEvent.isGossip : NodeEvent → Bool
  | .gossip .. => true
  | _ => false

namespace RunningNode

/-- The look for a double vote: a validator with stake is slashed.  The proof that is put on record is
left out. -/
def lookForDoubleVote (v : RunningNode) (vote : GossipVote) : RunningNode :=
  let checked := v.detector.checkVote vote.voter vote.slot vote.hash
  let penalty := slashPenalty (v.node.stage.bank.getValidatorStake vote.voter)
  { v with
    detector := checked.2
    book := if checked.1 ∧ 0 < penalty then v.book.applySlash vote.voter penalty else v.book }

/-- The loop of `process_gossip_votes`, at one vote. -/
def processGossipVote (v : RunningNode) (vote : GossipVote) : Except Fault RunningNode := do
  let v := v.lookForDoubleVote vote
  let node ← v.node.gossipVote vote.voter vote.slot vote.hash
  return { v with node }

/-- The detector forgets old slots from time to time. -/
def purgeDetector (v : RunningNode) : RunningNode :=
  if v.node.currentSlot % slashPurgeInterval = 0 then
    { v with detector := v.detector.purgeBelow (saturatingSub v.node.currentSlot slashPurgeDepth) }
  else v

/-- `process_gossip_votes`. -/
def processGossipVotes (votes : List GossipVote) (v : RunningNode) : Except Fault RunningNode := do
  let v ← votes.foldlM processGossipVote v
  return v.purgeDetector

end RunningNode

/-! ### Runs -/

/-- What happens to a node between boot and shutdown. -/
inductive LifeEvent where
  /-- A step of the slot loop, other than gossip. -/
  | loop (e : NodeEvent)
  /-- The votes that came since the last look are processed. -/
  | gossip (votes : List GossipVote)
  /-- The epoch boundary is checked, with the turns of the tasks if there is one. -/
  | epoch (turns : List Worker) (o : RunningNode.HashOrders)

namespace RunningNode

variable (P : Platform) (config : ValidatorConfig) (genesisHash : Hash)

/-- A step of a node. -/
def LifeStep (v : RunningNode) (e : LifeEvent) (v' : RunningNode) : Prop :=
  match e with
  | .loop e => e.isGossip = false ∧
      ∃ node, ValidatorNode.NodeStep P config v.node e node ∧ v' = { v with node }
  | .gossip votes => v.processGossipVotes votes = .ok v'
  | .epoch turns o => v.checkEpochBoundary P config genesisHash turns o = .ok (some v')

end RunningNode

/-! ### What never changes -/

namespace StakeBook

variable {b b' : StakeBook}

/-- The book `b'` has the delegations and validators of `b`, and no supply. -/
structure Settled (b b' : StakeBook) : Prop extends SameDelegations b b' where
  supply : b'.totalSupply = 0

theorem Settled.refl (h : b.totalSupply = 0) : Settled b b := ⟨⟨rfl, fun _ => rfl⟩, h⟩

theorem Settled.trans {b'' : StakeBook} (h : Settled b b') (h' : Settled b' b'') : Settled b b'' :=
  ⟨h.toSameDelegations.trans h'.toSameDelegations, h'.supply⟩

/-- No delegation ends. -/
def Endless (b : StakeBook) : Prop :=
  b.stakeDelegations.ForAll fun _ d => d.deactivationEpoch = ofNat (2 ^ 64 - 1)

theorem Settled.burnFees (h : Settled b b') (amount : UInt64) : Settled b (b'.burnFees amount) := by
  refine ⟨⟨h.delegations, h.identities⟩, ?_⟩
  rw [StakeBook.burnFees, h.supply, ← UInt64.toNat_inj, toNat_saturatingSub, UInt64.toNat_zero,
    Nat.zero_sub]

theorem Settled.applySlash (h : Settled b b') (validator : Hash) (amount : UInt64) :
    Settled b (b'.applySlash validator amount) :=
  ⟨⟨h.delegations, h.identities⟩, h.supply⟩

/-- Nothing was paid, so nothing changes. -/
theorem Settled.settle (h : Settled b b') : Settled b (b'.settle 0 {}) :=
  ⟨⟨h.delegations, h.identities⟩, rfl⟩

theorem removeCooled_eq (h : Endless b) (epoch : UInt64) : b.removeCooled epoch = b := by
  have hretain : (b.stakeDelegations.retain fun _ d => !cooledDown epoch d.toDelegation)
      = b.stakeDelegations := by
    refine Finmap.ext_lookup fun a => ?_
    rw [Finmap.lookup_retain]
    cases hd : b.stakeDelegations.lookup a with
    | none => rfl
    | some d =>
      have hwarm : cooledDown epoch d.toDelegation = false := by
        simp [cooledDown, h a d hd]
      rw [Option.filter_some, hwarm]
      rfl
  rw [removeCooled, hretain]

theorem Settled.endless (h : Settled b b') (hb : Endless b) : Endless b' := by
  rw [Endless, h.delegations]
  exact hb

/-- What never ends does not cool down. -/
theorem Settled.removeCooled (h : Settled b b') (hb : Endless b) (epoch : UInt64) :
    Settled b (b'.removeCooled epoch) := by
  rw [removeCooled_eq (h.endless hb)]
  exact h

end StakeBook

/-- Without a supply there is nothing to pay. -/
theorem BoundaryParams.payments_of_supply {P : Platform} {p : BoundaryParams} {b : StakeBook}
    {payments : List Payment} (hb : b.totalSupply = 0) (h : p.payments P b = some payments) :
    payments = [] := by
  unfold BoundaryParams.payments at h
  rw [hb, epochInflationRewards_zero] at h
  dsimp only at h
  split at h
  · cases h
  · rename_i rewards hrewards
    cases h
    have hnone : (∅ : Finmap fun _ : ℕ => List RewardEntry).listed p.partitionOrder = [] :=
      eq_nil_iff_forall_not_mem.mpr fun q hq =>
        Option.some_ne_none q.2 (Finmap.mem_listed.mp hq).symm
    rw [EpochRewards.payments, calculateEpochRewards_zero hrewards, entriesOf, hnone]
    rfl

namespace Boundary

variable {P : Platform} {p : BoundaryParams} {b : StakeBook} {d : Boundary}

/-- The bank is settled, with the penalties it had, and the reward task has paid nothing. -/
structure Quiet (b : StakeBook) (d : Boundary) : Prop where
  book : b.Settled d.book
  penalties : d.book.slashRegistry = b.slashRegistry
  paying : ∀ supply todo o, d.reward = .paying supply todo o → supply = 0 ∧ todo = [] ∧ o = {}
  settling : ∀ supply o, d.reward = .settling supply o → supply = 0 ∧ o = {}

/-- A reward task that has not started, or is done, holds nothing back. -/
theorem Quiet.of_idle (h : b.Settled d.book) (hpenalties : d.book.slashRegistry = b.slashRegistry)
    (hidle : d.reward = .start ∨ ∃ deltas, d.reward = .done deltas) : Quiet b d := by
  obtain hidle | ⟨deltas, hidle⟩ := hidle
  all_goals exact ⟨h, hpenalties, fun _ _ _ hr => (by cases hidle.symm.trans hr),
    fun _ _ hr => (by cases hidle.symm.trans hr)⟩

theorem Quiet.stepRent (h : Quiet b d) : Quiet b (d.stepRent P p) := by
  unfold Boundary.stepRent
  split
  · exact ⟨h.book, h.penalties, h.paying, h.settling⟩
  · exact ⟨h.book, h.penalties, h.paying, h.settling⟩
  · split
    · exact ⟨h.book, h.penalties, h.paying, h.settling⟩
    · split_ifs <;> exact ⟨h.book, h.penalties, h.paying, h.settling⟩
  · exact ⟨h.book.burnFees _, h.penalties, h.paying, h.settling⟩
  · exact h

theorem Quiet.stepReward (h : Quiet b d) : Quiet b (d.stepReward P p) := by
  unfold Boundary.stepReward
  split
  · split
    · exact .of_idle h.book h.penalties (.inr ⟨_, rfl⟩)
    · rename_i payments hpayments
      refine ⟨h.book, h.penalties, fun _ _ _ hr => ?_, fun _ _ hr => by cases hr⟩
      cases hr
      exact ⟨h.book.supply, BoundaryParams.payments_of_supply h.book.supply hpayments, rfl⟩
  · rename_i supply q todo o hreward
    -- There is no payment to make.
    exact absurd (h.paying _ _ _ hreward).2.1 (cons_ne_nil _ _)
  · rename_i supply o hreward
    obtain ⟨hsupply, -, ho⟩ := h.paying _ _ _ hreward
    refine ⟨h.book, h.penalties, fun _ _ _ hr => (by cases hr), fun _ _ hr => ?_⟩
    cases hr
    exact ⟨hsupply, ho⟩
  · rename_i supply o hreward
    obtain ⟨rfl, rfl⟩ := h.settling _ _ hreward
    exact .of_idle h.book.settle h.penalties (.inr ⟨_, rfl⟩)
  · exact h

/-- Whatever turns the tasks take, the bank stays settled, and its penalties are what they were. -/
theorem settled_run (turns : List Worker) (s : Storage) (hb : b.totalSupply = 0) :
    b.Settled (run P p turns s b).book ∧ (run P p turns s b).book.slashRegistry = b.slashRegistry := by
  have hstart : Quiet b ⟨s, b, .start, .start⟩ := .of_idle (.refl hb) rfl (.inl rfl)
  have hstep : ∀ (d : Boundary) (w : Worker) (d' : Boundary),
      Quiet b d → True → step P p d w = d' → Quiet b d' := by
    rintro d w _ hd - rfl
    cases w with
    | rent => exact hd.stepRent
    | reward => exact hd.stepReward
  have hquiet := (Trace.Steps.foldl (step P p) turns _).invariant hstep hstart fun _ _ => trivial
  exact ⟨hquiet.book, hquiet.penalties⟩

end Boundary

namespace RunningNode

variable {P : Platform} {config : ValidatorConfig} {genesisHash : Hash} {b : StakeBook}
  {v v' : RunningNode}

/-- The current slot is the last one before the given epoch. -/
def AtBoundary (P : Platform) (v : RunningNode) (epoch : UInt64) : Prop :=
  ∃ current next, v.node.stage.bank.epochSchedule.getEpoch P v.node.currentSlot = .ok current ∧
    P.wrapAdd 64 v.node.currentSlot.toNat 1 = .ok next ∧
      v.node.stage.bank.epochSchedule.getEpoch P (ofNat next) = .ok epoch ∧ current < epoch

variable {turns : List Worker} {o : HashOrders}

/-- What a boundary writes: accounts, as versions of the current slot. -/
theorem checkEpochBoundary_overlays
    (h : v.checkEpochBoundary P config genesisHash turns o = .ok (some v')) :
    v'.detector = v.detector ∧ v'.node.stage.forkTree = v.node.stage.forkTree ∧ ∃ batch c,
      v'.node.storage = v.node.storage.write batch ∧ Overlays v.node.currentSlot batch c := by
  simp only [checkEpochBoundary, exceptBind_eq_ok] at h
  obtain ⟨current, -, next, -, nextEpoch, -, h⟩ := h
  split_ifs at h
  · split at h
    · cases h
    · obtain ⟨stage, hstage, h⟩ := exceptBind_eq_ok.mp h
      cases Except.ok.inj h
      obtain ⟨cache, rfl⟩ := scheduleLeaders_eq_ok hstage
      exact ⟨rfl, rfl, Boundary.overlays_run P (v.boundaryParams config o current) turns
        v.node.storage v.book⟩
  · cases Except.ok.inj h
    exact ⟨rfl, rfl, [], ∅, rfl, .nil⟩

/-- What a boundary does to a settled bank: the stakes of the epoch are computed from the book. -/
theorem checkEpochBoundary_eq_some (hend : v.book.Endless) (hsupply : v.book.totalSupply = 0)
    (h : v.checkEpochBoundary P config genesisHash turns o = .ok (some v')) :
    v.book.Settled v'.book ∧ v'.book.slashRegistry = v.book.slashRegistry ∧
      v'.node.stage.bank.epochSchedule = v.node.stage.bank.epochSchedule ∧
      ∀ epoch, v.AtBoundary P epoch →
        v'.node.stage.bank.epochStakes = (v.book.recalculated epoch).stakes ∧
          v'.book.totalActiveStake = (v.book.recalculated epoch).total := by
  simp only [checkEpochBoundary, exceptBind_eq_ok] at h
  obtain ⟨current, hcurrent, next, hnext, nextEpoch, hnextEpoch, h⟩ := h
  split_ifs at h with hlt
  · split at h
    · cases h
    · obtain ⟨stage, hstage, h⟩ := exceptBind_eq_ok.mp h
      cases Except.ok.inj h
      obtain ⟨cache, rfl⟩ := scheduleLeaders_eq_ok hstage
      obtain ⟨hsettled, hpenalties⟩ := Boundary.settled_run (P := P)
        (p := v.boundaryParams config o current) turns v.node.storage hsupply
      have hcooled := hsettled.removeCooled hend nextEpoch
      refine ⟨⟨⟨hcooled.delegations, hcooled.identities⟩, hcooled.supply⟩, hpenalties, rfl, ?_⟩
      rintro epoch ⟨current', next', hcurrent', hnext', hepoch, -⟩
      cases hnext.symm.trans hnext'
      cases hnextEpoch.symm.trans hepoch
      have hsame := hcooled.recalculated_eq hpenalties nextEpoch
      exact ⟨congrArg StakeBook.EpochStakes.stakes hsame, congrArg StakeBook.EpochStakes.total hsame⟩
  · cases Except.ok.inj h
    refine ⟨.refl hsupply, rfl, rfl, ?_⟩
    rintro epoch ⟨current', next', hcurrent', hnext', hepoch, hlt'⟩
    cases hcurrent.symm.trans hcurrent'
    cases hnext.symm.trans hnext'
    cases hnextEpoch.symm.trans hepoch
    exact absurd hlt' hlt

theorem settled_processGossipVote {q : GossipVote} (h : b.Settled v.book)
    (hrun : v.processGossipVote q = .ok v') : b.Settled v'.book := by
  obtain ⟨node, -, hrun⟩ := exceptBind_eq_ok.mp hrun
  cases hrun
  dsimp only [lookForDoubleVote]
  split_ifs
  · exact h.applySlash _ _
  · exact h

theorem settled_processGossipVotes {votes : List GossipVote} (h : b.Settled v.book)
    (hrun : v.processGossipVotes votes = .ok v') : b.Settled v'.book := by
  obtain ⟨w, hw, hrun⟩ := exceptBind_eq_ok.mp hrun
  cases hrun
  have hbook : b.Settled w.book := foldlM_keeps (I := fun v : RunningNode => b.Settled v.book)
    (fun _ _ _ _ hv hstep => settled_processGossipVote hv hstep) h hw
  unfold purgeDetector
  split_ifs <;> exact hbook

/-- **What never changes**: a run keeps the delegations, the vote accounts and the supply of a bank
without supply whose delegations do not end. -/
theorem settled_of_steps {events : List LifeEvent} (hb : b.Endless) (h : b.Settled v.book)
    (hrun : Trace.Steps (LifeStep P config genesisHash) v events v') : b.Settled v'.book := by
  refine hrun.invariant (I := fun v => b.Settled v.book) (G := fun _ => True)
    (fun v e v' hv _ hstep => ?_) h fun _ _ => trivial
  cases e with
  | loop e =>
    obtain ⟨-, node, -, rfl⟩ := hstep
    exact hv
  | gossip votes => exact settled_processGossipVotes hv hstep
  | epoch turns o =>
    exact hv.trans (checkEpochBoundary_eq_some (hv.endless hb) hv.supply hstep).1

end RunningNode

/-! ### The supply -/

section Supply

variable {P : Platform} {config : ValidatorConfig} {g : Genesis} {c : BootConfig} {s : Storage}
  {v₀ v : RunningNode}

theorem Registered.endless {b : StakeBook} (h : Registered g s b) : b.Endless := by
  intro a d hd
  rw [h.delegations] at hd
  obtain ⟨u, -, rfl⟩ := Option.map_eq_some_iff.mp hd
  rfl

/-- The lamports of all accounts that the store returns. -/
def Storage.totalLamports (s : Storage) : ℕ :=
  (s.getAllAccounts.map fun q => q.2.lamports.toNat).sum

theorem Storage.totalLamports_eq_zero :
    s.totalLamports = 0 ↔ ∀ a account, s.getAccount a = some account → account.lamports = 0 := by
  rw [totalLamports, sum_eq_zero_iff]
  constructor
  · intro h a account hread
    have hmem : (a, account) ∈ s.getAllAccounts := mem_getAllAccounts.mpr hread
    exact UInt64.toNat_inj.mp (h _ (mem_map.mpr ⟨_, hmem, rfl⟩))
  · intro h n hn
    obtain ⟨⟨a, account⟩, hmem, rfl⟩ := mem_map.mp hn
    exact congrArg UInt64.toNat (h a account (mem_getAllAccounts.mp hmem))

namespace RunningNode

/-- The supply that the bank counts is that of the accounts. -/
def SupplyMatches (v : RunningNode) : Prop :=
  v.book.totalSupply.toNat = v.node.storage.totalLamports

/-- **Supply accounting.**  In every state that a node reaches after a boot, on whatever store, the
supply of the bank is that of the accounts exactly if no account holds anything. -/
theorem supplyMatches_iff {events : List LifeEvent} (hboot : boot P g c s = .ok v₀)
    (hrun : Trace.Steps (LifeStep P config g.hash) v₀ events v) :
    v.SupplyMatches ↔
      ∀ a account, v.node.storage.getAccount a = some account → account.lamports = 0 := by
  have hbook := (boot_eq_ok hboot).registered
  have hsettled := settled_of_steps hbook.endless (.refl hbook.supply) hrun
  rw [SupplyMatches, hsettled.supply, UInt64.toNat_zero, eq_comm]
  exact Storage.totalLamports_eq_zero

/-- **After genesis** the supply never matches: the account of the loader holds a lamport. -/
theorem not_supplyMatches_after_genesis {genesisConfig : GenesisConfig} {s₀ : Storage}
    (hg : genesisConfig.build P s₀ = .ok (g, s)) (hboot : boot P g c s = .ok v) :
    ¬ v.SupplyMatches := by
  have hv := boot_eq_ok hboot
  have hread := GenesisConfig.getAccount_loader hg
  rw [← hv.storage] at hread
  rw [SupplyMatches, hv.registered.supply, UInt64.toNat_zero, eq_comm, Storage.totalLamports_eq_zero]
  intro h
  exact absurd (h _ _ hread) (show (1 : UInt64) ≠ 0 by decide)

end RunningNode

end Supply

open Sample in
/-- A node that has just booted on the store of genesis counts no supply. -/
theorem supply_is_not_counted_at_boot :
    ∃ g s v, genesisConfig.build tailPlatform Storage.empty = .ok (g, s) ∧
      boot tailPlatform g (bootConfig 0) s = .ok v ∧ v.book.totalSupply = 0 ∧
        ¬ v.SupplyMatches := by
  obtain ⟨⟨g, s⟩, hg, v, hv, -⟩ :
      OnBoot genesisConfig fun _ _ => true := by decide +kernel
  exact ⟨g, s, v, hg, hv, (boot_eq_ok hv).registered.supply,
    RunningNode.not_supplyMatches_after_genesis hg hv⟩

open Sample in
/-- A node without accounts counts its supply right. -/
theorem supply_of_nothing :
    ∃ v, boot tailPlatform ⟨Hash.zero, [], 0, EpochSchedule.new 2⟩ (bootConfig 0) Storage.empty
      = .ok v ∧ v.SupplyMatches := by
  obtain ⟨v, hv, -⟩ :
      ∃ x, boot tailPlatform ⟨Hash.zero, [], 0, EpochSchedule.new 2⟩ (bootConfig 0) Storage.empty =
          .ok x ∧
      true := by decide +kernel
  have hnil : Trace.Steps (RunningNode.LifeStep tailPlatform config Hash.zero) v [] v := .nil v
  refine ⟨v, hv, (RunningNode.supplyMatches_iff hv hnil).mpr ?_⟩
  rw [(boot_eq_ok hv).storage]
  intro a account hread
  exact absurd hread (by simp [Storage.getAccount, Storage.empty])

end Nusantara

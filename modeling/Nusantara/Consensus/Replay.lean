import Nusantara.Consensus.Bank
import Nusantara.Consensus.Commitment
import Nusantara.Consensus.Tower
import Nusantara.Runtime.Parallel

/-!
# Replay of a block

`ReplayStage::replay_block` (`consensus/src/{replay_stage,replay_block,replay_vote_processing}.rs`):
the leader and the proof of history are checked, the slot joins the fork tree, and every vote in
the transactions of the block is counted.

The votes are read from the instructions: the voter is the key at the second account of a vote
instruction.  Whether that key signs the transaction, and whether the transaction succeeded when
the block was executed, is asked nowhere.

## Main results

* `replayBlock_eq_err`: the blocks the stage refuses.
* `credits_iff`: the votes that are counted, from the stage before them.
* `votesAuthentic_iff`: the blocks in which every counted vote is authorised by its voter.
-/

namespace Nusantara

open Exec CommitmentTracker Hash
open Hash (zero)

/-! ### Leader schedules -/

/-- `LeaderSchedule`. -/
structure LeaderSchedule where
  epoch : UInt64
  slotLeaders : List Hash
  deriving DecidableEq

/-- `LeaderSchedule::get_leader`. -/
def LeaderSchedule.getLeader (P : Platform) (l : LeaderSchedule) (slot : UInt64)
    (epochSchedule : EpochSchedule) : Except Fault (Option Hash) := do
  let first ← epochSchedule.getFirstSlotInEpoch P l.epoch
  return if slot < first then none else l.slotLeaders[(slot - first).toNat]?

/-! ### Proof of history -/

/-- `PohEntry`. -/
structure PohEntry where
  numHashes : UInt64
  hash : Hash
  deriving DecidableEq

/-- The loop of `verify_poh_entries`, from the entry number `i` on. -/
def verifyPohFrom (P : Platform) :
    ℕ → Hash → UInt64 → List PohEntry → Except ConsensusError Unit
  | _, _, _, [] => .ok ()
  | i, current, prevNum, entry :: rest =>
    if entry.numHashes ≤ prevNum then .error (.pohVerificationFailed i)
    else
      let current := (fun h => P.hash h.asBytes)^[(entry.numHashes - prevNum).toNat] current
      if current ≠ entry.hash then .error (.pohVerificationFailed i)
      else verifyPohFrom P (i + 1) current entry.numHashes rest

/-- `verify_poh_entries`. -/
def verifyPohEntries (P : Platform) (initialHash : Hash) (entries : List PohEntry) :
    Except ConsensusError Unit :=
  verifyPohFrom P 0 initialHash 0 entries

/-- The windows of two consecutive entries, as they are sent to the shader. -/
def gpuWindows : List PohEntry → Except ConsensusError (List (Hash × UInt64 × Hash))
  | a :: b :: rest => do
    let delta ← match Word.checkedSub b.numHashes a.numHashes with
      | some delta => .ok delta
      | none => .error (.pohVerificationFailed 0)
    let windows ← gpuWindows (b :: rest)
    return (a.hash, delta, b.hash) :: windows
  | _ => .ok []

/-- Whether the entries are a chain that starts at `parentPoh`; `gpuVerifier` says whether the
node has a GPU to ask. -/
def pohValid (P : Platform) (gpuVerifier : Bool) (parentPoh : Hash)
    (entries : List PohEntry) : Except ConsensusError Bool :=
  match gpuVerifier, entries with
  | true, first :: _ => do
    let windows ← gpuWindows entries
    let windows := (parentPoh, first.numHashes, first.hash) :: windows
    if windows.any fun w => 2 ^ 32 ≤ w.2.1.toNat then
      return (verifyPohEntries P parentPoh entries).isOk
    else match P.gpuVerifyBatch windows with
      | .ok results => return results.all id
      | .error _ => return (verifyPohEntries P parentPoh entries).isOk
  | _, _ => .ok (verifyPohEntries P parentPoh entries).isOk

/-- The check of the entries; a block that comes without entries is not checked. -/
def checkPoh (P : Platform) (gpuVerifier : Bool) (parentPoh : Hash)
    (entries : List PohEntry) : Except ConsensusError Unit :=
  if entries = [] then .ok ()
  else do
    let valid ← pohValid P gpuVerifier parentPoh entries
    if valid then .ok () else .error (.pohVerificationFailed 0)

/-! ### The stage -/

/-- `ReplayStage`. -/
structure ReplayStage where
  authorizedVoter : Hash
  bank : ConsensusBank
  tower : Tower
  forkTree : ForkTree
  commitmentTracker : CommitmentTracker
  leaderScheduleCache : Finmap fun _ : UInt64 => LeaderSchedule
  gpuVerifier : Bool
  currentTip : UInt64
  /-- The gossip votes for slots that are not in the tree yet: voter, block hash and stake. -/
  pendingVotes : Finmap fun _ : UInt64 => List (Hash × Hash × UInt64)
  deriving DecidableEq

/-- `ReplayResult`. -/
structure ReplayResult where
  slot : UInt64
  blockHash : Hash
  bankHash : Hash
  parentSlot : UInt64
  transactionCount : UInt64
  voteCount : ℕ
  newRoot : Option UInt64
  deriving DecidableEq

namespace ReplayStage

variable (P : Platform)

/-- One pending gossip vote for the slot. -/
def applyPendingVote (slot : UInt64) (s : ReplayStage) (v : Hash × Hash × UInt64) :
    Except Fault ReplayStage := do
  let (_, forkTree) ← s.forkTree.addVote slot v.1 v.2.2
  let (_, commitmentTracker) := s.commitmentTracker.recordVote slot v.2.1 v.1 v.2.2
  return { s with forkTree, commitmentTracker }

/-- `ReplayStage::drain_pending_votes`. -/
def drainPendingVotes (slot : UInt64) (s : ReplayStage) : Except Fault ReplayStage :=
  match s.pendingVotes.lookup slot with
  | none => .ok s
  | some votes =>
    votes.foldlM (applyPendingVote slot) { s with pendingVotes := s.pendingVotes.erase slot }

/-- The leader the cached schedule names for a slot. -/
def expectedLeader (s : ReplayStage) (epoch slot : UInt64) : Except Fault (Option Hash) :=
  match s.leaderScheduleCache.lookup epoch with
  | none => .ok none
  | some schedule => schedule.getLeader P slot s.bank.epochSchedule

/-- The first half of `replay_block`: check the leader and the proof of history, add the slot to
the fork tree, and count the gossip votes that were waiting for it. -/
def enterSlot (block : Block) (pohEntries : List PohEntry) (parentPoh : Hash) :
    Exec Fault ReplayStage ConsensusError FrozenBankState := do
  let h := block.header
  let s ← get
  let epoch ← ofFault (s.bank.epochSchedule.getEpoch P h.slot)
  let expected ← ofFault (s.expectedLeader P epoch h.slot)
  require (expected.all (· = h.validator))
    (.wrongLeader h.slot (expected.getD zero) h.validator)
  ofExcept (checkPoh P s.gpuVerifier parentPoh pohEntries)
  let forkTree ← ofExcept (s.forkTree.addSlot h.slot h.parentSlot h.blockHash h.bankHash)
  let s ← ofFault (drainPendingVotes h.slot { s with forkTree })
  set s
  return {
    slot := h.slot, parentSlot := h.parentSlot, blockHash := h.blockHash,
    bankHash := h.bankHash, epoch, transactionCount := h.transactionCount }

/-! ### The votes of a block -/

/-- The vote of an instruction, with the voter it is counted for. -/
def extractVote (m : Message) (ix : CompiledInstruction) : Option (Hash × Vote) := do
  let programId ← m.accountKeys[ix.programIdIndex.toNat]?
  guard (programId = P.programId .vote)
  let voteIx ← (VoteInstruction.codec.tryFromSlice ix.data).toOption
  let voterIdx ← ix.accounts[1]?
  let voter ← m.accountKeys[voterIdx.toNat]?
  match voteIx with
  | .vote vote => some (voter, vote)
  | .switchVote vote _ => some (voter, vote)
  | _ => none

/-- `extract_votes_from_transaction`. -/
def extractVotesFromTransaction (tx : Transaction) : List (Hash × Vote) :=
  tx.message.instructions.filterMap (extractVote P tx.message)

/-- The votes of a block in the order in which they are counted, each with the number of the
transaction that carries it. -/
def carriedVotes (block : Block) : List (ℕ × Hash × Vote) :=
  block.transactions.zipIdx.flatMap fun tx =>
    (extractVotesFromTransaction P tx.1).map fun v => (tx.2, v)

/-- The stage in the course of the loop over the votes. -/
structure VoteTally where
  stage : ReplayStage
  voteCount : ℕ := 0
  newRoot : Option UInt64 := none
  deriving DecidableEq

/-- The hash under which a vote for a slot is recorded: that of the block in the tree, or the one
the vote names. -/
def votedBlockHash (forkTree : ForkTree) (vote : Vote) (slot : UInt64) : Hash :=
  ((forkTree.getNode slot).map ForkNode.blockHash).getD vote.hash

/-- A vote joins the fork tree and the commitment of its slot. -/
def countVote (s : ReplayStage) (voter : Hash) (vote : Vote) : Except Fault ReplayStage :=
  match vote.slots.getLast? with
  | none => .ok s
  | some slot => do
    let stake := s.bank.getValidatorStake voter
    let (_, forkTree) ← s.forkTree.addVote slot voter stake
    let (_, commitmentTracker) :=
      s.commitmentTracker.recordVote slot (votedBlockHash forkTree vote slot) voter stake
    return { s with forkTree, commitmentTracker }

/-- The slots a vote has made roots are finalized. -/
def markFinalized (s : ReplayStage) (roots : List UInt64) : ReplayStage :=
  { s with commitmentTracker :=
      roots.foldl CommitmentTracker.markFinalized s.commitmentTracker }

/-- The body of the loop over the votes.  Only the node's own votes go through its tower. -/
def creditVote (rootSlot : UInt64) (voter : Hash) (vote : Vote) (a : VoteTally) :
    Except Fault VoteTally :=
  if vote.slots.getLast?.getD 0 ≤ rootSlot then .ok a
  else if voter = a.stage.authorizedVoter then
    match (Tower.processVote P vote).run a.stage.tower with
    | .fault f => .error f
    | .err _ tower => .ok { a with stage := { a.stage with tower } }
    | .ok result tower => do
      let s ← countVote { a.stage with tower } voter vote
      return {
        stage := s.markFinalized result.newRootSlots
        voteCount := a.voteCount + 1
        newRoot := result.newRootSlots.getLast?.or a.newRoot }
  else do
    let s ← countVote a.stage voter vote
    return { a with stage := s, voteCount := a.voteCount + 1 }

/-- The loop over the votes. -/
def creditVotes (rootSlot : UInt64) (votes : List (ℕ × Hash × Vote)) (a : VoteTally) :
    Except Fault VoteTally :=
  votes.foldlM (fun a v => creditVote P rootSlot v.2.1 v.2.2 a) a

/-- The root below which votes are skipped; it is read once, before the loop. -/
def rootSlot (s : ReplayStage) : UInt64 := s.tower.rootSlot.getD 0

/-- The last steps of `replay_block`. -/
def leaveSlot (block : Block) (frozen : FrozenBankState) (a : VoteTally) :
    Except Fault (ReplayResult × ReplayStage) := do
  let h := block.header
  let bank ← a.stage.bank.advanceSlot P h.slot h.timestamp
  let forkTree ← a.stage.forkTree.computeBestFork
  let bank := (bank.recordSlotHash h.slot h.blockHash).flushToStorage frozen
  let commitmentTracker := a.stage.commitmentTracker.trackSlot h.slot h.blockHash
  let result : ReplayResult :=
    { slot := h.slot, blockHash := h.blockHash, bankHash := frozen.bankHash,
      parentSlot := h.parentSlot, transactionCount := h.transactionCount,
      voteCount := a.voteCount, newRoot := a.newRoot }
  return (result, { a.stage with bank, forkTree, commitmentTracker, currentTip := h.slot })

/-- `ReplayStage::replay_block`. -/
def replayBlock (block : Block) (pohEntries : List PohEntry) (parentPoh : Hash) :
    Exec Fault ReplayStage ConsensusError ReplayResult := do
  let frozen ← enterSlot P block pohEntries parentPoh
  let s ← get
  let a ← ofFault (creditVotes P s.rootSlot (carriedVotes P block) { stage := s })
  let (result, s) ← ofFault (leaveSlot P block frozen a)
  set s
  return result

/-! ### The parts of a replay -/

section Parts

variable {P : Platform} {s s' : ReplayStage} {block : Block} {pohEntries : List PohEntry}
  {parentPoh : Hash}

theorem enterSlot_eq_ok {frozen : FrozenBankState}
    (h : (enterSlot P block pohEntries parentPoh).run s = .ok frozen s') :
    (∃ tree, s.forkTree.addSlot block.header.slot block.header.parentSlot block.header.blockHash
        block.header.bankHash = .ok tree ∧
      drainPendingVotes block.header.slot { s with forkTree := tree } = .ok s') ∧
    frozen.slot = block.header.slot ∧ frozen.bankHash = block.header.bankHash := by
  simp only [enterSlot, bind_eq_ok, run_get, run_set, run_pure, ofFault_eq_ok, ofExcept_eq_ok,
    require_eq_ok, Outcome.ok.injEq] at h
  obtain ⟨_, _, ⟨rfl, rfl⟩, epoch, _, ⟨-, rfl⟩, expected, _, ⟨-, rfl⟩, _, _, ⟨-, rfl⟩, _, _, ⟨-, rfl⟩,
    tree, _, ⟨hadd, rfl⟩, s₂, _, ⟨hdrain, rfl⟩, _, _, ⟨-, rfl⟩, hfrozen, rfl⟩ := h
  exact ⟨⟨tree, hadd, hdrain⟩, hfrozen ▸ rfl, hfrozen ▸ rfl⟩

/-- A replay enters the slot, counts the votes of the block and leaves the slot. -/
theorem replayBlock_parts {result : ReplayResult}
    (h : (replayBlock P block pohEntries parentPoh).run s = .ok result s') :
    ∃ frozen s₁ tally, (enterSlot P block pohEntries parentPoh).run s = .ok frozen s₁ ∧
      creditVotes P s₁.rootSlot (carriedVotes P block) { stage := s₁ } = .ok tally ∧
        leaveSlot P block frozen tally = .ok (result, s') := by
  simp only [replayBlock, bind_eq_ok, run_get, run_set, run_pure, ofFault_eq_ok,
    Outcome.ok.injEq] at h
  obtain ⟨frozen, s₁, henter, _, _, ⟨rfl, rfl⟩, tally, _, ⟨hvotes, rfl⟩, ⟨result', s₂⟩, _,
    ⟨hleave, rfl⟩, _, _, ⟨-, rfl⟩, rfl, rfl⟩ := h
  exact ⟨frozen, s₁, tally, henter, hvotes, hleave⟩

end Parts

/-! ### Refusals -/

/-- The stage refuses a block that comes without a proof of history: its leader is not the one the
schedule names, or the tree has no place for its slot. -/
def Refuses (s : ReplayStage) (block : Block) (e : ConsensusError) : Prop :=
  ∃ epoch expected, s.bank.epochSchedule.getEpoch P block.header.slot = .ok epoch ∧
    s.expectedLeader P epoch block.header.slot = .ok expected ∧
      ((¬ expected.all (· = block.header.validator) = true ∧
          e = .wrongLeader block.header.slot (expected.getD zero) block.header.validator) ∨
        expected.all (· = block.header.validator) = true ∧
          s.forkTree.addSlot block.header.slot block.header.parentSlot block.header.blockHash
            block.header.bankHash = .error e)

section Refuse

variable {P : Platform} {s s' : ReplayStage} {block : Block} {parentPoh : Hash}
  {e : ConsensusError}

theorem enterSlot_eq_err :
    (enterSlot P block [] parentPoh).run s = .err e s' ↔ s' = s ∧ Refuses P s block e := by
  simp only [enterSlot, checkPoh, if_true, bind_eq_err, run_get, reduceCtorEq, Outcome.ok.injEq,
    ofFault_ne_err, ofFault_eq_ok, require_eq_err, require_eq_ok, ofExcept_eq_err, ofExcept_eq_ok,
    run_set, run_pure, false_or, false_and, and_false, exists_false, or_false]
  constructor
  · rintro ⟨_, _, ⟨rfl, rfl⟩, epoch, _, ⟨hepoch, rfl⟩, expected, _, ⟨hexpected, rfl⟩, h⟩
    rcases h with ⟨hleader, rfl, rfl⟩ | ⟨_, _, ⟨hleader, rfl⟩, _, _, ⟨-, rfl⟩, hadd, rfl⟩
    · exact ⟨rfl, epoch, expected, hepoch, hexpected, .inl ⟨hleader, rfl⟩⟩
    · exact ⟨rfl, epoch, expected, hepoch, hexpected, .inr ⟨hleader, hadd⟩⟩
  · rintro ⟨rfl, epoch, expected, hepoch, hexpected, h⟩
    refine ⟨_, _, ⟨rfl, rfl⟩, epoch, _, ⟨hepoch, rfl⟩, expected, _, ⟨hexpected, rfl⟩, ?_⟩
    rcases h with ⟨hleader, rfl⟩ | ⟨hleader, hadd⟩
    · exact .inl ⟨hleader, rfl, rfl⟩
    · exact .inr ⟨(), _, ⟨hleader, rfl⟩, (), _, ⟨trivial, rfl⟩, hadd, rfl⟩

/-- **A replay fails only by a refusal**, and a refusal leaves the stage alone. -/
theorem replayBlock_eq_err :
    (replayBlock P block [] parentPoh).run s = .err e s' ↔ s' = s ∧ Refuses P s block e := by
  refine Iff.trans (b := (enterSlot P block [] parentPoh).run s = .err e s') ?_ enterSlot_eq_err
  -- Once the slot is entered, the rest of the replay may stop at a fault, but it does not fail.
  simp only [replayBlock, bind_eq_err, run_get, run_set, run_pure, reduceCtorEq, ofFault_ne_err,
    and_false, exists_false, or_false]

end Refuse

/-! ### Votes and their authority -/

/-- A validator is credited between two states of the stage: its stake is counted for a slot of
the fork tree or of the commitment, or, for the node's own voter, the tower takes a step. -/
def Credits (s s' : ReplayStage) (v : Hash) : Prop :=
  (∃ slot, ¬ s.forkTree.HasVoter slot v ∧ s'.forkTree.HasVoter slot v) ∨
    (∃ slot, ¬ s.commitmentTracker.HasVoter slot v ∧ s'.commitmentTracker.HasVoter slot v) ∨
      v = s.authorizedVoter ∧ s'.tower ≠ s.tower

/-- What decides, in the state before a vote, whether it is credited: its last slot is above the
root; and, for the node's own voter, the tower accepts it; for another, its slot still lacks the
voter, in the fork tree or in the commitment. -/
def WouldCredit (rootSlot : UInt64) (s : ReplayStage) (voter : Hash) (vote : Vote) : Prop :=
  rootSlot < vote.slots.getLast?.getD 0 ∧
    if voter = s.authorizedVoter then s.tower.Accepts vote
    else ∃ slot, vote.slots.getLast? = some slot ∧
      (s.forkTree.WouldCount slot voter ∨
        s.commitmentTracker.WouldCount slot (votedBlockHash s.forkTree vote slot) voter)

section Credit

variable {P : Platform} {s s' : ReplayStage} {voter v : Hash} {vote : Vote} {rootSlot : UInt64}
  {a a' : VoteTally} {slot : UInt64}

/-- What counting a vote adds to the fork tree and to the commitment. -/
theorem countVote_eq_ok (hslot : vote.slots.getLast? = some slot)
    (h : countVote s voter vote = .ok s') :
    s'.tower = s.tower ∧
      (∀ k v, ¬ s.forkTree.HasVoter k v ∧ s'.forkTree.HasVoter k v ↔
        k = slot ∧ v = voter ∧ s.forkTree.WouldCount slot voter) ∧
      ∀ k v, ¬ s.commitmentTracker.HasVoter k v ∧ s'.commitmentTracker.HasVoter k v ↔
        k = slot ∧ v = voter ∧
          s.commitmentTracker.WouldCount slot (votedBlockHash s.forkTree vote slot) voter := by
  simp only [countVote, hslot, exceptBind_eq_ok] at h
  obtain ⟨⟨counted, tree⟩, htree, h⟩ := h
  cases h
  have hhash : votedBlockHash tree vote slot = votedBlockHash s.forkTree vote slot :=
    congrArg (Option.getD · vote.hash) (ForkTree.addVote_blockHash htree slot)
  refine ⟨rfl, fun k v => ForkTree.newVoter_iff htree, fun k v => ?_⟩
  rw [← hhash]
  exact newVoter_iff

theorem hasVoter_markFinalized {roots : List UInt64} {k : UInt64} :
    (s.markFinalized roots).commitmentTracker.HasVoter k v ↔
      s.commitmentTracker.HasVoter k v := by
  refine List.foldlRecOn (motive := fun c : CommitmentTracker => c.HasVoter k v ↔ _) roots _ Iff.rfl
    fun c hc root _ => ?_
  exact CommitmentTracker.hasVoter_markFinalized.trans hc

theorem not_credits_of_eq (hf : s'.forkTree = s.forkTree)
    (hc : s'.commitmentTracker = s.commitmentTracker) (ht : s'.tower = s.tower) :
    ¬ Credits s s' v := by
  rintro (⟨slot, hold, hnew⟩ | ⟨slot, hold, hnew⟩ | ⟨-, hne⟩)
  · exact hold (hf ▸ hnew)
  · exact hold (hc ▸ hnew)
  · exact hne ht

/-- **The votes that are counted.**  A vote credits nobody but its voter, and it does so exactly
if it would in the state before it. -/
theorem credits_iff (h : creditVote P rootSlot voter vote a = .ok a') :
    Credits a.stage a'.stage v ↔ v = voter ∧ WouldCredit rootSlot a.stage voter vote := by
  unfold creditVote at h
  split_ifs at h with hroot hown
  · -- The vote is not above the root.
    cases h
    refine iff_of_false (not_credits_of_eq rfl rfl rfl) fun hw => ?_
    exact UInt64.not_lt.mpr hroot hw.2.1
  · -- The node's own vote: the tower decides.
    split at h
    case h_1 => simp at h
    case h_2 e tower hrun =>
      cases h
      obtain ⟨hnot, rfl⟩ := Tower.processVote_eq_err hrun
      refine iff_of_false (not_credits_of_eq rfl rfl rfl) fun hw => ?_
      have hacc := hw.2.2
      rw [if_pos hown] at hacc
      exact hnot hacc
    case h_3 result tower hrun =>
      obtain ⟨s, hcount, h⟩ := exceptBind_eq_ok.mp h
      cases h
      obtain ⟨hacc, hne⟩ := Tower.processVote_eq_ok hrun
      obtain ⟨slot, hslot, -⟩ := id hacc
      obtain ⟨htower, htree, hcommit⟩ := countVote_eq_ok hslot hcount
      have hw : WouldCredit rootSlot a.stage voter vote := by
        refine ⟨UInt64.not_le.mp hroot, ?_⟩
        rw [if_pos hown]
        exact hacc
      refine ⟨?_, fun hv => ?_⟩
      · rintro (⟨k, hk⟩ | ⟨k, hold, hnew⟩ | ⟨hv, -⟩)
        · exact ⟨((htree k v).mp hk).2.1, hw⟩
        · exact ⟨((hcommit k v).mp ⟨hold, hasVoter_markFinalized.mp hnew⟩).2.1, hw⟩
        · exact ⟨hv.trans hown.symm, hw⟩
      · obtain ⟨rfl, -⟩ := hv
        exact .inr (.inr ⟨hown, htower.symm ▸ hne⟩)
  · -- Another validator's vote: the fork tree and the commitment decide.
    obtain ⟨s, hcount, h⟩ := exceptBind_eq_ok.mp h
    cases h
    have hlast : ∃ slot, vote.slots.getLast? = some slot := by
      cases hl : vote.slots.getLast? with
      | none => simp [hl] at hroot
      | some slot => exact ⟨slot, rfl⟩
    obtain ⟨slot, hslot⟩ := hlast
    obtain ⟨htower, htree, hcommit⟩ := countVote_eq_ok hslot hcount
    have hlt : rootSlot < slot := by simpa [hslot] using hroot
    have hw : WouldCredit rootSlot a.stage voter vote ↔
        a.stage.forkTree.WouldCount slot voter ∨ a.stage.commitmentTracker.WouldCount slot
          (votedBlockHash a.stage.forkTree vote slot) voter := by
      simp [WouldCredit, hown, hlt, hslot]
    rw [hw]
    constructor
    · rintro (⟨k, hk⟩ | ⟨k, hk⟩ | ⟨-, hne⟩)
      · obtain ⟨-, hv, hc⟩ := (htree k v).mp hk
        exact ⟨hv, .inl hc⟩
      · obtain ⟨-, hv, hc⟩ := (hcommit k v).mp hk
        exact ⟨hv, .inr hc⟩
      · exact absurd htower hne
    · rintro ⟨rfl, hc | hc⟩
      · exact .inl ⟨slot, (htree slot v).mpr ⟨rfl, rfl, hc⟩⟩
      · exact .inr (.inl ⟨slot, (hcommit slot v).mpr ⟨rfl, rfl, hc⟩⟩)

end Credit

section Authentic

variable (P : Platform) (storage : Storage) (sysvars : SysvarCache)
  (feeCalculator : FeeCalculator) (order : List ℕ → List ℕ)

/-- While the block is replayed from the stage `s₀`, the loop over the votes, with the root
`rootSlot`, comes to a vote of `voter` in the transaction number `i`, which takes the stage from
`s` to `s'`. -/
def Handles (s₀ : ReplayStage) (block : Block) (pohEntries : List PohEntry) (parentPoh : Hash)
    (rootSlot : UInt64) (i : ℕ) (voter : Hash) (vote : Vote) (s s' : ReplayStage) : Prop :=
  ∃ frozen s₁ before after a a',
    (enterSlot P block pohEntries parentPoh).run s₀ = .ok frozen s₁ ∧ s₁.rootSlot = rootSlot ∧
      carriedVotes P block = before ++ (i, voter, vote) :: after ∧
        creditVotes P rootSlot before { stage := s₁ } = .ok a ∧ a.stage = s ∧
          creditVote P rootSlot voter vote a = .ok a' ∧ a'.stage = s'

/-- The transaction number `i` of the block has `v` among its required signers, and it succeeds
when the block is executed. -/
def Authorises (block : Block) (i : ℕ) (v : Hash) : Prop :=
  ∃ tx r, block.transactions[i]? = some tx ∧
    v ∈ tx.message.accountKeys.take tx.message.numRequiredSignatures.toNat ∧
      Executes P storage sysvars feeCalculator block.header.slot block.transactions order i r ∧
        r.status = .ok ()

/-- Whoever is credited by a vote of the block is authorised by the transaction that carries
it. -/
def VotesAuthentic (s₀ : ReplayStage) (block : Block) (pohEntries : List PohEntry)
    (parentPoh : Hash) : Prop :=
  ∀ rootSlot i voter vote s s',
    Handles P s₀ block pohEntries parentPoh rootSlot i voter vote s s' →
      ∀ v, Credits s s' v → Authorises P storage sysvars feeCalculator order block i v

/-- **Vote authenticity in replay.**  It holds of a block exactly if every vote that would be
credited in the stage it finds is authorised by the transaction that carries it: the code asks
neither for the signature of the voter nor for the status of the transaction. -/
theorem votesAuthentic_iff (s₀ : ReplayStage) (block : Block) (pohEntries : List PohEntry)
    (parentPoh : Hash) :
    VotesAuthentic P storage sysvars feeCalculator order s₀ block pohEntries parentPoh ↔
      ∀ rootSlot i voter vote s s',
        Handles P s₀ block pohEntries parentPoh rootSlot i voter vote s s' →
          WouldCredit rootSlot s voter vote →
            Authorises P storage sysvars feeCalculator order block i voter := by
  constructor
  · intro h rootSlot i voter vote s s' hstep hw
    obtain ⟨frozen, s₁, before, after, a, a', hin, hroot, hvotes, hbefore, rfl, hvote, rfl⟩ :=
      id hstep
    exact h _ _ _ _ _ _ hstep voter ((credits_iff hvote).mpr ⟨rfl, hw⟩)
  · intro h rootSlot i voter vote s s' hstep v hv
    obtain ⟨frozen, s₁, before, after, a, a', hin, hroot, hvotes, hbefore, rfl, hvote, rfl⟩ :=
      id hstep
    obtain ⟨rfl, hw⟩ := (credits_iff hvote).mp hv
    exact h _ _ _ _ _ _ hstep hw

end Authentic

end ReplayStage

/-! ### A forged vote -/

namespace Sample

/-- The address whose vote is forged. -/
def victim : Hash := repeated 9

/-- A vote for slot 1 in the name of `victim`, in a transaction that only another account has to
sign. -/
def forgedVote : Transaction :=
  transaction 1 1 [repeated 5, repeated 7, victim, program .vote]
    [{ programIdIndex := 3, accounts := [1, 2]
       data := VoteInstruction.codec.enc
         (.vote { slots := [1], hash := repeated 1, timestamp := none }) }]

/-- A header for slot 1 on top of slot 0. -/
def header : BlockHeader :=
  { slot := 1, parentSlot := 0, parentHash := zero, blockHash := repeated 1,
    timestamp := 0, validator := zero, transactionCount := 1, merkleRoot := zero,
    pohHash := zero, bankHash := zero, stateRoot := zero }

/-- A bank at genesis. -/
def bank (storage : Storage) : ConsensusBank :=
  { storage, epochSchedule := EpochSchedule.new 432000, epochStakes := ∅,
    clock := { slot := 0, epoch := 0, unixTimestamp := 0 }, slotHashes := [(0, zero)],
    currentSlot := 0, stateTree := ∅ }

/-- The stage of a fresh validator. -/
def stage (storage : Storage) : ReplayStage :=
  { authorizedVoter := repeated 3, bank := bank storage
    tower := ⟨VoteState.new ⟨repeated 2, repeated 3, repeated 3, 0⟩⟩
    forkTree := ForkTree.new 0 zero zero
    commitmentTracker := new 100
    leaderScheduleCache := ∅, gpuVerifier := false, currentTip := 0, pendingVotes := ∅ }

end Sample

open Sample ReplayStage in
/-- The vote is counted for the victim, who has signed nothing. -/
theorem forgedVote_is_credited :
    ¬ VotesAuthentic (Platform.sample false) Storage.empty (sysvars 1) fees id
      (stage Storage.empty) ⟨header, [forgedVote], []⟩ [] Hash.zero := by
  let vote : Vote := { slots := [1], hash := repeated 1, timestamp := none }
  -- The loop comes to the vote first, and counts it.
  obtain ⟨frozen, s, hin, a, hvote, hroot, hold, hnew⟩ :
      ∃ r s, (enterSlot .release ⟨header, [forgedVote], []⟩ [] zero).run (stage
          Storage.empty) = .ok r s ∧
      ∃ a, creditVote .release 0 victim vote { stage := s } = .ok a ∧
      s.rootSlot = 0 ∧ ¬ s.forkTree.HasVoter 1 victim ∧ a.stage.forkTree.HasVoter 1 victim := by
    decide +kernel
  have hvotes : carriedVotes .release ⟨header, [forgedVote], []⟩
      = [(0, victim, vote)] := by decide +kernel
  intro h
  obtain ⟨tx, r, htx, hsigns, -⟩ := h 0 0 victim vote s a.stage
    ⟨frozen, s, [], [], { stage := s }, a, hin, hroot, hvotes, rfl, rfl, hvote, rfl⟩ victim
    (.inl ⟨1, hold, hnew⟩)
  cases htx
  exact absurd hsigns (by decide)

end Nusantara

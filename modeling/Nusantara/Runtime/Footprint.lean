import Nusantara.Runtime.Fees

/-!
# What a transaction reads and writes

The footprint of `execute_transaction`, as far as the accounts are concerned.

* It reads the accounts it names and nothing else: two caches that show it the same accounts give
  the same result (`executeTransaction_congr`).
* It writes accounts that its header makes writable, with **one exception**: the fee is taken from
  the first account, and a transaction that fails commits that account, whether the header makes
  it writable or not (`footprint`).

The scheduler knows the first rule and not the exception.
-/

namespace Nusantara

open Exec TransactionContext List

variable {P : Platform} {tx : Transaction} {storage : Storage} {sysvars : SysvarCache}
  {feeCalculator : FeeCalculator} {slot : UInt64} {cache : Option AccountCache}
  {skipSigVerify : Bool} {p : Prepared} {r : TransactionResult}

/-! ### Reads -/

section Reads

variable {cache' : Option AccountCache} {limit size : ℕ} {keys : List Hash} {e : RuntimeError}

theorem loadEach_congr
    (h : ∀ k ∈ keys, loadAccount storage cache k = loadAccount storage cache' k) :
    loadEach storage cache limit size keys = loadEach storage cache' limit size keys := by
  induction keys generalizing size with
  | nil => rfl
  | cons k keys ih =>
    simp only [loadEach, h k (by simp), ih fun k hk => h k (by simp [hk])]

/-- Accounts that are too large together are too large whatever their balances are. -/
theorem loadEach_error_congr
    (h : ∀ k ∈ keys, (loadAccount storage cache k).data = (loadAccount storage cache' k).data) :
    loadEach storage cache limit size keys = .error e ↔
      loadEach storage cache' limit size keys = .error e := by
  induction keys generalizing size with
  | nil => rfl
  | cons k keys ih =>
    simp only [loadEach, h k (by simp)]
    split_ifs
    · rfl
    · simp only [exceptBind_eq_error, ih fun k hk => h k (by simp [hk]), pure, Except.pure,
        reduceCtorEq, and_false, exists_false, or_false]

theorem prepare_congr
    (h : ∀ k ∈ tx.message.accountKeys, loadAccount storage cache k = loadAccount storage cache' k) :
    prepare P tx storage cache skipSigVerify = prepare P tx storage cache' skipSigVerify := by
  simp only [prepare, loadAccounts, loadEach_congr h]

/-- A transaction is rejected, and why, depends on no balance. -/
theorem prepare_error_congr (h : ∀ k ∈ tx.message.accountKeys,
      (loadAccount storage cache k).data = (loadAccount storage cache' k).data)
    (hp : prepare P tx storage cache skipSigVerify = .ok (.error e)) :
    prepare P tx storage cache' skipSigVerify = .ok (.error e) := by
  unfold prepare at hp ⊢
  split at hp
  · exact hp
  · obtain ⟨sig, hsig, hp⟩ := exceptBind_eq_ok.mp hp
    rw [hsig]
    cases sig with
    | error e => exact hp
    | ok u =>
      refine congrArg Except.ok ?_
      rcases exceptBind_eq_error.mp (Except.ok.inj hp) with hbudget | ⟨budget, hbudget, hload⟩
      · exact exceptBind_eq_error.mpr (Or.inl hbudget)
      · refine exceptBind_eq_error.mpr (Or.inr ⟨budget, hbudget, ?_⟩)
        rcases exceptBind_eq_error.mp hload with hload | ⟨_, -, hload⟩
        · refine exceptBind_eq_error.mpr (Or.inl ?_)
          rcases exceptBind_eq_error.mp hload with hdup | ⟨_, hdup, hload⟩
          · exact exceptBind_eq_error.mpr (Or.inl hdup)
          · exact exceptBind_eq_error.mpr
              (Or.inr ⟨_, hdup, (loadEach_error_congr h).mp hload⟩)
        · simp [pure, Except.pure] at hload

/-- **What is read**: caches that show a transaction the same accounts give the same result. -/
theorem executeTransaction_congr
    (h : prepare P tx storage cache skipSigVerify = prepare P tx storage cache' skipSigVerify) :
    executeTransaction P tx storage sysvars feeCalculator slot cache skipSigVerify
      = executeTransaction P tx storage sysvars feeCalculator slot cache' skipSigVerify := by
  simp only [executeTransaction, h]

/-- A transaction that is not rejected reports the balances it was loaded with. -/
theorem executeTransaction_preBalances
    (hp : prepare P tx storage cache skipSigVerify = .ok (.ok p))
    (h : executeTransaction P tx storage sysvars feeCalculator slot cache skipSigVerify = .ok r) :
    r.preBalances = p.accounts.map fun q => q.2.lamports := by
  simp only [executeTransaction, hp, exceptBind_eq_ok] at h
  obtain ⟨_, hp', h⟩ := h
  cases hp'
  obtain ⟨payer, -, h⟩ := exceptBind_eq_ok.mp h
  split_ifs at h
  · cases h
    rfl
  · simp only [runCharged] at h
    split_ifs at h
    · cases h
      rfl
    · split at h
      · simp at h
      · cases h
        rfl
      · obtain ⟨_, -, h⟩ := exceptBind_eq_ok.mp h
        cases h
        rfl

end Reads

/-! ### Writes -/

section Writes

variable {payer : Hash × Account}

/-- The transaction paid a fee and failed, and what it commits is its first account, which the
header does not make writable, less the fee. -/
structure ChargesReadonlyPayer (P : Platform) (tx : Transaction) (storage : Storage)
    (feeCalculator : FeeCalculator) (cache : Option AccountCache) (r : TransactionResult)
    (payer : Hash) : Prop where
  first : tx.message.accountKeys[0]? = some payer
  readonly : tx.message.isWritable P 0 ≠ .ok true
  failed : ∃ e, r.status = .error e
  fee_eq : r.fee = transactionFee tx feeCalculator
  funded : r.fee ≤ (loadAccount storage cache payer).lamports
  deltas_eq : r.accountDeltas = [chargedPayer r.fee (payer, loadAccount storage cache payer)]

/-- A run that returns has changed only accounts that the header makes writable. -/
theorem collectAccountDeltas_writable {s₀ ctx : TransactionContext} (hev : Evolves P s₀ ctx)
    (hpre : s₀.preAccounts = s₀.accounts)
    (hkeys : s₀.accounts.map Prod.fst = s₀.message.accountKeys) :
    ∀ q ∈ ctx.collectAccountDeltas, s₀.message.WritableKey P q.1 := by
  intro q hq
  obtain ⟨⟨post, pre⟩, hmem, rfl⟩ := mem_map.mp hq
  obtain ⟨hzip, hne⟩ := mem_filter.mp hmem
  obtain ⟨i, hi⟩ := mem_iff_getElem?.mp hzip
  obtain ⟨hpost, hpre'⟩ := getElem?_zip_eq_some.mp hi
  have hkey : s₀.message.accountKeys[i]? = some post.1 := by
    rw [← hkeys, ← hev.addresses, getElem?_map, hpost]
    rfl
  refine ⟨i, hkey, ?_⟩
  by_contra hw
  have hsame := hev.readonly i hw
  rw [hev.preAccounts, hpre] at hpre'
  simp only [account?, hpost, hpre', Option.map_some, Option.some.injEq] at hsame
  simp [hsame] at hne

section

variable (h : Charged P tx storage feeCalculator cache skipSigVerify p payer)

include h

theorem Charged.first_key :
    tx.message.accountKeys[0]? = some payer.1 ∧
      payer = (payer.1, loadAccount storage cache payer.1) := by
  obtain ⟨hkey, hload⟩ := prepare_payer h.prepared h.payer_eq
  exact ⟨hkey, Prod.ext rfl hload⟩

theorem Charged.chargedContext_keys {fee : UInt64} :
    (chargedContext tx slot p fee).accounts.map Prod.fst = tx.message.accountKeys := by
  have hkeys : p.accounts.map Prod.fst = tx.message.accountKeys := by
    rw [prepare_accounts h.prepared, map_map]
    simp [Function.comp_def]
  rw [← hkeys]
  change (chargePayer fee p.accounts).map Prod.fst = _
  cases p.accounts <;> rfl

/-- What a failed transaction commits, where it commits the account that the fee left. -/
theorem Charged.readonlyPayer
    (hw : tx.message.isWritable P 0 ≠ .ok true) {e : RuntimeError} (he : r.status = .error e)
    (hfee : r.fee = transactionFee tx feeCalculator)
    (hdeltas : r.accountDeltas = [chargedPayer (transactionFee tx feeCalculator) payer]) :
    ChargesReadonlyPayer P tx storage feeCalculator cache r payer.1 where
  first := h.first_key.1
  readonly := hw
  failed := ⟨e, he⟩
  fee_eq := hfee
  funded := by
    rw [hfee, ← (prepare_payer h.prepared h.payer_eq).2]
    exact h.funded
  deltas_eq := by rw [hfee, ← h.first_key.2, hdeltas]

end

/-- **What is written**: accounts that the header makes writable, or the payer of a transaction
that failed. -/
theorem footprint
    (h : executeTransaction P tx storage sysvars feeCalculator slot cache skipSigVerify = .ok r) :
    (∀ q ∈ r.accountDeltas, tx.message.WritableKey P q.1) ∨
      ∃ k, ChargesReadonlyPayer P tx storage feeCalculator cache r k := by
  rcases executeTransaction_cases h with ⟨-, hnil, -⟩ | ⟨p, payer, hcharged⟩
  · exact Or.inl (by simp [hnil])
  rw [hcharged.executeTransaction_eq] at h
  have hfirst := hcharged.first_key.1
  -- the payer alone is committed in both ways of failing
  have hpayer : ∀ e a, r.status = .error e → r.fee = transactionFee tx feeCalculator →
      r.accountDeltas = [(payer.1, a)] →
      (tx.message.isWritable P 0 ≠ .ok true →
        (payer.1, a) = chargedPayer (transactionFee tx feeCalculator) payer) →
      (∀ q ∈ r.accountDeltas, tx.message.WritableKey P q.1) ∨
        ∃ k, ChargesReadonlyPayer P tx storage feeCalculator cache r k := by
    intro e a he hfee hdeltas ha
    by_cases hw : tx.message.isWritable P 0 = .ok true
    · left
      intro q hq
      rw [hdeltas, mem_singleton] at hq
      exact ⟨0, hq ▸ hfirst, hw⟩
    · exact Or.inr ⟨payer.1, hcharged.readonlyPayer hw he hfee (ha hw ▸ hdeltas)⟩
  rcases runCharged_cases h with hstale | ⟨hvalid, ⟨ctx, hrun⟩ | ⟨e, ctx, d, hrun, hd⟩⟩
  · obtain ⟨hfee, -, hstatus, hdeltas⟩ := runCharged_of_stale hstale h
    obtain ⟨rest, -, hacc⟩ := hcharged.accounts_eq
    rw [hacc] at hdeltas
    exact hpayer _ _ hstatus hfee hdeltas fun _ => rfl
  · obtain ⟨r', hr', -, -, -, hdeltas⟩ := runCharged_of_ok hvalid hrun
    cases h.symm.trans hr'
    have hev := (keeps_runAndVerify (P := P)).of_ok (Evolves.refl _) hrun
    left
    rw [hdeltas]
    exact collectAccountDeltas_writable hev rfl hcharged.chargedContext_keys
  · obtain ⟨r', hr', hfee, hstatus, -, hdeltas⟩ := runCharged_of_err hvalid hrun hd
    cases h.symm.trans hr'
    have hev := (keeps_runAndVerify (P := P)).of_err (Evolves.refl _) hrun
    obtain ⟨q, hq, rfl, -⟩ := payerDelta_eq_ok.mp hd
    obtain ⟨a, ha⟩ := hev.first_address hcharged.chargedContext_payer
    cases hq.symm.trans ha
    refine hpayer e a hstatus hfee hdeltas fun hw => ?_
    have hsame := hev.readonly 0 hw
    simp only [account?, ha, hcharged.chargedContext_payer, Option.map_some,
      Option.some.injEq] at hsame
    exact Prod.ext rfl hsame

end Writes

end Nusantara

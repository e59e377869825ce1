import Nusantara.Consensus.Shares
import Nusantara.Validator.Epoch

/-!
# Who is paid at the end of an epoch

Every reward that was calculated should reach its account: `distribute_epoch_rewards_blocking` pays
the stake account of each entry and, where there is a commission, its vote account.  A payment reads
the account from the store and puts the new balance into a batch that is written at the end.  The
store does not show the batch, so a second payment to an account starts from the balance before the
first, and its write is the one that stays.  The supply counts both.

Delegations to one vote account all name it, so with a commission this is the normal case.

## Main results

* `rewardsPaid_iff`: every reward is paid exactly if no account that is to get something is paid
  again.
-/

namespace Nusantara

open Exec Storage Word List Hash
open Option (getD_some)

/-! ### What is due -/

/-- The balance of an account, as it is read; zero if there is none. -/
def Storage.balance (s : Storage) (a : Hash) : ℕ :=
  ((s.getAccount a).map fun account => account.lamports.toNat).getD 0

/-- What the entries owe a stake account. -/
def stakeDue (entries : List RewardEntry) (a : Hash) : ℕ :=
  ((entries.filter fun e => e.stakeAccount = a).map fun e => e.lamports.toNat).sum

/-- What the entries owe a vote account. -/
def commissionDue (entries : List RewardEntry) (a : Hash) : ℕ :=
  ((entries.filter fun e => e.voteAccount = a).map fun e => e.commissionLamports.toNat).sum

/-- The accounts that the entries name. -/
def namedAccounts (entries : List RewardEntry) : Finset Hash :=
  (entries.map RewardEntry.stakeAccount).toFinset ∪ (entries.map RewardEntry.voteAccount).toFinset

/-- Every account has got what the entries owe it, and the supply has grown by as much. -/
structure RewardsPaid (entries : List RewardEntry) (s s' : Storage) (b b' : StakeBook) : Prop where
  balances : ∀ a, s'.balance a = s.balance a + (stakeDue entries a + commissionDue entries a)
  supply : ∑ a ∈ namedAccounts entries, s'.balance a + b.totalSupply.toNat
    = ∑ a ∈ namedAccounts entries, s.balance a + b'.totalSupply.toNat

/-- No account that is to get something is paid again. -/
def PaidOnce (payments : List Payment) : Prop :=
  payments.Pairwise fun p q => p.account = q.account → p.lamports = 0

instance (payments : List Payment) : Decidable (PaidOnce payments) :=
  inferInstanceAs (Decidable (payments.Pairwise _))

/-- What the payments to an account come to. -/
def dueTo (payments : List Payment) (a : Hash) : ℕ :=
  ((payments.filter fun p => p.account = a).map fun p => p.lamports.toNat).sum

/-- The last payment to an account, which is the one that stays. -/
def paidTo (payments : List Payment) (a : Hash) : Option UInt64 :=
  ((payments.filter fun p => p.account = a).getLast?).map Payment.lamports

variable {payments : List Payment} {p : Payment} {a : Hash}

theorem dueTo_cons : dueTo (p :: payments) a
    = (if p.account = a then p.lamports.toNat else 0) + dueTo payments a := by
  by_cases ha : p.account = a <;> simp [dueTo, ha]

theorem paidTo_cons : paidTo (p :: payments) a
    = if p.account = a then some ((paidTo payments a).getD p.lamports) else paidTo payments a := by
  by_cases ha : p.account = a
  · simp only [paidTo, ha, decide_true, filter_cons_of_pos, getLast?_cons, if_true,
      Option.map_some]
    cases (payments.filter fun p => p.account = a).getLast? <;> rfl
  · simp [paidTo, ha]

theorem paidTo_append : paidTo (payments ++ [p]) a
    = if p.account = a then some p.lamports else paidTo payments a := by
  by_cases ha : p.account = a <;> simp [paidTo, ha]

theorem paidTo_isSome : (paidTo payments a).isSome ↔ ∃ p ∈ payments, p.account = a := by
  induction payments with
  | nil => simp [paidTo]
  | cons p payments ih =>
    rw [paidTo_cons]
    by_cases ha : p.account = a
    · simp [ha]
    · simp [ha, ih]

theorem paidTo_le_dueTo (payments : List Payment) (a : Hash) :
    ((paidTo payments a).getD 0).toNat ≤ dueTo payments a := by
  induction payments with
  | nil => simp [paidTo]
  | cons p payments ih =>
    rw [paidTo_cons, dueTo_cons]
    split_ifs
    · cases hpaid : paidTo payments a with
      | none => simp
      | some l =>
        rw [hpaid] at ih
        simp only [getD_some] at ih ⊢
        omega
    · omega

/-- The last payments are all that is due exactly if the earlier ones are of nothing. -/
theorem paidTo_eq_dueTo_iff :
    (∀ a, ((paidTo payments a).getD 0).toNat = dueTo payments a) ↔ PaidOnce payments := by
  induction payments with
  | nil => simp [paidTo, dueTo, PaidOnce]
  | cons p payments ih =>
    unfold PaidOnce at ih ⊢
    rw [pairwise_cons, ← ih]
    simp only [paidTo_cons, dueTo_cons]
    constructor
    · intro h
      have hacc := h p.account
      simp only [if_true, getD_some] at hacc
      have hle := paidTo_le_dueTo payments p.account
      refine ⟨fun q hq hpq => ?_, fun a => ?_⟩
      · -- The later payment replaces this one, so nothing may be lost with it.
        obtain ⟨l, hl⟩ := Option.isSome_iff_exists.mp (paidTo_isSome.mpr ⟨q, hq, hpq.symm⟩)
        rw [hl] at hacc hle
        simp only [getD_some] at hacc hle
        exact UInt64.toNat_inj.mp (by rw [UInt64.toNat_zero]; omega)
      · by_cases ha : p.account = a
        · subst ha
          cases hpaid : paidTo payments p.account with
          | none =>
            rw [hpaid, Option.getD_none] at hacc
            rw [Option.getD_none, UInt64.toNat_zero]
            omega
          | some l =>
            rw [hpaid, getD_some] at hacc hle
            rw [getD_some]
            omega
        · simpa [ha] using h a
    · rintro ⟨hfirst, h⟩ a
      by_cases ha : p.account = a
      · subst ha
        have hrest := h p.account
        simp only [if_true, getD_some]
        cases hpaid : paidTo payments p.account with
        | none =>
          rw [hpaid, Option.getD_none, UInt64.toNat_zero] at hrest
          rw [Option.getD_none]
          omega
        | some l =>
          obtain ⟨q, hq, hqa⟩ := paidTo_isSome.mp (Option.isSome_iff_exists.mpr ⟨l, hpaid⟩)
          rw [hpaid, getD_some] at hrest
          rw [getD_some, hfirst q hq hqa.symm, UInt64.toNat_zero]
          omega
      · simpa [ha] using h a

/-- The payments of the entries are what the entries owe. -/
theorem dueTo_payments (entries : List RewardEntry) (a : Hash) :
    dueTo (entries.flatMap RewardEntry.payments) a = stakeDue entries a + commissionDue entries a := by
  induction entries with
  | nil => rfl
  | cons e entries ih =>
    have hentry : dueTo e.payments a = (if e.stakeAccount = a then e.lamports.toNat else 0)
        + if e.voteAccount = a then e.commissionLamports.toNat else 0 := by
      unfold RewardEntry.payments
      rw [dueTo_cons]
      split_ifs with h₁ h₂ h₃ h₃ <;> simp_all [dueTo]
    have happend : dueTo (e.payments ++ entries.flatMap RewardEntry.payments) a
        = dueTo e.payments a + dueTo (entries.flatMap RewardEntry.payments) a := by
      simp [dueTo]
    rw [flatMap_cons, happend, hentry, ih]
    by_cases h₁ : e.stakeAccount = a <;> by_cases h₂ : e.voteAccount = a <;>
      simp [stakeDue, commissionDue, h₁, h₂] <;> omega

/-! ### The loop -/

variable {P : Platform} {s s' : Storage} {b b' : StakeBook} {slot : UInt64}
  {deltas : List (Hash × Account)}

/-- What the loop has gathered after some payments: the last payment to each account, and the sum of
all of them. -/
structure Gathered (s : Storage) (slot : UInt64) (payments : List Payment) (o : Payout) : Prop where
  cache : ∃ c, Overlays slot o.batch c ∧ ∀ a, c.lookup a =
    (paidTo payments a).bind fun l => (s.getAccount a).map fun account => afterPayment account l
  total : (∀ p ∈ payments, (s.getAccount p.account).isSome) →
    o.totalDistributed.toNat = (payments.map fun p => p.lamports.toNat).sum % 2 ^ 64

theorem Gathered.nil : Gathered s slot [] {} :=
  ⟨⟨∅, .nil, fun a => by simp [paidTo]⟩, fun _ => rfl⟩

theorem Gathered.pay {o o' : Payout} (h : Gathered s slot payments o)
    (hpay : pay P s slot o p = .ok o') : Gathered s slot (payments ++ [p]) o' := by
  obtain ⟨c, hover, hc⟩ := h.cache
  unfold Nusantara.pay at hpay
  cases haccount : s.getAccount p.account with
  | none =>
    -- There is no such account: the payment is skipped.
    simp only [haccount] at hpay
    cases hpay
    refine ⟨⟨c, hover, fun a => ?_⟩, fun hheld => ?_⟩
    · rw [hc, paidTo_append]
      by_cases ha : p.account = a
      · rw [if_pos ha, ← ha, haccount]
        simp
      · rw [if_neg ha]
    · have hsome := hheld p (mem_append_right _ (mem_singleton_self p))
      rw [haccount] at hsome
      cases hsome
  | some account =>
    simp only [haccount] at hpay
    obtain ⟨total, htotal, hpay⟩ := exceptBind_eq_ok.mp hpay
    cases hpay
    refine ⟨⟨_, hover.accountWrite _ _ _, fun a => ?_⟩, fun hheld => ?_⟩
    · rw [paidTo_append]
      by_cases ha : p.account = a
      · rw [if_pos ha, ← ha, Finmap.lookup_insert, haccount]
        rfl
      · rw [if_neg ha, Finmap.lookup_insert_of_ne _ (Ne.symm ha), hc]
    · have hbefore := h.total fun q hq => hheld q (mem_append_left _ hq)
      change (UInt64.ofNat total).toNat = _
      rw [P.toNat_of_wrapAdd htotal, hbefore]
      simp

theorem Gathered.payAll {todo : List Payment} {o o' : Payout} (h : Gathered s slot payments o)
    (hpay : todo.foldlM (Nusantara.pay P s slot) o = .ok o') :
    Gathered s slot (payments ++ todo) o' :=
  foldlM_history (fun _ _ _ _ h hpay => h.pay hpay) h hpay

/-- **What a distribution does.**  An account gets its last payment, and the supply grows by all of
them. -/
theorem distributeRewards_eq_ok
    (h : distributeRewards P s b slot payments = .ok (s', b', deltas))
    (hheld : ∀ p ∈ payments, (s.getAccount p.account).isSome)
    (hroom : ∀ p ∈ payments, s.balance p.account + dueTo payments p.account < 2 ^ 64)
    (hsupply : b.totalSupply.toNat + (payments.map fun p => p.lamports.toNat).sum < 2 ^ 64) :
    (∀ a, s'.balance a = s.balance a + ((paidTo payments a).getD 0).toNat) ∧
      b'.totalSupply.toNat
        = b.totalSupply.toNat + (payments.map fun p => p.lamports.toNat).sum := by
  obtain ⟨o, hloop, h⟩ := exceptBind_eq_ok.mp h
  obtain ⟨rfl, hrest⟩ := Prod.mk.inj (Except.ok.inj h)
  obtain ⟨rfl, -⟩ := Prod.mk.inj hrest
  have hgathered : Gathered s slot payments o := by simpa using Gathered.nil.payAll hloop
  obtain ⟨c, hover, hc⟩ := hgathered.cache
  constructor
  · intro a
    have hread := hover.getAccount s a
    rw [hc] at hread
    unfold Storage.balance
    cases hpaid : paidTo payments a with
    | none =>
      rw [hpaid, Option.bind_none, Option.none_or] at hread
      simp [hread]
    | some l =>
      obtain ⟨p, hp, rfl⟩ := paidTo_isSome.mp (Option.isSome_iff_exists.mpr ⟨l, hpaid⟩)
      obtain ⟨account, haccount⟩ := Option.isSome_iff_exists.mp (hheld p hp)
      rw [hpaid, haccount] at hread
      have hle := paidTo_le_dueTo payments p.account
      have hlt := hroom p hp
      unfold Storage.balance at hlt
      rw [haccount] at hlt
      rw [hpaid, getD_some] at hle
      simp only [Option.map_some, getD_some] at hlt
      rw [hread, haccount]
      change (saturatingAdd account.lamports l).toNat = account.lamports.toNat + l.toNat
      rw [saturatingAdd, toNat_saturate]
      omega
  · have htotal := hgathered.total hheld
    rw [Nat.mod_eq_of_lt (by omega)] at htotal
    change (saturatingAdd b.totalSupply o.totalDistributed).toNat = _
    rw [saturatingAdd, toNat_saturate, htotal]
    omega

/-- **Every computed reward is paid** exactly if no account that is to get something is paid again,
over the payments in the order in which they are made.  The store holds the accounts that are paid,
and no sum leaves its type. -/
theorem rewardsPaid_iff {r : EpochRewards} {o : IterOrder ℕ}
    (h : distributeRewards P s b slot (r.payments o) = .ok (s', b', deltas))
    (hheld : ∀ p ∈ r.payments o, (s.getAccount p.account).isSome)
    (hroom : ∀ p ∈ r.payments o, s.balance p.account + dueTo (r.payments o) p.account < 2 ^ 64)
    (hsupply : b.totalSupply.toNat + ((r.payments o).map fun p => p.lamports.toNat).sum < 2 ^ 64) :
    RewardsPaid (entriesOf o r.partitions) s s' b b' ↔ PaidOnce (r.payments o) := by
  obtain ⟨hbalance, htotal⟩ := distributeRewards_eq_ok h hheld hroom hsupply
  have hdue := dueTo_payments (entriesOf o r.partitions)
  rw [← paidTo_eq_dueTo_iff]
  constructor
  · intro hpaid a
    have ha := hpaid.balances a
    rw [hbalance, ← hdue] at ha
    exact Nat.add_left_cancel ha
  · intro hpaid
    have hall : ∀ a, s'.balance a = s.balance a + dueTo (r.payments o) a := fun a => by
      rw [hbalance, hpaid]
    refine ⟨fun a => by rw [hall, ← hdue]; rfl, ?_⟩
    -- What all named accounts are owed is what all payments come to.
    have hnamed : ∀ p ∈ r.payments o, p.account ∈ namedAccounts (entriesOf o r.partitions) := by
      intro p hp
      obtain ⟨e, he, hp⟩ := mem_flatMap.mp hp
      rw [namedAccounts, Finset.mem_union, mem_toFinset, mem_toFinset]
      unfold RewardEntry.payments at hp
      rcases mem_cons.mp hp with rfl | hp
      · exact .inl (mem_map_of_mem he)
      · split_ifs at hp
        · obtain rfl := mem_singleton.mp hp
          exact .inr (mem_map_of_mem he)
        · cases hp
    have hsum := sum_fiberwise Payment.account (fun p => p.lamports.toNat) hnamed
    simp only [hall, Finset.sum_add_distrib]
    rw [htotal, ← hsum]
    simp only [dueTo]
    omega

/-! ### One vote account for two delegations -/

namespace EpochRewards.Sample

open RewardInput.Sample

/-- A store with the vote account and those of two delegations. -/
def store : Storage :=
  [voter, repeated 2, repeated 3].foldl
    (fun s a => s.putAccount a 1 (Account.new 1000 Hash.zero)) Storage.empty

/-- The rewards of epoch 0 for the given stake accounts. -/
def rewards (stakeAccounts : List Hash) : Except RewardsError EpochRewards :=
  calculateEpochRewards (Platform.sample false) (Finmap.singleton voter voteState) order 0 1000
    (stakeAccounts.map fun a => (a, delegation))

/-- A bank that knows of a supply. -/
def book : StakeBook := { StakeBook.empty with totalSupply := 1000000 }

end EpochRewards.Sample

open EpochRewards.Sample RewardInput.Sample in
/-- Two delegations with a commission: the vote account gets one commission, and the supply counts
two. -/
theorem second_commission_replaces_the_first :
    ∃ r s' b' deltas, rewards [Hash.repeated 2, Hash.repeated 3] = .ok r ∧
      (∀ p ∈ r.payments order, (store.getAccount p.account).isSome) ∧
      distributeRewards (Platform.sample false) store book 7 (r.payments order)
        = .ok (s', b', deltas) ∧
      ¬ RewardsPaid (entriesOf order r.partitions) store s' book b' := by
  obtain ⟨r, hr, hheld, ⟨s', b', deltas⟩, hrun, hne⟩ :
      ∃ r, rewards [repeated 2, repeated 3] = .ok r ∧
      (∀ p ∈ r.payments order, (store.getAccount p.account).isSome) ∧
      ∃ out, distributeRewards .release store book 7 (r.payments order) = .ok out ∧
      out.1.balance voter ≠ store.balance voter + (stakeDue (entriesOf order r.partitions) voter +
        commissionDue (entriesOf order r.partitions) voter) := by decide +kernel
  refine ⟨r, s', b', deltas, hr, hheld, hrun, fun hpaid => ?_⟩
  exact hne (hpaid.balances voter)

open EpochRewards.Sample RewardInput.Sample in
/-- One delegation is paid in full. -/
theorem one_delegation_is_paid :
    ∃ r s' b' deltas, rewards [Hash.repeated 2] = .ok r ∧
      distributeRewards (Platform.sample false) store book 7 (r.payments order)
        = .ok (s', b', deltas) ∧
      RewardsPaid (entriesOf order r.partitions) store s' book b' := by
  obtain ⟨r, hr, ⟨s', b', deltas⟩, hrun, hheld, hroom, hsupply, honce⟩ :
      ∃ r, rewards [repeated 2] = .ok r ∧
      ∃ x, distributeRewards .release store book 7 (r.payments order) = .ok x ∧
      (∀ p ∈ r.payments order, (store.getAccount p.account).isSome) ∧
      (∀ p ∈ r.payments order,
        store.balance p.account + dueTo (r.payments order) p.account < 2 ^ 64) ∧
      book.totalSupply.toNat + ((r.payments order).map fun p => p.lamports.toNat).sum < 2 ^ 64 ∧
      PaidOnce (r.payments order) := by decide +kernel
  refine ⟨r, s', b', deltas, hr, hrun, (rewardsPaid_iff hrun hheld hroom hsupply).mpr honce⟩

end Nusantara

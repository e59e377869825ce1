import Nusantara.Validator.Charges

/-!
# Rent and rewards at the same time

The two tasks of an epoch boundary share the store and take no lock.  This file says what a run of
both comes to, whatever the order of their accesses.

What a task writes is a function of the accounts that it has read.  Where the reward task has written
in between, the rent task reads an account as it was or as it was paid (`ReadAs`).  So if the rent
comes to the same for both (a `Plan`), each task does what it would have done alone, and the store
ends as the old one with the accounts of both tasks laid over it (`Planned`).

## Main results

* `Boundary.planned_or_rentFirst`: a run follows the plan, or the rent task was done before the
  reward task began.
* `Boundary.Planned.getAccount`: what is read after a run that follows a plan.
-/

namespace Nusantara

open Exec Storage Word List Finmap BoundaryParams Boundary

variable {P : Platform} {p : BoundaryParams} {s : Storage} {payments : Option (List Payment)}

/-! ### What both tasks are going to do -/

/-- The accounts that the rent task has read, against those of the store before: every account is
read as it was or as it was paid. -/
def ReadAs (paid : AccountCache) (accounts before : List (Hash × Account)) : Prop :=
  List.Forall₂ (fun q q₀ => q.1 = q₀.1 ∧ (q.2 = q₀.2 ∨ paid.lookup q.1 = some q.2)) accounts before

/-- What the rent task has collected comes to the accounts `charged`, which are written, and to the
deltas that it returns. -/
def Tallied (charged : AccountCache) (Deltas : List (Hash × Account) → Prop) :
    Except Fault RentTally → Prop
  | .error _ => charged = ∅ ∧ Deltas []
  | .ok t => Deltas t.deltas ∧
      charged = if 0 < t.collected then AccountCache.insertAll ∅ t.deltas else ∅

/-- What the rent task writes and returns, of which the reward task sees nothing. -/
structure Plan (P : Platform) (p : BoundaryParams) (s : Storage)
    (payments : Option (List Payment)) where
  /-- The accounts that the rent task writes. -/
  charged : AccountCache
  /-- What is known of the deltas that it returns. -/
  Deltas : List (Hash × Account) → Prop
  unseen : ∀ q ∈ payments.getD [],
    (charged.lookup q.account).or (s.getAccount q.account) = s.getAccount q.account
  agree : ∀ a x y, charged.lookup a = some x →
    (paidAccounts (payoutOf P s p.slot payments)).lookup a = some y → x = y

/-- What of the accounts of the rent task is in the store. -/
def RentTask.written (charged : AccountCache) : RentTask → AccountCache
  | .start | .reading _ _ => ∅
  | .burning _ _ | .done _ => charged

/-- What of the accounts of the reward task is in the store. -/
def RewardTask.written (paid : AccountCache) : RewardTask → AccountCache
  | .start | .paying _ _ _ => ∅
  | .settling _ _ | .done _ => paid

namespace Plan

/-- The accounts that the reward task writes. -/
def paid (_ : Plan P p s payments) : AccountCache :=
  paidAccounts (payoutOf P s p.slot payments)

variable (π : Plan P p s payments)

/-- The rent comes to the plan, for all accounts that the task may read. -/
def Collects : Prop :=
  ∀ accounts, ReadAs π.paid accounts (s.accountsAt (p.addresses s)) →
    Tallied π.charged π.Deltas (collectRent P p.rent p.epochSchedule p.slot accounts)

/-- The rent task is on its way: what it has read, it has read as it was or as it was paid, and so
it will what is left. -/
def RentOnWay (reward : RewardTask) : RentTask → Prop
  | .start => True
  | .reading todo accounts => ∃ read, p.addresses s = read ++ todo.map Prod.fst ∧
      ReadAs π.paid accounts (s.accountsAt read) ∧
      ∀ q ∈ todo, s.accountIndex.lookup q.1 = some q.2 ∨
        q.1 ∈ reward.written π.paid ∧ q.2 = p.slot
  | .burning _ deltas => π.Deltas deltas ∧ π.charged ≠ ∅
  | .done deltas => π.Deltas deltas

/-- The reward task is on its way to the payout over the old store. -/
def RewardOnWay (_ : Plan P p s payments) (book : StakeBook) : RewardTask → Prop
  | .start => p.payments P book = payments
  | .paying _ todo o => (todo.foldlM (pay P s p.slot) o).toOption = payoutOf P s p.slot payments ∧
      ∀ q ∈ todo, q ∈ payments.getD []
  | .settling _ o => payoutOf P s p.slot payments = some o
  | .done deltas => deltas = rewardDeltas (payoutOf P s p.slot payments)

end Plan

/-- An account that owes rent is read as it was, also after it was paid. -/
def Unmoved (P : Platform) (p : BoundaryParams) (s : Storage) (payments : Option (List Payment)) :
    Prop :=
  ∀ a account paid, a ∈ p.addresses s → s.getAccount a = some account →
    (paidAccounts (payoutOf P s p.slot payments)).lookup a = some paid →
    p.rentDue P account = 0 ∨ paid = account ∧ afterRent account (p.rentDue P account) = account

/-- The plan of a rent task that is not disturbed. -/
def Unmoved.plan (h : Unmoved P p s payments) (hunseen : ∀ q ∈ payments.getD [],
    ((p.chargedAccounts P s).lookup q.account).or (s.getAccount q.account)
      = s.getAccount q.account) : Plan P p s payments where
  charged := p.chargedAccounts P s
  Deltas deltas := deltas = p.rentDeltas P s
  unseen := hunseen
  agree a x y hx hy := by
    obtain ⟨ha, account, haccount, hdue, rfl⟩ :=
      chargeAt_eq_some.mp (chargedAccounts_eq_some hx)
    rcases h a account y ha haccount hy with hzero | ⟨rfl, hsame⟩
    · exact absurd hzero hdue
    · exact hsame

theorem Unmoved.collects (h : Unmoved P p s payments) (hunseen : ∀ q ∈ payments.getD [],
    ((p.chargedAccounts P s).lookup q.account).or (s.getAccount q.account)
      = s.getAccount q.account) : (h.plan hunseen).Collects := by
  intro accounts hread
  have hsame : collectRent P p.rent p.epochSchedule p.slot accounts = p.rentOf P s := by
    refine collectRent_congr (filter_eq_of_forall₂ hread ?_)
    rintro ⟨a, x⟩ ⟨b, y⟩ hb ⟨rfl, rfl | hpaid⟩
    · exact .inl rfl
    · obtain ⟨ha, hy⟩ := mem_accountsAt.mp hb
      rcases h a y x ha hy hpaid with hdue | ⟨rfl, -⟩
      · refine .inr ⟨?_, by simpa using hdue⟩
        obtain ⟨account, l, haccount, rfl⟩ := paid_eq_afterPayment hpaid
        obtain rfl := Option.some.inj (haccount.symm.trans hy)
        simpa using rentDue_afterPayment hdue l
      · exact .inl rfl
  rw [hsame]
  change Tallied (p.chargedAccounts P s) (· = p.rentDeltas P s) (p.rentOf P s)
  unfold chargedAccounts rentDeltas
  cases p.rentOf P s with
  | error g | ok t => exact ⟨rfl, rfl⟩

/-! ### The run follows the plan -/

namespace Boundary

variable {π : Plan P p s payments} {b : Boundary} {turns : List Worker}

/-- The accounts that were written are laid over the old store, and both tasks are on their way. -/
structure Planned (π : Plan P p s payments) (b : Boundary) : Prop where
  storage : ∃ batch, b.storage = s.write batch ∧
    Overlays p.slot batch (b.reward.written π.paid ∪ b.rent.written π.charged)
  rent : π.RentOnWay b.reward b.rent
  reward : π.RewardOnWay b.book b.reward

namespace Planned

/-- The start of a run. -/
theorem init {book : StakeBook} (hpayments : p.payments P book = payments) :
    Planned π ⟨s, book, .start, .start⟩ :=
  ⟨⟨[], rfl, by simpa [RentTask.written, RewardTask.written] using Overlays.nil⟩, trivial,
    hpayments⟩

/-- The reward task reads what was there before, until it writes. -/
theorem getAccount_unpaid (h : Planned π b) (hreward : b.reward.written π.paid = ∅) {q : Payment}
    (hq : q ∈ payments.getD []) : b.storage.getAccount q.account = s.getAccount q.account := by
  obtain ⟨batch, hbatch, hover⟩ := h.storage
  rw [hbatch, hover.getAccount, hreward, empty_union]
  cases b.rent with
  | start => rfl
  | reading todo accounts => rfl
  | burning n deltas | done deltas => exact π.unseen q hq

/-- What is written grows, so what was true of it stays true. -/
theorem rentOnWay_mono {reward reward' : RewardTask} {rent : RentTask}
    (hsub : ∀ a ∈ reward.written π.paid, a ∈ reward'.written π.paid)
    (h : π.RentOnWay reward rent) : π.RentOnWay reward' rent := by
  cases rent with
  | start => trivial
  | reading todo accounts =>
    obtain ⟨read, haddresses, hread, htodo⟩ := h
    exact ⟨read, haddresses, hread, fun q hq => (htodo q hq).imp id fun hw => ⟨hsub _ hw.1, hw.2⟩⟩
  | burning n deltas => exact h
  | done deltas => exact h

/-- A step of the reward task before it writes, or after. -/
theorem of_written_eq {book : StakeBook} {reward : RewardTask} (h : Planned π b)
    (hwritten : reward.written π.paid = b.reward.written π.paid)
    (hreward : π.RewardOnWay book reward) : Planned π { b with book, reward } := by
  refine ⟨?_, rentOnWay_mono (fun a ha => hwritten ▸ ha) h.rent, hreward⟩
  obtain ⟨batch, hbatch, hover⟩ := h.storage
  exact ⟨batch, hbatch, by rw [hwritten]; exact hover⟩

theorem paid_of_none (h : payoutOf P s p.slot payments = none) : π.paid = ∅ := by
  rw [Plan.paid, h]
  rfl

section

variable (h : Planned π b)

include h

theorem stepReward : Planned π (b.stepReward P p) := by
  have hway := h.reward
  cases hreward : b.reward with
  | start =>
    rw [hreward] at hway
    have hpayments : p.payments P b.book = payments := hway
    cases hps : p.payments P b.book with
    | none =>
      have hnone : payoutOf P s p.slot payments = none := by rw [← hpayments, hps]; rfl
      simp only [Boundary.stepReward, hreward, hps]
      refine h.of_written_eq (by simp [RewardTask.written, hreward, paid_of_none hnone]) ?_
      simp [Plan.RewardOnWay, hnone, rewardDeltas]
    | some ps =>
      have hsome : payments = some ps := hpayments.symm.trans hps
      simp only [Boundary.stepReward, hreward, hps]
      refine h.of_written_eq (by simp [RewardTask.written, hreward]) ?_
      exact ⟨by rw [hsome]; rfl, fun q hq => by rw [hsome]; exact hq⟩
  | paying supply todo o =>
    rw [hreward] at hway
    obtain ⟨hpayout, hmem⟩ := hway
    cases todo with
    | nil =>
      -- The write: the paid accounts are laid over what is there.
      have hsome : payoutOf P s p.slot payments = some o := hpayout.symm
      obtain ⟨ps, rfl, -⟩ := Option.bind_eq_some_iff.mp hsome
      have hpaid := (payoutOf_eq_some hsome).1
      simp only [Boundary.stepReward, hreward]
      refine ⟨?_, rentOnWay_mono (fun a ha => ?_) h.rent, hsome⟩
      · obtain ⟨batch, hbatch, hover⟩ := h.storage
        refine ⟨batch ++ o.batch, by rw [write_append, ← hbatch], ?_⟩
        have hboth := hover.comp hpaid
        rw [hreward] at hboth
        simpa [RewardTask.written, Plan.paid, hsome] using hboth
      · rw [hreward] at ha
        exact absurd ha notMem_empty
    | cons q todo =>
      have hread := h.getAccount_unpaid (by rw [hreward]; rfl) (hmem q mem_cons_self)
      have hpays : pay P b.storage p.slot o q = pay P s p.slot o q := by rw [pay, hread, pay]
      simp only [Boundary.stepReward, hreward, hpays]
      rw [foldlM_cons] at hpayout
      cases hpay : pay P s p.slot o q with
      | error g =>
        rw [hpay] at hpayout
        have hnone : payoutOf P s p.slot payments = none := hpayout.symm
        refine h.of_written_eq (by simp [RewardTask.written, hreward, paid_of_none hnone]) ?_
        simp [Plan.RewardOnWay, hnone, rewardDeltas]
      | ok o' =>
        rw [hpay] at hpayout
        refine h.of_written_eq (by simp [RewardTask.written, hreward]) ?_
        exact ⟨hpayout, fun q' hq' => hmem q' (mem_cons_of_mem q hq')⟩
  | settling supply o =>
    rw [hreward] at hway
    simp only [Boundary.stepReward, hreward]
    refine h.of_written_eq (by simp [RewardTask.written, hreward]) ?_
    have hsome : payoutOf P s p.slot payments = some o := hway
    simp [Plan.RewardOnWay, hsome, rewardDeltas]
  | done deltas =>
    simp only [Boundary.stepReward, hreward]
    exact h

/-- The partition has the same addresses as before: only accounts that there are get written. -/
theorem addresses_eq (hrent : b.rent.written π.charged = ∅) :
    p.addresses b.storage = p.addresses s := by
  obtain ⟨batch, hbatch, hover⟩ := h.storage
  have hkeys : b.storage.accountIndex.keys = s.accountIndex.keys := by
    ext a
    rw [Finmap.mem_keys, Finmap.mem_keys, Finmap.mem_iff, Finmap.mem_iff, hbatch, hover.index, hrent,
      Finmap.union_empty]
    split_ifs with ha
    · refine iff_of_true ⟨p.slot, rfl⟩ ?_
      have hpaid : a ∈ π.paid := by
        cases hreward : b.reward <;> rw [hreward] at ha
        · exact absurd ha Finmap.notMem_empty
        · exact absurd ha Finmap.notMem_empty
        · exact ha
        · exact ha
      obtain ⟨account, haccount⟩ := Option.isSome_iff_exists.mp (isSome_getAccount_of_paid hpaid)
      obtain ⟨slot, hslot, -⟩ := Option.bind_eq_some_iff.mp haccount
      exact ⟨slot, hslot⟩
    · exact Iff.rfl
  rw [addresses, addresses, hkeys]

/-- An account that is left to be read will be read as it was or as it was paid. -/
theorem readAs_singleton (hrent : b.rent.written π.charged = ∅)
    {q : Hash × UInt64} (hq : s.accountIndex.lookup q.1 = some q.2 ∨
      q.1 ∈ b.reward.written π.paid ∧ q.2 = p.slot) :
    ReadAs π.paid ((b.storage.getAccountAtSlot q.1 q.2).map fun account => (q.1, account)).toList
      (s.accountsAt [q.1]) := by
  obtain ⟨batch, hbatch, hover⟩ := h.storage
  rw [hrent, union_empty] at hover
  have hpaid : ∀ {a}, a ∈ b.reward.written π.paid →
      a ∈ π.paid ∧ (b.reward.written π.paid).lookup a = π.paid.lookup a := by
    intro a ha
    cases hreward : b.reward <;> rw [hreward] at ha
    · exact absurd ha notMem_empty
    · exact absurd ha notMem_empty
    · exact ⟨ha, rfl⟩
    · exact ⟨ha, rfl⟩
  -- An account that was paid is there, before as after.
  have hnew : q.1 ∈ b.reward.written π.paid →
      b.storage.getAccountAtSlot q.1 q.2 = (b.reward.written π.paid).lookup q.1 →
      ReadAs π.paid ((b.storage.getAccountAtSlot q.1 q.2).map fun account => (q.1, account)).toList
        (s.accountsAt [q.1]) := by
    intro hmem hread
    obtain ⟨hmem, hlookup⟩ := hpaid hmem
    obtain ⟨account, haccount⟩ := Option.isSome_iff_exists.mp (isSome_getAccount_of_paid hmem)
    obtain ⟨paid, hpaid⟩ := mem_iff.mp hmem
    rw [hread, hlookup, hpaid]
    simp [ReadAs, Storage.accountsAt, haccount, hpaid]
  rcases hq with hindex | ⟨hmem, hslot⟩
  · have hold : s.getAccount q.1 = s.getAccountAtSlot q.1 q.2 := by
      rw [Storage.getAccount, hindex]
      rfl
    rcases hover.getAccountAtSlot s q.1 q.2 with hsame | ⟨hmem, hread⟩
    · rw [hbatch, hsame, ← hold]
      cases haccount : s.getAccount q.1 <;> simp [ReadAs, Storage.accountsAt, haccount]
    · exact hnew hmem (hbatch ▸ hread)
  · refine hnew hmem ?_
    have hversion : (q.1, q.2) ∈ (s.write batch).accounts :=
      (hover.mem_accounts s q.2).mpr (.inl ⟨hslot, hmem⟩)
    rw [hbatch, getAccountAtSlot_of_mem hversion, hover.accounts, if_pos ⟨hslot, hmem⟩]

/-- A step of the rent task that writes nothing. -/
theorem of_rent_written_eq {rent : RentTask}
    (hwritten : rent.written π.charged = b.rent.written π.charged)
    (hrent : π.RentOnWay b.reward rent) : Planned π { b with rent } := by
  refine ⟨?_, hrent, h.reward⟩
  obtain ⟨batch, hbatch, hover⟩ := h.storage
  exact ⟨batch, hbatch, by rw [hwritten]; exact hover⟩

/-- The rent task writes what it has collected. -/
theorem write_rent {accounts : List (Hash × Account)} (hπ : π.Collects)
    (hrent : b.rent = .reading [] accounts) : Planned π (b.stepRent P p) := by
  have hway := h.rent
  rw [hrent] at hway
  obtain ⟨read, haddresses, hread, -⟩ := hway
  rw [map_nil, append_nil] at haddresses
  have htallied := hπ accounts (haddresses ▸ hread)
  have hempty : b.rent.written π.charged = ∅ := by rw [hrent]; rfl
  simp only [stepRent, hrent]
  cases hcollect : collectRent P p.rent p.epochSchedule p.slot accounts with
  | error g =>
    rw [hcollect] at htallied
    refine h.of_rent_written_eq ?_ htallied.2
    rw [hempty]
    exact htallied.1
  | ok t =>
    rw [hcollect] at htallied
    obtain ⟨hdeltas, hcharged⟩ := htallied
    dsimp only
    split_ifs with hcollected
    · rw [if_pos hcollected] at hcharged
      have hnonempty : π.charged ≠ ∅ := by
        rw [hcharged]
        exact (collectRent_eq_ok hcollect).insertAll_ne_empty hcollected
      refine ⟨?_, ⟨hdeltas, hnonempty⟩, h.reward⟩
      obtain ⟨batch, hbatch, hover⟩ := h.storage
      rw [hempty, union_empty] at hover
      have hboth := hover.comp (collectRent_eq_ok hcollect).overlays
      rw [← hcharged] at hboth
      refine ⟨batch ++ t.batch, by rw [write_append, ← hbatch], ?_⟩
      -- The rent is written last here, but where both write they write the same.
      have hcomm : π.charged ∪ b.reward.written π.paid = b.reward.written π.paid ∪ π.charged := by
        cases b.reward with
        | start | paying supply todo o => simp [RewardTask.written]
        | settling supply o | done deltas => exact union_comm_of_agree π.agree
      rw [hcomm] at hboth
      exact hboth
    · rw [if_neg hcollected] at hcharged
      refine h.of_rent_written_eq ?_ hdeltas
      rw [hempty]
      exact hcharged

theorem stepRent (hπ : π.Collects)
    (hburn : b.reward = .start → ∀ n deltas, b.rent ≠ .burning n deltas) :
    Planned π (b.stepRent P p) := by
  have hway := h.rent
  cases hrent : b.rent with
  | start =>
    simp only [Boundary.stepRent, hrent]
    refine h.of_rent_written_eq (by rw [hrent]; rfl) ⟨[], ?_, .nil, fun q hq => ?_⟩
    · -- The entries of the partition are its addresses, each with a slot.
      have haddresses := h.addresses_eq (by rw [hrent]; rfl)
      rw [nil_append, ← haddresses]
      unfold Storage.partitionEntries addresses
      rw [map_filterMap]
      symm
      rw [filterMap_eq_map_iff_forall_eq_some.mpr ?_, map_id]
      intro a ha
      have hkey := mem_keys.mp (Finset.mem_ascending.mp (mem_of_mem_filter ha))
      obtain ⟨slot, hslot⟩ := mem_iff.mp hkey
      rw [hslot]
      rfl
    · obtain ⟨a, -, hentry⟩ := mem_filterMap.mp hq
      obtain ⟨slot, hslot, rfl⟩ := Option.map_eq_some_iff.mp hentry
      obtain ⟨batch, hbatch, hover⟩ := h.storage
      rw [hrent] at hover
      rw [hbatch, hover.index] at hslot
      simp only [RentTask.written, union_empty] at hslot
      split_ifs at hslot with hmem
      · exact .inr ⟨hmem, (Option.some.inj hslot).symm⟩
      · exact .inl hslot
  | reading todo accounts =>
    cases todo with
    | nil => exact h.write_rent hπ hrent
    | cons q todo =>
      rw [hrent] at hway
      obtain ⟨read, haddresses, hread, htodo⟩ := hway
      simp only [Boundary.stepRent, hrent]
      refine h.of_rent_written_eq (by rw [hrent]; rfl) ⟨read ++ [q.1], ?_, ?_, ?_⟩
      · simpa using haddresses
      · have hone := h.readAs_singleton (by rw [hrent]; rfl) (htodo q mem_cons_self)
        have hsplit : s.accountsAt (read ++ [q.1]) = s.accountsAt read ++ s.accountsAt [q.1] :=
          filterMap_append
        rw [hsplit]
        exact rel_append hread hone
      · exact fun q' hq' => htodo q' (mem_cons_of_mem q hq')
  | burning n deltas =>
    rw [hrent] at hway
    simp only [Boundary.stepRent, hrent]
    refine ⟨?_, hway.1, ?_⟩
    · obtain ⟨batch, hbatch, hover⟩ := h.storage
      rw [hrent] at hover
      exact ⟨batch, hbatch, hover⟩
    · -- The bank changes, which matters only to a reward task that has not begun.
      have hreward := h.reward
      cases hstate : b.reward with
      | start => exact absurd hrent (hburn hstate n deltas)
      | paying supply todo o | settling supply o => rw [hstate] at hreward; exact hreward
      | done deltas' => rw [hstate] at hreward; exact hreward
  | done deltas =>
    simp only [Boundary.stepRent, hrent]
    exact h

end

end Planned

theorem stepRent_reward : (b.stepRent P p).reward = b.reward := by
  unfold stepRent
  split
  · rfl
  · rfl
  · split
    · rfl
    · split_ifs <;> rfl
  · rfl
  · rfl

theorem stepReward_rent : (b.stepReward P p).rent = b.rent := by
  unfold stepReward
  split
  · split <;> rfl
  · split <;> rfl
  · rfl
  · rfl
  · rfl

/-- The reward task does not begin twice. -/
theorem stepReward_ne_start : (b.stepReward P p).reward ≠ .start := by
  unfold stepReward
  split
  · split <;> simp
  · split <;> simp
  · simp
  · simp
  · rename_i hreward
    simp [hreward]

/-- Once the reward task has begun, every run follows the plan. -/
theorem Planned.foldl (h : Planned π b) (hπ : π.Collects) (hstart : b.reward ≠ .start)
    (turns : List Worker) : Planned π (turns.foldl (step P p) b) := by
  induction turns generalizing b with
  | nil => exact h
  | cons w turns ih =>
    cases w with
    | rent =>
      have hreward : (b.stepRent P p).reward ≠ .start := by rw [stepRent_reward]; exact hstart
      exact ih (h.stepRent hπ fun h => absurd h hstart) hreward
    | reward => exact ih h.stepReward stepReward_ne_start

/-- The rent task is done and has burned what it has collected, and the reward task has not begun. -/
structure RentFirst (π : Plan P p s payments) (b : Boundary) : Prop where
  storage : ∃ batch, b.storage = s.write batch ∧ Overlays p.slot batch π.charged
  rent : ∃ deltas, b.rent = .done deltas ∧ π.Deltas deltas
  reward : b.reward = .start
  charged : π.charged ≠ ∅

/-- **A run follows the plan**, or the rent task was done before the reward task began.  Only then
does the reward task find another supply, and make other payments. -/
theorem planned_or_rentFirst (h : Planned π b) (hπ : π.Collects) (hstart : b.reward = .start)
    (turns : List Worker) :
    Planned π (turns.foldl (step P p) b) ∨ ∃ k rest, turns = replicate k .rent ++ rest ∧
      RentFirst π ((replicate k .rent).foldl (step P p) b) := by
  induction turns generalizing b with
  | nil => exact .inl h
  | cons w turns ih =>
    cases w with
    | reward => exact .inl (h.stepReward.foldl hπ stepReward_ne_start turns)
    | rent =>
      by_cases hburn : ∃ n deltas, b.rent = .burning n deltas
      · obtain ⟨n, deltas, hrent⟩ := hburn
        refine .inr ⟨1, turns, rfl, ?_⟩
        have hstep : [Worker.rent].foldl (step P p) b
            = { b with book := b.book.burnFees n, rent := .done deltas } := by
          simp [step, stepRent, hrent]
        have hway := h.rent
        rw [hrent] at hway
        refine ⟨?_, ⟨deltas, by rw [replicate_one, hstep], hway.1⟩, ?_, hway.2⟩
        · obtain ⟨batch, hbatch, hover⟩ := h.storage
          rw [hstart, hrent] at hover
          rw [replicate_one, hstep]
          exact ⟨batch, hbatch, by simpa [RewardTask.written, RentTask.written] using hover⟩
        · rw [replicate_one, hstep]
          exact hstart
      · have hstep := h.stepRent hπ fun _ n deltas hrent => hburn ⟨n, deltas, hrent⟩
        rcases ih hstep (stepRent_reward.trans hstart) with hplanned | ⟨k, rest, rfl, hfirst⟩
        · exact .inl hplanned
        · exact .inr ⟨k + 1, rest, rfl, hfirst⟩

section

variable (h : Planned π b) {rent reward : List (Hash × Account)} (hrent : b.rent = .done rent)
  (hreward : b.reward = .done reward)

include h hrent hreward

/-- What the tasks return. -/
theorem Planned.deltas :
    π.Deltas rent ∧ reward = rewardDeltas (payoutOf P s p.slot payments) := by
  obtain ⟨-, honWay, honWay'⟩ := h
  rw [hrent] at honWay
  rw [hreward] at honWay'
  exact ⟨honWay, honWay'⟩

/-- What is read once both tasks are done. -/
theorem Planned.getAccount (a : Hash) : b.storage.getAccount a
    = (π.paid.lookup a).or ((π.charged.lookup a).or (s.getAccount a)) := by
  obtain ⟨batch, hbatch, hover⟩ := h.storage
  rw [hrent, hreward] at hover
  rw [hbatch, hover.getAccount]
  simp only [RentTask.written, RewardTask.written, lookup_union, Option.or_assoc]

end

end Boundary

end Nusantara

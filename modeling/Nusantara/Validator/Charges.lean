import Nusantara.Validator.Payout

/-!
# What rent and rewards come to

Each of the two tasks of an epoch boundary writes what it has computed from the accounts that it has
read.  The rent task charges every account of its partition that owes rent (`collectRent_eq_ok`).
The reward task pays every account that there is, where the last payment to an account is the one
that stays (`payoutOf_eq_some`).

A payment makes no account owe rent that did not owe any (`rentDue_afterPayment`).
-/

namespace Nusantara

open Exec Storage Word List Finmap UInt64 BoundaryParams AccountCache

/-! ### The rent -/

namespace BoundaryParams

variable (P : Platform) (p : BoundaryParams)

/-- The rent that an account owes; zero if it is exempt, or if the task stops because the length of
the epoch has no `u64`. -/
def rentDue (account : Account) : UInt64 :=
  match P.wrapMul 64 p.epochSchedule.slotsPerEpoch.toNat defaultSlotDurationMs.toNat with
  | .error _ => 0
  | .ok ms => match p.rent.dueEpoch account.lamports account.data.length ms msPerYear with
    | .exempt => 0
    | .paying due => due

/-- An account, with its address, after its rent. -/
def charged (q : Hash × Account) : Hash × Account := (q.1, afterRent q.2 (p.rentDue P q.2))

/-- What is written of the accounts that were read. -/
def charges (accounts : List (Hash × Account)) : List (Hash × Account) :=
  (accounts.filter fun q => p.rentDue P q.2 ≠ 0).map (p.charged P)

/-- What is collected from the accounts that were read. -/
def rentTotal (accounts : List (Hash × Account)) : ℕ :=
  (accounts.map fun q => (min q.2.lamports (p.rentDue P q.2)).toNat).sum

/-- The addresses of the partition whose turn it is. -/
def addresses (s : Storage) : List Hash :=
  s.accountIndex.keys.ascending.filter fun a =>
    (a.asBytes.headD 0).toNat % rentPartitions = p.epoch.toNat % rentPartitions

end BoundaryParams

/-- The accounts at some addresses, as a store has them. -/
def Storage.accountsAt (s : Storage) (addresses : List Hash) : List (Hash × Account) :=
  addresses.filterMap fun a => (s.getAccount a).map fun account => (a, account)

theorem mem_insertAll {c : AccountCache} {l : List (Hash × Account)} {q : Hash × Account}
    (h : q ∈ l) : q.1 ∈ c.insertAll l := by
  have hkeep : ∀ (l : List (Hash × Account)) (c : AccountCache), q.1 ∈ c → q.1 ∈ c.insertAll l := by
    intro l
    induction l with
    | nil => exact fun _ h => h
    | cons r l ih => exact fun c h => ih _ (mem_insert.mpr (.inr h))
  induction l generalizing c with
  | nil => cases h
  | cons r l ih =>
    rcases mem_cons.mp h with rfl | h
    · exact hkeep l _ (mem_insert.mpr (.inl rfl))
    · exact ih h

theorem mem_of_lookup_insertAll {l : List (Hash × Account)} {a : Hash} {x : Account}
    (h : (insertAll ∅ l).lookup a = some x) : (a, x) ∈ l := by
  have hkeep : ∀ (l : List (Hash × Account)) (c : AccountCache), (c.insertAll l).lookup a = some x →
      (a, x) ∈ l ∨ c.lookup a = some x := by
    intro l
    induction l with
    | nil => exact fun _ h => .inr h
    | cons r l ih =>
      intro c h
      rcases ih _ h with hmem | hlookup
      · exact .inl (mem_cons_of_mem r hmem)
      · by_cases ha : a = r.1
        · subst ha
          rw [lookup_insert] at hlookup
          exact .inl (mem_cons.mpr (.inl (Prod.ext rfl (Option.some.inj hlookup).symm)))
        · rw [lookup_insert_of_ne _ ha] at hlookup
          exact .inr hlookup
  exact (hkeep l ∅ h).resolve_right (by simp)

section Rent

variable {P : Platform} {p : BoundaryParams} {accounts : List (Hash × Account)} {t : RentTally}
  {ms : ℕ} (hms : P.wrapMul 64
    p.epochSchedule.slotsPerEpoch.toNat defaultSlotDurationMs.toNat = .ok ms)

include hms in
theorem collectFrom_eq {q : Hash × Account} :
    collectFrom P p.rent ms p.slot t q = if p.rentDue P q.2 = 0 then .ok t
      else (P.wrapAdd 64 t.collected.toNat (min q.2.lamports (p.rentDue P q.2)).toNat).map fun n =>
        { batch := t.batch ++ accountWrite q.1 p.slot (p.charged P q).2 (some q.2)
          collected := ofNat n
          deltas := t.deltas ++ [p.charged P q] } := by
  simp only [collectFrom, charged, rentDue, hms]
  cases p.rent.dueEpoch q.2.lamports q.2.data.length ms msPerYear with
  | exempt => rfl
  | paying due =>
    by_cases hdue : due = 0
    · simp only [hdue, if_true]
    · simp only [hdue, if_false]
      rfl

/-- What the loop has gathered after some accounts. -/
structure Collected (P : Platform) (p : BoundaryParams) (accounts : List (Hash × Account))
    (t : RentTally) : Prop where
  deltas : t.deltas = p.charges P accounts
  overlays : Overlays p.slot t.batch (insertAll ∅ t.deltas)
  collected : t.collected.toNat = p.rentTotal P accounts % 2 ^ 64

theorem Collected.nil : Collected P p [] ⟨[], 0, []⟩ := ⟨rfl, .nil, rfl⟩

include hms in
theorem Collected.step {q : Hash × Account} {t' : RentTally}
    (h : Collected P p accounts t) (hstep : collectFrom P p.rent ms p.slot t q = .ok t') :
    Collected P p (accounts ++ [q]) t' := by
  rw [collectFrom_eq hms] at hstep
  have htotal : p.rentTotal P (accounts ++ [q])
      = p.rentTotal P accounts + (min q.2.lamports (p.rentDue P q.2)).toNat := by
    simp [rentTotal]
  split_ifs at hstep with hdue
  · -- Nothing is owed, and nothing changes.
    cases hstep
    refine ⟨?_, h.overlays, ?_⟩
    · rw [h.deltas]
      simp [charges, hdue]
    · rw [h.collected, htotal, hdue]
      simp
  · obtain ⟨n, hn, rfl⟩ := exceptMap_eq_ok.mp hstep
    refine ⟨?_, ?_, ?_⟩
    · rw [h.deltas]
      simp [charges, hdue]
    · have hwrite := h.overlays.accountWrite q.1 (p.charged P q).2 (some q.2)
      simpa [insertAll, charged] using hwrite
    · rw [P.toNat_of_wrapAdd hn, h.collected, htotal]
      simp

/-- **What the rent task writes** of the accounts that it has read. -/
theorem collectRent_eq_ok (h : collectRent P p.rent p.epochSchedule p.slot accounts = .ok t) :
    Collected P p accounts t := by
  obtain ⟨ms, hms, h⟩ := exceptBind_eq_ok.mp h
  exact foldlM_history (R := Collected P p) (l := []) (fun _ _ _ _ h => h.step hms) .nil h

/-- Who collects something writes something. -/
theorem Collected.insertAll_ne_empty (h : Collected P p accounts t) (hpos : 0 < t.collected) :
    insertAll ∅ t.deltas ≠ ∅ := by
  intro hempty
  have hnil : ∀ q ∈ accounts, p.rentDue P q.2 = 0 := by
    intro q hq
    by_contra hdue
    have hmem : p.charged P q ∈ t.deltas := by
      rw [h.deltas]
      exact mem_map_of_mem (mem_filter.mpr ⟨hq, by simpa using hdue⟩)
    have hkey := mem_insertAll (c := ∅) hmem
    rw [hempty] at hkey
    exact notMem_empty hkey
  have hzero : p.rentTotal P accounts = 0 := by
    refine sum_eq_zero fun n hn => ?_
    obtain ⟨q, hq, rfl⟩ := mem_map.mp hn
    rw [hnil q hq, min_eq_right (UInt64.zero_le)]
    rfl
  have hcollected := h.collected
  rw [hzero] at hcollected
  rw [UInt64.lt_iff_toNat_lt, hcollected] at hpos
  exact absurd hpos (by decide)

/-- Accounts that owe nothing do not matter. -/
theorem collectRent_congr {accounts' : List (Hash × Account)}
    (h : (accounts.filter fun q => p.rentDue P q.2 ≠ 0)
      = accounts'.filter fun q => p.rentDue P q.2 ≠ 0) :
    collectRent P p.rent p.epochSchedule p.slot accounts
      = collectRent P p.rent p.epochSchedule p.slot accounts' := by
  have hfilter : ∀ accounts, collectRent P p.rent p.epochSchedule p.slot accounts
      = collectRent P p.rent p.epochSchedule p.slot
        (accounts.filter fun q => p.rentDue P q.2 ≠ 0) := by
    intro accounts
    unfold collectRent
    cases hms : P.wrapMul 64 p.epochSchedule.slotsPerEpoch.toNat defaultSlotDurationMs.toNat with
    | error g => rfl
    | ok ms =>
      change accounts.foldlM (collectFrom P p.rent ms p.slot) ⟨[], 0, []⟩
        = (accounts.filter _).foldlM (collectFrom P p.rent ms p.slot) ⟨[], 0, []⟩
      generalize (⟨[], 0, []⟩ : RentTally) = t
      induction accounts generalizing t with
      | nil => rfl
      | cons q accounts ih =>
        by_cases hdue : p.rentDue P q.2 = 0
        · rw [filter_cons_of_neg (by simpa using hdue), foldlM_cons, collectFrom_eq hms,
            if_pos hdue]
          exact ih t
        · rw [filter_cons_of_pos (by simpa using hdue), foldlM_cons, foldlM_cons]
          exact congrArg _ (funext fun t => ih t)
  rw [hfilter accounts, hfilter accounts', h]

include hms in
/-- The rent is collected if it has a `u64`. -/
theorem collectRent_ok (h : p.rentTotal P accounts < 2 ^ 64) :
    ∃ t, collectRent P p.rent p.epochSchedule p.slot accounts = .ok t := by
  refine exceptBind_ok hms ?_
  have hloop : ∀ (todo done : List (Hash × Account)) (t₀ : RentTally), Collected P p done t₀ →
      p.rentTotal P (done ++ todo) < 2 ^ 64 →
      ∃ t, todo.foldlM (collectFrom P p.rent ms p.slot) t₀ = .ok t := by
    intro todo
    induction todo with
    | nil => exact fun _ t₀ _ _ => ⟨t₀, rfl⟩
    | cons q todo ih =>
      intro done t₀ hdone hlt
      have hstep : ∃ t₁, collectFrom P p.rent ms p.slot t₀ q = .ok t₁ := by
        rw [collectFrom_eq hms]
        split_ifs
        · exact ⟨t₀, rfl⟩
        · have hle : t₀.collected.toNat + (min q.2.lamports (p.rentDue P q.2)).toNat < 2 ^ 64 := by
            rw [hdone.collected]
            simp only [rentTotal, map_append, map_cons, sum_append,
              sum_cons] at hlt ⊢
            omega
          rw [Platform.wrapAdd, if_pos hle]
          exact ⟨_, rfl⟩
      obtain ⟨t₁, hstep⟩ := hstep
      rw [foldlM_cons, hstep]
      exact ih (done ++ [q]) t₁ (hdone.step hms hstep) (by simpa using hlt)
  exact hloop accounts [] _ .nil h

end Rent

/-! ### The rent of a store -/

namespace BoundaryParams

variable {P : Platform} {p : BoundaryParams} {s : Storage} {a : Hash} {account : Account}

theorem exists_ms_of_owes (h : p.rentDue P account ≠ 0) :
    ∃ ms, P.wrapMul 64 p.epochSchedule.slotsPerEpoch.toNat defaultSlotDurationMs.toNat = .ok ms := by
  unfold rentDue at h
  cases hms : P.wrapMul 64 p.epochSchedule.slotsPerEpoch.toNat defaultSlotDurationMs.toNat with
  | error g => simp [hms] at h
  | ok ms => exact ⟨ms, rfl⟩

/-- An account that owes nothing owes nothing after a payment. -/
theorem rentDue_afterPayment (h : p.rentDue P account = 0) (l : UInt64) :
    p.rentDue P (afterPayment account l) = 0 := by
  have hle : account.lamports ≤ (afterPayment account l).lamports := by
    change _ ≤ saturatingAdd account.lamports l
    have hlt := account.lamports.toNat_lt
    rw [le_iff_toNat_le, saturatingAdd, toNat_saturate]
    omega
  have hdata : (afterPayment account l).data = account.data := rfl
  unfold rentDue at h ⊢
  rw [hdata]
  cases hms : P.wrapMul 64 p.epochSchedule.slotsPerEpoch.toNat defaultSlotDurationMs.toNat with
  | error g => rfl
  | ok ms =>
    simp only [hms, Rent.dueEpoch] at h ⊢
    by_cases hexempt : p.rent.minimumBalance account.data.length ≤ account.lamports
    · rw [if_pos (hexempt.trans hle)]
    · rw [if_neg hexempt] at h
      split_ifs
      · rfl
      · exact h

theorem mem_accountsAt {q : Hash × Account} {addresses : List Hash} :
    q ∈ s.accountsAt addresses ↔ q.1 ∈ addresses ∧ s.getAccount q.1 = some q.2 := by
  simp only [Storage.accountsAt, mem_filterMap, Option.map_eq_some_iff]
  constructor
  · rintro ⟨a, ha, account, haccount, rfl⟩
    exact ⟨ha, haccount⟩
  · rintro ⟨ha, haccount⟩
    exact ⟨q.1, ha, q.2, haccount, rfl⟩

variable (P p) in
/-- The account at an address after its rent, if it is of the partition and owes any. -/
def chargeAt (s : Storage) (a : Hash) : Option Account :=
  if a ∈ p.addresses s then (s.getAccount a).bind fun account =>
    if p.rentDue P account = 0 then none else some (afterRent account (p.rentDue P account))
  else none

theorem chargeAt_eq_some {x : Account} : p.chargeAt P s a = some x ↔ a ∈ p.addresses s ∧
    ∃ account, s.getAccount a = some account ∧ p.rentDue P account ≠ 0 ∧
      x = afterRent account (p.rentDue P account) := by
  unfold chargeAt
  split_ifs with ha
  · simp only [ha, true_and, Option.bind_eq_some_iff]
    refine exists_congr fun account => and_congr_right fun _ => ?_
    split_ifs with hdue
    · simp [hdue]
    · simp [hdue, eq_comm]
  · simp [ha]

/-- What is written of the accounts of a store. -/
theorem lookup_charges :
    (insertAll ∅ (p.charges P (s.accountsAt (p.addresses s)))).lookup a
      = p.chargeAt P s a := by
  have hmem : ∀ q : Hash × Account, q ∈ p.charges P (s.accountsAt (p.addresses s)) ↔
      p.chargeAt P s q.1 = some q.2 := by
    intro q
    simp only [charges, mem_map, mem_filter, mem_accountsAt, decide_eq_true_eq,
      chargeAt_eq_some]
    constructor
    · rintro ⟨q₀, ⟨⟨ha, haccount⟩, hdue⟩, rfl⟩
      exact ⟨ha, q₀.2, haccount, hdue, rfl⟩
    · rintro ⟨ha, account, haccount, hdue, hx⟩
      exact ⟨(q.1, account), ⟨⟨ha, haccount⟩, hdue⟩, Prod.ext rfl hx.symm⟩
  have hlookup := lookup_foldl_insert (p.chargeAt P s) Prod.snd hmem ∅ a
  simpa [insertAll] using hlookup

variable (P p)

/-- What the rent comes to over the accounts of a store. -/
def rentOf (s : Storage) : Except Fault RentTally :=
  collectRent P p.rent p.epochSchedule p.slot (s.accountsAt (p.addresses s))

/-- The accounts that the rent task writes over a store that is not changed. -/
def chargedAccounts (s : Storage) : AccountCache :=
  match p.rentOf P s with
  | .error _ => ∅
  | .ok t => if 0 < t.collected then insertAll ∅ t.deltas else ∅

/-- The deltas that it returns then. -/
def rentDeltas (s : Storage) : List (Hash × Account) :=
  match p.rentOf P s with
  | .error _ => []
  | .ok t => t.deltas

variable {P p}

/-- Only an account that owes rent is written. -/
theorem chargedAccounts_eq_some {x : Account} (h : (p.chargedAccounts P s).lookup a = some x) :
    p.chargeAt P s a = some x := by
  unfold chargedAccounts at h
  cases hrent : p.rentOf P s with
  | error g => simp [hrent] at h
  | ok t =>
    simp only [hrent] at h
    split_ifs at h
    · rw [(collectRent_eq_ok hrent).deltas, lookup_charges] at h
      exact h
    · simp at h

end BoundaryParams

/-! ### The rewards -/

/-- What the payments come to over a store; `none` if there are none or the task stops. -/
def payoutOf (P : Platform) (s : Storage) (slot : UInt64) (payments : Option (List Payment)) :
    Option Payout :=
  payments.bind fun payments => (payments.foldlM (pay P s slot) {}).toOption

/-- The deltas of the reward task. -/
def rewardDeltas (o : Option Payout) : List (Hash × Account) := (o.map Payout.deltas).getD []

/-- The accounts that the reward task writes. -/
def paidAccounts (o : Option Payout) : AccountCache := insertAll ∅ (rewardDeltas o)

section Rewards

variable {P : Platform} {s s' : Storage} {slot : UInt64} {payments : List Payment} {o o' : Payout}
  {q : Payment}

theorem pay_deltas (h : pay P s slot o q = .ok o')
    (ho : Overlays slot o.batch (insertAll ∅ o.deltas)) :
    Overlays slot o'.batch (insertAll ∅ o'.deltas) := by
  unfold pay at h
  split at h
  · exact Except.ok.inj h ▸ ho
  rename_i account _
  obtain ⟨n, -, h⟩ := exceptBind_eq_ok.mp h
  cases h
  have hwrite := ho.accountWrite q.account (afterPayment account q.lamports) (some account)
  simpa [insertAll] using hwrite

/-- **What the reward task writes**: every account that is paid and that there is, with its last
payment. -/
theorem payoutOf_eq_some (h : payoutOf P s slot (some payments) = some o) :
    Overlays slot o.batch (paidAccounts (some o)) ∧ ∀ a, (paidAccounts (some o)).lookup a
      = (paidTo payments a).bind fun l => (s.getAccount a).map fun account =>
          afterPayment account l := by
  have hloop : payments.foldlM (pay P s slot) {} = .ok o := exceptToOption_eq_some.mp h
  have hover : Overlays slot o.batch (paidAccounts (some o)) :=
    foldlM_keeps (I := fun o : Payout => Overlays slot o.batch (insertAll ∅ o.deltas))
      (fun _ _ _ _ ho hstep => pay_deltas hstep ho) .nil hloop
  have hgathered : Gathered s slot payments o := by simpa using Gathered.nil.payAll hloop
  obtain ⟨c, hc, hlookup⟩ := hgathered.cache
  exact ⟨hover, fun a => by rw [hover.unique hc, hlookup]⟩

/-- An account that is written was there, and has got a payment. -/
theorem paid_eq_afterPayment {payments : Option (List Payment)} {a : Hash} {paid : Account}
    (h : (paidAccounts (payoutOf P s slot payments)).lookup a = some paid) :
    ∃ account l, s.getAccount a = some account ∧ paid = afterPayment account l := by
  cases hpay : payoutOf P s slot payments with
  | none =>
    rw [hpay] at h
    cases h
  | some o =>
    obtain ⟨ps, rfl, -⟩ := Option.bind_eq_some_iff.mp hpay
    rw [hpay, (payoutOf_eq_some hpay).2] at h
    obtain ⟨l, -, hmap⟩ := Option.bind_eq_some_iff.mp h
    obtain ⟨account, haccount, rfl⟩ := Option.map_eq_some_iff.mp hmap
    exact ⟨account, l, haccount, rfl⟩

/-- The reward task writes accounts that there are. -/
theorem isSome_getAccount_of_paid {payments : Option (List Payment)} {a : Hash}
    (h : a ∈ paidAccounts (payoutOf P s slot payments)) : (s.getAccount a).isSome := by
  obtain ⟨paid, hpaid⟩ := mem_iff.mp h
  obtain ⟨account, l, haccount, -⟩ := paid_eq_afterPayment hpaid
  rw [haccount]
  rfl

/-- Every payment is made if their sum has a `u64`. -/
theorem payoutOf_isSome (P : Platform) (s : Storage) (slot : UInt64)
    (h : (payments.map fun q => q.lamports.toNat).sum < 2 ^ 64) :
    ∃ o, payoutOf P s slot (some payments) = some o := by
  have hloop : ∀ (todo : List Payment) (o : Payout),
      o.totalDistributed.toNat + (todo.map fun q => q.lamports.toNat).sum < 2 ^ 64 →
      ∃ o', todo.foldlM (pay P s slot) o = .ok o' := by
    intro todo
    induction todo with
    | nil => exact fun o _ => ⟨o, rfl⟩
    | cons q todo ih =>
      intro o hlt
      rw [map_cons, sum_cons] at hlt
      rw [foldlM_cons]
      unfold pay
      cases s.getAccount q.account with
      | none => exact ih o (by omega)
      | some account =>
        have hle : o.totalDistributed.toNat + q.lamports.toNat < 2 ^ 64 := by omega
        simp only [Platform.wrapAdd, if_pos hle]
        refine ih _ ?_
        change (ofNat _).toNat + _ < 2 ^ 64
        rw [toNat_ofNat_of_lt' hle]
        omega
  obtain ⟨o, ho⟩ := hloop payments {} (by simpa using h)
  exact ⟨o, exceptToOption_eq_some.mpr ho⟩

end Rewards

end Nusantara

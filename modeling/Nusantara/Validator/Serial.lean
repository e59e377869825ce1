import Nusantara.Validator.Interleaving

/-!
# Rent and rewards are not serialisable

`check_epoch_boundary` runs the rent and the rewards at the same time because they "write to separate
account sets".  Nothing makes the sets separate: a stake account below its rent-exempt minimum is in
both.  Then each task may read the account before the other writes it, and the one that writes last
undoes the other.

With `x` before, `x'` after the rent and a reward `l`, such an account ends with `x + l` if the
rewards are written last, with `x'` if the rent is, and with `x' + l` if the reward task reads after
the rent was written.  The three differ, and one after the other gives two results at most, so some
order of the accesses gives neither (`not_serialisable_of_clash`).

If no account that owes rent is paid, every order of the accesses ends with the balances of one task
after the other (`serialisable_of_apart`).  The order in which they come still matters: the rent that
is burned lowers the supply, from which the rewards are computed.

## Main results

* `serialisable_and_clash`: both.
* `rent_is_balanced`: what the rent task does where it is alone.
-/

namespace Nusantara

open Exec Storage Word List UInt64 BoundaryParams Nat Hash

namespace Boundary

variable (P : Platform) (p : BoundaryParams) (s : Storage) (book : StakeBook)

/-- One task runs to its end before the other begins. -/
def Serial (turns : List Worker) : Prop :=
  ∃ m n, turns = replicate m .rent ++ replicate n .reward ∨
    turns = replicate n .reward ++ replicate m .rent

/-- Every run of both tasks ends with the balances of one task after the other. -/
def Serialisable : Prop :=
  ∀ turns, (run P p turns s book).deltas?.isSome → ∃ serial, Serial serial ∧
    (run P p serial s book).deltas?.isSome ∧
    ∀ a, (run P p turns s book).storage.balance a = (run P p serial s book).storage.balance a

/-- No account that owes rent is paid. -/
def Apart : Prop :=
  ∀ q ∈ (p.payments P book).getD [], ∀ account, s.getAccount q.account = some account →
    q.account ∈ p.addresses s → p.rentDue P account = 0

variable {P p s book} {b : Boundary} {turns : List Worker}

/-! ### Each task comes to its end -/

theorem deltas?_isSome : b.deltas?.isSome ↔ (∃ rentDeltas, b.rent = .done rentDeltas) ∧
    ∃ rewardDeltas, b.reward = .done rewardDeltas := by
  unfold deltas?
  cases b.rent <;> cases b.reward <;> simp

theorem foldl_replicate_reward (n : ℕ) :
    ((replicate n Worker.reward).foldl (step P p) b).rent = b.rent := by
  induction n generalizing b with
  | zero => rfl
  | succ n ih => exact ih.trans stepReward_rent

theorem foldl_replicate_rent (m : ℕ) :
    ((replicate m Worker.rent).foldl (step P p) b).reward = b.reward := by
  induction m generalizing b with
  | zero => rfl
  | succ m ih => exact ih.trans stepRent_reward

theorem rent_ends (b : Boundary) :
    ∃ m deltas, ((replicate m Worker.rent).foldl (step P p) b).rent = .done deltas := by
  have hread : ∀ (todo : List (Hash × UInt64)) (b : Boundary),
      (∃ accounts, b.rent = .reading todo accounts) →
      ∃ m deltas, ((replicate m Worker.rent).foldl (step P p) b).rent = .done deltas := by
    intro todo
    induction todo with
    | nil =>
      rintro b ⟨accounts, hrent⟩
      cases hcollect : collectRent P p.rent p.epochSchedule p.slot accounts with
      | error g => exact ⟨1, [], by simp [step, stepRent, hrent, hcollect]⟩
      | ok t =>
        by_cases hcollected : 0 < t.collected
        · exact ⟨2, t.deltas, by simp [step, stepRent, hrent, hcollect, hcollected]⟩
        · exact ⟨1, t.deltas, by simp [step, stepRent, hrent, hcollect, hcollected]⟩
    | cons q todo ih =>
      rintro b ⟨accounts, hrent⟩
      obtain ⟨m, deltas, hm⟩ := ih (b.stepRent P p) ⟨_, by simp only [stepRent, hrent]; rfl⟩
      exact ⟨m + 1, deltas, hm⟩
  cases hrent : b.rent with
  | start =>
    obtain ⟨m, deltas, hm⟩ := hread _ (b.stepRent P p) ⟨[], by simp only [stepRent, hrent]; rfl⟩
    exact ⟨m + 1, deltas, hm⟩
  | reading todo accounts => exact hread todo b ⟨accounts, hrent⟩
  | burning n deltas => exact ⟨1, deltas, by simp [step, stepRent, hrent]⟩
  | done deltas => exact ⟨0, deltas, hrent⟩

theorem reward_ends (b : Boundary) :
    ∃ n deltas, ((replicate n Worker.reward).foldl (step P p) b).reward = .done deltas := by
  have hpay : ∀ (todo : List Payment) (b : Boundary),
      (∃ supply o, b.reward = .paying supply todo o) →
      ∃ n deltas, ((replicate n Worker.reward).foldl (step P p) b).reward = .done deltas := by
    intro todo
    induction todo with
    | nil =>
      rintro b ⟨supply, o, hreward⟩
      exact ⟨2, o.deltas, by simp [step, stepReward, hreward]⟩
    | cons q todo ih =>
      rintro b ⟨supply, o, hreward⟩
      cases hq : pay P b.storage p.slot o q with
      | error g => exact ⟨1, [], by simp [step, stepReward, hreward, hq]⟩
      | ok o' =>
        obtain ⟨n, deltas, hn⟩ := ih (b.stepReward P p)
          ⟨supply, o', by simp only [stepReward, hreward, hq]⟩
        exact ⟨n + 1, deltas, hn⟩
  cases hreward : b.reward with
  | start =>
    cases hps : p.payments P b.book with
    | none => exact ⟨1, [], by simp [step, stepReward, hreward, hps]⟩
    | some ps =>
      obtain ⟨n, deltas, hn⟩ := hpay ps (b.stepReward P p)
        ⟨b.book.totalSupply, {}, by simp only [stepReward, hreward, hps]⟩
      exact ⟨n + 1, deltas, hn⟩
  | paying supply todo o => exact hpay todo b ⟨supply, o, hreward⟩
  | settling supply o => exact ⟨1, o.deltas, by simp [step, stepReward, hreward]⟩
  | done deltas => exact ⟨0, deltas, hreward⟩

/-! ### Apart -/

variable {deltas : List (Hash × Account)}

/-- Once the rent task is done, only the turns of the reward task count. -/
theorem foldl_of_rent_done (h : b.rent = .done deltas) :
    turns.foldl (step P p) b
      = (replicate (turns.count .reward) Worker.reward).foldl (step P p) b := by
  induction turns generalizing b with
  | nil => rfl
  | cons w turns ih =>
    cases w with
    | rent =>
      have hstep : step P p b .rent = b := by simp only [step, stepRent, h]
      rw [foldl_cons, hstep, ih h, count_cons_of_ne (by decide)]
    | reward =>
      rw [count_cons_self, replicate_succ, foldl_cons, foldl_cons]
      exact ih (stepReward_rent.trans h)

/-- Nothing that is paid owes rent, so the rent does not depend on what was paid before. -/
theorem Apart.unmoved (h : Apart P p s book) : Unmoved P p s (p.payments P book) := by
  intro a account paid ha haccount hpaid
  left
  cases hpayout : payoutOf P s p.slot (p.payments P book) with
  | none =>
    rw [hpayout] at hpaid
    cases hpaid
  | some o =>
    obtain ⟨payments, hpayments, -⟩ := Option.bind_eq_some_iff.mp hpayout
    rw [hpayout] at hpaid
    rw [hpayments] at hpayout
    rw [(payoutOf_eq_some hpayout).2] at hpaid
    obtain ⟨l, hl, -⟩ := Option.bind_eq_some_iff.mp hpaid
    obtain ⟨q, hq, rfl⟩ := paidTo_isSome.mp (Option.isSome_iff_exists.mpr ⟨l, hl⟩)
    exact h q (by rw [hpayments]; exact hq) account haccount ha

theorem Apart.unseen (h : Apart P p s book) : ∀ q ∈ (p.payments P book).getD [],
    ((p.chargedAccounts P s).lookup q.account).or (s.getAccount q.account)
      = s.getAccount q.account := by
  intro q hq
  cases hcharged : (p.chargedAccounts P s).lookup q.account with
  | none => rfl
  | some x =>
    obtain ⟨ha, account, haccount, hdue, -⟩ := chargeAt_eq_some.mp
      (chargedAccounts_eq_some hcharged)
    exact absurd (h q hq account haccount ha) hdue

theorem serialisable_of_apart (h : Apart P p s book) : Serialisable P p s book := by
  intro turns hfinished
  have hplan := h.unmoved.collects h.unseen
  have hinit : Planned (h.unmoved.plan h.unseen) ⟨s, book, .start, .start⟩ := .init rfl
  rcases planned_or_rentFirst hinit hplan rfl turns with hplanned | ⟨k, rest, rfl, hfirst⟩
  · -- As if the rewards had come first.
    obtain ⟨n, rewardDeltas, hn⟩ := reward_ends (P := P) (p := p)
      (stepReward P p ⟨s, book, .start, .start⟩)
    obtain ⟨m, rentDeltas, hm⟩ := rent_ends (P := P) (p := p)
      ((replicate (n + 1) Worker.reward).foldl (step P p) ⟨s, book, .start, .start⟩)
    have hserial : run P p (replicate (n + 1) .reward ++ replicate m .rent) s book
        = (replicate m Worker.rent).foldl (step P p)
          ((replicate (n + 1) Worker.reward).foldl (step P p) ⟨s, book, .start, .start⟩) :=
      foldl_append
    have hdone : (run P p (replicate (n + 1) .reward ++ replicate m .rent) s
        book).deltas?.isSome := by
      rw [hserial, deltas?_isSome, foldl_replicate_rent]
      exact ⟨⟨rentDeltas, hm⟩, rewardDeltas, hn⟩
    have hplanned' : Planned (h.unmoved.plan h.unseen)
        (run P p (replicate (n + 1) .reward ++ replicate m .rent) s book) :=
      hinit.stepReward.foldl hplan stepReward_ne_start
        (replicate n Worker.reward ++ replicate m Worker.rent)
    refine ⟨_, ⟨m, n + 1, .inr rfl⟩, hdone, fun a => ?_⟩
    obtain ⟨⟨_, hrent⟩, _, hreward⟩ := deltas?_isSome.mp hfinished
    obtain ⟨⟨_, hrent'⟩, _, hreward'⟩ := deltas?_isSome.mp hdone
    have hread : (run P p turns s book).storage.getAccount a = _ :=
      hplanned.getAccount hrent hreward a
    unfold Storage.balance
    rw [hread, hplanned'.getAccount hrent' hreward']
  · -- The rent came first.
    obtain ⟨deltas, hdeltas, -⟩ := hfirst.rent
    have hrun : run P p (replicate k .rent ++ rest) s book
        = run P p (replicate k .rent ++ replicate (rest.count .reward) .reward) s book := by
      unfold run
      rw [foldl_append, foldl_append]
      exact foldl_of_rent_done hdeltas
    refine ⟨replicate k .rent ++ replicate (rest.count .reward) .reward,
      ⟨k, rest.count .reward, .inl rfl⟩, ?_, fun a => by rw [hrun]⟩
    rw [← hrun]
    exact hfinished

/-! ### Three orders of the accesses -/

section Orders

variable {payments : List Payment} {reward : RewardTask} {rent : RentTask} {t : RentTally}
  {o : Payout}

/-- The rent task reads all its accounts. -/
theorem rent_reads (s : Storage) (book : StakeBook) (reward : RewardTask) :
    ∃ m, (replicate m Worker.rent).foldl (step P p) ⟨s, book, .start, reward⟩
      = ⟨s, book, .reading [] (s.accountsAt (p.addresses s)), reward⟩ := by
  have hloop : ∀ (todo : List (Hash × UInt64)) (accounts : List (Hash × Account)),
      (replicate todo.length Worker.rent).foldl (step P p)
          ⟨s, book, .reading todo accounts, reward⟩
        = ⟨s, book, .reading [] (accounts ++ todo.filterMap fun q =>
            (s.getAccountAtSlot q.1 q.2).map fun account => (q.1, account)), reward⟩ := by
    intro todo
    induction todo with
    | nil => simp
    | cons q todo ih =>
      intro accounts
      rw [length_cons, replicate_succ, foldl_cons]
      refine (ih _).trans ?_
      cases hread : s.getAccountAtSlot q.1 q.2 <;> simp [hread]
  refine ⟨(s.partitionEntries (p.epoch.toNat % rentPartitions) rentPartitions).length + 1, ?_⟩
  rw [replicate_succ, foldl_cons]
  refine (hloop _ []).trans ?_
  have hread : (s.partitionEntries (p.epoch.toNat % rentPartitions) rentPartitions).filterMap
      (fun q => (s.getAccountAtSlot q.1 q.2).map fun account => (q.1, account))
        = s.accountsAt (p.addresses s) := by
    unfold Storage.partitionEntries Storage.accountsAt addresses
    rw [filterMap_filterMap]
    refine filterMap_congr fun a _ => ?_
    rw [Storage.getAccount]
    cases s.accountIndex.lookup a <;> rfl
  rw [nil_append, hread]

theorem rent_writes {accounts : List (Hash × Account)}
    (h : collectRent P p.rent p.epochSchedule p.slot accounts = .ok t) (hpos : 0 < t.collected) :
    stepRent P p ⟨s, book, .reading [] accounts, reward⟩
      = ⟨s.write t.batch, book, .burning t.collected t.deltas, reward⟩ := by
  simp only [stepRent, h, if_pos hpos]

section

variable (hpayments : p.payments P book = some payments)

include hpayments

/-- The reward task makes all its payments. -/
theorem reward_reads (h : payoutOf P s p.slot (some payments) = some o) :
    (replicate (payments.length + 1) Worker.reward).foldl (step P p) ⟨s, book, rent, .start⟩
      = ⟨s, book, rent, .paying book.totalSupply [] o⟩ := by
  rw [replicate_succ, foldl_cons, ← reward_pays (exceptToOption_eq_some.mp h)]
  simp only [step, stepReward, hpayments]

theorem reward_runs (h : payoutOf P s p.slot (some payments) = some o) :
    (replicate (payments.length + 3) Worker.reward).foldl (step P p) ⟨s, book, rent, .start⟩
      = ⟨s.write o.batch, book.settle book.totalSupply o, rent, .done o.deltas⟩ := by
  have hloop := exceptToOption_eq_some.mp h
  refine reward_alone hpayments ?_
  simp only [distributeRewards, hloop]
  rfl

section

variable (ho : payoutOf P s p.slot (some payments) = some o) (ht : p.rentOf P s = .ok t)
  (hpos : 0 < t.collected)

include ho ht hpos

/-- Both tasks read before either writes, and the rewards are written last. -/
theorem exists_rewardsLast : ∃ turns book', run P p turns s book
      = ⟨(s.write t.batch).write o.batch, book', .done t.deltas, .done o.deltas⟩ := by
  obtain ⟨m, hm⟩ := rent_reads (P := P) (p := p) s book (.paying book.totalSupply [] o)
  refine ⟨replicate (payments.length + 1) .reward ++ (replicate m .rent ++
    [.rent, .rent, .reward, .reward]), (book.burnFees t.collected).settle book.totalSupply o, ?_⟩
  rw [run, foldl_append, reward_reads hpayments ho, foldl_append, hm]
  simp only [foldl_cons, foldl_nil, step, rent_writes ht hpos]
  rfl

/-- Both tasks read before either writes, and the rent is written last. -/
theorem exists_rentLast : ∃ turns book', run P p turns s book
      = ⟨(s.write o.batch).write t.batch, book', .done t.deltas, .done o.deltas⟩ := by
  obtain ⟨m, hm⟩ := rent_reads (P := P) (p := p) s book .start
  refine ⟨replicate m .rent ++ (replicate (payments.length + 3) .reward ++
    [.rent, .rent]), (book.settle book.totalSupply o).burnFees t.collected, ?_⟩
  rw [run, foldl_append, hm, foldl_append, reward_runs hpayments ho]
  simp only [foldl_cons, foldl_nil, step, rent_writes ht hpos]
  rfl

end

/-- The reward task reads what the rent task has written, before the rent is burned. -/
theorem exists_rewardsAfterRent (ht : p.rentOf P s = .ok t) (hpos : 0 < t.collected)
    (ho : payoutOf P (s.write t.batch) p.slot (some payments) = some o) :
    ∃ turns book', run P p turns s book
      = ⟨(s.write t.batch).write o.batch, book', .done t.deltas, .done o.deltas⟩ := by
  obtain ⟨m, hm⟩ := rent_reads (P := P) (p := p) s book .start
  refine ⟨replicate m .rent ++ ([.rent] ++ (replicate (payments.length + 3) .reward ++
    [.rent])), (book.settle book.totalSupply o).burnFees t.collected, ?_⟩
  rw [run, foldl_append, hm, foldl_append]
  simp only [foldl_cons, foldl_nil, step, rent_writes ht hpos]
  rw [foldl_append, reward_runs hpayments ho]
  rfl

end

end Orders

/-! ### The rent task alone -/

section Rent

variable {a : Hash} {t : RentTally}

theorem lamports_afterRent (account : Account) (due : UInt64) :
    (afterRent account due).lamports = account.lamports - min account.lamports due := by
  unfold afterRent
  split_ifs with hle
  · rw [min_eq_left hle, UInt64.sub_self]
  · rw [min_eq_right (le_of_not_ge hle)]
    rfl

/-- What the rent leaves of a balance, seen from the charges. -/
theorem lamports_chargeAt : ((p.chargeAt P s a).or (s.getAccount a)).map Account.lamports =
    (s.getAccount a).map fun account => if a ∈ p.addresses s then
      account.lamports - min account.lamports (p.rentDue P account) else account.lamports := by
  unfold chargeAt
  by_cases ha : a ∈ p.addresses s
  · cases s.getAccount a with
    | none => simp [ha]
    | some account =>
      by_cases hdue : p.rentDue P account = 0
      · simp [ha, hdue]
      · simp [ha, hdue, lamports_afterRent]
  · simp [ha]

/-- The rent is not more than there is. -/
theorem rentTotal_le : p.rentTotal P (s.accountsAt (p.addresses s)) ≤
    ((s.accountsAt s.accountIndex.keys.ascending).map fun q => q.2.lamports.toNat).sum := by
  have hsub : (s.accountsAt (p.addresses s)).Sublist (s.accountsAt s.accountIndex.keys.ascending) :=
    filter_sublist.filterMap _
  refine le_trans (sum_le_sum fun q _ => ?_) ((hsub.map _).sum_le_sum (by simp))
  exact le_iff_toNat_le.mp (min_le_left _ _)

/-- Where nothing is to be collected, nobody has to pay. -/
theorem min_eq_zero_of_rentTotal {account : Account}
    (h : p.rentTotal P (s.accountsAt (p.addresses s)) = 0) (ha : a ∈ p.addresses s)
    (haccount : s.getAccount a = some account) :
    min account.lamports (p.rentDue P account) = 0 :=
  UInt64.toNat_inj.mp (sum_eq_zero_iff.mp h _ (mem_map.mpr
    ⟨(a, account), mem_accountsAt.mpr ⟨ha, haccount⟩, rfl⟩))

/-- Of as many epochs in a row as there are partitions, one looks at the address. -/
theorem existsUnique_epoch (p : BoundaryParams) (ha : a ∈ s.accountIndex) :
    ∃! k, k < rentPartitions ∧
      a ∈ addresses { p with epoch := p.epoch + UInt64.ofNat k } s := by
  generalize hbyte : (a.asBytes.headD 0).toNat = byte
  have hmem : ∀ k, k < rentPartitions →
      (a ∈ addresses { p with epoch := p.epoch + UInt64.ofNat k } s ↔
        byte % 4096 = (p.epoch.toNat + k) % 4096) := by
    intro k hk
    simp only [addresses, mem_filter, Finset.mem_ascending, Finmap.mem_keys, ha,
      true_and, decide_eq_true_eq, rentPartitions, UInt64.toNat_add, UInt64.toNat_ofNat', hbyte]
    omega
  have hlt : (byte + (4096 - p.epoch.toNat % 4096)) % 4096 < rentPartitions :=
    mod_lt _ (by decide)
  refine ⟨_, ⟨hlt, (hmem _ hlt).mpr (by omega)⟩, fun k ⟨hk, hka⟩ => ?_⟩
  have heq := (hmem k hk).mp hka
  unfold rentPartitions at hk
  omega

/-- **Rent.**  Where all lamports together have a `u64`, a rent task that does not stop takes from each
account of the partition the rent it owes or all it has, from no other account anything, and burns what
it took; of as many epochs in a row as there are partitions, one looks at an indexed account. -/
theorem rent_is_balanced
    (htotal : ((s.accountsAt s.accountIndex.keys.ascending).map fun q =>
      q.2.lamports.toNat).sum < 2 ^ 64) (ht : p.rentOf P s = .ok t) :
    (∃ m b, run P p (List.replicate m .rent) s book = b ∧ b.rent = .done t.deltas ∧
      (∀ a, (b.storage.getAccount a).map Account.lamports = (s.getAccount a).map fun account =>
        if a ∈ p.addresses s then account.lamports - min account.lamports (p.rentDue P account)
        else account.lamports) ∧
      (p.rentTotal P (s.accountsAt (p.addresses s)) ≤ book.totalSupply.toNat →
        b.book.totalSupply.toNat + p.rentTotal P (s.accountsAt (p.addresses s)) =
          book.totalSupply.toNat)) ∧
      ∀ a ∈ s.accountIndex, ∃! k, k < rentPartitions ∧
        a ∈ BoundaryParams.addresses { p with epoch := p.epoch + UInt64.ofNat k } s := by
  refine ⟨?_, fun a ha => existsUnique_epoch p ha⟩
  obtain ⟨m, hm⟩ := rent_reads (P := P) (p := p) s book .start
  have hcollected := collectRent_eq_ok ht
  have hsum := hcollected.collected
  rw [Nat.mod_eq_of_lt ((rentTotal_le).trans_lt htotal)] at hsum
  by_cases hpos : 0 < t.collected
  · refine ⟨m + 2, ⟨s.write t.batch, book.burnFees t.collected, .done t.deltas, .start⟩, ?_, rfl,
      fun a => ?_, fun hsupply => ?_⟩
    · rw [run, replicate_add, foldl_append, hm]
      simp only [replicate, foldl_cons, foldl_nil, step, rent_writes ht hpos]
      rfl
    · rw [hcollected.overlays.getAccount, hcollected.deltas, lookup_charges]
      exact lamports_chargeAt
    · rw [StakeBook.burnFees, toNat_saturatingSub, hsum]
      omega
  · have hzero : p.rentTotal P (s.accountsAt (p.addresses s)) = 0 := by
      rw [lt_iff_toNat_lt, hsum] at hpos
      exact Nat.eq_zero_of_not_pos hpos
    refine ⟨m + 1, ⟨s, book, .done t.deltas, .start⟩, ?_, rfl, fun a => ?_, fun _ => by rw [hzero]; rfl⟩
    · rw [run, replicate_add, foldl_append, hm]
      have ht' : collectRent P p.rent p.epochSchedule p.slot (s.accountsAt (p.addresses s)) = .ok t := ht
      simp only [replicate, foldl_cons, foldl_nil, step, stepRent, ht', if_neg hpos]
    · cases haccount : s.getAccount a with
      | none => rfl
      | some account =>
        by_cases ha : a ∈ p.addresses s
        · simp [ha, min_eq_zero_of_rentTotal hzero ha haccount]
        · simp [ha]

end Rent

/-! ### One after the other gives two results at most -/

/-- However many turns a task gets, its end is the same. -/
theorem foldl_replicate_unique {w : Worker} {m m' : ℕ} {b : Boundary}
    (h : step P p ((replicate m w).foldl (step P p) b) w
      = (replicate m w).foldl (step P p) b)
    (h' : step P p ((replicate m' w).foldl (step P p) b) w
      = (replicate m' w).foldl (step P p) b) :
    (replicate m w).foldl (step P p) b = (replicate m' w).foldl (step P p) b := by
  have hstay : ∀ (b : Boundary) (j : ℕ), step P p b w = b →
      (replicate j w).foldl (step P p) b = b := by
    intro b j hb
    induction j with
    | zero => rfl
    | succ j ih => rw [replicate_succ, foldl_cons, hb, ih]
  rcases Nat.le_total m m' with hle | hle
  · obtain ⟨j, rfl⟩ := Nat.exists_eq_add_of_le hle
    rw [replicate_add, foldl_append, hstay _ j h]
  · obtain ⟨j, rfl⟩ := Nat.exists_eq_add_of_le hle
    rw [replicate_add, foldl_append, hstay _ j h']

theorem rent_done_stays (h : b.rent = .done deltas) :
    step P p b .rent = b := by simp only [step, stepRent, h]

theorem reward_done_stays (h : b.reward = .done deltas) :
    step P p b .reward = b := by simp only [step, stepReward, h]

/-- There are two serial runs: they end the same if the same task comes first. -/
theorem serial_cases (P : Platform) (p : BoundaryParams) (s : Storage) (book : StakeBook) :
    ∃ rentFirst rewardFirst : Boundary, ∀ serial, Serial serial →
    (run P p serial s book).deltas?.isSome →
      run P p serial s book = rentFirst ∨ run P p serial s book = rewardFirst := by
  let b₀ : Boundary := ⟨s, book, .start, .start⟩
  obtain ⟨m, rentDeltas, hm⟩ := rent_ends (P := P) (p := p) b₀
  obtain ⟨n, rewardDeltas, hn⟩ := reward_ends (P := P) (p := p) b₀
  obtain ⟨n', rewardDeltas', hn'⟩ := reward_ends (P := P) (p := p)
    ((replicate m Worker.rent).foldl (step P p) b₀)
  obtain ⟨m', rentDeltas', hm'⟩ := rent_ends (P := P) (p := p)
    ((replicate n Worker.reward).foldl (step P p) b₀)
  refine ⟨(replicate n' Worker.reward).foldl (step P p)
      ((replicate m Worker.rent).foldl (step P p) b₀),
    (replicate m' Worker.rent).foldl (step P p)
      ((replicate n Worker.reward).foldl (step P p) b₀), fun serial hserial hdone => ?_⟩
  obtain ⟨⟨d, hd⟩, d', hd'⟩ := deltas?_isSome.mp hdone
  obtain ⟨i, j, rfl | rfl⟩ := hserial
  · left
    have hrun : run P p (replicate i .rent ++ replicate j .reward) s book
        = (replicate j Worker.reward).foldl (step P p)
          ((replicate i Worker.rent).foldl (step P p) b₀) := foldl_append
    rw [hrun, foldl_replicate_reward] at hd
    have hfirst := foldl_replicate_unique (rent_done_stays hd) (rent_done_stays hm)
    rw [hrun, hfirst] at hd' ⊢
    exact foldl_replicate_unique (reward_done_stays hd') (reward_done_stays hn')
  · right
    have hrun : run P p (replicate j .reward ++ replicate i .rent) s book
        = (replicate i Worker.rent).foldl (step P p)
          ((replicate j Worker.reward).foldl (step P p) b₀) := foldl_append
    rw [hrun, foldl_replicate_rent] at hd'
    have hfirst := foldl_replicate_unique (reward_done_stays hd') (reward_done_stays hn)
    rw [hrun, hfirst] at hd ⊢
    exact foldl_replicate_unique (rent_done_stays hd) (rent_done_stays hm')

/-! ### An account that owes rent and is paid -/

variable (P p s book) in
/-- An account that is not empty owes rent and gets something, and no sum leaves its type. -/
structure Clash (payments : List Payment) (a : Hash) (account : Account) (l : UInt64) : Prop where
  computed : p.payments P book = some payments
  present : s.getAccount a = some account
  address : a ∈ p.addresses s
  owes : p.rentDue P account ≠ 0
  holds : 0 < account.lamports
  paid : paidTo payments a = some l
  gets : 0 < l
  room : account.lamports.toNat + l.toNat < 2 ^ 64
  rentTotal : p.rentTotal P (s.accountsAt (p.addresses s)) < 2 ^ 64
  rewardTotal : (payments.map fun q => q.lamports.toNat).sum < 2 ^ 64

theorem afterRent_lamports_lt {account : Account} {due : UInt64} (hdue : due ≠ 0)
    (hholds : 0 < account.lamports) : (afterRent account due).lamports < account.lamports := by
  unfold afterRent
  split_ifs with hle
  · exact hholds
  · have hpos : 0 < due.toNat := pos_of_ne_zero fun h => hdue (UInt64.toNat_inj.mp h)
    have hlt := UInt64.lt_iff_toNat_lt.mp (UInt64.not_le.mp hle)
    change account.lamports - due < account.lamports
    rw [UInt64.lt_iff_toNat_lt, UInt64.toNat_sub_of_le _ _ (UInt64.le_of_lt (UInt64.not_le.mp hle))]
    omega

theorem toNat_afterPayment {account : Account} {l : UInt64}
    (h : account.lamports.toNat + l.toNat < 2 ^ 64) :
    (afterPayment account l).lamports.toNat = account.lamports.toNat + l.toNat := by
  change (saturatingAdd account.lamports l).toNat = _
  rw [saturatingAdd, toNat_saturate]
  omega

section

variable {payments : List Payment} {a : Hash} {l : UInt64}

/-- The rent task writes the account, if some rent is owed. -/
theorem Clash.rent {account : Account}
    (h : Clash P p s book payments a account l) : ∃ t, p.rentOf P s = .ok t ∧ 0 < t.collected ∧
      Overlays p.slot t.batch (AccountCache.insertAll ∅ t.deltas) ∧
      (AccountCache.insertAll ∅ t.deltas).lookup a
        = some (afterRent account (p.rentDue P account)) := by
  obtain ⟨ms, hms⟩ := exists_ms_of_owes h.owes
  obtain ⟨t, ht⟩ := collectRent_ok hms h.rentTotal
  have hcollected := collectRent_eq_ok ht
  refine ⟨t, ht, ?_, hcollected.overlays, ?_⟩
  · -- What this account pays is part of what is collected.
    have hmem : (a, account) ∈ s.accountsAt (p.addresses s) :=
      mem_accountsAt.mpr ⟨h.address, h.present⟩
    have hpart : (min account.lamports (p.rentDue P account)).toNat
        ≤ p.rentTotal P (s.accountsAt (p.addresses s)) :=
      single_le_sum (by simp) _ (mem_map.mpr ⟨(a, account), hmem, rfl⟩)
    have hpos : 0 < (min account.lamports (p.rentDue P account)).toNat := by
      rcases min_choice account.lamports (p.rentDue P account) with hmin | hmin
      · rw [hmin]
        exact UInt64.lt_iff_toNat_lt.mp h.holds
      · rw [hmin]
        exact pos_of_ne_zero fun hz => h.owes (UInt64.toNat_inj.mp hz)
    rw [UInt64.lt_iff_toNat_lt, hcollected.collected, mod_eq_of_lt h.rentTotal]
    exact hpos.trans_le hpart
  · rw [hcollected.deltas, lookup_charges]
    exact chargeAt_eq_some.mpr ⟨h.address, account, h.present, h.owes, rfl⟩

/-- The reward task pays the account, over any store that has it. -/
theorem Clash.reward {account account' : Account}
    {s' : Storage} (h : Clash P p s book payments a account l)
    (haccount : s'.getAccount a = some account') :
    ∃ o, payoutOf P s' p.slot (some payments) = some o ∧
      Overlays p.slot o.batch (paidAccounts (some o)) ∧
      (paidAccounts (some o)).lookup a = some (afterPayment account' l) := by
  obtain ⟨o, ho⟩ := payoutOf_isSome P s' p.slot h.rewardTotal
  obtain ⟨hover, hlookup⟩ := payoutOf_eq_some ho
  refine ⟨o, ho, hover, ?_⟩
  rw [hlookup, h.paid, haccount]
  rfl

end

theorem balance_of_getAccount {s : Storage} {a : Hash} {account : Account}
    (h : s.getAccount a = some account) : s.balance a = account.lamports.toNat := by
  rw [Storage.balance, h]
  rfl

/-- **A lost update.**  An account that owes rent and is paid ends with three different balances,
and one task after the other gives two at most. -/
theorem not_serialisable_of_clash {payments : List Payment} {a : Hash} {account : Account}
    {l : UInt64} (h : Clash P p s book payments a account l) : ¬ Serialisable P p s book := by
  intro hserial
  obtain ⟨t, ht, hpos, htover, hcharged⟩ := h.rent
  obtain ⟨o, ho, hoover, hpaid⟩ := h.reward h.present
  have hafter : (s.write t.batch).getAccount a = some (afterRent account (p.rentDue P account)) := by
    rw [htover.getAccount, hcharged]
    rfl
  obtain ⟨o', ho', hoover', hpaid'⟩ := h.reward hafter
  -- The three runs, and the balance of the account after each.
  obtain ⟨turns₁, book₁, hrun₁⟩ := exists_rewardsLast h.computed ho ht hpos
  obtain ⟨turns₂, book₂, hrun₂⟩ := exists_rentLast h.computed ho ht hpos
  obtain ⟨turns₃, book₃, hrun₃⟩ := exists_rewardsAfterRent h.computed ht hpos ho'
  have hlt := UInt64.lt_iff_toNat_lt.mp (afterRent_lamports_lt h.owes h.holds)
  have hgets := UInt64.lt_iff_toNat_lt.mp h.gets
  have hroom := h.room
  have hx₁ : (run P p turns₁ s book).storage.balance a = account.lamports.toNat + l.toNat := by
    have hread : ((s.write t.batch).write o.batch).getAccount a = some (afterPayment account l) := by
      rw [hoover.getAccount, hpaid]
      rfl
    rw [hrun₁, balance_of_getAccount hread, toNat_afterPayment hroom]
  have hx₂ : (run P p turns₂ s book).storage.balance a
      = (afterRent account (p.rentDue P account)).lamports.toNat := by
    have hread : ((s.write o.batch).write t.batch).getAccount a
        = some (afterRent account (p.rentDue P account)) := by
      rw [htover.getAccount, hcharged]
      rfl
    rw [hrun₂, balance_of_getAccount hread]
  have hx₃ : (run P p turns₃ s book).storage.balance a
      = (afterRent account (p.rentDue P account)).lamports.toNat + l.toNat := by
    have hread : ((s.write t.batch).write o'.batch).getAccount a
        = some (afterPayment (afterRent account (p.rentDue P account)) l) := by
      rw [hoover'.getAccount, hpaid']
      rfl
    rw [hrun₃, balance_of_getAccount hread, toNat_afterPayment (by omega)]
  obtain ⟨rentFirst, rewardFirst, hcases⟩ := serial_cases P p s book
  have htwo : ∀ turns, (run P p turns s book).deltas?.isSome →
      (run P p turns s book).storage.balance a = rentFirst.storage.balance a ∨
        (run P p turns s book).storage.balance a = rewardFirst.storage.balance a := by
    intro turns hdone
    obtain ⟨serial, hkind, hdone', hsame⟩ := hserial turns hdone
    rw [hsame a]
    exact (hcases serial hkind hdone').imp (fun h => by rw [h]) fun h => by rw [h]
  have h₁ := htwo turns₁ (by rw [hrun₁]; rfl)
  have h₂ := htwo turns₂ (by rw [hrun₂]; rfl)
  have h₃ := htwo turns₃ (by rw [hrun₃]; rfl)
  rw [hx₁] at h₁
  rw [hx₂] at h₂
  rw [hx₃] at h₃
  simp only [UInt64.toNat_zero] at hgets
  omega

/-- **Rent and rewards are serialisable** where no account that owes rent is paid, and they are not
where an account that is not empty owes rent and gets something. -/
theorem serialisable_and_clash (P : Platform) (p : BoundaryParams) (s : Storage) (book : StakeBook) :
    (Apart P p s book → Serialisable P p s book) ∧
      ∀ payments a account l, Clash P p s book payments a account l →
        ¬ Serialisable P p s book :=
  ⟨serialisable_of_apart, fun _ _ _ _ => not_serialisable_of_clash⟩

end Boundary

/-! ### One stake account -/

namespace Boundary.Sample

/-- The last slot of epoch 1, with the rent of the configuration. -/
def params : BoundaryParams :=
  { rent := Rent.default, epochSchedule := EpochSchedule.new 432000, epoch := 1, slot := 863999
    delegationOrder := ⟨id, fun l => .refl l⟩, partitionOrder := ⟨id, fun l => .refl l⟩ }

/-- A stake account of the partition whose turn it is. -/
def stakeAccount : Hash := repeated 1

/-- A store with the stake account. -/
def store (lamports : UInt64) : Storage :=
  Storage.empty.putAccount stakeAccount 1 (Account.new lamports Hash.zero)

/-- A bank that knows of its delegation, to a vote account that has earned credits. -/
def book : StakeBook :=
  { StakeBook.empty with
    voteAccounts := Finmap.singleton (repeated 2)
      { VoteState.new ⟨repeated 2, repeated 2, repeated 2, 0⟩ with
        epochCredits := [⟨1, 10, 0⟩] }
    stakeDelegations := Finmap.singleton stakeAccount
      ⟨⟨repeated 2, 1000, 0, ofNat (2 ^ 64 - 1), 2500⟩, by decide, by decide⟩
    totalSupply := 1000000 }

end Boundary.Sample

open Boundary Boundary.Sample in
/-- A stake account with 100000 lamports owes 2440 of them and is paid 373. -/
theorem stake_account_loses_an_update :
    ¬ Serialisable (Platform.sample false) params (store 100000) book := by
  obtain ⟨payments, hpayments, account, haccount, l, hl, haddress, howes, hholds, hgets, hroom,
      hrent, hreward⟩ :
      ∃ payments, params.payments .release book = some payments ∧
      ∃ account, (store 100000).getAccount stakeAccount = some account ∧
      ∃ l, paidTo payments stakeAccount = some l ∧
      stakeAccount ∈ params.addresses (store 100000) ∧
      params.rentDue .release account ≠ 0 ∧ 0 < account.lamports ∧ 0 < l ∧
      account.lamports.toNat + l.toNat < 2 ^ 64 ∧
      params.rentTotal .release ((store 100000).accountsAt (params.addresses (store
          100000))) < 2 ^ 64 ∧
      (payments.map fun q => q.lamports.toNat).sum < 2 ^ 64 := by decide +kernel
  exact not_serialisable_of_clash
    ⟨hpayments, haccount, haddress, howes, hholds, hl, hgets, hroom, hrent, hreward⟩

open Boundary Boundary.Sample in
/-- With 10000000 lamports it is exempt. -/
theorem exempt_account_loses_nothing :
    Apart (Platform.sample false) params (store 10000000) book ∧
      Serialisable (Platform.sample false) params (store 10000000) book := by
  have heval : (((params.payments .release book).getD []).all fun q =>
      ((store 10000000).getAccount q.account).all fun account =>
        params.rentDue .release account = 0) = true := by decide +kernel
  have hapart : Apart .release params (store 10000000) book := by
    intro q hq account haccount _
    have hall := all_eq_true.mp heval q hq
    rw [haccount] at hall
    exact of_decide_eq_true hall
  exact ⟨hapart, (serialisable_and_clash .release params (store 10000000) book).1
    hapart⟩

open Boundary Boundary.Sample in
/-- The rent of the account with 100000 lamports. -/
theorem stake_account_pays_rent :
    ∃ m, ((run (Platform.sample false) params (List.replicate m .rent) (store 100000)
      book).storage.getAccount stakeAccount).map Account.lamports = some 97560 := by
  obtain ⟨t, ht, htotal, hrent⟩ : ∃ t, params.rentOf .release (store 100000) = .ok t ∧
      (((store 100000).accountsAt (store 100000).accountIndex.keys.ascending).map fun q =>
        q.2.lamports.toNat).sum < 2 ^ 64 ∧
      (((store 100000).getAccount stakeAccount).map fun account =>
        if stakeAccount ∈ params.addresses (store 100000) then account.lamports -
          min account.lamports (params.rentDue .release account)
        else account.lamports) = some 97560 := by decide +kernel
  obtain ⟨m, _, rfl, -, hafter, -⟩ := (@rent_is_balanced _ _ _ book _ htotal ht).1
  exact ⟨m, (hafter stakeAccount).trans hrent⟩

end Nusantara

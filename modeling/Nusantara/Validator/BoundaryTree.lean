import Nusantara.Validator.Serial
import Nusantara.Validator.StateRoot

/-!
# The state tree after an epoch boundary

After the rent and the rewards the node gives the deltas of both tasks to the state tree, those of
the rent first.  The store has got the two batches in the order in which the tasks came to write, and
it has not got the batch of a rent task that has collected nothing.  So the tree may be out of step
with the store in two ways.

* An account that owes rent and is paid has the rent in the store and the payment in the tree, if the
  rent was written last.
* An account without lamports still owes rent: it is to be closed.  Where nothing else is collected
  the rent task writes nothing, but returns the closed account as a delta.

## Main results

* `treeInStep_and_drift`: for every order of the accesses the root is that of the store if the
  boundary is `Harmless`, and only then, as far as roots tell accounts apart.
-/

namespace Nusantara

open Borsh Exec Storage Word List Finmap Option UInt64 BoundaryParams Nat AccountCache

namespace Boundary

variable (P : Platform) (p : BoundaryParams) (s : Storage) (book : StakeBook) (tree : StateTree)

/-- The root of the tree after both deltas are applied. -/
def rootAfter (rentDeltas rewardDeltas : List (Hash × Account)) : Except Fault Hash := do
  let tree ← tree.update P rentDeltas
  let tree ← tree.update P rewardDeltas
  let (root, _) ← tree.root P
  return root

/-- The root of a tree that is built from the store. -/
def rebuiltRoot : Except Fault Hash := do
  let tree ← StateTree.ofLeaves P (initFromStorage P s)
  let (root, _) ← tree.root P
  return root

/-- Whatever the order of the accesses, the root is that of the store. -/
def TreeInStep : Prop :=
  ∀ turns rentDeltas rewardDeltas,
    (run P p turns s book).deltas? = some (rentDeltas, rewardDeltas) →
    ∃ root, rootAfter P tree rentDeltas rewardDeltas = .ok root ∧
      rebuiltRoot P (run P p turns s book).storage = .ok root

/-- What the rent of the partition comes to. -/
def rentToCollect : ℕ := p.rentTotal P (s.accountsAt (p.addresses s))

/-- Neither the rent nor the payments leave their type, also where the payments come first. -/
structure Fits : Prop where
  rent : rentToCollect P p s < 2 ^ 64
  rewards : (((p.payments P book).getD []).map fun q => q.lamports.toNat).sum < 2 ^ 64
  rentAfter : ∀ o, payoutOf P s p.slot (p.payments P book) = some o →
    rentToCollect P p (s.write o.batch) < 2 ^ 64

/-- Neither the order of the writes nor a write that is left out can be told.  If there is rent to
collect, an account that owes rent and is paid is empty and gets nothing.  If there is none, it gets
nothing or owes nothing after the payment, and what owes rent and is not paid has no data. -/
def Harmless : Prop :=
  ∀ a account, a ∈ p.addresses s → s.getAccount a = some account → p.rentDue P account ≠ 0 →
    (∀ l, paidTo ((p.payments P book).getD []) a = some l →
      (0 < rentToCollect P p s → account.isEmpty ∧ l = 0) ∧
      (rentToCollect P p s = 0 → l = 0 ∨ p.rentDue P (afterPayment account l) = 0)) ∧
    (paidTo ((p.payments P book).getD []) a = none →
      rentToCollect P p s = 0 → account.data = [])

/-- The accounts that the tree stands for after both deltas. -/
def accountAfter (rentDeltas rewardDeltas : List (Hash × Account)) (a : Hash) : Option Account :=
  ((insertAll ∅ rewardDeltas).lookup a).or
    (((insertAll ∅ rentDeltas).lookup a).or (s.getAccount a))

/-- The roots that are compared tell the accounts apart. -/
def RootsBind : Prop :=
  ∀ turns rentDeltas rewardDeltas root,
    (run P p turns s book).deltas? = some (rentDeltas, rewardDeltas) →
    rootAfter P tree rentDeltas rewardDeltas = .ok root →
    rebuiltRoot P (run P p turns s book).storage = .ok root →
    ∀ a, (run P p turns s book).storage.getAccount a = accountAfter s rentDeltas rewardDeltas a

variable {P p s book tree} {b : Boundary} {rentDeltas rewardDeltas : List (Hash × Account)}

/-! ### The roots -/

theorem rebuiltRoot_eq (s : Storage) :
    rebuiltRoot P s = .ok (stateTreeRoot P (initFromStorage P s)) := by
  obtain ⟨t, ht, hvalid, hleaves⟩ := StateTree.valid_ofLeaves (P := P) (initFromStorage P s)
  obtain ⟨t', hroot, -, -⟩ := hvalid.root
  refine exceptBind_eq_ok.mpr ⟨t, ht, exceptBind_eq_ok.mpr ⟨_, hroot, ?_⟩⟩
  rw [hleaves]
  rfl

section

variable (hvalid : tree.Valid P)
  (hleaves : ∀ a, tree.leaves.lookup a = (s.getAccount a).map fun account =>
    accountLeafHash P (a, account))

include hvalid hleaves

/-- The tree after the deltas has the leaves of the accounts that it stands for. -/
theorem rootAfter_eq (rentDeltas rewardDeltas : List (Hash × Account)) :
    ∃ leaves, rootAfter P tree rentDeltas rewardDeltas = .ok (stateTreeRoot P leaves) ∧
      ∀ a, leaves.lookup a = (accountAfter s rentDeltas rewardDeltas a).map fun account =>
        accountLeafHash P (a, account) := by
  obtain ⟨t₁, ht₁, hvalid₁, hleaves₁⟩ := hvalid.update rentDeltas
  obtain ⟨t₂, ht₂, hvalid₂, hleaves₂⟩ := hvalid₁.update rewardDeltas
  obtain ⟨t₃, hroot, -, -⟩ := hvalid₂.root
  refine ⟨t₂.leaves, exceptBind_eq_ok.mpr ⟨t₁, ht₁, exceptBind_eq_ok.mpr ⟨t₂, ht₂,
    exceptBind_eq_ok.mpr ⟨_, hroot, rfl⟩⟩⟩, fun a => ?_⟩
  have hmap := lookup_foldl_insert_map (accountLeafHash P)
  rw [hleaves₂, hmap, hleaves₁, hmap, hleaves]
  unfold accountAfter insertAll
  cases (rewardDeltas.foldl (fun c q => c.insert q.1 q.2) (∅ : AccountCache)).lookup a with
  | some account => rfl
  | none => cases (rentDeltas.foldl (fun c q => c.insert q.1 q.2) (∅ : AccountCache)).lookup a <;> rfl

/-- The tree is in step if the store has the accounts that the tree stands for. -/
theorem treeInStep_of_accounts (h : ∀ turns rentDeltas rewardDeltas,
      (run P p turns s book).deltas? = some (rentDeltas, rewardDeltas) →
      ∀ a, (run P p turns s book).storage.getAccount a = accountAfter s rentDeltas rewardDeltas a) :
    TreeInStep P p s book tree := by
  intro turns rentDeltas rewardDeltas hrun
  obtain ⟨leaves, hroot, hlookup⟩ := rootAfter_eq hvalid hleaves rentDeltas rewardDeltas
  refine ⟨_, hroot, ?_⟩
  have hsame : leaves = initFromStorage P (run P p turns s book).storage := by
    refine ext_lookup fun a => ?_
    rw [hlookup, initFromStorage, lookup_stateTreeOf fun _ => mem_getAllAccounts,
      h turns rentDeltas rewardDeltas hrun a]
  rw [rebuiltRoot_eq, hsame]

end

/-! ### A reward task that nothing disturbs -/

theorem deltas?_eq_some :
    b.deltas? = some (rentDeltas, rewardDeltas) ↔
      b.rent = .done rentDeltas ∧ b.reward = .done rewardDeltas := by
  unfold deltas?
  cases b.rent <;> cases b.reward <;> simp

/-- Once the rent task is done, the rewards are laid over what the store is then. -/
theorem reward_after_rent {turns : List Worker}
    (hrent : b.rent = .done rentDeltas) (hreward : b.reward = .start)
    (hdone : (turns.foldl (step P p) b).reward = .done rewardDeltas) :
    rewardDeltas = Nusantara.rewardDeltas (payoutOf P b.storage p.slot (p.payments P b.book)) ∧
      ∀ a, (turns.foldl (step P p) b).storage.getAccount a
        = ((insertAll ∅ rewardDeltas).lookup a).or (b.storage.getAccount a) := by
  let π : Plan P p b.storage (p.payments P b.book) :=
    { charged := ∅, Deltas := (· = rentDeltas), unseen := fun _ _ => rfl
      agree := fun _ _ _ h => by cases h }
  have hinit : Planned π b := by
    refine ⟨⟨[], rfl, ?_⟩, ?_, ?_⟩
    · rw [hrent, hreward]
      simpa [RentTask.written, RewardTask.written, π] using Overlays.nil
    · rw [hrent]
      exact rfl
    · rw [hreward]
      exact rfl
  have hrun : ∀ n, Planned π ((replicate n Worker.reward).foldl (step P p) b) ∧
      ((replicate n Worker.reward).foldl (step P p) b).rent = .done rentDeltas := by
    intro n
    refine ⟨?_, (foldl_replicate_reward n).trans hrent⟩
    have hsteps : ∀ (n : ℕ) (b : Boundary), Planned π b →
        Planned π ((replicate n Worker.reward).foldl (step P p) b) := by
      intro n
      induction n with
      | zero => exact fun _ h => h
      | succ n ih => exact fun b h => ih _ h.stepReward
    exact hsteps n b hinit
  rw [foldl_of_rent_done hrent] at hdone ⊢
  obtain ⟨hplanned, hrent'⟩ := hrun (turns.count .reward)
  have hdeltas := hplanned.reward
  rw [hdone] at hdeltas
  have hdeltas : rewardDeltas = _ := hdeltas
  refine ⟨hdeltas, fun a => ?_⟩
  rw [hplanned.getAccount hrent' hdone, hdeltas]
  rfl

/-! ### Harmless boundaries -/

variable {a : Hash} {account : Account} {t : RentTally}

/-- What the reward task has paid an account. -/
theorem paid_eq_some_iff (hfits : Fits P p s book) {x : Account} :
    (paidAccounts (payoutOf P s p.slot (p.payments P book))).lookup a = some x ↔
      ∃ l account, paidTo ((p.payments P book).getD []) a = some l ∧
        s.getAccount a = some account ∧ x = afterPayment account l := by
  cases hpayments : p.payments P book with
  | none =>
    have hnone : (paidAccounts (payoutOf P s p.slot none)).lookup a = none := rfl
    simp [hnone, paidTo]
  | some payments =>
    have hsum := hfits.rewards
    rw [hpayments, getD_some] at hsum
    obtain ⟨o, ho⟩ := payoutOf_isSome P s p.slot hsum
    rw [ho, (payoutOf_eq_some ho).2]
    simp only [bind_eq_some_iff, map_eq_some_iff, getD_some]
    constructor
    · rintro ⟨l, hl, account, haccount, rfl⟩
      exact ⟨l, account, hl, haccount, rfl⟩
    · rintro ⟨l, account, hl, haccount, rfl⟩
      exact ⟨l, hl, account, haccount, rfl⟩

/-- An empty account is left alone by the rent and by a payment of nothing. -/
theorem afterRent_of_isEmpty (h : account.isEmpty) (due : UInt64) :
    afterRent account due = account := by
  obtain ⟨hlamports, hdata⟩ := of_decide_eq_true h
  rw [afterRent, if_pos (by rw [hlamports]; exact UInt64.zero_le), ← hlamports, ← hdata]

theorem afterPayment_zero (account : Account) : afterPayment account 0 = account := by
  have hsame : saturatingAdd account.lamports 0 = account.lamports := by
    have hlt := account.lamports.toNat_lt
    rw [← UInt64.toNat_inj, saturatingAdd, toNat_saturate, UInt64.toNat_zero]
    omega
  rw [afterPayment, hsame]
  rfl

theorem collected_pos {t : RentTally} (ht : p.rentOf P s = .ok t) (hfits : rentToCollect P p s < 2 ^ 64)
    (hpos : 0 < rentToCollect P p s) :
    0 < t.collected ∧ Overlays p.slot t.batch (insertAll ∅ t.deltas) := by
  have hcollected := collectRent_eq_ok ht
  refine ⟨?_, hcollected.overlays⟩
  have hsum : p.rentTotal P (s.accountsAt (p.addresses s)) = rentToCollect P p s := rfl
  rw [lt_iff_toNat_lt, hcollected.collected, hsum, mod_eq_of_lt hfits]
  exact hpos

/-- What is collected from a store is written. -/
theorem chargedAccounts_eq (hfits : rentToCollect P p s < 2 ^ 64) (hpos : 0 < rentToCollect P p s) :
    p.chargedAccounts P s = insertAll ∅ (p.rentDeltas P s) := by
  unfold chargedAccounts rentDeltas
  cases hrent : p.rentOf P s with
  | error g => rfl
  | ok t => exact if_pos (collected_pos hrent hfits hpos).1

section Collecting

variable (h : Harmless P p s book) (hfits : Fits P p s book) (hpos : 0 < rentToCollect P p s)

include h hfits hpos in
/-- There is rent to collect: an account that owes rent and is paid is empty, before as after. -/
theorem Harmless.unmoved : Unmoved P p s (p.payments P book) := by
  intro a account paid ha haccount hpaid
  by_cases hdue : p.rentDue P account = 0
  · exact .inl hdue
  · obtain ⟨l, account', hl, haccount', rfl⟩ := (paid_eq_some_iff hfits).mp hpaid
    cases haccount.symm.trans haccount'
    obtain ⟨hempty, rfl⟩ := ((h a account ha haccount hdue).1 l hl).1 hpos
    exact .inr ⟨afterPayment_zero account, afterRent_of_isEmpty hempty _⟩

include h hpos in
theorem Harmless.unseen : ∀ q ∈ (p.payments P book).getD [],
    ((p.chargedAccounts P s).lookup q.account).or (s.getAccount q.account)
      = s.getAccount q.account := by
  intro q hq
  cases hcharged : (p.chargedAccounts P s).lookup q.account with
  | none => rfl
  | some x =>
    obtain ⟨ha, account, haccount, hdue, rfl⟩ := chargeAt_eq_some.mp
      (chargedAccounts_eq_some hcharged)
    obtain ⟨l, hl⟩ := isSome_iff_exists.mp (paidTo_isSome.mpr ⟨q, hq, rfl⟩)
    obtain ⟨hempty, -⟩ := ((h _ account ha haccount hdue).1 l hl).1 hpos
    rw [haccount, afterRent_of_isEmpty hempty]
    rfl

include h hfits hpos in
theorem Harmless.accounts_collecting {turns : List Worker}
    (hrun : (run P p turns s book).deltas? = some (rentDeltas, rewardDeltas)) (a : Hash) :
    (run P p turns s book).storage.getAccount a = accountAfter s rentDeltas rewardDeltas a := by
  obtain ⟨hrent, hreward⟩ := deltas?_eq_some.mp hrun
  have hunmoved := h.unmoved hfits hpos
  have hunseen := h.unseen hpos
  have hcharged := chargedAccounts_eq hfits.rent hpos
  have hinit : Planned (hunmoved.plan hunseen) ⟨s, book, .start, .start⟩ := .init rfl
  rcases planned_or_rentFirst hinit (hunmoved.collects hunseen) rfl turns
    with hplanned | ⟨k, rest, rfl, hfirst⟩
  · have hread := hplanned.getAccount hrent hreward a
    obtain ⟨hrentDeltas, rfl⟩ := hplanned.deltas hrent hreward
    have hrentDeltas : rentDeltas = p.rentDeltas P s := hrentDeltas
    refine hread.trans ?_
    rw [accountAfter, hrentDeltas, ← hcharged]
    rfl
  · obtain ⟨deltas, hdone, hdeltas⟩ := hfirst.rent
    obtain ⟨batch, hbatch, hover⟩ := hfirst.storage
    have hsplit : run P p (replicate k .rent ++ rest) s book
        = rest.foldl (step P p)
          ((replicate k Worker.rent).foldl (step P p) ⟨s, book, .start, .start⟩) :=
      foldl_append
    rw [hsplit] at hrent hreward ⊢
    have hsame : rentDeltas = deltas := by
      rw [foldl_of_rent_done hdone, foldl_replicate_reward, hdone] at hrent
      exact (RentTask.done.inj hrent).symm
    obtain ⟨-, hread⟩ := reward_after_rent hdone hfirst.reward hreward
    have hdeltas : deltas = p.rentDeltas P s := hdeltas
    have hlookup : ∀ c : AccountCache, c = (hunmoved.plan hunseen).charged →
        c.lookup a = (insertAll ∅ rentDeltas).lookup a := by
      rintro c rfl
      rw [hsame, hdeltas, ← hcharged]
      rfl
    rw [hread, hbatch, hover.getAccount, hlookup _ rfl]
    rfl

end Collecting

section Idle

variable (h : Harmless P p s book) (hfits : Fits P p s book) (hzero : rentToCollect P p s = 0)

/-- The rent task writes nothing, and returns nothing that is not paid or as it was. -/
def idlePlan (P : Platform) (p : BoundaryParams) (s : Storage) (book : StakeBook) :
    Plan P p s (p.payments P book) where
  charged := ∅
  Deltas deltas := ∀ q ∈ deltas,
    q.1 ∈ paidAccounts (payoutOf P s p.slot (p.payments P book)) ∨ s.getAccount q.1 = some q.2
  unseen _ _ := rfl
  agree _ _ _ h := by cases h

include hzero in
/-- What owes rent has no lamports. -/
theorem lamports_of_idle {a : Hash} {account : Account} (ha : a ∈ p.addresses s)
    (haccount : s.getAccount a = some account) (hdue : p.rentDue P account ≠ 0) :
    account.lamports = 0 := by
  have hmin := min_eq_zero_of_rentTotal hzero ha haccount
  rcases min_choice account.lamports (p.rentDue P account) with hl | hd
  · exact hl ▸ hmin
  · exact absurd (hd ▸ hmin) hdue

include h hfits hzero in
theorem Harmless.collects_idle : (idlePlan P p s book).Collects := by
  intro accounts hread
  -- Whatever is read, what owes rent has no lamports, and was paid or has no data.
  have hall : ∀ q ∈ accounts, p.rentDue P q.2 ≠ 0 → q.2.lamports = 0 ∧
      (q.1 ∈ paidAccounts (payoutOf P s p.slot (p.payments P book)) ∨
        s.getAccount q.1 = some q.2 ∧ q.2.data = []) := by
    intro q hq hdue
    obtain ⟨q₀, hq₀, hkey, hvalue⟩ := exists_of_forall₂_left hread q hq
    obtain ⟨ha, haccount⟩ := mem_accountsAt.mp hq₀
    rw [← hkey] at ha haccount
    have hold : p.rentDue P q₀.2 ≠ 0 := by
      rcases hvalue with hvalue | hpaid
      · exact hvalue ▸ hdue
      · obtain ⟨l, account, -, haccount', hq2⟩ := (paid_eq_some_iff hfits).mp hpaid
        cases haccount.symm.trans haccount'
        intro hfree
        exact hdue (hq2 ▸ rentDue_afterPayment hfree l)
    have hlamports := lamports_of_idle hzero ha haccount hold
    obtain ⟨hpaid, hunpaid⟩ := h q.1 q₀.2 ha haccount hold
    cases hto : paidTo ((p.payments P book).getD []) q.1 with
    | none =>
      rcases hvalue with hvalue | hlookup
      · rw [hvalue]
        exact ⟨hlamports, .inr ⟨haccount, hunpaid hto hzero⟩⟩
      · obtain ⟨l, account, hl, -, -⟩ := (paid_eq_some_iff hfits).mp hlookup
        rw [hto] at hl
        cases hl
    | some l =>
      have hlookup := (paid_eq_some_iff hfits).mpr ⟨l, q₀.2, hto, haccount, rfl⟩
      refine ⟨?_, .inl (mem_iff.mpr ⟨_, hlookup⟩)⟩
      rcases hvalue with hvalue | hvalue
      · rw [hvalue]
        exact hlamports
      · have hq2 : q.2 = afterPayment q₀.2 l := some.inj (hvalue.symm.trans hlookup)
        rcases (hpaid l hto).2 hzero with rfl | hfree
        · rw [hq2, afterPayment_zero]
          exact hlamports
        · exact absurd (hq2 ▸ hfree) hdue
  cases hcollect : collectRent P p.rent p.epochSchedule p.slot accounts with
  | error g => exact ⟨rfl, fun q hq => by cases hq⟩
  | ok t =>
    have hcollected := collectRent_eq_ok hcollect
    have hnone : p.rentTotal P accounts = 0 := by
      refine sum_eq_zero fun n hn => ?_
      obtain ⟨q, hq, rfl⟩ := mem_map.mp hn
      by_cases hdue : p.rentDue P q.2 = 0
      · rw [hdue, min_eq_right UInt64.zero_le]
        rfl
      · rw [(hall q hq hdue).1, min_eq_left UInt64.zero_le]
        rfl
    have hcount := hcollected.collected
    rw [hnone] at hcount
    refine ⟨fun q hq => ?_, ?_⟩
    · rw [hcollected.deltas] at hq
      obtain ⟨q₀, hq₀, rfl⟩ := mem_map.mp hq
      obtain ⟨hmem, hdue⟩ := mem_filter.mp hq₀
      obtain ⟨hlamports, hpaid | ⟨haccount, hdata⟩⟩ := hall q₀ hmem (by simpa using hdue)
      · exact .inl hpaid
      · have hempty : q₀.2.isEmpty := decide_eq_true ⟨hlamports, hdata⟩
        refine .inr (haccount.trans ?_)
        change some q₀.2 = some (afterRent q₀.2 _)
        rw [afterRent_of_isEmpty hempty]
    · have hnot : ¬ 0 < t.collected := by
        rw [UInt64.lt_iff_toNat_lt, hcount]
        decide
      rw [if_neg hnot]
      rfl

include h hfits hzero in
theorem Harmless.accounts_idle {turns : List Worker}
    (hrun : (run P p turns s book).deltas? = some (rentDeltas, rewardDeltas)) (a : Hash) :
    (run P p turns s book).storage.getAccount a = accountAfter s rentDeltas rewardDeltas a := by
  obtain ⟨hrent, hreward⟩ := deltas?_eq_some.mp hrun
  have hinit : Planned (idlePlan P p s book) ⟨s, book, .start, .start⟩ := .init rfl
  rcases planned_or_rentFirst hinit (h.collects_idle hfits hzero) rfl turns
    with hplanned | ⟨k, rest, rfl, hfirst⟩
  · have hread := hplanned.getAccount hrent hreward a
    obtain ⟨hrentDeltas, rfl⟩ := hplanned.deltas hrent hreward
    refine hread.trans ?_
    rw [accountAfter]
    change (lookup a (paidAccounts _)).or (s.getAccount a)
      = (lookup a (paidAccounts _)).or _
    cases hpaid : (paidAccounts (payoutOf P s p.slot (p.payments P book))).lookup a with
    | some x => rfl
    | none =>
      -- An account that is not paid is returned as it was.
      rw [none_or, none_or]
      cases hdelta : (insertAll ∅ rentDeltas).lookup a with
      | none => rfl
      | some z =>
        rcases hrentDeltas (a, z) (mem_of_lookup_insertAll hdelta) with hmem | hsame
        · exact absurd (mem_iff.mp hmem) (by simp [hpaid])
        · exact hsame
  · exact absurd rfl hfirst.charged

end Idle

/-- The tree is in step after a harmless boundary. -/
theorem treeInStep_of_harmless (hvalid : tree.Valid P)
    (hleaves : ∀ a, tree.leaves.lookup a
      = (s.getAccount a).map fun account => accountLeafHash P (a, account))
    (hfits : Fits P p s book) (h : Harmless P p s book) : TreeInStep P p s book tree := by
  refine treeInStep_of_accounts hvalid hleaves fun turns rentDeltas rewardDeltas hrun => ?_
  rcases Nat.eq_zero_or_pos (rentToCollect P p s) with hzero | hpos
  · exact h.accounts_idle hfits hzero hrun
  · exact h.accounts_collecting hfits hpos hrun

/-! ### Boundaries that are not harmless -/

/-- The rewards are all paid before the rent task begins. -/
theorem exists_rewardsFirst {payments : List Payment} {o : Payout}
    (hpayments : p.payments P book = some payments)
    (ho : payoutOf P s p.slot (some payments) = some o) (ht : p.rentOf P (s.write o.batch) = .ok t)
    (hpos : 0 < t.collected) : ∃ turns book', run P p turns s book
      = ⟨(s.write o.batch).write t.batch, book', .done t.deltas, .done o.deltas⟩ := by
  obtain ⟨m, hm⟩ := rent_reads (P := P) (p := p) (s.write o.batch)
    (book.settle book.totalSupply o) (.done o.deltas)
  refine ⟨replicate (payments.length + 3) .reward ++ (replicate m .rent ++
    [.rent, .rent]), (book.settle book.totalSupply o).burnFees t.collected, ?_⟩
  rw [run, foldl_append, reward_runs hpayments ho, foldl_append, hm]
  simp only [foldl_cons, foldl_nil, step, rent_writes ht hpos]
  rfl

/-- The rent task collects nothing, and is done before the reward task begins. -/
theorem exists_rentIdle (book : StakeBook) (ht : p.rentOf P s = .ok t)
    (hzero : ¬ 0 < t.collected) : ∃ turns rewardDeltas,
      (run P p turns s book).deltas? = some (t.deltas, rewardDeltas) ∧
      rewardDeltas = Nusantara.rewardDeltas (payoutOf P s p.slot (p.payments P book)) ∧
      ∀ a, (run P p turns s book).storage.getAccount a
        = ((insertAll ∅ rewardDeltas).lookup a).or (s.getAccount a) := by
  obtain ⟨m, hm⟩ := rent_reads (P := P) (p := p) s book .start
  have hstep : step P p ⟨s, book, .reading [] (s.accountsAt (p.addresses s)), .start⟩ .rent
      = ⟨s, book, .done t.deltas, .start⟩ := by
    have ht' : collectRent P p.rent p.epochSchedule p.slot (s.accountsAt (p.addresses s)) = .ok t := ht
    simp only [step, stepRent, ht', if_neg hzero]
  obtain ⟨n, rewardDeltas, hn⟩ := reward_ends (P := P) (p := p)
    (⟨s, book, .done t.deltas, .start⟩ : Boundary)
  have hrun : run P p (replicate m .rent ++ .rent :: replicate n .reward) s book
      = (replicate n Worker.reward).foldl (step P p) ⟨s, book, .done t.deltas, .start⟩ := by
    rw [run, foldl_append, hm, foldl_cons, hstep]
  obtain ⟨hdeltas, hread⟩ := reward_after_rent rfl rfl hn
  refine ⟨replicate m .rent ++ .rent :: replicate n .reward, rewardDeltas, ?_, hdeltas, ?_⟩
  · rw [hrun, deltas?_eq_some]
    exact ⟨foldl_replicate_reward n, hn⟩
  · rw [hrun]
    exact hread

/-- The rent that an account changes by is told from a payment. -/
theorem isEmpty_of_afterRent_eq {due l : UInt64} (hdue : due ≠ 0)
    (h : afterRent account due = afterPayment account l) : account.isEmpty ∧ l = 0 := by
  have hlamports : (afterRent account due).lamports = saturatingAdd account.lamports l :=
    congrArg Account.lamports h
  have hmax := account.lamports.toNat_lt
  have hzero : account.lamports = 0 := by
    by_contra hne
    have hpos : 0 < account.lamports := by
      rw [UInt64.lt_iff_toNat_lt]
      exact pos_of_ne_zero fun hz => hne (UInt64.toNat_inj.mp hz)
    have hlt := UInt64.lt_iff_toNat_lt.mp (afterRent_lamports_lt hdue hpos)
    rw [hlamports, saturatingAdd, toNat_saturate] at hlt
    omega
  have hrent : afterRent account due = { account with lamports := 0, data := [] } := by
    rw [afterRent, if_pos (by rw [hzero]; exact UInt64.zero_le)]
  rw [hrent] at h hlamports
  refine ⟨decide_eq_true ⟨hzero, (congrArg Account.data h).symm⟩, ?_⟩
  have hl := congrArg UInt64.toNat hlamports
  rw [saturatingAdd, toNat_saturate, hzero] at hl
  simp only [UInt64.toNat_zero, zero_add] at hl
  have hmax := l.toNat_lt
  exact UInt64.toNat_inj.mp (by rw [UInt64.toNat_zero]; omega)

/-- An account whose rent is collected. -/
theorem lookup_collected (ht : p.rentOf P s = .ok t) (ha : a ∈ p.addresses s)
    (haccount : s.getAccount a = some account) (hdue : p.rentDue P account ≠ 0) :
    (insertAll ∅ t.deltas).lookup a = some (afterRent account (p.rentDue P account)) := by
  rw [(collectRent_eq_ok ht).deltas, lookup_charges]
  exact chargeAt_eq_some.mpr ⟨ha, account, haccount, hdue, rfl⟩

theorem harmless_of_accounts (hfits : Fits P p s book)
    (h : ∀ turns rentDeltas rewardDeltas,
      (run P p turns s book).deltas? = some (rentDeltas, rewardDeltas) →
      ∀ a, (run P p turns s book).storage.getAccount a = accountAfter s rentDeltas rewardDeltas a) :
    Harmless P p s book := by
  intro a account ha haccount hdue
  obtain ⟨ms, hms⟩ := exists_ms_of_owes hdue
  obtain ⟨t, ht⟩ := collectRent_ok hms hfits.rent
  refine ⟨fun l hl => ?_, fun hnone hzero => ?_⟩
  · -- There are payments, and they are made.
    obtain ⟨payments, hpayments⟩ : ∃ payments, p.payments P book = some payments := by
      cases hpayments : p.payments P book with
      | none => simp [hpayments, paidTo] at hl
      | some payments => exact ⟨payments, rfl⟩
    have hpaid := (paid_eq_some_iff hfits).mpr ⟨l, account, hl, haccount, rfl⟩
    have hsum := hfits.rewards
    rw [hpayments, getD_some] at hsum
    obtain ⟨o, ho⟩ := payoutOf_isSome P s p.slot hsum
    have hafter := hfits.rentAfter o (by rw [hpayments]; exact ho)
    rw [hpayments, ho] at hpaid
    have hover := (payoutOf_eq_some ho).1
    have htree : ∀ deltas, accountAfter s deltas o.deltas a = some (afterPayment account l) := by
      intro deltas
      unfold accountAfter
      rw [show insertAll ∅ o.deltas = paidAccounts (some o) from rfl, hpaid]
      rfl
    constructor
    · -- The rent is written last, and the tree has the payment.
      intro hpos
      obtain ⟨hcollected, htover⟩ := collected_pos ht hfits.rent hpos
      obtain ⟨turns, book', hrun⟩ := exists_rentLast hpayments ho ht hcollected
      have hsame := h turns t.deltas o.deltas (by rw [hrun]; rfl) a
      rw [hrun] at hsame
      have hstore : ((s.write o.batch).write t.batch).getAccount a
          = some (afterRent account (p.rentDue P account)) := by
        rw [htover.getAccount, lookup_collected ht ha haccount hdue]
        rfl
      rw [hstore, htree] at hsame
      exact isEmpty_of_afterRent_eq hdue (some.inj hsame)
    · -- The rent comes after the payment, and the tree has the payment.
      intro hzero
      by_contra hno
      rw [not_or] at hno
      obtain ⟨hne, howes⟩ := hno
      have hread : (s.write o.batch).getAccount a = some (afterPayment account l) := by
        rw [hover.getAccount, hpaid]
        rfl
      have haddress : a ∈ p.addresses (s.write o.batch) := by
        obtain ⟨slot, hslot, -⟩ := bind_eq_some_iff.mp hread
        refine mem_filter.mpr ⟨?_, (mem_filter.mp ha).2⟩
        exact Finset.mem_ascending.mpr (mem_keys.mpr (mem_iff.mpr ⟨slot, hslot⟩))
      obtain ⟨t', ht'⟩ := collectRent_ok hms hafter
      have hlamports := lamports_of_idle hzero ha haccount hdue
      have hnow : (afterPayment account l).lamports = l := by
        change saturatingAdd account.lamports l = l
        have hmax := l.toNat_lt
        rw [← UInt64.toNat_inj, saturatingAdd, toNat_saturate, hlamports, UInt64.toNat_zero]
        omega
      have hpos : 0 < rentToCollect P p (s.write o.batch) := by
        by_contra hnot
        have hidle := lamports_of_idle (Nat.eq_zero_of_not_pos hnot) haddress hread howes
        exact hne (hnow ▸ hidle)
      obtain ⟨hcollected, htover⟩ := collected_pos ht' hafter hpos
      obtain ⟨turns, book', hrun⟩ := exists_rewardsFirst hpayments ho ht' hcollected
      have hsame := h turns t'.deltas o.deltas (by rw [hrun]; rfl) a
      rw [hrun] at hsame
      have hstore : ((s.write o.batch).write t'.batch).getAccount a
          = some (afterRent (afterPayment account l) (p.rentDue P (afterPayment account l))) := by
        rw [htover.getAccount, lookup_collected ht' haddress hread howes]
        rfl
      rw [hstore, htree] at hsame
      have hempty := (isEmpty_of_afterRent_eq howes
        ((some.inj hsame).trans (afterPayment_zero _).symm)).1
      exact hne (hnow ▸ (of_decide_eq_true hempty).1)
  · -- Nothing is written, but the account is returned without its data.
    have hnot : ¬ 0 < t.collected := by
      have hsum : p.rentTotal P (s.accountsAt (p.addresses s)) = rentToCollect P p s := rfl
      rw [UInt64.lt_iff_toNat_lt, (collectRent_eq_ok ht).collected, hsum, hzero]
      decide
    obtain ⟨turns, rewardDeltas, hrun, hdeltas, hread⟩ := exists_rentIdle book ht hnot
    have hunpaid : (insertAll ∅ rewardDeltas).lookup a = none := by
      rw [hdeltas]
      change (paidAccounts (payoutOf P s p.slot (p.payments P book))).lookup a = none
      rw [eq_none_iff_forall_ne_some]
      intro x hx
      obtain ⟨l, account, hl, -, -⟩ := (paid_eq_some_iff hfits).mp hx
      rw [hnone] at hl
      cases hl
    have hsame := h turns t.deltas rewardDeltas hrun a
    have hcharge := lookup_collected ht ha haccount hdue
    rw [hread, accountAfter, hunpaid, hcharge, haccount] at hsame
    have hlamports := lamports_of_idle hzero ha haccount hdue
    have haccount' : account = afterRent account (p.rentDue P account) := some.inj hsame
    rw [haccount', afterRent, if_pos (by rw [hlamports]; exact UInt64.zero_le)]

/-- **The state tree at an epoch boundary.**  Where no sum leaves its type, the root is that of the
store, for every order of the accesses, if the boundary is harmless.  As far as roots tell the
accounts apart, it is only then. -/
theorem treeInStep_and_drift (tree : StateTree) (hvalid : tree.Valid P)
    (hleaves : ∀ a, tree.leaves.lookup a
      = (s.getAccount a).map fun account => accountLeafHash P (a, account)) :
    (Fits P p s book → Harmless P p s book → TreeInStep P p s book tree) ∧
      (Fits P p s book → RootsBind P p s book tree → TreeInStep P p s book tree →
        Harmless P p s book) := by
  refine ⟨treeInStep_of_harmless hvalid hleaves, fun hfits hbind hstep => ?_⟩
  refine harmless_of_accounts hfits fun turns rentDeltas rewardDeltas hrun => ?_
  obtain ⟨root, hroot, hroot'⟩ := hstep turns rentDeltas rewardDeltas hrun
  exact hbind turns rentDeltas rewardDeltas root hrun hroot hroot'

end Boundary

/-! ### One stake account, rent written last -/

namespace Boundary.Sample

/-- A digest that depends on all bytes. -/
def checksum (bytes : List UInt8) : Hash :=
  ⟨leBytes 64 (bytes.foldl (fun n b => (257 * n + b.toNat + 1) % 2 ^ 512) 0), length_leBytes _ _⟩

/-- The platform of the examples, with that digest. -/
def checksumPlatform : Platform :=
  { Platform.sample false with hash := checksum, programIds_nodup := by decide +kernel }

/-- The state tree over a store. -/
def treeOf (s : Storage) : StateTree :=
  ⟨initFromStorage checksumPlatform s, [], 0, true, ∅, ∅⟩

/-- Both tasks read the account, and the rent is written last. -/
def rentLast : List Worker :=
  [.rent, .rent, .reward, .reward, .reward, .reward, .rent, .rent]

end Boundary.Sample

theorem leaves_initFromStorage (P : Platform) (s : Storage) (a : Hash) :
    (initFromStorage P s).lookup a
      = (s.getAccount a).map fun account => accountLeafHash P (a, account) := by
  rw [initFromStorage, lookup_stateTreeOf fun _ => mem_getAllAccounts]

open Boundary Boundary.Sample in
/-- The stake account has paid its rent in the store, and has got its reward in the tree. -/
theorem rent_is_not_in_the_tree :
    (treeOf (store 100000)).Valid checksumPlatform ∧
      (∀ a, (treeOf (store 100000)).leaves.lookup a = ((store 100000).getAccount a).map
        fun account => accountLeafHash checksumPlatform (a, account)) ∧
      ¬ TreeInStep checksumPlatform params (store 100000) book (treeOf (store 100000)) := by
  refine ⟨fun h => absurd h (by decide), leaves_initFromStorage _ _, fun hstep => ?_⟩
  obtain ⟨⟨rentDeltas, rewardDeltas⟩, hrun, hne⟩ :
      ∃ q, (run checksumPlatform params rentLast (store 100000) book).deltas? = some q ∧
      (rootAfter checksumPlatform (treeOf (store 100000)) q.1 q.2).toOption ≠ (rebuiltRoot
          checksumPlatform (run checksumPlatform params rentLast (store 100000)
          book).storage).toOption := by
    decide +kernel
  obtain ⟨root, hroot, hroot'⟩ := hstep rentLast rentDeltas rewardDeltas hrun
  refine hne ?_
  rw [hroot, hroot']

open Boundary Boundary.Sample in
/-- With a stake account that owes no rent the tree stays in step. -/
theorem tree_follows_the_reward :
    TreeInStep checksumPlatform params (store 10000000) book (treeOf (store 10000000)) := by
  obtain ⟨payments, hpayments, o, ho, hafter⟩ :
      ∃ payments, params.payments checksumPlatform book = some payments ∧
      ∃ o, payoutOf checksumPlatform (store 10000000) params.slot (some payments) = some o ∧
      rentToCollect checksumPlatform params ((store 10000000).write o.batch) < 2 ^ 64 := by
    decide +kernel
  have hrent : rentToCollect checksumPlatform params (store 10000000) < 2 ^ 64 := by decide +kernel
  have hrewards : (((params.payments checksumPlatform book).getD []).map
      fun q => q.lamports.toNat).sum < 2 ^ 64 := by decide +kernel
  have hfits : Fits checksumPlatform params (store 10000000) book := by
    refine ⟨hrent, hrewards, fun o' ho' => ?_⟩
    rw [hpayments, ho] at ho'
    exact some.inj ho' ▸ hafter
  have hexempt : (((store 10000000).accountsAt (params.addresses (store 10000000))).all fun q =>
      params.rentDue checksumPlatform q.2 = 0) = true := by decide +kernel
  have hharmless : Boundary.Harmless checksumPlatform params (store 10000000) book := by
    intro a account ha haccount hdue
    have hmem : (a, account) ∈ (store 10000000).accountsAt (params.addresses (store 10000000)) :=
      mem_accountsAt.mpr ⟨ha, haccount⟩
    exact absurd (of_decide_eq_true (all_eq_true.mp hexempt _ hmem)) hdue
  exact (treeInStep_and_drift (treeOf (store 10000000)) (fun h => absurd h (by decide))
    (leaves_initFromStorage _ _)).1 hfits hharmless

end Nusantara

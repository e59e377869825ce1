import Nusantara.Lib.Trace
import Nusantara.Runtime.Executor
import Nusantara.Runtime.World

/-!
# The supply of a token over a run of instructions

The supply of a mint is written by `MintTo` and `Burn` together with a balance, and a transfer moves
what it takes (`runtime/src/processors/token/`).  So the supply stays the sum of all balances, as
long as no balance is overwritten.

The bytes of an account do not say what they are.  `InitializeMint` asks whether they read as a mint
in use, and takes over the token account of anybody; `InitializeAccount` asks whether they read as a
token account in use.  The first bytes of a token account, the addresses of its mint and its owner,
may also read as a mint.

## Main results

* `Mint.deserialize_of_take`: whether bytes read as a mint is settled by the first 128 of them.
* `Token.suppliesMatch_step_iff`: the instructions after which the supplies still match.
* `suppliesMatch_iff`: the runs after whose instructions all supplies match.
-/

namespace Nusantara

open Borsh Exec TransactionContext List Option Codec Function World TokenAccount
open Hash (repeated)

/-! ### Bytes that read as a mint, bytes that read as a token account -/

theorem Mint.fits (m : Mint) : Mint.codec.Fits m := by
  simp [Mint.codec, Codec.iso, Codec.pair, Codec.option, Codec.bool, Codec.u64, Codec.u8,
    Codec.word, Hash.codec, Codec.bytes]

theorem TokenAccount.fits (t : TokenAccount) : codec.Fits t := by
  have hstate : AccountState.codec.Fits t.state := by
    cases t.state <;> exact ⟨_, rfl, (), rfl, trivial⟩
  simpa [codec, iso, pair, option, u64, word,
    Hash.codec, bytes] using hstate

/-- The fields of a mint in front of the freeze authority. -/
def Mint.front (m : Mint) : List UInt8 :=
  (option Hash.codec).enc m.mintAuthority ++
    (leBytes 8 m.supply.toNat ++ (leBytes 1 m.decimals.toNat ++ bool.enc m.isInitialized))

theorem Mint.enc_eq (m : Mint) :
    Mint.codec.enc m = m.front ++ (option Hash.codec).enc m.freezeAuthority := by
  simp [Mint.codec, Mint.front, iso, pair, u64, u8, word]

theorem length_encOption (o : Option Hash) :
    ((option Hash.codec).enc o).length = if o.isSome then 65 else 1 := by
  cases o with
  | none => rfl
  | some h => simp [option, Hash.codec, bytes, h.size_eq, hashBytes]

theorem Mint.length_front (m : Mint) : m.front.length ≤ 75 := by
  simp only [front, length_append, length_encOption, length_leBytes]
  split_ifs <;> simp [Codec.bool]

theorem Mint.length_enc (m : Mint) : (Mint.codec.enc m).length ≤ 140 := by
  have hfront := m.length_front
  rw [Mint.enc_eq, length_append, length_encOption]
  split_ifs <;> omega

/-- The fields of a token account after the mint and the owner. -/
def TokenAccount.back (t : TokenAccount) : List UInt8 :=
  leBytes 8 t.amount.toNat ++ ((option Hash.codec).enc t.delegate ++
    (AccountState.codec.enc t.state ++ (leBytes 8 t.delegatedAmount.toNat ++
      (option Hash.codec).enc t.closeAuthority)))

theorem TokenAccount.enc_eq (t : TokenAccount) :
    codec.enc t = (t.mint.asBytes ++ t.owner.asBytes) ++ t.back := by
  simp [codec, back, iso, pair, u64, word, Hash.codec,
    bytes]

theorem TokenAccount.length_back (t : TokenAccount) : 19 ≤ t.back.length := by
  have hstate : (AccountState.codec.enc t.state).length = 1 := by cases t.state <;> rfl
  simp only [back, length_append, length_leBytes, length_encOption, hstate]
  split_ifs <;> omega

/-- **Whether bytes read as a mint** is settled by the first 128 of them, and so are its supply and
whether it is initialized: only a freeze authority may reach further. -/
theorem Mint.deserialize_of_take {d d' : List UInt8} {m : Mint} (htake : d'.take 128 = d.take 128)
    (hlen : 140 ≤ d'.length) (h : Mint.codec.deserialize d = .ok m) :
    ∃ m', Mint.codec.deserialize d' = .ok m' ∧ m'.supply = m.supply ∧
      m'.isInitialized = m.isInitialized := by
  obtain ⟨-, rest, rfl⟩ := Mint.codec.deserialize_eq_ok.mp h
  have hfront := m.length_front
  -- What the bytes start with within the first 128, the others start with as well.
  have hprefix : ∀ flag : UInt8, m.front ++ [flag] <+: Mint.codec.enc m ++ rest →
      m.front ++ [flag] <+: d' := by
    intro flag hflag
    have hshort : (m.front ++ [flag]).length ≤ 128 := by simp; omega
    have := prefix_take_iff.mpr ⟨hflag, hshort⟩
    rw [← htake] at this
    exact (prefix_take_iff.mp this).1
  cases hfreeze : m.freezeAuthority with
  | none =>
    obtain ⟨rest', rfl⟩ := hprefix 0 (by rw [Mint.enc_eq, hfreeze]; exact prefix_append _ _)
    refine ⟨m, Mint.codec.deserialize_eq_ok.mpr ⟨m.fits, rest', ?_⟩, rfl, rfl⟩
    rw [Mint.enc_eq, hfreeze]
    rfl
  | some h =>
    obtain ⟨rest', rfl⟩ := hprefix 1 (by
      rw [Mint.enc_eq, hfreeze, append_assoc]
      exact (prefix_append_right_inj _).mpr (prefix_append [1] _))
    have hrest : 64 ≤ rest'.length := by
      simp only [length_append, length_singleton] at hlen
      omega
    let freeze : Hash := ⟨rest'.take 64, by simpa [hashBytes] using hrest⟩
    refine ⟨{ m with freezeAuthority := some freeze }, Mint.codec.deserialize_eq_ok.mpr
      ⟨Mint.fits _, rest'.drop 64, ?_⟩, rfl, rfl⟩
    have henc : (option Hash.codec).enc (some freeze) = 1 :: rest'.take 64 := rfl
    rw [Mint.enc_eq, henc, append_assoc, append_assoc, cons_append,
      nil_append, cons_append, take_append_drop]
    rfl

/-- What bytes that read as a token account start with. -/
theorem TokenAccount.take_of_deserialize {d : List UInt8} {t : TokenAccount}
    (h : codec.deserialize d = .ok t) :
    d.take 128 = t.mint.asBytes ++ t.owner.asBytes ∧ 147 ≤ d.length := by
  obtain ⟨-, rest, rfl⟩ := codec.deserialize_eq_ok.mp h
  have hback := t.length_back
  have hlen : (t.mint.asBytes ++ t.owner.asBytes).length = 128 := by
    rw [length_append, t.mint.size_eq, t.owner.size_eq]
    rfl
  rw [enc_eq, append_assoc]
  refine ⟨take_left' hlen, ?_⟩
  rw [length_append, hlen, length_append]
  omega

/-- The bytes of a mint do not read as a token account: they are too few. -/
theorem TokenAccount.deserialize_mint (m : Mint) (t : TokenAccount) :
    codec.deserialize (Mint.codec.enc m) ≠ .ok t := by
  intro h
  have hlong := (take_of_deserialize h).2
  have hshort := m.length_enc
  omega

namespace Token

/-! ### Supplies and balances -/

section Readings

variable (P : Platform)

/-- The supply of an account that is a mint in use. -/
def supplyOf (a : Account) : Option ℕ :=
  if a.owner = P.programId .token then
    ((Mint.codec.deserialize a.data).toOption.filter fun m => m.isInitialized).map
      fun m => m.supply.toNat
  else none

/-- The amount of tokens of a mint that an account holds. -/
def held (mint : Hash) (a : Account) : ℕ :=
  if a.owner = P.programId .token then
    ((codec.deserialize a.data).toOption.filter fun t => t.mint = mint).elim 0
      fun t => t.amount.toNat
  else 0

/-- A token account as `process_initialize_account` writes it. -/
def emptyAccount (mint owner : Hash) : Account :=
  { Account.new 0 (P.programId .token) with
    data := codec.enc (empty mint owner) }

/-- The supply of every mint in use is the sum of the amounts that accounts hold. -/
def SuppliesMatch (w : World) : Prop :=
  ∀ mint supply, supplyOf P (w.account mint) = some supply → w.total (held P mint) = supply

end Readings

variable {P : Platform} {w w' : World} {s s' : TransactionContext} {i j : ℕ} {x y mint : Hash}
  {a b : Account} {t t' : TokenAccount} {m : Mint}

theorem supplyOf_new : supplyOf P (Account.new 0 Hash.zero) = none := by
  rw [supplyOf, if_neg]
  exact (P.programId_ne_zero .token).symm

theorem held_new : held P mint (Account.new 0 Hash.zero) = 0 := by
  rw [held, if_neg]
  exact (P.programId_ne_zero .token).symm

theorem held_of_deserialize (howner : a.owner = P.programId .token)
    (h : codec.deserialize a.data = .ok t) :
    held P mint a = if t.mint = mint then t.amount.toNat else 0 := by
  rw [held, if_pos howner, h]
  by_cases hm : t.mint = mint <;> simp [Except.toOption, filter_some, hm]

theorem held_withToken (howner : a.owner = P.programId .token) (t : TokenAccount) :
    held P mint (a.withData (codec.enc t)) =
      if t.mint = mint then t.amount.toNat else 0 :=
  held_of_deserialize howner (codec.deserialize_enc t.fits)

theorem held_withMint (m : Mint) : held P mint (a.withData (Mint.codec.enc m)) = 0 := by
  unfold held
  split_ifs
  · have hnone : (codec.deserialize (Mint.codec.enc m)).toOption = none := by
      cases h : codec.deserialize (Mint.codec.enc m) with
      | error e => rfl
      | ok t => exact absurd h (deserialize_mint m t)
    rw [Account.withData_data, hnone]
    rfl
  · rfl

theorem supplyOf_of_deserialize (h : Mint.codec.deserialize a.data = .ok m) : supplyOf P a =
    if a.owner = P.programId .token ∧ m.isInitialized then some m.supply.toNat else none := by
  rw [supplyOf, h]
  by_cases howner : a.owner = P.programId .token <;> cases hm : m.isInitialized <;>
    simp [howner, hm, Except.toOption, filter_some]

theorem supplyOf_withMint (m : Mint) : supplyOf P (a.withData (Mint.codec.enc m)) =
    if a.owner = P.programId .token ∧ m.isInitialized then some m.supply.toNat else none :=
  supplyOf_of_deserialize (Mint.codec.deserialize_enc m.fits)

/-- A token account that keeps its mint and owner reads as the same mint, if as any. -/
theorem supplyOf_withToken (h : codec.deserialize a.data = .ok t)
    (hmint : t'.mint = t.mint) (howner : t'.owner = t.owner) :
    supplyOf P (a.withData (codec.enc t')) = supplyOf P a := by
  obtain ⟨htake, hlen⟩ := take_of_deserialize h
  obtain ⟨htake', hlen'⟩ :=
    take_of_deserialize (codec.deserialize_enc t'.fits)
  have hsame : (codec.enc t').take 128 = a.data.take 128 := by
    rw [htake, htake', hmint, howner]
  cases hm : Mint.codec.deserialize a.data with
  | ok m =>
    obtain ⟨m', hm', hsupply, hinit⟩ := Mint.deserialize_of_take hsame (by omega) hm
    rw [supplyOf_of_deserialize hm,
      supplyOf_of_deserialize (a := a.withData (codec.enc t')) hm', hsupply, hinit,
      Account.withData_owner]
  | error e =>
    cases hm' : Mint.codec.deserialize (codec.enc t') with
    | ok m' =>
      obtain ⟨m, hm₁, -⟩ := Mint.deserialize_of_take hsame.symm (by omega) hm'
      rw [hm] at hm₁
      cases hm₁
    | error e' =>
      rw [supplyOf, supplyOf, Account.withData_owner, Account.withData_data, hm, hm']
      rfl

/-- An emptied account holds nothing and is no mint. -/
theorem held_empty : held P mint (a.withData []) = 0 := by
  rw [held, Account.withData_data]
  exact ite_self 0

theorem supplyOf_empty : supplyOf P (a.withData []) = none := by
  rw [supplyOf, Account.withData_data]
  exact ite_self none

theorem held_of_amount_zero (h : codec.deserialize a.data = .ok t)
    (hzero : t.amount = 0) : held P mint a = 0 := by
  by_cases howner : a.owner = P.programId .token
  · rw [held_of_deserialize howner h, hzero]
    exact ite_self 0
  · rw [held, if_neg howner]

/-! ### One account, or two, written anew -/

/-- No tokens of a mint in use are in the account at the address. -/
def HoldsNone (P : Platform) (w : World) (x : Hash) : Prop :=
  ∀ mint, (supplyOf P (w.account mint)).isSome → held P mint (w.account x) = 0

/-- No tokens of another mint in use are in the account at the address. -/
def HoldsNoOther (P : Platform) (w : World) (x : Hash) : Prop :=
  ∀ mint, mint ≠ x → (supplyOf P (w.account mint)).isSome → held P mint (w.account x) = 0

section

variable (hw : SuppliesMatch P w)

include hw

theorem suppliesMatch_puts_iff (h : w.Puts x a w') :
    SuppliesMatch P w' ↔
      (∀ mint, mint ≠ x → (supplyOf P (w.account mint)).isSome →
        held P mint a = held P mint (w.account x)) ∧
      ∀ supply, supplyOf P a = some supply →
        w.total (held P x) + held P x a = supply + held P x (w.account x) := by
  constructor
  · intro hw'
    refine ⟨fun mint hne hsome => ?_, fun supply hsupply => ?_⟩
    · obtain ⟨supply, hsupply⟩ := isSome_iff_exists.mp hsome
      have hbefore := hw mint supply hsupply
      have hafter := hw' mint supply (by rwa [h.account, update_of_ne hne])
      have htotal := h.total (held P mint)
      omega
    · have hafter := hw' x supply (by rwa [h.account, update_self])
      have htotal := h.total (held P x)
      omega
  · rintro ⟨hother, hself⟩ mint supply hsupply
    have htotal := h.total (held P mint)
    by_cases hmint : mint = x
    · subst hmint
      rw [h.account, update_self] at hsupply
      have := hself supply hsupply
      omega
    · rw [h.account, update_of_ne hmint] at hsupply
      have hbefore := hw mint supply hsupply
      have hsame := hother mint hmint (isSome_iff_exists.mpr ⟨supply, hsupply⟩)
      omega

/-- An account that reads as before may be written. -/
theorem SuppliesMatch.puts (h : w.Puts x a w')
    (hheld : ∀ mint, held P mint a = held P mint (w.account x))
    (hsupply : ∀ supply, supplyOf P a = some supply → supplyOf P (w.account x) = some supply) :
    SuppliesMatch P w' := by
  refine (suppliesMatch_puts_iff hw h).mpr ⟨fun mint _ _ => hheld mint, fun supply hs => ?_⟩
  rw [hw x supply (hsupply supply hs), hheld]

/-- A token account of a mint in use that is the mint itself may only keep its amount. -/
theorem suppliesMatch_self_iff
    (h : w.Puts x (a.withData (codec.enc t')) w') (hx : w.account x = a)
    (howner : a.owner = P.programId .token) (ht : codec.deserialize a.data = .ok t)
    (hmint : t.mint = x) (ht' : t'.mint = t.mint) (htowner : t'.owner = t.owner)
    (huse : (supplyOf P a).isSome) : SuppliesMatch P w' ↔ t'.amount = t.amount := by
  obtain ⟨supply, hsupply⟩ := isSome_iff_exists.mp huse
  have htotal := hw x supply (hx ▸ hsupply)
  rw [suppliesMatch_puts_iff hw h, supplyOf_withToken ht ht' htowner, hsupply, htotal, hx]
  simp only [held_withToken howner, held_of_deserialize howner ht, ht', hmint, if_true]
  constructor
  · rintro ⟨-, hself⟩
    have := hself supply rfl
    exact UInt64.toNat_inj.mp (by omega)
  · intro hsame
    refine ⟨fun mint hne _ => ?_, fun supply' hs' => ?_⟩
    · rw [if_neg (Ne.symm hne), if_neg (Ne.symm hne)]
    · cases hs'
      rw [hsame]

/-- An account that holds no tokens is written over another. -/
theorem suppliesMatch_empty_iff (h : w.Puts x a w')
    (hheld : ∀ mint, held P mint a = 0) :
    SuppliesMatch P w' ↔ HoldsNoOther P w x ∧
      ∀ supply, supplyOf P a = some supply →
        w.total (held P x) = supply + held P x (w.account x) := by
  rw [suppliesMatch_puts_iff hw h]
  simp only [hheld, add_zero, HoldsNoOther, eq_comm (a := 0)]

end

/-- **A balance and the supply of its mint change by the same amount.**  The supplies still match iff
the account of the mint did not hold any tokens: they would be gone. -/
theorem suppliesMatch_supply_iff {m' : Mint} (hw : SuppliesMatch P w)
    (h : w.PutsBoth x (a.withData (codec.enc t')) y (b.withData (Mint.codec.enc m')) w')
    (hxy : x ≠ y) (hx : w.account x = a) (hy : w.account y = b)
    (howner : a.owner = P.programId .token) (ht : codec.deserialize a.data = .ok t)
    (hmint : t.mint = y) (hm : Mint.codec.deserialize b.data = .ok m) (ht' : t'.mint = t.mint)
    (htowner : t'.owner = t.owner) (hinit : m'.isInitialized = m.isInitialized)
    (hshift : t'.amount.toNat + m.supply.toNat = t.amount.toNat + m'.supply.toNat) :
    SuppliesMatch P w' ↔ HoldsNone P w y := by
  have htotal := fun mint => h.total (held P mint)
  simp only [hx, hy, held_withToken howner, held_withMint, held_of_deserialize howner ht, ht', hmint,
    add_zero] at htotal
  have hsupply : ∀ mint, mint ≠ y → supplyOf P (w'.account mint) = supplyOf P (w.account mint) := by
    intro mint hne
    rw [h.account, update_of_ne hne]
    by_cases hmx : mint = x
    · rw [hmx, update_self, hx, supplyOf_withToken ht ht' htowner]
    · rw [update_of_ne hmx]
  have hafter : supplyOf P (w'.account y) =
      if b.owner = P.programId .token ∧ m.isInitialized then some m'.supply.toNat else none := by
    rw [h.account, update_self, supplyOf_withMint, hinit]
  have hbefore : supplyOf P (w.account y) =
      if b.owner = P.programId .token ∧ m.isInitialized then some m.supply.toNat else none := by
    rw [hy, supplyOf_of_deserialize hm]
  -- The same accounts are mints in use, and the total of each is short of what the second one held.
  have hstep : ∀ mint, (supplyOf P (w'.account mint)).isSome = (supplyOf P (w.account mint)).isSome ∧
      ∀ supply, supplyOf P (w'.account mint) = some supply →
        (w'.total (held P mint) = supply ↔ held P mint b = 0) := by
    intro mint
    have hsum := htotal mint
    by_cases hmy : mint = y
    · subst hmy
      rw [hafter, hbefore]
      split_ifs with huse
      · refine ⟨rfl, fun supply hs => ?_⟩
        have hold := hw mint _ (hbefore.trans (if_pos huse))
        rw [if_pos rfl, if_pos rfl] at hsum
        cases hs
        omega
      · exact ⟨rfl, fun supply hs => by cases hs⟩
    · refine ⟨by rw [hsupply mint hmy], fun supply hs => ?_⟩
      have hold := hw mint supply ((hsupply mint hmy).symm.trans hs)
      rw [if_neg (Ne.symm hmy), if_neg (Ne.symm hmy)] at hsum
      omega
  constructor
  · intro hw' mint hsome
    rw [← (hstep mint).1] at hsome
    obtain ⟨supply, hs⟩ := isSome_iff_exists.mp hsome
    rw [hy]
    exact ((hstep mint).2 supply hs).mp (hw' mint supply hs)
  · intro hnone mint supply hs
    refine ((hstep mint).2 supply hs).mpr (hy ▸ hnone mint ?_)
    rw [← (hstep mint).1, hs]
    rfl

/-- What one token account loses, another of the same mint gets. -/
theorem SuppliesMatch.move {u u' : TokenAccount} (hw : SuppliesMatch P w)
    (h : w.PutsBoth x (a.withData (codec.enc t')) y
      (b.withData (codec.enc u')) w')
    (hx : w.account x = a) (hy : w.account y = b) (howner : a.owner = P.programId .token)
    (howner' : b.owner = P.programId .token) (ht : codec.deserialize a.data = .ok t)
    (hu : codec.deserialize b.data = .ok u) (hmint : t.mint = u.mint)
    (ht' : t'.mint = t.mint) (htowner : t'.owner = t.owner) (hu' : u'.mint = u.mint)
    (huowner : u'.owner = u.owner)
    (hsum : t'.amount.toNat + u'.amount.toNat = t.amount.toNat + u.amount.toNat) :
    SuppliesMatch P w' := by
  intro mint supply hsupply
  -- No account becomes a mint or changes its supply.
  have hbefore : supplyOf P (w.account mint) = some supply := by
    rw [← hsupply, h.account]
    by_cases hmy : mint = y
    · rw [hmy, update_self, hy, supplyOf_withToken hu hu' huowner]
    · rw [update_of_ne hmy]
      by_cases hmx : mint = x
      · rw [hmx, update_self, hx, supplyOf_withToken ht ht' htowner]
      · rw [update_of_ne hmx]
  have htotal := h.total (held P mint)
  rw [hx, hy, hw mint supply hbefore, held_withToken howner, held_withToken howner',
    held_of_deserialize howner ht, held_of_deserialize howner' hu, ht', hu', hmint] at htotal
  split_ifs at htotal <;> omega

/-! ### The instructions -/

section Instructions

variable {accounts : List UInt8} (hs : (s.accounts.map Prod.fst).Nodup)
  (hw : SuppliesMatch P (w.store s))
include hs hw

/-- A new mint may go over an account without tokens, if no other account has tokens of it. -/
theorem suppliesMatch_initializeMint {decimals : UInt8} {mintAuthority : Hash}
    {freezeAuthority : Option Hash}
    (h : (processInitializeMint P accounts decimals mintAuthority freezeAuthority).run s
      = .ok () s') :
    ∃ i x a, accounts[0]? = some i ∧ s.accounts[i.toNat]? = some (x, a) ∧
      (SuppliesMatch P (w.store s') ↔ HoldsNoOther P (w.store s) x ∧
        (w.store s).total (held P x) = held P x ((w.store s).account x)) := by
  obtain ⟨i, a, hi, ha, -, -, rfl⟩ := processInitializeMint_ok h
  obtain ⟨x, hx⟩ := exists_getElem?_of_account? ha
  let new : Mint := ⟨some mintAuthority, 0, decimals, true, freezeAuthority⟩
  have hheld : ∀ mint, held P mint
      { a with data := Mint.codec.enc new, owner := P.programId .token } = 0 := fun mint =>
    held_withMint (a := { a with owner := P.programId .token }) new
  have hsupply : supplyOf P
      { a with data := Mint.codec.enc new, owner := P.programId .token } = some 0 :=
    (supplyOf_withMint (a := { a with owner := P.programId .token }) new).trans
      (if_pos ⟨rfl, rfl⟩)
  refine ⟨i, x, a, hi, hx, ?_⟩
  rw [suppliesMatch_empty_iff hw (puts_setAccount hs hx) hheld, hsupply]
  simp

/-- A new token account may go over an account without tokens, if it does not read as a mint. -/
theorem suppliesMatch_initializeAccount
    (h : (processInitializeAccount P accounts).run s = .ok () s') :
    ∃ i j k x a mint b owner c, accounts[0]? = some i ∧ accounts[1]? = some j ∧
      accounts[2]? = some k ∧ s.accounts[i.toNat]? = some (x, a) ∧
      s.accounts[j.toNat]? = some (mint, b) ∧ s.accounts[k.toNat]? = some (owner, c) ∧
      (SuppliesMatch P (w.store s') ↔ HoldsNoOther P (w.store s) x ∧
        ∀ supply, supplyOf P (emptyAccount P mint owner) = some supply →
          (w.store s).total (held P x) = supply + held P x ((w.store s).account x)) := by
  obtain ⟨i, j, k, a, mint, owner, hi, hj, hk, ha, ⟨b, hb⟩, ⟨c, hc⟩, -, -, rfl⟩ :=
    processInitializeAccount_ok h
  obtain ⟨x, hx⟩ := exists_getElem?_of_account? ha
  let new : Account :=
    { a with
      data := codec.enc (empty mint owner), owner := P.programId .token }
  have hheld : ∀ mint', held P mint' new = 0 := by
    intro mint'
    refine (held_withToken (a := { a with owner := P.programId .token }) rfl _).trans ?_
    exact ite_self 0
  have hsupply : supplyOf P new = supplyOf P (emptyAccount P mint owner) := rfl
  refine ⟨i, j, k, x, a, mint, b, owner, c, hi, hj, hk, hx, hb, hc, ?_⟩
  rw [suppliesMatch_empty_iff hw (puts_setAccount hs hx) hheld, hsupply]

variable {amount : UInt64}

/-- Tokens may be minted, unless the account of the mint is a token account as well. -/
theorem suppliesMatch_mintTo (h : (processMintTo P accounts amount).run s = .ok () s') :
    ∃ i j x a y b, accounts[0]? = some i ∧ accounts[1]? = some j ∧
      s.accounts[i.toNat]? = some (x, a) ∧ s.accounts[j.toNat]? = some (y, b) ∧
      (SuppliesMatch P (w.store s') ↔
        if x = y then amount = 0 else HoldsNone P (w.store s) x) := by
  obtain ⟨i, j, a, b, mint, dest, supply, balance, hi, hj, hx, hmint, hinit, hb, howner, hdest, -,
    hsupply, hbalance, rfl⟩ := processMintTo_ok h
  obtain ⟨y, hy⟩ := exists_getElem?_of_account? hb
  refine ⟨i, j, dest.mint, a, y, b, hi, hj, hx, hy, ?_⟩
  have hsum := Word.toNat_of_checkedAdd hsupply
  have hsum' := Word.toNat_of_checkedAdd hbalance
  by_cases hij : i.toNat = j.toNat
  · -- The token account is written last, over the mint.
    rw [← hij] at hy ⊢
    obtain ⟨hxy, rfl⟩ := Prod.mk.inj (some.inj (hx.symm.trans hy))
    have huse : supplyOf P a = some mint.supply.toNat := by
      rw [supplyOf_of_deserialize hmint, if_pos ⟨howner, hinit⟩]
    rw [if_pos hxy, setAccount_setAccount]
    have hput : (w.store s).Puts dest.mint
        (a.withData (codec.enc { dest with amount := balance })) _ :=
      puts_setAccount hs hx
    refine (suppliesMatch_self_iff hw hput (account_store hs hx) howner hdest rfl rfl rfl
      (by rw [huse]; rfl)).trans ?_
    constructor
    · intro hsame
      obtain rfl : balance = dest.amount := hsame
      exact UInt64.toNat_inj.mp (by simp; omega)
    · rintro rfl
      exact UInt64.toNat_inj.mp (by simpa using hsum')
  · have hxy : y ≠ dest.mint := by
      rintro rfl
      exact hij (address_inj hs hx hy)
    rw [if_neg hxy.symm]
    refine suppliesMatch_supply_iff hw ((putsBoth_setAccount hs hx hy hij).symm hxy.symm) hxy
      (account_store hs hy) (account_store hs hx) howner hdest rfl hmint rfl rfl rfl ?_
    simp only
    omega

/-- Tokens may be burnt, unless the account of the mint is a token account as well. -/
theorem suppliesMatch_burn (h : (processBurn P accounts amount).run s = .ok () s') :
    ∃ j y b, accounts[1]? = some j ∧ s.accounts[j.toNat]? = some (y, b) ∧
      (SuppliesMatch P (w.store s') ↔ HoldsNone P (w.store s) y) := by
  obtain ⟨i, j, -, a, b, auth, src, src', mint, supply, hi, hj, -, hij, ha, howner, -, hsrc, -, hle,
    htake, hy, hmint, hsupply, rfl⟩ := processBurn_ok h
  obtain ⟨d, rfl, -⟩ := burnSource_ok htake
  obtain ⟨x, hx⟩ := exists_getElem?_of_account? ha
  have hxy : x ≠ src.mint := by
    rintro rfl
    exact hij (address_inj hs hx hy)
  refine ⟨j, src.mint, b, hj, hy, suppliesMatch_supply_iff hw
    (putsBoth_setAccount hs hx hy hij) hxy (account_store hs hx)
    (account_store hs hy) howner hsrc rfl hmint rfl rfl rfl ?_⟩
  have hdiff := Word.toNat_of_checkedSub hsupply
  have hle' := UInt64.le_iff_toNat_le.mp hle
  have hsub := UInt64.toNat_sub_of_le _ _ hle
  simp only
  omega

/-- A transfer moves what it takes. -/
theorem suppliesMatch_transfer
    (h : (processTransfer P accounts amount).run s = .ok () s') : SuppliesMatch P (w.store s') := by
  obtain ⟨i, j, -, a, b, auth, src, src', dest, balance, -, -, -, hij, ha, howner, -, hsrc, htake, hb,
    howner', hdest, -, hmint, hbalance, rfl⟩ := processTransfer_ok h
  obtain ⟨-, hle, d, rfl, -⟩ := transferSource_ok htake
  obtain ⟨x, hx⟩ := exists_getElem?_of_account? ha
  obtain ⟨y, hy⟩ := exists_getElem?_of_account? hb
  have hsum := Word.toNat_of_checkedAdd hbalance
  have hsub := UInt64.toNat_sub_of_le _ _ hle
  have hle' := UInt64.le_iff_toNat_le.mp hle
  refine hw.move (putsBoth_setAccount hs hx hy hij) (account_store hs hx)
    (account_store hs hy) howner howner' hsrc hdest hmint rfl rfl rfl rfl ?_
  simp only
  omega

/-- A token account is written with its mint, owner and amount as before. -/
theorem suppliesMatch_rewrites {i : ℕ} (h : Rewrites P i t t' s s') (hmint : t'.mint = t.mint)
    (htowner : t'.owner = t.owner) (hamount : t'.amount = t.amount) :
    SuppliesMatch P (w.store s') := by
  obtain ⟨a, ha, howner, ht, rfl⟩ := h
  obtain ⟨x, hx⟩ := exists_getElem?_of_account? ha
  refine hw.puts (puts_setAccount hs hx) (fun mint => ?_) fun supply hsupply => ?_
  · rw [account_store hs hx, held_withToken howner, held_of_deserialize howner ht, hmint,
      hamount]
  · rwa [account_store hs hx, ← supplyOf_withToken ht hmint htowner]

/-- A token account is closed without tokens. -/
theorem suppliesMatch_closeAccount (h : (processCloseAccount P accounts).run s = .ok () s') :
    SuppliesMatch P (w.store s') := by
  obtain ⟨i, j, a, b, c, t, total, -, -, -, ht, hamount, hb, -, hc, hsame, rfl⟩ :=
    processCloseAccount_ok h
  obtain ⟨y, hy⟩ := exists_getElem?_of_account? hb
  obtain ⟨x, hx⟩ := exists_getElem?_of_account? hc
  have hs' : ((s.setAccount j.toNat (b.withLamports total)).accounts.map Prod.fst).Nodup := by
    rwa [addresses_setAccount]
  -- The lamports are paid out first, whatever account they go to.
  have hpaid : SuppliesMatch P (w.store (s.setAccount j.toNat (b.withLamports total))) := by
    refine hw.puts (puts_setAccount hs hy) (fun mint => ?_) fun supply hsupply => ?_
    · rw [account_store hs hy]
      rfl
    · rw [account_store hs hy]
      exact hsupply
  have hdata : c.data = a.data := by simpa using congrArg Account.data hsame
  refine hpaid.puts (puts_setAccount hs' hx) (fun mint => ?_) fun supply hsupply => ?_
  · rw [held_empty, account_store hs' hx, held_of_amount_zero (hdata ▸ ht) hamount]
  · rw [supplyOf_empty] at hsupply
    cases hsupply

end Instructions

/-! ### Runs -/

/-- An instruction for the token program with the context it runs in. -/
structure TokenCall where
  accounts : List UInt8
  data : List UInt8
  context : TransactionContext

/-- The address that an instruction names at a position of its account list. -/
def TokenCall.address (c : TokenCall) (k : ℕ) : Option Hash := do
  let i ← c.accounts[k]?
  let q ← c.context.accounts[i.toNat]?
  return q.1

theorem address_of_context {c : TokenCall} {s : TransactionContext} {a : Account} {i : UInt8}
    {k : ℕ} {x : Hash} (hs : s.accounts = c.context.accounts) (hi : c.accounts[k]? = some i)
    (hx : s.accounts[i.toNat]? = some (x, a)) : c.address k = some x := by
  simp [TokenCall.address, hi, ← hs, hx]

/-- The instruction succeeds on accounts of the first world, and the second one is what it leaves. -/
def TokenStep (P : Platform) (w : World) (c : TokenCall) (w' : World) : Prop :=
  w.Loads c.context ∧
    ∃ s', (processToken P c.accounts c.data).run c.context = .ok () s' ∧ w' = w.store s'

/-- What an instruction asks for to keep the supplies.  A mint is written only over an account
without tokens, and no other account has tokens of it; a token account is written only over one
without tokens, and if its first bytes read as a mint, the other accounts have that many tokens of it;
tokens are minted and burnt only where the account of the mint is not also a token account with
tokens. -/
def KeepsSupply (P : Platform) (w : World) (c : TokenCall) : TokenInstruction → Prop
  | .initializeMint _ _ _ => ∀ x, c.address 0 = some x →
      HoldsNoOther P w x ∧ w.total (held P x) = held P x (w.account x)
  | .initializeAccount => ∀ x, c.address 0 = some x → ∀ mint, c.address 1 = some mint →
      ∀ owner, c.address 2 = some owner → HoldsNoOther P w x ∧
        ∀ supply, supplyOf P (emptyAccount P mint owner) = some supply →
          w.total (held P x) = supply + held P x (w.account x)
  | .mintTo amount => ∀ x, c.address 0 = some x → ∀ y, c.address 1 = some y →
      if x = y then amount = 0 else HoldsNone P w x
  | .burn _ => ∀ y, c.address 1 = some y → HoldsNone P w y
  | _ => True

theorem suppliesMatch_store (h : w.Loads s) : SuppliesMatch P (w.store s) ↔ SuppliesMatch P w := by
  simp only [SuppliesMatch, h.account_store, h.total_store held_new]

theorem keepsSupply_store {c : TokenCall} {instruction : TokenInstruction} (h : w.Loads s) :
    KeepsSupply P (w.store s) c instruction ↔ KeepsSupply P w c instruction := by
  cases instruction <;>
    simp only [KeepsSupply, HoldsNone, HoldsNoOther, h.account_store, h.total_store held_new]

/-- **The instructions after which the supplies still match.** -/
theorem suppliesMatch_step_iff {c : TokenCall} (hw : SuppliesMatch P w) (h : TokenStep P w c w') :
    SuppliesMatch P w' ↔ ∀ instruction, TokenInstruction.codec.tryFromSlice c.data = .ok instruction →
      KeepsSupply P w c instruction := by
  obtain ⟨hload, s', hrun, rfl⟩ := h
  obtain ⟨instruction, s, hread, hacc, hrun⟩ := processToken_ok hrun
  have hone : (∀ instruction', TokenInstruction.codec.tryFromSlice c.data = .ok instruction' →
      KeepsSupply P w c instruction') ↔ KeepsSupply P w c instruction :=
    ⟨fun hall => hall instruction hread, fun h _ hread' =>
      Except.ok.inj (hread.symm.trans hread') ▸ h⟩
  have hload : w.Loads s := ⟨hacc ▸ hload.nodup, hacc ▸ hload.loaded⟩
  have haddress {k i x a} := @address_of_context c s a i k x hacc
  have hnodup := hload.nodup
  rw [← suppliesMatch_store hload] at hw
  rw [hone, ← keepsSupply_store hload]
  cases instruction with
  | initializeMint decimals mintAuthority freezeAuthority =>
    obtain ⟨i, x, a, hi, hx, hiff⟩ := suppliesMatch_initializeMint hnodup hw hrun
    simpa only [KeepsSupply, haddress hi hx, some.injEq, forall_eq'] using hiff
  | initializeAccount =>
    obtain ⟨i, j, k, x, a, mint, b, owner, d, hi, hj, hk, hx, hb, hd, hiff⟩ :=
      suppliesMatch_initializeAccount hnodup hw hrun
    simpa only [KeepsSupply, haddress hi hx, haddress hj hb, haddress hk hd, some.injEq,
      forall_eq'] using hiff
  | mintTo amount =>
    obtain ⟨i, j, x, a, y, b, hi, hj, hx, hy, hiff⟩ := suppliesMatch_mintTo hnodup hw hrun
    simpa only [KeepsSupply, haddress hi hx, haddress hj hy, some.injEq, forall_eq'] using hiff
  | burn amount =>
    obtain ⟨j, y, b, hj, hy, hiff⟩ := suppliesMatch_burn hnodup hw hrun
    simpa only [KeepsSupply, haddress hj hy, some.injEq, forall_eq'] using hiff
  | transfer amount => exact iff_of_true (suppliesMatch_transfer hnodup hw hrun) trivial
  | closeAccount => exact iff_of_true (suppliesMatch_closeAccount hnodup hw hrun) trivial
  | approve amount =>
    obtain ⟨i, delegate, old, -, -, hrewrite⟩ := processApprove_ok hrun
    exact iff_of_true (suppliesMatch_rewrites hnodup hw hrewrite rfl rfl rfl) trivial
  | revoke =>
    obtain ⟨i, old, -, -, hrewrite⟩ := processRevoke_ok hrun
    exact iff_of_true (suppliesMatch_rewrites hnodup hw hrewrite rfl rfl rfl) trivial
  | freezeAccount =>
    obtain ⟨i, a, old, -, -, -, hrewrite⟩ := processFreezeAccount_ok hrun
    exact iff_of_true (suppliesMatch_rewrites hnodup hw hrewrite rfl rfl rfl) trivial
  | thawAccount =>
    obtain ⟨i, old, -, hrewrite⟩ := processThawAccount_ok hrun
    exact iff_of_true (suppliesMatch_rewrites hnodup hw hrewrite rfl rfl rfl) trivial

end Token

open Token

/-- **Token supplies along a run.**  From a state in which the supply of every mint in use is the sum
of the tokens of it, the supplies match after every instruction of a run iff each instruction meets
`KeepsSupply`. -/
theorem suppliesMatch_iff {P : Platform} {w w' : World} {calls : List TokenCall}
    (hw : SuppliesMatch P w) :
    Trace.Steps (fun w c w' => TokenStep P w c w' ∧ SuppliesMatch P w') w calls w' ↔
      Trace.Steps (fun w c w' => TokenStep P w c w' ∧
        ∀ instruction, TokenInstruction.codec.tryFromSlice c.data = .ok instruction →
          KeepsSupply P w c instruction) w calls w' :=
  Trace.Steps.and_iff (I := SuppliesMatch P) (fun _ _ _ _ _ hmatch => hmatch)
    (fun _ _ _ hw h => suppliesMatch_step_iff hw h) hw

/-! ### Tokens to evaluate on -/

namespace Sample

/-- The signer's address, the mint's and the token account's. -/
def tokenAddresses (signer : Hash) : List Hash := [signer, repeated 7, repeated 8]

/-- An instruction with the accounts at the addresses, signed by the first of them. -/
def tokenCall (w : World) (addresses : List Hash) (instruction : TokenInstruction)
    (accounts : List UInt8) : TokenCall where
  accounts
  data := TokenInstruction.codec.enc instruction
  context := TransactionContext.new (addresses.map fun x => (x, w.account x))
    (transaction 1 0 addresses []).message 1000 10000

/-- The accounts after the instruction, if it succeeds. -/
def tokenWorld (w : World) (q : List Hash × TokenInstruction × List UInt8) : Option World :=
  if q.1.Nodup then
    let c := tokenCall w q.1 q.2.1 q.2.2
    ((processToken (Platform.sample false) c.accounts c.data).run c.context).okState.map w.store
  else none

theorem tokenStep_of_tokenWorld {w w' : World} {q : List Hash × TokenInstruction × List UInt8}
    (h : tokenWorld w q = some w') :
    TokenStep .release w (tokenCall w q.1 q.2.1 q.2.2) w' := by
  simp only [tokenWorld] at h
  split_ifs at h with hnodup
  obtain ⟨s', hs', hw'⟩ := map_eq_some_iff.mp h
  obtain ⟨_, hrun⟩ := Outcome.okState_eq_some.mp hs'
  refine ⟨⟨?_, ?_⟩, s', hrun, hw'.symm⟩
  · simpa [tokenCall, TransactionContext.new, comp_def] using hnodup
  · intro p hp
    obtain ⟨x, -, rfl⟩ := mem_map.mp hp
    rfl

/-- The owner makes a mint and a token account and mints 100 tokens. -/
def mintTokens : List (List Hash × TokenInstruction × List UInt8) :=
  [(tokenAddresses (repeated 5), .initializeMint 0 (repeated 5) none, [1]),
    (tokenAddresses (repeated 5), .initializeAccount, [2, 1, 0]),
    (tokenAddresses (repeated 5), .mintTo 100, [1, 2, 0])]

theorem account_empty (x : Hash) : account ∅ x = Account.new 0 Hash.zero := by
  simp [account]

theorem suppliesMatch_empty {P : Platform} : SuppliesMatch P ∅ := by
  intro mint supply h
  rw [account_empty, supplyOf_new] at h
  cases h

end Sample

open Sample in
/-- Somebody else makes the owner's token account a mint: the tokens in it are gone, and their mint
still counts them. -/
theorem mint_over_balance :
    SuppliesMatch (Platform.sample false) ∅ ∧
      ∃ calls w, Trace.Steps (TokenStep (Platform.sample false)) ∅ calls w ∧
        ¬ SuppliesMatch (Platform.sample false) w := by
  obtain ⟨w, hw, hsupply, htotal⟩ :
      ∃ w, foldlM tokenWorld ∅ (mintTokens ++ [(tokenAddresses (repeated 9),
          .initializeMint 0 (repeated 9) none, [2])]) = some w ∧
      supplyOf .release (w.account (repeated 7)) = some 100 ∧
      w.total (held .release (repeated 7)) = 0 := by decide +kernel
  obtain ⟨calls, hsteps⟩ :=
    Trace.Steps.exists_of_foldlM (fun _ _ _ h => ⟨_, tokenStep_of_tokenWorld h⟩) hw
  refine ⟨suppliesMatch_empty, calls, w, hsteps, fun hmatch => ?_⟩
  have := hmatch _ _ hsupply
  rw [htotal] at this
  cases this

open Sample in
/-- A mint is made where there was no account. -/
theorem mint_of_nothing :
    ∃ calls w, Trace.Steps (fun w c w' => TokenStep (Platform.sample false) w c w' ∧
      SuppliesMatch (Platform.sample false) w') ∅ calls w ∧ calls.length = 1 := by
  have hsome : (tokenWorld ∅
      (tokenAddresses (repeated 5), .initializeMint 0 (repeated 5) none, [1])).isSome
        = true := by
    decide +kernel
  obtain ⟨w, hw⟩ := isSome_iff_exists.mp hsome
  refine ⟨_, w, (suppliesMatch_iff suppliesMatch_empty).mpr
    (.cons ⟨tokenStep_of_tokenWorld hw, fun instruction hread => ?_⟩ (.nil w)), rfl⟩
  have hdecode : TokenInstruction.codec.tryFromSlice
      (tokenCall ∅ (tokenAddresses (repeated 5))
        (.initializeMint 0 (repeated 5) none) [1]).data
        = .ok (.initializeMint 0 (repeated 5) none) := by
    decide +kernel
  cases hdecode.symm.trans hread
  intro x _
  refine ⟨fun mint _ hmint => ?_, ?_⟩
  · rw [account_empty, supplyOf_new] at hmint
    cases hmint
  · rw [account_empty, held_new]
    rfl

end Nusantara

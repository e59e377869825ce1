import Nusantara.Processors.TokenSupply

/-!
# One token account over a run of instructions

What the instructions of the token program make of the account at one address, in every role in which
they can name it (`runtime/src/processors/token/`).

A frozen token account is out of reach of transfers, approvals and new tokens.  But `Burn` and
`CloseAccount` do not ask whether the account is frozen, and `InitializeMint`, `MintTo` and `Burn` write
a mint over it, as they do not ask what else the account of a mint may be.

A delegate spends by `Transfer` and by `Burn`, which use up what was approved in different ways; in
between the account may be closed, made anew, or overwritten.

## Main results

* `Token.becomes_of_tokenStep`: what a successful instruction makes of the account at an address.
* `frozen_iff`: the runs that leave a frozen token account as it is.
* `delegate_spending_le`: a delegate spends at most what was approved.
-/

namespace Nusantara

open Borsh Exec TransactionContext List Option Function World TokenAccount
open Hash (repeated)

/-- The instruction that the data of a call encode. -/
def Token.TokenCall.instruction? (c : TokenCall) : Option TokenInstruction :=
  (TokenInstruction.codec.tryFromSlice c.data).toOption

theorem TokenInstruction.written_pos (instruction : TokenInstruction) : 0 < instruction.written := by
  cases instruction <;> exact Nat.succ_pos _

namespace Token

variable {P : Platform} {w w' : World} {s s' : TransactionContext} {c : TokenCall} {t : Hash}
  {instruction : TokenInstruction}

/-! ### What an instruction makes of one account -/

/-- What a successful instruction makes of the account `a` at the address `t`, by the role in which it
names the address. -/
inductive Becomes (P : Platform) (t : Hash) (c : TokenCall) (a : Account) :
    TokenInstruction → Account → Prop
  | untouched {instruction : TokenInstruction}
      (hrole : ∀ k < instruction.written, c.address k ≠ some t) : Becomes P t c a instruction a
  | madeMint {decimals : UInt8} {mintAuthority : Hash} {freezeAuthority : Option Hash} (mint : Mint)
      (hrole : c.address 0 = some t) :
      Becomes P t c a (.initializeMint decimals mintAuthority freezeAuthority)
        { a with data := Mint.codec.enc mint, owner := P.programId .token }
  | opened (mint owner : Hash) (hdata : holdsTokenAccount a.data = false) :
      Becomes P t c a .initializeAccount
        { a with
          data := codec.enc (empty mint owner)
          owner := P.programId .token }
  | supplied {amount : UInt64} (mint : Mint) (hrole : c.address 0 = some t) :
      Becomes P t c a (.mintTo amount) (a.withData (Mint.codec.enc mint))
  | minted {amount : UInt64} {dest : TokenAccount} (balance : UInt64)
      (hread : codec.deserialize a.data = .ok dest) (hstate : dest.state ≠ .frozen) :
      Becomes P t c a (.mintTo amount)
        (a.withData (codec.enc { dest with amount := balance }))
  | sent {amount : UInt64} {auth : Hash} {src src' : TokenAccount}
      (hread : codec.deserialize a.data = .ok src) (hauth : c.address 2 = some auth)
      (htake : transferSource auth amount src = .ok src') :
      Becomes P t c a (.transfer amount)
        (a.withData (codec.enc { src' with amount := src'.amount - amount }))
  | received {amount : UInt64} {dest : TokenAccount} (balance : UInt64)
      (hother : c.address 0 ≠ some t) (hread : codec.deserialize a.data = .ok dest)
      (hstate : dest.state ≠ .frozen) :
      Becomes P t c a (.transfer amount)
        (a.withData (codec.enc { dest with amount := balance }))
  | approved {amount : UInt64} {old : TokenAccount} (delegate : Hash)
      (hrole : c.address 0 = some t) (hread : codec.deserialize a.data = .ok old)
      (hstate : old.state ≠ .frozen) :
      Becomes P t c a (.approve amount) (a.withData
        (codec.enc { old with delegate := some delegate, delegatedAmount := amount }))
  | revoked {old : TokenAccount} (hrole : c.address 0 = some t)
      (hread : codec.deserialize a.data = .ok old) (hstate : old.state ≠ .frozen) :
      Becomes P t c a .revoke (a.withData
        (codec.enc { old with delegate := none, delegatedAmount := 0 }))
  | burnt {amount : UInt64} {auth : Hash} {src src' : TokenAccount}
      (hrole : c.address 0 = some t) (hother : c.address 1 ≠ some t)
      (hread : codec.deserialize a.data = .ok src) (hauth : c.address 2 = some auth)
      (hallowed : src.owner = auth ∨ src.delegate = some auth) (hle : amount ≤ src.amount)
      (htake : burnSource auth amount src = .ok src') :
      Becomes P t c a (.burn amount) (a.withData (codec.enc src'))
  | burntFrom {amount : UInt64} (mint : Mint) (hrole : c.address 1 = some t)
      (hother : c.address 0 ≠ some t) :
      Becomes P t c a (.burn amount) (a.withData (Mint.codec.enc mint))
  | closed (hrole : c.address 0 = some t) :
      Becomes P t c a .closeAccount ((a.withLamports 0).withData [])
  | paid (lamports : UInt64) (hother : c.address 0 ≠ some t) :
      Becomes P t c a .closeAccount (a.withLamports lamports)
  | frozen {old : TokenAccount} (hrole : c.address 0 = some t)
      (hdata : a.data = codec.enc old) :
      Becomes P t c a .freezeAccount
        (a.withData (codec.enc { old with state := .frozen }))
  | thawed {old : TokenAccount} (hrole : c.address 0 = some t)
      (hread : codec.deserialize a.data = .ok old) :
      Becomes P t c a .thawAccount
        (a.withData (codec.enc { old with state := .initialized }))

section Writes

variable {i j k l : ℕ} {x y : Hash} {a b a' b' : Account}

section

variable (hs : (s.accounts.map Prod.fst).Nodup) (hx : s.accounts[i]? = some (x, a))

include hs hx

/-- An instruction that writes one account. -/
theorem becomes_of_setAccount (hzero : c.address 0 = some x)
    (hwritten : instruction.written = 1) (h : t = x → Becomes P t c a instruction a') :
    Becomes P t c ((w.store s).account t) instruction ((w.store (s.setAccount i a')).account t) := by
  rw [account_store_setAccount hs hx]
  by_cases htx : t = x
  · subst htx
    rw [update_self, account_store hs hx]
    exact h rfl
  · rw [update_of_ne htx]
    refine .untouched fun m hm => ?_
    obtain rfl : m = 0 := by omega
    rw [hzero]
    simpa using Ne.symm htx

/-- An instruction that writes two accounts, perhaps the same one twice. -/
theorem becomes_of_setAccount_setAccount (hy : s.accounts[j]? = some (y, b))
    (hk : c.address k = some x) (hl : c.address l = some y)
    (hwritten : instruction.written = 2) (hkl : k + l = 1)
    (hfirst : t = x → t ≠ y → Becomes P t c a instruction a')
    (hlast : t = y → Becomes P t c b instruction b') :
    Becomes P t c ((w.store s).account t) instruction
      ((w.store ((s.setAccount i a').setAccount j b')).account t) := by
  have hs' : ((s.setAccount i a').accounts.map Prod.fst).Nodup := by rwa [addresses_setAccount]
  rw [account_store_setAccount hs' (getElem?_setAccount hy),
    account_store_setAccount hs hx]
  by_cases hty : t = y
  · subst hty
    rw [update_self, account_store hs hy]
    exact hlast rfl
  rw [update_of_ne hty]
  by_cases htx : t = x
  · subst htx
    rw [update_self, account_store hs hx]
    exact hfirst rfl hty
  · rw [update_of_ne htx]
    refine .untouched fun m hm => ?_
    obtain rfl | rfl : m = k ∨ m = l := by omega
    · rw [hk]
      simpa using Ne.symm htx
    · rw [hl]
      simpa using Ne.symm hty

end

/-- An instruction that writes a token account anew. -/
theorem becomes_of_rewrites {i : UInt8} {old new : TokenAccount}
    (hs : (s.accounts.map Prod.fst).Nodup) (hacc : s.accounts = c.context.accounts)
    (hi : c.accounts[0]? = some i) (hwritten : instruction.written = 1)
    (hrewrite : Rewrites P i.toNat old new s s')
    (h : ∀ a, s.account? i.toNat = some a → codec.deserialize a.data = .ok old →
      c.address 0 = some t → Becomes P t c a instruction (a.withData (codec.enc new))) :
    Becomes P t c ((w.store s).account t) instruction ((w.store s').account t) := by
  obtain ⟨a, ha, -, hread, rfl⟩ := hrewrite
  obtain ⟨x, hx⟩ := exists_getElem?_of_account? ha
  have hzero := address_of_context hacc hi hx
  exact becomes_of_setAccount hs hx hzero hwritten fun htx => h a ha hread (htx ▸ hzero)

end Writes

/-- **What a successful instruction makes of the account at an address**, in whichever role it names
the address. -/
theorem becomes_of_tokenStep (h : TokenStep P w c w') (t : Hash) :
    ∃ instruction, c.instruction? = some instruction ∧
      Becomes P t c (w.account t) instruction (w'.account t) := by
  obtain ⟨hload, s', hrun, rfl⟩ := h
  obtain ⟨instruction, s, hread, hacc, hrun⟩ := processToken_ok hrun
  have hload : w.Loads s := ⟨hacc ▸ hload.nodup, hacc ▸ hload.loaded⟩
  refine ⟨instruction, by rw [TokenCall.instruction?, hread]; rfl, ?_⟩
  have hnodup := hload.nodup
  rw [← hload.account_store]
  cases instruction with
  | initializeMint decimals mintAuthority freezeAuthority =>
    obtain ⟨i, a, hi, ha, -, -, rfl⟩ := processInitializeMint_ok hrun
    obtain ⟨x, hx⟩ := exists_getElem?_of_account? ha
    have hzero := address_of_context hacc hi hx
    refine becomes_of_setAccount hnodup hx hzero rfl fun htx => ?_
    exact .madeMint _ (htx ▸ hzero)
  | initializeAccount =>
    obtain ⟨i, -, -, a, mint, owner, hi, -, -, ha, -, -, -, hdata, rfl⟩ :=
      processInitializeAccount_ok hrun
    obtain ⟨x, hx⟩ := exists_getElem?_of_account? ha
    exact becomes_of_setAccount hnodup hx (address_of_context hacc hi hx)
      rfl fun _ => .opened mint owner hdata
  | mintTo amount =>
    obtain ⟨i, j, a, b, mint, dest, supply, balance, hi, hj, hx, -, -, hb, -, hdest, hstate, -, -,
      rfl⟩ := processMintTo_ok hrun
    obtain ⟨y, hy⟩ := exists_getElem?_of_account? hb
    have hzero := address_of_context hacc hi hx
    exact becomes_of_setAccount_setAccount hnodup hx hy hzero (address_of_context hacc hj hy)
      rfl rfl (fun htx _ => .supplied _ (htx ▸ hzero))
      fun _ => .minted balance hdest hstate
  | transfer amount =>
    obtain ⟨i, j, k, a, b, auth, src, src', dest, balance, hi, hj, hk, hij, ha, -, ⟨d, hd⟩, hsrc,
      htake, hb, -, hdest, hstate, -, -, rfl⟩ := processTransfer_ok hrun
    obtain ⟨x, hx⟩ := exists_getElem?_of_account? ha
    obtain ⟨y, hy⟩ := exists_getElem?_of_account? hb
    have hzero := address_of_context hacc hi hx
    refine becomes_of_setAccount_setAccount hnodup hx hy hzero (address_of_context hacc hj hy)
      rfl rfl
      (fun _ _ => .sent hsrc (address_of_context hacc hk hd) htake) fun hty => ?_
    refine .received balance (fun h => ?_) hdest hstate
    cases hzero.symm.trans h
    exact hij (address_inj hnodup hx (hty ▸ hy))
  | approve amount =>
    obtain ⟨i, delegate, old, hi, hstate, hrewrite⟩ := processApprove_ok hrun
    exact becomes_of_rewrites hnodup hacc hi rfl hrewrite
      fun a _ hold hzero => .approved delegate hzero hold hstate
  | revoke =>
    obtain ⟨i, old, hi, hstate, hrewrite⟩ := processRevoke_ok hrun
    exact becomes_of_rewrites hnodup hacc hi rfl hrewrite
      fun a _ hold hzero => .revoked hzero hold hstate
  | burn amount =>
    obtain ⟨i, j, k, a, b, auth, src, src', mint, supply, hi, hj, hk, hij, ha, -, ⟨d, hd⟩, hsrc,
      hallowed, hle, htake, hy, -, -, rfl⟩ := processBurn_ok hrun
    obtain ⟨x, hx⟩ := exists_getElem?_of_account? ha
    have hzero := address_of_context hacc hi hx
    have hone := address_of_context hacc hj hy
    refine becomes_of_setAccount_setAccount hnodup hx hy hzero hone
      rfl rfl (fun htx hty => ?_) fun hty => ?_
    · refine .burnt (htx ▸ hzero) ?_ hsrc (address_of_context hacc hk hd) hallowed hle htake
      simpa [hone] using Ne.symm hty
    · refine .burntFrom _ (hty ▸ hone) fun h => ?_
      cases hzero.symm.trans h
      exact hij (address_inj hnodup hx (hty ▸ hy))
  | closeAccount =>
    obtain ⟨i, j, a, b, d, token, total, hi, hj, ha, -, -, hb, -, -, hsame, rfl⟩ :=
      processCloseAccount_ok hrun
    obtain ⟨x, hx⟩ := exists_getElem?_of_account? ha
    obtain ⟨y, hy⟩ := exists_getElem?_of_account? hb
    have hzero := address_of_context hacc hi hx
    -- The account is written last, so it is empty even where it is paid its own lamports.
    rw [hsame]
    refine becomes_of_setAccount_setAccount hnodup hy hx (address_of_context hacc hj hy) hzero
      rfl rfl (fun _ htx => .paid total ?_)
      fun htx => .closed (htx ▸ hzero)
    simpa [hzero] using Ne.symm htx
  | freezeAccount =>
    obtain ⟨i, a, old, hi, ha, hdata, hrewrite⟩ := processFreezeAccount_ok hrun
    refine becomes_of_rewrites hnodup hacc hi rfl hrewrite
      fun a' ha' _ hzero => ?_
    cases ha.symm.trans ha'
    exact .frozen hzero hdata
  | thawAccount =>
    obtain ⟨i, old, hi, hrewrite⟩ := processThawAccount_ok hrun
    exact becomes_of_rewrites hnodup hacc hi rfl hrewrite
      fun a _ hold hzero => .thawed hzero hold

/-! ### Frozen token accounts -/

/-- What an instruction asks for to leave a frozen token account as it is: that it does not make it a
mint, use it as one, close it, or burn tokens from it. -/
def SparesFrozen (t : Hash) (c : TokenCall) : TokenInstruction → Prop
  | .initializeMint .. | .mintTo _ | .closeAccount => c.address 0 ≠ some t
  | .burn amount => (c.address 0 = some t → amount = 0) ∧ c.address 1 ≠ some t
  | _ => True

variable {token : TokenAccount} {auth : Hash}

theorem enc_token_inj {token' : TokenAccount}
    (h : codec.enc token = codec.enc token') : token = token' := by
  have hread := codec.deserialize_enc token.fits
  rw [h, codec.deserialize_enc token'.fits] at hread
  exact (Except.ok.inj hread).symm

theorem enc_mint_ne_enc_token (m : Mint) (token : TokenAccount) :
    Mint.codec.enc m ≠ codec.enc token := fun h =>
  deserialize_mint m token (h ▸ codec.deserialize_enc token.fits)

theorem enc_token_ne_nil (token : TokenAccount) : codec.enc token ≠ [] := fun h => by
  have hlen := (take_of_deserialize (codec.deserialize_enc token.fits)).2
  rw [h] at hlen
  simp at hlen

/-- **The instructions that leave a frozen token account as it is**, if they do not thaw it. -/
theorem data_eq_iff_sparesFrozen {a a' : Account}
    (h : Becomes P t c a instruction a') (hdata : a.data = TokenAccount.codec.enc token)
    (hfrozen : token.state = .frozen)
    (hthaw : instruction = .thawAccount → c.address 0 ≠ some t) :
    a'.data = TokenAccount.codec.enc token ↔ SparesFrozen t c instruction := by
  -- Whatever reads the account as a token account reads this one.
  have hread : ∀ {token'}, TokenAccount.codec.deserialize a.data = .ok token' → token' = token := by
    intro token' h
    rw [hdata, TokenAccount.codec.deserialize_enc token.fits] at h
    exact (Except.ok.inj h).symm
  cases h with
  | untouched hrole =>
    refine iff_of_true hdata ?_
    have hzero := hrole 0 instruction.written_pos
    cases instruction with
    | burn amount => exact ⟨fun h => absurd h hzero, hrole 1 Nat.one_lt_two⟩
    | initializeMint | mintTo | closeAccount => exact hzero
    | _ => exact trivial
  | madeMint mint hrole | supplied mint hrole =>
    exact iff_of_false (enc_mint_ne_enc_token mint token) fun h => h hrole
  | opened mint owner hholds =>
    simp [holdsTokenAccount, hdata, TokenAccount.codec.deserialize_enc token.fits, hfrozen,
      enc_token_ne_nil] at hholds
  | minted balance hdest hstate | received balance hother hdest hstate =>
    exact absurd (hread hdest ▸ hfrozen) hstate
  | sent hsrc hauth htake =>
    exact absurd (hread hsrc ▸ hfrozen) (transferSource_ok htake).1
  | approved delegate hrole hold hstate | revoked hrole hold hstate =>
    exact absurd (hread hold ▸ hfrozen) hstate
  | @burnt amount auth src src' hrole hother hsrc hauth hallowed hle htake =>
    obtain rfl := hread hsrc
    obtain ⟨d, rfl, hd⟩ := burnSource_ok htake
    refine Iff.trans ?_ ⟨fun hzero => ⟨fun _ => hzero, hother⟩, fun h => h.1 hrole⟩
    rw [Account.withData_data]
    constructor
    · intro h
      have hamount : src.amount - amount = src.amount :=
        congrArg TokenAccount.amount (enc_token_inj h)
      have hsub := UInt64.toNat_sub_of_le _ _ hle
      rw [hamount] at hsub
      have hle' := UInt64.le_iff_toNat_le.mp hle
      exact UInt64.toNat_inj.mp (by simp; omega)
    · rintro rfl
      have hsame : d = src.delegatedAmount := by
        obtain ⟨rfl, -⟩ | ⟨-, rfl⟩ := hd <;> simp
      rw [hsame, UInt64.sub_zero]
  | burntFrom mint hrole hother =>
    exact iff_of_false (enc_mint_ne_enc_token mint token) fun h => h.2 hrole
  | closed hrole => exact iff_of_false (enc_token_ne_nil token).symm fun h => h hrole
  | paid lamports hother => exact iff_of_true hdata hother
  | frozen hrole hold =>
    obtain rfl := enc_token_inj (hdata.symm.trans hold)
    refine iff_of_true ?_ trivial
    rw [Account.withData_data, ← hfrozen]
  | thawed hrole hold => exact absurd hrole (hthaw rfl)

/-- A successful instruction that does not thaw the account. -/
def ThawlessStep (P : Platform) (t : Hash) (w : World) (c : TokenCall) (w' : World) : Prop :=
  TokenStep P w c w' ∧ (c.instruction? = some .thawAccount → c.address 0 ≠ some t)

/-! ### Delegates -/

/-- The amount that an instruction moves out of the token account it names first. -/
def amountMoved : TokenInstruction → ℕ
  | .transfer amount | .burn amount => amount.toNat
  | _ => 0

/-- The amount that an instruction approves for a delegate. -/
def amountApproved : TokenInstruction → Option ℕ
  | .approve amount => some amount.toNat
  | .revoke => some 0
  | _ => none

/-- `Approve` or `Revoke` on the account. -/
def SetsDelegate (t : Hash) (c : TokenCall) : Prop :=
  c.address 0 = some t ∧ ∃ amount, c.instruction?.bind amountApproved = some amount

/-- Whether the authority of a transfer or burn is the delegate of the account and not its owner. -/
def signedByDelegate (a : Account) (c : TokenCall) : Bool :=
  (codec.deserialize a.data).toOption.any fun token =>
    (c.address 2).any fun auth => token.delegate = some auth && token.owner ≠ auth

/-- What an instruction moves out of the account at the address on the signature of its delegate. -/
def movedByDelegate (t : Hash) (w : World) (c : TokenCall) : ℕ :=
  if c.address 0 = some t ∧ signedByDelegate (w.account t) c then
    c.instruction?.elim 0 amountMoved
  else 0

/-- What is left of the amount approved for the delegate of the token account that bytes hold. -/
def delegated (data : List UInt8) : ℕ :=
  (codec.deserialize data).toOption.elim 0 fun token => token.delegatedAmount.toNat

theorem delegated_of_deserialize {data : List UInt8} (h : codec.deserialize data = .ok token) :
    delegated data = token.delegatedAmount.toNat := by
  rw [delegated, h]
  rfl

@[simp] theorem delegated_enc (token : TokenAccount) :
    delegated (codec.enc token) = token.delegatedAmount.toNat :=
  delegated_of_deserialize (codec.deserialize_enc token.fits)

@[simp] theorem delegated_enc_mint (m : Mint) : delegated (Mint.codec.enc m) = 0 := by
  rw [delegated]
  cases hread : codec.deserialize (Mint.codec.enc m) with
  | error e => rfl
  | ok token => exact absurd hread (deserialize_mint m token)

/-- Where the authority is the owner or uses up its allowance, the allowance covers what is moved on
the delegate's signature. -/
theorem moved_add_le {a : Account} {src : TokenAccount} {amount d : UInt64}
    (hsrc : codec.deserialize a.data = .ok src) (hauth : c.address 2 = some auth)
    (hd : d = src.delegatedAmount ∧ (src.owner = auth ∨ src.delegate ≠ some auth) ∨
      amount ≤ src.delegatedAmount ∧ d = src.delegatedAmount - amount) :
    (if c.address 0 = some t ∧ signedByDelegate a c then amount.toNat else 0) + d.toNat ≤
      src.delegatedAmount.toNat := by
  obtain ⟨rfl, hnot⟩ | ⟨hle, rfl⟩ := hd
  · rw [if_neg, zero_add]
    rintro ⟨-, hsigned⟩
    simp [signedByDelegate, hsrc, hauth, Except.toOption] at hsigned
    exact hnot.elim hsigned.2 fun h => h hsigned.1
  · rw [UInt64.toNat_sub_of_le _ _ hle]
    have hle' := UInt64.le_iff_toNat_le.mp hle
    split_ifs <;> omega

@[simp] theorem delegated_nil : delegated [] = 0 := rfl

/-- **What is moved on the delegate's signature is taken from what was approved**, by every
instruction but `Approve` and `Revoke`. -/
theorem moved_add_delegated_le (h : TokenStep P w c w') (hset : ¬SetsDelegate t c) :
    movedByDelegate t w c + delegated (w'.account t).data ≤ delegated (w.account t).data := by
  obtain ⟨instruction, hread, hbecomes⟩ := becomes_of_tokenStep h t
  have hset : ∀ amount, amountApproved instruction = some amount → c.address 0 ≠ some t := by
    intro amount hamount hrole
    exact hset ⟨hrole, amount, by rw [hread]; exact hamount⟩
  -- Only a transfer or a burn from the account moves anything.
  have hmoved : movedByDelegate t w c =
      if c.address 0 = some t ∧ signedByDelegate (w.account t) c then amountMoved instruction
      else 0 := by
    rw [movedByDelegate, hread]
    rfl
  rw [hmoved]
  clear hmoved hread h
  generalize w.account t = a at hbecomes ⊢
  generalize w'.account t = a' at hbecomes ⊢
  cases hbecomes with
  | untouched hrole =>
    rw [if_neg fun h => hrole 0 instruction.written_pos h.1]
    omega
  | madeMint mint | supplied mint | closed | paid lamports => simp [amountMoved]
  | opened mint owner => simp [amountMoved, empty]
  | minted balance hdest => simp [delegated_of_deserialize hdest, amountMoved]
  | sent hsrc hauth htake =>
    obtain ⟨-, -, d, rfl, hd⟩ := transferSource_ok htake
    rw [Account.withData_data, delegated_enc, delegated_of_deserialize hsrc]
    exact moved_add_le hsrc hauth (hd.imp_left fun ⟨hsame, howner⟩ => ⟨hsame, .inl howner⟩)
  | received balance hother hdest => simp [delegated_of_deserialize hdest, hother]
  | approved delegate hrole | revoked hrole => exact absurd hrole (hset _ rfl)
  | burnt hrole hother hsrc hauth hallowed hle htake =>
    obtain ⟨d, rfl, hd⟩ := burnSource_ok htake
    rw [Account.withData_data, delegated_enc, delegated_of_deserialize hsrc]
    exact moved_add_le hsrc hauth (hd.imp_left fun ⟨hsame, hother⟩ => ⟨hsame, .inr hother⟩)
  | burntFrom mint hrole hother => simp [hother]
  | frozen hrole hold => simp [hold, amountMoved]
  | thawed hrole hold => simp [delegated_of_deserialize hold, amountMoved]

/-- An instruction with the amount moved by the delegate so far. -/
def SpendStep (P : Platform) (t : Hash) (before : World × ℕ) (c : TokenCall) (after : World × ℕ) :
    Prop :=
  TokenStep P before.1 c after.1 ∧ after.2 = before.2 + movedByDelegate t before.1 c

end Token

open Token

/-- **Frozen token accounts along a run.**  After `FreezeAccount` on `t`, and as long as `t` is not
thawed, the data of `t` are the same after every instruction iff each instruction meets
`SparesFrozen`. -/
theorem frozen_iff {P : Platform} {t : Hash} {w w₀ w' : World} {c₀ : TokenCall}
    {calls : List TokenCall} (hfreeze : TokenStep P w c₀ w₀)
    (hread : c₀.instruction? = some .freezeAccount) (hrole : c₀.address 0 = some t) :
    Trace.Steps (fun w c w' => ThawlessStep P t w c w' ∧
        (w'.account t).data = (w₀.account t).data) w₀ calls w' ↔
      Trace.Steps (fun w c w' => ThawlessStep P t w c w' ∧
        ∀ instruction, c.instruction? = some instruction → SparesFrozen t c instruction)
        w₀ calls w' := by
  -- The freeze leaves a frozen token account and nothing else.
  obtain ⟨token, hdata, hfrozen⟩ : ∃ token, (w₀.account t).data = codec.enc token ∧
      token.state = .frozen := by
    obtain ⟨instruction, hread', h⟩ := becomes_of_tokenStep hfreeze t
    cases hread.symm.trans hread'
    generalize w₀.account t = a' at h
    cases h with
    | untouched hother => exact absurd hrole (hother 0 (TokenInstruction.written_pos _))
    | frozen _ hold => exact ⟨_, rfl, rfl⟩
  refine Trace.Steps.and_iff (I := fun w => (w.account t).data = (w₀.account t).data)
    (fun _ _ _ _ _ hsame => hsame) (fun w c w' hw h => ?_) rfl
  obtain ⟨hstep, hthaw⟩ := h
  obtain ⟨instruction, hread, hbecomes⟩ := becomes_of_tokenStep hstep t
  rw [hdata] at hw ⊢
  rw [data_eq_iff_sparesFrozen hbecomes hw hfrozen fun h => hthaw (h ▸ hread)]
  exact ⟨fun h _ hread' => some.inj (hread.symm.trans hread') ▸ h,
    fun h => h instruction hread⟩

namespace Sample

/-- The owner makes a mint that they may freeze and a token account, and mints 100 tokens. -/
def mintFreezable : List (List Hash × TokenInstruction × List UInt8) :=
  [(tokenAddresses (repeated 5),
      .initializeMint 0 (repeated 5) (some (repeated 5)), [1]),
    (tokenAddresses (repeated 5), .initializeAccount, [2, 1, 0]),
    (tokenAddresses (repeated 5), .mintTo 100, [1, 2, 0])]

/-- The token account is frozen. -/
def freeze : List Hash × TokenInstruction × List UInt8 :=
  (tokenAddresses (repeated 5), .freezeAccount, [2, 1, 0])

/-- Tokens are burnt from the token account. -/
def burnTokens (amount : UInt64) : List Hash × TokenInstruction × List UInt8 :=
  (tokenAddresses (repeated 5), .burn amount, [2, 1, 0])

/-- The call that a sample is made of. -/
def callOf (w : World) (q : List Hash × TokenInstruction × List UInt8) : TokenCall :=
  tokenCall w q.1 q.2.1 q.2.2

theorem instruction?_callOf {w : World} {q : List Hash × TokenInstruction × List UInt8}
    (h : TokenInstruction.codec.Fits q.2.1) : (callOf w q).instruction? = some q.2.1 := by
  have hread : TokenInstruction.codec.tryFromSlice (callOf w q).data = .ok q.2.1 :=
    (TokenInstruction.codec.tryFromSlice_eq_ok).mpr ⟨h, rfl⟩
  rw [TokenCall.instruction?, hread]
  rfl

end Sample

open Sample in
/-- The owner burns tokens of a frozen account: the amount in it is another one. -/
theorem burn_from_frozen :
    ∃ t w c₀ w₀ calls w', TokenStep (Platform.sample false) w c₀ w₀ ∧
      c₀.instruction? = some .freezeAccount ∧ c₀.address 0 = some t ∧
      Trace.Steps (ThawlessStep (Platform.sample false) t) w₀ calls w' ∧
      (w'.account t).data ≠ (w₀.account t).data := by
  have hrun : ((foldlM tokenWorld ∅ mintFreezable).bind fun w =>
      (tokenWorld w freeze).bind fun w₀ => (tokenWorld w₀ (burnTokens 40)).map fun w' =>
        decide ((w'.account (repeated 8)).data ≠ (w₀.account (repeated 8)).data))
      = some true := by
    decide +kernel
  obtain ⟨w, -, hrun⟩ := bind_eq_some_iff.mp hrun
  obtain ⟨w₀, hfreeze, hrun⟩ := bind_eq_some_iff.mp hrun
  obtain ⟨w', hburn, hdiffer⟩ := map_eq_some_iff.mp hrun
  refine ⟨repeated 8, w, callOf w freeze, w₀, [callOf w₀ (burnTokens 40)], w',
    tokenStep_of_tokenWorld hfreeze, instruction?_callOf ?_, rfl,
    .cons ⟨tokenStep_of_tokenWorld hburn, fun h => ?_⟩ (.nil w'), of_decide_eq_true hdiffer⟩
  · decide +kernel
  · rw [instruction?_callOf (by decide +kernel)] at h
    cases h

open Sample in
/-- A burn of no tokens is no harm. -/
theorem burn_nothing_from_frozen :
    ∃ t w₀ calls w', Trace.Steps (fun w c w' => ThawlessStep (Platform.sample false) t w c w' ∧
      (w'.account t).data = (w₀.account t).data) w₀ calls w' ∧ calls.length = 1 := by
  have hrun : ((foldlM tokenWorld ∅ mintFreezable).bind fun w =>
      (tokenWorld w freeze).map fun w₀ => (tokenWorld w₀ (burnTokens 0)).isSome) = some true := by
    decide +kernel
  obtain ⟨w, -, hrun⟩ := bind_eq_some_iff.mp hrun
  obtain ⟨w₀, hfreeze, hsome⟩ := map_eq_some_iff.mp hrun
  obtain ⟨w', hburn⟩ := isSome_iff_exists.mp hsome
  have hread : (callOf w₀ (burnTokens 0)).instruction? = some (.burn 0) :=
    instruction?_callOf (by decide +kernel)
  refine ⟨repeated 8, w₀, [callOf w₀ (burnTokens 0)], w',
    (frozen_iff (tokenStep_of_tokenWorld hfreeze) (instruction?_callOf (by decide +kernel))
      rfl).mpr (.cons ⟨⟨tokenStep_of_tokenWorld hburn, fun h => ?_⟩, fun instruction h => ?_⟩
        (.nil w')), rfl⟩
  · rw [hread] at h
    cases h
  · rw [hread] at h
    cases h
    have hne : repeated 7 ≠ repeated 8 := by decide +kernel
    exact ⟨fun _ => rfl, fun h => hne (some.inj h)⟩

/-- **The delegate spending limit.**  After `Approve` or `Revoke` on `t`, and until the next of them,
the transfers and burns signed by the delegate of `t` and not by its owner move at most what was
approved. -/
theorem delegate_spending_le {P : Platform} {t : Hash} {w w₀ w' : World} {c₀ : TokenCall}
    {calls : List TokenCall} {approved spent : ℕ} (hset : TokenStep P w c₀ w₀)
    (hread : c₀.instruction?.bind amountApproved = some approved) (hrole : c₀.address 0 = some t)
    (hcalls : ∀ c ∈ calls, ¬SetsDelegate t c)
    (hrun : Trace.Steps (SpendStep P t) (w₀, 0) calls (w', spent)) : spent ≤ approved := by
  have hstart : delegated (w₀.account t).data = approved := by
    obtain ⟨instruction, hread', h⟩ := becomes_of_tokenStep hset t
    rw [hread'] at hread
    generalize w₀.account t = a' at h ⊢
    cases h with
    | untouched hother =>
      exact absurd hrole (hother 0 instruction.written_pos)
    | approved => exact (delegated_enc _).trans (some.inj hread)
    | revoked => exact (delegated_enc _).trans (some.inj hread)
    | _ => cases hread
  have hinv := hrun.invariant (I := fun p => p.2 + delegated (p.1.account t).data ≤ approved)
    (G := fun c => ¬SetsDelegate t c) (fun p c q hp hc h => ?_) (by simp [hstart]) hcalls
  · exact le_trans (Nat.le_add_right ..) hinv
  · obtain ⟨hstep, hspent⟩ := h
    have := moved_add_delegated_le hstep hc
    omega

open Sample in
/-- The owner approves 50 tokens for a delegate, who burns 30 of them. -/
theorem delegate_burns :
    ∃ t w₀ calls w' spent,
      Trace.Steps (SpendStep (Platform.sample false) t) (w₀, 0) calls (w', spent) ∧ spent = 30 ∧
        spent ≤ 50 := by
  have hrun : ((foldlM tokenWorld ∅ mintFreezable).bind fun w =>
      (tokenWorld w (tokenAddresses (repeated 5) ++ [repeated 9], .approve 50,
        [2, 3, 0])).bind fun w₀ =>
      (tokenWorld w₀ (tokenAddresses (repeated 9), .burn 30, [2, 1, 0])).map fun w' =>
        decide (movedByDelegate (repeated 8) w₀
          (callOf w₀ (tokenAddresses (repeated 9), .burn 30, [2, 1, 0])) = 30)) = some true := by
    decide +kernel
  obtain ⟨w, -, hrun⟩ := bind_eq_some_iff.mp hrun
  obtain ⟨w₀, happrove, hrun⟩ := bind_eq_some_iff.mp hrun
  obtain ⟨w', hburn, hmoved⟩ := map_eq_some_iff.mp hrun
  have hsteps : Trace.Steps (SpendStep .release (repeated 8)) (w₀, 0)
      [callOf w₀ (tokenAddresses (repeated 9), .burn 30, [2, 1, 0])] (w', 30) :=
    .cons ⟨tokenStep_of_tokenWorld hburn, by rw [of_decide_eq_true hmoved]⟩ (.nil _)
  refine ⟨repeated 8, w₀, _, w', 30, hsteps, rfl,
    delegate_spending_le (tokenStep_of_tokenWorld happrove) ?_ rfl ?_ hsteps⟩
  · have hread : (callOf w (tokenAddresses (repeated 5) ++ [repeated 9], .approve 50,
        [2, 3, 0])).instruction? = some (.approve 50) := instruction?_callOf (by decide +kernel)
    exact congrArg (bind · amountApproved) hread
  · rintro c hc ⟨-, amount, h⟩
    obtain rfl := mem_singleton.mp hc
    rw [instruction?_callOf (by decide +kernel)] at h
    cases h

end Nusantara

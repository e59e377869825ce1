import Nusantara.Lib.Image
import Nusantara.Lib.Trace
import Nusantara.Runtime.Calls

/-!
# Programs over a run of loader instructions

What the instructions of the loader make of the accounts they name, in every role in which they can
name them (`runtime/src/processors/loader/`, `loader-program/src/state.rs`).

The bytes of a program pass through three instructions: `Write` puts them into a buffer behind its
header, `Deploy` or `Upgrade` moves what is behind that header behind another one, with zeros up to the
space there is, and `extract_bytecode` takes as many bytes as the new header says.

A program without upgrade authority is out of reach of `Write`, `Deploy`, `Upgrade`, `SetAuthority` and
`Close`, which look at the header of what they change.  `InitializeBuffer` does not: it asks for the
signature of the account and takes that to mean that the account is new.

## Main results

* `Loader.changes_of_loaderStep`: what a successful instruction changes.
* `immutable_iff`: the runs that leave a program without upgrade authority as it is.
* `upload_round_trip`: what is extracted from a program is what was written to its buffer.
* `setAuthority_payload_iff`: the changes of authority that keep the code.
-/

namespace Nusantara

open Borsh Exec TransactionContext List Option Codec LoaderState Function World Nat
open Hash (repeated)
open NativeCall (exists_address)

namespace Loader

/-- A successful instruction of the loader. -/
def LoaderStep (P : Platform) (w : World) (c : NativeCall) (w' : World) : Prop :=
  c.program = .loader ∧ NativeStep P w c w'

/-- The instruction of the loader that the data of a call encode. -/
def instruction? (c : NativeCall) : Option LoaderInstruction :=
  (LoaderInstruction.codec.tryFromSlice c.data).toOption

variable {P : Platform} {w w' : World} {s s' : TransactionContext} {c : NativeCall}
  {data rest : List UInt8} {slot len : UInt64} {authority : Option Hash} {state state' : LoaderState}

/-! ### What an instruction changes -/

/-- What a successful instruction changes, where balances do not count: each account it writes, with
what it has checked of that account. -/
inductive Changes (P : Platform) (c : NativeCall) (body : Hash → Account) :
    LoaderInstruction → (Hash → Account) → Prop
  | initializeBuffer {x : Hash} (authority : Hash) (hx : c.address 0 = some x) :
      Changes P c body .initializeBuffer (update body x
        { body x with
          owner := P.programId .loader
          data := codec.enc (.buffer (some authority)) })
  | write {offset : UInt32} {bytes : List UInt8} {x authority : Hash} (hx : c.address 0 = some x)
      (hstate : fromAccountData (body x).data = .ok (.buffer (some authority)))
      (hlimit : (buffer (some authority)).headerLen + offset.toNat + bytes.length ≤
        maxAccountDataSize.toNat) :
      Changes P c body (.write offset bytes) (update body x ((body x).withData
        (writeAt (body x).data
          ((buffer (some authority)).headerLen + offset.toNat) bytes)))
  | deploy {maxDataLen slot : UInt64} {p d b authority : Hash} {program : Account}
      {bytecode : List UInt8} (hp : c.address 1 = some p) (hd : c.address 2 = some d)
      (hb : c.address 3 = some b) (hp' : (body p).data = []) (hd' : (body d).data = [])
      (hstate : fromAccountData (body b).data = .ok (.buffer (some authority)))
      (hbytecode : bytecode =
        (body b).data.drop (buffer (some authority)).headerLen) :
      Changes P c body (.deploy maxDataLen) (update (update
        (update body p program) d
          { update body p program d with
            owner := P.programId .loader
            data := programDataBytes slot authority bytecode
              (max maxDataLen.toNat bytecode.length) }) b ((body b).withData []))
  | upgrade {slot : UInt64} {d b authority : Hash} {state : LoaderState} {bytecode : List UInt8}
      (hd : c.address 1 = some d) (hb : c.address 2 = some b)
      (hdata : fromAccountData (body d).data = .ok state)
      (hauthority : state.programData? = some (some authority))
      (hstate : fromAccountData (body b).data = .ok (.buffer (some authority)))
      (hbytecode : bytecode =
        (body b).data.drop (buffer (some authority)).headerLen)
      (hspace : bytecode.length ≤ (body d).data.length - state.headerLen) :
      Changes P c body .upgrade (update (update body d
        ((body d).withData (programDataBytes slot authority bytecode
          ((body d).data.length - state.headerLen)))) b ((body b).withData []))
  | setAuthority {newAuthority : Option Hash} {x current : Hash} {j : ℕ}
      {state state' : LoaderState} {data : List UInt8} (hx : c.address 0 = some x)
      (hstate : fromAccountData (body x).data = .ok state)
      (hnew : withAuthority j current newAuthority state = .ok state')
      (hdata : replaceHeader (body x).data state state' = .ok data) :
      Changes P c body (.setAuthority newAuthority)
        (update body x ((body x).withData data))
  | close {x authority : Hash} {state : LoaderState} (hx : c.address 0 = some x)
      (hstate : fromAccountData (body x).data = .ok state)
      (hauthority : state.authority = some authority) :
      Changes P c body .close (update body x ((body x).withData []))

theorem fromAccountData_ne_nil
    (h : fromAccountData data = .ok (.buffer authority)) : data ≠ [] := by
  rintro rfl
  cases h

theorem data_of_isFresh {a : Account} (h : isFresh P a = true) : a.data = [] := by
  simp only [isFresh, Bool.and_eq_true, decide_eq_true_eq] at h
  exact h.1.1.1

section

variable {body : Hash → Account} (hs : w.Shows (s.accounts.map Prod.fst) s body)
  (hacc : s.accounts = c.context.accounts)

include hs hacc

/-- The writes of `Deploy`. -/
theorem changes_deploy {maxDataLen : UInt64}
    (h : (processDeploy P c.sysvars c.accounts maxDataLen).run s = .ok () s') :
    Changes P c body (.deploy maxDataLen) (w.store s').body := by
  obtain ⟨i₀, i₁, i₂, i₃, authority, address, ap, ad, ad', ab, ab', bytecode, pdData, rent, funded, s₁,
    -, hi₁, hi₂, hi₃, hp, hfresh, hd, hfresh', hb, hstate, rfl, rfl, -, hdebit, hd', -, hb',
    hcredit⟩ := processDeploy_ok h
  have hd := account?_of_getElem? hd
  obtain ⟨p, hp₁, hkp⟩ := exists_address hacc hi₁ hp
  obtain ⟨d, hd₂, hkd⟩ := exists_address hacc hi₂ hd
  obtain ⟨b, hb₃, hkb⟩ := exists_address hacc hi₃ hb
  have hpbody := hs.body_apply hkp hp
  have hdbody := hs.body_apply hkd hd
  have hbbody := hs.body_apply hkb hb
  have hap : ap.data = [] := data_of_isFresh hfresh
  have had : ad.data = [] := data_of_isFresh hfresh'
  have hpdata : (body p).data = [] := by rw [hpbody]; exact hap
  have hddata : (body d).data = [] := by rw [hdbody]; exact had
  have hbdata : (body b).data = ab.data := by rw [hbbody]; rfl
  -- The buffer holds a header, so it is neither of the accounts that were never written to.
  have hne : (body b).data ≠ [] := hbdata ▸ fromAccountData_ne_nil hstate
  have hbp : b ≠ p := fun h => hne (h ▸ hpdata)
  have hbd : b ≠ d := fun h => hne (h ▸ hddata)
  have hs₁ := (hs.setAccount hkp hp).debit hdebit
  have hmiddle := hs₁.body_apply hkd hd'
  have hs₂ := hs₁.setAccount (a := { ad' with
    owner := P.programId .loader
    lamports := funded
    data := programDataBytes s.slot authority
      (ab.data.drop (buffer (some authority)).headerLen)
      (max maxDataLen.toNat
        (ab.data.drop (buffer (some authority)).headerLen).length) }) hkd hd'
  have hlast := hs₂.body_apply hkb hb'
  rw [update_of_ne hbd, update_of_ne hbp] at hlast
  have hs₃ := (hs₂.setAccount (a := (ab'.withLamports 0).withData []) hkb hb').credit hcredit
  have hchange := @Changes.deploy P c body maxDataLen s.slot p d b authority
    (Account.withLamports { ap with
      owner := P.programId .loader
      executable := true
      data := codec.enc (.program address) } 0) _ hp₁ hd₂ hb₃ hpdata hddata
    (hbdata ▸ hstate) rfl
  rw [hmiddle, hbdata, hlast] at hchange
  rw [hs₃.body_eq]
  exact hchange

/-- The writes of `Upgrade`. -/
theorem changes_upgrade (h : (processUpgrade P c.accounts).run s = .ok () s') :
    Changes P c body .upgrade (w.store s').body := by
  obtain ⟨i₁, i₂, i₃, authority, ad, ab, ab', state, bytecode, pdData, hi₁, hi₂, -, hd, hdata,
    hauthority, hb, hstate, rfl, -, hspace, rfl, hb', hcredit⟩ := processUpgrade_ok h
  obtain ⟨d, hd₁, hkd⟩ := exists_address hacc hi₁ hd
  obtain ⟨b, hb₂, hkb⟩ := exists_address hacc hi₂ hb
  have hdbody := hs.body_apply hkd hd
  have hbbody := hs.body_apply hkb hb
  have hddata : (body d).data = ad.data := by rw [hdbody]; rfl
  have hbdata : (body b).data = ab.data := by rw [hbbody]; rfl
  have hbd : b ≠ d := by
    rintro rfl
    rw [← hbdata, hddata, hdata] at hstate
    cases hstate
    cases hauthority
  have hs₁ := hs.setAccount (a := ad.withData (programDataBytes s.slot authority
    (ab.data.drop (buffer (some authority)).headerLen)
    (ad.data.length - state.headerLen))) hkd hd
  have hlast := hs₁.body_apply hkb hb'
  rw [update_of_ne hbd] at hlast
  have hs₂ := (hs₁.setAccount (a := (ab'.withLamports 0).withData []) hkb hb').credit hcredit
  have hchange := @Changes.upgrade P c body s.slot d b authority state _ hd₁ hb₂ (hddata ▸ hdata)
    hauthority (hbdata ▸ hstate) rfl (by rw [hbdata, hddata]; exact hspace)
  rw [hbdata, hdbody, hlast] at hchange
  rw [hs₂.body_eq]
  exact hchange

end

/-- **What a successful instruction changes.** -/
theorem changes_of_loaderStep (h : LoaderStep P w c w') :
    ∃ instruction, instruction? c = some instruction ∧ Changes P c w.body instruction w'.body := by
  obtain ⟨hprogram, hload, s', hrun, rfl⟩ := h
  rw [hprogram] at hrun
  obtain ⟨instruction, s, hread, hacc, hrun⟩ := processLoader_ok hrun
  have hload : w.Loads s := ⟨hacc ▸ hload.nodup, hacc ▸ hload.loaded⟩
  have hshows := hload.shows
  refine ⟨instruction, by rw [instruction?, hread]; rfl, ?_⟩
  cases instruction with
  | initializeBuffer =>
    obtain ⟨i, a, authority, hi, ha, -, rfl⟩ := processInitializeBuffer_ok hrun
    obtain ⟨x, hx, hkey⟩ := exists_address hacc hi ha
    have hchange : Changes P c w.body _ _ := .initializeBuffer authority hx
    rw [hshows.body_apply hkey ha] at hchange
    rw [(hshows.setAccount hkey ha).body_eq]
    exact hchange
  | write offset bytes =>
    obtain ⟨i, a, authority, hi, ha, hstate, hlimit, rfl⟩ := processWrite_ok hrun
    obtain ⟨x, hx, hkey⟩ := exists_address hacc hi ha
    have hbody := hshows.body_apply hkey ha
    have hchange : Changes P c w.body _ _ := .write hx (by rw [hbody]; exact hstate) hlimit
    rw [hbody] at hchange
    rw [(hshows.setAccount hkey ha).body_eq]
    exact hchange
  | deploy maxDataLen => exact changes_deploy hshows hacc hrun
  | upgrade => exact changes_upgrade hshows hacc hrun
  | setAuthority newAuthority =>
    obtain ⟨i, j, a, current, state, state', data, hi, -, ha, hstate, hnew, hdata, rfl⟩ :=
      processSetAuthority_ok hrun
    obtain ⟨x, hx, hkey⟩ := exists_address hacc hi ha
    have hbody := hshows.body_apply hkey ha
    have hchange : Changes P c w.body _ _ :=
      .setAuthority hx (by rw [hbody]; exact hstate) hnew (by rw [hbody]; exact hdata)
    rw [hbody] at hchange
    rw [(hshows.setAccount hkey ha).body_eq]
    exact hchange
  | close =>
    obtain ⟨i, j, a, a', authority, state, s₁, hi, -, ha, hstate, hauthority, hcredit, ha', rfl⟩ :=
      processClose_ok hrun
    obtain ⟨x, hx, hkey⟩ := exists_address hacc hi ha
    have hshows₁ := hshows.credit hcredit
    have hchange : Changes P c w.body _ _ :=
      .close hx (by rw [hshows.body_apply hkey ha]; exact hstate) hauthority
    rw [hshows₁.body_apply hkey ha'] at hchange
    rw [(hshows₁.setAccount hkey ha').body_eq]
    exact hchange

/-! ### Accounts under no authority -/

theorem authority_of_withAuthority {j : ℕ} {current : Hash} {newAuthority : Option Hash}
    (h : withAuthority j current newAuthority state = .ok state') :
    state.authority = some current := by
  cases state with
  | uninitialized => cases h
  | program => cases h
  | buffer authority | programData slot authority len =>
    simp only [withAuthority] at h
    split_ifs at h with hauth
    exact hauth

theorem authority_of_programData?
    (h : state.programData? = some authority) : state.authority = authority := by
  cases state <;> simp_all [LoaderState.programData?, LoaderState.authority]

/-- **An account under no authority**, unless it was never written to, is changed by
`InitializeBuffer` on it and by no other instruction. -/
theorem Changes.eq_or_initializeBuffer {body body' : Hash → Account}
    {instruction : LoaderInstruction} {x : Hash}
    (h : Changes P c body instruction body')
    (hstate : fromAccountData (body x).data = .ok state)
    (hauthority : state.authority = none) (hused : state ≠ .uninitialized) :
    (body' x = body x ∧ (instruction = .initializeBuffer → c.address 0 ≠ some x)) ∨
      instruction = .initializeBuffer ∧ c.address 0 = some x ∧
        ∃ authority, (body' x).data = codec.enc (.buffer (some authority)) := by
  -- Every other instruction has seen an authority, or no data, in what it writes.
  have hseen : ∀ {y state' authority}, fromAccountData (body y).data = .ok state' →
      state'.authority = some authority → x ≠ y := by
    rintro y state' authority hstate' hauthority' rfl
    cases hstate.symm.trans hstate'
    rw [hauthority] at hauthority'
    cases hauthority'
  have hempty : ∀ {y}, (body y).data = [] → x ≠ y := by
    rintro y hdata rfl
    rw [hdata] at hstate
    exact hused (Except.ok.inj hstate).symm
  cases h with
  | @initializeBuffer y authority hy =>
    by_cases hxy : x = y
    · subst hxy
      exact .inr ⟨rfl, hy, authority, by rw [update_self]⟩
    · refine .inl ⟨update_of_ne hxy .., fun _ => ?_⟩
      rw [hy]
      simpa using Ne.symm hxy
  | write hy hstate' => exact .inl ⟨update_of_ne (hseen hstate' rfl) .., nofun⟩
  | deploy hp hd hb hp' hd' hstate' =>
    rw [update_of_ne (hseen hstate' rfl), update_of_ne (hempty hd'),
      update_of_ne (hempty hp')]
    exact .inl ⟨rfl, nofun⟩
  | upgrade hd hb hdata hauthority' hstate' =>
    rw [update_of_ne (hseen hstate' rfl),
      update_of_ne (hseen hdata (authority_of_programData? hauthority'))]
    exact .inl ⟨rfl, nofun⟩
  | setAuthority hy hstate' hnew =>
    exact .inl ⟨update_of_ne (hseen hstate' (authority_of_withAuthority hnew)) .., nofun⟩
  | close hy hstate' hauthority' =>
    exact .inl ⟨update_of_ne (hseen hstate' hauthority') .., nofun⟩

/-! ### Programs without upgrade authority -/

/-- The account at `d` holds the bytecode of a program without upgrade authority, and the account at
`p` points to it. -/
structure Immutable (w : World) (d p : Hash) : Prop where
  data : ∃ slot len, fromAccountData (w.account d).data = .ok (.programData slot none len)
  program : fromAccountData (w.account p).data = .ok (.program d)

/-- The program is as it was: the bytecode at `d` is there and is extracted as before, and the account
at `p` is the same but for its balance. -/
structure StaysDeployed (P : Platform) (d p : Hash) (w w' : World) : Prop where
  bytecode : extractBytecode P (w'.account d).data =
    extractBytecode P (w.account d).data
  nonempty : (w'.account d).data ≠ []
  program : w'.body p = w.body p

/-- What an instruction asks for to leave a program as it is: that it does not make one of its two
accounts a buffer. -/
def SparesProgram (d p : Hash) (c : NativeCall) : Prop :=
  instruction? c = some .initializeBuffer → c.address 0 ≠ some d ∧ c.address 0 ≠ some p

section

variable (state : LoaderState)

theorem fits : codec.Fits state := by
  cases state with
  | uninitialized => exact ⟨_, rfl, (), rfl, trivial⟩
  | buffer authority => exact ⟨_, rfl, authority, rfl, by simp [option, Hash.codec, bytes]⟩
  | program address => exact ⟨_, rfl, address, rfl, trivial⟩
  | programData slot authority len =>
    exact ⟨_, rfl, (slot, authority, len), rfl, by
      simp [Codec.pair, option, Hash.codec, bytes, u64, word]⟩

theorem deserialize_append (rest : List UInt8) :
    codec.deserialize (codec.enc state ++ rest) = .ok state :=
  codec.deserialize_eq_ok.mpr ⟨fits state, rest, rfl⟩

theorem fromAccountData_append (rest : List UInt8) :
    fromAccountData (codec.enc state ++ rest) = .ok state := by
  rw [fromAccountData, if_neg (by simp [codec, enum]), deserialize_append]
  rfl

end

theorem extractBytecode_buffer (authority : Option Hash) :
    extractBytecode P (codec.enc (.buffer authority)) =
      .ok (.error "not a ProgramData account") := by
  have hread := deserialize_append (.buffer authority) []
  rw [append_nil] at hread
  rw [extractBytecode, hread]

/-- Bytecode whose header is there may be cut short, but it is not something else. -/
theorem extractBytecode_ne
    (h : fromAccountData data = .ok (.programData slot authority len)) :
    extractBytecode P data ≠ .ok (.error "not a ProgramData account") := by
  have hne : data ≠ [] := by
    rintro rfl
    cases h
  rw [extractBytecode, fromAccountData_eq_ok hne h]
  simp only [bytecodeAfter]
  split_ifs with hheader
  · simp
  · split
    · simp
    · split_ifs
      · simp
      · cases hslice : slice data (programData slot authority len).headerLen _ with
        | error f | ok bytes => simp [Except.map]

/-- One step from a program that is as it was. -/
theorem staysDeployed_step {w₀ : World} {d p : Hash} (h₀ : Immutable w₀ d p)
    (hd : (w.account d).data = (w₀.account d).data) (hp : w.body p = w₀.body p)
    (h : LoaderStep P w c w') :
    (StaysDeployed P d p w₀ w' ↔ SparesProgram d p c) ∧
      (StaysDeployed P d p w₀ w' → (w'.account d).data = (w₀.account d).data) := by
  obtain ⟨⟨slot, len, hdata⟩, hprogram⟩ := h₀
  obtain ⟨instruction, hread, hchange⟩ := changes_of_loaderStep h
  have hne : (w₀.account d).data ≠ [] := by
    intro hnil
    rw [hnil] at hdata
    cases hdata
  -- `InitializeBuffer` on one of the two accounts makes it something else.
  have hlost : ∀ authority, (w'.body d).data = codec.enc (.buffer (some authority)) →
      ¬StaysDeployed P d p w₀ w' := by
    intro authority hbuffer hstays
    have hbytecode := hstays.bytecode
    rw [← body_data, hbuffer, extractBytecode_buffer] at hbytecode
    exact extractBytecode_ne hdata hbytecode.symm
  have hlost' : ∀ authority, (w'.body p).data = codec.enc (.buffer (some authority)) →
      ¬StaysDeployed P d p w₀ w' := by
    intro authority hbuffer hstays
    rw [hstays.program] at hbuffer
    have hread := fromAccountData_append (.buffer (some authority)) []
    rw [append_nil, ← hbuffer] at hread
    cases hprogram.symm.trans hread
  have hstate : fromAccountData (w.body d).data = .ok (.programData slot none len) := by
    rw [body_data, hd]
    exact hdata
  have hstate' : fromAccountData (w.body p).data = .ok (.program d) := by
    rw [hp]
    exact hprogram
  obtain ⟨hsame, hother⟩ | ⟨rfl, hrole, authority, hbuffer⟩ :=
    hchange.eq_or_initializeBuffer hstate rfl (by simp)
  · have hsame' : (w'.account d).data = (w₀.account d).data :=
      (congrArg Account.data hsame).trans hd
    refine ⟨?_, fun _ => hsame'⟩
    obtain ⟨hpsame, hpother⟩ | ⟨rfl, hrole, authority, hbuffer⟩ :=
      hchange.eq_or_initializeBuffer hstate' rfl (by simp)
    · refine iff_of_true ⟨by rw [hsame'], hsame' ▸ hne, hpsame.trans hp⟩ fun hinit => ?_
      have hinit := some.inj (hread.symm.trans hinit)
      exact ⟨hother hinit, hpother hinit⟩
    · exact iff_of_false (hlost' authority hbuffer) fun h => (h hread).2 hrole
  · exact ⟨iff_of_false (hlost authority hbuffer) fun h => (h hread).1 hrole,
      fun h => absurd h (hlost authority hbuffer)⟩

/-! ### From the buffer to the program -/

/-- What writes in this order leave of a buffer that is zero at first. -/
def image (writes : List (UInt32 × List UInt8)) : Image UInt8 0 :=
  writes.foldl (fun m q => m.write q.1.toNat q.2) (.empty 0)

/-- A successful `Write` to the buffer at `b`. -/
def WriteStep (P : Platform) (b : Hash) (w : World) (q : NativeCall × UInt32 × List UInt8)
    (w' : World) : Prop :=
  LoaderStep P w q.1 w' ∧ instruction? q.1 = some (.write q.2.1 q.2.2) ∧ q.1.address 0 = some b

/-- `Deploy` or `Upgrade` from the buffer at `b`, with the bytecode at `d`. -/
def Installs (b d : Hash) (c : NativeCall) : Prop :=
  (∃ maxDataLen, instruction? c = some (.deploy maxDataLen) ∧ c.address 2 = some d ∧
    c.address 3 = some b) ∨
  instruction? c = some .upgrade ∧ c.address 1 = some d ∧ c.address 2 = some b

/-- The space for bytecode: the data without the header. -/
def capacity (data : List UInt8) : ℕ :=
  (fromAccountData data).toOption.elim 0 fun state => data.length - state.headerLen

/-- The buffer at `b` holds an image behind its header, within the limit for the data of an account. -/
structure Holds (w : World) (b authority : Hash) (m : Image UInt8 0) : Prop where
  data : (w.account b).data = codec.enc (.buffer (some authority)) ++ m.toList
  size_le : m.size ≤ maxAccountDataSize.toNat

theorem writeAt_append (header data bytes : List UInt8) (offset : ℕ) :
    writeAt (header ++ data) (header.length + offset) bytes =
      header ++ writeAt data offset bytes := by
  have hpad : header.length + (offset + bytes.length) - (header ++ data).length =
      offset + bytes.length - data.length := by
    simp only [length_append]
    omega
  simp only [writeAt, add_assoc, hpad, append_assoc, take_length_add_append,
    drop_length_add_append]

theorem Holds.write {b authority : Hash} {m : Image UInt8 0} {q : NativeCall × UInt32 × List UInt8}
    (hw : Holds w b authority m) (h : WriteStep P b w q w') :
    Holds w' b authority (m.write q.2.1.toNat q.2.2) := by
  obtain ⟨hstep, hread, hb⟩ := h
  obtain ⟨instruction, hread', hchange⟩ := changes_of_loaderStep hstep
  cases hread.symm.trans hread'
  generalize hbody : w'.body = body' at hchange
  cases hchange with
  | @write _ _ x authority' hx hstate hlimit =>
    cases hb.symm.trans hx
    have hdata := hw.data
    rw [← body_data] at hdata
    rw [hdata, fromAccountData_append] at hstate
    obtain ⟨rfl⟩ := buffer.inj (Except.ok.inj hstate)
    have hafter := congrFun hbody b
    rw [update_self, hdata] at hafter
    have hafter := congrArg Account.data hafter
    rw [Account.withData_data, headerLen, writeAt_append] at hafter
    refine ⟨hafter.trans ?_, ?_⟩
    · rw [Image.toList_write]
      rfl
    · have hsize := hw.size_le
      show max m.size (q.2.1.toNat + q.2.2.length) ≤ _
      omega

/-- What a sequence of writes leaves of a buffer. -/
theorem holds_image {b authority : Hash} {w₀ : World}
    {writes : List (NativeCall × UInt32 × List UInt8)} (h₀ : Holds w₀ b authority (.empty 0))
    (h : Trace.Steps (WriteStep P b) w₀ writes w') :
    Holds w' b authority (image (writes.map Prod.snd)) := by
  have hinv := h.history (I := fun before w => Holds w b authority (image (before.map Prod.snd)))
    (fun before w q w' hw h => ?_) [] h₀
  · simpa using hinv
  · have himage : image ((before ++ [q]).map Prod.snd) =
        (image (before.map Prod.snd)).write q.2.1.toNat q.2.2 := by
      simp [image]
    rw [himage]
    exact hw.write h

theorem headerLen_programData (slot len : UInt64) (authority : Hash) :
    (programData slot (some authority) len).headerLen = 82 := by
  simp [headerLen, enc_programData, Codec.pair, option, u64, word, Hash.codec, bytes,
    authority.size_eq, hashBytes]

section

variable {slot : UInt64} {authority : Hash} {bytecode : List UInt8} {space : ℕ}

/-- What is extracted is what was put in. -/
theorem extractBytecode_programDataBytes (hlen : bytecode.length ≤ maxAccountDataSize.toNat) :
    extractBytecode P (programDataBytes slot authority bytecode space) =
      .ok (.ok bytecode) := by
  have hmax : maxAccountDataSize.toNat < 2 ^ 32 := by decide
  have htoNat : (UInt64.ofNat bytecode.length).toNat = bytecode.length := by
    rw [UInt64.toNat_ofNat']
    exact mod_eq_of_lt (by omega)
  generalize hstate : programData slot (some authority) (UInt64.ofNat bytecode.length)
    = state
  have hheader : state.headerLen = 82 := hstate ▸ headerLen_programData ..
  have henc : (codec.enc state).length = 82 := hheader
  have hread := deserialize_append state (bytecode ++ replicate (space - bytecode.length) 0)
  rw [programDataBytes, hstate, append_assoc, extractBytecode, hread, ← hstate]
  simp only
  rw [hstate, hheader, htoNat, bytecodeAfter, if_neg (by simp; omega)]
  have hsum : P.wrapAdd 64 82 bytecode.length = .ok (82 + bytecode.length) :=
    if_pos (by omega)
  rw [hsum]
  simp only
  rw [if_neg (by simp; omega), slice_of_le (by omega) (by simp; omega)]
  simp only [Except.map]
  rw [← henc, take_length_add_append, drop_left]
  simp

/-- The space for bytecode behind a new header. -/
theorem capacity_programDataBytes (hlen : bytecode.length ≤ space) :
    capacity (programDataBytes slot authority bytecode space) = space := by
  rw [programDataBytes, append_assoc, capacity, fromAccountData_append]
  show length _ - (codec.enc _).length = space
  rw [length_append, length_append, length_replicate]
  omega

end

/-! ### A change of authority -/

/-- The code an account holds: what is extracted from the bytecode of a program, and everything behind
the header of a buffer. -/
def payload (P : Platform) (data : List UInt8) : Option (List UInt8) :=
  match fromAccountData data with
  | .ok (.buffer authority) => some (data.drop (buffer authority).headerLen)
  | .ok (.programData ..) => (extractBytecode P data).toOption.bind Except.toOption
  | _ => none

/-- The bytes behind a header do not depend on how long it is. -/
theorem bytecodeAfter_append {header rest : List UInt8} {len : ℕ}
    (hsize : header.length + rest.length < 2 ^ 64) (hlen : len < 2 ^ 64) :
    (bytecodeAfter P (header ++ rest) header.length len).toOption.bind Except.toOption =
      if len ≤ rest.length then some (rest.take len) else none := by
  by_cases hfit : header.length + len < 2 ^ 64
  · rw [bytecodeAfter, if_neg (by simp), Platform.wrapAdd, if_pos hfit]
    by_cases hle : len ≤ rest.length
    · simp only [length_append, add_lt_add_iff_left, not_lt.mpr hle, if_pos hle, if_false]
      rw [slice_of_le (by omega) (by simpa using hle), take_length_add_append, drop_left]
      rfl
    · simp only [length_append, add_lt_add_iff_left, not_le.mp hle, if_neg hle, if_true]
      rfl
  · have hlt : ¬len ≤ rest.length := by omega
    rw [(bytecodeAfter_eq_error (by simp) (by omega) hlen).mpr ⟨not_lt.mp hfit, rfl⟩, if_neg hlt]
    rfl

theorem payload_programData (hsize : 82 + rest.length < 2 ^ 64) :
    payload P (codec.enc (.programData slot authority len) ++ rest) =
      if len.toNat ≤ rest.length then some (rest.take len.toNat) else none := by
  have hheader : (programData slot authority len).headerLen ≤ 82 :=
    headerLen_programData_le
  rw [payload, fromAccountData_append]
  simp only [extractBytecode, deserialize_append]
  exact bytecodeAfter_append ((Nat.add_le_add_right hheader _).trans_lt hsize) len.toNat_lt

theorem payload_buffer :
    payload P (codec.enc (.buffer authority) ++ rest) = some rest := by
  rw [payload, fromAccountData_append]
  exact congrArg some drop_left

theorem data_eq_append
    (h : fromAccountData data = .ok state) (hst : state ≠ .uninitialized) :
    ∃ rest, data = codec.enc state ++ rest := by
  have hne : data ≠ [] := by
    rintro rfl
    exact hst (Except.ok.inj h).symm
  obtain ⟨-, rest, hrest⟩ :=
    codec.deserialize_eq_ok.mp (fromAccountData_eq_ok hne h)
  exact ⟨rest, hrest⟩

end Loader

open Loader

/-- **Programs without upgrade authority along a run.**  From a state in which the bytecode at `d` is
under no upgrade authority and the program at `p` points to it, both stay as deployed after every
instruction of the loader iff no instruction makes one of the two accounts a buffer. -/
theorem immutable_iff {P : Platform} {d p : Hash} {w₀ w' : World} {calls : List NativeCall}
    (h₀ : Immutable w₀ d p) :
    Trace.Steps (fun w c w' => LoaderStep P w c w' ∧ StaysDeployed P d p w₀ w') w₀ calls w' ↔
      Trace.Steps (fun w c w' => LoaderStep P w c w' ∧ SparesProgram d p c) w₀ calls w' :=
  Trace.Steps.and_iff
    (I := fun w => (w.account d).data = (w₀.account d).data ∧ w.body p = w₀.body p)
    (fun _ _ _ hw h hstays => ⟨(staysDeployed_step h₀ hw.1 hw.2 h).2 hstays, hstays.program⟩)
    (fun _ _ _ hw h => (staysDeployed_step h₀ hw.1 hw.2 h).1) ⟨rfl, rfl⟩

namespace Sample

/-- The authority, a program, a buffer and an account for bytecode. -/
def loaderKeys : List Hash :=
  [repeated 5, repeated 6, repeated 7, repeated 8]

/-- An instruction of the loader with the accounts at `loaderKeys`; all but the last sign. -/
def loaderOrder (instruction : LoaderInstruction) (accounts : List UInt8) : Order where
  program := .loader
  sysvars := sysvars 1
  signers := 3
  keys := loaderKeys
  data := LoaderInstruction.codec.enc instruction
  accounts

/-- The authority can pay for what it deploys. -/
def fundedWorld : World :=
  Finmap.singleton (repeated 5) (Account.new 1000000000 Hash.zero)

/-- A buffer is made and written, the first write behind a gap and the second over its start. -/
def fillBuffer : List Order :=
  [loaderOrder .initializeBuffer [2, 0], loaderOrder (.write 2 [1, 2, 3]) [2, 0],
    loaderOrder (.write 1 [9, 9]) [2, 0]]

/-- The program is deployed from the buffer. -/
def deployBuffer : Order := loaderOrder (.deploy 10) [0, 1, 3, 2, 0]

/-- The upgrade authority is given up. -/
def giveUp : Order := loaderOrder (.setAuthority none) [3, 0]

/-- The program's account is made a buffer. -/
def rebuffer : Order := loaderOrder .initializeBuffer [1, 0]

theorem instruction?_loaderOrder {w : World} {instruction : LoaderInstruction}
    {accounts : List UInt8} (h : LoaderInstruction.codec.Fits instruction) :
    instruction? ((loaderOrder instruction accounts).call w) = some instruction := by
  have hread : LoaderInstruction.codec.tryFromSlice
      ((loaderOrder instruction accounts).call w).data = .ok instruction :=
    LoaderInstruction.codec.tryFromSlice_eq_ok.mpr ⟨h, rfl⟩
  rw [instruction?, hread]
  rfl

/-- A program is deployed and given up. -/
def immutableProgram : Option World :=
  foldlM Order.world fundedWorld (fillBuffer ++ [deployBuffer, giveUp])

theorem immutable_immutableProgram {w : World} (h : immutableProgram = some w) :
    Immutable w (repeated 8) (repeated 6) := by
  obtain ⟨w', hw', hdata, hprogram⟩ : ∃ w, immutableProgram = some w ∧
      (fromAccountData (w.account (repeated 8)).data).toOption =
        some (.programData 1000 none 5) ∧
      (fromAccountData (w.account (repeated 6)).data).toOption =
        some (.program (repeated 8)) := by decide +kernel
  cases h.symm.trans hw'
  exact ⟨⟨_, _, exceptToOption_eq_some.mp hdata⟩, exceptToOption_eq_some.mp hprogram⟩

end Sample

open Sample in
/-- Whoever has the key of a program's account makes it a buffer again, though the program has no
upgrade authority. -/
theorem program_becomes_buffer :
    ∃ d p w₀ calls w', Immutable w₀ d p ∧
      Trace.Steps (LoaderStep (Platform.sample false)) w₀ calls w' ∧
      ¬StaysDeployed (Platform.sample false) d p w₀ w' := by
  obtain ⟨w₀, hw₀, w', hbuffer, hdiffer⟩ : ∃ w₀, immutableProgram = some w₀ ∧
      ∃ w', rebuffer.world w₀ = some w' ∧
        (w'.account (repeated 6)).data ≠ (w₀.account (repeated 6)).data := by
    decide +kernel
  refine ⟨_, _, w₀, [rebuffer.call w₀], w', immutable_immutableProgram hw₀,
    .cons ⟨rfl, nativeStep_of_world hbuffer⟩ (.nil w'), fun hstays => hdiffer ?_⟩
  simpa using congrArg Account.data hstays.program

open Sample in
/-- A buffer that is made elsewhere is no harm. -/
theorem program_stays_deployed :
    ∃ d p w₀ calls w', Immutable w₀ d p ∧
      Trace.Steps (fun w c w' => LoaderStep (Platform.sample false) w c w' ∧
        StaysDeployed (Platform.sample false) d p w₀ w') w₀ calls w' ∧ calls.length = 1 := by
  obtain ⟨w₀, hw₀, w', hbuffer, -⟩ : ∃ w₀, immutableProgram = some w₀ ∧
      ∃ w', (loaderOrder .initializeBuffer [2, 0]).world w₀ = some w' ∧ True := by
    decide +kernel
  have himmutable := immutable_immutableProgram hw₀
  have hne : repeated 7 ≠ repeated 8 ∧ repeated 7 ≠ repeated 6 := by
    decide +kernel
  refine ⟨_, _, w₀, [(loaderOrder .initializeBuffer [2, 0]).call w₀], w', himmutable,
    (immutable_iff himmutable).mpr (.cons ⟨⟨rfl, nativeStep_of_world hbuffer⟩, fun _ => ?_⟩
      (.nil w')), rfl⟩
  exact ⟨fun h => hne.1 (some.inj h), fun h => hne.2 (some.inj h)⟩

/-- **Program upload round trip.**  After `InitializeBuffer` and any sequence of writes to the buffer
at `b`, a successful `Deploy` or `Upgrade` from it leaves at `d` a program from which exactly the image
of the writes is extracted; `Upgrade` keeps the space for bytecode. -/
theorem upload_round_trip {P : Platform} {b d : Hash} {w w₀ w₁ w' : World} {c₀ c : NativeCall}
    {writes : List (NativeCall × UInt32 × List UInt8)} (hinit : LoaderStep P w c₀ w₀)
    (hread₀ : instruction? c₀ = some .initializeBuffer) (hb₀ : c₀.address 0 = some b)
    (hwrites : Trace.Steps (WriteStep P b) w₀ writes w₁) (hstep : LoaderStep P w₁ c w')
    (hinstall : Installs b d c) :
    LoaderState.extractBytecode P (w'.account d).data =
        .ok (.ok (image (writes.map Prod.snd)).toList) ∧
      (instruction? c = some .upgrade →
        capacity (w'.account d).data = capacity (w₁.account d).data) := by
  obtain ⟨authority, h₀⟩ : ∃ authority, Holds w₀ b authority (.empty 0) := by
    obtain ⟨instruction, hread', hchange⟩ := changes_of_loaderStep hinit
    cases hread₀.symm.trans hread'
    generalize hbody : w₀.body = body at hchange
    cases hchange with
    | @initializeBuffer x authority hx =>
      cases hb₀.symm.trans hx
      have hafter := congrFun hbody b
      rw [update_self] at hafter
      refine ⟨authority, (congrArg Account.data hafter).trans ?_, zero_le _⟩
      simp
  have hholds := holds_image h₀ hwrites
  have hlen : (image (writes.map Prod.snd)).toList.length ≤ maxAccountDataSize.toNat := by
    rw [Image.length_toList]
    exact hholds.size_le
  obtain ⟨instruction, hread, hchange⟩ := changes_of_loaderStep hstep
  have hbuffer := hholds.data
  rw [← body_data] at hbuffer
  -- What is behind the header of the buffer is the image.
  have hcontents : ∀ {authority'}, fromAccountData (w₁.body b).data =
      .ok (.buffer (some authority')) →
        (w₁.body b).data.drop (buffer (some authority')).headerLen =
          (image (writes.map Prod.snd)).toList := by
    intro authority' hstate
    rw [hbuffer, fromAccountData_append] at hstate
    rw [← Except.ok.inj hstate, hbuffer]
    exact drop_left
  generalize hbody : w'.body = body' at hchange
  obtain ⟨maxDataLen, hdeploy, hd, hb⟩ | ⟨hupgrade, hd, hb⟩ := hinstall
  · cases hdeploy.symm.trans hread
    cases hchange with
    | @deploy _ slot p d' b' authority' program bytecode hp hd' hb' hp' hempty hstate hbytecode =>
      cases hd.symm.trans hd'
      cases hb.symm.trans hb'
      have hdb : d ≠ b := by
        rintro rfl
        exact fromAccountData_ne_nil hstate hempty
      have hafter := congrFun hbody d
      rw [update_of_ne hdb, update_self, hbytecode, hcontents hstate] at hafter
      have hafter := congrArg Account.data hafter
      rw [body_data] at hafter
      rw [hafter]
      refine ⟨extractBytecode_programDataBytes hlen, fun hupgrade => ?_⟩
      cases hdeploy.symm.trans hupgrade
  · cases hupgrade.symm.trans hread
    cases hchange with
    | @upgrade slot d' b' authority' state bytecode hd' hb' hdata hauthority hstate hbytecode hspace =>
      cases hd.symm.trans hd'
      cases hb.symm.trans hb'
      have hdb : d ≠ b := by
        rintro rfl
        cases hdata.symm.trans hstate
        cases hauthority
      have hafter := congrFun hbody d
      rw [update_of_ne hdb, update_self] at hafter
      have hafter := congrArg Account.data hafter
      rw [body_data, Account.withData_data] at hafter
      rw [hafter]
      refine ⟨?_, fun _ => ?_⟩
      · rw [hbytecode, hcontents hstate]
        exact extractBytecode_programDataBytes hlen
      · rw [body_data] at hdata
        rw [capacity_programDataBytes hspace, capacity, hdata]
        rfl

open Sample in
/-- Two writes with a gap and an overlap, deployed and extracted. -/
theorem upload_of_five_bytes :
    ∃ w d, LoaderState.extractBytecode (Platform.sample false) (World.account w d).data =
      .ok (.ok [0, 9, 9, 2, 3]) := by
  have hrun : (((loaderOrder .initializeBuffer [2, 0]).world fundedWorld).bind fun w₀ =>
      ((loaderOrder (.write 2 [1, 2, 3]) [2, 0]).world w₀).bind fun w₁ =>
        ((loaderOrder (.write 1 [9, 9]) [2, 0]).world w₁).bind fun w₂ =>
          (deployBuffer.world w₂).map fun _ => true) = some true := by
    decide +kernel
  obtain ⟨w₀, hinit, hrun⟩ := bind_eq_some_iff.mp hrun
  obtain ⟨w₁, hfirst, hrun⟩ := bind_eq_some_iff.mp hrun
  obtain ⟨w₂, hsecond, hrun⟩ := bind_eq_some_iff.mp hrun
  obtain ⟨w', hdeploy, -⟩ := map_eq_some_iff.mp hrun
  have hwrites : Trace.Steps (WriteStep .release (repeated 7)) w₀
      [((loaderOrder (.write 2 [1, 2, 3]) [2, 0]).call w₀, 2, [1, 2, 3]),
        ((loaderOrder (.write 1 [9, 9]) [2, 0]).call w₁, 1, [9, 9])] w₂ :=
    .cons ⟨⟨rfl, nativeStep_of_world hfirst⟩, instruction?_loaderOrder (by decide +kernel), rfl⟩
      (.cons ⟨⟨rfl, nativeStep_of_world hsecond⟩, instruction?_loaderOrder (by decide +kernel),
        rfl⟩ (.nil w₂))
  have h := (upload_round_trip (d := repeated 8) ⟨rfl, nativeStep_of_world hinit⟩
    (instruction?_loaderOrder (by decide +kernel)) rfl hwrites
    ⟨rfl, nativeStep_of_world hdeploy⟩
    (.inl ⟨10, instruction?_loaderOrder (by decide +kernel), rfl, rfl⟩)).1
  exact ⟨w', repeated 8, h⟩

/-- **Authority changes.**  A successful `SetAuthority`, on data that fit into memory, keeps the code of
the account iff it is the bytecode of a program or a buffer that nothing was written to. -/
theorem setAuthority_payload_iff {P : Platform} {w w' : World} {c : NativeCall} {x : Hash}
    {newAuthority : Option Hash} (h : LoaderStep P w c w')
    (hread : instruction? c = some (.setAuthority newAuthority)) (hx : c.address 0 = some x)
    (hsize : (w.account x).data.length < 2 ^ 63) :
    payload P (w'.account x).data = payload P (w.account x).data ↔
      ∀ authority, LoaderState.fromAccountData (w.account x).data = .ok (.buffer authority) →
        (w.account x).data.length = (LoaderState.buffer authority).headerLen := by
  obtain ⟨instruction, hread', hchange⟩ := changes_of_loaderStep h
  cases hread.symm.trans hread'
  generalize hafter : w'.body = body' at hchange
  cases hchange with
  | setAuthority hx' hstate hnew hdata =>
    rename_i current j state state' data
    cases hx.symm.trans hx'
    have hbody := congrArg Account.data (congrFun hafter x)
    rw [update_self, body_data, Account.withData_data] at hbody
    rw [body_data] at hstate hdata
    rw [hbody, hstate]
    cases state with
    | uninitialized => cases hnew
    | program => cases hnew
    | buffer authority =>
      simp only [withAuthority] at hnew
      split_ifs at hnew
      cases hnew
      cases hdata
      obtain ⟨rest, hrest⟩ := data_eq_append hstate (by simp)
      have hnew : payload P (codec.enc (.buffer newAuthority) ++ []) = some [] :=
        payload_buffer
      rw [append_nil] at hnew
      rw [hrest, hnew, payload_buffer]
      simp [headerLen, eq_comm]
    | programData slot authority len =>
      simp only [withAuthority] at hnew
      split_ifs at hnew with hauth
      cases hnew
      obtain ⟨rest, hrest⟩ := data_eq_append hstate (by simp)
      rw [hauth] at hrest
      have hheader := headerLen_programData slot len current
      rw [headerLen] at hheader
      rw [hrest, length_append, hheader] at hsize
      rw [hauth, replaceHeader, hrest, headerLen,
        sliceFrom_of_le (by simp), drop_left] at hdata
      cases hdata
      rw [hrest, payload_programData (by omega), payload_programData (by omega)]
      simp

open Sample in
/-- Handing over a buffer empties it. -/
theorem setAuthority_empties_buffer :
    ∃ (w : World) (c : NativeCall) (w' : World) (x : Hash),
      LoaderStep (Platform.sample false) w c w' ∧
      instruction? c = some (.setAuthority (some (Hash.repeated 6))) ∧ c.address 0 = some x ∧
      (w.account x).owner = (Platform.sample false).programId .loader ∧
      payload (Platform.sample false) (w.account x).data = some [0, 9, 9, 2, 3] ∧
      payload (Platform.sample false) (w'.account x).data = some [] := by
  obtain ⟨w, -, w', hstep, h⟩ : ∃ w, foldlM Order.world fundedWorld fillBuffer = some w ∧
      ∃ w', (loaderOrder (.setAuthority (some (repeated 6))) [2, 0]).world w = some w' ∧
        (w.account (repeated 7)).owner = (Platform.sample false).programId .loader ∧
        payload .release (w.account (repeated 7)).data = some [0, 9, 9, 2, 3] ∧
        payload .release (w'.account (repeated 7)).data = some [] := by
    decide +kernel
  exact ⟨w, _, w', repeated 7, ⟨rfl, nativeStep_of_world hstep⟩,
    instruction?_loaderOrder (by decide +kernel), rfl, h⟩

open Sample in
/-- A program that is made immutable keeps its bytecode. -/
theorem setAuthority_keeps_program :
    ∃ (w w' : World) (d : Hash), payload (Platform.sample false) (w.account d).data =
        some [0, 9, 9, 2, 3] ∧
      payload (Platform.sample false) (w'.account d).data =
        payload (Platform.sample false) (w.account d).data := by
  obtain ⟨w, -, w', hstep, hpayload, hsize, hstate⟩ : ∃ w,
      foldlM Order.world fundedWorld (fillBuffer ++ [deployBuffer]) = some w ∧
      ∃ w', giveUp.world w = some w' ∧
        payload .release (w.account (repeated 8)).data = some [0, 9, 9, 2, 3] ∧
        (w.account (repeated 8)).data.length < 2 ^ 63 ∧
        (fromAccountData (w.account (repeated 8)).data).toOption =
          some (.programData 1000 (some (repeated 5)) 5) := by
    decide +kernel
  refine ⟨w, w', repeated 8, hpayload, (setAuthority_payload_iff
    ⟨rfl, nativeStep_of_world hstep⟩ (instruction?_loaderOrder (by decide +kernel)) rfl hsize).mpr
    fun authority hbuffer => ?_⟩
  simp [hbuffer, Except.toOption] at hstate

end Nusantara

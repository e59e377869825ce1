import Mathlib.Data.List.Nodup
import Nusantara.Core.Types

/-!
# What the validator is built on

`Platform` gathers what the repository takes from elsewhere: the SHA3-512 digest, the Dilithium3
check of a signature, the wasmi engine, a compute shader, and the choice of build profile.  Every
definition of the
model that needs one of them takes the platform as its first argument, so a result about the
model holds on every platform.  The only thing assumed of the digest is that the eight built-in
program ids differ from each other and from the zero hash.

Rust gives plain arithmetic two meanings.  With `overflowChecks` an operation that leaves its
type stops the process; without them it wraps.  `Fault` lists the ways a process can stop, or
never come back.

## Main results

* `Message.isWritable_eq_error`, `Message.headerFits_iff`: which headers make `is_writable`
  subtract below zero.
-/

namespace Nusantara

open List

/-- How the process can stop. -/
inductive Fault where
  /-- A slice or vector was indexed out of its bounds. -/
  | indexOutOfBounds
  /-- A subtraction in `Message::is_writable` went below zero. -/
  | writableUnderflow
  /-- Any other arithmetic operation left its type. -/
  | arithmeticOverflow
  /-- A division by zero. -/
  | divisionByZero
  /-- A loop came back to where it had been: it never ends. -/
  | endlessLoop
  deriving DecidableEq, Repr

/-- What a call of a compiled WASM entrypoint can come to. -/
inductive WasmCall where
  /-- The fuel ran out. -/
  | outOfFuel
  /-- The module trapped. -/
  | trapped (text : String)
  /-- The entrypoint returned, with this much fuel left. -/
  | returned (value : Int64) (fuelLeft : ℕ)
  deriving DecidableEq

/-- The wasmi engine, as seen from the executor: what becomes of a bytecode at each step. -/
structure Wasmi where
  /-- The text of the error if the bytecode does not compile. -/
  compileError : List UInt8 → Option String
  /-- The text of the error if the module cannot be instantiated with the linked syscalls and
  this much fuel. -/
  instantiateError : List UInt8 → ℕ → Option String
  /-- The size of the exported memory in pages, if the module exports one. -/
  memoryPages : List UInt8 → Option ℕ
  /-- Whether the module exports an entrypoint of the expected type. -/
  hasEntrypoint : List UInt8 → Bool
  /-- The call of the entrypoint: bytecode, fuel, number of accounts, data, program id. -/
  call : List UInt8 → ℕ → ℕ → List UInt8 → Hash → WasmCall

/-- The eight built-in programs (`core/src/program.rs`). -/
inductive Builtin where
  | system | rent | stake | vote | computeBudget | sysvar | loader | token
  deriving DecidableEq, Repr

namespace Builtin

/-- All of them. -/
def all : List Builtin := [system, rent, stake, vote, computeBudget, sysvar, loader, token]

/-- The name that is hashed to the program id (`core/config.toml`). -/
def seed : Builtin → String
  | system => "system_program"
  | rent => "rent_program"
  | stake => "stake_program"
  | vote => "vote_program"
  | computeBudget => "compute_budget_program"
  | sysvar => "sysvar_program"
  | loader => "loader_program"
  | token => "token_program"

end Builtin

/-- The bytes of an ASCII text. -/
def asciiBytes (s : String) : List UInt8 := s.toList.map fun c => UInt8.ofNat c.toNat

/-- What the repository takes from elsewhere. -/
structure Platform where
  /-- SHA3-512. -/
  hash : List UInt8 → Hash
  /-- Whether a detached signature over a message verifies under a key. -/
  verifyDetached : PublicKey → List UInt8 → Signature → Bool
  /-- The WASM engine. -/
  wasmi : Wasmi
  /-- The text of the error if a bytecode fails the structural checks of `vm/src/validate.rs`. -/
  validateWasm : List UInt8 → Option String
  /-- The compute shader behind `GpuPohVerifier`.  It gets a start, a number of iterations and the
  expected end for each window, and answers for each, or fails. -/
  gpuVerifyBatch : List (Hash × UInt64 × Hash) → Except String (List Bool)
  /-- Whether the build stops at arithmetic overflow. -/
  overflowChecks : Bool
  /-- The program ids differ from each other and from the zero hash. -/
  programIds_nodup :
    (Hash.zero :: Builtin.all.map fun b => hash (asciiBytes b.seed)).Nodup

namespace Platform

variable (P : Platform)

/-- The id of a built-in program. -/
def programId (b : Builtin) : Hash := P.hash (asciiBytes b.seed)

theorem programId_ne_zero (b : Builtin) : P.programId b ≠ Hash.zero := by
  have h := (nodup_cons.mp P.programIds_nodup).1
  intro hb
  exact h (hb ▸ mem_map.mpr ⟨b, by cases b <;> decide, rfl⟩)

/-- `SYSTEM_PROGRAM_ID` or the owner of a missing account: both count as system-owned. -/
def isSystemOwned (owner : Hash) : Bool := owner = P.programId .system ∨ owner = Hash.zero

/-- `a - b` on `usize`, reported as the fault `f` where it is checked. -/
def usizeSub (f : Fault) (a b : ℕ) : Except Fault ℕ :=
  if b ≤ a then .ok (a - b)
  else if P.overflowChecks then .error f
  else .ok (a + 2 ^ 64 - b)

/-- `a + b` on a type of `w` bits. -/
def wrapAdd (w a b : ℕ) : Except Fault ℕ :=
  if a + b < 2 ^ w then .ok (a + b)
  else if P.overflowChecks then .error .arithmeticOverflow
  else .ok ((a + b) % 2 ^ w)

/-- `a * b` on a type of `w` bits. -/
def wrapMul (w a b : ℕ) : Except Fault ℕ :=
  if a * b < 2 ^ w then .ok (a * b)
  else if P.overflowChecks then .error .arithmeticOverflow
  else .ok ((a * b) % 2 ^ w)

variable {f g : Fault} {a b w : ℕ}

theorem usizeSub_of_le (h : b ≤ a) : P.usizeSub f a b = .ok (a - b) :=
  if_pos h

theorem usizeSub_eq_error :
    P.usizeSub f a b = .error g ↔ a < b ∧ P.overflowChecks = true ∧ f = g := by
  unfold usizeSub
  split_ifs with h h'
  · simp only [false_iff, not_and]
    omega
  · simp only [Except.error.injEq, h', true_and]
    exact ⟨fun hf => ⟨by omega, hf⟩, fun hf => hf.2⟩
  · simp [h']

theorem wrapAdd_eq_error (h : P.wrapAdd w a b = .error g) :
    g = .arithmeticOverflow ∧ P.overflowChecks = true := by
  unfold wrapAdd at h
  split_ifs at h with h₁ h₂
  exact ⟨by simpa using h.symm, h₂⟩

theorem toNat_of_wrapAdd {n : ℕ} (h : P.wrapAdd 64 a b = .ok n) :
    (UInt64.ofNat n).toNat = (a + b) % 2 ^ 64 := by
  unfold wrapAdd at h
  split_ifs at h
  all_goals
    cases h
    simp

theorem wrapMul_eq_error (h : P.wrapMul w a b = .error g) :
    g = .arithmeticOverflow ∧ P.overflowChecks = true := by
  unfold wrapMul at h
  split_ifs at h with h₁ h₂
  exact ⟨by simpa using h.symm, h₂⟩

/-- The same platform, built with or without overflow checks. -/
def withOverflowChecks (checks : Bool) : Platform := { P with overflowChecks := checks }

/-- A platform on which the model can be evaluated: a digest is the front of the bytes, every
signature verifies, no bytecode runs. -/
def sample (overflowChecks : Bool) : Platform where
  hash bs := ⟨(bs ++ replicate hashBytes 0).take hashBytes, by simp [hashBytes]⟩
  verifyDetached _ _ _ := true
  wasmi :=
    { compileError := fun _ => some "no engine"
      instantiateError := fun _ _ => none
      memoryPages := fun _ => none
      hasEntrypoint := fun _ => false
      call := fun _ _ _ _ _ => .outOfFuel }
  validateWasm _ := none
  gpuVerifyBatch _ := .error "no adapter"
  overflowChecks
  programIds_nodup := by decide

/-- That platform in a release build. -/
abbrev release : Platform := sample false

end Platform

/-! ### Signers and writable accounts of a message -/

namespace Message

variable (P : Platform) (m : Message)

/-- `Message::is_signer`. -/
def isSigner (index : ℕ) : Bool := index < m.numRequiredSignatures.toNat

/-- `Message::is_writable`.  The subtractions trust the header. -/
def isWritable (index : ℕ) : Except Fault Bool :=
  if m.accountKeys.length ≤ index then .ok false
  else if m.isSigner index then
    (P.usizeSub .writableUnderflow m.numRequiredSignatures.toNat
      m.numReadonlySigned.toNat).map fun readonlySignedStart => index < readonlySignedStart
  else do
    let unsignedCount ←
      P.usizeSub .writableUnderflow m.accountKeys.length m.numRequiredSignatures.toNat
    (P.usizeSub .writableUnderflow unsignedCount m.numReadonlyUnsigned.toNat).map
      fun unsignedWritableCount =>
        index < (m.numRequiredSignatures.toNat + unsignedWritableCount) % 2 ^ 64

/-- No position makes `is_writable` subtract below zero: the read-only signers are among the
signers, and the read-only others among the others. -/
def HeaderFits : Prop :=
  (m.accountKeys = [] ∨ m.numRequiredSignatures = 0 ∨
    m.numReadonlySigned ≤ m.numRequiredSignatures) ∧
  (m.accountKeys.length ≤ m.numRequiredSignatures.toNat ∨
    m.numRequiredSignatures.toNat + m.numReadonlyUnsigned.toNat ≤ m.accountKeys.length)

/-- The header makes an account writable. -/
def WritableKey (key : Hash) : Prop :=
  ∃ i, m.accountKeys[i]? = some key ∧ m.isWritable P i = .ok true

instance : Decidable m.HeaderFits := by
  unfold HeaderFits
  infer_instance

variable {P m}

private theorem map_eq_error {α β : Type} {x : Except Fault α} {g : α → β} {f : Fault} :
    x.map g = .error f ↔ x = .error f := by
  cases x <;> simp [Except.map]

/-- `is_writable` stops exactly at the positions whose group the header overcounts, and only
where arithmetic is checked. -/
theorem isWritable_eq_error {i : ℕ} {f : Fault} :
    m.isWritable P i = .error f ↔
      P.overflowChecks = true ∧ f = .writableUnderflow ∧ i < m.accountKeys.length ∧
        if m.isSigner i then m.numRequiredSignatures < m.numReadonlySigned
        else m.accountKeys.length
          < m.numRequiredSignatures.toNat + m.numReadonlyUnsigned.toNat := by
  unfold isWritable
  by_cases hlen : m.accountKeys.length ≤ i
  · simp only [hlen, if_true, reduceCtorEq, false_iff, not_and]
    omega
  have hlt : i < m.accountKeys.length := by omega
  rw [if_neg hlen]
  by_cases hsig : m.isSigner i = true
  · rw [if_pos hsig, if_pos hsig, map_eq_error, P.usizeSub_eq_error, UInt8.lt_iff_toNat_lt]
    simp only [hlt, true_and, eq_comm (a := Fault.writableUnderflow)]
    tauto
  · have hns : ¬i < m.numRequiredSignatures.toNat := by simpa [isSigner] using hsig
    rw [if_neg hsig, if_neg hsig, P.usizeSub_of_le (by omega)]
    change (P.usizeSub _ _ _).map _ = _ ↔ _
    rw [map_eq_error, P.usizeSub_eq_error, Nat.sub_lt_iff_lt_add' (by omega)]
    simp only [hlt, true_and, eq_comm (a := Fault.writableUnderflow)]
    tauto

/-- Where arithmetic is checked, a header fits iff no position stops `is_writable`. -/
theorem headerFits_iff (hP : P.overflowChecks = true) :
    m.HeaderFits ↔ ∀ i f, m.isWritable P i ≠ .error f := by
  simp only [ne_eq, isWritable_eq_error, hP, true_and, HeaderFits]
  constructor
  · rintro ⟨h₁, h₂⟩ i f ⟨-, hi, hbad⟩
    split_ifs at hbad with hsig
    · have hpos : i < m.numRequiredSignatures.toNat := by simpa [isSigner] using hsig
      rw [UInt8.lt_iff_toNat_lt] at hbad
      rcases h₁ with h | h | h
      · simp [h] at hi
      · simp [h] at hpos
      · rw [UInt8.le_iff_toNat_le] at h
        omega
    · have hns : ¬i < m.numRequiredSignatures.toNat := by simpa [isSigner] using hsig
      omega
  · intro h
    constructor
    · by_contra hc
      simp only [not_or] at hc
      obtain ⟨hne, hnz, hlt⟩ := hc
      have hpos : 0 < m.numRequiredSignatures.toNat := by
        rcases Nat.eq_zero_or_pos m.numRequiredSignatures.toNat with h0 | h0
        · exact absurd (UInt8.toNat_inj.mp h0) hnz
        · exact h0
      refine h 0 .writableUnderflow ⟨rfl, length_pos_iff.mpr hne, ?_⟩
      rw [if_pos (by simpa [isSigner] using hpos)]
      exact UInt8.not_le.mp hlt
    · by_contra hc
      simp only [not_or, not_le] at hc
      refine h m.numRequiredSignatures.toNat .writableUnderflow ⟨rfl, hc.1, ?_⟩
      rw [if_neg (by simp [isSigner])]
      exact hc.2

end Message

end Nusantara

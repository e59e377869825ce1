import Mathlib.Data.Set.Function
import Nusantara.Core.Platform

/-!
# Addresses derived from seeds

A program signs for an address that is the hash of some seeds, its id and a tag.  The validator
hashes each seed after its length, so that the boundaries of the seeds count (`crypto/src/pda.rs`);
the SDK hashes the bare seeds (`sdk/src/pubkey.rs`).

## Main results

* `sameAddress_iff`: the two agree exactly where both refuse the seeds, or there are none.
* `address_determines_seeds`: the validator derives an address from one list of seeds and for one
  program only.
-/

namespace Nusantara

open Borsh List Codec

/-- `MAX_SEED_LEN`, in the crypto crate and in the SDK. -/
def maxSeedLen : ℕ := 32

/-- `MAX_SEEDS`, in the crypto crate and in the SDK. -/
def maxSeeds : ℕ := 16

/-- The variants of `CryptoError` about seeds. -/
inductive CryptoError where
  | maxSeedLengthExceeded (max got : ℕ)
  | invalidSeedLength (max got : ℕ)
  deriving DecidableEq

/-- The checks before a derivation, with the errors of the crate that makes it. -/
def checkSeeds {ε : Type} (tooMany tooLong : ℕ → ε) (seeds : List (List UInt8)) : Except ε Unit :=
  if maxSeeds < seeds.length then .error (tooMany seeds.length)
  else match seeds.find? fun seed => maxSeedLen < seed.length with
    | some seed => .error (tooLong seed.length)
    | none => .ok ()

/-- What is hashed: the bytes for the seeds, the id of the program and the tag. -/
def addressBytes (seedBytes : List UInt8) (programId : Hash) : List UInt8 :=
  seedBytes ++ programId.asBytes ++ asciiBytes "ProgramDerivedAddress"

/-- The seeds as the validator hashes them. -/
def prefixedSeeds (seeds : List (List UInt8)) : List UInt8 :=
  seeds.flatMap fun seed => leBytes 4 seed.length ++ seed

section Functions

variable (P : Platform) (seeds : List (List UInt8)) (programId : Hash)

/-- `create_program_address` of the crypto crate. -/
def createProgramAddress : Except CryptoError Hash := do
  checkSeeds (.maxSeedLengthExceeded maxSeeds) (.invalidSeedLength maxSeedLen) seeds
  return P.hash (addressBytes (prefixedSeeds seeds) programId)

/-- `Pubkey::create_program_address` of the SDK, on a native target. -/
def Pubkey.createProgramAddress : Except String Hash := do
  checkSeeds (fun _ => "too many seeds") (fun _ => "seed too long") seeds
  return P.hash (addressBytes seeds.flatten programId)

/-- Both derivations fail, or both give the same address. -/
def SameAddress : Prop :=
  match createProgramAddress P seeds programId, Pubkey.createProgramAddress P seeds programId with
  | .ok a, .ok a' => a = a'
  | .error _, .error _ => True
  | _, _ => False

end Functions

variable {P : Platform} {seeds : List (List UInt8)} {programId : Hash}

theorem checkSeeds_cases {ε : Type} (tooMany tooLong : ℕ → ε) (seeds : List (List UInt8)) :
    ((maxSeeds < seeds.length ∨ ∃ seed ∈ seeds, maxSeedLen < seed.length) ∧
        ∃ e, checkSeeds tooMany tooLong seeds = .error e) ∨
      ¬(maxSeeds < seeds.length ∨ ∃ seed ∈ seeds, maxSeedLen < seed.length) ∧
        checkSeeds tooMany tooLong seeds = .ok () := by
  unfold checkSeeds
  split_ifs with hmany
  · exact .inl ⟨.inl hmany, _, rfl⟩
  cases hlong : seeds.find? fun seed => maxSeedLen < seed.length with
  | some seed =>
    exact .inl ⟨.inr ⟨seed, mem_of_find?_eq_some hlong, by simpa using find?_some hlong⟩,
      _, rfl⟩
  | none =>
    refine .inr ⟨not_or.mpr ⟨hmany, fun ⟨seed, hseed, hlt⟩ => ?_⟩, rfl⟩
    exact find?_eq_none.mp hlong seed hseed (decide_eq_true hlt)

/-- Every seed costs the validator the four bytes of its length. -/
theorem length_prefixedSeeds (seeds : List (List UInt8)) :
    (prefixedSeeds seeds).length = seeds.flatten.length + 4 * seeds.length := by
  induction seeds with
  | nil => rfl
  | cons seed seeds ih =>
    simp only [prefixedSeeds, flatMap_cons, length_append, length_leBytes,
      flatten_cons, length_cons] at ih ⊢
    omega

/-- **SDK and validator.**  Unless the two byte strings collide, the SDK and the validator agree on
an address exactly if there are no seeds, or too many, or one that is too long. -/
theorem sameAddress_iff (hcollision : Set.InjOn P.hash
      {addressBytes (prefixedSeeds seeds) programId, addressBytes seeds.flatten programId}) :
    SameAddress P seeds programId ↔
      seeds = [] ∨ maxSeeds < seeds.length ∨ ∃ seed ∈ seeds, maxSeedLen < seed.length := by
  unfold SameAddress createProgramAddress Pubkey.createProgramAddress
  obtain ⟨hbad, e, he⟩ | ⟨hgood, hok⟩ := checkSeeds_cases
    (CryptoError.maxSeedLengthExceeded maxSeeds) (.invalidSeedLength maxSeedLen) seeds <;>
  obtain ⟨hbad', e', he'⟩ | ⟨hgood', hok'⟩ := checkSeeds_cases
    (fun _ => "too many seeds") (fun _ => "seed too long") seeds
  · rw [he, he']
    exact iff_of_true trivial (.inr hbad)
  · exact absurd hbad hgood'
  · exact absurd hbad' hgood
  · rw [hok, hok', or_iff_left hgood]
    constructor
    · -- Without a collision the strings are the same, and the lengths tell how many seeds there are.
      intro hsame
      have hlength := congrArg length (hcollision (.inl rfl) (.inr rfl) hsame)
      simp only [addressBytes, length_append, length_prefixedSeeds] at hlength
      exact length_eq_zero_iff.mp (by omega)
    · rintro rfl
      rfl

/-- The SDK derives another address from one seed. -/
theorem one_seed_gives_two_addresses :
    Set.InjOn (Platform.sample false).hash
        {addressBytes (prefixedSeeds [[1]]) Hash.zero, addressBytes [[1]].flatten Hash.zero} ∧
      ¬SameAddress (Platform.sample false) [[1]] Hash.zero := by
  have hne : (Platform.sample false).hash (addressBytes (prefixedSeeds [[1]]) Hash.zero)
      ≠ (Platform.sample false).hash (addressBytes [[1]].flatten Hash.zero) := by decide +kernel
  refine ⟨?_, hne⟩
  rintro _ (rfl | rfl) _ (rfl | rfl) hsame
  exacts [rfl, absurd hsame hne, absurd hsame.symm hne, rfl]

/-- Without seeds the address is that of the id alone. -/
theorem no_seeds_give_one_address : SameAddress (Platform.sample false) [] Hash.zero := by
  refine (sameAddress_iff ?_).mpr (.inl rfl)
  rintro _ (rfl | rfl) _ (rfl | rfl) _
  all_goals rfl

/-- The seeds are hashed as Borsh writes byte vectors, without their number. -/
theorem prefixedSeeds_eq (seeds : List (List UInt8)) :
    prefixedSeeds seeds = encItems (vec u8) seeds := by
  induction seeds with
  | nil => rfl
  | cons seed seeds ih =>
    rw [encItems, ← ih]
    simp [prefixedSeeds, vec, encItems_u8]

theorem createProgramAddress_eq_ok {address : Hash}
    (h : createProgramAddress P seeds programId = .ok address) :
    (∀ seed ∈ seeds, (vec u8).Fits seed) ∧
      P.hash (addressBytes (prefixedSeeds seeds) programId) = address := by
  unfold createProgramAddress at h
  obtain ⟨-, e, he⟩ | ⟨hgood, hok⟩ := checkSeeds_cases
    (CryptoError.maxSeedLengthExceeded maxSeeds) (.invalidSeedLength maxSeedLen) seeds
  · rw [he] at h
    cases h
  · rw [hok] at h
    refine ⟨fun seed hseed => ⟨?_, fun _ _ => trivial⟩, Except.ok.inj h⟩
    have hle : ¬maxSeedLen < seed.length := fun hlt => hgood (.inr ⟨seed, hseed, hlt⟩)
    unfold maxSeedLen at hle
    omega

/-- **Seeds and program are known from the address.**  Unless the two byte strings collide, equal
addresses are derived from the same seeds for the same program.  Their number is not hashed, but
what comes after them has a fixed length. -/
theorem address_determines_seeds {seeds' : List (List UInt8)} {programId' address : Hash}
    (hcollision : Set.InjOn P.hash {addressBytes (prefixedSeeds seeds) programId,
      addressBytes (prefixedSeeds seeds') programId'})
    (h : createProgramAddress P seeds programId = .ok address)
    (h' : createProgramAddress P seeds' programId' = .ok address) :
    programId = programId' ∧ seeds = seeds' := by
  obtain ⟨hfits, hhash⟩ := createProgramAddress_eq_ok h
  obtain ⟨hfits', hhash'⟩ := createProgramAddress_eq_ok h'
  have hbytes := hcollision (.inl rfl) (.inr rfl) (hhash.trans hhash'.symm)
  obtain ⟨hbytes, -⟩ := append_inj' hbytes rfl
  obtain ⟨hseeds, hid⟩ := append_inj' hbytes (programId.2.trans programId'.2.symm)
  rw [prefixedSeeds_eq, prefixedSeeds_eq] at hseeds
  refine ⟨?_, encItems_inj _ (fun _ hnil => ?_) hfits hfits' hseeds⟩
  · exact (Hash.codec.enc_append_inj trivial trivial (congrArg (· ++ []) hid)).1
  · simpa [vec] using congrArg length hnil

/-- Two seeds, and the address they give. -/
theorem two_seeds_give_an_address :
    ∃ address, createProgramAddress (Platform.sample false) [[1], [2]] Hash.zero = .ok address ∧
      Hash.zero = Hash.zero ∧ [[(1 : UInt8)], [2]] = [[1], [2]] := by
  refine ⟨_, rfl, address_determines_seeds (P := Platform.sample false) ?_ rfl rfl⟩
  rintro _ (rfl | rfl) _ (rfl | rfl) _
  all_goals rfl

end Nusantara

import Mathlib.Algebra.BigOperators.Group.List.Basic
import Mathlib.Algebra.Order.BigOperators.Group.List
import Mathlib.Data.Nat.Digits.Defs
import Mathlib.Tactic.Ring
import Mathlib.Tactic.Common

/-!
# Borsh codecs

The binary format used for messages and account data: fixed-width little-endian integers, a
`u32` count in front of a vector, one byte in front of an option, a variant index in front of an
enumeration, and the fields of a record one after the other.

A `Codec α` packs an encoder and a decoder with the two laws that make the format canonical:
decoding undoes encoding whatever bytes follow, and **every** accepted input starts with the
encoding of the value it was decoded to.  The second law is what bounds the offsets a program
computes from an encoded header.  A vector longer than its `u32` count can say has no encoding;
`Codec.Fits` is the set of values that have one.

## Main definitions

* `Codec.word`, `Codec.bytes`, `Codec.bool`, `Codec.option`, `Codec.vec`, `Codec.pair`: the
  building blocks.
* `Codec.iso`, `Codec.ctor`, `Codec.enum`: records and enumerations over them.
* `Codec.tryFromSlice`: decoding that must consume its whole input.
-/

namespace Borsh

open List
open Except (ok)

/-- Why an input was refused. -/
inductive Error where
  /-- The input ended inside a value. -/
  | unexpectedLength
  /-- The input ended inside a fixed array. -/
  | unfilledBuffer
  /-- The input went on after the value. -/
  | notAllBytesRead
  /-- The byte in front of an option was neither 0 nor 1. -/
  | invalidOption (flag : UInt8)
  /-- A boolean was neither 0 nor 1. -/
  | invalidBool (byte : UInt8)
  /-- An enumeration has no variant with this index. -/
  | unexpectedVariant (tag : UInt8)
  /-- A decoded value did not pass its own check. -/
  | invalidData (text : String)
  deriving DecidableEq, Repr

/-- The text of an error. -/
def Error.toText : Error → String
  | unexpectedLength => "Unexpected length of input"
  | unfilledBuffer => "failed to fill whole buffer"
  | notAllBytesRead => "Not all bytes read"
  | invalidOption b => s!"Invalid Option representation: {b}. The first byte must be 0 or 1"
  | invalidBool b => s!"Invalid bool representation: {b}"
  | unexpectedVariant t => s!"Unexpected variant tag: {t}"
  | invalidData text => text

/-! ### Little-endian integers -/

/-- The `k` low bytes of `n`, the lowest first. -/
def leBytes : ℕ → ℕ → List UInt8
  | 0, _ => []
  | k + 1, n => UInt8.ofNat n :: leBytes k (n / 256)

/-- The number whose bytes are given, the lowest first. -/
def ofLe : List UInt8 → ℕ
  | [] => 0
  | b :: bs => b.toNat + 256 * ofLe bs

@[simp] theorem length_leBytes (k n : ℕ) : (leBytes k n).length = k := by
  induction k generalizing n with
  | zero => rfl
  | succ k ih => simp [leBytes, ih]

theorem ofLe_lt (bs : List UInt8) : ofLe bs < 256 ^ bs.length := by
  induction bs with
  | nil => simp [ofLe]
  | cons b bs ih =>
    have hb : b.toNat < 256 := b.toNat_lt
    simp only [ofLe, length_cons, pow_succ]
    omega

theorem ofLe_leBytes (k n : ℕ) (h : n < 256 ^ k) : ofLe (leBytes k n) = n := by
  induction k generalizing n with
  | zero => simp [ofLe, leBytes] at h ⊢; omega
  | succ k ih =>
    have hq : n / 256 < 256 ^ k := by
      rw [pow_succ] at h
      exact Nat.div_lt_of_lt_mul (by omega)
    have hm : (UInt8.ofNat n).toNat = n % 256 := UInt8.toNat_ofNat'
    rw [leBytes, ofLe, ih _ hq, hm]
    omega

theorem leBytes_ofLe (bs : List UInt8) : leBytes bs.length (ofLe bs) = bs := by
  induction bs with
  | nil => rfl
  | cons b bs ih =>
    have hb : b.toNat < 256 := b.toNat_lt
    have hlow : UInt8.ofNat (b.toNat + 256 * ofLe bs) = b := by
      apply UInt8.toNat_inj.mp
      rw [UInt8.toNat_ofNat']
      omega
    have hhigh : (b.toNat + 256 * ofLe bs) / 256 = ofLe bs := by omega
    rw [ofLe, length_cons, leBytes, hlow, hhigh, ih]

/-! ### Splitting an input -/

/-- The first `k` bytes and the rest, if there are that many. -/
def splitBytes : ℕ → List UInt8 → Option (List UInt8 × List UInt8)
  | 0, bs => some ([], bs)
  | _ + 1, [] => none
  | k + 1, b :: bs => (splitBytes k bs).map fun p => (b :: p.1, p.2)

theorem splitBytes_append (xs rest : List UInt8) :
    splitBytes xs.length (xs ++ rest) = some (xs, rest) := by
  induction xs with
  | nil => rfl
  | cons x xs ih => simp [splitBytes, ih]

theorem splitBytes_eq_some {k : ℕ} {bs xs rest : List UInt8}
    (h : splitBytes k bs = some (xs, rest)) : xs.length = k ∧ bs = xs ++ rest := by
  induction k generalizing bs xs with
  | zero => simp_all [splitBytes]
  | succ k ih =>
    cases bs with
    | nil => simp [splitBytes] at h
    | cons b bs =>
      simp only [splitBytes, Option.map_eq_some_iff, Prod.mk.injEq, Prod.exists] at h
      obtain ⟨ys, r, hsplit, rfl, rfl⟩ := h
      obtain ⟨rfl, rfl⟩ := ih hsplit
      exact ⟨rfl, rfl⟩

/-! ### Codecs -/

/-- An encoder and a decoder that agree. -/
structure Codec (α : Type) where
  /-- The bytes of a value. -/
  enc : α → List UInt8
  /-- The value at the front of an input, and the bytes after it. -/
  dec : List UInt8 → Except Error (α × List UInt8)
  /-- The values that have an encoding. -/
  Fits : α → Prop
  /-- Whether a value has one can be decided. -/
  decFits : ∀ a, Decidable (Fits a)
  /-- Decoding undoes encoding. -/
  dec_enc : ∀ a rest, Fits a → dec (enc a ++ rest) = .ok (a, rest)
  /-- An accepted input starts with the encoding of its value. -/
  enc_dec : ∀ bs a rest, dec bs = .ok (a, rest) → Fits a ∧ bs = enc a ++ rest

namespace Codec

variable {α β : Type}

instance (c : Codec α) (a : α) : Decidable (c.Fits a) := c.decFits a

/-- Decode a value that must take up the whole input. -/
def tryFromSlice (c : Codec α) (bs : List UInt8) : Except Error α :=
  match c.dec bs with
  | .error e => .error e
  | .ok (a, []) => .ok a
  | .ok (_, _ :: _) => .error .notAllBytesRead

/-- Decode the value at the front of an input, whatever follows. -/
def deserialize (c : Codec α) (bs : List UInt8) : Except Error α :=
  (c.dec bs).map Prod.fst

section

variable (c : Codec α) {a : α} {bs : List UInt8}

theorem tryFromSlice_eq_ok :
    c.tryFromSlice bs = .ok a ↔ c.Fits a ∧ bs = c.enc a := by
  constructor
  · intro h
    unfold tryFromSlice at h
    split at h
    · simp at h
    · rename_i a' hdec
      obtain rfl : a' = a := by simpa using h
      simpa using c.enc_dec _ _ _ hdec
    · simp at h
  · rintro ⟨hfit, rfl⟩
    have hdec := c.dec_enc a [] hfit
    rw [append_nil] at hdec
    rw [tryFromSlice, hdec]

theorem deserialize_enc (h : c.Fits a) : c.deserialize (c.enc a) = .ok a := by
  have hdec := c.dec_enc a [] h
  rw [append_nil] at hdec
  rw [deserialize, hdec]
  rfl

/-- What is decoded from the front of an input is encoded there. -/
theorem deserialize_eq_ok :
    c.deserialize bs = .ok a ↔ c.Fits a ∧ ∃ rest, bs = c.enc a ++ rest := by
  constructor
  · intro h
    unfold deserialize at h
    cases hdec : c.dec bs with
    | error e => simp [hdec, Except.map] at h
    | ok p =>
      obtain ⟨a', rest⟩ := p
      obtain rfl : a' = a := by simpa [hdec, Except.map] using h
      obtain ⟨hfit, hbs⟩ := c.enc_dec _ _ _ hdec
      exact ⟨hfit, rest, hbs⟩
  · rintro ⟨hfit, rest, rfl⟩
    rw [deserialize, c.dec_enc a rest hfit]
    rfl

theorem enc_length_le (h : c.deserialize bs = .ok a) : (c.enc a).length ≤ bs.length := by
  obtain ⟨-, rest, rfl⟩ := c.deserialize_eq_ok.mp h
  simp

end

/-- Where an encoding ends is known from its bytes. -/
theorem enc_append_inj (c : Codec α) {a b : α} {r s : List UInt8} (ha : c.Fits a) (hb : c.Fits b)
    (h : c.enc a ++ r = c.enc b ++ s) : a = b ∧ r = s := by
  have hdec := c.dec_enc a r ha
  rw [h, c.dec_enc b s hb] at hdec
  cases ok.inj hdec
  exact ⟨rfl, rfl⟩

/-- A fixed-width integer. -/
def word (k : ℕ) (toNat : α → ℕ) (ofNat : ℕ → α) (hlt : ∀ a, toNat a < 256 ^ k)
    (hof : ∀ a, ofNat (toNat a) = a) (hto : ∀ n, n < 256 ^ k → toNat (ofNat n) = n) :
    Codec α where
  enc a := leBytes k (toNat a)
  dec bs := match splitBytes k bs with
    | some (xs, rest) => .ok (ofNat (ofLe xs), rest)
    | none => .error .unexpectedLength
  Fits _ := True
  decFits _ := .isTrue trivial
  dec_enc a rest _ := by
    have hsplit := splitBytes_append (leBytes k (toNat a)) rest
    rw [length_leBytes] at hsplit
    simp [hsplit, ofLe_leBytes _ _ (hlt a), hof]
  enc_dec bs a rest h := by
    split at h
    · rename_i xs rest' hsplit
      simp only [ok.injEq, Prod.mk.injEq] at h
      obtain ⟨rfl, rfl⟩ := h
      obtain ⟨rfl, rfl⟩ := splitBytes_eq_some hsplit
      rw [hto _ (ofLe_lt xs), leBytes_ofLe]
      exact ⟨trivial, rfl⟩
    · simp at h

/-- An array of `k` bytes. -/
def bytes (k : ℕ) (mk : (bs : List UInt8) → bs.length = k → α) (raw : α → List UInt8)
    (hraw : ∀ a, (raw a).length = k) (hmk : ∀ a, mk (raw a) (hraw a) = a)
    (hbytes : ∀ bs h, raw (mk bs h) = bs) : Codec α where
  enc a := raw a
  dec bs := match h : splitBytes k bs with
    | some (xs, rest) => .ok (mk xs (splitBytes_eq_some h).1, rest)
    | none => .error .unfilledBuffer
  Fits _ := True
  decFits _ := .isTrue trivial
  dec_enc a rest _ := by
    have hsplit : splitBytes k (raw a ++ rest) = some (raw a, rest) := by
      have := splitBytes_append (raw a) rest
      rwa [hraw a] at this
    split
    · rename_i xs rest' h
      rw [hsplit] at h
      obtain ⟨rfl, rfl⟩ : raw a = xs ∧ rest = rest' := by simpa using h
      rw [hmk]
    · rename_i h
      simp [hsplit] at h
  enc_dec bs a rest h := by
    split at h
    · rename_i xs rest' hsplit
      simp only [ok.injEq, Prod.mk.injEq] at h
      obtain ⟨rfl, rfl⟩ := h
      rw [hbytes]
      exact ⟨trivial, (splitBytes_eq_some hsplit).2⟩
    · simp at h

/-- A record with one codec for the tuple of its fields. -/
def iso (c : Codec β) (f : β → α) (g : α → β) (hfg : ∀ a, f (g a) = a)
    (hgf : ∀ b, g (f b) = b) : Codec α where
  enc a := c.enc (g a)
  dec bs := (c.dec bs).map fun p => (f p.1, p.2)
  Fits a := c.Fits (g a)
  decFits a := c.decFits (g a)
  dec_enc a rest hfit := by simp [c.dec_enc _ _ hfit, Except.map, hfg]
  enc_dec bs a rest h := by
    cases hdec : c.dec bs with
    | error e => simp [hdec, Except.map] at h
    | ok p =>
      obtain ⟨b, r⟩ := p
      simp only [hdec, Except.map, ok.injEq, Prod.mk.injEq] at h
      obtain ⟨rfl, rfl⟩ := h
      rw [hgf]
      exact c.enc_dec _ _ _ hdec

/-- A value that is checked after it is decoded: `f` refuses what `g` never produces. -/
def refine (c : Codec β) (f : β → Option α) (g : α → β) (text : β → String)
    (hfg : ∀ a, f (g a) = some a) (hgf : ∀ a b, f b = some a → g a = b) : Codec α where
  enc a := c.enc (g a)
  dec bs := match c.dec bs with
    | .error e => .error e
    | .ok (b, rest) => match f b with
      | some a => .ok (a, rest)
      | none => .error (.invalidData (text b))
  Fits a := c.Fits (g a)
  decFits a := c.decFits (g a)
  dec_enc a rest hfit := by simp [c.dec_enc _ _ hfit, hfg]
  enc_dec bs a rest h := by
    split at h
    · simp at h
    · rename_i b r hdec
      split at h
      · rename_i a' hf
        simp only [ok.injEq, Prod.mk.injEq] at h
        obtain ⟨rfl, rfl⟩ := h
        rw [hgf _ _ hf]
        exact c.enc_dec _ _ _ hdec
      · simp at h

/-- A value of no bytes. -/
def unit : Codec Unit where
  enc _ := []
  dec bs := .ok ((), bs)
  Fits _ := True
  decFits _ := .isTrue trivial
  dec_enc _ _ _ := rfl
  enc_dec bs a rest h := by simp_all

/-- Two values one after the other. -/
def pair (c : Codec α) (d : Codec β) : Codec (α × β) where
  enc p := c.enc p.1 ++ d.enc p.2
  dec bs := match c.dec bs with
    | .error e => .error e
    | .ok (a, rest) => match d.dec rest with
      | .error e => .error e
      | .ok (b, rest') => .ok ((a, b), rest')
  Fits p := c.Fits p.1 ∧ d.Fits p.2
  decFits _ := instDecidableAnd
  dec_enc p rest hfit := by
    simp [append_assoc, c.dec_enc _ _ hfit.1, d.dec_enc _ _ hfit.2]
  enc_dec bs p rest h := by
    split at h
    · simp at h
    · rename_i a r hc
      split at h
      · simp at h
      · rename_i b r' hd
        simp only [ok.injEq, Prod.mk.injEq] at h
        obtain ⟨rfl, rfl⟩ := h
        obtain ⟨hfa, rfl⟩ := c.enc_dec _ _ _ hc
        obtain ⟨hfb, rfl⟩ := d.enc_dec _ _ _ hd
        exact ⟨⟨hfa, hfb⟩, by simp [append_assoc]⟩

/-- A boolean: one byte, 0 or 1. -/
def bool : Codec Bool where
  enc b := [if b then 1 else 0]
  dec bs := match bs with
    | [] => .error .unexpectedLength
    | b :: rest =>
      if b = 0 then .ok (false, rest) else if b = 1 then .ok (true, rest)
      else .error (.invalidBool b)
  Fits _ := True
  decFits _ := .isTrue trivial
  dec_enc a rest _ := by cases a <;> simp
  enc_dec bs a rest h := by
    cases bs with
    | nil => simp at h
    | cons b bs =>
      simp only at h
      split_ifs at h with h0 h1
      · obtain ⟨rfl, rfl⟩ : false = a ∧ bs = rest := by simpa using h
        simp [h0]
      · obtain ⟨rfl, rfl⟩ : true = a ∧ bs = rest := by simpa using h
        simp [h1]

/-- An option: one byte, 0 or 1, and the value after a 1. -/
def option (c : Codec α) : Codec (Option α) where
  enc
    | none => [0]
    | some a => 1 :: c.enc a
  dec bs := match bs with
    | [] => .error .unexpectedLength
    | b :: rest =>
      if b = 0 then .ok (none, rest)
      else if b = 1 then (c.dec rest).map fun p => (some p.1, p.2)
      else .error (.invalidOption b)
  Fits o := ∀ a, o = some a → c.Fits a
  decFits
    | none => .isTrue fun _ h => nomatch h
    | some a => decidable_of_iff (c.Fits a)
        ⟨fun h _ he => Option.some.inj he ▸ h, fun h => h a rfl⟩
  dec_enc o rest hfit := by
    cases o with
    | none => simp
    | some a => simp [c.dec_enc _ _ (hfit a rfl), Except.map]
  enc_dec bs o rest h := by
    cases bs with
    | nil => simp at h
    | cons b bs =>
      simp only at h
      split_ifs at h with h0 h1
      · obtain ⟨rfl, rfl⟩ : none = o ∧ bs = rest := by simpa using h
        simp [h0]
      · cases hdec : c.dec bs with
        | error e => simp [hdec, Except.map] at h
        | ok p =>
          obtain ⟨a, r⟩ := p
          obtain ⟨rfl, rfl⟩ : some a = o ∧ r = rest := by simpa [hdec, Except.map] using h
          obtain ⟨hfit, rfl⟩ := c.enc_dec _ _ _ hdec
          refine ⟨fun a' ha => ?_, by simp [h1]⟩
          obtain rfl : a = a' := by simpa using ha
          exact hfit

/-! ### Vectors -/

/-- The encodings of the items, one after the other. -/
def encItems (c : Codec α) : List α → List UInt8
  | [] => []
  | a :: as => c.enc a ++ encItems c as

/-- Decode `n` items. -/
def decItems (c : Codec α) : ℕ → List UInt8 → Except Error (List α × List UInt8)
  | 0, bs => .ok ([], bs)
  | n + 1, bs => match c.dec bs with
    | .error e => .error e
    | .ok (a, rest) => (decItems c n rest).map fun p => (a :: p.1, p.2)

theorem decItems_encItems (c : Codec α) (as : List α) (rest : List UInt8)
    (hfit : ∀ a ∈ as, c.Fits a) :
    decItems c as.length (encItems c as ++ rest) = .ok (as, rest) := by
  induction as with
  | nil => rfl
  | cons a as ih =>
    have ha := c.dec_enc a (encItems c as ++ rest) (hfit a (by simp))
    have has := ih fun b hb => hfit b (by simp [hb])
    simp [decItems, encItems, append_assoc, ha, has, Except.map]

theorem encItems_decItems (c : Codec α) {n : ℕ} {bs rest : List UInt8} {as : List α}
    (h : decItems c n bs = .ok (as, rest)) :
    as.length = n ∧ (∀ a ∈ as, c.Fits a) ∧ bs = encItems c as ++ rest := by
  induction n generalizing bs as with
  | zero =>
    obtain ⟨rfl, rfl⟩ : [] = as ∧ bs = rest := by simpa [decItems] using h
    simp [encItems]
  | succ n ih =>
    simp only [decItems] at h
    split at h
    · simp at h
    · rename_i a r hdec
      obtain ⟨hfa, rfl⟩ := c.enc_dec _ _ _ hdec
      cases hitems : decItems c n r with
      | error e => simp [hitems, Except.map] at h
      | ok p =>
        obtain ⟨bs', r'⟩ := p
        obtain ⟨rfl, rfl⟩ : a :: bs' = as ∧ r' = rest := by
          simpa [hitems, Except.map] using h
        obtain ⟨rfl, hfs, rfl⟩ := ih hitems
        refine ⟨rfl, ?_, by simp [encItems, append_assoc]⟩
        simpa [hfa] using hfs

/-- Items with at least one byte each are known from their bytes, without a count. -/
theorem encItems_inj (c : Codec α) (hne : ∀ a, c.enc a ≠ []) {as bs : List α}
    (ha : ∀ a ∈ as, c.Fits a) (hb : ∀ b ∈ bs, c.Fits b) (h : encItems c as = encItems c bs) :
    as = bs := by
  induction as generalizing bs with
  | nil =>
    cases bs with
    | nil => rfl
    | cons b bs => exact absurd (append_eq_nil_iff.mp h.symm).1 (hne b)
  | cons a as ih =>
    cases bs with
    | nil => exact absurd (append_eq_nil_iff.mp h).1 (hne a)
    | cons b bs =>
      obtain ⟨hfa, has⟩ := forall_mem_cons.mp ha
      obtain ⟨hfb, hbs⟩ := forall_mem_cons.mp hb
      obtain ⟨rfl, hrest⟩ := c.enc_append_inj hfa hfb h
      rw [ih has hbs hrest]

/-- A vector: a `u32` count and the items. -/
def vec (c : Codec α) : Codec (List α) where
  enc as := leBytes 4 as.length ++ encItems c as
  dec bs := match splitBytes 4 bs with
    | none => .error .unexpectedLength
    | some (xs, rest) => decItems c (ofLe xs) rest
  Fits as := as.length < 2 ^ 32 ∧ ∀ a ∈ as, c.Fits a
  decFits _ := instDecidableAnd
  dec_enc as rest hfit := by
    have hsplit := splitBytes_append (leBytes 4 as.length) (encItems c as ++ rest)
    rw [length_leBytes] at hsplit
    have hlen : ofLe (leBytes 4 as.length) = as.length := ofLe_leBytes 4 _ (by omega)
    simp [append_assoc, hsplit, hlen, decItems_encItems c as rest hfit.2]
  enc_dec bs as rest h := by
    split at h
    · simp at h
    · rename_i xs r hsplit
      obtain ⟨hlen, rfl⟩ := splitBytes_eq_some hsplit
      obtain ⟨hcount, hfits, rfl⟩ := encItems_decItems c h
      have hlt := ofLe_lt xs
      have hle := leBytes_ofLe xs
      rw [hlen] at hlt hle
      refine ⟨⟨by omega, hfits⟩, ?_⟩
      rw [hcount, hle, append_assoc]

/-! ### Enumerations -/

/-- Whether an option has a value with a decidable property can be decided. -/
def decidableFits {p : β → Prop} : (o : Option β) → (∀ b, Decidable (p b)) →
    Decidable (∃ b, o = some b ∧ p b)
  | none, _ => .isFalse fun ⟨_, h, _⟩ => nomatch h
  | some b, dec => @decidable_of_iff _ (p b)
      ⟨fun h => ⟨b, rfl, h⟩, fun ⟨_, he, h⟩ => Option.some.inj he ▸ h⟩ (dec b)

/-- The values of `α` made by one constructor `mk`, encoded as its argument. -/
def ctor (c : Codec β) (mk : β → α) (arg : α → Option β)
    (hmk : ∀ b, arg (mk b) = some b := by exact fun _ => rfl)
    (harg : ∀ a b, arg a = some b → mk b = a := by
      intro a b h
      cases a <;> cases h <;> rfl) : Codec α where
  enc a := match arg a with
    | some b => c.enc b
    | none => []
  dec bs := (c.dec bs).map fun p => (mk p.1, p.2)
  Fits a := ∃ b, arg a = some b ∧ c.Fits b
  decFits a := decidableFits (arg a) fun b => c.decFits b
  dec_enc a rest hfit := by
    obtain ⟨b, hb, hfit⟩ := hfit
    simp [hb, c.dec_enc _ _ hfit, Except.map, harg a b hb]
  enc_dec bs a rest h := by
    cases hdec : c.dec bs with
    | error e => simp [hdec, Except.map] at h
    | ok p =>
      obtain ⟨b, r⟩ := p
      obtain ⟨rfl, rfl⟩ : mk b = a ∧ r = rest := by simpa [hdec, Except.map] using h
      obtain ⟨hfit, rfl⟩ := c.enc_dec _ _ _ hdec
      simp [hmk, hfit]

/-- A constructor without an argument. -/
def nullary [DecidableEq α] (a : α) : Codec α :=
  ctor unit (fun _ => a) (fun x => if x = a then some () else none) (fun _ => if_pos rfl)
    fun x _ h => by simp at h; exact h.symm

/-- The variants hold the values of the constructors from number `i` on. -/
def Numbered (index : α → ℕ) : ℕ → List (Codec α) → Prop
  | _, [] => True
  | i, c :: cs => (∀ a, c.Fits a → index a = i) ∧ Numbered index (i + 1) cs

theorem index_of_ctor {c : Codec β} {mk : β → α} {arg : α → Option β}
    {hmk : ∀ b, arg (mk b) = some b} {harg : ∀ a b, arg a = some b → mk b = a} {index : α → ℕ}
    {i : ℕ} (hindex : ∀ b, index (mk b) = i) (a : α) (hfit : (ctor c mk arg hmk harg).Fits a) :
    index a = i := by
  obtain ⟨b, hb, -⟩ := hfit
  rw [← harg a b hb, hindex]

theorem Numbered.index_eq {index : α → ℕ} {cs : List (Codec α)} {c : Codec α} {a : α} {i n : ℕ}
    (h : Numbered index i cs) (hc : cs[n]? = some c) (hfit : c.Fits a) : index a = i + n := by
  induction cs generalizing i n with
  | nil => cases hc
  | cons c' cs ih =>
    cases n with
    | zero =>
      cases hc
      exact h.1 a hfit
    | succ n =>
      rw [ih h.2 hc]
      omega

/-- An enumeration: the number of the variant, then the variant. -/
def enum (index : α → ℕ) (variants : List (Codec α))
    (hindex : Numbered index 0 variants := by
      repeat' first | exact trivial | exact index_of_ctor fun _ => rfl | refine And.intro ?_ ?_) :
    Codec α where
  enc a := UInt8.ofNat (index a) :: match variants[(UInt8.ofNat (index a)).toNat]? with
    | some c => c.enc a
    | none => []
  dec bs := match bs with
    | [] => .error .unexpectedLength
    | t :: rest => match variants[t.toNat]? with
      | some c => c.dec rest
      | none => .error (.unexpectedVariant t)
  Fits a := ∃ c, variants[(UInt8.ofNat (index a)).toNat]? = some c ∧ c.Fits a
  decFits a := decidableFits variants[(UInt8.ofNat (index a)).toNat]? fun c => c.decFits a
  dec_enc a rest hfit := by
    obtain ⟨c, hc, hfit⟩ := hfit
    simp only [hc, cons_append]
    exact c.dec_enc _ _ hfit
  enc_dec bs a rest h := by
    cases bs with
    | nil => simp at h
    | cons t bs =>
      simp only at h
      split at h
      · rename_i c hc
        obtain ⟨hfit, rfl⟩ := c.enc_dec _ _ _ h
        have hnum : UInt8.ofNat (index a) = t := by
          rw [hindex.index_eq hc hfit, zero_add, UInt8.ofNat_toNat]
        exact ⟨⟨c, by rwa [hnum], hfit⟩, by simp [hnum, hc]⟩
      · simp at h

/-! ### Machine integers -/

/-- An unsigned byte. -/
def u8 : Codec UInt8 :=
  word 1 UInt8.toNat UInt8.ofNat (fun a => a.toNat_lt) (fun a => by simp)
    (fun n h => by simp at h ⊢; omega)

theorem encItems_u8 (bs : List UInt8) : encItems u8 bs = bs := by
  induction bs with
  | nil => rfl
  | cons b bs ih =>
    have hb : u8.enc b = [b] := by simp [u8, word, leBytes]
    rw [encItems, ih, hb]
    rfl

/-- An unsigned 32-bit integer. -/
def u32 : Codec UInt32 :=
  word 4 UInt32.toNat UInt32.ofNat (fun a => a.toNat_lt) (fun a => by simp)
    (fun n h => by simp at h ⊢; omega)

/-- An unsigned 64-bit integer. -/
def u64 : Codec UInt64 :=
  word 8 UInt64.toNat UInt64.ofNat (fun a => a.toNat_lt) (fun a => by simp)
    (fun n h => by simp at h ⊢; omega)

/-- A signed 64-bit integer. -/
def i64 : Codec Int64 :=
  iso u64 UInt64.toInt64 Int64.toUInt64 (fun a => by simp) (fun b => by simp)

/-- A byte vector that is valid UTF-8. -/
def string : Codec String :=
  refine (vec u8) (fun bs => String.fromUTF8? ⟨bs.toArray⟩) (fun s => s.toUTF8.data.toList)
    (fun _ => "invalid utf-8 sequence")
    (fun s => by
      have hs : s.toByteArray.IsValidUTF8 := s.isValidUTF8
      simp [String.fromUTF8?, String.toUTF8, String.fromUTF8, hs])
    (fun s bs h => by
      simp only [String.fromUTF8?, String.fromUTF8] at h
      split_ifs at h with hv
      cases h
      simp [String.toUTF8])

/-! ### Short encodings

A value has no encoding only if the length of one of its vectors does not fit its count, and then its
encoding would be long. -/

section Short

variable {c : Codec α} {d : Codec β}

/-- The values whose encoding is shorter than any count allows have one. -/
def Short (c : Codec α) : Prop := ∀ a, (c.enc a).length < 2 ^ 32 → c.Fits a

theorem Short.pair (hc : c.Short) (hd : d.Short) : (c.pair d).Short := by
  intro p h
  have hsplit : (c.enc p.1).length + (d.enc p.2).length < 2 ^ 32 := by
    rwa [← length_append]
  exact ⟨hc p.1 (by omega), hd p.2 (by omega)⟩

theorem Short.iso {f : α → β} {g : β → α} {hfg : ∀ a, f (g a) = a} {hgf : ∀ b, g (f b) = b}
    (hc : c.Short) : (c.iso f g hfg hgf).Short :=
  fun b h => hc (g b) h

theorem Short.refine {f : α → Option β} {g : β → α} {text : α → String}
    {hfg : ∀ a, f (g a) = some a} {hgf : ∀ a b, f b = some a → g a = b} (hc : c.Short) :
    (c.refine f g text hfg hgf).Short :=
  fun b h => hc (g b) h

theorem length_encItems (c : Codec α) (as : List α) :
    (encItems c as).length = (as.map fun a => (c.enc a).length).sum := by
  induction as with
  | nil => rfl
  | cons a as ih => rw [encItems, length_append, ih, map_cons, sum_cons]

theorem length_enc_vec (c : Codec α) (as : List α) :
    (c.vec.enc as).length = 4 + (as.map fun a => (c.enc a).length).sum := by
  rw [← length_encItems, vec, length_append, length_leBytes]

theorem Short.vec (hc : c.Short) (hne : ∀ a, c.enc a ≠ []) : c.vec.Short := by
  intro as h
  rw [length_enc_vec] at h
  have hcount : as.length ≤ (as.map fun a => (c.enc a).length).sum := by
    rw [← length_map (fun a => (c.enc a).length)]
    refine length_le_sum_of_one_le _ fun n hn => ?_
    obtain ⟨a, -, rfl⟩ := mem_map.mp hn
    exact length_pos_iff.mpr (hne a)
  refine ⟨by omega, fun a ha => hc a ?_⟩
  have hle := single_le_sum (fun _ _ => Nat.zero_le _) _
    (mem_map.mpr ⟨a, ha, rfl⟩ : (c.enc a).length ∈ as.map fun a => (c.enc a).length)
  omega

theorem vec_enc_ne_nil (c : Codec α) (as : List α) : c.vec.enc as ≠ [] :=
  ne_nil_of_length_pos (by rw [length_enc_vec]; omega)

theorem short_u8 : u8.Short := fun _ _ => trivial

theorem short_vec_u8 : u8.vec.Short :=
  short_u8.vec fun a h => by simp [u8, word, leBytes] at h

end Short

end Codec

end Borsh

import Nusantara.Consensus.Replay

/-!
# The proof of history on a GPU

A node that found a GPU has the entries of a block verified by a shader
(`consensus/src/gpu/{mod.rs,poh_verify.wgsl}`): `replay_block` makes a window of every two
consecutive entries, `verify_batch` sends the windows in chunks of as many as the device takes at
once, and the shader hashes the first hash of each window as often as it says and compares.  A step
that does not fit 32 bits, or a device that fails, sends the entries to the CPU instead.

The CPU asks that the counts of hashes increase strictly.  The windows ask only that they do not
decrease: an entry that repeats the one before it is a window of no hashes, which the shader finds
to be right.

## Main results

* `GpuVerifier.verifyBatch_eq_ok`: what a batch comes to, chunk after chunk.
* `verifyPohEntries_isOk`: what the CPU accepts.
* `checkPoh_isOk`: what the GPU accepts.
* `gpu_agrees_iff`: the entries on which the two agree.
-/

namespace Nusantara

open Borsh Exec List UInt64 Nat
open PohEntry (numHashes)
open Except (ok)

/-! ### The shader -/

/-- A lane of the Keccak state, two `u32` for a `u64`. -/
structure Lane where
  lo : UInt32
  hi : UInt32
  deriving DecidableEq

namespace Lane

def zero : Lane := ⟨0, 0⟩

def xor (a b : Lane) : Lane := ⟨a.lo ^^^ b.lo, a.hi ^^^ b.hi⟩

/-- `(~a) & b`. -/
def andNot (a b : Lane) : Lane := ⟨~~~a.lo &&& b.lo, ~~~a.hi &&& b.hi⟩

/-- `rot64`. -/
def rot64 (a : Lane) (n : UInt32) : Lane :=
  let shift := n % 64
  if shift = 0 then a
  else if shift < 32 then
    ⟨(a.lo <<< shift) ||| (a.hi >>> (32 - shift)), (a.hi <<< shift) ||| (a.lo >>> (32 - shift))⟩
  else
    let s := shift - 32
    if s = 0 then ⟨a.hi, a.lo⟩
    else ⟨(a.hi <<< s) ||| (a.lo >>> (32 - s)), (a.lo <<< s) ||| (a.hi >>> (32 - s))⟩

end Lane

namespace Shader

/-- `RC_LO`, `RC_HI`. -/
def roundConstants : List Lane :=
  [⟨0x00000001, 0x00000000⟩, ⟨0x00008082, 0x00000000⟩, ⟨0x0000808a, 0x80000000⟩,
    ⟨0x80008000, 0x80000000⟩, ⟨0x0000808b, 0x00000000⟩, ⟨0x80000001, 0x00000000⟩,
    ⟨0x80008081, 0x80000000⟩, ⟨0x00008009, 0x80000000⟩, ⟨0x0000008a, 0x00000000⟩,
    ⟨0x00000088, 0x00000000⟩, ⟨0x80008009, 0x00000000⟩, ⟨0x8000000a, 0x00000000⟩,
    ⟨0x8000808b, 0x00000000⟩, ⟨0x0000008b, 0x80000000⟩, ⟨0x00008089, 0x80000000⟩,
    ⟨0x00008003, 0x80000000⟩, ⟨0x00008002, 0x80000000⟩, ⟨0x00000080, 0x80000000⟩,
    ⟨0x0000800a, 0x00000000⟩, ⟨0x8000000a, 0x80000000⟩, ⟨0x80008081, 0x80000000⟩,
    ⟨0x00008080, 0x80000000⟩, ⟨0x80000001, 0x00000000⟩, ⟨0x80008008, 0x80000000⟩]

/-- `RHO_OFFSETS`. -/
def rhoOffsets : List UInt32 :=
  [0, 1, 62, 28, 27, 36, 44, 6, 55, 20, 3, 10, 43, 25, 39, 41, 45, 15, 21, 8, 18, 2, 61, 56, 14]

/-- `PI_INDICES`. -/
def piIndices : List ℕ :=
  [0, 10, 20, 5, 15, 16, 1, 11, 21, 6, 7, 17, 2, 12, 22, 23, 8, 18, 3, 13, 14, 24, 9, 19, 4]

/-- The lane number `i`. -/
def lane (state : List Lane) (i : ℕ) : Lane := state.getD i Lane.zero

/-- The theta step. -/
def theta (state : List Lane) : List Lane :=
  let c := (range 5).map fun x =>
    ((((lane state x).xor (lane state (x + 5))).xor (lane state (x + 10))).xor
      (lane state (x + 15))).xor (lane state (x + 20))
  let d := (range 5).map fun x =>
    (lane c ((x + 4) % 5)).xor ((lane c ((x + 1) % 5)).rot64 1)
  (range 25).map fun i => (lane state i).xor (lane d (i % 5))

/-- The rho and pi steps. -/
def rhoPi (state : List Lane) : List Lane :=
  (range 25).foldl (fun temp i =>
    temp.set (piIndices.getD i 0) ((lane state i).rot64 (rhoOffsets.getD i 0)))
    (replicate 25 Lane.zero)

/-- The chi step. -/
def chi (temp : List Lane) : List Lane :=
  (range 25).map fun i => (lane temp i).xor
    ((lane temp ((i % 5 + 1) % 5 + i / 5 * 5)).andNot (lane temp ((i % 5 + 2) % 5 + i / 5 * 5)))

/-- The iota step. -/
def iota (round : ℕ) (state : List Lane) : List Lane :=
  state.modify 0 fun a => a.xor (lane roundConstants round)

/-- One turn of the main loop of the shader: the words of a hash are absorbed and padded, permuted
in 24 rounds and squeezed. -/
def sha3 (currentHash : List UInt32) : List UInt32 :=
  let absorbed := (range 25).map fun i =>
    if i < 8 then ⟨currentHash.getD (2 * i) 0, currentHash.getD (2 * i + 1) 0⟩
    else if i = 8 then ⟨0x00000006, 0x80000000⟩
    else Lane.zero
  let state := (range 24).foldl (fun s round => iota round (chi (rhoPi (theta s)))) absorbed
  (range 8).flatMap fun i => [(lane state i).lo, (lane state i).hi]

end Shader

-- SHA3-512 of 64 zero bytes.
example : Shader.sha3 (replicate 16 0) =
    [0xf5923d24, 0x4c8a32a1, 0x6dcbf4c9, 0xf7e60ea6, 0x2f4762b3, 0x11fcd47a, 0xc846367e, 0x4c576150,
      0xbd10e112, 0x908dd9fc, 0x6b9bd1f0, 0xa7445bff, 0x97a19dc6, 0x22853a5c, 0x21b95e09,
      0x283c557e] := by
  decide +kernel

/-! ### The device -/

/-- `GpuPohEntry`. -/
structure GpuPohEntry where
  initialHash : List UInt32
  numHashesLo : UInt32
  numHashesHi : UInt32
  expectedHash : List UInt32
  deriving DecidableEq

/-- A hash as the words that the shader takes. -/
def Hash.words (h : Hash) : List UInt32 :=
  (h.asBytes.chunksOf 4).map fun chunk =>
    if chunk.length = 4 then UInt32.ofNat (ofLe chunk) else 0

/-- A window, as `verify_chunk` sends it to the shader: initial hash, number of hashes and expected
hash. -/
def gpuEntry (w : Hash × UInt64 × Hash) : GpuPohEntry :=
  { initialHash := w.1.words, numHashesLo := w.2.1.toUInt32, numHashesHi := (w.2.1 >>> 32).toUInt32,
    expectedHash := w.2.2.words }

/-- `main` of the shader: only the low half of the number of hashes is read. -/
def Shader.main (entry : GpuPohEntry) : UInt32 :=
  let currentHash := Shader.sha3^[entry.numHashesLo.toNat] entry.initialHash
  (range 16).foldl (fun matchResult i =>
    if currentHash.getD i 0 ≠ entry.expectedHash.getD i 0 then 0 else matchResult) 1

/-- `GpuPohVerifier`: how many windows the device takes at once, and whether it runs the shader over
a buffer of entries. -/
structure GpuVerifier where
  maxDispatch : ℕ
  maxDispatch_pos : 0 < maxDispatch
  submit : List GpuPohEntry → Except String Unit

namespace GpuVerifier

/-- `GpuPohVerifier::verify_chunk`. -/
def verifyChunk (dev : GpuVerifier) (entries : List (Hash × UInt64 × Hash)) :
    Except String (List Bool) := do
  let gpuEntries := entries.map gpuEntry
  dev.submit gpuEntries
  let results := gpuEntries.map Shader.main
  return results.map fun r => decide (r = 1)

/-- `copy_from_slice` into the part of a list from `offset` on. -/
def copyFromSlice (l : List Bool) (offset : ℕ) (src : List Bool) : List Bool :=
  l.take offset ++ src ++ l.drop (offset + src.length)

/-- A turn of the loop of `verify_batch`: the results so far and where the next ones go. -/
def verifyNext (dev : GpuVerifier) (a : List Bool × ℕ) (chunk : List (Hash × UInt64 × Hash)) :
    Except String (List Bool × ℕ) := do
  let chunkResults ← dev.verifyChunk chunk
  return (copyFromSlice a.1 a.2 chunkResults, a.2 + chunk.length)

/-- `GpuPohVerifier::verify_batch`. -/
def verifyBatch (dev : GpuVerifier) (entries : List (Hash × UInt64 × Hash)) :
    Except String (List Bool) := do
  if entries.isEmpty then return []
  let (allResults, _) ← (entries.chunksOf dev.maxDispatch).foldlM dev.verifyNext
    (replicate entries.length false, 0)
  return allResults

/-- The device runs the shader over every chunk of the windows. -/
def Answers (dev : GpuVerifier) (entries : List (Hash × UInt64 × Hash)) : Prop :=
  ∀ chunk ∈ entries.chunksOf dev.maxDispatch, dev.submit (chunk.map gpuEntry) = .ok ()

end GpuVerifier

/-- What the shader says of a window. -/
def shaderVerdict (w : Hash × UInt64 × Hash) : Bool := decide (Shader.main (gpuEntry w) = 1)

/-- The main loop of the shader computes the hash of the platform. -/
def ShaderComputes (P : Platform) : Prop :=
  ∀ h : Hash, Shader.sha3 h.words = (P.hash h.asBytes).words

/-! ### A batch -/

namespace GpuVerifier

variable {dev : GpuVerifier} {entries : List (Hash × UInt64 × Hash)} {results : List Bool}

theorem verifyChunk_eq_ok :
    dev.verifyChunk entries = .ok results ↔
      dev.submit (entries.map gpuEntry) = .ok () ∧ entries.map shaderVerdict = results := by
  simp only [verifyChunk, exceptBind_eq_ok, map_map]
  constructor
  · rintro ⟨_, hsubmit, hresults⟩
    exact ⟨hsubmit, ok.inj hresults⟩
  · rintro ⟨hsubmit, rfl⟩
    exact ⟨(), hsubmit, rfl⟩

/-- The loop over the chunks: what is done stays, and the rest of the results, which is not yet
filled, is as long as the rest of the windows. -/
theorem foldlM_verifyNext {chunks : List (List (Hash × UInt64 × Hash))} {done : List Bool} {n : ℕ} :
    chunks.foldlM dev.verifyNext
        (done ++ replicate chunks.flatten.length false, done.length) = .ok (results, n) ↔
      (∀ chunk ∈ chunks, dev.submit (chunk.map gpuEntry) = .ok ()) ∧
        done ++ chunks.flatten.map shaderVerdict = results ∧
        done.length + chunks.flatten.length = n := by
  induction chunks generalizing done with
  | nil =>
    simp only [foldlM_nil, flatten_nil, length_nil, replicate_zero,
      map_nil, append_nil, not_mem_nil, false_imp_iff, implies_true, true_and,
      add_zero]
    exact ⟨fun h => Prod.mk.inj (ok.inj h), by rintro ⟨rfl, rfl⟩; rfl⟩
  | cons chunk chunks ih =>
    have hcopy : copyFromSlice
        (done ++ replicate (chunk :: chunks).flatten.length false) done.length
        (chunk.map shaderVerdict) = (done ++ chunk.map shaderVerdict) ++
          replicate chunks.flatten.length false := by
      rw [copyFromSlice, take_left' rfl, drop_append, drop_of_length_le (by simp),
        drop_replicate]
      simp [append_assoc]
    have hlength : done.length + chunk.length = (done ++ chunk.map shaderVerdict).length := by simp
    have hnext : ∀ a, dev.verifyNext
        (done ++ replicate (chunk :: chunks).flatten.length false, done.length) chunk = .ok a ↔
          dev.submit (chunk.map gpuEntry) = .ok () ∧ (done ++ chunk.map shaderVerdict ++
            replicate chunks.flatten.length false,
            (done ++ chunk.map shaderVerdict).length) = a := by
      intro a
      simp only [verifyNext, exceptBind_eq_ok, verifyChunk_eq_ok]
      constructor
      · rintro ⟨_, ⟨hsubmit, rfl⟩, ha⟩
        rw [hcopy, hlength] at ha
        exact ⟨hsubmit, ok.inj ha⟩
      · rintro ⟨hsubmit, rfl⟩
        exact ⟨_, ⟨hsubmit, rfl⟩, by rw [hcopy, hlength]; rfl⟩
    simp only [foldlM_cons, exceptBind_eq_ok, hnext, forall_mem_cons]
    constructor
    · rintro ⟨_, ⟨hsubmit, rfl⟩, hrest⟩
      obtain ⟨hsubmits, hresults, hn⟩ := ih.mp hrest
      refine ⟨⟨hsubmit, hsubmits⟩, ?_, ?_⟩
      · rw [← hresults, flatten_cons, map_append, append_assoc]
      · rw [← hn, ← hlength, flatten_cons, length_append, add_assoc]
    · rintro ⟨⟨hsubmit, hsubmits⟩, hresults, hn⟩
      refine ⟨_, ⟨hsubmit, rfl⟩, ih.mpr ⟨hsubmits, ?_, ?_⟩⟩
      · rw [← hresults, flatten_cons, map_append, append_assoc]
      · rw [← hn, ← hlength, flatten_cons, length_append, add_assoc]

/-- **A batch**, whatever the size of the chunks, is the verdict on every window in turn. -/
theorem verifyBatch_eq_ok :
    dev.verifyBatch entries = .ok results ↔
      dev.Answers entries ∧ entries.map shaderVerdict = results := by
  have hflatten := flatten_chunksOf dev.maxDispatch_pos entries
  have hloop : ∀ n, (entries.chunksOf dev.maxDispatch).foldlM dev.verifyNext
      (replicate entries.length false, 0) = .ok (results, n) ↔
        dev.Answers entries ∧ entries.map shaderVerdict = results ∧ entries.length = n := by
    intro n
    have h := @foldlM_verifyNext dev results (entries.chunksOf dev.maxDispatch) [] n
    rwa [hflatten, nil_append, nil_append, length_nil, zero_add] at h
  cases entries with
  | nil =>
    refine ⟨fun h => ⟨by simp [Answers, chunksOf, chunksFrom], ok.inj h⟩, ?_⟩
    rintro ⟨-, rfl⟩
    rfl
  | cons w entries =>
    have hbatch : dev.verifyBatch (w :: entries) =
        ((w :: entries).chunksOf dev.maxDispatch).foldlM dev.verifyNext
          (replicate (w :: entries).length false, 0) >>= fun a => .ok a.1 := rfl
    simp only [hbatch, exceptBind_eq_ok]
    constructor
    · rintro ⟨⟨allResults, n⟩, hfold, hresults⟩
      cases hresults
      obtain ⟨hanswers, hverdicts, -⟩ := (hloop n).mp hfold
      exact ⟨hanswers, hverdicts⟩
    · rintro ⟨hanswers, hverdicts⟩
      exact ⟨(results, _), (hloop _).mpr ⟨hanswers, hverdicts, rfl⟩, rfl⟩

end GpuVerifier

/-! ### The verdict on a window -/

/-- The bytes of a hash from its words. -/
theorem asBytes_of_words (h : Hash) :
    h.words.flatMap (fun word => leBytes 4 word.toNat) = h.asBytes := by
  have hchunks : ∀ k (bs : List UInt8), bs.length = 4 * k →
      ((bs.chunksOf 4).map fun chunk =>
        if chunk.length = 4 then UInt32.ofNat (ofLe chunk) else 0).flatMap
          (fun word => leBytes 4 word.toNat) = bs := by
    intro k
    induction k with
    | zero =>
      intro bs hbs
      rw [length_eq_zero_iff.mp hbs]
      rfl
    | succ k ih =>
      intro bs hbs
      have hne : bs ≠ [] := ne_nil_of_length_pos (by omega)
      have htake : (bs.take 4).length = 4 := by rw [length_take]; omega
      have hlt : ofLe (bs.take 4) < 2 ^ 32 := by
        have hlt := ofLe_lt (bs.take 4)
        rwa [htake] at hlt
      have hfirst : leBytes 4 (UInt32.ofNat (ofLe (bs.take 4))).toNat = bs.take 4 := by
        rw [UInt32.toNat_ofNat', mod_eq_of_lt hlt]
        have hbytes := leBytes_ofLe (bs.take 4)
        rwa [htake] at hbytes
      rw [chunksOf_of_ne_nil (by omega) hne, map_cons, flatMap_cons, if_pos htake,
        hfirst, ih _ (by rw [length_drop]; omega), take_append_drop]
  exact hchunks 16 h.asBytes h.size_eq

theorem Hash.words_inj {h h' : Hash} (hsame : h.words = h'.words) : h = h' := by
  have hbytes : h.asBytes = h'.asBytes := by
    rw [← asBytes_of_words h, hsame, asBytes_of_words h']
  cases h
  cases h'
  simpa using hbytes

theorem Hash.length_words (h : Hash) : h.words.length = 16 := by
  have hlength := congrArg length (asBytes_of_words h)
  rw [length_flatMap] at hlength
  simp only [length_leBytes, map_const', sum_replicate_nat, h.size_eq, hashBytes]
    at hlength
  omega

/-- The comparison at the end of the shader. -/
theorem foldl_compare (l l' : List UInt32) (n : ℕ) (r : UInt32) :
    (range n).foldl (fun matchResult i =>
        if l.getD i 0 ≠ l'.getD i 0 then 0 else matchResult) r
      = if ∀ i < n, l.getD i 0 = l'.getD i 0 then r else 0 := by
  induction n with
  | zero => simp
  | succ n ih =>
    rw [range_succ, foldl_concat, ih]
    by_cases hlast : l.getD n 0 = l'.getD n 0
    · rw [if_neg (not_not.mpr hlast)]
      exact if_congr (by rw [forall_lt_succ_right]; tauto) rfl rfl
    · rw [if_pos hlast, if_neg fun hall => hlast (hall n n.lt_succ_self)]

theorem main_eq_one {entry : GpuPohEntry} :
    Shader.main entry = 1 ↔ ∀ i < 16, (Shader.sha3^[entry.numHashesLo.toNat]
      entry.initialHash).getD i 0 = entry.expectedHash.getD i 0 := by
  rw [Shader.main, foldl_compare]
  split_ifs with hall
  · exact iff_of_true rfl hall
  · exact iff_of_false (by decide) hall

section Verdict

variable {P : Platform} {w : Hash × UInt64 × Hash}

theorem iterate_sha3 (hshader : ShaderComputes P) (n : ℕ) (h : Hash) :
    Shader.sha3^[n] h.words = ((fun h => P.hash h.asBytes)^[n] h).words := by
  induction n with
  | zero => rfl
  | succ n ih => rw [Function.iterate_succ_apply', ih, hshader, Function.iterate_succ_apply']

/-- **The verdict on a window** whose number of hashes fits the low half. -/
theorem shaderVerdict_eq_true (hshader : ShaderComputes P) (hsmall : w.2.1.toNat < 2 ^ 32) :
    shaderVerdict w = true ↔ (fun h => P.hash h.asBytes)^[w.2.1.toNat] w.1 = w.2.2 := by
  have hlow : (gpuEntry w).numHashesLo.toNat = w.2.1.toNat := by
    rw [gpuEntry, toNat_toUInt32, mod_eq_of_lt hsmall]
  rw [shaderVerdict, decide_eq_true_iff, main_eq_one, hlow, gpuEntry]
  dsimp only
  rw [iterate_sha3 hshader]
  constructor
  · intro hall
    refine Hash.words_inj (ext_getElem (by rw [Hash.length_words, Hash.length_words]) ?_)
    intro i hi hi'
    have hsame := hall i (by rwa [Hash.length_words] at hi)
    simpa [getD, hi, hi'] using hsame
  · intro hsame i _
    rw [hsame]

end Verdict

/-! ### What is accepted -/

/-- The entries follow each other: no count is lower than the one before it, and every hash is the
one before it, hashed as often as the counts differ. -/
def FollowsPoh (P : Platform) : Hash → UInt64 → List PohEntry → Prop
  | _, _, [] => True
  | current, prevNum, entry :: rest =>
    prevNum ≤ entry.numHashes ∧
      (fun h => P.hash h.asBytes)^[(entry.numHashes - prevNum).toNat] current = entry.hash ∧
      FollowsPoh P entry.hash entry.numHashes rest

/-- The windows of the entries. -/
def pohWindows : Hash → UInt64 → List PohEntry → List (Hash × UInt64 × Hash)
  | _, _, [] => []
  | current, prevNum, entry :: rest =>
    (current, entry.numHashes - prevNum, entry.hash) :: pohWindows entry.hash entry.numHashes rest

/-- The counts of hashes increase strictly. -/
def CountsIncrease (entries : List PohEntry) : Prop :=
  List.IsChain (· < ·) (0 :: entries.map numHashes)

instance : DecidablePred CountsIncrease := fun entries =>
  inferInstanceAs (Decidable (List.IsChain (· < ·) (0 :: entries.map numHashes)))

section Accepted

variable {P : Platform} {dev : GpuVerifier} {entries : List PohEntry} {current : Hash}
  {prevNum : UInt64} {i : ℕ}

theorem verifyPohFrom_isOk :
    (verifyPohFrom P i current prevNum entries).isOk = true ↔
      FollowsPoh P current prevNum entries ∧
        List.IsChain (· < ·) (prevNum :: entries.map numHashes) := by
  induction entries generalizing i current prevNum with
  | nil => simp [verifyPohFrom, FollowsPoh, Except.isOk, Except.toBool]
  | cons entry rest ih =>
    rw [verifyPohFrom, map_cons, isChain_cons_cons, FollowsPoh]
    by_cases hcount : entry.numHashes ≤ prevNum
    · rw [if_pos hcount]
      refine iff_of_false (by simp [Except.isOk, Except.toBool]) ?_
      rintro ⟨-, hlt, -⟩
      exact absurd hlt (not_lt.mpr hcount)
    · have hlt := not_le.mp hcount
      rw [if_neg hcount]
      dsimp only
      by_cases hhash : (fun h => P.hash h.asBytes)^[(entry.numHashes - prevNum).toNat] current
          = entry.hash
      · rw [if_neg (not_not.mpr hhash), hhash, ih]
        exact ⟨fun ⟨hrest, hchain⟩ => ⟨⟨le_of_lt hlt, rfl, hrest⟩, hlt, hchain⟩,
          fun ⟨⟨_, _, hrest⟩, _, hchain⟩ => ⟨hrest, hchain⟩⟩
      · rw [if_pos hhash]
        refine iff_of_false (by simp [Except.isOk, Except.toBool]) ?_
        rintro ⟨⟨-, hsame, -⟩, -⟩
        exact hhash hsame

/-- **What the CPU accepts.** -/
theorem verifyPohEntries_isOk :
    (verifyPohEntries P current entries).isOk = true ↔
      FollowsPoh P current 0 entries ∧ CountsIncrease entries :=
  verifyPohFrom_isOk

theorem followsPoh_iff :
    FollowsPoh P current prevNum entries ↔
      List.IsChain (· ≤ ·) (prevNum :: entries.map numHashes) ∧
        ∀ w ∈ pohWindows current prevNum entries,
          (fun h => P.hash h.asBytes)^[w.2.1.toNat] w.1 = w.2.2 := by
  induction entries generalizing current prevNum with
  | nil => simp [FollowsPoh, pohWindows]
  | cons entry rest ih =>
    rw [FollowsPoh, pohWindows, map_cons, isChain_cons_cons, forall_mem_cons, ih]
    tauto

/-- The windows are made if no count is lower than the one before it. -/
theorem gpuWindows_eq_ok {first : PohEntry} {windows : List (Hash × UInt64 × Hash)} :
    gpuWindows (first :: entries) = .ok windows ↔
      List.IsChain (· ≤ ·) (first.numHashes :: entries.map numHashes) ∧
        pohWindows first.hash first.numHashes entries = windows := by
  induction entries generalizing first windows with
  | nil =>
    rw [map_nil, pohWindows]
    exact ⟨fun h => ⟨isChain_singleton _, ok.inj h⟩, fun h => congrArg _ h.2⟩
  | cons second rest ih =>
    rw [gpuWindows, map_cons, isChain_cons_cons, pohWindows]
    by_cases hcount : first.numHashes ≤ second.numHashes
    · have hdelta : Word.checkedSub second.numHashes first.numHashes
          = some (second.numHashes - first.numHashes) := if_pos hcount
      simp only [hdelta, exceptBind_eq_ok, ih]
      constructor
      · rintro ⟨_, hok, _, ⟨hchain, rfl⟩, hwindows⟩
        cases hok
        exact ⟨⟨hcount, hchain⟩, ok.inj hwindows⟩
      · rintro ⟨⟨-, hchain⟩, rfl⟩
        exact ⟨_, rfl, _, ⟨hchain, rfl⟩, rfl⟩
    · have hdelta : Word.checkedSub second.numHashes first.numHashes = none := if_neg hcount
      simp only [hdelta, exceptBind_eq_ok, reduceCtorEq, false_and, exists_false, false_iff]
      exact fun h => hcount h.1.1

theorem checkPoh_isOk_of_pohValid {gpuVerifier valid : Bool} (hne : entries ≠ [])
    (h : pohValid P gpuVerifier current entries = .ok valid) :
    (checkPoh P gpuVerifier current entries).isOk = valid := by
  rw [checkPoh, if_neg hne, h]
  cases valid <;> rfl

/-- If no count is lower than the one before it, the check asks the GPU, if all steps fit 32 bits,
and falls back to the CPU, if not or if the device fails. -/
theorem pohValid_of_isChain (hne : entries ≠ [])
    (h : List.IsChain (· ≤ ·) (0 :: entries.map numHashes)) :
    pohValid P true current entries =
      if (pohWindows current 0 entries).any fun w => 2 ^ 32 ≤ w.2.1.toNat then
        .ok (verifyPohEntries P current entries).isOk
      else match P.gpuVerifyBatch (pohWindows current 0 entries) with
        | .ok results => .ok (results.all id)
        | .error _ => .ok (verifyPohEntries P current entries).isOk := by
  obtain ⟨first, rest, rfl⟩ := exists_cons_of_ne_nil hne
  rw [map_cons, isChain_cons_cons] at h
  rw [pohValid, gpuWindows_eq_ok.mpr ⟨h.2, rfl⟩, pohWindows, UInt64.sub_zero]
  rfl

/-- **What the GPU accepts.**  An entry that repeats the one before it is accepted if the device
answers and all steps fit 32 bits. -/
theorem checkPoh_isOk (hdev : P.gpuVerifyBatch = dev.verifyBatch) (hshader : ShaderComputes P) :
    (checkPoh P true current entries).isOk = true ↔
      FollowsPoh P current 0 entries ∧ (CountsIncrease entries ∨
        (∀ w ∈ pohWindows current 0 entries, w.2.1.toNat < 2 ^ 32) ∧
          dev.Answers (pohWindows current 0 entries)) := by
  by_cases hne : entries = []
  · subst hne
    exact iff_of_true rfl ⟨trivial, .inl (isChain_singleton _)⟩
  by_cases hchain : List.IsChain (· ≤ ·) (0 :: entries.map numHashes)
  swap
  · -- No windows are made.
    refine iff_of_false (fun hok => ?_) fun h => hchain (followsPoh_iff.mp h.1).1
    obtain ⟨first, rest, rfl⟩ := exists_cons_of_ne_nil hne
    rw [checkPoh, if_neg hne] at hok
    cases hwindows : gpuWindows (first :: rest) with
    | error e =>
      rw [pohValid, hwindows] at hok
      exact absurd hok (by simp [bind, Except.bind, Except.isOk, Except.toBool])
    | ok windows =>
      obtain ⟨hrest, -⟩ := gpuWindows_eq_ok.mp hwindows
      exact hchain (isChain_cons_cons.mpr ⟨UInt64.zero_le .., hrest⟩)
  have hvalid := @pohValid_of_isChain P entries current hne hchain
  have hany : ((pohWindows current 0 entries).any fun w => 2 ^ 32 ≤ w.2.1.toNat) = true ↔
      ¬∀ w ∈ pohWindows current 0 entries, w.2.1.toNat < 2 ^ 32 := by
    simp only [any_eq_true, decide_eq_true_eq]
    push_neg
    rfl
  by_cases hsmall : ∀ w ∈ pohWindows current 0 entries, w.2.1.toNat < 2 ^ 32
  · rw [if_neg fun hbig => hany.mp hbig hsmall, hdev] at hvalid
    cases hbatch : dev.verifyBatch (pohWindows current 0 entries) with
    | ok results =>
      obtain ⟨hanswers, rfl⟩ := GpuVerifier.verifyBatch_eq_ok.mp hbatch
      rw [hbatch] at hvalid
      rw [checkPoh_isOk_of_pohValid hne hvalid, all_map, all_eq_true, followsPoh_iff]
      have hverdicts : (∀ w ∈ pohWindows current 0 entries, shaderVerdict w = true) ↔
          ∀ w ∈ pohWindows current 0 entries,
            (fun h => P.hash h.asBytes)^[w.2.1.toNat] w.1 = w.2.2 :=
        forall₂_congr fun w hw => shaderVerdict_eq_true hshader (hsmall w hw)
      exact ⟨fun h => ⟨⟨hchain, hverdicts.mp h⟩, .inr ⟨hsmall, hanswers⟩⟩,
        fun h => hverdicts.mpr h.1.2⟩
    | error e =>
      have hanswers : ¬dev.Answers (pohWindows current 0 entries) := by
        intro hanswers
        have hok := GpuVerifier.verifyBatch_eq_ok.mpr ⟨hanswers, rfl⟩
        exact absurd (hbatch.symm.trans hok) (by simp)
      rw [hbatch] at hvalid
      rw [checkPoh_isOk_of_pohValid hne hvalid, verifyPohEntries_isOk]
      tauto
  · rw [if_pos (hany.mpr hsmall)] at hvalid
    rw [checkPoh_isOk_of_pohValid hne hvalid, verifyPohEntries_isOk]
    tauto

end Accepted

/-- **The entries on which GPU and CPU agree**: all but those that follow each other with a count
repeated, in steps that fit 32 bits, on a device that answers. -/
theorem gpu_agrees_iff (P : Platform) (dev : GpuVerifier)
    (hdev : P.gpuVerifyBatch = dev.verifyBatch) (hshader : ShaderComputes P) (parentPoh : Hash)
    (entries : List PohEntry) :
    (checkPoh P true parentPoh entries).isOk = (verifyPohEntries P parentPoh entries).isOk ↔
      ¬(FollowsPoh P parentPoh 0 entries ∧ ¬CountsIncrease entries ∧
        (∀ w ∈ pohWindows parentPoh 0 entries, w.2.1.toNat < 2 ^ 32) ∧
        dev.Answers (pohWindows parentPoh 0 entries)) := by
  rw [Bool.eq_iff_iff, checkPoh_isOk hdev hshader, verifyPohEntries_isOk]
  tauto

namespace Sample

/-- A device that takes two windows at once and always answers. -/
def gpu : GpuVerifier where
  maxDispatch := 2
  maxDispatch_pos := by decide
  submit _ := .ok ()

/-- The hash whose words are given. -/
def ofWords (words : List UInt32) : Hash :=
  ⟨(words.flatMap (fun word : UInt32 => leBytes 4 word.toNat) ++ replicate hashBytes 0).take
    hashBytes, by simp [hashBytes]⟩

/-- A platform with a GPU, on which the hash of a hash is what the shader computes. -/
def gpuPlatform : Platform :=
  { Platform.sample false with
    hash := fun bs =>
      if h : bs.length = hashBytes then ofWords (Shader.sha3 (Hash.words ⟨bs, h⟩))
      else (Platform.sample false).hash bs
    gpuVerifyBatch := gpu.verifyBatch
    programIds_nodup := by decide }

theorem words_ofWords {words : List UInt32} (hlength : words.length = 16) :
    (ofWords words).words = words := by
  have hchunks : ∀ words : List UInt32,
      ((words.flatMap (fun word : UInt32 => leBytes 4 word.toNat)).chunksOf 4).map
        (fun chunk => if chunk.length = 4 then UInt32.ofNat (ofLe chunk) else 0) = words := by
    intro words
    induction words with
    | nil => rfl
    | cons word words ih =>
      have hfirst : UInt32.ofNat (ofLe (leBytes 4 word.toNat)) = word := by
        rw [ofLe_leBytes 4 _ word.toNat_lt, UInt32.ofNat_toNat]
      rw [flatMap_cons, chunksOf_of_ne_nil (by omega) (by simp [leBytes]),
        take_left' (length_leBytes ..), drop_left' (length_leBytes ..), map_cons,
        if_pos (length_leBytes ..), hfirst, ih]
  have hbytes : (ofWords words).asBytes
      = words.flatMap (fun word : UInt32 => leBytes 4 word.toNat) := by
    refine take_left' ?_
    rw [length_flatMap]
    simp only [length_leBytes, map_const', sum_replicate_nat, hlength, hashBytes]
  rw [Hash.words, hbytes, hchunks]

theorem shaderComputes : ShaderComputes gpuPlatform := by
  intro h
  have hhash : gpuPlatform.hash h.asBytes = ofWords (Shader.sha3 h.words) := dif_pos h.size_eq
  have hlength : (Shader.sha3 h.words).length = 16 := by simp [Shader.sha3, length_flatMap]
  rw [hhash, words_ofWords hlength]

end Sample

open Sample in
/-- An entry after one hash is judged alike. -/
theorem gpu_agrees_on_increasing :
    CountsIncrease [⟨1, gpuPlatform.hash Hash.zero.asBytes⟩] ∧
      (checkPoh gpuPlatform true Hash.zero [⟨1, gpuPlatform.hash Hash.zero.asBytes⟩]).isOk
        = (verifyPohEntries gpuPlatform Hash.zero
          [⟨1, gpuPlatform.hash Hash.zero.asBytes⟩]).isOk := by
  have hincrease : CountsIncrease [⟨1, gpuPlatform.hash Hash.zero.asBytes⟩] := by
    simp [CountsIncrease]
  exact ⟨hincrease, (gpu_agrees_iff gpuPlatform gpu rfl shaderComputes _ _).mpr
    fun hcontra => hcontra.2.1 hincrease⟩

open Sample in
/-- An entry that repeats the parent hash after no hashes is right for the GPU and wrong for the
CPU. -/
theorem gpu_accepts_repeated_entry :
    gpuPlatform.gpuVerifyBatch = gpu.verifyBatch ∧ ShaderComputes gpuPlatform ∧
      (checkPoh gpuPlatform true Hash.zero [⟨0, Hash.zero⟩]).isOk = true ∧
      (verifyPohEntries gpuPlatform Hash.zero [⟨0, Hash.zero⟩]).isOk = false :=
  ⟨rfl, shaderComputes, by decide +kernel⟩

end Nusantara

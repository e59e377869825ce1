import Nusantara.Consensus.Bank
import Nusantara.Lib.Trace
import Nusantara.Runtime.Slot
import Mathlib.Data.Set.Function

/-!
# The bank hash and the history

The deltas of the transactions of a slot are fed to one hasher, one after another
(`runtime/src/slot_commit.rs`), and the bank hash of a slot is the hash of its parent's and of the
digest of its deltas (`consensus/src/bank_state.rs`).  The bytes of a delta are its Borsh encoding,
which says where it ends: so the digest knows the deltas and their order, and the bank hash knows the
deltas of every slot before it.

No hash is free of collisions: what is asked is that none happens among the inputs of the two chains.

## Main results

* `deltas_of_slotBytes_eq`: the bytes that a slot feeds to the hasher determine its deltas.
* `bankHash_binds_history`: chains with the same bank hash have committed the same deltas.
-/

namespace Nusantara

open Borsh Exec List Codec Hash

/-! ### The bytes of a slot -/

/-- The Borsh form of an address and its account. -/
def deltaCodec : Codec (Hash × Account) := Hash.codec.pair Account.codec

theorem deltaBytes_eq_enc (q : Hash × Account) : deltaBytes q = deltaCodec.enc q := by
  simp only [deltaBytes, deltaCodec, pair, Account.codec, iso, vec,
    encItems_u8, append_assoc]
  rfl

theorem deltaCodec_fits {q : Hash × Account} (h : q.2.data.length < 2 ^ 32) :
    deltaCodec.Fits q :=
  ⟨trivial, trivial, ⟨h, fun _ _ => trivial⟩, trivial, trivial, trivial⟩

/-- The deltas that the results of a slot commit, in their order. -/
def committedDeltas (results : List (ℕ × TransactionResult)) : List (Hash × Account) :=
  results.flatMap fun q => q.2.accountDeltas

/-- The bytes that a slot feeds to its hasher. -/
def slotBytes (results : List (ℕ × TransactionResult)) : List UInt8 :=
  (committedDeltas results).flatMap deltaBytes

theorem slotBytes_eq_encItems (results : List (ℕ × TransactionResult)) :
    slotBytes results = deltaCodec.encItems (committedDeltas results) := by
  unfold slotBytes
  induction committedDeltas results with
  | nil => rfl
  | cons q deltas ih => rw [flatMap_cons, ih, deltaBytes_eq_enc, encItems]

variable {results : List (ℕ × TransactionResult)}

/-- **The bytes of a slot determine its deltas.** -/
theorem deltas_of_slotBytes_eq {results' : List (ℕ × TransactionResult)}
    (hdata : ∀ q ∈ committedDeltas results, q.2.data.length < 2 ^ 32)
    (hdata' : ∀ q ∈ committedDeltas results', q.2.data.length < 2 ^ 32)
    (h : slotBytes results = slotBytes results') :
    committedDeltas results = committedDeltas results' := by
  rw [slotBytes_eq_encItems, slotBytes_eq_encItems] at h
  refine deltaCodec.encItems_inj (fun q hnil => ?_) (fun q hq => deltaCodec_fits (hdata q hq))
    (fun q hq => deltaCodec_fits (hdata' q hq)) h
  -- An address alone takes some bytes.
  have haddress : q.1.asBytes = [] := (append_eq_nil_iff.mp hnil).1
  have hsize := q.1.size_eq
  rw [haddress] at hsize
  exact absurd hsize (by decide)

/-! ### The chain of bank hashes -/

variable (P : Platform)

/-- The results of a slot are committed one after another. -/
def commitResults (slot : UInt64) (results : List (ℕ × TransactionResult)) (c : SlotCommitter) :
    Except Fault SlotCommitter :=
  results.foldlM (fun c q => c.commitResult P q.1 q.2 slot) c

/-- A slot is executed on a parent: its results are committed, and its bank hash is computed from
the parent's. -/
def SlotExecuted (parent : Hash) (results : List (ℕ × TransactionResult)) (bankHash : Hash) : Prop :=
  ∃ slot c, commitResults P slot results {} = .ok c ∧
    bankHash = ConsensusBank.computeBankHash P parent (c.finalize P slot).accountDeltaHash

/-- The bank hash after a slot. -/
def nextBankHash (parent : Hash) (results : List (ℕ × TransactionResult)) : Hash :=
  ConsensusBank.computeBankHash P parent (P.hash (slotBytes results))

/-- The inputs that are hashed along a chain of slots. -/
def chainInputs (start : Hash) (slots : List (List (ℕ × TransactionResult))) : Set (List UInt8) :=
  {input | ∃ before results, before ++ [results] <+: slots ∧
    (input = slotBytes results ∨ input = (before.foldl (nextBankHash P) start).asBytes ++
      (P.hash (slotBytes results)).asBytes)}

variable {P} {start last : Hash} {slots slots' : List (List (ℕ × TransactionResult))}

theorem deltaHasher_commitResults {slot : UInt64}
    {c c' : SlotCommitter} (h : commitResults P slot results c = .ok c') :
    c'.deltaHasher = c.deltaHasher ++ slotBytes results := by
  refine foldlM_history (R := fun results c' => c'.deltaHasher = c.deltaHasher ++ slotBytes results)
    (l := []) (fun results q c₁ c₂ hc₁ hcommit => ?_) (append_nil _).symm h
  simp only [SlotCommitter.commitResult, exceptBind_eq_ok] at hcommit
  obtain ⟨_, -, _, -, _, -, _, -, _, -, hcommit⟩ := hcommit
  cases hcommit
  simp [hc₁, slotBytes, committedDeltas]

theorem SlotExecuted.eq_next {parent bankHash : Hash}
    (h : SlotExecuted P parent results bankHash) : bankHash = nextBankHash P parent results := by
  obtain ⟨slot, c, hcommit, rfl⟩ := h
  rw [nextBankHash, SlotCommitter.finalize, deltaHasher_commitResults hcommit]
  rfl

theorem foldl_of_steps (h : Trace.Steps (SlotExecuted P) start slots last) :
    last = slots.foldl (nextBankHash P) start := by
  induction h with
  | nil start => rfl
  | cons head tail ih => rw [ih, head.eq_next, foldl_cons]

theorem chainInputs_mono {before : List (List (ℕ × TransactionResult))} (h : before <+: slots) :
    chainInputs P start before ⊆ chainInputs P start slots := by
  rintro input ⟨front, results, hprefix, hinput⟩
  exact ⟨front, results, hprefix.trans h, hinput⟩

/-- **The bank hash binds the history.**  If no two inputs of two chains from the same bank hash
collide and the data of every account fits its length, chains of one length with the same bank hash
at the end have committed the same deltas in the same order, slot by slot. -/
theorem bankHash_binds_history
    (hcollision : Set.InjOn P.hash (chainInputs P start slots ∪ chainInputs P start slots'))
    (hdata : ∀ results ∈ slots ++ slots', ∀ q ∈ committedDeltas results, q.2.data.length < 2 ^ 32)
    (hlength : slots.length = slots'.length)
    (h : Trace.Steps (SlotExecuted P) start slots last)
    (h' : Trace.Steps (SlotExecuted P) start slots' last) :
    slots.map committedDeltas = slots'.map committedDeltas := by
  have hlast := (foldl_of_steps h).symm.trans (foldl_of_steps h')
  clear h h'
  -- From the last slot back to the first.
  induction slots using reverseRecOn generalizing slots' with
  | nil =>
    obtain rfl := length_eq_zero_iff.mp hlength.symm
    rfl
  | append_singleton slots results ih =>
    rcases eq_nil_or_concat slots' with rfl | ⟨slots', results', rfl⟩
    · simp at hlength
    rw [concat_eq_append] at *
    have hmem : ∀ {slots : List (List (ℕ × TransactionResult))} {results},
        slotBytes results ∈ chainInputs P start (slots ++ [results]) ∧
          (slots.foldl (nextBankHash P) start).asBytes ++ (P.hash (slotBytes results)).asBytes ∈
            chainInputs P start (slots ++ [results]) := fun {slots results} =>
      ⟨⟨slots, results, prefix_rfl, .inl rfl⟩, ⟨slots, results, prefix_rfl, .inr rfl⟩⟩
    simp only [foldl_concat] at hlast
    obtain ⟨hparent, hdigest⟩ :=
      asBytes_append_inj (hcollision (.inl hmem.2) (.inr hmem.2) hlast)
    have hbytes := hcollision (.inl hmem.1) (.inr hmem.1) hdigest
    have hdeltas := deltas_of_slotBytes_eq (hdata results (by simp)) (hdata results' (by simp)) hbytes
    have hbefore : slots.map committedDeltas = slots'.map committedDeltas := by
      refine ih (hcollision.mono (Set.union_subset_union ?_ ?_)) (fun r hr => hdata r ?_) ?_ hparent
      · exact chainInputs_mono (prefix_append _ _)
      · exact chainInputs_mono (prefix_append _ _)
      · rcases mem_append.mp hr with hr | hr <;> simp [hr]
      · simpa using hlength
    rw [map_append, map_append, hbefore, map_singleton, map_singleton, hdeltas]

theorem chainInputs_singleton (results : List (ℕ × TransactionResult)) :
    chainInputs P start [results]
      = {slotBytes results, start.asBytes ++ (P.hash (slotBytes results)).asBytes} := by
  ext input
  constructor
  · rintro ⟨before, results', hprefix, hinput⟩
    cases before with
    | nil =>
      obtain rfl := (cons_prefix_cons.mp hprefix).1
      exact hinput
    | cons first before =>
      have hlength := hprefix.length_le
      simp at hlength
  · intro hinput
    exact ⟨[], results, prefix_rfl, hinput⟩

namespace Sample

/-- A result that gives one account some lamports. -/
def funded : TransactionResult :=
  { TransactionResult.rejected Hash.zero .lamportsOverflow with
    accountDeltas := [(repeated 2, ⟨5, [], Hash.zero, false, 0⟩)] }

end Sample

open Sample in
/-- Two slots that commit the same result at different places of the block. -/
theorem same_history_of_one_slot :
    ∃ last, Trace.Steps (SlotExecuted (Platform.sample false)) (Hash.repeated 1) [[(0, funded)]] last ∧
      Trace.Steps (SlotExecuted (Platform.sample false)) (Hash.repeated 1) [[(7, funded)]] last ∧
      [[(0, funded)]].map committedDeltas = [[(7, funded)]].map committedDeltas := by
  have hrun : ∀ i, ∃ c, commitResults .release 1 [(i, funded)] {} = .ok c :=
    fun i => ⟨_, rfl⟩
  have hstep : ∀ i, Trace.Steps (SlotExecuted .release) (repeated 1)
      [[(i, funded)]] (nextBankHash .release (repeated 1) [(0, funded)]) := by
    intro i
    obtain ⟨c, hc⟩ := hrun i
    have hexecuted : SlotExecuted .release (repeated 1) [(i, funded)] _ :=
      ⟨1, c, hc, rfl⟩
    exact .cons (hexecuted.eq_next ▸ hexecuted) (.nil _)
  refine ⟨_, hstep 0, hstep 7, bankHash_binds_history ?_ ?_ rfl (hstep 0) (hstep 7)⟩
  · have hne : (Platform.sample false).hash (slotBytes [(0, funded)]) ≠ (Platform.sample false).hash
        ((repeated 1).asBytes
          ++ ((Platform.sample false).hash (slotBytes [(0, funded)])).asBytes) := by
      decide +kernel
    have hbytes : slotBytes [(7, funded)] = slotBytes [(0, funded)] := rfl
    rw [chainInputs_singleton, chainInputs_singleton, hbytes, Set.union_self]
    rintro x (rfl | rfl) y (rfl | rfl) hxy
    · rfl
    · exact absurd hxy hne
    · exact absurd hxy.symm hne
    · rfl
  · intro results hresults q hq
    have hdeltas : committedDeltas results = funded.accountDeltas := by
      rcases mem_cons.mp hresults with rfl | hresults
      · rfl
      · obtain rfl := mem_singleton.mp hresults
        rfl
    rw [hdeltas] at hq
    obtain rfl := mem_singleton.mp hq
    decide

end Nusantara

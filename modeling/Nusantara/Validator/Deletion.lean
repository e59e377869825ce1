import Nusantara.Validator.StoredBlocks

/-!
# Deleted blocks

`delete_block` (`storage/src/block.rs`) takes a block out of the store with the entries it has made
elsewhere.  The status of a transaction is stored under the hash of the transaction, whatever slot it
was executed in, so a block takes along a status that another slot has recorded.  This is how a block
that fails its verification is deleted (`validator/src/replay.rs`).

## Main results

* `Ledger.keepsOthers_iff`: when a deletion leaves the records of the other slots alone.
-/

namespace Nusantara

open Finmap

/-- `SlotMeta`. -/
structure SlotMeta where
  slot : UInt64
  parentSlot : UInt64
  blockTime : Option Int64
  numDataShreds : UInt32
  numCodeShreds : UInt32
  isConnected : Bool
  completed : Bool

/-- The store with `CF_SLOT_META`, which a leader writes along with its block. -/
structure Ledger extends Storage where
  slotMeta : Finmap fun _ : UInt64 => SlotMeta

namespace Ledger

variable {P : Platform} {slot : UInt64} {l : Ledger}

/-- `delete_block`, on all that it writes. -/
def deleteBlock (P : Platform) (l : Ledger) (slot : UInt64) : Ledger :=
  ⟨l.toStorage.deleteBlock P slot, l.slotMeta.erase slot⟩

/-- What slots other than `slot` have recorded is the same in both. -/
structure KeepsOthers (slot : UInt64) (l l' : Ledger) : Prop where
  headers : ∀ k ≠ slot, l'.getBlockHeader k = l.getBlockHeader k
  blocks : ∀ k ≠ slot, l'.getBlock k = l.getBlock k
  slotMeta : ∀ k ≠ slot, l'.slotMeta.lookup k = l.slotMeta.lookup k
  statuses : ∀ hash status, l.transactions.lookup hash = some status → status.slot ≠ slot →
    l'.transactions.lookup hash = some status
  signatures : ∀ a k i, k ≠ slot →
    l'.addressSignatures.lookup (a, k, i) = l.addressSignatures.lookup (a, k, i)

/-- **Deleted blocks.**  A deletion leaves the records of the other slots alone exactly if no
transaction of the block has a status that another slot has recorded. -/
theorem keepsOthers_iff :
    l.KeepsOthers slot (l.deleteBlock P slot) ↔
      ∀ block, l.getBlock slot = some block → ∀ tx ∈ block.transactions, ∀ status,
        l.transactions.lookup (tx.hash P) = some status → status.slot = slot := by
  obtain ⟨signatures, hdeleted, hsignatures⟩ := l.toStorage.deleteBlock_eq P slot
  have hstatuses : ∀ hash, (l.deleteBlock P slot).transactions.lookup hash =
      if hash ∈ ((l.getBlock slot).elim [] Block.transactions).map (·.hash P) then none
      else l.transactions.lookup hash := by
    intro hash
    rw [deleteBlock, hdeleted, lookup_eraseAll]
  constructor
  · intro h block hblock tx htx status hstatus
    by_contra hother
    have hkept := h.statuses _ status hstatus hother
    rw [hstatuses, hblock, Option.elim_some, if_pos (List.mem_map_of_mem htx)] at hkept
    cases hkept
  · intro h
    refine ⟨fun k hk => ?_, fun k hk => ?_, fun k hk => lookup_erase_ne hk,
      fun hash status hstatus hother => ?_, fun a k i hk => ?_⟩
    · rw [deleteBlock, hdeleted]
      exact lookup_erase_ne hk
    · rw [deleteBlock, hdeleted]
      exact lookup_erase_ne hk
    · rw [hstatuses, if_neg, hstatus]
      intro hmem
      obtain ⟨tx, htx, rfl⟩ := List.mem_map.mp hmem
      cases hblock : l.getBlock slot with
      | none => simp [hblock] at htx
      | some block => exact hother (h block hblock tx (by simpa [hblock] using htx) status hstatus)
    · rw [deleteBlock, hdeleted]
      exact hsignatures a k i hk

end Ledger

namespace Sample

/-- A block that repeats the payment of slot 1, and whose hashes are not those of its outcome. -/
def badRepeat : Block := ⟨{ header with slot := 2, parentSlot := 1 }, [payment], []⟩

end Sample

set_option synthInstance.maxSize 1024 in
open Sample ValidatorNode in
/-- A block with a payment joins the tree.  One that repeats the payment is stored, fails its
verification and is deleted, with the status that slot 1 has recorded. -/
theorem repeated_payment_loses_its_status :
    ∃ block n₁ n₂, BlockStep (Platform.sample false) config rooted (.receive inOrder block) n₁ ∧
      BlockStep (Platform.sample false) config n₁ (.receive inOrder badRepeat) n₂ ∧
      n₂.storage.transactions.lookup (payment.hash (Platform.sample false)) = none ∧
      ¬ Ledger.KeepsOthers 2 ⟨(n₁.storeEarly badRepeat).storage, ∅⟩
        (Ledger.deleteBlock (Platform.sample false) ⟨(n₁.storeEarly badRepeat).storage, ∅⟩ 2) := by
  obtain ⟨block, -, n₁, hn₁, n₂, hn₂, hlost, status, hstatus, hslot, hgone⟩ :
      ∃ block, sealBlock .release rooted.stage ⟨header, [payment], []⟩ = some block ∧
      ∃ n₁, nextBlock .release config rooted (.receive inOrder block) = some n₁ ∧
      ∃ n₂, nextBlock .release config n₁ (.receive inOrder badRepeat) = some n₂ ∧
      n₂.storage.transactions.lookup (payment.hash .release) = none ∧
      ∃ status, (n₁.storeEarly badRepeat).storage.transactions.lookup
        (payment.hash .release) = some status ∧ status.slot ≠ 2 ∧
      ((n₁.storeEarly badRepeat).storage.deleteBlock .release 2).transactions.lookup
        (payment.hash .release) = none := by decide +kernel
  refine ⟨block, n₁, n₂, .inl (returned_eq_some.mp hn₁), .inl (returned_eq_some.mp hn₂), hlost,
    fun h => ?_⟩
  cases hgone.symm.trans (h.statuses _ status hstatus hslot)

end Nusantara

import Nusantara.Runtime.Helpers

/-!
# What no instruction can change

`Evolves P s₀ s` says that the context `s` can come from `s₀` by running instructions: the
message, the snapshot, the slot and the addresses are the same, the compute meter has not gone
up, and every account the message does not make writable is as it was.  `RunFault` lists the
faults an instruction may stop at.

Every operation the processors are made of keeps a context among those that `s₀` evolves into,
**whether it returns or fails**; the rules below say so one operation at a time, and are put
together by each processor for its instructions.

## Main results

* `Evolves.refl`, `Evolves.trans`, `Within.setAccount`, `Within.setRemaining`.
* `Confined`: a class for the computations that write writable accounts only, at positions of a
  given set, with a rule for each operation; `keeps_of_confined` is what it gives.
-/

namespace Nusantara

open Borsh Exec TransactionContext List Keeps

/-- The context `s` can come from `s₀` by running instructions. -/
structure Evolves (P : Platform) (s₀ s : TransactionContext) : Prop where
  message : s.message = s₀.message
  preAccounts : s.preAccounts = s₀.preAccounts
  slot : s.slot = s₀.slot
  limit : s.computeMeter.limit = s₀.computeMeter.limit
  remaining : s.computeMeter.remaining ≤ s₀.computeMeter.remaining
  addresses : s.accounts.map Prod.fst = s₀.accounts.map Prod.fst
  readonly : ∀ i, s₀.message.isWritable P i ≠ .ok true → s.account? i = s₀.account? i

/-- The faults a native instruction may stop at: an arithmetic check, or a header that
overcounts the accounts. -/
def RunFault (P : Platform) (m : Message) (f : Fault) : Prop :=
  P.overflowChecks = true ∧
    (f = .arithmeticOverflow ∨ f = .writableUnderflow ∧ ¬m.HeaderFits)

namespace Evolves

variable {P : Platform} {s₀ s : TransactionContext}

theorem refl (s : TransactionContext) : Evolves P s s :=
  ⟨rfl, rfl, rfl, rfl, le_rfl, rfl, fun _ _ => rfl⟩

theorem trans {s' : TransactionContext} (h : Evolves P s₀ s) (h' : Evolves P s s') :
    Evolves P s₀ s' where
  message := h'.message.trans h.message
  preAccounts := h'.preAccounts.trans h.preAccounts
  slot := h'.slot.trans h.slot
  limit := h'.limit.trans h.limit
  remaining := h'.remaining.trans h.remaining
  addresses := h'.addresses.trans h.addresses
  readonly i hi := (h'.readonly i (h.message ▸ hi)).trans (h.readonly i hi)

end Evolves

/-- The context has evolved, and of its accounts only those at positions in `W` have changed. -/
structure Within (P : Platform) (W : ℕ → Prop) (s₀ s : TransactionContext) : Prop
    extends Evolves P s₀ s where
  others : ∀ i, ¬ W i → s.account? i = s₀.account? i

namespace Within

variable {P : Platform} {W : ℕ → Prop} {s₀ s : TransactionContext}

theorem refl (s : TransactionContext) : Within P W s s := ⟨.refl s, fun _ _ => rfl⟩

theorem setAccount {i : ℕ} (h : Within P W s₀ s) (hw : s₀.message.isWritable P i = .ok true)
    (hi : W i) (a : Account) : Within P W s₀ (s.setAccount i a) := by
  have hother : ∀ j, i ≠ j → (s.setAccount i a).account? j = s.account? j := by
    intro j hij
    simp [account?, TransactionContext.setAccount, hij]
  exact
    { h with
      addresses := by rw [addresses_setAccount, h.addresses]
      readonly := fun j hj => (hother j fun hij => hj (hij ▸ hw)).trans (h.readonly j hj)
      others := fun j hj => (hother j fun hij => hj (hij ▸ hi)).trans (h.others j hj) }

theorem setRemaining {n : ℕ} (h : Within P W s₀ s) (hn : n ≤ s.computeMeter.remaining) :
    Within P W s₀ (s.setRemaining n) :=
  { h with remaining := hn.trans h.remaining }

end Within

/-- The second follows from what is known. -/
class Knows (known p : Prop) : Prop where
  out : known → p

instance {known p : Prop} : Knows (known ∧ p) p := ⟨And.right⟩

instance {known p q : Prop} [h : Knows known p] : Knows (known ∧ q) p := ⟨fun hk => h.out hk.1⟩

/-- The order of two numerals. -/
class Below (i n : ℕ) : Prop where
  out : i < n

instance {n : ℕ} : Below 0 (n + 1) := ⟨n.succ_pos⟩

instance {i n : ℕ} [h : Below i n] : Below (i + 1) (n + 1) := ⟨Nat.succ_lt_succ h.out⟩

instance {known : Prop} {n i : ℕ} {l : List UInt8} [h : Below i n] :
    Knows (known ∧ n ≤ l.length) (i < l.length) := ⟨fun hk => h.out.trans_le hk.2⟩

instance {known p : Prop} {n i : ℕ} [h : Below i n] : Knows (known ∧ (i < n → p)) p :=
  ⟨fun hk => hk.2 h.out⟩

/-- The only fault of the computation is an arithmetic check. -/
class Checked (P : Platform) {α : Type} (x : Except Fault α) : Prop where
  out : ∀ f, x = .error f → f = .arithmeticOverflow ∧ P.overflowChecks = true

namespace Checked

variable {P : Platform} {α β : Type} {w a b : ℕ} {x : Except Fault α}

instance (a : α) : Checked P (pure a : Except Fault α) := ⟨fun _ h => nomatch h⟩

instance (a : α) : Checked P (Except.ok a) := ⟨fun _ h => nomatch h⟩

instance : Checked P (P.wrapAdd w a b) := ⟨fun _ => P.wrapAdd_eq_error⟩

instance : Checked P (P.wrapMul w a b) := ⟨fun _ => P.wrapMul_eq_error⟩

instance {k : α → Except Fault β} [hx : Checked P x] [hk : ∀ a, Checked P (k a)] :
    Checked P (x >>= k) where
  out f h := (exceptBind_eq_error.mp h).elim (hx.out f) fun ⟨a, _, ha⟩ => (hk a).out f ha

instance {p : Prop} [Decidable p] {y : Except Fault α} [Checked P x] [Checked P y] :
    Checked P (if p then x else y) := by
  split_ifs <;> infer_instance

instance {g : α → Except Fault β} [∀ a, Checked P (g a)] {l : List α} : Checked P (l.mapM g) := by
  induction l with
  | nil => exact inferInstanceAs (Checked P (pure []))
  | cons a l ih =>
    rw [mapM_cons]
    infer_instance

instance {g : β → α → Except Fault β} [∀ b a, Checked P (g b a)] {l : List α} {b : β} :
    Checked P (l.foldlM g b) := by
  induction l generalizing b with
  | nil => exact inferInstanceAs (Checked P (pure b))
  | cons a l ih =>
    rw [foldlM_cons]
    infer_instance

end Checked

/-- However the computation ends, the context has evolved within `W`, and the only faults are those
of the header.  It is found by instance search, which gathers what the checks of the computation have made
known. -/
class Confined (P : Platform) (W : ℕ → Prop) (s₀ : TransactionContext) (known : Prop) {α : Type}
    (m : Run α) : Prop where
  keeps : known → Keeps (Within P W s₀) (RunFault P s₀.message) m

/-! ### The operations of the context -/

section Rules

variable {P : Platform} {W : ℕ → Prop} {s₀ : TransactionContext} {known : Prop} {α β : Type}
  {i : ℕ}

theorem isWritable_runFault {m : Message} {f : Fault} (h : m.isWritable P i = .error f) :
    RunFault P m f := by
  obtain ⟨hP, rfl, -⟩ := Message.isWritable_eq_error.mp h
  refine ⟨hP, Or.inr ⟨rfl, fun hfit => ?_⟩⟩
  exact (Message.headerFits_iff hP).mp hfit i _ h

theorem keeps_isWritable {s : TransactionContext} (hs : Within P W s₀ s) :
    Keeps (Within P W s₀) (RunFault P s₀.message)
      (ofFault (s.message.isWritable P i) : Run Bool) := by
  refine ofFault fun f hf => ?_
  rw [hs.message] at hf
  exact isWritable_runFault hf

/-- A rule for reading the state: it may be assumed to have evolved. -/
theorem keeps_get_bind {F : Fault → Prop} {k : TransactionContext → Run β}
    (h : ∀ s, Within P W s₀ s → Keeps (Within P W s₀) F (k s)) :
    Keeps (Within P W s₀) F (Exec.get >>= k) := by
  intro s hs
  rw [run_bind, run_get]
  exact h s hs s hs

theorem keeps_getAccountMut :
    Keeps (Within P W s₀) (RunFault P s₀.message) (getAccountMut P i) := by
  unfold getAccountMut
  refine keeps_get_bind fun s hs => ?_
  refine require_bind fun hlen => ?_
  refine (keeps_isWritable hs).bind fun _ => ?_
  refine require_bind fun _ => ?_
  refine bind (ofFault fun f hf => ?_) fun _ => pure _
  -- the position was checked before, so the index is in bounds
  simp [indexAt, getElem?_eq_getElem hlen] at hf

/-- What a computation keeps of every context it starts in, it keeps of the contexts before. -/
theorem keeps_evolves {W : TransactionContext → ℕ → Prop} {F : Message → Fault → Prop} {m : Run α}
    (h : ∀ s, Keeps (Within P (W s) s) (F s.message) m) :
    Keeps (Evolves P s₀) (F s₀.message) m := by
  intro s hs
  have hkeeps := h s s (.refl s)
  cases hrun : m.run s with
  | ok a s' | err e s' =>
    rw [hrun] at hkeeps
    exact hs.trans hkeeps.toEvolves
  | fault f =>
    rw [hrun, hs.message] at hkeeps
    exact hkeeps

/-- A computation that writes no account keeps the contexts before. -/
theorem keeps_of_confined {m : Run α} [h : ∀ s, Confined P (fun _ => False) s True m] :
    Keeps (Evolves P s₀) (RunFault P s₀.message) m :=
  keeps_evolves fun s => (h s).keeps trivial

/-- The positions that an instruction gives as the first of its accounts. -/
def Leading (accounts : List UInt8) (count : ℕ) (i : ℕ) : Prop :=
  i ∈ (accounts.take count).map UInt8.toNat

/-- How many of its first accounts the instruction in some data writes. -/
def countOf (c : Codec α) (written : α → ℕ) (data : List UInt8) : ℕ :=
  match c.tryFromSlice data with
  | .ok a => written a
  | .error _ => 0

namespace Confined

instance (a : α) : Confined P W s₀ known (pure a : Run α) := ⟨fun _ => pure a⟩

instance (e : RuntimeError) : Confined P W s₀ known (throw e : Run α) := ⟨fun _ => throw e⟩

instance : Confined P W s₀ known (Exec.get : Run TransactionContext) := ⟨fun _ => get⟩

instance {p : Prop} [Decidable p] {e : RuntimeError} :
    Confined P W s₀ known (require p e : Run Unit) := ⟨fun _ => require p e⟩

instance {e : RuntimeError} {o : Option α} : Confined P W s₀ known (ofOption e o : Run α) :=
  ⟨fun _ => ofOption e o⟩

instance {o : Except RuntimeError α} : Confined P W s₀ known (ofExcept o : Run α) :=
  ⟨fun _ => ofExcept o⟩

instance {p : Prop} [Decidable p] {m₁ m₂ : Run α} [h₁ : Confined P W s₀ known m₁]
    [h₂ : Confined P W s₀ known m₂] : Confined P W s₀ known (if p then m₁ else m₂) := by
  split_ifs <;> assumption

instance {x : Except Fault α} [h : Checked P x] : Confined P W s₀ known (ofFault x : Run α) := by
  refine ⟨fun _ => ofFault fun f hf => ?_⟩
  obtain ⟨rfl, hP⟩ := h.out f hf
  exact ⟨hP, .inl rfl⟩

theorem bind {m : Run α} {k : α → Run β} [hm : Confined P W s₀ known m]
    (hk : ∀ a, Confined P W s₀ known (k a)) : Confined P W s₀ known (m >>= k) :=
  ⟨fun h => (hm.keeps h).bind fun a => (hk a).keeps h⟩

instance {m : Run α} {k : α → Run β} [Confined P W s₀ known m] [hk : ∀ a, Confined P W s₀ known (k a)] :
    Confined P W s₀ known (m >>= k) :=
  bind hk

instance : Confined P W s₀ known (getAccount P i) := by
  unfold getAccount
  refine ⟨fun _ => keeps_get_bind fun s hs => (Keeps.ofOption _ _).bind fun _ => ?_⟩
  exact (keeps_isWritable hs).bind fun _ => Keeps.pure _

/-- After a mutable borrow, the account is known to be writable. -/
instance {k : Account → Run β}
    [h : ∀ a, Confined P W s₀ (known ∧ s₀.message.isWritable P i = .ok true) (k a)] :
    Confined P W s₀ known (getAccountMut P i >>= k) := by
  refine ⟨fun hk => keeps_getAccountMut.bind_of
    (C := fun _ => s₀.message.isWritable P i = .ok true) ?_ fun a hw => (h a).keeps ⟨hk, hw⟩⟩
  intro s a s' hs hrun
  rw [← hs.message]
  exact (getAccountMut_eq_ok.mp hrun).2.2

instance {a : Account} [h : Knows known (s₀.message.isWritable P i = .ok true)]
    [hi : Knows known (W i)] : Confined P W s₀ known (putAccount i a) :=
  ⟨fun hk _ hs => hs.setAccount (h.out hk) (hi.out hk) a⟩

instance {n : ℕ} : Confined P W s₀ known (consumeCompute n) := by
  refine ⟨fun _ s hs => ?_⟩
  unfold consumeCompute
  simp only [run_bind, run_get]
  split_ifs with h
  · exact hs.setRemaining (Nat.zero_le _)
  · exact hs.setRemaining (Nat.sub_le _ _)

/-! ### The helpers of the processors -/

/-- After a check, what it checked is known. -/
theorem require_bind {p : Prop} [Decidable p] {e : RuntimeError} {k : Unit → Run β}
    [h : Confined P W s₀ (known ∧ p) (k ())] : Confined P W s₀ known (require p e >>= k) :=
  ⟨fun hk => Keeps.require_bind fun hp => h.keeps ⟨hk, hp⟩⟩

instance {accounts : List UInt8} {min : ℕ} {name : String} {k : Unit → Run β}
    [Confined P W s₀ (known ∧ min ≤ accounts.length) (k ())] :
    Confined P W s₀ known (requireAccounts accounts min name >>= k) :=
  require_bind

/-- A position that is read off is a leading one, if it stands among those. -/
instance {accounts : List UInt8} {count : ℕ} {k : ℕ → Run β}
    [h : Knows known (i < accounts.length)]
    [hk : ∀ n, Confined P (Leading accounts count) s₀
      (known ∧ (i < count → Leading accounts count n)) (k n)] :
    Confined P (Leading accounts count) s₀ known (accountIndex accounts i >>= k) := by
  refine ⟨fun hknown => Keeps.bind_of (C := fun n => i < count → Leading accounts count n)
    (Keeps.bind (Keeps.ofFault fun f hf => ?_) fun _ => Keeps.pure _) ?_
    fun n hn => (hk n).keeps ⟨hknown, hn⟩⟩
  · simp [indexAt, getElem?_eq_getElem (h.out hknown)] at hf
  · intro s n s' _ hrun hlt
    obtain ⟨-, x, hx, rfl⟩ := accountIndex_eq_ok.mp hrun
    refine mem_map_of_mem (mem_of_getElem? (i := i) ?_)
    rw [getElem?_take_of_lt hlt, hx]

instance : Confined P W s₀ known (requireSigner P i) := by
  unfold requireSigner
  infer_instance

instance {c : Codec α} : Confined P W s₀ known (loadState P c i) := by
  unfold loadState
  refine bind fun acc => ?_
  split <;> infer_instance

instance {c : Codec α} {x : α} [Knows known (W i)] :
    Confined P W s₀ known (saveState P c i x) := by
  unfold saveState
  infer_instance

theorem decode_bind {c : Codec α} {written : α → ℕ} {accounts data : List UInt8} {k : α → Run β}
    (h : ∀ a, Confined P (Leading accounts (written a)) s₀ known (k a)) :
    Confined P (Leading accounts (countOf c written data)) s₀ known
      (decodeInstruction c data >>= k) := by
  refine ⟨fun hk s hs => ?_⟩
  rw [run_bind]
  unfold countOf decodeInstruction at *
  cases hread : c.tryFromSlice data with
  | ok a =>
    simp only [hread] at hs ⊢
    exact (h a).keeps hk s hs
  | error e =>
    simp only [hread] at hs ⊢
    exact hs

instance {amount : UInt64} {e : UInt64 → RuntimeError} [Knows known (W i)] :
    Confined P W s₀ known (debit P i amount e) := by
  unfold debit
  infer_instance

instance {amount : UInt64} [Knows known (W i)] : Confined P W s₀ known (credit P i amount) := by
  unfold credit
  infer_instance

end Confined

end Rules

end Nusantara

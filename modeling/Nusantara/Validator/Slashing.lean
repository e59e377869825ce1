import Nusantara.Validator.Lifetime

/-!
# Penalties for double votes

`process_gossip_votes` (`validator/src/voting.rs`) shows every vote that comes by gossip to the
`SlashDetector` (`consensus/src/slashing.rs`), which keeps the first hash it sees of a validator for
a slot, and slashes the validator if the vote has another one.  The detector does not keep that it
has already done so: the second vote, delivered once more, is slashed once more, and so is a third
one.  A validator that votes for one hash in every slot is never slashed.

Gossip is taken vote by vote here, with the validators whose entry in the registry grows.

## Main results

* `watchRun_of_steps`: the runs of a node, vote by vote.
* `slashed_once`: a validator is slashed at most once for each double vote, as long as no vote that
  the detector does not know is delivered after it.
-/

namespace Nusantara

open Exec Word List Finmap UInt64 Trace StakeBook Hash

/-- What happens to a node, with gossip vote by vote. -/
inductive WatchEvent where
  | vote (q : GossipVote)
  /-- The end of a batch of votes, where the detector may forget old slots. -/
  | batchEnd
  | loop (e : NodeEvent)
  | epoch (turns : List Worker) (o : RunningNode.HashOrders)

/-- An event, and the validators whose entry in the registry grows with it. -/
structure Watched where
  event : WatchEvent
  grown : Finset Hash

namespace WatchEvent

/-- The vote that is delivered. -/
def delivered? : WatchEvent → Option GossipVote
  | .vote q => some q
  | _ => none

/-- The slot of the vote of a validator. -/
def slotOf? (x : Hash) (e : WatchEvent) : Option UInt64 :=
  e.delivered?.bind fun q => if q.voter = x then some q.slot else none

end WatchEvent

/-- The parts of what happens to a node. -/
def LifeEvent.parts : LifeEvent → List WatchEvent
  | .loop e => [.loop e]
  | .gossip votes => votes.map .vote ++ [.batchEnd]
  | .epoch turns o => [.epoch turns o]

/-- The votes that are delivered in a run. -/
def delivered (as : List Watched) : List GossipVote := as.filterMap fun a => a.event.delivered?

/-- Two votes for different hashes in one slot. -/
def DoubleVoted (votes : List GossipVote) (x : Hash) (slot : UInt64) : Prop :=
  ∃ h h', ⟨x, slot, h⟩ ∈ votes ∧ ⟨x, slot, h'⟩ ∈ votes ∧ h ≠ h'

/-- The steps in which the entry of a validator grows, each by the slot of its vote that was
delivered, if there is one. -/
def growthsOf (x : Hash) (as : List Watched) : List (Option UInt64) :=
  (as.filter fun a => decide (x ∈ a.grown)).map fun a => a.event.slotOf? x

/-- The entry of a validator grows only with votes of its own, for slots in which it voted for two
hashes, and at most once for each slot. -/
def GrowsOnce (x : Hash) (as : List Watched) : Prop :=
  ∃ slots : List UInt64, growthsOf x as = slots.map some ∧ slots.Nodup ∧
    ∀ slot ∈ slots, DoubleVoted (delivered as) x slot

namespace RunningNode

section Steps

variable (P : Platform) (config : ValidatorConfig) (genesisHash : Hash)

/-- A step of a node, with gossip vote by vote. -/
def WatchStep (v : RunningNode) (a : Watched) (v' : RunningNode) : Prop :=
  (match a.event with
    | .vote q => v.processGossipVote q = .ok v'
    | .batchEnd => v' = v.purgeDetector
    | .loop e => v.LifeStep P config genesisHash (.loop e) v'
    | .epoch turns o => v.LifeStep P config genesisHash (.epoch turns o) v') ∧
  ∀ x, x ∈ a.grown ↔ v.book.getSlashedAmount x < v'.book.getSlashedAmount x

/-- A run of a node with these events. -/
def WatchRun (v : RunningNode) (es : List WatchEvent) (v' : RunningNode) : Prop :=
  ∃ as, Steps (WatchStep P config genesisHash) v as v' ∧ as.map Watched.event = es

/-- A step of a node, together with the votes that were delivered so far, in which a vote of `x` that
comes after a double vote of `x` for the slot has the hash that the detector has for it. -/
def TameStep (x : Hash) (s : RunningNode × List GossipVote) (a : Watched)
    (s' : RunningNode × List GossipVote) : Prop :=
  s.1.WatchStep P config genesisHash a s'.1 ∧ s'.2 = s.2 ++ delivered [a] ∧
    ∀ q, a.event = .vote q → q.voter = x → DoubleVoted s.2 x q.slot →
      s.1.detector.lookup (x, q.slot) = some q.hash

end Steps

variable {P : Platform} {config : ValidatorConfig} {genesisHash : Hash} {b : StakeBook}
  {v v' : RunningNode} {a : Watched} {as : List Watched} {x : Hash}

/-! ### The runs of a node -/

theorem exists_grown (b b' : StakeBook) :
    ∃ grown : Finset Hash, ∀ x, x ∈ grown ↔ b.getSlashedAmount x < b'.getSlashedAmount x := by
  refine ⟨b'.slashRegistry.keys.filter fun x => b.getSlashedAmount x < b'.getSlashedAmount x, ?_⟩
  intro x
  rw [Finset.mem_filter, and_iff_right_iff_imp, Finmap.mem_keys]
  intro hlt
  by_contra hx
  have hzero : b'.getSlashedAmount x = 0 := by
    rw [getSlashedAmount, Finmap.lookup_eq_none.mpr hx]
    rfl
  rw [hzero] at hlt
  exact absurd hlt (UInt64.not_lt.mpr (UInt64.zero_le ..))

theorem watchRun_single {e : WatchEvent}
    (h : ∀ grown, (∀ x, x ∈ grown ↔ v.book.getSlashedAmount x < v'.book.getSlashedAmount x) →
      v.WatchStep P config genesisHash ⟨e, grown⟩ v') : v.WatchRun P config genesisHash [e] v' := by
  obtain ⟨grown, hgrown⟩ := exists_grown v.book v'.book
  exact ⟨[⟨e, grown⟩], .cons (h grown hgrown) (.nil v'), rfl⟩

theorem WatchRun.append {u : RunningNode} {es es' : List WatchEvent}
    (h : v.WatchRun P config genesisHash es u) (h' : u.WatchRun P config genesisHash es' v') :
    v.WatchRun P config genesisHash (es ++ es') v' := by
  obtain ⟨as, hsteps, rfl⟩ := h
  obtain ⟨as', hsteps', rfl⟩ := h'
  exact ⟨as ++ as', hsteps.append hsteps', map_append⟩

theorem watchRun_votes {votes : List GossipVote} (h : votes.foldlM processGossipVote v = .ok v') :
    v.WatchRun P config genesisHash (votes.map .vote) v' := by
  induction votes generalizing v with
  | nil =>
    obtain rfl := Except.ok.inj h
    exact ⟨[], .nil v, rfl⟩
  | cons q votes ih =>
    rw [foldlM_cons] at h
    obtain ⟨u, hu, h⟩ := exceptBind_eq_ok.mp h
    exact (watchRun_single fun _ hgrown => ⟨hu, hgrown⟩).append (ih h)

/-- **The runs of a node, vote by vote.** -/
theorem watchRun_of_steps {events : List LifeEvent}
    (h : Steps (LifeStep P config genesisHash) v events v') :
    v.WatchRun P config genesisHash (events.flatMap LifeEvent.parts) v' := by
  induction h with
  | nil v => exact ⟨[], .nil v, rfl⟩
  | @cons v u v' e events head tail ih =>
    rw [flatMap_cons]
    refine WatchRun.append ?_ ih
    cases e with
    | loop e | epoch turns o => exact watchRun_single fun _ hgrown => ⟨head, hgrown⟩
    | gossip votes =>
      obtain ⟨w, hw, head⟩ := exceptBind_eq_ok.mp head
      cases head
      exact (watchRun_votes hw).append (watchRun_single fun _ hgrown => ⟨rfl, hgrown⟩)

/-! ### A step -/

variable {q : GossipVote} {slot : UInt64}

theorem processGossipVote_ok (h : v.processGossipVote q = .ok v') :
    v'.detector = (v.detector.checkVote q.voter q.slot q.hash).2 ∧
      v'.book = (v.lookForDoubleVote q).book := by
  obtain ⟨node, -, h⟩ := exceptBind_eq_ok.mp h
  cases h
  exact ⟨rfl, rfl⟩

theorem book_purgeDetector (v : RunningNode) : v.purgeDetector.book = v.book := by
  unfold purgeDetector
  split_ifs <;> rfl

theorem settled_watchStep (hb : b.Endless) (hv : b.Settled v.book)
    (h : v.WatchStep P config genesisHash a v') : b.Settled v'.book := by
  obtain ⟨e, grown⟩ := a
  obtain ⟨h, -⟩ := h
  cases e with
  | vote q => exact settled_processGossipVote hv h
  | batchEnd =>
    obtain rfl : v' = v.purgeDetector := h
    rw [book_purgeDetector]
    exact hv
  | loop e =>
    obtain ⟨-, node, -, rfl⟩ := h
    exact hv
  | epoch turns o => exact hv.trans (checkEpochBoundary_eq_some (hv.endless hb) hv.supply h).1

/-- **What the detector knows** was there before or is the vote that is delivered. -/
theorem detector_watchStep {hash : Hash} (h : v.WatchStep P config genesisHash a v')
    (hlookup : v'.detector.lookup (x, slot) = some hash) :
    v.detector.lookup (x, slot) = some hash ∨ a.event = .vote ⟨x, slot, hash⟩ := by
  obtain ⟨e, grown⟩ := a
  obtain ⟨h, -⟩ := h
  cases e with
  | vote q =>
    rw [(processGossipVote_ok h).1, SlashDetector.checkVote] at hlookup
    split at hlookup
    · exact .inl hlookup
    · by_cases hkey : (x, slot) = (q.voter, q.slot)
      · cases hkey
        rw [lookup_insert] at hlookup
        cases hlookup
        exact .inr rfl
      · rw [lookup_insert_of_ne _ hkey] at hlookup
        exact .inl hlookup
  | batchEnd =>
    obtain rfl : v' = v.purgeDetector := h
    unfold purgeDetector at hlookup
    split_ifs at hlookup
    · rw [SlashDetector.purgeBelow, lookup_retain] at hlookup
      exact .inl (Option.filter_eq_some_iff.mp hlookup).1
    · exact .inl hlookup
  | loop e =>
    obtain ⟨-, node, -, rfl⟩ := h
    exact .inl hlookup
  | epoch turns o =>
    rw [(checkEpochBoundary_overlays h).1] at hlookup
    exact .inl hlookup

/-- **An entry grows** only with a vote of the validator that is not the one the detector has. -/
theorem grown_watchStep (hb : b.Endless) (hv : b.Settled v.book)
    (h : v.WatchStep P config genesisHash a v') (hx : x ∈ a.grown) :
    ∃ q first, a.event = .vote q ∧ q.voter = x ∧
      v.detector.lookup (x, q.slot) = some first ∧ first ≠ q.hash := by
  obtain ⟨e, grown⟩ := a
  obtain ⟨h, hgrown⟩ := h
  have hgrows := (hgrown x).mp hx
  -- Where the registry stays, nothing grows.
  have hsame : v'.book.slashRegistry = v.book.slashRegistry → False := by
    intro hsame
    rw [getSlashedAmount, getSlashedAmount, hsame] at hgrows
    exact lt_irrefl _ hgrows
  cases e with
  | vote q =>
    have hbook := (processGossipVote_ok h).2
    dsimp only [lookForDoubleVote] at hbook
    split_ifs at hbook with hflagged
    · have hvoter : q.voter = x := by
        by_contra hne
        rw [hbook, applySlash, getSlashedAmount, getSlashedAmount,
          lookup_insert_of_ne _ (Ne.symm hne)] at hgrows
        exact lt_irrefl _ hgrows
      have hcheck := hflagged.1
      rw [SlashDetector.checkVote] at hcheck
      split at hcheck
      · rename_i first hfirst
        rw [hvoter] at hfirst
        exact ⟨q, first, rfl, hvoter, hfirst, of_decide_eq_true hcheck⟩
      · exact absurd hcheck Bool.false_ne_true
    · exact absurd (congrArg slashRegistry hbook) hsame
  | batchEnd =>
    obtain rfl : v' = v.purgeDetector := h
    exact absurd (congrArg slashRegistry (book_purgeDetector v)) hsame
  | loop e =>
    obtain ⟨-, node, -, rfl⟩ := h
    exact absurd rfl hsame
  | epoch turns o =>
    exact absurd (checkEpochBoundary_eq_some (hv.endless hb) hv.supply h).2.1 hsame

/-! ### Runs -/

theorem delivered_append (as bs : List Watched) :
    delivered (as ++ bs) = delivered as ++ delivered bs := filterMap_append

theorem mem_delivered_concat (h : a.event = .vote q) :
    q ∈ delivered (as ++ [a]) := by
  rw [delivered_append, mem_append]
  exact .inr (mem_filterMap.mpr ⟨a, mem_singleton_self a, by rw [h]; rfl⟩)

theorem doubleVoted_append (h : DoubleVoted (delivered as) x slot)
    (bs : List Watched) : DoubleVoted (delivered (as ++ bs)) x slot := by
  obtain ⟨h, h', hmem, hmem', hne⟩ := h
  rw [delivered_append]
  exact ⟨h, h', mem_append_left _ hmem, mem_append_left _ hmem', hne⟩

/-- After the steps `as`: the book is that of the boot, up to penalties, and what the detector knows of
`x` was delivered. -/
structure Watches (b : StakeBook) (x : Hash) (as : List Watched) (v : RunningNode) : Prop where
  settled : b.Settled v.book
  known : ∀ slot hash, v.detector.lookup (x, slot) = some hash → ⟨x, slot, hash⟩ ∈ delivered as

section

variable (h : Watches b x as v) (hb : b.Endless) (hstep : v.WatchStep P config genesisHash a v')

include h hb hstep

theorem Watches.step : Watches b x (as ++ [a]) v' := by
  refine ⟨settled_watchStep hb h.settled hstep, fun slot hash hlookup => ?_⟩
  rcases detector_watchStep hstep hlookup with hlookup | hvote
  · rw [delivered_append]
    exact mem_append_left _ (h.known slot hash hlookup)
  · exact mem_delivered_concat hvote

/-- A step in which the entry of `x` grows delivers a vote of `x` that makes a double vote, or is one
more after it. -/
theorem Watches.grown (hx : x ∈ a.grown) :
    ∃ q, a.event = .vote q ∧ q.voter = x ∧ DoubleVoted (delivered (as ++ [a])) x q.slot ∧
      v.detector.lookup (x, q.slot) ≠ some q.hash := by
  obtain ⟨q, first, hevent, rfl, hfirst, hne⟩ := grown_watchStep hb h.settled hstep hx
  refine ⟨q, hevent, rfl, ⟨first, q.hash, ?_, mem_delivered_concat hevent, hne⟩, ?_⟩
  · rw [delivered_append]
    exact mem_append_left _ (h.known q.slot first hfirst)
  · rw [hfirst]
    exact fun hsame => hne (Option.some.inj hsame)

end

/-- A validator is slashed only if it votes twice. -/
theorem doubleVoted_of_grown (hb : b.Endless) (hv : Watches b x [] v)
    (hrun : Steps (WatchStep P config genesisHash) v as v') (ha : a ∈ as)
    (hx : x ∈ a.grown) : ∃ slot, DoubleVoted (delivered as) x slot := by
  have hall : Watches b x ([] ++ as) v' ∧
      ∀ a ∈ [] ++ as, x ∈ a.grown → ∃ slot, DoubleVoted (delivered ([] ++ as)) x slot := by
    refine hrun.history (I := fun before v => Watches b x before v ∧
      ∀ a ∈ before, x ∈ a.grown → ∃ slot, DoubleVoted (delivered before) x slot)
      (fun before v a v' ⟨hwatches, hbefore⟩ hstep => ⟨hwatches.step hb hstep, ?_⟩) []
      ⟨hv, by simp⟩
    intro a' ha' hx'
    rcases mem_append.mp ha' with ha' | ha'
    · obtain ⟨slot, hslot⟩ := hbefore a' ha' hx'
      exact ⟨slot, doubleVoted_append hslot [a]⟩
    · obtain rfl := mem_singleton.mp ha'
      obtain ⟨q, -, -, hdouble, -⟩ := hwatches.grown hb hstep hx'
      exact ⟨q.slot, hdouble⟩
  exact hall.2 a ha hx

theorem growthsOf_append (as bs : List Watched) :
    growthsOf x (as ++ bs) = growthsOf x as ++ growthsOf x bs := by
  rw [growthsOf, filter_append, map_append]
  rfl

/-- A step of a tame run: the entry of `x` grows for a slot that it has not grown for. -/
theorem growsOnce_step (h : Watches b x as v) (hb : b.Endless)
    (hgrows : GrowsOnce x as)
    (hstep : TameStep P config genesisHash x (v, delivered as) a (v', delivered (as ++ [a]))) :
    GrowsOnce x (as ++ [a]) := by
  obtain ⟨hstep, -, htame⟩ := hstep
  obtain ⟨slots, hslots, hnodup, hdouble⟩ := hgrows
  by_cases hx : x ∈ a.grown
  · obtain ⟨q, hevent, hvoter, hnow, hunknown⟩ := h.grown hb hstep hx
    have hgrowth : growthsOf x [a] = [some q.slot] := by
      simp [growthsOf, hx, hevent, hvoter, WatchEvent.slotOf?, WatchEvent.delivered?]
    have hnew : q.slot ∉ slots := fun hmem =>
      hunknown (htame q hevent hvoter (hdouble q.slot hmem))
    refine ⟨slots ++ [q.slot], ?_, ?_, ?_⟩
    · rw [growthsOf_append, hslots, hgrowth, map_append, map_singleton]
    · exact nodup_append.mpr ⟨hnodup, nodup_singleton _, by
        rintro slot hslot _ hq rfl
        exact hnew (mem_singleton.mp hq ▸ hslot)⟩
    · intro slot hslot
      rcases mem_append.mp hslot with hslot | hslot
      · exact doubleVoted_append (hdouble slot hslot) [a]
      · rw [mem_singleton.mp hslot]
        exact hnow
  · have hgrowth : growthsOf x [a] = [] := by simp [growthsOf, hx]
    refine ⟨slots, ?_, hnodup, fun slot hslot => doubleVoted_append (hdouble slot hslot) [a]⟩
    rw [growthsOf_append, hslots, hgrowth, append_nil]

/-- In a tame run the entry of `x` grows once for each double vote. -/
theorem growsOnce_of_tame {s' : RunningNode × List GossipVote} (hb : b.Endless)
    (hv : Watches b x [] v)
    (hrun : Steps (TameStep P config genesisHash x) (v, []) as s') : GrowsOnce x as := by
  have hall := hrun.history (I := fun before s => Watches b x before s.1 ∧ s.2 = delivered before ∧
    GrowsOnce x before) ?_ [] ⟨hv, rfl, [], rfl, by simp⟩
  · exact hall.2.2
  · rintro before ⟨v, _⟩ a ⟨v', votes⟩ ⟨hwatches, rfl, hgrows⟩ hstep
    have hvotes : votes = delivered (before ++ [a]) := hstep.2.1.trans (delivered_append _ _).symm
    subst hvotes
    exact ⟨hwatches.step hb hstep.1, rfl, growsOnce_step hwatches hb hgrows hstep⟩

end RunningNode

open RunningNode

/-- **Once for each double vote.**  From a boot, whatever happens: a validator without a double vote is
never slashed.  And if, after a double vote for a slot, every vote of the validator for that slot that
is delivered has the hash the detector knows, the validator is slashed only with votes of its own for
slots in which it voted twice, and at most once for each slot. -/
theorem slashed_once (P : Platform) (config : ValidatorConfig) {g : Genesis} {c : BootConfig}
    {s : Storage} {v₀ : RunningNode} (hboot : boot P g c s = .ok v₀) (x : Hash) :
    (∀ as v, Trace.Steps (WatchStep P config g.hash) v₀ as v →
      (∀ slot, ¬DoubleVoted (delivered as) x slot) → ∀ a ∈ as, x ∉ a.grown) ∧
    ∀ as v, Trace.Steps (TameStep P config g.hash x) (v₀, []) as v → GrowsOnce x as := by
  have hbooted := boot_eq_ok hboot
  have hb := hbooted.registered.endless
  have hstart : Watches v₀.book x [] v₀ := by
    refine ⟨.refl hbooted.registered.supply, fun slot hash h => ?_⟩
    rw [hbooted.detector, lookup_empty] at h
    exact absurd h (by simp)
  refine ⟨fun as v hrun hhonest a ha hx => ?_, fun as v hrun => growsOnce_of_tame hb hstart hrun⟩
  obtain ⟨slot, hdouble⟩ := doubleVoted_of_grown hb hstart hrun ha hx
  exact hhonest slot hdouble

namespace Sample

/-- A vote of the validator for slot 1. -/
def gossiped (hash : Hash) : GossipVote := ⟨repeated 5, 1, hash⟩

/-- A vote for one hash and a vote for another are delivered to the node that has just booted on the
store of genesis, and then a third vote.  The first does not cost the validator anything, the second
5% of its stake. -/
theorem double_vote_at_boot (third : GossipVote) (amount : UInt64)
    (h : OnBoot genesisConfig fun _ v₀ =>
      ∃ v₁, v₀.processGossipVote (gossiped (repeated 1)) = .ok v₁ ∧
      ∃ v₂, v₁.processGossipVote (gossiped (repeated 2)) = .ok v₂ ∧
      ∃ v₃, v₂.processGossipVote third = .ok v₃ ∧
      v₀.book.getSlashedAmount (repeated 5) = 0 ∧
      v₁.book.getSlashedAmount (repeated 5) = 0 ∧
      v₂.book.getSlashedAmount (repeated 5) = 12500 ∧
      v₂.detector.lookup (repeated 5, 1) = some (repeated 1) ∧
      v₃.book.getSlashedAmount (repeated 5) = amount) :
    ∃ g s v₀ v₁ v₂ v₃ g₁ g₂ g₃,
      genesisConfig.build tailPlatform Storage.empty = .ok (g, s) ∧
      boot tailPlatform g (bootConfig 0) s = .ok v₀ ∧
      WatchStep tailPlatform config g.hash v₀ ⟨.vote (gossiped (repeated 1)), g₁⟩ v₁ ∧
      WatchStep tailPlatform config g.hash v₁ ⟨.vote (gossiped (repeated 2)), g₂⟩ v₂ ∧
      WatchStep tailPlatform config g.hash v₂ ⟨.vote third, g₃⟩ v₃ ∧
      repeated 5 ∉ g₁ ∧ repeated 5 ∈ g₂ ∧ (repeated 5 ∈ g₃ ↔ 12500 < amount) ∧
      v₂.detector.lookup (repeated 5, 1) = some (repeated 1) := by
  obtain ⟨⟨g, s⟩, hg, v₀, hv₀, v₁, hv₁, v₂, hv₂, v₃, hv₃, h₀, h₁, h₂, hdetector, h₃⟩ := h
  obtain ⟨g₁, hg₁⟩ := exists_grown v₀.book v₁.book
  obtain ⟨g₂, hg₂⟩ := exists_grown v₁.book v₂.book
  obtain ⟨g₃, hg₃⟩ := exists_grown v₂.book v₃.book
  refine ⟨g, s, v₀, v₁, v₂, v₃, g₁, g₂, g₃, hg, hv₀, ⟨hv₁, hg₁⟩, ⟨hv₂, hg₂⟩, ⟨hv₃, hg₃⟩,
    ?_, ?_, ?_, hdetector⟩
  · rw [hg₁, h₀, h₁]
    decide
  · rw [hg₂, h₁, h₂]
    decide
  · rw [hg₃, h₂, h₃]

end Sample

open Sample in
/-- The second vote of a double vote is delivered twice, and slashed twice. -/
theorem slashed_twice :
    ∃ g s v₀ as v, genesisConfig.build tailPlatform Storage.empty = .ok (g, s) ∧
      boot tailPlatform g (bootConfig 0) s = .ok v₀ ∧
      Trace.Steps (WatchStep tailPlatform config g.hash) v₀ as v ∧
      delivered as = [gossiped (Hash.repeated 1), gossiped (Hash.repeated 2),
        gossiped (Hash.repeated 2)] ∧
      growthsOf (Hash.repeated 5) as = [some 1, some 1] ∧ ¬GrowsOnce (Hash.repeated 5) as := by
  obtain ⟨g, s, v₀, v₁, v₂, v₃, g₁, g₂, g₃, hg, hv₀, hstep₁, hstep₂, hstep₃, hx₁, hx₂, hx₃, -⟩ :=
    double_vote_at_boot (gossiped (repeated 2)) 25000 (by decide +kernel)
  have hgrowths : growthsOf (repeated 5) [⟨.vote (gossiped (repeated 1)), g₁⟩,
      ⟨.vote (gossiped (repeated 2)), g₂⟩, ⟨.vote (gossiped (repeated 2)), g₃⟩]
        = [some 1, some 1] := by
    simp [growthsOf, hx₁, hx₂, hx₃, WatchEvent.slotOf?, WatchEvent.delivered?, gossiped]
  refine ⟨g, s, v₀, _, v₃, hg, hv₀, .cons hstep₁ (.cons hstep₂ (.cons hstep₃ (.nil v₃))), rfl,
    hgrowths, ?_⟩
  rintro ⟨slots, hslots, hnodup, -⟩
  rw [hgrowths] at hslots
  have hnodup' : ([some 1, some 1] : List (Option UInt64)).Nodup := by
    rw [hslots]
    exact hnodup.map (Option.some_injective _)
  exact absurd hnodup' (by decide)

open Sample in
/-- After a double vote the first vote is delivered once more; the validator was slashed once. -/
theorem slashed_for_double_vote :
    ∃ g s v₀ as v, genesisConfig.build tailPlatform Storage.empty = .ok (g, s) ∧
      boot tailPlatform g (bootConfig 0) s = .ok v₀ ∧
      Trace.Steps (TameStep tailPlatform config g.hash (Hash.repeated 5)) (v₀, []) as v ∧
      delivered as = [gossiped (Hash.repeated 1), gossiped (Hash.repeated 2),
        gossiped (Hash.repeated 1)] ∧
      growthsOf (Hash.repeated 5) as = [some 1] ∧ GrowsOnce (Hash.repeated 5) as := by
  obtain ⟨g, s, v₀, v₁, v₂, v₃, g₁, g₂, g₃, hg, hv₀, hstep₁, hstep₂, hstep₃, hx₁, hx₂, hx₃,
    hdetector⟩ := double_vote_at_boot (gossiped (repeated 1)) 12500 (by decide +kernel)
  have hgrowths : growthsOf (repeated 5) [⟨.vote (gossiped (repeated 1)), g₁⟩,
      ⟨.vote (gossiped (repeated 2)), g₂⟩, ⟨.vote (gossiped (repeated 1)), g₃⟩]
        = [some 1] := by
    simp [growthsOf, hx₁, hx₂, hx₃, WatchEvent.slotOf?, WatchEvent.delivered?, gossiped]
  have hrun : Steps (TameStep tailPlatform config g.hash (repeated 5)) (v₀, [])
      [⟨.vote (gossiped (repeated 1)), g₁⟩, ⟨.vote (gossiped (repeated 2)), g₂⟩,
        ⟨.vote (gossiped (repeated 1)), g₃⟩]
      (v₃, [gossiped (repeated 1), gossiped (repeated 2), gossiped (repeated 1)]) := by
    refine .cons (t := (v₁, [gossiped (repeated 1)])) ⟨hstep₁, rfl, ?_⟩
      (.cons (t := (v₂, [gossiped (repeated 1), gossiped (repeated 2)]))
        ⟨hstep₂, rfl, ?_⟩ (.cons ⟨hstep₃, rfl, ?_⟩ (.nil _)))
    · rintro q hq - ⟨h, h', hmem, -⟩
      exact absurd hmem not_mem_nil
    · rintro q hq - ⟨h, h', hmem, hmem', hne⟩
      have hone := congrArg GossipVote.hash (mem_singleton.mp hmem)
      have hother := congrArg GossipVote.hash (mem_singleton.mp hmem')
      exact absurd (hone.trans hother.symm) hne
    · rintro q hq - -
      obtain rfl := WatchEvent.vote.inj hq
      exact hdetector
  exact ⟨g, s, v₀, _, _, hg, hv₀, hrun, rfl, hgrowths,
    (slashed_once tailPlatform config hv₀ (repeated 5)).2 _ _ hrun⟩

end Nusantara

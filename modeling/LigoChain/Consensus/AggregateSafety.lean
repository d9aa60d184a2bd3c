/-
# Aggregates that make a validator panic

`setMaj23SignAggr` (`consensus/state.go`) stores a verified aggregate and, if the proposal of
the round is complete, goes on to `enterPrecommit` or to `enterCommit`, `tryFinalizeCommit`
and `finalizeCommit`.  These assert what a quorum of honest validators would have checked.  A
quorum of precommits for nil has an empty `Maj23`, which `enterCommit` takes for a missing
majority and panics (`nil_precommits_crash`).

`aggregate_returns_iff` gives the exact condition under which `setMaj23SignAggr` returns, for
every aggregate and in every state that timely inputs reach: what is asserted of the stored
aggregate, of the block at hand and of its parts.  The other assertions never fail: the round
of the proof of lock, the majority and the block that `finalizeCommit` looks up again, and the
block of the lock, which can always be hashed.
-/

import LigoChain.Consensus.ProposalSafety

namespace LigoChain

open GoInt Steps

theorem NCBlock.hashesTo_returns (L : Libs) {b : Option NCBlock} (hash : Bytes)
    (h : ∀ block, b = some block → block.ntcExtra.isSome = true) :
    ∃ same, NCBlock.hashesTo L b hash = .ok same := by
  unfold NCBlock.hashesTo
  split
  · exact ⟨_, rfl⟩
  split
  · exact ⟨_, rfl⟩
  next hsome =>
    obtain ⟨block, rfl⟩ : ∃ block, b = some block := Option.ne_none_iff_exists'.1 (by simpa using hsome)
    obtain ⟨bytes, hbytes⟩ := NCBlock.hash_returns (L := L) (h block rfl)
    rw [hbytes]
    exact ⟨_, rfl⟩

namespace Consensus

theorem pairwise_countUp (lo hi : ℤ) : (countUp lo hi).Pairwise (· < ·) := by
  have heq : countUp lo hi = (List.range (hi + 1 - lo).toNat).map fun k : ℕ => lo + k := by
    simp only [countUp, List.bind_eq_flatMap, List.pure_def, List.map_eq_flatMap,
      List.flatMap_assoc, List.flatMap_cons, List.flatMap_nil, List.append_nil]
  rw [heq, List.pairwise_map]
  exact List.pairwise_lt_range.imp fun hlt => by omega

/-- The proof of lock of a height is not below a round with a majority of prevotes. -/
theorem HeightVoteSignAggr.le_polInfo {hvs : HeightVoteSignAggr} {round : ℤ} {blockID : BlockID}
    (hnonneg : 0 ≤ round) (hle : round ≤ hvs.round)
    (hmaj : twoThirdsMajority (hvs.prevotes round) = (blockID, true)) :
    round ≤ hvs.polInfo.1 := by
  unfold polInfo
  cases hfind : List.findSome? _ (countUp 0 hvs.round).reverse with
  | none =>
    have hnone := List.findSome?_eq_none_iff.1 hfind round
      (List.mem_reverse.2 (mem_countUp.2 ⟨hnonneg, hle⟩))
    rw [hmaj] at hnone
    simp at hnone
  | some p =>
    obtain ⟨before, r, after, hsplit, hr, hbefore⟩ := List.findSome?_eq_some_iff.1 hfind
    have hmem : round ∈ before ++ r :: after :=
      hsplit ▸ List.mem_reverse.2 (mem_countUp.2 ⟨hnonneg, hle⟩)
    have hsorted := List.pairwise_reverse.2 (pairwise_countUp 0 hvs.round)
    rw [hsplit] at hsorted
    have hp : p.1 = r := by
      split at hr
      · exact (congrArg Prod.fst (Option.some.inj hr)).symm
      · simp at hr
    show round ≤ p.1
    rw [hp]
    rcases List.mem_append.1 hmem with hin | hin
    · have hnone := hbefore round hin
      rw [hmaj] at hnone
      simp at hnone
    rcases List.mem_cons.1 hin with rfl | hin
    · exact le_rfl
    · exact (List.rel_of_pairwise_cons (List.pairwise_append.1 hsorted).2.1 hin).le

namespace ConsensusState

variable {env : Env} {now : ℤ} {cs cs' cs₀ : ConsensusState}
variable {blockID : BlockID} {s : SignAggr}

theorem Able.signAddVote (h : Able cs) (type_ : ℕ) (hash : Bytes) (header : PartSetHeader) :
    ∃ cs', cs.signAddVote env now type_ hash header = .ok cs' := by
  unfold ConsensusState.signAddVote
  split
  · exact ⟨_, rfl⟩
  next pv _ =>
  split
  · exact ⟨_, rfl⟩
  obtain ⟨cs₁, b, hb, -⟩ :=
    @Able.isProposer env now _ (h.emit (.signVote (cs.signVote env pv type_ hash header)))
  dsimp only
  rw [hb]
  simp only [bind, Except.bind]
  split
  · split
    · exact ⟨_, rfl⟩
    · exact ⟨_, rfl⟩
  · exact ⟨_, rfl⟩

/-- The parts of the block of an aggregate are at hand, or can be allocated. -/
def CanFetch (cs : ConsensusState) (header : PartSetHeader) : Prop :=
  PartSet.hasHeader cs.proposalBlockParts header = true ∨ header.total ≤ maxSliceLen

theorem fetchBlock_returns_iff {header : PartSetHeader} :
    (∃ cs', cs.fetchBlock header = .ok cs') ↔ cs.CanFetch header := by
  unfold fetchBlock CanFetch
  split
  next hhas => simp [hhas]
  next hhas =>
    rw [or_iff_right hhas, ← newPartSetFromHeader_returns_iff]
    cases newPartSetFromHeader header with
    | error p => simp [bind, Except.bind]
    | ok parts => simp [bind, Except.bind]

theorem fetchBlock_other {L : Libs}
    (hother : NCBlock.hashesTo L cs.proposalBlock blockID.hash = .ok false)
    (h : cs.fetchBlock blockID.partsHeader = .ok cs') :
    cs'.height = cs.height ∧ cs'.voteSignAggr = cs.voteSignAggr ∧
      NCBlock.hashesTo L cs'.proposalBlock blockID.hash = .ok false := by
  unfold fetchBlock at h
  split at h
  · cases h
    exact ⟨rfl, rfl, hother⟩
  · obtain ⟨parts, -, h⟩ := Steps.bind_eq_ok.1 h
    cases h
    exact ⟨rfl, rfl, by simp [NCBlock.hashesTo]⟩

/-- What `enterPrecommit` asserts after a majority of prevotes for a block that the validator is
not locked on: the proposal block can be hashed, it is valid if it is that block, and otherwise
that block can be fetched. -/
def PrecommitSafe (env : Env) (cs : ConsensusState) (blockID : BlockID) : Prop :=
  blockID.hash ≠ [] → NCBlock.hashesTo env.libs cs.lockedBlock blockID.hash = .ok false →
    ∃ same, NCBlock.hashesTo env.libs cs.proposalBlock blockID.hash = .ok same ∧
      (same = true → ∀ block, cs.proposalBlock = some block →
        block.validateBasic cs.ntcExtra = .ok true) ∧
      (same = false → cs.CanFetch blockID.partsHeader)

theorem Able.unlock (h : Able cs) : Able cs.unlock :=
  ⟨⟨h.drawn.1, h.drawn.2⟩, h.named, h.nonneg, h.max, fun _ hb => by cases hb⟩

/-- **The panics of `enterPrecommit`**, in a round with a proof of lock. -/
theorem Able.precommit_returns_iff (h : Able cs)
    (hpol : ∀ blockID, twoThirdsMajority (cs.voteSignAggr.prevotes cs.round) = (blockID, true) →
      cs.round ≤ cs.voteSignAggr.polInfo.1) :
    (∃ cs', cs.precommit env now cs.round = .ok cs') ↔
      ∀ blockID, twoThirdsMajority (cs.voteSignAggr.prevotes cs.round) = (blockID, true) →
        cs.PrecommitSafe env blockID := by
  unfold precommit
  rcases hmaj : twoThirdsMajority (cs.voteSignAggr.prevotes cs.round) with ⟨blockID, ok⟩
  cases ok with
  | false => simpa using h.signAddVote _ _ _
  | true =>
  dsimp only
  rw [if_neg (not_lt.2 (hpol blockID hmaj))]
  simp only [Prod.mk.injEq, and_true, forall_eq']
  by_cases hempty : blockID.hash = []
  · have hable : Able (if cs.lockedBlock.isNone then cs else cs.unlock) := by
      split
      · exact h
      · exact h.unlock
    rw [if_pos (by simp [hempty])]
    exact iff_of_true (hable.signAddVote _ _ _) fun hne => absurd hempty hne
  rw [if_neg (by simpa using hempty)]
  obtain ⟨locked, hlocked⟩ := NCBlock.hashesTo_returns env.libs blockID.hash h.lock
  rw [hlocked]
  simp only [bind, Except.bind]
  cases locked with
  | true =>
    have hable : Able { cs with lockedRound := cs.round } :=
      ⟨⟨h.drawn.1, h.drawn.2⟩, h.named, h.nonneg, h.max, h.lock⟩
    exact iff_of_true (hable.signAddVote _ _ _) fun _ hfalse => by simp [hlocked] at hfalse
  | false =>
  simp only [PrecommitSafe, hlocked, ne_eq, hempty, not_false_eq_true, forall_const]
  cases hsame : NCBlock.hashesTo env.libs cs.proposalBlock blockID.hash with
  | error p => simp
  | ok same =>
  cases same with
  | true =>
    obtain ⟨-, hsome, -⟩ := NCBlock.hashesTo_eq_true hsame
    obtain ⟨block, hblock⟩ := Option.isSome_iff_exists.1 hsome
    simp only [hblock, Except.ok.injEq, exists_eq_left', forall_const, Option.some.injEq,
      forall_eq', Bool.true_eq_false, false_implies, and_true]
    cases hbasic : block.validateBasic cs.ntcExtra with
    | error p => simp
    | ok basic =>
    cases basic with
    | false => simp
    | true =>
      have hable : Able { cs with
          proposalBlock := some block
          lockedRound := cs.round
          lockedBlock := some block
          lockedBlockParts := cs.proposalBlockParts } :=
        ⟨⟨h.drawn.1, h.drawn.2⟩, h.named, h.nonneg, h.max, fun b hb =>
          Option.some.inj hb ▸ NCBlock.isSome_of_validateBasic hbasic⟩
      exact iff_of_true (hable.signAddVote _ _ _) rfl
  | false =>
    simp only [Except.ok.injEq, exists_eq_left', Bool.false_eq_true, false_implies, true_and,
      forall_const, if_false]
    have hfetch := @fetchBlock_returns_iff cs.unlock blockID.partsHeader
    rw [show cs.CanFetch blockID.partsHeader ↔ cs.unlock.CanFetch blockID.partsHeader from Iff.rfl,
      ← hfetch]
    cases hcs₁ : cs.unlock.fetchBlock blockID.partsHeader with
    | error p => simp
    | ok cs₁ =>
      have hable : Able cs₁ := h.unlock.of_frame ((@framed_fetchBlock (fun r => r = cs.unlock.round)
        (fun _ => True) cs.unlock rfl _).of_eq_ok hcs₁)
      exact iff_of_true (hable.signAddVote _ _ _) ⟨cs₁, rfl⟩

/-! ## Committing -/

/-- What `enterCommit` and `finalizeCommit` assert after a majority of precommits: the proposal
block can be hashed, it is valid and its parts have the header of the majority if it is the block
of the majority, and otherwise that block can be fetched. -/
def CommitSafe (env : Env) (cs : ConsensusState) (blockID : BlockID) : Prop :=
  ∃ same, NCBlock.hashesTo env.libs cs.proposalBlock blockID.hash = .ok same ∧
    (same = true → PartSet.hasHeader cs.proposalBlockParts blockID.partsHeader = true ∧
      ∀ block, cs.proposalBlock = some block → block.validateBasic cs.ntcExtra = .ok true) ∧
    (same = false → cs.CanFetch blockID.partsHeader)

/-- The block of the lock takes the place of the proposal block if it is the one to commit. -/
def takeLocked (cs : ConsensusState) (locked : Bool) : ConsensusState :=
  if locked then
    { cs with proposalBlock := cs.lockedBlock, proposalBlockParts := cs.lockedBlockParts }
  else cs

/-- **The panics of `finalizeCommit`** once the block to commit is there. -/
theorem finalizeCommit_returns_iff {block : NCBlock} (hstep : cs.step = .commit)
    (hmaj : twoThirdsMajority (cs.voteSignAggr.precommits cs.commitRound) = (blockID, true))
    (hblock : cs.proposalBlock = some block)
    (hsame : NCBlock.hashesTo env.libs cs.proposalBlock blockID.hash = .ok true) :
    (∃ cs', cs.finalizeCommit env cs.height = .ok cs') ↔
      PartSet.hasHeader cs.proposalBlockParts blockID.partsHeader = true ∧
        block.validateBasic cs.ntcExtra = .ok true := by
  obtain ⟨s, hs, -, -⟩ := twoThirdsMajority_eq_true hmaj
  unfold finalizeCommit
  rw [if_neg (by simp [hstep]), hmaj]
  dsimp only
  cases hheader : PartSet.hasHeader cs.proposalBlockParts blockID.partsHeader with
  | false => simp
  | true =>
  rw [hsame]
  simp only [bind, Except.bind, hblock, Bool.not_true, Bool.false_eq_true, if_false, true_and]
  cases hbasic : block.validateBasic cs.ntcExtra with
  | error p => simp
  | ok basic =>
  cases basic with
  | false => simp
  | true =>
    obtain ⟨extra, hextra⟩ := Option.isSome_iff_exists.1 (NCBlock.isSome_of_validateBasic hbasic)
    simp only [hextra, hs, Bool.not_true, Bool.false_eq_true, if_false, iff_true]
    split
    · exact ⟨_, rfl⟩
    · exact ⟨_, rfl⟩

/-- **The panics of `tryFinalizeCommit`** with a majority at hand. -/
theorem tryFinalizeCommit_returns_iff {same : Bool} (hstep : cs.step = .commit)
    (hmaj : twoThirdsMajority (cs.voteSignAggr.precommits cs.commitRound) = (blockID, true))
    (hsame : NCBlock.hashesTo env.libs cs.proposalBlock blockID.hash = .ok same) :
    (∃ cs', cs.tryFinalizeCommit env cs.height = .ok cs') ↔
      (same = true → PartSet.hasHeader cs.proposalBlockParts blockID.partsHeader = true ∧
        ∀ block, cs.proposalBlock = some block → block.validateBasic cs.ntcExtra = .ok true) := by
  unfold tryFinalizeCommit
  rw [if_neg (by simp), hmaj]
  dsimp only
  cases same with
  | false =>
    rw [hsame]
    simp only [bind, Except.bind, Bool.false_eq_true, if_false, false_implies, iff_true]
    split
    · exact ⟨_, rfl⟩
    · exact ⟨_, rfl⟩
  | true =>
    obtain ⟨hne, hsome, -⟩ := NCBlock.hashesTo_eq_true hsame
    obtain ⟨block, hblock⟩ := Option.isSome_iff_exists.1 hsome
    rw [if_neg (by simpa using hne), hsame]
    simp only [bind, Except.bind, hblock, if_true, forall_const, Option.some.injEq, forall_eq']
    exact @finalizeCommit_returns_iff env (cs.emit (.finalizeCommit block)) _ _ hstep hmaj hblock
      hsame

/-- **The panics of `enterCommit`.** -/
theorem enterCommit_returns_iff (hlock : cs.LockHashes)
    (hstep : cs.step.val < RoundStepType.commit.val) :
    (∃ cs', cs.enterCommit env cs.height cs.round = .ok cs') ↔
      ∃ blockID locked,
        twoThirdsMajority (cs.voteSignAggr.precommits cs.round) = (blockID, true) ∧
        NCBlock.hashesTo env.libs cs.lockedBlock blockID.hash = .ok locked ∧
        (cs.takeLocked locked).CommitSafe env blockID := by
  unfold enterCommit
  rw [if_neg (by simpa using hstep)]
  rcases hmaj : twoThirdsMajority (cs.voteSignAggr.precommits cs.round) with ⟨blockID, ok⟩
  cases ok with
  | false => simp
  | true =>
  obtain ⟨locked, hlocked⟩ := NCBlock.hashesTo_returns env.libs blockID.hash hlock
  have hsafe : (∃ id b, (blockID, true) = (id, true) ∧
      NCBlock.hashesTo env.libs cs.lockedBlock id.hash = .ok b ∧
      (cs.takeLocked b).CommitSafe env id) ↔ (cs.takeLocked locked).CommitSafe env blockID := by
    constructor
    · rintro ⟨id, b, hid, hb, hsafe⟩
      obtain ⟨rfl, -⟩ := Prod.mk.inj hid
      exact Except.ok.inj (hlocked.symm.trans hb) ▸ hsafe
    · exact fun hsafe => ⟨blockID, locked, rfl, hlocked, hsafe⟩
  rw [hsafe]
  dsimp only
  rw [hlocked]
  have hheight : (cs.takeLocked locked).height = cs.height := by cases locked <;> rfl
  have hmaj₁ : twoThirdsMajority ((cs.takeLocked locked).voteSignAggr.precommits cs.round) =
      (blockID, true) := by cases locked <;> exact hmaj
  change (∃ cs', (NCBlock.hashesTo env.libs (cs.takeLocked locked).proposalBlock blockID.hash >>=
    fun proposed => (if proposed then .ok (cs.takeLocked locked)
      else (cs.takeLocked locked).fetchBlock blockID.partsHeader : Go ConsensusState) >>= fun cs₁ =>
      tryFinalizeCommit env { cs₁ with step := .commit, commitRound := cs.round } cs.height) =
      .ok cs') ↔ _
  generalize cs.takeLocked locked = held at hheight hmaj₁ ⊢
  rw [← hheight]
  unfold CommitSafe
  cases hsame : NCBlock.hashesTo env.libs held.proposalBlock blockID.hash with
  | error p => simp [bind, Except.bind]
  | ok same =>
  simp only [bind, Except.bind, Except.ok.injEq, exists_eq_left']
  cases same with
  | true =>
    simp only [if_true, forall_const, Bool.true_eq_false, false_implies, and_true]
    rw [@tryFinalizeCommit_returns_iff env
      { held with step := .commit, commitRound := cs.round } blockID true rfl hmaj₁ hsame]
    simp only [forall_const]
  | false =>
    simp only [Bool.false_eq_true, if_false, false_implies, true_and, forall_const]
    rw [← fetchBlock_returns_iff]
    cases hfetch : held.fetchBlock blockID.partsHeader with
    | error p => simp
    | ok cs₁ =>
      obtain ⟨hheight₁, haggr, hother⟩ := fetchBlock_other hsame hfetch
      have hreturns := @tryFinalizeCommit_returns_iff env
        { cs₁ with step := .commit, commitRound := cs.round } blockID false rfl
        (by rw [← hmaj₁, ← haggr]) hother
      rw [← hheight₁]
      exact iff_of_true (hreturns.2 fun hfalse => by cases hfalse) ⟨cs₁, rfl⟩

/-! ## An aggregate -/

/-- The books of the rounds, the vote sets and the caches of the proposer are in order, and no
proposal was taken without a proposer. -/
structure Orderly (env : Env) (cs : ConsensusState) : Prop where
  booked : Booked cs
  prepared : Prepared env cs
  named : cs.proposal.isSome = true → cs.proposer.isSome = true

theorem Orderly.run (h : Orderly env cs) {inputs : List (ℤ × Event)}
    (hmeets : RunMeets env Timely cs inputs) (hrun : run env cs inputs = .ok cs') :
    Orderly env cs' :=
  hmeets.invariant (fun _ _ _ htimely hstep h =>
    ⟨((h.booked.handle htimely).of_eq_ok hstep).1,
      h.prepared.handle (fun _ _ hx => .inr (htimely.proposal hx)) hstep,
      fun hsome => ((handle_names hstep).2 hsome).elim
        (fun hold => (handle_names hstep).1 (h.named hold)) id⟩) hrun h

theorem Started.orderly (h : Started env cs₀) (hsize : (cs₀.validators.size : ℤ) ≤ maxInt) :
    Orderly env cs₀ := by
  refine ⟨h.booked, h.prepared hsize, fun hsome => ?_⟩
  obtain ⟨ntcExtra, validators, pv, fromMiner, h⟩ := h
  unfold startNewHeight at h
  obtain ⟨votes, -, h⟩ := Steps.bind_eq_ok.1 h
  cases h
  cases hsome

/-- `setMaj23SignAggr` goes on to a step: the aggregate is verified and of the current round, and
the proposal is complete. -/
def ActsOn (env : Env) (cs : ConsensusState) (s : SignAggr) : Prop :=
  Verified env.libs cs.height cs.validators s ∧ s.round = cs.round ∧ cs.isProposalComplete = true

/-- The aggregate is stored, unless there is one of its type for its round. -/
def store (cs : ConsensusState) (s : SignAggr) : ConsensusState :=
  { cs with voteSignAggr := cs.voteSignAggr.addSignAggr s }

theorem enterPrecommit_returns_iff :
    (∃ cs', cs.enterPrecommit env now cs.height cs.round = .ok cs') ↔
      (cs.step.val < RoundStepType.precommit.val →
        ∃ cs', cs.precommit env now cs.round = .ok cs') := by
  unfold enterPrecommit
  by_cases hstep : cs.step.val < RoundStepType.precommit.val
  · rw [if_neg (by simpa using hstep), forall_prop_of_true hstep]
    exact Steps.exists_bind_ok
  · rw [if_pos (by simpa using hstep)]
    exact iff_of_true ⟨_, rfl⟩ fun h => absurd h hstep

theorem recordPrevoteMaj23_returns (h : Orderly env cs) :
    ∃ cs₁, cs.recordPrevoteMaj23 env s = .ok cs₁ ∧
      (cs₁ = { cs with prevoteMaj23SignAggr := some s } ∨
        cs₁ = ({ cs with prevoteMaj23SignAggr := some s } : ConsensusState).unlock) := by
  unfold recordPrevoteMaj23
  dsimp only
  split
  · obtain ⟨same, hsame⟩ := NCBlock.hashesTo_returns env.libs s.maj23.hash
      h.prepared.lock
    rw [hsame]
    cases same with
    | false => exact ⟨_, rfl, .inr rfl⟩
    | true => exact ⟨_, rfl, .inl rfl⟩
  · exact ⟨_, rfl, .inl rfl⟩

/-- What the steps after a prevote aggregate assert of the aggregate that is stored. -/
def PrevotesSafe (env : Env) (cs : ConsensusState) (s : SignAggr) : Prop :=
  cs.prevoteMaj23SignAggr = none → cs.step.val < RoundStepType.precommit.val →
    ∀ cs₁ blockID, (cs.store s).recordPrevoteMaj23 env s = .ok cs₁ →
      twoThirdsMajority ((cs.store s).voteSignAggr.prevotes cs.round) = (blockID, true) →
      cs₁.PrecommitSafe env blockID

/-- What the steps after a precommit aggregate assert of the aggregate that is stored. -/
def PrecommitsSafe (env : Env) (cs : ConsensusState) (s : SignAggr) : Prop :=
  cs.precommitMaj23SignAggr = none → cs.step.val < RoundStepType.commit.val →
    ∃ blockID locked,
      twoThirdsMajority ((cs.store s).voteSignAggr.precommits cs.round) = (blockID, true) ∧
      NCBlock.hashesTo env.libs cs.lockedBlock blockID.hash = .ok locked ∧
      (cs.takeLocked locked).CommitSafe env blockID

theorem Orderly.store (h : Orderly env cs) (s : SignAggr) : Orderly env (cs.store s) := by
  obtain ⟨hround, hopens⟩ := @HeightVoteSignAggr.addSignAggr_opens cs.voteSignAggr s
  obtain ⟨hbooked, hprepared, hnamed⟩ := h
  refine ⟨⟨hbooked.nonneg, hbooked.isInt, hbooked.height, hround.trans hbooked.same, fun r hlo hhi =>
    ⟨(hbooked.opens r hlo hhi).1, hopens r (hbooked.opens r hlo hhi).2⟩, hbooked.inStep⟩, ?_, hnamed⟩
  exact ⟨hprepared.fits, hprepared.chainID, hprepared.height, hprepared.valSet, hprepared.size,
    ⟨hprepared.drawn.1, hprepared.drawn.2⟩, hprepared.lock, hprepared.nonneg⟩

theorem Orderly.able (h : Orderly env cs) (hmax : cs.round + cs.validators.size ≤ maxInt)
    (hcomplete : cs.isProposalComplete = true) : Able cs :=
  have hproposal : cs.proposal.isSome = true := (Bool.and_eq_true_iff.1 hcomplete).1
  ⟨h.prepared.drawn, h.named hproposal, h.booked.nonneg, hmax, h.prepared.lock⟩

theorem Orderly.le_polInfo (h : Orderly env cs)
    (hmaj : twoThirdsMajority (cs.voteSignAggr.prevotes cs.round) = (blockID, true)) :
    cs.round ≤ cs.voteSignAggr.polInfo.1 :=
  HeightVoteSignAggr.le_polInfo h.booked.nonneg (h.booked.same ▸ h.booked.round_le) hmaj

/-- **The panics after a prevote aggregate.** -/
theorem Orderly.prevotes_returns_iff (h : Orderly env cs)
    (hmax : cs.round + cs.validators.size ≤ maxInt) (hacts : cs.ActsOn env s)
    (htype : s.type_ = voteTypePrevote) :
    (∃ r, cs.setMaj23SignAggr env now s = .ok r) ↔ cs.PrevotesSafe env s := by
  obtain ⟨⟨hheight, hverify, hvalid⟩, hround, hcomplete⟩ := hacts
  have hstore := h.store s
  unfold setMaj23SignAggr PrevotesSafe
  rw [if_neg (not_not.2 hheight), if_neg (not_not.2 hverify), if_neg (by simpa using hvalid)]
  dsimp only
  rw [if_neg (not_not.2 hround), if_pos htype]
  by_cases hdup : cs.prevoteMaj23SignAggr.isSome = true
  · rw [if_pos hdup]
    exact iff_of_true ⟨_, rfl⟩ fun hnone => by simp [hnone] at hdup
  rw [if_neg hdup]
  obtain ⟨cs₁, hrecord, hcs₁⟩ := @recordPrevoteMaj23_returns env (cs.store s) s hstore
  have hable : Able cs₁ := by
    have hable₀ := hstore.able hmax hcomplete
    have hable₁ : Able { cs.store s with prevoteMaj23SignAggr := some s } :=
      ⟨⟨hable₀.drawn.1, hable₀.drawn.2⟩, hable₀.named, hable₀.nonneg, hable₀.max, hable₀.lock⟩
    rcases hcs₁ with rfl | rfl
    · exact hable₁
    · exact hable₁.unlock
  have hsame : cs₁.height = cs.height ∧ cs₁.round = cs.round ∧ cs₁.step = cs.step ∧
      cs₁.voteSignAggr = (cs.store s).voteSignAggr ∧ cs₁.isProposalComplete = true := by
    rcases hcs₁ with rfl | rfl
    · exact ⟨rfl, rfl, rfl, rfl, hcomplete⟩
    · exact ⟨rfl, rfl, rfl, rfl, hcomplete⟩
  obtain ⟨hheight₁, hround₁, hstep₁, haggr₁, hcomplete₁⟩ := hsame
  have hprecommit := @Able.precommit_returns_iff env now cs₁ hable fun blockID hmaj => by
    rw [haggr₁, hround₁] at hmaj ⊢
    exact hstore.le_polInfo hmaj
  have henter := @enterPrecommit_returns_iff env now cs₁
  rw [hprecommit, hstep₁, haggr₁, hround₁] at henter
  rw [show recordPrevoteMaj23 env
    { cs with voteSignAggr := cs.voteSignAggr.addSignAggr s } s = .ok cs₁ from hrecord]
  change (∃ r, (if cs₁.isProposalComplete = true then (do
    let cs₂ ← cs₁.enterPrecommit env now cs₁.height cs₁.round
    .ok (cs₂, none, true)) else .ok (cs₁, none, false)) = .ok r) ↔ _
  rw [if_pos hcomplete₁, Steps.exists_bind_ok, hround₁, henter]
  have hnone : cs.prevoteMaj23SignAggr = none := Option.not_isSome_iff_eq_none.1 hdup
  rw [forall_prop_of_true hnone]
  refine imp_congr_right fun _ => ⟨fun hsafe cs₂ blockID hcs₂ hmaj => ?_, fun hsafe blockID hmaj =>
    hsafe cs₁ blockID hrecord hmaj⟩
  obtain rfl := Except.ok.inj (hrecord.symm.trans hcs₂)
  exact hsafe blockID hmaj

/-- **The panics after a precommit aggregate.** -/
theorem Orderly.precommits_returns_iff (h : Orderly env cs) (hacts : cs.ActsOn env s)
    (htype : s.type_ = voteTypePrecommit) :
    (∃ r, cs.setMaj23SignAggr env now s = .ok r) ↔ cs.PrecommitsSafe env s := by
  obtain ⟨⟨hheight, hverify, hvalid⟩, hround, hcomplete⟩ := hacts
  unfold setMaj23SignAggr PrecommitsSafe
  rw [if_neg (not_not.2 hheight), if_neg (not_not.2 hverify), if_neg (by simpa using hvalid)]
  dsimp only
  rw [if_neg (not_not.2 hround), if_neg (by rw [htype]; decide)]
  by_cases hdup : cs.precommitMaj23SignAggr.isSome = true
  · rw [if_pos hdup]
    exact iff_of_true ⟨_, rfl⟩ fun hnone => by simp [hnone] at hdup
  have hcomplete₁ : isProposalComplete { cs with
      voteSignAggr := cs.voteSignAggr.addSignAggr s
      precommitMaj23SignAggr := some s } = true := hcomplete
  rw [if_neg hdup, if_pos hcomplete₁, Steps.exists_bind_ok,
    forall_prop_of_true (Option.not_isSome_iff_eq_none.1 hdup)]
  by_cases hstep : cs.step.val < RoundStepType.commit.val
  · rw [forall_prop_of_true hstep]
    have henter := @enterCommit_returns_iff env
      { cs.store s with precommitMaj23SignAggr := some s } h.prepared.lock hstep
    refine henter.trans (exists_congr fun blockID => exists_congr fun locked => and_congr_right
      fun _ => and_congr_right fun _ => ?_)
    -- the block and the parts are those from before the aggregate was stored
    cases locked with
    | false => exact Iff.rfl
    | true => exact Iff.rfl
  · unfold enterCommit
    rw [if_pos (.inr (not_lt.1 hstep))]
    exact iff_of_true ⟨_, rfl⟩ fun hlt => absurd hlt hstep

/-- An aggregate that is not acted on is refused, or stored for later. -/
theorem setMaj23SignAggr_of_not_actsOn (h : Orderly env cs) (hacts : ¬ cs.ActsOn env s) :
    ∃ r, cs.setMaj23SignAggr env now s = .ok r := by
  unfold setMaj23SignAggr
  by_cases hheight : s.height ≠ cs.height
  · exact ⟨_, if_pos hheight⟩
  rw [if_neg hheight]
  by_cases hverify : cs.validators.blsVerifySignAggr env.libs s ≠ .ok true
  · exact ⟨_, if_pos hverify⟩
  rw [if_neg hverify]
  by_cases hvalid : (!isVoteTypeValid s.type_) = true
  · exact ⟨_, if_pos hvalid⟩
  rw [if_neg hvalid]
  dsimp only
  by_cases hround : s.round ≠ cs.round
  · exact ⟨_, if_pos hround⟩
  rw [if_neg hround]
  have hopen : cs.isProposalComplete ≠ true := fun hcomplete =>
    hacts ⟨⟨not_not.1 hheight, not_not.1 hverify, by simpa using hvalid⟩, not_not.1 hround, hcomplete⟩
  split
  · split
    · exact ⟨_, rfl⟩
    obtain ⟨cs₁, hrecord, hcs₁⟩ := @recordPrevoteMaj23_returns env (cs.store s) s (h.store s)
    rw [show recordPrevoteMaj23 env
      { cs with voteSignAggr := cs.voteSignAggr.addSignAggr s } s = .ok cs₁ from hrecord]
    have hopen₁ : cs₁.isProposalComplete ≠ true := by
      rcases hcs₁ with rfl | rfl
      · exact hopen
      · exact hopen
    exact ⟨_, if_neg hopen₁⟩
  · split
    · exact ⟨_, rfl⟩
    · exact ⟨_, if_neg hopen⟩

/-- **Aggregates from the network.**  In every state that timely inputs reach, `setMaj23SignAggr`
returns on an aggregate exactly when it does not act on it, or when what `enterPrecommit`, or
`enterCommit` and `finalizeCommit`, assert of the stored aggregate and of the block at hand is the
case. -/
theorem aggregate_returns_iff (hstart : Started env cs₀)
    (hsize : (cs₀.validators.size : ℤ) ≤ maxInt) {inputs : List (ℤ × Event)}
    (hmeets : RunMeets env Timely cs₀ inputs) (hrun : run env cs₀ inputs = .ok cs)
    (hmax : cs.round + cs.validators.size ≤ maxInt) (now : ℤ) (s : SignAggr) :
    (∃ r, cs.setMaj23SignAggr env now s = .ok r) ↔
      (cs.ActsOn env s → (s.type_ = voteTypePrevote → cs.PrevotesSafe env s) ∧
        (s.type_ = voteTypePrecommit → cs.PrecommitsSafe env s)) := by
  have h : Orderly env cs := (hstart.orderly hsize).run hmeets hrun
  by_cases hacts : cs.ActsOn env s
  swap
  · exact ⟨fun _ hacts' => absurd hacts' hacts, fun _ => setMaj23SignAggr_of_not_actsOn h hacts⟩
  rw [forall_prop_of_true hacts]
  have htype : s.type_ = voteTypePrevote ∨ s.type_ = voteTypePrecommit := by
    simpa [isVoteTypeValid] using hacts.1.type_
  rcases htype with htype | htype
  · have hne : s.type_ ≠ voteTypePrecommit := by rw [htype]; decide
    rw [h.prevotes_returns_iff hmax hacts htype]
    exact ⟨fun hsafe => ⟨fun _ => hsafe, fun h => absurd h hne⟩, fun hsafe => hsafe.1 htype⟩
  · have hne : s.type_ ≠ voteTypePrevote := by rw [htype]; decide
    rw [h.precommits_returns_iff hacts htype]
    exact ⟨fun hsafe => ⟨fun h => absurd h hne, fun _ => hsafe⟩, fun hsafe => hsafe.2 htype⟩

end ConsensusState
open ConsensusState

/-- A validator enters round `0` and gets the proposal and its block. -/
def PlainEnv.blockArrives : List (ℤ × Event) :=
  [(1, .timeout ⟨1, 0, .newHeight⟩), (2, .msg (PlainEnv.proposal 2 0 7) "p"),
    (3, .msg (PlainEnv.blockPart 0 7) "p")]

/-- The aggregate of the precommits for the block is acted on, and does not panic. -/
theorem aggregate_returns_iff_known : ∃ cs₀ cs, Started PlainEnv.env cs₀ ∧
    RunMeets PlainEnv.env Timely cs₀ PlainEnv.blockArrives ∧
    run PlainEnv.env cs₀ PlainEnv.blockArrives = .ok cs ∧
    (∃ r, cs.setMaj23SignAggr PlainEnv.env 4 (PlainEnv.signAggr 0 voteTypePrecommit 7) = .ok r) ∧
    cs.PrecommitsSafe PlainEnv.env (PlainEnv.signAggr 0 voteTypePrecommit 7) := by
  obtain ⟨cs₀, hstart, hsize, hmeets, cs, hrun, hmax, hheight, hverify, hround, hcomplete, r, hr⟩ :
      ∃ cs₀, PlainEnv.start 3 = .ok cs₀ ∧ (cs₀.validators.size : ℤ) ≤ maxInt ∧
        RunMeets PlainEnv.env Timely cs₀ PlainEnv.blockArrives ∧
        ∃ cs, run PlainEnv.env cs₀ PlainEnv.blockArrives = .ok cs ∧
          cs.round + cs.validators.size ≤ maxInt ∧ cs.height = 1 ∧
          cs.validators.blsVerifySignAggr PlainEnv.env.libs
            (PlainEnv.signAggr 0 voteTypePrecommit 7) = .ok true ∧
          cs.round = 0 ∧ cs.isProposalComplete = true ∧
          ∃ r, cs.setMaj23SignAggr PlainEnv.env 4 (PlainEnv.signAggr 0 voteTypePrecommit 7) = .ok r := by
    decide +kernel
  have hstarted : Started PlainEnv.env cs₀ := ⟨_, _, _, _, hstart⟩
  have hiff := aggregate_returns_iff hstarted hsize hmeets hrun hmax 4
    (PlainEnv.signAggr 0 voteTypePrecommit 7)
  exact ⟨cs₀, cs, hstarted, hmeets, hrun, ⟨r, hr⟩,
    (hiff.1 ⟨r, hr⟩ ⟨⟨hheight.symm, hverify, rfl⟩, hround.symm, hcomplete⟩).2 rfl⟩

/-- The aggregate of the first validator's precommit for nil. -/
def PlainEnv.nilPrecommits : SignAggr :=
  makeSignAggr 1 0 voteTypePrecommit 3 BlockID.zero PlainEnv.chainID [true, false, false]
    (some (PlainLibs.sign [1]
      (PlainEnv.libs.voteJSON PlainEnv.chainID ⟨BlockID.zero, 1, 0, voteTypePrecommit⟩)))

/-- **A quorum of precommits for nil stops every validator with a complete proposal**, and so does
a genuine aggregate for a block with its `Maj23`, which no signature covers, erased. -/
theorem nil_precommits_crash : ∃ cs₀ cs, Started PlainEnv.env cs₀ ∧
    RunMeets PlainEnv.env (fun cs input => cs.Fires input.2) cs₀ PlainEnv.blockArrives ∧
    run PlainEnv.env cs₀ PlainEnv.blockArrives = .ok cs ∧
    cs.validators.blsVerifySignAggr PlainEnv.env.libs PlainEnv.nilPrecommits = .ok true ∧
    cs.setMaj23SignAggr PlainEnv.env 4 PlainEnv.nilPrecommits =
      .error (.sanity "RunActionCommit() expects +2/3 precommits") ∧
    cs.setMaj23SignAggr PlainEnv.env 4
      { PlainEnv.signAggr 0 voteTypePrecommit 7 with maj23 := BlockID.zero } =
      .error (.sanity "RunActionCommit() expects +2/3 precommits") := by
  obtain ⟨cs₀, hstart, hfires, cs, hrun, hcrashes⟩ : ∃ cs₀, PlainEnv.start 3 = .ok cs₀ ∧
      RunMeets PlainEnv.env (fun cs input => cs.Fires input.2) cs₀ PlainEnv.blockArrives ∧
      ∃ cs, run PlainEnv.env cs₀ PlainEnv.blockArrives = .ok cs ∧
        cs.validators.blsVerifySignAggr PlainEnv.env.libs PlainEnv.nilPrecommits = .ok true ∧
        cs.setMaj23SignAggr PlainEnv.env 4 PlainEnv.nilPrecommits =
          .error (.sanity "RunActionCommit() expects +2/3 precommits") ∧
        cs.setMaj23SignAggr PlainEnv.env 4
          { PlainEnv.signAggr 0 voteTypePrecommit 7 with maj23 := BlockID.zero } =
          .error (.sanity "RunActionCommit() expects +2/3 precommits") := by
    decide +kernel
  exact ⟨cs₀, cs, ⟨_, _, _, _, hstart⟩, hfires, hrun, hcrashes⟩

end Consensus

end LigoChain

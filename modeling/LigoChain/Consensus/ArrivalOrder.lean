/-
# Block part or aggregate first

A validator enters the precommit of a round when the aggregate of its prevotes is in and
the proposal is complete, and the commit when the aggregate of its precommits is in and
the block is.  `setMaj23SignAggr` tests whether the proposal is complete when an aggregate
arrives; `addProposalBlockPart`, when the last part arrives, tests the step but not the
aggregates (`chain/consensus/tendermint/consensus/state.go`).  So the outcome is right if
the block is there before the aggregates (`independent_of_blockFirst`), and the other order
leaves the validator in `PrevoteWait` (`block_after_aggregate`): a second copy is
refused as a duplicate, and nothing else looks at the aggregate in this round.

`Settled` is the invariant; a move keeps it unless it records an aggregate.
-/

import LigoChain.Consensus.LocalInvariant
import LigoChain.Consensus.Frames
import LigoChain.Consensus.PlainEnv

namespace LigoChain
namespace Consensus

open GoInt

variable {L : Libs} {e : Event} {v v' : View}

/-- The aggregates of the round have had their effect: those of prevotes end in the precommit,
those of precommits in the commit. -/
structure Settled (v : View) : Prop where
  nonneg : 0 ≤ v.round
  prevotes : v.prevoteMaj23SignAggr.isSome = true → RoundStepType.precommit.val ≤ v.step.val
  precommits : v.precommitMaj23SignAggr.isSome = true → v.step = .commit

/-- The input is an aggregate. -/
def Event.IsAggr (e : Event) : Prop := ∃ s key, e = .msg (.maj23SignAggr (some s)) key

theorem Settled.of_lt (hv : Settled v) (hstep : v.step.val < RoundStepType.precommit.val) :
    v.prevoteMaj23SignAggr.isSome ≠ true ∧ v.precommitMaj23SignAggr.isSome ≠ true := by
  refine ⟨fun h => absurd (hv.prevotes h) (not_le.2 hstep), fun h => ?_⟩
  rw [hv.precommits h] at hstep
  exact absurd hstep (by decide)

theorem Settled.of_none (hround : 0 ≤ v.round) (h : v.prevoteMaj23SignAggr.isSome ≠ true)
    (h' : v.precommitMaj23SignAggr.isSome ≠ true) : Settled v :=
  ⟨hround, fun hs => absurd hs h, fun hs => absurd hs h'⟩

/-- **A move that handles no aggregate** leaves a settled validator settled. -/
theorem Move.settled (h : Move L e v v') (he : ¬ e.IsAggr) (hv : Settled v) : Settled v' := by
  have hround : 0 ≤ v'.round := hv.nonneg.trans h.round_le
  cases h with
  | emit | schedule | gossipAggr | countVote | sendAggr | acceptProposal | addPart | completeBlock
  | storeAggr => exact ⟨hv.nonneg, hv.prevotes, hv.precommits⟩
  | recordPrevotes s key hs | unlockByPrevotes s key hs | recordPrecommits s key hs =>
    exact absurd ⟨s, key, hs⟩ he
  | enterRound => exact .of_none hround (by simp) (by simp)
  | startRound aggrs votes _ hstep =>
    obtain ⟨h1, h2⟩ := hv.of_lt (by rw [hstep]; decide)
    exact .of_none hround h1 h2
  | propose new hstep =>
    obtain ⟨h1, h2⟩ := hv.of_lt (hstep.trans (by decide))
    exact .of_none hround h1 h2
  | prevote blockID new hstep =>
    obtain ⟨h1, h2⟩ := hv.of_lt (hstep.trans_lt (by decide))
    exact .of_none hround h1 h2
  | completeAndPrevote parts parts' block blockID new timeouts hparts hcount htotal hfull hproposal
      hstep =>
    obtain ⟨h1, h2⟩ := hv.of_lt (hstep.trans_lt (by decide))
    exact .of_none hround h1 h2
  | prevoteWait hstep =>
    obtain ⟨h1, h2⟩ := hv.of_lt (hstep.trans (by decide))
    exact .of_none hround h1 h2
  | precommitNil new hstep | precommitUnlock s block parts new hstep | precommitRelock s new hstep
  | precommitLock s block new hstep =>
    obtain ⟨h1, h2⟩ := hv.of_lt hstep
    exact .of_none hround h1 h2
  | commit => exact ⟨hround, fun _ => show _ ≤ RoundStepType.commit.val by decide, fun _ => rfl⟩
  | finalize s block proposalBlock lockedBlock new _ hstep =>
    exact ⟨hround, hv.prevotes, hv.precommits⟩

theorem Moves.settled (h : Moves L e v v') (he : ¬ e.IsAggr) (hv : Settled v) : Settled v' :=
  h.preserves (fun _ _ hmove => hmove.settled he) hv

/-- What a move keeps that handles neither an aggregate nor a timeout. -/
theorem Move.keeps (h : Move L e v v') (he : ¬ e.IsAggr) (ht : ∀ ti, e ≠ .timeout ti) :
    v'.round = v.round ∧ v'.prevoteMaj23SignAggr = v.prevoteMaj23SignAggr ∧
      v'.precommitMaj23SignAggr = v.precommitMaj23SignAggr ∧ v.step.val ≤ v'.step.val := by
  cases h with
  | recordPrevotes s key hs | unlockByPrevotes s key hs | recordPrecommits s key hs =>
    exact absurd ⟨s, key, hs⟩ he
  | startRound aggrs votes htimeout | enterRound round aggrs votes htimeout =>
    obtain ⟨ti, hti⟩ := htimeout
    exact absurd hti (ht ti)
  | propose new hstep => exact ⟨rfl, rfl, rfl, hstep.le⟩
  | prevote blockID new hstep =>
    have hle : RoundStepType.propose.val ≤ RoundStepType.prevoteWait.val := by decide
    exact ⟨rfl, rfl, rfl, hstep.trans hle⟩
  | completeAndPrevote parts parts' block blockID new timeouts hparts hcount htotal hfull hproposal
      hstep => exact ⟨rfl, rfl, rfl, hstep⟩
  | prevoteWait hstep => exact ⟨rfl, rfl, rfl, hstep.le⟩
  | precommitNil new hstep | precommitUnlock s block parts new hstep | precommitRelock s new hstep
  | precommitLock s block new hstep =>
    have hle : RoundStepType.precommit.val ≤ RoundStepType.precommitWait.val := by decide
    exact ⟨rfl, rfl, rfl, hstep.le.trans hle⟩
  | commit commitRound block parts hstep => exact ⟨rfl, rfl, rfl, hstep.le⟩
  | _ => exact ⟨rfl, rfl, rfl, le_rfl⟩

theorem Moves.keeps (h : Moves L e v v') (he : ¬ e.IsAggr) (ht : ∀ ti, e ≠ .timeout ti) :
    v'.round = v.round ∧ v'.prevoteMaj23SignAggr = v.prevoteMaj23SignAggr ∧
      v'.precommitMaj23SignAggr = v.precommitMaj23SignAggr ∧ v.step.val ≤ v'.step.val := by
  induction h with
  | refl => exact ⟨rfl, rfl, rfl, le_rfl⟩
  | tail _ hmove ih =>
    obtain ⟨h1, h2, h3, h4⟩ := ih
    obtain ⟨h1', h2', h3', h4'⟩ := hmove.keeps he ht
    exact ⟨h1'.trans h1, h2'.trans h2, h3'.trans h3, h4.trans h4'⟩

theorem RoundStepType.eq_commit {step : RoundStepType}
    (h : RoundStepType.commit.val ≤ step.val) : step = .commit := by
  cases step <;> first | rfl | exact absurd h (by decide)

namespace ConsensusState

variable {env : Env} {now : ℤ} {cs cs' cs₀ : ConsensusState}

/-- `setMaj23SignAggr` records the aggregate: it is valid, of the current round, and the first of
its type. -/
def takesAggr (env : Env) (cs : ConsensusState) (s : SignAggr) : Bool :=
  decide (s.height = cs.height ∧ cs.validators.blsVerifySignAggr env.libs s = .ok true ∧
    isVoteTypeValid s.type_ = true ∧ s.round = cs.round ∧
    (if s.type_ = voteTypePrevote then cs.prevoteMaj23SignAggr else cs.precommitMaj23SignAggr) =
      none)

/-- An input that is neither an aggregate nor a timeout. -/
private theorem miner_plain (b : LigoBlock) :
    ¬ (Event.miner b).IsAggr ∧ (∀ ti, Event.miner b ≠ .timeout ti) ∧
      ¬ (Event.miner b).IsPrevoteAggr :=
  ⟨(by rintro ⟨_, _, h⟩; cases h), (fun _ h => by cases h), (by rintro ⟨_, _, h, _⟩; cases h)⟩

/-- **`enterPrecommit` in the current round** ends at the precommit or beyond. -/
theorem enterPrecommit_settles (h : cs.enterPrecommit env now cs.height cs.round = .ok cs') :
    cs'.round = cs.round ∧ cs'.precommitMaj23SignAggr = cs.precommitMaj23SignAggr ∧
      cs.step.val ≤ cs'.step.val ∧ RoundStepType.precommit.val ≤ cs'.step.val := by
  -- as moves, it handles no input of its own
  have hmoves : Moves env.libs (.miner ⟨0, []⟩) cs.view cs'.view := enterPrecommit_moves h
  obtain ⟨h1, -, h3, h4⟩ := hmoves.keeps (miner_plain _).1 (miner_plain _).2.1
  refine ⟨h1, h3, h4, ?_⟩
  unfold enterPrecommit at h
  split at h
  next hguard =>
    cases h
    rcases hguard with hheight | hround | ⟨-, hstep⟩
    · exact absurd rfl hheight
    · exact absurd hround (lt_irrefl _)
    · exact hstep
  · obtain ⟨cs₁, -, h⟩ := Steps.bind_eq_ok.1 h
    cases h
    unfold enterPrecommitWait
    split
    · exact le_rfl
    · show _ ≤ RoundStepType.precommitWait.val
      decide

/-- **`enterCommit` in the current round** ends in the commit. -/
theorem enterCommit_settles (h : cs.enterCommit env cs.height cs.round = .ok cs') :
    cs'.round = cs.round ∧ cs'.step = .commit := by
  have hmoves : Moves env.libs (.miner ⟨0, []⟩) cs.view cs'.view :=
    enterCommit_moves (miner_plain _).2.2 h
  obtain ⟨hround, -, -, -⟩ := hmoves.keeps (miner_plain _).1 (miner_plain _).2.1
  refine ⟨hround, ?_⟩
  unfold enterCommit at h
  split at h
  next hguard =>
    cases h
    exact RoundStepType.eq_commit (hguard.resolve_left fun hne => hne rfl)
  split at h
  · simp at h
  obtain ⟨locked, -, h⟩ := Steps.bind_eq_ok.1 h
  obtain ⟨proposed, -, h⟩ := Steps.bind_eq_ok.1 h
  obtain ⟨cs₁, hcs₁, h⟩ := Steps.bind_eq_ok.1 h
  have hheight : cs₁.height = cs.height := by
    split at hcs₁ <;> split at hcs₁
    · rw [← Except.ok.inj hcs₁]
    · rw [← Except.ok.inj hcs₁]
    · obtain ⟨b, p, rfl⟩ := fetchBlock_eq hcs₁
      rfl
    · obtain ⟨b, p, rfl⟩ := fetchBlock_eq hcs₁
      rfl
  have hfinal := @tryFinalizeCommit_moves env { cs₁ with step := .commit, commitRound := cs.round }
    cs' (.miner ⟨0, []⟩) (miner_plain _).2.2 rfl (by rw [← hheight] at h; exact h)
  exact RoundStepType.eq_commit (hfinal.keeps (miner_plain _).1 (miner_plain _).2.1).2.2.2

theorem recordPrevoteMaj23_eq {s : SignAggr} (h : cs.recordPrevoteMaj23 env s = .ok cs') :
    ∃ round block parts, cs' = { cs with
      prevoteMaj23SignAggr := some s
      lockedRound := round
      lockedBlock := block
      lockedBlockParts := parts } := by
  unfold recordPrevoteMaj23 at h
  simp only at h
  split at h
  · obtain ⟨same, -, h⟩ := Steps.bind_eq_ok.1 h
    cases h
    cases same with
    | true => exact ⟨_, _, _, rfl⟩
    | false => exact ⟨_, _, _, rfl⟩
  · exact ⟨_, _, _, (Except.ok.inj h).symm⟩

/-- **An aggregate** leaves a settled validator settled, if it is recorded with the proposal
complete. -/
theorem setMaj23SignAggr_settles {s : SignAggr} {r : Option SignAggrError × Bool}
    (hv : Settled cs.view) (htaken : cs.takesAggr env s = true → cs.isProposalComplete = true)
    (h : cs.setMaj23SignAggr env now s = .ok (cs', r)) : Settled cs'.view := by
  unfold setMaj23SignAggr at h
  split at h
  · cases h
    exact hv
  next hheight =>
  split at h
  · cases h
    exact hv
  next hverify =>
  split at h
  · cases h
    exact hv
  next htype =>
  simp only at h
  split at h
  · cases h
    exact ⟨hv.nonneg, hv.prevotes, hv.precommits⟩
  next hround =>
  rw [not_not] at hheight hverify hround
  split at h
  · next hprevote =>
    split at h
    · cases h
      exact ⟨hv.nonneg, hv.prevotes, hv.precommits⟩
    next hfirst =>
    have hcomplete := htaken (by
      simp only [takesAggr, decide_eq_true_eq]
      exact ⟨hheight, hverify, by simpa using htype, hround, by simpa [hprevote] using hfirst⟩)
    obtain ⟨cs₂, hrecord, h⟩ := Steps.bind_eq_ok.1 h
    obtain ⟨lockedRound, block, parts, rfl⟩ := recordPrevoteMaj23_eq hrecord
    split at h
    swap
    · next hnot => exact absurd hcomplete hnot
    obtain ⟨cs₃, hprecommit, h⟩ := Steps.bind_eq_ok.1 h
    cases h
    obtain ⟨h1, h3, h4, h5⟩ := enterPrecommit_settles hprecommit
    refine ⟨hv.nonneg.trans_eq h1.symm, fun _ => h5, fun hs => RoundStepType.eq_commit ?_⟩
    have hstep : cs.step = .commit := hv.precommits ((congrArg Option.isSome h3).symm.trans hs)
    exact hstep ▸ h4
  next hprecommit =>
  split at h
  · cases h
    exact ⟨hv.nonneg, hv.prevotes, hv.precommits⟩
  next hfirst =>
  have hcomplete := htaken (by
    simp only [takesAggr, decide_eq_true_eq]
    exact ⟨hheight, hverify, by simpa using htype, hround, by simpa [hprecommit] using hfirst⟩)
  split at h
  swap
  · next hnot => exact absurd hcomplete hnot
  obtain ⟨cs₃, hcommit, h⟩ := Steps.bind_eq_ok.1 h
  obtain ⟨rfl, -⟩ := Prod.mk.inj (Except.ok.inj h)
  obtain ⟨hround', hstep⟩ := enterCommit_settles hcommit
  refine ⟨hv.nonneg.trans_eq hround'.symm, fun _ => ?_, fun _ => hstep⟩
  show _ ≤ cs₃.step.val
  rw [hstep]
  decide

/-- **A proposal**, also one that takes the validator back, leaves it settled. -/
theorem setProposal_settles {proposal : Option Proposal} {err : Option ProposalError}
    (hv : Settled cs.view) (hint : ∀ x, proposal = some x → IsInt x.round)
    (h : cs.setProposal env now proposal = .ok (cs', err)) : Settled cs'.view := by
  rcases setProposal_cases h with hsame | ⟨x, parts, -, -, haccept⟩ |
    ⟨x, i, cs₂, -, -, hx, -, henter, haccept⟩
  · exact hsame ▸ hv
  · rw [haccept]
    exact ⟨hv.nonneg, hv.prevotes, hv.precommits⟩
  · have hnonneg := enterLowerRound_nonneg (hint x hx) henter
    obtain ⟨v, hround, hpre, hcom, hmoves⟩ := @enterLowerRound_moves env now
      { cs with vrfValIndex := i } _ (.miner ⟨0, []⟩) _ henter
    have hlow : Settled cs₂.view := hmoves.settled (miner_plain _).1
      (.of_none (hround ▸ hnonneg) (by simp [hpre]) (by simp [hcom]))
    obtain ⟨parts, past, rfl⟩ := acceptProposal_eq haccept
    exact ⟨hlow.nonneg, hlow.prevotes, hlow.precommits⟩

/-- The block is there before the aggregate: an aggregate is recorded only once the proposal is
complete.  No timeout of a higher round fires, and the round of a proposal is an `int`, which is
its type. -/
def blockFirst (env : Env) (cs : ConsensusState) : Event → Bool
  | .timeout ti => decide (ti.round ≤ cs.round)
  | .msg (.maj23SignAggr (some s)) _ => !cs.takesAggr env s || cs.isProposalComplete
  | .msg (.proposal (some x)) _ => decide (IsInt x.round)
  | _ => true

/-- The input finds the block before the aggregate. -/
abbrev BlockFirst (env : Env) (cs : ConsensusState) (input : ℤ × Event) : Prop :=
  cs.blockFirst env input.2 = true

/-- **One input** leaves a settled validator settled. -/
theorem handle_settles {input : ℤ × Event} (hv : Settled cs.view)
    (hfirst : BlockFirst env cs input) (h : cs.handle env input = .ok cs') :
    Settled cs'.view := by
  obtain ⟨now, event⟩ := input
  -- all but two kinds of message are moves that record no aggregate
  have hmoves : ¬ event.IsAggr → (∀ x key, event ≠ .msg (.proposal x) key) →
      Settled cs'.view := fun he hx => by
    refine (handle_moves hv.nonneg (fun ti hti => ?_) (fun x key h => absurd h (hx x key))
      h).settled he hv
    obtain rfl : event = .timeout ti := hti
    exact of_decide_eq_true hfirst
  match event, hmoves, hfirst, h with
  | .timeout _, hmoves, _, _ | .miner _, hmoves, _, _ | .gossip _, hmoves, _, _
  | .msg (.blockPart _ _ _) _, hmoves, _, _ | .msg (.vote _) _, hmoves, _, _
  | .msg (.maj23SignAggr none) _, hmoves, _, _ =>
    exact hmoves (by rintro ⟨_, _, h⟩; cases h) (fun _ _ h => by cases h)
  | .msg (.proposal proposal) key, _, hfirst, h =>
    obtain ⟨⟨cs₁, err⟩, hset, rfl⟩ := Steps.map_eq_ok.1 h
    exact setProposal_settles hv (fun x hx => by subst hx; exact of_decide_eq_true hfirst) hset
  | .msg (.maj23SignAggr (some s)) key, _, hfirst, h =>
    simp only [handle, handleMsg] at h
    split at h
    · obtain ⟨⟨cs₁, r⟩, hset, rfl⟩ := Steps.map_eq_ok.1 h
      refine setMaj23SignAggr_settles hv (fun htaken => ?_) hset
      simpa [BlockFirst, blockFirst, htaken] using hfirst
    · cases h
      exact hv

theorem Started.settled (h : Started env cs₀) : Settled cs₀.view := by
  obtain ⟨ntcExtra, validators, pv, fromMiner, h⟩ := h
  unfold startNewHeight at h
  obtain ⟨votes, hvotes, h⟩ := Steps.bind_eq_ok.1 h
  cases h
  exact .of_none le_rfl (by simp [view]) (by simp [view])

/-- The aggregates have had their effect, whichever of block and aggregate came first: with the
block of the precommits at hand the validator is in the commit, and with the proposal complete
and the prevotes in it has entered the precommit. -/
def Independent (env : Env) (cs : ConsensusState) : Prop :=
  (∀ s, cs.precommitMaj23SignAggr = some s → s.round = cs.round → s.maj23.isZero = false →
    NCBlock.hashesTo env.libs cs.proposalBlock s.maj23.hash = .ok true → cs.step = .commit) ∧
  (cs.prevoteMaj23SignAggr.isSome = true → cs.isProposalComplete = true →
    RoundStepType.precommit.val ≤ cs.step.val)

/-- **Block first.**  In every run in which an aggregate is recorded only once the proposal is
complete, the aggregates have had their effect in every state reached. -/
theorem independent_of_blockFirst (hstart : Started env cs₀) {inputs : List (ℤ × Event)}
    (hmeets : RunMeets env (BlockFirst env) cs₀ inputs) (hrun : run env cs₀ inputs = .ok cs) :
    Independent env cs := by
  have hv : Settled cs.view := hmeets.invariant (I := fun cs => Settled cs.view)
    (fun _ _ _ hfirst hstep hv => handle_settles hv hfirst hstep) hrun hstart.settled
  exact ⟨fun s hs _ _ _ => hv.precommits (Option.isSome_iff_exists.2 ⟨s, hs⟩),
    fun hs _ => hv.prevotes hs⟩

end ConsensusState

open ConsensusState

/-- Validator `1` gets the proposal, its block, and then the aggregates. -/
def PlainEnv.blockThenAggrs : List (ℤ × Event) :=
  [(1, .timeout ⟨1, 0, .newHeight⟩), (2, .msg (PlainEnv.proposal 2 0 7) "p"),
    (3, .msg (PlainEnv.blockPart 0 7) "p"),
    (4, .msg (.maj23SignAggr (some (PlainEnv.signAggr 0 voteTypePrevote 7))) "p"),
    (5, .msg (.maj23SignAggr (some (PlainEnv.signAggr 0 voteTypePrecommit 7))) "p")]

/-- With the block first, both aggregates have their effect. -/
theorem independent_of_blockFirst_known : ∃ cs₀ cs, Started PlainEnv.env cs₀ ∧
    RunMeets PlainEnv.env (BlockFirst PlainEnv.env) cs₀ PlainEnv.blockThenAggrs ∧
    run PlainEnv.env cs₀ PlainEnv.blockThenAggrs = .ok cs ∧ cs.step = .commit ∧
    cs.precommitMaj23SignAggr.isSome = true ∧ Independent PlainEnv.env cs := by
  obtain ⟨cs₀, hstart, hmeets, cs, hrun, hstep, hsome⟩ : ∃ cs₀, PlainEnv.start 1 = .ok cs₀ ∧
      RunMeets PlainEnv.env (BlockFirst PlainEnv.env) cs₀ PlainEnv.blockThenAggrs ∧
      ∃ cs, run PlainEnv.env cs₀ PlainEnv.blockThenAggrs = .ok cs ∧ cs.step = .commit ∧
        cs.precommitMaj23SignAggr.isSome = true := by
    decide +kernel
  have hstarted : Started PlainEnv.env cs₀ := ⟨_, _, _, _, hstart⟩
  exact ⟨cs₀, cs, hstarted, hmeets, hrun, hstep, hsome,
    independent_of_blockFirst hstarted hmeets hrun⟩

/-- Validator `1` gets the proposal and one aggregate, and then the block. -/
def PlainEnv.aggrThenBlock (type_ : ℕ) : List (ℤ × Event) :=
  [(1, .timeout ⟨1, 0, .newHeight⟩), (2, .msg (PlainEnv.proposal 2 0 7) "p"),
    (3, .msg (.maj23SignAggr (some (PlainEnv.signAggr 0 type_ 7))) "p"),
    (4, .msg (PlainEnv.blockPart 0 7) "p")]

/-- **The aggregate first.**  When the block comes after the aggregate of the precommits, the
validator stays before the commit; after that of the prevotes, before the precommit. -/
theorem block_after_aggregate : ∃ cs₀, Started PlainEnv.env cs₀ ∧
    (∃ cs s, RunMeets PlainEnv.env (fun cs input => cs.Fires input.2) cs₀
        (PlainEnv.aggrThenBlock voteTypePrecommit) ∧
      run PlainEnv.env cs₀ (PlainEnv.aggrThenBlock voteTypePrecommit) = .ok cs ∧
      cs.precommitMaj23SignAggr = some s ∧ s.round = cs.round ∧ s.maj23.isZero = false ∧
      NCBlock.hashesTo PlainEnv.env.libs cs.proposalBlock s.maj23.hash = .ok true ∧
      cs.step = .prevoteWait) ∧
    ∃ cs, RunMeets PlainEnv.env (fun cs input => cs.Fires input.2) cs₀
        (PlainEnv.aggrThenBlock voteTypePrevote) ∧
      run PlainEnv.env cs₀ (PlainEnv.aggrThenBlock voteTypePrevote) = .ok cs ∧
      cs.prevoteMaj23SignAggr.isSome = true ∧ cs.isProposalComplete = true ∧
      cs.step = .prevoteWait := by
  obtain ⟨cs₀, hstart, hfires, hfires', ⟨cs, hrun, haggr, hround, hhash, hstep⟩, cs', hrun', h⟩ :
      ∃ cs₀, PlainEnv.start 1 = .ok cs₀ ∧
        RunMeets PlainEnv.env (fun cs input => cs.Fires input.2) cs₀
          (PlainEnv.aggrThenBlock voteTypePrecommit) ∧
        RunMeets PlainEnv.env (fun cs input => cs.Fires input.2) cs₀
          (PlainEnv.aggrThenBlock voteTypePrevote) ∧
        (∃ cs, run PlainEnv.env cs₀ (PlainEnv.aggrThenBlock voteTypePrecommit) = .ok cs ∧
          cs.precommitMaj23SignAggr = some (PlainEnv.signAggr 0 voteTypePrecommit 7) ∧
          (0 : ℤ) = cs.round ∧
          NCBlock.hashesTo PlainEnv.env.libs cs.proposalBlock
            (PlainEnv.signAggr 0 voteTypePrecommit 7).maj23.hash = .ok true ∧
          cs.step = .prevoteWait) ∧
        ∃ cs, run PlainEnv.env cs₀ (PlainEnv.aggrThenBlock voteTypePrevote) = .ok cs ∧
          cs.prevoteMaj23SignAggr.isSome = true ∧ cs.isProposalComplete = true ∧
          cs.step = .prevoteWait := by
    decide +kernel
  exact ⟨cs₀, ⟨_, _, _, _, hstart⟩,
    ⟨cs, _, hfires, hrun, haggr, hround, by decide, hhash, hstep⟩, cs', hfires', hrun', h⟩

end Consensus
end LigoChain

/-
# Handlers are sequences of moves

For every handler of `Consensus/Handlers.lean`, called as a validator that never goes
back calls it, the change of the protocol state is a sequence of moves.  The handlers
are taken from the innermost out, in the order of the call graph:
`signAddVote`, `doPrevote`, `enterPrevote`, `precommit`, `finalizeCommit`,
`decideProposal`, `enterPropose`, `enterNewRound`, and then the messages.

`handle_moves` collects them: one input, with its timeout of the current round and
its proposal not of a lower one.
-/

import LigoChain.Consensus.Moves

namespace LigoChain

namespace Consensus

namespace ConsensusState

open GoInt

variable {env : Env} {now : ℤ} {cs cs' : ConsensusState} {e : Event}
variable {round : ℤ} {peerKey : String}

/-! ## The proposer -/

theorem proposerByRound_eq {p : VRFProposer} (h : cs.proposerByRound env now round = .ok (cs', p)) :
    ∃ i, cs' = { cs with vrfValIndex := i } := by
  unfold proposerByRound at h
  obtain ⟨⟨cs₁, idx⟩, hidx, h⟩ := Steps.bind_eq_ok.1 h
  have hcs₁ : ∃ i, cs₁ = { cs with vrfValIndex := i } := by
    unfold proposerIndex at hidx
    split_ifs at hidx
    · obtain ⟨i, -, hi⟩ := Steps.bind_eq_ok.1 hidx
      exact ⟨i, (Prod.mk.inj (Except.ok.inj hi)).1.symm⟩
    · exact ⟨cs.vrfValIndex, (Prod.mk.inj (Except.ok.inj hidx)).1.symm⟩
  simp only at h
  split at h
  · simp at h
  split at h
  · simp at h
  · cases h
    exact hcs₁

theorem updateProposer_eq {p : VRFProposer} (h : cs.updateProposer env now = .ok (cs', p)) :
    ∃ p f i, cs' = { cs with proposer := p, isProposerFlag := f, vrfValIndex := i } := by
  unfold updateProposer at h
  obtain ⟨⟨cs₁, q⟩, hround, h⟩ := Steps.bind_eq_ok.1 h
  obtain ⟨i, rfl⟩ := proposerByRound_eq hround
  simp only at h
  split at h
  · simp at h
  · cases h
    exact ⟨_, _, _, rfl⟩

theorem getProposer_eq {val : Validator} (h : cs.getProposer env now = .ok (cs', val)) :
    ∃ p f i, cs' = { cs with proposer := p, isProposerFlag := f, vrfValIndex := i } := by
  have hupdate : ∀ {f : ConsensusState × VRFProposer → Go (ConsensusState × Validator)},
      (∀ r, f r = .ok (r.1, r.2.proposer)) → updateProposer env now cs >>= f = .ok (cs', val) →
      ∃ p f i, cs' = { cs with proposer := p, isProposerFlag := f, vrfValIndex := i } := by
    intro f hf hx
    obtain ⟨⟨cs₁, q⟩, hq, hx⟩ := Steps.bind_eq_ok.1 hx
    rw [hf] at hx
    cases hx
    exact updateProposer_eq hq
  unfold getProposer at h
  split at h
  · split at h
    · exact hupdate (fun _ => rfl) h
    · cases h
      exact ⟨cs.proposer, cs.isProposerFlag, cs.vrfValIndex, rfl⟩
  · exact hupdate (fun _ => rfl) h

/-- **`IsProposer` changes nothing but the caches of the proposer.** -/
theorem isProposer_eq {b : Bool} (h : cs.isProposer env now = .ok (cs', b)) :
    ∃ p f i, cs' = { cs with proposer := p, isProposerFlag := f, vrfValIndex := i } := by
  unfold isProposer at h
  obtain ⟨⟨cs₁, val⟩, hval, h⟩ := Steps.bind_eq_ok.1 h
  cases h
  exact getProposer_eq hval

/-! ## Votes -/

theorem isVote_signVote {pv : PrivValidator} {type_ : ℕ} {hash : Bytes} {header : PartSetHeader}
    (hpv : cs.privValidator = some pv) (hmem : cs.validators.hasAddress pv.address = true) :
    IsVote cs.view type_ ⟨hash, header⟩ (cs.signVote env pv type_ hash header) :=
  ⟨by simp [view, hpv, signVote, PrivValidator.signVote], hmem, rfl, rfl, rfl, rfl, rfl⟩

/-- **`signAddVote` signs at most one vote**, for the state's height and round. -/
theorem signAddVote_eq {type_ : ℕ} {hash : Bytes} {header : PartSetHeader}
    (h : cs.signAddVote env now type_ hash header = .ok cs') :
    ∃ new p f i, Voted cs.view type_ ⟨hash, header⟩ new ∧
      cs' = { cs with
        proposer := p, isProposerFlag := f, vrfValIndex := i, out := new ++ cs.out } := by
  unfold signAddVote at h
  split at h
  · cases h
    exact ⟨[], _, _, _, .abstained, rfl⟩
  next pv hpv =>
  split at h
  · cases h
    exact ⟨[], _, _, _, .abstained, rfl⟩
  next hmem =>
  have hvote := @isVote_signVote env cs _ type_ hash header hpv
    (by simpa using hmem)
  obtain ⟨⟨cs₁, b⟩, hb, h⟩ := Steps.bind_eq_ok.1 h
  obtain ⟨p, f, i, rfl⟩ := isProposer_eq hb
  simp only at h
  split at h
  · split at h
    · cases h
      exact ⟨_, p, f, i, .toProposer _ _ hvote, rfl⟩
    · cases h
      exact ⟨_, p, f, i, .signed _ hvote, rfl⟩
  · cases h
    exact ⟨_, p, f, i, .toSelf _ hvote, rfl⟩

/-- One prevote, which is for the lock if there is one. -/
def Prevoted (env : Env) (cs cs' : ConsensusState) : Prop :=
  ∃ blockID new p f i, Voted cs.view voteTypePrevote blockID new ∧
    PrevoteKeepsLock env.libs cs.view blockID ∧
    cs' = { cs with proposer := p, isProposerFlag := f, vrfValIndex := i, out := new ++ cs.out }

/-- **`doPrevote` votes for the lock** if there is one. -/
theorem doPrevote_eq (h : cs.doPrevote env now = .ok cs') : Prevoted env cs cs' := by
  -- a vote after a look at the proposer, by a validator without a lock
  have hfree : ∀ {p f i hash header}, ¬ cs.lockedBlock.isSome = true →
      signAddVote env now { cs with proposer := p, isProposerFlag := f, vrfValIndex := i }
        voteTypePrevote hash header = .ok cs' → Prevoted env cs cs' := by
    intro p f i hash header hunlocked hsign
    obtain ⟨new, p, f, i, hvoted, rfl⟩ := signAddVote_eq hsign
    exact ⟨_, new, p, f, i, hvoted, fun hlocked => absurd hlocked hunlocked, rfl⟩
  unfold doPrevote at h
  split at h
  · obtain ⟨hash, hhash, h⟩ := Steps.bind_eq_ok.1 h
    obtain ⟨new, p, f, i, hvoted, rfl⟩ := signAddVote_eq h
    exact ⟨_, new, p, f, i, hvoted, fun _ => hhash, rfl⟩
  next hlocked =>
  split at h
  · exact hfree hlocked h
  obtain ⟨basic, -, h⟩ := Steps.bind_eq_ok.1 h
  split at h
  · exact hfree hlocked h
  split at h
  · exact hfree hlocked h
  obtain ⟨⟨cs₁, b⟩, hb, h⟩ := Steps.bind_eq_ok.1 h
  obtain ⟨p, f, i, rfl⟩ := isProposer_eq hb
  simp only at h
  split at h
  · exact hfree hlocked h
  split at h
  · exact hfree hlocked h
  obtain ⟨hash, -, h⟩ := Steps.bind_eq_ok.1 h
  exact hfree hlocked h

/-- The end of `enterPrevote`: the step becomes `PrevoteWait`, with a timeout if it was lower. -/
theorem enterPrevoteWait_eq (hstep : cs.step.val ≤ RoundStepType.prevoteWait.val) :
    ((if cs.step = .propose then cs.updateRoundStep cs.round .prevote else cs).enterPrevoteWait
        cs.height cs.round) =
      if cs.step = .prevoteWait then cs
      else { cs with
        step := .prevoteWait
        out := .schedule ⟨cs.height, cs.round, .prevoteWait⟩ :: cs.out } := by
  obtain ⟨s, hs⟩ : ∃ s, s = cs.step := ⟨_, rfl⟩
  rw [← hs] at hstep
  cases s <;>
    simp_all [enterPrevoteWait, RoundStepType.val, updateRoundStep, scheduleTimeout, emit, ← hs]

/-- **`enterPrevote` in the current round**, with the proposal complete: one prevote. -/
theorem enterPrevote_complete (hstep : cs.step.val ≤ RoundStepType.prevoteWait.val)
    (hcomplete : cs.isProposalComplete = true)
    (h : cs.enterPrevote env now cs.height cs.round = .ok cs') :
    ∃ blockID new p f i, Voted cs.view voteTypePrevote blockID new ∧
      PrevoteKeepsLock env.libs cs.view blockID ∧
      cs' = { cs with
        proposer := p
        isProposerFlag := f
        vrfValIndex := i
        step := .prevoteWait
        out := (if cs.step = .prevoteWait then []
          else [.schedule ⟨cs.height, cs.round, .prevoteWait⟩]) ++ (new ++ cs.out) } := by
  unfold enterPrevote at h
  rw [if_neg (by simp [not_lt.2 hstep])] at h
  obtain ⟨cs₁, hvote, h⟩ := Steps.bind_eq_ok.1 h
  rw [prevoteIfComplete, if_pos hcomplete] at hvote
  obtain ⟨blockID, new, p, f, i, hvoted, hlock, rfl⟩ := doPrevote_eq hvote
  refine ⟨blockID, new, p, f, i, hvoted, hlock, ?_⟩
  have hend := @enterPrevoteWait_eq { cs with
    proposer := p, isProposerFlag := f, vrfValIndex := i, out := new ++ cs.out } hstep
  simp only at hend h
  rw [hend] at h
  cases h
  split_ifs with hw
  · simp [hw]
  · rfl

/-- `enterPrevote` in the current round, with the proposal not complete: no vote. -/
theorem enterPrevote_incomplete (hstep : cs.step.val ≤ RoundStepType.prevoteWait.val)
    (hcomplete : cs.isProposalComplete = false)
    (h : cs.enterPrevote env now cs.height cs.round = .ok cs') :
    cs' = if cs.step = .prevoteWait then cs
      else { cs with
        step := .prevoteWait
        out := .schedule ⟨cs.height, cs.round, .prevoteWait⟩ :: cs.out } := by
  unfold enterPrevote at h
  rw [if_neg (by simp [not_lt.2 hstep])] at h
  obtain ⟨cs₁, hvote, h⟩ := Steps.bind_eq_ok.1 h
  rw [prevoteIfComplete, if_neg (by simp [hcomplete])] at hvote
  cases hvote
  rw [← enterPrevoteWait_eq hstep]
  exact (Except.ok.inj h).symm

/-- `enterPrevote` from the step `Propose` or an earlier one. -/
theorem enterPrevote_moves (hstep : cs.step.val ≤ RoundStepType.propose.val)
    (h : cs.enterPrevote env now cs.height cs.round = .ok cs') :
    Moves env.libs e cs.view cs'.view := by
  have hle : cs.step.val ≤ RoundStepType.prevoteWait.val := hstep.trans (by decide)
  have hnot : cs.step ≠ .prevoteWait := by
    intro heq
    rw [heq] at hstep
    exact absurd hstep (by decide)
  cases hcomplete : cs.isProposalComplete with
  | false =>
    rw [enterPrevote_incomplete hle hcomplete h, if_neg hnot]
    exact .single (.prevoteWait cs.view (hstep.trans_lt (by decide)))
  | true =>
    obtain ⟨blockID, new, p, f, i, hvoted, hlock, rfl⟩ := enterPrevote_complete hle hcomplete h
    unfold isProposalComplete at hcomplete
    rw [Bool.and_eq_true] at hcomplete
    have hmove := Move.prevote (L := env.libs) (e := e) cs.view blockID new hstep hcomplete.1
      hcomplete.2 hvoted hlock
    simp only [if_neg hnot, List.cons_append, List.nil_append]
    exact .single hmove

/-! ## Precommits -/

/-- The end of `enterPrecommit`. -/
theorem enterPrecommitWait_eq {cs₁ : ConsensusState} {height : ℕ}
    (h : (.ok ((cs₁.updateRoundStep round .precommit).enterPrecommitWait height round) :
      Go ConsensusState) = .ok cs') (hheight : cs₁.height = height) :
    cs' = { cs₁ with
      round := round
      step := .precommitWait
      out := .schedule ⟨height, round, .precommitWait⟩ :: cs₁.out } := by
  rw [← Except.ok.inj h]
  simp [enterPrecommitWait, RoundStepType.val, updateRoundStep, scheduleTimeout, emit, hheight]

theorem fetchBlock_eq {header : PartSetHeader} (h : cs.fetchBlock header = .ok cs') :
    ∃ block parts, cs' = { cs with proposalBlock := block, proposalBlockParts := parts } := by
  unfold fetchBlock at h
  split_ifs at h
  · exact ⟨_, _, (Except.ok.inj h).symm⟩
  · obtain ⟨parts, -, h⟩ := Steps.bind_eq_ok.1 h
    exact ⟨_, _, (Except.ok.inj h).symm⟩

theorem hashesTo_empty {L : Libs} {b : Option NCBlock} {h : Bytes} (hh : h.isEmpty = true) :
    NCBlock.hashesTo L b h = .ok false := by
  simp [NCBlock.hashesTo, hh]

/-- **`enterPrecommit` in the current round.**  Every lock that is given up or changed comes
with the prevote aggregate of the round. -/
theorem enterPrecommit_moves (h : cs.enterPrecommit env now cs.height cs.round = .ok cs') :
    Moves env.libs e cs.view cs'.view := by
  unfold enterPrecommit at h
  split at h
  · cases h
    exact .refl
  next hguard =>
  have hstep : cs.step.val < RoundStepType.precommit.val := by
    by_contra hle
    exact hguard (Or.inr (Or.inr ⟨rfl, not_lt.1 hle⟩))
  obtain ⟨cs₁, hpre, h⟩ := Steps.bind_eq_ok.1 h
  unfold precommit at hpre
  split at hpre
  · obtain ⟨new, p, f, i, hvoted, rfl⟩ := signAddVote_eq hpre
    rw [enterPrecommitWait_eq h rfl]
    exact .single (.precommitNil cs.view new hstep hvoted)
  next blockID hmaj =>
  obtain ⟨s, hs, rfl, hzero⟩ := twoThirdsMajority_eq_true hmaj
  have hpolka : HasPolka cs.view s := ⟨hs, hzero⟩
  split at hpre
  · simp at hpre
  split at hpre
  · next hempty =>
    split at hpre
    · obtain ⟨new, p, f, i, hvoted, rfl⟩ := signAddVote_eq hpre
      rw [enterPrecommitWait_eq h rfl]
      exact .single (.precommitNil cs.view new hstep hvoted)
    · obtain ⟨new, p, f, i, hvoted, rfl⟩ := signAddVote_eq hpre
      rw [enterPrecommitWait_eq h rfl]
      exact .single (.precommitUnlock cs.view s cs.proposalBlock cs.proposalBlockParts new hstep
        hpolka (hashesTo_empty hempty) (hvoted.of_same rfl rfl rfl rfl))
  obtain ⟨same, hsame, hpre⟩ := Steps.bind_eq_ok.1 hpre
  split at hpre
  · next htrue =>
    subst htrue
    obtain ⟨new, p, f, i, hvoted, rfl⟩ := signAddVote_eq hpre
    rw [enterPrecommitWait_eq h rfl]
    exact .single (.precommitRelock cs.view s new hstep hpolka hsame
      (hvoted.of_same rfl rfl rfl rfl))
  next hfalse =>
  obtain rfl : same = false := by simpa using hfalse
  obtain ⟨mine, hmine, hpre⟩ := Steps.bind_eq_ok.1 hpre
  split at hpre
  · next htrue =>
    subst htrue
    split at hpre
    · simp at hpre
    next block hblock =>
    obtain ⟨basic, -, hpre⟩ := Steps.bind_eq_ok.1 hpre
    split at hpre
    · simp at hpre
    obtain ⟨new, p, f, i, hvoted, rfl⟩ := signAddVote_eq hpre
    rw [enterPrecommitWait_eq h rfl]
    exact .single (.precommitLock cs.view s block new hstep hpolka hsame hblock
      (by rw [← hblock]; exact hmine) (hvoted.of_same rfl rfl rfl rfl))
  · obtain ⟨cs₂, hfetch, hpre⟩ := Steps.bind_eq_ok.1 hpre
    obtain ⟨block, parts, rfl⟩ := fetchBlock_eq hfetch
    obtain ⟨new, p, f, i, hvoted, rfl⟩ := signAddVote_eq hpre
    rw [enterPrecommitWait_eq h rfl]
    exact .single (.precommitUnlock cs.view s block parts new hstep hpolka hsame
      (hvoted.of_same rfl rfl rfl rfl))

/-! ## Committing -/

/-- What `finalizeCommit` writes into a block. -/
theorem sameBlock_committedBlock {block : NCBlock} {extra : TendermintExtra} {commit : Commit}
    (h : block.ntcExtra = some extra) :
    SameBlock block (committedBlock env block extra commit) := by
  simp [SameBlock, committedBlock, h]

/-- `finalizeCommit` in the step `Commit` writes the commit into the block, or does nothing. -/
theorem finalizeCommit_eq (h : cs.finalizeCommit env cs.height = .ok cs') :
    ∃ proposalBlock lockedBlock new,
      (lockedBlock = cs.lockedBlock ∨
        ∃ b b', cs.lockedBlock = some b ∧ lockedBlock = some b' ∧ SameBlock b b') ∧
      (∀ x ∈ new, x.benign = true) ∧
      cs' = { cs with
        proposalBlock := proposalBlock, lockedBlock := lockedBlock, out := new ++ cs.out } := by
  unfold finalizeCommit at h
  split at h
  · cases h
    exact ⟨_, _, [], .inl rfl, by simp, rfl⟩
  split at h
  · simp at h
  split at h
  · simp at h
  obtain ⟨hashes, -, h⟩ := Steps.bind_eq_ok.1 h
  split at h
  · simp at h
  split at h
  · simp at h
  next block hblock =>
  obtain ⟨basic, -, h⟩ := Steps.bind_eq_ok.1 h
  split at h
  · simp at h
  split at h
  · next extra precommits hextra _ =>
    split at h
    · cases h
      refine ⟨_, _, [_], ?_, ?_, rfl⟩
      · by_cases hlocked : cs.lockedBlock = some block
        · rw [if_pos hlocked]
          exact .inr ⟨_, _, hlocked, rfl, sameBlock_committedBlock hextra⟩
        · rw [if_neg hlocked]
          exact .inl rfl
      · simp [Effect.benign]
    · cases h
      exact ⟨_, _, [], .inl rfl, by simp, rfl⟩
  · simp at h

/-- `tryFinalizeCommit` in the step `Commit`. -/
theorem tryFinalizeCommit_moves (he : ¬ e.IsPrevoteAggr) (hstep : cs.step = .commit)
    (h : cs.tryFinalizeCommit env cs.height = .ok cs') : Moves env.libs e cs.view cs'.view := by
  unfold tryFinalizeCommit at h
  rw [if_neg (by simp)] at h
  split at h
  · cases h
    exact .refl
  next blockID hmaj =>
  obtain ⟨s, hs, rfl, -⟩ := twoThirdsMajority_eq_true hmaj
  split at h
  · cases h
    exact .refl
  obtain ⟨hashes, hhashes, h⟩ := Steps.bind_eq_ok.1 h
  split at h
  · next htrue =>
    subst htrue
    split at h
    · simp at h
    next block hblock =>
    obtain ⟨proposalBlock, lockedBlock, new, hlock, hnew, rfl⟩ :=
      @finalizeCommit_eq env (cs.emit (.finalizeCommit block)) _ h
    exact .single (.finalize cs.view s block proposalBlock lockedBlock new he hstep hs
      (by rw [← hblock]; exact hhashes) hlock hnew)
  · cases h
    exact .refl

/-- **`enterCommit`.** -/
theorem enterCommit_moves {commitRound : ℤ} (he : ¬ e.IsPrevoteAggr)
    (h : cs.enterCommit env cs.height commitRound = .ok cs') :
    Moves env.libs e cs.view cs'.view := by
  unfold enterCommit at h
  split at h
  · cases h
    exact .refl
  next hguard =>
  have hstep : cs.step.val < RoundStepType.commit.val := by
    by_contra hle
    exact hguard (Or.inr (not_lt.1 hle))
  split at h
  · simp at h
  obtain ⟨locked, -, h⟩ := Steps.bind_eq_ok.1 h
  obtain ⟨proposed, -, h⟩ := Steps.bind_eq_ok.1 h
  obtain ⟨cs₁, hcs₁, h⟩ := Steps.bind_eq_ok.1 h
  have hfields : ∃ block parts,
      cs₁ = { cs with proposalBlock := block, proposalBlockParts := parts } := by
    have hlocked : ∃ block parts,
        (if locked = true then
          { cs with proposalBlock := cs.lockedBlock, proposalBlockParts := cs.lockedBlockParts }
        else cs) = { cs with proposalBlock := block, proposalBlockParts := parts } := by
      split_ifs
      · exact ⟨_, _, rfl⟩
      · exact ⟨_, _, rfl⟩
    obtain ⟨block, parts, hlocked⟩ := hlocked
    rw [hlocked] at hcs₁
    split at hcs₁
    · exact ⟨_, _, (Except.ok.inj hcs₁).symm⟩
    · obtain ⟨block', parts', h'⟩ := fetchBlock_eq hcs₁
      exact ⟨block', parts', h'⟩
  obtain ⟨block, parts, rfl⟩ := hfields
  have hcommit := Move.commit (L := env.libs) (e := e) cs.view commitRound block parts hstep
  exact .head hcommit (@tryFinalizeCommit_moves env { cs with
    proposalBlock := block, proposalBlockParts := parts, step := .commit,
    commitRound := commitRound } _ _ he rfl h)

/-! ## Proposing -/

theorem moves_emit {L : Libs} (v : View) {new : List Effect} (h : ∀ x ∈ new, x.benign = true) :
    Moves L e v { v with out := new ++ v.out } := by
  induction new with
  | nil => exact .refl
  | cons x new ih =>
    have htail := ih fun y hy => h y (List.mem_cons_of_mem x hy)
    exact htail.tail (.emit _ x (h x List.mem_cons_self))

theorem sendParts_eq (parts : List (Option Part)) (cs : ConsensusState) :
    ∃ new, (∀ x ∈ new, x.benign = true) ∧ cs.sendParts parts = { cs with out := new ++ cs.out } := by
  induction parts generalizing cs with
  | nil => exact ⟨[], by simp, rfl⟩
  | cons part parts ih =>
    obtain ⟨new, hnew, heq⟩ := ih (cs.sendInternalMessage (.blockPart cs.height cs.round part))
    refine ⟨new ++ [.internal (.blockPart cs.height cs.round part)], ?_, ?_⟩
    · intro x hx
      rcases List.mem_append.1 hx with hx | hx
      · exact hnew x hx
      · rw [List.mem_singleton.1 hx]
        rfl
    · rw [show cs.sendParts (part :: parts) =
        (cs.sendInternalMessage (.blockPart cs.height cs.round part)).sendParts parts from rfl, heq]
      simp [sendInternalMessage, emit]

/-- A proposal is signed, and it and its parts are sent. -/
theorem sendProposal_eq (cs : ConsensusState) (proposal : Proposal) (parts : List (Option Part)) :
    ∃ sent, (∀ x ∈ sent, x.benign = true) ∧
      ((cs.emit (.signProposal proposal)).sendInternalMessage
        (.proposal (some proposal))).sendParts parts =
        { cs with out := (sent ++ [.signProposal proposal]) ++ cs.out } := by
  obtain ⟨new, hnew, heq⟩ := sendParts_eq parts
    ((cs.emit (.signProposal proposal)).sendInternalMessage (.proposal (some proposal)))
  refine ⟨new ++ [.internal (.proposal (some proposal))], ?_, ?_⟩
  · intro x hx
    rcases List.mem_append.1 hx with hx | hx
    · exact hnew x hx
    · rw [List.mem_singleton.1 hx]
      rfl
  · rw [heq]
    simp [sendInternalMessage, emit]

theorem proposeBlock_eq {block : NCBlock} {parts : Option PartSet}
    (h : cs.proposeBlock env cs.height cs.round block parts = .ok cs') :
    ∃ new, Proposed cs.view new ∧ cs' = { cs with out := new ++ cs.out } := by
  unfold proposeBlock at h
  simp only at h
  obtain ⟨hash, -, h⟩ := Steps.bind_eq_ok.1 h
  split at h
  · simp at h
  split at h
  · simp at h
  next pv hpv =>
  cases h
  obtain ⟨sent, hsent, heq⟩ := sendProposal_eq cs
    (pv.signProposal env.libs cs.ntcExtra.chainID
      { height := cs.height
        round := cs.round
        hash := hash
        blockPartsHeader := PartSet.header parts
        polRound := cs.voteSignAggr.polInfo.1
        polBlockID := cs.voteSignAggr.polInfo.2
        proposerPeerKey := env.nodeID
        signature := [] })
    ((parts.map PartSet.parts).getD [])
  exact ⟨_, .signed _ sent hsent rfl rfl, heq⟩

theorem decideProposal_eq (h : cs.decideProposal env now cs.height cs.round = .ok cs') :
    ∃ new, Proposed cs.view new ∧ cs' = { cs with out := new ++ cs.out } := by
  unfold decideProposal at h
  split at h
  · exact proposeBlock_eq h
  · obtain ⟨block, -, h⟩ := Steps.bind_eq_ok.1 h
    split at h
    · cases h
      exact ⟨[], .nothing, rfl⟩
    · exact proposeBlock_eq h

/-- **A validator proposes at most once when it enters the step `Propose`.** -/
theorem decideIfProposer_eq (h : cs.decideIfProposer env now cs.height cs.round = .ok cs') :
    ∃ new p f i, Proposed cs.view new ∧
      cs' = { cs with
        proposer := p, isProposerFlag := f, vrfValIndex := i, out := new ++ cs.out } := by
  unfold decideIfProposer at h
  split at h
  · cases h
    exact ⟨[], _, _, _, .nothing, rfl⟩
  obtain ⟨⟨cs₁, b⟩, hb, h⟩ := Steps.bind_eq_ok.1 h
  obtain ⟨p, f, i, rfl⟩ := isProposer_eq hb
  simp only at h
  split at h
  · cases h
    exact ⟨[], p, f, i, .nothing, rfl⟩
  · obtain ⟨new, hnew, rfl⟩ := @decideProposal_eq env now { cs with
      proposer := p, isProposerFlag := f, vrfValIndex := i } _ h
    cases hnew with
    | nothing => exact ⟨[], p, f, i, .nothing, rfl⟩
    | signed proposal sent hsent hheight hround =>
      exact ⟨_, p, f, i, .signed proposal sent hsent hheight hround, rfl⟩

/-- The reports to the main chain touch no part of the protocol state. -/
theorem reportToMainChain_eq (h : cs.reportToMainChain env now = .ok cs') :
    ∃ new p f i extra, (∀ x ∈ new, x.benign = true) ∧
      cs' = { cs with
        proposer := p, isProposerFlag := f, vrfValIndex := i, ntcExtra := extra,
        out := new ++ cs.out } := by
  unfold reportToMainChain at h
  split at h
  · cases h
    exact ⟨[], _, _, _, _, by simp, rfl⟩
  obtain ⟨⟨cs₁, b⟩, hb, h⟩ := Steps.bind_eq_ok.1 h
  obtain ⟨p, f, i, rfl⟩ := isProposer_eq hb
  simp only at h
  split at h
  · cases h
    exact ⟨[], p, f, i, cs.ntcExtra, by simp, rfl⟩
  cases h
  split_ifs
  · exact ⟨[_, _], p, f, i, _, by simp [Effect.benign], rfl⟩
  · exact ⟨[_], p, f, i, _, by simp [Effect.benign], rfl⟩
  · exact ⟨[_], p, f, i, _, by simp [Effect.benign], rfl⟩
  · exact ⟨[], p, f, i, cs.ntcExtra, by simp, rfl⟩

/-- **`enterPropose` in the current round.** -/
theorem enterPropose_moves (h : cs.enterPropose env now cs.height cs.round = .ok cs') :
    Moves env.libs e cs.view cs'.view := by
  unfold enterPropose at h
  split at h
  · cases h
    exact .refl
  next hguard =>
  have hstep : cs.step.val < RoundStepType.propose.val := by
    by_contra hle
    exact hguard (Or.inr (Or.inr ⟨rfl, not_lt.1 hle⟩))
  obtain ⟨cs₁, hreport, h⟩ := Steps.bind_eq_ok.1 h
  obtain ⟨reports, p, f, i, extra, hreports, rfl⟩ := reportToMainChain_eq hreport
  obtain ⟨cs₂, hdecide, h⟩ := Steps.bind_eq_ok.1 h
  obtain ⟨new, p, f, i, hnew, rfl⟩ := decideIfProposer_eq hdecide
  refine .trans (moves_emit cs.view hreports) (.head (.schedule _ .propose)
    (.head (.propose _ new hstep hnew) ?_))
  simp only at h
  split at h
  · exact @enterPrevote_moves env now { cs with
      step := .propose
      proposer := p
      isProposerFlag := f
      vrfValIndex := i
      ntcExtra := extra
      out := new ++ .schedule ⟨cs.height, cs.round, .propose⟩ :: (reports ++ cs.out) } _ _ le_rfl h
  · cases h
    exact .refl

/-! ## Rounds -/

theorem waitOrPropose_moves (h : cs.waitOrPropose env now cs.height cs.round = .ok cs') :
    Moves env.libs e cs.view cs'.view := by
  unfold waitOrPropose at h
  obtain ⟨⟨cs₁, b⟩, hb, h⟩ := Steps.bind_eq_ok.1 h
  obtain ⟨p, f, i, rfl⟩ := isProposer_eq hb
  simp only at h
  split at h
  · cases h
    exact .single (.schedule cs.view .waitForMinerBlock)
  · exact @enterPropose_moves env now { cs with
      proposer := p, isProposerFlag := f, vrfValIndex := i } _ _ h

/-- **`enterNewRound` starts round `0` or goes to a higher round.** -/
theorem enterNewRound_moves (he : ∃ ti, e = .timeout ti) (hnonneg : 0 ≤ cs.round)
    (hint : IsInt round) (hsame : round = cs.round → round = 0)
    (hstep : cs.round < round → cs.step.val ≤ RoundStepType.precommitWait.val)
    (h : cs.enterNewRound env now cs.height round = .ok cs') : Moves env.libs e cs.view cs'.view := by
  unfold enterNewRound at h
  split at h
  · cases h
    exact .refl
  next hguard =>
  push Not at hguard
  obtain ⟨-, hle, hstart⟩ := hguard
  obtain ⟨aggrs, haggrs, h⟩ := Steps.bind_eq_ok.1 h
  obtain ⟨votes, hvotes, h⟩ := Steps.bind_eq_ok.1 h
  rcases hle.eq_or_lt with heq | hlt
  · have hzero : round = 0 := hsame heq.symm
    rw [if_pos hzero] at haggrs hvotes h
    have hmove := Move.startRound (L := env.libs) cs.view aggrs votes he (hstart heq)
      ⟨_, haggrs⟩ ⟨_, hvotes⟩
    refine .head hmove ?_
    rw [← heq] at h
    exact @waitOrPropose_moves env now { cs with
      step := .newRound
      voteSignAggr := aggrs
      votes := votes
      pastRoundStates := cs.pastRoundStates.insert cs.round roundNotProposed } _ _ h
  · have hzero : round ≠ 0 := (hnonneg.trans_lt hlt).ne'
    rw [if_neg hzero] at haggrs hvotes h
    have hmove := Move.enterRound (L := env.libs) cs.view round aggrs votes he hlt hint (hstep hlt)
      ⟨_, haggrs⟩ ⟨_, hvotes⟩
    refine .head hmove ?_
    exact @waitOrPropose_moves env now { (cs.updateRoundStep round .newRound).clearRound with
      voteSignAggr := aggrs
      votes := votes
      pastRoundStates := cs.pastRoundStates.insert round roundNotProposed } _ _ h

/-- **A timeout that is not of a later round** only acts if it is of the current one. -/
theorem handleTimeout_moves {ti : TimeoutInfo} (hnonneg : 0 ≤ cs.round)
    (hround : ti.round ≤ cs.round) (h : cs.handleTimeout env now ti = .ok cs') :
    Moves env.libs (.timeout ti) cs.view cs'.view := by
  unfold handleTimeout at h
  split at h
  · cases h
    exact .refl
  next hguard =>
  push Not at hguard
  obtain ⟨hheight, hle, hstep⟩ := hguard
  have heq : ti.round = cs.round := le_antisymm hround hle
  rw [hheight, heq] at h
  have he : ∃ t, Event.timeout ti = .timeout t := ⟨ti, rfl⟩
  split at h
  · exact enterNewRound_moves he hnonneg (by decide) (fun _ => rfl)
      (fun hlt => absurd hlt (not_lt.2 hnonneg)) h
  · exact enterPropose_moves h
  · next hti =>
    have hle := hstep heq
    rw [hti] at hle
    exact enterPrevote_moves hle h
  · exact enterPrecommit_moves h
  · next hti =>
    have hle := hstep heq
    rw [hti] at hle
    exact enterNewRound_moves he hnonneg (isInt_wrapInt _)
      (fun hwrap => absurd hwrap (wrapInt_succ_ne cs.round)) (fun _ => hle) h
  · simp at h

/-! ## Messages -/

theorem acceptProposal_eq {proposal : Proposal} (h : cs.acceptProposal proposal = .ok cs') :
    ∃ parts past, cs' = { cs with
      proposal := some proposal
      proposalBlockParts := some parts
      proposerPeerKey := proposal.proposerPeerKey
      pastRoundStates := past } := by
  unfold acceptProposal at h
  obtain ⟨parts, -, h⟩ := Steps.bind_eq_ok.1 h
  exact ⟨parts, _, (Except.ok.inj h).symm⟩

/-- `enterLowerRound` goes back to the round, forgets the aggregates, and goes on from there. -/
theorem enterLowerRound_moves (h : cs.enterLowerRound env now cs.height round = .ok cs') :
    ∃ v : View, v.round = round ∧ v.prevoteMaj23SignAggr = none ∧
      v.precommitMaj23SignAggr = none ∧ Moves env.libs e v cs'.view := by
  unfold enterLowerRound at h
  obtain ⟨aggrs, -, h⟩ := Steps.bind_eq_ok.1 h
  obtain ⟨votes, -, h⟩ := Steps.bind_eq_ok.1 h
  exact ⟨_, rfl, rfl, rfl, @waitOrPropose_moves env now { cs with
    pastRoundStates := (countUp (round + 1) cs.round).foldl (fun m r => m.erase r)
      cs.pastRoundStates
    round := round
    step := .newRound
    proposal := none
    proposalBlock := none
    proposalBlockParts := none
    proposerPeerKey := ""
    prevoteMaj23SignAggr := none
    precommitMaj23SignAggr := none
    voteSignAggr := aggrs
    votes := votes } _ _ h⟩

/-- **What a proposal does**: nothing, or it is accepted in the current round, or the validator
goes back to its round and accepts it there. -/
theorem setProposal_cases {proposal : Option Proposal} {err : Option ProposalError}
    (h : cs.setProposal env now proposal = .ok (cs', err)) :
    cs'.view = cs.view ∨
    (∃ x parts, err = none ∧ cs.proposal = none ∧ cs'.view =
      { cs.view with proposal := some x, proposalBlockParts := some parts }) ∨
    ∃ x i cs₂, err = none ∧ cs.proposal = none ∧ proposal = some x ∧ x.round < cs.round ∧
      enterLowerRound env now { cs with vrfValIndex := i } cs.height x.round = .ok cs₂ ∧
      cs₂.acceptProposal x = .ok cs' := by
  unfold setProposal at h
  split at h
  · cases h
    exact .inl rfl
  next hnone =>
  split at h
  · simp at h
  next p =>
  split at h
  · cases h
    exact .inl rfl
  next hthis =>
  split at h
  · cases h
    exact .inl rfl
  split at h
  · cases h
    exact .inl rfl
  split at h
  · obtain ⟨⟨cs₁, proposer⟩, hproposer, h⟩ := Steps.bind_eq_ok.1 h
    obtain ⟨q, f, i, rfl⟩ := getProposer_eq hproposer
    simp only at h
    split at h
    · cases h
      exact .inl rfl
    · obtain ⟨cs₂, haccept, h⟩ := Steps.bind_eq_ok.1 h
      obtain ⟨rfl, herr⟩ := Prod.mk.inj (Except.ok.inj h)
      obtain ⟨parts, past, rfl⟩ := acceptProposal_eq haccept
      exact .inr (.inl ⟨p, parts, herr.symm, Option.not_isSome_iff_eq_none.1 hnone, rfl⟩)
  next hother =>
  have hlower : p.round < cs.round :=
    lt_of_le_of_ne (not_lt.1 (not_or.1 hthis).2) hother
  obtain ⟨⟨cs₁, proposer⟩, hproposer, h⟩ := Steps.bind_eq_ok.1 h
  obtain ⟨i, rfl⟩ := proposerByRound_eq hproposer
  simp only at h
  split at h
  · cases h
    exact .inl rfl
  split at h
  · cases h
    exact .inl rfl
  · obtain ⟨cs₂, henter, h⟩ := Steps.bind_eq_ok.1 h
    obtain ⟨cs₃, haccept, h⟩ := Steps.bind_eq_ok.1 h
    obtain ⟨rfl, herr⟩ := Prod.mk.inj (Except.ok.inj h)
    exact .inr (.inr ⟨p, i, cs₂, herr.symm, Option.not_isSome_iff_eq_none.1 hnone, rfl, hlower,
      henter, haccept⟩)

/-- **A proposal that does not take the validator back** is accepted in the current round. -/
theorem setProposal_moves {proposal : Option Proposal} {err : Option ProposalError}
    (he : ∀ ti, e ≠ .timeout ti) (hround : cs.round ≤ cs'.round)
    (h : cs.setProposal env now proposal = .ok (cs', err)) : Moves env.libs e cs.view cs'.view := by
  rcases setProposal_cases h with hsame | ⟨x, parts, -, hnone, haccept⟩ |
    ⟨x, i, cs₂, -, -, -, hlower, henter, haccept⟩
  · exact hsame ▸ .refl
  · rw [haccept]
    exact .single (.acceptProposal cs.view x parts hnone)
  · -- the round of the new state is that of the proposal
    obtain ⟨parts, past, rfl⟩ := acceptProposal_eq haccept
    obtain ⟨v, hv, -, -, hmoves⟩ := @enterLowerRound_moves env now
      { cs with vrfValIndex := i } _ e _ henter
    have hback : cs₂.round = x.round := (hmoves.round_eq he).trans hv
    exact absurd hround (not_le.2 (by rw [← hback] at hlower; exact hlower))

/-- **A block part.** -/
theorem addProposalBlockPart_moves {height : ℕ} {part : Option Part} {verify : Bool}
    {r : Bool × Option BlockPartError} (he : ¬ e.IsPrevoteAggr)
    (h : cs.addProposalBlockPart env now height round part verify = .ok (cs', r)) :
    Moves env.libs e cs.view cs'.view := by
  unfold addProposalBlockPart at h
  split at h
  · cases h
    exact .refl
  next hsame =>
  obtain ⟨hheight, -⟩ := not_or.1 hsame
  rw [not_not] at hheight
  subst hheight
  split at h
  · cases h
    exact .refl
  · simp at h
  next parts part hparts =>
  obtain ⟨⟨parts', added, err⟩, hadd, hrest⟩ := Steps.bind_eq_ok.1 h
  clear h
  rcases PartSet.addPart_eq_ok hadd with ⟨rfl, rfl⟩ | ⟨rfl, rfl, hcount, htotal, -⟩
  · have hself : ({ cs with proposalBlockParts := some parts' } : ConsensusState) = cs := by
      rw [← hparts]
    simp only [hself, Bool.false_and] at hrest
    split at hrest
    · cases hrest
      exact .refl
    · cases hrest
      exact .refl
  simp only [Bool.true_and] at hrest
  split at hrest
  next hfull =>
    have hfull : parts'.count = parts'.total := by simpa [PartSet.isComplete] using hfull
    obtain ⟨cs₁, hblock, hrest⟩ := Steps.bind_eq_ok.1 hrest
    cases hrest
    have hcomplete := Move.completeBlock (L := env.libs) (e := e) cs.view parts parts'
      (env.fromBytes parts'.bytes) hparts hfull
    unfold onBlock at hblock
    split at hblock
    · next hready =>
      obtain ⟨-, hstep, hcomplete⟩ := hready
      obtain ⟨blockID, new, p, f, i, hvoted, hlock, rfl⟩ :=
        @enterPrevote_complete env now { cs with
          proposalBlockParts := some parts', proposalBlock := env.fromBytes parts'.bytes } _
          hstep hcomplete hblock
      simp only [isProposalComplete, Bool.and_eq_true] at hcomplete
      obtain ⟨block, hfrom⟩ := Option.isSome_iff_exists.1 hcomplete.2
      simp only [hfrom] at hvoted hlock ⊢
      exact .single (.completeAndPrevote cs.view parts parts' block blockID new _ hparts hcount
        htotal hfull hcomplete.1 hstep (hvoted.of_same rfl rfl rfl rfl) hlock
        (by split_ifs <;> simp [view]))
    split at hblock
    · next hcommit =>
      exact .head hcomplete (@tryFinalizeCommit_moves env { cs with
        proposalBlockParts := some parts', proposalBlock := env.fromBytes parts'.bytes } _ _
        he hcommit hblock)
    · cases hblock
      exact .single hcomplete
  next hopen =>
    cases hrest
    exact .single (.addPart cs.view parts parts' hparts hcount htotal
      (by simpa [PartSet.isComplete] using hopen))

/-- A prevote aggregate of the current round is recorded; it can release the lock. -/
theorem recordPrevoteMaj23_moves {s : SignAggr} (he : e = .msg (.maj23SignAggr (some s)) peerKey)
    (hverified : Verified env.libs cs.height cs.validators s) (hround : s.round = cs.round)
    (htype : s.type_ = voteTypePrevote) (h : cs.recordPrevoteMaj23 env s = .ok cs') :
    Moves env.libs e cs.view cs'.view := by
  have hrecord := Move.recordPrevotes (L := env.libs) cs.view s peerKey he hverified hround htype
  unfold recordPrevoteMaj23 at h
  simp only at h
  split at h
  · next hlocked =>
    obtain ⟨same, hsame, h⟩ := Steps.bind_eq_ok.1 h
    cases h
    split_ifs with htrue
    · exact .single hrecord
    · obtain rfl : same = false := by simpa using htrue
      exact .single (.unlockByPrevotes cs.view s peerKey he hverified hround htype hlocked.2 hsame)
  · cases h
    exact .single hrecord

/-- **An aggregate**: it is stored, recorded if it is of the current round, and acted on. -/
theorem setMaj23SignAggr_moves {s : SignAggr} {r : Option SignAggrError × Bool}
    (he : e = .msg (.maj23SignAggr (some s)) peerKey)
    (h : cs.setMaj23SignAggr env now s = .ok (cs', r)) : Moves env.libs e cs.view cs'.view := by
  unfold setMaj23SignAggr at h
  split at h
  · cases h
    exact .refl
  next hheight =>
  split at h
  · cases h
    exact .refl
  next hverify =>
  split at h
  · cases h
    exact .refl
  next htype =>
  have hverified : Verified env.libs cs.height cs.validators s :=
    ⟨not_not.1 hheight, not_not.1 hverify, by simpa using htype⟩
  refine .head (.storeAggr cs.view s peerKey he hverified) ?_
  simp only at h
  split at h
  · cases h
    exact .refl
  next hround =>
  rw [not_not] at hround
  split at h
  · next hprevote =>
    split at h
    · cases h
      exact .refl
    obtain ⟨cs₂, hrecord, h⟩ := Steps.bind_eq_ok.1 h
    have hrecorded := @recordPrevoteMaj23_moves env { cs with
      voteSignAggr := cs.voteSignAggr.addSignAggr s } _ _ _ _ he hverified hround hprevote hrecord
    split at h
    · obtain ⟨cs₃, hprecommit, h⟩ := Steps.bind_eq_ok.1 h
      cases h
      exact hrecorded.trans (enterPrecommit_moves hprecommit)
    · cases h
      exact hrecorded
  next hprevote =>
  have hprecommit : s.type_ = voteTypePrecommit := by
    simpa [isVoteTypeValid, hprevote] using hverified.type_
  have hnotPrevote : ¬ e.IsPrevoteAggr := by
    rintro ⟨s', peerKey', he', htype'⟩
    cases he.symm.trans he'
    exact hprevote htype'
  split at h
  · cases h
    exact .refl
  refine .head (.recordPrecommits _ s peerKey he hverified hround hprecommit) ?_
  split at h
  · obtain ⟨cs₃, hcommit, h⟩ := Steps.bind_eq_ok.1 h
    cases h
    exact @enterCommit_moves env { cs with
      voteSignAggr := cs.voteSignAggr.addSignAggr s, precommitMaj23SignAggr := some s } _ _ _
      hnotPrevote hcommit
  · cases h
    exact .refl

/-- `sendMaj23SignAggr` makes the aggregate of the votes of the current round. -/
theorem sendMaj23SignAggr_moves (voteType : ℕ) :
    Moves env.libs e cs.view (cs.sendMaj23SignAggr env voteType).view := by
  unfold sendMaj23SignAggr
  simp only
  split
  next voteSet maj23 hset hmaj =>
    split
    · exact .refl
    next signature hsig =>
    split
    · exact .refl
    · refine .single (.sendAggr cs.view _ ⟨rfl, rfl, rfl, rfl, voteSet, ?_, rfl⟩)
      split_ifs at hset with hprevote hprecommit
      · exact .inl ⟨hprevote, hset⟩
      · exact .inr ⟨hprecommit, hset⟩
  · exact .refl

/-- **A vote** is counted by the proposer, which sends the aggregate at the first majority. -/
theorem addVote_moves {vote : Option Vote} {r : Bool × Option HeightVoteSet.AddVoteError}
    (he : e = .msg (.vote vote) peerKey) (h : cs.addVote env now vote peerKey = .ok (cs', r)) :
    Moves env.libs e cs.view cs'.view := by
  unfold addVote at h
  obtain ⟨⟨cs₁, b⟩, hb, h⟩ := Steps.bind_eq_ok.1 h
  obtain ⟨p, f, i, rfl⟩ := isProposer_eq hb
  simp only at h
  split at h
  · cases h
    exact .refl
  cases vote with
  | none => simp at h
  | some vote =>
  simp only at h
  split at h
  · cases h
    exact .refl
  generalize hasTwoThirdsMajority _ = majority at h
  cases majority with
  | true =>
    cases h
    exact .refl
  | false =>
  obtain ⟨⟨votes, added, err⟩, hadd, h⟩ := Steps.bind_eq_ok.1 h
  have hcount := Move.countVote cs.view vote peerKey votes added err he hadd
  cases h
  refine .head hcount ?_
  generalize (added && _) = aggregates
  cases aggregates with
  | true =>
    exact @sendMaj23SignAggr_moves env { cs with
      proposer := p, isProposerFlag := f, vrfValIndex := i, votes := votes } _ vote.type_
  | false => exact .refl

/-! ## One input -/

theorem handleMsg_moves {msg : Message} (hround : ∀ x, msg = .proposal x → cs.round ≤ cs'.round)
    (h : cs.handleMsg env now msg peerKey = .ok cs') :
    Moves env.libs (.msg msg peerKey) cs.view cs'.view := by
  unfold handleMsg at h
  split at h
  · obtain ⟨⟨cs₁, err⟩, hset, rfl⟩ := Steps.map_eq_ok.1 h
    exact setProposal_moves (by simp) (hround _ rfl) hset
  · obtain ⟨⟨cs₁, r⟩, hadd, rfl⟩ := Steps.map_eq_ok.1 h
    exact addProposalBlockPart_moves (by rintro ⟨s, k, he, -⟩; cases he) hadd
  · cases h
    exact .refl
  · split at h
    · obtain ⟨⟨cs₁, r⟩, hset, rfl⟩ := Steps.map_eq_ok.1 h
      exact setMaj23SignAggr_moves rfl hset
    · cases h
      exact .refl
  · obtain ⟨⟨cs₁, r⟩, hadd, rfl⟩ := Steps.map_eq_ok.1 h
    exact addVote_moves rfl hadd

theorem gossip_moves {kind : GossipKind} {msg : Message} (h : cs.gossipMessage kind = some msg) :
    Moves env.libs e cs.view (cs.emit (.gossip msg)).view := by
  cases kind with
  | proposal =>
    simp only [gossipMessage, Option.ite_none_right_eq_some, Option.some.injEq] at h
    rw [← h.2]
    exact .single (.emit cs.view _ rfl)
  | blockPart index =>
    simp only [gossipMessage, Option.ite_none_right_eq_some, Option.map_eq_some_iff] at h
    obtain ⟨-, part, -, rfl⟩ := h
    exact .single (.emit cs.view _ rfl)
  | prevotes round =>
    obtain ⟨s, hs, rfl⟩ := Option.map_eq_some_iff.1 h
    exact .single (.gossipAggr cs.view round s (.inl hs))
  | precommits round =>
    obtain ⟨s, hs, rfl⟩ := Option.map_eq_some_iff.1 h
    exact .single (.gossipAggr cs.view round s (.inr hs))

/-- **Every input is a sequence of moves**, if no proposal takes the validator back to a lower
round and no timeout is of a later one. -/
theorem handle_moves {input : ℤ × Event} (hnonneg : 0 ≤ cs.round)
    (htimeout : ∀ ti, input.2 = .timeout ti → ti.round ≤ cs.round)
    (hround : ∀ x key, input.2 = .msg (.proposal x) key → cs.round ≤ cs'.round)
    (h : cs.handle env input = .ok cs') : Moves env.libs input.2 cs.view cs'.view := by
  obtain ⟨now, event⟩ := input
  cases event with
  | msg msg peerKey => exact handleMsg_moves (fun x hx => hround x peerKey (by rw [hx])) h
  | timeout ti => exact handleTimeout_moves hnonneg (htimeout ti rfl) h
  | miner block =>
    cases h
    unfold setBlockFromMiner
    split_ifs
    · exact .refl
    · exact .refl
  | gossip kind =>
    unfold handle at h
    simp only at h
    split at h
    · cases h
      exact .refl
    · next msg hmsg =>
      cases h
      exact gossip_moves hmsg

end ConsensusState

end Consensus

end LigoChain

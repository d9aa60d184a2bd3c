/-
# Proposals that make a validator panic

`defaultSetProposal` (`consensus/state.go`) looks up the proposer of the proposal's round
before it checks the signature, goes back to that round, and allocates the part set of the
proposal's header.  The round and the header are the sender's.  `proposerByRound` panics
on the negative index that a negative round gives, `ResetTop2Round` on a negative round,
and `NewPartSetFromHeader` on a header with too many parts.

`proposal_returns_iff` says that there is nothing else: in every state that is reached
after the first round was entered, a proposal of a round that is not negative, with a
header that can be allocated, is handled without a panic.  A proposal that is refused or
ignored leaves the round, the step, the lock and the vote sets as they are
(`setProposal_unchanged`).

`Able` is what a validator needs in order to vote and to propose; the other handlers keep
it.
-/

import LigoChain.Consensus.VoteSafety

namespace LigoChain

open GoInt Steps

theorem NCBlock.hash_returns {L : Libs} {b : NCBlock} (h : b.ntcExtra.isSome = true) :
    ∃ bytes, NCBlock.hash L (some b) = .ok bytes := by
  obtain ⟨extra, hextra⟩ := Option.isSome_iff_exists.1 h
  simp only [NCBlock.hash, hextra]
  exact ⟨_, rfl⟩

theorem newPartSetFromHeader_returns_iff {header : PartSetHeader} :
    (∃ parts, newPartSetFromHeader header = .ok parts) ↔ header.total ≤ maxSliceLen := by
  unfold newPartSetFromHeader
  split
  next h => simpa using h
  next h => simpa using h

namespace Consensus
namespace ConsensusState

variable {env : Env} {now : ℤ} {cs cs' cs₀ : ConsensusState}

/-- What a validator needs in order to vote and to propose: it knows the proposer, and the block
of its lock can be hashed. -/
structure Able (cs : ConsensusState) : Prop where
  drawn : cs.Drawn
  named : cs.proposer.isSome = true
  nonneg : 0 ≤ cs.round
  max : cs.round + cs.validators.size ≤ maxInt
  lock : cs.LockHashes

theorem Able.of_frame {C : NCBlock → Prop} (h : Able cs)
    (hf : Frame (fun r => r = cs.round) C cs cs') : Able cs' where
  drawn := hf.drawn h.drawn
  named := hf.proposer h.named
  nonneg := h.nonneg.trans_eq hf.round.symm
  max := by rw [hf.validators, show cs'.round = cs.round from hf.round]; exact h.max
  lock := hf.lock h.lock

theorem Able.emit (h : Able cs) (x : Effect) : Able (cs.emit x) :=
  ⟨⟨h.drawn.1, h.drawn.2⟩, h.named, h.nonneg, h.max, h.lock⟩

theorem Able.key (h : Able cs) : cs.privValidator.isSome = true := (h.drawn.named h.named).2

/-- `IsProposer` returns, and changes nothing but the caches of the proposer. -/
theorem Able.isProposer (h : Able cs) :
    ∃ cs' b, cs.isProposer env now = .ok (cs', b) ∧ Able cs' ∧
      ∃ p f i, cs' = { cs with proposer := p, isProposerFlag := f, vrfValIndex := i } := by
  obtain ⟨⟨cs', b⟩, hb⟩ := @Drawn.isProposer_returns env now cs h.drawn h.named h.nonneg h.max
  exact ⟨cs', b, hb, h.of_frame
    ((framed_isProposer (P := fun r => r = cs.round) (C := fun _ => True) rfl).of_eq_ok hb),
    isProposer_eq hb⟩

/-! ## Proposing -/

/-- The node can make proposals at a height: it has an id, and at the end of the epoch there is a
next one. -/
def CanPropose (env : Env) (height : ℕ) : Prop :=
  env.nodeID ≠ "" ∧ (height = env.epochEndBlock → ∀ now, (env.nextEpochBytes now).isSome = true)

theorem Able.proposeBlock (h : Able cs) (hnode : env.nodeID ≠ "") {height : ℕ} {round : ℤ}
    {block : NCBlock} {parts : Option PartSet} (hblock : block.ntcExtra.isSome = true) :
    ∃ cs', cs.proposeBlock env height round block parts = .ok cs' := by
  obtain ⟨hash, hhash⟩ := NCBlock.hash_returns (L := env.libs) hblock
  obtain ⟨pv, hpv⟩ := Option.isSome_iff_exists.1 h.key
  unfold ConsensusState.proposeBlock
  dsimp only
  rw [hhash, hpv]
  simp only [bind, Except.bind]
  rw [if_neg hnode]
  exact ⟨_, rfl⟩

theorem createProposalBlock_returns (hcan : CanPropose env cs.height) :
    ∃ r, cs.createProposalBlock env now = .ok r ∧
      ∀ block parts, r = some (block, parts) → block.ntcExtra.isSome = true := by
  have hbytes : ∃ bytes, cs.proposalEpochBytes env now = .ok bytes := by
    unfold proposalEpochBytes
    split
    next hend =>
      obtain ⟨bytes, hnext⟩ := Option.isSome_iff_exists.1 (hcan.2 hend now)
      rw [hnext]
      exact ⟨_, rfl⟩
    split
    · exact ⟨_, rfl⟩
    split
    · exact ⟨_, rfl⟩
    · exact ⟨_, rfl⟩
  obtain ⟨bytes, hbytes⟩ := hbytes
  unfold createProposalBlock
  split
  · exact ⟨_, rfl, fun _ _ h => by cases h⟩
  split
  · exact ⟨_, rfl, fun _ _ h => by cases h⟩
  · rw [hbytes]
    refine ⟨_, rfl, fun block parts heq => ?_⟩
    obtain ⟨rfl, -⟩ := Prod.mk.inj (Option.some.inj heq)
    rfl

theorem Able.decideProposal (h : Able cs) (hcan : CanPropose env cs.height) {height : ℕ}
    {round : ℤ} : ∃ cs', cs.decideProposal env now height round = .ok cs' := by
  unfold ConsensusState.decideProposal
  split
  next block hblock => exact h.proposeBlock hcan.1 (h.lock block hblock)
  · obtain ⟨r, hr, hextra⟩ := @createProposalBlock_returns env now cs hcan
    rw [hr]
    cases r with
    | none => exact ⟨_, rfl⟩
    | some r => exact h.proposeBlock hcan.1 (hextra r.1 r.2 rfl)

theorem Able.decideIfProposer (h : Able cs) (hcan : CanPropose env cs.height) {height : ℕ}
    {round : ℤ} : ∃ cs', cs.decideIfProposer env now height round = .ok cs' := by
  unfold ConsensusState.decideIfProposer
  split
  · exact ⟨_, rfl⟩
  obtain ⟨cs₁, b, hb, hcs₁, p, f, i, rfl⟩ := @Able.isProposer env now cs h
  rw [hb]
  cases b with
  | false => exact ⟨_, rfl⟩
  | true => exact hcs₁.decideProposal hcan

theorem Able.reportToMainChain (h : Able cs) :
    ∃ cs', cs.reportToMainChain env now = .ok cs' ∧ Able cs' := by
  suffices hreturns : ∃ cs', cs.reportToMainChain env now = .ok cs' by
    obtain ⟨cs', hcs'⟩ := hreturns
    exact ⟨cs', hcs', h.of_frame ((framed_reportToMainChain (P := fun r => r = cs.round)
      (C := fun _ => True) rfl).of_eq_ok hcs')⟩
  unfold ConsensusState.reportToMainChain
  split
  · exact ⟨_, rfl⟩
  obtain ⟨cs₁, b, hb, -⟩ := @Able.isProposer env now cs h
  rw [hb]
  cases b with
  | false => exact ⟨_, rfl⟩
  | true => exact ⟨_, rfl⟩

/-- **Entering a round does not panic**: a validator without a proposal waits, or proposes, and
does not vote yet. -/
theorem Able.waitOrPropose (h : Able cs) (hcan : CanPropose env cs.height)
    (hnone : cs.proposal = none) :
    ∃ cs', cs.waitOrPropose env now cs.height cs.round = .ok cs' := by
  unfold ConsensusState.waitOrPropose
  obtain ⟨cs₁, b, hb, hcs₁, p, f, i, rfl⟩ := @Able.isProposer env now cs h
  rw [hb]
  simp only [bind, Except.bind]
  split
  · exact ⟨_, rfl⟩
  unfold ConsensusState.enterPropose
  split
  · exact ⟨_, rfl⟩
  obtain ⟨cs₂, hreport, hcs₂⟩ := @Able.reportToMainChain env now _ hcs₁
  obtain ⟨new, p, f, i, extra, -, rfl⟩ := reportToMainChain_eq hreport
  have hcs₃ := hcs₂.emit (.schedule ⟨cs.height, cs.round, .propose⟩)
  obtain ⟨cs₄, hdecide⟩ := @Able.decideIfProposer env now _ hcs₃ hcan cs.height cs.round
  have hnone₄ : cs₄.proposal = none := by
    obtain ⟨new', p, f, i, -, rfl⟩ := decideIfProposer_eq hdecide
    exact hnone
  have hopen : (cs₄.updateRoundStep cs.round .propose).isProposalComplete ≠ true := by
    simp [isProposalComplete, updateRoundStep, hnone₄]
  exact ⟨_, Steps.bind_eq_ok.2 ⟨_, hreport, Steps.bind_eq_ok.2 ⟨cs₄, hdecide, if_neg hopen⟩⟩⟩

/-! ## After the first round was entered -/

/-- **One input** leaves a named proposer named, and names one before it takes a proposal. -/
theorem handle_names {input : ℤ × Event} (hstep : cs.handle env input = .ok cs') :
    (cs.proposer.isSome = true → cs'.proposer.isSome = true) ∧
      (cs'.proposal.isSome = true → cs.proposal.isSome = true ∨ cs'.proposer.isSome = true) := by
  have hover : ∀ cs₁, HandsOver env (fun _ => True) cs₁ := fun _ _ _ _ _ _ _ _ _ _ => trivial
  have hmeets : Meets (fun _ => True)
      (Follows (fun cs₁ => (cs.proposer.isSome = true → cs₁.proposer.isSome = true) ∧
        (cs₁.proposal.isSome = true → cs.proposal.isSome = true)) (fun _ _ => True)
        (fun _ => True) cs) (cs.handle env input) := by
    refine handle_follows (P := fun _ _ => True) (fun _ _ => trivial) (fun _ => trivial)
      (hover cs) (fun cs₁ _ => hover cs₁) (fun _ _ _ => trivial) ?_ ?_ ?_ ?_
    · intro ti round _ _ _ _
      cases hopen : cs.openRound round with
      | error p => trivial
      | ok cs₁ =>
        unfold openRound at hopen
        obtain ⟨aggrs, -, hopen⟩ := Steps.bind_eq_ok.1 hopen
        obtain ⟨votes, -, hopen⟩ := Steps.bind_eq_ok.1 hopen
        cases hopen
        split
        · exact ⟨⟨id, id⟩, rfl⟩
        · exact ⟨⟨id, fun hsome => by cases hsome⟩, rfl⟩
    · intro x key i _ _ _
      cases hlow : lowerRound { cs with vrfValIndex := i } x.round with
      | error p => trivial
      | ok cs₁ =>
        unfold lowerRound at hlow
        obtain ⟨aggrs, -, hlow⟩ := Steps.bind_eq_ok.1 hlow
        obtain ⟨votes, -, hlow⟩ := Steps.bind_eq_ok.1 hlow
        cases hlow
        exact ⟨⟨id, fun hsome => by cases hsome⟩, rfl⟩
    · intro s key _ _
      exact ⟨id, id⟩
    · intro x key p f i _ _ _ hp
      cases hadd : cs.votes.addVote env.libs x key with
      | error p => trivial
      | ok r => exact ⟨hp, id⟩
  obtain ⟨cs₁, rfl | ⟨hnamed, hproposal⟩, hf⟩ := hmeets.of_eq_ok hstep
  · exact ⟨hf.proposer, hf.proposal⟩
  · exact ⟨fun h => hf.proposer (hnamed h), fun h => (hf.proposal h).imp_left hproposal⟩

/-- The books of the rounds, the vote sets and the caches of the proposer are in order, and a
proposer has been named. -/
structure Seated (env : Env) (cs : ConsensusState) : Prop where
  booked : Booked cs
  prepared : Prepared env cs
  named : cs.proposer.isSome = true

theorem Seated.run (h : Seated env cs) {inputs : List (ℤ × Event)}
    (hmeets : RunMeets env Timely cs inputs) (hrun : run env cs inputs = .ok cs') :
    Seated env cs' :=
  hmeets.invariant (fun _ _ _ htimely hstep h =>
    ⟨((h.booked.handle htimely).of_eq_ok hstep).1,
      h.prepared.handle (fun _ _ hx => .inr (htimely.proposal hx)) hstep,
      (handle_names hstep).1 h.named⟩) hrun h

/-- **`enterNewRound(height, 0)`** seats the validator. -/
theorem seated_of_enterNewRound (hstart : Started env cs₀)
    (hsize : (cs₀.validators.size : ℤ) ≤ maxInt) {before : List (ℤ × Event)}
    {cs₁ : ConsensusState} (hbefore : RunMeets env Timely cs₀ before)
    (hrun : ConsensusState.run env cs₀ before = .ok cs₁) (hstep : cs₁.step = .newHeight)
    (henter : cs₁.enterNewRound env now cs₁.height 0 = .ok cs) : Seated env cs := by
  obtain ⟨hbooked₁, -⟩ := hstart.booked.run hbefore hrun
  have hprepared₁ : Prepared env cs₁ :=
    hbefore.invariant (fun _ _ _ htimely hstep h =>
      h.handle (fun _ _ hx => .inr (htimely.proposal hx)) hstep) hrun (hstart.prepared hsize)
  obtain ⟨-, hzero⟩ := hbooked₁.inStep.resolve_right fun hr => hr.2 hstep
  -- entering the round is what the timeout of the new height does
  have hhandle : cs₁.handle env (now, .timeout ⟨cs₁.height, 0, .newHeight⟩) = .ok cs := by
    show cs₁.handleTimeout env now _ = _
    unfold handleTimeout
    rw [if_neg (by simp [hzero, hstep])]
    exact henter
  refine ⟨(hbooked₁.enterNewRound_zero hstep henter).1,
    hprepared₁.handle (fun _ _ hx => by cases hx) hhandle, ?_⟩
  rw [enterNewRound_eq, if_neg (by simp [hzero, hstep])] at henter
  obtain ⟨cs₂, -, hwait⟩ := Steps.bind_eq_ok.1 henter
  exact waitOrPropose_named hwait

/-! ## A proposal -/

/-- The checks of `defaultSetProposal` before it asks for the proposer: there is no proposal yet,
and this one is of a round up to the current one, with a lower `POLRound` if any. -/
def Considers (cs : ConsensusState) (x : Proposal) : Prop :=
  cs.proposal = none ∧ x.height = cs.height ∧ x.round ≤ cs.round ∧
    cs.step.val < RoundStepType.commit.val ∧
    (x.polRound = -1 ∨ 0 ≤ x.polRound ∧ x.polRound < x.round)

/-- The validator under whose key the signature has to verify. -/
def proposerOf (env : Env) (now : ℤ) (cs : ConsensusState) (round : ℤ) :
    Go (ConsensusState × Validator) :=
  if round = cs.round then cs.getProposer env now
  else do
    let (cs, p) ← cs.proposerByRound env now round
    .ok (cs, p.proposer)

/-- A signed proposal is taken over: it is of the current round, or the validator goes back. -/
def Takes (cs : ConsensusState) (x : Proposal) : Prop :=
  x.round = cs.round ∨ cs.lowerRoundOpen x.round = true

theorem acceptProposal_returns_iff {x : Proposal} :
    (∃ cs', cs.acceptProposal x = .ok cs') ↔ x.blockPartsHeader.total ≤ maxSliceLen := by
  rw [← newPartSetFromHeader_returns_iff]
  constructor
  · rintro ⟨cs', h⟩
    obtain ⟨parts, hparts, -⟩ := Steps.bind_eq_ok.1 h
    exact ⟨parts, hparts⟩
  · rintro ⟨parts, hparts⟩
    exact ⟨_, Steps.bind_eq_ok.2 ⟨parts, hparts, rfl⟩⟩

/-- A proposal that is not considered is ignored or refused. -/
theorem setProposal_of_not_considers {x : Proposal} (h : ¬ cs.Considers x) :
    ∃ r, cs.setProposal env now (some x) = .ok r := by
  unfold setProposal
  by_cases hnone : cs.proposal.isSome = true
  · exact ⟨_, if_pos hnone⟩
  rw [if_neg hnone]
  dsimp only
  by_cases hround : x.height ≠ cs.height ∨ x.round > cs.round
  · exact ⟨_, if_pos hround⟩
  rw [if_neg hround]
  by_cases hstep : RoundStepType.commit.val ≤ cs.step.val
  · exact ⟨_, if_pos hstep⟩
  rw [if_neg hstep]
  by_cases hpol : x.polRound ≠ -1 ∧ (x.polRound < 0 ∨ x.round ≤ x.polRound)
  · exact ⟨_, if_pos hpol⟩
  · obtain ⟨hheight, hle⟩ := not_or.1 hround
    exact absurd ⟨Option.not_isSome_iff_eq_none.1 hnone, not_not.1 hheight, not_lt.1 hle,
      not_le.1 hstep, by omega⟩ h

/-- **A proposal of the current round** panics only in the allocation of its parts. -/
theorem Considers.current_returns_iff {x : Proposal} (h : cs.Considers x)
    (hround : x.round = cs.round) :
    (∃ r, cs.setProposal env now (some x) = .ok r) ↔
      ∃ cs₁ val, cs.proposerOf env now x.round = .ok (cs₁, val) ∧
        (proposalVerifies env x val = true → x.blockPartsHeader.total ≤ maxSliceLen) := by
  obtain ⟨hnone, hheight, -, hstep, hpol⟩ := h
  unfold setProposal proposerOf
  rw [if_neg (by simp [hnone])]
  dsimp only
  rw [if_neg (by simp [hheight, hround]), if_neg (not_le.2 hstep), if_neg (by omega),
    if_pos hround, if_pos hround]
  cases hget : cs.getProposer env now with
  | error p => simp [bind, Except.bind]
  | ok r =>
    obtain ⟨cs₁, val⟩ := r
    rw [← @acceptProposal_returns_iff cs₁]
    cases hverify : proposalVerifies env x val with
    | false => simp [bind, Except.bind, hverify]
    | true =>
      cases haccept : cs₁.acceptProposal x with
      | error p => simp [bind, Except.bind, hverify, haccept]
      | ok cs₂ => simp [bind, Except.bind, hverify, haccept]

/-- **A proposal of a lower round** panics in the lookup of the proposer, on the way back, or in
the allocation of its parts. -/
theorem Considers.lower_returns_iff {x : Proposal} (h : cs.Considers x)
    (hround : x.round ≠ cs.round) :
    (∃ r, cs.setProposal env now (some x) = .ok r) ↔
      ∃ cs₁ val, cs.proposerOf env now x.round = .ok (cs₁, val) ∧
        (proposalVerifies env x val = true → cs₁.lowerRoundOpen x.round = true →
          (∃ cs₂, cs₁.enterLowerRound env now cs₁.height x.round = .ok cs₂) ∧
            x.blockPartsHeader.total ≤ maxSliceLen) := by
  obtain ⟨hnone, hheight, hle, hstep, hpol⟩ := h
  unfold setProposal proposerOf
  rw [if_neg (by simp [hnone])]
  dsimp only
  rw [if_neg (by simp [hheight, hle]), if_neg (not_le.2 hstep), if_neg (by omega),
    if_neg hround, if_neg hround]
  cases hget : cs.proposerByRound env now x.round with
  | error p => simp [bind, Except.bind]
  | ok r =>
    obtain ⟨cs₁, p⟩ := r
    cases hverify : proposalVerifies env x p.proposer with
    | false => simp [bind, Except.bind, hverify]
    | true =>
    cases hopen : cs₁.lowerRoundOpen x.round with
    | false => simp [bind, Except.bind, hverify, hopen]
    | true =>
    cases henter : cs₁.enterLowerRound env now cs₁.height x.round with
    | error p => simp [bind, Except.bind, hverify, hopen, henter]
    | ok cs₂ =>
      rw [← @acceptProposal_returns_iff cs₂]
      cases haccept : cs₂.acceptProposal x with
      | error p => simp [bind, Except.bind, hverify, hopen, henter, haccept]
      | ok cs₃ => simp [bind, Except.bind, hverify, hopen, henter, haccept]

theorem Able.lowerRound (h : Able cs) {round : ℤ} (hnonneg : 0 ≤ round) (hlt : round < cs.round)
    (hlow : cs.lowerRound round = .ok cs') :
    Able cs' ∧ cs'.proposal = none ∧ cs'.height = cs.height ∧ cs'.round = round := by
  unfold ConsensusState.lowerRound at hlow
  obtain ⟨aggrs, -, hlow⟩ := Steps.bind_eq_ok.1 hlow
  obtain ⟨votes, -, hlow⟩ := Steps.bind_eq_ok.1 hlow
  cases hlow
  have hmax : round + cs.validators.size ≤ maxInt := by have := h.max; omega
  exact ⟨⟨⟨h.drawn.1, h.drawn.2⟩, h.named, hnonneg, hmax, h.lock⟩, rfl, rfl, rfl⟩

/-- **Going back** returns for every round that is not negative. -/
theorem Seated.enterLowerRound_returns_iff (h : Seated env cs) (hcan : CanPropose env cs.height)
    (hmax : cs.round + cs.validators.size ≤ maxInt) {round : ℤ} (hint : IsInt round)
    (hlt : round < cs.round) {i : ℤ} (hdrawn : Drawn { cs with vrfValIndex := i }) :
    (∃ cs', enterLowerRound env now { cs with vrfValIndex := i } cs.height round = .ok cs') ↔
      0 ≤ round := by
  constructor
  · rintro ⟨cs', henter⟩
    exact enterLowerRound_nonneg hint henter
  intro hnonneg
  obtain ⟨cs₁, hlow, -, -⟩ := h.booked.lowerRound hnonneg hlt i
  have hable : Able { cs with vrfValIndex := i } :=
    ⟨hdrawn, h.named, h.booked.nonneg, hmax, h.prepared.lock⟩
  obtain ⟨hcs₁, hnone, hheight, hround⟩ := hable.lowerRound hnonneg hlt hlow
  have hheight₁ : cs₁.height = cs.height := hheight
  obtain ⟨cs', hwait⟩ := @Able.waitOrPropose env now cs₁ hcs₁ (hheight₁ ▸ hcan) hnone
  rw [hheight₁, hround] at hwait
  refine ⟨cs', ?_⟩
  rw [enterLowerRound_eq]
  exact Steps.bind_eq_ok.2 ⟨cs₁, hlow, hwait⟩

/-- The proposer of a round other than `0` is at an index that the sender of the round chooses. -/
theorem Drawn.proposerByRound_returns_iff (h : cs.Drawn) (hvrf : 0 ≤ cs.vrfValIndex) {round : ℤ}
    (hround : round ≠ 0) :
    (∃ r, cs.proposerByRound env now round = .ok r) ↔
      0 ≤ (wrapInt (cs.vrfValIndex + round)).tmod cs.validators.size := by
  have hseat := h.seat hvrf
  have hsize : cs.validators.size ≠ 0 := by omega
  unfold proposerByRound proposerIndex
  rw [if_neg hround, if_neg (not_lt.2 hvrf), if_neg hsize]
  simp only [bind, Except.bind]
  generalize hidx : (wrapInt (cs.vrfValIndex + round)).tmod cs.validators.size = idx
  have hhi : idx < cs.validators.size := hidx ▸ Int.tmod_lt_of_pos _ (by omega)
  split
  next hneg => simpa using hneg
  next hpos =>
    have hlt : idx.toNat < cs.validators.validators.length := by
      unfold ValidatorSet.size at hhi
      omega
    rw [List.getElem?_eq_getElem hlt]
    simpa using hpos

/-- **The proposer of a round** up to the current one is found if the round is not negative; of a
negative round it is found if the remainder happens not to be negative. -/
theorem Seated.proposerOf_returns (h : Seated env cs)
    (hmax : cs.round + cs.validators.size ≤ maxInt) {round : ℤ} (hle : round ≤ cs.round) :
    (0 ≤ round → ∃ r, cs.proposerOf env now round = .ok r) ∧
    (round < 0 → ((∃ r, cs.proposerOf env now round = .ok r) ↔
      0 ≤ (wrapInt (cs.vrfValIndex + round)).tmod cs.validators.size)) := by
  have hdrawn := h.prepared.drawn
  obtain ⟨hvrf, -⟩ := hdrawn.named h.named
  have hreturns : round ≠ cs.round → ((∃ r, cs.proposerOf env now round = .ok r) ↔
      ∃ r, cs.proposerByRound env now round = .ok r) := by
    intro hne
    unfold proposerOf
    rw [if_neg hne]
    cases cs.proposerByRound env now round with
    | error p => simp [bind, Except.bind]
    | ok r => simp [bind, Except.bind]
  constructor
  · intro hnonneg
    by_cases hround : round = cs.round
    · unfold proposerOf
      rw [if_pos hround]
      exact hdrawn.getProposer_returns h.named h.booked.nonneg hmax
    · rw [hreturns hround]
      exact hdrawn.proposerByRound_returns hvrf hnonneg (by omega)
  · intro hneg
    have hnonneg := h.booked.nonneg
    rw [hreturns (by omega)]
    exact hdrawn.proposerByRound_returns_iff hvrf (by omega)

/-- **The panics of `defaultSetProposal`.** -/
theorem Seated.setProposal_returns_iff (h : Seated env cs) (hcan : CanPropose env cs.height)
    (hmax : cs.round + cs.validators.size ≤ maxInt) {x : Proposal} (hint : IsInt x.round) :
    (∃ r, cs.setProposal env now (some x) = .ok r) ↔
      (cs.Considers x → ∃ cs₁ val, cs.proposerOf env now x.round = .ok (cs₁, val) ∧
        (proposalVerifies env x val = true → cs.Takes x →
          0 ≤ x.round ∧ x.blockPartsHeader.total ≤ maxSliceLen)) := by
  by_cases hconsiders : cs.Considers x
  swap
  · exact ⟨fun _ h => absurd h hconsiders, fun _ => setProposal_of_not_considers hconsiders⟩
  rw [forall_prop_of_true hconsiders]
  by_cases hround : x.round = cs.round
  · rw [hconsiders.current_returns_iff hround]
    have hnonneg : 0 ≤ x.round := hround ▸ h.booked.nonneg
    refine exists_congr fun cs₁ => exists_congr fun val => and_congr_right fun _ => ?_
    exact ⟨fun htotal hverify _ => ⟨hnonneg, htotal hverify⟩,
      fun htotal hverify => (htotal hverify (.inl hround)).2⟩
  · have hlt : x.round < cs.round := lt_of_le_of_ne hconsiders.2.2.1 hround
    rw [hconsiders.lower_returns_iff hround]
    refine exists_congr fun cs₁ => exists_congr fun val => and_congr_right fun hof => ?_
    -- looking up the proposer changes nothing but the seat
    unfold proposerOf at hof
    rw [if_neg hround] at hof
    obtain ⟨⟨cs₂, p⟩, hp, hof⟩ := Steps.bind_eq_ok.1 hof
    cases hof
    obtain ⟨hdrawn, -⟩ := proposerByRound_drawn hp h.prepared.drawn
    obtain ⟨i, rfl⟩ := proposerByRound_eq hp
    have hlower := @Seated.enterLowerRound_returns_iff env now cs h hcan hmax _ hint hlt i hdrawn
    have hopen : cs.Takes x ↔ cs.lowerRoundOpen x.round = true := by simp [Takes, hround]
    rw [hopen]
    exact imp_congr_right fun _ => imp_congr_right fun _ => and_congr_left' hlower

/-- **A proposal that is refused or ignored** leaves the protocol state as it is. -/
theorem setProposal_unchanged {x : Option Proposal} {err : Option ProposalError}
    (h : cs.setProposal env now x = .ok (cs', err))
    (hrefused : err.isSome = true ∨ cs'.proposal = cs.proposal) : cs'.view = cs.view := by
  have hclose : ∀ y, err = none → cs.proposal = none → cs'.proposal = some y → False := by
    rintro y rfl hnone hsome
    rcases hrefused with herr | hsame
    · cases herr
    · rw [hsame, hnone] at hsome
      cases hsome
  rcases setProposal_cases h with hsame | ⟨y, parts, herr, hnone, haccept⟩ |
    ⟨y, i, cs₂, herr, hnone, -, -, -, haccept⟩
  · exact hsame
  · exact (hclose y herr hnone (congrArg View.proposal haccept)).elim
  · obtain ⟨parts, past, rfl⟩ := acceptProposal_eq haccept
    exact (hclose y herr hnone rfl).elim

/-- **Proposals from the network.**  In every state reached after `enterNewRound(height, 0)` by
timely inputs, `defaultSetProposal` returns on a proposal exactly when it does not consider it, or
finds the proposer of its round, and the proposal, if it is signed and taken over, is of a round
that is not negative and has parts that can be allocated.  The proposer is found for every round
that is not negative.  A proposal that is refused or ignored changes nothing. -/
theorem proposal_returns_iff (hstart : Started env cs₀)
    (hsize : (cs₀.validators.size : ℤ) ≤ maxInt) {before after : List (ℤ × Event)}
    {cs₁ cs₂ : ConsensusState} (hbefore : RunMeets env Timely cs₀ before)
    (hrun₁ : run env cs₀ before = .ok cs₁) (hstep : cs₁.step = .newHeight)
    (henter : cs₁.enterNewRound env now cs₁.height 0 = .ok cs₂)
    (hafter : RunMeets env Timely cs₂ after) (hrun₂ : run env cs₂ after = .ok cs)
    (hcan : CanPropose env cs.height) (hmax : cs.round + cs.validators.size ≤ maxInt) :
    (∀ now x, IsInt x.round → ((∃ r, cs.setProposal env now (some x) = .ok r) ↔
      (cs.Considers x → ∃ cs₁ val, cs.proposerOf env now x.round = .ok (cs₁, val) ∧
        (proposalVerifies env x val = true → cs.Takes x →
          0 ≤ x.round ∧ x.blockPartsHeader.total ≤ maxSliceLen)))) ∧
    (∀ now round, round ≤ cs.round →
      (0 ≤ round → ∃ r, cs.proposerOf env now round = .ok r) ∧
      (round < 0 → ((∃ r, cs.proposerOf env now round = .ok r) ↔
        0 ≤ (wrapInt (cs.vrfValIndex + round)).tmod cs.validators.size))) ∧
    ∀ now x cs' err, cs.setProposal env now x = .ok (cs', err) →
      (err.isSome = true ∨ cs'.proposal = cs.proposal) → cs'.view = cs.view := by
  have h : Seated env cs :=
    (seated_of_enterNewRound hstart hsize hbefore hrun₁ hstep henter).run hafter hrun₂
  exact ⟨fun now x hint => h.setProposal_returns_iff hcan hmax hint,
    fun now round hle => h.proposerOf_returns hmax hle,
    fun now x cs' err hset hrefused => setProposal_unchanged hset hrefused⟩

end ConsensusState
open ConsensusState

/-- A proposal with the keys of the plain environment. -/
def PlainEnv.proposalOf (key : UInt8) (round : ℤ) : Proposal :=
  (PlainEnv.privValidator key).signProposal PlainEnv.libs PlainEnv.chainID
    { height := 1
      round := round
      hash := (PlainEnv.blockID 7).hash
      blockPartsHeader := (PlainEnv.blockID 7).partsHeader
      polRound := -1
      polBlockID := BlockID.zero
      proposerPeerKey := "node"
      signature := [] }

/-- A validator in round `1` takes the late proposal of round `0`. -/
theorem proposal_returns_iff_late : ∃ cs₀ cs₂ cs, Started PlainEnv.env cs₀ ∧
    cs₀.enterNewRound PlainEnv.env 1 cs₀.height 0 = .ok cs₂ ∧
    RunMeets PlainEnv.env Timely cs₂ PlainEnv.twoRounds ∧
    run PlainEnv.env cs₂ PlainEnv.twoRounds = .ok cs ∧ cs.round = 1 ∧
    ∃ r, cs.setProposal PlainEnv.env 6 (some (PlainEnv.proposalOf 2 0)) = .ok r := by
  obtain ⟨cs₀, hstart, hstep, hsize, cs₂, henter, hmeets, cs, hrun, hround, hheight, hmax⟩ :
      ∃ cs₀, PlainEnv.start 1 = .ok cs₀ ∧ cs₀.step = .newHeight ∧
        (cs₀.validators.size : ℤ) ≤ maxInt ∧
        ∃ cs₂, cs₀.enterNewRound PlainEnv.env 1 cs₀.height 0 = .ok cs₂ ∧
          RunMeets PlainEnv.env Timely cs₂ PlainEnv.twoRounds ∧
          ∃ cs, run PlainEnv.env cs₂ PlainEnv.twoRounds = .ok cs ∧ cs.round = 1 ∧ cs.height = 1 ∧
            cs.round + cs.validators.size ≤ maxInt := by
    decide +kernel
  have hstarted : Started PlainEnv.env cs₀ := ⟨_, _, _, _, hstart⟩
  have hcan : CanPropose PlainEnv.env cs.height := by
    rw [hheight]
    exact ⟨by decide, fun hend => absurd hend (by decide)⟩
  have hbefore : RunMeets PlainEnv.env Timely cs₀ [] := trivial
  obtain ⟨hiff, hfound, -⟩ := proposal_returns_iff hstarted hsize hbefore rfl hstep
    henter hmeets hrun hcan hmax
  obtain ⟨⟨cs₁, val⟩, hof⟩ := (hfound 6 0 (by omega)).1 le_rfl
  exact ⟨cs₀, cs₂, cs, hstarted, henter, hmeets, hrun, hround,
    (hiff 6 (PlainEnv.proposalOf 2 0) (by decide)).2 fun _ =>
      ⟨cs₁, val, hof, fun _ _ => ⟨by decide, by decide⟩⟩⟩

/-- **One proposal stops a validator**: one of the round `-2` without a signature, and one of the
round `-1` with that of the validator whose turn the round is. -/
theorem proposal_crashes : ∃ cs₀ cs, Started PlainEnv.env cs₀ ∧ cs₀.step = .newHeight ∧
    cs₀.enterNewRound PlainEnv.env 1 cs₀.height 0 = .ok cs ∧
    cs.setProposal PlainEnv.env 2
      (some { PlainEnv.proposalOf 2 (-2) with signature := [] }) =
      .error (.sanity "The index of proposer out of range") ∧
    cs.setProposal PlainEnv.env 2 (some (PlainEnv.proposalOf 1 (-1))) =
      .error (.sanity "HeightVoteSignAggr.ResetTop2Round() must have enough round to reset") := by
  obtain ⟨cs₀, hstart, hstep, cs, henter, hcrashes⟩ :
      ∃ cs₀, PlainEnv.start 3 = .ok cs₀ ∧ cs₀.step = .newHeight ∧
        ∃ cs, cs₀.enterNewRound PlainEnv.env 1 cs₀.height 0 = .ok cs ∧
          cs.setProposal PlainEnv.env 2
            (some { PlainEnv.proposalOf 2 (-2) with signature := [] }) =
            .error (.sanity "The index of proposer out of range") ∧
          cs.setProposal PlainEnv.env 2 (some (PlainEnv.proposalOf 1 (-1))) = .error
            (.sanity "HeightVoteSignAggr.ResetTop2Round() must have enough round to reset") := by
    decide +kernel
  exact ⟨cs₀, cs, ⟨_, _, _, _, hstart⟩, hstep, henter, hcrashes⟩

end Consensus
end LigoChain

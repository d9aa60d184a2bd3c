/-
# No equivocation

A validator that never goes back to a lower round signs, at one height, at most one
vote of each round and type and at most one proposal of each round
(`run_noEquivocation`).  The private validator remembers nothing of what it signed
(`PrivValidator.SignVote` in `chain/consensus/tendermint/types/priv_validator.go`), so
this rests on the step and the parts of the round alone (`SignedInv`, `ProposedInv`).

Going back breaks it.  `enterLowerRound` resets the step of a round in which the
validator may have voted already, and it votes in that round again
(`equivocates_after_enterLowerRound`): the precommit for nothing of the first time is
followed by one for the block.
-/

import LigoChain.Consensus.LocalInvariant
import LigoChain.Consensus.PlainEnv

namespace LigoChain
namespace Consensus

/-- No two signed votes of one height, round and type are for different blocks, and no two
signed proposals of one height and round are of different hash. -/
structure NoEquivocation (out : List Effect) : Prop where
  votes : ∀ a b, .signVote a ∈ out → .signVote b ∈ out → a.height = b.height →
    a.round = b.round → a.type_ = b.type_ → a.blockID = b.blockID
  proposals : ∀ p q, .signProposal p ∈ out → .signProposal q ∈ out → p.height = q.height →
    p.round = q.round → p.hash = q.hash

theorem LocalInv.noEquivocation {v : View} (h : LocalInv v) : NoEquivocation v.out where
  votes a b ha hb _ hround htype := congrArg Vote.blockID
    (h.signed.unique a (View.mem_signedVotes.2 ha) b (View.mem_signedVotes.2 hb) hround htype)
  proposals p q hp hq _ hround := congrArg Proposal.hash
    (h.proposed.unique p (View.mem_signedProposals.2 hp) q (View.mem_signedProposals.2 hq) hround)

namespace ConsensusState

variable {env : Env} {cs cs' : ConsensusState} {inputs : List (ℤ × Event)}

/-- Timeouts that fire were scheduled, and no input takes the validator back. -/
abbrev FiresForward (env : Env) (cs : ConsensusState) (input : ℤ × Event) : Prop :=
  cs.Fires input.2 ∧ Forward env cs input

theorem Started.localInv (h : Started env cs) : LocalInv cs.view := by
  obtain ⟨extra, validators, pv, block, h⟩ := h
  exact startNewHeight_localInv h

theorem run_localInv (h : LocalInv cs.view) (hmeets : RunMeets env (FiresForward env) cs inputs)
    (hrun : run env cs inputs = .ok cs') : LocalInv cs'.view :=
  Steps.RunMeets.invariant (I := fun cs => LocalInv cs.view)
    (fun _ _ _ hC hstep hinv => handle_localInv hinv hC.1 (hC.2.round_le hstep) hstep) hmeets hrun h

/-- **No equivocation.**  Whatever messages arrive, and whenever its timeouts fire, a
validator that never goes back to a lower round signs no two votes of one height, round and
type for different blocks, and no two proposals of one height and round. -/
theorem run_noEquivocation (hstart : Started env cs)
    (hmeets : RunMeets env (FiresForward env) cs inputs) (hrun : run env cs inputs = .ok cs') :
    NoEquivocation cs'.out :=
  (run_localInv hstart.localInv hmeets hrun).noEquivocation

end ConsensusState

open ConsensusState

/-- Round `0` of the first validator, up to its precommit and the end of the round. -/
def PlainEnv.forwardInputs : List (ℤ × Event) :=
  [(7, .timeout ⟨1, 0, .newHeight⟩), (7, .msg (PlainEnv.proposal 2 0 7) "b"),
    (7, .msg (PlainEnv.blockPart 0 7) "b"),
    (8, .msg (.maj23SignAggr (some (PlainEnv.signAggr 0 voteTypePrevote 7))) "b"),
    (9, .timeout ⟨1, 0, .precommitWait⟩)]

/-- The run above meets the conditions, and signs a prevote and a precommit. -/
theorem run_noEquivocation_forwardInputs : ∃ cs cs', Started PlainEnv.env cs ∧
    RunMeets PlainEnv.env (FiresForward PlainEnv.env) cs PlainEnv.forwardInputs ∧
    run PlainEnv.env cs PlainEnv.forwardInputs = .ok cs' ∧
    cs'.view.signedVotes.map Vote.type_ = [voteTypePrecommit, voteTypePrevote] ∧
    NoEquivocation cs'.out := by
  obtain ⟨cs, hstart, hmeets, cs', hrun, hvotes⟩ : ∃ cs, PlainEnv.start 1 = .ok cs ∧
      RunMeets PlainEnv.env (FiresForward PlainEnv.env) cs PlainEnv.forwardInputs ∧
      ∃ cs', run PlainEnv.env cs PlainEnv.forwardInputs = .ok cs' ∧
        cs'.view.signedVotes.map Vote.type_ = [voteTypePrecommit, voteTypePrevote] := by
    decide +kernel
  have hstarted : Started PlainEnv.env cs := ⟨_, _, _, _, hstart⟩
  exact ⟨cs, cs', hstarted, hmeets, hrun, hvotes, run_noEquivocation hstarted hmeets hrun⟩

/-- The first validator goes through round `0` without a proposal, then receives it in
round `1`, with its block and the aggregate of its own prevote. -/
def PlainEnv.lowerRoundInputs : List (ℤ × Event) :=
  [(7, .timeout ⟨1, 0, .newHeight⟩), (8, .timeout ⟨1, 0, .propose⟩),
    (9, .timeout ⟨1, 0, .prevoteWait⟩), (10, .timeout ⟨1, 0, .precommitWait⟩),
    (11, .msg (PlainEnv.proposal 2 0 7) "b"), (12, .msg (PlainEnv.blockPart 0 7) "b"),
    (13, .msg (.maj23SignAggr (some (PlainEnv.signAggr 0 voteTypePrevote 7))) "b")]

/-- **Going back to a lower round equivocates.**  In the run above all timeouts were
scheduled, and the validator signs two precommits of round `0`: for nothing, and for the
block. -/
theorem equivocates_after_enterLowerRound : ∃ cs cs', Started PlainEnv.env cs ∧
    RunMeets PlainEnv.env (fun cs input => cs.Fires input.2) cs PlainEnv.lowerRoundInputs ∧
    run PlainEnv.env cs PlainEnv.lowerRoundInputs = .ok cs' ∧
    ¬ NoEquivocation cs'.out := by
  obtain ⟨cs, hstart, hmeets, cs', hrun, a, ha, b, hb, hheight, hround, htype, hne⟩ :
      ∃ cs, PlainEnv.start 1 = .ok cs ∧
        RunMeets PlainEnv.env (fun cs input => cs.Fires input.2) cs PlainEnv.lowerRoundInputs ∧
        ∃ cs', run PlainEnv.env cs PlainEnv.lowerRoundInputs = .ok cs' ∧
          ∃ a ∈ cs'.view.signedVotes, ∃ b ∈ cs'.view.signedVotes, a.height = b.height ∧
            a.round = b.round ∧ a.type_ = b.type_ ∧ a.blockID ≠ b.blockID := by
    decide +kernel
  exact ⟨cs, cs', ⟨_, _, _, _, hstart⟩, hmeets, hrun, fun hno =>
    hne (hno.votes a b (View.mem_signedVotes.1 ha) (View.mem_signedVotes.1 hb) hheight hround htype)⟩

end Consensus
end LigoChain

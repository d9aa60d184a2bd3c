/-
# Runs of one validator

An input to a validator is a message, a timeout that fires, a block from the
miner, or the moment at which a gossip routine of the reactor sends something.
`handle` is one input; a run is its fold over a list of inputs, each with the time
at which it is handled (`receiveRoutine` in
`chain/consensus/tendermint/consensus/state.go`; the gossip routines and the
`Request` listener in `reactor.go`).

A timeout can only fire if the code scheduled it, so a run of the code is a run
whose timeouts are all found among its own effects (`Fires`).  Messages from peers
are not restricted in any way.
-/

import LigoChain.Consensus.Handlers

namespace LigoChain
namespace Consensus

/-- What a gossip routine sends: its own proposal, a part of it, or a stored aggregate. -/
inductive GossipKind
  | proposal
  | blockPart (index : ℕ)
  | prevotes (round : ℤ)
  | precommits (round : ℤ)
  deriving DecidableEq, Repr

/-- An input to a validator. -/
inductive Event
  | msg (msg : Message) (peerKey : String)
  | timeout (ti : TimeoutInfo)
  | miner (block : LigoBlock)
  | gossip (kind : GossipKind)
  deriving DecidableEq, Repr

namespace ConsensusState

/-- The message that `gossipDataRoutine` or `gossipVotesRoutine` sends, if there is one. -/
def gossipMessage (cs : ConsensusState) : GossipKind → Option Message
  | .proposal =>
    if cs.isProposerFlag && cs.proposal.isSome then some (.proposal cs.proposal) else none
  | .blockPart index =>
    if cs.isProposerFlag then
      ((cs.proposalBlockParts.bind fun ps => ps.parts[index]?).bind id).map fun part =>
        .blockPart cs.height cs.round (some part)
    else none
  | .prevotes round => (cs.voteSignAggr.prevotes round).map fun s => .maj23SignAggr (some s)
  | .precommits round => (cs.voteSignAggr.precommits round).map fun s => .maj23SignAggr (some s)

/-- The reactor's `Request` listener, for a block of this height. -/
def setBlockFromMiner (cs : ConsensusState) (block : LigoBlock) : ConsensusState :=
  if block.number = cs.height then { cs with blockFromMiner := some block } else cs

/-- One input, handled at the time `now`. -/
def handle (env : Env) (cs : ConsensusState) (input : ℤ × Event) : Go ConsensusState :=
  match input.2 with
  | .msg msg peerKey => cs.handleMsg env input.1 msg peerKey
  | .timeout ti => cs.handleTimeout env input.1 ti
  | .miner block => .ok (cs.setBlockFromMiner block)
  | .gossip kind =>
    match cs.gossipMessage kind with
    | none => .ok cs
    | some msg => .ok (cs.emit (.gossip msg))

/-- A run of inputs. -/
def run (env : Env) (cs : ConsensusState) (inputs : List (ℤ × Event)) : Go ConsensusState :=
  inputs.foldlM (handle env) cs

/-- The input can happen: a timeout that fires was scheduled. -/
def Fires (cs : ConsensusState) (e : Event) : Prop :=
  ∀ ti, e = .timeout ti → .schedule ti ∈ cs.out

instance (cs : ConsensusState) (e : Event) : Decidable (cs.Fires e) :=
  match e with
  | .timeout ti =>
    decidable_of_iff (.schedule ti ∈ cs.out) ⟨fun h t ht => by cases ht; exact h, fun h => h ti rfl⟩
  | .msg _ _ => .isTrue fun _ h => by cases h
  | .miner _ => .isTrue fun _ h => by cases h
  | .gossip _ => .isTrue fun _ h => by cases h

/-- Every input of the run happens in a state that satisfies the condition. -/
abbrev RunMeets (env : Env) (C : ConsensusState → ℤ × Event → Prop) :
    ConsensusState → List (ℤ × Event) → Prop :=
  Steps.RunMeets (handle env) C

/-- The input does not take the validator back to a lower round. -/
def Forward (env : Env) (cs : ConsensusState) (input : ℤ × Event) : Prop :=
  match cs.handle env input with
  | .error _ => True
  | .ok cs' => cs.round ≤ cs'.round

instance (env : Env) (cs : ConsensusState) (input : ℤ × Event) : Decidable (Forward env cs input) :=
  match h : cs.handle env input with
  | .error _ => .isTrue (by rw [Forward, h]; trivial)
  | .ok cs' => decidable_of_iff (cs.round ≤ cs'.round) (by rw [Forward, h])

/-- The state in which a validator starts a height. -/
def Started (env : Env) (cs : ConsensusState) : Prop :=
  ∃ ntcExtra validators privValidator blockFromMiner,
    startNewHeight env ntcExtra validators privValidator blockFromMiner = .ok cs

theorem Forward.round_le {env : Env} {cs cs' : ConsensusState} {input : ℤ × Event}
    (h : Forward env cs input)
    (hstep : cs.handle env input = .ok cs') : cs.round ≤ cs'.round := by
  rw [Forward, hstep] at h
  exact h

end ConsensusState

end Consensus
end LigoChain

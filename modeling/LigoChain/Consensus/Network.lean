/-
# A network of validators

Every validator of a height runs the code of
`chain/consensus/tendermint/consensus/state.go`, in an environment of its own.  What a
validator sends stays deliverable for ever, to everyone: so messages can be delivered in
any order, late, more than once, or not at all.  A timeout fires at any time after it was
scheduled.  A message that no validator sent is not delivered, which is what unforgeable
signatures are for.

A panic is not recovered from: the validator is down from then on, and what it had sent
before stays on the wire.
-/

import LigoChain.Consensus.Runs

namespace LigoChain
namespace Consensus

/-- The message that an effect puts on the wire: what the reactor gossips, and what it sends
for `FireEventVote2Proposer` and `FireEventSignAggr`. -/
def Effect.wire : Effect → Option Message
  | .gossip msg => some msg
  | .vote2Proposer vote _ => some (.vote (some vote))
  | .signAggr s => some (.maj23SignAggr (some s))
  | _ => none

/-- A validator of the network, and whether a panic has ended it. -/
structure Node where
  state : ConsensusState
  down : Bool

/-- Why an input cannot happen. -/
inductive Blocked
  | down
  | disabled
  deriving DecidableEq, Repr

/-- The validators of a height, each with its environment.  They use the same libraries, no
two have one address, and each has power. -/
structure Network where
  validators : ValidatorSet
  libs : Libs
  env : Fin validators.size → Env
  env_libs : ∀ i, (env i).libs = libs
  addresses_nodup : (validators.validators.map Validator.address).Nodup
  power_pos : ∀ val ∈ validators.validators, 0 < val.votingPower

namespace Network

variable (N : Network)

/-- The state of the network. -/
abbrev Net := Fin N.validators.size → Node

/-- An input to one of the validators, with the time at which it is handled. -/
abbrev Input := Fin N.validators.size × ℤ × Event

variable {N}

/-- The input can happen: a message from a peer was sent by some validator, a message from
the validator itself is in its internal queue, and a timeout that fires was scheduled. -/
def Enabled (net : N.Net) (i : Fin N.validators.size) : Event → Prop
  | .msg msg peerKey =>
    if peerKey = "" then .internal msg ∈ (net i).state.out
    else ∃ j, ∃ x ∈ (net j).state.out, x.wire = some msg
  | .timeout ti => .schedule ti ∈ (net i).state.out
  | .miner _ => True
  | .gossip _ => True

instance (net : N.Net) (i : Fin N.validators.size) (e : Event) : Decidable (Enabled net i e) :=
  match e with
  | .msg msg peerKey =>
    inferInstanceAs (Decidable (if peerKey = "" then .internal msg ∈ (net i).state.out
      else ∃ j, ∃ x ∈ (net j).state.out, x.wire = some msg))
  | .timeout ti => inferInstanceAs (Decidable (.schedule ti ∈ (net i).state.out))
  | .miner _ => .isTrue trivial
  | .gossip _ => .isTrue trivial

variable (N)

/-- One input: one validator handles it, the others stay as they are. -/
def step (net : N.Net) (input : N.Input) : Except Blocked N.Net :=
  if (net input.1).down then .error .down
  else if Enabled net input.1 input.2.2 then
    match (net input.1).state.handle (N.env input.1) input.2 with
    | .ok cs => .ok (Function.update net input.1 ⟨cs, false⟩)
    | .error _ => .ok (Function.update net input.1 { net input.1 with down := true })
  else .error .disabled

/-- A run of the network. -/
def run (net : N.Net) (inputs : List N.Input) : Except Blocked N.Net := inputs.foldlM N.step net

/-- Each validator starts the height with its own key. -/
def Started (net : N.Net) : Prop :=
  ∀ i, (net i).down = false ∧ ∃ extra pv block,
    pv.address = (N.validators.validators.get i).address ∧
    ConsensusState.startNewHeight (N.env i) extra N.validators (some pv) block =
      .ok (net i).state

/-- The input does not take the validator back to a lower round. -/
def Forward (net : N.Net) (input : N.Input) : Prop :=
  ConsensusState.Forward (N.env input.1) (net input.1).state input.2

instance (net : N.Net) (input : N.Input) : Decidable (N.Forward net input) :=
  inferInstanceAs (Decidable (ConsensusState.Forward _ _ _))

variable {N}

/-- **What one input does**: a validator handles it and it was enabled, or the validator goes
down. -/
theorem step_eq_ok {net net' : N.Net} {i : Fin N.validators.size} {input : ℤ × Event}
    (h : N.step net (i, input) = .ok net') :
    Enabled net i input.2 ∧
      ((∃ cs, (net i).state.handle (N.env i) input = .ok cs ∧
          net' = Function.update net i ⟨cs, false⟩) ∨
        net' = Function.update net i { net i with down := true }) := by
  unfold step at h
  split at h
  · simp at h
  split at h
  next henabled =>
    refine ⟨henabled, ?_⟩
    split at h
    next cs hcs => exact .inl ⟨cs, hcs, (Except.ok.inj h).symm⟩
    next => exact .inr (Except.ok.inj h).symm
  · simp at h

end Network

end Consensus
end LigoChain

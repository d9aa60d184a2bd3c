/-
# Agreement

Validators that all run the code and never go back to a lower round finalize one block
(`Network.run_agreement`), whatever the order, the delay, the loss or the duplication of
their messages and timeouts.

The network refines the abstract rule of `Lib/LockVoting.lean`.  Along a run there are
voters, one for each validator, that took the steps of a run of that rule and know what
the validators did (`NetInv`).  An aggregate that a validator handles was sent by a
validator, so each of its bits is a vote of the validator it stands for
(`Consensus/Provenance.lean`): a verified aggregate of prevotes is a quorum of prevotes of
the voters, and the handler is matched by steps of the voter
(`Consensus/LockSimulation.lean`).  A finalized block has a quorum of precommits, and two
such quorums are for one value because any two quorums of positive power meet.

A proposal of a round that the validator has left without one takes it back to that round
(`defaultSetProposal`, `enterLowerRound` in
`chain/consensus/tendermint/consensus/state.go`); then two validators can finalize
different blocks (`finalizes_two_blocks_after_enterLowerRound`).
-/

import LigoChain.Consensus.LockSimulation
import LigoChain.Consensus.Network
import LigoChain.Consensus.PlainEnv
import LigoChain.Consensus.Provenance
import LigoChain.Types.QuorumSoundness

namespace LigoChain
namespace Consensus
namespace Network

open GoInt LockVoting

variable {N : Network}

/-! ## Quorums -/

/-- The validators in the set include those of a bit array with the power that the round asks
for. -/
def Quorum (N : Network) (round : ℤ) (S : Set (Fin N.validators.size)) : Prop :=
  0 ≤ round ∧ ∃ bits : BitArray,
    loose23MajorThreshold N.validators.totalPower round ≤ N.validators.powerOf bits ∧
    ∀ i : Fin N.validators.size, bits[i.val]? = some true → i ∈ S

theorem Quorum.mono (round : ℤ) (S T : Set (Fin N.validators.size)) (hsub : S ⊆ T)
    (h : N.Quorum round S) : N.Quorum round T := by
  obtain ⟨hround, bits, hpower, hbits⟩ := h
  exact ⟨hround, bits, hpower, fun i hi => hsub (hbits i hi)⟩

/-- **Any two quorums meet**, of whatever rounds. -/
theorem Quorum.meet (round round' : ℤ) (S T : Set (Fin N.validators.size))
    (h : N.Quorum round S) (h' : N.Quorum round' T) : (S ∩ T).Nonempty := by
  obtain ⟨hround, bits, hpower, hbits⟩ := h
  obtain ⟨hround', bits', hpower', hbits'⟩ := h'
  have hpos : ∀ w ∈ N.validators.validators.map Validator.votingPower, 0 < w := by
    intro w hw
    obtain ⟨val, hval, rfl⟩ := List.mem_map.1 hw
    exact N.power_pos val hval
  have hsafe : firstSafeRound ≤ 0 := by decide
  by_cases hnone : N.validators.validators = []
  · -- without validators a round asks for no power that they do not have, but for one vote
    have htotal : N.validators.totalPower = 0 := by simp [ValidatorSet.totalPower, hnone]
    have hzero : N.validators.powerOf bits = 0 := by simp [ValidatorSet.powerOf, hnone]
    rw [htotal, hzero] at hpower
    exact absurd hpower (by simp [loose23MajorThreshold, looseRound])
  have htotal : 0 < N.validators.totalPower :=
    List.sum_pos _ hpos (by simpa using hnone)
  have hhalf := majority_lt_loose23MajorThreshold htotal (hsafe.trans hround) hpower
  have hhalf' := majority_lt_loose23MajorThreshold htotal (hsafe.trans hround') hpower'
  have hsum : N.validators.totalPower <
      N.validators.powerOf bits + N.validators.powerOf bits' := by omega
  rw [ValidatorSet.powerOf_eq_weight, ValidatorSet.powerOf_eq_weight] at hsum
  obtain ⟨i, hi, hb, hb'⟩ := Majority.exists_common (fun w hw => (hpos w hw).le) hsum
  rw [List.length_map] at hi
  exact ⟨⟨i, hi⟩, hbits ⟨i, hi⟩ hb, hbits' ⟨i, hi⟩ hb'⟩

/-! ## The votes that were signed -/

/-- The protocol states of the validators. -/
def views (net : N.Net) (i : Fin N.validators.size) : View := (net i).state.view

/-- The record of who signed what. -/
def Record (views : Fin N.validators.size → View) (i : ℕ) (vote : Vote) : Prop :=
  ∃ h : i < N.validators.size, .signVote vote ∈ (views ⟨i, h⟩).out

/-- A validator signs under its own index. -/
structure OwnInv (i : Fin N.validators.size) (v : View) : Prop where
  validators : v.validators = N.validators
  address : v.address = some (N.validators.validators.get i).address
  index : ∀ vote, .signVote vote ∈ v.out → vote.validatorIndex = i.val

/-- The index under which an address is found is its own. -/
theorem getByAddress_get (i : Fin N.validators.size) :
    (N.validators.getByAddress (N.validators.validators.get i).address).1 = i.val := by
  have hfind : N.validators.validators.findIdx?
      (fun val => val.address == (N.validators.validators.get i).address) = some i.val := by
    rw [List.findIdx?_eq_some_iff_getElem]
    refine ⟨i.isLt, beq_self_eq_true _, fun j hj => ?_⟩
    have hlt : j < N.validators.validators.length := hj.trans i.isLt
    -- an earlier validator with the address would make the list of addresses repeat
    have hne : N.validators.validators[j].address ≠ (N.validators.validators.get i).address := by
      intro heq
      have hlen := N.validators.validators.length_map Validator.address
      have hinj := @List.Nodup.getElem_inj_iff _ _ N.addresses_nodup j (hlen ▸ hlt) i
        (hlen ▸ i.isLt)
      rw [List.getElem_map, List.getElem_map] at hinj
      exact hj.ne (hinj.1 heq)
    simpa using hne
  rw [ValidatorSet.getByAddress, hfind]

theorem OwnInv.move {L : Libs} {e : Event} {i : Fin N.validators.size} {v v' : View}
    (hmove : Move L e v v') (h : OwnInv i v) : OwnInv i v' := by
  obtain ⟨-, hvalidators, haddress⟩ := hmove.fixed
  refine ⟨hvalidators.trans h.validators, haddress.trans h.address, fun vote hvote => ?_⟩
  rcases hmove.signed hvote with hold | ⟨type_, blockID, hown⟩
  · exact h.index vote hold
  · have haddr := Option.some.inj (hown.address.symm.trans h.address)
    rw [hown.index, h.validators, haddr, getByAddress_get]

theorem OwnInv.record {views : Fin N.validators.size → View} {i : Fin N.validators.size}
    (h : OwnInv i (views i)) (hlocal : LocalInv (views i)) {vote : Vote}
    (hvote : .signVote vote ∈ (views i).out) : VoteOnRecord (Record views) vote := by
  refine ⟨?_, ?_⟩
  · rw [h.index vote hvote]
    exact ⟨i.isLt, hvote⟩
  · have hround := hlocal.signed.round vote (View.mem_signedVotes.2 hvote)
    have hint := hlocal.round.isInt
    rw [isInt_iff] at hint ⊢
    omega

/-! ## The invariant of the network -/

/-- What holds of one validator, relative to the record and to the voter that stands for it. -/
structure NodeInv (Signed : ℕ → Vote → Prop) (i : Fin N.validators.size) (v : View)
    (w : Voter Bytes) : Prop where
  own : OwnInv i v
  local_ : LocalInv v
  message : MessageInv N.libs Signed v
  simulates : Simulates N.libs v w

/-- **The network is a run of voters with locks.** -/
def NetInv (views : Fin N.validators.size → View) : Prop :=
  ∃ ws, Run N.Quorum (fun _ => Voter.init Bytes 0) ws ∧
    ∀ i, NodeInv (Record views) i (views i) (ws i)

section Attested

variable {views : Fin N.validators.size → View} {ws : Fin N.validators.size → Voter Bytes}
  {s : SignAggr} {height : ℕ}

/-- The validators that an aggregate names are a quorum of those who cast the votes it stands
for. -/
theorem quorum_of_attested {P : Fin N.validators.size → Prop}
    (hverified : Verified N.libs height N.validators s) (hattested : Attested (Record views) s)
    (hcast : ∀ i vote, .signVote vote ∈ (views i).out → vote.type_ = s.type_ →
      (vote.round : ℤ) = s.round → vote.blockID = s.maj23 → P i) :
    N.Quorum s.round {i | P i} := by
  obtain ⟨bits, signature, hbits, -, hquorum⟩ :=
    N.validators.blsVerifySignAggr_eq_true hverified.verified
  refine ⟨hattested.nonneg, bits, hquorum.threshold_le, fun i hi => ?_⟩
  obtain ⟨vote, ⟨_, hsigned⟩, htype, hround, hblock⟩ := hattested.bits bits i.val hbits hi
  exact hcast i vote hsigned htype hround hblock

theorem polka_of_attested (hnodes : ∀ i, NodeInv (Record views) i (views i) (ws i))
    (hverified : Verified N.libs height N.validators s) (hattested : Attested (Record views) s)
    (htype : s.type_ = voteTypePrevote) : (s.round, s.maj23.hash) ∈ polkas N.Quorum ws := by
  refine quorum_of_attested hverified hattested fun i vote hvote hvtype hround hblock => ?_
  have hprevoted := (hnodes i).simulates.prevoted vote (View.mem_signedVotes.2 hvote)
    (hvtype.trans htype)
  rw [hround, hblock] at hprevoted
  exact hprevoted

theorem precommits_of_attested (hnodes : ∀ i, NodeInv (Record views) i (views i) (ws i))
    (hverified : Verified N.libs height N.validators s) (hattested : Attested (Record views) s)
    (htype : s.type_ = voteTypePrecommit) (hne : s.maj23.hash ≠ []) :
    N.Quorum s.round {i | (s.round, s.maj23.hash) ∈ (ws i).precommitted} := by
  refine quorum_of_attested hverified hattested fun i vote hvote hvtype hround hblock => ?_
  have hprecommitted := (hnodes i).simulates.precommitted vote (View.mem_signedVotes.2 hvote)
    (hvtype.trans htype) (hblock ▸ hne)
  rw [hround, hblock] at hprecommitted
  exact hprecommitted

end Attested

/-! ## Steps and runs -/

theorem Enabled.messageOK {net : N.Net} {ws : Fin N.validators.size → Voter Bytes}
    (hnodes : ∀ i, NodeInv (Record (views net)) i (views net i) (ws i))
    {i : Fin N.validators.size} {msg : Message} {peerKey : String}
    (h : Enabled net i (.msg msg peerKey)) : MessageOK (Record (views net)) msg := by
  rw [Enabled] at h
  split at h
  · exact (hnodes i).message.sent _ h msg rfl
  · obtain ⟨j, x, hx, hwire⟩ := h
    refine (hnodes j).message.sent x hx msg ?_
    cases x <;> first | exact hwire | simp [Effect.wire] at hwire

/-- **One handler of one validator keeps the invariant.** -/
theorem NetInv.moves {views : Fin N.validators.size → View} {i : Fin N.validators.size}
    {e : Event} {v' : View} (h : NetInv views) (hmoves : Moves N.libs e (views i) v')
    (hmsg : ∀ msg peerKey, e = .msg msg peerKey → MessageOK (Record views) msg) :
    NetInv (Function.update views i v') := by
  obtain ⟨ws, hrun, hnodes⟩ := h
  have hown : OwnInv i v' := hmoves.preserves (fun _ _ => OwnInv.move) (hnodes i).own
  have hlocal : LocalInv v' := hmoves.preserves (fun _ _ => Move.localInv) (hnodes i).local_
  have hgrows : (views i).out ⊆ v'.out :=
    hmoves.preserves (I := fun v => (views i).out ⊆ v.out)
      (fun _ _ hmove hsub => List.Subset.trans hsub hmove.out_subset) (List.Subset.refl _)
  -- the record of the network only grows
  have hrecord : ∀ j vote, Record views j vote → Record (Function.update views i v') j vote := by
    rintro j vote ⟨hj, hvote⟩
    refine ⟨hj, ?_⟩
    by_cases hij : (⟨j, hj⟩ : Fin N.validators.size) = i
    · rw [hij, Function.update_self]
      exact hgrows (hij ▸ hvote)
    · rw [Function.update_of_ne hij]
      exact hvote
  -- the handler is matched by steps of the voter, with the quorums that exist before it
  obtain ⟨w', hsteps, hsim⟩ := hmoves.simulates (hnodes i).local_ (hnodes i).simulates
    fun s peerKey he hverified htype =>
      polka_of_attested hnodes ((hnodes i).own.validators ▸ hverified) (hmsg _ peerKey he) htype
  refine ⟨Function.update ws i w', hrun.trans (Run.of_voter Quorum.mono hsteps).1, fun j => ?_⟩
  by_cases hij : j = i
  · subst hij
    have hself : Function.update views j v' j = v' := Function.update_self ..
    rw [hself, Function.update_self]
    refine ⟨hown, hlocal, ?_, hsim⟩
    refine hmoves.messageInv (hnodes j).local_ ((hnodes j).message.mono hrecord)
      (fun msg peerKey he => (hmsg msg peerKey he).mono hrecord) fun vote hvote => ?_
    exact OwnInv.record (hself.symm ▸ hown) (hself.symm ▸ hlocal) (hself.symm ▸ hvote)
  · rw [Function.update_of_ne hij, Function.update_of_ne hij]
    exact { hnodes j with message := (hnodes j).message.mono hrecord }

/-- **One input keeps the invariant**, if it does not take the validator back. -/
theorem step_netInv {net net' : N.Net} {input : N.Input} (hforward : N.Forward net input)
    (h : N.step net input = .ok net') (hinv : NetInv (views net)) : NetInv (views net') := by
  obtain ⟨i, input⟩ := input
  obtain ⟨henabled, ⟨cs, hcs, rfl⟩ | rfl⟩ := step_eq_ok h
  · have hviews : views (Function.update net i ⟨cs, false⟩) =
        Function.update (views net) i cs.view := by
      funext j
      by_cases hij : j = i
      · subst hij
        simp [views]
      · simp [views, hij]
    obtain ⟨ws, hrun, hnodes⟩ := id hinv
    have hfires : (net i).state.Fires input.2 := by
      intro ti hti
      rw [hti] at henabled
      exact henabled
    have hmoves := ConsensusState.moves_of_forward (hnodes i).local_ hfires
      (ConsensusState.Forward.round_le hforward hcs) hcs
    rw [N.env_libs] at hmoves
    rw [hviews]
    refine hinv.moves hmoves fun msg peerKey he => ?_
    rw [he] at henabled
    exact henabled.messageOK hnodes
  · -- a validator that goes down keeps its state
    have hviews : views (Function.update net i { net i with down := true }) = views net := by
      funext j
      by_cases hij : j = i
      · subst hij
        simp [views]
      · simp [views, hij]
    rw [hviews]
    exact hinv

theorem Started.netInv {net : N.Net} (h : N.Started net) : NetInv (views net) := by
  refine ⟨_, .refl, fun i => ?_⟩
  obtain ⟨-, extra, pv, block, haddress, hstart⟩ := h i
  refine ⟨?_, ConsensusState.startNewHeight_localInv hstart,
    ConsensusState.startNewHeight_messageInv hstart, ConsensusState.startNewHeight_simulates hstart⟩
  obtain ⟨votes, -, hstart⟩ := Steps.bind_eq_ok.1 hstart
  have hstate := (Except.ok.inj hstart).symm
  refine ⟨?_, ?_, ?_⟩ <;> simp [views, hstate, ConsensusState.view, haddress]

/-- **Agreement.**  Validators that all run the code, and of which none goes back to a lower
round, finalize blocks of one hash, whatever messages are delivered and whenever timeouts
fire. -/
theorem run_agreement {net net' : N.Net} {inputs : List N.Input} (hstart : N.Started net)
    (hmeets : Steps.RunMeets N.step N.Forward net inputs) (hrun : N.run net inputs = .ok net')
    {i j : Fin N.validators.size} {block block' : NCBlock}
    (hblock : .finalizeCommit block ∈ (net' i).state.out)
    (hblock' : .finalizeCommit block' ∈ (net' j).state.out) :
    NCBlock.hash N.libs (some block) = NCBlock.hash N.libs (some block') := by
  obtain ⟨ws, hvoters, hnodes⟩ := Steps.RunMeets.invariant (I := fun net => NetInv (views net))
    (fun _ _ _ => step_netInv) hmeets hrun hstart.netInv
  -- each finalized block has a quorum of precommits for its hash
  have hfinal : ∀ {i : Fin N.validators.size} {block : NCBlock},
      .finalizeCommit block ∈ (net' i).state.out → ∃ round hash,
        NCBlock.hash N.libs (some block) = .ok hash ∧
        N.Quorum round {i | (round, hash) ∈ (ws i).precommitted} := by
    intro i block hmem
    obtain ⟨s, hverified, htype, hattested, hhash⟩ := (hnodes i).message.final block hmem
    obtain ⟨hne, -, hhash⟩ := NCBlock.hashesTo_eq_true hhash
    rw [(hnodes i).own.validators] at hverified
    exact ⟨s.round, s.maj23.hash, hhash,
      precommits_of_attested hnodes hverified hattested htype hne⟩
  obtain ⟨round, hash, hhash, hquorum⟩ := hfinal hblock
  obtain ⟨round', hash', hhash', hquorum'⟩ := hfinal hblock'
  have hinit : LockVoting.Inv N.Quorum fun _ => Voter.init Bytes 0 :=
    ⟨fun _ => Voter.inv_init 0, fun _ => Set.empty_subset _⟩
  have hsame := agreement Quorum.mono Quorum.meet hinit (fun _ => rfl) hvoters hquorum hquorum'
  rw [hhash, hhash', hsame]

end Network

namespace PlainEnv

/-- The three validators as a network. -/
def network : Network where
  validators := validators
  libs := libs
  env _ := env
  env_libs _ := rfl
  addresses_nodup := by decide
  power_pos := by decide

/-- The first validator, with almost all of the power. -/
def first : Fin network.validators.size := ⟨0, by decide⟩

/-- The second validator, the proposer of round `0`. -/
def second : Fin network.validators.size := ⟨1, by decide⟩

/-- The third validator, the proposer of round `1`. -/
def third : Fin network.validators.size := ⟨2, by decide⟩

/-- The network at the start of the height. -/
def startNet : Go network.Net := do
  let cs₁ ← start 1
  let cs₂ ← start 2
  let cs₃ ← start 3
  .ok fun i => match i.val with
    | 0 => ⟨cs₁, false⟩
    | 1 => ⟨cs₂, false⟩
    | _ => ⟨cs₃, false⟩

theorem startNet_started {net : network.Net} (h : startNet = .ok net) : network.Started net := by
  obtain ⟨cs₁, h₁, h⟩ := Steps.bind_eq_ok.1 h
  obtain ⟨cs₂, h₂, h⟩ := Steps.bind_eq_ok.1 h
  obtain ⟨cs₃, h₃, h⟩ := Steps.bind_eq_ok.1 h
  cases h
  intro i
  match i with
  | ⟨0, _⟩ => exact ⟨rfl, _, _, _, rfl, h₁⟩
  | ⟨1, _⟩ => exact ⟨rfl, _, _, _, rfl, h₂⟩
  | ⟨2, _⟩ => exact ⟨rfl, _, _, _, rfl, h₃⟩

/-- The aggregate of the first validator's vote, as a message. -/
def aggr (round : ℕ) (type_ : ℕ) (time : UInt8) : Message :=
  .maj23SignAggr (some (signAggr round type_ time))

/-- The second validator proposes a block in round `0`. -/
def proposeInputs : List network.Input :=
  [(second, 7, .miner ⟨1, []⟩), (second, 7, .timeout ⟨1, 0, .newHeight⟩),
    (second, 7, .msg (proposal 2 0 7) ""), (second, 7, .msg (blockPart 0 7) ""),
    (second, 7, .gossip .proposal), (second, 7, .gossip (.blockPart 0))]

/-- The first validator votes for the block in round `0`, and both finalize it. -/
def agreeInputs : List network.Input := proposeInputs ++
  [(first, 7, .timeout ⟨1, 0, .newHeight⟩), (first, 7, .msg (proposal 2 0 7) "b"),
    (first, 7, .msg (blockPart 0 7) "b"), (second, 7, .msg (vote 1 0 voteTypePrevote 7) "a"),
    (second, 7, .msg (aggr 0 voteTypePrevote 7) ""),
    (first, 8, .msg (aggr 0 voteTypePrevote 7) "b"),
    (second, 8, .msg (vote 1 0 voteTypePrecommit 7) "a"),
    (second, 8, .msg (aggr 0 voteTypePrecommit 7) ""),
    (first, 9, .msg (aggr 0 voteTypePrecommit 7) "b")]

/-- The proposal of round `0` is late.  In round `1` the first validator prevotes for the block
of the third, which locks on it.  In round `2` the first validator receives the proposal of
round `0`, goes back, and votes with the second validator, which finalizes.  Then round `0` times
out, and in round `1` the first validator votes with the third. -/
def forkInputs : List network.Input := proposeInputs ++
  [(first, 7, .timeout ⟨1, 0, .newHeight⟩), (first, 7, .timeout ⟨1, 0, .propose⟩),
    (first, 7, .timeout ⟨1, 0, .prevoteWait⟩), (first, 7, .timeout ⟨1, 0, .precommitWait⟩),
    (third, 7, .miner ⟨1, []⟩), (third, 7, .timeout ⟨1, 0, .newHeight⟩),
    (third, 7, .timeout ⟨1, 0, .propose⟩), (third, 7, .timeout ⟨1, 0, .prevoteWait⟩),
    (third, 8, .timeout ⟨1, 0, .precommitWait⟩), (third, 8, .msg (proposal 3 1 8) ""),
    (third, 8, .msg (blockPart 1 8) ""), (third, 8, .gossip .proposal),
    (third, 8, .gossip (.blockPart 0)), (first, 8, .msg (proposal 3 1 8) "c"),
    (first, 8, .msg (blockPart 1 8) "c"), (third, 8, .msg (vote 1 1 voteTypePrevote 8) "a"),
    (third, 8, .msg (aggr 1 voteTypePrevote 8) ""), (first, 8, .timeout ⟨1, 1, .prevoteWait⟩),
    (first, 8, .timeout ⟨1, 1, .precommitWait⟩), (first, 9, .msg (proposal 2 0 7) "b"),
    (first, 9, .msg (blockPart 0 7) "b"), (second, 9, .msg (vote 1 0 voteTypePrevote 7) "a"),
    (second, 9, .msg (aggr 0 voteTypePrevote 7) ""),
    (first, 9, .msg (aggr 0 voteTypePrevote 7) "b"),
    (second, 9, .msg (vote 1 0 voteTypePrecommit 7) "a"),
    (second, 9, .msg (aggr 0 voteTypePrecommit 7) ""),
    (first, 10, .timeout ⟨1, 0, .precommitWait⟩), (first, 10, .msg (proposal 3 1 8) "c"),
    (first, 10, .msg (blockPart 1 8) "c"), (first, 10, .msg (aggr 1 voteTypePrevote 8) "c"),
    (third, 10, .msg (vote 1 1 voteTypePrecommit 8) "a"),
    (third, 10, .msg (aggr 1 voteTypePrecommit 8) "")]

end PlainEnv

/-- Two validators of the network finalize the block of round `0`, and none goes back. -/
theorem run_agreement_agreeInputs : ∃ net net', PlainEnv.network.Started net ∧
    Steps.RunMeets PlainEnv.network.step PlainEnv.network.Forward net PlainEnv.agreeInputs ∧
    PlainEnv.network.run net PlainEnv.agreeInputs = .ok net' ∧
    ∃ block block', .finalizeCommit block ∈ (net' PlainEnv.first).state.out ∧
      .finalizeCommit block' ∈ (net' PlainEnv.second).state.out ∧
      NCBlock.hash PlainEnv.libs (some block) = NCBlock.hash PlainEnv.libs (some block') := by
  obtain ⟨net, hstart, hmeets, net', hrun, hfirst, hsecond⟩ : ∃ net, PlainEnv.startNet = .ok net ∧
      Steps.RunMeets PlainEnv.network.step PlainEnv.network.Forward net PlainEnv.agreeInputs ∧
      ∃ net', PlainEnv.network.run net PlainEnv.agreeInputs = .ok net' ∧
        .finalizeCommit (PlainEnv.block 7) ∈ (net' PlainEnv.first).state.out ∧
        .finalizeCommit (PlainEnv.block 7) ∈ (net' PlainEnv.second).state.out := by
    decide +kernel
  have hstarted := PlainEnv.startNet_started hstart
  exact ⟨net, net', hstarted, hmeets, hrun, _, _, hfirst, hsecond,
    Network.run_agreement hstarted hmeets hrun hfirst hsecond⟩

/-- **Going back to a lower round breaks agreement.**  In the run above no validator panics, and
two validators finalize different blocks of one height. -/
theorem finalizes_two_blocks_after_enterLowerRound : ∃ net net', PlainEnv.network.Started net ∧
    PlainEnv.network.run net PlainEnv.forkInputs = .ok net' ∧ (∀ i, (net' i).down = false) ∧
    (net' PlainEnv.second).state.height = (net' PlainEnv.third).state.height ∧
    ∃ block block', .finalizeCommit block ∈ (net' PlainEnv.second).state.out ∧
      .finalizeCommit block' ∈ (net' PlainEnv.third).state.out ∧
      NCBlock.hash PlainEnv.libs (some block) ≠ NCBlock.hash PlainEnv.libs (some block') := by
  obtain ⟨net, hstart, net', hrun, hup, hheight, hsecond, hthird⟩ :
      ∃ net, PlainEnv.startNet = .ok net ∧
        ∃ net', PlainEnv.network.run net PlainEnv.forkInputs = .ok net' ∧
          (∀ i, (net' i).down = false) ∧
          (net' PlainEnv.second).state.height = (net' PlainEnv.third).state.height ∧
          .finalizeCommit (PlainEnv.block 7) ∈ (net' PlainEnv.second).state.out ∧
          .finalizeCommit (PlainEnv.block 8) ∈ (net' PlainEnv.third).state.out := by
    decide +kernel
  refine ⟨net, net', PlainEnv.startNet_started hstart, hrun, hup, hheight, _, _, hsecond, hthird,
    ?_⟩
  have hhash : ∀ time : ℕ, NCBlock.hash PlainEnv.libs (some (PlainEnv.block time)) =
      .ok [1, UInt8.ofNat time] := fun _ => rfl
  rw [hhash, hhash]
  simp

end Consensus
end LigoChain

/-
# The aggregate of a majority

`addVote` and `sendMaj23SignAggr` in `chain/consensus/tendermint/consensus/state.go`: the vote
that brings a majority makes the proposer send a `SignAggr`, which names the validators whose
votes in `votes` are for the block of the majority and aggregates their signatures.  The tally
behind the majority is that of `votesByBlock`, which groups votes by `BlockID.Key`.

The aggregate names exactly the validators with a vote for the block, and its signature always
verifies.  Whether it is accepted depends on the votes for other identifiers with the same key:
they count for the majority and are not in the aggregate.  `addVote_complete_iff` says when the
aggregate reaches the threshold all the same, and `colliding_vote_spoils_aggregate` has a run in
which one vote makes the proposer send an aggregate that everyone refuses.
-/

import LigoChain.Types.VoteGathering
import LigoChain.Consensus.SignAggrSound
import LigoChain.Consensus.VoteSafety

namespace LigoChain

open GoInt

/-! ## Keys and signatures -/

namespace ValidatorSet

variable {L : Libs} {valSet : ValidatorSet} {blockID : BlockID} {votes : List (Option Vote)}

/-- Signatures of validators that are valid for one message aggregate to one that is valid for
the aggregate of their keys. -/
def AggregatesVerify (L : Libs) (valSet : ValidatorSet) : Prop :=
  ∀ (signers : List (PubKey × Signature)) (msg : Bytes), signers ≠ [] →
    (∀ p ∈ signers, (∃ val ∈ valSet.validators, val.pubKey = p.1) ∧
      L.verifyBytes p.1 msg p.2 = true) →
    ∃ pubKey signature, L.blsPubKeyAggregate (signers.map Prod.fst) = some pubKey ∧
      L.blsSignatureAggregate (signers.map Prod.snd) = some signature ∧
      L.verifyBytes pubKey msg signature = true

/-- The validators with a vote for the block, each with its vote. -/
def ballots (valSet : ValidatorSet) (blockID : BlockID) (votes : List (Option Vote)) :
    List (Validator × Vote) :=
  (valSet.validators.zip votes).filterMap fun p =>
    (p.2.filter fun v => v.blockID = blockID).map (Prod.mk p.1)

theorem mem_ballots {val : Validator} {v : Vote} :
    (val, v) ∈ valSet.ballots blockID votes ↔
      v.blockID = blockID ∧
        ∃ i : ℕ, valSet.validators[i]? = some val ∧ votes[i]? = some (some v) := by
  unfold ballots
  rw [List.mem_filterMap]
  constructor
  · rintro ⟨⟨val', vote⟩, hmem, hvote⟩
    obtain ⟨w, hw, heq⟩ := Option.map_eq_some_iff.1 hvote
    obtain ⟨hvote', hblock⟩ := Option.filter_eq_some_iff.1 hw
    obtain ⟨rfl, rfl⟩ := Prod.mk.inj heq
    obtain ⟨i, hi⟩ := List.mem_iff_getElem?.1 hmem
    obtain ⟨hval, hi⟩ := List.getElem?_zip_eq_some.1 hi
    exact ⟨by simpa using hblock, i, hval, hi.trans (congrArg some hvote')⟩
  · rintro ⟨hblock, i, hval, hv⟩
    refine ⟨(val, some v), List.mem_iff_getElem?.2 ⟨i, List.getElem?_zip_eq_some.2 ⟨hval, hv⟩⟩, ?_⟩
    simp [Option.filter, hblock]

theorem pubKeysOf_votesFor :
    valSet.pubKeysOf (votesFor blockID votes) =
      (valSet.ballots blockID votes).map fun b => b.1.pubKey := by
  unfold pubKeysOf ballots votesFor
  rw [List.zip_map_right, List.filter_map, List.map_map]
  generalize valSet.validators.zip votes = l
  induction l with
  | nil => rfl
  | cons p l ih =>
    obtain ⟨val, vote⟩ := p
    cases vote with
    | none => simpa using ih
    | some v => by_cases hblock : v.blockID = blockID <;> simpa [hblock, Option.filter] using ih

/-- An aggregate whose signature is valid is judged by its power. -/
theorem blsVerifySignAggr_of_verify {s : SignAggr} {bits : BitArray} {signature : Signature}
    {pubKey : PubKey} (hbits : s.bitArray = some bits) (hsignature : s.signatureAggr = some signature)
    (hlength : valSet.size = bits.length) {val : Validator} (hval : val ∈ valSet.validators)
    (hkey : L.blsPubKeyAggregate (valSet.pubKeysOf bits) = some pubKey)
    (hverify : L.verifyBytes pubKey
      (L.signBytes s.chainID ⟨s.blockID, s.height, toUint64 s.round, s.type_⟩) signature = true) :
    valSet.blsVerifySignAggr L s =
      .ok (decide (loose23MajorThreshold valSet.totalPower s.round ≤ valSet.powerOf bits)) := by
  obtain ⟨i, hi⟩ := List.mem_iff_getElem?.1 hval
  obtain ⟨count, votes, htally⟩ := exists_talliedVotingPower hi hlength
  obtain ⟨bits', hbits', -, rfl, -⟩ := valSet.talliedVotingPower_eq_ok htally
  cases hbits'
  have haggr : valSet.aggrPubKey L (some bits) = some pubKey := by
    rw [aggrPubKey, if_neg (not_not.2 hlength.symm), hkey]
  simp [blsVerifySignAggr, hsignature, hbits, htally, haggr, hverify]

end ValidatorSet

namespace Consensus

/-- The vote set of a round and a type. -/
def HeightVoteSet.setOf (hvs : HeightVoteSet) (round : ℤ) (type_ : ℕ) : Option VoteSet :=
  if type_ = voteTypePrevote then hvs.prevotes round else hvs.precommits round

theorem HeightVoteSet.setOf_eq_some {hvs : HeightVoteSet} {round : ℤ} {type_ : ℕ}
    {voteSet : VoteSet} : hvs.setOf round type_ = some voteSet ↔
      ∃ rvs, hvs.roundVoteSets.lookup round = some rvs ∧ rvs.ofType type_ = voteSet := by
  unfold setOf prevotes precommits RoundVoteSet.ofType
  split_ifs <;> exact Option.map_eq_some_iff

/-- A vote that is added to a round that is open goes to the set of its type. -/
theorem HeightVoteSet.addVote_setOf {L : Libs} {hvs hvs' : HeightVoteSet} {vote : Vote}
    {peerKey : String} {voteSet : VoteSet} {err : Option AddVoteError}
    (hset : hvs.setOf (ofUint64 vote.round) vote.type_ = some voteSet)
    (hadd : hvs.addVote L vote peerKey = .ok (hvs', true, err)) :
    isVoteTypeValid vote.type_ = true ∧ hvs'.chainID = hvs.chainID ∧
      ∃ voteSet' err', voteSet.addVote L vote = .ok (voteSet', true, err') ∧
        hvs'.setOf (ofUint64 vote.round) vote.type_ = some voteSet' := by
  obtain ⟨rvs, hrvs, rfl⟩ := setOf_eq_some.1 hset
  rcases addVote_cases hadd with
    ⟨-, hadded⟩ | ⟨htype, opened, rvs', voteSet', err', hcatch, hrvs', hvoteSet, rfl⟩
  · cases hadded
  cases hcatch.symm.trans (catchup_of_open hrvs)
  cases hrvs'.symm.trans hrvs
  refine ⟨htype, rfl, voteSet', err', hvoteSet, setOf_eq_some.2 ⟨_, AList.lookup_insert _, ?_⟩⟩
  unfold RoundVoteSet.ofType RoundVoteSet.replace
  split_ifs <;> rfl

namespace ConsensusState

variable {blockID : BlockID}

theorem foldl_collectVote_signatures (vals : List Validator) (votes : List (Option Vote))
    (hlength : votes.length = vals.length) (acc : BitArray × List Signature × Bytes) :
    (votes.foldl (collectVote blockID) acc).2.1 =
      acc.2.1 ++ ((⟨vals⟩ : ValidatorSet).ballots blockID votes).map fun b => b.2.signature := by
  induction votes generalizing vals acc with
  | nil => simp [ValidatorSet.ballots]
  | cons vote votes ih =>
    obtain ⟨val, vals, rfl⟩ := List.exists_cons_of_length_eq_add_one hlength.symm
    rw [List.foldl_cons, ih vals (Nat.succ.inj hlength)]
    cases vote with
    | none => simp [collectVote, ValidatorSet.ballots]
    | some v =>
      by_cases hblock : v.blockID = blockID <;>
        simp [collectVote, ValidatorSet.ballots, hblock, Option.filter]

theorem foldl_collectVote_length (votes : List (Option Vote))
    (acc : BitArray × List Signature × Bytes) :
    (votes.foldl (collectVote blockID) acc).1.length = acc.1.length := by
  induction votes generalizing acc with
  | nil => rfl
  | cons vote votes ih =>
    rw [List.foldl_cons, ih]
    unfold collectVote
    split
    · split_ifs
      · exact List.length_set
      · rfl
    · rfl

theorem foldl_collectVote_bits (votes : List (Option Vote))
    (acc : BitArray × List Signature × Bytes) (i : ℕ) :
    (votes.foldl (collectVote blockID) acc).1[i]? = some true ↔ acc.1[i]? = some true ∨
      i < acc.1.length ∧ ∃ v, some v ∈ votes ∧ v.blockID = blockID ∧ v.validatorIndex = i := by
  induction votes generalizing acc with
  | nil => simp
  | cons vote votes ih =>
    rw [List.foldl_cons, ih]
    cases vote with
    | none => simp [collectVote]
    | some w =>
      by_cases hblock : w.blockID = blockID
      · by_cases hi : w.validatorIndex = i
        · simp only [collectVote, hblock, if_true, List.length_set, hi, List.getElem?_set_self',
            List.mem_cons, Option.some.injEq]
          by_cases hlt : i < acc.1.length
          · simp only [hlt, true_and]
            refine iff_of_true (.inl ?_) (.inr ⟨w, .inl rfl, hblock, hi⟩)
            simp [List.getElem?_eq_getElem hlt]
          · simp [hlt]
        · simp only [collectVote, hblock, if_true, List.length_set,
            List.getElem?_set_ne hi, List.mem_cons, Option.some.injEq]
          refine or_congr_right (and_congr_right fun _ => exists_congr fun v => ?_)
          exact ⟨fun h => ⟨.inr h.1, h.2⟩, fun h =>
            ⟨h.1.resolve_left fun hv => hi (hv ▸ h.2.2), h.2⟩⟩
      · simp only [collectVote, hblock, if_false, List.mem_cons, Option.some.injEq]
        refine or_congr_right (and_congr_right fun _ => exists_congr fun v => ?_)
        exact ⟨fun h => ⟨.inr h.1, h.2⟩, fun h =>
          ⟨h.1.resolve_left fun hv => hblock (hv ▸ h.2.1), h.2⟩⟩

/-- **What `sendMaj23SignAggr` collects**: the bits of the votes for the block and their
signatures, if every vote stands at the index of its validator. -/
theorem collectVotes_eq {valSet : ValidatorSet} {votes : List (Option Vote)}
    (hlength : votes.length = valSet.size)
    (hindex : ∀ (i : ℕ) v, votes[i]? = some (some v) → v.blockID = blockID → v.validatorIndex = i) :
    (collectVotes valSet.size blockID votes).1 = votesFor blockID votes ∧
      (collectVotes valSet.size blockID votes).2.1 =
        (valSet.ballots blockID votes).map fun b => b.2.signature := by
  refine ⟨bitArray_ext ?_ fun i => ?_, foldl_collectVote_signatures _ votes hlength _⟩
  · unfold collectVotes
    rw [foldl_collectVote_length, votesFor, List.length_map, List.length_replicate, hlength]
  · unfold collectVotes
    rw [foldl_collectVote_bits, getElem?_votesFor]
    constructor
    · rintro (hbit | ⟨-, v, hmem, hblock, rfl⟩)
      · simp [List.getElem?_replicate] at hbit
      · obtain ⟨j, hj⟩ := List.mem_iff_getElem?.1 hmem
        exact ⟨v, hindex j v hj hblock ▸ hj, hblock⟩
    · rintro ⟨v, hv, hblock⟩
      have hlt := (List.getElem?_eq_some_iff.1 hv).1
      exact .inr ⟨by simpa [← hlength] using hlt, v, List.mem_of_getElem? hv, hblock,
        hindex i v hv hblock⟩

/-! ## The aggregate that is sent -/

variable {env : Env} {now : ℤ} {cs cs' : ConsensusState} {voteSet voteSet' : VoteSet} {vote : Vote}
  {val : Validator}

/-- `uint64(int(r))` is `r`. -/
theorem toUint64_ofUint64 {r : ℕ} (h : r < 2 ^ 64) : toUint64 (ofUint64 r) = r := by
  unfold toUint64 ofUint64
  rw [Int.bmod_def]
  omega

/-- The vote set is that of the state's round, for the type of the vote. -/
structure InRound (cs : ConsensusState) (type_ : ℕ) (voteSet : VoteSet) : Prop where
  chainID : voteSet.chainID = cs.votes.chainID
  height : voteSet.height = cs.height
  round : voteSet.round = cs.round
  type_ : voteSet.type_ = type_
  valSet : voteSet.valSet = cs.validators

/-- **The aggregate of the majority**: it names the validators with a vote for the block in the
entry of its key, and whoever has these validators judges it by their power. -/
structure Aggregate (L : Libs) (cs : ConsensusState) (voteSet : VoteSet) (vote : Vote)
    (s : SignAggr) : Prop where
  blockID : s.blockID = vote.blockID
  maj23 : s.maj23 = vote.blockID
  round : s.round = cs.round
  bitArray : s.bitArray = some (votesFor vote.blockID (voteSet.entryWith vote))
  verdict : cs.validators.blsVerifySignAggr L s =
    .ok (decide (loose23MajorThreshold cs.validators.totalPower cs.round ≤
      cs.validators.powerOf (votesFor vote.blockID (voteSet.entryWith vote))))

/-- The signatures for the block of the majority are over one message. -/
theorem ballots_verify (hround : cs.InRound vote.type_ voteSet) {votes : List (Option Vote)}
    (hverified : ∀ (i : ℕ) v, votes[i]? = some (some v) → v.blockID = vote.blockID →
      voteSet.Verified env.libs i v) {b : Validator × Vote}
    (hb : b ∈ cs.validators.ballots vote.blockID votes) :
    b.1 ∈ cs.validators.validators ∧ env.libs.verifyBytes b.1.pubKey
      (env.libs.signBytes cs.votes.chainID
        ⟨vote.blockID, cs.height, toUint64 cs.round, vote.type_⟩) b.2.signature = true := by
  obtain ⟨val, v⟩ := b
  obtain ⟨hblock, i, hval, hv⟩ := ValidatorSet.mem_ballots.1 hb
  have hvote := hverified i v hv hblock
  obtain ⟨w, hw, hsignature⟩ := hvote.signature
  rw [hround.valSet, hval] at hw
  cases hw
  have hmsg : canonicalVote v = ⟨vote.blockID, cs.height, toUint64 cs.round, vote.type_⟩ := by
    rw [canonicalVote, hblock, hvote.height, hvote.type_, hround.height, hround.type_,
      ← hround.round, ← hvote.round, toUint64_ofUint64 hvote.typed.round]
  rw [← hround.chainID, ← hmsg]
  exact ⟨List.mem_of_getElem? hval, hsignature⟩

/-- What `sendMaj23SignAggr` sends when the signatures aggregate. -/
theorem sendMaj23SignAggr_eq {type_ : ℕ} {maj23 : BlockID} {signature : Signature}
    (htype : isVoteTypeValid type_ = true) (hset : cs.votes.setOf cs.round type_ = some voteSet)
    (hmaj23 : voteSet.maj23 = some maj23)
    (haggr : env.libs.blsSignatureAggregate
      (collectVotes cs.validators.size maj23 voteSet.votes).2.1 = some signature)
    (hnonzero : maj23.isZero = false) :
    cs.sendMaj23SignAggr env type_ =
      let collected := collectVotes cs.validators.size maj23 voteSet.votes
      let s := { makeSignAggr cs.height cs.round type_ cs.validators.size maj23 cs.votes.chainID
        collected.1 (some signature) with signBytes := collected.2.2 }
      (cs.emit (.signAggr s)).sendInternalMessage (.maj23SignAggr (some s)) := by
  have hvotes : (if type_ = voteTypePrevote then cs.votes.prevotes cs.round
      else if type_ = voteTypePrecommit then cs.votes.precommits cs.round
      else none) = some voteSet := by
    rw [← hset, HeightVoteSet.setOf]
    split_ifs with hprevote hprecommit
    · rfl
    · rfl
    · exact absurd (HeightVoteSet.type_eq_precommit htype hprevote) hprecommit
  unfold sendMaj23SignAggr
  simp only [hvotes, Option.bind_some, hmaj23, haggr, hnonzero, Bool.false_eq_true, if_false]

/-- **`sendMaj23SignAggr` with the votes of a majority.** -/
theorem sendMaj23SignAggr_crosses (hlib : cs.validators.AggregatesVerify env.libs)
    (hround : cs.InRound vote.type_ voteSet) (htype : isVoteTypeValid vote.type_ = true)
    (htyped : vote.Typed) (hgathers : voteSet.Gathers env.libs)
    (haccepts : voteSet.Accepts env.libs vote val) (hcrosses : voteSet.Crosses vote val voteSet')
    (hset : cs.votes.setOf cs.round vote.type_ = some voteSet')
    (hnonzero : vote.blockID.isZero = false) :
    ∃ s, Aggregate env.libs cs voteSet vote s ∧ cs.sendMaj23SignAggr env vote.type_ =
      (cs.emit (.signAggr s)).sendInternalMessage (.maj23SignAggr (some s)) := by
  have hsize : voteSet'.votes.length = cs.validators.size := by
    rw [hcrosses.length, hround.valSet]
  have hverified := hcrosses.verified hgathers haccepts htyped
  have hentry := hcrosses.votesFor_eq hgathers
  obtain ⟨hbits, hsigs⟩ := @collectVotes_eq vote.blockID cs.validators voteSet'.votes hsize
    fun i v hv hblock => (hverified i v hv hblock).index
  have hval : cs.validators.validators[vote.validatorIndex]? = some val :=
    hround.valSet ▸ haccepts.validator
  have hown : (val, vote) ∈ cs.validators.ballots vote.blockID voteSet'.votes := by
    refine ValidatorSet.mem_ballots.2 ⟨rfl, vote.validatorIndex, hval, ?_⟩
    rw [hcrosses.votes _ _ rfl, haccepts.getElem?_entryWith]
    exact .inl ⟨rfl, rfl⟩
  obtain ⟨pubKey, signature, hkey, haggr, hverify⟩ := hlib
    ((cs.validators.ballots vote.blockID voteSet'.votes).map
      fun b => (b.1.pubKey, b.2.signature)) _
    (List.ne_nil_of_mem (List.mem_map_of_mem hown)) (by
      intro p hp
      obtain ⟨b, hb, rfl⟩ := List.mem_map.1 hp
      obtain ⟨hmem, hvalid⟩ := ballots_verify hround hverified hb
      exact ⟨⟨b.1, hmem, rfl⟩, hvalid⟩)
  rw [List.map_map] at hkey haggr
  have hsend := @sendMaj23SignAggr_eq env cs voteSet' vote.type_ vote.blockID signature htype hset
    hcrosses.maj23 (by rw [hsigs]; exact haggr) hnonzero
  refine ⟨_, ⟨rfl, rfl, rfl, congrArg some (hbits.trans hentry), ?_⟩, hsend⟩
  refine ValidatorSet.blsVerifySignAggr_of_verify (congrArg some (hbits.trans hentry)) rfl ?_
    (List.mem_of_getElem? hval) ?_ hverify
  · rw [← hentry, votesFor, List.length_map, hsize]
  · rw [← hentry, ValidatorSet.pubKeysOf_votesFor]
    exact hkey

theorem sendMaj23SignAggr_votes (type_ : ℕ) :
    (cs.sendMaj23SignAggr env type_).votes = cs.votes ∧
      (cs.sendMaj23SignAggr env type_).round = cs.round := by
  unfold sendMaj23SignAggr
  dsimp only
  split
  · split
    · exact ⟨rfl, rfl⟩
    · split_ifs <;> exact ⟨rfl, rfl⟩
  · exact ⟨rfl, rfl⟩

/-- The part of `addVote` for the proposer and a vote of its height and round. -/
theorem addVote_eq_ok {peerKey : String} {err : Option HeightVoteSet.AddVoteError}
    (hadd : cs.addVote env now (some vote) peerKey = .ok (cs', true, err)) :
    ∃ p f i votes, ofUint64 vote.round = cs.round ∧
      hasTwoThirdsMajority (cs.votes.setOf cs.round vote.type_) = false ∧
      cs.votes.addVote env.libs vote peerKey = .ok (votes, true, err) ∧
      let counted : ConsensusState :=
        { cs with proposer := p, isProposerFlag := f, vrfValIndex := i, votes := votes }
      cs' = if hasTwoThirdsMajority (votes.setOf cs.round vote.type_) then
          counted.sendMaj23SignAggr env vote.type_
        else counted := by
  unfold ConsensusState.addVote at hadd
  obtain ⟨⟨cs₁, isProposer⟩, hproposer, hadd⟩ := Steps.bind_eq_ok.1 hadd
  obtain ⟨p, f, i, rfl⟩ := isProposer_eq hproposer
  dsimp only at hadd
  split at hadd
  · cases hadd
  split at hadd
  · cases hadd
  next hplace =>
  push Not at hplace
  change (if hasTwoThirdsMajority (cs.votes.setOf cs.round vote.type_) = true then _ else _) = _
    at hadd
  split at hadd
  · cases hadd
  next hopen =>
  obtain ⟨⟨votes, added, err'⟩, hvotes, hadd⟩ := Steps.bind_eq_ok.1 hadd
  obtain ⟨rfl, hrest⟩ := Prod.mk.inj (Except.ok.inj hadd)
  obtain ⟨rfl, rfl⟩ := Prod.mk.inj hrest
  exact ⟨p, f, i, votes, hplace.2, by simpa using hopen, hvotes, rfl⟩

/-- **The vote that brings a majority makes the proposer send the aggregate.** -/
theorem addVote_sends (hlib : cs.validators.AggregatesVerify env.libs)
    (hround : cs.InRound vote.type_ voteSet) (htyped : vote.Typed)
    (hgathers : voteSet.maj23 = none → voteSet.Gathers env.libs)
    (hset : cs.votes.setOf cs.round vote.type_ = some voteSet) {peerKey : String}
    {err : Option HeightVoteSet.AddVoteError}
    (hadd : cs.addVote env now (some vote) peerKey = .ok (cs', true, err)) {blockID : BlockID}
    (hmaj23 : (cs'.votes.setOf cs'.round vote.type_).bind VoteSet.maj23 = some blockID)
    (hnonzero : blockID.isZero = false) :
    ∃ s val, voteSet.Gathers env.libs ∧ voteSet.Accepts env.libs vote val ∧
      Aggregate env.libs cs voteSet vote s ∧
      cs'.out = .internal (.maj23SignAggr (some s)) :: .signAggr s :: cs.out := by
  obtain ⟨p, f, i, votes, hvoteRound, hopen, hvotes, hresult⟩ := addVote_eq_ok hadd
  dsimp only at hresult
  have hset₀ := hset
  rw [← hvoteRound] at hset
  obtain ⟨htype, hchain, voteSet', err', hvoteSet, hset'⟩ := HeightVoteSet.addVote_setOf hset hvotes
  rw [hvoteRound] at hset'
  have hnone : voteSet.maj23 = none := by
    rw [hset₀] at hopen
    simpa [hasTwoThirdsMajority] using hopen
  -- the vote sets are those after the vote, whether or not the aggregate is sent
  have hkept : cs'.votes = votes ∧ cs'.round = cs.round := by
    rw [hresult]
    split_ifs
    · exact sendMaj23SignAggr_votes _
    · exact ⟨rfl, rfl⟩
  rw [hkept.1, hkept.2, hset', Option.bind_some] at hmaj23
  rcases (hgathers hnone).addVote htyped hvoteSet with hstill | ⟨val, haccepts, hcrosses⟩
  · exact absurd (hstill.maj23.symm.trans hmaj23).symm (Option.some_ne_none _)
  obtain rfl : vote.blockID = blockID := Option.some.inj (hcrosses.maj23.symm.trans hmaj23)
  have hmajority : hasTwoThirdsMajority (votes.setOf cs.round vote.type_) = true := by
    rw [hset', hasTwoThirdsMajority, Option.bind_some, hmaj23]
    rfl
  rw [if_pos hmajority] at hresult
  obtain ⟨s, ⟨hblock, hmaj, hs, hbits, hverdict⟩, hsend⟩ := @sendMaj23SignAggr_crosses env
    { cs with proposer := p, isProposerFlag := f, vrfValIndex := i, votes := votes } voteSet voteSet'
    vote val hlib ⟨hround.chainID.trans hchain.symm, hround.height, hround.round, hround.type_,
      hround.valSet⟩ htype htyped (hgathers hnone) haccepts hcrosses hset' hnonzero
  exact ⟨s, val, hgathers hnone, haccepts, ⟨hblock, hmaj, hs, hbits, hverdict⟩, by
    rw [hresult, hsend]
    rfl⟩

/-- **A complete aggregate**: it names exactly the validators that voted for the block, their
power reaches the threshold of the round, and everyone with the same validators accepts it. -/
structure Complete (L : Libs) (cs : ConsensusState) (voteSet : VoteSet) (vote : Vote)
    (s : SignAggr) : Prop where
  blockID : s.blockID = vote.blockID ∧ s.maj23 = vote.blockID
  named : ∃ bits, s.bitArray = some bits ∧
    (∀ i : ℕ, bits[i]? = some true ↔ voteSet.VotedFor L vote i) ∧
    loose23MajorThreshold cs.validators.totalPower cs.round ≤ cs.validators.powerOf bits
  accepted : ∀ other : ConsensusState, other.validators = cs.validators →
    other.validators.blsVerifySignAggr L s = .ok true

/-- **Aggregate completeness.**  The vote set of the round is what any calls to `AddVote` and
`SetPeerMaj23` made of a new one, and the vote brings a majority for a block.  The aggregate that
is sent then is complete exactly if the votes that share the key of the block, and are for another
one, hold no more power than the tally has over the quorum. -/
theorem addVote_complete_iff (hlib : cs.validators.AggregatesVerify env.libs) {start : VoteSet}
    (hnew : newVoteSet cs.votes.chainID cs.height cs.round vote.type_ cs.validators = .ok start)
    {calls : List VoteSet.Call}
    (hcalls : Steps.RunMeets (VoteSet.call env.libs) VoteSet.CallTyped start calls)
    (hrun : calls.foldlM (VoteSet.call env.libs) start = .ok voteSet)
    (hset : cs.votes.setOf cs.round vote.type_ = some voteSet) (htyped : vote.Typed)
    {peerKey : String} {err : Option HeightVoteSet.AddVoteError}
    (hadd : cs.addVote env now (some vote) peerKey = .ok (cs', true, err)) {blockID : BlockID}
    (hmaj23 : (cs'.votes.setOf cs'.round vote.type_).bind VoteSet.maj23 = some blockID)
    (hnonzero : blockID.isZero = false) :
    (∃ s, cs'.out = .internal (.maj23SignAggr (some s)) :: .signAggr s :: cs.out ∧
        Complete env.libs cs voteSet vote s) ↔
      voteSet.collidingPower vote.blockID ≤ voteSet.surplus vote := by
  have hround : cs.InRound vote.type_ voteSet := by
    obtain ⟨hchain, hheight, hround, htype, hvalSet⟩ := VoteSet.sameHeader_of_run hrun
    obtain ⟨hchain₀, hheight₀, hround₀, htype₀, hvalSet₀⟩ := VoteSet.newVoteSet_header hnew
    exact ⟨hchain.trans hchain₀, hheight.trans hheight₀, hround.trans hround₀, htype.trans htype₀,
      hvalSet.trans hvalSet₀⟩
  obtain ⟨s, val, hgathers, haccepts, haggr, hout⟩ := addVote_sends hlib hround htyped
    (VoteSet.gathers_of_run hnew hcalls hrun) hset hadd hmaj23 hnonzero
  have hpower := hgathers.powerOf_votesFor haccepts
  have hquorum : voteSet.quorum =
      loose23MajorThreshold cs.validators.totalPower cs.round := by
    rw [VoteSet.quorum, hround.valSet, hround.round]
  rw [hround.valSet, hquorum] at hpower
  constructor
  · rintro ⟨s', hout', hcomplete⟩
    obtain rfl : s' = s := by
      rw [hout] at hout'
      simpa using hout'.symm
    obtain ⟨bits, hbits, -, hreached⟩ := hcomplete.named
    obtain rfl := Option.some.inj (haggr.bitArray.symm.trans hbits)
    omega
  · intro hcollide
    have hreached : loose23MajorThreshold cs.validators.totalPower cs.round ≤
        cs.validators.powerOf (votesFor vote.blockID (voteSet.entryWith vote)) := by omega
    refine ⟨s, hout, ⟨haggr.blockID, haggr.maj23⟩, ⟨_, haggr.bitArray, fun i => ?_, hreached⟩,
      fun other hother => ?_⟩
    · exact hgathers.getElem?_votesFor_iff haccepts htyped i
    · rw [hother, haggr.verdict, decide_eq_true hreached]

/-- The vote sets of a new height are new. -/
theorem Started.setOf {cs : ConsensusState} (h : Started env cs) {type_ : ℕ}
    (htype : isVoteTypeValid type_ = true) :
    ∃ voteSet, newVoteSet cs.votes.chainID cs.height cs.round type_ cs.validators = .ok voteSet ∧
      cs.votes.setOf cs.round type_ = some voteSet := by
  obtain ⟨ntcExtra, validators, privValidator, blockFromMiner, h⟩ := h
  unfold startNewHeight at h
  obtain ⟨votes, hvotes, h⟩ := Steps.bind_eq_ok.1 h
  cases h
  obtain ⟨rvs, ⟨hpre, hcom⟩, rfl⟩ := HeightVoteSet.addRound_blank hvotes
  refine ⟨rvs.ofType type_, ?_, HeightVoteSet.setOf_eq_some.2 ⟨rvs, AList.lookup_insert _, rfl⟩⟩
  unfold RoundVoteSet.ofType
  split_ifs with hprevote
  · exact hprevote ▸ hpre
  · exact HeightVoteSet.type_eq_precommit htype hprevote ▸ hcom

end ConsensusState

/-! ## A vote that shares a key -/

open ConsensusState

theorem plain_aggregate {signers : List (PubKey × Signature)} {msg : Bytes}
    (hkeys : ∀ p ∈ signers, p.1.length = 1 ∧ p.2 = PlainLibs.sign p.1 msg) :
    (signers.map Prod.snd).filterMap List.head? = (signers.map Prod.fst).flatten := by
  induction signers with
  | nil => rfl
  | cons p signers ih =>
    obtain ⟨⟨hlength, hsign⟩, hrest⟩ := List.forall_mem_cons.1 hkeys
    obtain ⟨b, hb⟩ := List.length_eq_one_iff.1 hlength
    simp [hsign, hb, PlainLibs.sign, ih hrest]

/-- The plain-text libraries aggregate the signatures of one-byte keys. -/
theorem PlainEnv.aggregatesVerify {valSet : ValidatorSet}
    (hkeys : ∀ val ∈ valSet.validators, val.pubKey.length = 1) :
    valSet.AggregatesVerify PlainEnv.env.libs := by
  intro signers msg hne hsigned
  have hplain : ∀ p ∈ signers, p.1.length = 1 ∧ p.2 = PlainLibs.sign p.1 msg := fun p hp => by
    obtain ⟨⟨val, hval, hkey⟩, hverify⟩ := hsigned p hp
    exact ⟨hkey ▸ hkeys val hval, eq_of_beq hverify⟩
  obtain ⟨p, rest, rfl⟩ := List.exists_cons_of_ne_nil hne
  have hfirst := hplain p List.mem_cons_self
  obtain ⟨b, hb⟩ := List.length_eq_one_iff.1 hfirst.1
  refine ⟨((p :: rest).map Prod.fst).flatten, ((p :: rest).map Prod.fst).flatten ++ msg, rfl, ?_,
    beq_self_eq_true _⟩
  show some (((p :: rest).map Prod.snd).filterMap List.head? ++ p.2.tail) = _
  rw [plain_aggregate hplain, hfirst.2, hb]
  rfl

/-- A prevote of the first round for a block. -/
def PlainEnv.prevoteFor (key : UInt8) (blockID : BlockID) : Vote :=
  (PlainEnv.privValidator key).signVote PlainEnv.libs PlainEnv.chainID
    { validatorAddress := [key]
      validatorIndex := key.toNat - 1
      height := 1
      round := 0
      type_ := voteTypePrevote
      blockID := blockID
      signature := []
      signBytes := [] }

/-- The set of prevotes has a majority for a block. -/
def PlainEnv.hasMajority (cs : ConsensusState) : Bool :=
  ((cs.votes.setOf cs.round voteTypePrevote).bind VoteSet.maj23).any fun b => !b.isZero

/-- The equivalence at the first vote of a validator that has a majority alone. -/
theorem addVote_complete_iff_first : ∃ cs cs' voteSet err, PlainEnv.start 2 = .ok cs ∧
    cs.addVote PlainEnv.env 0 (some (PlainEnv.prevoteFor 1 (PlainEnv.blockID 7))) "peer" =
      .ok (cs', true, err) ∧
    cs.votes.setOf cs.round voteTypePrevote = some voteSet ∧
    ((∃ s, cs'.out = .internal (.maj23SignAggr (some s)) :: .signAggr s :: cs.out ∧
        Complete PlainEnv.env.libs cs voteSet (PlainEnv.prevoteFor 1 (PlainEnv.blockID 7)) s) ↔
      voteSet.collidingPower (PlainEnv.blockID 7) ≤
        voteSet.surplus (PlainEnv.prevoteFor 1 (PlainEnv.blockID 7))) := by
  obtain ⟨cs, hstart, hvalidators, ⟨cs', added, err⟩, hadd, rfl, hmaj⟩ :
      ∃ cs, PlainEnv.start 2 = .ok cs ∧ cs.validators = PlainEnv.validators ∧
        ∃ r, cs.addVote PlainEnv.env 0 (some (PlainEnv.prevoteFor 1 (PlainEnv.blockID 7))) "peer" =
          .ok r ∧ r.2.1 = true ∧ PlainEnv.hasMajority r.1 = true := by
    decide +kernel
  obtain ⟨blockID, hblock, hnonzero⟩ := (Option.any_eq_true _ _).1 hmaj
  obtain ⟨voteSet, hnew, hset⟩ := @Started.setOf PlainEnv.env cs ⟨_, _, _, _, hstart⟩
    voteTypePrevote rfl
  refine ⟨cs, cs', voteSet, err, hstart, hadd, hset, ?_⟩
  refine @addVote_complete_iff PlainEnv.env 0 cs cs' voteSet _ (PlainEnv.aggregatesVerify ?_) _ hnew
    [] trivial rfl hset ⟨by decide, by decide⟩ _ _ hadd _ hblock (by simpa using hnonzero)
  rw [hvalidators]
  decide

/-- The block that the validators vote for. -/
def PlainEnv.agreed : BlockID := ⟨[7], ⟨1, [0, 0, 0, 0, 0, 0, 0, 1, 0]⟩⟩

/-- An identifier with its key: the hash takes in the total and the first bytes of the root. -/
def PlainEnv.colliding : BlockID := ⟨[7, 0, 0, 0, 0, 0, 0, 0, 1, 1, 9], ⟨1, []⟩⟩

/-- Two votes for the block, and one for the other identifier. -/
def PlainEnv.collidingVotes : List (ℤ × Event) :=
  [(0, .msg (.vote (some (PlainEnv.prevoteFor 1 PlainEnv.agreed))) "peer"),
    (0, .msg (.vote (some (PlainEnv.prevoteFor 2 PlainEnv.agreed))) "peer"),
    (0, .msg (.vote (some (PlainEnv.prevoteFor 3 PlainEnv.colliding))) "peer")]

/-- An aggregate for a block that validators refuse for its power. -/
def PlainEnv.refused (valSet : ValidatorSet) : Effect → Bool
  | .signAggr s => !s.maj23.isZero && decide (s.bitArray = some [false, false, true, false]) &&
      match valSet.blsVerifySignAggr PlainEnv.libs s with
      | .ok verdict => !verdict
      | .error _ => false
  | _ => false

/-- **One vote for an identifier that shares the key spoils the aggregate**: of four validators
two vote for a block and a third for the other identifier.  This is a majority for the latter, and
the aggregate that is sent names one validator of four. -/
theorem colliding_vote_spoils_aggregate :
    PlainEnv.colliding.key = PlainEnv.agreed.key ∧
    ∃ cs₀ cs s, startNewHeight PlainEnv.env PlainEnv.lastExtra VoteSet.fourValidators
        (some (PlainEnv.privValidator 1)) none = .ok cs₀ ∧
      run PlainEnv.env cs₀ PlainEnv.collidingVotes = .ok cs ∧
      Effect.signAggr s ∈ cs.out ∧ s.maj23.isZero = false ∧
      s.bitArray = some [false, false, true, false] ∧
      VoteSet.fourValidators.blsVerifySignAggr PlainEnv.libs s = .ok false := by
  refine ⟨by decide +kernel, ?_⟩
  obtain ⟨cs₀, hstart, cs, hrun, hcs⟩ : ∃ cs₀, startNewHeight PlainEnv.env PlainEnv.lastExtra
        VoteSet.fourValidators (some (PlainEnv.privValidator 1)) none = .ok cs₀ ∧
      ∃ cs, run PlainEnv.env cs₀ PlainEnv.collidingVotes = .ok cs ∧
        cs.out.any (PlainEnv.refused VoteSet.fourValidators) = true := by
    decide +kernel
  obtain ⟨e, hmem, he⟩ := List.any_eq_true.1 hcs
  unfold PlainEnv.refused at he
  split at he
  next s =>
    simp only [Bool.and_eq_true, Bool.not_eq_true', decide_eq_true_eq] at he
    refine ⟨cs₀, cs, s, hstart, hrun, hmem, he.1.1, he.1.2, ?_⟩
    obtain ⟨-, hverdict⟩ := he
    split at hverdict
    next verdict hv =>
      rw [hv]
      simpa using hverdict
    next => cases hverdict
  next => cases he

end Consensus
end LigoChain

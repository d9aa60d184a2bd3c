/-
# Where votes and aggregates come from

When every validator runs the code, a vote on the wire was signed by the validator it
names, and an aggregate on the wire was made by `sendMaj23SignAggr` from such votes
(`chain/consensus/tendermint/consensus/state.go`).  `MessageInv` says so of one validator,
relative to a record `Signed` of who signed what: of the votes it has counted, of the
messages it has sent, of the aggregates it has stored, and of the blocks it has finalized.

`Move.messageInv` is the step: a move keeps `MessageInv` if the message being handled, and
the votes the validator signs itself, are on record.
-/

import LigoChain.Consensus.LocalInvariant

namespace LigoChain
namespace Consensus

open GoInt

/-- The message that an effect carries, to the validator itself or over the wire. -/
def Effect.message : Effect → Option Message
  | .internal msg => some msg
  | .gossip msg => some msg
  | .vote2Proposer vote _ => some (.vote (some vote))
  | .signAggr s => some (.maj23SignAggr (some s))
  | _ => none

variable {L : Libs} {e : Event} {v v' : View} {Signed : ℕ → Vote → Prop}

/-- The vote was signed by the validator it names, for a round that is an `int`. -/
structure VoteOnRecord (Signed : ℕ → Vote → Prop) (vote : Vote) : Prop where
  signed : Signed vote.validatorIndex vote
  isInt : IsInt vote.round

/-- Each bit of the aggregate stands for a vote on record, for the block of the aggregate. -/
structure Attested (Signed : ℕ → Vote → Prop) (s : SignAggr) : Prop where
  nonneg : 0 ≤ s.round
  bits : ∀ bits i, s.bitArray = some bits → bits[i]? = some true →
    ∃ vote, Signed i vote ∧ vote.type_ = s.type_ ∧ (vote.round : ℤ) = s.round ∧
      vote.blockID = s.maj23

/-- The votes and aggregates in a message are on record. -/
def MessageOK (Signed : ℕ → Vote → Prop) : Message → Prop
  | .vote (some vote) => VoteOnRecord Signed vote
  | .maj23SignAggr (some s) => Attested Signed s
  | _ => True

/-- Where the votes and aggregates of a validator come from. -/
structure MessageInv (L : Libs) (Signed : ℕ → Vote → Prop) (v : View) : Prop where
  votes : v.votes.Holds (VoteOnRecord Signed)
  sent : ∀ x ∈ v.out, ∀ msg, x.message = some msg → MessageOK Signed msg
  stored : StoredInv L (Attested Signed) v
  final : ∀ block, .finalizeCommit block ∈ v.out → ∃ s, Verified L v.height v.validators s ∧
    s.type_ = voteTypePrecommit ∧ Attested Signed s ∧
    NCBlock.hashesTo L (some block) s.maj23.hash = .ok true

/-! ## A record that grows -/

section Mono

variable {Signed' : ℕ → Vote → Prop} (hmono : ∀ i vote, Signed i vote → Signed' i vote)
include hmono

theorem VoteOnRecord.mono {vote : Vote} (h : VoteOnRecord Signed vote) :
    VoteOnRecord Signed' vote := ⟨hmono _ _ h.signed, h.isInt⟩

theorem Attested.mono {s : SignAggr} (h : Attested Signed s) : Attested Signed' s := by
  refine ⟨h.nonneg, fun bits i hbits hi => ?_⟩
  obtain ⟨vote, hvote, hrest⟩ := h.bits bits i hbits hi
  exact ⟨vote, hmono i vote hvote, hrest⟩

theorem MessageOK.mono {msg : Message} (h : MessageOK Signed msg) : MessageOK Signed' msg := by
  unfold MessageOK at h ⊢
  split
  · exact VoteOnRecord.mono hmono h
  · exact Attested.mono hmono h
  · trivial

theorem MessageInv.mono (h : MessageInv L Signed v) : MessageInv L Signed' v where
  votes := h.votes.mono fun _ hvote => hvote.mono hmono
  sent x hx msg hmsg := (h.sent x hx msg hmsg).mono hmono
  stored :=
    ⟨fun r s hs => let ⟨h1, h2, h3, h4⟩ := h.stored.prevotes r s hs; ⟨h1, h2, h3, h4.mono hmono⟩,
      fun r s hs => let ⟨h1, h2, h3, h4⟩ := h.stored.precommits r s hs; ⟨h1, h2, h3, h4.mono hmono⟩,
      fun s hs => let ⟨h1, h2, h3⟩ := h.stored.prevoteMaj23 s hs; ⟨h1, h2, h3.mono hmono⟩⟩
  final block hblock :=
    let ⟨s, h1, h2, h3, h4⟩ := h.final block hblock
    ⟨s, h1, h2, h3.mono hmono, h4⟩

end Mono

/-! ## Aggregates from votes -/

/-- A bit that `collectVotes` sets is the index of a vote for the block. -/
theorem collectVotes_bit {n : ℕ} {maj23 : BlockID} {votes : List (Option Vote)} {i : ℕ}
    (h : (ConsensusState.collectVotes n maj23 votes).1[i]? = some true) :
    ∃ vote, some vote ∈ votes ∧ vote.validatorIndex = i ∧ vote.blockID = maj23 := by
  -- along the loop, a set bit was set at the start or comes from a vote passed by
  have hloop : ∀ (votes : List (Option Vote)) (acc : BitArray × List Signature × Bytes),
      (votes.foldl (ConsensusState.collectVote maj23) acc).1[i]? = some true →
      acc.1[i]? = some true ∨
        ∃ vote, some vote ∈ votes ∧ vote.validatorIndex = i ∧ vote.blockID = maj23 := by
    intro votes
    induction votes with
    | nil => exact fun acc h => .inl h
    | cons x votes ih =>
      intro acc h
      rw [List.foldl_cons] at h
      rcases ih _ h with hacc | ⟨vote, hmem, hvote⟩
      · cases x with
        | none => exact .inl hacc
        | some vote =>
          by_cases hblock : vote.blockID = maj23
          · simp only [ConsensusState.collectVote, hblock, if_true] at hacc
            by_cases hi : vote.validatorIndex = i
            · exact .inr ⟨vote, List.mem_cons_self, hi, hblock⟩
            · rw [List.getElem?_set_ne hi] at hacc
              exact .inl hacc
          · simp only [ConsensusState.collectVote, hblock, if_false] at hacc
            exact .inl hacc
      · exact .inr ⟨vote, List.mem_cons_of_mem _ hmem, hvote⟩
  rcases hloop votes _ h with hstart | hvote
  · rw [List.getElem?_replicate] at hstart
    split_ifs at hstart
    simp at hstart
  · exact hvote

/-- **An aggregate that the code makes is attested.** -/
theorem Formed.attested {s : SignAggr} (h : Formed v s) (hr : RoundInv v)
    (hvotes : v.votes.Holds (VoteOnRecord Signed)) : Attested Signed s := by
  refine ⟨h.round.ge.trans' hr.nonneg, fun bits i hbits hi => ?_⟩
  obtain ⟨voteSet, hset, hcollected⟩ := h.votes
  obtain rfl := Option.some.inj (hbits.symm.trans hcollected)
  obtain ⟨vote, hmem, hindex, hblock⟩ := collectVotes_bit hi
  have hheld : VoteOnRecord Signed vote ∧ ofUint64 vote.round = v.round ∧ vote.type_ = s.type_ := by
    rcases hset with ⟨htype, hset⟩ | ⟨htype, hset⟩
    · obtain ⟨rvs, hrvs, rfl⟩ := Option.map_eq_some_iff.1 hset
      obtain ⟨hvote, -, hround, hvtype⟩ := (hvotes _ _ hrvs).1.votes.votes vote hmem
      exact ⟨hvote, hround, hvtype.trans htype.symm⟩
    · obtain ⟨rvs, hrvs, rfl⟩ := Option.map_eq_some_iff.1 hset
      obtain ⟨hvote, -, hround, hvtype⟩ := (hvotes _ _ hrvs).2.votes.votes vote hmem
      exact ⟨hvote, hround, hvtype.trans htype.symm⟩
  obtain ⟨hvote, hround, htype⟩ := hheld
  have hcast : ofUint64 vote.round = vote.round := wrapInt_of_isInt hvote.isInt
  exact ⟨vote, hindex ▸ hvote.signed, htype, hcast.symm.trans (hround.trans h.round.symm),
    hblock.trans h.blockID.symm⟩

/-! ## What a move sends -/

/-- A message that a move adds carries a vote that was signed, or an aggregate made or stored. -/
theorem Effect.From.messageOK {new : List Effect} {x : Effect} {msg : Message}
    (h : x.From L v new) (hr : RoundInv v) (hv : MessageInv L Signed v)
    (hown : ∀ vote, .signVote vote ∈ new → VoteOnRecord Signed vote)
    (hmsg : x.message = some msg) : MessageOK Signed msg := by
  have hformed : ∀ {s}, Formed v s → Attested Signed s := fun hs => hs.attested hr hv.votes
  cases x with
  | internal m =>
    cases hmsg
    cases msg with
    | vote vote? => cases vote? with
      | none => trivial
      | some vote => exact hown vote h
    | maj23SignAggr s? => cases s? with
      | none => trivial
      | some s => exact hformed h
    | _ => trivial
  | gossip m =>
    cases hmsg
    cases msg with
    | vote vote? => cases h
    | maj23SignAggr s? => cases s? with
      | none => trivial
      | some s =>
        obtain ⟨r, hs | hs⟩ := h
        · exact (hv.stored.prevotes r s hs).2.2.2
        · exact (hv.stored.precommits r s hs).2.2.2
    | _ => trivial
  | vote2Proposer vote peerKey =>
    cases hmsg
    exact hown vote h
  | signAggr s =>
    cases hmsg
    exact hformed h
  | _ => cases hmsg

/-- **What a move sends is on record**, if the votes it signs are. -/
theorem Move.sent (h : Move L e v v') (hr : RoundInv v) (hv : MessageInv L Signed v)
    (hown : ∀ vote, .signVote vote ∈ v'.out → VoteOnRecord Signed vote) :
    ∀ x ∈ v'.out, ∀ msg, x.message = some msg → MessageOK Signed msg := by
  obtain ⟨new, hout, hnew⟩ := h.adds
  rw [hout] at hown ⊢
  intro x hx msg hmsg
  rcases List.mem_append.1 hx with hx | hx
  · exact (hnew x hx).messageOK hr hv (fun vote hvote => hown vote (List.mem_append_left _ hvote)) hmsg
  · exact hv.sent x hx msg hmsg

theorem Move.signed (h : Move L e v v') {vote : Vote} (hvote : .signVote vote ∈ v'.out) :
    .signVote vote ∈ v.out ∨ ∃ type_ blockID, IsVote v type_ blockID vote := by
  obtain ⟨new, hout, hnew⟩ := h.adds
  rw [hout, List.mem_append] at hvote
  exact hvote.symm.imp_right (hnew _)

/-- A finalized block is new only in `finalize`. -/
theorem Move.finalized (h : Move L e v v') {block : NCBlock}
    (hblock : .finalizeCommit block ∈ v'.out) : .finalizeCommit block ∈ v.out ∨
      ∃ s, v.voteSignAggr.precommits v.commitRound = some s ∧
        NCBlock.hashesTo L (some block) s.maj23.hash = .ok true := by
  obtain ⟨new, hout, hnew⟩ := h.adds
  rw [hout, List.mem_append] at hblock
  exact hblock.symm.imp_right (hnew _)

/-- **Every move keeps the provenance of messages**, if the message being handled and the
votes signed are on record. -/
theorem Move.messageInv (h : Move L e v v') (hr : RoundInv v)
    (hown : ∀ vote, .signVote vote ∈ v'.out → VoteOnRecord Signed vote)
    (hmsg : ∀ msg peerKey, e = .msg msg peerKey → MessageOK Signed msg)
    (hv : MessageInv L Signed v) : MessageInv L Signed v' where
  votes := by
    cases h with
    | countVote vote peerKey votes added err he hadd =>
      exact HeightVoteSet.addVote_holds hadd hv.votes (hmsg _ _ he)
    | startRound aggrs votes he hstep haggrs hvotes =>
      obtain ⟨_, hvotes⟩ := hvotes
      exact HeightVoteSet.setRound_holds hvotes hv.votes
    | enterRound round aggrs votes he hround hint hstep haggrs hvotes =>
      obtain ⟨_, hvotes⟩ := hvotes
      exact HeightVoteSet.setRound_holds hvotes hv.votes
    | _ => exact hv.votes
  sent := h.sent hr hv hown
  stored := h.storedInv (fun s peerKey he => hmsg _ _ he) hv.stored
  final block hblock := by
    obtain ⟨hheight, hvalidators, -⟩ := h.fixed
    rw [hheight, hvalidators]
    rcases h.finalized hblock with hold | ⟨s, hs, hhash⟩
    · exact hv.final block hold
    · obtain ⟨hverified, -, htype, hattested⟩ := hv.stored.precommits _ _ hs
      exact ⟨s, hverified, htype, hattested, hhash⟩

/-- **A handler keeps the provenance of messages**: the votes on record at its end are enough,
because no effect is taken back. -/
theorem Moves.messageInv (h : Moves L e v v') (hlocal : LocalInv v) (hv : MessageInv L Signed v)
    (hmsg : ∀ msg peerKey, e = .msg msg peerKey → MessageOK Signed msg)
    (hown : ∀ vote, .signVote vote ∈ v'.out → VoteOnRecord Signed vote) :
    MessageInv L Signed v' := by
  suffices hend : LocalInv v' ∧ ((∀ vote, .signVote vote ∈ v'.out → VoteOnRecord Signed vote) →
      MessageInv L Signed v') from hend.2 hown
  clear hown
  induction h with
  | refl => exact ⟨hlocal, fun _ => hv⟩
  | tail _ hmove ih =>
    obtain ⟨hinv, hmessage⟩ := ih
    refine ⟨hmove.localInv hinv, fun hown => ?_⟩
    exact hmove.messageInv hinv.round hown hmsg
      (hmessage fun vote hvote => hown vote (hmove.out_subset hvote))

theorem ConsensusState.startNewHeight_messageInv {env : Env} {cs : ConsensusState}
    {extra : TendermintExtra} {validators : ValidatorSet} {pv : Option PrivValidator}
    {block : Option LigoBlock} (h : startNewHeight env extra validators pv block = .ok cs) :
    MessageInv L Signed cs.view := by
  have hstored := startNewHeight_storedInv (L := L) (Attested Signed) h
  obtain ⟨votes, hvotes, h⟩ := Steps.bind_eq_ok.1 h
  cases h
  refine ⟨HeightVoteSet.new_holds hvotes, ?_, hstored, ?_⟩ <;>
    simp [view, Effect.message]

end Consensus
end LigoChain

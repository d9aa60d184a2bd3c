/-
# What the signature of a proposal covers

`CanonicalProposal` in `chain/consensus/tendermint/types/canonical_json.go` makes the message that
a proposer signs, and `defaultSetProposal` and `signAddVote` (`consensus/state.go`) act on the
proposal that arrives.  The message has the height, the round, the parts header and the proof of
lock, and neither `Hash`, whose field is left empty, nor `ProposerPeerKey`, the peer to which the
receiver sends its votes.

A receiver takes a proposal with other values of the two fields for signed
(`setProposal_relayed`).  **Two proposals with one message are alike for it exactly if the two
fields agree** (`proposal_covered_iff`), and `relayed_proposal_redirects_vote` has a run in which a
relaying peer gets the vote that was meant for the proposer.
-/

import LigoChain.Consensus.HandlerMoves
import LigoChain.Consensus.PlainEnv

namespace LigoChain

/-- The encoding of proposals is injective: one message is signed for one chain and one canonical
proposal. -/
def Libs.ProposalJSONInjective (L : Libs) : Prop := Function.Injective2 L.proposalJSON

/-- The message that a proposal's signature is over. -/
def Libs.proposalSignBytes (L : Libs) (chainID : String) (p : Proposal) : Bytes :=
  L.proposalJSON chainID (canonicalProposal p)

/-- **What the message determines.** -/
theorem Libs.proposalSignBytes_eq_iff {L : Libs} (hinj : L.ProposalJSONInjective)
    {chainID : String} {x y : Proposal} :
    L.proposalSignBytes chainID x = L.proposalSignBytes chainID y ↔
      x.height = y.height ∧ x.round = y.round ∧ x.polRound = y.polRound ∧
        x.blockPartsHeader = y.blockPartsHeader ∧ x.polBlockID = y.polBlockID := by
  constructor
  · intro h
    have hcanonical := (hinj h).2
    unfold canonicalProposal at hcanonical
    simp only [CanonicalJSONProposal.mk.injEq] at hcanonical
    obtain ⟨hparts, hheight, hblock, hpol, hround, -⟩ := hcanonical
    exact ⟨hheight, hround, hpol, hparts, hblock⟩
  · rintro ⟨hheight, hround, hpol, hparts, hblock⟩
    unfold proposalSignBytes canonicalProposal
    rw [hheight, hround, hpol, hparts, hblock]

namespace Consensus

/-- The fields of a proposal that `defaultSetProposal` and `signAddVote` act on. -/
structure SameFields (x y : Proposal) : Prop where
  height : x.height = y.height
  round : x.round = y.round
  polRound : x.polRound = y.polRound
  blockPartsHeader : x.blockPartsHeader = y.blockPartsHeader
  hash : x.hash = y.hash
  proposerPeerKey : x.proposerPeerKey = y.proposerPeerKey

namespace ConsensusState

variable {env : Env} {now : ℤ} {cs cs₁ cs₂ : ConsensusState} {x y : Proposal}

/-- What a proposal and an altered copy lead to: neither is taken over, or each is, with its own
record and the peer that it names. -/
structure Relayed (x y : Proposal) (cs₁ cs₂ : ConsensusState) : Prop where
  rest : cs₂ = { cs₁ with proposal := cs₂.proposal, proposerPeerKey := cs₂.proposerPeerKey }
  taken : cs₂ = cs₁ ∨ cs₁.proposal = some x ∧ cs₂.proposal = some y ∧
    cs₁.proposerPeerKey = x.proposerPeerKey ∧ cs₂.proposerPeerKey = y.proposerPeerKey

theorem Relayed.refl (cs : ConsensusState) : Relayed x y cs cs := ⟨rfl, .inl rfl⟩

theorem acceptProposal_relayed (hparts : x.blockPartsHeader = y.blockPartsHeader)
    (h : cs.acceptProposal x = .ok cs₁) :
    ∃ cs₂, cs.acceptProposal y = .ok cs₂ ∧ Relayed x y cs₁ cs₂ := by
  unfold acceptProposal at h ⊢
  rw [hparts] at h
  obtain ⟨parts, hnew, h⟩ := Steps.bind_eq_ok.1 h
  cases h
  rw [hnew]
  exact ⟨_, rfl, ⟨rfl, .inr ⟨rfl, rfl, rfl, rfl⟩⟩⟩

/-- **A copy of a proposal with the same message and signature is accepted as the proposal is.** -/
theorem setProposal_relayed (hinj : env.libs.ProposalJSONInjective)
    (hsign : env.libs.proposalSignBytes env.ligoChainId x =
      env.libs.proposalSignBytes env.ligoChainId y)
    (hsignature : x.signature = y.signature) {err : Option ProposalError}
    (h : cs.setProposal env now (some x) = .ok (cs₁, err)) :
    ∃ cs₂, cs.setProposal env now (some y) = .ok (cs₂, err) ∧ Relayed x y cs₁ cs₂ := by
  obtain ⟨hheight, hround, hpol, hparts, -⟩ := (Libs.proposalSignBytes_eq_iff hinj).1 hsign
  have hverifies : ∀ proposer, proposalVerifies env y proposer = proposalVerifies env x proposer :=
    fun proposer => by
      unfold proposalVerifies
      rw [← hsignature]
      exact congrArg (env.libs.verifyBytes proposer.pubKey · x.signature) hsign.symm
  -- a state that is returned as it is
  have same : ∀ {c : ConsensusState} {e : Option ProposalError},
      (.ok (c, e) : Go (ConsensusState × Option ProposalError)) = .ok (cs₁, err) →
      ∃ cs₂, (.ok (c, e) : Go (ConsensusState × Option ProposalError)) = .ok (cs₂, err) ∧
        Relayed x y cs₁ cs₂ := fun heq => ⟨cs₁, heq, .refl cs₁⟩
  -- the proposal is taken over
  have take : ∀ {c : ConsensusState},
      (c.acceptProposal x >>= fun c' => .ok (c', none)) = .ok (cs₁, err) →
      ∃ cs₂, (c.acceptProposal y >>= fun c' => .ok (c', none)) = .ok (cs₂, err) ∧
        Relayed x y cs₁ cs₂ := by
    intro c htake
    obtain ⟨c', haccept, hresult⟩ := Steps.bind_eq_ok.1 htake
    cases hresult
    obtain ⟨cs₂, haccept', hrelayed⟩ := acceptProposal_relayed hparts haccept
    exact ⟨cs₂, by rw [haccept']; rfl, hrelayed⟩
  unfold setProposal at h ⊢
  dsimp only at h ⊢
  simp only [hverifies, ← hheight, ← hround, ← hpol]
  split_ifs at h ⊢
  · exact same h
  · exact same h
  · exact same h
  · exact same h
  · obtain ⟨⟨c, proposer⟩, hproposer, h⟩ := Steps.bind_eq_ok.1 h
    simp only [hproposer, bind, Except.bind] at h ⊢
    split_ifs at h ⊢
    · exact same h
    · exact take h
  · obtain ⟨⟨c, proposer⟩, hproposer, h⟩ := Steps.bind_eq_ok.1 h
    simp only [hproposer, bind, Except.bind] at h ⊢
    split_ifs at h ⊢
    · exact same h
    · exact same h
    · cases hlower : c.enterLowerRound env now c.height x.round with
      | error p => simp [hlower] at h
      | ok c' =>
        simp only [hlower] at h ⊢
        exact take h

/-- **Two proposals are alike for a receiver**: the fields it acts on agree, and with the same
signature it goes from every state to the same one, but for the record of the proposal; its votes
then go to the same peer. -/
structure Covered (env : Env) (x y : Proposal) : Prop where
  fields : SameFields x y
  receivers : x.signature = y.signature → ∀ now cs cs₁ err,
    setProposal env now cs (some x) = .ok (cs₁, err) →
    ∃ record, setProposal env now cs (some y) = .ok ({ cs₁ with proposal := record }, err)

/-- **What the signature of a proposal covers.**  Two proposals with one message are alike for
every receiver exactly if their `Hash` and `ProposerPeerKey` agree. -/
theorem proposal_covered_iff (hinj : env.libs.ProposalJSONInjective)
    (hsign : env.libs.proposalSignBytes env.ligoChainId x =
      env.libs.proposalSignBytes env.ligoChainId y) :
    Covered env x y ↔ x.hash = y.hash ∧ x.proposerPeerKey = y.proposerPeerKey := by
  constructor
  · intro h
    exact ⟨h.fields.hash, h.fields.proposerPeerKey⟩
  · rintro ⟨hhash, hkey⟩
    obtain ⟨hheight, hround, hpol, hparts, -⟩ := (Libs.proposalSignBytes_eq_iff hinj).1 hsign
    refine ⟨⟨hheight, hround, hpol, hparts, hhash, hkey⟩, fun hsignature now cs cs₁ err h => ?_⟩
    obtain ⟨cs₂, h₂, hrest, htaken⟩ := setProposal_relayed hinj hsign hsignature h
    refine ⟨cs₂.proposal, h₂.trans ?_⟩
    have hsame : cs₂.proposerPeerKey = cs₁.proposerPeerKey := by
      rcases htaken with rfl | ⟨-, -, hx, hy⟩
      · rfl
      · rw [hx, hy, hkey]
    rw [hrest, hsame]

end ConsensusState

/-! ## A relaying peer -/

open ConsensusState

/-- An integer by its sign and its size. -/
def PlainEnv.intCode (i : ℤ) : List ℕ := [if i < 0 then 1 else 0, i.natAbs]

/-- The plain-text libraries, with the sign of the rounds in the message of a proposal. -/
def PlainEnv.signedLibs : Libs :=
  { PlainEnv.libs with
    proposalJSON := fun chainID p => PlainLibs.fieldsCode
      [PlainLibs.textField chainID, p.hash, p.blockPartsHeader.hash, p.polBlockID.hash,
        p.polBlockID.partsHeader.hash,
        PlainLibs.natsCode ([p.blockPartsHeader.total, p.polBlockID.partsHeader.total, p.height] ++
          PlainEnv.intCode p.polRound ++ PlainEnv.intCode p.round)] }

theorem PlainEnv.intCode_inj {i j : ℤ} (h : PlainEnv.intCode i = PlainEnv.intCode j) : i = j := by
  simp only [PlainEnv.intCode, List.cons.injEq, and_true] at h
  obtain ⟨hsign, habs⟩ := h
  split_ifs at hsign <;> omega

theorem PlainEnv.signedLibs_injective : PlainEnv.signedLibs.ProposalJSONInjective := by
  rintro c c' ⟨⟨t, ph⟩, height, ⟨bh, ⟨bt, bph⟩⟩, polRound, round, hash⟩
    ⟨⟨t', ph'⟩, height', ⟨bh', ⟨bt', bph'⟩⟩, polRound', round', hash'⟩ h
  have hfields := PlainLibs.fieldsCode_injective h
  simp only [List.cons.injEq, PlainLibs.textField_inj, PlainLibs.natsCode_inj, List.cons_append,
    List.nil_append, and_true] at hfields
  obtain ⟨rfl, rfl, rfl, rfl, rfl, rfl, rfl, rfl, hrounds⟩ := hfields
  obtain ⟨hpol, hround⟩ := List.append_inj hrounds rfl
  obtain rfl := PlainEnv.intCode_inj hpol
  obtain rfl := PlainEnv.intCode_inj hround
  exact ⟨rfl, rfl⟩

/-- The proposal of the second validator in the first round, as a peer passes it on. -/
def PlainEnv.relayed (peerKey : String) : Proposal :=
  { (PlainEnv.privValidator 2).signProposal PlainEnv.libs PlainEnv.chainID
      { height := 1
        round := 0
        hash := (PlainEnv.blockID 7).hash
        blockPartsHeader := (PlainEnv.blockID 7).partsHeader
        polRound := -1
        polBlockID := BlockID.zero
        proposerPeerKey := "node"
        signature := [] } with
    proposerPeerKey := peerKey }

/-- The equivalence at a proposal and a copy that names another peer. -/
theorem proposal_covered_iff_otherPeer :
    PlainEnv.signedLibs.proposalSignBytes PlainEnv.chainID (PlainEnv.relayed "node") =
        PlainEnv.signedLibs.proposalSignBytes PlainEnv.chainID (PlainEnv.relayed "relay") ∧
      ¬ Covered { PlainEnv.env with libs := PlainEnv.signedLibs } (PlainEnv.relayed "node")
        (PlainEnv.relayed "relay") := by
  refine ⟨rfl, fun h => ?_⟩
  have hkey := ((@proposal_covered_iff { PlainEnv.env with libs := PlainEnv.signedLibs }
    (PlainEnv.relayed "node") (PlainEnv.relayed "relay") PlainEnv.signedLibs_injective rfl).1 h).2
  exact absurd hkey (by decide)

/-- The third validator enters the first round, and gets the proposal and the block. -/
def PlainEnv.relayRun (peerKey : String) : List (ℤ × Event) :=
  [(0, .timeout ⟨1, 0, .newHeight⟩), (0, .msg (.proposal (some (PlainEnv.relayed peerKey))) "peer"),
    (0, .msg (PlainEnv.blockPart 0 7) "peer")]

/-- A vote is sent to the peer. -/
def PlainEnv.votesTo (peerKey : String) : Effect → Bool
  | .vote2Proposer _ key => key == peerKey
  | _ => false

/-- **A relaying peer redirects a vote.**  The proposal and its altered copy have one message and
one signature; the receiver sends its prevote to the peer that the copy names. -/
theorem relayed_proposal_redirects_vote :
    PlainEnv.libs.proposalSignBytes PlainEnv.chainID (PlainEnv.relayed "node") =
        PlainEnv.libs.proposalSignBytes PlainEnv.chainID (PlainEnv.relayed "relay") ∧
      (PlainEnv.relayed "node").signature = (PlainEnv.relayed "relay").signature ∧
      ∃ cs₀ cs₁ cs₂, PlainEnv.start 3 = .ok cs₀ ∧
        run PlainEnv.env cs₀ (PlainEnv.relayRun "node") = .ok cs₁ ∧
        run PlainEnv.env cs₀ (PlainEnv.relayRun "relay") = .ok cs₂ ∧
        cs₁.out.any (PlainEnv.votesTo "node") = true ∧
        cs₂.out.any (PlainEnv.votesTo "node") = false ∧
        cs₂.out.any (PlainEnv.votesTo "relay") = true := by
  refine ⟨rfl, rfl, ?_⟩
  obtain ⟨cs₀, hstart, ⟨cs₁, hrun₁, hout₁⟩, cs₂, hrun₂, hout₂⟩ : ∃ cs₀, PlainEnv.start 3 = .ok cs₀ ∧
      (∃ cs₁, run PlainEnv.env cs₀ (PlainEnv.relayRun "node") = .ok cs₁ ∧
        cs₁.out.any (PlainEnv.votesTo "node") = true) ∧
      ∃ cs₂, run PlainEnv.env cs₀ (PlainEnv.relayRun "relay") = .ok cs₂ ∧
        cs₂.out.any (PlainEnv.votesTo "node") = false ∧
        cs₂.out.any (PlainEnv.votesTo "relay") = true := by
    decide +kernel
  exact ⟨cs₀, cs₁, cs₂, hstart, hrun₁, hrun₂, hout₁, hout₂⟩

end Consensus
end LigoChain
